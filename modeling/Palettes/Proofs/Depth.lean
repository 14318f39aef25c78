import Palettes.Proofs.Inheritance
import Palettes.Proofs.Staging

/-!
While cycles are detected, every telling has an answer: the names on a lineage
are declared and distinct, so there are at most as many as the table has
palettes, and one level more than that is never used up. The listeners may ask
for parents as they like, since a plan is finite.
-/
namespace Palettes

variable {ι σ : Type}

theorem Plan.carryOut_isSome {ask : ι → σ → Answer σ} (hask : ∀ j s, (ask j s).isSome)
    (plan : Plan ι σ) : (plan.carryOut ask).isSome := by
  induction plan with
  | conclude verdict state => rfl
  | resolve target state next ih =>
    obtain ⟨⟨v, s⟩, h⟩ := Option.isSome_iff_exists.mp (hask target state)
    simp only [carryOut, h]
    exact ih v s

namespace Telling

variable (t : Telling ι σ)

theorem parents_isSome {ask : String → ι → σ → Answer σ} (hask : ∀ p j s, (ask p j s).isSome)
    (i : ι) (parents : List String) (s : σ) : (t.parents ask i parents s).isSome := by
  induction parents generalizing s with
  | nil => rfl
  | cons parent parents ih =>
    have hplan := Plan.carryOut_isSome (hask parent) (t.listener.inherit i ⟨t.table, parent⟩ s)
    exact Answer.isSome_andThen hplan ih

theorem body_isSome {ask : String → ι → σ → Answer σ} (hask : ∀ p j s, (ask p j s).isSome)
    (i : ι) (ancestor : Bool) (p : PreparedPalette) (s : σ) :
    (t.body ask i ancestor p s).isSome :=
  Answer.isSome_andThen (t.parents_isSome hask i p.parents s) fun _ => rfl

/-- The induction is on the depth; every level down the lineage has one more name. -/
theorem ancestor_isSome (hdetect : t.detectCycles = true) {depth : Nat} {lineage : List String}
    (hdistinct : t.prepared.Distinct lineage)
    (hdepth : t.prepared.size < depth + lineage.length) (name : String) (i : ι) (s : σ) :
    (t.ancestor depth lineage name i s).isSome := by
  induction depth generalizing lineage name i s with
  | zero =>
    have hle := hdistinct.length_le
    omega
  | succ depth ih =>
    cases hp : t.prepared.get? name with
    | none => rw [ancestor_undefined hp]; rfl
    | some p =>
      by_cases hc : name ∈ lineage
      · rw [ancestor_cyclic hp hdetect hc]; rfl
      · rw [ancestor_told hp (by simp [hc])]
        have hname : name ∈ t.prepared.names := (t.prepared.mem_names_iff name).mpr ⟨p, hp⟩
        have hdepth' : t.prepared.size < depth + (lineage ++ [name]).length := by
          rw [List.length_append, List.length_singleton]
          omega
        exact t.body_isSome (fun q j s' => ih (hdistinct.append hname hc) hdepth' q j s') i true p s

theorem palette_isSome (hdetect : t.detectCycles = true) {depth : Nat}
    (hdepth : t.prepared.size < depth) (name : String) (i : ι) (s : σ) :
    (t.palette depth name i s).isSome := by
  obtain ⟨depth, rfl⟩ := Nat.exists_eq_succ_of_ne_zero (Nat.ne_zero_of_lt hdepth)
  cases hp : t.prepared.get? name with
  | none => rw [palette_undefined hp]; rfl
  | some p =>
    have hname : name ∈ t.prepared.names := (t.prepared.mem_names_iff name).mpr ⟨p, hp⟩
    rw [palette_told hp]
    exact t.body_isSome (fun q j s' => t.ancestor_isSome hdetect (.singleton hname)
      (by simpa using hdepth) q j s') i false p _

theorem palettes_isSome (hdetect : t.detectCycles = true) {depth : Nat}
    (hdepth : t.prepared.size < depth) (i : ι) (names : List String) (s : σ) :
    (t.palettes depth i names s).isSome := by
  induction names generalizing s with
  | nil => rfl
  | cons name names ih =>
    exact Answer.isSome_andThen (t.palette_isSome hdetect hdepth name i s) ih

theorem whole_isSome (hdetect : t.detectCycles = true) {depth : Nat}
    (hdepth : t.prepared.size < depth) (i : ι) (s : σ) : (t.whole depth i s).isSome :=
  Answer.isSome_andThen (t.palettes_isSome hdetect hdepth i t.prepared.names s) fun _ => rfl

end Telling

namespace Resolver

variable (r : Resolver) (source : Source) (table : String) (l : Listener ι σ) (i : ι) (s : σ)

theorem resolvePalette?_isSome (hdetect : r.options.detectCycles = true) (palette : String) :
    (r.resolvePalette? source table palette l i s).isSome := by
  obtain ⟨⟨v, s'⟩, htold⟩ := Option.isSome_iff_exists.mp
    (Telling.palette_isSome ⟨r.setting table (r.tableFor source table), l⟩ hdetect
      (r.options.lt_depth (r.tableFor source table).size) palette i s)
  obtain ⟨o, ho, -⟩ := resolvePalette?_of_told htold
  exact Option.isSome_iff_exists.mpr ⟨o, ho⟩

theorem resolve?_isSome (hdetect : r.options.detectCycles = true) :
    (r.resolve? source table l i s).isSome := by
  cases hdefs : source table with
  | none => rw [r.resolve?_none l i s hdefs]; rfl
  | some defs =>
    obtain ⟨⟨v, s'⟩, htold⟩ := Option.isSome_iff_exists.mp
      (Telling.whole_isSome ⟨r.setting table (.ofDefs defs), l⟩ hdetect
        (r.options.lt_depth (PreparedTable.ofDefs defs).size) i s)
    obtain ⟨o, ho, -⟩ := resolve?_of_told hdefs htold
    exact Option.isSome_iff_exists.mpr ⟨o, ho⟩

end Resolver

end Palettes
