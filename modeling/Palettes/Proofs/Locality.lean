import Palettes.Proofs.Depth
import Palettes.Proofs.Transcript

/-!
Resolving a palette depends on what the palette reaches and on nothing else. Two
tables may differ in all other palettes, and in the order of all palettes: if
they agree on what is reached, missing palettes included, then a palette comes
to the same in both, with the same calls on the way. Of what is reached they
need not agree on more than the parents and what the legends come to. The tables
may have different sizes, so that the tellings nest to different depths; where
the one has an answer, one that may nest deeper has the same.
-/
namespace Palettes

/-- Palettes with the same parents, whose legends come to the same calls. -/
structure PreparedPalette.ToldAlike (p p' : PreparedPalette) : Prop where
  parents : p'.parents = p.parents
  calls : ∀ ancestor, p'.calls ancestor = p.calls ancestor

namespace PreparedPalette.ToldAlike

theorem refl (p : PreparedPalette) : p.ToldAlike p := ⟨rfl, fun _ => rfl⟩

theorem symm {p p' : PreparedPalette} (h : p.ToldAlike p') : p'.ToldAlike p :=
  ⟨h.parents.symm, fun ancestor => (h.calls ancestor).symm⟩

end PreparedPalette.ToldAlike

namespace PreparedTable

variable {t t' : PreparedTable} {name child other q : String}

/-- Two tables have the same palettes, or none, under all names that are reached
from a name. Palettes are the same if their legends are, in the same order: a
comparison of legends by name alone would let two palettes pass that tell theirs
in different orders. -/
def AgreeOn (t t' : PreparedTable) (name : String) : Prop :=
  ∀ q, t.Reaches name q → t'.get? q = t.get? q

namespace AgreeOn

theorem refl (t : PreparedTable) (name : String) : t.AgreeOn t name := fun _ _ => rfl

theorem get? (h : t.AgreeOn t' name) : t'.get? name = t.get? name := h name .refl

theorem parent (h : t.AgreeOn t' child) (hext : t.Extends child other) : t.AgreeOn t' other :=
  fun q hq => h q (.head hext hq)

theorem extends_iff (h : t.AgreeOn t' child) : t'.Extends child other ↔ t.Extends child other := by
  rw [Extends, Extends, h.get?]

/-- The same names are reached. The induction follows the path in the second
table from its start, and the tables agree on all that is left of it. -/
theorem reaches (h : t.AgreeOn t' name) (hq : t'.Reaches name q) : t.Reaches name q := by
  induction hq using Relation.ReflTransGen.head_induction_on with
  | refl => exact .refl
  | head hext _ ih =>
    have hext' := h.extends_iff.mp hext
    exact .head hext' (ih (h.parent hext'))

theorem symm (h : t.AgreeOn t' name) : t'.AgreeOn t name :=
  fun q hq => (h q (h.reaches hq)).symm

/-- It is enough to go through names that no parent leads out of. -/
theorem of_closed {names : List String} (hname : name ∈ names)
    (hclosed : ∀ a ∈ names, ∀ q ∈ ((t.get? a).map (·.parents)).getD [], q ∈ names)
    (hsame : ∀ a ∈ names, t'.get? a = t.get? a) : t.AgreeOn t' name := by
  have hreached {q : String} (hq : t.Reaches name q) : q ∈ names := by
    induction hq with
    | refl => exact hname
    | tail _ hext ih =>
      obtain ⟨p, hp, hmem⟩ := hext
      exact hclosed _ ih _ (by simpa [hp] using hmem)
  exact fun q hq => hsame q (hreached hq)

end AgreeOn

/-- Two tables have palettes that are told alike, or none, under all names that
are reached from a name. -/
def AlikeOn (t t' : PreparedTable) (name : String) : Prop :=
  ∀ q, t.Reaches name q →
    (t.get? q = none ∧ t'.get? q = none) ∨
      ∃ p p', t.get? q = some p ∧ t'.get? q = some p' ∧ p.ToldAlike p'

theorem AlikeOn.parent (h : t.AlikeOn t' child) (hext : t.Extends child other) :
    t.AlikeOn t' other :=
  fun q hq => h q (.head hext hq)

theorem AgreeOn.alikeOn (h : t.AgreeOn t' name) : t.AlikeOn t' name := by
  intro q hq
  rw [h q hq]
  cases t.get? q with
  | none => exact .inl ⟨rfl, rfl⟩
  | some p => exact .inr ⟨p, p, rfl, rfl, .refl p⟩

end PreparedTable

variable {ι σ : Type}

/-! ## Answers that carry over -/

/-- Where the first answer is there, the second one is the same. -/
def Answer.Le (x y : Answer σ) : Prop := ∀ a, x = some a → y = some a

theorem Answer.Le.rfl {x : Answer σ} : x.Le x := fun _ h => h

theorem Answer.Le.antisymm {x y : Answer σ} (h : x.Le y) (h' : y.Le x) : x = y :=
  Option.ext fun a => ⟨h a, h' a⟩

theorem Answer.Le.andThen {x y : Answer σ} (hxy : x.Le y) {next next' : σ → Answer σ}
    (hnext : ∀ s, (next s).Le (next' s)) : (x.andThen next).Le (y.andThen next') := by
  rintro ⟨v, s⟩ h
  rw [Answer.andThen_eq_some_iff] at h ⊢
  exact h.imp (fun ⟨e, hx, hv⟩ => ⟨e, hxy _ hx, hv⟩)
    fun ⟨s₁, hx, hs⟩ => ⟨s₁, hxy _ hx, hnext s₁ _ hs⟩

theorem Plan.carryOut_le {ask ask' : ι → σ → Answer σ} (hask : ∀ j s, (ask j s).Le (ask' j s))
    (plan : Plan ι σ) : (plan.carryOut ask).Le (plan.carryOut ask') := by
  induction plan with
  | conclude verdict state => exact .rfl
  | resolve target state next ih =>
    intro a h
    rw [carryOut] at h ⊢
    cases ha : ask target state with
    | none => simp [ha] at h
    | some answer =>
      rw [hask target state answer ha]
      simp only [ha] at h
      exact ih answer.1 answer.2 a h

namespace Telling

variable {w : Setting} {t' : PreparedTable} {l : Listener ι σ} {depth depth' : Nat}
  {lineage : List String} {name : String}

theorem parents_le {ask ask' : String → ι → σ → Answer σ} {parents : List String}
    (hask : ∀ q ∈ parents, ∀ j s, (ask q j s).Le (ask' q j s)) (i : ι) (s : σ) :
    (Telling.parents ⟨w, l⟩ ask i parents s).Le
      (Telling.parents ⟨{ w with prepared := t' }, l⟩ ask' i parents s) := by
  induction parents generalizing s with
  | nil => exact .rfl
  | cons q parents ih =>
    have hplan := Plan.carryOut_le (hask q List.mem_cons_self) (l.inherit i ⟨w.table, q⟩ s)
    exact hplan.andThen (ih fun r hr => hask r (List.mem_cons_of_mem _ hr))

theorem body_le {ask ask' : String → ι → σ → Answer σ} {p p' : PreparedPalette}
    (halike : p.ToldAlike p') (hask : ∀ q ∈ p.parents, ∀ j s, (ask q j s).Le (ask' q j s)) (i : ι)
    (ancestor : Bool) (s : σ) :
    (Telling.body ⟨w, l⟩ ask i ancestor p s).Le
      (Telling.body ⟨{ w with prepared := t' }, l⟩ ask' i ancestor p' s) := by
  rw [body, body, halike.parents, halike.calls]
  exact (parents_le hask i s).andThen fun _ => .rfl

/-- The induction is on the depth. The lineage is the same in both tables, and
with every step up the tables are alike on what is reached from there. -/
theorem ancestor_le (halike : w.prepared.AlikeOn t' name) (hle : depth ≤ depth') (i : ι) (s : σ) :
    (Telling.ancestor ⟨w, l⟩ depth lineage name i s).Le
      (Telling.ancestor ⟨{ w with prepared := t' }, l⟩ depth' lineage name i s) := by
  induction depth generalizing depth' lineage name i s with
  | zero => intro a h; cases h
  | succ depth ih =>
    obtain ⟨depth', rfl⟩ := Nat.exists_eq_succ_of_ne_zero (Nat.ne_zero_of_lt hle)
    obtain ⟨hnone, hnone'⟩ | ⟨p, p', hp, hp', htold⟩ := halike name .refl
    · rw [ancestor_undefined (t := ⟨w, l⟩) hnone,
        ancestor_undefined (t := ⟨{ w with prepared := t' }, l⟩) hnone']
      exact .rfl
    · by_cases hc : w.detectCycles = true ∧ name ∈ lineage
      · rw [ancestor_cyclic (t := ⟨w, l⟩) hp hc.1 hc.2,
          ancestor_cyclic (t := ⟨{ w with prepared := t' }, l⟩) hp' hc.1 hc.2]
        exact .rfl
      · rw [ancestor_told (t := ⟨w, l⟩) hp hc,
          ancestor_told (t := ⟨{ w with prepared := t' }, l⟩) hp' hc]
        exact body_le htold (fun q hq j s =>
          ih (halike.parent ⟨p, hp, hq⟩) (Nat.le_of_succ_le_succ hle) j s) i true s

theorem palette_le (halike : w.prepared.AlikeOn t' name) (hle : depth ≤ depth') (i : ι) (s : σ) :
    (Telling.palette ⟨w, l⟩ depth name i s).Le
      (Telling.palette ⟨{ w with prepared := t' }, l⟩ depth' name i s) := by
  cases depth with
  | zero => intro a h; cases h
  | succ depth =>
    obtain ⟨depth', rfl⟩ := Nat.exists_eq_succ_of_ne_zero (Nat.ne_zero_of_lt hle)
    obtain ⟨hnone, hnone'⟩ | ⟨p, p', hp, hp', htold⟩ := halike name .refl
    · rw [palette_undefined (t := ⟨w, l⟩) hnone,
        palette_undefined (t := ⟨{ w with prepared := t' }, l⟩) hnone']
      exact .rfl
    · rw [palette_told (t := ⟨w, l⟩) hp,
        palette_told (t := ⟨{ w with prepared := t' }, l⟩) hp']
      exact body_le htold (fun q hq j s =>
        ancestor_le (halike.parent ⟨p, hp, hq⟩) (Nat.le_of_succ_le_succ hle) j s) i false _

/-- At whatever depths the two tables are told, there is one answer. Both are
compared with a telling that may nest as deep as either. -/
theorem palette_agree (hagree : w.prepared.AgreeOn t' name) {i : ι} {s : σ} {a a' : Verdict × σ}
    (h : Telling.palette ⟨w, l⟩ depth name i s = some a)
    (h' : Telling.palette ⟨{ w with prepared := t' }, l⟩ depth' name i s = some a') : a' = a := by
  have hfirst := palette_le hagree.alikeOn (Nat.le_max_left depth depth') i s a h
  have hself := (PreparedTable.AgreeOn.refl t' name).alikeOn
  have hsecond := palette_le (w := { w with prepared := t' }) hself
    (Nat.le_max_right depth depth') i s a' h'
  exact Option.some.inj (hsecond.symm.trans hfirst)

end Telling

namespace Resolver

variable {options : Options} {source source' : Source} {table palette : String}
  {defs defs' : PaletteDefs}

/-- What shows of a palette that a new resolver resolves. -/
theorem resolvePalette?_new (options : Options) (hdefs : source table = some defs)
    (palette : String) (l : Listener ι σ) (i : ι) (s : σ) :
    (({ options } : Resolver).resolvePalette? source table palette l i s).map Outcome.shown =
      Telling.palette ⟨⟨table, .ofDefs defs, options.detectCycles⟩, l⟩
        (options.depth (PreparedTable.ofDefs defs).size) palette i s := by
  have ht : ({ options } : Resolver).tableFor source table = .ofDefs defs := by
    simp [tableFor, prepared?, Listing.get?, Listing.empty, PreparedTable.ofSource, hdefs]
  rw [resolvePalette?_shown, depthFor, setting, ht]

variable (hdefs : source table = some defs) (hdefs' : source' table = some defs')
  (hagree : (PreparedTable.ofDefs defs).AgreeOn (.ofDefs defs') palette)

include hdefs hdefs' hagree

/-- Ends agree even if the walks may nest to different depths. -/
theorem resolvePalette?_agree {nesting nesting' : Nat} {l : Listener ι σ} {i : ι} {s : σ}
    {x x' : Verdict × σ}
    (hx : (({ options := { options with nesting } } : Resolver).resolvePalette? source table palette
      l i s).map Outcome.shown = some x)
    (hx' : (({ options := { options with nesting := nesting' } } : Resolver).resolvePalette?
      source' table palette l i s).map Outcome.shown = some x') : x' = x := by
  rw [resolvePalette?_new _ hdefs] at hx
  rw [resolvePalette?_new _ hdefs'] at hx'
  exact Telling.palette_agree hagree hx hx'

/-- Where the walk over one table comes to an end, that over the other does so
as well, as soon as it may nest deep enough. -/
theorem resolvePalette?_elsewhere {nesting : Nat} {l : Listener ι σ} {i : ι} {s : σ}
    {x : Verdict × σ}
    (hx : (({ options := { options with nesting } } : Resolver).resolvePalette? source table palette
      l i s).map Outcome.shown = some x) :
    ∃ least, ∀ nesting', least ≤ nesting' →
      (({ options := { options with nesting := nesting' } } : Resolver).resolvePalette? source'
        table palette l i s).map Outcome.shown = some x := by
  refine ⟨nesting + (PreparedTable.ofDefs defs).size, fun nesting' hle => ?_⟩
  by_cases hdetect : options.detectCycles = true
  · obtain ⟨o, ho⟩ := Option.isSome_iff_exists.mp
      (({ options := { options with nesting := nesting' } } : Resolver).resolvePalette?_isSome
        source' table l i s hdetect palette)
    have hx' := congrArg (Option.map Outcome.shown) ho
    rw [Option.map_some] at hx'
    rw [hx', resolvePalette?_agree hdefs hdefs' hagree hx hx']
  · rw [resolvePalette?_new _ hdefs] at hx
    rw [resolvePalette?_new _ hdefs']
    have hdepth : ({ options with nesting } : Options).depth (PreparedTable.ofDefs defs).size ≤
        ({ options with nesting := nesting' } : Options).depth
          (PreparedTable.ofDefs defs').size := by
      simp only [Options.depth, Options.nested, if_neg hdetect]
      omega
    exact Telling.palette_le hagree.alikeOn hdepth i s x hx

variable (options source source' table)

/-- If two tables agree on what a palette reaches, then new resolvers with the
same options come to the same at it and make the same calls on the way, whatever
else the tables hold and in whatever order. The order that may differ is that of
the palettes: each palette that is reached has its legends in the same order in
both tables. While cycles are detected both come to an end; otherwise the one
does where the other does, if both may nest as deep as they need. -/
theorem unreached_palettes_do_not_show (l : Listener ι σ) (i : ι) (s : σ) :
    (∀ o o', ({ options } : Resolver).resolvePalette? source table palette l i s = some o →
      ({ options } : Resolver).resolvePalette? source' table palette l i s = some o' →
      o'.shown = o.shown ∧ ∃ heard,
        (({ options } : Resolver).resolvePalette? source table palette l.transcribed i
          { state := s }).map Outcome.shown = some (o.result, ⟨o.state, heard⟩) ∧
        (({ options } : Resolver).resolvePalette? source' table palette l.transcribed i
          { state := s }).map Outcome.shown = some (o.result, ⟨o.state, heard⟩)) ∧
    (options.detectCycles = true →
      (({ options } : Resolver).resolvePalette? source table palette l i s).isSome ∧
      (({ options } : Resolver).resolvePalette? source' table palette l i s).isSome) ∧
    ∀ nesting x,
      ((({ options := { options with nesting } } : Resolver).resolvePalette? source table palette
          l.transcribed i { state := s }).map Outcome.shown = some x →
        ∃ least, ∀ nesting', least ≤ nesting' →
          (({ options := { options with nesting := nesting' } } : Resolver).resolvePalette? source'
            table palette l.transcribed i { state := s }).map Outcome.shown = some x) ∧
      ((({ options := { options with nesting } } : Resolver).resolvePalette? source' table palette
          l.transcribed i { state := s }).map Outcome.shown = some x →
        ∃ least, ∀ nesting', least ≤ nesting' →
          (({ options := { options with nesting := nesting' } } : Resolver).resolvePalette? source
            table palette l.transcribed i { state := s }).map Outcome.shown = some x) := by
  refine ⟨fun o o' ho ho' => ?_, fun hdetect => ⟨?_, ?_⟩, fun nesting x => ⟨fun hx => ?_,
    fun hx => ?_⟩⟩
  · have hshown (q : Outcome σ Unit) {source₁ : Source}
        (hq : ({ options } : Resolver).resolvePalette? source₁ table palette l i s = some q) :
        (({ options } : Resolver).resolvePalette? source₁ table palette l i s).map Outcome.shown =
          some q.shown := by
      rw [hq, Option.map_some]
    refine ⟨resolvePalette?_agree hdefs hdefs' hagree (hshown o ho) (hshown o' ho'), ?_⟩
    obtain ⟨oh, hoh, hheard⟩ := resolvePalette?_transcript _ source table ho
    obtain ⟨oh', hoh', -⟩ := resolvePalette?_transcript _ source' table ho'
    have hleft := congrArg (Option.map Outcome.shown) hoh
    have hright := congrArg (Option.map Outcome.shown) hoh'
    rw [Option.map_some] at hleft hright
    have hsame := resolvePalette?_agree hdefs hdefs' hagree hleft hright
    exact ⟨oh.state.heard, by rw [hleft, hheard], by rw [hright, hsame, hheard]⟩
  · exact resolvePalette?_isSome _ source table l i s hdetect palette
  · exact resolvePalette?_isSome _ source' table l i s hdetect palette
  · exact resolvePalette?_elsewhere hdefs hdefs' hagree hx
  · exact resolvePalette?_elsewhere hdefs' hdefs hagree.symm hx

omit hdefs hdefs' hagree

/-- The knot with its palettes in another order and other palettes around them,
some of them behind a cycle of their own. -/
def tangle : PaletteDefs := .ofList
  [("rest extends one extends loop", .ofList [("main", ["note"])]),
    ("two extends gone extends one", .ofList [("-main", ["id"])]),
    ("loop extends loop", .empty),
    ("one extends two", .ofList [("main", ["id"])])]

theorem knot_agreeOn_tangle :
    (PreparedTable.ofDefs PreparedTable.knot).AgreeOn (.ofDefs tangle) "one" :=
  .of_closed (show "one" ∈ ["one", "two", "gone"] by decide) (by decide +kernel) (by decide +kernel)

/-- A recorder meets the same cycle in both tables. -/
theorem tangle_is_told_as_knot :
    ∃ o, ({} : Resolver).resolvePalette? (fun _ => some tangle) "shop" "one"
        (Recorder.listener true) () #[] = some o ∧
      o.result = .error (.cyclicInheritance ["one", "two", "one"]) ∧
      o.state.toList =
        [.call (.start "shop" "one"), .inherit "two", .inherit "one"] := by
  have hend : (({} : Resolver).resolvePalette? (fun _ => some PreparedTable.knot) "shop" "one"
      (Recorder.listener true) () #[]).map Outcome.shown =
        some (.error (.cyclicInheritance ["one", "two", "one"]),
          #[.call (.start "shop" "one"), .inherit "two", .inherit "one"]) := by rfl
  obtain ⟨o, ho, hshown⟩ := Option.map_eq_some_iff.mp hend
  obtain ⟨hsame, hends, -⟩ := unreached_palettes_do_not_show {}
    (fun _ => some PreparedTable.knot) (fun _ => some tangle) "shop" rfl rfl knot_agreeOn_tangle
    (Recorder.listener true) () #[]
  obtain ⟨o', ho'⟩ := Option.isSome_iff_exists.mp (hends rfl).2
  have hshown' := ((hsame o o' ho ho').1).trans hshown
  obtain ⟨hresult, hstate⟩ := Prod.mk.inj hshown'
  exact ⟨o', ho', hresult, by rw [hstate]⟩

end Resolver

end Palettes
