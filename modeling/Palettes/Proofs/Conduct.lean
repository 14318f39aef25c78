import Palettes.Proofs.Inheritance
import Palettes.Proofs.Staging

/-!
Rules for listeners of any conduct. The first says what a telling keeps: if the
listeners keep an invariant, and report no error but good ones as long as their
questions come to good ones, then the telling keeps it and its own errors are
good. Good are the errors that are so: they name a palette that is missing or a
cycle that is there. The second rule says when a telling is another one seen
through a map of the states, and with it the operation that tells.
-/
namespace Palettes

variable {ι κ σ τ : Type}

/-! ## Genuine errors -/

/-- A chain of parents that runs into itself. -/
structure PreparedTable.Lasso (t : PreparedTable) (top : String) (chain : List String) : Prop where
  two_le : 2 ≤ chain.length
  head? : chain.head? = some top
  isChain : chain.IsChain t.Extends
  distinct : chain.dropLast.Nodup
  closes : ∃ q ∈ chain.dropLast, chain.getLast? = some q

/-- What an error says, met while `top` is told in its own right, is so. -/
def PreparedTable.Genuine (t : PreparedTable) (table top : String) : ResolveError → Prop
  | .undefinedPalette table' q =>
    table' = table ∧ q ∉ t.names ∧ (q = top ∨ ∃ a, t.Reaches top a ∧ t.Extends a q)
  | .cyclicInheritance chain => t.Lasso top chain

/-- A palette on its own lineage makes a lasso. -/
theorem PreparedTable.Lineage.lasso {t : PreparedTable} {top child name : String}
    {lineage : List String} (h : t.Lineage top lineage child) (hext : t.Extends child name)
    (hdistinct : lineage.Nodup) (hmem : name ∈ lineage) : t.Lasso top (lineage ++ [name]) where
  two_le := by
    have hpos := List.length_pos_of_mem hmem
    simp only [List.length_append, List.length_singleton]
    omega
  head? := (h.step hext).head?
  isChain := (h.step hext).isChain
  distinct := by simpa using hdistinct
  closes := ⟨name, by simpa using hmem, by simp⟩

/-! ## What is kept -/

/-- Calls on the content of a palette, made wherever it is told. -/
def Call.IsContent : Call → Prop
  | .legend _ | .field _ => True
  | .start _ _ | .finish => False

theorem PreparedPalette.isContent_of_mem {p : PreparedPalette} {ancestor : Bool} {c : Call}
    (h : c ∈ p.calls ancestor) : c.IsContent := by
  obtain ⟨e, -, hc⟩ := List.mem_flatMap.mp h
  rcases List.mem_cons.mp hc with rfl | hc
  · trivial
  · obtain ⟨f, -, rfl⟩ := List.mem_map.mp hc
    trivial

/-- An answer in which the invariant holds, and whose error, if any, is good. -/
def Answer.Safe (Inv : σ → Prop) (Good : ResolveError → Prop) (x : Answer σ) : Prop :=
  ∀ v s, x = some (v, s) → Inv s ∧ ∀ e, v = .error e → Good e

theorem Answer.Safe.andThen {Inv : σ → Prop} {Good : ResolveError → Prop} {x : Answer σ}
    (hx : x.Safe Inv Good) {next : σ → Answer σ} (hnext : ∀ s, Inv s → (next s).Safe Inv Good) :
    (x.andThen next).Safe Inv Good := by
  intro v s h
  obtain ⟨e, hxe, rfl⟩ | ⟨s₁, hxs, hs⟩ := Answer.andThen_eq_some_iff.mp h
  · exact hx _ _ hxe
  · exact hnext s₁ (hx _ _ hxs).1 v s hs

/-- What is accepted in a state in which the invariant holds. -/
theorem Answer.Safe.ok {Inv : σ → Prop} {Good : ResolveError → Prop} {s : σ} (h : Inv s) :
    Answer.Safe Inv Good (some (.ok (), s)) := by
  intro v s' hx
  cases hx
  exact ⟨h, by simp⟩

/-- A plan that keeps the invariant and reports no error but good ones, as long
as its questions do. -/
def Plan.Safe (Inv : σ → Prop) (Good : ResolveError → Prop) : Plan ι σ → Prop
  | .conclude verdict state => Inv state ∧ ∀ e, verdict = .error e → Good e
  | .resolve _ state next =>
    Inv state ∧ ∀ v s, Inv s → (∀ e, v = .error e → Good e) → (next v s).Safe Inv Good

structure Listener.Safe (l : Listener ι σ) (Inv : σ → Prop) (Good : ResolveError → Prop) :
    Prop where
  content : ∀ i c s, c.IsContent → Inv s → Inv (l.receive i c s)
  inherit : ∀ i h s, Inv s → (l.inherit i h s).Safe Inv Good

theorem Listener.Safe.receiveAll {Inv : σ → Prop} {Good : ResolveError → Prop}
    {l : Listener ι σ} (hl : l.Safe Inv Good) (i : ι) {calls : List Call}
    (hcalls : ∀ c ∈ calls, c.IsContent) {s : σ} (h : Inv s) : Inv (l.receiveAll i calls s) := by
  induction calls generalizing s with
  | nil => exact h
  | cons c calls ih =>
    have hfirst := hl.content i c s (hcalls c List.mem_cons_self) h
    exact ih (fun c' hc' => hcalls c' (List.mem_cons_of_mem _ hc')) hfirst

theorem Plan.Safe.carryOut {Inv : σ → Prop} {Good : ResolveError → Prop}
    {ask : ι → σ → Answer σ} (hask : ∀ j s, Inv s → (ask j s).Safe Inv Good)
    {plan : Plan ι σ} (h : plan.Safe Inv Good) : (plan.carryOut ask).Safe Inv Good := by
  induction plan with
  | conclude verdict state =>
    intro v s hx
    cases hx
    exact h
  | resolve target state next ih =>
    intro v s hx
    rw [Plan.carryOut] at hx
    cases ha : ask target state with
    | none => simp [ha] at hx
    | some answer =>
      obtain ⟨v₁, s₁⟩ := answer
      simp only [ha] at hx
      obtain ⟨hinv, hgood⟩ := hask target state h.1 v₁ s₁ ha
      exact ih v₁ s₁ (h.2 v₁ s₁ hinv hgood) v s hx

namespace Telling

variable {t : Telling ι σ} {Inv : σ → Prop} {Good : ResolveError → Prop}

theorem parents_safe (hl : t.listener.Safe Inv Good) {ask : String → ι → σ → Answer σ}
    {parents : List String}
    (hask : ∀ q ∈ parents, ∀ j s, Inv s → (ask q j s).Safe Inv Good) (i : ι) {s : σ}
    (h : Inv s) : (t.parents ask i parents s).Safe Inv Good := by
  induction parents generalizing s with
  | nil => exact .ok h
  | cons q parents ih =>
    have hplan := (hl.inherit i ⟨t.table, q⟩ s h).carryOut (hask q List.mem_cons_self)
    exact hplan.andThen fun s₁ h₁ => ih (fun r hr => hask r (List.mem_cons_of_mem _ hr)) h₁

theorem body_safe (hl : t.listener.Safe Inv Good) {ask : String → ι → σ → Answer σ}
    {p : PreparedPalette} (hask : ∀ q ∈ p.parents, ∀ j s, Inv s → (ask q j s).Safe Inv Good)
    (i : ι) (ancestor : Bool) {s : σ} (h : Inv s) :
    (t.body ask i ancestor p s).Safe Inv Good :=
  (parents_safe hl hask i h).andThen fun _ h₁ =>
    .ok (hl.receiveAll i (fun _ hc => p.isContent_of_mem hc) h₁)

/-- The lineage invariant: every question stands on a path of parents from the
palette told in its own right, without repetition while cycles are detected. -/
theorem ancestor_safe {top : String} (hl : t.listener.Safe Inv Good)
    (hgood : ∀ e, t.prepared.Genuine t.table top e → Good e) {depth : Nat}
    {lineage : List String} {child name : String} (hlineage : t.prepared.Lineage top lineage child)
    (hdistinct : t.detectCycles = true → lineage.Nodup) (hext : t.prepared.Extends child name)
    (i : ι) {s : σ} (h : Inv s) : (t.ancestor depth lineage name i s).Safe Inv Good := by
  induction depth generalizing lineage child name i s with
  | zero => intro v s' hx; cases hx
  | succ depth ih =>
    intro v s' hx
    cases hp : t.prepared.get? name with
    | none =>
      rw [ancestor_undefined hp] at hx
      cases hx
      have hmissing : name ∉ t.prepared.names := by simp [t.prepared.mem_names_iff, hp]
      refine ⟨h, fun e he => hgood e ?_⟩
      cases he
      exact ⟨rfl, hmissing, .inr ⟨child, hlineage.reaches, hext⟩⟩
    | some p =>
      by_cases hc : t.detectCycles = true ∧ name ∈ lineage
      · rw [ancestor_cyclic hp hc.1 hc.2] at hx
        cases hx
        refine ⟨h, fun e he => hgood e ?_⟩
        cases he
        exact hlineage.lasso hext (hdistinct hc.1) hc.2
      · rw [ancestor_told hp hc] at hx
        have hdistinct' : t.detectCycles = true → (lineage ++ [name]).Nodup := by
          intro hd
          have hnew : name ∉ lineage := fun hmem => hc ⟨hd, hmem⟩
          rw [← List.concat_eq_append]
          exact List.Nodup.concat hnew (hdistinct hd)
        exact body_safe hl (fun q hq j s₁ h₁ => ih (hlineage.step hext) hdistinct' ⟨p, hp, hq⟩ j h₁)
          i true h v s' hx

/-- A palette told in its own right either is missing and tells nothing, or is
started and then told safely. -/
theorem palette_safe {name : String} (hl : t.listener.Safe Inv Good)
    (hgood : ∀ e, t.prepared.Genuine t.table name e → Good e) {depth : Nat} {i : ι} {s s' : σ}
    {v : Verdict} (hstart : Inv (t.listener.receive i (.start t.table name) s))
    (h : t.palette depth name i s = some (v, s')) :
    (name ∉ t.prepared.names ∧ v = .error (.undefinedPalette t.table name) ∧ s' = s) ∨
      (name ∈ t.prepared.names ∧ Inv s' ∧ ∀ e, v = .error e → Good e) := by
  cases depth with
  | zero => cases h
  | succ depth =>
    cases hp : t.prepared.get? name with
    | none =>
      rw [palette_undefined hp] at h
      cases h
      exact .inl ⟨by simp [t.prepared.mem_names_iff, hp], rfl, rfl⟩
    | some p =>
      rw [palette_told hp] at h
      refine .inr ⟨(t.prepared.mem_names_iff name).mpr ⟨p, hp⟩, ?_⟩
      exact body_safe hl (fun q hq j s₁ h₁ => ancestor_safe hl hgood .start (by simp)
        ⟨p, hp, hq⟩ j h₁) i false hstart v s' h

end Telling

/-! ## Tellings seen through a map -/

/-- A plan does what another one does on states seen through a map, and asks for
listeners that stand for those that the other one asks for. -/
inductive Plan.Mirrors (R : ι → κ → Prop) (π : τ → σ) : Plan ι τ → Plan κ σ → Prop
  | conclude (verdict : Verdict) (state : τ) :
    Plan.Mirrors R π (.conclude verdict state) (.conclude verdict (π state))
  | resolve {target : ι} {target' : κ} (state : τ) {next : Verdict → τ → Plan ι τ}
      {next' : Verdict → σ → Plan κ σ} :
    R target target' → (∀ v s, Plan.Mirrors R π (next v s) (next' v (π s))) →
      Plan.Mirrors R π (.resolve target state next) (.resolve target' (π state) next')

/-- Listeners act as those do that they stand for. Others may be among them that
stand for none. -/
structure Listener.Mirrors (R : ι → κ → Prop) (π : τ → σ) (l : Listener ι τ)
    (l' : Listener κ σ) : Prop where
  receive : ∀ i k, R i k → ∀ c s, π (l.receive i c s) = l'.receive k c (π s)
  inherit : ∀ i k, R i k → ∀ h s, Plan.Mirrors R π (l.inherit i h s) (l'.inherit k h (π s))

theorem Plan.Mirrors.carryOut {R : ι → κ → Prop} {π : τ → σ} {ask : ι → τ → Answer τ}
    {ask' : κ → σ → Answer σ} (hask : ∀ i k, R i k → ∀ s, (ask i s).through π = ask' k (π s))
    {plan : Plan ι τ} {plan' : Plan κ σ} (h : Plan.Mirrors R π plan plan') :
    (plan.carryOut ask).through π = plan'.carryOut ask' := by
  induction h with
  | conclude verdict state => rfl
  | @resolve target target' state _ _ htarget _ ih =>
    simp only [Plan.carryOut, ← hask target target' htarget]
    cases ask target state with
    | none => rfl
    | some answer => exact ih answer.1 answer.2

namespace Telling

variable {w : Setting} {R : ι → κ → Prop} {π : τ → σ} {l : Listener ι τ} {l' : Listener κ σ}
  (hl : l.Mirrors R π l') {i : ι} {k : κ} (hik : R i k)

include hl hik

theorem receiveAll_mirrored (calls : List Call) (s : τ) :
    π (l.receiveAll i calls s) = l'.receiveAll k calls (π s) := by
  induction calls generalizing s with
  | nil => rfl
  | cons c calls ih =>
    have h := ih (l.receive i c s)
    rw [hl.receive i k hik] at h
    exact h

theorem parents_mirrored {ask : String → ι → τ → Answer τ} {ask' : String → κ → σ → Answer σ}
    (hask : ∀ q i k, R i k → ∀ s, (ask q i s).through π = ask' q k (π s)) (parents : List String)
    (s : τ) :
    (Telling.parents ⟨w, l⟩ ask i parents s).through π =
      Telling.parents ⟨w, l'⟩ ask' k parents (π s) := by
  induction parents generalizing s with
  | nil => rfl
  | cons q parents ih =>
    have hplan := (hl.inherit i k hik ⟨w.table, q⟩ s).carryOut (hask q)
    rw [Telling.parents, Answer.through_andThen π _ ih, hplan]
    rfl

theorem body_mirrored {ask : String → ι → τ → Answer τ} {ask' : String → κ → σ → Answer σ}
    (hask : ∀ q i k, R i k → ∀ s, (ask q i s).through π = ask' q k (π s)) (ancestor : Bool)
    (p : PreparedPalette) (s : τ) :
    (Telling.body ⟨w, l⟩ ask i ancestor p s).through π =
      Telling.body ⟨w, l'⟩ ask' k ancestor p (π s) := by
  rw [body, body, ← parents_mirrored hl hik hask]
  refine Answer.through_andThen π _ fun s₁ => ?_
  rw [← receiveAll_mirrored hl hik]
  rfl

theorem ancestor_mirrored (depth : Nat) (lineage : List String) (name : String) (s : τ) :
    (Telling.ancestor ⟨w, l⟩ depth lineage name i s).through π =
      Telling.ancestor ⟨w, l'⟩ depth lineage name k (π s) := by
  induction depth generalizing lineage name i k s with
  | zero => rfl
  | succ depth ih =>
    simp only [ancestor]
    cases w.prepared.get? name with
    | none => rfl
    | some p =>
      simp only
      split
      · rfl
      · exact body_mirrored hl hik (fun q i k hik s => ih hik _ q s) true p s

theorem palette_mirrored (depth : Nat) (name : String) (s : τ) :
    (Telling.palette ⟨w, l⟩ depth name i s).through π =
      Telling.palette ⟨w, l'⟩ depth name k (π s) := by
  cases depth with
  | zero => rfl
  | succ depth =>
    simp only [palette]
    cases w.prepared.get? name with
    | none => rfl
    | some p =>
      simp only [← hl.receive i k hik]
      exact body_mirrored hl hik
        (fun q _ _ hjk s => ancestor_mirrored hl hjk depth [name] q s) false p _

theorem palettes_mirrored (depth : Nat) (names : List String) (s : τ) :
    (Telling.palettes ⟨w, l⟩ depth i names s).through π =
      Telling.palettes ⟨w, l'⟩ depth k names (π s) := by
  induction names generalizing s with
  | nil => rfl
  | cons name names ih =>
    rw [palettes, palettes, ← palette_mirrored hl hik]
    exact Answer.through_andThen π _ ih

theorem whole_mirrored (depth : Nat) (s : τ) :
    (Telling.whole ⟨w, l⟩ depth i s).through π = Telling.whole ⟨w, l'⟩ depth k (π s) := by
  rw [whole, whole, ← palettes_mirrored hl hik]
  refine Answer.through_andThen π _ fun s₁ => ?_
  rw [← hl.receive i k hik]
  rfl

end Telling

namespace Resolver

variable {R : ι → κ → Prop} {π : τ → σ} {l : Listener ι τ} {l' : Listener κ σ}
  (hl : l.Mirrors R π l') {i : ι} {k : κ} (hik : R i k)

include hl hik

/-- What an operation comes to, seen through the map. -/
theorem resolvePalette?_mirrored (r : Resolver) (source : Source) (table palette : String)
    (s : τ) :
    (r.resolvePalette? source table palette l i s).map (fun o => (o.result, π o.state)) =
      (r.resolvePalette? source table palette l' k (π s)).map Outcome.shown := by
  have h := congrArg (Answer.through π) (r.resolvePalette?_shown source table palette l i s)
  have h' := r.resolvePalette?_shown source table palette l' k (π s)
  rw [Telling.palette_mirrored hl hik] at h
  simp only [Answer.through, Option.map_map] at h
  exact h.trans h'.symm

theorem resolve?_mirrored (r : Resolver) (source : Source) (table : String) (s : τ) :
    (r.resolve? source table l i s).map (fun o => (o.result, π o.state)) =
      (r.resolve? source table l' k (π s)).map Outcome.shown := by
  cases hdefs : source table with
  | none =>
    rw [r.resolve?_none _ _ _ hdefs, r.resolve?_none _ _ _ hdefs]
    rfl
  | some defs =>
    have h := congrArg (Option.map fun p => (p.1, π p.2)) (r.resolve?_shown l i s hdefs)
    have h' := r.resolve?_shown l' k (π s) hdefs
    rw [← Telling.whole_mirrored hl hik] at h'
    simp only [Answer.through, Option.map_map, Function.comp_def] at h h'
    exact h.trans h'.symm

end Resolver

/-! ## Finer listeners -/

/-- Listeners on finer states act as the same listeners do on coarser ones. -/
def Listener.Over (π : τ → σ) (l : Listener ι τ) (l' : Listener ι σ) : Prop := l.Mirrors Eq π l'

theorem Listener.over_of {π : τ → σ} {l : Listener ι τ} {l' : Listener ι σ}
    (hreceive : ∀ i c s, π (l.receive i c s) = l'.receive i c (π s))
    (hinherit : ∀ i h s, Plan.Mirrors Eq π (l.inherit i h s) (l'.inherit i h (π s))) :
    l.Over π l' where
  receive i _ hik := hik ▸ hreceive i
  inherit i _ hik := hik ▸ hinherit i

namespace Resolver

theorem Outcome.exists_of_shown {α : Type} {π : τ → σ} {x : Option (Outcome τ α)}
    {o : Outcome σ α} (h : x.map (fun o => (o.result, π o.state)) = some o.shown) :
    ∃ o', x = some o' ∧ o'.result = o.result ∧ π o'.state = o.state := by
  obtain ⟨o', ho', hsame⟩ := Option.map_eq_some_iff.mp h
  obtain ⟨hresult, hstate⟩ := Prod.mk.inj hsame
  exact ⟨o', ho', hresult, hstate⟩

variable {π : τ → σ} {l : Listener ι τ} {l' : Listener ι σ} (hl : l.Over π l') {r : Resolver}
  {source : Source} {table : String} {i : ι} {s : τ}

include hl

/-- An outcome is that of finer listeners, seen through the map. -/
theorem resolvePalette?_refined {palette : String} {o : Outcome σ Unit}
    (h : r.resolvePalette? source table palette l' i (π s) = some o) :
    ∃ o', r.resolvePalette? source table palette l i s = some o' ∧ o'.result = o.result ∧
      π o'.state = o.state := by
  have hmap := resolvePalette?_mirrored hl (Eq.refl i) r source table palette s
  rw [h] at hmap
  exact Outcome.exists_of_shown hmap

theorem resolve?_refined {o : Outcome σ Bool}
    (h : r.resolve? source table l' i (π s) = some o) :
    ∃ o', r.resolve? source table l i s = some o' ∧ o'.result = o.result ∧
      π o'.state = o.state := by
  have hmap := resolve?_mirrored hl (Eq.refl i) r source table s
  rw [h] at hmap
  exact Outcome.exists_of_shown hmap

end Resolver

end Palettes
