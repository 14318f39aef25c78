import Palettes.Builder
import Palettes.Proofs.Depth
import Palettes.Recorder

/-!
Listeners that follow every parent at once all hear the same events. A trace
says which, and how the telling ends, without depth, state or listener: it is
the derivation of the events from the prepared table. Recorder and builder are
listeners of this kind; the recorder writes the trace down and the builder acts
on it.
-/
namespace Palettes

/-- The events that the legends of a palette come to. -/
def PreparedPalette.events (p : PreparedPalette) (ancestor : Bool) : List Event :=
  (p.calls ancestor).map .call

/-- What announcing parents one after the other comes to, below a lineage. -/
inductive Trace (w : Setting) : List String → List String → List Event → Verdict → Prop
  | done {lineage : List String} : Trace w lineage [] [] (.ok ())
  | undefined {lineage parents : List String} {q : String} :
    w.prepared.get? q = none →
      Trace w lineage (q :: parents) [.inherit q] (.error (.undefinedPalette w.table q))
  | cyclic {lineage parents : List String} {q : String} {p : PreparedPalette} :
    w.prepared.get? q = some p → w.detectCycles = true → q ∈ lineage →
      Trace w lineage (q :: parents) [.inherit q] (.error (.cyclicInheritance (lineage ++ [q])))
  | stopped {lineage parents : List String} {q : String} {p : PreparedPalette}
      {above : List Event} {e : ResolveError} :
    w.prepared.get? q = some p → ¬ (w.detectCycles = true ∧ q ∈ lineage) →
      Trace w (lineage ++ [q]) p.parents above (.error e) →
      Trace w lineage (q :: parents) (.inherit q :: above) (.error e)
  | told {lineage parents : List String} {q : String} {p : PreparedPalette}
      {above rest : List Event} {v : Verdict} :
    w.prepared.get? q = some p → ¬ (w.detectCycles = true ∧ q ∈ lineage) →
      Trace w (lineage ++ [q]) p.parents above (.ok ()) →
      Trace w lineage parents rest v →
      Trace w lineage (q :: parents) (.inherit q :: (above ++ p.events true ++ rest)) v

/-- What a palette told in its own right comes to. -/
inductive PaletteTrace (w : Setting) (name : String) : List Event → Verdict → Prop
  | undefined : w.prepared.get? name = none →
      PaletteTrace w name [] (.error (.undefinedPalette w.table name))
  | stopped {p : PreparedPalette} {above : List Event} {e : ResolveError} :
    w.prepared.get? name = some p → Trace w [name] p.parents above (.error e) →
      PaletteTrace w name (.call (.start w.table name) :: above) (.error e)
  | told {p : PreparedPalette} {above : List Event} :
    w.prepared.get? name = some p → Trace w [name] p.parents above (.ok ()) →
      PaletteTrace w name (.call (.start w.table name) :: (above ++ p.events false)) (.ok ())

/-- What several palettes told in their own right come to. -/
inductive PalettesTrace (w : Setting) : List String → List Event → Verdict → Prop
  | done : PalettesTrace w [] [] (.ok ())
  | stopped {name : String} {names : List String} {es : List Event} {e : ResolveError} :
    PaletteTrace w name es (.error e) → PalettesTrace w (name :: names) es (.error e)
  | told {name : String} {names : List String} {es rest : List Event} {v : Verdict} :
    PaletteTrace w name es (.ok ()) → PalettesTrace w names rest v →
      PalettesTrace w (name :: names) (es ++ rest) v

/-- What the whole table comes to. -/
inductive TableTrace (w : Setting) : List Event → Verdict → Prop
  | stopped {es : List Event} {e : ResolveError} :
    PalettesTrace w w.prepared.names es (.error e) → TableTrace w es (.error e)
  | told {es : List Event} :
    PalettesTrace w w.prepared.names es (.ok ()) →
      TableTrace w (es ++ [.call .finish]) (.ok ())

/-! ## A setting has one trace -/

variable {w : Setting} {lineage parents names : List String} {name : String}
  {es es' : List Event} {v v' : Verdict}

theorem Trace.unique (h : Trace w lineage parents es v) (h' : Trace w lineage parents es' v') :
    es = es' ∧ v = v' := by
  induction h generalizing es' v' with
  | done => cases h'; exact ⟨rfl, rfl⟩
  | undefined hp => cases h' <;> simp_all
  | cyclic hp hd hc => cases h' <;> simp_all
  | stopped hp hc _ ih =>
    cases h' with
    | undefined hp' => simp_all
    | cyclic hp' hd' hc' => exact absurd ⟨hd', hc'⟩ hc
    | stopped hp' _ habove =>
      obtain rfl := Option.some.inj (hp.symm.trans hp')
      obtain ⟨rfl, he⟩ := ih habove
      exact ⟨rfl, he⟩
    | told hp' _ habove _ =>
      obtain rfl := Option.some.inj (hp.symm.trans hp')
      cases (ih habove).2
  | told hp hc _ _ ihAbove ihRest =>
    cases h' with
    | undefined hp' => simp_all
    | cyclic hp' hd' hc' => exact absurd ⟨hd', hc'⟩ hc
    | stopped hp' _ habove =>
      obtain rfl := Option.some.inj (hp.symm.trans hp')
      cases (ihAbove habove).2
    | told hp' _ habove hrest =>
      obtain rfl := Option.some.inj (hp.symm.trans hp')
      obtain ⟨rfl, -⟩ := ihAbove habove
      obtain ⟨rfl, rfl⟩ := ihRest hrest
      exact ⟨rfl, rfl⟩

theorem PaletteTrace.unique (h : PaletteTrace w name es v) (h' : PaletteTrace w name es' v') :
    es = es' ∧ v = v' := by
  cases h with
  | undefined hp => cases h' <;> simp_all
  | stopped hp habove =>
    cases h' with
    | undefined hp' => simp_all
    | stopped hp' habove' =>
      obtain rfl := Option.some.inj (hp.symm.trans hp')
      obtain ⟨rfl, he⟩ := habove.unique habove'
      exact ⟨rfl, he⟩
    | told hp' habove' =>
      obtain rfl := Option.some.inj (hp.symm.trans hp')
      cases (habove.unique habove').2
  | told hp habove =>
    cases h' with
    | undefined hp' => simp_all
    | stopped hp' habove' =>
      obtain rfl := Option.some.inj (hp.symm.trans hp')
      cases (habove.unique habove').2
    | told hp' habove' =>
      obtain rfl := Option.some.inj (hp.symm.trans hp')
      obtain ⟨rfl, -⟩ := habove.unique habove'
      exact ⟨rfl, rfl⟩

theorem PalettesTrace.unique (h : PalettesTrace w names es v)
    (h' : PalettesTrace w names es' v') : es = es' ∧ v = v' := by
  induction h generalizing es' v' with
  | done => cases h'; exact ⟨rfl, rfl⟩
  | stopped hname =>
    cases h' with
    | stopped hname' => exact hname.unique hname'
    | told hname' _ => cases (hname.unique hname').2
  | told hname _ ih =>
    cases h' with
    | stopped hname' => cases (hname.unique hname').2
    | told hname' hrest =>
      obtain ⟨rfl, -⟩ := hname.unique hname'
      obtain ⟨rfl, rfl⟩ := ih hrest
      exact ⟨rfl, rfl⟩

theorem TableTrace.unique (h : TableTrace w es v) (h' : TableTrace w es' v') :
    es = es' ∧ v = v' := by
  cases h with
  | stopped hnames =>
    cases h' with
    | stopped hnames' => exact hnames.unique hnames'
    | told hnames' => cases (hnames.unique hnames').2
  | told hnames =>
    cases h' with
    | stopped hnames' => cases (hnames.unique hnames').2
    | told hnames' =>
      obtain ⟨rfl, -⟩ := hnames.unique hnames'
      exact ⟨rfl, rfl⟩

/-! ## Listeners that follow -/

/-- A listener that asks for every parent at once, for itself, and passes on
what comes of it. What it makes of an event is `hear`. -/
structure Listener.Follows {ι σ : Type} (l : Listener ι σ) (i : ι) (hear : σ → Event → σ) :
    Prop where
  call : ∀ s c, hear s (.call c) = l.receive i c s
  inherit : ∀ s h, l.inherit i h s = .resolve i (hear s (.inherit h.parent)) .conclude

theorem Recorder.follows : (Recorder.listener true).Follows () Array.push where
  call _ _ := rfl
  inherit _ _ := rfl

/-- What a builder makes of an event. -/
def Builder.hear (b : Builder) : Event → Builder
  | .call c => b.receive c
  | .inherit _ => b

theorem Builder.follows : Builder.listener.Follows () Builder.hear where
  call _ _ := rfl
  inherit _ _ := rfl

section Follows

variable {ι σ : Type} {t : Telling ι σ} {i : ι} {hear : σ → Event → σ} {s s' : σ}
  (hl : t.listener.Follows i hear)

include hl

theorem Listener.Follows.receiveAll (calls : List Call) (s : σ) :
    t.listener.receiveAll i calls s = (calls.map .call).foldl hear s := by
  rw [List.foldl_map]
  simp only [Listener.receiveAll, hl.call]

/-- A parent is asked for as soon as it is announced. -/
theorem parents_cons (ask : String → ι → σ → Answer σ) (q : String) :
    t.parents ask i (q :: parents) s =
      (ask q i (hear s (.inherit q))).andThen (t.parents ask i parents) := by
  simp only [Telling.parents, hl.inherit, Plan.carryOut]
  cases ask q i (hear s (.inherit q)) with
  | none => rfl
  | some answer => rfl

/-- Whatever the depth, an answer is the trace. The induction is on the depth,
and within it on the parents. -/
theorem parents_trace (depth : Nat)
    (h : t.parents (t.ancestor depth lineage) i parents s = some (v, s')) :
    ∃ es, Trace t.toSetting lineage parents es v ∧ s' = es.foldl hear s := by
  induction depth generalizing lineage parents s v s' with
  | zero =>
    cases parents with
    | nil => cases h; exact ⟨[], .done, rfl⟩
    | cons q parents => simp [parents_cons hl, Telling.ancestor] at h
  | succ depth ihDepth =>
    induction parents generalizing s with
    | nil => cases h; exact ⟨[], .done, rfl⟩
    | cons q parents ihParents =>
      rw [parents_cons hl] at h
      cases hp : t.prepared.get? q with
      | none =>
        rw [Telling.ancestor_undefined hp] at h
        cases h
        exact ⟨[.inherit q], .undefined hp, rfl⟩
      | some p =>
        by_cases hc : t.detectCycles = true ∧ q ∈ lineage
        · rw [Telling.ancestor_cyclic hp hc.1 hc.2] at h
          cases h
          exact ⟨[.inherit q], .cyclic hp hc.1 hc.2, rfl⟩
        · rw [Telling.ancestor_told hp hc] at h
          obtain ⟨e, hbody, rfl⟩ | ⟨s₂, hbody, hafter⟩ := Answer.andThen_eq_some_iff.mp h
          · obtain ⟨above, habove, rfl⟩ := ihDepth (Telling.body_eq_error_iff.mp hbody)
            exact ⟨.inherit q :: above, .stopped hp hc habove, rfl⟩
          · obtain ⟨s₁, hparents, rfl⟩ := Telling.body_eq_ok_iff.mp hbody
            obtain ⟨above, habove, rfl⟩ := ihDepth hparents
            obtain ⟨rest, hrest, rfl⟩ := ihParents hafter
            refine ⟨.inherit q :: (above ++ p.events true ++ rest), .told hp hc habove hrest, ?_⟩
            rw [hl.receiveAll]
            simp only [List.foldl_cons, List.foldl_append, PreparedPalette.events]

theorem palette_trace (depth : Nat) (h : t.palette depth name i s = some (v, s')) :
    ∃ es, PaletteTrace t.toSetting name es v ∧ s' = es.foldl hear s := by
  cases depth with
  | zero => cases h
  | succ depth =>
    cases hp : t.prepared.get? name with
    | none =>
      rw [Telling.palette_undefined hp] at h
      cases h
      exact ⟨[], .undefined hp, rfl⟩
    | some p =>
      rw [Telling.palette_told hp, ← hl.call] at h
      cases v with
      | error e =>
        obtain ⟨above, habove, rfl⟩ := parents_trace hl depth (Telling.body_eq_error_iff.mp h)
        exact ⟨.call (.start t.table name) :: above, .stopped hp habove, rfl⟩
      | ok _ =>
        obtain ⟨s₁, hparents, rfl⟩ := Telling.body_eq_ok_iff.mp h
        obtain ⟨above, habove, rfl⟩ := parents_trace hl depth hparents
        refine ⟨.call (.start t.table name) :: (above ++ p.events false), .told hp habove, ?_⟩
        rw [hl.receiveAll]
        simp only [List.foldl_cons, List.foldl_append, PreparedPalette.events]

theorem palettes_trace (depth : Nat) (h : t.palettes depth i names s = some (v, s')) :
    ∃ es, PalettesTrace t.toSetting names es v ∧ s' = es.foldl hear s := by
  induction names generalizing s with
  | nil => cases h; exact ⟨[], .done, rfl⟩
  | cons name names ih =>
    obtain ⟨e, hname, rfl⟩ | ⟨s₁, hname, hafter⟩ := Answer.andThen_eq_some_iff.mp h
    · obtain ⟨es, hes, rfl⟩ := palette_trace hl depth hname
      exact ⟨es, .stopped hes, rfl⟩
    · obtain ⟨es, hes, rfl⟩ := palette_trace hl depth hname
      obtain ⟨rest, hrest, rfl⟩ := ih hafter
      exact ⟨es ++ rest, .told hes hrest, List.foldl_append.symm⟩

theorem whole_trace (depth : Nat) (h : t.whole depth i s = some (v, s')) :
    ∃ es, TableTrace t.toSetting es v ∧ s' = es.foldl hear s := by
  obtain ⟨e, hnames, rfl⟩ | ⟨s₁, hnames, hfinish⟩ := Answer.andThen_eq_some_iff.mp h
  · obtain ⟨es, hes, rfl⟩ := palettes_trace hl depth hnames
    exact ⟨es, .stopped hes, rfl⟩
  · obtain ⟨es, hes, rfl⟩ := palettes_trace hl depth hnames
    cases hfinish
    refine ⟨es ++ [.call .finish], .told hes, ?_⟩
    rw [List.foldl_append, List.foldl_cons, List.foldl_nil, hl.call]

end Follows

namespace Resolver

variable {ι σ : Type} {l : Listener ι σ} {i : ι} {hear : σ → Event → σ} {s : σ}
  {r : Resolver} {source : Source} {table : String}

/-- Resolving one palette makes a listener that follows hear its trace. -/
theorem resolvePalette?_trace (hl : l.Follows i hear) {palette : String} {o : Outcome σ Unit}
    (h : r.resolvePalette? source table palette l i s = some o) :
    ∃ es, PaletteTrace (r.setting table (r.tableFor source table)) palette es o.result ∧
      o.state = es.foldl hear s :=
  palette_trace (t := ⟨r.setting table (r.tableFor source table), l⟩) hl _
    (resolvePalette?_told h).1

/-- Resolving a table makes a listener that follows hear the trace of the table. -/
theorem resolve?_trace (hl : l.Follows i hear) {defs : PaletteDefs} {o : Outcome σ Bool}
    (hdefs : source table = some defs) (h : r.resolve? source table l i s = some o) :
    ∃ es v, TableTrace (r.setting table (.ofDefs defs)) es v ∧
      o.result = v.map (fun _ => true) ∧ o.state = es.foldl hear s := by
  obtain ⟨v, htold, hresult, -⟩ := resolve?_told hdefs h
  obtain ⟨es, hes, hstate⟩ := whole_trace (t := ⟨r.setting table (.ofDefs defs), l⟩) hl _ htold
  exact ⟨es, v, hes, hresult, hstate⟩

end Resolver

end Palettes
