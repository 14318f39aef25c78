import Palettes.Proofs.Footprint

/-!
What a resolver has done before does not show. The source may answer otherwise
from one operation to the next; all that stays of a table is the definitions
seen when it was last prepared, until it is let go of. Resolving the table goes
by the definitions of the moment, and resolving one of its palettes by those
that stay, or by those of the moment if none do. That is what a new resolver
would do with these definitions.
-/
namespace Palettes

/-- An operation on a table, with the listener that it speaks to. -/
inductive Operation : Type 1 where
  | resolve {ι σ : Type} (table : String) (l : Listener ι σ) (i : ι) (state : σ)
  | resolvePalette {ι σ : Type} (table palette : String) (l : Listener ι σ) (i : ι) (state : σ)
  | prepare (table : String)
  | clear (table : String)

/-- The table that an operation is about. -/
def Operation.about : Operation → String
  | .resolve table _ _ _ | .resolvePalette table _ _ _ _ | .prepare table | .clear table => table

/-- What an operation makes of a resolver, unless it is given up. -/
def Operation.perform? (r : Resolver) (source : Source) : Operation → Option Resolver
  | .resolve table l i state => (r.resolve? source table l i state).map (·.resolver)
  | .resolvePalette table palette l i state =>
    (r.resolvePalette? source table palette l i state).map (·.resolver)
  | .prepare table => some (r.prepare source table).2.1
  | .clear table => some (r.clear table)

/-- An operation in its circumstances: the resolver before it, and the source as
it answered at the time. -/
structure Step : Type 1 where
  before : Resolver
  source : Source
  operation : Operation

/-- The steps that lead from a new resolver to another, the first one first. -/
inductive History (options : Options) : List Step → Resolver → Prop
  | new : History options [] { options }
  | step {past : List Step} {r r' : Resolver} {source : Source} {op : Operation} :
    History options past r → op.perform? r source = some r' →
      History options (past ++ [⟨r, source, op⟩]) r'

namespace Step

variable {s : Step} {table : String} {defs : PaletteDefs}

/-- A step at which the definitions of a table are seen and its preparation stays. -/
def Prepares (s : Step) (table : String) (defs : PaletteDefs) : Prop :=
  s.source table = some defs ∧
    match s.operation with
    | .prepare t => t = table
    | .resolvePalette t _ _ _ _ => t = table ∧ s.before.prepared? table = none
    | .resolve _ _ _ _ | .clear _ => False

/-- A step that lets go of a table. -/
def Releases (s : Step) (table : String) : Prop :=
  match s.operation with
  | .clear t => t = table
  | .resolve t _ _ _ => t = table ∧ (s.source table).isSome
  | .prepare _ | .resolvePalette _ _ _ _ _ => False

theorem Prepares.about (h : s.Prepares table defs) : s.operation.about = table := by
  obtain ⟨before, source, op⟩ := s
  cases op with
  | resolve about l i state => exact h.2.elim
  | resolvePalette about palette l i state => exact h.2.1
  | prepare about => exact h.2
  | clear about => exact h.2.elim

theorem Releases.about (h : s.Releases table) : s.operation.about = table := by
  obtain ⟨before, source, op⟩ := s
  cases op with
  | resolve about l i state => exact h.1
  | resolvePalette about palette l i state => exact h.elim
  | prepare about => exact h.elim
  | clear about => exact h

end Step

/-- The definitions that were seen when a table was last prepared, if it was not
let go of since. -/
def Standing (past : List Step) (table : String) (defs : PaletteDefs) : Prop :=
  ∃ earlier s later, past = earlier ++ s :: later ∧ s.Prepares table defs ∧
    ∀ s' ∈ later, ¬ s'.Releases table ∧ ∀ defs', ¬ s'.Prepares table defs'

theorem not_standing_nil {table : String} {defs : PaletteDefs} : ¬ Standing [] table defs := by
  rintro ⟨earlier, s, later, hpast, -⟩
  simp at hpast

/-- The last step decides, unless it is not about the preparation of the table. -/
theorem standing_append_iff {past : List Step} {s : Step} {table : String} {defs : PaletteDefs} :
    Standing (past ++ [s]) table defs ↔
      s.Prepares table defs ∨
        Standing past table defs ∧ ¬ s.Releases table ∧ ∀ defs', ¬ s.Prepares table defs' := by
  constructor
  · rintro ⟨earlier, s', later, hpast, hprepares, hlater⟩
    rcases List.eq_nil_or_concat later with rfl | ⟨later, last, rfl⟩
    · obtain ⟨-, hs⟩ := List.append_inj' hpast rfl
      cases hs
      exact .inl hprepares
    · rw [List.concat_eq_append, ← List.cons_append, ← List.append_assoc] at hpast
      obtain ⟨rfl, hs⟩ := List.append_inj' hpast rfl
      cases hs
      obtain ⟨hkeeps, hsees⟩ := hlater s (by simp)
      exact .inr ⟨⟨earlier, s', later, rfl, hprepares, fun x hx => hlater x (by simp [hx])⟩,
        hkeeps, hsees⟩
  · rintro (hprepares | ⟨⟨earlier, s', later, rfl, hprepares, hlater⟩, hkeeps, hsees⟩)
    · exact ⟨past, s, [], rfl, hprepares, by simp⟩
    · refine ⟨earlier, s', later ++ [s], by simp, hprepares, fun x hx => ?_⟩
      rcases List.mem_append.mp hx with hx | hx
      · exact hlater x hx
      · obtain rfl := List.mem_singleton.mp hx
        exact ⟨hkeeps, hsees⟩

namespace Operation

variable {r r' : Resolver} {source : Source} {op : Operation} {table : String}

theorem perform?_agreeBeside (h : op.perform? r source = some r') :
    Resolver.AgreeBeside op.about r r' := by
  cases op with
  | resolve about l i state =>
    obtain ⟨o, ho, rfl⟩ := Option.map_eq_some_iff.mp h
    exact Resolver.resolve?_agreeBeside ho
  | resolvePalette about palette l i state =>
    obtain ⟨o, ho, rfl⟩ := Option.map_eq_some_iff.mp h
    exact Resolver.resolvePalette?_agreeBeside ho
  | prepare about =>
    cases h
    exact .prepare r source
  | clear about =>
    cases h
    exact .clear r

/-- What becomes of the table that an operation is about. -/
theorem prepared?_about {t : PreparedTable} (h : op.perform? r source = some r') :
    r'.prepared? op.about = some t ↔
      (∃ defs, Step.Prepares ⟨r, source, op⟩ op.about defs ∧ t = .ofDefs defs) ∨
        r.prepared? op.about = some t ∧ ¬ Step.Releases ⟨r, source, op⟩ op.about ∧
          ∀ defs, ¬ Step.Prepares ⟨r, source, op⟩ op.about defs := by
  cases op with
  | resolve about l i state =>
    obtain ⟨o, ho, rfl⟩ := Option.map_eq_some_iff.mp h
    cases hdefs : source about with
    | none =>
      rw [r.resolve?_none l i state hdefs] at ho
      cases ho
      simp [Step.Prepares, Step.Releases, Operation.about, hdefs]
    | some defs =>
      rw [(Resolver.resolve?_lets_go hdefs ho).1]
      simp [Step.Prepares, Step.Releases, Operation.about, hdefs, Resolver.prepared?_clear]
  | resolvePalette about palette l i state =>
    obtain ⟨o, ho, rfl⟩ := Option.map_eq_some_iff.mp h
    obtain ⟨-, hresolver, -⟩ := Resolver.resolvePalette?_told ho
    rw [hresolver]
    cases hcache : r.prepared? about with
    | some kept =>
      rw [((Resolver.settled_of_kept hcache).1 source).2]
      simp [Step.Prepares, Step.Releases, Operation.about, hcache]
    | none =>
      cases hdefs : source about with
      | none =>
        rw [(Resolver.settled_of_undefined hcache hdefs).2.1]
        simp [Step.Prepares, Operation.about, hcache, hdefs]
      | some defs =>
        rw [(Resolver.settled_of_defined hcache hdefs).2.1]
        simp [Step.Prepares, Operation.about, hcache, hdefs, eq_comm]
  | prepare about =>
    cases h
    cases hdefs : source about with
    | none =>
      simp [Step.Prepares, Step.Releases, Operation.about, Resolver.prepare_of_undefined hdefs,
        hdefs]
    | some defs =>
      simp [Step.Prepares, Operation.about, Resolver.prepare_of_defined hdefs, hdefs, eq_comm]
  | clear about =>
    cases h
    simp [Step.Prepares, Step.Releases, Operation.about, Resolver.prepared?_clear]

/-- A table that is kept after a step was prepared at the step, or is kept from before. -/
theorem prepared?_perform? {t : PreparedTable} (h : op.perform? r source = some r') :
    r'.prepared? table = some t ↔
      (∃ defs, Step.Prepares ⟨r, source, op⟩ table defs ∧ t = .ofDefs defs) ∨
        r.prepared? table = some t ∧ ¬ Step.Releases ⟨r, source, op⟩ table ∧
          ∀ defs, ¬ Step.Prepares ⟨r, source, op⟩ table defs := by
  by_cases htable : table = op.about
  · rw [htable]
    exact prepared?_about h
  · have hsees (defs : PaletteDefs) : ¬ Step.Prepares ⟨r, source, op⟩ table defs :=
      fun hs => htable hs.about.symm
    have hkeeps : ¬ Step.Releases ⟨r, source, op⟩ table := fun hs => htable hs.about.symm
    rw [(perform?_agreeBeside h).prepared? table htable]
    simp [hsees, hkeeps]

end Operation

/-- What is kept after any history is what was last prepared and still stands. -/
theorem History.prepared?_iff {options : Options} {past : List Step} {r : Resolver}
    (h : History options past r) {table : String} {t : PreparedTable} :
    r.prepared? table = some t ↔ ∃ defs, Standing past table defs ∧ t = .ofDefs defs := by
  induction h with
  | new => simp [not_standing_nil, Resolver.prepared?]
  | step _ hop ih =>
    rw [Operation.prepared?_perform? hop, ih]
    simp only [standing_append_iff]
    constructor
    · rintro (⟨defs, hs, ht⟩ | ⟨⟨defs, hs, ht⟩, hrest⟩)
      · exact ⟨defs, .inl hs, ht⟩
      · exact ⟨defs, .inr ⟨hs, hrest⟩, ht⟩
    · rintro ⟨defs, hs | ⟨hs, hrest⟩, ht⟩
      · exact .inl ⟨defs, hs, ht⟩
      · exact .inr ⟨⟨defs, hs, ht⟩, hrest⟩

theorem History.options_eq {options : Options} {past : List Step} {r : Resolver}
    (h : History options past r) : r.options = options := by
  induction h with
  | new => rfl
  | step _ hop ih => exact (Operation.perform?_agreeBeside hop).options.trans ih

namespace Resolver

variable {ι σ : Type} {r r' : Resolver} {source source' : Source} {table : String}

theorem resolve?_congr (hoptions : r.options = r'.options) (hsource : source table = source' table)
    (l : Listener ι σ) (i : ι) (state : σ) :
    (r.resolve? source table l i state).map Outcome.shown =
      (r'.resolve? source' table l i state).map Outcome.shown := by
  cases hdefs : source table with
  | none =>
    rw [r.resolve?_none l i state hdefs, r'.resolve?_none l i state (hsource.symm.trans hdefs)]
    rfl
  | some defs =>
    rw [r.resolve?_shown l i state hdefs,
      r'.resolve?_shown l i state (hsource.symm.trans hdefs), setting, setting, hoptions]

theorem resolvePalette?_congr (hoptions : r.options = r'.options)
    (htable : r.tableFor source table = r'.tableFor source' table) (palette : String)
    (l : Listener ι σ) (i : ι) (state : σ) :
    (r.resolvePalette? source table palette l i state).map Outcome.shown =
      (r'.resolvePalette? source' table palette l i state).map Outcome.shown := by
  rw [resolvePalette?_shown, resolvePalette?_shown, setting, setting, depthFor, depthFor, hoptions,
    htable]

end Resolver

theorem Operation.perform?_isSome {r : Resolver} (hdetect : r.options.detectCycles = true)
    (source : Source) (op : Operation) : (op.perform? r source).isSome := by
  cases op with
  | resolve about l i state =>
    rw [perform?, Option.isSome_map]
    exact r.resolve?_isSome source about l i state hdetect
  | resolvePalette about palette l i state =>
    rw [perform?, Option.isSome_map]
    exact r.resolvePalette?_isSome source about l i state hdetect palette
  | prepare about => rfl
  | clear about => rfl

namespace History

variable {options : Options} {past : List Step} {r : Resolver} {table : String}
  {defs : PaletteDefs} {source source' : Source}

theorem tableFor_of_standing (h : History options past r) (hs : Standing past table defs) :
    r.tableFor source table = .ofDefs defs := by
  have hkept : r.prepared? table = some (.ofDefs defs) := h.prepared?_iff.mpr ⟨defs, hs, rfl⟩
  rw [Resolver.tableFor, hkept, Option.getD_some]

theorem tableFor_of_none (h : History options past r) (hs : ∀ defs, ¬ Standing past table defs) :
    r.tableFor source table = .ofSource source table := by
  have hnone : r.prepared? table = none := by
    cases hkept : r.prepared? table with
    | none => rfl
    | some t =>
      obtain ⟨defs, hdefs, -⟩ := h.prepared?_iff.mp hkept
      exact absurd hdefs (hs defs)
  rw [Resolver.tableFor, hnone, Option.getD_none]

/-- Whatever was done before, and whatever the source answered then: resolving a
table shows what a new resolver would show now, and resolving a palette what a
new resolver would show with the definitions that stand, or with those of now if
none do. So with a source that never changes, no history shows at all. While
cycles are detected, every operation comes to an end and the history goes on. -/
theorem history_does_not_show (h : History options past r) :
    (∀ {ι σ : Type} (source : Source) (table : String) (l : Listener ι σ) (i : ι) (state : σ),
      (r.resolve? source table l i state).map Resolver.Outcome.shown =
        (({ options } : Resolver).resolve? source table l i state).map
          Resolver.Outcome.shown) ∧
    (∀ source table,
      (r.prepare source table).1 = (({ options } : Resolver).prepare source table).1) ∧
    (∀ {ι σ : Type} (source source' : Source) (table palette : String) (defs : PaletteDefs)
      (l : Listener ι σ) (i : ι) (state : σ),
      Standing past table defs → source' table = some defs →
      (r.resolvePalette? source table palette l i state).map Resolver.Outcome.shown =
        (({ options } : Resolver).resolvePalette? source' table palette l i state).map
          Resolver.Outcome.shown) ∧
    (∀ {ι σ : Type} (source : Source) (table palette : String) (l : Listener ι σ) (i : ι)
      (state : σ), (∀ defs, ¬ Standing past table defs) →
      (r.resolvePalette? source table palette l i state).map Resolver.Outcome.shown =
        (({ options } : Resolver).resolvePalette? source table palette l i state).map
          Resolver.Outcome.shown) ∧
    (∀ {ι σ : Type} (source : Source) (table palette : String) (l : Listener ι σ) (i : ι)
      (state : σ), (∀ s ∈ past, s.source = source) →
      (r.resolvePalette? source table palette l i state).map Resolver.Outcome.shown =
        (({ options } : Resolver).resolvePalette? source table palette l i state).map
          Resolver.Outcome.shown) ∧
    (options.detectCycles = true → ∀ source op, ∃ r', op.perform? r source = some r' ∧
      History options (past ++ [⟨r, source, op⟩]) r') := by
  have hoptions : r.options = ({ options } : Resolver).options := h.options_eq
  have hstanding {ι σ : Type} (source source' : Source) (table palette : String)
      (defs : PaletteDefs) (l : Listener ι σ) (i : ι) (state : σ) (hs : Standing past table defs)
      (hdefs : source' table = some defs) :
      (r.resolvePalette? source table palette l i state).map Resolver.Outcome.shown =
        (({ options } : Resolver).resolvePalette? source' table palette l i state).map
          Resolver.Outcome.shown := by
    refine Resolver.resolvePalette?_congr hoptions ?_ palette l i state
    rw [h.tableFor_of_standing hs, new.tableFor_of_none fun _ => not_standing_nil,
      PreparedTable.ofSource, hdefs]
  have hnone {ι σ : Type} (source : Source) (table palette : String) (l : Listener ι σ) (i : ι)
      (state : σ) (hs : ∀ defs, ¬ Standing past table defs) :
      (r.resolvePalette? source table palette l i state).map Resolver.Outcome.shown =
        (({ options } : Resolver).resolvePalette? source table palette l i state).map
          Resolver.Outcome.shown := by
    refine Resolver.resolvePalette?_congr hoptions ?_ palette l i state
    rw [h.tableFor_of_none hs, new.tableFor_of_none fun _ => not_standing_nil]
  refine ⟨?_, ?_, hstanding, hnone, ?_, ?_⟩
  · intro ι σ source table l i state
    exact Resolver.resolve?_congr hoptions rfl l i state
  · intro source table
    cases hdefs : source table with
    | none => simp only [Resolver.prepare_of_undefined hdefs]
    | some defs => simp only [Resolver.prepare_of_defined hdefs]
  · intro ι σ source table palette l i state hsame
    by_cases hs : ∃ defs, Standing past table defs
    · obtain ⟨defs, hs⟩ := hs
      obtain ⟨earlier, s, later, rfl, ⟨hdefs, -⟩, -⟩ := id hs
      rw [hsame s (by simp)] at hdefs
      exact hstanding source source table palette defs l i state hs hdefs
    · exact hnone source table palette l i state fun defs hdefs => hs ⟨defs, hdefs⟩
  · intro hdetect source op
    rw [← h.options_eq] at hdetect
    obtain ⟨r', hr'⟩ := Option.isSome_iff_exists.mp (op.perform?_isSome hdetect source)
    exact ⟨r', hr', h.step hr'⟩

end History

/-- A table that was prepared, and that the source then no longer defined, stands
through an operation that fails: its palettes resolve by the definitions seen
first, although the source now has others. -/
theorem History.diamond_stands :
    History {}
      [⟨{}, fun _ => some PreparedTable.diamond, .prepare "shop"⟩,
        ⟨({} : Resolver).keep "shop" (.ofDefs PreparedTable.diamond), fun _ => none,
          .resolvePalette "shop" "gone" Listener.insistent () []⟩,
        ⟨({} : Resolver).keep "shop" (.ofDefs PreparedTable.diamond), fun _ => none,
          .prepare "shop"⟩]
      (({} : Resolver).keep "shop" (.ofDefs PreparedTable.diamond)) ∧
    ((({} : Resolver).keep "shop" (.ofDefs PreparedTable.diamond)).resolvePalette?
        (fun _ => some PreparedTable.knot) "shop" "tip" Listener.insistent () []).map
          Resolver.Outcome.shown =
      (({} : Resolver).resolvePalette? (fun _ => some PreparedTable.diamond) "shop" "tip"
        Listener.insistent () []).map Resolver.Outcome.shown ∧
    ((({} : Resolver).keep "shop" (.ofDefs PreparedTable.diamond)).resolve?
        (fun _ => some PreparedTable.knot) "shop" Listener.insistent () []).map
          Resolver.Outcome.shown =
      (({} : Resolver).resolve? (fun _ => some PreparedTable.knot) "shop" Listener.insistent ()
        []).map Resolver.Outcome.shown := by
  have hprepared : History {} [⟨{}, fun _ => some PreparedTable.diamond, .prepare "shop"⟩]
      (({} : Resolver).keep "shop" (.ofDefs PreparedTable.diamond)) := .step .new rfl
  have hpast := (hprepared.step
    (show Operation.perform? _ (fun _ => none)
      (.resolvePalette "shop" "gone" Listener.insistent () []) = some _ from rfl)).step
    (show Operation.perform? _ (fun _ => none) (.prepare "shop") = some _ from rfl)
  obtain ⟨htable, -, hpalette, -⟩ := history_does_not_show hpast
  refine ⟨hpast, ?_, htable _ _ _ _ _⟩
  refine hpalette _ _ _ _ PreparedTable.diamond _ _ _ ⟨[], _, _, rfl, ⟨rfl, rfl⟩, ?_⟩ rfl
  intro s hs
  obtain rfl | rfl : s = ⟨_, _, .resolvePalette "shop" "gone" Listener.insistent () []⟩ ∨
      s = ⟨_, _, .prepare "shop"⟩ := by simpa using hs
  · exact ⟨fun h => h, fun defs h => by cases h.1⟩
  · exact ⟨fun h => h, fun defs h => by cases h.1⟩

end Palettes
