import Palettes.Proofs.Conduct
import Palettes.Proofs.Footprint

/-!
How deep a walk nests while cycles are detected. A palette that passes its
checks is noted with the lineage it is met on before anything is told of it, so
that the notes of a walk show every palette that was stepped into. The lineage
is then a path of parents from the palette told in its own right, without
repetition, and shorter than the table has palettes: each palette stepped into
leaves one name less that may come next. Whether a palette is told or not, the
walk steps back to the lineage it came from.
-/
namespace Palettes

variable {ι σ : Type}

/-! ## What a walk upholds -/

/-- The invariant holds of the state that an answer leaves, if it leaves one. -/
abbrev Answer.Leaves (Inv : σ → Prop) (x : Answer σ) : Prop := x.Safe Inv fun _ => True

theorem Answer.leaves_iff {Inv : σ → Prop} {x : Answer σ} :
    x.Leaves Inv ↔ ∀ v s, x = some (v, s) → Inv s := by
  simp [Leaves, Safe]

theorem Answer.leaves_some {Inv : σ → Prop} {v : Verdict} {s : σ} (h : Inv s) :
    Answer.Leaves Inv (some (v, s)) := by
  rw [leaves_iff]
  intro v' s' hs
  cases hs
  exact h

theorem Answer.Leaves.through {τ : Type} {Inv : σ → Prop} {Inv' : τ → Prop} {x : Answer σ}
    (h : x.Leaves Inv) {f : σ → τ} (hf : ∀ s, Inv s → Inv' (f s)) : (x.through f).Leaves Inv' := by
  match x with
  | none => exact leaves_iff.mpr fun _ _ hx => by cases hx
  | some (v, s) => exact leaves_some (hf s (leaves_iff.mp h v s rfl))

/-- An invariant of scenes that holds on whatever the listeners make of their
calls and say about them, and whatever tokens are dropped. -/
structure Walk.Upholds (w : Walk ι σ) (Inv : Scene σ → Prop) : Prop where
  state : ∀ s state, Inv s → Inv { s with state }
  tell : ∀ s i c, Inv s → Inv (s.tell w.listener i c)
  dropped : ∀ s token legend, Inv s → Inv (s.say (.dropped token legend))

namespace Walk.Upholds

variable {w : Walk ι σ} {Inv : Scene σ → Prop} (h : w.Upholds Inv)

include h

theorem tellLegends (i : ι) (ancestor : Bool) (entries : List (String × List String))
    {s : Scene σ} (hs : Inv s) : Inv (w.tellLegends i ancestor entries s) := by
  refine List.foldlRecOn entries _ hs fun s hs e _ => ?_
  let a := Announcement.ofEntry e.1 e.2 ancestor
  have hdropped : Inv (a.dropped.foldl (fun s t => s.say (.dropped t a.event.legend)) s) :=
    List.foldlRecOn a.dropped _ hs fun s hs t _ => h.dropped s t _ hs
  exact List.foldlRecOn a.fields _ (h.tell _ i _ hdropped) fun s hs f _ => h.tell s i _ hs

theorem run {ask : ι → Scene σ → Answer (Scene σ)}
    (hask : ∀ j s, Inv s → (ask j s).Leaves Inv) (plan : Plan ι σ) {s : Scene σ} (hs : Inv s) :
    (plan.run ask s).Leaves Inv := by
  induction plan generalizing s with
  | conclude verdict state => exact Answer.leaves_some (h.state s state hs)
  | resolve target state next ih =>
    have hquestion := Answer.leaves_iff.mp (hask target _ (h.state s state hs))
    rw [Plan.run]
    cases ha : ask target { s with state } with
    | none => exact Answer.leaves_iff.mpr (by simp)
    | some answer => exact ih answer.1 answer.2.state (hquestion answer.1 answer.2 ha)

theorem tellParents {ask : String → ι → Scene σ → Answer (Scene σ)} {parents : List String}
    (hask : ∀ q ∈ parents, ∀ j s, Inv s → (ask q j s).Leaves Inv) (i : ι) {s : Scene σ}
    (hs : Inv s) : (w.tellParents ask i parents s).Leaves Inv := by
  induction parents generalizing s with
  | nil => exact Answer.leaves_some hs
  | cons q parents ih =>
    have hplan := h.run (hask q List.mem_cons_self) (w.listener.inherit i ⟨w.table, q⟩ s.state) hs
    exact hplan.andThen fun s₁ h₁ => ih (fun r hr => hask r (List.mem_cons_of_mem _ hr)) h₁

theorem tellBody {ask : String → ι → Scene σ → Answer (Scene σ)} {p : PreparedPalette}
    (hask : ∀ q ∈ p.parents, ∀ j s, Inv s → (ask q j s).Leaves Inv) (i : ι) (ancestor : Bool)
    {s : Scene σ} (hs : Inv s) : (w.tellBody ask i ancestor p s).Leaves Inv :=
  (h.tellParents hask i hs).andThen fun _ h₁ =>
    Answer.leaves_some (h.tellLegends i ancestor p.legends.entries h₁)

end Walk.Upholds

/-! ## One visit -/

namespace Walk

variable (w : Walk ι σ)

/-- The palette is defined, and while cycles are detected it is not met again on
the lineage. -/
def Passes (name : String) (s : Scene σ) : Prop :=
  name ∈ (s.prepared w.source w.table).1.names ∧
    ¬ (s.resolver.options.detectCycles = true ∧ name ∈ s.lineage)

/-- The note of a palette that is stepped into. -/
def entry (ancestor : Bool) (name : String) (lineage : List String) : Note :=
  if ancestor then .ancestor name lineage else .resolving name w.table

/-- Preparing a table does not touch the lineage or the options. -/
theorem prepared_lineage (s : Scene σ) :
    (s.prepared w.source w.table).2.lineage = s.lineage ∧
      (s.prepared w.source w.table).2.resolver.options = s.resolver.options := by
  obtain ⟨notes, hprepared⟩ := Resolver.prepared_settles s w.source w.table
  rw [hprepared]
  exact ⟨rfl, Resolver.settled_options⟩

variable {w} {depth : Nat} {ancestor : Bool} {name : String} {i : ι} {s : Scene σ}

theorem visit_of_passes (h : w.Passes name s) :
    ∃ p, (s.prepared w.source w.table).1.get? name = some p ∧
      w.visit (depth + 1) ancestor name i s =
        (w.tellBody (w.visit depth true) i ancestor p
          ((w.announce i ancestor name (s.prepared w.source w.table).2).enter name)).through
            Scene.leave := by
  obtain ⟨hname, hnew⟩ := h
  obtain ⟨p, hp⟩ := (PreparedTable.mem_names_iff _ _).mp hname
  obtain ⟨hlineage, hoptions⟩ := w.prepared_lineage s
  refine ⟨p, hp, ?_⟩
  rw [← hlineage, ← hoptions] at hnew
  exact w.meet_told hp hnew i

/-- A palette that fails its checks is not told, and nothing is noted of it. -/
theorem visit_of_not_passes (h : ¬ w.Passes name s) :
    ∃ e, w.visit (depth + 1) ancestor name i s =
      some (.error e, (s.prepared w.source w.table).2) := by
  obtain ⟨hlineage, hoptions⟩ := w.prepared_lineage s
  cases hp : (s.prepared w.source w.table).1.get? name with
  | none => exact ⟨.undefinedPalette w.table name, w.meet_undefined hp i⟩
  | some p =>
    have hname := (PreparedTable.mem_names_iff _ _).mpr ⟨p, hp⟩
    have hmet : s.resolver.options.detectCycles = true ∧ name ∈ s.lineage :=
      Classical.not_not.mp fun hnew => h ⟨hname, hnew⟩
    rw [← hlineage, ← hoptions] at hmet
    exact ⟨.cyclicInheritance _, w.meet_cyclic hp hmet.1 hmet.2 i⟩

end Walk

/-- A scene on a lineage, in which a log was gone on with. -/
structure Scene.After (lineage : List String) (log : List Note) (s : Scene σ) : Prop where
  lineage : s.lineage = lineage
  log : log <+: s.log.toList

namespace Scene.After

variable {lineage : List String} {log : List Note} {s : Scene σ}

theorem prepared (h : s.After lineage log) (source : Source) (table : String) :
    (s.prepared source table).2.After lineage log := by
  unfold Scene.prepared
  split
  · exact h
  · exact ⟨h.lineage, h.log.trans (by simp)⟩

theorem enter (h : s.After lineage log) (name : String) :
    (s.enter name).After (lineage ++ [name]) log :=
  ⟨by rw [Scene.enter, h.lineage], h.log⟩

theorem leave {name : String} (h : s.After (lineage ++ [name]) log) : s.leave.After lineage log :=
  ⟨by rw [Scene.leave, h.lineage, List.dropLast_concat], h.log⟩

end Scene.After

namespace Walk

variable {w : Walk ι σ} {lineage : List String} {log : List Note} {name : String} {i : ι}
  {s : Scene σ}

theorem upholds_after (w : Walk ι σ) (lineage : List String) (log : List Note) :
    w.Upholds (Scene.After lineage log) where
  state _ _ h := ⟨h.lineage, h.log⟩
  tell _ _ _ h := ⟨h.lineage, h.log.trans (by simp [Scene.tell])⟩
  dropped _ _ _ h := ⟨h.lineage, h.log.trans (by simp [Scene.say])⟩

theorem announce_after (w : Walk ι σ) (i : ι) (ancestor : Bool) (name : String) (s : Scene σ) :
    (w.announce i ancestor name s).After s.lineage
      (s.log.toList ++ [w.entry ancestor name s.lineage]) := by
  cases ancestor with
  | true => exact ⟨rfl, by simp [announce, entry, Scene.say]⟩
  | false => exact ⟨rfl, by simp [announce, entry, Scene.say, Scene.tell]⟩

/-- Stepping into a palette and out of it again leads back to the lineage, if
the questions on the way do. -/
theorem tellBody_after (w : Walk ι σ) (i : ι) (name : String)
    {ask : String → ι → Scene σ → Answer (Scene σ)}
    (hask : ∀ q j s, Scene.After (lineage ++ [name]) log s →
      (ask q j s).Leaves (Scene.After (lineage ++ [name]) log))
    (ancestor : Bool) (p : PreparedPalette) (hs : s.After lineage log) :
    ((w.tellBody ask i ancestor p (s.enter name)).through Scene.leave).Leaves
      (Scene.After lineage log) := by
  have hbody := (w.upholds_after (lineage ++ [name]) log).tellBody
    (fun q (_ : q ∈ p.parents) j s' hs' => hask q j s' hs') i ancestor (hs.enter name)
  exact hbody.through fun _ h => h.leave

/-- A visit steps back to the lineage it came from and only adds to the log,
whatever the listeners do and however it ends. The induction is on the depth. -/
theorem visit_after (w : Walk ι σ) (depth : Nat) (ancestor : Bool) (name : String) (i : ι)
    (hs : s.After lineage log) :
    (w.visit depth ancestor name i s).Leaves (Scene.After lineage log) := by
  induction depth generalizing lineage ancestor name i s with
  | zero => exact Answer.leaves_iff.mpr fun _ _ hx => by cases hx
  | succ depth ih =>
    have hprepared := hs.prepared w.source w.table
    by_cases hpass : w.Passes name s
    · obtain ⟨p, -, hvisit⟩ := visit_of_passes hpass
      have hnoted := w.announce_after i ancestor name (s.prepared w.source w.table).2
      have hstart : (w.announce i ancestor name (s.prepared w.source w.table).2).After lineage
          log :=
        ⟨hnoted.lineage.trans hprepared.lineage,
          hprepared.log.trans ((List.prefix_append _ _).trans hnoted.log)⟩
      rw [hvisit]
      exact w.tellBody_after i name (fun q j _ hs' => ih true q j hs') ancestor p hstart
    · obtain ⟨e, hvisit⟩ := visit_of_not_passes hpass
      rw [hvisit]
      exact Answer.leaves_some hprepared

/-- What a visit notes first is the palette, if it passes its checks. -/
theorem visit_notes {depth : Nat} {ancestor : Bool} {v : Verdict} {s' : Scene σ}
    (h : w.visit depth ancestor name i s = some (v, s')) :
    s'.lineage = s.lineage ∧
      (w.Passes name s →
        (s.prepared w.source w.table).2.log.toList ++ [w.entry ancestor name s.lineage] <+:
          s'.log.toList) ∧
      (¬ w.Passes name s → s'.log = (s.prepared w.source w.table).2.log) := by
  have hafter := Answer.leaves_iff.mp
    (w.visit_after depth ancestor name i ⟨rfl, List.prefix_refl _⟩) v s' h
  cases depth with
  | zero => cases h
  | succ depth =>
    refine ⟨hafter.lineage, fun hpass => ?_, fun hpass => ?_⟩
    · obtain ⟨p, -, hvisit⟩ := visit_of_passes hpass
      have hnoted := w.announce_after i ancestor name (s.prepared w.source w.table).2
      have htold := w.tellBody_after i name
        (fun q j _ hs' => w.visit_after depth true q j hs') ancestor p hnoted
      rw [hvisit] at h
      have hlog := (Answer.leaves_iff.mp htold v s' h).log
      rwa [(w.prepared_lineage s).1] at hlog
    · obtain ⟨e, hvisit⟩ := visit_of_not_passes hpass
      rw [hvisit] at h
      cases h
      rfl

/-- Together with the palettes that are being told, a walk takes no more levels
than the table has palettes, and one on which it turns back. -/
theorem visit_isSome {t : PreparedTable} (hkept : s.resolver.prepared? w.table = some t)
    (hdetect : s.resolver.options.detectCycles = true) (hdistinct : t.Distinct s.lineage)
    {depth : Nat} (hdepth : t.size < depth + s.lineage.length) (name : String) (i : ι) :
    (w.visit depth true name i s).isSome := by
  have htold := (w.telling t s.resolver).ancestor_isSome hdetect hdistinct hdepth name i s.state
  obtain ⟨-, hnone⟩ | ⟨v, s', hvisit, -, -⟩ := (w.visit_ancestor_tells depth name i s hkept).cases
  · rw [hnone] at htold
    cases htold
  · rw [hvisit]
    rfl

end Walk

/-! ## What the notes say -/

/-- What a lineage is like on which a parent is stepped into, while `top` is told
in its own right. -/
structure PreparedTable.Entered (t : PreparedTable) (top name : String) (lineage : List String) :
    Prop where
  head? : lineage.head? = some top
  isChain : (lineage ++ [name]).IsChain t.Extends
  distinct : t.Distinct (lineage ++ [name])
  length_lt : lineage.length < t.size

theorem PreparedTable.Lineage.entered {t : PreparedTable} {top child name : String}
    {lineage : List String} (h : t.Lineage top lineage child) (hext : t.Extends child name)
    (hdistinct : t.Distinct (lineage ++ [name])) : t.Entered top name lineage where
  head? := h.head?
  isChain := (h.step hext).isChain
  distinct := hdistinct
  length_lt := by
    have hle := hdistinct.length_le
    rw [List.length_append, List.length_singleton] at hle
    omega

/-- The palette that is told in its own right from a note on. -/
def Note.top? : Note → Option String
  | .resolving name _ => some name
  | _ => none

/-- What a note says of a palette that was stepped into is so, given the notes
before it. One told in its own right is stepped into on no lineage at all. -/
def Note.Fits (t : PreparedTable) (before : List Note) : Note → Prop
  | .resolving name _ => name ∈ t.names
  | .ancestor name lineage =>
    ∃ top, (before.filterMap Note.top?).getLast? = some top ∧ t.Entered top name lineage
  | _ => True

/-- Notes that all fit, on the palettes `tops` told in their own right. -/
structure Audit (t : PreparedTable) (tops : List String) (log : List Note) : Prop where
  tops : log.filterMap Note.top? = tops
  fits : ∀ before n after, log = before ++ n :: after → n.Fits t before

namespace Audit

variable {t : PreparedTable} {tops : List String} {log : List Note} {n : Note}

theorem nil (t : PreparedTable) : Audit t [] [] := ⟨rfl, by simp⟩

theorem snoc (h : Audit t tops log) (hn : n.Fits t log) :
    Audit t (tops ++ n.top?.toList) (log ++ [n]) where
  tops := by
    rw [List.filterMap_append, h.tops]
    cases hn : n.top? <;> simp [hn]
  fits before m after heq := by
    rcases List.eq_nil_or_concat after with rfl | ⟨after', m', rfl⟩
    · obtain ⟨rfl, hm⟩ := List.append_inj' heq rfl
      cases hm
      exact hn
    · rw [List.concat_eq_append, ← List.cons_append, ← List.append_assoc] at heq
      obtain ⟨hlog, -⟩ := List.append_inj' heq rfl
      exact h.fits before m after' hlog

end Audit

/-- A scene of a walk that detects cycles over a table that is kept, with notes that fit. -/
structure Scene.Audited (table : String) (t : PreparedTable) (tops lineage : List String)
    (s : Scene σ) : Prop where
  kept : s.resolver.prepared? table = some t
  detects : s.resolver.options.detectCycles = true
  lineage : s.lineage = lineage
  audit : Audit t tops s.log.toList

namespace Scene.Audited

variable {table name : String} {t : PreparedTable} {tops lineage : List String} {s : Scene σ}

theorem say (h : s.Audited table t tops lineage) {n : Note} (hn : n.Fits t s.log.toList) :
    (s.say n).Audited table t (tops ++ n.top?.toList) lineage where
  kept := h.kept
  detects := h.detects
  lineage := h.lineage
  audit := by
    rw [Scene.say, Array.toList_push]
    exact h.audit.snoc hn

theorem enter (h : s.Audited table t tops lineage) (name : String) :
    (s.enter name).Audited table t tops (lineage ++ [name]) :=
  ⟨h.kept, h.detects, by rw [Scene.enter, h.lineage], h.audit⟩

theorem leave (h : s.Audited table t tops (lineage ++ [name])) :
    s.leave.Audited table t tops lineage :=
  ⟨h.kept, h.detects, by rw [Scene.leave, h.lineage, List.dropLast_concat], h.audit⟩

end Scene.Audited

namespace Walk

variable {w : Walk ι σ} {t : PreparedTable} {tops lineage names : List String}
  {top child name : String} {i : ι} {s : Scene σ} {depth : Nat}
  (hsilent : ∀ i c s, w.listener.remarks i c s = [])

include hsilent

theorem tell_audited (i : ι) (c : Call) (h : s.Audited w.table t tops lineage) :
    (s.tell w.listener i c).Audited w.table t tops lineage :=
  ⟨h.kept, h.detects, h.lineage, by simpa [Scene.tell, hsilent] using h.audit⟩

theorem upholds_audited : w.Upholds (Scene.Audited w.table t tops lineage) where
  state _ _ h := ⟨h.kept, h.detects, h.lineage, h.audit⟩
  tell _ i c h := tell_audited hsilent i c h
  dropped _ token legend h := by
    have hsaid := h.say (n := .dropped token legend) trivial
    simpa [Note.top?] using hsaid

/-- The induction is on the depth. What is stepped into has not been on the
lineage yet, so that the lineage stays without repetition. -/
theorem visit_ancestor_audited (depth : Nat) (name : String) (i : ι)
    (hlineage : t.Lineage top lineage child) (hdistinct : t.Distinct lineage)
    (htop : tops.getLast? = some top) (hext : t.Extends child name)
    (hs : s.Audited w.table t tops lineage) :
    (w.visit depth true name i s).Leaves (Scene.Audited w.table t tops lineage) := by
  induction depth generalizing lineage child name i s with
  | zero => exact Answer.leaves_iff.mpr fun _ _ hx => by cases hx
  | succ depth ih =>
    rw [w.visit_of_kept hs.kept]
    cases hp : t.get? name with
    | none =>
      rw [w.meet_undefined hp]
      exact Answer.leaves_some hs
    | some p =>
      by_cases hc : name ∈ s.lineage
      · rw [w.meet_cyclic hp hs.detects hc]
        exact Answer.leaves_some hs
      · have hname : name ∈ t.names := (t.mem_names_iff name).mpr ⟨p, hp⟩
        have hdistinct' := hdistinct.append hname (hs.lineage ▸ hc)
        have hfits : (Note.ancestor name s.lineage).Fits t s.log.toList :=
          ⟨top, by rw [hs.audit.tops, htop], hs.lineage ▸ hlineage.entered hext hdistinct'⟩
        have hnoted : (w.announce i true name s).Audited w.table t tops lineage := by
          simpa [announce, Note.top?] using hs.say hfits
        have hbody := (upholds_audited hsilent).tellBody (fun q hq j s' hs' =>
          ih q j (hlineage.step hext) hdistinct' ⟨p, hp, hq⟩ hs') i true (hnoted.enter name)
        rw [w.meet_told hp (by simp [hc])]
        exact hbody.through fun _ h => h.leave

theorem meet_palette_audited (depth : Nat) (i : ι) (hname : name ∈ t.names)
    (hs : s.Audited w.table t tops []) :
    (w.meet (w.visit depth true) t false name i s).Leaves
      (Scene.Audited w.table t (tops ++ [name]) []) := by
  obtain ⟨p, hp⟩ := (t.mem_names_iff name).mp hname
  have hfits : (Note.resolving name w.table).Fits t s.log.toList := hname
  have hnoted : (w.announce i false name s).Audited w.table t (tops ++ [name]) [] :=
    tell_audited hsilent i (.start w.table name) (hs.say hfits)
  have hbody := (upholds_audited hsilent).tellBody (fun q hq j s' hs' =>
    visit_ancestor_audited hsilent depth q j .start (.singleton hname) (by simp) ⟨p, hp, hq⟩ hs')
    i false (hnoted.enter name)
  rw [w.meet_told hp (by simp [hs.lineage])]
  exact hbody.through fun _ h => h.leave

theorem visit_palette_audited (depth : Nat) (i : ι) (hname : name ∈ t.names)
    (hs : s.Audited w.table t tops []) :
    (w.visit depth false name i s).Leaves (Scene.Audited w.table t (tops ++ [name]) []) := by
  cases depth with
  | zero => exact Answer.leaves_iff.mpr fun _ _ hx => by cases hx
  | succ depth =>
    rw [w.visit_of_kept hs.kept]
    exact meet_palette_audited hsilent depth i hname hs

theorem meet_top_audited (hs : s.Audited w.table t [] []) :
    (w.meet (w.visit depth true) t false name i s).Leaves fun s' =>
      ∃ told, told <+: [name] ∧ s'.Audited w.table t told [] := by
  cases hp : t.get? name with
  | none =>
    rw [w.meet_undefined hp]
    exact Answer.leaves_some ⟨[], List.nil_prefix, hs⟩
  | some p =>
    have hname := (t.mem_names_iff name).mpr ⟨p, hp⟩
    have htold := Answer.leaves_iff.mp (meet_palette_audited hsilent depth i hname hs)
    exact Answer.leaves_iff.mpr fun v s' h => ⟨[name], List.prefix_rfl, htold v s' h⟩

/-- Palettes told one after the other are noted in this order, up to one that fails. -/
theorem visitAll_audited (hnames : names ⊆ t.names) (hs : s.Audited w.table t tops []) :
    (w.visitAll depth i names s).Leaves fun s' =>
      ∃ told, told <+: names ∧ s'.Audited w.table t (tops ++ told) [] := by
  induction names generalizing tops s with
  | nil => exact Answer.leaves_some ⟨[], List.nil_prefix, by simpa using hs⟩
  | cons name names ih =>
    have hfirst := Answer.leaves_iff.mp
      (visit_palette_audited hsilent depth i (hnames List.mem_cons_self) hs)
    have hl : { s with lineage := [] } = s := by rw [← hs.lineage]
    rw [visitAll, hl]
    refine Answer.leaves_iff.mpr fun v s' h => ?_
    obtain ⟨e, hvisit, rfl⟩ | ⟨s₁, hvisit, hrest⟩ := Answer.andThen_eq_some_iff.mp h
    · exact ⟨[name], by simp, hfirst _ _ hvisit⟩
    · have hothers := ih (fun _ hn => hnames (List.mem_cons_of_mem _ hn)) (hfirst _ _ hvisit)
      obtain ⟨told, htold, haudited⟩ := Answer.leaves_iff.mp hothers v s' hrest
      exact ⟨name :: told, by simpa using htold, by simpa using haudited⟩

theorem tellTable_audited (hs : s.Audited w.table t tops []) :
    (w.tellTable depth i t.names s).Leaves fun s' =>
      ∃ told, told <+: t.names ∧ s'.Audited w.table t (tops ++ told) [] := by
  refine (visitAll_audited hsilent (fun _ h => h) hs).andThen ?_
  rintro s' ⟨told, htold, haudited⟩
  exact Answer.leaves_some ⟨told, htold, tell_audited hsilent i .finish haudited⟩

end Walk

/-! ## The operations -/

/-- The same listener, saying nothing of its own. -/
def Listener.silent (l : Listener ι σ) : Listener ι σ := { l with remarks := fun _ _ _ => [] }

/-- What a listener says makes no difference to what it does. -/
theorem Listener.silent_over (l : Listener ι σ) : l.silent.Over id l := by
  have hplan (plan : Plan ι σ) : Plan.Mirrors Eq id plan plan := by
    induction plan with
    | conclude verdict state => exact .conclude verdict state
    | resolve target state next ih => exact .resolve state rfl ih
  exact Listener.over_of (fun _ _ _ => rfl) fun i h s => hplan (l.inherit i h s)

namespace Resolver

variable {r : Resolver} {source : Source} {table : String} {l : Listener ι σ} {i : ι} {s : σ}

/-- A walk over a table that was prepared just now starts with notes that fit. -/
theorem audited_of_prepared (hdetect : r.options.detectCycles = true) (t : PreparedTable) (s : σ) :
    Scene.Audited table t [] []
      { state := s, resolver := r.keep table t, lookups := [table],
        log := #[.prepared t.size table] } :=
  ⟨r.prepared?_keep table t, hdetect, rfl, (Audit.nil t).snoc (n := .prepared t.size table) trivial⟩

theorem resolve?_audited (hdetect : r.options.detectCycles = true) {o : Outcome σ Bool}
    (h : r.resolve? source table l.silent i s = some o) :
    ∃ tops, tops <+: (PreparedTable.ofSource source table).names ∧
      Audit (.ofSource source table) tops o.log.toList := by
  cases hdefs : source table with
  | none =>
    rw [r.resolve?_none _ _ _ hdefs] at h
    cases h
    exact ⟨[], List.nil_prefix, (Audit.nil _).snoc (n := .noTable table) trivial⟩
  | some defs =>
    have ht : PreparedTable.ofSource source table = .ofDefs defs := by
      simp [PreparedTable.ofSource, hdefs]
    simp only [resolve?, prepareWatched_eq, prepare_of_defined hdefs, Option.map_eq_some_iff] at h
    obtain ⟨⟨v, scene⟩, hwalk, rfl⟩ := h
    obtain ⟨told, htops, haudited⟩ := Answer.leaves_iff.mp
      (Walk.tellTable_audited (w := ⟨l.silent, source, table⟩) (fun _ _ _ => rfl)
        (audited_of_prepared hdetect (.ofDefs defs) s)) v scene hwalk
    exact ⟨told, ht ▸ htops, ht ▸ haudited.audit⟩

theorem resolvePalette?_audited (hdetect : r.options.detectCycles = true) {palette : String}
    {o : Outcome σ Unit} (h : r.resolvePalette? source table palette l.silent i s = some o) :
    ∃ tops, tops <+: [palette] ∧ Audit (r.tableFor source table) tops o.log.toList := by
  have hmeet {t : PreparedTable} {scene : Scene σ}
      (hprepared : Scene.prepared { state := s, resolver := r } source table = (t, scene))
      (haudited : scene.Audited table t [] []) :
      ∃ tops, tops <+: [palette] ∧ Audit t tops o.log.toList := by
    rw [resolvePalette?_of_prepared hprepared] at h
    obtain ⟨⟨v, scene'⟩, hwalk, rfl⟩ := Option.map_eq_some_iff.mp h
    obtain ⟨told, htops, haudited'⟩ := Answer.leaves_iff.mp
      (Walk.meet_top_audited (fun _ _ _ => rfl) haudited) v scene' hwalk
    exact ⟨told, htops, haudited'.audit⟩
  cases hcache : r.prepared? table with
  | some t =>
    rw [((settled_of_kept hcache).1 source).1]
    exact hmeet (Scene.prepared_of_kept hcache) ⟨hcache, hdetect, rfl, .nil t⟩
  | none =>
    cases hdefs : source table with
    | none =>
      rw [resolvePalette?_of_prepared (Scene.prepared_of_undefined hcache hdefs),
        Walk.meet_undefined _ rfl] at h
      cases h
      exact ⟨[], List.nil_prefix, .nil _⟩
    | some defs =>
      rw [(settled_of_defined hcache hdefs).1]
      exact hmeet (Scene.prepared_of_defined hcache hdefs) (audited_of_prepared hdetect _ s)

variable (r source table l i s)

/-- While cycles are detected, every operation comes to an end, and whatever is
noted of a palette that was stepped into fits: its lineage is a path of parents
from the palette told in its own right, which is one of those asked for; the
names on it are declared and distinct; and it is shorter than the table has
palettes. The notes are taken with a listener that adds none of its own and
otherwise does the same. Every visit that passes its checks is noted first
thing, and every visit brings the lineage back as it was. Below any such lineage
there is room for the names that are not on it, and no more is needed. -/
theorem lineages_stay_short (hdetect : r.options.detectCycles = true) :
    (∃ o, r.resolve? source table l.silent i s = some o ∧
      (r.resolve? source table l i s).map Outcome.shown = some o.shown ∧
      ∃ tops, tops <+: (PreparedTable.ofSource source table).names ∧
        Audit (.ofSource source table) tops o.log.toList) ∧
    (∀ palette, ∃ o, r.resolvePalette? source table palette l.silent i s = some o ∧
      (r.resolvePalette? source table palette l i s).map Outcome.shown = some o.shown ∧
      ∃ tops, tops <+: [palette] ∧ Audit (r.tableFor source table) tops o.log.toList) ∧
    (∀ (w : Walk ι σ) depth ancestor name j scene v scene',
      w.visit depth ancestor name j scene = some (v, scene') →
        scene'.lineage = scene.lineage ∧
        (w.Passes name scene →
          (scene.prepared w.source w.table).2.log.toList ++
              [w.entry ancestor name scene.lineage] <+: scene'.log.toList) ∧
        (¬ w.Passes name scene → scene'.log = (scene.prepared w.source w.table).2.log)) ∧
    ∀ (w : Walk ι σ) t scene, scene.resolver.prepared? w.table = some t →
      scene.resolver.options.detectCycles = true → t.Distinct scene.lineage →
        ∀ depth name j, t.size < depth + scene.lineage.length →
          (w.visit depth true name j scene).isSome := by
  refine ⟨?_, fun palette => ?_, fun w depth ancestor name j scene v scene' h =>
    Walk.visit_notes h, fun w t scene hkept hd hdistinct depth name j hdepth =>
    Walk.visit_isSome hkept hd hdistinct hdepth name j⟩
  · obtain ⟨o, ho⟩ := Option.isSome_iff_exists.mp
      (r.resolve?_isSome source table l.silent i s hdetect)
    have hsame := resolve?_mirrored l.silent_over (Eq.refl i) r source table s
    rw [ho, Option.map_some] at hsame
    exact ⟨o, ho, hsame.symm, resolve?_audited hdetect ho⟩
  · obtain ⟨o, ho⟩ := Option.isSome_iff_exists.mp
      (r.resolvePalette?_isSome source table l.silent i s hdetect palette)
    have hsame := resolvePalette?_mirrored l.silent_over (Eq.refl i) r source table palette s
    rw [ho, Option.map_some] at hsame
    exact ⟨o, ho, hsame.symm, resolvePalette?_audited hdetect ho⟩

/-- Of two palettes that extend each other the second is stepped into as often
as it is asked for, and the first not again. -/
theorem insistent_stays_short :
    ∃ o, ({} : Resolver).resolvePalette? (fun _ => some PreparedTable.knot) "shop" "one"
        Listener.insistent.silent () [] = some o ∧
      o.log.toList = [.prepared 2 "shop", .resolving "one" "shop", .ancestor "two" ["one"],
        .ancestor "two" ["one"]] ∧
      (PreparedTable.ofDefs PreparedTable.knot).Entered "one" "two" ["one"] := by
  obtain ⟨-, hpalette, -⟩ := lineages_stay_short {} (fun _ => some PreparedTable.knot) "shop"
    Listener.insistent () [] rfl
  obtain ⟨o, ho, -, tops, -, haudit⟩ := hpalette "one"
  have hlog : (({} : Resolver).resolvePalette? (fun _ => some PreparedTable.knot) "shop" "one"
      Listener.insistent.silent () []).map (·.log.toList) =
        some [.prepared 2 "shop", .resolving "one" "shop", .ancestor "two" ["one"],
          .ancestor "two" ["one"]] := by rfl
  rw [ho, Option.map_some, Option.some.injEq] at hlog
  obtain ⟨top, htop, hentered⟩ := haudit.fits [.prepared 2 "shop", .resolving "one" "shop"]
    (.ancestor "two" ["one"]) _ hlog
  cases htop
  exact ⟨o, ho, hlog, hentered⟩

end Resolver

end Palettes
