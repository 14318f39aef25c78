import Palettes.Proofs.Trace

/-!
Detecting cycles matters only where there is one. For a listener that follows,
a telling that ends otherwise ends the same way, with the same state, when
cycles are not detected, at the same depth or any greater one. So for recorders
and builders an operation without detection is the one with detection wherever
that does not end at a cycle, even if a cycle lies behind the point where it ends.
-/
namespace Palettes

/-- The same setting without detection of cycles. -/
def Setting.undetected (w : Setting) : Setting := { w with detectCycles := false }

/-- The same setting with detection of cycles. -/
def Setting.detected (w : Setting) : Setting := { w with detectCycles := true }

theorem Setting.detected_of_on (w : Setting) (h : w.detectCycles = true) : w.detected = w := by
  rw [detected, ← h]

theorem Setting.undetected_detected (w : Setting) (h : w.detectCycles = false) :
    w.detected.undetected = w := by
  rw [detected, undetected, ← h]

/-- An end that is not a cycle met. -/
def Acyclic (v : Verdict) : Prop := ∀ chain, v ≠ .error (.cyclicInheritance chain)

theorem acyclic_ok (u : Unit) : Acyclic (.ok u) := by
  intro chain h
  cases h

namespace Telling

variable {ι σ : Type} {w : Setting} {l : Listener ι σ} {i : ι} {hear : σ → Event → σ}
  (hl : l.Follows i hear)

include hl

/-- The induction is on the depth, and within it on the parents. -/
theorem parents_undetected {depth depth' : Nat} (hle : depth ≤ depth')
    {lineage parents : List String} {s s' : σ} {v : Verdict} (hv : Acyclic v)
    (h : Telling.parents ⟨w, l⟩ (ancestor ⟨w, l⟩ depth lineage) i parents s = some (v, s')) :
    Telling.parents ⟨w.undetected, l⟩ (ancestor ⟨w.undetected, l⟩ depth' lineage) i parents s =
      some (v, s') := by
  induction depth generalizing depth' lineage parents s v s' with
  | zero =>
    cases parents with
    | nil => exact h
    | cons q parents => simp [parents_cons (t := ⟨w, l⟩) hl, ancestor] at h
  | succ depth ihDepth =>
    obtain ⟨depth', rfl⟩ : ∃ d, depth' = d + 1 :=
      Nat.exists_eq_succ_of_ne_zero (Nat.ne_zero_of_lt hle)
    induction parents generalizing s with
    | nil => exact h
    | cons q parents ihParents =>
      rw [parents_cons (t := ⟨w, l⟩) hl] at h
      rw [parents_cons (t := ⟨w.undetected, l⟩) hl]
      cases hp : w.prepared.get? q with
      | none =>
        rw [ancestor_undefined (t := ⟨w, l⟩) hp, Answer.andThen_error] at h
        rw [ancestor_undefined (t := ⟨w.undetected, l⟩) hp, Answer.andThen_error]
        exact h
      | some p =>
        by_cases hc : w.detectCycles = true ∧ q ∈ lineage
        · rw [ancestor_cyclic (t := ⟨w, l⟩) hp hc.1 hc.2] at h
          cases h
          exact absurd rfl (hv _)
        · have hle' : depth ≤ depth' := Nat.le_of_succ_le_succ hle
          rw [ancestor_told (t := ⟨w, l⟩) hp hc] at h
          rw [ancestor_told (t := ⟨w.undetected, l⟩) hp (by simp [Setting.undetected])]
          rw [Answer.andThen_eq_some_iff] at h ⊢
          obtain ⟨e, hbody, rfl⟩ | ⟨s₂, hbody, hafter⟩ := h
          · have habove := ihDepth hle' hv (body_eq_error_iff.mp hbody)
            exact .inl ⟨e, body_eq_error_iff.mpr habove, rfl⟩
          · obtain ⟨s₁, hparents, hlegends⟩ := body_eq_ok_iff.mp hbody
            have habove := ihDepth hle' (acyclic_ok ()) hparents
            exact .inr ⟨s₂, body_eq_ok_iff.mpr ⟨s₁, habove, hlegends⟩, ihParents hafter⟩

theorem palette_undetected {depth depth' : Nat} (hle : depth ≤ depth') {name : String}
    {s s' : σ} {v : Verdict} (hv : Acyclic v)
    (h : palette ⟨w, l⟩ depth name i s = some (v, s')) :
    palette ⟨w.undetected, l⟩ depth' name i s = some (v, s') := by
  cases depth with
  | zero => cases h
  | succ depth =>
    obtain ⟨depth', rfl⟩ : ∃ d, depth' = d + 1 :=
      Nat.exists_eq_succ_of_ne_zero (Nat.ne_zero_of_lt hle)
    have hle' : depth ≤ depth' := Nat.le_of_succ_le_succ hle
    cases hp : w.prepared.get? name with
    | none =>
      rw [palette_undefined (t := ⟨w, l⟩) hp] at h
      rw [palette_undefined (t := ⟨w.undetected, l⟩) hp]
      exact h
    | some p =>
      rw [palette_told (t := ⟨w, l⟩) hp] at h
      rw [palette_told (t := ⟨w.undetected, l⟩) hp]
      cases v with
      | error e =>
        have habove := parents_undetected hl hle' hv (body_eq_error_iff.mp h)
        exact body_eq_error_iff.mpr habove
      | ok _ =>
        obtain ⟨s₁, hparents, hlegends⟩ := body_eq_ok_iff.mp h
        have habove := parents_undetected hl hle' (acyclic_ok ()) hparents
        exact body_eq_ok_iff.mpr ⟨s₁, habove, hlegends⟩

theorem palettes_undetected {depth depth' : Nat} (hle : depth ≤ depth') {names : List String}
    {s s' : σ} {v : Verdict} (hv : Acyclic v)
    (h : palettes ⟨w, l⟩ depth i names s = some (v, s')) :
    palettes ⟨w.undetected, l⟩ depth' i names s = some (v, s') := by
  induction names generalizing s with
  | nil => exact h
  | cons name names ih =>
    rw [palettes, Answer.andThen_eq_some_iff] at h ⊢
    obtain ⟨e, hname, rfl⟩ | ⟨s₁, hname, hnames⟩ := h
    · exact .inl ⟨e, palette_undetected hl hle hv hname, rfl⟩
    · exact .inr ⟨s₁, palette_undetected hl hle (acyclic_ok ()) hname, ih hnames⟩

theorem whole_undetected {depth depth' : Nat} (hle : depth ≤ depth') {s s' : σ} {v : Verdict}
    (hv : Acyclic v) (h : whole ⟨w, l⟩ depth i s = some (v, s')) :
    whole ⟨w.undetected, l⟩ depth' i s = some (v, s') := by
  rw [whole, Answer.andThen_eq_some_iff] at h ⊢
  obtain ⟨e, hnames, rfl⟩ | ⟨s₁, hnames, hfinish⟩ := h
  · exact .inl ⟨e, palettes_undetected hl hle hv hnames, rfl⟩
  · exact .inr ⟨s₁, palettes_undetected hl hle (acyclic_ok ()) hnames, hfinish⟩

end Telling

/-! ## The operations -/

namespace Resolver

variable {ι σ : Type} {r : Resolver} {source : Source} {table : String}

/-- The same resolver without detection of cycles, and with another bound on
how deep its walks may nest. -/
def undetecting (r : Resolver) (nesting : Nat) : Resolver :=
  { r with options := { detectCycles := false, nesting } }

/-- Two outcomes that differ in nothing but what was said, where the resolvers
need not have the same options. -/
structure Outcome.Alike {α : Type} (o o' : Outcome σ α) : Prop where
  result : o'.result = o.result
  state : o'.state = o.state
  cache : o'.resolver.cache = o.resolver.cache
  lookups : o'.lookups = o.lookups

theorem cache_settled_undetecting (nesting : Nat) :
    ((r.undetecting nesting).settled source table).cache = (r.settled source table).cache := by
  have hkept : (r.undetecting nesting).prepared? table = r.prepared? table := rfl
  unfold settled
  rw [hkept]
  split
  · rfl
  · cases hdefs : source table with
    | none =>
      rw [prepare_of_undefined hdefs, prepare_of_undefined hdefs]
      rfl
    | some defs =>
      rw [prepare_of_defined hdefs, prepare_of_defined hdefs]
      rfl

/-- Walks may nest at least as deep as they may with detection. -/
theorem depth_le_depth_undetecting (hdetect : r.options.detectCycles = true) (nesting n : Nat) :
    r.options.depth n ≤ (r.undetecting nesting).options.depth n := by
  simp [Options.depth, Options.nested, undetecting, hdetect]

theorem resolvePalette?_undetecting {l : Listener ι σ} {i : ι} {hear : σ → Event → σ}
    (hl : l.Follows i hear) (hdetect : r.options.detectCycles = true) {palette : String} {s : σ}
    {o : Outcome σ Unit} (h : r.resolvePalette? source table palette l i s = some o)
    (hv : Acyclic o.result) (nesting : Nat) :
    ∃ o', (r.undetecting nesting).resolvePalette? source table palette l i s = some o' ∧
      o.Alike o' := by
  obtain ⟨htold, hresolver, hlookups⟩ := resolvePalette?_told h
  have hoff : Telling.palette ⟨(r.undetecting nesting).setting table (r.tableFor source table), l⟩
      ((r.undetecting nesting).depthFor source table) palette i s = some (o.result, o.state) :=
    Telling.palette_undetected hl
      (depth_le_depth_undetecting hdetect nesting (r.tableFor source table).size) hv htold
  obtain ⟨o', ho', hresult, hstate⟩ := resolvePalette?_of_told hoff
  obtain ⟨-, hresolver', hlookups'⟩ := resolvePalette?_told ho'
  refine ⟨o', ho', hresult, hstate, ?_, hlookups'.trans hlookups.symm⟩
  rw [hresolver', hresolver, cache_settled_undetecting]

theorem resolve?_undetecting {l : Listener ι σ} {i : ι} {hear : σ → Event → σ}
    (hl : l.Follows i hear) (hdetect : r.options.detectCycles = true) {s : σ}
    {o : Outcome σ Bool} (h : r.resolve? source table l i s = some o)
    (hv : ∀ chain, o.result ≠ .error (.cyclicInheritance chain)) (nesting : Nat) :
    ∃ o', (r.undetecting nesting).resolve? source table l i s = some o' ∧ o.Alike o' := by
  cases hdefs : source table with
  | none =>
    rw [r.resolve?_none l i s hdefs] at h
    cases h
    exact ⟨_, (r.undetecting nesting).resolve?_none l i s hdefs, rfl, rfl, rfl, rfl⟩
  | some defs =>
    obtain ⟨v, htold, hresult, hresolver, hlookups⟩ := resolve?_told hdefs h
    have hacyclic : Acyclic v := fun chain hchain => hv chain (by rw [hresult, hchain]; rfl)
    have hoff := Telling.whole_undetected hl
      (depth_le_depth_undetecting hdetect nesting (PreparedTable.ofDefs defs).size) hacyclic htold
    obtain ⟨o', ho', hresult', hstate⟩ :=
      resolve?_of_told (r := r.undetecting nesting) hdefs hoff
    obtain ⟨-, -, -, hresolver', hlookups'⟩ := resolve?_told hdefs ho'
    refine ⟨o', ho', hresult'.trans hresult.symm, hstate, ?_, hlookups'.trans hlookups.symm⟩
    rw [hresolver', hresolver]
    rfl

variable (r source table)

/-- Where a recorder or a builder comes to an end while cycles are detected, and
not at a cycle, it comes to the same end when they are not detected, with the
same recording or palettes, the same lookups and the same tables kept. Not even
a bound on the nesting shows, since no walk nests deeper than with detection. -/
theorem detection_shows_only_at_cycles (hdetect : r.options.detectCycles = true) (nesting : Nat) :
    (∀ s o, r.resolve? source table (Recorder.listener true) () s = some o →
      (∀ chain, o.result ≠ .error (.cyclicInheritance chain)) →
      ∃ o', (r.undetecting nesting).resolve? source table (Recorder.listener true) () s = some o' ∧
        o.Alike o') ∧
    (∀ b o, r.resolve? source table Builder.listener () b = some o →
      (∀ chain, o.result ≠ .error (.cyclicInheritance chain)) →
      ∃ o', (r.undetecting nesting).resolve? source table Builder.listener () b = some o' ∧
        o.Alike o') ∧
    ∀ palette,
      (∀ s o, r.resolvePalette? source table palette (Recorder.listener true) () s = some o →
        (∀ chain, o.result ≠ .error (.cyclicInheritance chain)) →
        ∃ o', (r.undetecting nesting).resolvePalette? source table palette (Recorder.listener true)
          () s = some o' ∧ o.Alike o') ∧
      ∀ b o, r.resolvePalette? source table palette Builder.listener () b = some o →
        (∀ chain, o.result ≠ .error (.cyclicInheritance chain)) →
        ∃ o', (r.undetecting nesting).resolvePalette? source table palette Builder.listener () b =
          some o' ∧ o.Alike o' := by
  refine ⟨fun s o ho hv => ?_, fun b o ho hv => ?_, fun palette => ⟨fun s o ho hv => ?_,
    fun b o ho hv => ?_⟩⟩
  · exact resolve?_undetecting Recorder.follows hdetect ho hv nesting
  · exact resolve?_undetecting Builder.follows hdetect ho hv nesting
  · exact resolvePalette?_undetecting Recorder.follows hdetect ho hv nesting
  · exact resolvePalette?_undetecting Builder.follows hdetect ho hv nesting

/-- A table with a cycle that lies behind a missing palette. -/
def snare : PaletteDefs := .ofList
  [("root", .ofList [("main", ["id"])]),
    ("tip extends ring extends gone extends root", .ofList [("+main", ["note"])]),
    ("ring extends ring", .empty)]

/-- The missing palette is met first, with detection or without. -/
theorem snare_is_not_met :
    ∃ o o', ({} : Resolver).resolve? (fun _ => some snare) "shop" Builder.listener () {} = some o ∧
      o.result = .error (.undefinedPalette "shop" "gone") ∧
      (({} : Resolver).undetecting 0).resolve? (fun _ => some snare) "shop" Builder.listener () {} =
        some o' ∧ o.Alike o' := by
  have hend : (({} : Resolver).resolve? (fun _ => some snare) "shop" Builder.listener () {}).map
      (·.result) = some (.error (.undefinedPalette "shop" "gone")) := by rfl
  obtain ⟨o, ho, hresult⟩ := Option.map_eq_some_iff.mp hend
  obtain ⟨-, hbuilder, -⟩ :=
    detection_shows_only_at_cycles {} (fun _ => some snare) "shop" rfl 0
  obtain ⟨o', ho', halike⟩ := hbuilder {} o ho (by simp [hresult])
  exact ⟨o, o', ho, hresult, ho', halike⟩

end Resolver

end Palettes
