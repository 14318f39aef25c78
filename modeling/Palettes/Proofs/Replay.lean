import Palettes.Proofs.Trace

/-!
Building and recording are two readings of one trace. So a builder that
resolves ends where it would have come by replaying a recording of the same
operation, whether the operation succeeds or fails and whatever the builder
held before.
-/
namespace Palettes

/-- Give a builder what was recorded, call by call. Announced parents are passed over. -/
def Builder.replay (b : Builder) (events : List Event) : Builder := events.foldl Builder.hear b

/-- What was built is what replaying the recording builds. -/
structure Replays {α : Type} (b : Builder) (built : Resolver.Outcome Builder α)
    (recorded : Resolver.Outcome Recorder.Recording α) : Prop where
  result : built.result = recorded.result
  state : built.state = b.replay recorded.state.toList
  resolver : built.resolver = recorded.resolver
  lookups : built.lookups = recorded.lookups

namespace Resolver

variable (r : Resolver) (source : Source) (table : String) (b : Builder)

theorem resolvePalette?_replays (palette : String) {built : Outcome Builder Unit}
    {recorded : Outcome Recorder.Recording Unit}
    (hbuilt : r.resolvePalette? source table palette Builder.listener () b = some built)
    (hrecorded : r.resolvePalette? source table palette (Recorder.listener true) () #[] =
      some recorded) : Replays b built recorded := by
  obtain ⟨es, hes, hstate⟩ := resolvePalette?_trace Builder.follows hbuilt
  obtain ⟨es', hes', hstate'⟩ := resolvePalette?_trace Recorder.follows hrecorded
  obtain ⟨-, hr, hk⟩ := resolvePalette?_told hbuilt
  obtain ⟨-, hr', hk'⟩ := resolvePalette?_told hrecorded
  obtain ⟨rfl, hresult⟩ := hes.unique hes'
  refine ⟨hresult, ?_, hr.trans hr'.symm, hk.trans hk'.symm⟩
  simp [hstate, hstate', Builder.replay]

theorem resolve?_replays {built : Outcome Builder Bool}
    {recorded : Outcome Recorder.Recording Bool}
    (hbuilt : r.resolve? source table Builder.listener () b = some built)
    (hrecorded : r.resolve? source table (Recorder.listener true) () #[] = some recorded) :
    Replays b built recorded := by
  cases hdefs : source table with
  | none =>
    rw [resolve?_none r _ _ _ hdefs] at hbuilt hrecorded
    cases hbuilt
    cases hrecorded
    exact ⟨rfl, rfl, rfl, rfl⟩
  | some defs =>
    obtain ⟨es, v, hes, hresult, hstate⟩ := resolve?_trace Builder.follows hdefs hbuilt
    obtain ⟨es', v', hes', hresult', hstate'⟩ := resolve?_trace Recorder.follows hdefs hrecorded
    obtain ⟨-, -, -, hr, hk⟩ := resolve?_told hdefs hbuilt
    obtain ⟨-, -, -, hr', hk'⟩ := resolve?_told hdefs hrecorded
    obtain ⟨rfl, rfl⟩ := hes.unique hes'
    refine ⟨hresult.trans hresult'.symm, ?_, hr.trans hr'.symm, hk.trans hk'.symm⟩
    simp [hstate, hstate', Builder.replay]

/-- Resolving into a builder agrees with recording first and replaying
afterwards, for whole tables and for single palettes. -/
theorem building_agrees_with_replay (hdetect : r.options.detectCycles = true) :
    (∃ built recorded, r.resolve? source table Builder.listener () b = some built ∧
      r.resolve? source table (Recorder.listener true) () #[] = some recorded ∧
      Replays b built recorded) ∧
    ∀ palette, ∃ built recorded,
      r.resolvePalette? source table palette Builder.listener () b = some built ∧
      r.resolvePalette? source table palette (Recorder.listener true) () #[] = some recorded ∧
      Replays b built recorded := by
  constructor
  · obtain ⟨built, hbuilt⟩ := Option.isSome_iff_exists.mp
      (r.resolve?_isSome source table Builder.listener () b hdetect)
    obtain ⟨recorded, hrecorded⟩ := Option.isSome_iff_exists.mp
      (r.resolve?_isSome source table (Recorder.listener true) () #[] hdetect)
    exact ⟨built, recorded, hbuilt, hrecorded, resolve?_replays r source table b hbuilt hrecorded⟩
  · intro palette
    obtain ⟨built, hbuilt⟩ := Option.isSome_iff_exists.mp
      (r.resolvePalette?_isSome source table Builder.listener () b hdetect palette)
    obtain ⟨recorded, hrecorded⟩ := Option.isSome_iff_exists.mp
      (r.resolvePalette?_isSome source table (Recorder.listener true) () #[] hdetect palette)
    exact ⟨built, recorded, hbuilt, hrecorded,
      resolvePalette?_replays r source table b palette hbuilt hrecorded⟩

/-- A table with a cycle is built up to the cycle, and replayed up to it. -/
theorem knot_replays :
    ∃ built recorded,
      ({} : Resolver).resolve? (fun _ => some PreparedTable.knot) "shop" Builder.listener () {} =
        some built ∧
      ({} : Resolver).resolve? (fun _ => some PreparedTable.knot) "shop" (Recorder.listener true)
        () #[] = some recorded ∧
      built.result = .error (.cyclicInheritance ["one", "two", "one"]) ∧
      Replays {} built recorded := by
  obtain ⟨⟨built, recorded, hbuilt, hrecorded, h⟩, -⟩ :=
    building_agrees_with_replay {} (fun _ => some PreparedTable.knot) "shop" {} rfl
  refine ⟨built, recorded, hbuilt, hrecorded, ?_, h⟩
  have hresult : (({} : Resolver).resolve? (fun _ => some PreparedTable.knot) "shop"
      Builder.listener () {}).map (·.result) =
        some (.error (.cyclicInheritance ["one", "two", "one"])) := by rfl
  rw [hbuilt] at hresult
  exact Option.some.inj hresult

end Resolver

end Palettes
