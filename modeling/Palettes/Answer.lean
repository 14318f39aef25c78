import Palettes.Listener

/-!
What comes of telling something: a verdict and the state it leaves, or nothing
if the telling is given up. Tellings follow one another up to the first that
ends in an error.
-/
namespace Palettes

abbrev Answer (σ : Type) := Option (Verdict × σ)

namespace Answer

variable {σ τ : Type}

/-- Go on from the state of an answer, unless it is an error. -/
@[inline] def andThen (x : Answer σ) (next : σ → Answer σ) : Answer σ :=
  match x with
  | none => none
  | some (.error e, s) => some (.error e, s)
  | some (.ok (), s) => next s

/-- See the state of an answer through a map. -/
def through (f : σ → τ) (x : Answer σ) : Answer τ := x.map fun p => (p.1, f p.2)

@[simp] theorem andThen_none (next : σ → Answer σ) : andThen none next = none := rfl

@[simp] theorem andThen_error (e : ResolveError) (s : σ) (next : σ → Answer σ) :
    andThen (some (.error e, s)) next = some (.error e, s) := rfl

@[simp] theorem andThen_ok (s : σ) (next : σ → Answer σ) :
    andThen (some (.ok (), s)) next = next s := rfl

/-- An answer that was gone on from either is the first one, an error, or comes
of what followed. -/
theorem andThen_eq_some_iff {x : Answer σ} {next : σ → Answer σ} {v : Verdict} {s : σ} :
    x.andThen next = some (v, s) ↔
      (∃ e, x = some (.error e, s) ∧ v = .error e) ∨
        ∃ s₁, x = some (.ok (), s₁) ∧ next s₁ = some (v, s) := by
  match x with
  | none => simp
  | some (.error e, s₁) =>
    simp only [andThen_error, Option.some.injEq, Prod.mk.injEq, reduceCtorEq, false_and,
      exists_false, or_false]
    constructor
    · rintro ⟨rfl, rfl⟩
      exact ⟨e, ⟨rfl, rfl⟩, rfl⟩
    · rintro ⟨e', ⟨he, rfl⟩, rfl⟩
      exact ⟨he, rfl⟩
  | some (.ok (), s₁) => simp

theorem isSome_andThen {x : Answer σ} {next : σ → Answer σ} (hx : x.isSome)
    (hnext : ∀ s, (next s).isSome) : (x.andThen next).isSome := by
  match x with
  | some (.error e, s) => rfl
  | some (.ok (), s) => exact hnext s

theorem through_andThen (f : σ → τ) (x : Answer σ) {next : σ → Answer σ} {next' : τ → Answer τ}
    (hnext : ∀ s, (next s).through f = next' (f s)) :
    (x.andThen next).through f = (x.through f).andThen next' := by
  match x with
  | none => rfl
  | some (.error e, s) => rfl
  | some (.ok (), s) => exact hnext s

end Answer

end Palettes
