/-!
A reader takes what it needs from the front of a text and leaves the rest, or
fails. What it leaves is never longer than the text, so that `loop`, which
takes a character before each round, comes to an end.
-/
namespace Palettes

structure Reader (ε α : Type) where
  run : List Char → Except ε (α × List Char)
  length_le : ∀ {s a r}, run s = .ok (a, r) → r.length ≤ s.length

namespace Reader

variable {ε α β : Type}

protected def pure (a : α) : Reader ε α where
  run s := .ok (a, s)
  length_le h := by cases h; exact Nat.le_refl _

protected def bind (p : Reader ε α) (f : α → Reader ε β) : Reader ε β where
  run s :=
    match p.run s with
    | .error e => .error e
    | .ok (a, r) => (f a).run r
  length_le {s b t} h := by
    split at h
    · cases h
    · next a r hp => exact Nat.le_trans ((f a).length_le h) (p.length_le hp)

instance : Monad (Reader ε) where
  pure := Reader.pure
  bind := Reader.bind

def fail (e : ε) : Reader ε α where
  run _ := .error e
  length_le h := by cases h

/-- The character that comes next, left in place. -/
def peek : Reader ε (Option Char) where
  run s := .ok (s.head?, s)
  length_le h := by cases h; exact Nat.le_refl _

/-- The character that comes next, taken. -/
def next : Reader ε (Option Char) where
  run s := .ok (s.head?, s.tail)
  length_le {s a r} h := by cases h; simp

def takeWhile (p : Char → Bool) : Reader ε (List Char) where
  run s := .ok (s.takeWhile p, s.dropWhile p)
  length_le {s a r} h := by
    cases h
    exact (List.dropWhile_sublist p).length_le

def skipWhile (p : Char → Bool) : Reader ε Unit where
  run s := .ok ((), s.dropWhile p)
  length_le {s a r} h := by
    cases h
    exact (List.dropWhile_sublist p).length_le

/-- What comes next, whether a condition holds of all that is left. -/
def sees (p : List Char → Bool) : Reader ε Bool where
  run s := .ok (p s, s)
  length_le h := by cases h; exact Nat.le_refl _

/-- What a reader yields, together with the text it takes. -/
def spelled (p : Reader ε α) : Reader ε (α × List Char) where
  run s :=
    match p.run s with
    | .error e => .error e
    | .ok (a, r) => .ok ((a, s.take (s.length - r.length)), r)
  length_le {s b t} h := by
    split at h
    · cases h
    · next a r hp => cases h; exact p.length_le hp

/-- Take the characters of `word`, failing with `short` where the text ends
within it and with `wrong` at a character that differs. -/
def word (short wrong : ε) : List Char → Reader ε Unit
  | [] => Reader.pure ()
  | c :: cs => next.bind fun
    | none => fail short
    | some d => if d = c then word short wrong cs else fail wrong

/-- The rounds of a loop: as long as `goesOn` accepts the state and the next
character, take the character and do a round. -/
def loopRun (goesOn : β → Char → Bool) (round : Char → β → Reader ε β) (b : β) :
    List Char → Except ε (β × List Char)
  | [] => .ok (b, [])
  | c :: s =>
    if goesOn b c then
      match _h : (round c b).run s with
      | .error e => .error e
      | .ok (b', r) => loopRun goesOn round b' r
    else .ok (b, c :: s)
termination_by s => s.length
decreasing_by exact Nat.lt_succ_of_le ((round c b).length_le _h)

theorem loopRun_length_le (goesOn : β → Char → Bool) (round : Char → β → Reader ε β) (b : β)
    (s : List Char) {a : β} {r : List Char} (h : loopRun goesOn round b s = .ok (a, r)) :
    r.length ≤ s.length := by
  fun_induction loopRun goesOn round b s with
  | case1 => cases h; exact Nat.le_refl _
  | case2 => cases h
  | case3 b c s _ b' r' hr ih =>
    exact Nat.le_trans (ih h) (Nat.le_succ_of_le ((round c b).length_le hr))
  | case4 => cases h; exact Nat.le_refl _

def loop (goesOn : β → Char → Bool) (round : Char → β → Reader ε β) (b : β) : Reader ε β where
  run := loopRun goesOn round b
  length_le h := loopRun_length_le goesOn round b _ h

@[simp] theorem run_pure (a : α) (s : List Char) :
    (pure a : Reader ε α).run s = .ok (a, s) := rfl

@[simp] theorem run_bind (p : Reader ε α) (f : α → Reader ε β) (s : List Char) :
    (p >>= f).run s =
      match p.run s with
      | .error e => .error e
      | .ok (a, r) => (f a).run r := rfl

@[simp] theorem run_fail (e : ε) (s : List Char) : (fail e : Reader ε α).run s = .error e := rfl

@[simp] theorem run_peek (s : List Char) : (peek : Reader ε _).run s = .ok (s.head?, s) := rfl

@[simp] theorem run_next (s : List Char) : (next : Reader ε _).run s = .ok (s.head?, s.tail) := rfl

/-! ## Runs -/

@[simp] theorem run_skipWhile (p : Char → Bool) (s : List Char) :
    (skipWhile p : Reader ε Unit).run s = .ok ((), s.dropWhile p) := rfl

@[simp] theorem run_sees (p : List Char → Bool) (s : List Char) :
    (sees p : Reader ε Bool).run s = .ok (p s, s) := rfl

protected theorem ext {p q : Reader ε α} (h : ∀ s, p.run s = q.run s) : p = q := by
  cases p
  cases q
  congr
  exact funext h

protected theorem id_map (p : Reader ε α) : id <$> p = p := by
  apply Reader.ext
  intro s
  change (match p.run s with | .error e => _ | .ok (a, r) => _) = _
  cases p.run s <;> rfl

protected theorem bind_assoc {γ : Type} (p : Reader ε α) (f : α → Reader ε β) (g : β → Reader ε γ) :
    p >>= f >>= g = p >>= fun a => f a >>= g := by
  apply Reader.ext
  intro s
  simp only [run_bind]
  cases p.run s <;> rfl

instance : LawfulMonad (Reader ε) :=
  LawfulMonad.mk' (Reader ε) Reader.id_map (fun _ _ => rfl) Reader.bind_assoc

theorem run_bind_of_ok {p : Reader ε α} {f : α → Reader ε β} {s r : List Char} {a : α}
    (h : p.run s = .ok (a, r)) : (p >>= f).run s = (f a).run r := by
  rw [run_bind, h]

theorem run_bind_of_error {p : Reader ε α} {f : α → Reader ε β} {s : List Char} {e : ε}
    (h : p.run s = .error e) : (p >>= f).run s = .error e := by
  rw [run_bind, h]

theorem run_discard_of_ok {p : Reader ε α} {s r : List Char} {a : α} (h : p.run s = .ok (a, r)) :
    (discard p).run s = .ok ((), r) := by
  have hbind : discard p = p >>= fun _ => pure () := rfl
  rw [hbind, run_bind_of_ok h, run_pure]

theorem run_discard_next (c : Char) (s : List Char) :
    (discard next : Reader ε Unit).run (c :: s) = .ok ((), s) := rfl

theorem run_word (short wrong : ε) (cs r : List Char) :
    (word short wrong cs).run (cs ++ r) = .ok ((), r) := by
  induction cs with
  | nil => rfl
  | cons c cs ih =>
    have hfirst : (word short wrong (c :: cs)).run (c :: cs ++ r) =
        (if c = c then word short wrong cs else fail wrong).run (cs ++ r) := rfl
    rw [hfirst, if_pos rfl, ih]

theorem run_loop_nil (goesOn : β → Char → Bool) (round : Char → β → Reader ε β) (b : β) :
    (loop goesOn round b).run [] = .ok (b, []) := by
  change loopRun goesOn round b [] = _
  rw [loopRun]

theorem run_loop_stop {goesOn : β → Char → Bool} {round : Char → β → Reader ε β} {b : β}
    {c : Char} {s : List Char} (h : goesOn b c = false) :
    (loop goesOn round b).run (c :: s) = .ok (b, c :: s) := by
  change loopRun goesOn round b (c :: s) = _
  rw [loopRun, h]
  rfl

/-- A loop is a round and the loop again. -/
theorem run_loop_round {goesOn : β → Char → Bool} {round : Char → β → Reader ε β} {b : β}
    {c : Char} {s : List Char} (h : goesOn b c = true) :
    (loop goesOn round b).run (c :: s) = (round c b >>= loop goesOn round).run s := by
  change loopRun goesOn round b (c :: s) = _
  rw [loopRun, if_pos h, run_bind]
  split
  · next hround => rw [hround]
  · next hround => rw [hround]; rfl

end Reader

end Palettes
