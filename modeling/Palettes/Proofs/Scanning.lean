import Palettes.Json.Skip
import Palettes.Json.Writer

/-!
What the scanner makes of written text. A string comes back from its quoted
form, whichever of its characters are escaped, and a string that is passed over
leaves what stands behind it.
-/
namespace Palettes.Json

open Reader

def Blank (cs : List Char) : Prop := ∀ c ∈ cs, isBlank c = true

theorem blank_nil : Blank [] := fun _ h => nomatch h

theorem run_blanks {bs : List Char} (hbs : Blank bs) {c : Char} (hc : isBlank c = false)
    (s : List Char) : blanks.run (bs ++ c :: s) = .ok ((), c :: s) := by
  rw [blanks, run_skipWhile, List.dropWhile_append_of_pos hbs,
    List.dropWhile_cons_of_neg (by simp [hc])]

theorem run_token {bs : List Char} (hbs : Blank bs) {c : Char} (hc : isBlank c = false)
    (s : List Char) : token.run (bs ++ c :: s) = .ok (c, c :: s) := by
  rw [token, run_bind_of_ok (run_blanks hbs hc s)]
  rfl

theorem run_literal (cs r : List Char) : (literal cs).run (cs ++ r) = .ok ((), r) :=
  run_word Fault.truncated Fault.malformed cs r

theorem run_punct {bs : List Char} (hbs : Blank bs) {c : Char} (hc : isBlank c = false)
    (s : List Char) : (punct c).run (bs ++ c :: s) = .ok ((), s) := by
  rw [punct, run_bind_of_ok (run_blanks hbs hc s)]
  exact run_literal [c] s

theorem hexValue?_hexDigit : ∀ n < 16, Digit.hexValue? (hexDigit n) = some n := by decide
theorem utf8Size_hexDigit : ∀ n < 16, (hexDigit n).utf8Size = 1 := by decide

theorem run_hex4 {a b : Nat} (ha : a < 16) (hb : b < 16) (s : List Char) :
    hex4.run ('0' :: '0' :: hexDigit a :: hexDigit b :: s) = .ok (16 * a + b, s) := by
  have hzero : Digit.hexValue? '0' = some 0 := by decide
  have hsize : (String.ofList ['0', '0', hexDigit a, hexDigit b]).utf8ByteSize = 4 := by
    simp [utf8Size_hexDigit, ha, hb]
    decide
  have hhex : ['0', '0', hexDigit a, hexDigit b].all Digit.isHex = true := by
    simp [Digit.isHex, hzero, hexValue?_hexDigit, ha, hb]
  have hnumber : Digit.number 16 ['0', '0', hexDigit a, hexDigit b] = 16 * a + b := by
    simp [Digit.number, hzero, hexValue?_hexDigit, ha, hb]
  simp only [hex4, run_bind, run_sees, List.take_succ_cons, List.take_zero, hsize, Nat.lt_irrefl,
    decide_false, Bool.false_eq_true, if_false, run_next, List.head?_cons, List.tail_cons,
    List.filterMap_cons, id, List.filterMap_nil, List.length_cons, List.length_nil, hhex, hnumber]
  rfl

theorem run_unicodeEscape {c : Char} (hc : c.toNat < 32) (s : List Char) :
    unicodeEscape.run ('0' :: '0' :: hexDigit (c.toNat / 16) :: hexDigit (c.toNat % 16) :: s) =
      .ok (c, s) := by
  have hcode : 16 * (c.toNat / 16) + c.toNat % 16 = c.toNat := by omega
  have hhex := run_hex4 (a := c.toNat / 16) (b := c.toNat % 16) (by omega) (by omega) s
  have htrailing : isTrailing c.toNat = false := by simp [isTrailing]; omega
  have hleading : isLeading c.toNat = false := by simp [isLeading]; omega
  rw [unicodeEscape, run_bind_of_ok hhex, hcode, htrailing, hleading]
  simp [Char.ofNat_toNat]

/-- A character is written behind a backslash, by its code, or as it is. -/
theorem escape_cases (c : Char) :
    (∃ d, escape c = ['\\', d] ∧ simpleEscape? d = some c) ∨
    (c.toNat < 32 ∧
      escape c = ['\\', 'u', '0', '0', hexDigit (c.toNat / 16), hexDigit (c.toNat % 16)]) ∨
    (escape c = [c] ∧ isStringChar c = true ∧ c ≠ '\\') := by
  unfold escape
  split
  case h_8 hquote hback _ _ _ _ _ =>
    by_cases hc : c.toNat < 32
    · rw [if_pos hc]
      exact .inr (.inl ⟨hc, rfl⟩)
    · rw [if_neg hc]
      have hchar : isStringChar c = true := by
        simp only [isStringChar, Bool.and_eq_true, bne_iff_ne, decide_eq_true_eq]
        exact ⟨hquote, Nat.le_of_not_lt hc⟩
      exact .inr (.inr ⟨rfl, hchar, hback⟩)
  all_goals exact .inl ⟨_, rfl, rfl⟩

theorem run_escaped {c d : Char} (hd : simpleEscape? d = some c) (s : List Char) :
    escaped.run (d :: s) = .ok (c, s) := by
  unfold simpleEscape? at hd
  split at hd <;> cases hd <;> rfl

/-- A round of the loop that reads a string. -/
def stringRound (c : Char) (acc : List Char) : JsonReader (List Char) :=
  if c == '\\' then do return (← escaped) :: acc else pure (c :: acc)

/-- A character takes one round, however it is written. -/
theorem run_stringRound (c : Char) (acc : List Char) (s : List Char) :
    (loop (fun _ c => isStringChar c) stringRound acc).run (escape c ++ s) =
      (loop (fun _ c => isStringChar c) stringRound (c :: acc)).run s := by
  have hback : isStringChar '\\' = true := by decide
  obtain ⟨d, hescape, hd⟩ | ⟨hc, hescape⟩ | ⟨hescape, hc, hne⟩ := escape_cases c
  · rw [hescape, List.cons_append, run_loop_round hback]
    simp [stringRound, run_escaped hd]
  · rw [hescape, List.cons_append, run_loop_round hback]
    simp [stringRound, escaped, run_unicodeEscape hc]
  · rw [hescape, List.cons_append, run_loop_round hc]
    simp [stringRound, hne]

/-- Behind its opening quote a string is read up to the closing one. -/
theorem run_stringBody (t : String) (s : List Char) :
    stringBody.run (t.toList.flatMap escape ++ '"' :: s) = .ok (t, s) := by
  have hrounds (cs acc : List Char) :
      (loop (fun _ c => isStringChar c) stringRound acc).run (cs.flatMap escape ++ '"' :: s) =
        .ok (cs.reverse ++ acc, '"' :: s) := by
    induction cs generalizing acc with
    | nil => exact run_loop_stop (by decide)
    | cons c cs ih =>
      rw [List.flatMap_cons, List.append_assoc, run_stringRound, ih, List.reverse_cons,
        List.append_assoc, List.singleton_append]
  have hbody : stringBody = loop (fun _ c => isStringChar c) stringRound [] >>= fun cs =>
      literal ['"'] >>= fun _ => pure (String.ofList cs.reverse) := rfl
  have hclose : (literal ['"']).run ('"' :: s) = .ok ((), s) := run_literal ['"'] s
  rw [hbody, run_bind_of_ok (hrounds t.toList []), run_bind_of_ok hclose, run_pure,
    List.append_nil, List.reverse_reverse, String.ofList_toList]

theorem run_string (t : String) (s : List Char) : string.run (quote t ++ s) = .ok (t, s) := by
  have hquote : quote t ++ s = ['"'] ++ (t.toList.flatMap escape ++ '"' :: s) := by simp [quote]
  rw [string, hquote, run_bind_of_ok (run_literal ['"'] _), run_stringBody]

/-- A round of the loop that passes over a string. -/
def skipRound (c : Char) (_ : Unit) : JsonReader Unit :=
  if c == '\\' then do
    match ← next with
    | none => fail .truncated
    | some 'u' => discard hex4
    | some c => if (simpleEscape? c).isSome then pure () else fail .malformed
  else pure ()

theorem run_skipRound (c : Char) (s : List Char) :
    (loop (fun _ c => isStringChar c) skipRound ()).run (escape c ++ s) =
      (loop (fun _ c => isStringChar c) skipRound ()).run s := by
  have hback : isStringChar '\\' = true := by decide
  obtain ⟨d, hescape, hd⟩ | ⟨hc, hescape⟩ | ⟨hescape, hc, hne⟩ := escape_cases c
  · have hround : (skipRound '\\' ()).run (d :: s) = .ok ((), s) := by
      unfold simpleEscape? at hd
      split at hd <;> cases hd <;> rfl
    rw [hescape, List.cons_append, List.singleton_append, run_loop_round hback,
      run_bind_of_ok hround]
  · have hhex := run_hex4 (a := c.toNat / 16) (b := c.toNat % 16) (by omega) (by omega) s
    have hround : (skipRound '\\' ()).run
        ('u' :: '0' :: '0' :: hexDigit (c.toNat / 16) :: hexDigit (c.toNat % 16) :: s) =
          .ok ((), s) := by
      simp only [skipRound, beq_self_eq_true, if_true, run_bind, run_next, List.head?_cons,
        List.tail_cons]
      rw [run_discard_of_ok hhex]
    simp only [hescape, List.cons_append, List.nil_append]
    rw [run_loop_round hback, run_bind_of_ok hround]
  · rw [hescape, List.singleton_append, run_loop_round hc]
    simp [skipRound, hne]

theorem run_skipStringBody (t : String) (s : List Char) :
    skipStringBody.run (t.toList.flatMap escape ++ '"' :: s) = .ok ((), s) := by
  have hrounds (cs : List Char) :
      (loop (fun _ c => isStringChar c) skipRound ()).run (cs.flatMap escape ++ '"' :: s) =
        .ok ((), '"' :: s) := by
    induction cs with
    | nil => exact run_loop_stop (by decide)
    | cons c cs ih => rw [List.flatMap_cons, List.append_assoc, run_skipRound, ih]
  have hbody : skipStringBody = loop (fun _ c => isStringChar c) skipRound () >>= fun _ =>
      literal ['"'] := rfl
  rw [hbody, run_bind_of_ok (hrounds t.toList)]
  exact run_literal ['"'] s

theorem run_loop_blanks {bs : List Char} (hbs : Blank bs) (s : List Char) (p : Skip.Progress)
    (hp : p.phase ≠ .over) :
    (loop (fun p _ => p.phase != Skip.Phase.over) Skip.round p).run (bs ++ s) =
      (loop (fun p _ => p.phase != Skip.Phase.over) Skip.round p).run s := by
  induction bs with
  | nil => rfl
  | cons c bs ih =>
    have hblank : Skip.round c p = pure p := if_pos (hbs c List.mem_cons_self)
    rw [List.cons_append, run_loop_round (by simpa using hp), hblank, run_bind_of_ok (run_pure p _)]
    exact ih fun d hd => hbs d (List.mem_cons_of_mem c hd)

/-- Passing over a string leaves what stands behind it. -/
theorem run_skipValue_quote {bs : List Char} (hbs : Blank bs) (t : String) (s : List Char) :
    skipValue.run (bs ++ (quote t ++ s)) = .ok ((), s) := by
  have hbody : (Skip.round '"' {}).run (t.toList.flatMap escape ++ '"' :: s) =
      .ok ({ phase := .over }, s) := by
    have hround : Skip.round '"' {} = skipStringBody >>= fun _ => pure { phase := .over } := rfl
    rw [hround, run_bind_of_ok (run_skipStringBody t s), run_pure]
  have hstop : (loop (fun p _ => p.phase != Skip.Phase.over) Skip.round { phase := .over }).run s =
      .ok ({ phase := .over }, s) := by
    cases s with
    | nil => exact run_loop_nil _ _ _
    | cons c s => exact run_loop_stop rfl
  have hloop : (loop (fun p _ => p.phase != Skip.Phase.over) Skip.round {}).run
      (bs ++ (quote t ++ s)) = .ok ({ phase := .over }, s) := by
    have hquote : quote t ++ s = '"' :: (t.toList.flatMap escape ++ '"' :: s) := by simp [quote]
    rw [run_loop_blanks hbs _ _ (by decide), hquote, run_loop_round (by decide),
      run_bind_of_ok hbody, hstop]
  rw [skipValue, run_bind_of_ok hloop]
  rfl

end Palettes.Json
