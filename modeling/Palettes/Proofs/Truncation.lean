import Mathlib.Data.List.TakeWhile
import Palettes.Load
import Palettes.Proofs.Reading

/-!
What the readers make of text that ends too early. A reader that takes a text
needs all of it: given less, wherever the cut falls, it finds the text truncated
and nothing else wrong with it. This goes along with reading, part by part, from
strings and their escapes to whole definition sets.
-/
namespace Palettes.Json

open Reader

/-! ## Cuts -/

/-- A text that ends before another does, and is its front up to there. -/
def Short (t cs : List Char) : Prop := ∃ c rest, cs = t ++ c :: rest

theorem not_short_nil (t : List Char) : ¬ Short t [] := by
  rintro ⟨c, rest, h⟩
  simp at h

/-- A cut falls into the first part, or behind it into the second. -/
theorem short_append_iff {t xs ys : List Char} :
    Short t (xs ++ ys) ↔ Short t xs ∨ ∃ t', t = xs ++ t' ∧ Short t' ys := by
  constructor
  · rintro ⟨c, rest, h⟩
    obtain ⟨t', rfl, rfl⟩ | ⟨ds, rfl, hds⟩ := List.append_eq_append_iff.mp h
    · exact .inr ⟨t', rfl, c, rest, rfl⟩
    · cases ds with
      | nil => exact .inr ⟨[], by simp, c, rest, by simpa using hds.symm⟩
      | cons d ds => exact .inl ⟨d, ds, rfl⟩
  · rintro (⟨c, rest, rfl⟩ | ⟨t', rfl, c, rest, rfl⟩)
    · exact ⟨c, rest ++ ys, by simp⟩
    · exact ⟨c, rest, by simp⟩

theorem short_cons_iff {t cs : List Char} {c : Char} :
    Short t (c :: cs) ↔ t = [] ∨ ∃ t', t = c :: t' ∧ Short t' cs := by
  constructor
  · rintro ⟨d, rest, h⟩
    cases t with
    | nil => exact .inl rfl
    | cons e t =>
      obtain ⟨rfl, rfl⟩ := List.cons.inj h
      exact .inr ⟨t, rfl, d, rest, rfl⟩
  · rintro (rfl | ⟨t', rfl, d, rest, rfl⟩)
    · exact ⟨c, cs, rfl⟩
    · exact ⟨d, rest, rfl⟩

theorem short_singleton_iff {t : List Char} {c : Char} : Short t [c] ↔ t = [] := by
  simp [short_cons_iff, not_short_nil]

theorem Short.blank {t cs : List Char} (h : Short t cs) (hcs : Blank cs) : Blank t := by
  obtain ⟨c, rest, rfl⟩ := h
  exact fun d hd => hcs d (List.mem_append_left _ hd)

/-- In front of a last character there are only blanks. -/
theorem Short.blank_of_last {t fin : List Char} {c : Char} (h : Short t (fin ++ [c]))
    (hfin : Blank fin) : Blank t := by
  rw [short_append_iff] at h
  obtain h | ⟨t', rfl, h⟩ := h
  · exact h.blank hfin
  · rw [short_singleton_iff] at h
    rw [h, List.append_nil]
    exact hfin

/-! ## The scanner -/

theorem run_blanks_blank {bs : List Char} (hbs : Blank bs) : blanks.run bs = .ok ((), []) := by
  rw [blanks, run_skipWhile, List.dropWhile_eq_nil_iff.mpr hbs]

theorem run_token_blank {bs : List Char} (hbs : Blank bs) : token.run bs = .error .truncated := by
  rw [token, run_bind_of_ok (run_blanks_blank hbs)]
  rfl

theorem run_punct_blank {bs : List Char} (hbs : Blank bs) (c : Char) :
    (punct c).run bs = .error .truncated := by
  rw [punct, run_bind_of_ok (run_blanks_blank hbs)]
  rfl

theorem run_hex4_short {a b : Nat} (ha : a < 16) {t : List Char}
    (ht : Short t ['0', '0', hexDigit a, hexDigit b]) : hex4.run t = .error .truncated := by
  have hsize : (String.ofList (t.take 4)).utf8ByteSize < 4 := by
    simp only [short_cons_iff, not_short_nil, and_false, exists_false, or_false] at ht
    obtain rfl | ⟨_, rfl, rfl | ⟨_, rfl, rfl | ⟨_, rfl, rfl⟩⟩⟩ := ht
    · decide
    · decide
    · decide
    · simp [utf8Size_hexDigit a ha]
      decide
  simp [hex4, hsize]

/-- Within an escape the loop that reads a string does not come to its end. -/
theorem run_stringRound_short {c : Char} {t : List Char} (ht : Short t (escape c)) (hne : t ≠ [])
    (acc : List Char) :
    (loop (fun _ c => isStringChar c) stringRound acc).run t = .error .truncated := by
  have hback : isStringChar '\\' = true := by decide
  obtain ⟨d, hescape, -⟩ | ⟨hc, hescape⟩ | ⟨hescape, -, -⟩ := escape_cases c
  · rw [hescape, short_cons_iff, or_iff_right hne] at ht
    obtain ⟨t, rfl, ht⟩ := ht
    rw [short_singleton_iff] at ht
    rw [run_loop_round hback, ht]
    rfl
  · rw [hescape, short_cons_iff, or_iff_right hne] at ht
    obtain ⟨t, rfl, ht⟩ := ht
    rw [run_loop_round hback]
    rw [short_cons_iff] at ht
    obtain rfl | ⟨t, rfl, ht⟩ := ht
    · rfl
    · have hhex := run_hex4_short (by omega) ht
      simp [stringRound, escaped, unicodeEscape, hhex]
  · rw [hescape, short_singleton_iff] at ht
    exact absurd ht hne

/-- Without its closing quote a string takes all that is left, or breaks off in an escape. -/
theorem run_stringRounds_short (cs acc : List Char) {t : List Char}
    (ht : Short t (cs.flatMap escape ++ ['"'])) :
    (∃ acc', (loop (fun _ c => isStringChar c) stringRound acc).run t = .ok (acc', [])) ∨
      (loop (fun _ c => isStringChar c) stringRound acc).run t = .error .truncated := by
  induction cs generalizing acc t with
  | nil =>
    rw [List.flatMap_nil, List.nil_append, short_singleton_iff] at ht
    rw [ht]
    exact .inl ⟨acc, run_loop_nil _ _ _⟩
  | cons c cs ih =>
    rw [List.flatMap_cons, List.append_assoc, short_append_iff] at ht
    obtain ht | ⟨t, rfl, ht⟩ := ht
    · by_cases hne : t = []
      · rw [hne]
        exact .inl ⟨acc, run_loop_nil _ _ _⟩
      · exact .inr (run_stringRound_short ht hne acc)
    · rw [run_stringRound]
      exact ih (c :: acc) ht

theorem run_stringBody_short (s : String) {t : List Char}
    (ht : Short t (s.toList.flatMap escape ++ ['"'])) : stringBody.run t = .error .truncated := by
  have hbody : stringBody = loop (fun _ c => isStringChar c) stringRound [] >>= fun cs =>
      literal ['"'] >>= fun _ => pure (String.ofList cs.reverse) := rfl
  obtain ⟨acc, hrounds⟩ | hrounds := run_stringRounds_short s.toList [] ht
  · rw [hbody, run_bind_of_ok hrounds]
    rfl
  · rw [hbody, run_bind_of_error hrounds]

theorem run_string_short (s : String) {t : List Char} (ht : Short t (quote s)) :
    string.run t = .error .truncated := by
  rw [quote, short_cons_iff] at ht
  obtain rfl | ⟨t, rfl, ht⟩ := ht
  · rfl
  · have hquote : (literal ['"']).run ('"' :: t) = .ok ((), t) := run_literal ['"'] t
    rw [string, run_bind_of_ok hquote, run_stringBody_short s ht]

/-! ## Texts that are needed -/

/-- A reader takes a text and finds less of it truncated. -/
structure Needs {α : Type} (p : JsonReader α) (cs : List Char) (a : α) : Prop
    extends Takes p cs a where
  short : ∀ bs t, Blank bs → Short t cs → p.run (bs ++ t) = .error .truncated

namespace Needs

variable {α β : Type} {p : JsonReader α} {cs t : List Char} {a : α}

theorem map (h : Needs p cs a) (f : α → β) : Needs (p >>= fun x => pure (f x)) cs (f a) where
  toTakes := h.toTakes.map f
  short bs t hbs ht := run_bind_of_error (h.short bs t hbs ht)

/-- What a reader has to do besides that looks at the first character of a value. -/
theorem of_token {f : Char → JsonReader α} {c : Char} {cs : List Char}
    (h : Takes (token >>= f) (c :: cs) a)
    (hshort : ∀ t, Short t cs → (f c).run (c :: t) = .error .truncated) :
    Needs (token >>= f) (c :: cs) a where
  toTakes := h
  short bs t hbs ht := by
    obtain ⟨d, s, hcs, hd⟩ := h.opens
    obtain ⟨rfl, rfl⟩ := List.cons.inj hcs
    rw [short_cons_iff] at ht
    obtain rfl | ⟨t, rfl, ht⟩ := ht
    · rw [List.append_nil]
      exact run_bind_of_error (run_token_blank hbs)
    · rw [run_bind_of_ok (run_token hbs hd.1 t), hshort t ht]

/-- The cut may fall into blanks in front of the text. -/
theorem short_behind (h : Needs p cs a) {gap : List Char} (hgap : Blank gap)
    (ht : Short t (gap ++ cs)) : p.run t = .error .truncated := by
  rw [short_append_iff] at ht
  obtain ht | ⟨t, rfl, ht⟩ := ht
  · obtain ⟨c, s, hcs, -⟩ := h.opens
    have hrun := h.short t [] (ht.blank hgap) ⟨c, s, hcs⟩
    rwa [List.append_nil] at hrun
  · exact h.short gap t hgap ht

theorem notClosed (h : Needs p cs a) : Needs (Json.notClosed p) cs a where
  toTakes := h.toTakes.notClosed
  short bs t hbs ht := by
    obtain ⟨c, s, rfl, hc⟩ := h.opens
    have hrun := h.short [] t blank_nil ht
    rw [short_cons_iff] at ht
    obtain rfl | ⟨t, rfl, -⟩ := ht
    · rw [List.append_nil]
      exact run_bind_of_error (run_token_blank hbs)
    · have hne : (c == ']') = false := by simpa using fun h => hc.2 (.inl h)
      rw [Json.notClosed, run_bind_of_ok (run_token hbs hc.1 t), hne]
      simpa using hrun

theorem colon (h : Needs p cs a) {gap : List Char} (hgap : Blank gap) :
    Needs (punct ':' >>= fun _ => p) (':' :: (gap ++ cs)) a where
  toTakes := h.toTakes.colon hgap
  short bs t hbs ht := by
    rw [short_cons_iff] at ht
    obtain rfl | ⟨t, rfl, ht⟩ := ht
    · rw [List.append_nil]
      exact run_bind_of_error (run_punct_blank hbs ':')
    · rw [run_bind_of_ok (run_punct hbs (by decide) t)]
      exact h.short_behind hgap ht

end Needs

theorem needs_string (s : String) : Needs text (quote s) s := by
  refine .of_token (takes_string s) fun t ht => ?_
  exact run_string_short s (short_cons_iff.mpr (.inr ⟨t, rfl, ht⟩))

/-! ## Items -/

theorem run_further_blank {β : Type} {t : List Char} (ht : Blank t) (close : Char)
    (item : β → JsonReader β) (b : β) : (further close item b).run t = .error .truncated := by
  have hrounds : (blanks >>= fun _ => loop (fun _ c => c == ',') (furtherRound item) b).run t =
      .ok (b, []) := by
    rw [run_bind_of_ok (run_blanks_blank ht), run_loop_nil]
  rw [further_eq, run_bind_of_ok hrounds, run_bind_of_error (run_token_blank blank_nil)]

section Items

variable {β : Type} {item : β → JsonReader β} {b b' : β} {gap fin : List Char} {close : Char}
  (hgap : Blank gap) (hfin : Blank fin) (hclose : Closing close)

include hgap hfin in
theorem further_short {ts : List (List Char)}
    (h : Steps (fun b t b' => Needs (item b) t b') b ts b') {t : List Char}
    (ht : Short t (onward gap ts ++ (fin ++ [close]))) :
    (further close item b).run t = .error .truncated := by
  induction h generalizing t with
  | nil b => exact run_further_blank (ht.blank_of_last hfin) close item b
  | @cons b b₁ b' x xs hitem _ ih =>
    have htext : onward gap (x :: xs) ++ (fin ++ [close]) =
        ',' :: ((gap ++ x) ++ (onward gap xs ++ (fin ++ [close]))) := by
      simp [onward]
    rw [htext, short_cons_iff] at ht
    obtain rfl | ⟨t, rfl, ht⟩ := ht
    · exact run_further_blank blank_nil close item b
    · rw [run_further_comma]
      rw [short_append_iff] at ht
      obtain ht | ⟨t, rfl, ht⟩ := ht
      · exact run_bind_of_error (hitem.short_behind hgap ht)
      · rw [List.append_assoc, run_bind_of_ok (hitem.run gap t hgap)]
        exact ih ht

include hgap hfin hclose in
theorem items_short {ts : List (List Char)}
    (h : Steps (fun b t b' => Needs (item b) t b') b ts b') {t : List Char}
    (ht : Short t (series gap ts ++ (fin ++ [close]))) :
    (items close item b).run t = .error .truncated := by
  cases h with
  | nil => exact run_bind_of_error (run_token_blank (ht.blank_of_last hfin))
  | @cons _ b₁ _ x xs hitem hrest =>
    obtain ⟨c, s, rfl, hc⟩ := hitem.opens
    have htext : series gap ((c :: s) :: xs) ++ (fin ++ [close]) =
        gap ++ (c :: s ++ (onward gap xs ++ (fin ++ [close]))) := by simp [series]
    have hne : (c == close) = false := by
      simpa using fun h : c = close => hc.2 (h ▸ hclose)
    rw [htext, short_append_iff] at ht
    obtain ht | ⟨t, rfl, ht⟩ := ht
    · exact run_bind_of_error (run_token_blank (ht.blank hgap))
    have hcut : (item b >>= further close item).run t = .error .truncated := by
      rw [short_append_iff] at ht
      obtain ht | ⟨t, rfl, ht⟩ := ht
      · exact run_bind_of_error (hitem.short [] t blank_nil ht)
      · have hfirst : (item b).run (c :: s ++ t) = .ok (b₁, t) := hitem.run [] t blank_nil
        rw [run_bind_of_ok hfirst, further_short hgap hfin hrest ht]
    rw [List.cons_append, short_cons_iff] at ht
    obtain rfl | ⟨t, rfl, -⟩ := ht
    · rw [List.append_nil]
      exact run_bind_of_error (run_token_blank hgap)
    · rw [items, run_bind_of_ok (run_token hgap hc.1 t), hne]
      simp only [Bool.false_eq_true, if_false]
      rw [← bind_assoc]
      exact run_bind_of_error hcut

end Items

/-! ## Values -/

/-- A reader needs what the writer writes of a value, whichever way it is written. -/
def Demands {α : Type} (p : JsonReader α) (v : Value) (a : α) : Prop :=
  ∀ cs, IsText v cs → Needs p cs a

/-- A reader needs the colon and the value of a member. -/
def DemandsMember {α : Type} (p : JsonReader α) (v : Value) (a : α) : Prop :=
  ∀ gap cs, Blank gap → IsText v cs → Needs p (':' :: (gap ++ cs)) a

variable {α β : Type}

theorem Demands.reads {p : JsonReader α} {v : Value} {a : α} (h : Demands p v a) : Reads p v a :=
  fun cs hcs => (h cs hcs).toTakes

theorem Demands.map {p : JsonReader α} {v : Value} {a : α} (h : Demands p v a) (f : α → β) :
    Demands (p >>= fun x => pure (f x)) v (f a) :=
  fun cs hcs => (h cs hcs).map f

theorem Demands.colon {p : JsonReader α} {v : Value} {a : α} (h : Demands p v a) :
    DemandsMember (punct ':' >>= fun _ => p) v a :=
  fun _ cs hgap hcs => (h cs hcs).colon hgap

theorem demands_text (s : String) : Demands text (.string s) s := by
  intro cs hcs
  rw [isText_string hcs]
  exact needs_string s

theorem demands_array {item : β → JsonReader β} {b b' : β} {vs : List Value}
    (h : Steps (fun b v b' => Demands (item b) v b') b vs b') :
    Demands (array item b) (.array vs) b' := by
  intro cs hcs
  have htakes : Takes (array item b) cs b' := reads_array (h.mono fun _ _ _ h => h.reads) cs hcs
  obtain ⟨gap, fin, ts, hgap, hfin, hts, rfl⟩ := isText_array hcs
  have hsteps : Steps (fun b t b' => Needs (notClosed (item b)) t b') b ts b' :=
    h.lift (fun _ _ _ _ hneed htext => (hneed _ htext).notClosed) hts
  refine .of_token htakes fun t ht => ?_
  rw [if_pos (by simp), run_bind_of_ok (run_discard_next _ _)]
  exact items_short hgap hfin (.inl rfl) hsteps ht

theorem needs_member (member : String → JsonReader β) {b : β} {m : String × Value} {t : List Char}
    (h : DemandsMember (member m.1) m.2 b) (ht : IsMemberText m t) :
    Needs (do if (← token) == '"' then member (← string) else fail .malformed) t b := by
  have htakes := takes_member member (fun gap cs hgap hcs => (h gap cs hgap hcs).toTakes) ht
  obtain ⟨gap, cs, hgap, hcs, rfl⟩ := ht
  refine .of_token htakes fun t ht => ?_
  have hcut : Short ('"' :: t) (quote m.1 ++ ':' :: (gap ++ cs)) :=
    short_cons_iff.mpr (.inr ⟨t, rfl, ht⟩)
  rw [if_pos (by simp)]
  rw [short_append_iff] at hcut
  obtain hcut | ⟨t', hquote, hcut⟩ := hcut
  · exact run_bind_of_error (run_string_short m.1 hcut)
  · rw [hquote, run_bind_of_ok (run_string m.1 t')]
    exact (h gap cs hgap hcs).short [] t' blank_nil hcut

theorem demands_object {member : β → String → JsonReader β} {b b' : β}
    {ms : List (String × Value)}
    (h : Steps (fun b m b' => DemandsMember (member b m.1) m.2 b') b ms b') :
    Demands (object member b) (.object ms) b' := by
  intro cs hcs
  have htakes : Takes (object member b) cs b' :=
    reads_object (h.mono fun _ _ _ h gap cs hgap hcs => (h gap cs hgap hcs).toTakes) cs hcs
  obtain ⟨gap, fin, ts, hgap, hfin, hts, rfl⟩ := isText_object hcs
  refine .of_token htakes fun t ht => ?_
  rw [if_pos (by simp), run_bind_of_ok (run_discard_next _ _)]
  refine items_short hgap hfin (.inr rfl) (h.lift ?_ hts) ht
  intro b m t b₁ hneed ht
  exact needs_member (member b) hneed ht

theorem demands_texts (ss : List String) : Demands texts (.strings ss) ss := by
  have hsteps : Steps (fun b v b' => Demands (do return (← text) :: b) v b') []
      (ss.map Value.string) (ss.reverse ++ []) :=
    .gather (fun s _ acc => (demands_text s).map (· :: acc)) []
  have hneed := (demands_array hsteps).map List.reverse
  rwa [List.append_nil, List.reverse_reverse] at hneed

theorem demands_listing {p : JsonReader α} {f : α → Value} {l : Listing α}
    (h : ∀ e ∈ l.entries, Demands p (f e.2) e.2) :
    Demands (Listing.jsonReader p) (l.toJson f) l := by
  have hsteps : Steps (fun b m b' => DemandsMember (do
      punct ':'
      return b.insert m.1 (← p)) m.2 b') .empty (l.entries.map fun e => (e.1, f e.2))
      (Listing.empty.insertAll l.entries) :=
    .insertAll (fun e he acc => ((h e he).map (acc.insert e.1)).colon) .empty
  have hneed : Demands (Listing.jsonReader p) (l.toJson f) (Listing.empty.insertAll l.entries) :=
    demands_object hsteps
  rwa [← Listing.ofList, Listing.ofList_entries] at hneed

theorem readText_short {p : JsonReader α} {cs : List Char} {a : α} (h : Needs p cs a) {t : String}
    (ht : Short t.toList cs) : readText p t = .error .truncated := by
  have hrun : p.run t.toList = .error .truncated := h.short [] t.toList blank_nil ht
  rw [readText, run_bind_of_error hrun]

end Palettes.Json

namespace Palettes.DefinitionSet

open Json

theorem demands_all (s : DefinitionSet) : Demands jsonReader s.toJson s :=
  (demands_listing fun _ _ => demands_listing fun _ _ => demands_listing fun _ _ =>
    demands_texts _).map mk

/-- A set whose compact text was cut off somewhere is refused, and as truncated. -/
theorem cut_text_is_truncated (s : DefinitionSet) {t rest : String}
    (h : s.toJson.compactText = t ++ rest) (hrest : rest ≠ "") :
    ofText .json t = .error (.json .truncated) := by
  have hcut : Short t.toList (compact s.toJson) := by
    obtain ⟨c, cs, hcs⟩ := List.exists_cons_of_ne_nil (mt String.toList_eq_nil_iff.mp hrest)
    refine ⟨c, cs, ?_⟩
    rw [← hcs, ← String.toList_append, ← h, Value.compactText, String.toList_ofList]
  have hread : ofJsonText t = .error .truncated :=
    readText_short (s.demands_all _ (.inl rfl)) hcut
  rw [ofText, hread]
  rfl

/-- One legend of a palette with a control character in its name. -/
def bell : DefinitionSet :=
  empty.define "shades" "dusk\x07" (.ofList [("sky", ["red", "grey"])])

/-- Three digits of the escape are left. -/
theorem bell_is_truncated_in_its_escape :
    bell.toJson.compactText = "\x7b\"shades\":\x7b\"dusk\\u000" ++
        "7\":\x7b\"sky\":[\"red\",\"grey\"]\x7d\x7d\x7d" ∧
      ofText .json "\x7b\"shades\":\x7b\"dusk\\u000" = .error (.json .truncated) := by
  have h : bell.toJson.compactText = "\x7b\"shades\":\x7b\"dusk\\u000" ++
      "7\":\x7b\"sky\":[\"red\",\"grey\"]\x7d\x7d\x7d" := by decide +kernel
  exact ⟨h, cut_text_is_truncated bell h (by decide)⟩

end Palettes.DefinitionSet
