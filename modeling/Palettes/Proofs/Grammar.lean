import Mathlib.Data.List.TakeWhile
import Palettes.Token

/-!
The grammar of field tokens. A text is read as a placement exactly if it is one
written out, and no text is two placements. Every directive that a token stands
for has a token of its own with an explicit marker, which stands for it under
every mode, so that a legend entry may be written with explicit markers alone.
-/
namespace Palettes

/-! ## Words and placements -/

namespace Token

/-- ASCII letters, ASCII digits and `_`. -/
def InWord (c : Char) : Prop :=
  ('A' ≤ c ∧ c ≤ 'Z') ∨ ('a' ≤ c ∧ c ≤ 'z') ∨ ('0' ≤ c ∧ c ≤ '9') ∨ c = '_'

/-- A name that a placement can hold. -/
def IsWord (s : String) : Prop := s ≠ "" ∧ ∀ c ∈ s.toList, InWord c

theorem isWordChar_iff (c : Char) : isWordChar c = true ↔ InWord c := by
  delta isWordChar InWord Char.isAlphanum Char.isAlpha Char.isUpper Char.isLower Char.isDigit
  simp only [Char.le_def, ge_iff_le, Bool.or_eq_true, Bool.and_eq_true, decide_eq_true_eq,
    beq_iff_eq, or_assoc]

theorem isWord_iff (s : String) :
    IsWord s ↔ s.toList ≠ [] ∧ ∀ c ∈ s.toList, isWordChar c = true := by
  simp only [IsWord, isWordChar_iff, ne_eq, String.toList_eq_nil_iff]

instance : DecidablePred IsWord := fun s =>
  decidable_of_iff (s.toList ≠ [] ∧ s.toList.all isWordChar = true)
    (by rw [isWord_iff, List.all_eq_true])

namespace Placement

/-- The placement written out. -/
def text (p : Placement) : String := p.field ++ " " ++ p.position.text ++ " " ++ p.anchor

/-- A placement that tokens can write: its names are words. -/
structure WellFormed (p : Placement) : Prop where
  field : IsWord p.field
  anchor : IsWord p.anchor

theorem toList_text (p : Placement) :
    p.text.toList =
      p.field.toList ++ ' ' :: (p.position.text.toList ++ ' ' :: p.anchor.toList) := by
  simp [text]

end Placement

/-- A run of word characters ends at a space. -/
theorem span_word {w : List Char} (hw : ∀ c ∈ w, isWordChar c = true) (r : List Char) :
    (w ++ ' ' :: r).takeWhile isWordChar = w ∧
      (w ++ ' ' :: r).dropWhile isWordChar = ' ' :: r := by
  have hspace : ¬ isWordChar ' ' = true := by decide
  rw [List.takeWhile_append_of_pos hw, List.dropWhile_append_of_pos hw,
    List.takeWhile_cons_of_neg hspace, List.dropWhile_cons_of_neg hspace, List.append_nil]
  exact ⟨rfl, rfl⟩

/-- What a run of word characters leaves of a text. -/
theorem eq_of_dropWhile {cs r : List Char} (h : cs.dropWhile isWordChar = r) :
    cs = cs.takeWhile isWordChar ++ r := by
  rw [← h, List.takeWhile_append_dropWhile]

theorem placement?_text {p : Placement} (h : p.WellFormed) : placement? p.text = some p := by
  obtain ⟨hne, hfield⟩ := (isWord_iff _).mp h.field
  obtain ⟨hne', hanchor⟩ := (isWord_iff _).mp h.anchor
  have hposition : p.position.text.toList.all isWordChar = true := by
    cases p.position <;> decide
  obtain ⟨htake, hdrop⟩ := span_word hfield (p.position.text.toList ++ ' ' :: p.anchor.toList)
  obtain ⟨htake', hdrop'⟩ := span_word (List.all_eq_true.mp hposition) p.anchor.toList
  have hnames : (!p.field.toList.isEmpty && !p.anchor.toList.isEmpty &&
      p.anchor.toList.all isWordChar) = true := by
    simp [hne, hne', List.all_eq_true.mpr hanchor]
  simp only [placement?, Placement.toList_text, hdrop, hdrop', htake, htake', hnames, if_true,
    String.ofList_toList, Position.ofText?_text, Option.map_some]

theorem of_placement?_eq_some {body : String} {p : Placement} (h : placement? body = some p) :
    p.WellFormed ∧ body = p.text := by
  simp only [placement?] at h
  split at h
  · next rest hrest =>
    split at h
    · next anchor hanchor =>
      split at h
      · next hnames =>
        obtain ⟨position, hposition, rfl⟩ := Option.map_eq_some_iff.mp h
        rw [Position.ofText?_eq_some_iff] at hposition
        simp only [Bool.and_eq_true, Bool.not_eq_true', List.isEmpty_eq_false_iff,
          List.all_eq_true] at hnames
        obtain ⟨⟨hne, hne'⟩, hword⟩ := hnames
        have hmiddle : rest.takeWhile isWordChar = position.text.toList := by
          rw [← hposition, String.toList_ofList]
        refine ⟨⟨(isWord_iff _).mpr ?_, (isWord_iff _).mpr ?_⟩, String.toList_injective ?_⟩
        · rw [String.toList_ofList]
          exact ⟨hne, fun c hc => List.mem_takeWhile_imp hc⟩
        · rw [String.toList_ofList]
          exact ⟨hne', hword⟩
        · calc body.toList
              = body.toList.takeWhile isWordChar ++ ' ' :: rest := eq_of_dropWhile hrest
            _ = body.toList.takeWhile isWordChar ++
                  ' ' :: (rest.takeWhile isWordChar ++ ' ' :: anchor) := by
              rw [← eq_of_dropWhile hanchor]
            _ = _ := by simp [Placement.toList_text, hmiddle]
      · cases h
    · cases h
  · cases h

theorem placement?_eq_some_iff {body : String} {p : Placement} :
    placement? body = some p ↔ p.WellFormed ∧ body = p.text := by
  refine ⟨of_placement?_eq_some, ?_⟩
  rintro ⟨hp, rfl⟩
  exact placement?_text hp

theorem placement?_eq_none_iff {body : String} :
    placement? body = none ↔ ¬ ∃ p : Placement, p.WellFormed ∧ body = p.text := by
  simp only [Option.eq_none_iff_forall_ne_some, ne_eq, placement?_eq_some_iff, not_exists]

/-- A text is read as a placement exactly if it is that placement written out.
It is so written in at most one way, and otherwise nothing is read. -/
theorem placements_are_their_texts (body : String) :
    (∀ p, placement? body = some p ↔ p.WellFormed ∧ body = p.text) ∧
    (∀ p q : Placement, p.WellFormed → q.WellFormed → body = p.text → body = q.text → p = q) ∧
    (placement? body = none ↔ ¬ ∃ p : Placement, p.WellFormed ∧ body = p.text) := by
  refine ⟨fun p => placement?_eq_some_iff, ?_, placement?_eq_none_iff⟩
  intro p q hp hq hbody hbody'
  have hread : placement? body = some p := placement?_eq_some_iff.mpr ⟨hp, hbody⟩
  have hread' : placement? body = some q := placement?_eq_some_iff.mpr ⟨hq, hbody'⟩
  exact Option.some.inj (hread.symm.trans hread')

theorem before_may_be_a_name :
    placement? "before after after" = some ⟨"before", .after, "after"⟩ ∧
      ∀ q : Placement, q.WellFormed → "before after after" = q.text →
        (⟨"before", .after, "after"⟩ : Placement) = q := by
  obtain ⟨hread, honce, -⟩ := placements_are_their_texts "before after after"
  have hformed : Placement.WellFormed ⟨"before", .after, "after"⟩ :=
    ⟨by decide, by decide⟩
  exact ⟨(hread _).mpr ⟨hformed, rfl⟩, fun q hq hbody => honce _ q hformed hq rfl hbody⟩

/-- A line break behind the anchor is one character too many. -/
example : placement? "title before alias\n" = none := by decide

/-! ## Markers -/

/-- A token that is kept whole when the marker is split off. -/
def Unmarked (token : String) : Prop :=
  token.toList.head? ≠ some '+' ∧ token.toList.head? ≠ some '-'

@[simp] theorem splitMark_plus (body : String) (mode : Mode) :
    splitMark ("+" ++ body) mode = (.add, body) := by
  simp [splitMark]

@[simp] theorem splitMark_minus (body : String) (mode : Mode) :
    splitMark ("-" ++ body) mode = (.remove, body) := by
  simp [splitMark]

theorem splitMark_of_unmarked {token : String} (h : Unmarked token) (mode : Mode) :
    splitMark token mode = (mode, token) := by
  unfold splitMark
  split
  · next hcs => exact absurd (congrArg List.head? hcs) h.1
  · next hcs => exact absurd (congrArg List.head? hcs) h.2
  · rfl

end Token

open Token

/-! ## Directives and their tokens -/

namespace FieldEvent

/-- The token of a directive, with an explicit marker. -/
def render : FieldEvent → String
  | .remove _ field => "-" ++ field
  | .append _ field => "+" ++ field
  | .place _ field position anchor => "+" ++ Placement.text ⟨field, position, anchor⟩

/-- The directives that tokens can write. What is appended is no placement. -/
def Writable : FieldEvent → Prop
  | .remove _ _ => True
  | .append _ field => ¬ ∃ p : Placement, p.WellFormed ∧ field = p.text
  | .place _ field _ anchor => IsWord field ∧ IsWord anchor

theorem writable_ofToken (legend token : String) (mode : Mode) :
    (ofToken legend token mode).Writable := by
  unfold ofToken
  split
  · trivial
  · split
    · next p hp =>
      obtain ⟨hformed, -⟩ := placement?_eq_some_iff.mp hp
      exact ⟨hformed.field, hformed.anchor⟩
    · next hnone => exact placement?_eq_none_iff.mp hnone

/-- The token of a directive stands for it, whatever the mode of its legend. -/
theorem ofToken_render {d : FieldEvent} (h : d.Writable) (mode : Mode) :
    ofToken d.legend d.render mode = d := by
  cases d with
  | remove legend field => simp [ofToken, render, FieldEvent.legend]
  | append legend field =>
    have hnone : placement? field = none := placement?_eq_none_iff.mpr h
    simp [ofToken, render, FieldEvent.legend, hnone]
  | place legend field position anchor =>
    have hread : placement? (Placement.text ⟨field, position, anchor⟩) = some _ :=
      placement?_text ⟨h.1, h.2⟩
    simp [ofToken, render, FieldEvent.legend, hread]

theorem isReserved_render (d : FieldEvent) : isReserved d.render = false := by
  cases d <;> simp [isReserved, render]

/-- The directives of tokens are the writable ones. -/
theorem exists_ofToken_eq_iff (d : FieldEvent) :
    (∃ legend token mode, ofToken legend token mode = d) ↔ d.Writable := by
  constructor
  · rintro ⟨legend, token, mode, rfl⟩
    exact writable_ofToken legend token mode
  · intro h
    exact ⟨d.legend, d.render, .add, ofToken_render h .add⟩

theorem ofToken_render_ofToken (legend token : String) (mode mode' : Mode) :
    ofToken legend (ofToken legend token mode).render mode' = ofToken legend token mode := by
  have h := ofToken_render (writable_ofToken legend token mode) mode'
  rwa [legend_ofToken] at h

end FieldEvent

/-! ## Entries with explicit markers -/

namespace Token

/-- A field token with its marker made explicit. Reserved tokens stay as they are. -/
def explicit (legend : String) (mode : Mode) (token : String) : String :=
  if isReserved token then token else (FieldEvent.ofToken legend token mode).render

theorem isReserved_explicit (legend : String) (mode : Mode) (token : String) :
    isReserved (explicit legend mode token) = isReserved token := by
  unfold explicit
  split
  · rfl
  · next h => rw [FieldEvent.isReserved_render, eq_false_of_ne_true h]

theorem ofToken_explicit {token : String} (h : isReserved token = false) (legend : String)
    (mode mode' : Mode) :
    FieldEvent.ofToken legend (explicit legend mode token) mode' =
      FieldEvent.ofToken legend token mode := by
  rw [explicit, h, if_neg (by simp), FieldEvent.ofToken_render_ofToken]

/-- A legend name behind a marker or behind none. -/
theorem splitMark_marked {mark name : String} (hmark : mark = "+" ∨ mark = "-" ∨ mark = "")
    (hname : mark = "" → Unmarked name) (mode : Mode) :
    ∃ mode', splitMark (mark ++ name) mode = (mode', name) := by
  obtain rfl | rfl | rfl := hmark
  · exact ⟨.add, splitMark_plus name mode⟩
  · exact ⟨.remove, splitMark_minus name mode⟩
  · exact ⟨mode, by rw [String.empty_append, splitMark_of_unmarked (hname rfl)]⟩

end Token

namespace Announcement

theorem fields_ofEntry {token legend : String} {mode : Mode}
    (h : splitMark token .override = (mode, legend)) (fields : List String) (ancestor : Bool) :
    (ofEntry token fields ancestor).fields =
      (fields.filter (!isReserved ·)).map (FieldEvent.ofToken legend · mode) := by
  simp only [ofEntry, h]

/-- With explicit markers the marker of the legend does not matter to the fields. -/
theorem fields_explicit {token token' legend : String} {mode mode' : Mode}
    (h : splitMark token .override = (mode, legend))
    (h' : splitMark token' .override = (mode', legend)) (fields : List String)
    (ancestor ancestor' : Bool) :
    (ofEntry token' (fields.map (explicit legend mode)) ancestor').fields =
      (ofEntry token fields ancestor).fields := by
  rw [fields_ofEntry h, fields_ofEntry h', List.filter_map, List.map_map]
  have hkept : ((!isReserved ·) ∘ explicit legend mode) = (!isReserved ·) := by
    funext t
    exact congrArg not (isReserved_explicit legend mode t)
  rw [hkept]
  refine List.map_congr_left fun t ht => ?_
  have hfree : isReserved t = false := by simpa using (List.mem_filter.mp ht).2
  exact ofToken_explicit hfree legend mode mode'

end Announcement

/-- A directive is read back from its token under every mode. So the fields of an
entry are the same with all markers made explicit, whichever marker its legend
then has. The directives read from tokens are the writable ones. -/
theorem explicit_markers_say_the_same :
    (∀ legend token mode mode',
      FieldEvent.ofToken legend (FieldEvent.ofToken legend token mode).render mode' =
        FieldEvent.ofToken legend token mode) ∧
    (∀ token mode legend, splitMark token .override = (mode, legend) →
      ∀ mark, mark = "+" ∨ mark = "-" ∨ mark = "" → (mark = "" → Unmarked legend) →
        ∀ fields ancestor ancestor',
          (Announcement.ofEntry (mark ++ legend) (fields.map (explicit legend mode))
            ancestor').fields = (Announcement.ofEntry token fields ancestor).fields) ∧
    ∀ d : FieldEvent,
      (∃ legend token mode, FieldEvent.ofToken legend token mode = d) ↔ d.Writable := by
  refine ⟨FieldEvent.ofToken_render_ofToken, ?_, FieldEvent.exists_ofToken_eq_iff⟩
  intro token mode legend hsplit mark hmark hlegend fields ancestor ancestor'
  obtain ⟨mode', hsplit'⟩ := splitMark_marked hmark hlegend .override
  exact Announcement.fields_explicit hsplit hsplit' fields ancestor ancestor'

/-- An entry that removes, with markers of its own, a placement and a reserved token. -/
theorem removal_made_explicit :
    splitMark "-main" .override = (.remove, "main") ∧
      (Announcement.ofEntry "main"
        ["-a", "+-a", "-x after y", "++x before y", ":hide", "+b after a", "-"] true).fields =
        (Announcement.ofEntry "-main"
          ["a", "+-a", "x after y", "++x before y", ":hide", "+b after a", ""] false).fields := by
  have hsplit : splitMark "-main" .override = (.remove, "main") := by decide
  have hlegend : Unmarked "main" := by simp [Unmarked]
  exact ⟨hsplit, explicit_markers_say_the_same.2.1 "-main" .remove "main" hsplit "" (by simp)
    (fun _ => hlegend)
    ["a", "+-a", "x after y", "++x before y", ":hide", "+b after a", ""] false true⟩

end Palettes
