import Palettes.Proofs.Grammar
import Palettes.Proofs.RoundTrip
import Palettes.Report

/-!
What is printed tells apart what it is printed for. A JSON text without numbers
is read back as the value it was written for, and the records of two events are
never the same value, so that a trace of events is never that of others. In the
text form a line is known by its first character and its parts by what ends
them, so that palettes come apart again as long as their names are words.
-/
namespace Palettes

/-! ## Values -/

namespace Json

open Reader

/-- A value without numbers that nests at most so many arrays and objects. -/
inductive Plain : Nat → Value → Prop
  | null {depth : Nat} : Plain depth .null
  | bool {depth : Nat} (b : Bool) : Plain depth (.bool b)
  | string {depth : Nat} (s : String) : Plain depth (.string s)
  | array {depth : Nat} {vs : List Value} :
    (∀ v ∈ vs, Plain depth v) → Plain (depth + 1) (.array vs)
  | object {depth : Nat} {ms : List (String × Value)} :
    (∀ m ∈ ms, Plain depth m.2) → Plain (depth + 1) (.object ms)

theorem value_eq (depth : Nat) :
    ∃ onArray onObject : JsonReader Value, value depth = valueWith onArray onObject := by
  cases depth with
  | zero => exact ⟨_, _, rfl⟩
  | succ depth => exact ⟨_, _, rfl⟩

theorem reads_null (onArray onObject : JsonReader Value) :
    Reads (valueWith onArray onObject) .null .null := by
  intro cs hcs
  rw [isText_null hcs]
  exact .of_token (by decide) fun rest => run_bind_of_ok (run_literal "null".toList rest)

theorem reads_valueBool (onArray onObject : JsonReader Value) (b : Bool) :
    Reads (valueWith onArray onObject) (.bool b) (.bool b) := by
  intro cs hcs
  rw [isText_bool hcs]
  cases b with
  | true => exact .of_token (by decide) fun rest =>
      run_bind_of_ok (run_literal "true".toList rest)
  | false => exact .of_token (by decide) fun rest =>
      run_bind_of_ok (run_literal "false".toList rest)

/-- An array is left to the reader of arrays. -/
theorem Reads.onArray {onArray : JsonReader Value} {vs : List Value} {a : Value}
    (h : Reads onArray (.array vs) a) (onObject : JsonReader Value) :
    Reads (valueWith onArray onObject) (.array vs) a := by
  intro cs hcs
  obtain ⟨_, _, _, -, -, -, rfl⟩ := isText_array hcs
  exact .of_token (by decide) fun rest => (h _ hcs).run [] rest blank_nil

theorem Reads.onObject {onObject : JsonReader Value} {ms : List (String × Value)} {a : Value}
    (h : Reads onObject (.object ms) a) (onArray : JsonReader Value) :
    Reads (valueWith onArray onObject) (.object ms) a := by
  intro cs hcs
  obtain ⟨_, _, _, -, -, -, rfl⟩ := isText_object hcs
  exact .of_token (by decide) fun rest => (h _ hcs).run [] rest blank_nil

/-- The members of an object, one by one. -/
theorem reads_pairs {p : JsonReader Value} {ms : List (String × Value)}
    (h : ∀ m ∈ ms, Reads p m.2 m.2) :
    Reads (do
      let ms ← Json.object (fun ms k => do
        punct ':'
        return (k, ← p) :: ms) []
      pure (Value.object ms.reverse)) (.object ms) (.object ms) := by
  have hsteps : Steps (fun b m b' => ReadsMember (punct ':' >>= fun _ => do
      return (m.1, ← p) :: b) m.2 b') [] (ms.map id) (ms.reverse ++ []) :=
    .gather (fun m hm acc => ((h m hm).map fun v => (m.1, v) :: acc).colon) []
  rw [List.map_id, List.append_nil] at hsteps
  have hread : Reads (Json.object (fun ms k => do
      punct ':'
      return (k, ← p) :: ms) []) (.object ms) ms.reverse := reads_object hsteps
  have hobject := hread.map fun ms => Value.object ms.reverse
  rwa [List.reverse_reverse] at hobject

theorem Plain.reads {depth : Nat} {v : Value} (h : Plain depth v) : Reads (value depth) v v := by
  induction h with
  | @null depth =>
    obtain ⟨onArray, onObject, hvalue⟩ := value_eq depth
    rw [hvalue]
    exact reads_null onArray onObject
  | @bool depth b =>
    obtain ⟨onArray, onObject, hvalue⟩ := value_eq depth
    rw [hvalue]
    exact reads_valueBool onArray onObject b
  | @string depth s => exact reads_value depth s
  | @array depth vs _ ih =>
    have hread := (reads_list (f := id) ih).map Value.array
    rw [List.map_id, bind_assoc] at hread
    exact hread.onArray _
  | @object depth ms _ ih => exact (reads_pairs ih).onObject _

/-- Without numbers the text of a value is that of no other. -/
theorem Plain.prettyText_inj {depth : Nat} {v w : Value} (hv : Plain depth v) (hw : Plain depth w)
    (h : v.prettyText = w.prettyText) : v = w := by
  have hread := hv.reads.readsBack.2
  rw [h, hw.reads.readsBack.2] at hread
  exact (Except.ok.inj hread).symm

/-- What is read back from the values that it is written as differs where they do. -/
theorem injective_of_reads {α : Type} {p : JsonReader α} {f : α → Value}
    (h : ∀ a, Reads p (f a) a) : Function.Injective f := by
  intro a b hab
  have hread := (h a).readsBack.2
  rw [hab, (h b).readsBack.2] at hread
  exact (Except.ok.inj hread).symm

end Json

open Json

/-! ## Events -/

theorem LegendEvent.toJson_injective : Function.Injective LegendEvent.toJson :=
  injective_of_reads fun e => e.reads_scattered (.refl e.members)

theorem FieldEvent.toJson_injective : Function.Injective FieldEvent.toJson :=
  injective_of_reads fun e => e.reads_scattered (.refl e.members)

namespace Event

/-- The members of an event tell what it is: its own tag comes first. -/
theorem members_injective : Function.Injective members := by
  intro e e' h
  cases e with
  | inherit parent =>
    cases e' with
    | inherit parent' => simpa [members] using h
    | call c' => cases c' <;> simp [members] at h
  | call c =>
    cases e' with
    | inherit parent' => cases c <;> simp [members] at h
    | call c' =>
      cases c with
      | start table palette => cases c' <;> simp_all [members]
      | finish => cases c' <;> simp_all [members]
      | legend d =>
        cases c' with
        | legend d' =>
          have hmembers : d.members = d'.members := by simpa [members] using h
          rw [LegendEvent.toJson_injective (congrArg Value.object hmembers)]
        | start | field | finish => simp [members] at h
      | field d =>
        cases c' with
        | field d' =>
          have hmembers : d.members = d'.members := by simpa [members] using h
          rw [FieldEvent.toJson_injective (congrArg Value.object hmembers)]
        | start | legend | finish => simp [members] at h

theorem toJson_injective : Function.Injective toJson :=
  fun _ _ h => members_injective (Value.object.inj h)

/-- A tag and the members behind it have different names. -/
theorem nodup_names (e : Event) : (e.members.map Prod.fst).Nodup := by
  cases e with
  | inherit parent => simp [members]
  | call c =>
    cases c with
    | start table palette => simp [members]
    | legend e => simp [members, LegendEvent.members]
    | field e => cases e <;> simp [members, FieldEvent.members]
    | finish => simp [members]

theorem plain_toJson (e : Event) : Plain 1 e.toJson := by
  refine .object ?_
  cases e with
  | inherit parent => simp [members, Plain.string]
  | call c =>
    cases c with
    | start table palette => simp [members, Plain.string]
    | legend e => simp [members, LegendEvent.members, Plain.string, Plain.bool]
    | field e => cases e <;> simp [members, FieldEvent.members, Plain.string]
    | finish => simp [members, Plain.string]

end Event

namespace Report

theorem plain_events (es : List Event) : Plain 2 (.array (es.map Event.toJson)) :=
  .array (by simpa using fun e _ => Event.plain_toJson e)

/-- Two lists of events have the same text only if they are the same events in the
same order. In the text of an event no name is given twice: what is said of a
legend or a field takes neither the name of the tag in front of it nor that of
the action. -/
theorem event_traces_are_unambiguous :
    (∀ es es' : List Event, eventsJson es = eventsJson es' ↔ es = es') ∧
      (∀ e : Event, (e.members.map Prod.fst).Nodup) ∧
      (∀ e : LegendEvent,
        "event" ∉ e.members.map Prod.fst ∧ "action" ∉ e.members.map Prod.fst) ∧
      ∀ e : FieldEvent,
        "event" ∉ e.members.map Prod.fst ∧ (e.members.map Prod.fst).count "action" = 1 := by
  refine ⟨fun es es' => ⟨fun h => ?_, congrArg eventsJson⟩, Event.nodup_names, ?_, ?_⟩
  · have hvalues := (plain_events es).prettyText_inj (plain_events es') h
    exact Event.toJson_injective.list_map (Value.array.inj hvalues)
  · intro e
    simp [LegendEvent.members]
  · intro e
    cases e <;> simp [FieldEvent.members]

end Report

/-! ## Texts that come apart -/

/-- A text starts with a character of a kind. -/
def Starts (kind : Char → Bool) (cs : List Char) : Prop := ∃ c r, cs = c :: r ∧ kind c = true

/-- A text is over or goes on with a character that is not of a kind. -/
def Past (kind : Char → Bool) (cs : List Char) : Prop := ∀ c ∈ cs.head?, kind c = false

theorem Starts.append {kind : Char → Bool} {cs : List Char} (h : Starts kind cs) (r : List Char) :
    Starts kind (cs ++ r) := by
  obtain ⟨c, cs, rfl, hc⟩ := h
  exact ⟨c, cs ++ r, rfl, hc⟩

theorem Past.not_starts {kind : Char → Bool} {cs : List Char} (h : Past kind cs) :
    ¬ Starts kind cs := by
  rintro ⟨c, r, rfl, hc⟩
  rw [h c rfl] at hc
  cases hc

theorem past_nil (kind : Char → Bool) : Past kind [] := fun _ h => nomatch h

theorem past_cons {kind : Char → Bool} {c : Char} (h : kind c = false) (r : List Char) :
    Past kind (c :: r) := by
  intro d hd
  rwa [← Option.some.inj hd]

/-- What starts one way goes past what starts another way. -/
theorem Starts.past {kind kind' : Char → Bool} (hne : ∀ c, kind c = true → kind' c = false)
    {cs : List Char} (h : Starts kind cs) : Past kind' cs := by
  obtain ⟨c, r, rfl, hc⟩ := h
  exact past_cons (hne c hc) r

/-- What is written for a value comes apart from what stands behind it. -/
def ComesApart {α : Type} (Fits : α → Prop) (write : α → List Char) (Next : List Char → Prop) :
    Prop :=
  ∀ a b r s, Fits a → Fits b → Next r → Next s → write a ++ r = write b ++ s → a = b ∧ r = s

namespace ComesApart

variable {α : Type} {Fits : α → Prop} {write : α → List Char} {Next Last : List Char → Prop}

/-- A text in front of all of them changes nothing. -/
theorem behind (h : ComesApart Fits write Next) (front : List Char) :
    ComesApart Fits (fun a => front ++ write a) Next := by
  intro a b r s ha hb hr hs heq
  simp only [List.append_assoc, List.append_cancel_left_eq] at heq
  exact h a b r s ha hb hr hs heq

theorem next_flatMap {start : Char → Bool} (hstart : ∀ a, Fits a → Starts start (write a))
    (hnext : ∀ r, Starts start r → Next r) (hlast : ∀ r, Last r → Next r) {as : List α}
    (has : ∀ a ∈ as, Fits a) {r : List Char} (hr : Last r) : Next (as.flatMap write ++ r) := by
  cases as with
  | nil => exact hlast r hr
  | cons a as =>
    rw [List.flatMap_cons, List.append_assoc]
    exact hnext _ ((hstart a (has a List.mem_cons_self)).append _)

/-- Values written one behind another come apart if each starts in a way in which
nothing starts that stands behind the last one. -/
theorem flatMap (h : ComesApart Fits write Next) {start : Char → Bool}
    (hstart : ∀ a, Fits a → Starts start (write a)) (hnext : ∀ r, Starts start r → Next r)
    (hlast : ∀ r, Last r → Next r) (hpast : ∀ r, Last r → Past start r) :
    ComesApart (fun as : List α => ∀ a ∈ as, Fits a) (List.flatMap write) Last := by
  have hends (a : α) (ha : Fits a) (r : List Char) (hr : Last r) (s : List Char) :
      r ≠ write a ++ s :=
    fun heq => (hpast r hr).not_starts (heq ▸ (hstart a ha).append s)
  intro as bs r s has hbs hr hs heq
  induction as generalizing bs with
  | nil =>
    cases bs with
    | nil => exact ⟨rfl, heq⟩
    | cons b bs =>
      rw [List.flatMap_cons, List.append_assoc] at heq
      exact absurd heq (hends b (hbs b List.mem_cons_self) r hr _)
  | cons a as ih =>
    rw [List.flatMap_cons, List.append_assoc] at heq
    rw [List.forall_mem_cons] at has
    cases bs with
    | nil => exact absurd heq.symm (hends a has.1 s hs _)
    | cons b bs =>
      rw [List.flatMap_cons, List.append_assoc] at heq
      rw [List.forall_mem_cons] at hbs
      obtain ⟨rfl, hrest⟩ := h a b _ _ has.1 hbs.1 (next_flatMap hstart hnext hlast has.2 hr)
        (next_flatMap hstart hnext hlast hbs.2 hs) heq
      obtain ⟨rfl, hend⟩ := ih bs has.2 hbs.2 hrest
      exact ⟨rfl, hend⟩

end ComesApart

namespace Token

theorem IsWord.starts {w : String} (h : IsWord w) : Starts isWordChar w.toList := by
  obtain ⟨hne, hchars⟩ := (isWord_iff w).mp h
  obtain ⟨c, cs, hw⟩ := List.exists_cons_of_ne_nil hne
  exact ⟨c, cs, hw, hchars c (by simp [hw])⟩

/-- A word goes up to the first character that is not one of a word. -/
theorem words_come_apart : ComesApart IsWord String.toList (Past isWordChar) := by
  have htake {w : String} (hw : IsWord w) {r : List Char} (hr : Past isWordChar r) :
      (w.toList ++ r).takeWhile isWordChar = w.toList := by
    rw [List.takeWhile_append_of_pos ((isWord_iff w).mp hw).2]
    cases r with
    | nil => simp
    | cons c r =>
      have hc : isWordChar c = false := hr c (by simp)
      simp [hc]
  intro v w r s hv hw hr hs heq
  have hword : v.toList = w.toList := by rw [← htake hv hr, heq, htake hw hs]
  rw [hword, List.append_cancel_left_eq] at heq
  exact ⟨String.toList_injective hword, heq⟩

end Token

/-! ## Palettes as text -/

open Token

/-- A legend with words for names. -/
structure BuiltLegend.Worded (l : BuiltLegend) : Prop where
  name : IsWord l.name
  fields : ∀ f ∈ l.fields, IsWord f

structure BuiltPalette.Worded (p : BuiltPalette) : Prop where
  name : IsWord p.name
  legends : ∀ l ∈ p.legends, l.Worded

instance : DecidablePred BuiltLegend.Worded := fun l =>
  decidable_of_iff (IsWord l.name ∧ ∀ f ∈ l.fields, IsWord f)
    ⟨fun h => ⟨h.1, h.2⟩, fun h => ⟨h.name, h.fields⟩⟩

instance : DecidablePred BuiltPalette.Worded := fun p =>
  decidable_of_iff (IsWord p.name ∧ ∀ l ∈ p.legends, l.Worded)
    ⟨fun h => ⟨h.1, h.2⟩, fun h => ⟨h.name, h.legends⟩⟩

namespace Report

/-! ### Legends -/

theorem toList_fields (f : String) (fs : List String) :
    (String.intercalate ", " (f :: fs)).toList =
      f.toList ++ fs.flatMap fun g => ", ".toList ++ g.toList := by
  induction fs generalizing f with
  | nil => simp
  | cons g fs ih =>
    rw [String.intercalate_cons_of_ne_nil (List.cons_ne_nil g fs), String.toList_append,
      String.toList_append, ih]
    simp

/-- Fields go on up to the end of the line. -/
def AtLineEnd (r : List Char) : Prop := ∃ s, r = '\n' :: s

theorem AtLineEnd.past {kind : Char → Bool} (h : kind '\n' = false) {r : List Char}
    (hr : AtLineEnd r) : Past kind r := by
  obtain ⟨s, rfl⟩ := hr
  exact past_cons h s

theorem comma_past_word (c : Char) (hc : (c == ',') = true) : isWordChar c = false := by
  rw [beq_iff_eq.mp hc]
  decide

/-- The fields behind the first one each come behind a comma. -/
theorem further_fields_come_apart :
    ComesApart (fun fs => ∀ f ∈ fs, IsWord f)
      (List.flatMap fun f => ", ".toList ++ f.toList) AtLineEnd :=
  (words_come_apart.behind ", ".toList).flatMap (fun _ _ => ⟨',', _, rfl, rfl⟩)
    (fun _ hr => hr.past comma_past_word) (fun _ hr => hr.past (by decide))
    (fun _ hr => hr.past (by decide))

theorem fields_come_apart :
    ComesApart (fun fs => ∀ f ∈ fs, IsWord f) (fun fs => (String.intercalate ", " fs).toList)
      AtLineEnd := by
  have hends (f : String) (fs : List String) (hf : IsWord f) (r : List Char) (hr : AtLineEnd r)
      (s : List Char) : r ≠ (String.intercalate ", " (f :: fs)).toList ++ s := by
    rw [toList_fields, List.append_assoc]
    exact fun heq => (hr.past (by decide)).not_starts (heq ▸ hf.starts.append _)
  have hgoes (fs : List String) (r : List Char) (hr : AtLineEnd r) :
      Past isWordChar ((fs.flatMap fun f => ", ".toList ++ f.toList) ++ r) := by
    cases fs with
    | nil => exact hr.past (by decide)
    | cons f fs => exact past_cons (by decide) _
  intro fs gs r s hfs hgs hr hs heq
  cases fs with
  | nil =>
    cases gs with
    | nil => exact ⟨rfl, by simpa using heq⟩
    | cons g gs => exact absurd (by simpa using heq) (hends g gs (hgs g List.mem_cons_self) r hr s)
  | cons f fs =>
    rw [List.forall_mem_cons] at hfs
    cases gs with
    | nil => exact absurd (by simpa using heq.symm) (hends f fs hfs.1 s hs r)
    | cons g gs =>
      rw [List.forall_mem_cons] at hgs
      simp only [toList_fields, List.append_assoc] at heq
      obtain ⟨rfl, hrest⟩ := words_come_apart f g _ _ hfs.1 hgs.1 (hgoes fs r hr) (hgoes gs s hs)
        heq
      obtain ⟨rfl, hend⟩ := further_fields_come_apart fs gs r s hfs.2 hgs.2 hr hs hrest
      exact ⟨rfl, hend⟩

/-- What a line puts between the name of a legend and its fields. -/
def marker (hidden : Bool) : List Char := if hidden then " (hidden): ".toList else ": ".toList

theorem marker_past_word (hidden : Bool) (r : List Char) :
    Past isWordChar (marker hidden ++ r) := by
  cases hidden with
  | true => exact past_cons (by decide) _
  | false => exact past_cons (by decide) _

theorem markers_come_apart : ComesApart (fun _ => True) marker (fun _ => True) := by
  intro hidden hidden' r s _ _ _ _ heq
  cases hidden <;> cases hidden' <;> simp_all [marker]

theorem toList_legendLine (l : BuiltLegend) :
    (legendLine l).toList = "  ".toList ++ (l.name.toList ++ (marker l.hidden ++
      ((String.intercalate ", " l.fields).toList ++ ['\n']))) := by
  cases h : l.hidden <;> simp [legendLine, marker, h]

theorem legendLine_starts (l : BuiltLegend) : Starts (· == ' ') (legendLine l).toList := by
  rw [toList_legendLine]
  exact ⟨' ', _, rfl, rfl⟩

/-- A legend ends with its line, whatever comes next. -/
theorem legends_come_apart :
    ComesApart BuiltLegend.Worded (fun l => (legendLine l).toList) (fun _ => True) := by
  rintro ⟨name, hidden, fields⟩ ⟨name', hidden', fields'⟩ r s hl hl' - - heq
  simp only [toList_legendLine, List.append_assoc, List.append_cancel_left_eq] at heq
  obtain ⟨rfl, hline⟩ := words_come_apart name name' _ _ hl.name hl'.name
    (marker_past_word hidden _) (marker_past_word hidden' _) heq
  obtain ⟨rfl, hfields⟩ := markers_come_apart hidden hidden' _ _ trivial trivial trivial trivial
    hline
  obtain ⟨rfl, hend⟩ := fields_come_apart fields fields' _ _ hl.fields hl'.fields ⟨r, rfl⟩ ⟨s, rfl⟩
    hfields
  exact ⟨rfl, (List.cons.inj hend).2⟩

/-! ### Palettes -/

theorem toList_paletteText (p : BuiltPalette) :
    (paletteText p).toList =
      p.name.toList ++ '\n' :: p.legends.flatMap fun l => (legendLine l).toList := by
  simp [paletteText, List.flatMap_map]

/-- A palette goes on as long as lines are indented. -/
theorem palettes_come_apart :
    ComesApart BuiltPalette.Worded (fun p => (paletteText p).toList) (Past (· == ' ')) := by
  have hlegends : ComesApart _ _ (Past (· == ' ')) :=
    legends_come_apart.flatMap (fun l _ => legendLine_starts l) (fun _ _ => trivial)
      (fun _ _ => trivial) (fun _ hr => hr)
  have hline (r : List Char) : Past isWordChar ('\n' :: r) := past_cons (by decide) r
  rintro ⟨name, legends⟩ ⟨name', legends'⟩ r s hp hp' hr hs heq
  simp only [toList_paletteText, List.append_assoc, List.cons_append] at heq
  obtain ⟨rfl, hrest⟩ := words_come_apart name name' _ _ hp.name hp'.name (hline _) (hline _) heq
  obtain ⟨rfl, hend⟩ := hlegends legends legends' r s hp.legends hp'.legends hr hs
    (List.cons.inj hrest).2
  exact ⟨rfl, hend⟩

theorem paletteText_starts {p : BuiltPalette} (h : p.Worded) :
    Starts isWordChar (paletteText p).toList := by
  rw [toList_paletteText]
  exact h.name.starts.append _

theorem word_past_space (c : Char) (hc : isWordChar c = true) : (c == ' ') = false := by
  rw [beq_eq_false_iff_ne]
  rintro rfl
  exact absurd hc (by decide)

/-- Palettes have the same text only if they are the same palettes in the same
order, with the same legends, hidden or not, and the same fields, as long as all
names are words. -/
theorem palettes_text_loses_nothing {ps qs : List BuiltPalette} (hps : ∀ p ∈ ps, p.Worded)
    (hqs : ∀ q ∈ qs, q.Worded) : palettesText ps = palettesText qs ↔ ps = qs := by
  have happart : ComesApart _ _ (· = []) :=
    palettes_come_apart.flatMap (fun _ hp => paletteText_starts hp)
      (fun _ hr => hr.past word_past_space) (fun _ hr => hr ▸ past_nil _)
      (fun _ hr => hr ▸ past_nil _)
  refine ⟨fun h => ?_, congrArg palettesText⟩
  have hchars := congrArg String.toList h
  simp only [palettesText, String.toList_join, List.flatMap_map] at hchars
  exact (happart ps qs [] [] hps hqs rfl rfl (congrArg (· ++ []) hchars)).1

/-- A palette without legends, and one whose only legend is hidden and has no fields. -/
def sparse : List BuiltPalette := [⟨"a", []⟩, ⟨"b", [⟨"c", true, []⟩]⟩]

/-- The same names, all in one palette. -/
def gathered : List BuiltPalette := [⟨"a", [⟨"b", false, []⟩, ⟨"c", true, []⟩]⟩]

theorem sparse_is_told_from_gathered :
    (∀ p ∈ sparse, p.Worded) ∧ (∀ q ∈ gathered, q.Worded) ∧
      palettesText sparse ≠ palettesText gathered := by
  have hsparse : ∀ p ∈ sparse, p.Worded := by decide
  have hgathered : ∀ q ∈ gathered, q.Worded := by decide
  exact ⟨hsparse, hgathered, mt (palettes_text_loses_nothing hsparse hgathered).mp (by decide)⟩

/-- A name that is no word may look like the mark of a hidden legend. -/
example : palettesText [⟨"a", [⟨"b (hidden)", false, ["c"]⟩]⟩] =
    palettesText [⟨"a", [⟨"b", true, ["c"]⟩]⟩] := by decide

end Report

end Palettes
