import Palettes.Json.Built
import Palettes.Json.Events
import Palettes.Proofs.Reading

/-!
What is written in JSON is read back as it was. The names of a definition set
come in their order, so the set comes back in its order. A record is put
together from its members in whatever order they come: what the draft holds
after some of them depends only on which names have been met, and members with
names that are not wanted leave it alone.
-/
namespace Palettes

namespace Json

open Reader

variable {α δ : Type}

/-- Both texts of a value are read as `a`. -/
def ReadsBack (p : JsonReader α) (v : Value) (a : α) : Prop :=
  readText p v.compactText = .ok a ∧ readText p v.prettyText = .ok a

theorem Reads.readsBack {p : JsonReader α} {v : Value} {a : α} (h : Reads p v a) :
    ReadsBack p v a :=
  ⟨readText_of_takes (h _ (.inl rfl)), readText_of_takes (h _ (.inr ⟨0, rfl⟩))⟩

/-! ## Members in any order -/

/-- The members of a record in any order, with strings under other names
anywhere between them. -/
def Scattered (own ms : List (String × Value)) : Prop :=
  ∃ others : List (String × String), (∀ e ∈ others, e.1 ∉ own.map Prod.fst) ∧
    ms.Perm (own ++ others.map fun e => (e.1, .string e.2))

namespace Scattered

variable {own ms : List (String × Value)} {m : String × Value}

theorem refl (own : List (String × Value)) : Scattered own own :=
  ⟨[], by simp, by simp⟩

theorem filter_own (hown : (own.map Prod.fst).Nodup) (hm : m ∈ own) :
    own.filter (·.1 == m.1) = [m] := by
  obtain ⟨before, after, rfl⟩ := List.append_of_mem hm
  rw [List.map_append, List.map_cons, List.nodup_append, List.nodup_cons] at hown
  obtain ⟨-, ⟨hafter, -⟩, hbefore⟩ := hown
  have hbefore : before.filter (·.1 == m.1) = [] := by
    simp only [List.filter_eq_nil_iff, beq_iff_eq]
    exact fun x hx => hbefore x.1 (List.mem_map_of_mem hx) m.1 List.mem_cons_self
  have hafter : after.filter (·.1 == m.1) = [] := by
    simp only [List.filter_eq_nil_iff, beq_iff_eq]
    exact fun x hx h => hafter (h ▸ List.mem_map_of_mem hx)
  simp [hbefore, hafter]

/-- Every member of the record is there once. -/
theorem filter_eq (h : Scattered own ms) (hown : (own.map Prod.fst).Nodup) (hm : m ∈ own) :
    ms.filter (·.1 == m.1) = [m] := by
  obtain ⟨others, hothers, hperm⟩ := h
  have hnone : (others.map fun e => (e.1, Value.string e.2)).filter (·.1 == m.1) = [] := by
    simp only [List.filter_eq_nil_iff, beq_iff_eq, List.forall_mem_map]
    exact fun e he h => hothers e he (h ▸ List.mem_map_of_mem hm)
  have hfilter := hperm.filter (·.1 == m.1)
  rw [List.filter_append, filter_own hown hm, hnone, List.append_nil] at hfilter
  exact List.perm_singleton.mp hfilter

theorem mem (h : Scattered own ms) (hm : m ∈ own) : m ∈ ms := by
  obtain ⟨others, -, hperm⟩ := h
  exact hperm.mem_iff.mpr (List.mem_append_left _ hm)

/-- What a member is: one of the record, not met before, or a string that is not wanted. -/
theorem member (h : Scattered own ms) (hown : (own.map Prod.fst).Nodup)
    {before after : List (String × Value)} (hms : ms = before ++ m :: after) :
    (m ∈ own ∧ m.1 ∉ before.map Prod.fst) ∨ (m.1 ∉ own.map Prod.fst ∧ ∃ s, m.2 = .string s) := by
  have hmem : m ∈ ms := by simp [hms]
  obtain ⟨others, hothers, hperm⟩ := id h
  rcases List.mem_append.mp (hperm.mem_iff.mp hmem) with hm | hm
  · left
    refine ⟨hm, fun hbefore => ?_⟩
    obtain ⟨x, hx, hname⟩ := List.mem_map.mp hbefore
    have honce := congrArg List.length (h.filter_eq hown hm)
    have hpos : 0 < (before.filter (·.1 == m.1)).length :=
      List.length_pos_of_mem (List.mem_filter.mpr ⟨hx, by simpa using hname⟩)
    rw [hms, List.filter_append, List.filter_cons_of_pos (by simp), List.length_append,
      List.length_cons, List.length_singleton] at honce
    omega
  · right
    obtain ⟨e, he, rfl⟩ := List.mem_map.mp hm
    exact ⟨hothers e he, e.2, rfl⟩

end Scattered

/-- A run through a list, where each state is told by the part of the list gone through. -/
theorem Steps.of_prefixes {γ : Type} {R : δ → γ → δ → Prop} {state : List γ → δ} {xs : List γ}
    (h : ∀ before x after, xs = before ++ x :: after → R (state before) x (state (before ++ [x]))) :
    Steps R (state []) xs (state xs) := by
  have hrest (rest : List γ) :
      ∀ before, xs = before ++ rest → Steps R (state before) rest (state xs) := by
    induction rest with
    | nil =>
      intro before hxs
      rw [List.append_nil] at hxs
      rw [hxs]
      exact .nil _
    | cons x rest ih =>
      intro before hxs
      exact .cons (h before x rest hxs) (ih (before ++ [x]) (by simp [hxs]))
  exact hrest xs [] rfl

/-! ## Readers of records -/

theorem reads_value (depth : Nat) (s : String) : Reads (value depth) (.string s) (.string s) := by
  have hread (onArray onObject : JsonReader Value) :
      Reads (valueWith onArray onObject) (.string s) (.string s) := by
    intro cs hcs
    rw [isText_string hcs]
    refine .of_token (by decide) fun rest => ?_
    exact run_bind_of_ok (run_string s rest)
  cases depth with
  | zero => exact hread _ _
  | succ depth => exact hread _ _

theorem takes_name {named? : String → Option α} {s : String} {a : α} (h : named? s = some a) :
    Takes (choice.name named?) (quote s) a where
  opens := (takes_string s).opens
  run bs rest hbs := by
    rw [choice.name, run_bind_of_ok ((takes_string s).run bs rest hbs), h, run_pure]

theorem reads_choice {named? : String → Option α} {s : String} {a : α} (h : named? s = some a) :
    Reads (choice named?) (.string s) a := by
  intro cs hcs
  rw [isText_string hcs]
  exact .of_token (by decide) fun rest => (takes_name h).run [] rest blank_nil

theorem Reads.once {p : JsonReader α} {v : Value} {a : α} (h : Reads p v a) :
    ReadsMember (once none p) v (some a) :=
  (h.map some).colon

theorem readsMember_skip (s : String) : ReadsMember skipMember (.string s) () := by
  intro gap cs hgap hcs
  rw [isText_string hcs]
  refine ⟨⟨':', gap ++ quote s, rfl, by decide⟩, fun bs rest hbs => ?_⟩
  rw [skipMember, List.cons_append, run_bind_of_ok (run_punct hbs (by decide) _), List.append_assoc,
    run_skipValue_quote hgap]

/-- A record comes back from its members in any order, where the draft after some
of them is told by which they are, and the last draft is complete. -/
theorem reads_record {own ms : List (String × Value)} (hown : (own.map Prod.fst).Nodup)
    (h : Scattered own ms) {member : δ → String → JsonReader δ} {complete? : δ → Option α}
    {row : JsonReader α} (draft : List (String × Value) → δ) {a : α}
    (wanted : ∀ before, ∀ m ∈ own, m.1 ∉ before.map Prod.fst →
      ReadsMember (member (draft before) m.1) m.2 (draft (before ++ [m])))
    (other : ∀ before k s, k ∉ own.map Prod.fst →
      ReadsMember (member (draft before) k) (.string s) (draft (before ++ [(k, .string s)])))
    (hcomplete : complete? (draft ms) = some a) :
    Reads (record member (draft []) complete? row) (.object ms) a := by
  have hsteps :
      Steps (fun d m d' => ReadsMember (member d m.1) m.2 d') (draft []) ms (draft ms) := by
    apply Steps.of_prefixes
    intro before m after hms
    obtain ⟨hm, hnew⟩ | ⟨hm, s, hs⟩ := h.member hown hms
    · exact wanted before m hm hnew
    · have hread := other before m.1 s hm
      rw [← hs] at hread
      exact hread
  intro cs hcs
  obtain ⟨inner, rfl, hmembers⟩ := run_members hsteps hcs
  refine .of_token (by decide) fun rest => ?_
  refine (run_bind_of_ok (run_discard_next _ _)).trans ?_
  rw [run_bind_of_ok (hmembers rest), hcomplete, run_pure]

/-- A field of a draft: its value, once the name is met. -/
def met (k : String) (a : α) (ms : List (String × Value)) : Option α :=
  if k ∈ ms.map Prod.fst then some a else none

@[simp] theorem met_append (k : String) (a : α) (ms : List (String × Value)) (m : String × Value) :
    met k a (ms ++ [m]) = if k = m.1 then some a else met k a ms := by
  by_cases h : k = m.1
  · simp [met, h]
  · have hiff : k ∈ (ms ++ [m]).map Prod.fst ↔ k ∈ ms.map Prod.fst := by simp [h]
    simp only [met, hiff, h, if_false]

theorem met_of_notMem {k : String} {ms : List (String × Value)} (h : k ∉ ms.map Prod.fst) (a : α) :
    met k a ms = none :=
  if_neg h

theorem Scattered.met {own ms : List (String × Value)} (h : Scattered own ms) {k : String}
    (hk : k ∈ own.map Prod.fst) (a : α) : met k a ms = some a := by
  obtain ⟨m, hm, rfl⟩ := List.mem_map.mp hk
  exact if_pos (List.mem_map_of_mem (h.mem hm))

end Json

open Json

/-! ## Definition sets -/

namespace DefinitionSet

theorem reads_back (s : DefinitionSet) : Reads jsonReader s.toJson s :=
  (reads_listing fun _ _ => reads_listing fun _ _ => reads_listing fun _ _ => reads_texts _).map mk

/-- A set comes back from its compact text, with every table, palette, legend and
field in its place. -/
theorem json_round_trip (s : DefinitionSet) : ofJsonText s.toJson.compactText = .ok s :=
  s.reads_back.readsBack.1

end DefinitionSet

/-! ## Legend events -/

theorem Hide.reads_name (h : Hide) : Reads Hide.jsonReader (.string h.name) h := by
  apply reads_choice
  cases h <;> rfl

namespace LegendEvent

/-- What is known of an event after some members. -/
def draft (e : LegendEvent) (ms : List (String × Value)) : Draft where
  legend := met "legend" e.legend ms
  overrides := met "override" e.overrides ms
  hide := met "hide" e.hide ms

theorem nodup_names (e : LegendEvent) : (e.members.map Prod.fst).Nodup := by
  simp [members]

theorem reads_scattered (e : LegendEvent) {ms : List (String × Value)}
    (h : Scattered e.members ms) : Reads jsonReader (.object ms) e := by
  refine reads_record e.nodup_names h e.draft ?_ ?_ ?_
  · intro before m hm hnew
    simp only [members, List.mem_cons, List.not_mem_nil, or_false] at hm
    obtain rfl | rfl | rfl := hm
    · have hread := (reads_text e.legend).once.map fun x => { e.draft before with legend := x }
      simpa [Draft.member, draft, met_of_notMem hnew] using hread
    · have hread := (reads_bool e.overrides).once.map
        fun x => { e.draft before with overrides := x }
      simpa [Draft.member, draft, met_of_notMem hnew] using hread
    · have hread := e.hide.reads_name.once.map fun x => { e.draft before with hide := x }
      simpa [Draft.member, draft, met_of_notMem hnew] using hread
  · intro before k s hk
    simp only [members, List.map_cons, List.map_nil, List.mem_cons, List.not_mem_nil, or_false,
      not_or] at hk
    obtain ⟨hlegend, hoverride, hhide⟩ := hk
    have hdraft : e.draft (before ++ [(k, .string s)]) = e.draft before := by
      simp [draft, Ne.symm hlegend, Ne.symm hoverride, Ne.symm hhide]
    have hread := (readsMember_skip s).map fun _ => e.draft before
    simpa [Draft.member, hdraft] using hread
  · simp [draft, Draft.complete?, h.met, members]

end LegendEvent

/-! ## Field events -/

theorem Action.jsonReader_eq : Action.jsonReader = choice.name Action.named? := by
  refine bind_congr fun s => ?_
  cases Action.named? s <;> rfl

theorem Action.reads_name (a : Action) : Reads Action.jsonReader (.string a.name) a := by
  intro cs hcs
  rw [isText_string hcs, Action.jsonReader_eq]
  have hname : Action.named? a.name = some a := by cases a <;> rfl
  exact takes_name hname

namespace FieldEvent

def action : FieldEvent → Action
  | .remove _ _ => .remove
  | .append _ _ => .append
  | .place _ _ _ _ => .place

/-- What is known of an event after some members: its action, and all the others as they are. -/
def draft (e : FieldEvent) (ms : List (String × Value)) : Draft where
  action := met "action" e.action ms
  members := (ms.filter (·.1 != "action")).reverse

theorem nodup_names (e : FieldEvent) : (e.members.map Prod.fst).Nodup := by
  cases e <;> simp [members]

theorem mem_members {e : FieldEvent} {m : String × Value} (h : m ∈ e.members) :
    m = ("action", .string e.action.name) ∨ (m.1 ≠ "action" ∧ ∃ s, m.2 = .string s) := by
  have hothers : ∀ m ∈ e.members.tail, m.1 ≠ "action" ∧ ∃ s, m.2 = .string s := by
    cases e <;> simp [members]
  have hsplit : e.members = ("action", .string e.action.name) :: e.members.tail := by
    cases e <;> rfl
  rw [hsplit] at h
  exact (List.mem_cons.mp h).imp id (hothers m)

/-- The values of an event's members make up the event. -/
theorem ofMembers?_eq {e : FieldEvent} {get? : String → Option Value}
    (h : ∀ k v, (k, v) ∈ e.members → k ≠ "action" → get? k = some v) :
    ofMembers? e.action get? = some e := by
  cases e with
  | remove legend field =>
    have hlegend := h "legend" (.string legend) (by simp [members]) (by decide)
    have hfield := h "field" (.string field) (by simp [members]) (by decide)
    simp [ofMembers?, action, stringOf?, hlegend, hfield]
  | append legend field =>
    have hlegend := h "legend" (.string legend) (by simp [members]) (by decide)
    have hfield := h "field" (.string field) (by simp [members]) (by decide)
    simp [ofMembers?, action, stringOf?, hlegend, hfield]
  | place legend field position anchor =>
    have hlegend := h "legend" (.string legend) (by simp [members]) (by decide)
    have hfield := h "field" (.string field) (by simp [members]) (by decide)
    have hposition := h "position" (.string position.text) (by simp [members]) (by decide)
    have hanchor := h "anchor" (.string anchor) (by simp [members]) (by decide)
    simp [ofMembers?, action, stringOf?, positionOf?, hlegend, hfield, hposition, hanchor]

/-- A member beside the action is kept, whatever its name. -/
theorem reads_other (e : FieldEvent) (before : List (String × Value)) {k : String}
    (hk : k ≠ "action") (s : String) :
    ReadsMember ((e.draft before).member k) (.string s) (e.draft (before ++ [(k, .string s)])) := by
  have hread := ((reads_value (nestingLimit - 1) s).map fun v =>
    { e.draft before with members := (k, v) :: (e.draft before).members }).colon
  simpa [Draft.member, draft, hk, Ne.symm hk] using hread

theorem single?_draft {e : FieldEvent} {ms : List (String × Value)} (h : Scattered e.members ms)
    {m : String × Value} (hm : m ∈ e.members) (hne : m.1 ≠ "action") :
    single? (e.draft ms).members m.1 = some m.2 := by
  have hfilter : (ms.filter (·.1 != "action")).filter (·.1 == m.1) = ms.filter (·.1 == m.1) := by
    rw [List.filter_filter]
    apply List.filter_congr
    intro x _
    by_cases hx : x.1 = m.1
    · simp [hx, hne]
    · simp [hx]
  simp only [single?, draft, List.filter_reverse, hfilter, h.filter_eq e.nodup_names hm,
    List.reverse_singleton]

theorem reads_scattered (e : FieldEvent) {ms : List (String × Value)}
    (h : Scattered e.members ms) : Reads jsonReader (.object ms) e := by
  refine reads_record e.nodup_names h e.draft ?_ ?_ ?_
  · intro before m hm hnew
    obtain rfl | ⟨hne, s, hs⟩ := mem_members hm
    · have hread := e.action.reads_name.once.map fun x => { e.draft before with action := x }
      simpa [Draft.member, draft, met_of_notMem hnew] using hread
    · have hread := e.reads_other before hne s
      rw [← hs] at hread
      exact hread
  · intro before k s hk
    have hne : k ≠ "action" := by
      rintro rfl
      cases e <;> simp [members] at hk
    exact e.reads_other before hne s
  · have haction : (e.draft ms).action = some e.action := h.met (by cases e <;> simp [members]) _
    rw [Draft.complete?, haction]
    exact ofMembers?_eq fun k v hm hne => single?_draft h hm hne

end FieldEvent

/-! ## Built palettes -/

namespace BuiltLegend

/-- What is known of a legend after some members. -/
def draft (l : BuiltLegend) (ms : List (String × Value)) : Draft where
  name := met "name" l.name ms
  hidden := met "hidden" l.hidden ms
  fields := met "fields" l.fields ms

theorem nodup_names (l : BuiltLegend) : (l.members.map Prod.fst).Nodup := by
  simp [members]

theorem reads_scattered (l : BuiltLegend) {ms : List (String × Value)}
    (h : Scattered l.members ms) : Reads jsonReader (.object ms) l := by
  refine reads_record l.nodup_names h l.draft ?_ ?_ ?_
  · intro before m hm hnew
    simp only [members, List.mem_cons, List.not_mem_nil, or_false] at hm
    obtain rfl | rfl | rfl := hm
    · have hread := (reads_text l.name).once.map fun x => { l.draft before with name := x }
      simpa [Draft.member, draft, met_of_notMem hnew] using hread
    · have hread := (reads_bool l.hidden).once.map fun x => { l.draft before with hidden := x }
      simpa [Draft.member, draft, met_of_notMem hnew] using hread
    · have hread := (reads_texts l.fields).once.map fun x => { l.draft before with fields := x }
      simpa [Draft.member, draft, met_of_notMem hnew] using hread
  · intro before k s hk
    simp only [members, List.map_cons, List.map_nil, List.mem_cons, List.not_mem_nil, or_false,
      not_or] at hk
    obtain ⟨hname, hhidden, hfields⟩ := hk
    have hdraft : l.draft (before ++ [(k, .string s)]) = l.draft before := by
      simp [draft, Ne.symm hname, Ne.symm hhidden, Ne.symm hfields]
    have hread := (readsMember_skip s).map fun _ => l.draft before
    simpa [Draft.member, hdraft] using hread
  · simp [draft, Draft.complete?, h.met, members]

end BuiltLegend

namespace BuiltPalette

/-- What is known of a palette after some members. -/
def draft (p : BuiltPalette) (ms : List (String × Value)) : Draft where
  name := met "name" p.name ms
  legends := met "legends" p.legends ms

theorem nodup_names (p : BuiltPalette) : (p.members.map Prod.fst).Nodup := by
  simp [members]

theorem reads_legends (ls : List BuiltLegend) :
    Reads legendsReader (.array (ls.map BuiltLegend.toJson)) ls :=
  reads_list fun l _ => l.reads_scattered (.refl l.members)

theorem reads_scattered (p : BuiltPalette) {ms : List (String × Value)}
    (h : Scattered p.members ms) : Reads jsonReader (.object ms) p := by
  refine reads_record p.nodup_names h p.draft ?_ ?_ ?_
  · intro before m hm hnew
    simp only [members, List.mem_cons, List.not_mem_nil, or_false] at hm
    obtain rfl | rfl := hm
    · have hread := (reads_text p.name).once.map fun x => { p.draft before with name := x }
      simpa [Draft.member, draft, met_of_notMem hnew] using hread
    · have hread := (reads_legends p.legends).once.map fun x => { p.draft before with legends := x }
      simpa [Draft.member, draft, met_of_notMem hnew] using hread
  · intro before k s hk
    simp only [members, List.map_cons, List.map_nil, List.mem_cons, List.not_mem_nil, or_false,
      not_or] at hk
    obtain ⟨hname, hlegends⟩ := hk
    have hdraft : p.draft (before ++ [(k, .string s)]) = p.draft before := by
      simp [draft, Ne.symm hname, Ne.symm hlegends]
    have hread := (readsMember_skip s).map fun _ => p.draft before
    simpa [Draft.member, hdraft] using hread
  · simp [draft, Draft.complete?, h.met, members]

end BuiltPalette

/-- Events, legends and palettes come back from both of their texts. So do events
and legends whose members stand in another order, with strings under names that
they do not have in between. -/
theorem records_round_trip :
    (∀ e : LegendEvent, ReadsBack LegendEvent.jsonReader e.toJson e) ∧
    (∀ e : FieldEvent, ReadsBack FieldEvent.jsonReader e.toJson e) ∧
    (∀ l : BuiltLegend, ReadsBack BuiltLegend.jsonReader l.toJson l) ∧
    (∀ p : BuiltPalette, ReadsBack BuiltPalette.jsonReader p.toJson p) ∧
    (∀ (e : LegendEvent) (ms : List (String × Value)), Scattered e.members ms →
      ReadsBack LegendEvent.jsonReader (.object ms) e) ∧
    (∀ (e : FieldEvent) (ms : List (String × Value)), Scattered e.members ms →
      ReadsBack FieldEvent.jsonReader (.object ms) e) ∧
    (∀ (l : BuiltLegend) (ms : List (String × Value)), Scattered l.members ms →
      ReadsBack BuiltLegend.jsonReader (.object ms) l) := by
  refine ⟨?_, ?_, ?_, ?_, ?_, ?_, ?_⟩
  · intro e
    exact (e.reads_scattered (.refl e.members)).readsBack
  · intro e
    exact (e.reads_scattered (.refl e.members)).readsBack
  · intro l
    exact (l.reads_scattered (.refl l.members)).readsBack
  · intro p
    exact (p.reads_scattered (.refl p.members)).readsBack
  · intro e ms h
    exact (e.reads_scattered h).readsBack
  · intro e ms h
    exact (e.reads_scattered h).readsBack
  · intro l ms h
    exact (l.reads_scattered h).readsBack

/-- The action comes last here, behind a note and a position that it has no use for. -/
theorem action_may_come_last :
    readText FieldEvent.jsonReader (Value.object
      [("note", .string "x"), ("position", .string "before"), ("field", .string "field"),
        ("legend", .string "legend"), ("action", .string "add_append")]).compactText =
      .ok (.append "legend" "field") := by
  have hscattered : Scattered (FieldEvent.append "legend" "field").members
      [("note", .string "x"), ("position", .string "before"), ("field", .string "field"),
        ("legend", .string "legend"), ("action", .string "add_append")] :=
    ⟨[("position", "before"), ("note", "x")], by simp [FieldEvent.members],
      List.reverse_perm ((FieldEvent.append "legend" "field").members ++
        [("position", Value.string "before"), ("note", Value.string "x")])⟩
  exact (records_round_trip.2.2.2.2.2.1 (.append "legend" "field") _ hscattered).1

end Palettes
