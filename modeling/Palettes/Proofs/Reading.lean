import Mathlib.Data.List.Forall2
import Palettes.Json.Definitions
import Palettes.Proofs.Scanning

/-!
What the readers make of written values. A reader takes the text of a value,
whatever blanks stand before it and whatever comes behind it. From this the
items of an array and the members of an object are read one after another, each
behind the comma and the line break that the writer puts in front of it, so
that one argument does for compact and for pretty text.
-/
namespace Palettes.Json

open Reader

/-! ## Texts that are taken -/

def Closing (c : Char) : Prop := c = ']' ∨ c = '\x7d'

theorem Closing.notBlank {c : Char} (h : Closing c) : isBlank c = false := by
  obtain rfl | rfl := h <;> decide

/-- What the text of a value or a member may start with. -/
def Opening (c : Char) : Prop := isBlank c = false ∧ ¬ Closing c

instance : DecidablePred Closing := fun c => inferInstanceAs (Decidable (c = ']' ∨ c = '\x7d'))

instance : DecidablePred Opening := fun c =>
  inferInstanceAs (Decidable (isBlank c = false ∧ ¬ Closing c))

/-- A reader takes a text, whatever blanks stand before it and whatever follows, and yields `a`. -/
structure Takes {α : Type} (p : JsonReader α) (cs : List Char) (a : α) : Prop where
  opens : ∃ c s, cs = c :: s ∧ Opening c
  run : ∀ bs rest, Blank bs → p.run (bs ++ (cs ++ rest)) = .ok (a, rest)

namespace Takes

variable {α β : Type} {p : JsonReader α} {cs : List Char} {a : α}

theorem map (h : Takes p cs a) (f : α → β) : Takes (p >>= fun x => pure (f x)) cs (f a) where
  opens := h.opens
  run bs rest hbs := by rw [run_bind_of_ok (h.run bs rest hbs), run_pure]

/-- What a reader does that looks at the first character of a value. -/
theorem of_token {f : Char → JsonReader α} {c : Char} {cs : List Char} (hc : Opening c)
    (h : ∀ rest, (f c).run (c :: (cs ++ rest)) = .ok (a, rest)) :
    Takes (token >>= f) (c :: cs) a where
  opens := ⟨c, cs, rfl, hc⟩
  run bs rest hbs := by
    rw [List.cons_append, run_bind_of_ok (run_token hbs hc.1 _), h rest]

theorem notClosed (h : Takes p cs a) : Takes (Json.notClosed p) cs a where
  opens := h.opens
  run bs rest hbs := by
    obtain ⟨c, s, rfl, hc⟩ := h.opens
    have hrun := h.run [] rest blank_nil
    have hne : (c == ']') = false := by simpa using fun h => hc.2 (.inl h)
    rw [Json.notClosed, List.cons_append, run_bind_of_ok (run_token hbs hc.1 _), hne]
    simpa using hrun

theorem colon (h : Takes p cs a) {gap : List Char} (hgap : Blank gap) :
    Takes (punct ':' >>= fun _ => p) (':' :: (gap ++ cs)) a where
  opens := ⟨':', gap ++ cs, rfl, by decide⟩
  run bs rest hbs := by
    rw [List.cons_append, run_bind_of_ok (run_punct hbs (by decide) _), List.append_assoc,
      h.run gap rest hgap]

end Takes

theorem takes_string (t : String) : Takes text (quote t) t := by
  apply Takes.of_token (by decide)
  intro rest
  exact run_string t rest

/-! ## Items -/

/-- States that follow one another along a list, each by the next of its members. -/
inductive Steps {β γ : Type} (R : β → γ → β → Prop) : β → List γ → β → Prop
  | nil (b : β) : Steps R b [] b
  | cons {b b₁ b' : β} {x : γ} {xs : List γ} : R b x b₁ → Steps R b₁ xs b' → Steps R b (x :: xs) b'

theorem Steps.lift {β γ δ : Type} {R : β → γ → β → Prop} {R' : β → δ → β → Prop}
    {S : γ → δ → Prop} (hR : ∀ b x t b', R b x b' → S x t → R' b t b') {b b' : β} {xs : List γ}
    (h : Steps R b xs b') {ts : List δ} (hts : List.Forall₂ S xs ts) : Steps R' b ts b' := by
  induction h generalizing ts with
  | nil b => cases hts; exact .nil b
  | cons hx _ ih =>
    cases hts with
    | cons ht hts => exact .cons (hR _ _ _ _ hx ht) (ih hts)

theorem Steps.mono {β γ : Type} {R R' : β → γ → β → Prop} (hR : ∀ b x b', R b x b' → R' b x b')
    {b b' : β} {xs : List γ} (h : Steps R b xs b') : Steps R' b xs b' := by
  induction h with
  | nil b => exact .nil b
  | cons hx _ ih => exact .cons (hR _ _ _ hx) ih

/-- Values gathered one by one, the latest in front. -/
theorem Steps.gather {α γ : Type} {R : List α → γ → List α → Prop} {f : α → γ} {as : List α}
    (h : ∀ a ∈ as, ∀ acc, R acc (f a) (a :: acc)) (acc : List α) :
    Steps R acc (as.map f) (as.reverse ++ acc) := by
  induction as generalizing acc with
  | nil => exact .nil acc
  | cons a as ih =>
    rw [List.reverse_cons, List.append_assoc, List.singleton_append]
    exact .cons (h a List.mem_cons_self acc)
      (ih (fun a' ha' => h a' (List.mem_cons_of_mem a ha')) (a :: acc))

/-- Pairs inserted one by one. -/
theorem Steps.insertAll {α γ : Type} {R : Listing α → γ → Listing α → Prop} {f : String × α → γ}
    {es : List (String × α)} (h : ∀ e ∈ es, ∀ acc, R acc (f e) (acc.insert e.1 e.2))
    (acc : Listing α) : Steps R acc (es.map f) (acc.insertAll es) := by
  induction es generalizing acc with
  | nil => exact .nil acc
  | cons e es ih =>
    exact .cons (h e List.mem_cons_self acc)
      (ih (fun e' he' => h e' (List.mem_cons_of_mem e he')) (acc.insert e.1 e.2))

/-- Texts with a comma in front of each, and blanks behind the comma. -/
def onward (gap : List Char) (ts : List (List Char)) : List Char :=
  ts.flatMap fun t => ',' :: (gap ++ t)

/-- Texts with blanks in front of each and commas between them. -/
def series (gap : List Char) : List (List Char) → List Char
  | [] => []
  | t :: ts => gap ++ (t ++ onward gap ts)

/-- A round behind a comma. -/
def furtherRound {β : Type} (item : β → JsonReader β) (_ : Char) (b : β) : JsonReader β := do
  let b ← item b
  blanks
  pure b

theorem further_eq {β : Type} (close : Char) (item : β → JsonReader β) (b : β) :
    further close item b =
      (blanks >>= fun _ => loop (fun _ c => c == ',') (furtherRound item) b) >>= fun b =>
        token >>= fun c => if c == close then pure b else fail .malformed := by
  rw [bind_assoc]
  rfl

/-- Behind a comma an item is read, and then the items further on. -/
theorem run_further_comma {β : Type} (close : Char) (item : β → JsonReader β) (b : β)
    (s : List Char) :
    (further close item b).run (',' :: s) = (item b >>= further close item).run s := by
  have hcomma := run_blanks blank_nil (by decide : isBlank ',' = false) s
  rw [List.nil_append] at hcomma
  have hrounds : (blanks >>= fun _ => loop (fun _ c => c == ',') (furtherRound item) b).run
      (',' :: s) = (item b >>= fun b => blanks >>= fun _ =>
        loop (fun _ c => c == ',') (furtherRound item) b).run s := by
    rw [run_bind_of_ok hcomma, run_loop_round (by simp)]
    simp only [furtherRound, bind_assoc, pure_bind]
  have hfurther : item b >>= further close item =
      (item b >>= fun b => blanks >>= fun _ =>
        loop (fun _ c => c == ',') (furtherRound item) b) >>= fun b =>
          token >>= fun c => if c == close then pure b else fail .malformed := by
    simp only [bind_assoc]
    exact bind_congr fun b => by rw [further_eq, bind_assoc]
  rw [further_eq, hfurther, run_bind, hrounds, ← run_bind]

section Items

variable {β : Type} {item : β → JsonReader β} {b b' : β} {gap fin : List Char} {close : Char}
  (hgap : Blank gap) (hfin : Blank fin) (hclose : Closing close)

include hfin hclose in
/-- There are no further items in front of the closing bracket. -/
theorem run_further_close (b : β) (rest : List Char) :
    (further close item b).run (fin ++ close :: rest) = .ok (b, close :: rest) := by
  have hrounds : (blanks >>= fun _ => loop (fun _ c => c == ',') (furtherRound item) b).run
      (fin ++ close :: rest) = .ok (b, close :: rest) := by
    rw [run_bind_of_ok (run_blanks hfin hclose.notBlank rest)]
    exact run_loop_stop (by obtain rfl | rfl := hclose <;> rfl)
  have htoken := run_token blank_nil hclose.notBlank rest
  rw [List.nil_append] at htoken
  rw [further_eq, run_bind_of_ok hrounds, run_bind_of_ok htoken]
  simp

include hgap hfin hclose

/-- Items behind commas, up to the closing bracket. -/
theorem run_further {ts : List (List Char)}
    (h : Steps (fun b t b' => Takes (item b) t b') b ts b') (rest : List Char) :
    (further close item b).run (onward gap ts ++ (fin ++ close :: rest)) =
      .ok (b', close :: rest) := by
  induction h with
  | nil b => exact run_further_close hfin hclose b rest
  | @cons b b₁ b' t ts hitem _ ih =>
    have htail : onward gap (t :: ts) ++ (fin ++ close :: rest) =
        ',' :: (gap ++ (t ++ (onward gap ts ++ (fin ++ close :: rest)))) := by
      simp [onward]
    rw [htail, run_further_comma, run_bind_of_ok (hitem.run gap _ hgap), ih]

theorem run_items {ts : List (List Char)}
    (h : Steps (fun b t b' => Takes (item b) t b') b ts b') (rest : List Char) :
    (items close item b).run (series gap ts ++ (fin ++ close :: rest)) = .ok (b', rest) := by
  cases h with
  | nil =>
    have htoken := run_token hfin hclose.notBlank rest
    rw [items, series, List.nil_append, run_bind_of_ok htoken, if_pos (by simp)]
    rw [run_bind_of_ok (run_discard_next close rest), run_pure]
  | @cons _ b₁ _ t ts hitem hrest =>
    obtain ⟨c, s, rfl, hc⟩ := hitem.opens
    have hne : (c == close) = false := by
      simpa using fun h : c = close => hc.2 (h ▸ hclose)
    have htoken := run_token hgap hc.1 (s ++ (onward gap ts ++ (fin ++ close :: rest)))
    have htext : series gap ((c :: s) :: ts) ++ (fin ++ close :: rest) =
        gap ++ c :: (s ++ (onward gap ts ++ (fin ++ close :: rest))) := by simp [series]
    have hfirst : (item b).run (c :: (s ++ (onward gap ts ++ (fin ++ close :: rest)))) = _ :=
      hitem.run [] (onward gap ts ++ (fin ++ close :: rest)) blank_nil
    rw [items, htext, run_bind_of_ok htoken, hne]
    simp only [Bool.false_eq_true, if_false]
    rw [run_bind_of_ok hfirst, run_bind_of_ok (run_further hgap hfin hclose hrest rest),
      run_bind_of_ok (run_discard_next close rest), run_pure]

end Items

/-! ## What the writer writes -/

/-- The texts that the writer has for a value, compact and pretty at any level. -/
def IsText (v : Value) (cs : List Char) : Prop := cs = compact v ∨ ∃ level, cs = pretty level v

/-- The texts that the writer has for a member. -/
def IsMemberText (m : String × Value) (cs : List Char) : Prop :=
  ∃ gap t, Blank gap ∧ IsText m.2 t ∧ cs = quote m.1 ++ ':' :: (gap ++ t)

theorem isText_string {s : String} {cs : List Char} (h : IsText (.string s) cs) : cs = quote s := by
  obtain rfl | ⟨level, rfl⟩ := h
  · rfl
  · rfl

theorem isText_null {cs : List Char} (h : IsText .null cs) : cs = "null".toList := by
  obtain rfl | ⟨level, rfl⟩ := h
  · rfl
  · rfl

theorem isText_bool {b : Bool} {cs : List Char} (h : IsText (.bool b) cs) :
    cs = scalar (.bool b) := by
  obtain rfl | ⟨level, rfl⟩ := h
  · rfl
  · rfl

theorem blank_newline (level : Nat) : Blank (newline level) := by
  intro c hc
  rcases List.mem_cons.mp hc with rfl | hc
  · decide
  · rw [List.eq_of_mem_replicate hc]
    decide

theorem compactItems_eq (vs : List Value) : compactItems vs = series [] (vs.map compact) := by
  induction vs with
  | nil => rfl
  | cons v vs ih =>
    cases vs with
    | nil => simp [compactItems, series, onward]
    | cons w vs => simp [compactItems, ih, series, onward]

theorem compactMembers_eq (ms : List (String × Value)) :
    compactMembers ms = series [] (ms.map fun m => quote m.1 ++ ':' :: compact m.2) := by
  induction ms with
  | nil => rfl
  | cons m ms ih =>
    obtain ⟨k, v⟩ := m
    cases ms with
    | nil => simp [compactMembers, series, onward]
    | cons m ms => simp [compactMembers, ih, series, onward]

theorem prettyItems_eq (level : Nat) (vs : List Value) :
    prettyItems level vs = series (newline level) (vs.map (pretty level)) := by
  induction vs with
  | nil => rfl
  | cons v vs ih =>
    cases vs with
    | nil => simp [prettyItems, series, onward]
    | cons w vs => simp [prettyItems, ih, series, onward]

theorem prettyMembers_eq (level : Nat) (ms : List (String × Value)) :
    prettyMembers level ms =
      series (newline level) (ms.map fun m => quote m.1 ++ ':' :: ' ' :: pretty level m.2) := by
  induction ms with
  | nil => rfl
  | cons m ms ih =>
    obtain ⟨k, v⟩ := m
    cases ms with
    | nil => simp [prettyMembers, series, onward]
    | cons m ms => simp [prettyMembers, ih, series, onward]

theorem isText_array {vs : List Value} {cs : List Char} (h : IsText (.array vs) cs) :
    ∃ gap fin ts, Blank gap ∧ Blank fin ∧ List.Forall₂ IsText vs ts ∧
      cs = '[' :: (series gap ts ++ (fin ++ [']'])) := by
  obtain rfl | ⟨level, rfl⟩ := h
  · refine ⟨[], [], vs.map compact, blank_nil, blank_nil, ?_,
      by rw [compact, compactItems_eq, List.nil_append]⟩
    simp [List.forall₂_map_right_iff, List.forall₂_same, IsText]
  · cases vs with
    | nil => exact ⟨[], [], [], blank_nil, blank_nil, .nil, rfl⟩
    | cons v vs =>
      refine ⟨newline (level + 1), newline level, (v :: vs).map (pretty (level + 1)),
        blank_newline _, blank_newline _, ?_,
        by rw [pretty, prettyItems_eq, List.append_assoc]; simp⟩
      simp only [List.forall₂_map_right_iff, List.forall₂_same, IsText]
      exact fun w _ => .inr ⟨level + 1, rfl⟩

theorem isText_object {ms : List (String × Value)} {cs : List Char} (h : IsText (.object ms) cs) :
    ∃ gap fin ts, Blank gap ∧ Blank fin ∧ List.Forall₂ IsMemberText ms ts ∧
      cs = '\x7b' :: (series gap ts ++ (fin ++ ['\x7d'])) := by
  obtain rfl | ⟨level, rfl⟩ := h
  · refine ⟨[], [], ms.map fun m => quote m.1 ++ ':' :: compact m.2, blank_nil, blank_nil, ?_,
      by rw [compact, compactMembers_eq, List.nil_append]⟩
    simp only [List.forall₂_map_right_iff, List.forall₂_same]
    exact fun m _ => ⟨[], compact m.2, blank_nil, .inl rfl, rfl⟩
  · cases ms with
    | nil => exact ⟨[], [], [], blank_nil, blank_nil, .nil, rfl⟩
    | cons m ms =>
      refine ⟨newline (level + 1), newline level,
        (m :: ms).map fun m => quote m.1 ++ ':' :: ' ' :: pretty (level + 1) m.2, blank_newline _,
        blank_newline _, ?_, by rw [pretty, prettyMembers_eq, List.append_assoc]; simp⟩
      simp only [List.forall₂_map_right_iff, List.forall₂_same]
      exact fun m _ => ⟨[' '], pretty (level + 1) m.2, by simp [Blank]; decide, .inr ⟨_, rfl⟩, rfl⟩

/-! ## Values -/

/-- A reader reads a value as `a`, whichever way it is written. -/
def Reads {α : Type} (p : JsonReader α) (v : Value) (a : α) : Prop :=
  ∀ cs, IsText v cs → Takes p cs a

/-- A reader goes on with the colon and the value of a member. -/
def ReadsMember {α : Type} (p : JsonReader α) (v : Value) (a : α) : Prop :=
  ∀ gap cs, Blank gap → IsText v cs → Takes p (':' :: (gap ++ cs)) a

variable {α β : Type}

theorem Reads.map {p : JsonReader α} {v : Value} {a : α} (h : Reads p v a) (f : α → β) :
    Reads (p >>= fun x => pure (f x)) v (f a) :=
  fun cs hcs => (h cs hcs).map f

theorem ReadsMember.map {p : JsonReader α} {v : Value} {a : α} (h : ReadsMember p v a) (f : α → β) :
    ReadsMember (p >>= fun x => pure (f x)) v (f a) :=
  fun gap cs hgap hcs => (h gap cs hgap hcs).map f

theorem Reads.colon {p : JsonReader α} {v : Value} {a : α} (h : Reads p v a) :
    ReadsMember (punct ':' >>= fun _ => p) v a :=
  fun _ cs hgap hcs => (h cs hcs).colon hgap

theorem reads_text (s : String) : Reads text (.string s) s := by
  intro cs hcs
  rw [isText_string hcs]
  exact takes_string s

theorem reads_bool (b : Bool) : Reads bool (.bool b) b := by
  intro cs hcs
  rw [isText_bool hcs]
  cases b with
  | true => exact .of_token (by decide) fun rest =>
      run_bind_of_ok (run_literal "true".toList rest)
  | false => exact .of_token (by decide) fun rest =>
      run_bind_of_ok (run_literal "false".toList rest)

theorem reads_array {item : β → JsonReader β} {b b' : β} {vs : List Value}
    (h : Steps (fun b v b' => Reads (item b) v b') b vs b') :
    Reads (array item b) (.array vs) b' := by
  intro cs hcs
  obtain ⟨gap, fin, ts, hgap, hfin, hts, rfl⟩ := isText_array hcs
  have hsteps : Steps (fun b t b' => Takes (notClosed (item b)) t b') b ts b' :=
    h.lift (fun _ _ _ _ hread htext => (hread _ htext).notClosed) hts
  refine .of_token (by decide) fun rest => ?_
  have htext : series gap ts ++ (fin ++ [']']) ++ rest = series gap ts ++ (fin ++ ']' :: rest) := by
    simp
  rw [if_pos (by simp), run_bind_of_ok (run_discard_next _ _), htext]
  exact run_items hgap hfin (.inl rfl) hsteps rest

theorem takes_member (member : String → JsonReader β) {b : β} {m : String × Value} {t : List Char}
    (h : ReadsMember (member m.1) m.2 b) (ht : IsMemberText m t) :
    Takes (do if (← token) == '"' then member (← string) else fail .malformed) t b := by
  obtain ⟨gap, cs, hgap, hcs, rfl⟩ := ht
  refine .of_token (by decide) fun rest => ?_
  have hmember : (member m.1).run (':' :: (gap ++ cs) ++ rest) = .ok (b, rest) :=
    (h gap cs hgap hcs).run [] rest blank_nil
  have hstring := run_string m.1 (':' :: (gap ++ cs) ++ rest)
  rw [← List.append_assoc] at hstring
  rw [if_pos (by simp)]
  exact (run_bind_of_ok hstring).trans hmember

/-- Behind its brace an object is read member by member. -/
theorem run_members {member : β → String → JsonReader β} {b b' : β} {ms : List (String × Value)}
    (h : Steps (fun b m b' => ReadsMember (member b m.1) m.2 b') b ms b') {cs : List Char}
    (hcs : IsText (.object ms) cs) :
    ∃ inner, cs = '\x7b' :: inner ∧
      ∀ rest, (members member b).run (inner ++ rest) = .ok (b', rest) := by
  obtain ⟨gap, fin, ts, hgap, hfin, hts, rfl⟩ := isText_object hcs
  refine ⟨_, rfl, fun rest => ?_⟩
  have htext : series gap ts ++ (fin ++ ['\x7d']) ++ rest =
      series gap ts ++ (fin ++ '\x7d' :: rest) := by simp
  rw [htext]
  refine run_items hgap hfin (.inr rfl) (h.lift ?_ hts) rest
  intro b m t b₁ hread ht
  exact takes_member (member b) hread ht

theorem reads_object {member : β → String → JsonReader β} {b b' : β} {ms : List (String × Value)}
    (h : Steps (fun b m b' => ReadsMember (member b m.1) m.2 b') b ms b') :
    Reads (object member b) (.object ms) b' := by
  intro cs hcs
  obtain ⟨inner, rfl, hmembers⟩ := run_members h hcs
  refine .of_token (by decide) fun rest => ?_
  rw [if_pos (by simp), run_bind_of_ok (run_discard_next _ _), hmembers]

/-- The array of what the reader reads, one by one. -/
theorem reads_list {p : JsonReader α} {f : α → Value} {as : List α}
    (h : ∀ a ∈ as, Reads p (f a) a) :
    Reads (do
      let as ← array (fun as => do return (← p) :: as) []
      pure as.reverse) (.array (as.map f)) as := by
  have hsteps : Steps (fun b v b' => Reads (do return (← p) :: b) v b') [] (as.map f)
      (as.reverse ++ []) :=
    .gather (fun a ha acc => (h a ha).map (· :: acc)) []
  have hread := (reads_array hsteps).map List.reverse
  rwa [List.append_nil, List.reverse_reverse] at hread

theorem reads_texts (ss : List String) : Reads texts (.strings ss) ss :=
  reads_list fun s _ => reads_text s

/-- A listing is read member by member, so that its order comes back. -/
theorem reads_listing {p : JsonReader α} {f : α → Value} {l : Listing α}
    (h : ∀ e ∈ l.entries, Reads p (f e.2) e.2) : Reads (Listing.jsonReader p) (l.toJson f) l := by
  have hsteps : Steps (fun b m b' => ReadsMember (do
      punct ':'
      return b.insert m.1 (← p)) m.2 b') .empty (l.entries.map fun e => (e.1, f e.2))
      (Listing.empty.insertAll l.entries) :=
    .insertAll (fun e he acc => ((h e he).map (acc.insert e.1)).colon) .empty
  have hread : Reads (Listing.jsonReader p) (l.toJson f) (Listing.empty.insertAll l.entries) :=
    reads_object hsteps
  rwa [← Listing.ofList, Listing.ofList_entries] at hread

theorem readText_of_takes {p : JsonReader α} {cs : List Char} {a : α} (h : Takes p cs a) :
    readText p (String.ofList cs) = .ok a := by
  have hrun : p.run cs = .ok (a, []) := by
    have hrun := h.run [] [] blank_nil
    rwa [List.nil_append, List.append_nil] at hrun
  rw [readText, String.toList_ofList, run_bind_of_ok hrun]
  rfl

end Palettes.Json
