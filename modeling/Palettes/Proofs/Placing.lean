import Palettes.Proofs.Tidiness

/-!
Placing a field. The field is taken out of its legend before its anchor is
looked for, so the place is one among the other fields, and they stay in their
order around it: next to the anchor, or at the end where there is none. Nothing
else in the palette changes, and to place a field again changes nothing.
-/
namespace Palettes

/-! ## One legend -/

namespace BuiltLegend

theorem insertIdx_length (front back : List String) (field : String) :
    (front ++ back).insertIdx front.length field = front ++ field :: back :=
  List.modifyTailIdx_add (List.cons field) 0 front back

theorem split_of_idxOf? {fields : List String} {anchor : String} {i : Nat}
    (h : fields.idxOf? anchor = some i) :
    ∃ front back, fields = front ++ anchor :: back ∧ front.length = i := by
  obtain ⟨hi, hat, -⟩ := List.idxOf?_eq_some_iff.mp h
  refine ⟨fields.take i, fields.drop (i + 1), ?_, List.length_take_of_le (Nat.le_of_lt hi)⟩
  rw [← hat, List.getElem_cons_drop, List.take_append_drop]

/-- A field stands right at its anchor. -/
def Adjoins (fields : List String) (field : String) : Position → String → Prop
  | .before, anchor => [field, anchor] <:+: fields
  | .after, anchor => [anchor, field] <:+: fields

/-- A field is put between other fields: at its anchor, or behind all of them if it has none. -/
theorem insertIdx_placeIndex (rest : List String) (field : String) (position : Position)
    (anchor : String) :
    ∃ front back, rest = front ++ back ∧
      rest.insertIdx (placeIndex rest position anchor) field = front ++ field :: back ∧
      (anchor ∈ rest → Adjoins (front ++ field :: back) field position anchor) ∧
      (anchor ∉ rest → back = []) := by
  cases h : rest.idxOf? anchor with
  | none =>
    have hnotMem : anchor ∉ rest := List.idxOf?_eq_none_iff.mp h
    have hindex : placeIndex rest position anchor = rest.length := by simp [placeIndex, h]
    exact ⟨rest, [], by simp, by rw [hindex, List.insertIdx_length_self],
      fun hmem => absurd hmem hnotMem, fun _ => rfl⟩
  | some i =>
    obtain ⟨front, back, rfl, rfl⟩ := split_of_idxOf? h
    have hmem : anchor ∈ front ++ anchor :: back := by simp
    cases position with
    | before =>
      have hindex : placeIndex (front ++ anchor :: back) .before anchor = front.length := by
        simp [placeIndex, h]
      exact ⟨front, anchor :: back, rfl, by rw [hindex, insertIdx_length],
        fun _ => ⟨front, back, by simp⟩, fun hnotMem => absurd hmem hnotMem⟩
    | after =>
      have hindex : placeIndex (front ++ anchor :: back) .after anchor =
          (front ++ [anchor]).length := by
        simp [placeIndex, h]
      have hsplit : front ++ anchor :: back = (front ++ [anchor]) ++ back := by simp
      exact ⟨front ++ [anchor], back, hsplit, by rw [hindex, hsplit, insertIdx_length],
        fun _ => ⟨front, back, by simp⟩, fun hnotMem => absurd hmem hnotMem⟩

/-- A legend with a field placed in it, next to what it was before. -/
structure Places (field : String) (position : Position) (anchor : String)
    (before after : BuiltLegend) : Prop where
  name : after.name = before.name
  hidden : after.hidden = before.hidden
  others : after.fields.filter (· != field) = before.fields.filter (· != field)
  once : after.fields.count field = 1
  beside : anchor ∈ before.fields ∧ anchor ≠ field → Adjoins after.fields field position anchor
  last : ¬ (anchor ∈ before.fields ∧ anchor ≠ field) → after.fields.getLast? = some field

variable {l : BuiltLegend}

/-- The other fields around a placed field are those that were there. -/
theorem fields_place (h : l.fields.Nodup) (field : String) (position : Position)
    (anchor : String) :
    ∃ front back, l.fields.erase field = front ++ back ∧
      (l.place field position anchor).fields = front ++ field :: back ∧
      field ∉ front ++ back ∧
      (anchor ∈ l.fields ∧ anchor ≠ field →
        Adjoins (front ++ field :: back) field position anchor) ∧
      (¬ (anchor ∈ l.fields ∧ anchor ≠ field) → back = []) := by
  have hanchor : anchor ∈ l.fields.erase field ↔ anchor ∈ l.fields ∧ anchor ≠ field := by
    rw [h.mem_erase_iff, and_comm]
  obtain ⟨front, back, hrest, hplaced, hbeside, hlast⟩ :=
    insertIdx_placeIndex (l.fields.erase field) field position anchor
  exact ⟨front, back, hrest, hplaced, hrest ▸ h.not_mem_erase,
    fun hmem => hbeside (hanchor.mpr hmem), fun hmem => hlast (mt hanchor.mp hmem)⟩

/-- Taken out again, a placed field leaves the others as they were. -/
theorem erase_place (h : l.fields.Nodup) (field : String) (position : Position)
    (anchor : String) :
    (l.place field position anchor).fields.erase field = l.fields.erase field := by
  obtain ⟨front, back, hrest, hfields, hnotMem, -⟩ := fields_place h field position anchor
  have hfront : field ∉ front := fun hmem => hnotMem (List.mem_append_left back hmem)
  rw [hfields, List.erase_append_right _ hfront, List.erase_cons_head, hrest]

theorem places_place (h : l.fields.Nodup) (field : String) (position : Position)
    (anchor : String) : Places field position anchor l (l.place field position anchor) := by
  obtain ⟨front, back, -, hfields, -, hbeside, hlast⟩ := fields_place h field position anchor
  have hnodup : (l.place field position anchor).fields.Nodup :=
    nodup_follow h (.place l.name field position anchor)
  refine ⟨rfl, rfl, ?_, ?_, ?_, ?_⟩
  · rw [← hnodup.erase_eq_filter, erase_place h, h.erase_eq_filter]
  · exact List.count_eq_one_of_mem hnodup (by simp [hfields])
  · rw [hfields]
    exact hbeside
  · intro hmem
    obtain rfl := hlast hmem
    rw [hfields, List.getLast?_concat]

theorem place_place (h : l.fields.Nodup) (field : String) (position : Position)
    (anchor : String) :
    (l.place field position anchor).place field position anchor =
      l.place field position anchor := by
  have herase := erase_place h field position anchor
  unfold place at herase ⊢
  simp only [herase]

end BuiltLegend

/-! ## The palette -/

namespace BuiltPalette

variable {name : String} {f : BuiltLegend → BuiltLegend}

/-- Legends of other names are not changed. -/
theorem filter_alterLegend (hname : ∀ l, (f l).name = l.name) (ls : List BuiltLegend) :
    (alterLegend name f ls).filter (·.name ≠ name) = ls.filter (·.name ≠ name) := by
  induction ls with
  | nil => simp [alterLegend, hname]
  | cons l ls ih =>
    rw [alterLegend]
    split
    · next h => simp [h, hname]
    · rw [List.filter_cons, ih, List.filter_cons]

theorem alterLegend_alterLegend (hname : ∀ l, (f l).name = l.name)
    (hnew : f (f { name }) = f { name }) {ls : List BuiltLegend} (h : ∀ l ∈ ls, f (f l) = f l) :
    alterLegend name f (alterLegend name f ls) = alterLegend name f ls := by
  induction ls with
  | nil => simp [alterLegend, hname, hnew]
  | cons l ls ih =>
    rw [List.forall_mem_cons] at h
    by_cases hl : l.name = name
    · simp [alterLegend, hl, hname, h.1]
    · simp [alterLegend, hl, ih h.2]

/-- To place a field again changes nothing. -/
theorem apply_place_place {p : BuiltPalette} (h : p.Tidy) (legend field : String)
    (position : Position) (anchor : String) :
    (p.apply (.place legend field position anchor)).apply (.place legend field position anchor) =
      p.apply (.place legend field position anchor) := by
  have hlegends : alterLegend legend (·.place field position anchor)
      (alterLegend legend (·.place field position anchor) p.legends) =
        alterLegend legend (·.place field position anchor) p.legends :=
    alterLegend_alterLegend (f := (·.place field position anchor)) (fun _ => rfl)
      (BuiltLegend.place_place List.nodup_nil field position anchor)
      fun l hl => BuiltLegend.place_place (h.fields l hl) field position anchor
  exact congrArg (BuiltPalette.mk p.name) hlegends

theorem nodup_fields_legend? {p : BuiltPalette} (h : p.Tidy) (legend : String) :
    ((p.legend? legend).getD { name := legend }).fields.Nodup := by
  cases hfind : p.legend? legend with
  | none => exact List.nodup_nil
  | some l => exact h.fields l (List.mem_of_find?_eq_some hfind)

end BuiltPalette

/-! ## The builder -/

namespace Builder

/-- A field placed in an open palette stands in its legend once, at its anchor or
else at the end, with the other fields in their order. The other legends stay as
they are, the legend keeps its visibility and its place or comes last if it is
new, and to place the field again changes nothing. -/
theorem placing_moves_one_field {b : Builder} {p : BuiltPalette} (hopen : b.current = some p)
    (htidy : p.Tidy) (legend field : String) (position : Position) (anchor : String) :
    ∃ q after,
      b.receive (.field (.place legend field position anchor)) = { b with current := some q } ∧
      q.Tidy ∧ q.name = p.name ∧
      q.legends.map (·.name) =
        (if legend ∈ p.legends.map (·.name) then p.legends.map (·.name)
        else p.legends.map (·.name) ++ [legend]) ∧
      q.legends.filter (·.name ≠ legend) = p.legends.filter (·.name ≠ legend) ∧
      q.legend? legend = some after ∧
      BuiltLegend.Places field position anchor
        ((p.legend? legend).getD { name := legend }) after ∧
      (b.receive (.field (.place legend field position anchor))).receive
          (.field (.place legend field position anchor)) =
        b.receive (.field (.place legend field position anchor)) := by
  have hreceive : b.receive (.field (.place legend field position anchor)) =
      { b with current := some (p.apply (.place legend field position anchor)) } := by
    rw [receive, hopen, Option.map_some]
  have hname (l : BuiltLegend) : (l.place field position anchor).name = l.name := rfl
  refine ⟨p.apply (.place legend field position anchor), _, hreceive, htidy.apply _, rfl,
    BuiltPalette.map_name_alterLegend hname p.legends,
    BuiltPalette.filter_alterLegend hname p.legends,
    p.legend?_apply (d := .place legend field position anchor) rfl,
    BuiltLegend.places_place (BuiltPalette.nodup_fields_legend? htidy legend) _ _ _, ?_⟩
  rw [hreceive, receive, Option.map_some, BuiltPalette.apply_place_place htidy]

/-- A palette with a hidden legend and another one that has a field of the same name. -/
def twofold : BuiltPalette :=
  ⟨"twofold", [⟨"main", true, ["id", "note", "tag"]⟩, ⟨"more", false, ["id"]⟩]⟩

/-- The field stood in front of its anchor, so the anchor moves up by one. -/
theorem id_moves_behind_note :
    ∃ q after, ({ current := some twofold } : Builder).receive
        (.field (.place "main" "id" .after "note")) = { current := some q } ∧
      q.legends.filter (·.name ≠ "main") = [⟨"more", false, ["id"]⟩] ∧
      q.legend? "main" = some after ∧ after.hidden = true ∧
      after.fields.filter (· != "id") = ["note", "tag"] ∧
      ["note", "id"] <:+: after.fields := by
  have htidy : twofold.Tidy := ⟨by decide, by decide⟩
  obtain ⟨q, after, hreceive, -, -, -, hothers, hafter, hplaces, -⟩ :=
    placing_moves_one_field (b := { current := some twofold }) rfl htidy "main" "id" .after "note"
  exact ⟨q, after, hreceive, hothers, hafter, hplaces.hidden, hplaces.others,
    hplaces.beside (by decide)⟩

end Builder

end Palettes
