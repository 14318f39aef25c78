import Palettes.Proofs.Linearisation

/-!
Extending a palette by nothing. The parent's entries are replayed instead of
told in their own right. That leaves legends and fields as they are; it shows
only in the visibility of a legend whose last entry in the parent has a marker
and does not hide, since replayed such an entry no longer shows the legend.
-/
namespace Palettes

namespace LegendEntry

theorem makes?_calls (ancestor : Bool) (e : LegendEntry) :
    (e.calls ancestor).filterMap Call.makes? =
      e.legend :: (e.directives.map Call.field).filterMap Call.makes? := by
  rw [calls_eq]
  rfl

/-- Which legends entries make does not depend on where they are told. -/
theorem makes?_flatMap (ancestor : Bool) (entries : List LegendEntry) :
    (entries.flatMap (calls ancestor)).filterMap Call.makes? =
      entries.flatMap fun e => e.legend :: (e.directives.map Call.field).filterMap Call.makes? := by
  rw [List.filterMap_flatMap]
  exact List.flatMap_congr fun e _ => makes?_calls ancestor e

/-- An entry that is the last of its legend is so among those that are kept with it. -/
theorem last?_filter {legend : String} {keep : LegendEntry → Bool} {entries : List LegendEntry}
    (h : ∀ e, last? legend entries = some e → keep e = true) :
    last? legend (entries.filter keep) = last? legend entries := by
  have hcomm : (entries.filter keep).filter (·.legend = legend) =
      (entries.filter (·.legend = legend)).filter keep := by
    rw [List.filter_filter, List.filter_filter]
    exact List.filter_congr fun e _ => Bool.and_comm _ _
  rw [last?, hcomm, last?]
  cases hlast : (entries.filter (·.legend = legend)).getLast? with
  | none => rw [List.getLast?_eq_none_iff.mp hlast]; rfl
  | some e =>
    obtain ⟨before, hbefore⟩ := List.getLast?_eq_some_iff.mp hlast
    rw [hbefore, List.filter_append, List.filter_cons_of_pos (h e hlast), List.filter_nil,
      List.getLast?_concat]

end LegendEntry

namespace BuiltPalette

/-- Legends and fields of a palette come of the legends that are made and of the
directives on each. -/
theorem map_fields_trim_ofContent {name name' : String} {content content' : List Call}
    (hlegends : legendsNamed content = legendsNamed content')
    (hdirectives : ∀ legend, directivesOn legend content = directivesOn legend content') :
    (ofContent name content).trim.legends.map (fun l => (l.name, l.fields)) =
      (ofContent name' content').trim.legends.map (fun l => (l.name, l.fields)) := by
  have heq (name : String) (content : List Call) :
      (ofContent name content).trim.legends.map (fun l => (l.name, l.fields)) =
        ((legendsNamed content).map fun legend =>
          (legend, fieldsAfter legend (directivesOn legend content))).filter (!·.2.isEmpty) := by
    simp only [trim, ofContent, List.filter_map, List.map_map]
    rfl
  simp only [heq, hlegends, hdirectives]

/-- Entries told in their own right or replayed build the same legends and fields. -/
theorem map_fields_ofEntries (name name' : String) (above own : List LegendEntry) :
    (ofEntries name (above ++ own) []).legends.map (fun l => (l.name, l.fields)) =
      (ofEntries name' above own).legends.map (fun l => (l.name, l.fields)) := by
  refine map_fields_trim_ofContent ?_ fun legend => ?_
  · simp only [legendsNamed, List.filterMap_append, LegendEntry.makes?_flatMap,
      List.flatMap_append, List.flatMap_nil, List.append_nil]
  · simp only [directivesOn_append, LegendEntry.directivesOn_flatMap, List.flatMap_append,
      List.flatMap_nil, List.append_nil]

/-- Replayed entries hide what they hid when told in their own right. More is
hidden only where the last of them has a marker and does not hide. -/
theorem hidden_of_replayed {name name' : String} {above own : List LegendEntry}
    {l l' : BuiltLegend} (hl : l ∈ (ofEntries name above own).legends)
    (hl' : l' ∈ (ofEntries name' (above ++ own) []).legends) (hname : l'.name = l.name)
    (hdiffer : l'.hidden ≠ l.hidden) :
    l'.hidden = true ∧ l.hidden = false ∧
      ∃ e, LegendEntry.last? l.name own = some e ∧ e.unmarked = false ∧ e.hides = false := by
  have hhidden := hidden_iff_of_mem_ofEntries hl
  have hhidden' := hidden_iff_of_mem_ofEntries hl'
  rw [LegendEntry.lastDeciding?, LegendEntry.last?_append] at hhidden
  rw [LegendEntry.lastDeciding?, List.append_nil, List.filter_append, LegendEntry.last?_append,
    hname] at hhidden'
  -- An own entry that would decide if it were inherited is the last to decide either way.
  by_cases hdecides : ∀ e, LegendEntry.last? l.name own = some e → (e.unmarked || e.hides) = true
  · rw [LegendEntry.last?_filter hdecides] at hhidden'
    exact absurd (Bool.eq_iff_iff.mpr (hhidden'.trans hhidden.symm)) hdiffer
  · obtain ⟨e, he, hquiet⟩ : ∃ e, LegendEntry.last? l.name own = some e ∧
        (e.unmarked = false ∧ e.hides = false) := by simpa using hdecides
    have hvisible : l.hidden = false := by
      rw [← Bool.not_eq_true, hhidden, he]
      simp [hquiet.2]
    refine ⟨?_, hvisible, e, he, hquiet⟩
    rw [hvisible] at hdiffer
    simpa using hdiffer

end BuiltPalette

namespace Resolver

variable {r r' : Resolver} {source : Source} {table parent child : String} {c : PreparedPalette}
  {o : Outcome Builder Unit}

/-- A palette that extends another one and adds nothing builds the same legends
with the same fields. It may hide a legend that the other one shows, but only
one that the other one's last entry shows by being its own. -/
theorem empty_extension_is_transparent
    (hchild : (r.tableFor source table).get? child = some c) (hparents : c.parents = [parent])
    (hempty : c.legends.entries = [])
    (h : r.resolvePalette? source table parent Builder.listener () {} = some o)
    (hok : o.result = .ok ()) (hsame : r'.tableFor source table = r.tableFor source table) :
    ∃ o' p built built',
      r'.resolvePalette? source table child Builder.listener () {} = some o' ∧
      o'.result = .ok () ∧
      (r.tableFor source table).get? parent = some p ∧
      o.state.palettes.entries = [(parent, built)] ∧
      o'.state.palettes.entries = [(child, built')] ∧
      built'.legends.map (fun l => (l.name, l.fields)) =
        built.legends.map (fun l => (l.name, l.fields)) ∧
      ∀ l ∈ built.legends, ∀ l' ∈ built'.legends, l'.name = l.name → l'.hidden ≠ l.hidden →
        l'.hidden = true ∧ l.hidden = false ∧
          ∃ e, LegendEntry.last? l.name p.legends.entries = some e ∧
            e.unmarked = false ∧ e.hides = false := by
  have hparent : (r.tableFor source table).Grounded parent :=
    (resolvePalette?_ok_iff Builder.follows r h).mp hok
  have hgrounded : (r.tableFor source table).Grounded child :=
    PreparedTable.grounded_of_parents hchild (by simpa [hparents] using hparent)
  rw [← hsame] at hgrounded
  obtain ⟨o', -, ho', hok', -⟩ := resolvePalette?_of_grounded Builder.follows r' hgrounded {}
  obtain ⟨p, above, hp, habove, hbuilt⟩ := resolvePalette?_linear h hok
  obtain ⟨c', above', hc', habove', hbuilt'⟩ := resolvePalette?_linear ho' hok'
  rw [hsame] at hc' habove'
  obtain rfl : c = c' := Option.some.inj (hchild.symm.trans hc')
  -- The child's linearisation is the parent's, all of it inherited.
  have hlinear : (r.tableFor source table).Linear c.parents (above ++ p.legends.entries ++ []) := by
    rw [hparents]
    exact .cons hp habove .nil
  rw [habove'.unique hlinear, List.append_nil, hempty] at hbuilt'
  refine ⟨o', p, _, _, ho', hok', hp, hbuilt, hbuilt', ?_, ?_⟩
  · exact BuiltPalette.map_fields_ofEntries child parent above p.legends.entries
  · exact fun l hl l' hl' hname hdiffer =>
      BuiltPalette.hidden_of_replayed hl hl' hname hdiffer

/-- A palette that adds nothing hides a legend again that the one it extends shows. -/
theorem thin_hides_again :
    ∃ o o' p built built',
      ({} : Resolver).resolvePalette? (fun _ => some layers) "shop" "mid"
        Builder.listener () {} = some o ∧
      ({} : Resolver).resolvePalette? (fun _ => some layers) "shop" "thin"
        Builder.listener () {} = some o' ∧
      o.result = .ok () ∧ o'.result = .ok () ∧
      ((({} : Resolver).tableFor (fun _ => some layers) "shop").get? "mid" = some p) ∧
      o.state.palettes.entries = [("mid", built)] ∧
      o'.state.palettes.entries = [("thin", built')] ∧
      built.legends = [⟨"main", false, ["id", "sku"]⟩] ∧
      built'.legends = [⟨"main", true, ["id", "sku"]⟩] ∧
      ∃ e, LegendEntry.last? "main" p.legends.entries = some e ∧
        e.unmarked = false ∧ e.hides = false := by
  have hmid : (({} : Resolver).resolvePalette? (fun _ => some layers) "shop" "mid"
      Builder.listener () {}).map (fun o => (o.result, o.state.palettes.entries)) =
        some (.ok (), [("mid", ⟨"mid", [⟨"main", false, ["id", "sku"]⟩]⟩)]) := by rfl
  have hthin : (({} : Resolver).resolvePalette? (fun _ => some layers) "shop" "thin"
      Builder.listener () {}).map (·.state.palettes.entries) =
        some [("thin", ⟨"thin", [⟨"main", true, ["id", "sku"]⟩]⟩)] := by rfl
  have hextends : (({} : Resolver).tableFor (fun _ => some layers) "shop").get? "thin" =
      some ⟨"thin", ["mid"], .empty⟩ := by decide +kernel
  obtain ⟨o, ho, hfields⟩ := Option.map_eq_some_iff.mp hmid
  obtain ⟨hok, hbuiltMid⟩ := Prod.mk.inj hfields
  obtain ⟨o', p, built, built', ho', hok', hp, hbuilt, hbuilt', -, hdiffer⟩ :=
    @empty_extension_is_transparent {} {} _ "shop" "mid" "thin" _ o hextends rfl rfl ho hok rfl
  rw [ho', Option.map_some, Option.some.injEq, hbuilt'] at hthin
  rw [hbuilt] at hbuiltMid
  obtain ⟨rfl⟩ : built = ⟨"mid", [⟨"main", false, ["id", "sku"]⟩]⟩ := by simpa using hbuiltMid
  obtain ⟨rfl⟩ : built' = ⟨"thin", [⟨"main", true, ["id", "sku"]⟩]⟩ := by simpa using hthin
  refine ⟨o, o', p, _, _, ho, ho', hok, hok', hp, hbuilt, hbuilt', rfl, rfl, ?_⟩
  exact (hdiffer ⟨"main", false, ["id", "sku"]⟩ List.mem_cons_self
    ⟨"main", true, ["id", "sku"]⟩ List.mem_cons_self rfl (by decide)).2.2

end Resolver

end Palettes
