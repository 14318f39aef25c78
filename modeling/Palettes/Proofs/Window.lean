import Mathlib.Data.List.Induction
import Mathlib.Data.List.TakeWhile
import Palettes.Proofs.Tidiness

/-!
What a run of calls builds. A start opens a window that lasts up to the next
start or finish, and calls outside of windows are lost. Each window makes one
palette, which its calls determine legend by legend: the legends stand in the
order in which they were first named, a legend has the visibility last given to
it, and its fields come of the directives on it alone. Of two windows with one
name the later one fills the place of the earlier.
-/
namespace Palettes

/-! ## Directives on one legend -/

namespace BuiltLegend

variable {l l' : BuiltLegend}

theorem fields_follow_congr (h : l.fields = l'.fields) (d : FieldEvent) :
    (l.follow d).fields = (l'.follow d).fields := by
  cases d with
  | remove | place => simp [follow, remove, place, h]
  | append legend field =>
    simp only [follow, append, h]
    split <;> simp [h]

/-- A directive decides about its own field and leaves the others. -/
theorem mem_follow_iff (h : l.fields.Nodup) (d : FieldEvent) (field : String) :
    field ∈ (l.follow d).fields ↔ if d.field = field then d.adds = true else field ∈ l.fields := by
  cases d with
  | remove legend f =>
    simp only [follow, remove, h.mem_erase_iff, FieldEvent.field, FieldEvent.adds]
    by_cases hf : f = field <;> simp [hf, Ne.symm]
  | append legend f =>
    simp only [follow, append, FieldEvent.field, FieldEvent.adds]
    by_cases hf : f = field
    · subst hf
      split <;> simp_all
    · split <;> simp [Ne.symm hf]
  | place legend f position anchor =>
    rw [follow, (perm_place l f position anchor).mem_iff, List.mem_cons, h.mem_erase_iff]
    simp only [FieldEvent.field, FieldEvent.adds]
    by_cases hf : f = field
    · simp [hf]
    · simp [hf, Ne.symm hf]

end BuiltLegend

/-- The fields of a new legend after some directives. -/
def fieldsAfter (legend : String) (directives : List FieldEvent) : List String :=
  (directives.foldl BuiltLegend.follow { name := legend }).fields

theorem follow_fieldsAfter (legend : String) (hidden : Bool) (directives : List FieldEvent)
    (d : FieldEvent) :
    BuiltLegend.follow ⟨legend, hidden, fieldsAfter legend directives⟩ d =
      ⟨legend, hidden, fieldsAfter legend (directives ++ [d])⟩ := by
  have hfields : fieldsAfter legend (directives ++ [d]) =
      (BuiltLegend.follow ⟨legend, hidden, fieldsAfter legend directives⟩ d).fields := by
    have hsofar : (directives.foldl BuiltLegend.follow { name := legend }).fields =
        (BuiltLegend.mk legend hidden (fieldsAfter legend directives)).fields := rfl
    rw [fieldsAfter, List.foldl_append]
    exact BuiltLegend.fields_follow_congr hsofar d
  have heta (l : BuiltLegend) : l = ⟨l.name, l.hidden, l.fields⟩ := rfl
  rw [heta (BuiltLegend.follow _ d), BuiltLegend.name_follow, BuiltLegend.hidden_follow, ← hfields]

theorem nodup_fieldsAfter (legend : String) (directives : List FieldEvent) :
    (fieldsAfter legend directives).Nodup := by
  have hfold (l : BuiltLegend) (h : l.fields.Nodup) :
      (directives.foldl BuiltLegend.follow l).fields.Nodup := by
    induction directives generalizing l with
    | nil => exact h
    | cons d directives ih => exact ih _ (BuiltLegend.nodup_follow h d)
  exact hfold _ List.nodup_nil

/-- Of the directives on a field the last one decides. -/
theorem mem_fieldsAfter_iff {legend field : String} {directives : List FieldEvent} :
    field ∈ fieldsAfter legend directives ↔
      ∃ d, (directives.filter (·.field = field)).getLast? = some d ∧ d.adds = true := by
  induction directives using List.reverseRecOn with
  | nil => simp [fieldsAfter]
  | append_singleton directives d ih =>
    have hstep := BuiltLegend.mem_follow_iff
      (l := ⟨legend, false, fieldsAfter legend directives⟩) (nodup_fieldsAfter legend directives)
      d field
    rw [follow_fieldsAfter] at hstep
    rw [hstep, List.filter_append]
    by_cases h : d.field = field
    · simp [h]
    · simp [h, ih]

/-- Directives that only take fields out find none. -/
theorem fieldsAfter_eq_nil {legend : String} {directives : List FieldEvent}
    (h : ∀ d ∈ directives, d.adds = false) : fieldsAfter legend directives = [] := by
  rw [List.eq_nil_iff_forall_not_mem]
  intro field hfield
  obtain ⟨d, hlast, hadds⟩ := mem_fieldsAfter_iff.mp hfield
  have hd := h d (List.mem_of_mem_filter (List.mem_of_getLast? hlast))
  rw [hd] at hadds
  cases hadds

/-! ## The legends of a palette -/

namespace Call

instance : DecidablePred IsContent := fun c => by
  cases c <;> unfold IsContent <;> infer_instance

/-- The legend that a call makes if it is missing. -/
def makes? : Call → Option String
  | .legend e => some e.legend
  | .field d => if d.adds then some d.legend else none
  | .start _ _ | .finish => none

/-- The visibility that a call gives to a legend. -/
def shows? (legend : String) : Call → Option Bool
  | .legend e => if e.legend = legend then e.hide.toBool? else none
  | .start _ _ | .field _ | .finish => none

/-- The directive on the fields of a legend that a call is. -/
def directive? (legend : String) : Call → Option FieldEvent
  | .field d => if d.legend = legend then some d else none
  | .start _ _ | .legend _ | .finish => none

end Call

/-- The legends that calls make, in the order in which they are first named. -/
def legendsNamed (content : List Call) : List String := (content.filterMap Call.makes?).eraseDups

/-- The visibility that calls leave a legend with. -/
def hiddenAfter (legend : String) (content : List Call) : Bool :=
  (content.filterMap (Call.shows? legend)).getLast?.getD false

/-- The directives on the fields of a legend. -/
def directivesOn (legend : String) (content : List Call) : List FieldEvent :=
  content.filterMap (Call.directive? legend)

@[simp] theorem directivesOn_append (legend : String) (early late : List Call) :
    directivesOn legend (early ++ late) = directivesOn legend early ++ directivesOn legend late :=
  List.filterMap_append

/-- The legend that calls build, each legend on its own. -/
def BuiltLegend.ofContent (content : List Call) (legend : String) : BuiltLegend :=
  ⟨legend, hiddenAfter legend content, fieldsAfter legend (directivesOn legend content)⟩

/-- The palette that calls build, legend by legend. -/
def BuiltPalette.ofContent (name : String) (content : List Call) : BuiltPalette :=
  ⟨name, (legendsNamed content).map (BuiltLegend.ofContent content)⟩

theorem nodup_legendsNamed (content : List Call) : (legendsNamed content).Nodup :=
  Listing.nodup_eraseDups _

theorem legendsNamed_append (content : List Call) (c : Call) :
    legendsNamed (content ++ [c]) =
      match c.makes? with
      | none => legendsNamed content
      | some legend =>
        if legend ∈ legendsNamed content then legendsNamed content
        else legendsNamed content ++ [legend] := by
  have hconcat (xs : List String) (x : String) : (xs ++ [x]).eraseDups =
      if x ∈ xs.eraseDups then xs.eraseDups else xs.eraseDups ++ [x] := by
    simp only [List.eraseDups_append, List.mem_eraseDups]
    by_cases h : x ∈ xs <;> simp [List.removeAll, List.eraseDups_cons, h]
  rw [legendsNamed, List.filterMap_append]
  cases h : c.makes? with
  | none => simp [h, legendsNamed]
  | some legend =>
    rw [List.filterMap_cons_some h, List.filterMap_nil]
    exact hconcat _ legend

/-- A legend that was not made is as a new one, whatever was to be taken out of it. -/
theorem BuiltLegend.ofContent_of_notMem {content : List Call} {legend : String}
    (h : legend ∉ legendsNamed content) : ofContent content legend = { name := legend } := by
  have hmakes : ∀ c ∈ content, c.makes? ≠ some legend := fun c hc hmakes =>
    h (List.mem_eraseDups.mpr (List.mem_filterMap.mpr ⟨c, hc, hmakes⟩))
  have hshows : content.filterMap (Call.shows? legend) = [] := by
    refine List.filterMap_eq_nil_iff.mpr fun c hc => ?_
    have hc := hmakes c hc
    cases c with
    | legend e =>
      have hother : e.legend ≠ legend := by simpa [Call.makes?] using hc
      simp [Call.shows?, hother]
    | start | field | finish => rfl
  -- A directive that adds would have made the legend.
  have hadds : ∀ d ∈ directivesOn legend content, d.adds = false := by
    intro d hd
    obtain ⟨c, hc, hcd⟩ := List.mem_filterMap.mp hd
    have hc := hmakes c hc
    cases c with
    | field d' =>
      simp only [Call.directive?, Option.ite_none_right_eq_some, Option.some.injEq] at hcd
      obtain ⟨hlegend, rfl⟩ := hcd
      simpa [Call.makes?, hlegend] using hc
    | start | legend | finish => cases hcd
  rw [ofContent, hiddenAfter, hshows, fieldsAfter_eq_nil hadds]
  rfl

/-- A legend call changes the visibility of its own legend. -/
theorem BuiltLegend.ofContent_legend (content : List Call) (e : LegendEvent) (legend : String) :
    ofContent (content ++ [.legend e]) legend =
      if legend = e.legend then
        { ofContent content legend with hidden := e.hide.apply (ofContent content legend).hidden }
      else ofContent content legend := by
  have hdirectives : directivesOn legend (content ++ [.legend e]) =
      directivesOn legend content := by
    simp [directivesOn, Call.directive?]
  have hhidden : hiddenAfter legend (content ++ [.legend e]) =
      if legend = e.legend then e.hide.apply (hiddenAfter legend content)
      else hiddenAfter legend content := by
    rw [hiddenAfter, List.filterMap_append, List.getLast?_append]
    by_cases h : legend = e.legend
    · cases hhide : e.hide <;> simp [Call.shows?, h, hhide, Hide.apply, Hide.toBool?, hiddenAfter]
    · simp [Call.shows?, h, Ne.symm h, hiddenAfter]
  rw [ofContent, hdirectives, hhidden]
  split <;> rfl

/-- A field call is followed by its own legend. -/
theorem BuiltLegend.ofContent_field (content : List Call) (d : FieldEvent) (legend : String) :
    ofContent (content ++ [.field d]) legend =
      if legend = d.legend then (ofContent content legend).follow d
      else ofContent content legend := by
  have hdirectives : directivesOn legend (content ++ [.field d]) =
      if legend = d.legend then directivesOn legend content ++ [d]
      else directivesOn legend content := by
    by_cases h : legend = d.legend
    · simp [directivesOn, Call.directive?, h]
    · simp [directivesOn, Call.directive?, h, Ne.symm h]
  have hhidden : hiddenAfter legend (content ++ [.field d]) = hiddenAfter legend content := by
    simp [hiddenAfter, Call.shows?]
  rw [ofContent, hdirectives, hhidden]
  split
  · exact (follow_fieldsAfter _ _ _ _).symm
  · rfl

namespace BuiltPalette

variable {names : List String} {legend : String} {f : BuiltLegend → BuiltLegend}
  {g : String → BuiltLegend}

theorem map_ite_of_notMem (h : legend ∉ names) :
    (names.map fun n => if n = legend then f (g n) else g n) = names.map g :=
  List.map_congr_left fun n hn => if_neg (by rintro rfl; exact h hn)

theorem modifyLegend_map (hnodup : names.Nodup) (hg : ∀ n, (g n).name = n) :
    modifyLegend legend f (names.map g) =
      names.map fun n => if n = legend then f (g n) else g n := by
  induction names with
  | nil => rfl
  | cons n names ih =>
    obtain ⟨hnotMem, hnodup⟩ := List.nodup_cons.mp hnodup
    rw [List.map_cons, modifyLegend, hg, List.map_cons, ih hnodup]
    by_cases h : n = legend
    · subst h
      rw [if_pos rfl, if_pos rfl, map_ite_of_notMem hnotMem]
    · rw [if_neg h, if_neg h]

theorem alterLegend_map (hnodup : names.Nodup) (hg : ∀ n, (g n).name = n)
    (hnew : legend ∉ names → g legend = { name := legend }) :
    alterLegend legend f (names.map g) =
      (if legend ∈ names then names else names ++ [legend]).map
        fun n => if n = legend then f (g n) else g n := by
  induction names with
  | nil => simp [alterLegend, hnew]
  | cons n names ih =>
    obtain ⟨hnotMem, hnodup⟩ := List.nodup_cons.mp hnodup
    rw [List.map_cons, alterLegend, hg]
    by_cases h : n = legend
    · subst h
      simp [map_ite_of_notMem hnotMem]
    · have hnew' : legend ∉ names → g legend = { name := legend } := fun hmem =>
        hnew (by simp [Ne.symm h, hmem])
      rw [if_neg h, ih hnodup hnew']
      by_cases hmem : legend ∈ names
      · simp [h, hmem]
      · simp [h, hmem, Ne.symm h]

/-- One more call told within a palette is one more in its content. -/
theorem ofContent_append (name : String) (content : List Call) {c : Call} (hc : c.IsContent) :
    ofContent name (content ++ [c]) = (ofContent name content).hear (.call c) := by
  have hnodup := nodup_legendsNamed content
  have hname (n : String) : (BuiltLegend.ofContent content n).name = n := rfl
  cases c with
  | legend e =>
    have hlegend := funext (BuiltLegend.ofContent_legend content e)
    rw [hear, declare, ofContent, ofContent, alterLegend_map hnodup hname
      BuiltLegend.ofContent_of_notMem, legendsNamed_append, hlegend]
    rfl
  | field d =>
    have hlegend := funext (BuiltLegend.ofContent_field content d)
    rw [hear, apply_eq, ofContent, ofContent, legendsNamed_append, hlegend]
    cases hadds : d.adds with
    | true =>
      simp only [if_true, Call.makes?, hadds]
      rw [alterLegend_map hnodup hname BuiltLegend.ofContent_of_notMem]
    | false =>
      simp only [Bool.false_eq_true, if_false, Call.makes?, hadds]
      rw [modifyLegend_map hnodup hname]
  | start | finish => exact hc.elim

/-- The induction takes the calls from the end, since what a call does depends
on those before it. -/
theorem foldl_hear_eq_ofContent (name : String) {content : List Call}
    (h : ∀ c ∈ content, c.IsContent) :
    (content.map Event.call).foldl hear { name } = ofContent name content := by
  induction content using List.reverseRecOn with
  | nil => rfl
  | append_singleton content c ih =>
    have hcontent : ∀ c' ∈ content, c'.IsContent := fun c' hc' => h c' (by simp [hc'])
    rw [List.map_append, List.foldl_append, ih hcontent, ofContent_append name content
      (h c (by simp))]
    rfl

/-- The legends of the closed palette are those that have fields. -/
theorem mem_trim_ofContent {name : String} {content : List Call} {l : BuiltLegend} :
    l ∈ (ofContent name content).trim.legends ↔
      l = .ofContent content l.name ∧ l.fields ≠ [] := by
  constructor
  · intro h
    obtain ⟨legend, -, rfl⟩ := List.mem_map.mp (List.mem_of_mem_filter h)
    exact ⟨rfl, fields_ne_nil_of_mem_trim h⟩
  · rintro ⟨hl, hfields⟩
    have hnamed : l.name ∈ legendsNamed content := by
      by_contra hnotMem
      rw [hl, BuiltLegend.ofContent_of_notMem hnotMem] at hfields
      exact hfields rfl
    refine List.mem_filter.mpr ⟨List.mem_map.mpr ⟨l.name, hnamed, hl.symm⟩, ?_⟩
    simpa using hfields

end BuiltPalette

/-! ## Windows -/

/-- Each start opens a window: its palette, and what is called up to the next
start or finish. -/
def windows : List Call → List (String × List Call)
  | [] => []
  | .start _ palette :: calls => (palette, calls.takeWhile (·.IsContent)) :: windows calls
  | .legend _ :: calls | .field _ :: calls | .finish :: calls => windows calls

namespace Builder

theorem foldl_receive_eq_foldl_hear (calls : List Call) (b : Builder) :
    calls.foldl receive b = (calls.map Event.call).foldl hear b := by
  rw [List.foldl_map]
  rfl

theorem current_close (b : Builder) : b.close.current = none := by
  cases h : b.current <;> simp [close, h]

/-- What is called while no palette is open is lost. -/
theorem foldl_receive_closed {b : Builder} (hb : b.current = none) {calls : List Call}
    (h : ∀ table palette, Call.start table palette ∉ calls) : calls.foldl receive b = b := by
  induction calls with
  | nil => rfl
  | cons c calls ih =>
    have hstep : b.receive c = b := by
      obtain ⟨completed, current⟩ := b
      obtain rfl : current = none := hb
      cases c with
      | start table palette => exact absurd List.mem_cons_self (h table palette)
      | legend | field | finish => rfl
    rw [List.foldl_cons, hstep]
    exact ih fun table palette hmem => h table palette (List.mem_cons_of_mem c hmem)

/-- A palette that was started is built by what is called in its window. -/
theorem foldl_receive_start (b : Builder) (table palette : String) {content : List Call}
    (h : ∀ c ∈ content, c.IsContent) :
    content.foldl receive (b.receive (.start table palette)) =
      ⟨b.palettes, some (.ofContent palette content)⟩ := by
  have hevents : ∀ e ∈ content.map Event.call, e.IsContent := by
    simpa [Event.IsContent] using h
  rw [foldl_receive_eq_foldl_hear, ← BuiltPalette.foldl_hear_eq_ofContent palette h]
  exact foldl_hear_content hevents b.palettes { name := palette }

theorem isContent_of_mem_takeWhile {calls : List Call} {c : Call}
    (h : c ∈ calls.takeWhile (·.IsContent)) : c.IsContent := by
  simpa using List.mem_takeWhile_imp h

/-- The palettes of a builder after some calls: those before, with what the
calls up to the first start or finish make of the open one, and then the windows. -/
theorem palettes_foldl_receive (calls : List Call) (b : Builder) :
    (calls.foldl receive b).palettes =
      ((calls.takeWhile (·.IsContent)).foldl receive b).palettes.insertAll
        ((windows calls).map fun w => (w.1, (BuiltPalette.ofContent w.1 w.2).trim)) := by
  induction calls generalizing b with
  | nil => rfl
  | cons c calls ih =>
    have hcontent : ∀ c ∈ calls.takeWhile (·.IsContent), c.IsContent :=
      fun _ => isContent_of_mem_takeWhile
    cases c with
    | start table palette =>
      rw [List.foldl_cons, ih, foldl_receive_start b table palette hcontent]
      rfl
    | legend e => exact ih _
    | field d => exact ih _
    | finish =>
      -- No palette is open after it, so what follows counts from the next start on.
      have hlost : (calls.takeWhile (·.IsContent)).foldl receive b.close = b.close :=
        foldl_receive_closed b.current_close fun _ _ hmem => hcontent _ hmem
      rw [List.foldl_cons, ih, receive, hlost, palettes, close_close]
      rfl

/-- What is called before the first start, or after a finish and before the next
start, changes nothing. -/
theorem foldl_receive_stray {before stray : List Call}
    (hbefore : before = [] ∨ before.getLast? = some .finish)
    (hstray : ∀ table palette, Call.start table palette ∉ stray) (after : List Call) :
    (before ++ stray ++ after).foldl receive {} = (before ++ after).foldl receive {} := by
  have hclosed : (before.foldl receive {}).current = none := by
    rcases hbefore with rfl | hlast
    · rfl
    · obtain ⟨calls, rfl⟩ := List.getLast?_eq_some_iff.mp hlast
      rw [List.foldl_append]
      exact current_close _
  rw [List.foldl_append, List.foldl_append, foldl_receive_closed hclosed hstray, List.foldl_append]

/-- Legends keep their place and, unless they are shown otherwise, their
visibility, whatever becomes of their fields. -/
theorem legends_stay (name : String) (early late : List Call) :
    (BuiltPalette.ofContent name early).legends.map (·.name) <+:
        (BuiltPalette.ofContent name (early ++ late)).legends.map (·.name) ∧
      ∀ l ∈ (BuiltPalette.ofContent name early).legends, (∀ c ∈ late, c.shows? l.name = none) →
        ∃ l' ∈ (BuiltPalette.ofContent name (early ++ late)).legends,
          l'.name = l.name ∧ l'.hidden = l.hidden := by
  have hnames (content : List Call) :
      (BuiltPalette.ofContent name content).legends.map (·.name) = legendsNamed content := by
    rw [BuiltPalette.ofContent, List.map_map]
    exact List.map_id _
  have hinitial : legendsNamed early <+: legendsNamed (early ++ late) := by
    simp only [legendsNamed, List.filterMap_append, List.eraseDups_append]
    exact List.prefix_append _ _
  refine ⟨by rw [hnames, hnames]; exact hinitial, fun l hl hshows => ?_⟩
  obtain ⟨legend, hlegend, rfl⟩ := List.mem_map.mp hl
  refine ⟨.ofContent (early ++ late) legend, List.mem_map_of_mem (hinitial.subset hlegend), rfl, ?_⟩
  have hnone : late.filterMap (Call.shows? legend) = [] := List.filterMap_eq_nil_iff.mpr hshows
  simp [BuiltLegend.ofContent, hiddenAfter, hnone]

/-- After any calls the palettes of a new builder are its windows: a palette has
the place of its first window and the content of its last, legend by legend.
What is called outside of windows is lost, and a legend keeps its place and its
visibility while it is emptied and filled again. -/
theorem palettes_are_windows :
    (∀ calls : List Call,
      (calls.foldl receive {}).palettes.names = ((windows calls).map Prod.fst).eraseDups ∧
      ∀ name, (calls.foldl receive {}).palettes.get? name =
        ((windows calls).filter (·.1 = name)).getLast?.map fun w =>
          ⟨name, ((legendsNamed w.2).map fun legend =>
            ⟨legend, hiddenAfter legend w.2, fieldsAfter legend (directivesOn legend w.2)⟩).filter
              (!·.fields.isEmpty)⟩) ∧
    (∀ legend directives field, field ∈ fieldsAfter legend directives ↔
      ∃ d, (directives.filter (·.field = field)).getLast? = some d ∧ d.adds = true) ∧
    (∀ before stray after : List Call, (before = [] ∨ before.getLast? = some .finish) →
      (∀ table palette, Call.start table palette ∉ stray) →
      (before ++ stray ++ after).foldl receive {} = (before ++ after).foldl receive {}) ∧
    ∀ table name, ∀ early late : List Call, (∀ c ∈ early ++ late, c.IsContent) →
      ∃ p p',
        ((Call.start table name :: early).foldl receive {}).current = some p ∧
        ((Call.start table name :: (early ++ late)).foldl receive {}).current = some p' ∧
        p.legends.map (·.name) <+: p'.legends.map (·.name) ∧
        ∀ l ∈ p.legends, (∀ c ∈ late, c.shows? l.name = none) →
          ∃ l' ∈ p'.legends, l'.name = l.name ∧ l'.hidden = l.hidden := by
  refine ⟨fun calls => ?_, fun _ _ _ => mem_fieldsAfter_iff, ?_, ?_⟩
  · have hstart : ((calls.takeWhile (·.IsContent)).foldl receive {}).palettes = .empty := by
      rw [foldl_receive_closed rfl fun _ _ hmem => isContent_of_mem_takeWhile hmem]
      rfl
    rw [palettes_foldl_receive, hstart]
    constructor
    · refine (Listing.names_ofList _).trans ?_
      rw [List.map_map]
      rfl
    · intro name
      refine (Listing.get?_ofList _ name).trans ?_
      rw [← List.map_reverse, Listing.lookup_map, ← List.getLast?_filter]
      refine Option.map_congr fun w hw => ?_
      obtain rfl : w.1 = name :=
        of_decide_eq_true (List.mem_filter.mp (List.mem_of_getLast? hw)).2
      rfl
  · exact fun before stray after hbefore hstray => foldl_receive_stray hbefore hstray after
  · intro table name early late hcontent
    have hearly : ∀ c ∈ early, c.IsContent := fun c hc =>
      hcontent c (List.mem_append_left late hc)
    refine ⟨.ofContent name early, .ofContent name (early ++ late), ?_, ?_,
      legends_stay name early late⟩
    · rw [List.foldl_cons, foldl_receive_start _ _ _ hearly]
    · rw [List.foldl_cons, foldl_receive_start _ _ _ hcontent]

/-- A legend is hidden and filled. -/
def filling : List Call := [.legend ⟨"main", true, .hidden⟩, .field (.append "main" "id")]

/-- It is emptied, and filled again behind another legend. -/
def refilling : List Call :=
  [.field (.append "more" "note"), .field (.remove "main" "id"), .field (.append "main" "sku")]

theorem refilled_legend_keeps_its_place :
    ((Call.start "shop" "tip" :: (filling ++ refilling)).foldl receive {}).palettes.get? "tip" =
      some ⟨"tip", [⟨"main", true, ["sku"]⟩, ⟨"more", false, ["note"]⟩]⟩ ∧
    (([.start "shop" "tip", .finish] ++ refilling ++ [.start "shop" "top"] : List Call).foldl
        receive {} =
      ([.start "shop" "tip", .finish] ++ [.start "shop" "top"] : List Call).foldl receive {}) ∧
    ∃ p p',
      ((Call.start "shop" "tip" :: filling).foldl receive {}).current = some p ∧
      ((Call.start "shop" "tip" :: (filling ++ refilling)).foldl receive {}).current = some p' ∧
      p.legends = [⟨"main", true, ["id"]⟩] ∧
      ∃ l' ∈ p'.legends, l'.name = "main" ∧ l'.hidden = true := by
  obtain ⟨hwindows, -, hstray, hstay⟩ := palettes_are_windows
  refine ⟨?_, hstray _ _ _ (.inr rfl) (by simp [refilling]), ?_⟩
  · exact ((hwindows _).2 "tip").trans (by decide +kernel)
  · obtain ⟨p, p', hp, hp', -, hlegends⟩ :=
      hstay "shop" "tip" filling refilling (by decide +kernel)
    have hfilled : ((Call.start "shop" "tip" :: filling).foldl receive {}).current =
        some ⟨"tip", [⟨"main", true, ["id"]⟩]⟩ := by decide +kernel
    have hmain : p.legends = [⟨"main", true, ["id"]⟩] := by
      rw [hp] at hfilled
      rw [Option.some.inj hfilled]
    refine ⟨p, p', hp, hp', hmain, ?_⟩
    exact hlegends ⟨"main", true, ["id"]⟩ (by rw [hmain]; exact List.mem_cons_self)
      (by decide +kernel)

end Builder

end Palettes
