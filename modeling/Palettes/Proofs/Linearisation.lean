import Palettes.Proofs.Success
import Palettes.Proofs.Window

/-!
A palette laid out flat. Its linearisation is that of its parents, one after the
other in stored order, and then its own legend entries; a palette that resolves
has exactly one, and building the palette follows its directives in this order.
So the nearest directive has the last word: on a field whatever it says, and on
the visibility of a legend if it stands in the palette itself, has no marker or
hides.
-/
namespace Palettes

/-! ## Legend entries -/

/-- A legend token with its field tokens. -/
abbrev LegendEntry := String × List String

namespace LegendEntry

/-- The legend of an entry, which is its token without the marker. -/
def legend (e : LegendEntry) : String := (Token.splitMark e.1 .override).2

/-- Whether the token of an entry carries no marker. -/
def unmarked (e : LegendEntry) : Bool := (Token.splitMark e.1 .override).1 == .override

/-- Whether an entry hides its legend. -/
def hides (e : LegendEntry) : Bool := e.2.contains Token.hideMark

/-- What the field tokens of an entry say that are not reserved. -/
def directives (e : LegendEntry) : List FieldEvent :=
  (e.2.filter (!Token.isReserved ·)).map
    (FieldEvent.ofToken e.legend · (Token.splitMark e.1 .override).1)

/-- The calls that an entry comes to. -/
def calls (ancestor : Bool) (e : LegendEntry) : List Call :=
  (Announcement.ofEntry e.1 e.2 ancestor).calls

/-- Whether an entry decides about the visibility of its legend. -/
def decides (ancestor : Bool) (e : LegendEntry) : Bool := !ancestor || e.unmarked || e.hides

variable (legend : String) (ancestor : Bool) (e : LegendEntry) (entries : List LegendEntry)

theorem calls_eq : e.calls ancestor =
    .legend ⟨e.legend, !ancestor || e.unmarked,
      if e.decides ancestor then .ofBool e.hides else .unspecified⟩ ::
        e.directives.map .field := rfl

theorem legend_of_mem_directives {e : LegendEntry} {d : FieldEvent} (h : d ∈ e.directives) :
    d.legend = e.legend := by
  obtain ⟨token, -, rfl⟩ := List.mem_map.mp h
  exact FieldEvent.legend_ofToken _ token _

theorem directivesOn_calls :
    directivesOn legend (e.calls ancestor) = if e.legend = legend then e.directives else [] := by
  have hall : ∀ d ∈ e.directives, Call.directive? legend (.field d) =
      if e.legend = legend then some d else none := fun d hd => by
    rw [Call.directive?, legend_of_mem_directives hd]
  rw [directivesOn, calls_eq, List.filterMap_cons_none rfl, List.filterMap_map]
  refine (List.filterMap_congr hall).trans ?_
  split <;> simp

theorem shows?_calls :
    (e.calls ancestor).filterMap (Call.shows? legend) =
      if e.legend = legend ∧ e.decides ancestor = true then [e.hides] else [] := by
  have hfields : (e.directives.map Call.field).filterMap (Call.shows? legend) = [] := by
    rw [List.filterMap_map]
    exact List.filterMap_eq_nil_iff.mpr fun _ _ => rfl
  rw [calls_eq, List.filterMap_cons, hfields]
  by_cases hlegend : e.legend = legend
  · cases hdecides : e.decides ancestor with
    | true => simp [Call.shows?, hlegend]
    | false => simp [Call.shows?, hlegend, Hide.toBool?]
  · simp [Call.shows?, hlegend]

/-- The directives on a legend are those of its entries. -/
theorem directivesOn_flatMap :
    directivesOn legend (entries.flatMap (calls ancestor)) =
      (entries.filter (·.legend = legend)).flatMap directives := by
  induction entries with
  | nil => rfl
  | cons e entries ih =>
    rw [List.flatMap_cons, directivesOn_append, ih, directivesOn_calls]
    by_cases h : e.legend = legend <;> simp [h]

/-- The visibility of a legend is what those of its entries say that decide. -/
theorem shows?_flatMap :
    (entries.flatMap (calls ancestor)).filterMap (Call.shows? legend) =
      ((entries.filter (decides ancestor)).filter (·.legend = legend)).map hides := by
  induction entries with
  | nil => rfl
  | cons e entries ih =>
    rw [List.flatMap_cons, List.filterMap_append, ih, shows?_calls]
    by_cases hlegend : e.legend = legend <;> cases hdecides : e.decides ancestor <;>
      simp [hlegend, hdecides]

end LegendEntry

/-! ## Linearisations -/

/-- The legend entries of palettes laid out one after the other: each time those
of the parents, in stored order, and then the palette's own. -/
inductive PreparedTable.Linear (t : PreparedTable) : List String → List LegendEntry → Prop
  | nil : Linear t [] []
  | cons {name : String} {names : List String} {p : PreparedPalette}
      {above rest : List LegendEntry} :
    t.get? name = some p → Linear t p.parents above → Linear t names rest →
      Linear t (name :: names) (above ++ p.legends.entries ++ rest)

theorem PreparedTable.Linear.unique {t : PreparedTable} {names : List String}
    {entries entries' : List LegendEntry} (h : t.Linear names entries)
    (h' : t.Linear names entries') : entries = entries' := by
  induction h generalizing entries' with
  | nil => cases h'; rfl
  | cons hp _ _ ihAbove ihRest =>
    cases h' with
    | cons hp' habove hrest =>
      obtain rfl := Option.some.inj (hp.symm.trans hp')
      rw [ihAbove habove, ihRest hrest]

/-- The call of an event. -/
def Event.call? : Event → Option Call
  | .call c => some c
  | .inherit _ => none

theorem Builder.foldl_hear_eq_foldl_receive (es : List Event) (b : Builder) :
    es.foldl hear b = (es.filterMap Event.call?).foldl receive b := by
  induction es generalizing b with
  | nil => rfl
  | cons e es ih =>
    cases e with
    | call c => exact ih (b.receive c)
    | inherit parent => exact ih b

theorem PreparedPalette.call?_events (p : PreparedPalette) (ancestor : Bool) :
    (p.events ancestor).filterMap Event.call? =
      p.legends.entries.flatMap (LegendEntry.calls ancestor) := by
  rw [events, List.filterMap_map, show Event.call? ∘ Event.call = some from rfl,
    List.filterMap_some]
  rfl

/-- A trace that ends well makes the calls of a linearisation. -/
theorem Trace.linear {w : Setting} {lineage parents : List String} {es : List Event} {v : Verdict}
    (h : Trace w lineage parents es v) (hv : v = .ok ()) :
    ∃ above, w.prepared.Linear parents above ∧
      es.filterMap Event.call? = above.flatMap (LegendEntry.calls true) := by
  induction h with
  | done => exact ⟨[], .nil, rfl⟩
  | undefined => cases hv
  | cyclic => cases hv
  | stopped => cases hv
  | told hp _ _ _ ihAbove ihRest =>
    obtain ⟨above, habove, hcalls⟩ := ihAbove rfl
    obtain ⟨rest, hrest, hcalls'⟩ := ihRest hv
    refine ⟨_, .cons hp habove hrest, ?_⟩
    rw [List.filterMap_cons_none rfl, List.filterMap_append, List.filterMap_append, hcalls,
      hcalls', PreparedPalette.call?_events, List.flatMap_append, List.flatMap_append]

/-- The palette that a linearisation builds, where `own` are the entries of the
palette itself. -/
def BuiltPalette.ofEntries (name : String) (above own : List LegendEntry) : BuiltPalette :=
  (ofContent name (above.flatMap (LegendEntry.calls true) ++
    own.flatMap (LegendEntry.calls false))).trim

namespace LegendEntry

theorem isContent_of_mem_calls {ancestor : Bool} {entries : List LegendEntry} {c : Call}
    (h : c ∈ entries.flatMap (calls ancestor)) : c.IsContent := by
  obtain ⟨e, -, hc⟩ := List.mem_flatMap.mp h
  rw [calls_eq] at hc
  rcases List.mem_cons.mp hc with rfl | hc
  · trivial
  · obtain ⟨d, -, rfl⟩ := List.mem_map.mp hc
    trivial

end LegendEntry

theorem PaletteTrace.linear {w : Setting} {name : String} {es : List Event}
    (h : PaletteTrace w name es (.ok ())) :
    ∃ p above, w.prepared.get? name = some p ∧ w.prepared.Linear p.parents above ∧
      (es.foldl Builder.hear {}).palettes.entries =
        [(name, .ofEntries name above p.legends.entries)] := by
  cases h with
  | @told p es hp hes =>
    obtain ⟨above, habove, hcalls⟩ := hes.linear rfl
    refine ⟨p, above, hp, habove, ?_⟩
    have hcontent : ∀ c ∈ above.flatMap (LegendEntry.calls true) ++
        p.legends.entries.flatMap (LegendEntry.calls false), c.IsContent := by
      intro c hc
      exact (List.mem_append.mp hc).elim LegendEntry.isContent_of_mem_calls
        LegendEntry.isContent_of_mem_calls
    have hstart : Event.call? (.call (.start w.table name)) = some (.start w.table name) := rfl
    rw [Builder.foldl_hear_eq_foldl_receive, List.filterMap_cons_some hstart,
      List.filterMap_append, hcalls, PreparedPalette.call?_events, List.foldl_cons,
      Builder.foldl_receive_start {} w.table name hcontent]
    rfl

/-! ## The last word -/

namespace LegendEntry

/-- The last entry of a legend. -/
def last? (legend : String) (entries : List LegendEntry) : Option LegendEntry :=
  (entries.filter (·.legend = legend)).getLast?

/-- The last directive on a field of a legend. -/
def lastDirective? (legend field : String) (entries : List LegendEntry) : Option FieldEvent :=
  (((entries.filter (·.legend = legend)).flatMap directives).filter (·.field = field)).getLast?

/-- The last of the entries that decide about the visibility of a legend: of
those that are inherited only the ones without marker and the ones that hide. -/
def lastDeciding? (legend : String) (above own : List LegendEntry) : Option LegendEntry :=
  last? legend ((above.filter fun e => e.unmarked || e.hides) ++ own)

theorem lastDirective?_append (legend field : String) (above own : List LegendEntry) :
    lastDirective? legend field (above ++ own) =
      (lastDirective? legend field own).or (lastDirective? legend field above) := by
  simp only [lastDirective?, List.filter_append, List.flatMap_append, List.getLast?_append]

theorem last?_append (legend : String) (above own : List LegendEntry) :
    last? legend (above ++ own) = (last? legend own).or (last? legend above) := by
  simp only [last?, List.filter_append, List.getLast?_append]

end LegendEntry

namespace BuiltPalette

variable {name legend field : String} {above own : List LegendEntry}

theorem mem_ofEntries_iff :
    (∃ l ∈ (ofEntries name above own).legends, l.name = legend ∧ field ∈ l.fields) ↔
      ∃ d, LegendEntry.lastDirective? legend field (above ++ own) = some d ∧ d.adds = true := by
  rw [LegendEntry.lastDirective?, List.filter_append, List.flatMap_append,
    ← LegendEntry.directivesOn_flatMap legend true, ← LegendEntry.directivesOn_flatMap legend false,
    ← directivesOn_append, ← @mem_fieldsAfter_iff legend]
  constructor
  · rintro ⟨l, hl, rfl, hfield⟩
    rw [(mem_trim_ofContent.mp hl).1] at hfield
    exact hfield
  · intro hfield
    have hfilled := List.ne_nil_of_mem hfield
    exact ⟨.ofContent _ legend, mem_trim_ofContent.mpr ⟨rfl, hfilled⟩, rfl, hfield⟩

theorem hidden_iff_of_mem_ofEntries {l : BuiltLegend} (h : l ∈ (ofEntries name above own).legends) :
    l.hidden = true ↔
      ∃ e, LegendEntry.lastDeciding? l.name above own = some e ∧ e.hides = true := by
  have hhidden := congrArg BuiltLegend.hidden (mem_trim_ofContent.mp h).1
  -- In the palette itself every entry decides.
  have hown : own.filter (LegendEntry.decides false) = own := List.filter_eq_self.mpr fun _ _ => rfl
  have hlast : l.hidden =
      ((LegendEntry.lastDeciding? l.name above own).map LegendEntry.hides).getD false := by
    rw [hhidden, BuiltLegend.ofContent, hiddenAfter, List.filterMap_append,
      LegendEntry.shows?_flatMap, LegendEntry.shows?_flatMap, hown, ← List.map_append,
      ← List.filter_append, List.getLast?_map]
    rfl
  rw [hlast]
  cases LegendEntry.lastDeciding? l.name above own <;> simp

end BuiltPalette

/-! ## The operation -/

namespace Resolver

variable {r : Resolver} {source : Source} {table palette : String} {o : Outcome Builder Unit}

/-- What resolving a palette into a new builder comes to is built from its linearisation. -/
theorem resolvePalette?_linear
    (h : r.resolvePalette? source table palette Builder.listener () {} = some o)
    (hok : o.result = .ok ()) :
    ∃ p above, (r.tableFor source table).get? palette = some p ∧
      (r.tableFor source table).Linear p.parents above ∧
      o.state.palettes.entries = [(palette, .ofEntries palette above p.legends.entries)] := by
  obtain ⟨es, hes, hstate⟩ := resolvePalette?_trace Builder.follows h
  rw [hok] at hes
  rw [hstate]
  exact hes.linear

/-- In a palette that resolves, a field is in a legend exactly if the last
directive on it adds it, and a legend is hidden exactly if the last entry that
decides about it hides it. The palette's own directives come last. -/
theorem nearest_directives_have_the_last_word
    (h : r.resolvePalette? source table palette Builder.listener () {} = some o)
    (hok : o.result = .ok ()) :
    ∃ p above built, (r.tableFor source table).get? palette = some p ∧
      (∀ above', (r.tableFor source table).Linear p.parents above' ↔ above' = above) ∧
      o.state.palettes.entries = [(palette, built)] ∧
      ∀ legend,
        (∀ field,
          ((∃ l ∈ built.legends, l.name = legend ∧ field ∈ l.fields) ↔
            ∃ d, LegendEntry.lastDirective? legend field (above ++ p.legends.entries) = some d ∧
              d.adds = true) ∧
          ∀ d, LegendEntry.lastDirective? legend field p.legends.entries = some d →
            ((∃ l ∈ built.legends, l.name = legend ∧ field ∈ l.fields) ↔ d.adds = true)) ∧
        ∀ l ∈ built.legends, l.name = legend →
          (l.hidden = true ↔
            ∃ e, LegendEntry.lastDeciding? legend above p.legends.entries = some e ∧
              e.hides = true) ∧
          ∀ e, LegendEntry.last? legend p.legends.entries = some e →
            (l.hidden = true ↔ e.hides = true) := by
  obtain ⟨p, above, hp, habove, hentries⟩ := resolvePalette?_linear h hok
  refine ⟨p, above, _, hp, fun above' => ⟨fun h' => h'.unique habove, fun he => he ▸ habove⟩,
    hentries, fun legend => ⟨fun field => ?_, ?_⟩⟩
  · refine ⟨BuiltPalette.mem_ofEntries_iff, fun d hd => ?_⟩
    rw [BuiltPalette.mem_ofEntries_iff, LegendEntry.lastDirective?_append, hd]
    simp
  · rintro l hl rfl
    have hhidden := BuiltPalette.hidden_iff_of_mem_ofEntries hl
    refine ⟨hhidden, fun e he => ?_⟩
    rw [hhidden, LegendEntry.lastDeciding?, LegendEntry.last?_append, he]
    simp

/-- Legends that are changed from palette to palette. -/
def layers : PaletteDefs := .ofList
  [("base", .ofList [("main", ["id", "note", ":hide"]), ("more", ["tag"])]),
    ("mid extends base", .ofList [("+main", ["sku after id", "-note"]), ("-more", ["tag"])]),
    ("leaf extends mid", .ofList
      [("-main", ["id"]), ("+main", ["note before sku"]), ("+more", ["tag", ":first"])]),
    ("thin extends mid", .empty)]

theorem layers_have_the_last_word :
    ∃ o built, ({} : Resolver).resolvePalette? (fun _ => some layers) "shop" "leaf"
        Builder.listener () {} = some o ∧
      o.result = .ok () ∧ o.state.palettes.entries = [("leaf", built)] ∧
      (∃ l ∈ built.legends, l.name = "main" ∧ "note" ∈ l.fields) ∧
      (¬ ∃ l ∈ built.legends, l.name = "main" ∧ "id" ∈ l.fields) ∧
      ∀ l ∈ built.legends, l.name = "main" → l.hidden = false := by
  have hend : (({} : Resolver).resolvePalette? (fun _ => some layers) "shop" "leaf"
      Builder.listener () {}).map (·.result) = some (.ok ()) := by rfl
  obtain ⟨o, ho, hok⟩ := Option.map_eq_some_iff.mp hend
  obtain ⟨p, above, built, hp, -, hentries, hlast⟩ := nearest_directives_have_the_last_word ho hok
  have hown : p = ⟨"leaf", ["mid"], .ofList
      [("-main", ["id"]), ("+main", ["note before sku"]), ("+more", ["tag", ":first"])]⟩ :=
    Option.some.inj (hp.symm.trans (by decide +kernel))
  obtain ⟨hfields, hhidden⟩ := hlast "main"
  subst hown
  refine ⟨o, built, ho, hok, hentries, ?_, ?_, fun l hl hname => ?_⟩
  · exact ((hfields "note").2 (.place "main" "note" .before "sku") (by decide +kernel)).mpr rfl
  · rw [(hfields "id").2 (.remove "main" "id") (by decide +kernel)]
    decide
  · have hiff := (hhidden l hl hname).2 ("+main", ["note before sku"]) (by decide +kernel)
    rw [← Bool.not_eq_true, hiff]
    decide

end Resolver

end Palettes
