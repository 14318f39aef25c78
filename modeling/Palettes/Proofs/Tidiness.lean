import Palettes.Proofs.Assembly

/-!
A builder keeps its palettes tidy: a palette has no two legends of one name, a
legend has no field twice, and a palette that is complete stands under its own
name and has no empty legends. Every call keeps this, so it holds of all
builders that calls and resolutions lead to, whether these succeed or fail. A
placed field is put in at an index that its legend has.
-/
namespace Palettes

namespace FieldEvent

/-- Whether a directive puts its field into the legend. -/
def adds : FieldEvent → Bool
  | .remove _ _ => false
  | .append _ _ | .place _ _ _ _ => true

end FieldEvent

/-! ## One legend -/

namespace BuiltLegend

/-- Follow a directive that is for this legend. -/
def follow (l : BuiltLegend) : FieldEvent → BuiltLegend
  | .remove _ field => l.remove field
  | .append _ field => l.append field
  | .place _ field position anchor => l.place field position anchor

variable (l : BuiltLegend) (field : String)

@[simp] theorem name_append : (l.append field).name = l.name := by
  unfold append
  split <;> rfl

@[simp] theorem hidden_append : (l.append field).hidden = l.hidden := by
  unfold append
  split <;> rfl

@[simp] theorem name_follow (d : FieldEvent) : (l.follow d).name = l.name := by
  cases d with
  | append => exact name_append l _
  | remove | place => rfl

@[simp] theorem hidden_follow (d : FieldEvent) : (l.follow d).hidden = l.hidden := by
  cases d with
  | append => exact hidden_append l _
  | remove | place => rfl

/-- A place is never beyond the end. -/
theorem placeIndex_le (fields : List String) (position : Position) (anchor : String) :
    placeIndex fields position anchor ≤ fields.length := by
  unfold placeIndex
  cases h : fields.idxOf? anchor with
  | none => exact Nat.le_refl _
  | some i =>
    obtain ⟨hi, -⟩ := List.findIdx?_eq_some_iff_getElem.mp h
    cases position with
    | before => exact Nat.le_of_lt hi
    | after => exact hi

/-- Placing a field moves it, or brings it in, and nothing else comes or goes. -/
theorem perm_place (position : Position) (anchor : String) :
    (l.place field position anchor).fields.Perm (field :: l.fields.erase field) :=
  List.perm_insertIdx _ _ (placeIndex_le _ _ _)

variable {l}

theorem nodup_follow (h : l.fields.Nodup) (d : FieldEvent) : (l.follow d).fields.Nodup := by
  cases d with
  | remove legend field => exact h.erase field
  | append legend field =>
    simp only [follow, append]
    split
    · exact h
    · next hnew =>
      rw [← List.concat_eq_append]
      exact h.concat hnew
  | place legend field position anchor =>
    rw [follow, (perm_place l field position anchor).nodup_iff, List.nodup_cons]
    exact ⟨h.not_mem_erase, h.erase field⟩

end BuiltLegend

/-! ## The legends of a palette -/

namespace BuiltPalette

variable {p : BuiltPalette} {name : String} {f : BuiltLegend → BuiltLegend}

theorem map_name_modifyLegend (hname : ∀ l, (f l).name = l.name) (ls : List BuiltLegend) :
    (modifyLegend name f ls).map (·.name) = ls.map (·.name) := by
  induction ls with
  | nil => rfl
  | cons l ls ih =>
    rw [modifyLegend]
    split
    · rw [List.map_cons, hname, List.map_cons]
    · rw [List.map_cons, ih, List.map_cons]

theorem map_name_alterLegend (hname : ∀ l, (f l).name = l.name) (ls : List BuiltLegend) :
    (alterLegend name f ls).map (·.name) =
      if name ∈ ls.map (·.name) then ls.map (·.name) else ls.map (·.name) ++ [name] := by
  induction ls with
  | nil => simp [alterLegend, hname]
  | cons l ls ih =>
    by_cases h : l.name = name
    · simp [alterLegend, h, hname]
    · simp only [alterLegend, h, if_false, List.map_cons, ih, List.mem_cons, Ne.symm h, false_or]
      split <;> rfl

theorem forall_mem_modifyLegend {P : BuiltLegend → Prop} (hf : ∀ l, P l → P (f l))
    {ls : List BuiltLegend} (h : ∀ l ∈ ls, P l) : ∀ l ∈ modifyLegend name f ls, P l := by
  induction ls with
  | nil => simp [modifyLegend]
  | cons l ls ih =>
    rw [List.forall_mem_cons] at h
    rw [modifyLegend]
    split
    · exact List.forall_mem_cons.mpr ⟨hf l h.1, h.2⟩
    · exact List.forall_mem_cons.mpr ⟨h.1, ih h.2⟩

theorem forall_mem_alterLegend {P : BuiltLegend → Prop} (hf : ∀ l, P l → P (f l))
    (hnew : P { name }) {ls : List BuiltLegend} (h : ∀ l ∈ ls, P l) :
    ∀ l ∈ alterLegend name f ls, P l := by
  induction ls with
  | nil => simpa [alterLegend] using hf _ hnew
  | cons l ls ih =>
    rw [List.forall_mem_cons] at h
    rw [alterLegend]
    split
    · exact List.forall_mem_cons.mpr ⟨hf l h.1, h.2⟩
    · exact List.forall_mem_cons.mpr ⟨h.1, ih h.2⟩

/-- The legend that was changed is the one found under the name, or a new one. -/
theorem find?_alterLegend (hname : ∀ l, (f l).name = l.name) (ls : List BuiltLegend) :
    (alterLegend name f ls).find? (·.name == name) =
      some (f ((ls.find? (·.name == name)).getD { name })) := by
  induction ls with
  | nil => simp [alterLegend, hname]
  | cons l ls ih =>
    by_cases h : l.name = name
    · simp [alterLegend, h, hname]
    · simp [alterLegend, h, ih]

/-- Directives that add make their legend if it is missing; the others do not. -/
theorem apply_eq (p : BuiltPalette) (d : FieldEvent) :
    p.apply d = ⟨p.name,
      if d.adds then alterLegend d.legend (·.follow d) p.legends
      else modifyLegend d.legend (·.follow d) p.legends⟩ := by
  cases d <;> rfl

/-- What a directive that adds does to its legend. -/
theorem legend?_apply (p : BuiltPalette) {d : FieldEvent} (hd : d.adds = true) :
    (p.apply d).legend? d.legend =
      some (((p.legend? d.legend).getD { name := d.legend }).follow d) := by
  rw [apply_eq, if_pos hd]
  exact find?_alterLegend (fun l => l.name_follow d) p.legends

/-- Legends and their fields, each there once. -/
structure Tidy (p : BuiltPalette) : Prop where
  names : (p.legends.map (·.name)).Nodup
  fields : ∀ l ∈ p.legends, l.fields.Nodup

namespace Tidy

theorem new (name : String) : Tidy { name } where
  names := List.nodup_nil
  fields := by simp

theorem modify (h : p.Tidy) (hname : ∀ l, (f l).name = l.name)
    (hfields : ∀ l : BuiltLegend, l.fields.Nodup → (f l).fields.Nodup) :
    Tidy { p with legends := modifyLegend name f p.legends } where
  names := by
    rw [map_name_modifyLegend hname]
    exact h.names
  fields := forall_mem_modifyLegend hfields h.fields

theorem alter (h : p.Tidy) (hname : ∀ l, (f l).name = l.name)
    (hfields : ∀ l : BuiltLegend, l.fields.Nodup → (f l).fields.Nodup) :
    Tidy { p with legends := alterLegend name f p.legends } where
  names := by
    rw [map_name_alterLegend hname]
    split
    · exact h.names
    · next hnew =>
      rw [← List.concat_eq_append]
      exact h.names.concat hnew
  fields := forall_mem_alterLegend hfields List.nodup_nil h.fields

theorem declare (h : p.Tidy) (e : LegendEvent) : (p.declare e).Tidy :=
  h.alter (fun _ => rfl) fun _ hl => hl

theorem apply (h : p.Tidy) (d : FieldEvent) : (p.apply d).Tidy := by
  have hname (l : BuiltLegend) : (l.follow d).name = l.name := l.name_follow d
  have hfields (l : BuiltLegend) (hl : l.fields.Nodup) : (l.follow d).fields.Nodup :=
    BuiltLegend.nodup_follow hl d
  rw [apply_eq]
  split
  · exact h.alter hname hfields
  · exact h.modify hname hfields

theorem trim (h : p.Tidy) : p.trim.Tidy where
  names := h.names.sublist (List.filter_sublist.map _)
  fields l hl := h.fields l (List.mem_of_mem_filter hl)

end Tidy

/-- Trimming leaves no empty legends. -/
theorem fields_ne_nil_of_mem_trim {l : BuiltLegend} (h : l ∈ p.trim.legends) : l.fields ≠ [] := by
  simpa using (List.mem_filter.mp h).2

end BuiltPalette

/-! ## The builder -/

namespace Builder

structure Tidy (b : Builder) : Prop where
  current : ∀ p, b.current = some p → p.Tidy
  completed : ∀ e ∈ b.completed.entries,
    e.2.name = e.1 ∧ e.2.Tidy ∧ ∀ l ∈ e.2.legends, l.fields ≠ []

namespace Tidy

variable {b : Builder}

theorem new : Tidy {} where
  current := by simp
  completed := by simp [Listing.empty]

theorem close (h : b.Tidy) : b.close.Tidy := by
  unfold Builder.close
  split
  · exact h
  · next p hp =>
    refine ⟨by simp, fun e he => ?_⟩
    rcases Listing.mem_entries_insert he with rfl | he
    · exact ⟨rfl, (h.current p hp).trim, fun _ hl => BuiltPalette.fields_ne_nil_of_mem_trim hl⟩
    · exact h.completed e he

/-- Every call keeps a builder tidy. -/
theorem receive (h : b.Tidy) (c : Call) : (b.receive c).Tidy := by
  cases c with
  | start table palette =>
    refine ⟨fun p hp => ?_, h.close.completed⟩
    obtain rfl := Option.some.inj hp
    exact .new palette
  | legend e =>
    refine ⟨fun p hp => ?_, h.completed⟩
    obtain ⟨p', hp', rfl⟩ := Option.map_eq_some_iff.mp hp
    exact (h.current p' hp').declare e
  | field d =>
    refine ⟨fun p hp => ?_, h.completed⟩
    obtain ⟨p', hp', rfl⟩ := Option.map_eq_some_iff.mp hp
    exact (h.current p' hp').apply d
  | finish => exact h.close

theorem foldl_hear (h : b.Tidy) (es : List Event) : (es.foldl hear b).Tidy := by
  induction es generalizing b with
  | nil => exact h
  | cons e es ih =>
    cases e with
    | call c => exact ih (h.receive c)
    | inherit parent => exact ih h

end Tidy

/-- The builders that a new one becomes: by calls, by resolving tables and
palettes into it, and by what a handle tells it, which another listener may
have been given. What is resolved may fail. -/
inductive Reached : Builder → Prop
  | new : Reached {}
  | call {b : Builder} (c : Call) : Reached b → Reached (b.receive c)
  | resolve {b : Builder} {r : Resolver} {source : Source} {table : String}
      {o : Resolver.Outcome Builder Bool} :
    Reached b → r.resolve? source table listener () b = some o → Reached o.state
  | resolvePalette {b : Builder} {r : Resolver} {source : Source} {table palette : String}
      {o : Resolver.Outcome Builder Unit} :
    Reached b → r.resolvePalette? source table palette listener () b = some o → Reached o.state
  | handle {s s' : Scene Builder} {source : Source} {table parent : String} {t : PreparedTable}
      {depth : Nat} {v : Verdict} :
    Reached s.state → s.resolver.prepared? table = some t →
      Walk.visit ⟨listener, source, table⟩ depth true parent () s = some (v, s') →
      Reached s'.state

/-- What a handle tells a builder are events. -/
theorem visit_hears {s s' : Scene Builder} {source : Source} {table parent : String}
    {t : PreparedTable} {depth : Nat} {v : Verdict} (hkept : s.resolver.prepared? table = some t)
    (h : Walk.visit ⟨listener, source, table⟩ depth true parent () s = some (v, s')) :
    ∃ es : List Event, s'.state = es.foldl hear s.state := by
  let w : Walk Unit Builder := ⟨listener, source, table⟩
  have htells := w.visit_ancestor_tells depth parent () s hkept
  obtain ⟨hnone, -⟩ | ⟨v', s'', hvisit, htold, -⟩ := htells.cases
  · rw [h] at hnone
    cases hnone
  · rw [h] at hvisit
    cases hvisit
    have hparents : (w.telling t s.resolver).parents
        ((w.telling t s.resolver).ancestor depth s.lineage) () [parent] s.state =
          some (v, s'.state) := by
      rw [parents_cons (t := w.telling t s.resolver) follows]
      change ((w.telling t s.resolver).ancestor depth s.lineage parent () s.state).andThen _ = _
      rw [htold]
      cases v <;> rfl
    obtain ⟨es, -, hes⟩ := parents_trace (t := w.telling t s.resolver) follows depth hparents
    exact ⟨es, hes⟩

/-- The induction is on how the builder was reached; each step is a run of events. -/
theorem Reached.tidy {b : Builder} (h : b.Reached) : b.Tidy := by
  induction h with
  | new => exact .new
  | call c _ ih => exact ih.receive c
  | @resolve b r source table o _ ho ih =>
    cases hdefs : source table with
    | none =>
      rw [r.resolve?_none _ _ _ hdefs] at ho
      cases ho
      exact ih
    | some defs =>
      obtain ⟨es, v, -, -, hstate⟩ := Resolver.resolve?_trace follows hdefs ho
      rw [hstate]
      exact ih.foldl_hear es
  | resolvePalette _ ho ih =>
    obtain ⟨es, -, hstate⟩ := Resolver.resolvePalette?_trace follows ho
    rw [hstate]
    exact ih.foldl_hear es
  | handle _ hkept hvisit ih =>
    obtain ⟨es, hes⟩ := visit_hears hkept hvisit
    rw [hes]
    exact ih.foldl_hear es

/-- Whatever a builder has come through, the palettes that it holds are tidy,
and a field that is placed goes in at an index that is not beyond the end. -/
theorem reached_builders_are_tidy {b : Builder} (h : b.Reached) :
    (∀ p, b.current = some p →
      (p.legends.map (·.name)).Nodup ∧ (∀ l ∈ p.legends, l.fields.Nodup) ∧
        ∀ legend field position anchor,
          let rest := ((p.legend? legend).getD { name := legend }).fields.erase field
          let index := BuiltLegend.placeIndex rest position anchor
          index ≤ rest.length ∧
            ∃ p', (b.receive (.field (.place legend field position anchor))).current = some p' ∧
              (p'.legend? legend).map (·.fields) = some (rest.insertIdx index field)) ∧
    ∀ e ∈ b.completed.entries,
      e.2.name = e.1 ∧ (e.2.legends.map (·.name)).Nodup ∧
        ∀ l ∈ e.2.legends, l.fields.Nodup ∧ l.fields ≠ [] := by
  constructor
  · intro p hp
    obtain ⟨hnames, hfields⟩ := h.tidy.current p hp
    refine ⟨hnames, hfields, fun legend field position anchor => ?_⟩
    have hplaced := p.legend?_apply (d := .place legend field position anchor) rfl
    refine ⟨BuiltLegend.placeIndex_le _ _ _, p.apply (.place legend field position anchor), ?_, ?_⟩
    · rw [receive, hp, Option.map_some]
    · exact congrArg (Option.map (·.fields)) hplaced
  · intro e he
    obtain ⟨hname, htidy, hfilled⟩ := h.tidy.completed e he
    exact ⟨hname, htidy.names, fun l hl => ⟨htidy.fields l hl, hfilled l hl⟩⟩

/-- A table that fails leaves a palette open in a builder that was told another
one before. -/
theorem frayed_leaves_tidy :
    ∃ o, ({} : Resolver).resolve? (fun _ => some Resolver.frayed) "shop" listener ()
        (receive (receive {} (.start "shop" "draft")) (.field (.append "main" "id"))) = some o ∧
      o.result = .error (.undefinedPalette "shop" "gone") ∧
      o.state.completed.names = ["draft", "base", "leaf"] ∧
      (∀ e ∈ o.state.completed.entries, e.2.name = e.1 ∧ ∀ l ∈ e.2.legends, l.fields ≠ []) ∧
      o.state.current = some ⟨"loose", [⟨"main", false, ["id", "note"]⟩]⟩ ∧
      BuiltLegend.placeIndex ["id"] .before "note" ≤ 1 := by
  have hend : (({} : Resolver).resolve? (fun _ => some Resolver.frayed) "shop" listener ()
      (receive (receive {} (.start "shop" "draft")) (.field (.append "main" "id")))).map
        (fun o => (o.result, o.state.completed.names, o.state.current)) =
      some (.error (.undefinedPalette "shop" "gone"), ["draft", "base", "leaf"],
        some ⟨"loose", [⟨"main", false, ["id", "note"]⟩]⟩) := by rfl
  obtain ⟨o, ho, hfields⟩ := Option.map_eq_some_iff.mp hend
  simp only [Prod.mk.injEq] at hfields
  obtain ⟨hresult, hnames, hcurrent⟩ := hfields
  obtain ⟨hopen, hcomplete⟩ := reached_builders_are_tidy (.resolve (.call _ (.call _ .new)) ho)
  refine ⟨o, ho, hresult, hnames, fun e he => ?_, hcurrent, ?_⟩
  · obtain ⟨hname, -, hfilled⟩ := hcomplete e he
    exact ⟨hname, fun l hl => (hfilled l hl).2⟩
  · exact ((hopen _ hcurrent).2.2 "main" "note" .before "note").1

end Builder

end Palettes
