import Palettes.Proofs.Conduct
import Palettes.Proofs.Trace

/-!
A table is built palette by palette. A start closes the palette before it and
opens a new one, and nothing else that is told within a palette touches those
that are complete. So what becomes of a palette does not depend on the builder
it is told to, and a whole table comes to its palettes as each is built on its
own, up to the first that fails.
-/
namespace Palettes

/-! ## What is told within a palette -/

/-- What an open palette makes of an event that is told within it. -/
def BuiltPalette.hear (p : BuiltPalette) : Event → BuiltPalette
  | .call (.legend e) => p.declare e
  | .call (.field e) => p.apply e
  | .call (.start _ _) | .call .finish | .inherit _ => p

theorem BuiltPalette.name_hear (p : BuiltPalette) (e : Event) : (p.hear e).name = p.name := by
  cases e with
  | inherit parent => rfl
  | call c =>
    cases c with
    | field f => cases f <;> rfl
    | start | legend | finish => rfl

theorem BuiltPalette.name_foldl_hear (es : List Event) (p : BuiltPalette) :
    (es.foldl BuiltPalette.hear p).name = p.name := by
  induction es generalizing p with
  | nil => rfl
  | cons e es ih => rw [List.foldl_cons, ih, name_hear]

/-- An event told within a palette. -/
def Event.IsContent : Event → Prop
  | .call c => c.IsContent
  | .inherit _ => True

theorem PreparedPalette.isContent_of_mem_events {p : PreparedPalette} {ancestor : Bool} {e : Event}
    (h : e ∈ p.events ancestor) : e.IsContent := by
  obtain ⟨c, hc, rfl⟩ := List.mem_map.mp h
  exact p.isContent_of_mem hc

variable {w : Setting} {lineage parents names : List String} {name : String} {es : List Event}
  {v : Verdict}

theorem Trace.isContent (h : Trace w lineage parents es v) : ∀ e ∈ es, e.IsContent := by
  induction h with
  | done => simp
  | undefined => simp [Event.IsContent]
  | cyclic => simp [Event.IsContent]
  | stopped _ _ _ ih =>
    intro e he
    rcases List.mem_cons.mp he with rfl | he
    · trivial
    · exact ih e he
  | told _ _ _ _ ihAbove ihRest =>
    intro e he
    simp only [List.mem_cons, List.mem_append] at he
    rcases he with rfl | (he | he) | he
    · trivial
    · exact ihAbove e he
    · exact PreparedPalette.isContent_of_mem_events he
    · exact ihRest e he

/-- A palette that is declared is started, and the rest is told within it. -/
theorem PaletteTrace.starts (h : PaletteTrace w name es v) (hname : name ∈ w.prepared.names) :
    ∃ content, es = .call (.start w.table name) :: content ∧ ∀ e ∈ content, e.IsContent := by
  cases h with
  | undefined hp => simp [w.prepared.mem_names_iff, hp] at hname
  | stopped _ habove => exact ⟨_, rfl, habove.isContent⟩
  | told _ habove =>
    refine ⟨_, rfl, fun e he => ?_⟩
    rcases List.mem_append.mp he with he | he
    · exact habove.isContent e he
    · exact PreparedPalette.isContent_of_mem_events he

/-! ## One palette -/

namespace Builder

theorem hear_start (b : Builder) (table name : String) :
    b.hear (.call (.start table name)) = ⟨b.palettes, some { name }⟩ := rfl

theorem hear_content {e : Event} (h : e.IsContent) (completed : Listing BuiltPalette)
    (p : BuiltPalette) : hear ⟨completed, some p⟩ e = ⟨completed, some (p.hear e)⟩ := by
  cases e with
  | inherit parent => rfl
  | call c =>
    cases c with
    | legend | field => rfl
    | start | finish => exact h.elim

theorem foldl_hear_content (h : ∀ e ∈ es, e.IsContent) (completed : Listing BuiltPalette)
    (p : BuiltPalette) :
    es.foldl hear ⟨completed, some p⟩ = ⟨completed, some (es.foldl BuiltPalette.hear p)⟩ := by
  induction es generalizing p with
  | nil => rfl
  | cons e es ih =>
    rw [List.foldl_cons, hear_content (h e List.mem_cons_self),
      ih fun e' he' => h e' (List.mem_cons_of_mem _ he')]
    rfl

theorem close_close (b : Builder) : b.close.close = b.close := by
  cases hb : b.current with
  | none => simp [close, hb]
  | some p => simp [close, hb]

end Builder

/-- The palette that is open afterwards is the same whatever the builder held
before, and what it held is complete. -/
theorem PaletteTrace.opens (h : PaletteTrace w name es v) (hname : name ∈ w.prepared.names) :
    ∃ p : BuiltPalette, p.name = name ∧ ∀ b, es.foldl Builder.hear b = ⟨b.palettes, some p⟩ := by
  obtain ⟨content, rfl, hcontent⟩ := h.starts hname
  refine ⟨content.foldl BuiltPalette.hear { name }, BuiltPalette.name_foldl_hear _ _, fun b => ?_⟩
  rw [List.foldl_cons, Builder.hear_start, Builder.foldl_hear_content hcontent]

/-- What a palette of the table comes to in a new builder. -/
def Setting.Builds (w : Setting) (name : String) (p : BuiltPalette) : Prop :=
  ∃ es, PaletteTrace w name es (.ok ()) ∧
    (es.foldl Builder.hear {}).palettes.entries = [(name, p)]

theorem PaletteTrace.mem_names (h : PaletteTrace w name es (.ok ())) :
    name ∈ w.prepared.names := by
  cases h with
  | told hp _ => exact (w.prepared.mem_names_iff name).mpr ⟨_, hp⟩

/-- A builder that has no palette of the name yet gets the one that a new builder gets. -/
theorem PaletteTrace.builds (h : PaletteTrace w name es (.ok ())) :
    ∃ p, w.Builds name p ∧ ∀ b : Builder, name ∉ b.palettes.names →
      (es.foldl Builder.hear b).palettes.entries = b.palettes.entries ++ [(name, p)] := by
  obtain ⟨p, rfl, hopens⟩ := h.opens h.mem_names
  have hadds (b : Builder) (hnew : p.name ∉ b.palettes.names) :
      (es.foldl Builder.hear b).palettes.entries = b.palettes.entries ++ [(p.name, p.trim)] := by
    rw [hopens]
    exact Listing.entries_insert_of_notMem p.trim hnew
  exact ⟨p.trim, ⟨es, h, hadds {} (by simp [Builder.palettes, Builder.close])⟩, hadds⟩

/-! ## Several palettes -/

/-- Palettes that a builder does not have yet are added to it as each builds on
its own, up to the first that fails. The induction is on the palettes; those
before are complete when the next one starts. -/
theorem PalettesTrace.assembles (h : PalettesTrace w names es v)
    (hdeclared : ∀ n ∈ names, n ∈ w.prepared.names) (hnodup : names.Nodup) {b : Builder}
    (hnew : ∀ n ∈ names, n ∉ b.palettes.names) :
    ∃ built : List (String × BuiltPalette), (∀ x ∈ built, w.Builds x.1 x.2) ∧
      ((v = .ok () ∧ built.map Prod.fst = names ∧
          (es.foldl Builder.hear b).palettes.entries = b.palettes.entries ++ built) ∨
        ∃ e name rest fault, v = .error e ∧ names = built.map Prod.fst ++ name :: rest ∧
          PaletteTrace w name fault (.error e) ∧
          (es.foldl Builder.hear b).completed.entries = b.palettes.entries ++ built) := by
  induction h generalizing b with
  | done => exact ⟨[], by simp, .inl ⟨rfl, rfl, by simp⟩⟩
  | @stopped name names es e hname =>
    obtain ⟨p, -, hopens⟩ := hname.opens (hdeclared name List.mem_cons_self)
    refine ⟨[], by simp, .inr ⟨e, name, names, es, rfl, rfl, hname, ?_⟩⟩
    rw [hopens, List.append_nil]
  | @told name names es rest v hname _ ih =>
    obtain ⟨p, hbuilds, hadds⟩ := hname.builds
    have hfirst := hadds b (hnew name List.mem_cons_self)
    have hnames : (es.foldl Builder.hear b).palettes.names = b.palettes.names ++ [name] := by
      simp [Listing.names, hfirst]
    obtain ⟨hnotMem, hnodup⟩ := List.nodup_cons.mp hnodup
    have hnew' : ∀ n ∈ names, n ∉ (es.foldl Builder.hear b).palettes.names := by
      intro n hn hmem
      rw [hnames, List.mem_append, List.mem_singleton] at hmem
      rcases hmem with hmem | rfl
      · exact hnew n (List.mem_cons_of_mem _ hn) hmem
      · exact hnotMem hn
    obtain ⟨built, hbuilt, hrest⟩ :=
      ih (fun n hn => hdeclared n (List.mem_cons_of_mem _ hn)) hnodup hnew'
    refine ⟨(name, p) :: built, ?_, ?_⟩
    · intro x hx
      rcases List.mem_cons.mp hx with rfl | hx
      · exact hbuilds
      · exact hbuilt x hx
    · rw [List.foldl_append]
      rw [hfirst, List.append_assoc] at hrest
      obtain ⟨hv, hall, hentries⟩ | ⟨e, failed, after, fault, hv, hall, hfault, hentries⟩ := hrest
      · exact .inl ⟨hv, by rw [List.map_cons, hall], hentries⟩
      · exact .inr ⟨e, failed, after, fault, hv, by rw [hall]; rfl, hfault, hentries⟩

/-- A new builder that is told a whole table has the palettes as each builds on
its own: all of them, or those before the first that fails. -/
theorem TableTrace.assembles (h : TableTrace w es v) {b : Builder}
    (hb : es.foldl Builder.hear {} = b) :
    (∀ x ∈ b.completed.entries, w.Builds x.1 x.2) ∧
      ((v = .ok () ∧ b.palettes = b.completed ∧ b.completed.names = w.prepared.names) ∨
        ∃ e name rest fault, v = .error e ∧
          w.prepared.names = b.completed.names ++ name :: rest ∧
          PaletteTrace w name fault (.error e)) := by
  have hnew : ∀ n ∈ w.prepared.names, n ∉ ({} : Builder).palettes.names := by
    simp [Builder.palettes, Builder.close]
  cases h with
  | stopped hnames =>
    obtain ⟨built, hbuilt, hend⟩ := hnames.assembles (fun _ hn => hn) (Listing.names_nodup _) hnew
    obtain ⟨hv, -⟩ | ⟨e, name, rest, fault, hv, hall, hfault, hentries⟩ := hend
    · cases hv
    · rw [hb] at hentries
      have hcompleted : b.completed.entries = built := hentries
      rw [Listing.names, hcompleted]
      exact ⟨hbuilt, .inr ⟨e, name, rest, fault, hv, hall, hfault⟩⟩
  | @told es hnames =>
    obtain ⟨built, hbuilt, hend⟩ := hnames.assembles (fun _ hn => hn) (Listing.names_nodup _) hnew
    obtain ⟨-, hall, hentries⟩ | ⟨e, _, _, _, hv, -⟩ := hend
    · rw [List.foldl_append] at hb
      have hclosed : (es.foldl Builder.hear {}).close = b := hb
      have hcompleted : b.completed.entries = built := by
        rw [← hclosed]
        exact hentries
      have hpalettes : b.palettes = b.completed := by
        rw [Builder.palettes, ← hclosed, Builder.close_close]
      rw [Listing.names, hcompleted]
      exact ⟨hbuilt, .inl ⟨rfl, hpalettes, hall⟩⟩
    · cases hv

/-! ## The operations -/

namespace Resolver

variable (r : Resolver) (source : Source) (table : String)

/-- Resolving a palette into a new builder succeeds, and this is all that is built. -/
def BuildsAlone (name : String) (p : BuiltPalette) : Prop :=
  ∃ o, r.resolvePalette? source table name Builder.listener () {} = some o ∧
    o.result = .ok () ∧ o.state.palettes.entries = [(name, p)]

/-- Resolving a palette into a new builder fails. -/
def FailsAlone (name : String) (e : ResolveError) : Prop :=
  ∃ o, r.resolvePalette? source table name Builder.listener () {} = some o ∧ o.result = .error e

variable {r source table}

/-- A trace of a palette is what resolving it into a new builder comes to. -/
theorem resolvePalette?_of_trace (hdetect : r.options.detectCycles = true)
    (htable : r.tableFor source table = .ofSource source table)
    (h : PaletteTrace ⟨table, .ofSource source table, true⟩ name es v) :
    ∃ o, r.resolvePalette? source table name Builder.listener () {} = some o ∧ o.result = v ∧
      o.state = es.foldl Builder.hear {} := by
  obtain ⟨o, ho⟩ := Option.isSome_iff_exists.mp
    (r.resolvePalette?_isSome source table Builder.listener () {} hdetect name)
  obtain ⟨es', hes', hstate⟩ := resolvePalette?_trace Builder.follows ho
  rw [setting, htable, hdetect] at hes'
  obtain ⟨rfl, hv⟩ := h.unique hes'
  exact ⟨o, ho, hv.symm, hstate⟩

theorem buildsAlone_of_builds (hdetect : r.options.detectCycles = true)
    (htable : r.tableFor source table = .ofSource source table) {p : BuiltPalette}
    (h : Setting.Builds ⟨table, .ofSource source table, true⟩ name p) :
    r.BuildsAlone source table name p := by
  obtain ⟨es, hes, hentries⟩ := h
  obtain ⟨o, ho, hok, hstate⟩ := resolvePalette?_of_trace hdetect htable hes
  exact ⟨o, ho, hok, by rw [hstate, hentries]⟩

/-- A table resolved into a new builder is built palette by palette: it comes to
the palettes in the order in which they are declared, each as resolving it on
its own builds it, on a resolver that meets the same table. If it fails, it
fails as the first palette does that fails on its own, and the palettes before
are complete. -/
theorem table_is_built_palette_by_palette (r alone : Resolver) (source : Source) (table : String)
    (hdetect : r.options.detectCycles = true) (hdetect' : alone.options.detectCycles = true)
    (htable : alone.tableFor source table = .ofSource source table) :
    ∃ o, r.resolve? source table Builder.listener () {} = some o ∧
      (∀ found, o.result = .ok found →
        o.state.palettes = o.state.completed ∧
        o.state.completed.names = (PreparedTable.ofSource source table).names ∧
        ∀ x ∈ o.state.completed.entries, alone.BuildsAlone source table x.1 x.2) ∧
      ∀ e, o.result = .error e → ∃ name rest,
        (PreparedTable.ofSource source table).names = o.state.completed.names ++ name :: rest ∧
        (∀ x ∈ o.state.completed.entries, alone.BuildsAlone source table x.1 x.2) ∧
        alone.FailsAlone source table name e := by
  obtain ⟨o, ho⟩ := Option.isSome_iff_exists.mp
    (r.resolve?_isSome source table Builder.listener () {} hdetect)
  refine ⟨o, ho, ?_⟩
  cases hdefs : source table with
  | none =>
    have ht : PreparedTable.ofSource source table = .empty := by
      simp [PreparedTable.ofSource, hdefs]
    rw [r.resolve?_none _ _ _ hdefs] at ho
    cases ho
    rw [ht]
    exact ⟨fun _ _ => ⟨rfl, rfl, by simp [Listing.empty]⟩, by simp⟩
  | some defs =>
    obtain ⟨es, v, hes, hresult, hstate⟩ := resolve?_trace Builder.follows hdefs ho
    have hw : r.setting table (.ofDefs defs) =
        ⟨table, .ofSource source table, true⟩ := by
      simp [setting, hdetect, PreparedTable.ofSource, hdefs]
    rw [hw] at hes
    obtain ⟨hbuilt, hend⟩ := hes.assembles hstate.symm
    have hall : ∀ x ∈ o.state.completed.entries, alone.BuildsAlone source table x.1 x.2 :=
      fun x hx => buildsAlone_of_builds hdetect' htable (hbuilt x hx)
    obtain ⟨rfl, hpalettes, hnames⟩ | ⟨e, name, rest, fault, rfl, hnames, hfault⟩ := hend
    · exact ⟨fun _ _ => ⟨hpalettes, hnames, hall⟩, by simp [hresult, Except.map]⟩
    · obtain ⟨single, hsingle, hfails, -⟩ := resolvePalette?_of_trace hdetect' htable hfault
      refine ⟨by simp [hresult, Except.map], fun e' he => ⟨name, rest, hnames, hall, ?_⟩⟩
      obtain rfl : e = e' := Except.error.inj (hresult.symm.trans he)
      exact ⟨single, hsingle, hfails⟩

/-- A table whose third palette extends one that is missing. -/
def frayed : PaletteDefs := .ofList
  [("base", .ofList [("main", ["id", "note"])]),
    ("leaf extends base", .ofList [("+main", ["-note"])]),
    ("loose extends gone extends base", .ofList [("main", ["id"])]),
    ("last", .ofList [("main", ["id"])])]

/-- The palettes before the missing one are built as each is on its own. -/
theorem frayed_is_built_in_part :
    ∃ o, ({} : Resolver).resolve? (fun _ => some frayed) "shop" Builder.listener () {} = some o ∧
      o.result = .error (.undefinedPalette "shop" "gone") ∧
      o.state.completed.names = ["base", "leaf"] ∧
      (∀ x ∈ o.state.completed.entries,
        ({} : Resolver).BuildsAlone (fun _ => some frayed) "shop" x.1 x.2) ∧
      ({} : Resolver).FailsAlone (fun _ => some frayed) "shop" "loose"
        (.undefinedPalette "shop" "gone") := by
  obtain ⟨o, ho, -, hfails⟩ := table_is_built_palette_by_palette {} {} (fun _ => some frayed)
    "shop" rfl rfl rfl
  have hend : (({} : Resolver).resolve? (fun _ => some frayed) "shop" Builder.listener () {}).map
      (fun o => (o.result, o.state.completed.names)) =
        some (.error (.undefinedPalette "shop" "gone"), ["base", "leaf"]) := by rfl
  rw [ho] at hend
  obtain ⟨hresult, hnames⟩ := Prod.mk.inj (Option.some.inj hend)
  obtain ⟨name, rest, hall, hbuilt, hfault⟩ := hfails _ hresult
  refine ⟨o, ho, hresult, hnames, hbuilt, ?_⟩
  rw [hnames, show (PreparedTable.ofSource (fun _ => some frayed) "shop").names =
    ["base", "leaf", "loose", "last"] by decide +kernel] at hall
  cases hall
  exact hfault

end Resolver

end Palettes
