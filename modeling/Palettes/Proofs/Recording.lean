import Palettes.Proofs.Success

/-!
What recordings hold. A recorder that follows its parents writes down, for every
palette, the bodies of the parents within that of the palette, once for every
way that leads to them. A recorder that lets its parents pass writes down each
palette on its own, whatever the parents are.
-/
namespace Palettes

/-! ## Bodies -/

/-- The events of a palette, legend by legend. -/
theorem PreparedPalette.events_eq (p : PreparedPalette) (ancestor : Bool) :
    p.events ancestor = p.legends.entries.flatMap fun e =>
      .call (.legend (Announcement.ofEntry e.1 e.2 ancestor).event) ::
        (Announcement.ofEntry e.1 e.2 ancestor).fields.map fun f => .call (.field f) := by
  simp only [events, calls, Announcement.calls, List.map_flatMap, List.map_cons, List.map_map]
  rfl

namespace PreparedTable

/-- What a palette comes to with all parents followed, where no more than
`depth` palettes stand within one another. -/
def bodyWithin (t : PreparedTable) : Nat → String → Bool → List Event
  | 0, _, _ => []
  | depth + 1, name, ancestor =>
    match t.get? name with
    | none => []
    | some p =>
      p.parents.flatMap (fun q => .inherit q :: bodyWithin t depth q true) ++ p.events ancestor

/-- What a palette comes to with all parents followed. The palettes that stand
within one another differ, so that there are no more than the table has. -/
def body (t : PreparedTable) (name : String) (ancestor : Bool) : List Event :=
  t.bodyWithin t.size name ancestor

theorem bodyWithin_succ {t : PreparedTable} {name : String} {p : PreparedPalette}
    (hp : t.get? name = some p) (depth : Nat) (ancestor : Bool) :
    t.bodyWithin (depth + 1) name ancestor =
      p.parents.flatMap (fun q => .inherit q :: t.bodyWithin depth q true) ++
        p.events ancestor := by
  rw [bodyWithin, hp]

end PreparedTable

variable {w : Setting} {lineage parents names : List String} {name : String} {es : List Event}
  {v : Verdict}

/-- A trace that ends well is made of bodies. Every palette adds a name to the
lineage, so that the depth that is left is never used up. -/
theorem Trace.eq_bodies (h : Trace w lineage parents es v) (hv : v = .ok ())
    (hdetect : w.detectCycles = true) (hdistinct : w.prepared.Distinct lineage) {depth : Nat}
    (hdepth : w.prepared.size ≤ lineage.length + depth) :
    es = parents.flatMap fun q => .inherit q :: w.prepared.bodyWithin depth q true := by
  induction h generalizing depth with
  | done => rfl
  | undefined => cases hv
  | cyclic => cases hv
  | stopped => cases hv
  | @told lineage parents q p above rest v hp hc _ _ ihAbove ihRest =>
    have hnew : q ∉ lineage := fun hmem => hc ⟨hdetect, hmem⟩
    have hq : q ∈ w.prepared.names := (w.prepared.mem_names_iff q).mpr ⟨p, hp⟩
    have hdistinct' := hdistinct.append hq hnew
    have hlength := hdistinct'.length_le
    rw [List.length_append, List.length_singleton] at hlength
    cases depth with
    | zero => omega
    | succ depth =>
      have hdepth' : w.prepared.size ≤ (lineage ++ [q]).length + depth := by
        rw [List.length_append, List.length_singleton]
        omega
      rw [List.flatMap_cons, PreparedTable.bodyWithin_succ hp,
        ← ihAbove rfl hdistinct' hdepth', ← ihRest hv hdistinct hdepth]
      rfl

theorem PaletteTrace.eq_body (h : PaletteTrace w name es (.ok ()))
    (hdetect : w.detectCycles = true) :
    es = .call (.start w.table name) :: w.prepared.body name false := by
  cases h with
  | @told p above hp habove =>
    have hname : name ∈ w.prepared.names := (w.prepared.mem_names_iff name).mpr ⟨p, hp⟩
    obtain ⟨depth, hdepth⟩ :=
      Nat.exists_eq_succ_of_ne_zero (Nat.ne_zero_of_lt (PreparedTable.size_pos hname))
    rw [PreparedTable.body, hdepth, PreparedTable.bodyWithin_succ hp,
      ← habove.eq_bodies rfl hdetect (.singleton hname)
        (by rw [hdepth, List.length_singleton]; omega)]

theorem PalettesTrace.eq_bodies (h : PalettesTrace w names es v) (hv : v = .ok ())
    (hdetect : w.detectCycles = true) :
    es = names.flatMap fun name =>
      .call (.start w.table name) :: w.prepared.body name false := by
  induction h with
  | done => rfl
  | stopped => cases hv
  | told hname _ ih => rw [List.flatMap_cons, ← hname.eq_body hdetect, ← ih hv]

namespace PreparedTable

variable {t : PreparedTable}

/-- The body of a grounded palette is made of the bodies of its parents, and
what the depth has to be does not show. -/
theorem body_eq (hg : t.Grounded name) {p : PreparedPalette} (hp : t.get? name = some p)
    (ancestor : Bool) :
    t.body name ancestor =
      p.parents.flatMap (fun q => .inherit q :: t.body q true) ++ p.events ancestor := by
  obtain ⟨es, hes, -⟩ := Telling.palette_of_grounded (w := ⟨"", t, true⟩) Recorder.follows hg
    (Nat.lt_succ_self t.size) #[]
  cases hes with
  | @told p' above hp' habove =>
    obtain rfl : p' = p := Option.some.inj (hp'.symm.trans hp)
    have hname : name ∈ t.names := (t.mem_names_iff name).mpr ⟨p', hp⟩
    have hbodies (depth : Nat) (hdepth : t.size ≤ 1 + depth) :
        above = p'.parents.flatMap fun q => .inherit q :: t.bodyWithin depth q true :=
      habove.eq_bodies rfl rfl (.singleton hname) hdepth
    obtain ⟨depth, hdepth⟩ :=
      Nat.exists_eq_succ_of_ne_zero (Nat.ne_zero_of_lt (size_pos hname))
    have hlarge := hbodies t.size (by omega)
    have hsmall := hbodies depth (by omega)
    rw [body, hdepth, bodyWithin_succ hp, ← hsmall, hlarge]
    rfl

end PreparedTable

/-! ## Parents let pass -/

/-- What a palette comes to with no parent followed. -/
def PreparedPalette.flatEvents (p : PreparedPalette) (table name : String) : List Event :=
  .call (.start table name) :: (p.parents.map .inherit ++ p.events false)

/-- What a table comes to with no parent followed. -/
def PreparedTable.flatEvents (t : PreparedTable) (table : String) : List Event :=
  t.palettes.entries.flatMap fun e => e.2.flatEvents table e.1

namespace Telling

variable (w)

theorem parents_passed (ask : String → Unit → Recorder.Recording → Answer Recorder.Recording)
    (s : Recorder.Recording) :
    Telling.parents ⟨w, Recorder.listener false⟩ ask () parents s =
      some (.ok (), (parents.map .inherit).foldl Array.push s) := by
  induction parents generalizing s with
  | nil => rfl
  | cons q parents ih => exact ih (s.push (.inherit q))

theorem palette_passed {p : PreparedPalette} (hp : w.prepared.get? name = some p) {depth : Nat}
    (hdepth : 0 < depth) (s : Recorder.Recording) :
    Telling.palette ⟨w, Recorder.listener false⟩ depth name () s =
      some (.ok (), (p.flatEvents w.table name).foldl Array.push s) := by
  obtain ⟨depth, rfl⟩ := Nat.exists_eq_succ_of_ne_zero (Nat.ne_zero_of_lt hdepth)
  rw [palette_told (t := ⟨w, Recorder.listener false⟩) hp, body, parents_passed]
  rw [PreparedPalette.flatEvents, List.foldl_cons, List.foldl_append, PreparedPalette.events,
    List.foldl_map (f := Event.call)]
  rfl

/-- Entries of the table are told one by one, whatever their parents are. -/
theorem palettes_passed {entries : List (String × PreparedPalette)}
    (hentries : ∀ e ∈ entries, w.prepared.get? e.1 = some e.2) {depth : Nat} (hdepth : 0 < depth)
    (s : Recorder.Recording) :
    Telling.palettes ⟨w, Recorder.listener false⟩ depth () (entries.map Prod.fst) s =
      some (.ok (), (entries.flatMap fun e => e.2.flatEvents w.table e.1).foldl Array.push s) := by
  induction entries generalizing s with
  | nil => rfl
  | cons e entries ih =>
    rw [List.map_cons, palettes, palette_passed w (hentries e List.mem_cons_self) hdepth,
      List.flatMap_cons, List.foldl_append]
    exact ih (fun e' he' => hentries e' (List.mem_cons_of_mem _ he')) _

theorem whole_passed {depth : Nat} (hdepth : 0 < depth) (s : Recorder.Recording) :
    Telling.whole ⟨w, Recorder.listener false⟩ depth () s =
      some (.ok (),
        (w.prepared.flatEvents w.table ++ [Event.call .finish]).foldl Array.push s) := by
  have hentries := palettes_passed w (fun _ he => Listing.get?_of_mem he) hdepth s
  rw [whole, PreparedTable.names, Listing.names, hentries, List.foldl_append,
    PreparedTable.flatEvents]
  rfl

end Telling

/-! ## The operations -/

namespace Resolver

variable (r : Resolver) (source : Source) (table : String)

theorem resolvePalette?_records {palette : String}
    (hg : (r.tableFor source table).Grounded palette) :
    ∃ o, r.resolvePalette? source table palette (Recorder.listener true) () #[] = some o ∧
      o.result = .ok () ∧
      o.state.toList =
        .call (.start table palette) :: (r.tableFor source table).body palette false := by
  obtain ⟨o, es, ho, hok, hes, hstate⟩ :=
    resolvePalette?_of_grounded Recorder.follows r hg #[]
  refine ⟨o, ho, hok, ?_⟩
  rw [hstate, hes.eq_body rfl]
  simp [Setting.detected, setting]

theorem resolve?_records {o : Outcome Recorder.Recording Bool}
    (h : r.resolve? source table (Recorder.listener true) () #[] = some o)
    (hok : o.result = .ok true) :
    ∃ defs, source table = some defs ∧
      o.state.toList = ((PreparedTable.ofDefs defs).names.flatMap fun name =>
        .call (.start table name) :: (PreparedTable.ofDefs defs).body name false) ++
          [.call .finish] := by
  cases hdefs : source table with
  | none =>
    rw [resolve?_none r _ _ _ hdefs] at h
    cases h
    cases hok
  | some defs =>
    have hg := (resolve?_ok_iff Recorder.follows r hdefs h).mp hok
    obtain ⟨o', es, ho', -, hes, hstate⟩ := resolve?_of_grounded Recorder.follows r hdefs hg #[]
    obtain rfl := Option.some.inj (h.symm.trans ho')
    refine ⟨defs, rfl, ?_⟩
    rw [hstate, hes.eq_bodies rfl rfl]
    simp [Setting.detected, setting]

/-- Whatever the parents of its palettes are, a table is recorded if none of
them is followed. -/
theorem resolve?_passed {defs : PaletteDefs} (hdefs : source table = some defs) :
    ∃ o, r.resolve? source table (Recorder.listener false) () #[] = some o ∧
      o.result = .ok true ∧
      o.state.toList = (PreparedTable.ofDefs defs).flatEvents table ++ [.call .finish] := by
  have htold := Telling.whole_passed (r.setting table (.ofDefs defs))
    (Nat.zero_lt_of_lt (r.options.lt_depth (PreparedTable.ofDefs defs).size)) #[]
  obtain ⟨o, ho, hok, hstate⟩ := resolve?_of_told hdefs htold
  refine ⟨o, ho, hok, ?_⟩
  rw [hstate]
  simp [setting]

/-- Recordings spell the inheritance out: a palette that resolves is recorded as
its body and a table as those of its palettes. With no parent followed, any
table is recorded as it is written. -/
theorem recordings_are_bodies :
    (∀ t : PreparedTable, ∀ name p ancestor, t.Grounded name → t.get? name = some p →
      t.body name ancestor =
        p.parents.flatMap (fun q => .inherit q :: t.body q true) ++
          p.legends.entries.flatMap fun e =>
            .call (.legend (Announcement.ofEntry e.1 e.2 ancestor).event) ::
              (Announcement.ofEntry e.1 e.2 ancestor).fields.map fun f => .call (.field f)) ∧
    (∀ palette, (r.tableFor source table).Grounded palette →
      ∃ o, r.resolvePalette? source table palette (Recorder.listener true) () #[] = some o ∧
        o.result = .ok () ∧
        o.state.toList =
          .call (.start table palette) :: (r.tableFor source table).body palette false) ∧
    (∀ o, r.resolve? source table (Recorder.listener true) () #[] = some o →
      o.result = .ok true →
      ∃ defs, source table = some defs ∧
        o.state.toList = ((PreparedTable.ofDefs defs).names.flatMap fun name =>
          .call (.start table name) :: (PreparedTable.ofDefs defs).body name false) ++
            [.call .finish]) ∧
    ∀ defs, source table = some defs →
      ∃ o, r.resolve? source table (Recorder.listener false) () #[] = some o ∧
        o.result = .ok true ∧
        o.state.toList = ((PreparedTable.ofDefs defs).palettes.entries.flatMap fun e =>
          .call (.start table e.1) :: (e.2.parents.map .inherit ++ e.2.events false)) ++
            [.call .finish] := by
  refine ⟨?_, ?_, ?_, ?_⟩
  · intro t name p ancestor hg hp
    rw [PreparedTable.body_eq hg hp, PreparedPalette.events_eq]
  · exact fun palette hg => resolvePalette?_records r source table hg
  · exact fun o ho hok => resolve?_records r source table ho hok
  · exact fun defs hdefs => resolve?_passed r source table hdefs

/-- What is recorded of one side of a diamond, of the diamond, and of a table
with a cycle none of whose parents is followed. -/
theorem diamond_recorded :
    (∃ o, ({} : Resolver).resolvePalette? (fun _ => some PreparedTable.diamond) "shop" "left"
        (Recorder.listener true) () #[] = some o ∧
      o.state.toList =
        [.call (.start "shop" "left"), .inherit "root", .call (.legend ⟨"main", true, .hidden⟩),
          .call (.field (.append "main" "id")), .call (.legend ⟨"main", true, .visible⟩),
          .call (.field (.place "main" "note" .after "id"))]) ∧
    (∃ o, ({} : Resolver).resolve? (fun _ => some PreparedTable.diamond) "shop"
        (Recorder.listener true) () #[] = some o ∧
      o.state.toList.count (.inherit "root") = 5) ∧
    ∃ o, ({} : Resolver).resolve? (fun _ => some PreparedTable.knot) "shop"
        (Recorder.listener false) () #[] = some o ∧
      o.state.toList =
        [.call (.start "shop" "one"), .inherit "two", .call (.legend ⟨"main", true, .visible⟩),
          .call (.field (.append "main" "id")), .call (.start "shop" "two"), .inherit "one",
          .inherit "gone", .call (.legend ⟨"main", true, .visible⟩),
          .call (.field (.remove "main" "id")), .call .finish] := by
  obtain ⟨hbody, hpalette, htable, -⟩ :=
    recordings_are_bodies {} (fun _ => some PreparedTable.diamond) "shop"
  obtain ⟨-, -, -, hflat⟩ := recordings_are_bodies {} (fun _ => some PreparedTable.knot) "shop"
  refine ⟨?_, ?_, ?_⟩
  · have hg := PreparedTable.diamond_grounded "left" (by decide +kernel)
    obtain ⟨o, ho, -, hstate⟩ := hpalette "left" hg
    refine ⟨o, ho, hstate.trans (congrArg _ ?_)⟩
    exact (hbody _ "left" ⟨"left", ["root"], .ofList [("+main", ["note after id"])]⟩ false hg
      (by decide +kernel)).trans (by decide +kernel)
  · obtain ⟨o, -, ho, hok, -⟩ := @resolve?_of_grounded _ _ _ Recorder.follows {}
      (fun _ => some PreparedTable.diamond) "shop" _ rfl PreparedTable.diamond_grounded #[]
    obtain ⟨defs, hdefs, hstate⟩ := htable o ho hok
    cases hdefs
    refine ⟨o, ho, ?_⟩
    rw [hstate]
    decide +kernel
  · obtain ⟨o, ho, -, hstate⟩ := hflat PreparedTable.knot rfl
    exact ⟨o, ho, hstate.trans (by decide +kernel)⟩

end Resolver

end Palettes
