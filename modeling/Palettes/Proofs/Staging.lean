import Palettes.Proofs.Telling

/-!
The walk is a telling. Over a table that is kept prepared, a walk comes to the
verdict and the listeners' state of the telling, and it brings resolver,
lineage and lookups back as it found them, whatever the listeners do. So each
operation of a resolver is a telling of the table that it meets, and only the
preparation of that table, at the beginning, touches the resolver.
-/
namespace Palettes

/-- What a walk has to bring back. -/
def Scene.stage {σ : Type} (s : Scene σ) : Resolver × List String × List String :=
  (s.resolver, s.lineage, s.lookups)

/-- An answer of the walk from a scene is that of a telling, on the same stage. -/
def Tells {σ : Type} (scene : Scene σ) : Answer (Scene σ) → Answer σ → Prop
  | none, none => True
  | some (v, s), some (v', state) => v = v' ∧ s.state = state ∧ s.stage = scene.stage
  | _, _ => False

namespace Tells

variable {ι σ : Type}

theorem restage {scene scene' : Scene σ} (h : scene'.stage = scene.stage)
    {x : Answer (Scene σ)} {y : Answer σ} (hxy : Tells scene' x y) : Tells scene x y := by
  cases x <;> cases y <;> simp_all [Tells]

theorem cases {scene : Scene σ} {x : Answer (Scene σ)} {y : Answer σ} (h : Tells scene x y) :
    (x = none ∧ y = none) ∨
      ∃ v s, x = some (v, s) ∧ y = some (v, s.state) ∧ s.stage = scene.stage := by
  match x, y with
  | none, none => exact .inl ⟨rfl, rfl⟩
  | some (v, s), some (v', state) =>
    obtain ⟨rfl, rfl, hs⟩ := h
    exact .inr ⟨v, s, rfl, rfl, hs⟩

theorem map_eq {α : Type} (f : Verdict → σ → Resolver × List String × List String → α)
    {scene : Scene σ} {x : Answer (Scene σ)} {y : Answer σ} (h : Tells scene x y) :
    x.map (fun p => f p.1 p.2.state p.2.stage) = y.map (fun p => f p.1 p.2 scene.stage) := by
  obtain ⟨rfl, rfl⟩ | ⟨v, s, rfl, rfl, hs⟩ := h.cases
  · rfl
  · simp [hs]

/-- What follows matters only on the same stage. -/
theorem andThen {scene : Scene σ} {x : Answer (Scene σ)} {y : Answer σ} (h : Tells scene x y)
    {next : Scene σ → Answer (Scene σ)} {next' : σ → Answer σ}
    (hnext : ∀ s, s.stage = scene.stage → Tells scene (next s) (next' s.state)) :
    Tells scene (x.andThen next) (y.andThen next') := by
  obtain ⟨rfl, rfl⟩ | ⟨v, s, rfl, rfl, hs⟩ := h.cases
  · trivial
  · cases v with
    | error e => exact ⟨rfl, rfl, hs⟩
    | ok _ => exact hnext s hs

/-- A plan is carried out alike if its questions are answered alike. -/
theorem run {ask : ι → Scene σ → Answer (Scene σ)} {ask' : ι → σ → Answer σ} {scene : Scene σ}
    (hask : ∀ j s, s.stage = scene.stage → Tells s (ask j s) (ask' j s.state))
    (plan : Plan ι σ) (s : Scene σ) (hs : s.stage = scene.stage) :
    Tells scene (plan.run ask s) (plan.carryOut ask') := by
  induction plan generalizing s with
  | conclude verdict state => exact ⟨rfl, rfl, hs⟩
  | resolve target state next ih =>
    have h := hask target { s with state } hs
    obtain ⟨hx, hy⟩ | ⟨v, s', hx, hy, hs'⟩ := h.cases
    · simp only [Plan.run, Plan.carryOut, hx, hy, Tells]
    · simp only [Plan.run, Plan.carryOut, hx, hy]
      exact ih v s'.state s' (hs'.trans hs)

end Tells

/-- What an operation on a table is about. -/
def Resolver.setting (r : Resolver) (table : String) (t : PreparedTable) : Setting where
  table := table
  prepared := t
  detectCycles := r.options.detectCycles

namespace Scene

variable {ι σ : Type}

/-- Notes do not touch what a walk works on. -/
theorem foldl_say {α : Type} (f : α → Note) (xs : List α) (s : Scene σ) :
    (xs.foldl (fun s x => s.say (f x)) s).state = s.state ∧
      (xs.foldl (fun s x => s.say (f x)) s).stage = s.stage := by
  induction xs generalizing s with
  | nil => exact ⟨rfl, rfl⟩
  | cons x xs ih => exact ih (s.say (f x))

theorem foldl_tell (l : Listener ι σ) (i : ι) (calls : List Call) (s : Scene σ) :
    (calls.foldl (fun s c => s.tell l i c) s).state = l.receiveAll i calls s.state ∧
      (calls.foldl (fun s c => s.tell l i c) s).stage = s.stage := by
  induction calls generalizing s with
  | nil => exact ⟨rfl, rfl⟩
  | cons c calls ih => exact ih (s.tell l i c)

/-- A table that is kept is not prepared again. -/
theorem prepared_of_kept {s : Scene σ} {source : Source} {table : String} {t : PreparedTable}
    (h : s.resolver.prepared? table = some t) : s.prepared source table = (t, s) := by
  simp [prepared, h]

theorem prepared_of_undefined {s : Scene σ} {source : Source} {table : String}
    (h : s.resolver.prepared? table = none) (hdefs : source table = none) :
    s.prepared source table = (.empty, { s with lookups := s.lookups ++ [table] }) := by
  simp [prepared, h, Resolver.prepareWatched_eq, Resolver.prepare_of_undefined hdefs]

theorem prepared_of_defined {s : Scene σ} {source : Source} {table : String} {defs : PaletteDefs}
    (h : s.resolver.prepared? table = none) (hdefs : source table = some defs) :
    s.prepared source table = (.ofDefs defs,
      { s with
        resolver := s.resolver.keep table (.ofDefs defs)
        lookups := s.lookups ++ [table]
        log := s.log ++ #[.prepared (PreparedTable.ofDefs defs).size table] }) := by
  simp [prepared, h, Resolver.prepareWatched_eq, Resolver.prepare_of_defined hdefs]

end Scene

namespace Walk

variable {ι σ : Type} (w : Walk ι σ)

theorem tellLegends_eq (i : ι) (ancestor : Bool) (entries : List (String × List String))
    (s : Scene σ) :
    (w.tellLegends i ancestor entries s).state =
        w.listener.receiveAll i
          (entries.flatMap fun e => (Announcement.ofEntry e.1 e.2 ancestor).calls) s.state ∧
      (w.tellLegends i ancestor entries s).stage = s.stage := by
  induction entries generalizing s with
  | nil => exact ⟨rfl, rfl⟩
  | cons e entries ih =>
    let a := Announcement.ofEntry e.1 e.2 ancestor
    let s₁ := a.dropped.foldl (fun s t => s.say (.dropped t a.event.legend)) s
    let s₂ := a.calls.foldl (fun s c => s.tell w.listener i c) s₁
    have hstep : w.tellLegends i ancestor (e :: entries) s =
        w.tellLegends i ancestor entries s₂ := by
      simp [tellLegends, s₂, s₁, a, Announcement.calls, List.foldl_map]
    have h₁ := Scene.foldl_say (.dropped · a.event.legend) a.dropped s
    have h₂ := Scene.foldl_tell w.listener i a.calls s₁
    obtain ⟨ihState, ihStage⟩ := ih s₂
    rw [hstep, ihState, ihStage]
    constructor
    · rw [h₂.1, h₁.1]
      simp [Listener.receiveAll, a]
    · rw [h₂.2, h₁.2]

/-- The telling of a walk over a table that is kept prepared. -/
def telling (t : PreparedTable) (r : Resolver) : Telling ι σ := ⟨r.setting w.table t, w.listener⟩

variable {t : PreparedTable} {r : Resolver}

theorem tellParents_tells {ask : String → ι → Scene σ → Answer (Scene σ)}
    {ask' : String → ι → σ → Answer σ} {scene : Scene σ}
    (hask : ∀ p j s, s.stage = scene.stage → Tells s (ask p j s) (ask' p j s.state))
    (i : ι) (parents : List String) (s : Scene σ) (hs : s.stage = scene.stage) :
    Tells scene (w.tellParents ask i parents s)
      ((w.telling t r).parents ask' i parents s.state) := by
  induction parents generalizing s with
  | nil => exact ⟨rfl, rfl, hs⟩
  | cons parent parents ih =>
    have hplan := Tells.run (hask parent) (w.listener.inherit i ⟨w.table, parent⟩ s.state) s hs
    exact hplan.andThen ih

theorem tellBody_tells {ask : String → ι → Scene σ → Answer (Scene σ)}
    {ask' : String → ι → σ → Answer σ} {scene : Scene σ}
    (hask : ∀ p j s, s.stage = scene.stage → Tells s (ask p j s) (ask' p j s.state))
    (i : ι) (ancestor : Bool) (p : PreparedPalette) :
    Tells scene (w.tellBody ask i ancestor p scene)
      ((w.telling t r).body ask' i ancestor p scene.state) := by
  refine (w.tellParents_tells hask i p.parents scene rfl).andThen fun s hs => ?_
  obtain ⟨hState, hStage⟩ := w.tellLegends_eq i ancestor p.legends.entries s
  exact ⟨rfl, hState, hStage.trans hs⟩

/-- Stepping out undoes stepping in, whatever was told in between. -/
theorem leave_tells {s : Scene σ} {name : String} {x : Answer (Scene σ)} {y : Answer σ}
    (h : Tells (s.enter name) x y) : Tells s (x.through Scene.leave) y := by
  obtain ⟨rfl, rfl⟩ | ⟨v, s', rfl, rfl, hs⟩ := h.cases
  · trivial
  · obtain ⟨hr, hl, hk⟩ : s'.resolver = s.resolver ∧ s'.lineage = s.lineage ++ [name] ∧
        s'.lookups = s.lookups := by simpa [Scene.stage, Scene.enter] using hs
    exact ⟨rfl, rfl, by simp [Scene.stage, Scene.leave, hr, hl, hk]⟩

section Meet

variable {ask : String → ι → Scene σ → Answer (Scene σ)} {ancestor : Bool} {name : String}
  {p : PreparedPalette} {s : Scene σ}

theorem meet_undefined (h : t.get? name = none) (i : ι) :
    w.meet ask t ancestor name i s = some (.error (.undefinedPalette w.table name), s) := by
  simp [meet, h]

theorem meet_cyclic (h : t.get? name = some p)
    (hd : s.resolver.options.detectCycles = true) (hc : name ∈ s.lineage) (i : ι) :
    w.meet ask t ancestor name i s =
      some (.error (.cyclicInheritance (s.lineage ++ [name])), s) := by
  simp [meet, h, hd, hc]

theorem meet_told (h : t.get? name = some p)
    (hc : ¬ (s.resolver.options.detectCycles = true ∧ name ∈ s.lineage)) (i : ι) :
    w.meet ask t ancestor name i s =
      (w.tellBody ask i ancestor p ((w.announce i ancestor name s).enter name)).through
        Scene.leave := by
  simp [meet, h, hc]

end Meet

/-- A visit to a table that is kept meets it as it is. -/
theorem visit_of_kept {s : Scene σ} (hkept : s.resolver.prepared? w.table = some t) (depth : Nat)
    (ancestor : Bool) (name : String) (i : ι) :
    w.visit (depth + 1) ancestor name i s =
      w.meet (w.visit depth true) t ancestor name i s := by
  simp [visit, Scene.prepared_of_kept hkept]

/-- A walk below a palette brings everything back but the listeners' state and
the notes. The induction is on the depth. -/
theorem visit_ancestor_tells (depth : Nat) (name : String) (i : ι) (s : Scene σ)
    (hkept : s.resolver.prepared? w.table = some t) :
    Tells s (w.visit depth true name i s)
      ((w.telling t s.resolver).ancestor depth s.lineage name i s.state) := by
  induction depth generalizing name i s with
  | zero => trivial
  | succ depth ih =>
    rw [w.visit_of_kept hkept]
    cases hp : t.get? name with
    | none =>
      rw [w.meet_undefined hp, Telling.ancestor_undefined hp]
      exact ⟨rfl, rfl, rfl⟩
    | some p =>
      by_cases hc : s.resolver.options.detectCycles = true ∧ name ∈ s.lineage
      · rw [w.meet_cyclic hp hc.1 hc.2, Telling.ancestor_cyclic hp hc.1 hc.2]
        exact ⟨rfl, rfl, rfl⟩
      · rw [w.meet_told hp hc, Telling.ancestor_told hp hc]
        refine leave_tells (s := s) (w.tellBody_tells ?_ i true p)
        intro q j s' hs
        obtain ⟨hr, hl, -⟩ : s'.resolver = s.resolver ∧ s'.lineage = s.lineage ++ [name] ∧
            s'.lookups = s.lookups := by
          simpa [Scene.stage, Scene.enter, announce, Scene.say] using hs
        rw [← hr, ← hl]
        exact ih q j s' (by rw [hr]; exact hkept)

/-- A palette told in its own right is told on an empty lineage. The table has
to be kept only if there is something to tell. -/
theorem meet_palette_tells (depth : Nat) (name : String) (i : ι) (s : Scene σ)
    (hkept : ∀ p, t.get? name = some p → s.resolver.prepared? w.table = some t)
    (hl : s.lineage = []) :
    Tells s (w.meet (w.visit depth true) t false name i s)
      ((w.telling t s.resolver).palette (depth + 1) name i s.state) := by
  cases hp : t.get? name with
  | none =>
    rw [w.meet_undefined hp, Telling.palette_undefined hp]
    exact ⟨rfl, rfl, rfl⟩
  | some p =>
    rw [w.meet_told hp (by simp [hl]), Telling.palette_told hp]
    refine leave_tells (s := s) (w.tellBody_tells ?_ i false p)
    intro q j s' hs
    obtain ⟨hr, hl', -⟩ : s'.resolver = s.resolver ∧ s'.lineage = [name] ∧
        s'.lookups = s.lookups := by
      simpa [Scene.stage, Scene.enter, announce, Scene.say, Scene.tell, hl] using hs
    rw [← hr, ← hl']
    exact w.visit_ancestor_tells depth q j s' (by rw [hr]; exact hkept p hp)

theorem visit_palette_tells (depth : Nat) (name : String) (i : ι) (s : Scene σ)
    (hkept : s.resolver.prepared? w.table = some t) (hl : s.lineage = []) :
    Tells s (w.visit depth false name i s)
      ((w.telling t s.resolver).palette depth name i s.state) := by
  cases depth with
  | zero => trivial
  | succ depth =>
    rw [w.visit_of_kept hkept]
    exact w.meet_palette_tells depth name i s (fun _ _ => hkept) hl

theorem visitAll_tells (depth : Nat) (i : ι) (names : List String) (s : Scene σ)
    (hkept : s.resolver.prepared? w.table = some t) (hl : s.lineage = []) :
    Tells s (w.visitAll depth i names s)
      ((w.telling t s.resolver).palettes depth i names s.state) := by
  induction names generalizing s with
  | nil => exact ⟨rfl, rfl, rfl⟩
  | cons name names ih =>
    have hs : { s with lineage := [] } = s := by rw [← hl]
    rw [visitAll, hs]
    refine (w.visit_palette_tells depth name i s hkept hl).andThen fun s' hs' => ?_
    obtain ⟨hr, hl', -⟩ : s'.resolver = s.resolver ∧ s'.lineage = s.lineage ∧
        s'.lookups = s.lookups := by simpa [Scene.stage] using hs'
    have hrest := ih s' (by rw [hr]; exact hkept) (hl'.trans hl)
    rw [hr] at hrest
    exact hrest.restage hs'

theorem tellTable_tells (depth : Nat) (i : ι) (s : Scene σ)
    (hkept : s.resolver.prepared? w.table = some t) (hl : s.lineage = []) :
    Tells s (w.tellTable depth i t.names s)
      ((w.telling t s.resolver).whole depth i s.state) := by
  refine (w.visitAll_tells depth i t.names s hkept hl).andThen fun s' hs' => ?_
  exact ⟨rfl, rfl, hs'⟩

end Walk

/-! ## The operations of a resolver -/

/-- The table that a source defines. One that it does not define counts as empty. -/
def PreparedTable.ofSource (source : Source) (table : String) : PreparedTable :=
  match source table with
  | none => .empty
  | some defs => .ofDefs defs

namespace Resolver

variable {ι σ : Type}

/-- The table that an operation on one palette meets: as it is kept, or as it
would be prepared. -/
def tableFor (r : Resolver) (source : Source) (table : String) : PreparedTable :=
  (r.prepared? table).getD (.ofSource source table)

/-- The resolver once it keeps the table, if there is one to keep. -/
def settled (r : Resolver) (source : Source) (table : String) : Resolver :=
  if (r.prepared? table).isSome then r else (r.prepare source table).2.1

/-- What the source is asked for when the table is needed. -/
def asked (r : Resolver) (table : String) : List String :=
  if (r.prepared? table).isSome then [] else [table]

@[simp] theorem prepared?_keep (r : Resolver) (table : String) (t : PreparedTable) :
    (r.keep table t).prepared? table = some t := by
  simp [prepared?, keep, Listing.get?_insert]

/-- How deep an operation on one palette may nest. -/
def depthFor (r : Resolver) (source : Source) (table : String) : Nat :=
  r.options.depth (r.tableFor source table).size

section Settled

variable {r : Resolver} {source : Source} {table : String}

theorem settled_of_kept {t : PreparedTable} (h : r.prepared? table = some t) :
    (∀ source, r.tableFor source table = t ∧ r.settled source table = r) ∧
      r.asked table = [] := by
  simp [tableFor, settled, asked, h]

theorem settled_of_defined {defs : PaletteDefs} (h : r.prepared? table = none)
    (hdefs : source table = some defs) :
    r.tableFor source table = .ofDefs defs ∧
      r.settled source table = r.keep table (.ofDefs defs) ∧ r.asked table = [table] := by
  simp [tableFor, PreparedTable.ofSource, settled, asked, h, prepare_of_defined hdefs, hdefs]

theorem settled_of_undefined (h : r.prepared? table = none) (hdefs : source table = none) :
    r.tableFor source table = .empty ∧ r.settled source table = r ∧ r.asked table = [table] := by
  simp [tableFor, PreparedTable.ofSource, settled, asked, h, prepare_of_undefined hdefs, hdefs]

theorem settled_options : (r.settled source table).options = r.options := by
  unfold settled
  split
  · rfl
  · cases hdefs : source table with
    | none => rw [prepare_of_undefined hdefs]
    | some defs => rw [prepare_of_defined hdefs, keep]

/-- A table with a palette in it is kept once it is settled. -/
theorem prepared?_settled {name : String} {p : PreparedPalette}
    (hp : (r.tableFor source table).get? name = some p) :
    (r.settled source table).prepared? table = some (r.tableFor source table) := by
  cases hcache : r.prepared? table with
  | some t =>
    obtain ⟨htable, hsettled⟩ := (settled_of_kept hcache).1 source
    rw [htable, hsettled, hcache]
  | none =>
    cases hdefs : source table with
    | none =>
      rw [(settled_of_undefined hcache hdefs).1] at hp
      cases hp
    | some defs =>
      obtain ⟨htable, hsettled, -⟩ := settled_of_defined hcache hdefs
      rw [htable, hsettled, prepared?_keep]

end Settled

/-- To prepare a table settles it. -/
theorem prepared_settles (s : Scene σ) (source : Source) (table : String) :
    ∃ notes, s.prepared source table = (s.resolver.tableFor source table,
      { s with
        resolver := s.resolver.settled source table
        lookups := s.lookups ++ s.resolver.asked table
        log := s.log ++ notes }) := by
  cases hcache : s.resolver.prepared? table with
  | some t =>
    obtain ⟨htable, hasked⟩ := settled_of_kept hcache
    refine ⟨#[], ?_⟩
    simp [Scene.prepared_of_kept hcache, htable source, hasked]
  | none =>
    cases hdefs : source table with
    | none =>
      obtain ⟨htable, hsettled, hasked⟩ := settled_of_undefined hcache hdefs
      refine ⟨#[], ?_⟩
      simp [Scene.prepared_of_undefined hcache hdefs, htable, hsettled, hasked]
    | some defs =>
      obtain ⟨htable, hsettled, hasked⟩ := settled_of_defined hcache hdefs
      refine ⟨#[.prepared (PreparedTable.ofDefs defs).size table], ?_⟩
      simp [Scene.prepared_of_defined hcache hdefs, htable, hsettled, hasked]

/-- Resolving one palette meets the table that it prepares. -/
theorem resolvePalette?_of_prepared {r : Resolver} {source : Source} {table : String} {state : σ}
    {t : PreparedTable} {scene : Scene σ}
    (h : Scene.prepared { state, resolver := r } source table = (t, scene)) (palette : String)
    (l : Listener ι σ) (i : ι) :
    r.resolvePalette? source table palette l i state =
      (Walk.meet ⟨l, source, table⟩ (Walk.visit ⟨l, source, table⟩ (r.options.nested t.size) true)
        t false palette i scene).map
          fun p => ⟨p.1, p.2.state, p.2.resolver, p.2.lookups, p.2.log⟩ := by
  simp only [resolvePalette?, h]

/-- Resolving one palette tells it, after the table was settled. -/
theorem resolvePalette?_eq (r : Resolver) (source : Source) (table palette : String)
    (l : Listener ι σ) (i : ι) (state : σ) :
    (r.resolvePalette? source table palette l i state).map
        (fun o => (o.result, o.state, o.resolver, o.lookups)) =
      (Telling.palette ⟨r.setting table (r.tableFor source table), l⟩ (r.depthFor source table)
        palette i state).map
        fun p => (p.1, p.2, r.settled source table, r.asked table) := by
  let w : Walk ι σ := ⟨l, source, table⟩
  let t := r.tableFor source table
  obtain ⟨notes, hprepared⟩ := prepared_settles ({ state, resolver := r } : Scene σ) source table
  let s : Scene σ :=
    { state, resolver := r.settled source table, lookups := r.asked table, log := #[] ++ notes }
  have hop : (r.resolvePalette? source table palette l i state).map
        (fun o => (o.result, o.state, o.resolver, o.lookups)) =
      (w.meet (w.visit (r.options.nested t.size) true) t false palette i s).map
        fun p => (p.1, p.2.state, p.2.stage.1, p.2.stage.2.2) := by
    rw [resolvePalette?_of_prepared hprepared, Option.map_map]
    rfl
  have htold := w.meet_palette_tells (r.options.nested t.size) palette i s
    (fun _ hp => prepared?_settled hp) rfl
  rw [hop, htold.map_eq fun v st stage => (v, st, stage.1, stage.2.2), Walk.telling, setting,
    settled_options]
  rfl

/-- Resolving a table that the source does not define says so and does nothing. -/
theorem resolve?_none (r : Resolver) {source : Source} {table : String} (l : Listener ι σ) (i : ι)
    (state : σ) (h : source table = none) :
    r.resolve? source table l i state =
      some ⟨.ok false, state, r, [table], #[.noTable table]⟩ := by
  simp [resolve?, prepareWatched_eq, prepare_of_undefined h]

/-- Resolving a table tells all of it, as the source defines it now. -/
theorem resolve?_eq (r : Resolver) {source : Source} {table : String} {defs : PaletteDefs}
    (l : Listener ι σ) (i : ι) (state : σ) (h : source table = some defs) :
    (r.resolve? source table l i state).map
        (fun o => (o.result, o.state, o.resolver, o.lookups)) =
      (Telling.whole ⟨r.setting table (.ofDefs defs), l⟩
        (r.options.depth (PreparedTable.ofDefs defs).size) i state).map
        fun p => (p.1.map fun _ => true, p.2, (r.keep table (.ofDefs defs)).clear table,
          [table]) := by
  let w : Walk ι σ := ⟨l, source, table⟩
  let t := PreparedTable.ofDefs defs
  let s : Scene σ :=
    { state, resolver := r.keep table t, lookups := [table], log := #[.prepared t.size table] }
  have hop : (r.resolve? source table l i state).map
        (fun o => (o.result, o.state, o.resolver, o.lookups)) =
      (w.tellTable (r.options.depth t.size) i t.names s).map
        fun p => (p.1.map fun _ => true, p.2.state, p.2.stage.1.clear table, p.2.stage.2.2) := by
    simp only [resolve?, prepareWatched_eq, prepare_of_defined h, Option.map_map]
    rfl
  have htold := w.tellTable_tells (r.options.depth t.size) i s (r.prepared?_keep table t) rfl
  rw [hop, htold.map_eq fun v st stage =>
    (v.map fun _ => true, st, stage.1.clear table, stage.2.2)]
  rfl

/-- What shows of an operation: its result, and what the listeners made of their calls. -/
def Outcome.shown {α : Type} (o : Outcome σ α) : Except ResolveError α × σ := (o.result, o.state)

theorem resolvePalette?_shown (r : Resolver) (source : Source) (table palette : String)
    (l : Listener ι σ) (i : ι) (state : σ) :
    (r.resolvePalette? source table palette l i state).map Outcome.shown =
      Telling.palette ⟨r.setting table (r.tableFor source table), l⟩ (r.depthFor source table)
        palette i state := by
  have h := congrArg (Option.map fun o => (o.1, o.2.1))
    (r.resolvePalette?_eq source table palette l i state)
  simp only [Option.map_map, Function.comp_def, Option.map_id'] at h
  exact h

theorem resolve?_shown (r : Resolver) {source : Source} {table : String} {defs : PaletteDefs}
    (l : Listener ι σ) (i : ι) (state : σ) (hdefs : source table = some defs) :
    (r.resolve? source table l i state).map Outcome.shown =
      (Telling.whole ⟨r.setting table (.ofDefs defs), l⟩
        (r.options.depth (PreparedTable.ofDefs defs).size) i state).map
        fun p => (p.1.map fun _ => true, p.2) := by
  have h := congrArg (Option.map fun o => (o.1, o.2.1)) (r.resolve?_eq l i state hdefs)
  simp only [Option.map_map, Function.comp_def] at h
  exact h

/-- What comes of resolving one palette, read off its telling. -/
theorem resolvePalette?_told {r : Resolver} {source : Source} {table palette : String}
    {l : Listener ι σ} {i : ι} {state : σ} {o : Outcome σ Unit}
    (h : r.resolvePalette? source table palette l i state = some o) :
    Telling.palette ⟨r.setting table (r.tableFor source table), l⟩ (r.depthFor source table)
        palette i state = some (o.result, o.state) ∧
      o.resolver = r.settled source table ∧ o.lookups = r.asked table := by
  have heq := r.resolvePalette?_eq source table palette l i state
  rw [h, Option.map_some, eq_comm, Option.map_eq_some_iff] at heq
  obtain ⟨⟨v, s⟩, htold, hfields⟩ := heq
  simp only [Prod.mk.injEq] at hfields
  obtain ⟨rfl, rfl, hr, hk⟩ := hfields
  exact ⟨htold, hr.symm, hk.symm⟩

/-- Where the telling has an answer, there is an outcome. -/
theorem resolvePalette?_of_told {r : Resolver} {source : Source} {table palette : String}
    {l : Listener ι σ} {i : ι} {state : σ} {v : Verdict} {s : σ}
    (h : Telling.palette ⟨r.setting table (r.tableFor source table), l⟩ (r.depthFor source table)
      palette i state = some (v, s)) :
    ∃ o, r.resolvePalette? source table palette l i state = some o ∧ o.result = v ∧
      o.state = s := by
  have heq := r.resolvePalette?_eq source table palette l i state
  rw [h, Option.map_some, Option.map_eq_some_iff] at heq
  obtain ⟨o, ho, hfields⟩ := heq
  exact ⟨o, ho, congrArg (·.1) hfields, congrArg (·.2.1) hfields⟩

/-- What comes of resolving a table that the source defines, read off its telling. -/
theorem resolve?_told {r : Resolver} {source : Source} {table : String} {defs : PaletteDefs}
    {l : Listener ι σ} {i : ι} {state : σ} {o : Outcome σ Bool} (hdefs : source table = some defs)
    (h : r.resolve? source table l i state = some o) :
    ∃ v, Telling.whole ⟨r.setting table (.ofDefs defs), l⟩
        (r.options.depth (PreparedTable.ofDefs defs).size) i state = some (v, o.state) ∧
      o.result = v.map (fun _ => true) ∧
      o.resolver = (r.keep table (.ofDefs defs)).clear table ∧ o.lookups = [table] := by
  have heq := r.resolve?_eq l i state hdefs
  rw [h, Option.map_some, eq_comm, Option.map_eq_some_iff] at heq
  obtain ⟨⟨v, s⟩, htold, hfields⟩ := heq
  simp only [Prod.mk.injEq] at hfields
  obtain ⟨hv, rfl, hr, hk⟩ := hfields
  exact ⟨v, htold, hv.symm, hr.symm, hk.symm⟩

theorem resolve?_of_told {r : Resolver} {source : Source} {table : String} {defs : PaletteDefs}
    {l : Listener ι σ} {i : ι} {state : σ} {v : Verdict} {s : σ} (hdefs : source table = some defs)
    (h : Telling.whole ⟨r.setting table (.ofDefs defs), l⟩
      (r.options.depth (PreparedTable.ofDefs defs).size) i state = some (v, s)) :
    ∃ o, r.resolve? source table l i state = some o ∧ o.result = v.map (fun _ => true) ∧
      o.state = s := by
  have heq := r.resolve?_eq l i state hdefs
  rw [h, Option.map_some, Option.map_eq_some_iff] at heq
  obtain ⟨o, ho, hfields⟩ := heq
  exact ⟨o, ho, congrArg (·.1) hfields, congrArg (·.2.1) hfields⟩

end Resolver

end Palettes
