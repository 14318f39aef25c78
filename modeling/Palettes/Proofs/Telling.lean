import Palettes.Resolver

/-!
The walk without its bookkeeping. A telling has one prepared table and takes no
notes, and it hands the lineage down where the walk steps in and out of
palettes.
-/
namespace Palettes

/-- Receive calls one after the other. -/
def Listener.receiveAll {ι σ : Type} (l : Listener ι σ) (i : ι) (calls : List Call) (s : σ) : σ :=
  calls.foldl (fun s c => l.receive i c s) s

/-- Carry out a plan on the listeners' state alone. -/
def Plan.carryOut {ι σ : Type} (ask : ι → σ → Answer σ) : Plan ι σ → Answer σ
  | .conclude verdict state => some (verdict, state)
  | .resolve target state next =>
    match ask target state with
    | none => none
    | some (verdict, state) => (next verdict state).carryOut ask

/-- The calls that one legend entry comes to. -/
def Announcement.calls (a : Announcement) : List Call := .legend a.event :: a.fields.map .field

/-- The calls that the legends of a palette come to. -/
def PreparedPalette.calls (p : PreparedPalette) (ancestor : Bool) : List Call :=
  p.legends.entries.flatMap fun e => (Announcement.ofEntry e.1 e.2 ancestor).calls

/-- What a telling is about. -/
structure Setting where
  table : String
  prepared : PreparedTable
  detectCycles : Bool

structure Telling (ι σ : Type) extends Setting where
  listener : Listener ι σ

namespace Telling

variable {ι σ : Type} (t : Telling ι σ)

/-- Announce parents, up to the first that ends in an error. -/
def parents (ask : String → ι → σ → Answer σ) (i : ι) : List String → σ → Answer σ
  | [], s => some (.ok (), s)
  | parent :: parents', s =>
    ((t.listener.inherit i ⟨t.table, parent⟩ s).carryOut (ask parent)).andThen
      (parents ask i parents')

/-- Announce the parents of a palette and make the calls of its legends. -/
def body (ask : String → ι → σ → Answer σ) (i : ι) (ancestor : Bool) (p : PreparedPalette)
    (s : σ) : Answer σ :=
  (t.parents ask i p.parents s).andThen fun s =>
    some (.ok (), t.listener.receiveAll i (p.calls ancestor) s)

/-- Tell a parent of the palette that stands last on the lineage. -/
def ancestor : Nat → List String → String → ι → σ → Answer σ
  | 0, _, _, _, _ => none
  | depth + 1, lineage, name, i, s =>
    match t.prepared.get? name with
    | none => some (.error (.undefinedPalette t.table name), s)
    | some p =>
      if t.detectCycles && lineage.contains name then
        some (.error (.cyclicInheritance (lineage ++ [name])), s)
      else t.body (ancestor depth (lineage ++ [name])) i true p s

/-- Tell a palette in its own right. -/
def palette : Nat → String → ι → σ → Answer σ
  | 0, _, _, _ => none
  | depth + 1, name, i, s =>
    match t.prepared.get? name with
    | none => some (.error (.undefinedPalette t.table name), s)
    | some p =>
      t.body (ancestor t depth [name]) i false p (t.listener.receive i (.start t.table name) s)

/-- Tell palettes in their own right, up to the first that ends in an error. -/
def palettes (depth : Nat) (i : ι) : List String → σ → Answer σ
  | [], s => some (.ok (), s)
  | name :: names, s => (t.palette depth name i s).andThen (palettes depth i names)

/-- Tell all palettes of the table, and finish. -/
def whole (depth : Nat) (i : ι) (s : σ) : Answer σ :=
  (t.palettes depth i t.prepared.names s).andThen fun s =>
    some (.ok (), t.listener.receive i .finish s)

variable {t} {depth : Nat} {lineage : List String} {name : String} {p : PreparedPalette}

/-- A body fails where a parent does. -/
theorem body_eq_error_iff {ask : String → ι → σ → Answer σ} {i : ι} {ancestor : Bool} {s s' : σ}
    {e : ResolveError} :
    t.body ask i ancestor p s = some (.error e, s') ↔
      t.parents ask i p.parents s = some (.error e, s') := by
  simp [body, Answer.andThen_eq_some_iff]

/-- Otherwise the legends come after the parents. -/
theorem body_eq_ok_iff {ask : String → ι → σ → Answer σ} {i : ι} {ancestor : Bool} {s s' : σ} :
    t.body ask i ancestor p s = some (.ok (), s') ↔
      ∃ s₁, t.parents ask i p.parents s = some (.ok (), s₁) ∧
        t.listener.receiveAll i (p.calls ancestor) s₁ = s' := by
  simp [body, Answer.andThen_eq_some_iff]

theorem ancestor_undefined (h : t.prepared.get? name = none) (i : ι) (s : σ) :
    t.ancestor (depth + 1) lineage name i s =
      some (.error (.undefinedPalette t.table name), s) := by
  simp [ancestor, h]

theorem ancestor_cyclic (h : t.prepared.get? name = some p) (hd : t.detectCycles = true)
    (hc : name ∈ lineage) (i : ι) (s : σ) :
    t.ancestor (depth + 1) lineage name i s =
      some (.error (.cyclicInheritance (lineage ++ [name])), s) := by
  simp [ancestor, h, hd, hc]

theorem ancestor_told (h : t.prepared.get? name = some p)
    (hc : ¬ (t.detectCycles = true ∧ name ∈ lineage)) (i : ι) (s : σ) :
    t.ancestor (depth + 1) lineage name i s =
      t.body (t.ancestor depth (lineage ++ [name])) i true p s := by
  simp [ancestor, h, hc]

theorem palette_undefined (h : t.prepared.get? name = none) (i : ι) (s : σ) :
    t.palette (depth + 1) name i s = some (.error (.undefinedPalette t.table name), s) := by
  simp [palette, h]

theorem palette_told (h : t.prepared.get? name = some p) (i : ι) (s : σ) :
    t.palette (depth + 1) name i s =
      t.body (t.ancestor depth [name]) i false p
        (t.listener.receive i (.start t.table name) s) := by
  simp [palette, h]

end Telling

end Palettes
