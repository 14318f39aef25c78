import Palettes.Listing

/-!
TOML documents as trees of items, and the rules by which headers and dotted
keys place items in them. A table may be given by a header only once, although
headers of its subtables may imply it before; a table made by dotted keys takes
no header, and dotted keys do not reach into a table that has one. Inline
tables and arrays are closed. Names keep the place where they first come up.
-/
namespace Palettes.Toml

inductive Fault where
  | malformed
  | redefined (key : String)
  | tooDeep
  | mistyped
  deriving DecidableEq, Repr

/-- What a table stems from: its header, the header of a subtable, or dotted keys. -/
inductive Origin where
  | header | implied | dotted
  deriving DecidableEq, Repr

inductive Item where
  | string (s : String)
  | boolean (b : Bool)
  | number
  | dateTime
  | array (items : List Item)
  | inline (members : List (String × Item))
  | table (origin : Origin) (members : List (String × Item))
  /-- An array of tables, the latest first. -/
  | tables (latest : List (String × Item)) (earlier : List (List (String × Item)))

abbrev Members := List (String × Item)

/-- Work on the members of the table that `path` leads to, starting at a table
of the origin given. Tables that are missing on the way are made with origin `made`;
an array of tables leads on to its latest table. -/
def within (made : Origin) (work : Origin → Members → Except Fault Members) :
    Origin → List String → Members → Except Fault Members
  | origin, [], ms => work origin ms
  | _, k :: path, ms =>
    match ms.lookup k with
    | none => do
      let sub ← within made work made path []
      return ms ++ [(k, .table made sub)]
    | some (.table origin sub) =>
      if made = .dotted ∧ origin = .header then throw (.redefined k)
      else do
        let sub ← within made work origin path sub
        return Listing.put k (.table origin sub) ms
    | some (.tables latest earlier) => do
      let latest ← within made work .header path latest
      return Listing.put k (.tables latest earlier) ms
    | some _ => throw (.redefined k)

/-- Put a value under a key that is new. -/
def assignNew (key : String) (v : Item) (ms : Members) : Except Fault Members :=
  match ms.lookup key with
  | none => .ok (ms ++ [(key, v)])
  | some _ => .error (.redefined key)

/-- Put a value under a dotted key, given as the names before the last and the
last. Dotted names end in a table that dotted keys have made. -/
def assign (names : List String) (key : String) (v : Item) (ms : Members) :
    Except Fault Members :=
  within .dotted (fun origin sub =>
    if names.isEmpty || origin == .dotted then assignNew key v sub
    else throw (.redefined key)) .header names ms

/-- Give a table its header. -/
def openTable (names : List String) (key : String) (ms : Members) : Except Fault Members :=
  within .implied (fun _ sub =>
    match sub.lookup key with
    | none => .ok (sub ++ [(key, .table .header [])])
    | some (.table .implied inner) => .ok (Listing.put key (.table .header inner) sub)
    | some _ => .error (.redefined key)) .header names ms

/-- Begin another table of an array of tables. -/
def openTables (names : List String) (key : String) (ms : Members) : Except Fault Members :=
  within .implied (fun _ sub =>
    match sub.lookup key with
    | none => .ok (sub ++ [(key, .tables [] [])])
    | some (.tables latest earlier) =>
      .ok (Listing.put key (.tables [] (latest :: earlier)) sub)
    | some _ => .error (.redefined key)) .header names ms

end Palettes.Toml
