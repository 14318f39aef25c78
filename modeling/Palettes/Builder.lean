import Palettes.Listener
import Palettes.Listing

/-!
The builder turns calls into palettes. A palette is open from its start to the
next start or to the finish; parents are followed as soon as they are
announced, so that a palette's own directives edit what it inherits. When a
palette closes, its legends without fields are left out, and it replaces a
palette of its name that was built before.
-/
namespace Palettes

structure BuiltLegend where
  name : String
  hidden : Bool := false
  fields : List String := []
  deriving DecidableEq, Repr

namespace BuiltLegend

/-- Add a field at the end unless the legend has it. -/
def append (l : BuiltLegend) (field : String) : BuiltLegend :=
  if field ∈ l.fields then l else { l with fields := l.fields ++ [field] }

def remove (l : BuiltLegend) (field : String) : BuiltLegend :=
  { l with fields := l.fields.erase field }

/-- Where a field placed at `anchor` goes among `fields`: the end stands in for
a missing anchor. -/
def placeIndex (fields : List String) (position : Position) (anchor : String) : Nat :=
  match fields.idxOf? anchor, position with
  | some i, .before => i
  | some i, .after => i + 1
  | none, _ => fields.length

/-- Put a field at its place, taking it out first if the legend has it. -/
def place (l : BuiltLegend) (field : String) (position : Position) (anchor : String) :
    BuiltLegend :=
  let rest := l.fields.erase field
  { l with fields := rest.insertIdx (placeIndex rest position anchor) field }

end BuiltLegend

structure BuiltPalette where
  name : String
  legends : List BuiltLegend := []
  deriving DecidableEq, Repr

namespace BuiltPalette

def legend? (p : BuiltPalette) (name : String) : Option BuiltLegend :=
  p.legends.find? (·.name == name)

/-- All fields, legend by legend. -/
def fields (p : BuiltPalette) : List String := p.legends.flatMap (·.fields)

/-- Change the first legend of a name; without one nothing changes. -/
def modifyLegend (name : String) (f : BuiltLegend → BuiltLegend) :
    List BuiltLegend → List BuiltLegend
  | [] => []
  | l :: ls => if l.name = name then f l :: ls else l :: modifyLegend name f ls

/-- Change the first legend of a name; without one a new legend is changed and
put at the end. -/
def alterLegend (name : String) (f : BuiltLegend → BuiltLegend) :
    List BuiltLegend → List BuiltLegend
  | [] => [f { name }]
  | l :: ls => if l.name = name then f l :: ls else l :: alterLegend name f ls

/-- Follow one directive on a field. A removal makes no legend. -/
def apply (p : BuiltPalette) : FieldEvent → BuiltPalette
  | .remove legend field => { p with legends := modifyLegend legend (·.remove field) p.legends }
  | .append legend field => { p with legends := alterLegend legend (·.append field) p.legends }
  | .place legend field position anchor =>
    { p with legends := alterLegend legend (·.place field position anchor) p.legends }

def declare (p : BuiltPalette) (e : LegendEvent) : BuiltPalette :=
  { p with legends :=
      alterLegend e.legend (fun l => { l with hidden := e.hide.apply l.hidden }) p.legends }

/-- The palette without its empty legends. -/
def trim (p : BuiltPalette) : BuiltPalette :=
  { p with legends := p.legends.filter (!·.fields.isEmpty) }

end BuiltPalette

structure Builder where
  completed : Listing BuiltPalette := .empty
  current : Option BuiltPalette := none

namespace Builder

def close (b : Builder) : Builder :=
  match b.current with
  | none => b
  | some p => { completed := b.completed.insert p.name p.trim, current := none }

/-- All palettes, the open one closed. -/
def palettes (b : Builder) : Listing BuiltPalette := b.close.completed

def receive (b : Builder) : Call → Builder
  | .start _ palette => { b.close with current := some { name := palette } }
  | .legend e => { b with current := b.current.map (·.declare e) }
  | .field e => { b with current := b.current.map (·.apply e) }
  | .finish => b.close

/-- What closing says. -/
def closing (b : Builder) : List Note :=
  match b.current with
  | none => []
  | some p => [.built p.name p.trim.legends.length]

/-- What a call meets when no palette is open. -/
def stray : Call → Option Stray
  | .legend _ => some .legend
  | .field (.remove _ _) => some .removal
  | .field _ => some .field
  | .start _ _ | .finish => none

def remarks (b : Builder) (call : Call) : List Note :=
  match stray call with
  | none => b.closing
  | some what => if b.current.isSome then [] else [.ignored what]

def listener : Listener Unit Builder where
  receive _ call b := b.receive call
  remarks _ call b := b.remarks call
  inherit _ _ b := .resolve () b .conclude

end Builder

end Palettes
