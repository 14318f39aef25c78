import Palettes.Scene
import Palettes.Token

/-!
The walk over a table. A palette is told to a listener as its parents, each
left to the listener's plan, and then its own legends with their fields. It is
entered on the lineage before that and left again however it ends. Only a
palette told in its own right is started; an ancestor is told within it.

The walk nests at most `depth` palettes and has no answer beyond. While cycles
are detected every name on a lineage is declared and differs from the others,
so that one more than the size of the table is depth enough.
-/
namespace Palettes

structure Walk (ι σ : Type) where
  listener : Listener ι σ
  source : Source
  table : String

namespace Walk

variable {ι σ : Type} (w : Walk ι σ)

/-- Tell the legend entries of a palette, each with its fields. -/
def tellLegends (i : ι) (ancestor : Bool) (entries : List (String × List String))
    (scene : Scene σ) : Scene σ :=
  entries.foldl (fun s e =>
    let a := Announcement.ofEntry e.1 e.2 ancestor
    let s := a.dropped.foldl (fun s t => s.say (.dropped t a.event.legend)) s
    a.fields.foldl (fun s f => s.tell w.listener i (.field f))
      (s.tell w.listener i (.legend a.event))) scene

/-- Announce parents one after the other, up to the first that ends in an error. -/
def tellParents (ask : String → ι → Scene σ → Answer (Scene σ)) (i : ι) :
    List String → Scene σ → Answer (Scene σ)
  | [], scene => some (.ok (), scene)
  | parent :: parents, scene =>
    ((w.listener.inherit i ⟨w.table, parent⟩ scene.state).run (ask parent) scene).andThen
      (tellParents ask i parents)

/-- Tell the parents of a palette and then its own legends. -/
def tellBody (ask : String → ι → Scene σ → Answer (Scene σ)) (i : ι) (ancestor : Bool)
    (palette : PreparedPalette) (scene : Scene σ) : Answer (Scene σ) :=
  (w.tellParents ask i palette.parents scene).andThen fun scene =>
    some (.ok (), w.tellLegends i ancestor palette.legends.entries scene)

/-- Note that a palette is told. One told in its own right is started. -/
def announce (i : ι) (ancestor : Bool) (name : String) (scene : Scene σ) : Scene σ :=
  if ancestor then scene.say (.ancestor name scene.lineage)
  else (scene.say (.resolving name w.table)).tell w.listener i (.start w.table name)

/-- Tell the palette `name` of a table that is prepared, unless it is told already. -/
def meet (ask : String → ι → Scene σ → Answer (Scene σ)) (t : PreparedTable) (ancestor : Bool)
    (name : String) (i : ι) (scene : Scene σ) : Answer (Scene σ) :=
  match t.get? name with
  | none => some (.error (.undefinedPalette w.table name), scene)
  | some palette =>
    if scene.resolver.options.detectCycles && scene.lineage.contains name then
      some (.error (.cyclicInheritance (scene.lineage ++ [name])), scene)
    else
      (w.tellBody ask i ancestor palette
        ((w.announce i ancestor name scene).enter name)).through Scene.leave

/-- Tell the palette `name` to the listener `i`. -/
def visit : Nat → Bool → String → ι → Scene σ → Answer (Scene σ)
  | 0, _, _, _, _ => none
  | depth + 1, ancestor, name, i, scene =>
    let (t, scene) := scene.prepared w.source w.table
    w.meet (visit depth true) t ancestor name i scene

/-- Tell palettes in their own right, each on a lineage of its own, up to the
first that ends in an error. -/
def visitAll (depth : Nat) (i : ι) : List String → Scene σ → Answer (Scene σ)
  | [], scene => some (.ok (), scene)
  | name :: names, scene =>
    (w.visit depth false name i { scene with lineage := [] }).andThen (visitAll depth i names)

/-- Tell the palettes of a table, and finish. -/
def tellTable (depth : Nat) (i : ι) (names : List String) (scene : Scene σ) :
    Answer (Scene σ) :=
  (w.visitAll depth i names scene).andThen fun scene =>
    some (.ok (), scene.tell w.listener i .finish)

end Walk

end Palettes
