import Palettes.Note
import Palettes.Prepared

/-!
A resolver keeps the tables that it has prepared. To prepare a table it asks a
source for the definitions; a table that the source does not define leaves an
earlier preparation in place. What a source is asked for is read off a source
that is watched.
-/
namespace Palettes

/-- Where definitions come from. -/
abbrev Source := String → Option PaletteDefs

/-- A source that answers as another does and writes down which tables it is asked for. -/
def Source.watched (source : Source) (table : String) :
    StateM (List String) (Option PaletteDefs) := do
  modify (· ++ [table])
  pure (source table)

structure Options where
  detectCycles : Bool := true
  /-- Where cycles are not detected, how much deeper than the table has
  palettes a walk may nest before it is given up. -/
  nesting : Nat := 10000
  deriving DecidableEq, Repr

/-- How deep the ancestors of a palette may nest in a table of `palettes` palettes. -/
def Options.nested (o : Options) (palettes : Nat) : Nat :=
  if o.detectCycles then palettes else palettes + o.nesting

/-- How deep a walk over `palettes` palettes may nest. -/
def Options.depth (o : Options) (palettes : Nat) : Nat := o.nested palettes + 1

theorem Options.lt_depth (o : Options) (palettes : Nat) : palettes < o.depth palettes := by
  unfold Options.depth Options.nested
  split <;> omega

structure Resolver where
  options : Options := {}
  cache : Listing PreparedTable := .empty

namespace Resolver

def prepared? (r : Resolver) (table : String) : Option PreparedTable := r.cache.get? table

/-- Let go of a prepared table. -/
def clear (r : Resolver) (table : String) : Resolver := { r with cache := r.cache.erase table }

/-- Keep a prepared table. -/
def keep (r : Resolver) (table : String) (t : PreparedTable) : Resolver :=
  { r with cache := r.cache.insert table t }

/-- Ask a source, in whatever monad it answers, for a table and prepare it anew. -/
def prepareFrom {m : Type → Type} [Monad m] (r : Resolver)
    (source : String → m (Option PaletteDefs)) (table : String) :
    m (Option PreparedTable × Resolver × Array Note) := do
  match ← source table with
  | none => pure (none, r, #[])
  | some defs =>
    let t := PreparedTable.ofDefs defs
    pure (some t, r.keep table t, #[.prepared t.size table])

def prepare (r : Resolver) (source : Source) (table : String) :
    Option PreparedTable × Resolver × Array Note :=
  (r.prepareFrom (fun table => (pure (source table) : Id _)) table).run

/-- Prepare a table and write down what the source is asked for. -/
def prepareWatched (r : Resolver) (source : Source) (table : String) (asked : List String) :
    (Option PreparedTable × Resolver × Array Note) × List String :=
  ((r.prepareFrom source.watched table).run asked).run

variable {r : Resolver} {source : Source} {table : String}

theorem prepare_of_undefined (h : source table = none) :
    r.prepare source table = (none, r, #[]) := by
  simp [prepare, prepareFrom, h]

theorem prepare_of_defined {defs : PaletteDefs} (h : source table = some defs) :
    r.prepare source table =
      (some (.ofDefs defs), r.keep table (.ofDefs defs),
        #[.prepared (PreparedTable.ofDefs defs).size table]) := by
  simp [prepare, prepareFrom, h]

/-- Being watched changes nothing, and the source is asked once, for this table. -/
theorem prepareWatched_eq (asked : List String) :
    r.prepareWatched source table asked = (r.prepare source table, asked ++ [table]) := by
  cases h : source table with
  | none => simp [prepareWatched, prepareFrom, Source.watched, prepare_of_undefined h, h]
  | some defs => simp [prepareWatched, prepareFrom, Source.watched, prepare_of_defined h, h]

end Resolver

end Palettes
