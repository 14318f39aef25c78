import Palettes.Walk

/-!
The operations of a resolver. Resolving one palette prepares its table if need
be and leaves it prepared; resolving a whole table always asks the source again
and lets go of the table afterwards, however it ends.
-/
namespace Palettes.Resolver

variable {ι σ : Type}

/-- What an operation leaves behind: its result, the listeners' state, the
resolver, the tables that the source was asked for, and what was said. -/
structure Outcome (σ α : Type) where
  result : Except ResolveError α
  state : σ
  resolver : Resolver
  lookups : List String := []
  log : Array Note := #[]

/-- Resolve every palette of a table. The result is whether the source defines
the table. There is no outcome if the walk is given up. -/
def resolve? (r : Resolver) (source : Source) (table : String) (l : Listener ι σ) (i : ι)
    (state : σ) : Option (Outcome σ Bool) :=
  match r.prepareWatched source table [] with
  | ((none, resolver, _), lookups) =>
    some ⟨.ok false, state, resolver, lookups, #[.noTable table]⟩
  | ((some t, resolver, log), lookups) =>
    (Walk.tellTable ⟨l, source, table⟩ (r.options.depth t.size) i t.names
      { state, resolver, lookups, log }).map fun (verdict, scene) =>
        ⟨verdict.map fun _ => true, scene.state, scene.resolver.clear table, scene.lookups,
          scene.log⟩

/-- Resolve one palette in its own right. There is no outcome if the walk is
given up. -/
def resolvePalette? (r : Resolver) (source : Source) (table palette : String)
    (l : Listener ι σ) (i : ι) (state : σ) : Option (Outcome σ Unit) :=
  let w : Walk ι σ := ⟨l, source, table⟩
  let (t, scene) := Scene.prepared { state, resolver := r } source table
  (w.meet (w.visit (r.options.nested t.size) true) t false palette i scene).map
    fun (verdict, scene) =>
      ⟨verdict, scene.state, scene.resolver, scene.lookups, scene.log⟩

end Palettes.Resolver
