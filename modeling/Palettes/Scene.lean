import Palettes.Answer
import Palettes.Cache

/-!
What a walk works on and leaves changed. Besides the listeners' state it is the
resolver, whose tables may be prepared on the way, and the lineage: the
palettes that are being told, outermost first.
-/
namespace Palettes

structure Scene (σ : Type) where
  /-- The state of the listeners. -/
  state : σ
  resolver : Resolver := {}
  lineage : List String := []
  /-- The tables that the source was asked for. -/
  lookups : List String := []
  /-- Everything said so far. -/
  log : Array Note := #[]

namespace Scene

variable {ι σ : Type}

def say (s : Scene σ) (n : Note) : Scene σ := { s with log := s.log.push n }

def tell (s : Scene σ) (l : Listener ι σ) (i : ι) (c : Call) : Scene σ :=
  { s with
    state := l.receive i c s.state
    log := s.log ++ l.remarks i c s.state }

/-- Step into a palette. -/
def enter (s : Scene σ) (name : String) : Scene σ := { s with lineage := s.lineage ++ [name] }

/-- Step out of the palette entered last. -/
def leave (s : Scene σ) : Scene σ := { s with lineage := s.lineage.dropLast }

/-- The table as the resolver keeps it, or else prepared now. A table that the
source does not define counts as empty. -/
def prepared (s : Scene σ) (source : Source) (table : String) : PreparedTable × Scene σ :=
  match s.resolver.prepared? table with
  | some t => (t, s)
  | none =>
    let ((t, resolver, notes), lookups) := s.resolver.prepareWatched source table s.lookups
    (t.getD .empty, { s with resolver, lookups, log := s.log ++ notes })

end Scene

/-- Carry out a plan, where `ask` tells the parent's content to a listener.
There is no answer if one of the questions has none. -/
def Plan.run {ι σ : Type} (ask : ι → Scene σ → Answer (Scene σ)) :
    Plan ι σ → Scene σ → Answer (Scene σ)
  | .conclude verdict state, scene => some (verdict, { scene with state })
  | .resolve target state next, scene =>
    match ask target { scene with state } with
    | none => none
    | some (verdict, scene) => (next verdict scene.state).run ask scene

end Palettes
