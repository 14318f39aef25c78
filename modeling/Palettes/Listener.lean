import Palettes.Directive
import Palettes.Note

/-!
A walk over a table speaks to listeners. Listeners are named by `ι` and share
the state `σ`. At a parent the listener spoken to answers with a plan: it may
ask for the parent's content any finite number of times, for itself or for
another listener, and in the end it accepts or reports an error.
-/
namespace Palettes

/-- Why a walk stops. -/
inductive ResolveError where
  /-- A palette is asked for that the table does not define. -/
  | undefinedPalette (table palette : String)
  /-- A palette is met again on its own lineage; the chain ends with the name met again. -/
  | cyclicInheritance (chain : List String)
  deriving DecidableEq, Repr

namespace ResolveError

def message : ResolveError → String
  | .undefinedPalette table palette =>
    "meta palette definition of palette '" ++ palette ++ "' does not exist in table '" ++
      table ++ "'"
  | .cyclicInheritance chain =>
    "cyclic palette inheritance: " ++ String.intercalate " -> " chain

end ResolveError

abbrev Verdict := Except ResolveError Unit

/-- What a listener is told. -/
inductive Call where
  | start (table palette : String)
  | legend (event : LegendEvent)
  | field (event : FieldEvent)
  | finish
  deriving DecidableEq, Repr

/-- What a listener can note down: the calls, and the parents announced to it. -/
inductive Event where
  | call (call : Call)
  | inherit (parent : String)
  deriving DecidableEq, Repr

/-- The one parent that a plan may ask for. -/
structure Handle where
  table : String
  parent : String
  deriving DecidableEq, Repr

/-- A listener's conduct at a parent: come to a verdict, or have the parent's
content told to `target` and go on with what came of it. -/
inductive Plan (ι σ : Type) where
  | conclude (verdict : Verdict) (state : σ)
  | resolve (target : ι) (state : σ) (next : Verdict → σ → Plan ι σ)

structure Listener (ι σ : Type) where
  receive : ι → Call → σ → σ
  /-- What the listener itself says about a call; it never touches the state. -/
  remarks : ι → Call → σ → List Note := fun _ _ _ => []
  inherit : ι → Handle → σ → Plan ι σ

end Palettes
