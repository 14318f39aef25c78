import Palettes.Listener

/-!
A recorder writes down every call and every parent announced to it. It either
follows each parent at once, so that the inherited events come right behind the
announcement, or it lets the parents pass.
-/
namespace Palettes.Recorder

abbrev Recording := Array Event

def listener (follow : Bool) : Listener Unit Recording where
  receive _ call events := events.push (.call call)
  inherit _ handle events :=
    let events := events.push (.inherit handle.parent)
    if follow then .resolve () events .conclude else .conclude (.ok ()) events

end Palettes.Recorder
