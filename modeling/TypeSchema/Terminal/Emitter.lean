import TypeSchema.Terminal.Report

/-!
# Emitting reports

An emitter remembers whether it shows colours and which source its reports quote. `Emitter.run`
gives the text that each of its commands writes.
-/

namespace TypeSchema.Terminal

structure Emitter where
  colors : Bool
  source : Option Source := none

inductive Command where
  | emit (d : Diagnostic)
  | emitAll (ds : List Diagnostic)
  | summary (errors warnings : Nat)
  | setSource (source : Option Source)
  | flush

namespace Emitter

/-- The lines that a command writes. -/
def lines (e : Emitter) : Command → List Line
  | .emit d => report e.source d
  | .emitAll ds => ds.flatMap (report e.source)
  | .summary errors warnings => Terminal.summary errors warnings
  | .setSource _ | .flush => []

def next (e : Emitter) : Command → Emitter
  | .setSource source => { e with source }
  | .emit _ | .emitAll _ | .summary .. | .flush => e

/-- What each of the commands writes, one after another. -/
def run (e : Emitter) : List Command → List String
  | [] => []
  | c :: rest => textOfLines e.colors (e.lines c) :: (e.next c).run rest

end Emitter

end TypeSchema.Terminal
