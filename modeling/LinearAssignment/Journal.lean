import LinearAssignment.Criterion
import LinearAssignment.Numeral

/-! What a run reports about itself: counters, the events of its phases, and the log that tells
them in order. -/
namespace LinearAssignment

structure Tally where
  phases : Nat := 0
  dualUpdates : Nat := 0
  columnsScanned : Nat := 0
  deriving DecidableEq, Repr, Inhabited

def Tally.add (left right : Tally) : Tally where
  phases := left.phases + right.phases
  dualUpdates := left.dualUpdates + right.dualUpdates
  columnsScanned := left.columnsScanned + right.columnsScanned

/-- What happens in the phase of a root row: its steps, and at last its match. -/
inductive Event (α : Type) where
  | dualStep (root : Nat) (step : α)
  | matched (root col visitedRows : Nat)
  deriving DecidableEq, Repr

def Event.step? : Event α → Option α
  | .dualStep _ step => some step
  | .matched .. => none

inductive Level where
  | debug
  | trace
  deriving DecidableEq, Repr

namespace Level

def name : Level → String
  | .debug => "DEBUG"
  | .trace => "TRACE"

def includes : Level → Level → Bool
  | .trace, _ => true
  | .debug, level => level == .debug

end Level

inductive Record (α : Type) where
  | started (rows cols : Nat) (sense : Sense) (transposed : Bool)
  | event (event : Event α)
  | finished (tally : Tally)
  deriving DecidableEq, Repr

def Event.text [Numeral α] : Event α → String
  | .dualStep root step => s!"phase root={root} dual step " ++ Numeral.text step
  | .matched root col visitedRows =>
    s!"phase root={root} matched column {col} after visiting {visitedRows} rows"

namespace Record

def level : Record α → Level
  | .event _ => .trace
  | _ => .debug

def text [Numeral α] : Record α → String
  | .started rows cols sense transposed =>
    s!"solving {rows}x{cols} assignment (" ++ sense.text ++ s!"), transposed={transposed}"
  | .event occurrence => occurrence.text
  | .finished tally =>
    s!"assignment solved: {tally.phases} phases, {tally.dualUpdates} dual updates, " ++
      s!"{tally.columnsScanned} columns scanned"

end Record
end LinearAssignment
