import Bytelift.Bailout

/-!
# Handler tables

The exception table of a method as a function of the bci. Rows may overlap in any way. A lookup gives
them in table order, which is the order in which handlers are tried.
-/

namespace Bytelift

abbrev HandlerTable := List ExceptionEntry

namespace HandlerTable

/-- The rows that cover a bci, in table order. -/
def covering (t : HandlerTable) (bci : Int) : List ExceptionEntry := t.filter (·.covers bci)

/-- The positions of the rows that cover a bci, in table order. -/
def coveringIndices (t : HandlerTable) (bci : Int) : List Nat :=
  (t.zipIdx.filter fun (e, _) => e.covers bci).map (·.2)

def isProtected (t : HandlerTable) (bci : Int) : Bool := t.any (·.covers bci)

/-- The fault of one row, if there is one. `isStart` tells instruction boundaries. -/
def entryFault? (codeLength : Nat) (isStart : Int → Bool) (e : ExceptionEntry) (i : Nat) :
    Option Bailout :=
  if e.stop ≤ e.start then some { bci := e.start, reason := .emptyRange i e.start e.stop }
  else if !isStart e.start then some { bci := e.start, reason := .entryStart i }
  else if e.stop ≠ codeLength ∧ !isStart e.stop then some { bci := e.stop, reason := .entryStop i }
  else if !isStart e.handler then some { bci := e.handler, reason := .entryHandler i }
  else if e.isCleanup ∧ e.catchType ≠ [] then some { bci := e.handler, reason := .entryBoth i }
  else none

def fault? (t : HandlerTable) (codeLength : Nat) (isStart : Int → Bool) : Option Bailout :=
  t.zipIdx.findSome? fun (e, i) => entryFault? codeLength isStart e i

end HandlerTable
end Bytelift
