import Bytelift.Code.Opcode

/-!
# Stack shuffles

The opcodes that rearrange the operand stack are defined on words, of which a long or double takes
two. Here a stack is a list of whole values, the top first, and `wide` tells the values of two words.
-/

namespace Bytelift.Lift

/-- The stack after a shuffle; `none` if it has too few values. -/
def shuffle {α : Type} (wide : α → Bool) : StackOp → List α → Option (List α)
  | .pop, _ :: s => some s
  | .pop2, a :: s =>
    if wide a then some s
    else
      match s with
      | _ :: s => some s
      | [] => none
  | .dup, a :: s => some (a :: a :: s)
  | .dupX1, a :: b :: s => some (a :: b :: a :: s)
  | .dupX2, a :: b :: s =>
    if wide b then some (a :: b :: a :: s)
    else
      match s with
      | c :: s => some (a :: b :: c :: a :: s)
      | [] => none
  | .dup2, a :: s =>
    if wide a then some (a :: a :: s)
    else
      match s with
      | b :: s => some (a :: b :: a :: b :: s)
      | [] => none
  | .dup2X1, a :: b :: s =>
    if wide a then some (a :: b :: a :: s)
    else
      match s with
      | c :: s => some (a :: b :: c :: a :: b :: s)
      | [] => none
  | .dup2X2, a :: b :: s =>
    if wide a then
      if wide b then some (a :: b :: a :: s)
      else
        match s with
        | c :: s => some (a :: b :: c :: a :: s)
        | [] => none
    else
      match s with
      | c :: s =>
        if wide c then some (a :: b :: c :: a :: b :: s)
        else
          match s with
          | d :: s => some (a :: b :: c :: d :: a :: b :: s)
          | [] => none
      | [] => none
  | .swap, a :: b :: s => some (b :: a :: s)
  | _, _ => none

end Bytelift.Lift
