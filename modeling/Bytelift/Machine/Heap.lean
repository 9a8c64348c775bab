import Bytelift.Assoc
import Bytelift.Code.Kind
import Bytelift.Number.Double

/-!
# Values and objects

A value of the machine has a part for integers, a part for floating-point numbers, a reference and a
symbol; an operation reads the part that its type calls for. Objects are numbered in the order of their
creation.

An array of moderate length keeps all its elements. A longer one keeps what was written since it was
last filled, so that it takes room only for that. Both answer reads alike.
-/

namespace Bytelift.Machine

abbrev Ref := Nat

structure Value where
  i : Int64 := 0
  f : Double := ⟨0⟩
  ref : Option Ref := none
  sym : Text := []
  deriving DecidableEq, Repr, Inhabited

namespace Value

def ofInt (i : Int64) : Value := { i := i }
def ofDouble (f : Double) : Value := { f := f }
def ofRef (r : Ref) : Value := { ref := some r }
def ofBool (b : Bool) : Value := { i := if b then 1 else 0 }

/-- The low 32 bits of the integer part. -/
def int32 (v : Value) : Int32 := v.i.toInt32

/-- A value as it is stored into an array of a kind. -/
def narrow (v : Value) : Option Kind → Value
  | some .byte | some .boolean => { v with i := v.i.toInt8.toInt64 }
  | some .char => { v with i := Int64.ofNat v.i.toUInt64.toUInt16.toNat }
  | some .short => { v with i := v.i.toInt16.toInt64 }
  | _ => v

end Value

/-- The elements of an array: all of them, or those written since the last fill, the latest first,
with the value of that fill. -/
inductive Elements
  | dense (values : Array Value)
  | sparse (written : List (Int × Value)) (rest : Value)
  deriving DecidableEq, Repr

/-- An array of more elements is kept sparse. -/
def sparseThreshold : Nat := 65536

structure ArrayBody where
  elem : Option Kind
  length : Nat
  elements : Elements
  deriving DecidableEq, Repr

namespace ArrayBody

/-- An array of zeros. -/
def new (elem : Option Kind) (n : Nat) : ArrayBody :=
  ⟨elem, n, if n ≤ sparseThreshold then .dense (Array.replicate n {}) else .sparse [] {}⟩

/-- The element at an index; `none` for an index that is refused. -/
def get? (a : ArrayBody) (index : Int) : Option Value :=
  match a.elements with
  | .dense values => if 0 ≤ index then values[index.toNat]? else none
  | .sparse written rest => some ((written.lookup index).getD rest)

/-- Stores an element; `none` for an index that is refused. -/
def set? (a : ArrayBody) (index : Int) (v : Value) : Option ArrayBody :=
  match a.elements with
  | .dense values =>
    if 0 ≤ index ∧ index < values.size then
      some { a with elements := .dense (values.setIfInBounds index.toNat v) }
    else none
  | .sparse written rest => some { a with elements := .sparse ((index, v) :: written) rest }

/-- Sets all elements. -/
def fill (a : ArrayBody) (v : Value) : ArrayBody :=
  match a.elements with
  | .dense values => { a with elements := .dense (Array.replicate values.size v) }
  | .sparse _ _ => { a with elements := .sparse [] v }

end ArrayBody

structure Object where
  cls : Text
  fields : List (Text × Value) := []
  /-- The content of a string. -/
  str : Text := []
  array : Option ArrayBody := none
  deriving DecidableEq, Repr

end Bytelift.Machine
