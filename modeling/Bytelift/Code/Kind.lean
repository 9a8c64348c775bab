import Bytelift.Text

/-!
# Value kinds

The kinds of values that fields, parameters and array elements hold. Kinds are numbered from zero;
primitive arrays are created by tags, which are numbered differently.
-/

namespace Bytelift

/-- The kind of a field, a parameter or an array element. -/
inductive Kind
  | void
  | boolean
  | byte
  | char
  | short
  | int
  | long
  | float
  | double
  | reference
  deriving DecidableEq, Repr, Inhabited

namespace Kind

/-- The kinds in the order of their numbers. -/
def all : List Kind :=
  [.void, .boolean, .byte, .char, .short, .int, .long, .float, .double, .reference]

def code : Kind → Nat
  | .void => 0
  | .boolean => 1
  | .byte => 2
  | .char => 3
  | .short => 4
  | .int => 5
  | .long => 6
  | .float => 7
  | .double => 8
  | .reference => 9

def ofCode? (n : Nat) : Option Kind := all[n]?

def name : Kind → Text
  | .void => "void"
  | .boolean => "boolean"
  | .byte => "byte"
  | .char => "char"
  | .short => "short"
  | .int => "int"
  | .long => "long"
  | .float => "float"
  | .double => "double"
  | .reference => "reference"

/-- The name of a kind that may be missing. -/
def nameOf (k : Option Kind) : Text := (k.map name).getD "invalid"

def nameOfCode (n : Nat) : Text := nameOf (ofCode? n)

def ofName? (t : Text) : Option Kind := all.find? fun k => k.name == t

/-- Whether values of the kind take two local variables. -/
def isWide : Kind → Bool
  | .long | .double => true
  | _ => false

/-- The letter of a primitive kind in descriptors; for references the descriptor of the root class. -/
def descriptor : Kind → Text
  | .void => "V"
  | .boolean => "Z"
  | .byte => "B"
  | .char => "C"
  | .short => "S"
  | .int => "I"
  | .long => "J"
  | .float => "F"
  | .double => "D"
  | .reference => "Ljava/lang/Object;"

/-- The tag that creates arrays of a primitive kind. -/
def arrayTag? : Kind → Option Nat
  | .boolean => some 4
  | .char => some 5
  | .float => some 6
  | .double => some 7
  | .byte => some 8
  | .short => some 9
  | .int => some 10
  | .long => some 11
  | .void | .reference => none

/-- The element kind of the arrays that a tag creates. -/
def ofArrayTag? (tag : Int) : Option Kind :=
  all.find? fun k => k.arrayTag?.any fun t => (t : Int) = tag

end Kind
end Bytelift
