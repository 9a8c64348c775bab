import Bytelift.Number.Decimal

/-!
# The constant pool

Resolved constants and the references that they hold. A pool is addressed from one; index zero and
indices beyond the end name nothing, and neither does an entry without a valid tag. A method without a
pool behaves as one with an empty pool.
-/

namespace Bytelift

/-- One instance field of a class layout. -/
structure FieldInfo where
  owner : Text
  name : Text
  desc : Text
  deriving DecidableEq, Repr

/-- A resolved class. The layout lists every instance field, inherited ones first. -/
structure ClassRef where
  name : Text
  super : Text := []
  interfaces : List Text := []
  fields : List FieldInfo := []
  deriving DecidableEq, Repr

structure MethodRef where
  owner : Text
  name : Text
  desc : Text
  isInterface : Bool
  deriving DecidableEq, Repr

structure FieldRef where
  owner : Text
  name : Text
  desc : Text
  deriving DecidableEq, Repr

def fieldKey (owner name : Text) : Text := owner ++ "." ++ name

def methodKey (owner name desc : Text) : Text := owner ++ "." ++ name ++ ":" ++ desc

def FieldInfo.key (f : FieldInfo) : Text := fieldKey f.owner f.name
def FieldRef.key (f : FieldRef) : Text := fieldKey f.owner f.name
def MethodRef.key (m : MethodRef) : Text := methodKey m.owner m.name m.desc

/-- The part of a method's symbol that does not depend on its owner. -/
def MethodRef.selector (m : MethodRef) : Text := m.name ++ ":" ++ m.desc

inductive Constant
  | invalid
  | int (value : Int64)
  | long (value : Int64)
  | float (value : Double)
  | double (value : Double)
  | string (value : Text)
  | cls (ref : ClassRef)
  | method (ref : MethodRef)
  | field (ref : FieldRef)
  deriving DecidableEq, Repr

namespace Constant

def tag : Constant → Nat
  | .invalid => 0
  | .int _ => 1
  | .long _ => 2
  | .float _ => 3
  | .double _ => 4
  | .string _ => 5
  | .cls _ => 6
  | .method _ => 7
  | .field _ => 8

def render : Constant → Text
  | .invalid => "<invalid>"
  | .int v | .long v => Text.ofInt v.toInt
  | .float v | .double v => Number.floatText v
  | .string t => t.quote
  | .cls c => c.name
  | .method m => m.key
  | .field f => f.key

end Constant

inductive PoolError
  | absent (index : Int)
  | wrongTag (index : Int) (found wanted : Nat)
  deriving DecidableEq, Repr

def PoolError.message : PoolError → Text
  | .absent i => "index " ++ Text.ofInt i ++ ": bad constant pool index"
  | .wrongTag i found wanted =>
    "index " ++ Text.ofInt i ++ " holds tag " ++ Text.ofNat found ++ ", want " ++
      Text.ofNat wanted ++ ": bad constant pool index"

/-- A constant pool; the entry at position `i` has index `i + 1`. -/
structure ConstantPool where
  entries : Array Constant := #[]
  deriving DecidableEq, Repr

namespace ConstantPool

/-- The number of slots with the unused slot zero. -/
def size (p : ConstantPool) : Nat := p.entries.size + 1

/-- Appends a constant, whose index is the size of the pool before. -/
def push (p : ConstantPool) (c : Constant) : ConstantPool := ⟨p.entries.push c⟩

def entry (p : ConstantPool) (index : Int) : Except PoolError Constant :=
  if index ≤ 0 then .error (.absent index)
  else
    match p.entries[(index - 1).toNat]? with
    | none | some .invalid => .error (.absent index)
    | some c => .ok c

def getClass (p : ConstantPool) (index : Int) : Except PoolError ClassRef :=
  match p.entry index with
  | .error e => .error e
  | .ok (.cls c) => .ok c
  | .ok c => .error (.wrongTag index c.tag 6)

def getMethod (p : ConstantPool) (index : Int) : Except PoolError MethodRef :=
  match p.entry index with
  | .error e => .error e
  | .ok (.method m) => .ok m
  | .ok c => .error (.wrongTag index c.tag 7)

def getField (p : ConstantPool) (index : Int) : Except PoolError FieldRef :=
  match p.entry index with
  | .error e => .error e
  | .ok (.field f) => .ok f
  | .ok c => .error (.wrongTag index c.tag 8)

end ConstantPool
end Bytelift
