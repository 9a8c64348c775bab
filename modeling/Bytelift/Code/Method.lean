import Bytelift.Code.ConstantPool
import Bytelift.Code.Descriptor
import Bytelift.Code.Instruction

/-!
# Methods

A method is its name and descriptor, its code, its constant pool and its exception table. A row of the
table covers a half-open range of bcis. It catches one class of exceptions, catches all of them, or
marks cleanup code, which runs whenever control leaves the range and ends in `endfinally`.
-/

namespace Bytelift

/-- One row of an exception table. -/
structure ExceptionEntry where
  start : Int
  stop : Int
  handler : Int
  /-- The class that the row catches; empty if it catches any exception. -/
  catchType : Text := []
  /-- Whether the handler is cleanup code. -/
  isCleanup : Bool := false
  deriving DecidableEq, Repr

namespace ExceptionEntry

/-- Whether a bci lies in the range of the row. -/
def covers (e : ExceptionEntry) (bci : Int) : Bool := e.start ≤ bci && bci < e.stop

def catchesAny (e : ExceptionEntry) : Bool := e.catchType.isEmpty

def text (e : ExceptionEntry) : Text :=
  let what : Text :=
    if e.isCleanup then "finally" else if e.catchesAny then "any" else e.catchType
  "[" ++ Text.ofInt e.start ++ "," ++ Text.ofInt e.stop ++ ") -> " ++ Text.ofInt e.handler ++
    " " ++ what

end ExceptionEntry

/-- A method as it is handed to the lifter. -/
structure Method where
  owner : Text
  name : Text
  desc : Text
  isStatic : Bool := false
  maxLocals : Int := 0
  maxStack : Int := 0
  code : List UInt8 := []
  exceptions : List ExceptionEntry := []
  pool : ConstantPool := {}
  deriving DecidableEq, Repr

/-- The symbol under which call sites name the method. -/
def Method.key (m : Method) : Text := methodKey m.owner m.name m.desc

/-- The code of a method does not decode. -/
structure CodeError where
  method : Text
  cause : DecodeError
  deriving DecidableEq, Repr

def CodeError.message (e : CodeError) : Text := "method " ++ e.method ++ ": " ++ e.cause.message

def Method.instructions (m : Method) : Except CodeError (List Instruction) :=
  match Code.decode m.code with
  | .error e => .error ⟨m.key, e⟩
  | .ok is => .ok is

/-- The classes and methods of one source. -/
structure Program where
  classes : List ClassRef := []
  methods : List Method := []
  deriving DecidableEq, Repr

def Program.method? (p : Program) (key : Text) : Option Method :=
  p.methods.find? fun m => m.key == key

end Bytelift
