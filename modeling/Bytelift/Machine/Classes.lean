import Bytelift.Assoc
import Bytelift.Code.ConstantPool

/-!
# The class hierarchy

Classes by name. A class inherits from its superclass and its interfaces. The root class is above every
class and array; apart from that arrays inherit from nothing.

Walks upward are bounded by the number of classes, which no walk in a hierarchy without cycles exceeds.
-/

namespace Bytelift.Machine

/-- The names of classes that the machine itself refers to. -/
def rootClass : Text := "java/lang/Object"
def stringClass : Text := "java/lang/String"
def nullPointerClass : Text := "java/lang/NullPointerException"
def arithmeticClass : Text := "java/lang/ArithmeticException"
def indexClass : Text := "java/lang/ArrayIndexOutOfBoundsException"
def negativeSizeClass : Text := "java/lang/NegativeArraySizeException"
def castClass : Text := "java/lang/ClassCastException"
def classChangeClass : Text := "java/lang/IncompatibleClassChangeError"
def abstractMethodClass : Text := "java/lang/AbstractMethodError"
def stackOverflowClass : Text := "java/lang/StackOverflowError"

/-- Declared classes by name. -/
abbrev Hierarchy := List (Text × ClassRef)

namespace Hierarchy

/-- Declares a class. A class without a superclass extends the root class. -/
def declare (h : Hierarchy) (c : ClassRef) : Hierarchy :=
  let c := if c.super.isEmpty ∧ c.name ≠ rootClass then { c with super := rootClass } else c
  assign c.name c h

/-- The classes that are always there, each with its superclass. -/
def builtin : Hierarchy :=
  let throwable : Text := "java/lang/Throwable"
  let exception : Text := "java/lang/Exception"
  let runtime : Text := "java/lang/RuntimeException"
  let error : Text := "java/lang/Error"
  let index : Text := "java/lang/IndexOutOfBoundsException"
  let vm : Text := "java/lang/VirtualMachineError"
  let pairs : List (Text × Text) :=
    [(rootClass, []), (stringClass, rootClass), (throwable, rootClass), (exception, throwable),
      (runtime, exception), (error, throwable), (nullPointerClass, runtime),
      (arithmeticClass, runtime), (index, runtime), (indexClass, index),
      (negativeSizeClass, runtime), (castClass, runtime), (classChangeClass, error),
      (abstractMethodClass, classChangeClass), (vm, error), (stackOverflowClass, vm)]
  pairs.map fun (name, super) => (name, { name := name, super := super })

def isArrayName (name : Text) : Bool := (Text.ofString "[").isPrefixOf name

/-- Whether a class is or inherits from another one, within the given number of steps. -/
def isSubclassWithin (h : Hierarchy) : Nat → Text → Text → Bool
  | 0, cls, target => cls == target || target == rootClass
  | n + 1, cls, target =>
    cls == target || target == rootClass ||
      (!isArrayName cls && !isArrayName target &&
        match h.lookup cls with
        | none => false
        | some c =>
          c.interfaces.any (fun i => isSubclassWithin h n i target) ||
            (!c.super.isEmpty && isSubclassWithin h n c.super target))

/-- Whether a class is or inherits from another one. -/
def isSubclass (h : Hierarchy) (cls target : Text) : Bool := h.isSubclassWithin h.length cls target

/-- A class and its superclasses, within the given number of steps. -/
def chainWithin (h : Hierarchy) : Nat → Text → List Text
  | 0, _ => []
  | n + 1, cls =>
    if cls.isEmpty then []
    else
      match h.lookup cls with
      | none => [cls]
      | some c => cls :: chainWithin h n c.super

/-- A class and its superclasses, the most derived first. -/
def chain (h : Hierarchy) (cls : Text) : List Text := h.chainWithin (h.length + 1) cls

end Hierarchy
end Bytelift.Machine
