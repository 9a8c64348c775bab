import Bytelift.Cache.Modules
import Bytelift.Lift.Method
import Bytelift.Machine.Classes
import Bytelift.Machine.Heap

/-!
# The environment of a run

What code can see besides its own frame: classes, methods by symbol, static fields and interned
strings. A bytecode method is lifted at its first call, and its module is kept. A method can also be
native; the natives here are a few fixed behaviours.
-/

namespace Bytelift.Machine

/-- A reference described from outside. -/
inductive RefLiteral
  | null
  | existing (r : Ref)
  | string (t : Text)
  /-- A new object of a class. -/
  | object (cls : Text)
  deriving DecidableEq, Repr

/-- A value described from outside. -/
structure Literal where
  i : Int64 := 0
  f : Double := ⟨0⟩
  sym : Text := []
  ref : RefLiteral := .null
  deriving DecidableEq, Repr

inductive Native
  | answer (v : Literal)
  | throwNew (cls : Text)
  | throwArg (index : Int)
  | fail (message : Text)
  | arg (index : Int)
  | call (target : Text)
  deriving DecidableEq, Repr

structure Env where
  settings : Settings
  cache : ModuleCache
  classes : Hierarchy := Hierarchy.builtin
  natives : List (Text × Native) := []
  methods : List (Text × Method) := []
  modules : List (Text × Ir.Module) := []
  statics : List (Text × Value) := []
  strings : List (Text × Ref) := []
  /-- How many calls can be nested. -/
  maxDepth : Int := 512
  deriving DecidableEq, Repr

namespace Env

def new (s : Settings) : Env := { settings := s, cache := ModuleCache.new s.cacheSize }

def addClass (e : Env) (c : ClassRef) : Env := { e with classes := e.classes.declare c }
def addMethod (e : Env) (m : Method) : Env := { e with methods := assign m.key m e.methods }
def addNative (e : Env) (key : Text) (n : Native) : Env :=
  { e with natives := assign key n e.natives }
def addModule (e : Env) (m : Ir.Module) : Env := { e with modules := assign m.method m e.modules }

def addProgram (e : Env) (p : Program) : Env :=
  p.methods.foldl addMethod (p.classes.foldl addClass e)

/-- Whether there is a method under a symbol. -/
def has (e : Env) (key : Text) : Bool :=
  (e.natives.lookup key).isSome || (e.modules.lookup key).isSome || (e.methods.lookup key).isSome

/-- The symbol of the method that a selector denotes for a class: that of the most derived class which
has one. -/
def resolve? (e : Env) (cls selector : Text) : Option Text :=
  ((e.classes.chain cls).find? fun c => e.has (c ++ "." ++ selector)).map fun c =>
    c ++ "." ++ selector

/-- The module of a method, from the cache or lifted anew. -/
def liftCached (e : Env) (m : Method) : Except Bailout Ir.Module × ModuleCache :=
  let key := CacheKey.ofMethod m e.settings
  match e.cache.get key with
  | (some mod, cache) => (.ok mod, cache)
  | (none, cache) =>
    match liftMethod m e.settings with
    | .error b => (.error b, cache)
    | .ok mod => (.ok mod, cache.add key mod)

/-- The module under a symbol, if there is one. -/
def module? (e : Env) (key : Text) : Except Bailout (Option Ir.Module) × Env :=
  match e.modules.lookup key, e.methods.lookup key with
  | some mod, _ => (.ok (some mod), e)
  | none, none => (.ok none, e)
  | none, some m =>
    match e.liftCached m with
    | (.error b, cache) => (.error b, { e with cache := cache })
    | (.ok mod, cache) =>
      (.ok (some mod), { e with cache := cache, modules := assign key mod e.modules })

/-- The static fields in the order of their names. -/
def sortedStatics (e : Env) : List (Text × Value) :=
  e.statics.mergeSort fun a b => Text.le a.1 b.1

end Env
end Bytelift.Machine
