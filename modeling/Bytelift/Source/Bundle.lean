import Bytelift.Source.Program
import Bytelift.Yaml.Document
import Bytelift.Yaml.Mapping

/-!
# Method bundles

A bundle describes classes and methods as a YAML document. The code of a method is written in the text
form; its exception table may also be given as a list. A bundle is rendered as a source, which is then
assembled.

Decoding is strict: unknown keys, keys given twice and values of the wrong type are refused. A null
leaves a field as it was, and as an item of a list it is left out.
-/

namespace Bytelift.Source

open Yaml (Node)

/-- A row of the exception table of a bundled method; its positions are labels. -/
structure BundleException where
  start : Text := []
  stop : Text := []
  handler : Text := []
  catchType : Text := []
  isCleanup : Bool := false
  deriving DecidableEq, Repr

structure BundleMethod where
  owner : Text := []
  name : Text := []
  desc : Text := []
  isStatic : Bool := false
  locals : Int := 0
  code : Text := []
  exceptions : List BundleException := []
  deriving DecidableEq, Repr

structure BundleField where
  name : Text := []
  desc : Text := []
  deriving DecidableEq, Repr

structure BundleClass where
  name : Text := []
  super : Text := []
  interfaces : List Text := []
  fields : List BundleField := []
  deriving DecidableEq, Repr

structure Bundle where
  classes : List BundleClass := []
  methods : List BundleMethod := []
  deriving DecidableEq, Repr

/-! ## Decoding -/

/-- The words that mean a truth value to a field that must be one. -/
def truthWords (value : Bool) : List Text :=
  if value then ["y", "Y", "yes", "Yes", "YES", "on", "On", "ON"]
  else ["n", "N", "no", "No", "NO", "off", "Off", "OFF"]

/-- The text of a scalar; `some none` for null, `none` for a collection. -/
def textOf (n : Node) : Option (Option Text) := n.text?

/-- The truth value of a scalar; `some none` for null. -/
def boolOf (n : Node) : Option (Option Bool) := do
  match ← n.value? with
  | (.null, _) => return none
  | (.bool b, _) => return some b
  | (.text, t) =>
    if (truthWords true).contains t then return some true
    else if (truthWords false).contains t then return some false
    else failure
  | _ => failure

/-- The integer part of a number as a word of 64 bits. A number above the words is refused, except for
the first one, which wraps; one below them is the least word. -/
def wordOf? (d : Double) : Option Int :=
  let limit : Int := (Nat.pow 2 63 : Nat)
  if d.isNaN then none
  else if d.negative then some (d.saturate 64)
  else if d.isInfinite || limit < d.truncate then none
  else some (if d.truncate = limit then -limit else d.truncate)

/-- The integer of a scalar; `some none` for null. -/
def intOf (n : Node) : Option (Option Int) := do
  match ← n.value? with
  | (.null, _) => return none
  | (.int i, _) => if i < (Nat.pow 2 63 : Nat) then return some i else failure
  | (.float d, _) => return some (← wordOf? d)
  | _ => failure

/-- The items of a list, decoded; null is an empty list, and null items are left out. -/
def listOf {α : Type} (item : Node → Option (Option α)) (n : Node) : Option (List α) :=
  match n.target with
  | .seq items => do
    let decoded ← items.mapM item
    return decoded.filterMap id
  | _ => do
    match ← n.text? with
    | none => return []
    | some _ => failure

/-- How the value of a key changes a record; `none` if it may not stand there. -/
abbrev Setter (α : Type) := Node → α → Option α

/-- Decodes a mapping into a record whose fields have setters; null gives nothing. -/
def recordOf {α : Type} (start : α) (fields : List (Text × Setter α)) (n : Node) :
    Option (Option α) :=
  match n.target with
  | .map _ => do
    let out ← (← n.entries?).foldlM (fun r (name, v) => do
      let set ← fields.lookup name
      set v r) start
    return some out
  | _ => do
    match ← n.text? with
    | none => return none
    | some _ => failure

/-- Sets a field unless the value is null. -/
def setField {α β : Type} (decode : Node → Option (Option β)) (put : α → β → α) : Setter α :=
  fun n r => do
    match ← decode n with
    | none => some r
    | some v => some (put r v)

/-- Sets a field that is a list. -/
def setList {α β : Type} (item : Node → Option (Option β)) (put : α → List β → α) : Setter α :=
  fun n r => do
    let vs ← listOf item n
    return put r vs

def exceptionOf : Node → Option (Option BundleException) :=
  recordOf {} [
    ("start", setField textOf fun r v => { r with start := v }),
    ("end", setField textOf fun r v => { r with stop := v }),
    ("handler", setField textOf fun r v => { r with handler := v }),
    ("catch", setField textOf fun r v => { r with catchType := v }),
    ("finally", setField boolOf fun r v => { r with isCleanup := v })]

def methodOf : Node → Option (Option BundleMethod) :=
  recordOf {} [
    ("class", setField textOf fun r v => { r with owner := v }),
    ("name", setField textOf fun r v => { r with name := v }),
    ("desc", setField textOf fun r v => { r with desc := v }),
    ("static", setField boolOf fun r v => { r with isStatic := v }),
    ("locals", setField intOf fun r v => { r with locals := v }),
    ("code", setField textOf fun r v => { r with code := v }),
    ("exceptions", setList exceptionOf fun r v => { r with exceptions := v })]

def fieldOf : Node → Option (Option BundleField) :=
  recordOf {} [
    ("name", setField textOf fun r v => { r with name := v }),
    ("desc", setField textOf fun r v => { r with desc := v })]

def classOf : Node → Option (Option BundleClass) :=
  recordOf {} [
    ("name", setField textOf fun r v => { r with name := v }),
    ("super", setField textOf fun r v => { r with super := v }),
    ("interfaces", setList textOf fun r v => { r with interfaces := v }),
    ("fields", setList fieldOf fun r v => { r with fields := v })]

def bundleOf : Node → Option (Option Bundle) :=
  recordOf {} [
    ("classes", setList classOf fun r v => { r with classes := v }),
    ("methods", setList methodOf fun r v => { r with methods := v })]

def Bundle.decode? (t : Text) : Option Bundle :=
  match Yaml.parse? t with
  | none => none
  | some root => (bundleOf root).map fun b => b.getD {}

/-! ## Rendering -/

inductive BundleError
  | undecodable
  | namelessClass
  | incompleteMethod (name : Text)
  | source (cause : SourceError)
  deriving DecidableEq, Repr

def BundleError.message : BundleError → Text
  | .undecodable => "decode method bundle"
  | .namelessClass => "class without a name"
  | .incompleteMethod name => "method " ++ name.quote ++ " needs class, name and desc"
  | .source e => e.message

def BundleClass.render (c : BundleClass) : Except BundleError Text :=
  if c.name.isEmpty then .error .namelessClass
  else
    let super : Text := if c.super.isEmpty then [] else " extends " ++ c.super
    let interfaces : Text :=
      if c.interfaces.isEmpty then [] else " implements " ++ Text.join " " c.interfaces
    let fields := c.fields.map fun f => Text.ofString ".field " ++ f.name ++ " " ++ f.desc ++ "\n"
    .ok (".class " ++ c.name ++ super ++ interfaces ++ "\n" ++ fields.flatten)

def BundleException.render (e : BundleException) : Text :=
  if e.isCleanup then ".finally " ++ e.start ++ " " ++ e.stop ++ " " ++ e.handler ++ "\n"
  else
    let what : Text := if e.catchType.isEmpty then "any" else e.catchType
    ".try " ++ e.start ++ " " ++ e.stop ++ " " ++ e.handler ++ " " ++ what ++ "\n"

def BundleMethod.render (m : BundleMethod) : Except BundleError Text :=
  if m.owner.isEmpty || m.name.isEmpty || m.desc.isEmpty then .error (.incompleteMethod m.name)
  else
    let static : Text := if m.isStatic then "static " else []
    let locals : Text := if 0 < m.locals then ".locals " ++ Text.ofInt m.locals ++ "\n" else []
    let code : Text := if List.isSuffixOf [10] m.code then m.code else m.code ++ "\n"
    .ok (".method " ++ static ++ m.owner ++ "." ++ m.name ++ " " ++ m.desc ++ "\n" ++ locals ++
      code ++ (m.exceptions.map BundleException.render).flatten ++ ".end\n")

def Bundle.render (b : Bundle) : Except BundleError Text := do
  let classes ← b.classes.mapM BundleClass.render
  let methods ← b.methods.mapM BundleMethod.render
  return classes.flatten ++ methods.flatten

def Bundle.program (b : Bundle) : Except BundleError Program := do
  let source ← b.render
  match parse source with
  | .error e => throw (.source e)
  | .ok p => return p

def parseBundle (t : Text) : Except BundleError Program :=
  match Bundle.decode? t with
  | none => .error .undecodable
  | some b => b.program

end Bytelift.Source
