import Bytelift.Source.Line
import Bytelift.Source.Token

/-!
# Programs in text form

A source declares classes with their fields, and methods whose bodies stand between `.method` and
`.end`:

    .class Point extends java/lang/Object implements Shape
    .field x I
    .method static Test.run ()I
        .locals 2
        iconst_0
        ireturn
    .end

Reading goes line by line and collects classes and method bodies; the bodies are assembled afterwards,
when all classes are known.
-/

namespace Bytelift.Source

/-- The tokens of one line of a method body, which has at least one. -/
structure BodyLine where
  number : Nat
  head : Text
  args : List Text
  deriving DecidableEq, Repr

/-- A method as it stands in the source; the body is held backwards. -/
structure MethodText where
  line : Nat
  header : List Text
  body : List BodyLine
  deriving DecidableEq, Repr

/-- What has been read so far; classes and methods are held backwards. -/
structure Reading where
  classes : List ClassRef := []
  methods : List MethodText := []
  /-- The method whose body is being read. -/
  current : Option MethodText := none
  /-- Whether fields may follow for the last class. -/
  inClass : Bool := false
  deriving DecidableEq, Repr

/-- The class that a header declares, given what has been read of it. -/
def classHeaderFrom (c : ClassRef) : List Text → Except LineFault ClassRef
  | [] => .ok c
  | t :: ts =>
    if t = Text.ofString "extends" then
      match ts with
      | [] => .error .extendsWithoutClass
      | super :: rest => classHeaderFrom { c with super } rest
    else if t = Text.ofString "implements" then
      .ok { c with interfaces := c.interfaces ++ ts }
    else .error (.unexpectedInClass t)

def classHeader : List Text → Except LineFault ClassRef
  | [] => .error .classWithoutName
  | name :: ts => classHeaderFrom { name, super := "java/lang/Object" } ts

def addField (classes : List ClassRef) (name desc : Text) : List ClassRef :=
  match classes with
  | [] => []
  | c :: cs => { c with fields := c.fields ++ [⟨[], name, desc⟩] } :: cs

/-- Takes in a line with at least one token. -/
def readLine (r : Reading) (number : Nat) (head : Text) (args : List Text) :
    Except LineFault Reading :=
  if head = Text.ofString ".class" then
    if r.current.isSome then .error .classInMethod
    else do
      let c ← classHeader args
      return { r with classes := c :: r.classes, inClass := true }
  else if head = Text.ofString ".field" then
    match r.inClass, r.current, args with
    | true, none, [name, desc] =>
      match FieldType.parse desc with
      | .error e => .error (.descriptor e)
      | .ok _ => .ok { r with classes := addField r.classes name desc }
    | _, _, _ => .error .misplacedField
  else if head = Text.ofString ".method" then
    if r.current.isSome then .error .nestedMethod
    else .ok { r with current := some ⟨number, args, []⟩, inClass := false }
  else if head = Text.ofString ".end" then
    match r.current with
    | none => .error .endWithoutMethod
    | some m => .ok { r with methods := m :: r.methods, current := none }
  else
    match r.current with
    | none => .error (.outsideMethod head)
    | some m => .ok { r with current := some { m with body := ⟨number, head, args⟩ :: m.body } }

/-- Takes in lines, the first of which has the given number. -/
def readLines : Nat → Reading → List Text → Except SourceError Reading
  | _, r, [] => .ok r
  | n, r, l :: ls =>
    match tokenize l with
    | none => .error (.line n .unterminatedString)
    | some [] => readLines (n + 1) r ls
    | some (head :: args) =>
      match readLine r n head args with
      | .error f => .error (.line n f)
      | .ok r => readLines (n + 1) r ls

def assembleBody : Assembler → List BodyLine → Except SourceError Assembler
  | a, [] => .ok a
  | a, l :: ls =>
    match assembleLine a l.head l.args with
    | .error f => .error (.line l.number f)
    | .ok a =>
      match a.error with
      | some e => .error (.line l.number (.assembly e))
      | none => assembleBody a ls

/-- Assembles a method, given the classes of the source. -/
def assembleMethod (classes : List ClassRef) (m : MethodText) : Except SourceError Method := do
  let (isStatic, header) :=
    match m.header with
    | h :: rest => if h = Text.ofString "static" then (true, rest) else (false, h :: rest)
    | [] => (false, [])
  match header with
  | [symbol, desc] =>
    match splitMember? symbol with
    | none => throw (.line m.line (.notMember symbol))
    | some (owner, name) =>
      let start : Assembler := { owner, name, desc, isStatic }
      let a ← assembleBody (classes.foldl Assembler.declareClass start) m.body.reverse
      match a.build.2 with
      | .error e => throw (.method owner name e)
      | .ok method => return method
  | _ => throw (.line m.line .methodHeader)

/-- The layouts of the classes of a source, in order. -/
def layouts (classes : List ClassRef) : List ClassRef :=
  let start : Assembler := { owner := [], name := [], desc := "()V", isStatic := true }
  (classes.foldl (fun (a, out) c => (a.declareClass c, a.layout c :: out)) (start, [])).2.reverse

def parse (source : Text) : Except SourceError Program := do
  let input := source.lines
  let r ← readLines 1 {} input.lines
  if input.tooLong then throw .lineTooLong
  if let some m := r.current then throw (.line m.line .methodWithoutEnd)
  let classes := r.classes.reverse
  let methods ← r.methods.reverse.mapM (assembleMethod classes)
  return { classes := layouts classes, methods }

end Bytelift.Source
