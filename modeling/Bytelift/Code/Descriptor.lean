import Bytelift.Code.Kind
import Bytelift.Text.Quoted

/-!
# Descriptors

A field descriptor is a letter for a primitive kind, `L` with a class name and a semicolon, or
brackets in front of the descriptor of an element that is not void. A method descriptor lists the
descriptors of the parameters in parentheses, then that of the result.

A parsed type keeps its descriptor, which is a prefix of the text it was read from. The parsers report
the first fault together with the text that they were given.
-/

namespace Bytelift

open Text (byte)

/-- Why a descriptor is refused. Each cause carries the text that was parsed. -/
inductive DescriptorError
  | truncated (desc : Text)
  | trailing (desc : Text)
  | notMethod (desc : Text)
  | voidParameter (desc : Text)
  | unterminated (desc : Text)
  | badClass (desc : Text)
  | voidArray (desc : Text)
  | unexpected (b : UInt8) (desc : Text)
  deriving DecidableEq, Repr

namespace DescriptorError

/-- The part of the message that tells the causes apart. -/
def detail : DescriptorError → Text
  | .truncated d => "truncated descriptor " ++ d.quote
  | .trailing d => "trailing data in " ++ d.quote
  | .notMethod d => "method descriptor " ++ d.quote
  | .voidParameter d => "void parameter in " ++ d.quote
  | .unterminated d => "unterminated parameters in " ++ d.quote
  | .badClass d => "class descriptor in " ++ d.quote
  | .voidArray d => "void array in " ++ d.quote
  | .unexpected b d => "unexpected " ++ Text.quoteByte b ++ " in " ++ d.quote

def message (e : DescriptorError) : Text := e.detail ++ ": bad descriptor"

end DescriptorError

/-- A parsed field descriptor. -/
structure FieldType where
  kind : Kind
  desc : Text
  deriving DecidableEq, Repr

namespace FieldType

def void : FieldType := ⟨.void, "V"⟩

/-- The class of a reference type: the name inside a class descriptor, an array descriptor itself. -/
def className (t : FieldType) : Text :=
  match t.desc with
  | 76 :: rest => if List.isSuffixOf [59] t.desc then rest.dropLast else t.desc
  | d => d

/-- How many dimensions an array type has. -/
def dims (t : FieldType) : Nat := (t.desc.takeWhile (· == byte '[')).length

def primitive? (b : UInt8) : Option Kind :=
  match Char.ofNat b.toNat with
  | 'V' => some .void
  | 'Z' => some .boolean
  | 'B' => some .byte
  | 'C' => some .char
  | 'S' => some .short
  | 'I' => some .int
  | 'J' => some .long
  | 'F' => some .float
  | 'D' => some .double
  | _ => none

/-- The type at the front of a text that does not start with a bracket; `whole` is the text to
report. -/
def parseScalar (whole : Text) : Text → Except DescriptorError FieldType
  | [] => .error (.truncated whole)
  | b :: t =>
    match primitive? b with
    | some k => .ok ⟨k, [b]⟩
    | none =>
      if b = byte 'L' then
        match Text.cutAt (byte ';') t with
        | some (c :: name, _) => .ok ⟨.reference, b :: c :: name ++ [byte ';']⟩
        | _ => .error (.badClass whole)
      else .error (.unexpected b whole)

def parseFront (whole t : Text) : Except DescriptorError FieldType :=
  match t.takeWhile (· == byte '[') with
  | [] => parseScalar whole t
  | brackets =>
    match parseScalar whole (t.dropWhile (· == byte '[')) with
    | .error e => .error e
    | .ok elem =>
      if elem.kind = .void then .error (.voidArray whole)
      else .ok ⟨.reference, brackets ++ elem.desc⟩

def parse (t : Text) : Except DescriptorError FieldType :=
  match parseFront t t with
  | .error e => .error e
  | .ok ft => if ft.desc.length = t.length then .ok ft else .error (.trailing t)

/-- The type of the elements of an array type; `none` if the type is no array. -/
def element (t : FieldType) : Option (Except DescriptorError FieldType) :=
  match t.desc with
  | 91 :: rest => some (parse rest)
  | _ => none

end FieldType

/-- A parsed method descriptor. -/
structure MethodType where
  params : List FieldType
  result : FieldType
  deriving DecidableEq, Repr

namespace MethodType

/-- How many local variables the parameters take. -/
def argSlots (t : MethodType) : Nat :=
  t.params.foldr (fun p n => (if p.kind.isWide then 2 else 1) + n) 0

/-- The parameters up to the closing parenthesis and the text behind it. The first argument counts
bytes of the parameter before that are still to be passed over. -/
def parseParams (whole : Text) : Nat → Text → List FieldType →
    Except DescriptorError (List FieldType × Text)
  | _, [], _ => .error (.unterminated whole)
  | skip + 1, _ :: t, acc => parseParams whole skip t acc
  | 0, b :: t, acc =>
    if b = byte ')' then .ok (acc.reverse, t)
    else
      match FieldType.parseFront whole (b :: t) with
      | .error e => .error e
      | .ok ft =>
        if ft.kind = .void then .error (.voidParameter whole)
        else parseParams whole (ft.desc.length - 1) t (ft :: acc)

def parse (t : Text) : Except DescriptorError MethodType :=
  match t with
  | 40 :: rest => do
    let (params, tail) ← parseParams t 0 rest []
    let result ← FieldType.parse tail
    return ⟨params, result⟩
  | _ => .error (.notMethod t)

end MethodType

/-- Splits `Owner.name` at the last dot; both parts must be there. -/
def splitMember? (t : Text) : Option (Text × Text) :=
  match t.cutAtLast (byte '.') with
  | some (c :: owner, d :: name) => some (c :: owner, d :: name)
  | _ => none

end Bytelift
