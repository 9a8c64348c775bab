import Bytelift.Number.Decimal
import Bytelift.Yaml.Node

/-!
# Values of YAML scalars

What a scalar means. A plain scalar without a tag means null, a truth value or a number if it is written
like one; any other scalar means its text. A tag says what a scalar has to mean, however it is written.
-/

namespace Bytelift.Yaml

/-- What a scalar means. -/
inductive Value
  | null
  | bool (b : Bool)
  | int (i : Int)
  | float (d : Double)
  /-- The text of the scalar itself. -/
  | text
  deriving Repr

namespace Value

/-- The words that have a meaning. -/
def words : List (List Text × Value) :=
  let infinity (negative : Bool) : Value := .float (Double.pack negative Format.double.infinity)
  [(["true", "True", "TRUE"], .bool true), (["false", "False", "FALSE"], .bool false),
    (["", "~", "null", "Null", "NULL"], .null), ([".nan", ".NaN", ".NAN"], .float .nan),
    ([".inf", ".Inf", ".INF", "+.inf", "+.Inf", "+.INF"], infinity false),
    (["-.inf", "-.Inf", "-.INF"], infinity true)]

/-- Whether a number is written as a decimal fraction. -/
def isFraction (t : Text) : Bool :=
  let body := (Number.splitSign t).2
  let whole := body.takeWhile Number.isDigit
  let rest := body.dropWhile Number.isDigit
  let (behind, rest) : Text × Text :=
    match rest with
    | 46 :: r => (r.takeWhile Number.isDigit, r.dropWhile Number.isDigit)
    | r => ([], r)
  let digits := !(whole.isEmpty && behind.isEmpty)
  let tail :=
    match rest with
    | [] => true
    | e :: r =>
      let r := (Number.splitSign r).2
      Number.lower e == Text.byte 'e' && !r.isEmpty && r.all Number.isDigit
  digits && tail

/-- A number of 64 bits in a base, with its sign in front of the digits. -/
def inBase (base : Nat) (t : Text) : Value :=
  let (negative, digits) := Number.splitSign t
  if digits.isEmpty then .text
  else
    match Number.magnitudeFrom base (Nat.pow 2 64 - 1) digits 0 >>= Number.signed 64 negative with
    | .ok i => .int i
    | .error _ => .text

/-- The value of a text that starts with a sign or a digit. Underscores in it do not count. A sign may
also stand behind a mark of base two or eight. -/
def ofNumber (written : Text) : Value :=
  let t := written.filter (· ≠ Text.byte '_')
  match Number.readInteger 64 t, Number.magnitude 64 t, Number.readFloat .double t with
  | .ok i, _, _ => .int i
  | .error _, .ok n, _ => .int n
  | .error _, .error _, fraction =>
    match isFraction t, fraction with
    | true, .ok d => .float d
    | _, _ =>
      if (Text.ofString "0b").isPrefixOf t then inBase 2 (t.drop 2)
      else if (Text.ofString "0o").isPrefixOf t then inBase 8 (t.drop 2)
      else .text

def ofPlain (t : Text) : Value :=
  match words.find? fun w => w.1.contains t, t with
  | some (_, v), _ => v
  | none, [] => .null
  | none, b :: _ =>
    if Number.isDigit b || b = Text.byte '+' || b = Text.byte '-' then ofNumber t
    else if b = Text.byte '.' then
      match Number.readFloat .double t with
      | .ok d => .float d
      | .error _ => .text
    else .text

def tag : Value → Text
  | .null => "!!null"
  | .bool _ => "!!bool"
  | .int _ => "!!int"
  | .float _ => "!!float"
  | .text => "!!str"

/-- The tags that say what a scalar has to mean. -/
def standardTags : List Text := ["!!null", "!!bool", "!!int", "!!float", "!!timestamp"]

/-- The value of a scalar with a tag; `none` if it is not written like a value of that kind. Integers
will do for fractions. A tag that is not known says nothing. -/
def ofTagged (tag t : Text) : Option Value :=
  if !standardTags.contains tag then some .text
  else
    let v := ofPlain t
    if v.tag = tag then some v
    else
      match v with
      | .int i =>
        if tag = Text.ofString "!!float" && i < (Nat.pow 2 63 : Nat) then some (.float (.ofInt i))
        else none
      | _ => none

end Value

/-- The value of a scalar with its text; `none` for a collection, and for a scalar that does not mean
what its tag says. -/
def Node.value? (n : Node) : Option (Value × Text) :=
  match n.target with
  | .scalar (some tag) _ t => (Value.ofTagged tag t).map (·, t)
  | .scalar none isPlain t => some (if isPlain then Value.ofPlain t else .text, t)
  | _ => none

/-- The text of a scalar; `some none` for null. -/
def Node.text? (n : Node) : Option (Option Text) := do
  match ← n.value? with
  | (.null, _) => return none
  | (_, t) => return some t

end Bytelift.Yaml
