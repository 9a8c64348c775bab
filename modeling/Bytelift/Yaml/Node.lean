import Bytelift.Text

/-!
# YAML nodes

The tree that a YAML document stands for. A scalar remembers its tag and whether it was written plain,
because only a plain scalar without a tag can mean null, a truth value or a number by itself. A node that
is referred to by its name stands at both places.
-/

namespace Bytelift.Yaml

inductive Node
  | scalar (tag : Option Text) (isPlain : Bool) (text : Text)
  | seq (items : List Node)
  | map (entries : List (Node × Node))
  /-- A node at the place of a reference to it. -/
  | shared (name : Text) (node : Node)

namespace Node

/-- The node that stands where nothing is written. -/
def empty : Node := .scalar none true []

/-- The node itself, behind a reference to it. -/
def target : Node → Node
  | .shared _ n => n
  | n => n

def sameKey : Node → Node → Bool
  | .scalar _ _ s, .scalar _ _ t => s == t
  | .seq _, .seq _ | .map _, .map _ => true
  | .shared a _, .shared b _ => a == b
  | _, _ => false

/-- Whether a mapping has a key twice. -/
def hasDuplicate : List (Node × Node) → Bool
  | [] => false
  | (k, _) :: es => es.any (fun e => sameKey k e.1) || hasDuplicate es

end Node
end Bytelift.Yaml
