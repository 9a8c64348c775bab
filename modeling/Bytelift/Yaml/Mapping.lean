import Bytelift.Yaml.Value

/-!
# YAML mappings

The entries of a mapping by the texts of their keys. A mapping can take over the entries of others: the
key `<<` names one mapping or a list of them, and what they hold under a key that is not there yet is
added. Entries of the mapping itself count before those of the others, and these in their order. A
mapping may not have a key twice; a null key stands for nothing.
-/

namespace Bytelift.Yaml

/-- Whether a key says which other mappings are taken over. -/
def Node.isMergeKey : Node → Bool
  | .scalar none true t => t = Text.ofString "<<"
  | .scalar (some tag) _ t => t = Text.ofString "<<" && tag = Text.ofString "!!merge"
  | _ => false

/-- Adds the entries of a mapping itself to those in front of it, except for keys that are there. `none`
if a key is a collection. -/
def addOwn (before : List (Text × Node)) : List (Node × Node) → Option (List (Text × Node))
  | [] => some before
  | (k, v) :: es =>
    if k.isMergeKey then addOwn before es
    else do
      match ← k.text? with
      | none => addOwn before es
      | some name =>
        if (before.lookup name).isSome then addOwn before es else addOwn (before ++ [(name, v)]) es

mutual

/-- Adds the entries of a mapping that is taken over, or those of a list of mappings where one may
stand. -/
def addTaken (listed : Bool) (before : List (Text × Node)) : Node → Option (List (Text × Node))
  | .map entries => do
    if Node.hasDuplicate entries then none
    addMerged (← addOwn before entries) entries
  | .shared _ n => addTaken false before n
  | .seq items => if listed then addEach before items else none
  | .scalar _ _ _ => none

/-- Adds what the merge keys among some entries name. -/
def addMerged (before : List (Text × Node)) : List (Node × Node) → Option (List (Text × Node))
  | [] => some before
  | (k, v) :: es => do
    if k.isMergeKey then addMerged (← addTaken true before v) es else addMerged before es

def addEach (before : List (Text × Node)) : List Node → Option (List (Text × Node))
  | [] => some before
  | n :: ns => do addEach (← addTaken false before n) ns

end

/-- The entries of a mapping by the texts of their keys; `none` for a node that is no mapping, and for a
mapping that breaks the rules. -/
def Node.entries? (n : Node) : Option (List (Text × Node)) :=
  match n.target with
  | .map entries => do
    if Node.hasDuplicate entries then none
    let keys ← entries.mapM fun e => if e.1.isMergeKey then some none else e.1.text?
    if !(keys.filterMap id).Nodup then none
    addMerged (← addOwn [] entries) entries
  | _ => none

end Bytelift.Yaml
