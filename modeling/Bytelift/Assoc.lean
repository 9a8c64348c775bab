/-!
# Association lists

Small tables as lists of keys with their values, each key once. `List.lookup` reads them.
-/

namespace Bytelift

/-- Sets the value of a key, in place if it has one. -/
def assign {α β : Type} [DecidableEq α] (k : α) (v : β) : List (α × β) → List (α × β)
  | [] => [(k, v)]
  | (k', v') :: l => if k' = k then (k, v) :: l else (k', v') :: assign k v l

end Bytelift
