import Bytelift.Cache.Key
import Bytelift.Ir.Module

/-!
# Caches of modules

A cache holds a limited number of modules and drops the one that was not used for longest. Only frozen
modules are kept. The modules stand in the order of their last use, the latest first. Those who use a
cache need no more than a store, which says nothing about what is dropped and when.
-/

namespace Bytelift

/-- What looks modules up and takes new ones. A look-up may change the store. -/
class ModuleStore (C : Type) where
  get : C → CacheKey → Option Ir.Module × C
  add : C → CacheKey → Ir.Module → C

structure ModuleCache where
  capacity : Nat
  items : List (CacheKey × Ir.Module) := []
  deriving DecidableEq, Repr

namespace ModuleCache

/-- An empty cache of a size, of one at least. -/
def new (size : Int) : ModuleCache := { capacity := (max size 1).toNat }

def size (c : ModuleCache) : Nat := c.items.length

def erase (c : ModuleCache) (k : CacheKey) : ModuleCache :=
  { c with items := c.items.filter fun (k', _) => k' ≠ k }

/-- The module of a key, which counts as used. -/
def get (c : ModuleCache) (k : CacheKey) : Option Ir.Module × ModuleCache :=
  match c.items.lookup k with
  | none => (none, c)
  | some m => (some m, { c with items := (k, m) :: (c.erase k).items })

/-- Sets the module of a key; a full cache drops a module for a new key. -/
def add (c : ModuleCache) (k : CacheKey) (m : Ir.Module) : ModuleCache :=
  if !m.frozen then c
  else if (c.items.lookup k).isSome ∨ c.size < c.capacity then
    { c with items := (k, m) :: (c.erase k).items }
  else { c with items := (k, m) :: c.items.dropLast }

instance : ModuleStore ModuleCache := ⟨get, add⟩

end ModuleCache
end Bytelift
