import Bytelift.Cache.Modules
import Bytelift.Lift.Method

/-!
# Brokers

A broker lifts methods under fixed settings and keeps the modules in a cache. A request that was
cancelled before it is served changes nothing. Requests are served one after the other, so none has to
wait for another that does the same work.

A batch goes through a pool of workers. When the pool is closed, a batch is refused method by method,
while single requests, which need no worker, are still served.
-/

namespace Bytelift

structure Broker where
  settings : Settings
  cache : ModuleCache
  isClosed : Bool := false
  deriving DecidableEq, Repr

namespace Broker

/-- Why a request gave no module. -/
inductive Failure
  | canceled
  | closed
  | bailout (b : Bailout)
  deriving DecidableEq, Repr

def Failure.message : Failure → Text
  | .canceled => "context canceled"
  | .closed => "submit: this pool has been closed"
  | .bailout b => b.message

/-- The answer to a request for one method. -/
structure Result where
  method : Text
  outcome : Except Failure Ir.Module
  /-- Whether the module came out of the cache. -/
  isCached : Bool := false
  /-- The listing of the module, if the settings ask for one. -/
  listing : Text := []

/-- A broker with an empty cache. -/
def new (s : Settings) : Except SettingsError Broker := do
  s.validate
  return { settings := s, cache := ModuleCache.new s.cacheSize }

def found (s : Settings) (m : Method) (mod : Ir.Module) (isCached : Bool) : Result :=
  { method := m.key, outcome := .ok mod, isCached := isCached
    listing := if s.dumpIr then mod.dump else [] }

/-- Serves a request for one method out of a store of modules. The store is asked a second time before
the method is lifted, since the same work may have been finished meanwhile. -/
def serve {C : Type} [ModuleStore C] (s : Settings) (store : C) (isCancelled : Bool) (m : Method) : Result × C :=
  if isCancelled then ({ method := m.key, outcome := .error .canceled }, store)
  else
    let key := CacheKey.ofMethod m s
    match ModuleStore.get store key with
    | (some mod, store) => (found s m mod true, store)
    | (none, store) =>
      match ModuleStore.get store key with
      | (some mod, store) => (found s m mod false, store)
      | (none, store) =>
        match liftMethod m s with
        | .error e => ({ method := m.key, outcome := .error (.bailout e) }, store)
        | .ok mod => (found s m mod false, ModuleStore.add store key mod)

/-- Serves a request for one method. -/
def compile (b : Broker) (isCancelled : Bool) (m : Method) : Result × Broker :=
  let served := serve b.settings b.cache isCancelled m
  (served.1, { b with cache := served.2 })

/-- Serves a request for one method of a batch. -/
def compileInPool (b : Broker) (isCancelled : Bool) (m : Method) : Result × Broker :=
  if b.isClosed then ({ method := m.key, outcome := .error .closed }, b)
  else b.compile isCancelled m

/-- Serves a batch, with one answer for each method in order. -/
def compileAll (b : Broker) (isCancelled : Bool) : List Method → List Result × Broker
  | [] => ([], b)
  | m :: ms =>
    let (r, b) := b.compileInPool isCancelled m
    let (rs, b) := b.compileAll isCancelled ms
    (r :: rs, b)

/-- Drops the module of a method from the cache. -/
def forget (b : Broker) (m : Method) : Broker :=
  { b with cache := b.cache.erase (CacheKey.ofMethod m b.settings) }

/-- Releases the workers. -/
def close (b : Broker) : Broker := { b with isClosed := true }

end Broker
end Bytelift
