import Bytelift.Cache.Keccak
import Bytelift.Code.Method
import Bytelift.Settings

/-!
# Cache keys

The key of a method under settings is a digest of everything that the listing of its module depends
on: its symbol, its code, its exception table, the constants of its pool and the fingerprint of the
settings.
-/

namespace Bytelift

structure CacheKey where
  digest : List UInt8
  deriving DecidableEq, Repr

namespace CacheKey

/-- A 64-bit integer as eight bytes, most significant first. -/
def word (i : Int) : List UInt8 :=
  let n := (i % (Nat.pow 2 64 : Nat)).toNat
  (List.range 8).reverse.map fun k => (n / Nat.pow 256 k % 256).toUInt8

/-- A row of the exception table. -/
def entryBytes (e : ExceptionEntry) : Text :=
  word e.start ++ word e.stop ++ word e.handler ++
    (if e.isCleanup then "finally:" else "catch:" : Text) ++ e.catchType

def fieldBytes (f : FieldInfo) : Text := f.key ++ ":" ++ f.desc

/-- A constant. A class brings its layout along. -/
def constantBytes (c : Constant) : Text :=
  match c with
  | .invalid => []
  | .cls ref => c.render ++ ref.fields.flatMap fieldBytes
  | c => c.render

/-- What the key of a method is the digest of. -/
def material (m : Method) (s : Settings) : Text :=
  List.flatten [m.key, m.code, m.exceptions.flatMap entryBytes,
    (if m.isStatic then "static" else [] : Text), m.pool.entries.toList.flatMap constantBytes,
    s.fingerprint]

def ofMethod (m : Method) (s : Settings) : CacheKey := ⟨Keccak.digest (material m s)⟩

/-- The key of no method. -/
def zero : CacheKey := ⟨List.replicate 32 0⟩

def text (k : CacheKey) : Text := "0x" ++ Text.hexOfBytes k.digest

end CacheKey
end Bytelift
