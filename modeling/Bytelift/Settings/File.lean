import Bytelift.Settings
import Bytelift.Toml.Document

/-!
# Settings files

Settings are kept in the section `Compiler` of a TOML file. A field that the file leaves out keeps the
value it has; a section or field that does not exist is refused with the number of its line.
-/

namespace Bytelift.Settings

inductive FileError
  /-- The text is no TOML document, or a field has a value of another type. -/
  | malformed
  | unknownSection (path : Text) (line : Nat) (name : Text)
  | unknownField (path : Text) (line : Nat) (name : Text)
  | invalid (path : Text) (e : SettingsError)
  deriving DecidableEq, Repr

def FileError.message : FileError → Text
  | .malformed => "malformed settings"
  | .unknownSection path line name =>
    List.flatten [path, ", line ", Text.ofNat line, ": field '", name,
      "' is not defined in compiler.fileConfig"]
  | .unknownField path line name =>
    List.flatten [path, ", line ", Text.ofNat line, ": field '", name,
      "' is not defined in compiler.Config, see ",
      "https://godoc.org/github.com/vmjit/bcjit/core/jit/compiler#Config for available fields"]
  | .invalid path e => path ++ ": " ++ e.message

/-! ## Writing -/

def render (s : Settings) : Text :=
  let line (name value : Text) : Text := List.flatten [name, " = ", value, "\n"]
  List.flatten ["[Compiler]\n", line "DumpIR" (Text.ofBool s.dumpIr),
    line "DebugLogs" (Text.ofBool s.debugLogs),
    line "AllowedOpcodes" ("[" ++ Text.join ", " (s.allowed.map Text.quote) ++ "]"),
    line "ElideConstantGuards" (Text.ofBool s.elideGuards),
    line "MaxCleanupNesting" (Text.ofInt s.nesting), line "Workers" (Text.ofInt s.workers),
    line "CacheSize" (Text.ofInt s.cacheSize)]

/-! ## Reading -/

open Toml (Node Value)

def boolOf? : Node → Option Bool
  | .value (.boolean b) _ => some b
  | _ => none

/-- An integer of 64 bits; underscores between its digits do not count. -/
def intOf? : Node → Option Int
  | .value (.integer t) _ => (Number.readInteger 64 (t.filter (· ≠ 95))).toOption
  | _ => none

def stringOf? : Value → Option Text
  | .string t => some t
  | _ => none

def stringsOf? : Node → Option (List Text)
  | .value (.array items) _ => items.mapM stringOf?
  | _ => none

/-- How each field is set; a setter gives `none` for a value of another type. -/
def setters (s : Settings) (n : Node) : List (Text × Option Settings) :=
  [("DumpIR", (boolOf? n).map fun b => { s with dumpIr := b }),
    ("DebugLogs", (boolOf? n).map fun b => { s with debugLogs := b }),
    ("AllowedOpcodes", (stringsOf? n).map fun l => { s with allowed := l }),
    ("ElideConstantGuards", (boolOf? n).map fun b => { s with elideGuards := b }),
    ("MaxCleanupNesting", (intOf? n).map fun i => { s with nesting := i }),
    ("Workers", (intOf? n).map fun i => { s with workers := i }),
    ("CacheSize", (intOf? n).map fun i => { s with cacheSize := i })]

def setField (path : Text) (s : Settings) (field : Text × Node) : Except FileError Settings :=
  match (setters s field.2).lookup field.1 with
  | none => .error (.unknownField path field.2.line field.1)
  | some none => .error .malformed
  | some (some s) => .ok s

def setSection (path : Text) (s : Settings) (part : Text × Node) : Except FileError Settings :=
  if part.1 ≠ Text.ofString "Compiler" then .error (.unknownSection path part.2.line part.1)
  else
    match part.2 with
    | .table fields _ _ => fields.foldlM (setField path) s
    | _ => .error .malformed

/-- The settings that a file with a path and a text gives on top of others. -/
def read (base : Settings) (path text : Text) : Except FileError Settings := do
  match Toml.parse? text with
  | none => throw .malformed
  | some fields =>
    let s ← fields.foldlM (setSection path) base
    match s.validate with
    | .ok () => return s
    | .error e => throw (.invalid path e)

end Bytelift.Settings
