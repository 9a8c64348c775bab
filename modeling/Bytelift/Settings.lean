import Bytelift.Code.Opcode
import Bytelift.Text.Quoted

/-!
# Settings

What can be set for a lifting and for the components around it. The fingerprint holds the settings on
which the resulting module and its listing depend.
-/

namespace Bytelift

/-- The settings of a lifting, a cache and a pool of workers. -/
structure Settings where
  /-- Whether listings of modules are logged and attached to results. -/
  dumpIr : Bool := false
  /-- Whether each lifted block is logged. -/
  debugLogs : Bool := false
  /-- The mnemonics that are accepted; all if the list is empty. -/
  allowed : List Text := []
  /-- Whether checks with a known outcome are left out. -/
  elideGuards : Bool := true
  /-- How many cleanup regions one exit may leave. -/
  nesting : Int := 16
  workers : Int := 1
  /-- How many modules a cache keeps. -/
  cacheSize : Int := 1024
  deriving DecidableEq, Repr

inductive SettingsError
  | nesting (n : Int)
  | workers (n : Int)
  | cacheSize (n : Int)
  | unknownOpcode (name : Text)
  deriving DecidableEq, Repr

def SettingsError.message : SettingsError → Text
  | .nesting n => "MaxCleanupNesting must be positive, have " ++ Text.ofInt n
  | .workers n => "Workers must be positive, have " ++ Text.ofInt n
  | .cacheSize n => "CacheSize must not be negative, have " ++ Text.ofInt n
  | .unknownOpcode name => "unknown opcode " ++ name.quote ++ " in AllowedOpcodes"

namespace Settings

/-- The nesting limit of settings that give none. -/
def defaultNesting : Nat := 16

/-- The settings under an environment value that asks for debug logs with `1` or `true`. -/
def ofEnvironment (debug : Text) : Settings :=
  { debugLogs := debug == "1" || debug == "true" }

/-- The first fault of the settings. -/
def validate (s : Settings) : Except SettingsError Unit :=
  if s.nesting < 1 then .error (.nesting s.nesting)
  else if s.workers < 1 then .error (.workers s.workers)
  else if s.cacheSize < 0 then .error (.cacheSize s.cacheSize)
  else
    match s.allowed.find? fun name => (Opcode.ofMnemonic? name).isNone with
    | some name => .error (.unknownOpcode name)
    | none => .ok ()

/-- The accepted opcodes; `none` if all are. -/
def allowSet (s : Settings) : Option (List Opcode) :=
  if s.allowed.isEmpty then none else some (s.allowed.filterMap Opcode.ofMnemonic?)

/-- The nesting limit in force; a limit below one counts as none given. -/
def nestingLimit (s : Settings) : Nat := if s.nesting < 1 then defaultNesting else s.nesting.toNat

/-- A text that determines what a lifting under the settings gives. -/
def fingerprint (s : Settings) : Text :=
  List.flatten ["dump=", Text.ofBool s.dumpIr, " elide=", Text.ofBool s.elideGuards, " nest=",
    Text.ofInt s.nesting, " allow=", Text.join "," (s.allowed.mergeSort Text.le)]

end Settings
end Bytelift
