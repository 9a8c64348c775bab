import Bytelift.Broker
import Bytelift.Cli.Request
import Bytelift.Directory
import Bytelift.Ir.Graph
import Bytelift.Ir.Topology
import Bytelift.Machine.Run
import Bytelift.Settings.File
import Bytelift.Source.Bundle

/-!
# Commands

What each command prints, the files it writes and how it fails, as a function of the files that it can
read. A command that fails may have printed something before.
-/

namespace Bytelift.Cli

/-- Why a command fails. -/
inductive Failure
  | usage (e : UsageError)
  | noTopic (name : Text)
  | file (e : OpenError)
  | settingsFile (e : Settings.FileError)
  | settings (e : SettingsError)
  | source (path : Text) (e : Source.SourceError)
  | bundle (path : Text) (e : Source.BundleError)
  | missingArguments (c : Command)
  | noMethod (key : Text)
  | bailout (b : Bailout)
  | notLifted (failed total : Nat)
  | unknownFormat (name : Text)
  /-- There is no renderer of graphs. -/
  | noRenderer
  | descriptor (e : DescriptorError)
  | arity (key : Text) (wanted given : Nat)
  | badArgument (index : Nat) (e : NumberError)
  | referenceArgument (index : Nat)
  | stopped (e : Machine.RunError)
  | uncaught (cls : Text)
  /-- The run broke off, which the rules of modules do not exclude. -/
  | stuck
  deriving DecidableEq, Repr

def Failure.message : Failure → Text
  | .usage e => e.message
  | .noTopic name => "No help topic for '" ++ name ++ "'"
  | .file e => e.message
  | .settingsFile e => e.message
  | .settings e => e.message
  | .source path e => path ++ ": " ++ e.message
  | .bundle path e => path ++ ": " ++ e.message
  | .missingArguments c => "required arguments: " ++ c.arguments
  | .noMethod key => "no method " ++ key.quote
  | .bailout b => b.message
  | .notLifted failed total =>
    Text.ofNat failed ++ " of " ++ Text.ofNat total ++ " methods not translated"
  | .unknownFormat name => "unknown format " ++ name.quote ++ " (use dot or svg)"
  | .noRenderer => "dot not found in PATH; install graphviz or choose --format=dot"
  | .descriptor e => e.message
  | .arity key wanted given =>
    key ++ " takes " ++ Text.ofNat wanted ++ " arguments, have " ++ Text.ofNat given
  | .badArgument i e => "argument " ++ Text.ofNat i ++ ": " ++ e.message
  | .referenceArgument i =>
    "argument " ++ Text.ofNat i ++ ": reference parameters cannot be given on the command line"
  | .stopped e => e.message
  | .uncaught cls => "uncaught " ++ cls
  | .stuck => "the run broke off"

inductive Output
  | text (t : Text)
  | table (t : Table)
  deriving DecidableEq, Repr

def Output.render : Output → Text
  | .text t => t
  | .table t => t.render

/-- What a command does. -/
structure Outcome where
  output : List Output := []
  /-- The file that is written, with its content. -/
  written : Option (Text × Text) := none
  failure : Option Failure := none
  deriving DecidableEq, Repr

def lowercase (t : Text) : Text := t.map fun b => if 65 ≤ b && b ≤ 90 then b + 32 else b

/-! ## Settings and programs -/

/-- What a command works on: how files are read, the settings to start from and the request. -/
structure Context where
  read : Text → Except OpenError Text
  base : Settings
  command : Command
  globals : Options
  options : Options
  args : List Text

namespace Context

def liftFile {α : Type} : Except OpenError α → Except Failure α := Except.mapError .file

/-- The settings: those of the file if there is one, then those of the command line. -/
def settings (c : Context) : Except Failure Settings := do
  let path := c.globals.text "config"
  let s ← if path.isEmpty then pure c.base else do
    let t ← liftFile (c.read path)
    Except.mapError .settingsFile (c.base.read path t)
  let allow := c.globals.texts "allow"
  let s := if allow.isEmpty then s else { s with allowed := allow }
  let s := if c.globals.toggle "no-elide" then { s with elideGuards := false } else s
  let n := c.globals.number "workers"
  let s := if 0 < n then { s with workers := n } else s
  Except.mapError .settings s.validate
  return s

/-- The program in a file: a bundle if the name of the file says so, else a source. -/
def program (c : Context) (path : Text) : Except Failure Program := do
  let t ← liftFile (c.read path)
  let extension := lowercase (Directory.extension path)
  if extension = Text.ofString ".yaml" ∨ extension = Text.ofString ".yml" then
    Except.mapError (.bundle path) (Source.parseBundle t)
  else Except.mapError (.source path) (Source.parse t)

def methodOf (p : Program) (key : Text) : Except Failure Method :=
  match p.method? key with
  | some m => .ok m
  | none => .error (.noMethod key)

/-- The methods that the arguments name: those after the file, or all of the file. -/
def methods (c : Context) : Except Failure (List Method) :=
  match c.args with
  | [] => .error (.missingArguments c.command)
  | path :: keys => do
    let p ← c.program path
    if keys.isEmpty then return p.methods else keys.mapM (methodOf p)

/-- The module of the one method that the arguments name. -/
def singleModule (c : Context) : Except Failure Ir.Module := do
  let s ← c.settings
  match ← c.methods with
  | [m] =>
    if c.args.length < 2 then throw (.missingArguments c.command)
    Except.mapError .bailout (liftMethod m s)
  | _ => throw (.missingArguments c.command)

end Context

/-! ## Listings -/

def topologyTable (m : Ir.Module) : Table :=
  let pads := ((m.topology?).getD {}).pads
  { header := ["Method", "Pad", "Cleanup", "Clauses"]
    rows := m.landingpads.filterMap fun b => do
      let shape ← pads.lookup (← b.pad).bci
      return [m.method, shape.label, Text.ofBool shape.cleanup, Text.join "; " shape.clauses] }

/-- The listing of a method, and whether it was lifted. -/
def listMethod (s : Settings) (topology : Bool) (m : Method) : Output × Bool :=
  match liftMethod m s with
  | .error b => (.text ("; " ++ b.message ++ "\n\n"), false)
  | .ok mod => (if topology then .table (topologyTable mod) else .text (mod.dump ++ "\n"), true)

def listMethods (c : Context) : Except Failure Outcome := do
  let s ← c.settings
  let ms ← c.methods
  let items := ms.map (listMethod s (c.options.toggle "topology"))
  let failed := items.countP (!·.2)
  return { output := items.map (·.1)
           failure := if 0 < failed then some (.notLifted failed items.length) else none }

/-- The name of a way to end a block. -/
def terminatorName : Ir.Terminator → Text
  | .goto _ => "goto"
  | .fallthrough _ => "fallthrough"
  | .condBr .. => "condbr"
  | .switch .. => "switch"
  | .ret _ => "return"
  | .throw .. => "throw"
  | .mayUnwind .. => "may-unwind"
  | .resume _ => "resume"
  | .unreachable => "unreachable"
  | .none | .unknown _ => "none"

def blockTable (m : Ir.Module) : Table :=
  let label (b : Ir.BlockId) : Text := ((m.block? b).map (·.label)).getD []
  { header := ["Block", "Kind", "BCI", "Insts", "Terminator", "Succs", "Unwind"]
    rows := m.blocks.toList.map fun b =>
      [b.label, b.kind.name, Text.ofInt b.start, Text.ofNat b.insts.size, terminatorName b.term,
        Text.join " " (b.succs.map label), label b.term.unwind] }

/-! ## Graphs -/

/-- The format of a graph: as asked for, or else by the name of the file. -/
def graphFormat (format out : Text) : Text :=
  if !format.isEmpty then format
  else if lowercase (Directory.extension out) = Text.ofString ".svg" then "svg"
  else "dot"

def drawGraph (c : Context) : Except Failure Outcome := do
  let m ← c.singleModule
  let out := c.options.text "out"
  let format := graphFormat (c.options.text "format") out
  if format = Text.ofString "svg" then throw .noRenderer
  if format ≠ Text.ofString "dot" then throw (.unknownFormat format)
  return if out.isEmpty then { output := [.text m.graph] } else { written := some (out, m.graph) }

/-! ## Batches -/

/-- The row of a method: its status and the sizes of its module. -/
def batchRow (r : Broker.Result) : List Text :=
  match r.outcome with
  | .ok m => [r.method, "ok", Text.ofNat m.blocks.size, Text.ofNat m.landingpads.length]
  | .error (.bailout b) => [r.method, b.kind.name, "-", "-"]
  | .error _ => [r.method, "error", "-", "-"]

def compileBatch (c : Context) : Except Failure Outcome := do
  let s ← c.settings
  let ms ← c.methods
  let broker ← Except.mapError .settings (Broker.new s)
  let (results, _) := broker.compileAll false ms
  let failed := results.countP fun r => !r.outcome.toBool
  let footer : List Text := [[], Text.ofNat failed ++ " failed", [], []]
  return { output := [.table { header := ["Method", "Status", "Blocks", "Landingpads"],
                               rows := results.map batchRow, footer := footer }] }

/-! ## Runs -/

def argument (index : Nat) (type : FieldType) (t : Text) : Except Failure Machine.Value :=
  match type.kind with
  | .float | .double => do
    let f ← Except.mapError (.badArgument index) (Number.readFloat .double t)
    return { f := f }
  | .reference => .error (.referenceArgument index)
  | _ => do
    let i ← Except.mapError (.badArgument index) (Number.readInteger 64 t)
    return { i := Int64.ofInt i }

def resultText (kind : Kind) (heap : Array Machine.Object) (v : Machine.Value) : Text :=
  match kind with
  | .void => []
  | .float | .double => Number.floatText v.f ++ "\n"
  | .reference =>
    match v.ref.bind fun r => heap[r]? with
    | some o => o.cls ++ "\n"
    | none => "null\n"
  | _ => Text.ofInt v.i.toInt ++ "\n"

/-- How many blocks a run may enter; no run comes near it. -/
def runBudget : Nat := Nat.pow 2 62

def stopFailure (heap : Array Machine.Object) : Machine.Stop → Failure
  | .failed (.bailout b) => .bailout b
  | .failed e => .stopped e
  | .thrown (some r) => .uncaught ((heap[r]?.map (·.cls)).getD [])
  | .thrown none | .stuck | .outOfBudget => .stuck

def runMethod (c : Context) : Except Failure Outcome := do
  let s ← c.settings
  match c.args with
  | path :: key :: raw =>
    let p ← c.program path
    let m ← Context.methodOf p key
    let type ← Except.mapError .descriptor (MethodType.parse m.desc)
    if raw.length ≠ type.params.length then throw (.arity key type.params.length raw.length)
    let args ← (type.params.zip raw).zipIdx.mapM fun ((t, a), i) => argument i t a
    let env := (Machine.Env.new s).addProgram p
    let (r, after) := (Machine.invoke key args).run { env := env, meter := { budget := runBudget } }
    match r with
    | .ok v => return { output := [.text (resultText type.result.kind after.heap v)] }
    | .error stop => throw (stopFailure after.heap stop)
  | _ => throw (.missingArguments c.command)

/-! ## Requests -/

def Context.run (c : Context) : Outcome :=
  let r := match c.command with
    | .ir => listMethods c
    | .dot => drawGraph c
    | .blocks => do return { output := [.table (blockTable (← c.singleModule))] }
    | .batch => compileBatch c
    | .run => runMethod c
  match r with
  | .ok o => o
  | .error e => { failure := some e }

def Request.run (read : Text → Except OpenError Text) (base : Settings) : Request → Outcome
  | .command c globals options args => Context.run ⟨read, base, c, globals, options, args⟩
  | .help t => { output := [.text t] }
  | .noTopic name => { failure := some (.noTopic name) }
  | .refused e explanation =>
    { output := [.text (List.flatten ["Incorrect Usage: ", e.message, "\n\n", explanation])]
      failure := some (.usage e) }

/-- The paths of the files that a request may read. -/
def Request.inputs : Request → List Text
  | .command _ globals _ args => [globals.text "config"] ++ args.take 1
  | _ => []

/-- Writes the file of an outcome into a directory; a path that cannot be written is a failure. -/
def Outcome.writeTo (o : Outcome) (files : Directory) : Outcome × Directory :=
  match o.written with
  | none => (o, files)
  | some (path, t) =>
    match files.write path t with
    | .ok files => (o, files)
    | .error e => ({ o with written := none, failure := some (.file e) }, files)

end Bytelift.Cli
