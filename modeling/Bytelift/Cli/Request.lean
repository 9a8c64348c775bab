import Bytelift.Cli.Arguments
import Bytelift.Cli.Table

/-!
# Requests

The commands with their options, what they say about themselves, and the request that a list of
arguments makes: to run a command, or to explain one.
-/

namespace Bytelift.Cli

inductive Command
  | ir
  | dot
  | blocks
  | batch
  | run
  deriving DecidableEq, Repr

namespace Command

def all : List Command := [.ir, .dot, .blocks, .batch, .run]

def name : Command → Text
  | .ir => "ir"
  | .dot => "dot"
  | .blocks => "blocks"
  | .batch => "batch"
  | .run => "run"

def usage : Command → Text
  | .ir => "Print the IR of methods"
  | .dot => "Render the block graph of one method as DOT or SVG"
  | .blocks => "List the blocks of one method"
  | .batch => "Compile every method concurrently and summarize the results"
  | .run => "Translate and execute a method with numeric arguments"

def arguments : Command → Text
  | .ir | .batch => "<file> [method...]"
  | .dot | .blocks => "<file> <method>"
  | .run => "<file> <method> [arg...]"

def ofName? (t : Text) : Option Command := all.find? fun c => c.name = t

end Command

def helpOption : OptionSpec := ⟨"help", .toggle, "show help", some "h"⟩

def Command.options : Command → List OptionSpec
  | .ir => [⟨"topology", .toggle, "Print only the landingpad topology", none⟩, helpOption]
  | .dot =>
    [⟨"out", .text, "Output file (.dot or .svg); stdout when empty", none⟩,
      ⟨"format", .text, "dot or svg (inferred from --out when omitted)", none⟩, helpOption]
  | _ => [helpOption]

/-- The options in front of the command. -/
def globalOptions : List OptionSpec :=
  [⟨"config", .text, "TOML configuration file with a [Compiler] section", none⟩,
    ⟨"verbosity", .number 3,
      "Logging verbosity: 0=silent, 1=error, 2=warn, 3=info, 4=debug, 5=detail", none⟩,
    ⟨"allow", .texts, "Restrict translation to these opcode mnemonics", none⟩,
    ⟨"no-elide", .toggle, "Keep runtime guards whose outcome is known at translation time", none⟩,
    ⟨"workers", .number 0, "Number of concurrent translations (0 keeps the configured value)", none⟩,
    helpOption]

/-! ## Help -/

def programName : Text := "jitdump"

/-- An option with its forms and its explanation. The default of a number is told, and that of a toggle
other than the one for help. -/
def OptionSpec.help (s : OptionSpec) : Text × Text :=
  let form : Text := match s.short with
    | some a => List.flatten ["--", s.name, ", -", a]
    | none => "--" ++ s.name
  match s.kind with
  | .toggle => (form, if s.short.isSome then s.usage else s.usage ++ " (default: false)")
  | .text => (form ++ " value", s.usage)
  | .number d => (form ++ " value", List.flatten [s.usage, " (default: ", Text.ofInt d, ")"])
  | .texts => (List.flatten [form, " value [ ", form, " value ]"], s.usage)

/-- Two columns, indented and two blanks apart. -/
def columns (lines : List (Text × Text)) : Text :=
  let width := (lines.map fun l => Table.width l.1).foldl max 0 + 2
  lines.flatMap fun (a, b) => List.flatten ["   ", Table.padRight width a, b, "\n"]

/-- The word that asks for help as a command does, with its explanation. -/
def helpWord : Text × Text := ("help, h", "Shows a list of commands or help for one command")

/-- What the program says about itself. -/
def programHelp : Text :=
  let commands := (Command.all.map fun c => (c.name, c.usage)) ++ [helpWord]
  List.flatten ["NAME:\n   ", programName, " - inspect the bytecode to IR translator\n\nUSAGE:\n   ",
    programName, " [global options] command [command options] [arguments...]\n\nCOMMANDS:\n",
    columns commands, "\nGLOBAL OPTIONS:\n", columns (globalOptions.map OptionSpec.help)]

/-- What a command says about itself. -/
def Command.help (c : Command) : Text :=
  List.flatten ["NAME:\n   ", programName, " ", c.name, " - ", c.usage, "\n\nUSAGE:\n   ", programName,
    " ", c.name, " [command options] ", c.arguments, "\n\nOPTIONS:\n",
    columns (c.options.map OptionSpec.help)]

/-- What a command says about itself when its options are wrong: the word for help is named as a command
below it. -/
def Command.usageHelp (c : Command) : Text :=
  List.flatten ["NAME:\n   ", programName, " ", c.name, " - ", c.usage, "\n\nUSAGE:\n   ", programName,
    " ", c.name, " command [command options] ", c.arguments, "\n\nCOMMANDS:\n", columns [helpWord],
    "\nOPTIONS:\n", columns (c.options.map OptionSpec.help)]

/-! ## Requests -/

/-- What arguments ask for. -/
inductive Request
  | command (c : Command) (globals options : Options) (args : List Text)
  /-- To print an explanation. -/
  | help (text : Text)
  /-- An explanation of something that does not exist. -/
  | noTopic (name : Text)
  /-- The arguments are wrong; the explanation is printed with the error. -/
  | refused (e : UsageError) (help : Text)
  deriving DecidableEq, Repr

/-- Whether a word asks for help as a command does. -/
def isHelpWord (t : Text) : Bool := t = Text.ofString "help" || t = Text.ofString "h"

/-- The explanation that the arguments after a word for help name. -/
def helpOn : List Text → Request
  | [] | [] :: _ => .help programHelp
  | name :: _ =>
    match Command.ofName? name with
    | some c => .help c.help
    | none => if isHelpWord name then .help programHelp else .noTopic name

def helpWordHelp : Text :=
  List.flatten ["NAME:\n   ", programName, " help - Shows a list of commands or help for one command\n\n",
    "USAGE:\n   ", programName, " help [command options] [command]\n\nOPTIONS:\n",
    columns [helpOption.help]]

/-- The request that the arguments after a word for help make. The word takes the option for help, which
changes nothing, and then the name of a topic. -/
def afterHelpWord (topic : List Text → Request) (args : List Text) : Request :=
  match parseOptions [helpOption] args with
  | .error e => .refused e helpWordHelp
  | .ok (_, args) => topic args

/-- The explanation that a command gives of a topic: only itself and the word for help are known to it. -/
def Command.helpOn (c : Command) : List Text → Request
  | [] | [] :: _ => .help c.help
  | name :: _ => if isHelpWord name then .help c.help else .noTopic name

def requestTo (c : Command) (globals : Options) (args : List Text) : Request :=
  match parseOptions c.options args with
  | .error e => .refused e c.usageHelp
  | .ok (options, args) =>
    if options.toggle "help" then c.helpOn args
    else
      match args with
      | name :: rest =>
        if isHelpWord name then afterHelpWord c.helpOn rest
        else .command c globals options args
      | [] => .command c globals options args

def Request.ofArguments (args : List Text) : Request :=
  match parseOptions globalOptions args with
  | .error e => .refused e programHelp
  | .ok (globals, args) =>
    if globals.toggle "help" then helpOn args
    else
      match args with
      | [] => .help programHelp
      | name :: rest =>
        match Command.ofName? name with
        | some c => requestTo c globals rest
        | none => if isHelpWord name then afterHelpWord helpOn rest else helpOn (name :: rest)

end Bytelift.Cli
