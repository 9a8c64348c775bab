import Bytelift.Number.Integer

/-!
# Command-line arguments

Options come before the other arguments. An option is written with one or two dashes; its value follows
after an equals sign or as the next argument. The first argument that is no option ends the options, as
do two dashes alone. Options are checked when they are read and kept as they are written; if an option
is given twice, the last one counts, except that lists add up; but a name and its short form are not
used together.
-/

namespace Bytelift.Cli

/-- What an option takes. -/
inductive OptionKind
  | toggle
  | text
  | number (default : Int)
  /-- A list; commas divide the items, and the option can be repeated. -/
  | texts
  deriving DecidableEq, Repr

structure OptionSpec where
  name : Text
  kind : OptionKind
  usage : Text
  short : Option Text := none
  deriving DecidableEq, Repr

inductive UsageError
  | badForm (arg : Text)
  | unknown (name : Text)
  | missingValue (name : Text)
  | badToggle (name value : Text)
  | badNumber (name value : Text) (fault : NumberFault)
  /-- An option is given by its name and by its short form. -/
  | twoForms (short name : Text)
  deriving DecidableEq, Repr

def UsageError.message : UsageError → Text
  | .badForm arg => "bad flag syntax: " ++ arg
  | .unknown name => "flag provided but not defined: -" ++ name
  | .missingValue name => "flag needs an argument: -" ++ name
  | .badToggle name value =>
    List.flatten ["invalid boolean value ", value.quote, " for -", name, ": parse error"]
  | .badNumber name value fault =>
    List.flatten ["invalid value ", value.quote, " for flag -", name, ": ",
      match fault with
      | .malformed => "parse error"
      | .outOfRange => "value out of range"]
  | .twoForms short name =>
    List.flatten ["Cannot use two forms of the same flag: ", short, " ", name]

/-- The options that were given, by their full names, in order. -/
abbrev Options := List (Text × Text)

/-! ## Reading options -/

/-- What an argument is where options are read. -/
inductive ArgumentForm
  | positional
  | divider
  | malformed
  | option (name : Text) (value : Option Text)
  deriving DecidableEq, Repr

def optionForm (body : Text) : ArgumentForm :=
  match body with
  | [] | 45 :: _ | 61 :: _ => .malformed
  | body =>
    match Text.cutAt 61 body with
    | some (name, value) => .option name (some value)
    | none => .option body none

/-- The form of an argument. A dash alone is no option. -/
def argumentForm : Text → ArgumentForm
  | [45, 45] => .divider
  | 45 :: 45 :: body => optionForm body
  | 45 :: b :: body => optionForm (b :: body)
  | _ => .positional

/-- The truth value of a word. -/
def truth? (t : Text) : Option Bool :=
  if [Text.ofString "1", "t", "T", "TRUE", "true", "True"].contains t then some true
  else if [Text.ofString "0", "f", "F", "FALSE", "false", "False"].contains t then some false
  else none

def OptionSpec.check (s : OptionSpec) (name value : Text) : Except UsageError Unit :=
  match s.kind with
  | .toggle => if (truth? value).isSome then .ok () else .error (.badToggle name value)
  | .number _ =>
    match Number.readInteger 64 value with
    | .ok _ => .ok ()
    | .error e => .error (.badNumber name value e.fault)
  | .text | .texts => .ok ()

/-- An option as it was given: its full name, the form that was written and its value. -/
structure Given where
  name : Text
  form : Text
  value : Text
  deriving DecidableEq, Repr

def readOptions (specs : List OptionSpec) : List Text → Except UsageError (List Given × List Text)
  | [] => .ok ([], [])
  | arg :: rest =>
    match argumentForm arg with
    | .positional => .ok ([], arg :: rest)
    | .divider => .ok ([], rest)
    | .malformed => .error (.badForm arg)
    | .option form value =>
      match specs.find? fun s => s.name = form ∨ s.short = some form with
      | none => .error (.unknown form)
      | some s =>
        let value := if s.kind = .toggle then some (value.getD "true") else value
        match value, rest with
        | some v, rest => do
          s.check form v
          let (given, args) ← readOptions specs rest
          return (⟨s.name, form, v⟩ :: given, args)
        | none, v :: rest => do
          s.check form v
          let (given, args) ← readOptions specs rest
          return (⟨s.name, form, v⟩ :: given, args)
        | none, [] => .error (.missingValue form)

/-- Refuses an option that is given in both of its forms. -/
def OptionSpec.checkForms (given : List Given) (s : OptionSpec) : Except UsageError Unit :=
  match s.short with
  | none => .ok ()
  | some short =>
    if given.any (·.form = s.name) && given.any (·.form = short) then .error (.twoForms short s.name)
    else .ok ()

/-- The options at the start of the arguments, and the arguments after them. -/
def parseOptions (specs : List OptionSpec) (args : List Text) :
    Except UsageError (Options × List Text) := do
  let (given, rest) ← readOptions specs args
  specs.forM (OptionSpec.checkForms given)
  return (given.map fun g => (g.name, g.value), rest)

/-! ## Asking for options -/

namespace Options

def all (o : Options) (name : Text) : List Text :=
  o.filterMap fun (n, v) => if n = name then some v else none

/-- The value of an option, empty if it was not given. -/
def text (o : Options) (name : Text) : Text := ((o.all name).getLast?).getD []

def toggle (o : Options) (name : Text) : Bool := (truth? (o.text name)).getD false

/-- The value of a number option, zero if it was not given. -/
def number (o : Options) (name : Text) : Int :=
  match Number.readInteger 64 (o.text name) with
  | .ok i => i
  | .error _ => 0

/-- The items of a list option, without blanks around them. -/
def texts (o : Options) (name : Text) : List Text :=
  (o.all name).flatMap fun v => (Text.partsAt 44 v).map Text.trimSpace

end Options
end Bytelift.Cli
