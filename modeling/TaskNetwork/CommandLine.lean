import TaskNetwork.Domain.Format
import TaskNetwork.Json.Reader
import TaskNetwork.Json.Writer
import TaskNetwork.Refinement
import TaskNetwork.Settings.Format

namespace TaskNetwork

inductive UsageError where
  | missingCommand
  | unknownCommand (name : String)
  | unexpectedArgument (argument : String)
  | missingValue (option : String)
  | repeatedOption (option : String)
  | missingOption (option : String)
deriving DecidableEq

def UsageError.message : UsageError → String
  | .missingCommand => "a command is missing"
  | .unknownCommand name => s!"unknown command '{name}'"
  | .unexpectedArgument argument => s!"unexpected argument '{argument}'"
  | .missingValue option => s!"a value is missing for {option}"
  | .repeatedOption option => s!"{option} is given more than once"
  | .missingOption option => s!"{option} is missing"

def UsageError.exitCode : Nat := 2

inductive PassSelection where
  | only (pass : Pass)
  | bySettings
deriving DecidableEq

def PassSelection.passes (settings : Settings) : PassSelection → List Pass
  | .only p => [p]
  | .bySettings => settings.passes

/-- What is asked for. Settings are loaded from the file `config` if there is one. -/
inductive Command where
  | help
  | version
  | showSettings (config : Option String)
  | refine (selection : PassSelection) (config : Option String) (domain output : String)
deriving DecidableEq

namespace Command

structure FileOptions where
  config : Option String := none
  domain : Option String := none
  output : Option String := none

inductive FileOption where
  | config
  | domain
  | output
deriving DecidableEq

def FileOption.name : FileOption → String
  | .config => "--config"
  | .domain => "--domain"
  | .output => "--output"

namespace FileOptions

def get (o : FileOptions) : FileOption → Option String
  | .config => o.config
  | .domain => o.domain
  | .output => o.output

/-- An option is given once at most, and not with an empty name. -/
def set (o : FileOptions) (option : FileOption) (value : String) : Except UsageError FileOptions :=
  if value = "" then .error (.missingValue option.name)
  else if (o.get option).isSome then .error (.repeatedOption option.name)
  else
    match option with
    | .config => .ok { o with config := some value }
    | .domain => .ok { o with domain := some value }
    | .output => .ok { o with output := some value }

def require (o : FileOptions) (option : FileOption) : Except UsageError String :=
  match o.get option with
  | some value => .ok value
  | none => .error (.missingOption option.name)

end FileOptions

/-- An argument that is no value. -/
inductive Word where
  | help
  | version
  /-- The end of the options: two hyphens alone. -/
  | optionsEnd
  /-- An option, with a value if there is an equals sign. -/
  | option (option : FileOption) (value : Option String)
  | unknownOption
  | plain

def Word.of (allowed : List FileOption) (argument : String) : Word :=
  let cs := argument.toList
  let name := String.ofList (cs.takeWhile (· ≠ '='))
  let value := match cs.dropWhile (· ≠ '=') with
    | [] => none
    | _ :: cs => some (String.ofList cs)
  if argument = "--help" ∨ cs.take 2 = ['-', 'h'] then .help
  else if argument = "--version" ∨ cs.take 2 = ['-', 'V'] then .version
  else if argument = "--" then .optionsEnd
  else
    match allowed.find? (·.name = name) with
    | some fileOption => .option fileOption value
    | none => if cs.head? = some '-' ∧ cs ≠ ['-'] then .unknownOption else .plain

/-- Whether an argument can be the value of the option before it. -/
def isValue (argument : String) : Bool := argument.toList.head? ≠ some '-' || argument == "-"

inductive Kind where
  | help
  | showSettings
  | refine (selection : PassSelection)

def Kind.ofName? : String → Option Kind
  | "infer" => some (.refine (.only .inferPreconditions))
  | "regularize" => some (.refine (.only .twoRegularize))
  | "run" => some (.refine .bySettings)
  | "config" => some .showSettings
  | "help" => some .help
  | _ => none

def Kind.options : Kind → List FileOption
  | .refine _ => [.config, .domain, .output]
  | _ => [.config]

/-- The command with its options, of which `config` may also stand before the command's name. -/
def Kind.command (config : Option String) (o : FileOptions) : Kind → Except UsageError Command
  | .help => .ok .help
  | .showSettings => .ok (.showSettings (o.config <|> config))
  | .refine selection => do
    return .refine selection (o.config <|> config) (← o.require .domain) (← o.require .output)

def parseOptions (kind : Kind) (config : Option String) (o : FileOptions) :
    List String → Except UsageError Command
  | [] => kind.command config o
  | argument :: rest =>
    match Word.of kind.options argument with
    | .help => .ok .help
    | .option option (some value) => do parseOptions kind config (← o.set option value) rest
    | .option option none =>
      match rest with
      | [] => .error (.missingValue option.name)
      | value :: rest =>
        if isValue value then do parseOptions kind config (← o.set option value) rest
        else .error (.missingValue option.name)
    | .optionsEnd =>
      match rest with
      | [] => kind.command config o
      | argument :: _ => .error (.unexpectedArgument argument)
    | _ => .error (.unexpectedArgument argument)

def parseTopic : List String → Except UsageError Command
  | [] => .ok .help
  | [name] => if (Kind.ofName? name).isSome then .ok .help else .error (.unknownCommand name)
  | _ :: name :: _ => .error (.unknownCommand name)

/-- All arguments, of which only the name of the settings file may stand before the command's name.
-/
def parse (o : FileOptions) : List String → Except UsageError Command
  | [] => .error .missingCommand
  | argument :: rest =>
    match Word.of [.config] argument with
    | .help => .ok .help
    | .version => .ok .version
    | .option option (some value) => do parse (← o.set option value) rest
    | .option option none =>
      match rest with
      | [] => .error (.missingValue option.name)
      | value :: rest =>
        if isValue value then do parse (← o.set option value) rest
        else .error (.missingValue option.name)
    | .optionsEnd | .unknownOption => .error (.unexpectedArgument argument)
    | .plain =>
      match Kind.ofName? argument with
      | none => .error (.unknownCommand argument)
      | some .help => parseTopic rest
      | some kind => parseOptions kind o.config {} rest

def ofArguments (arguments : List String) : Except UsageError Command := parse {} arguments

def inputs : Command → List String
  | .help | .version => []
  | .showSettings config => config.toList
  | .refine _ config domain _ => config.toList ++ [domain]

end Command

inductive CommandError where
  | settings (error : SettingsError)
  | unreadableDomain (path : String)
  | malformedDomain (path : String)
  | failure (failure : Failure)

def CommandError.message : CommandError → String
  | .settings e => e.message
  | .unreadableDomain path => s!"failed to read domain: {path}"
  | .malformedDomain path => s!"failed to parse domain: {path}"
  | .failure f => f.message

/-- Faults have a code of their own. -/
def CommandError.exitCode : CommandError → Nat
  | .failure (.fault _) => 101
  | _ => 1

structure CommandResult where
  output : String
  file : Option (String × String) := none
deriving DecidableEq

def writtenLine (path : String) : String := s!"Wrote {path}\n"

def RunReport.text (r : RunReport) : Except Failure String := do
  let tally ← match r.tally with
    | none => pure ""
    | some tally =>
      match tally.summary with
      | .ok summary => pure ("Inference Statistics: " ++ summary.line ++ "\n")
      | .error fault => throw (.fault fault)
  let cascades := match r.cascades with
    | none => ""
    | some c => s!"Two-regularization: {c.cutMethods} methods split, "
        ++ s!"{c.newTasks} synthetic tasks, {c.newMethods} synthetic methods\n"
  return tally ++ cascades

namespace Command

def loadSettings (read : String → Option String) : Option String → Except CommandError Settings
  | none => .ok {}
  | some path => (Settings.load path (read path)).mapError .settings

def loadDomain (read : String → Option String) (path : String) : Except CommandError Domain :=
  match read path with
  | none => .error (.unreadableDomain path)
  | some text =>
    match (Json.ofText? text).bind Domain.ofJson? with
    | none => .error (.malformedDomain path)
    | some d => .ok d

def versionText : String := "htn-refine 0.1.0\n"

def helpText : String :=
  "HTN domain preprocessing passes\n\n"
    ++ "Usage: htn-refine [--config FILE] infer|regularize|run --domain FILE --output FILE\n"
    ++ "       htn-refine [--config FILE] config\n"

/-- Does what is asked for, given a writer of strings and the contents of the files. -/
def run (write : List Char → Option (List Char)) (read : String → Option String) :
    Command → Except CommandError CommandResult
  | .help => .ok { output := helpText }
  | .version => .ok { output := versionText }
  | .showSettings config => do
    let settings ← loadSettings read config
    let toml ← (settings.toToml write).mapError .settings
    return { output := String.ofList toml }
  | .refine selection config domain output => do
    let settings ← loadSettings read config
    let d ← loadDomain read domain
    let (d, report) := d.runPasses settings {} (selection.passes settings)
    let report ← report.mapError .failure
    let text ← report.text.mapError .failure
    return { output := text, file := some (output, d.toJson.pretty) }

end Command

end TaskNetwork
