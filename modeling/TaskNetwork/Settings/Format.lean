import TaskNetwork.Settings.Basic
import TaskNetwork.Toml.Reader

namespace TaskNetwork

inductive SettingsError where
  | unreadable (path : String)
  | malformed (path : String)
deriving DecidableEq

namespace SettingsError

def message : SettingsError → String
  | .unreadable path => s!"failed to read config: {path}"
  | .malformed path => s!"failed to parse config: {path}"

def code : SettingsError → String
  | .unreadable _ => "htn::config::read"
  | .malformed _ => "htn::config::parse"

end SettingsError

namespace Settings

open Toml

def writeTruth (b : Bool) : List Char := (if b then "true" else "false").toList

def writeLine (name : String) (value : List Char) : List Char :=
  name.toList ++ " = ".toList ++ value ++ ['\n']

def linesWith (topTask : List Char) (s : Settings) : List Char :=
  writeLine "top_task" topTask
    ++ writeLine "infer_preconditions" (writeTruth s.inferPreconditions)
    ++ writeLine "two_regularize" (writeTruth s.twoRegularize)
    ++ writeLine "report_statistics" (writeTruth s.reportStatistics)

/-- The text of the settings, given a writer of strings, which may refuse a string. -/
def toToml (write : List Char → Option (List Char)) (s : Settings) :
    Except SettingsError (List Char) :=
  match write s.topTask.toList with
  | none => .error (.malformed "<memory>")
  | some topTask => .ok (s.linesWith topTask)

def textSetting (d : Document) (name default : String) : Option String :=
  match d.root? name with
  | none => some default
  | some (.value (.text s)) => some s
  | _ => none

def truthSetting (d : Document) (name : String) (default : Bool) : Option Bool :=
  match d.root? name with
  | none => some default
  | some (.value (.truth b)) => some b
  | _ => none

def ofToml? (text : List Char) : Option Settings := do
  let d ← readDocument text
  let initial : Settings := {}
  return {
    topTask := ← textSetting d "top_task" initial.topTask
    inferPreconditions := ← truthSetting d "infer_preconditions" initial.inferPreconditions
    twoRegularize := ← truthSetting d "two_regularize" initial.twoRegularize
    reportStatistics := ← truthSetting d "report_statistics" initial.reportStatistics }

/-- The settings in a file with this content; `none` stands for a file that cannot be read. -/
def load (path : String) : Option String → Except SettingsError Settings
  | none => .error (.unreadable path)
  | some text =>
    match ofToml? text.toList with
    | none => .error (.malformed path)
    | some s => .ok s

end Settings

end TaskNetwork
