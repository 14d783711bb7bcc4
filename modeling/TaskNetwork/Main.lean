import TaskNetwork.CommandLine

namespace TaskNetwork

def readFile? (path : String) : IO (Option String) := do
  try return some (← IO.FS.readFile path)
  catch _ => return none

def perform (command : Command) : IO UInt32 := do
  let files ← command.inputs.mapM fun path => do return (path, ← readFile? path)
  let write := fun s => some (Toml.quoteText s)
  match command.run write fun path => (files.lookup path).join with
  | .error e =>
    IO.eprintln e.message
    return e.exitCode.toUInt32
  | .ok result =>
    IO.print result.output
    match result.file with
    | none => return 0
    | some (path, content) =>
      try
        IO.FS.writeFile path content
        IO.print (writtenLine path)
        return 0
      catch e =>
        IO.eprintln s!"{e}"
        return 1

end TaskNetwork

def main (arguments : List String) : IO UInt32 := do
  match TaskNetwork.Command.ofArguments arguments with
  | .error e =>
    IO.eprintln e.message
    return TaskNetwork.UsageError.exitCode.toUInt32
  | .ok command => TaskNetwork.perform command
