import ItemQuery.CommandLine.Run

/-! The program: it looks up what a command can read, runs the command, and prints. -/

namespace ItemQuery

open CommandLine

/-- What stands at a path. -/
def lookUp (path : String) : IO Entry := do
  try
    return .file (← IO.FS.readFile ⟨path⟩)
  catch
    | .noFileOrDirectory .. => return .missing
    | .inappropriateType .. => return .folder
    | e => return .absent (toString e)

/-- All of standard input. -/
def readInput : IO String := do
  let stream ← IO.getStdin
  let mut lines := #[]
  let mut line ← stream.getLine
  while !line.isEmpty do
    lines := lines.push line
    line ← stream.getLine
  return String.join lines.toList

/-- A name of 32 random digits. -/
def randomName : IO String := do
  let mut digits := []
  for _ in [0:32] do
    digits := (Nat.digitChar (← IO.rand 0 15)).toUpper :: digits
  return String.ofList digits

/-- Where the user's settings are kept. -/
def userSettings : IO (Option String) := do
  let configured ← IO.getEnv "XDG_CONFIG_HOME"
  let home ← IO.getEnv "HOME"
  let folder := (configured.filter (·.startsWith "/")).orElse fun _ => home.map (· ++ "/.config")
  return folder.map (· ++ "/amlq/" ++ settingsFile)

/-- Looks up what a command with these arguments needs. -/
def surroundings (args : List String) : IO Surroundings := do
  let schemaPath ← IO.getEnv "AMLQ_SCHEMA"
  let userSettings ← userSettings
  match Invocation.ofArguments? schemaPath args with
  | none => return { files := .ofEntries [], schemaPath }
  | some i =>
    let found ← (i.paths userSettings).mapM fun path => return (path, ← lookUp path)
    let input ← if i.readsInput then readInput else pure ""
    let s : Surroundings := { files := .ofEntries found, input, schemaPath, userSettings }
    let refIds ← (List.range (i.partCount s)).mapM fun _ => randomName
    return { s with refIds }

end ItemQuery

/-- Runs the command of the arguments. -/
def main (args : List String) : IO UInt32 := do
  let outcome := ItemQuery.CommandLine.run (← ItemQuery.surroundings args) args
  IO.print outcome.output
  IO.eprint outcome.errors
  return UInt32.ofNat outcome.code
