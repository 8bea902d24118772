import ItemQuery.Pattern.Wildcard
import ItemQuery.Settings

/-! The arguments of the command line. Some options stand before or after the name of the command, others only
    after it; every option is given at most once on each side. What follows two hyphens is no option. -/

namespace ItemQuery.CommandLine

/-! ### Options -/

/-- An option: its long name, its short one, and whether a value belongs to it. -/
structure Switch where
  long : String
  short : Option Char := none
  takesValue : Bool := true
deriving DecidableEq, Repr

/-- The options and the other arguments that were given. -/
structure Given where
  options : List (String × String) := []
  operands : List String := []
deriving DecidableEq, Repr

namespace Given

/-- The value of an option. -/
def value? (g : Given) (name : String) : Option String :=
  (g.options.find? (·.1 == name)).map (·.2)

/-- Whether an option was given. -/
def has (g : Given) (name : String) : Bool :=
  (g.value? name).isSome

/-- Adds an option that was not given yet. -/
def add? (g : Given) (name value : String) : Option Given :=
  if g.has name then none else some { g with options := g.options ++ [(name, value)] }

/-- Adds another argument. -/
def addOperand (g : Given) (value : String) : Given :=
  { g with operands := g.operands ++ [value] }

end Given

/-- Whether an argument looks like an option. -/
def looksLikeOption (arg : String) : Bool :=
  arg.startsWith "-" && arg != "-"

/-- What is given so far, and the option that waits for its value. -/
abbrev Progress : Type :=
  Given × Option String

/-- Takes an option with its long name, after the hyphens; a value may follow an equals sign. -/
def takeLong? (switches : List Switch) (g : Given) (arg : List Char) : Option Progress := do
  let (name, attached) := match Text.cut? ['='] arg with
    | some (name, value) => (String.ofList name, some (String.ofList value))
    | none => (String.ofList arg, none)
  let s ← switches.find? (·.long == name)
  match s.takesValue, attached with
  | true, some value => return (← g.add? name value, none)
  | true, none => return (g, some name)
  | false, none => return (← g.add? name "", none)
  | false, some _ => none

/-- Takes options with short names, written in one; the first that has a value takes the rest as its value. -/
def takeShort? (switches : List Switch) (g : Given) : List Char → Option Progress
  | [] => some (g, none)
  | c :: cs => do
    let s ← switches.find? (·.short == some c)
    if s.takesValue then
      match cs with
      | [] => return (g, some s.long)
      | '=' :: value => return (← g.add? s.long (String.ofList value), none)
      | value => return (← g.add? s.long (String.ofList value), none)
    else takeShort? switches (← g.add? s.long "") cs

/-- Reads arguments up to the first that satisfies `isLast`, and gives what is left from there on. -/
def scan? (switches : List Switch) (isLast : String → Bool) :
    Progress → List String → Option (Given × List String)
  | (g, none), [] => some (g, [])
  | (_, some _), [] => none
  | (g, some name), arg :: args => do
    if looksLikeOption arg then none else scan? switches isLast (← g.add? name arg, none) args
  | (g, none), arg :: args => do
    match arg.toList with
    | ['-', '-'] => return (args.foldl Given.addOperand g, [])
    | '-' :: '-' :: long => scan? switches isLast (← takeLong? switches g long) args
    | '-' :: c :: short => scan? switches isLast (← takeShort? switches g (c :: short)) args
    | _ => if isLast arg then return (g, arg :: args) else scan? switches isLast (g.addOperand arg, none) args

/-! ### Commands -/

/-- The output formats. -/
inductive OutputFormat where
  | sql
  | odata
  | aml
  | storedQuery
deriving DecidableEq, Repr

/-- The format of a name. -/
def OutputFormat.ofName? : String → Option OutputFormat
  | "sql" => some sql
  | "odata" => some odata
  | "aml" => some aml
  | "qdef" => some storedQuery
  | _ => none

/-- The styles of patterns: one with wildcards, or regular expressions. -/
inductive PatternStyle where
  | wildcards (style : WildcardSyntax)
  | regex

/-- The pattern style of a name. -/
def PatternStyle.ofName? : String → Option PatternStyle
  | "sql" => some (wildcards .sqlServer)
  | "aml" => some (wildcards .aml)
  | "search" => some (wildcards .simpleSearch)
  | "vb" => some (wildcards .visualBasic)
  | "regex" => some regex
  | _ => none

/-- How a query is written. -/
structure Rendering where
  format : OutputFormat := .sql
  normalize : Bool := false
  /-- The dialect in place of the one of the settings. -/
  dialect : Option Dialect := none
deriving DecidableEq, Repr

/-- A text in a search box. -/
structure SearchRequest where
  itemType : String
  property : String
  dataType : Option DataType := none
  condition : Option String := none
  text : String
deriving DecidableEq, Repr

/-- What to do. -/
inductive Command where
  | aml (input : Option String) (rendering : Rendering)
  | storedQuery (input : Option String) (rendering : Rendering)
  | filter (itemType sql : String) (rendering : Rendering)
  | search (request : SearchRequest) (rendering : Rendering)
  | pattern (text : String) (source target : PatternStyle)

/-- A command and what holds for all commands. -/
structure Invocation where
  schema : Option String := none
  config : Option String := none
  verbose : Bool := false
  command : Command

/-- The options of all commands. -/
def sharedSwitches : List Switch :=
  [{ long := "schema" }, { long := "config" }, { long := "verbose", short := some 'v', takesValue := false }]

/-- The options of commands that write a query. -/
def renderingSwitches : List Switch :=
  [{ long := "to", short := some 't' }, { long := "normalize", short := some 'n', takesValue := false },
   { long := "dialect" }]

/-- The options of a command, if there is one of this name. -/
def commandSwitches? : String → Option (List Switch)
  | "aml" => some renderingSwitches
  | "qdef" => some renderingSwitches
  | "where" => some ({ long := "type" } :: renderingSwitches)
  | "search" =>
    some
      ([{ long := "type" }, { long := "property", short := some 'p' }, { long := "data-type" },
        { long := "condition", short := some 'c' }] ++ renderingSwitches)
  | "pattern" => some [{ long := "from" }, { long := "to" }]
  | _ => none

/-- What the value of an option means, or `fallback` for an option that was not given. -/
def Given.read? {α : Type} (g : Given) (name : String) (fallback : α) (ofText? : String → Option α) : Option α :=
  match g.value? name with
  | some value => ofText? value
  | none => some fallback

/-- How to write the query. -/
def Given.rendering? (g : Given) : Option Rendering := do
  return {
    format := ← g.read? "to" .sql OutputFormat.ofName?
    normalize := g.has "normalize"
    dialect := ← g.read? "dialect" none fun name => (Dialect.ofName? name).map some }

/-- The command of a name with its arguments. -/
def command? (name : String) (g : Given) : Option Command := do
  match name, g.operands with
  | "aml", [] => return .aml none (← g.rendering?)
  | "aml", [input] => return .aml (some input) (← g.rendering?)
  | "qdef", [] => return .storedQuery none (← g.rendering?)
  | "qdef", [input] => return .storedQuery (some input) (← g.rendering?)
  | "where", [sql] => return .filter (← g.value? "type") sql (← g.rendering?)
  | "search", [text] =>
    let request : SearchRequest :=
      { itemType := ← g.value? "type", property := ← g.value? "property"
        dataType := (g.value? "data-type").map DataType.ofName, condition := g.value? "condition", text }
    return .search request (← g.rendering?)
  | "pattern", [text] =>
    return .pattern text (← g.read? "from" (.wildcards .sqlServer) PatternStyle.ofName?)
      (← g.read? "to" .regex PatternStyle.ofName?)
  | _, _ => none

/-- A path on one side of the command's name: the one given there, or the usual one. No path is empty. -/
def Given.path? (g : Given) (name : String) (usual : Option String) : Option (Option String) :=
  match (g.value? name).orElse fun _ => usual with
  | some "" => none
  | path => some path

/-- Reads the arguments; `usualSchema` is the schema where none is named. Of a path named on both sides of the
    command's name, the second one counts, and one that is named counts before the usual one. -/
def Invocation.ofArguments? (usualSchema : Option String) (args : List String) : Option Invocation := do
  let (before, rest) ← scan? sharedSwitches (fun _ => true) ({}, none) args
  match rest with
  | [] => none
  | name :: args =>
    let (after, _) ← scan? (sharedSwitches ++ (← commandSwitches? name)) (fun _ => false) ({}, none) args
    let path? (option : String) (usual : Option String) : Option (Option String) := do
      let outer ← before.path? option usual
      let inner ← after.path? option usual
      return if after.has option then inner else if before.has option then outer else inner
    return {
      schema := ← path? "schema" usualSchema
      config := ← path? "config" none
      verbose := before.has "verbose" || after.has "verbose"
      command := ← command? name after }

end ItemQuery.CommandLine
