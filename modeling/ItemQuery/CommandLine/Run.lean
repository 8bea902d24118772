import ItemQuery.CommandLine.Arguments
import ItemQuery.CommandLine.Files
import ItemQuery.Config.Load
import ItemQuery.Convert
import ItemQuery.Normalize
import ItemQuery.OData
import ItemQuery.Pattern.Regex
import ItemQuery.Search.Reader
import ItemQuery.StoredQuery.Reader
import ItemQuery.StoredQuery.Writer

/-! What a command prints. Everything a command looks at is part of its surroundings, so a run is a function. -/

namespace ItemQuery.CommandLine

/-- What surrounds a run. -/
structure Surroundings where
  files : Files
  /-- The text on standard input. -/
  input : String := ""
  /-- The path of the schema for runs that name none. -/
  schemaPath : Option String := none
  /-- Where the user's settings are kept. -/
  userSettings : Option String := none
  /-- Names for the parts of stored queries. -/
  refIds : List String := []

/-- What a run leaves behind. -/
structure Outcome where
  code : Nat
  output : String := ""
  errors : String := ""
deriving DecidableEq, Repr

/-- A step of a run: a value, or the text of a complaint. -/
abbrev Step (α : Type) : Type :=
  Except String α

/-- The complaint about an error; an error of the system is named once more at the end. -/
def complaint : QueryError → String
  | .io reason => (QueryError.io reason).message ++ ": " ++ reason
  | e => e.message

/-- A result as a step. -/
def Step.of {α : Type} (r : Result α) : Step α :=
  r.mapError complaint

/-- A step whose complaint begins with what was being done. -/
def Step.during {α : Type} (activity : String) (s : Step α) : Step α :=
  s.mapError fun reason => activity ++ ": " ++ reason

/-- The name of the settings file. -/
def settingsFile : String :=
  "amlq.toml"

/-- The files that can hold the settings, if none is named. -/
def settingsFiles (userSettings : Option String) : List String :=
  settingsFile :: userSettings.toList

namespace Surroundings

/-- The contents of a file. -/
def read (s : Surroundings) (path : String) : Result String :=
  (s.files.entry path).contents.mapError .io

/-- The settings in a file: the one that is named, or the first that is there; else the usual ones. -/
def settings (s : Surroundings) (named : Option String) : Result Settings :=
  let found (path : String) : Bool := (s.files.entry path).isThere
  match named.orElse fun _ => (settingsFiles s.userSettings).find? found with
  | some path => do Settings.read (← s.read path)
  | none => .ok {}

/-- The schema in a file, if one is named. -/
def schema (s : Surroundings) : Option String → Step Schema
  | none => .ok {}
  | some path =>
    Step.during ("loading schema " ++ path) <| Step.of do
      Schema.read (.ofFileName path) (← s.read path)

/-- A document: given in place, as the path of a file, or on standard input. -/
def document (s : Surroundings) : Option String → Step String
  | none => .ok s.input
  | some "-" => .ok s.input
  | some shown =>
    if (Text.trimStart shown).startsWith "<" then .ok shown
    else if (s.files.entry shown).isThere then
      Step.during ("reading " ++ shown) (s.files.entry shown).contents
    else .error ("'" ++ shown ++ "' is neither XML nor an existing file")

end Surroundings

/-! ### Queries -/

/-- The criterion of a search request, if its text is not empty. -/
def SearchRequest.criterion? (r : SearchRequest) (ctx : Context) (q : Query) : Result (Option Expr) := do
  let condition ← match r.condition with
    | some name => some <$> Search.Condition.ofName name
    | none => pure none
  let property : PropertyRef := ⟨q.root, r.property⟩
  match r.dataType with
  | some dataType =>
    ({ settings := ctx.settings.search, dataType, condition } : Search.Reader).read property r.text
  | none => Search.parse ctx q property condition r.text

/-- The query of a command and how to write it; none if the command has nothing to ask. -/
def Command.query (s : Surroundings) (ctx : Context) : Command → Step (Option (Query × Rendering))
  | .aml input rendering => do
    return some (← Step.of (Aml.parse (← s.document input)), rendering)
  | .storedQuery input rendering => do
    return some (← Step.of (StoredQuery.parse (← s.document input)), rendering)
  | .filter itemType sql rendering => do
    return some (← Step.of (Query.ofWhere (.ofType itemType) sql), rendering)
  | .search request rendering => do
    let q := Query.ofType request.itemType
    let criterion ← Step.of (request.criterion? ctx q)
    return criterion.map fun e => (q.setFilter q.root e, rendering)
  | .pattern _ _ _ => return none

/-- The text of a query in a format. -/
def OutputFormat.write (refIds : List String) (ctx : Context) (q : Query) : OutputFormat → Result String
  | .sql => q.toSql ctx
  | .odata => q.toOData ctx
  | .aml => q.toAml ctx
  | .storedQuery => q.toStoredQuery ctx refIds

/-- The line about a query in a run that tells what it does. -/
def summary (ctx : Context) (q : Query) : String :=
  "Query: " ++ toString q.arena.size ++ " table(s), root " ++ (ctx.tableTypeName q q.root).getD "" ++ "\n"

/-! ### Runs -/

/-- A pattern in another style. -/
def convertPattern (text : String) (source target : PatternStyle) : Result String := do
  let p ← match source with
    | .regex => Pattern.ofRegex text
    | .wildcards style => Pattern.ofWildcard style text
  match target with
  | .regex => return p.toRegex
  | .wildcards style => Pattern.toWildcard style p

/-- A run that got this far and ends here, after these remarks. -/
def Outcome.ofStep (remarks : String) : Step String → Outcome
  | .ok shown => { code := 0, output := shown ++ "\n", errors := remarks }
  | .error reason => { code := 1, errors := remarks ++ "Error: " ++ reason ++ "\n" }

/-- Writes a query. -/
def emit (s : Surroundings) (verbose : Bool) (ctx : Context) (q : Query) (r : Rendering) : Outcome :=
  let ctx : Context := { ctx with settings.dialect := r.dialect.getD ctx.settings.dialect }
  match if r.normalize then q.normalize else .ok q with
  | .error e => .ofStep "" (.error (complaint e))
  | .ok q => .ofStep (if verbose then summary ctx q else "") (Step.of (r.format.write s.refIds ctx q))

/-- Settings and schema of a run. -/
def Invocation.context (s : Surroundings) (i : Invocation) : Step Context := do
  let settings ← Step.during "loading settings" (Step.of (s.settings i.config))
  return { settings, schema := ← s.schema i.schema }

/-- Runs a command. -/
def Invocation.run (s : Surroundings) (i : Invocation) : Outcome :=
  match i.context s with
  | .error reason => .ofStep "" (.error reason)
  | .ok ctx =>
    match i.command with
    | .pattern text source target => .ofStep "" (Step.of (convertPattern text source target))
    | command =>
      match command.query s ctx with
      | .error reason => .ofStep "" (.error reason)
      | .ok none => .ofStep "" (.ok "(empty search)")
      | .ok (some (q, rendering)) => emit s i.verbose ctx q rendering

/-- Runs the command of these arguments; arguments that make no command end with code 2. -/
def run (s : Surroundings) (args : List String) : Outcome :=
  match Invocation.ofArguments? s.schemaPath args with
  | some i => i.run s
  | none => { code := 2, errors := "Error: these arguments make no command\n" }

/-- The paths at which a run can look. -/
def Invocation.paths (userSettings : Option String) (i : Invocation) : List String :=
  let named := match i.command with
    | .aml input _ => input.toList
    | .storedQuery input _ => input.toList
    | _ => []
  i.schema.toList ++ i.config.elim (settingsFiles userSettings) (fun path => [path]) ++ named

/-- Whether a run reads standard input. -/
def Invocation.readsInput (i : Invocation) : Bool :=
  match i.command with
  | .aml input _ => input.getD "-" == "-"
  | .storedQuery input _ => input.getD "-" == "-"
  | _ => false

/-- How many names a run can give to the parts of a stored query. -/
def Invocation.partCount (s : Surroundings) (i : Invocation) : Nat :=
  match i.context s with
  | .error _ => 0
  | .ok ctx =>
    match i.command.query s ctx with
    | .ok (some (q, _)) => q.arena.size
    | _ => 0

end ItemQuery.CommandLine
