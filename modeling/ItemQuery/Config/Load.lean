import ItemQuery.Config.Json
import ItemQuery.Config.Toml.Reader
import ItemQuery.Settings

/-! Settings and schemas from documents. What a document leaves out keeps its default, and names that are not
    known are passed over. -/

namespace ItemQuery
namespace Config

/-- The notations of documents. -/
inductive Format where
  | json
  | toml
deriving DecidableEq, Repr

namespace Format

/-- The document of a text. -/
def read? : Format → String → Option Document
  | json => Document.ofJson?
  | toml => Document.ofToml?

/-- The fields of a record. In JSON a record written as a list has no items beyond its fields. -/
def fields? (f : Format) : List (List String) → Document → Option (List (Option Document)) :=
  Document.fields? (f == .toml)

/-- The notation that a file name asks for: TOML by its extension, else JSON. A point at the start of a name
    begins no extension. -/
def ofFileName (path : String) : Format :=
  match ((Text.pieces (· == '/') path).getLast?.getD "").toList with
  | [] => json
  | _ :: rest =>
    let extension := (Text.splitAt (· == '.') rest).tail.getLast?
    if extension.map (fun e => (String.ofList e).toLower) = some "toml" then toml else json

end Format

/-- A property of an item type. -/
def property? (f : Format) (d : Document) : Option PropertyDescriptor := do
  match ← f.fields? [["name"], ["data_type", "type"], ["data_source"]] d with
  | [name, dataType, dataSource] =>
    return {
      name := ← (← name).text?
      dataType := .ofName (← (← dataType).text?)
      dataSource := ← Document.orElse? none (Document.nullable? Document.text?) dataSource }
  | _ => none

/-- An item type. -/
def itemType? (f : Format) (d : Document) : Option ItemType := do
  match ← f.fields? [["name"], ["properties"]] d with
  | [name, properties] =>
    return {
      name := ← (← name).text?
      properties := ← Document.orElse? [] (Document.listOf? (property? f)) properties }
  | _ => none

/-- A schema. -/
def schema? (f : Format) (d : Document) : Option Schema := do
  match ← f.fields? [["item_types"]] d with
  | [itemTypes] => return { itemTypes := ← Document.orElse? [] (Document.listOf? (itemType? f)) itemTypes }
  | _ => none

/-- The name of a dialect, exactly as settings spell it. -/
def dialect? (d : Document) : Option Dialect :=
  match d.choice? with
  | some "sqlserver" => some .sqlServer
  | some "ansi" => some .ansi
  | _ => none

/-- The settings of searches. -/
def searchSettings? (d : Document) : Option SearchSettings := do
  let initial : SearchSettings := {}
  match ← Format.toml.fields? [["or_delimiters"], ["escape"], ["allow_operators"]] d with
  | [orDelimiters, escape, allowOperators] =>
    return {
      orDelimiters := ← Document.orElse? initial.orDelimiters Document.text? orDelimiters
      escape := ← Document.orElse? initial.escape (fun d => d.char?.map some) escape
      allowOperators := ← Document.orElse? initial.allowOperators Document.bool? allowOperators }
  | _ => none

/-- Settings. -/
def settings? (d : Document) : Option Settings := do
  let initial : Settings := {}
  let names := [["dialect"], ["time_zone_offset_minutes"], ["search"], ["sql_clauses"], ["parameters"]]
  match ← Format.toml.fields? names d with
  | [dialect, zone, search, clauses, parameters] =>
    return {
      dialect := ← Document.orElse? initial.dialect dialect? dialect
      timeZoneOffsetMinutes := ← Document.orElse? initial.timeZoneOffsetMinutes Document.int32? zone
      search := ← Document.orElse? initial.search searchSettings? search
      sqlClauses :=
        ← Document.orElse? [] (Document.listOf? fun d => d.choice?.bind SqlClause.ofName?) clauses
      parameters := .ofList (← Document.orElse? [] (Document.tableOf? Document.text?) parameters) }
  | _ => none

/-- What was read, or the complaint that it was not. -/
def orFault {α : Type} (subject : String) : Option α → Result α
  | some value => .ok value
  | none => .error (.config (subject ++ " cannot be read"))

end Config

/-- Reads a schema in one of the notations. -/
def Schema.read (f : Config.Format) (source : String) : Result Schema :=
  Config.orFault "schema" ((f.read? source).bind (Config.schema? f))

/-- Reads settings in TOML. -/
def Settings.read (source : String) : Result Settings :=
  Config.orFault "settings" ((Config.Format.toml.read? source).bind Config.settings?)

end ItemQuery
