import ItemQuery.Number.Integer
import ItemQuery.Text.Blank
import ItemQuery.Xml.Event

/-! XML text as events. Text between two pieces of markup is trimmed of spacing and dropped if nothing is
    left; comments, processing instructions, declarations and name space declarations are left out. Reading
    stops at the first fault, and the events before it count. -/

namespace ItemQuery.Xml

/-- The events up to the end or to the first fault. -/
structure Document where
  events : List Event
  fault : Option QueryError
deriving Repr

namespace Document

/-- No events and a fault. -/
def failed (reason : String) : Document :=
  { events := [], fault := some (.xml reason) }

/-- Events that come before a document. -/
def after (events : List Event) (d : Document) : Document :=
  { d with events := events ++ d.events }

end Document

/-! ### References -/

/-- The character of a number other than zero. -/
def character? (code : Nat) : Option Char :=
  if h : code.isValidChar then if code = 0 then none else some (Char.ofNatAux code h) else none

/-- The character that a reference names. -/
def reference? (body : List Char) : Option Char :=
  match body with
  | '#' :: 'x' :: digits => (Number.digitsIn? 16 digits).bind character?
  | '#' :: digits => (Number.digitsIn? 10 digits).bind character?
  | _ =>
    match String.ofList body with
    | "lt" => some '<'
    | "gt" => some '>'
    | "amp" => some '&'
    | "apos" => some '\''
    | "quot" => some '"'
    | _ => none

/-- Replaces references. `body` holds the reversed characters of a reference that has begun. -/
def unescape? : Option (List Char) → List Char → Option (List Char)
  | none, [] => some []
  | some _, [] => none
  | none, '&' :: cs => unescape? (some []) cs
  | none, c :: cs => (unescape? none cs).map (c :: ·)
  | some _, '&' :: _ => none
  | some body, ';' :: cs =>
    (reference? body.reverse).bind fun c => (unescape? none cs).map (c :: ·)
  | some body, c :: cs => unescape? (some (c :: body)) cs

/-- The text with its references replaced. -/
def unescaped? (cs : List Char) : Option String :=
  (unescape? none cs).map String.ofList

/-! ### Tags -/

/-- A name, split at its first colon. -/
def nameOf (cs : List Char) : Name :=
  match Text.cut? [':'] cs with
  | some (qualifier, rest) => { qualifier := String.ofList qualifier, localName := String.ofList rest }
  | none => { localName := String.ofList cs }

/-- Whether an attribute declares a name space. -/
def declaresSpace (key : List Char) : Bool :=
  key == "xmlns".toList || "xmlns:".toList.isPrefixOf key

/-- The events of a list of attributes; `seen` are the keys so far. Each attribute takes at least one
    character, so as much fuel as there are characters is enough. -/
def attributes : Nat → List (List Char) → List Char → Document
  | 0, _, _ => { events := [], fault := none }
  | fuel + 1, seen, cs =>
    match cs.dropWhile Text.isSpacing with
    | [] => { events := [], fault := none }
    | first :: rest =>
      let endsKey (c : Char) := c == '=' || Text.isSpacing c
      let key := first :: rest.takeWhile (!endsKey ·)
      match (rest.dropWhile (!endsKey ·)).dropWhile Text.isSpacing with
      | '=' :: afterEquals =>
        if seen.contains key then .failed "repeated attribute"
        else
          match afterEquals.dropWhile Text.isSpacing with
          | quote :: body =>
            if quote != '\'' && quote != '"' then .failed "value of an attribute without quotes"
            else
              match Text.cut? [quote] body with
              | none => .failed "value of an attribute not closed"
              | some (value, more) =>
                if declaresSpace key then attributes fuel (key :: seen) more
                else
                  match unescaped? value with
                  | none => .failed "unknown reference"
                  | some shown =>
                    (attributes fuel (key :: seen) more).after
                      [.startAttribute (nameOf key), .text shown, .endAttribute]
          | [] => .failed "value of an attribute missing"
      | _ => .failed "equals sign of an attribute missing"

/-- The name at the start of a tag, and the attributes after it. -/
def tagName (body : List Char) : List Char × List Char :=
  (body.takeWhile (!Text.isSpacing ·), body.dropWhile (!Text.isSpacing ·))

/-- The events of a start tag without its brackets. -/
def startTag (body : List Char) : Document :=
  let (name, rest) := tagName body
  (attributes (rest.length + 1) [] rest).after [.startElement (nameOf name)]

/-- Splits after a tag; a bracket in quotes does not close it. -/
def tagEnd? : Option Char → List Char → Option (List Char × List Char)
  | _, [] => none
  | none, c :: cs =>
    if c = '>' then some ([], cs)
    else
      (tagEnd? (if c = '\'' ∨ c = '"' then some c else none) cs).map fun halves => (c :: halves.1, halves.2)
  | some quote, c :: cs =>
    (tagEnd? (if c = quote then none else some quote) cs).map fun halves => (c :: halves.1, halves.2)

/-- Splits after a document type; brackets inside of it are balanced. -/
def docTypeEnd? : Int → List Char → Option (List Char × List Char)
  | _, [] => none
  | depth, c :: cs =>
    if c = '>' ∧ depth = 0 then some ([], cs)
    else
      let inner := if c = '<' then depth + 1 else if c = '>' then depth - 1 else depth
      (docTypeEnd? inner cs).map fun halves => (c :: halves.1, halves.2)

/-- A piece of markup, after its opening bracket, and what follows it. -/
inductive Markup where
  | start (body : List Char)
  | empty (body : List Char)
  | finish (name : List Char)
  | text (body : List Char)
  | ignored
deriving Repr, Inhabited

/-- The markup that follows an exclamation mark. -/
def declaration? (cs : List Char) : Option (Markup × List Char) :=
  match cs with
  | '-' :: '-' :: rest => (Text.cut? "-->".toList rest).map fun halves => (.ignored, halves.2)
  | '[' :: _ =>
    if "[CDATA[".toList.isPrefixOf cs then
      (Text.cut? "]]>".toList (cs.drop 7)).map fun halves => (.text halves.1, halves.2)
    else none
  | _ =>
    if (String.ofList (cs.take 7)).toLower = "doctype" then
      (docTypeEnd? 0 cs).bind fun halves =>
        if (halves.1.drop 7).all Text.isSpacing then none else some (.ignored, halves.2)
    else none

/-- The name in an end tag, without the spacing after it; spacing alone is taken as it is. -/
def closedName (body : List Char) : List Char :=
  match Text.dropEndWhile Text.isSpacing body with
  | [] => body
  | name => name

/-- The markup after an opening bracket. -/
def markup? (cs : List Char) : Option (Markup × List Char) :=
  match cs with
  | '!' :: rest => declaration? rest
  | '?' :: '>' :: _ => none
  | '?' :: rest => (Text.cut? "?>".toList rest).map fun halves => (.ignored, halves.2)
  | '/' :: rest => (tagEnd? none rest).map fun halves => (.finish (closedName halves.1), halves.2)
  | _ =>
    (tagEnd? none cs).map fun halves =>
      match halves.1.reverse with
      | '/' :: body => (.empty body.reverse, halves.2)
      | _ => (.start halves.1, halves.2)

/-! ### Documents -/

/-- The events of the text between two pieces of markup. -/
def textRun (cs : List Char) : Document :=
  match unescaped? (Text.trimWhile Text.isSpacing cs) with
  | none => .failed "unknown reference"
  | some "" => { events := [], fault := none }
  | some shown => { events := [.text shown], fault := none }

/-- Continues after a part, unless that part has a fault. -/
def Document.andThen (d : Document) (next : Unit → Document) : Document :=
  match d.fault with
  | some _ => d
  | none => (next ()).after d.events

/-- Reads on with the names of the elements that are open. Each piece of markup takes at least one
    character, so as much fuel as there are characters is enough. -/
def readFrom : Nat → List (List Char) → List Char → Document
  | 0, _, _ => { events := [], fault := none }
  | fuel + 1, opened, cs =>
    (textRun (cs.takeWhile (· != '<'))).andThen fun _ =>
      match cs.dropWhile (· != '<') with
      | [] => { events := [], fault := none }
      | _ :: rest =>
        match markup? rest with
        | none => .failed "markup not closed"
        | some (.start body, more) =>
          (startTag body).andThen fun _ => readFrom fuel ((tagName body).1 :: opened) more
        | some (.empty body, more) =>
          (startTag body).andThen fun _ => (readFrom fuel opened more).after [.endElement]
        | some (.finish name, more) =>
          match opened with
          | [] => .failed "end tag without a start tag"
          | expected :: outer =>
            if name = expected then (readFrom fuel outer more).after [.endElement]
            else .failed "end tag of another element"
        | some (.text body, more) => (readFrom fuel opened more).after [.text (String.ofList body)]
        | some (.ignored, more) => readFrom fuel opened more

/-- The events of a text. A byte order mark at its start is skipped. -/
def read (source : String) : Document :=
  let cs := match source.toList with
    | '\uFEFF' :: rest => rest
    | cs => cs
  readFrom (cs.length + 1) [] cs

/-- Gives the events of a text to a step function, up to the first failure of either. -/
def feed {σ : Type} (step : σ → Event → Result σ) (start : σ) (source : String) : Result σ := do
  let d := read source
  let last ← d.events.foldlM step start
  match d.fault with
  | some fault => .error fault
  | none => return last

end ItemQuery.Xml
