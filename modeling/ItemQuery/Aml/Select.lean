import ItemQuery.Query.Basic
import ItemQuery.Text.Letters

/-! Select lists of AML: names with commas between them, where a foreign key may be followed by the list of
    the table behind it in parentheses. -/

namespace ItemQuery.Aml

/-- An entry with the entries of the table behind it. -/
inductive SelectNode where
  | node (name : String) (children : List SelectNode)
deriving Repr, Inhabited

/-- The characters of names; a star stands for all properties. -/
def isFieldChar (c : Char) : Bool :=
  Text.isAlphanumeric c || c == '_' || c == '*' || c == '$'

/-- Drops spacing. -/
def skipSpacing (cs : List Char) : List Char :=
  cs.dropWhile Text.isSpacing

/-- A closing parenthesis with spacing around it. -/
def closing? (cs : List Char) : Option (List Char) :=
  match skipSpacing cs with
  | ')' :: rest => some (skipSpacing rest)
  | _ => none

mutual

/-- One entry and what follows it. Parentheses that hold no list are left to what follows. -/
def selectNode? : Nat → List Char → Option (SelectNode × List Char)
  | 0, _ => none
  | fuel + 1, cs =>
    let start := skipSpacing cs
    let name := start.takeWhile isFieldChar
    let rest := skipSpacing (start.dropWhile isFieldChar)
    if name.isEmpty then none
    else
      let inner := match rest with
        | '(' :: body =>
          (selectList? fuel body).bind fun found => (closing? found.2).map fun after => (found.1, after)
        | _ => none
      match inner with
      | some (children, after) => some (.node (String.ofList name) children, after)
      | none => some (.node (String.ofList name) [], rest)

/-- A nonempty list of entries and what follows it. -/
def selectList? : Nat → List Char → Option (List SelectNode × List Char)
  | 0, _ => none
  | fuel + 1, cs =>
    (selectNode? fuel cs).map fun found =>
      let more := moreNodes fuel found.2
      (found.1 :: more.1, more.2)

/-- The entries after the first; a comma without an entry is left to what follows. -/
def moreNodes : Nat → List Char → List SelectNode × List Char
  | 0, cs => ([], cs)
  | fuel + 1, cs =>
    match cs with
    | ',' :: rest =>
      match selectNode? fuel rest with
      | some found =>
        let more := moreNodes fuel found.2
        (found.1 :: more.1, more.2)
      | none => ([], cs)
    | _ => ([], cs)

end

/-- Reads a select list. Each character is passed by at most three nested calls. -/
def readSelect (value : String) : Result (List SelectNode) :=
  let cs := value.toList
  match selectList? (3 * cs.length + 3) cs with
  | none => .error (.parse 0 "invalid select list")
  | some (nodes, rest) =>
    match skipSpacing rest with
    | [] => .ok nodes
    | unread =>
      .error (.parse (value.utf8ByteSize - (String.ofList unread).utf8ByteSize) "unexpected text in select")

mutual

/-- Adds an entry to the select list of a table, and its inner entries to the table behind it. -/
def addSelectNode (q : Query) (table : TableId) : SelectNode → Query
  | .node name children =>
    let expr := if name = "*" then Expr.allProperties table false else .prop table name
    let q := q.modify table fun item => { item with select := item.select ++ [{ expr }] }
    if children.isEmpty then q
    else
      let joined := q.joinProperty table name .leftOuter
      addSelectNodes joined.2 joined.1 children

/-- Adds entries in order. -/
def addSelectNodes (q : Query) (table : TableId) : List SelectNode → Query
  | [] => q
  | node :: nodes => addSelectNodes (addSelectNode q table node) table nodes

end

/-- Adds the entries of a select attribute; a blank one adds nothing. -/
def applySelect (q : Query) (table : TableId) (value : String) : Result Query :=
  if (Text.trim value).isEmpty then .ok q else (readSelect value).map (addSelectNodes q table)

end ItemQuery.Aml
