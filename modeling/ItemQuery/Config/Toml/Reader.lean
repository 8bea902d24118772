import ItemQuery.Config.Toml.Scalar
import ItemQuery.Config.Toml.Tree

/-! Documents in TOML, line by line: headers open tables, and the lines below a header fill its table. -/

namespace ItemQuery.Config
namespace Toml

/-- A value and what follows it. -/
abbrev Reading : Type :=
  List Char → Option (Document × List Char)

/-- The text without gaps, line breaks and comments at its start. -/
def skipAll (cs : List Char) : List Char :=
  skipLines true cs.length cs

/-- The items of a list up to its bracket; each item is read by `inner`, and the last one may have a comma. -/
def items? (inner : Reading) : Nat → List Char → Option (List Document × List Char)
  | 0, _ => none
  | fuel + 1, cs =>
    match skipAll cs with
    | ']' :: cs => some ([], cs)
    | cs => do
      let (first, cs) ← inner cs
      match skipAll cs with
      | ']' :: cs => return ([first], cs)
      | ',' :: cs =>
        let (more, cs) ← items? inner fuel cs
        return (first :: more, cs)
      | _ => none

/-- A key and its value. -/
def assignment? (inner : Reading) (cs : List Char) : Option ((List String × Document) × List Char) := do
  let (key, cs) ← key? levels cs
  let (value, cs) ← inner (skipGap (← after? '=' cs))
  return ((key, value), cs)

/-- The entries of a table on one line up to its brace. -/
def pairs? (inner : Reading) : Nat → Entries → List Char → Option (Entries × List Char)
  | 0, _, _ => none
  | fuel + 1, entries, cs => do
    let ((key, value), cs) ← assignment? inner cs
    let entries ← entries.insert? key value
    match skipGap cs with
    | '\x7d' :: cs => return (entries, cs)
    | ',' :: cs => pairs? inner fuel entries cs
    | _ => none

/-- A value of which the parts are read by `inner`. -/
def composed? (inner : Reading) (cs : List Char) : Option (Document × List Char) :=
  match cs with
  | '[' :: rest => (items? inner (rest.length + 1) rest).map fun halves => (.list halves.1, halves.2)
  | '\x7b' :: rest =>
    match skipGap rest with
    | '\x7d' :: rest => some (.table [], rest)
    | rest =>
      (pairs? inner (rest.length + 1) [] rest).map fun halves => (.table (entryDocuments halves.1), halves.2)
  | _ => simple? cs

/-- A value with at most `depth` levels. -/
def value? : Nat → Reading
  | 0 => simple?
  | depth + 1 => composed? (value? depth)

/-- The tables after all lines. Every line takes at least one character. -/
def lines? : Nat → State → List Char → Option State
  | 0, _, _ => none
  | fuel + 1, s, cs =>
    match skipGap cs with
    | [] => some s
    | '[' :: '[' :: cs => do
      let (path, cs) ← key? levels cs
      let cs ← afterLine? (← after? ']' (← after? ']' cs))
      lines? fuel (← s.openElement? path) cs
    | '[' :: cs => do
      let (path, cs) ← key? levels cs
      let cs ← afterLine? (← after? ']' cs)
      lines? fuel (← s.openTable? path) cs
    | cs =>
      match afterLine? cs with
      | some next => lines? fuel s next
      | none => do
        let ((key, value), cs) ← assignment? (value? levels) cs
        let current ← s.current.insert? key value
        lines? fuel { s with current } (← afterLine? cs)

end Toml

/-- Reads TOML; a byte order mark at its start is left out. -/
def Document.ofToml? (source : String) : Option Document := do
  let cs := match source.toList with
    | '\uFEFF' :: rest => rest
    | cs => cs
  let s ← Toml.lines? (cs.length + 1) {} cs
  return .table (Toml.entryDocuments (← s.close?))

end ItemQuery.Config
