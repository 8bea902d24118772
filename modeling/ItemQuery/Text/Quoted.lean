/-! Quoting by doubling: inside a quoted text the closing quote is written twice. -/

namespace ItemQuery.Text

/-- Writes every `quote` twice. -/
def doubled (quote : Char) : List Char → List Char
  | [] => []
  | c :: cs => if c = quote then quote :: quote :: doubled quote cs else c :: doubled quote cs

/-- Reads every pair of quotes, from the left, as one. -/
def undoubled (quote : Char) : List Char → List Char
  | [] => []
  | [c] => [c]
  | c :: d :: cs =>
    if c = quote ∧ d = quote then quote :: undoubled quote cs
    else c :: undoubled quote (d :: cs)

/-- The text between `opening` and `closing`, with the closing quote doubled inside. -/
def quotedBy (opening closing : Char) (s : String) : String :=
  String.ofList (opening :: (doubled closing s.toList ++ [closing]))

/-- A text literal in single quotes. -/
def quoted (s : String) : String :=
  quotedBy '\'' '\'' s

/-- The text between the two marks when `cs` starts with the one and then ends with the other. -/
def between? (opening closing : Char) : List Char → Option (List Char)
  | [] => none
  | c :: cs =>
    if c = opening then
      match cs.reverse with
      | [] => none
      | d :: body => if d = closing then some body.reverse else none
    else none

end ItemQuery.Text
