import ItemQuery.Error
import ItemQuery.Text.Blank
import ItemQuery.Text.Letters
import ItemQuery.Text.Quoted

/-! Tokens of SQL fragments. A token keeps its source text and its place in bytes. Two-word operators are
    one token, and the `and` between the bounds of a `between` has a keyword of its own. -/

namespace ItemQuery.Sql

/-- The words and pairs of words that are no names. -/
inductive Keyword where
  | and
  | or
  | not
  | inList
  | notIn
  | like
  | notLike
  | between
  | notBetween
  /-- The `and` between the bounds of a `between`. -/
  | betweenAnd
  | is
  | isNot
  | null
deriving DecidableEq, Repr, Inhabited

/-- The keyword of a single word in any case. -/
def Keyword.ofWord? (word : String) : Option Keyword :=
  match word.toLower with
  | "and" => some .and
  | "or" => some .or
  | "not" => some .not
  | "in" => some .inList
  | "like" => some .like
  | "between" => some .between
  | "is" => some .is
  | "null" => some .null
  | _ => none

/-- Whether a word is never a name. -/
def isKeyword (word : String) : Bool :=
  (Keyword.ofWord? word).isSome

/-- The kinds of tokens. -/
inductive TokenKind where
  | keyword (word : Keyword)
  | identifier
  | number
  | string
  | operator
  | comment
deriving DecidableEq, Repr, Inhabited

/-- A token with its source text and its offset in bytes. -/
structure Token where
  kind : TokenKind
  text : String
  offset : Nat
deriving DecidableEq, Repr, Inhabited

/-! ### Recognizers

Each one splits a list of characters into the recognized text and the rest. -/

/-- A recognized text and what follows it. -/
abbrev Split : Type :=
  List Char × List Char

/-- Puts characters in front of the recognized text. -/
def Split.after (front : List Char) (s : Split) : Split :=
  (front ++ s.1, s.2)

/-- The longest start of characters that satisfy `p`. -/
def spanWhile (p : Char → Bool) (cs : List Char) : Split :=
  (cs.takeWhile p, cs.dropWhile p)

/-- A comment up to the end of its line, after its two dashes. A carriage return must belong to a line end. -/
def lineComment? (cs : List Char) : Option Split :=
  let s := spanWhile (fun c => c != '\r' && c != '\n') cs
  match s.2 with
  | '\r' :: '\n' :: _ => some s
  | '\r' :: _ => none
  | _ => some s

/-- A comment up to its end mark, after its start mark. -/
def blockComment? (cs : List Char) : Option Split :=
  (Text.cut? ['*', '/'] cs).map fun s => (s.1 ++ ['*', '/'], s.2)

/-- A quoted text up to its closing quote, after the opening one; a doubled quote does not close it. -/
def quotedTail? (quote : Char) : List Char → Option Split
  | [] => none
  | [c] => if c = quote then some ([c], []) else none
  | c :: d :: cs =>
    if c = quote then
      if d = quote then (quotedTail? quote cs).map (·.after [c, d]) else some ([c], d :: cs)
    else (quotedTail? quote (d :: cs)).map (·.after [c])

/-- Characters that can start a word; a sign for parameters is one too. -/
def startsWord (c : Char) : Bool :=
  Text.isAlphabetic c || c == '_' || c == '@' || c == ':'

/-- Characters that can continue a word. -/
def continuesWord (c : Char) : Bool :=
  Text.isAlphanumeric c || c == '_' || c == '$'

/-- A word: starting characters, then continuing ones. -/
def word? (cs : List Char) : Option Split :=
  let first := spanWhile startsWord cs
  if first.1.isEmpty then none else some ((spanWhile continuesWord first.2).after first.1)

/-- The outcome of a recognizer: nothing, a text, or a text that is not closed. -/
inductive Scan where
  | absent
  | found (s : Split)
  | unclosed
deriving Repr, Inhabited

/-- A text that has to be closed once it is opened. -/
def Scan.committed (front : List Char) : Option Split → Scan
  | some s => found (s.after front)
  | none => unclosed

/-- A recognizer that either finds something or does not apply. -/
def Scan.ofOption : Option Split → Scan
  | some s => found s
  | none => absent

/-- A part of a dotted name: in brackets, in double quotes, or a word. -/
def segment (cs : List Char) : Scan :=
  match cs with
  | '[' :: rest => .committed ['['] (quotedTail? ']' rest)
  | '"' :: rest => .committed ['"'] (quotedTail? '"' rest)
  | _ => .ofOption (word? cs)

/-- The further parts of a dotted name, each after a point. -/
def moreSegments : Nat → List Char → Scan
  | 0, cs => .found ([], cs)
  | fuel + 1, cs =>
    match cs with
    | '.' :: rest =>
      match segment rest with
      | .absent => .found ([], cs)
      | .unclosed => .unclosed
      | .found s =>
        match moreSegments fuel s.2 with
        | .found more => .found (more.after ('.' :: s.1))
        | other => other
    | _ => .found ([], cs)

/-- A dotted name. -/
def identifier (cs : List Char) : Scan :=
  match segment cs with
  | .found s =>
    match moreSegments s.2.length s.2 with
    | .found more => .found (more.after s.1)
    | other => other
  | other => other

/-- The exponent of a number, if it has one. -/
def exponent (cs : List Char) : Split :=
  let sign := match cs.drop 1 with
    | '+' :: _ => ['+']
    | '-' :: _ => ['-']
    | _ => []
  let digits := spanWhile Char.isDigit (cs.drop (1 + sign.length))
  match cs with
  | c :: _ => if (c = 'e' ∨ c = 'E') ∧ !digits.1.isEmpty then digits.after (c :: sign) else ([], cs)
  | [] => ([], cs)

/-- The digits of a number, with a point among them or in front. -/
def mantissa? (cs : List Char) : Option Split :=
  let whole := spanWhile Char.isDigit cs
  match whole.1, whole.2 with
  | [], '.' :: rest =>
    let fraction := spanWhile Char.isDigit rest
    if fraction.1.isEmpty then none else some (fraction.after ['.'])
  | [], _ => none
  | digits, '.' :: rest => some ((spanWhile Char.isDigit rest).after (digits ++ ['.']))
  | _, _ => some whole

/-- A number. -/
def number? (cs : List Char) : Option Split :=
  (mantissa? cs).map fun m => (exponent m.2).after m.1

/-- A comment of either form. -/
def comment (cs : List Char) : Scan :=
  match cs with
  | '-' :: '-' :: rest => .ofOption ((lineComment? rest).map (·.after ['-', '-']))
  | '/' :: '*' :: rest => .committed ['/', '*'] (blockComment? rest)
  | _ => .absent

/-- A text in single quotes, possibly after the letter N. -/
def stringLiteral (cs : List Char) : Scan :=
  match cs with
  | '\'' :: rest => .committed ['\''] (quotedTail? '\'' rest)
  | c :: '\'' :: rest =>
    if c = 'N' ∨ c = 'n' then .committed [c, '\''] (quotedTail? '\'' rest) else .absent
  | _ => .absent

/-- An operator of two characters, or any single character. -/
def operator (cs : List Char) : Scan :=
  match cs with
  | '<' :: '>' :: rest => .found (['<', '>'], rest)
  | '!' :: '=' :: rest => .found (['!', '='], rest)
  | '<' :: '=' :: rest => .found (['<', '='], rest)
  | '>' :: '=' :: rest => .found (['>', '='], rest)
  | '|' :: '|' :: rest => .found (['|', '|'], rest)
  | c :: rest => .found ([c], rest)
  | [] => .absent

/-- The kind of a name: a keyword if it is one. -/
def nameKind (shown : List Char) : TokenKind :=
  ((Keyword.ofWord? (String.ofList shown)).map .keyword).getD .identifier

/-- The first of several recognizers that applies; a text that is not closed ends the search. -/
def firstOf (cs : List Char) : List ((List Char → Scan) × (List Char → TokenKind)) → Option (TokenKind × Split)
  | [] => none
  | (scan, kind) :: rest =>
    match scan cs with
    | .absent => firstOf cs rest
    | .unclosed => none
    | .found s => some (kind s.1, s)

/-- The token at the start of a text; none if it is not closed. -/
def scanToken? (cs : List Char) : Option (TokenKind × Split) :=
  firstOf cs
    [(comment, fun _ => .comment), (stringLiteral, fun _ => .string), (fun cs => .ofOption (number? cs), fun _ => .number),
     (identifier, nameKind), (operator, fun _ => .operator)]

/-! ### Splitting a fragment -/

/-- The length of a text in bytes. -/
def byteLength : List Char → Nat
  | [] => 0
  | c :: cs => c.utf8Size + byteLength cs

/-- What is not closed in a text that does not start with a token. -/
def unclosedReason (cs : List Char) : String :=
  let starts (s : String) := s.toList.isPrefixOf cs
  if starts "/*" then "unterminated comment"
  else if starts "'" || starts "N'" || starts "n'" then "unterminated string"
  else if starts "[" || Text.occursIn ".[".toList cs then "unterminated bracketed identifier"
  else if starts "\"" || Text.occursIn ".\"".toList cs then "unterminated quoted identifier"
  else "unexpected character"

/-- The tokens of a text that starts at `offset`, before pairs of words are joined. Each token takes at
    least one character, so as much fuel as there are characters is enough. -/
def scanAll : Nat → Nat → List Char → Result (List Token)
  | 0, _, _ => .ok []
  | fuel + 1, offset, cs =>
    let blank := spanWhile Text.isBlank cs
    let start := offset + byteLength blank.1
    match blank.2 with
    | [] => .ok []
    | body =>
      match scanToken? body with
      | none => .error (.lex start (unclosedReason body))
      | some (kind, shown, rest) =>
        (scanAll fuel (start + byteLength shown) rest).map (⟨kind, String.ofList shown, start⟩ :: ·)

/-- The characters between two offsets in bytes; `at_` is the offset of the first character given. -/
def sourceSlice (start stop at_ : Nat) : List Char → List Char
  | [] => []
  | c :: cs =>
    if stop ≤ at_ then []
    else if start ≤ at_ then c :: sourceSlice start stop (at_ + c.utf8Size) cs
    else sourceSlice start stop (at_ + c.utf8Size) cs

/-- The keyword that two words make. -/
def compound? : Keyword → Keyword → Option Keyword
  | .not, .like => some .notLike
  | .not, .inList => some .notIn
  | .not, .between => some .notBetween
  | .is, .not => some .isNot
  | _, _ => none

/-- Lets `word` join the last token that is no comment, in a list with the last token first. The joined
    token takes all the source text up to the end of `word`. -/
def joinLast? (source : List Char) (word : Keyword) (token : Token) : List Token → Option (List Token)
  | [] => none
  | last :: before =>
    match last.kind with
    | .comment => (joinLast? source word token before).map (last :: ·)
    | .keyword other =>
      (compound? other word).map fun joined =>
        let stop := token.offset + byteLength token.text.toList
        { last with kind := .keyword joined, text := String.ofList (sourceSlice last.offset stop 0 source) } :: before
    | _ => none

/-- The state of joining words: the tokens so far, the last one first, the depth of parentheses, and the
    depths of the `between`s whose `and` is still to come, the last one first. A depth is no further from zero than
    there are tokens, so 32 bits hold it for every text of fewer than `2 ^ 31` tokens. -/
structure Joining where
  done : List Token := []
  depth : Int := 0
  pending : List Int := []

/-- Takes the next token. -/
def Joining.push (source : List Char) (s : Joining) (token : Token) : Joining :=
  match token.kind with
  | .operator =>
    if token.text = "(" then { s with done := token :: s.done, depth := s.depth + 1 }
    else if token.text = ")" then
      { done := token :: s.done, depth := s.depth - 1, pending := s.pending.filter (· < s.depth) }
    else { s with done := token :: s.done }
  | .keyword word =>
    let pending := if word = .between then s.depth :: s.pending else s.pending
    match joinLast? source word token s.done with
    | some done => { s with done, pending }
    | none =>
      if word = .and ∧ pending.head? = some s.depth then
        { s with done := { token with kind := .keyword .betweenAnd } :: s.done, pending := pending.tail }
      else { s with done := token :: s.done, pending }
  | _ => { s with done := token :: s.done }

/-- The tokens of a fragment. -/
def tokenize (sql : String) : Result (List Token) :=
  let source := sql.toList
  (scanAll (source.length + 1) 0 source).map fun tokens =>
    (tokens.foldl (Joining.push source) {}).done.reverse

/-! ### What a token says -/

namespace Token

/-- Whether the token is this operator. -/
def isOp (t : Token) (symbol : String) : Bool :=
  t.kind == .operator && t.text == symbol

/-- Whether the token is a comment. -/
def isComment (t : Token) : Bool :=
  t.kind == .comment

/-- The value of a quoted text. -/
def stringValue (t : Token) : String :=
  let body := match t.text.toList with
    | 'N' :: rest => rest
    | 'n' :: rest => rest
    | cs => cs
  String.ofList (Text.undoubled '\'' ((Text.between? '\'' '\'' body).getD body))

/-- A part of a name without its brackets or quotes. -/
def segmentValue (cs : List Char) : String :=
  String.ofList <|
    match Text.between? '[' ']' cs with
    | some body => Text.undoubled ']' body
    | none =>
      match Text.between? '"' '"' cs with
      | some body => Text.undoubled '"' body
      | none => cs

/-- The parts of a dotted name, without brackets and quotes. -/
def segmentsOf : Nat → List Char → List String
  | 0, _ => []
  | _, [] => []
  | fuel + 1, cs =>
    match segment cs with
    | .found s =>
      let rest := match s.2 with
        | '.' :: more => more
        | more => more
      segmentValue s.1 :: segmentsOf fuel rest
    | _ => [segmentValue cs]

/-- The parts of a dotted name. -/
def segments (t : Token) : List String :=
  segmentsOf t.text.toList.length t.text.toList

end Token
end ItemQuery.Sql
