/-! Why reading, normalizing or rendering a query fails. Each constructor is one class of causes; the
    wording shown to a user is `QueryError.message`. -/

namespace ItemQuery

/-- The reasons for which an operation on queries gives no result. -/
inductive QueryError where
  /-- A token that is not closed starts at this position. -/
  | lex (position : Nat) (reason : String)
  /-- The tokens are well formed, but their order is not. -/
  | parse (position : Nat) (reason : String)
  /-- A construct without a counterpart in the model or in the wanted format. -/
  | unsupported (reason : String)
  /-- A reference to an unknown table, or to several where one is needed. -/
  | ambiguous (reason : String)
  /-- XML text or XML events out of order. -/
  | xml (reason : String)
  /-- A settings or schema document that cannot be read. -/
  | config (reason : String)
  /-- A file that cannot be read. -/
  | io (reason : String)
  /-- The table in this slot was removed, yet its contents are needed. -/
  | stale (slot : Nat)
deriving DecidableEq, Repr, Inhabited

namespace QueryError

/-- The text reported for an error. -/
def message : QueryError → String
  | lex position reason => "Lexical error at position " ++ toString position ++ ": " ++ reason
  | parse position reason => "Parse error at position " ++ toString position ++ ": " ++ reason
  | unsupported reason => "Unsupported: " ++ reason
  | ambiguous reason => "Ambiguous reference: " ++ reason
  | xml reason => "XML error: " ++ reason
  | config reason => "Configuration error: " ++ reason
  | io reason => "IO error: " ++ reason
  | stale slot => "stale table handle t" ++ toString slot

end QueryError

/-- The outcome of an operation that can fail. -/
abbrev Result (α : Type) : Type :=
  Except QueryError α

end ItemQuery
