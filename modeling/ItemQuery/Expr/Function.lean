/-! Functions that every format knows, and calls of others by name. -/

namespace ItemQuery

/-- A function. -/
inductive Function where
  | currentDateTime
  | currentUtcDateTime
  | startsWith
  | endsWith
  | contains
  /-- The place of the second argument in the first, from zero, or -1. -/
  | indexOf
  | length
  | toLower
  | toUpper
  | trim
  /-- Of a text, a start from zero and a length. -/
  | substring
  | year
  | month
  | day
  | hour
  | minute
  | second
  | addDays
  | addHours
  | addMinutes
  /-- Whole days from the first to the second argument. -/
  | diffDays
  | other (name : String)
deriving DecidableEq, Repr, Inhabited

namespace Function

/-- The functions with a name of their own. -/
def known : List Function :=
  [currentDateTime, currentUtcDateTime, startsWith, endsWith, contains, indexOf, length, toLower, toUpper, trim,
   substring, year, month, day, hour, minute, second, addDays, addHours, addMinutes, diffDays]

/-- The canonical name. -/
def name : Function → String
  | currentDateTime => "currentDateTime"
  | currentUtcDateTime => "currentUtcDateTime"
  | startsWith => "startsWith"
  | endsWith => "endsWith"
  | contains => "contains"
  | indexOf => "indexOf"
  | length => "length"
  | toLower => "toLower"
  | toUpper => "toUpper"
  | trim => "trim"
  | substring => "substring"
  | year => "year"
  | month => "month"
  | day => "day"
  | hour => "hour"
  | minute => "minute"
  | second => "second"
  | addDays => "addDays"
  | addHours => "addHours"
  | addMinutes => "addMinutes"
  | diffDays => "diffDays"
  | other called => called

/-- The function with this canonical name in any case; any other name is kept as it is. -/
def ofName (called : String) : Function :=
  (known.find? fun f => f.name.toLower == called.toLower).getD (other called)

/-- The tests, which can stand alone as a criterion. -/
def isPredicate : Function → Bool
  | startsWith | endsWith | contains => true
  | _ => false

/-- Whether the function has no name of its own. -/
def isOther : Function → Bool
  | other _ => true
  | _ => false

end Function
end ItemQuery
