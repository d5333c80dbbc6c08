/-!
# Reporting errors

Every error has a stable code, a text for people, and says whether a later attempt may succeed.
The codes of one part of the system share a prefix; `checkCodes` finds the first code that breaks
the naming rules.
-/

namespace Gatehouse

/-- What an error tells its caller. -/
class Report (ε : Type) where
  /-- The stable code. -/
  code : ε → String
  /-- The text for people. -/
  message : ε → String
  /-- Whether a later attempt may succeed. -/
  recoverable : ε → Bool

namespace Report

/-- What is wrong with an error code. -/
inductive CodeFault where
  /-- The code is empty. -/
  | empty
  /-- The code does not start with the prefix of its part. -/
  | foreign (code start : String)
  /-- The code is not in upper case with single underscores between its words. -/
  | badCase (code : String)
  deriving DecidableEq, Repr

/-- The wording of a fault. -/
def CodeFault.message : CodeFault → String
  | .empty => "Error code must not be empty"
  | .foreign code start => "Error code '" ++ code ++ "' must start with prefix '" ++ start ++ "'"
  | .badCase code => "Error code '" ++ code ++ "' must be UPPER_SNAKE_CASE"

/-- Whether no two underscores stand side by side. -/
def singleUnderscores : List Char → Bool
  | '_' :: '_' :: _ => false
  | _ :: r => singleUnderscores r
  | [] => true

/-- Whether the code consists of words of upper-case letters and digits, with one underscore
between two words. -/
def isUpperSnake (code : List Char) : Bool :=
  !code.isEmpty && code.head? != some '_' && code.getLast? != some '_' && singleUnderscores code
    && code.all fun c => c.isUpper || c.isDigit || c == '_'

/-- The first fault of a code. -/
def codeFault? (start code : String) : Option CodeFault :=
  if code = "" then some .empty
  else if !start.toList.isPrefixOf code.toList then some (.foreign code start)
  else if !isUpperSnake code.toList then some (.badCase code)
  else none

/-- The first fault among the codes of a part of the system. -/
def checkCodes (start : String) (codes : List String) : Option CodeFault :=
  codes.findSome? (codeFault? start)

end Report

end Gatehouse
