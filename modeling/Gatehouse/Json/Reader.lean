import Gatehouse.Json.Numeral
import Gatehouse.Json.Value
import Gatehouse.Text.Utf8

/-!
# Reading JSON

The reader goes strictly left to right and the first fault decides.  Its input are characters, with
a gap wherever bytes stand that belong to no character.  `parse` reads a whole value with full
rigor; `parseRecord` reads a value of which only some members matter, and the others need to be
grammatical only.
-/

namespace Gatehouse.Json

/-- Characters, with a gap for bytes that belong to none. -/
abbrev Input := List (Option Char)

/-- Why a text is no JSON. -/
inductive Fault where
  /-- The text ends too early. -/
  | endOfText
  /-- Something stands where it must not. -/
  | malformed
  deriving DecidableEq, Repr

/-- What stands in a message for the details of a fault. -/
def Fault.details : String := "<json error>"

/-- How strictly a value is read. -/
inductive Rigor where
  /-- Strings consist of characters, numbers are in range, and nesting is limited. -/
  | full
  /-- The value will not be looked at: only the grammar counts. -/
  | grammar
  deriving DecidableEq, Repr

/-- How deep arrays and objects may be nested. -/
def depthLimit : Nat := 127

/-- The input of a text. -/
def Input.ofString (s : String) : Input :=
  s.toList.map some

namespace Reader

/-- Whether a character may stand between tokens. -/
def isSpace (c : Char) : Bool :=
  c == ' ' || c == '\t' || c == '\n' || c == '\r'

/-- The input from the next token on. -/
def skipSpace : Input → Input
  | some c :: r => if isSpace c then skipSpace r else some c :: r
  | s => s

/-! ## Words and numbers -/

/-- Reads the characters of a word. -/
def expectWord : List Char → Input → Except Fault Input
  | [], s => .ok s
  | _ :: _, [] => .error .endOfText
  | c :: w, x :: s => if x = some c then expectWord w s else .error .malformed

/-- The digits at the front, and what follows them. -/
def spanDigits : Input → List Char × Input
  | some c :: r =>
    if c.isDigit then
      let (ds, s) := spanDigits r
      (c :: ds, s)
    else ([], some c :: r)
  | s => ([], s)

/-- Reads digits, at least one. -/
def digits (s : Input) : Except Fault (List Char × Input) :=
  match s with
  | [] => .error .endOfText
  | _ =>
    match spanDigits s with
    | ([], _) => .error .malformed
    | found => .ok found

/-- Reads the digits before a point: no zero in front of others. -/
def wholePart (s : Input) : Except Fault (List Char × Input) :=
  match digits s with
  | .ok ('0' :: _ :: _, _) => .error .malformed
  | found => found

/-- Reads a point and digits, or nothing. -/
def fractionPart : Input → Except Fault (List Char × Input)
  | some '.' :: r => (fun (ds, s) => ('.' :: ds, s)) <$> digits r
  | s => .ok ([], s)

/-- Reads an exponent, or nothing. -/
def exponentPart : Input → Except Fault (List Char × Input)
  | some c :: r =>
    if c = 'e' ∨ c = 'E' then
      match r with
      | some '+' :: r' => (fun (ds, s) => (c :: '+' :: ds, s)) <$> digits r'
      | some '-' :: r' => (fun (ds, s) => (c :: '-' :: ds, s)) <$> digits r'
      | r' => (fun (ds, s) => (c :: ds, s)) <$> digits r'
    else .ok ([], some c :: r)
  | s => .ok ([], s)

/-- Reads a number. -/
def numeral (s : Input) : Except Fault (Numeral × Input) := do
  let (negative, s) := match s with
    | some '-' :: r => (true, r)
    | s => (false, s)
  let (whole, s) ← wholePart s
  let (fraction, s) ← fractionPart s
  let (exponent, s) ← exponentPart s
  pure (⟨negative, whole, fraction, exponent⟩, s)

/-- Reads a number and checks its range if that is asked for. -/
def number (rigor : Rigor) (s : Input) : Except Fault (Json × Input) :=
  match numeral s with
  | .error fault => .error fault
  | .ok (n, s) =>
    if rigor = .full ∧ n.tooLarge then .error .malformed
    else .ok (.number (String.ofList n.text), s)

/-! ## Strings -/

/-- The value of a hexadecimal digit. -/
def hexValue? (c : Char) : Option Nat :=
  if c.isDigit then some (c.toNat - '0'.toNat)
  else if 'a' ≤ c ∧ c ≤ 'f' then some (c.toNat - 'a'.toNat + 10)
  else if 'A' ≤ c ∧ c ≤ 'F' then some (c.toNat - 'A'.toNat + 10)
  else none

/-- The value of a hexadecimal digit of the input. -/
def hexDigit (x : Option Char) : Except Fault Nat :=
  match x.bind hexValue? with
  | some n => .ok n
  | none => .error .malformed

/-- The bytes that the input takes at least. -/
def byteCount (s : Input) : Nat :=
  s.foldl (fun n x => n + (x.map Char.utf8Size).getD 1) 0

/-- Reads four hexadecimal digits.  A text that does not go on for four bytes ends too early. -/
def fourHex : (s : Input) → Except Fault (Nat × { r : Input // r.length < s.length })
  | a :: b :: c :: d :: r => do
    let n := ((← hexDigit a) * 16 + (← hexDigit b)) * 16 + (← hexDigit c)
    pure (n * 16 + (← hexDigit d), ⟨r, by simp; omega⟩)
  | s => .error (if byteCount s < 4 then .endOfText else .malformed)

/-- Whether a code unit is the first half of a pair. -/
def isHighHalf (n : Nat) : Bool :=
  0xD800 ≤ n && n ≤ 0xDBFF

/-- Whether a code unit is the second half of a pair. -/
def isLowHalf (n : Nat) : Bool :=
  0xDC00 ≤ n && n ≤ 0xDFFF

/-- What stands for a character that is not looked at. -/
def placeholder : Char := '\uFFFD'

/-- Reads the second half of a pair whose first half is `high`. -/
def lowHalf (high : Nat) (s : Input) : Except Fault (Char × { r : Input // r.length < s.length }) :=
  match s with
  | [] => .error .endOfText
  | x :: s' =>
    if x = some '\\' then
      match s' with
      | [] => .error .endOfText
      | y :: s'' =>
        if y = some 'u' then
          match fourHex s'' with
          | .error fault => .error fault
          | .ok (low, ⟨r, h⟩) =>
            if isLowHalf low then
              .ok (Char.ofNat (0x10000 + (high - 0xD800) * 0x400 + (low - 0xDC00)),
                ⟨r, by simp; omega⟩)
            else .error .malformed
        else .error .malformed
    else .error .malformed

/-- Reads the code units after a backslash and a `u`.  Where only the grammar counts, halves of
pairs may stand alone. -/
def unicodeEscape (rigor : Rigor) (s : Input) :
    Except Fault (Char × { r : Input // r.length < s.length }) :=
  match fourHex s with
  | .error fault => .error fault
  | .ok (n, ⟨r, h⟩) =>
    match rigor with
    | .grammar => .ok (placeholder, ⟨r, h⟩)
    | .full =>
      if isLowHalf n then .error .malformed
      else if isHighHalf n then
        match lowHalf n r with
        | .error fault => .error fault
        | .ok (c, ⟨r', h'⟩) => .ok (c, ⟨r', Nat.lt_trans h' h⟩)
      else .ok (Char.ofNat n, ⟨r, h⟩)

/-- The character that one letter after a backslash stands for. -/
def shortEscape? (c : Char) : Option Char :=
  if c = '"' ∨ c = '\\' ∨ c = '/' then some c
  else if c = 'b' then some '\x08'
  else if c = 'f' then some '\x0c'
  else if c = 'n' then some '\n'
  else if c = 'r' then some '\r'
  else if c = 't' then some '\t'
  else none

/-- Reads what follows a backslash. -/
def escapeSequence (rigor : Rigor) (s : Input) :
    Except Fault (Char × { r : Input // r.length < s.length }) :=
  match s with
  | [] => .error .endOfText
  | x :: r =>
    if x = some 'u' then
      match unicodeEscape rigor r with
      | .error fault => .error fault
      | .ok (c, ⟨r', h⟩) => .ok (c, ⟨r', by simp; omega⟩)
    else
      match x.bind shortEscape? with
      | some c => .ok (c, ⟨r, by simp⟩)
      | none => .error .malformed

/-- Reads the rest of a string whose opening quote is read. -/
def stringBody (rigor : Rigor) (s : Input) : Except Fault (List Char × Input) :=
  match s with
  | [] => .error .endOfText
  | none :: r =>
    if rigor = .full then .error .malformed
    else (fun (cs, t) => (placeholder :: cs, t)) <$> stringBody rigor r
  | some c :: r =>
    if c = '"' then .ok ([], r)
    else if c = '\\' then
      match escapeSequence rigor r with
      | .error fault => .error fault
      | .ok (d, ⟨r', _⟩) => (fun (cs, t) => (d :: cs, t)) <$> stringBody rigor r'
    else if c.toNat < 0x20 then .error .malformed
    else (fun (cs, t) => (c :: cs, t)) <$> stringBody rigor r
termination_by s.length

/-! ## Values -/

mutual

/-- Reads a value.  `room` says how many arrays and objects may still be opened inside each other,
and `fuel` bounds the number of steps. -/
def value (rigor : Rigor) (room : Nat) : Nat → Input → Except Fault (Json × Input)
  | 0, _ => .error .endOfText
  | fuel + 1, s =>
    match skipSpace s with
    | [] => .error .endOfText
    | none :: _ => .error .malformed
    | some c :: r =>
      if c = '"' then (fun (cs, t) => (.string (String.ofList cs), t)) <$> stringBody rigor r
      else if c = '[' then
        if rigor = .full ∧ room = 0 then .error .malformed
        else (fun (vs, t) => (.array vs, t)) <$> items rigor (room - 1) true fuel r
      else if c = '\x7b' then
        if rigor = .full ∧ room = 0 then .error .malformed
        else
          (fun (ms, t) => (.object ms, t)) <$>
            members rigor (fun _ => rigor) (room - 1) true fuel r
      else if c = 'n' then (fun t => (.null, t)) <$> expectWord ['u', 'l', 'l'] r
      else if c = 't' then (fun t => (.bool true, t)) <$> expectWord ['r', 'u', 'e'] r
      else if c = 'f' then (fun t => (.bool false, t)) <$> expectWord ['a', 'l', 's', 'e'] r
      else if c = '-' ∨ c.isDigit then number rigor (some c :: r)
      else .error .malformed
termination_by structural fuel => fuel

/-- Reads the rest of an array; `first` says that no item is read yet. -/
def items (rigor : Rigor) (room : Nat) (first : Bool) : Nat → Input →
    Except Fault (List Json × Input)
  | 0, _ => .error .endOfText
  | fuel + 1, s =>
    match skipSpace s with
    | [] => .error .endOfText
    | x :: r =>
      if x = some ']' then .ok ([], r)
      else if first then nextItem rigor room fuel (x :: r)
      else if x = some ',' then nextItem rigor room fuel r
      else .error .malformed
termination_by structural fuel => fuel

/-- Reads an item and the rest of the array. -/
def nextItem (rigor : Rigor) (room : Nat) : Nat → Input → Except Fault (List Json × Input)
  | 0, _ => .error .endOfText
  | fuel + 1, s =>
    match value rigor room fuel s with
    | .error fault => .error fault
    | .ok (v, t) => (fun (vs, u) => (v :: vs, u)) <$> items rigor room false fuel t
termination_by structural fuel => fuel

/-- Reads the rest of an object, whose names are read with `rigor` and the value of each with the
rigor that its name asks for. -/
def members (rigor : Rigor) (rigorOf : String → Rigor) (room : Nat) (first : Bool) : Nat → Input →
    Except Fault (List (String × Json) × Input)
  | 0, _ => .error .endOfText
  | fuel + 1, s =>
    match skipSpace s with
    | [] => .error .endOfText
    | x :: r =>
      if x = some '}' then .ok ([], r)
      else if first then nextMember rigor rigorOf room fuel (x :: r)
      else if x = some ',' then nextMember rigor rigorOf room fuel r
      else .error .malformed
termination_by structural fuel => fuel

/-- Reads a member and the rest of the object. -/
def nextMember (rigor : Rigor) (rigorOf : String → Rigor) (room : Nat) : Nat → Input →
    Except Fault (List (String × Json) × Input)
  | 0, _ => .error .endOfText
  | fuel + 1, s =>
    match skipSpace s with
    | [] => .error .endOfText
    | x :: r =>
      if x = some '"' then
        match stringBody rigor r with
        | .error fault => .error fault
        | .ok (name, t) =>
          match skipSpace t with
          | [] => .error .endOfText
          | y :: u =>
            if y = some ':' then
              match value (rigorOf (String.ofList name)) room fuel u with
              | .error fault => .error fault
              | .ok (v, w) =>
                (fun (ms, q) => ((String.ofList name, v) :: ms, q)) <$>
                  members rigor rigorOf room false fuel w
            else .error .malformed
      else .error .malformed
termination_by structural fuel => fuel

end

/-- Accepts what was read if nothing but space follows it. -/
def complete {α : Type} : Except Fault (α × Input) → Except Fault α
  | .error fault => .error fault
  | .ok (a, s) => if skipSpace s = [] then .ok a else .error .malformed

/-- More steps than reading the input can take. -/
def steps (s : Input) : Nat :=
  3 * s.length + 3

end Reader

open Reader

/-- Reads a text as one value, with the members as they are written. -/
def parse (s : Input) : Except Fault Json :=
  complete (value .full depthLimit (steps s) s)

/-! ## Records -/

/-- The outside of a value that stands for the fields of a record. -/
inductive Record where
  /-- An object with its members as they are written. -/
  | named (members : List (String × Json))
  /-- An array with the fields in their order. -/
  | positional (items : List Json)
  deriving Repr

/-- Reads a text as a record.  Only the fields have to be more than grammatical. -/
def parseRecord (fields : List String) (s : Input) : Except Fault Record :=
  match skipSpace s with
  | some c :: r =>
    if c = '\x7b' then
      let rigorOf name := if name ∈ fields then Rigor.full else Rigor.grammar
      complete ((fun (ms, t) => (.named ms, t)) <$>
        members .full rigorOf (depthLimit - 1) true (steps r) r)
    else if c = '[' then
      complete ((fun (vs, t) => (.positional vs, t)) <$>
        items .full (depthLimit - 1) true (steps r) r)
    else .error .malformed
  | [] => .error .endOfText
  | _ => .error .malformed

/-- The value of a field that is known by some names: `none` if it is not there, and an error if it
is there more than once. -/
def field? (names : List String) (members : List (String × Json)) : Except Fault (Option Json) :=
  match members.filter fun m => m.1 ∈ names with
  | [] => .ok none
  | [(_, v)] => .ok (some v)
  | _ => .error .malformed

end Gatehouse.Json
