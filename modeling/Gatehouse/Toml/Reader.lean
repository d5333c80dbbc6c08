import Gatehouse.Toml.Node
import Gatehouse.Toml.Quoted

/-!
# Reading TOML

A document is read line by line into one table.  `parse?` gives its entries, or nothing if the text
breaks the grammar or the rules for defining tables.
-/

namespace Gatehouse.Toml

/-- How deep arrays and inline tables may be nested, and how many parts a key may have. -/
def nestingLimit : Nat := 80

/-! ## Gaps, comments and line ends -/

/-- Reads a comment up to the end of its line. -/
def dropComment : List Char → List Char
  | '#' :: r => r.dropWhile isText
  | s => s

/-- Reads the rest of a line on which nothing may follow but a comment. -/
def lineEnd? (s : List Char) : Option (List Char) :=
  match dropComment (dropGap s) with
  | [] => some []
  | r => newline? r

/-- Drops blanks, comments and line ends between the parts of an array.  `fuel` bounds the number
of lines. -/
def dropFiller : Nat → List Char → Option (List Char)
  | 0, s => some s
  | fuel + 1, s =>
    match dropGap s with
    | '#' :: r => (newline? (r.dropWhile isText)).bind (dropFiller fuel)
    | '\n' :: r => dropFiller fuel r
    | '\r' :: r => (newline? ('\r' :: r)).bind (dropFiller fuel)
    | r => some r

/-! ## Keys -/

/-- Whether a character may stand in a key without quotes. -/
def isBareKeyChar (c : Char) : Bool :=
  c.isAlphanum || c == '_' || c == '-'

/-- Reads one part of a key. -/
def keyPart? (s : List Char) : Option (List Char × List Char) :=
  match s with
  | '"' :: _ => lineString? s
  | '\'' :: _ => lineString? s
  | _ =>
    let name := s.takeWhile isBareKeyChar
    if name.isEmpty then none else some (name, s.dropWhile isBareKeyChar)

/-- Reads the parts of a key with dots between them.  `fuel` bounds their number. -/
def keyParts? : Nat → List Char → Option (List String × List Char)
  | 0, _ => none
  | fuel + 1, s =>
    match keyPart? (dropGap s) with
    | none => none
    | some (name, r) =>
      match dropGap r with
      | '.' :: r' => (fun (ks, t) => (String.ofList name :: ks, t)) <$> keyParts? fuel r'
      | r' => some ([String.ofList name], r')

/-- Reads a key: the parts in front of the last one, and the last one. -/
def key? (s : List Char) : Option ((List String × String) × List Char) :=
  match keyParts? (s.length + 1) s with
  | some (ks, r) =>
    match ks.getLast? with
    | some k => if ks.length < nestingLimit then some ((ks.dropLast, k), r) else none
    | none => none
  | none => none

/-! ## Values -/

/-- Reads a token.  A date may be followed by one blank and a time. -/
def token? (s : List Char) : Option (Scalar × List Char) :=
  let word := s.takeWhile isTokenChar
  let rest := s.dropWhile isTokenChar
  match rest with
  | ' ' :: c :: r =>
    if isDate word && c.isDigit then
      let time := (c :: r).takeWhile isTokenChar
      if isTimeWithOffset time then some (.moment, (c :: r).dropWhile isTokenChar) else none
    else (Scalar.ofToken? word).map (·, rest)
  | _ => (Scalar.ofToken? word).map (·, rest)

mutual

/-- Reads a value.  `room` says how many arrays and inline tables may still be opened inside each
other, and `fuel` bounds the number of steps. -/
def value? (fuel room : Nat) (s : List Char) : Option (Node × List Char) :=
  match fuel with
  | 0 => none
  | fuel + 1 =>
    match s with
    | [] => none
    | c :: r =>
      if c = '"' ∨ c = '\'' then
        (fun (cs, t) => (.scalar (.string (String.ofList cs)), t)) <$> string? s
      else if c = '[' then
        if room = 0 then none
        else (fun (vs, t) => (.array vs, t)) <$> items? fuel (room - 1) r
      else if c = '\x7b' then
        if room = 0 then none
        else
          match dropGap r with
          | '}' :: t => some (.table .value [], t)
          | _ => (fun (es, t) => (.table .value es, t)) <$> pairs? fuel (room - 1) [] r
      else (fun (x, t) => (.scalar x, t)) <$> token? s
termination_by structural fuel

/-- Reads the rest of an array. -/
def items? (fuel room : Nat) (s : List Char) : Option (List Node × List Char) :=
  match fuel with
  | 0 => none
  | fuel + 1 =>
    match dropFiller s.length s with
    | none => none
    | some (']' :: t) => some ([], t)
    | some t =>
      match value? fuel room t with
      | none => none
      | some (v, t) =>
        match dropFiller t.length t with
        | some (',' :: u) => (fun (vs, w) => (v :: vs, w)) <$> items? fuel room u
        | some (']' :: u) => some ([v], u)
        | _ => none
termination_by structural fuel

/-- Reads the rest of an inline table that has `entries` already. -/
def pairs? (fuel room : Nat) (entries : Entries) (s : List Char) : Option (Entries × List Char) :=
  match fuel with
  | 0 => none
  | fuel + 1 =>
    match key? s with
    | some ((path, k), '=' :: t) =>
      match value? fuel room (dropGap t) with
      | none => none
      | some (v, t) =>
        match entries.add path k v with
        | none => none
        | some es =>
          match dropGap t with
          | ',' :: u => pairs? fuel room es u
          | '}' :: u => some (es, u)
          | _ => none
    | _ => none
termination_by structural fuel

end

/-! ## Documents -/

/-- A document that is being read. -/
structure Draft where
  /-- The entries so far. -/
  root : Entries
  /-- The keys of the header that holds now. -/
  current : List String

/-- Reads a key with its value. -/
def Draft.pair? (d : Draft) (s : List Char) : Option (Draft × List Char) :=
  match key? s with
  | some ((path, k), '=' :: t) =>
    match value? (t.length + 1) (nestingLimit - 1) (dropGap t) with
    | none => none
    | some (v, t) =>
      match lineEnd? t, d.root.descend (·.add path k v) d.current with
      | some u, some root => some (⟨root, d.current⟩, u)
      | _, _ => none
  | _ => none

/-- Reads a header, from behind its opening brackets. -/
def Draft.header? (d : Draft) (ofArray : Bool) (s : List Char) : Option (Draft × List Char) :=
  match key? s with
  | none => none
  | some ((path, k), r) =>
    let close := if ofArray then [']', ']'] else [']']
    if close.isPrefixOf r then
      let start : Entries → Option Entries := if ofArray then (·.openItem k) else (·.openTable k)
      match lineEnd? (r.drop close.length), d.root.descend start path with
      | some u, some root => some (⟨root, path ++ [k]⟩, u)
      | _, _ => none
    else none

/-- Reads the lines of a document.  `fuel` bounds their number. -/
def Draft.lines? : Nat → Draft → List Char → Option Draft
  | 0, _, _ => none
  | fuel + 1, d, s =>
    match dropGap s with
    | [] => some d
    | '#' :: r => (lineEnd? ('#' :: r)).bind (lines? fuel d)
    | '\n' :: r => lines? fuel d r
    | '\r' :: r => (newline? ('\r' :: r)).bind (lines? fuel d)
    | '[' :: '[' :: r => (d.header? true r).bind fun (d', t) => lines? fuel d' t
    | '[' :: r => (d.header? false r).bind fun (d', t) => lines? fuel d' t
    | r => (d.pair? r).bind fun (d', t) => lines? fuel d' t

/-- The text without the mark of the byte order. -/
def dropMark : List Char → List Char
  | '\uFEFF' :: r => r
  | s => s

/-- Reads a document. -/
def parse? (text : String) : Option Entries :=
  let s := dropMark text.toList
  (Draft.lines? (s.length + 1) ⟨[], []⟩ s).map (·.root)

end Gatehouse.Toml
