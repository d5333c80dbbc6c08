/-!
# UTF-8

Bytes as characters.  `scan` reads any bytes, with a `none` wherever bytes stand that belong to no
character; `decode?` accepts only bytes that are characters throughout.
-/

namespace Gatehouse.Text

/-- A character of which some bytes are still to come. -/
structure PartialChar where
  /-- How many continuation bytes are missing. -/
  missing : Nat
  /-- The bits read so far. -/
  value : Nat
  /-- The least code point that needs this many bytes. -/
  least : Nat

/-- What a byte that starts a character begins. -/
inductive LeadByte where
  /-- The byte is a character. -/
  | whole (c : Char)
  /-- The byte announces continuation bytes. -/
  | begins (p : PartialChar)
  /-- No character starts with this byte. -/
  | stray

/-- Reads a byte in the place where a character starts. -/
def LeadByte.ofNat (b : Nat) : LeadByte :=
  if b < 0x80 then .whole (Char.ofNat b)
  else if b < 0xC0 then .stray
  else if b < 0xE0 then .begins ⟨1, b - 0xC0, 0x80⟩
  else if b < 0xF0 then .begins ⟨2, b - 0xE0, 0x800⟩
  else if b < 0xF8 then .begins ⟨3, b - 0xF0, 0x10000⟩
  else .stray

/-- The character with these bits, unless it is written with more bytes than it needs or the bits
are no character. -/
def PartialChar.finish (p : PartialChar) : Option Char :=
  if p.least ≤ p.value ∧ p.value.isValidChar then some (Char.ofNat p.value) else none

/-- Reads bytes of which the first `pending` ones are already taken. -/
def scanFrom (pending : Option PartialChar) : List UInt8 → List (Option Char)
  | [] => if pending.isSome then [none] else []
  | b :: r =>
    let n := b.toNat
    match pending with
    | some p =>
      if 0x80 ≤ n ∧ n < 0xC0 then
        let p' : PartialChar := ⟨p.missing - 1, p.value * 64 + (n - 0x80), p.least⟩
        if p'.missing = 0 then p'.finish :: scanFrom none r else scanFrom (some p') r
      else
        match LeadByte.ofNat n with
        | .whole c => none :: some c :: scanFrom none r
        | .begins q => none :: scanFrom (some q) r
        | .stray => none :: none :: scanFrom none r
    | none =>
      match LeadByte.ofNat n with
      | .whole c => some c :: scanFrom none r
      | .begins q => scanFrom (some q) r
      | .stray => none :: scanFrom none r

/-- The characters of the bytes, with `none` for bytes that belong to no character. -/
def scan (bytes : List UInt8) : List (Option Char) :=
  scanFrom none bytes

/-- The characters of bytes that are UTF-8 throughout. -/
def decode? (bytes : List UInt8) : Option (List Char) :=
  (scan bytes).mapM id

end Gatehouse.Text
