import Gatehouse.Json.Reader
import Gatehouse.Json.Writer

/-!
# Session ids

A session is named by a text that its broker makes up.  An empty text names no session.
-/

namespace Gatehouse

/-- The name of a session. -/
structure SessionId where
  /-- The text. -/
  text : String
  deriving DecidableEq, Repr

namespace SessionId

/-- Whether the id names no session. -/
def isEmpty (sid : SessionId) : Bool :=
  sid.text == ""

/-- The order of the texts. -/
def compare (a b : SessionId) : Ordering :=
  if a.text < b.text then .lt else if a.text = b.text then .eq else .gt

/-- So many hexadecimal digits of a number, the lowest digit last. -/
def hexDigits : Nat → Nat → List Char
  | 0, _ => []
  | n + 1, k => hexDigits n (k / 16) ++ [Json.hexChar (k % 16)]

theorem length_hexDigits (n k : Nat) : (hexDigits n k).length = n := by
  induction n generalizing k with
  | zero => rfl
  | succ n ih => simp [hexDigits, ih]

/-- The id that stands for a number: its last 32 hexadecimal digits. -/
def ofNumber (n : Nat) : SessionId :=
  ⟨String.ofList (hexDigits 32 n)⟩

/-- The id that stands for a number names a session. -/
theorem text_ofNumber_ne (n : Nat) : (ofNumber n).text ≠ "" := by
  intro h
  have hlength := length_hexDigits 32 n
  have hnil : hexDigits 32 n = [] := by
    simpa [ofNumber] using congrArg String.toList h
  rw [hnil] at hlength
  exact absurd hlength (by decide)

/-- The id as a JSON value. -/
def toJson (sid : SessionId) : Json :=
  .string sid.text

/-- Reads an id from JSON text. -/
def parse (text : String) : Except Json.Fault SessionId :=
  match Json.parse (.ofString text) with
  | .ok (.string s) => .ok ⟨s⟩
  | .ok _ => .error .malformed
  | .error fault => .error fault

end SessionId

end Gatehouse
