import Gatehouse.Access.GroupPattern
import Gatehouse.Access.Permission
import Mathlib.Tactic.Common

/-!
# Patterns that stand for themselves

A pattern in which nothing is special covers its own text and nothing else.  The names of the
permission levels are such patterns, so a right whose function is a level is a right to exactly
that level (`covers_name`).
-/

namespace Gatehouse.Glob

/-- Whether a character has no meaning of its own in a pattern. -/
def Ordinary (c : Char) : Prop :=
  c ≠ '?' ∧ c ≠ '*' ∧ c ≠ '[' ∧ c ≠ '\\'

/-- A character that is no metacharacter is read as itself. -/
theorem parseFrom_char {c : Char} {s : List Char} {position : Nat} {before : Option Char}
    (hany : c ≠ '?') (hstar : c ≠ '*') (hbracket : c ≠ '[') :
    Token.parseFrom position before (c :: s) =
      (Token.char c :: ·) <$> Token.parseFrom (position + 1) (some c) s := by
  rw [Token.parseFrom]
  · exact hany
  · exact fun _ hc _ => hstar hc
  · exact fun _ hc _ => hstar hc
  · exact hstar
  · exact hbracket

/-- Ordinary characters are read as themselves. -/
theorem parseFrom_ordinary {s : List Char} (h : ∀ c ∈ s, Ordinary c) (position : Nat)
    (before : Option Char) : Token.parseFrom position before s = .ok (s.map Token.char) := by
  induction s generalizing position before with
  | nil => rw [Token.parseFrom]; rfl
  | cons c r ih =>
    obtain ⟨hany, hstar, hbracket, -⟩ := h c List.mem_cons_self
    have hr := ih (fun d hd => h d (List.mem_cons_of_mem _ hd)) (position + 1) (some c)
    rw [parseFrom_char hany hstar hbracket, hr]
    rfl

/-- Literal tokens accept exactly the text they spell. -/
theorem accepts_map_char (s t : List Char) :
    accepts (s.map Token.char) (plain t) = true ↔ t = s := by
  induction s generalizing t with
  | nil => rw [List.map_nil, accepts_nil]; cases t <;> simp [plain]
  | cons c r ih =>
    rw [List.map_cons]
    cases t with
    | nil => rw [plain, List.map_nil, accepts_cons_nil (by simp) (by simp)]; simp
    | cons d t =>
      rw [plain, List.map_cons, accepts_cons_cons (by simp) (by simp), ← plain]
      simp only [Token.takes, Bool.and_eq_true, beq_iff_eq, ih, List.cons.injEq]
      exact and_congr_left fun _ => eq_comm

end Gatehouse.Glob

namespace Gatehouse.Access

open Gatehouse.Glob

/-- Ordinary characters of a group pattern go into its glob pattern as they are. -/
theorem globOf_ordinary {s : List Char} (h : ∀ c ∈ s, Ordinary c) : globOf s = s := by
  unfold globOf
  induction s with
  | nil => rfl
  | cons c r ih =>
    obtain ⟨-, hstar, hbracket, hescape⟩ := h c List.mem_cons_self
    rw [globFrom, if_neg hescape, if_neg hstar, if_neg hbracket,
      ih fun d hd => h d (List.mem_cons_of_mem _ hd)]

/-- A pattern of ordinary characters covers its own text and nothing else. -/
theorem covers_ordinary {s : String} (h : ∀ c ∈ s.toList, Ordinary c) (name : String) :
    (GroupPattern.mk s).covers name = true ↔ name = s := by
  have htokens : (GroupPattern.mk s).tokens? = some (s.toList.map Token.char) := by
    rw [GroupPattern.tokens?, globOf_ordinary h, Token.parse, parseFrom_ordinary h]
    rfl
  rw [GroupPattern.covers, htokens]
  exact (accepts_map_char _ _).trans String.toList_inj

/-- The name of a level, as a pattern, covers that level only. -/
theorem covers_name (p : Permission) (name : String) :
    (GroupPattern.mk p.name).covers name = true ↔ name = p.name :=
  covers_ordinary (by cases p <;> simp [Permission.name, Ordinary]) name

end Gatehouse.Access
