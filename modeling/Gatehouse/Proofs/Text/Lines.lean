import Gatehouse.Text.Lines
import Mathlib.Tactic.Common

/-!
# Writing lines and reading them

A line has no newline in it (`newline_notMem_of_mem_lines`).  Lines that are written with a newline
after each are read back as they were, if none of them has a newline or ends with a carriage return
(`lines_ofLines`).  Such a line can be put between any two lines of a text, or after the last one
(`lines_insertLine`).
-/

namespace Gatehouse.Text

/-- The text in which a newline follows each line. -/
def ofLines (ls : List (List Char)) : List Char :=
  ls.flatMap (· ++ ['\n'])

/-- A line that can be told from its end: it has no newline and no carriage return at the end. -/
structure Writable (l : List Char) : Prop where
  /-- There is no newline in the line. -/
  newline : '\n' ∉ l
  /-- The line does not end with a carriage return. -/
  carriageReturn : l.getLast? ≠ some '\r'

/-- A line without control characters can be told from its end. -/
theorem writable_of_space_le {l : List Char} (h : ∀ c ∈ l, 0x20 ≤ c.toNat) : Writable l where
  newline hmem := absurd (h _ hmem) (by decide)
  carriageReturn hlast := absurd (h _ (List.mem_of_getLast? hlast)) (by decide)

theorem newline_notMem_finishLine {before : List Char} (h : '\n' ∉ before) :
    '\n' ∉ finishLine before := by
  unfold finishLine
  split
  · rw [List.mem_reverse]
    exact fun hmem => h (List.mem_cons_of_mem _ hmem)
  · rw [List.mem_reverse]
    exact h

theorem newline_notMem_of_mem_linesAfter {before s l : List Char} (hbefore : '\n' ∉ before)
    (hl : l ∈ linesAfter before s) : '\n' ∉ l := by
  induction s generalizing before with
  | nil =>
    unfold linesAfter at hl
    split at hl
    · exact absurd hl List.not_mem_nil
    · obtain rfl := List.mem_singleton.1 hl
      rw [List.mem_reverse]
      exact hbefore
  | cons c s ih =>
    unfold linesAfter at hl
    split at hl
    · rcases List.mem_cons.1 hl with rfl | hl
      · exact newline_notMem_finishLine hbefore
      · exact ih List.not_mem_nil hl
    · rename_i hc
      refine ih ?_ hl
      rw [List.mem_cons, not_or]
      exact ⟨Ne.symm hc, hbefore⟩

/-- No line of a text has a newline in it. -/
theorem newline_notMem_of_mem_lines {s l : List Char} (hl : l ∈ lines s) : '\n' ∉ l :=
  newline_notMem_of_mem_linesAfter List.not_mem_nil hl

/-- A line ends with the first newline. -/
theorem linesAfter_append {l : List Char} (hl : '\n' ∉ l) (before rest : List Char) :
    linesAfter before (l ++ '\n' :: rest) = finishLine (l.reverse ++ before) :: lines rest := by
  induction l generalizing before with
  | nil => simp [linesAfter, lines]
  | cons c l ih =>
    rw [List.mem_cons, not_or] at hl
    rw [List.cons_append, linesAfter, if_neg (Ne.symm hl.1), ih hl.2]
    simp

theorem finishLine_reverse {l : List Char} (h : l.getLast? ≠ some '\r') :
    finishLine l.reverse = l := by
  unfold finishLine
  split
  · rename_i r hr
    refine absurd ?_ h
    rw [← List.head?_reverse, hr]
    rfl
  · exact List.reverse_reverse l

/-- Lines that are written are read back. -/
theorem lines_ofLines {ls : List (List Char)} (h : ∀ l ∈ ls, Writable l) :
    lines (ofLines ls) = ls := by
  induction ls with
  | nil => rfl
  | cons l ls ih =>
    obtain ⟨hnewline, hreturn⟩ := h l List.mem_cons_self
    have htext : ofLines (l :: ls) = l ++ '\n' :: ofLines ls := by simp [ofLines]
    rw [htext, lines, linesAfter_append hnewline, List.append_nil, finishLine_reverse hreturn,
      ih fun k hk => h k (List.mem_cons_of_mem _ hk)]

/-- A text that ends with a newline and what stands behind it are read each on its own. -/
theorem lines_append_of_getLast? {s : List Char} (h : s.getLast? = some '\n') (r : List Char) :
    lines (s ++ r) = lines s ++ lines r := by
  obtain ⟨front, rfl⟩ := List.getLast?_eq_some_iff.1 h
  have hafter : ∀ before, linesAfter before (front ++ '\n' :: r) =
      linesAfter before (front ++ ['\n']) ++ lines r := by
    clear h
    induction front with
    | nil => exact fun _ => rfl
    | cons c front ih =>
      intro before
      rw [List.cons_append, List.cons_append, linesAfter, linesAfter]
      split
      · rw [ih, List.cons_append]
      · exact ih _
  rw [List.append_assoc, List.singleton_append]
  exact hafter []

/-! ## One more line -/

/-- The end for a last line that has none: after a carriage return a newline alone would take that
away. -/
def missingEnd (l : List Char) : List Char :=
  if l.getLast? = some '\r' then ['\r', '\n'] else ['\n']

/-- Puts a line behind the first `k` lines of a text. -/
def insertLine (line : List Char) : Nat → List Char → List Char
  | 0, s => line ++ '\n' :: s
  | k + 1, s =>
    match s.dropWhile (· != '\n') with
    | [] => s ++ missingEnd s ++ line ++ ['\n']
    | _ :: rest => s.takeWhile (· != '\n') ++ '\n' :: insertLine line k rest

theorem lines_append {l : List Char} (hl : '\n' ∉ l) (rest : List Char) :
    lines (l ++ '\n' :: rest) = finishLine l.reverse :: lines rest := by
  rw [lines, linesAfter_append hl, List.append_nil]

theorem lines_of_notMem {s : List Char} (hs : '\n' ∉ s) :
    lines s = if s.isEmpty then [] else [s] := by
  have hafter : ∀ before, linesAfter before s =
      if (s.reverse ++ before).isEmpty then [] else [(s.reverse ++ before).reverse] := by
    induction s with
    | nil => exact fun _ => rfl
    | cons c s ih =>
      intro before
      rw [List.mem_cons, not_or] at hs
      rw [linesAfter, if_neg (Ne.symm hs.1), ih hs.2]
      simp
  rw [lines, hafter, List.append_nil, List.reverse_reverse, List.isEmpty_reverse]

/-- A last line stays what it is when it is given an end. -/
theorem lines_missingEnd {s : List Char} (hs : '\n' ∉ s) (rest : List Char) :
    lines (s ++ missingEnd s ++ rest) = s :: lines rest := by
  unfold missingEnd
  split
  · have hreturn : '\n' ∉ s ++ ['\r'] := by simpa using hs
    have htext : s ++ ['\r', '\n'] ++ rest = (s ++ ['\r']) ++ '\n' :: rest := by simp
    rw [htext, lines_append hreturn, List.reverse_append]
    simp [finishLine]
  · rename_i hlast
    have htext : s ++ ['\n'] ++ rest = s ++ '\n' :: rest := by simp
    rw [htext, lines_append hs, finishLine_reverse hlast]

/-- A line that is put into a text is there, and the lines around it are as before. -/
theorem lines_insertLine {line : List Char} (hline : Writable line) {k : Nat} {s : List Char}
    (hk : k ≤ (lines s).length) :
    lines (insertLine line k s) = (lines s).take k ++ line :: (lines s).drop k := by
  have hfirst : ∀ rest, lines (line ++ '\n' :: rest) = line :: lines rest := fun rest => by
    rw [lines_append hline.newline, finishLine_reverse hline.carriageReturn]
  induction k generalizing s with
  | zero => exact hfirst s
  | succ k ih =>
    have hbefore : '\n' ∉ s.takeWhile (· != '\n') := fun hmem =>
      absurd (List.all_eq_true.1 List.all_takeWhile _ hmem) (by decide)
    have hsplit := List.takeWhile_append_dropWhile (p := (· != '\n')) (l := s)
    unfold insertLine
    cases hrest : s.dropWhile (· != '\n') with
    | nil =>
      rw [hrest, List.append_nil] at hsplit
      have hs : '\n' ∉ s := hsplit ▸ hbefore
      have hlines := lines_of_notMem hs
      -- There is a line, and it is the last one, so all of it stands before the new one.
      cases s with
      | nil => exact absurd hk (by simp [lines, linesAfter])
      | cons c r =>
        have hone : lines (c :: r) = [c :: r] := hlines
        rw [hone] at hk ⊢
        obtain rfl : k = 0 := by simpa using hk
        rw [List.append_assoc, lines_missingEnd hs, hfirst]
        rfl
    | cons c rest =>
      have hc : c = '\n' := by
        have hhead := List.head_dropWhile_not (· != '\n') (l := s) (by simp [hrest])
        simpa [hrest] using hhead
      rw [hrest, hc] at hsplit
      have hlines : lines s = finishLine (s.takeWhile (· != '\n')).reverse :: lines rest := by
        rw [← lines_append hbefore, hsplit]
      rw [hlines, List.length_cons, Nat.add_le_add_iff_right] at hk
      rw [lines_append hbefore, ih hk, hlines]
      rfl

end Gatehouse.Text
