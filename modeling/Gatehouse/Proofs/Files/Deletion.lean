import Gatehouse.Proofs.Files.Walk

/-!
# Deleting files

What a path names after some files are deleted: the same as before, unless it led to one of them.

* `Tree.delete` — the tree without what stands in some places.
* `Tree.follow_delete` — steps lead to the same places as before, except to the deleted ones.
* `Tree.find?_delete`, `Tree.readText_delete` — so paths that led elsewhere name and say the same.
-/

namespace Gatehouse.Files

namespace Tree

/-- The tree without what stands in these places. -/
def delete (t : Tree) (places : List Place) : Tree :=
  ⟨t.entries.filter fun e => e.1 ∉ places⟩

/-- A file stands in each of the places. -/
def AllFiles (t : Tree) (places : List Place) : Prop :=
  ∀ p ∈ places, ∃ bytes, t.entry? p = some (.file bytes)

/-- Whether a path leads to one of the places. -/
def leadsTo (t : Tree) (places : List Place) (path : String) : Bool :=
  match t.locate path with
  | .ok q => q ∈ places
  | .error _ => false

variable {t : Tree} {places : List Place} {place q : Place} {path : String}

theorem AllFiles.names_ne_nil (h : t.AllFiles places) {p : Place} (hp : p ∈ places) :
    p.names ≠ [] := by
  obtain ⟨bytes, hfile⟩ := h p hp
  intro hnames
  unfold entry? at hfile
  rw [if_pos hnames] at hfile
  exact absurd hfile (by simp)

/-- A folder is none of the files. -/
theorem AllFiles.notMem_of_folder (h : t.AllFiles places) (hq : t.entry? q = some .folder) :
    q ∉ places := by
  intro hmem
  obtain ⟨bytes, hfile⟩ := h q hmem
  rw [hq] at hfile
  exact absurd hfile (by simp)

theorem get?_filter_notMem (q : Place) (es : List (Place × Entry)) :
    Keyed.get? q (es.filter fun e => e.1 ∉ places) =
      if q ∈ places then none else Keyed.get? q es := by
  induction es with
  | nil => simp
  | cons e es ih =>
    obtain ⟨p, entry⟩ := e
    by_cases hp : p ∈ places
    · rw [List.filter_cons_of_neg (by simpa using hp), ih, Keyed.get?_cons]
      split
      · rfl
      · rename_i hq
        rw [if_neg]
        rintro rfl
        exact hq hp
    · rw [List.filter_cons_of_pos (by simpa using hp), Keyed.get?_cons, ih, Keyed.get?_cons]
      by_cases hpq : p = q
      · rw [if_pos hpq, if_pos hpq, if_neg (hpq ▸ hp)]
      · rw [if_neg hpq, if_neg hpq]

/-- Nothing but the files is gone. -/
theorem entry?_delete (h : t.AllFiles places) (q : Place) :
    Tree.entry? (t.delete places) q = if q ∈ places then none else t.entry? q := by
  unfold entry? delete
  rw [get?_filter_notMem]
  split
  · rename_i hnames
    rw [if_neg fun hq => h.names_ne_nil hq hnames]
  · rfl

theorem entry?_delete_of_notMem (h : t.AllFiles places) (hq : q ∉ places) :
    Tree.entry? (t.delete places) q = t.entry? q := by
  rw [entry?_delete h, if_neg hq]

/-- From a place that is left, steps lead where they led, unless that was one of the files. -/
theorem follow_delete (h : t.AllFiles places) {ss : List String}
    (hss : ∀ s ∈ ss, s ≠ "" ∧ '/' ∉ s.toList ∧ '\x00' ∉ s.toList) (hreach : t.Reachable place)
    (hplace : place ∉ places) :
    (t.delete places).follow place ss = .ok q ↔ t.follow place ss = .ok q ∧ q ∉ places := by
  induction ss generalizing place with
  | nil =>
    constructor
    · intro hfollow
      obtain rfl := Except.ok.inj hfollow
      exact ⟨rfl, hplace⟩
    · exact fun hfollow => hfollow.1
  | cons step ss ih =>
    obtain ⟨⟨hempty, hslash, hnul⟩, hss⟩ := List.forall_mem_cons.1 hss
    rw [follow, follow, entry?_delete_of_notMem h hplace]
    cases hentry : t.entry? place with
    | none => simp
    | some e =>
      cases e with
      | file bytes => simp
      | folder =>
        dsimp only
        by_cases hhere : step = "."
        · rw [if_pos hhere, if_pos hhere]
          exact ih hss hreach hplace
        rw [if_neg hhere, if_neg hhere]
        by_cases hup : step = ".."
        · rw [if_pos hup, if_pos hup]
          exact ih hss (hreach.parent hentry) (h.notMem_of_folder (hreach.entry?_parent hentry))
        rw [if_neg hup, if_neg hup, entry?_delete h]
        by_cases hgone : place.child step ∈ places
        · -- The step led to a file that is deleted, and from a file there is no way on.
          obtain ⟨bytes, hfile⟩ := h _ hgone
          rw [if_pos hgone, hfile]
          constructor
          · intro hfollow
            simp only [Option.isSome_none, Bool.false_eq_true, if_false] at hfollow
            split at hfollow <;> exact absurd hfollow (by simp)
          · rintro ⟨hfollow, hq⟩
            rw [Option.isSome_some, if_pos rfl] at hfollow
            rw [eq_of_follow_file hfile hfollow] at hq
            exact absurd hgone hq
        · rw [if_neg hgone]
          by_cases hchild : (t.entry? (place.child step)).isSome = true
          · rw [if_pos hchild, if_pos hchild]
            exact ih hss (hreach.child hentry ⟨hempty, hhere, hup, hslash, hnul⟩ hchild) hgone
          · rw [if_neg hchild, if_neg hchild]
            split <;> simp

/-- A path leads where it led, unless that was one of the files. -/
theorem locate_delete (h : t.AllFiles places) :
    (t.delete places).locate path = .ok q ↔ t.locate path = .ok q ∧ q ∉ places := by
  have hstart : Place.start path ∉ places := fun hmem => h.names_ne_nil hmem rfl
  rw [locate_eq_ok_iff, locate_eq_ok_iff, and_assoc, and_assoc]
  refine and_congr_right fun _ => and_congr_right fun hnul => ?_
  exact follow_delete h (fun s hs => mem_steps hnul hs) (reachable_start t path) hstart

/-- What a path names is what it named, unless it led to one of the files. -/
theorem find?_delete (h : t.AllFiles places) :
    (t.delete places).find? path = if t.leadsTo places path = true then none else t.find? path := by
  unfold find? leadsTo
  cases hlocate : t.locate path with
  | error fault =>
    cases hlocate' : (t.delete places).locate path with
    | error fault' => simp
    | ok q => rw [locate_delete h, hlocate] at hlocate'; exact absurd hlocate'.1 (by simp)
  | ok q =>
    by_cases hq : q ∈ places
    · cases hlocate' : (t.delete places).locate path with
      | error fault' => simp [hq]
      | ok q' =>
        rw [locate_delete h, hlocate] at hlocate'
        obtain rfl := Except.ok.inj hlocate'.1
        exact absurd hq hlocate'.2
    · rw [(locate_delete h).2 ⟨hlocate, hq⟩]
      simp [hq, entry?_delete_of_notMem h hq]

/-- A path that leads to one of the files names it. -/
theorem find?_of_leadsTo (h : t.AllFiles places) (hpath : t.leadsTo places path = true) :
    ∃ bytes, t.find? path = some (.file bytes) := by
  unfold leadsTo at hpath
  unfold find?
  cases hlocate : t.locate path with
  | error fault => rw [hlocate] at hpath; exact absurd hpath (by simp)
  | ok q =>
    rw [hlocate] at hpath
    exact h q (by simpa using hpath)

theorem isFolder_delete (h : t.AllFiles places) (path : String) :
    (t.delete places).isFolder path = t.isFolder path := by
  unfold isFolder
  rw [find?_delete h]
  split
  · rename_i hpath
    obtain ⟨bytes, hfile⟩ := find?_of_leadsTo h hpath
    rw [hfile]
    rfl
  · rfl

theorem exists?_delete (h : t.AllFiles places) (path : String) :
    (t.delete places).exists? path = (t.exists? path && !t.leadsTo places path) := by
  unfold exists?
  rw [find?_delete h]
  cases t.leadsTo places path <;> simp

theorem isFile_delete (h : t.AllFiles places) (path : String) :
    (t.delete places).isFile path = (t.isFile path && !t.leadsTo places path) := by
  unfold isFile
  rw [find?_delete h]
  cases t.leadsTo places path <;> simp

/-- A file that is left says what it said. -/
theorem readText_delete (h : t.AllFiles places) (hpath : t.isFile path = true)
    (hleft : t.leadsTo places path = false) :
    (t.delete places).readText path = t.readText path := by
  unfold isFile find? at hpath
  unfold leadsTo at hleft
  unfold readText
  cases hlocate : t.locate path with
  | error fault => rw [hlocate] at hpath; exact absurd hpath (by simp)
  | ok q =>
    rw [hlocate] at hleft
    have hq : q ∉ places := by simpa using hleft
    rw [(locate_delete h).2 ⟨hlocate, hq⟩]
    dsimp only
    rw [entry?_delete_of_notMem h hq]

end Tree

end Gatehouse.Files
