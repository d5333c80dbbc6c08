import Gatehouse.Proofs.Uci.Additions
import Mathlib.Data.List.Induction

/-!
# What updates leave in a section

An update writes a single value or adds a value to a list, and either may change what the other has
left.  What is in an option in the end can still be told from the updates of that option alone.

* `Update.added` — the values that updates add to an option.
* `Section.option?_updates_of_added` — without a write, these are put behind what is there.
* `Section.option?_updates_filter` — the updates of other options do not matter.
* `Section.map_fst_updates` — the options stand in the order in which the updates first name them.

`Section.updates_closedForm` puts these together: an option that is written holds what was written
last and what was added after that, one that is never written holds what was added, and nothing is
ever made up.
-/

namespace Gatehouse.Uci

/-- An update of an option. -/
inductive Update where
  /-- Writes a single value. -/
  | set (name value : String)
  /-- Adds a value to a list. -/
  | add (name value : String)
  deriving DecidableEq, Repr

namespace Update

/-- The option that is updated. -/
def name : Update → String
  | set name _ => name
  | add name _ => name

/-- The value that an update adds to the option `n`, if it adds one. -/
def added? (n : String) : Update → Option String
  | set _ _ => none
  | add name value => if name = n then some value else none

/-- The values that updates add to the option `n`, in order. -/
def added (n : String) (us : List Update) : List String :=
  us.filterMap (added? n)

variable {n : String} {u : Update} {us : List Update}

theorem added?_of_ne (h : u.name ≠ n) : u.added? n = none := by
  cases u with
  | set name value => rfl
  | add name value => exact if_neg h

theorem mem_added_iff {value : String} : value ∈ added n us ↔ .add n value ∈ us := by
  unfold added
  rw [List.mem_filterMap]
  constructor
  · rintro ⟨u, hu, hvalue⟩
    cases u with
    | set name value' => exact absurd hvalue (by simp [added?])
    | add name value' =>
      obtain ⟨rfl, rfl⟩ : name = n ∧ value' = value := by simpa [added?] using hvalue
      exact hu
  · intro hadd
    exact ⟨_, hadd, if_pos rfl⟩

end Update

open OptionValue Update

namespace Section

/-- The section after an update. -/
def update (s : Section) : Update → Section
  | .set name value => s.setOption name value
  | .add name value => s.addList name value

/-- The section after updates, one after the other. -/
def updates (s : Section) (us : List Update) : Section :=
  us.foldl update s

variable {s : Section} {u : Update} {us : List Update} {n : String}

theorem updates_append (s : Section) (us vs : List Update) :
    s.updates (us ++ vs) = (s.updates us).updates vs :=
  List.foldl_append

theorem updates_concat (s : Section) (us : List Update) (u : Update) :
    s.updates (us ++ [u]) = (s.updates us).update u :=
  updates_append s us [u]

/-- Adding values to a list is adding them one after the other. -/
theorem addLists_eq_updates (s : Section) (name : String) (values : List String) :
    s.addLists name values = s.updates (values.map (.add name)) := by
  rw [addLists, updates, List.foldl_map]
  rfl

theorem keeps_update (u : Update) : Keeps (·.update u) := by
  cases u with
  | set name value => exact keeps_setOption name value
  | add name value => exact keeps_addList name value

/-- Updates change nothing but the options. -/
theorem bare_updates (s : Section) (us : List Update) : (s.updates us).bare = s.bare := by
  induction us generalizing s with
  | nil => rfl
  | cons u us ih => exact (ih (s.update u)).trans (keeps_update u s)

/-! ## Values -/

/-- An update leaves the other options alone. -/
theorem option?_update_of_ne (h : u.name ≠ n) : (s.update u).option? n = s.option? n := by
  cases u with
  | set name value => exact (option?_setOption s name value n).trans (if_neg (Ne.symm h))
  | add name value => exact (option?_addList s name value n).trans (if_neg (Ne.symm h))

theorem option?_update_set (s : Section) (n value : String) :
    (s.update (.set n value)).option? n = some (.scalar value) :=
  (option?_setOption s n value n).trans (if_pos rfl)

theorem option?_update_add (s : Section) (n value : String) :
    (s.update (.add n value)).option? n = some (.list (valuesOf (s.option? n) ++ [value])) := by
  rw [← push_eq]
  exact (option?_addList s n value n).trans (if_pos rfl)

/-- Updates that do not write an option put the values that they add behind those it has. -/
theorem option?_updates_of_added (s : Section) (h : ∀ value, .set n value ∉ us) :
    (s.updates us).option? n =
      if added n us = [] then s.option? n
      else some (.list (valuesOf (s.option? n) ++ added n us)) := by
  induction us generalizing s with
  | nil => rfl
  | cons u us ih =>
    have hrest : ∀ value, .set n value ∉ us :=
      fun value hmem => h value (List.mem_cons_of_mem u hmem)
    have hstep : (s.updates (u :: us)).option? n = ((s.update u).updates us).option? n := rfl
    rw [hstep, ih (s.update u) hrest]
    by_cases hu : u.name = n
    · cases u with
      | set name value =>
        obtain rfl : name = n := hu
        exact absurd List.mem_cons_self (h value)
      | add name value =>
        obtain rfl : name = n := hu
        have hadded : added name (.add name value :: us) = value :: added name us := by
          simp [added, added?]
        rw [option?_update_add, hadded]
        by_cases hnone : added name us = []
        · simp [hnone]
        · simp [hnone, valuesOf, values]
    · have hadded : added n (u :: us) = added n us := by
        simp [added, added?_of_ne hu]
      rw [option?_update_of_ne hu, hadded]

/-- What is written last stays, and what is added after it comes behind it. -/
theorem option?_updates_of_set (s : Section) {value : String} {before after : List Update}
    (hafter : ∀ w, .set n w ∉ after) :
    (s.updates (before ++ .set n value :: after)).option? n =
      some (if added n after = [] then .scalar value else .list (value :: added n after)) := by
  have hsplit : s.updates (before ++ .set n value :: after) =
      ((s.updates before).update (.set n value)).updates after :=
    updates_append s before (.set n value :: after)
  rw [hsplit, option?_updates_of_added _ hafter, option?_update_set]
  split
  · rfl
  · rfl

/-- An option depends on its own updates only. -/
theorem option?_updates_filter (s : Section) (us : List Update) (n : String) :
    (s.updates us).option? n = (s.updates (us.filter (·.name = n))).option? n := by
  induction us using List.reverseRecOn with
  | nil => rfl
  | append_singleton us u ih =>
    rw [updates_concat, List.filter_append]
    by_cases hu : u.name = n
    · have hkept : [u].filter (·.name = n) = [u] := by simp [hu]
      rw [hkept, updates_concat]
      cases u with
      | set name value =>
        obtain rfl : name = n := hu
        rw [option?_update_set, option?_update_set]
      | add name value =>
        obtain rfl : name = n := hu
        rw [option?_update_add, option?_update_add, ih]
    · have hdropped : [u].filter (·.name = n) = [] := by simp [hu]
      rw [option?_update_of_ne hu, hdropped, List.append_nil, ih]

/-! ## Names -/

theorem map_fst_update (s : Section) (u : Update) :
    (s.update u).options.map Prod.fst =
      if u.name ∈ s.options.map Prod.fst then s.options.map Prod.fst
      else s.options.map Prod.fst ++ [u.name] := by
  cases u with
  | set name value => exact Keyed.keys_alter name _ s.options
  | add name value => exact Keyed.keys_alter name _ s.options

/-- The options stand in the order in which the updates first name them. -/
theorem map_fst_updates (s : Section) (us : List Update) :
    (s.bare.updates us).options.map Prod.fst = (us.map Update.name).eraseDups := by
  induction us using List.reverseRecOn with
  | nil => rfl
  | append_singleton us u ih =>
    rw [updates_concat, map_fst_update, ih, List.map_append, List.eraseDups_append]
    by_cases hu : u.name ∈ us.map Update.name
    · rw [if_pos (List.mem_eraseDups.2 hu)]
      have hold : [u.name].removeAll (us.map Update.name) = [] := by
        simpa [List.removeAll] using hu
      rw [List.map_singleton, hold]
      simp
    · rw [if_neg fun hmem => hu (List.mem_eraseDups.1 hmem)]
      have hnew : [u.name].removeAll (us.map Update.name) = [u.name] := by
        simpa [List.removeAll] using hu
      rw [List.map_singleton, hnew]
      rfl

/-- No two options have one name. -/
theorem nodup_updates (s : Section) (us : List Update) :
    ((s.bare.updates us).options.map Prod.fst).Nodup := by
  induction us using List.reverseRecOn with
  | nil => exact List.nodup_nil
  | append_singleton us u ih =>
    rw [updates_concat]
    cases u with
    | set name value => exact Keyed.nodup_keys_alter name _ ih
    | add name value => exact Keyed.nodup_keys_alter name _ ih

/-- An option is there exactly if an update names it. -/
theorem option?_updates_eq_none_iff (s : Section) (us : List Update) (n : String) :
    (s.bare.updates us).option? n = none ↔ ∀ u ∈ us, u.name ≠ n := by
  have hthere : ((s.bare.updates us).option? n).isSome = true ↔ n ∈ us.map Update.name := by
    rw [option?, Keyed.isSome_get?_iff, map_fst_updates, List.mem_eraseDups]
  rw [← Option.not_isSome_iff_eq_none, hthere, List.mem_map]
  simp

/-! ## Lists -/

/-- No list is empty. -/
theorem nonempty_updates (s : Section) (us : List Update) :
    ∀ o ∈ (s.bare.updates us).options, o.2 ≠ .list [] := by
  induction us using List.reverseRecOn with
  | nil => exact fun _ ho => absurd ho List.not_mem_nil
  | append_singleton us u ih =>
    intro o ho
    rw [updates_concat] at ho
    cases u with
    | set name value =>
      rcases Keyed.mem_set ho with rfl | ho
      · simp
      · exact ih o ho
    | add name value =>
      rcases Keyed.mem_alter ho with rfl | ho
      · exact push_ne_nil value _
      · exact ih o ho

end Section

/-- An addition finds nothing, a list or a single value. -/
theorem Addition.of_ne_invents (o : Option OptionValue) : Addition.of o ≠ .invents := by
  rcases o with _ | _ | _ <;> simp [Addition.of]

namespace Section

/-- **What updates leave in a section.**  Of a section without options, after updates in any order:
an option is missing exactly if no update names it; if it was written, it is the value that was
written last, or the list of that value and of those added after it; if it was never written, it is
the list of the values that were added.  Updates of other options do not matter.  The options stand
in the order in which they were first named, each of them once, no list is empty, and no addition
makes a value up. -/
theorem updates_closedForm (s : Section) (us : List Update) :
    (∀ n, (s.bare.updates us).option? n = none ↔ ∀ u ∈ us, u.name ≠ n) ∧
    (∀ n value before after, us = before ++ .set n value :: after → (∀ w, .set n w ∉ after) →
      (s.bare.updates us).option? n =
        some (if added n after = [] then .scalar value else .list (value :: added n after))) ∧
    (∀ n, (∀ value, .set n value ∉ us) → (∃ value, .add n value ∈ us) →
      (s.bare.updates us).option? n = some (.list (added n us))) ∧
    (∀ n, (s.bare.updates us).option? n =
      (s.bare.updates (us.filter (·.name = n))).option? n) ∧
    (s.bare.updates us).bare = s.bare ∧
    (s.bare.updates us).options.map Prod.fst = (us.map Update.name).eraseDups ∧
    ((s.bare.updates us).options.map Prod.fst).Nodup ∧
    (∀ o ∈ (s.bare.updates us).options, o.2 ≠ .list []) ∧
    (∀ n value before after, us = before ++ .add n value :: after →
      Addition.of ((s.bare.updates before).option? n) ≠ .invents) ∧
    ∀ n values, (s.bare.updates us).addLists n values =
      s.bare.updates (us ++ values.map (.add n)) := by
  refine ⟨option?_updates_eq_none_iff s us, ?_, ?_, option?_updates_filter s.bare us,
    bare_updates s.bare us, map_fst_updates s us, nodup_updates s us, nonempty_updates s us,
    fun n value before after _ => Addition.of_ne_invents _, fun n values => ?_⟩
  · rintro n value before after rfl hafter
    exact option?_updates_of_set s.bare hafter
  · rintro n hset ⟨value, hadd⟩
    have hne : added n us ≠ [] := List.ne_nil_of_mem (mem_added_iff.2 hadd)
    rw [option?_updates_of_added s.bare hset, if_neg hne]
    rfl
  · rw [addLists_eq_updates, updates_append]

/-- Updates of three options, one of which is added to, written and added to again. -/
def mixedUpdates : List Update :=
  [.add "read" "a", .set "user" "al", .set "read" "b", .add "write" "d", .add "read" "c",
    .add "user" "bo", .set "user" "cy", .add "read" "e", .add "write" "f"]

theorem updates_closedForm_mixed :
    ((named "access" "ops").bare.updates mixedUpdates).option? "read" =
        some (.list ["b", "c", "e"]) ∧
      ((named "access" "ops").bare.updates mixedUpdates).option? "user" = some (.scalar "cy") ∧
      ((named "access" "ops").bare.updates mixedUpdates).option? "write" =
        some (.list ["d", "f"]) ∧
      ((named "access" "ops").bare.updates mixedUpdates).options.map Prod.fst =
        ["read", "user", "write"] ∧
      Addition.of (((named "access" "ops").bare.updates (mixedUpdates.take 4)).option? "read") ≠
        .invents := by
  obtain ⟨-, hset, hadd, -, -, hnames, -, -, hfound, -⟩ :=
    updates_closedForm (named "access" "ops") mixedUpdates
  refine ⟨?_, ?_, ?_, hnames.trans (by decide), hfound "read" "c" _ (mixedUpdates.drop 5) rfl⟩
  · have hlast : ∀ w, .set "read" w ∉ mixedUpdates.drop 3 := by
      simp [mixedUpdates]
    exact hset "read" "b" (mixedUpdates.take 2) _ rfl hlast
  · have hlast : ∀ w, .set "user" w ∉ mixedUpdates.drop 7 := by
      simp [mixedUpdates]
    exact hset "user" "cy" (mixedUpdates.take 6) _ rfl hlast
  · have hnone : ∀ w, .set "write" w ∉ mixedUpdates := by
      simp [mixedUpdates]
    exact hadd "write" hnone ⟨"d", by decide⟩

end Section

end Gatehouse.Uci
