/-!
# Lists of named values

A table that keeps the order in which its keys first came is a list of pairs.  `alter` changes the
value of a key in its place and puts a new key at the end; `get?_alter` and `keys_alter` say what
that does to the values and to the order of the keys.
-/

namespace Gatehouse.Keyed

variable {α β : Type} [DecidableEq α]

/-- The value of the first entry with this key. -/
def get? (key : α) (t : List (α × β)) : Option β :=
  t.lookup key

/-- Replaces the value of a key by what `f` makes of it.  A key that is not there yet is added at
the end. -/
def alter (key : α) (f : Option β → β) : List (α × β) → List (α × β)
  | [] => [(key, f none)]
  | (k, v) :: r => if k = key then (k, f (some v)) :: r else (k, v) :: alter key f r

/-- Gives a key a value, in the place of the value it has. -/
def set (key : α) (value : β) (t : List (α × β)) : List (α × β) :=
  alter key (fun _ => value) t

/-- The table in which each key has the place of its first and the value of its last entry. -/
def collapse (t : List (α × β)) : List (α × β) :=
  t.foldl (fun u e => set e.1 e.2 u) []

@[simp] theorem get?_nil (key : α) : get? key ([] : List (α × β)) = none := rfl

theorem get?_cons (key k : α) (v : β) (r : List (α × β)) :
    get? key ((k, v) :: r) = if k = key then some v else get? key r := by
  by_cases h : k = key
  · simp [get?, h]
  · simp [get?, List.lookup_cons, h, beq_false_of_ne (Ne.symm h)]

/-- Altering a key leaves the values of the other keys alone. -/
theorem get?_alter (key other : α) (f : Option β → β) (t : List (α × β)) :
    get? other (alter key f t) = if other = key then some (f (get? key t)) else get? other t := by
  induction t with
  | nil => by_cases h : key = other <;> simp [alter, get?_cons, h, eq_comm]
  | cons e r ih =>
    obtain ⟨k, v⟩ := e
    by_cases hk : k = key <;> by_cases ho : k = other <;> by_cases h : other = key <;>
      simp_all [alter, get?_cons]

/-- Giving a key a value gives it that value and leaves the other keys alone. -/
theorem get?_set (key other : α) (value : β) (t : List (α × β)) :
    get? other (set key value t) = if other = key then some value else get? other t :=
  get?_alter key other (fun _ => value) t

/-- Altering a key adds it at the end unless it is there. -/
theorem keys_alter (key : α) (f : Option β → β) (t : List (α × β)) :
    (alter key f t).map Prod.fst =
      if key ∈ t.map Prod.fst then t.map Prod.fst else t.map Prod.fst ++ [key] := by
  induction t with
  | nil => simp [alter]
  | cons e r ih =>
    obtain ⟨k, v⟩ := e
    by_cases hk : k = key
    · simp [alter, hk]
    · have hk' : ¬key = k := fun h => hk h.symm
      by_cases hm : key ∈ r.map Prod.fst <;> simp_all [alter]

/-- A key that does not stand in the first part of a table is altered in the second. -/
theorem alter_append {key : α} {t : List (α × β)} (h : key ∉ t.map Prod.fst)
    (f : Option β → β) (u : List (α × β)) : alter key f (t ++ u) = t ++ alter key f u := by
  induction t with
  | nil => rfl
  | cons e r ih =>
    obtain ⟨k, v⟩ := e
    rw [List.map_cons, List.mem_cons, not_or] at h
    rw [List.cons_append, alter, if_neg (Ne.symm h.1), ih h.2, List.cons_append]

theorem nodup_keys_alter (key : α) (f : Option β → β) {t : List (α × β)}
    (h : (t.map Prod.fst).Nodup) : ((alter key f t).map Prod.fst).Nodup := by
  rw [keys_alter]
  split
  · exact h
  · rename_i hm
    rw [List.nodup_append]
    refine ⟨h, by simp, ?_⟩
    intro a ha b hb
    rw [List.mem_singleton] at hb
    rintro rfl
    exact hm (hb ▸ ha)

/-! ## Values and entries -/

theorem mem_of_get? {key : α} {v : β} {t : List (α × β)} (h : get? key t = some v) :
    (key, v) ∈ t := by
  obtain ⟨before, after, rfl, -⟩ := List.lookup_eq_some_iff.1 h
  exact List.mem_append_right before List.mem_cons_self

/-- A key has a value if it is one of the keys. -/
theorem isSome_get?_iff {key : α} {t : List (α × β)} :
    (get? key t).isSome = true ↔ key ∈ t.map Prod.fst := by
  rw [get?, List.lookup_isSome_iff, List.mem_map]
  simp only [beq_iff_eq, eq_comm (a := key)]

/-- Where no key comes twice, the entries are the keys with their values. -/
theorem get?_eq_some_iff {key : α} {v : β} {t : List (α × β)} (hn : (t.map Prod.fst).Nodup) :
    get? key t = some v ↔ (key, v) ∈ t := by
  refine ⟨mem_of_get?, fun h => ?_⟩
  obtain ⟨before, after, rfl⟩ := List.append_of_mem h
  refine List.lookup_eq_some_iff.2 ⟨before, after, rfl, fun p hp => bne_iff_ne.2 ?_⟩
  -- The same key in front of the entry would come twice.
  rw [List.map_append, List.nodup_append] at hn
  exact (hn.2.2 p.1 (List.mem_map_of_mem hp) key List.mem_cons_self).symm

/-- Altering a key adds no entry but that of the key. -/
theorem mem_alter {key : α} {f : Option β → β} {t : List (α × β)} {e : α × β}
    (h : e ∈ alter key f t) : e = (key, f (get? key t)) ∨ e ∈ t := by
  induction t with
  | nil => exact Or.inl (List.mem_singleton.1 h)
  | cons d r ih =>
    obtain ⟨k, w⟩ := d
    unfold alter at h
    rw [get?_cons]
    split at h
    · rename_i hk
      rw [if_pos hk]
      rcases List.mem_cons.1 h with rfl | hr
      · exact Or.inl (by rw [hk])
      · exact Or.inr (List.mem_cons_of_mem _ hr)
    · rename_i hk
      rw [if_neg hk]
      rcases List.mem_cons.1 h with rfl | hr
      · exact Or.inr List.mem_cons_self
      · exact (ih hr).imp id (List.mem_cons_of_mem _)

theorem mem_set {key : α} {value : β} {t : List (α × β)} {e : α × β} (h : e ∈ set key value t) :
    e = (key, value) ∨ e ∈ t :=
  mem_alter h

/-- Collapsing a table leaves each key once, and adds no entry. -/
theorem collapse_spec (t : List (α × β)) :
    ((collapse t).map Prod.fst).Nodup ∧ ∀ e ∈ collapse t, e ∈ t := by
  have hfold : ∀ (t u : List (α × β)), (u.map Prod.fst).Nodup →
      ((t.foldl (fun u e => set e.1 e.2 u) u).map Prod.fst).Nodup ∧
        ∀ e ∈ t.foldl (fun u e => set e.1 e.2 u) u, e ∈ u ∨ e ∈ t := by
    intro t
    induction t with
    | nil => intro u hu; exact ⟨hu, fun e he => Or.inl he⟩
    | cons d r ih =>
      intro u hu
      obtain ⟨hn, hm⟩ := ih (set d.1 d.2 u) (nodup_keys_alter d.1 _ hu)
      refine ⟨hn, fun e he => ?_⟩
      rcases hm e he with h | h
      · rcases mem_set h with rfl | h
        · exact Or.inr List.mem_cons_self
        · exact Or.inl h
      · exact Or.inr (List.mem_cons_of_mem _ h)
  obtain ⟨hn, hm⟩ := hfold t [] List.nodup_nil
  exact ⟨hn, fun e he => (hm e he).resolve_left List.not_mem_nil⟩

/-- A table in which no key comes twice is not changed by collapsing it. -/
theorem collapse_of_nodup {t : List (α × β)} (h : (t.map Prod.fst).Nodup) : collapse t = t := by
  have hfold : ∀ (t u : List (α × β)), ((u ++ t).map Prod.fst).Nodup →
      t.foldl (fun u e => set e.1 e.2 u) u = u ++ t := by
    intro t
    induction t with
    | nil => intro u _; rw [List.append_nil]; rfl
    | cons e r ih =>
      intro u hu
      have hnew : e.1 ∉ u.map Prod.fst := by
        rw [List.map_append, List.map_cons] at hu
        intro hmem
        exact (List.nodup_append.1 hu).2.2 e.1 hmem e.1 List.mem_cons_self rfl
      have hset : set e.1 e.2 u = u ++ [e] := by
        have halter := alter_append hnew (fun _ => e.2) []
        rwa [List.append_nil] at halter
      rw [List.foldl_cons, hset, ih]
      · rw [List.append_assoc, List.singleton_append]
      · rwa [List.append_assoc, List.singleton_append]
  exact hfold t [] h

end Gatehouse.Keyed
