import Gatehouse.Acl.Library
import Mathlib.Tactic.Common

/-!
# The order of paths

Paths are ordered by their components, and components by their kind and then by their name.
`componentsLe_trans` and `componentsLe_total` make this a total preorder, so what a search finds
and a library lists really stands in that order (`Library.paths_pairwise`).
-/

namespace Gatehouse.Files

namespace Component

theorem before_iff {a b : Component} :
    a.before b = true ↔ a.rank < b.rank ∨ a.rank = b.rank ∧ a.text < b.text := by
  simp [before]

/-- A component is known by its kind and its name. -/
theorem eq_of_rank_text {a b : Component} (hr : a.rank = b.rank) (ht : a.text = b.text) :
    a = b := by
  cases a <;> cases b <;> simp_all [rank, text]

theorem before_trans {a b c : Component} (hab : a.before b = true) (hbc : b.before c = true) :
    a.before c = true := by
  rw [before_iff] at hab hbc ⊢
  rcases hab with hab | ⟨hab, ht⟩ <;> rcases hbc with hbc | ⟨hbc, ht'⟩
  · exact Or.inl (by omega)
  · exact Or.inl (by omega)
  · exact Or.inl (by omega)
  · exact Or.inr ⟨hab.trans hbc, String.lt_trans ht ht'⟩

/-- Of two components one comes before the other, unless they are the same. -/
theorem before_trichotomy (a b : Component) : a.before b = true ∨ a = b ∨ b.before a = true := by
  rw [before_iff, before_iff]
  rcases Nat.lt_trichotomy a.rank b.rank with h | h | h
  · exact Or.inl (Or.inl h)
  · by_cases hlt : a.text < b.text
    · exact Or.inl (Or.inr ⟨h, hlt⟩)
    by_cases hgt : b.text < a.text
    · exact Or.inr (Or.inr (Or.inr ⟨h.symm, hgt⟩))
    · exact Or.inr (Or.inl (eq_of_rank_text h (String.le_antisymm
        (String.not_lt.1 hgt) (String.not_lt.1 hlt))))
  · exact Or.inr (Or.inr (Or.inl h))

end Component

theorem componentsLe_cons {a b : Component} {as bs : List Component} :
    componentsLe (a :: as) (b :: bs) = true ↔
      a.before b = true ∨ a = b ∧ componentsLe as bs = true := by
  simp [componentsLe]

theorem componentsLe_trans : ∀ {p q r : List Component}, componentsLe p q = true →
    componentsLe q r = true → componentsLe p r = true := by
  intro p
  induction p with
  | nil => intro q r _ _; rfl
  | cons a as ih =>
    intro q r hpq hqr
    cases q with
    | nil => exact absurd hpq (by simp [componentsLe])
    | cons b bs =>
      cases r with
      | nil => exact absurd hqr (by simp [componentsLe])
      | cons c cs =>
        rw [componentsLe_cons] at hpq hqr ⊢
        rcases hpq with hab | ⟨rfl, hpq⟩ <;> rcases hqr with hbc | ⟨rfl, hqr⟩
        · exact Or.inl (Component.before_trans hab hbc)
        · exact Or.inl hab
        · exact Or.inl hbc
        · exact Or.inr ⟨rfl, ih hpq hqr⟩

theorem componentsLe_total : ∀ p q : List Component,
    componentsLe p q = true ∨ componentsLe q p = true := by
  intro p
  induction p with
  | nil => intro q; exact Or.inl rfl
  | cons a as ih =>
    intro q
    cases q with
    | nil => exact Or.inr rfl
    | cons b bs =>
      rw [componentsLe_cons, componentsLe_cons]
      rcases Component.before_trichotomy a b with h | rfl | h
      · exact Or.inl (Or.inl h)
      · exact (ih bs).imp (fun h => Or.inr ⟨rfl, h⟩) (fun h => Or.inr ⟨rfl, h⟩)
      · exact Or.inr (Or.inl h)

/-- Two components do not come before each other. -/
theorem Component.before_asymm {a b : Component} (h : a.before b = true) : b.before a = false := by
  rw [← Bool.not_eq_true]
  rw [before_iff] at h ⊢
  rintro (hba | ⟨hrank, hba⟩) <;> rcases h with hab | ⟨hrank', hab⟩
  · omega
  · omega
  · omega
  · exact String.lt_irrefl _ (String.lt_trans hab hba)

/-- Lists of components that come after each other are the same. -/
theorem componentsLe_antisymm : ∀ {p q : List Component}, componentsLe p q = true →
    componentsLe q p = true → p = q := by
  intro p
  induction p with
  | nil =>
    intro q _ hqp
    cases q with
    | nil => rfl
    | cons b bs => exact absurd hqp (by simp [componentsLe])
  | cons a as ih =>
    intro q hpq hqp
    cases q with
    | nil => exact absurd hpq (by simp [componentsLe])
    | cons b bs =>
      rw [componentsLe_cons] at hpq hqp
      rcases hpq with hab | ⟨rfl, hpq⟩ <;> rcases hqp with hba | ⟨hab', hqp⟩
      · exact absurd hba (by simp [Component.before_asymm hab])
      · exact absurd (hab' ▸ hab) (by simp [Component.before_asymm (hab' ▸ hab)])
      · exact absurd hba (by simp [Component.before_asymm hba])
      · rw [ih hpq hqp]

theorem pathLe_trans (a b c : String) (hab : pathLe a b = true) (hbc : pathLe b c = true) :
    pathLe a c = true :=
  componentsLe_trans hab hbc

theorem pathLe_total (a b : String) : (pathLe a b || pathLe b a) = true := by
  rw [Bool.or_eq_true]
  exact componentsLe_total _ _

/-- Sorting by `pathLe` puts paths into their order. -/
theorem pairwise_mergeSort_pathLe (ps : List String) :
    (ps.mergeSort pathLe).Pairwise (pathLe · · = true) :=
  List.pairwise_mergeSort pathLe_trans pathLe_total ps

/-- Paths in their order, no two of them the same, come strictly one after the other. -/
theorem pairwise_not_pathLe {ps : List String} (h : ps.Pairwise (pathLe · · = true))
    (hdistinct : (ps.map components).Nodup) : ps.Pairwise fun p q => pathLe q p = false := by
  refine (h.and (List.pairwise_map.1 hdistinct)).imp fun {p q} hpq => ?_
  rw [← Bool.not_eq_true]
  exact fun hqp => hpq.2 (componentsLe_antisymm hpq.1 hqp)

/-- Where a list is cut is known if all that stands before the cut differs from all after it. -/
theorem append_inj_of_forall {α : Type} (q : α → Bool) {as bs cs ds : List α}
    (h : as ++ bs = cs ++ ds) (has : ∀ x ∈ as, q x = true) (hbs : ∀ x ∈ bs, q x = false)
    (hcs : ∀ x ∈ cs, q x = true) (hds : ∀ x ∈ ds, q x = false) : as = cs ∧ bs = ds := by
  have hfilter : ∀ {before after : List α}, (∀ x ∈ before, q x = true) →
      (∀ x ∈ after, q x = false) → (before ++ after).filter q = before := by
    intro before after hbefore hafter
    have hnil : after.filter q = [] := List.filter_eq_nil_iff.2 fun x hx => by simp [hafter x hx]
    rw [List.filter_append, List.filter_eq_self.2 hbefore, hnil, List.append_nil]
  have hcut : as = cs := by rw [← hfilter has hbs, h, hfilter hcs hds]
  rw [hcut] at h
  exact ⟨hcut, List.append_cancel_left h⟩

/-- Sorting does not depend on what is left out. -/
theorem filter_mergeSort_pathLe (p : String → Bool) (ps : List String) :
    (ps.mergeSort pathLe).filter p = (ps.filter p).mergeSort pathLe := by
  induction ps with
  | nil => simp
  | cons a ps ih =>
    obtain ⟨before, after, hcons, hrest, hbefore⟩ :=
      List.mergeSort_cons pathLe_trans pathLe_total a ps
    rw [hcons, List.filter_append]
    by_cases ha : p a = true
    · rw [List.filter_cons_of_pos ha, List.filter_cons_of_pos ha]
      obtain ⟨before', after', hcons', hrest', hbefore'⟩ :=
        List.mergeSort_cons pathLe_trans pathLe_total a (ps.filter p)
      -- What stands before `a` is what does not come after it, so both lists are cut in one place.
      have hafter : ∀ {before after : List String},
          (before ++ a :: after).Pairwise (pathLe · · = true) →
            ∀ b ∈ after, (!pathLe a b) = false :=
        fun h b hb => by simp [(List.pairwise_cons.1 (List.pairwise_append.1 h).2.1).1 b hb]
      have hsorted := hafter (hcons ▸ pairwise_mergeSort_pathLe (a :: ps))
      have hsorted' := hafter (hcons' ▸ pairwise_mergeSort_pathLe (a :: ps.filter p))
      have hsame : before' ++ after' = before.filter p ++ after.filter p := by
        rw [← hrest', ← ih, hrest, List.filter_append]
      obtain ⟨rfl, rfl⟩ := append_inj_of_forall (fun b => !pathLe a b) hsame hbefore' hsorted'
        (fun b hb => hbefore b (List.mem_filter.1 hb).1)
        (fun b hb => hsorted b (List.mem_filter.1 hb).1)
      rw [hcons']
    · rw [List.filter_cons_of_neg ha, List.filter_cons_of_neg ha, ← List.filter_append, ← hrest, ih]

end Gatehouse.Files

namespace Gatehouse.Acl

open Gatehouse.Files

/-- A library lists its files in the order of their paths. -/
theorem Library.paths_pairwise {l : Library} {tree : Tree} {paths : List String}
    (h : l.paths tree = .ok paths) : paths.Pairwise (pathLe · · = true) := by
  unfold Library.paths at h
  split at h
  · obtain rfl := Except.ok.inj h
    unfold Glob.PathPattern.files
    split
    · exact List.Pairwise.nil
    · exact pairwise_mergeSort_pathLe _
  · exact absurd h (by simp)

/-- Files that are found in the order of their paths are listed as they are found. -/
theorem Library.paths_of_found {l : Library} {tree : Tree} {pattern : Glob.PathPattern}
    {found : List String} (hpattern : Glob.PathPattern.parse l.pathPattern = .ok pattern)
    (hfiles : pattern.foldersOnly = false)
    (hfound : (Glob.search tree (if pattern.absolute then "/" else ".") pattern.segments).filter
      tree.isFile = found)
    (hsorted : found.Pairwise (pathLe · · = true)) : l.paths tree = .ok found := by
  have hlisted : pattern.files tree = found := by
    unfold Glob.PathPattern.files
    rw [hfiles, if_neg Bool.false_ne_true]
    dsimp only
    rw [hfound, List.mergeSort_of_pairwise hsorted]
  rw [Library.paths, hpattern, ← hlisted]

end Gatehouse.Acl
