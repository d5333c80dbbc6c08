import Gatehouse.Proofs.Acl.Openings
import Gatehouse.Proofs.Json.Reordered

/-!
# Grants of documents in another order

What a document is expanded to depends on the order of its items and members only in order: the
grants come in another order, each with the same scope and with the same pairs in another order.

* `Grant.Rearranged`, `Block.Rearranged`, `Group.Rearranged`, `Document.Rearranged` — the same up
  to order, level by level.
* `strings_perm`, `methodPairs_perm`, `Block.rearranged_ofEntry?`, `Group.rearranged_ofEntry?`,
  `Document.rearranged_ofJson?` — reading a reordered value gives what is rearranged.
* `rel_expandValues` — the grants of reordered documents.
* `exists_covers_of_reordered` — what a grant of some documents covers is covered by a grant of any
  documents that have each of them among them, in any order and however often.
-/

namespace Gatehouse.Acl

open Gatehouse.Access Gatehouse.Json

/-! ## Pairs -/

theorem strings_perm {vs ws : List Json} (h : Multiset.Rel Reordered vs ws) :
    (strings vs).Perm (strings ws) := by
  rw [← rel_eq_iff_perm]
  refine rel_filterMap h fun v w hvw => ?_
  rw [hvw.string?]
  exact optionRel_refl (fun _ => rfl) _

/-- The methods of a reordered object are the same in another order. -/
theorem methods?_rel {e f : String × Json} (h : ReorderedMember e f) :
    Option.Rel (fun a b => a.1 = b.1 ∧ a.2.Perm b.2) (methods? e) (methods? f) := by
  obtain ⟨o, v⟩ := e
  obtain ⟨o', w⟩ := f
  obtain ⟨rfl, hvw⟩ : o = o' ∧ Reordered v w := h
  rcases hvw.cases with rfl | ⟨_, _, rfl, rfl, hrel⟩ | ⟨_, _, rfl, rfl, -⟩
  · exact optionRel_refl (fun a => ⟨rfl, .refl a.2⟩) _
  · exact .some ⟨rfl, strings_perm hrel⟩
  · exact .none

theorem methodPairs_perm {es fs : List (String × Json)} (h : Multiset.Rel ReorderedMember es fs) :
    (methodPairs es).Perm (methodPairs fs) := by
  rw [← rel_eq_iff_perm]
  refine rel_flatMap (rel_filterMap h fun _ _ => methods?_rel) ?_
  rintro ⟨o, ms⟩ ⟨o', ms'⟩ ⟨ho, hms⟩
  obtain rfl : o = o' := ho
  rw [rel_eq_iff_perm]
  exact hms.map _

/-! ## Grants -/

/-- The same scope, and the same pairs in some order. -/
def Grant.Rearranged (g h : Grant) : Prop :=
  g.scope = h.scope ∧ g.pairs.Perm h.pairs

theorem Grant.Rearranged.refl (g : Grant) : g.Rearranged g :=
  ⟨rfl, .refl g.pairs⟩

/-- What a grant covers does not depend on the order of its pairs. -/
theorem Grant.Rearranged.covers {g h : Grant} (hgh : g.Rearranged h)
    {scope object function : String} (hg : g.Covers scope object function) :
    h.Covers scope object function := by
  obtain ⟨hscope, pair, hpair, hmatches⟩ := hg
  exact ⟨hgh.1.symm.trans hscope, pair, hgh.2.subset hpair, hmatches⟩

/-- A reordered scope gives the same grant in another order, or none as before. -/
theorem ScopeEntry.grant?_rel {v w : Json} (h : Reordered v w) (scope : String) (p : Permission) :
    Option.Rel Grant.Rearranged ((classify scope v).grant? p) ((classify scope w).grant? p) := by
  rcases h.cases with rfl | ⟨_, _, rfl, rfl, hrel⟩ | ⟨_, _, rfl, rfl, hrel⟩
  · exact optionRel_refl Grant.Rearranged.refl _
  · by_cases hscope : scope = configScope ∨ scope = fileScope
    · simp only [classify, if_pos hscope, grant?]
      exact .some ⟨rfl, (strings_perm hrel).map _⟩
    · simp only [classify, if_neg hscope, grant?]
      exact .none
  · by_cases hscope : scope = objectScope
    · simp only [classify, if_pos hscope, grant?]
      exact .some ⟨rfl, methodPairs_perm hrel⟩
    · simp only [classify, if_neg hscope, grant?]
      exact .none

/-! ## Blocks -/

/-- The same level, and the same grants in some order. -/
def Block.Rearranged (b c : Block) : Prop :=
  b.permission = c.permission ∧ Multiset.Rel Grant.Rearranged b.scopeGrants c.scopeGrants

theorem Block.Rearranged.refl (b : Block) : b.Rearranged b :=
  ⟨rfl, Multiset.rel_refl_of_refl_on fun g _ => .refl g⟩

theorem Block.rearranged_ofScopes {es fs : List (String × Json)}
    (h : Multiset.Rel ReorderedMember es fs) (p : Permission) :
    (Block.ofScopes p es).Rearranged (Block.ofScopes p fs) := by
  refine ⟨rfl, ?_⟩
  unfold Block.ofScopes Block.scopeGrants
  rw [List.filterMap_map, List.filterMap_map]
  refine rel_filterMap h ?_
  rintro ⟨scope, v⟩ ⟨scope', w⟩ ⟨hscope, hvw⟩
  obtain rfl : scope = scope' := hscope
  exact ScopeEntry.grant?_rel hvw scope p

theorem Block.rearranged_ofEntry? {e f : String × Json} (h : ReorderedMember e f) :
    Option.Rel Block.Rearranged (Block.ofEntry? e) (Block.ofEntry? f) := by
  obtain ⟨name, v⟩ := e
  obtain ⟨name', w⟩ := f
  obtain ⟨rfl, hvw⟩ : name = name' ∧ Reordered v w := h
  rcases hvw.cases with rfl | ⟨_, _, rfl, rfl, -⟩ | ⟨_, _, rfl, rfl, hrel⟩
  · exact optionRel_refl Block.Rearranged.refl _
  · exact .none
  · dsimp only [Block.ofEntry?]
    cases Permission.ofName? name with
    | none => exact .none
    | some p => exact .some (Block.rearranged_ofScopes hrel p)

/-- Whether a block shows its group depends on how many grants it has, so the rearranged block has
one more grant in the same case. -/
theorem Block.Rearranged.grants {b c : Block} (h : b.Rearranged c) (group : String) :
    Multiset.Rel Grant.Rearranged (b.grants group) (c.grants group) := by
  obtain ⟨hp, hgrants⟩ := h
  have hlength : b.scopeGrants.length = c.scopeGrants.length :=
    Multiset.card_eq_card_of_rel hgrants
  have hempty : b.scopeGrants.isEmpty = c.scopeGrants.isEmpty := by
    rw [Bool.eq_iff_iff, List.isEmpty_iff_length_eq_zero, List.isEmpty_iff_length_eq_zero, hlength]
  unfold Block.grants
  rw [hempty, hp]
  split
  · exact .zero
  · rw [← Multiset.coe_add, ← Multiset.coe_add]
    exact hgrants.add (.cons (.refl _) .zero)

/-! ## Groups -/

/-- The same name, and the same blocks in some order. -/
def Group.Rearranged (g h : Group) : Prop :=
  g.name = h.name ∧ Multiset.Rel Block.Rearranged g.blocks h.blocks

theorem Group.Rearranged.refl (g : Group) : g.Rearranged g :=
  ⟨rfl, Multiset.rel_refl_of_refl_on fun b _ => .refl b⟩

theorem Group.rearranged_ofEntry? {e f : String × Json} (h : ReorderedMember e f) :
    Option.Rel Group.Rearranged (Group.ofEntry? e) (Group.ofEntry? f) := by
  obtain ⟨name, v⟩ := e
  obtain ⟨name', w⟩ := f
  obtain ⟨rfl, hvw⟩ : name = name' ∧ Reordered v w := h
  rcases hvw.cases with rfl | ⟨_, _, rfl, rfl, -⟩ | ⟨_, _, rfl, rfl, hrel⟩
  · exact optionRel_refl Group.Rearranged.refl _
  · exact .none
  · exact .some ⟨rfl, rel_filterMap hrel fun _ _ => Block.rearranged_ofEntry?⟩

theorem Group.Rearranged.grants {g h : Group} (hgh : g.Rearranged h)
    (allowed : Permission → String → Bool) :
    Multiset.Rel Grant.Rearranged (g.grants allowed) (h.grants allowed) := by
  obtain ⟨hname, hblocks⟩ := hgh
  refine rel_flatMap hblocks fun b c hbc => ?_
  rw [hname, hbc.1]
  split
  · exact hbc.grants h.name
  · exact .zero

/-! ## Documents -/

/-- The same groups in some order. -/
def Document.Rearranged (d e : Document) : Prop :=
  Multiset.Rel Group.Rearranged d.groups e.groups

theorem Document.Rearranged.refl (d : Document) : d.Rearranged d :=
  Multiset.rel_refl_of_refl_on fun g _ => .refl g

theorem Document.rearranged_ofJson? {v w : Json} (h : Reordered v w) :
    Option.Rel Document.Rearranged (Document.ofJson? v) (Document.ofJson? w) := by
  rcases h.cases with rfl | ⟨_, _, rfl, rfl, -⟩ | ⟨_, _, rfl, rfl, hrel⟩
  · exact optionRel_refl Document.Rearranged.refl _
  · exact .none
  · exact .some (rel_filterMap hrel fun _ _ => Group.rearranged_ofEntry?)

theorem Document.Rearranged.expand {d e : Document} (h : d.Rearranged e)
    (allowed : Permission → String → Bool) :
    Multiset.Rel Grant.Rearranged (expand d allowed) (expand e allowed) :=
  rel_flatMap h fun _ _ hgh => hgh.grants allowed

/-- The grants of the documents among values, as far as they are allowed. -/
def expandValues (vs : List Json) (allowed : Permission → String → Bool) : List Grant :=
  (vs.filterMap Document.ofJson?).flatMap (expand · allowed)

variable {vs ws : List Json} (allowed : Permission → String → Bool)

/-- Reordered values, in any order, have the same grants up to order. -/
theorem rel_expandValues (h : Multiset.Rel Reordered vs ws) :
    Multiset.Rel Grant.Rearranged (expandValues vs allowed) (expandValues ws allowed) :=
  rel_flatMap (rel_filterMap h fun _ _ => Document.rearranged_ofJson?)
    fun _ _ hde => hde.expand allowed

/-- Values that have each of some values among them, in any order and however often, have grants
that cover what the grants of those values cover. -/
theorem exists_covers_of_reordered (h : ∀ v ∈ vs, ∃ w ∈ ws, Reordered v w)
    {scope object function : String}
    (hcovers : ∃ g ∈ expandValues vs allowed, g.Covers scope object function) :
    ∃ g ∈ expandValues ws allowed, g.Covers scope object function := by
  obtain ⟨g, hg, hcovers⟩ := hcovers
  obtain ⟨d, hd, hg⟩ := List.mem_flatMap.1 hg
  obtain ⟨v, hv, hvd⟩ := List.mem_filterMap.1 hd
  obtain ⟨w, hw, hvw⟩ := h v hv
  have hread := Document.rearranged_ofJson? hvw
  rw [hvd] at hread
  generalize hwe : Document.ofJson? w = e at hread
  cases hread with
  | some hde =>
    obtain ⟨g', hg', hgg'⟩ := Multiset.exists_mem_of_rel_of_mem (hde.expand allowed)
      (Multiset.mem_coe.2 hg)
    exact ⟨g', List.mem_flatMap.2 ⟨_, List.mem_filterMap.2 ⟨w, hw, hwe⟩, Multiset.mem_coe.1 hg'⟩,
      hgg'.covers hcovers⟩

end Gatehouse.Acl
