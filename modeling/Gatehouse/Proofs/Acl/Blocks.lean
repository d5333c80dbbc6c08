import Gatehouse.Acl.Expansion
import Gatehouse.Proofs.Json.Members
import Mathlib.Data.List.Nodup

/-!
# The blocks of a document

A document is read as groups, and a group as blocks, one for each of its levels.  Here the way from
the members of a document to its blocks is taken in one step, and the expansion is told from them.

* `Json.block?` — the value under a group and a level.
* `writtenBlocks` — the blocks of a document in order, with their scopes as they are written.
* `mem_writtenBlocks_iff` — they are the objects that `Json.block?` finds.
* `nodup_key_writtenBlocks` — no group has two blocks at one level.
* `expand_eq_flatMap` — the expansion is made of the grants of the allowed blocks.
* `mem_expand_iff` — so a grant of the expansion is one of such a block.
-/

namespace Gatehouse

open Gatehouse.Access

/-- The block of a group at a level. -/
def Json.block? (document : Json) (group : String) (p : Permission) : Option Json :=
  (document.member? group).bind (·.member? p.name)

namespace Acl

/-- A block as it is read from its scopes. -/
def Block.ofScopes (p : Permission) (scopes : List (String × Json)) : Block :=
  ⟨p, scopes.map fun (scope, value) => .classify scope value⟩

/-- A block of a document, with its scopes as they are written. -/
structure WrittenBlock where
  /-- The name of the group. -/
  group : String
  /-- The level. -/
  level : Permission
  /-- The scopes. -/
  scopes : List (String × Json)

namespace WrittenBlock

/-- The block that a member of a group is, if it is one: an object under the name of a level. -/
def ofEntry? (group : String) : String × Json → Option WrittenBlock
  | (name, .object scopes) => (Permission.ofName? name).map (⟨group, ·, scopes⟩)
  | _ => none

/-- The group and the level of a block, as the grant that shows the group names them. -/
def key (b : WrittenBlock) : String × String :=
  (b.group, b.level.name)

/-- The grants of the block. -/
def grants (b : WrittenBlock) : List Grant :=
  (Block.ofScopes b.level b.scopes).grants b.group

theorem ofEntry?_eq_some_iff {group : String} {e : String × Json} {b : WrittenBlock} :
    ofEntry? group e = some b ↔ b.group = group ∧ e = (b.level.name, .object b.scopes) := by
  obtain ⟨name, value⟩ := e
  constructor
  · intro h
    cases value <;> simp only [WrittenBlock.ofEntry?, reduceCtorEq] at h
    obtain ⟨p, hp, rfl⟩ := Option.map_eq_some_iff.1 h
    exact ⟨rfl, by rw [Permission.name_of_ofName? hp]⟩
  · rintro ⟨rfl, heq⟩
    obtain ⟨rfl, rfl⟩ := Prod.mk.inj heq
    simp [WrittenBlock.ofEntry?]

end WrittenBlock

/-- The blocks of a document, group by group, in the order of its members. -/
def writtenBlocks (entries : List (String × Json)) : List WrittenBlock :=
  entries.flatMap fun (group, value) =>
    (value.object?.getD []).filterMap (WrittenBlock.ofEntry? group)

/-! ## Reading a document -/

/-- A member of a group is read as the block that it is. -/
theorem Block.ofEntry?_eq_map (group : String) (e : String × Json) :
    Block.ofEntry? e =
      (WrittenBlock.ofEntry? group e).map fun b => Block.ofScopes b.level b.scopes := by
  obtain ⟨name, value⟩ := e
  cases value <;> simp [Block.ofEntry?, WrittenBlock.ofEntry?, Block.ofScopes, Function.comp_def]

/-- The grants of a group are those of its allowed blocks, one after the other. -/
theorem Group.grants_eq_flatMap (group : String) (description : Option String)
    (members : List (String × Json)) (allowed : Permission → String → Bool) :
    (Group.mk group description (members.filterMap Block.ofEntry?)).grants allowed =
      ((members.filterMap (WrittenBlock.ofEntry? group)).filter
        fun b => allowed b.level b.group).flatMap WrittenBlock.grants := by
  induction members with
  | nil => rfl
  | cons e members ih =>
    unfold Group.grants at ih ⊢
    rw [List.filterMap_cons, List.filterMap_cons, Block.ofEntry?_eq_map group]
    cases hb : WrittenBlock.ofEntry? group e with
    | none => exact ih
    | some b =>
      obtain ⟨rfl, -⟩ := WrittenBlock.ofEntry?_eq_some_iff.1 hb
      rw [Option.map_some, List.flatMap_cons, ih, List.filter_cons]
      by_cases hallowed : allowed b.level b.group = true
      · rw [if_pos hallowed, List.flatMap_cons]
        exact congrArg (· ++ _) (if_pos hallowed)
      · rw [if_neg hallowed]
        exact congrArg (· ++ _) (if_neg hallowed)

/-- The expansion of a document is made of the grants of its allowed blocks, one after the other. -/
theorem expand_eq_flatMap (entries : List (String × Json)) (allowed : Permission → String → Bool) :
    expand (.ofEntries entries) allowed =
      ((writtenBlocks entries).filter fun b => allowed b.level b.group).flatMap
        WrittenBlock.grants := by
  induction entries with
  | nil => rfl
  | cons e entries ih =>
    obtain ⟨group, value⟩ := e
    have hblocks : writtenBlocks ((group, value) :: entries) =
        (value.object?.getD []).filterMap (WrittenBlock.ofEntry? group) ++ writtenBlocks entries :=
      rfl
    rw [hblocks, List.filter_append, List.flatMap_append, ← ih]
    cases value with
    | object members =>
      have hstep : expand (.ofEntries ((group, .object members) :: entries)) allowed =
          (Group.mk group ((Keyed.get? "description" members).bind Json.string?)
            (members.filterMap Block.ofEntry?)).grants allowed ++
              expand (.ofEntries entries) allowed := rfl
      rw [hstep, Group.grants_eq_flatMap]
      rfl
    | _ => rfl

/-! ## Blocks by group and level -/

variable {entries : List (String × Json)}

theorem block?_eq_some_iff (hd : (Json.object entries).Distinct) {group : String} {p : Permission}
    {w : Json} :
    (Json.object entries).block? group p = some w ↔
      ∃ members, (group, .object members) ∈ entries ∧ (p.name, w) ∈ members := by
  rw [Json.block?, Option.bind_eq_some_iff]
  constructor
  · rintro ⟨v, hv, hw⟩
    obtain ⟨members, rfl⟩ := Json.exists_object_of_member? hw
    have hmem := (Json.member?_eq_some_iff hd).1 hv
    exact ⟨members, hmem, (Json.member?_eq_some_iff (hd.of_mem hmem)).1 hw⟩
  · rintro ⟨members, hmem, hw⟩
    exact ⟨.object members, (Json.member?_eq_some_iff hd).2 hmem,
      (Json.member?_eq_some_iff (hd.of_mem hmem)).2 hw⟩

/-- No key comes twice in a block of a value in which none does. -/
theorem distinct_of_block? (hd : (Json.object entries).Distinct) {group : String} {p : Permission}
    {w : Json} (h : (Json.object entries).block? group p = some w) : w.Distinct := by
  obtain ⟨members, hmem, hw⟩ := (block?_eq_some_iff hd).1 h
  exact (hd.of_mem hmem).of_mem hw

/-- The blocks are the objects under a group and a level. -/
theorem mem_writtenBlocks_iff (hd : (Json.object entries).Distinct) {b : WrittenBlock} :
    b ∈ writtenBlocks entries ↔
      (Json.object entries).block? b.group b.level = some (.object b.scopes) := by
  rw [block?_eq_some_iff hd, writtenBlocks, List.mem_flatMap]
  constructor
  · rintro ⟨⟨group, value⟩, he, hb⟩
    obtain ⟨e, hmember, hb⟩ := List.mem_filterMap.1 hb
    obtain ⟨rfl, rfl⟩ := WrittenBlock.ofEntry?_eq_some_iff.1 hb
    cases value with
    | object members => exact ⟨members, he, hmember⟩
    | _ => exact absurd hmember List.not_mem_nil
  · rintro ⟨members, he, hmember⟩
    exact ⟨_, he, List.mem_filterMap.2 ⟨_, hmember,
      WrittenBlock.ofEntry?_eq_some_iff.2 ⟨rfl, rfl⟩⟩⟩

/-- No group has two blocks at one level. -/
theorem nodup_key_writtenBlocks (hd : (Json.object entries).Distinct) :
    ((writtenBlocks entries).map WrittenBlock.key).Nodup := by
  have hgroup : ∀ {group : String} {value : Json} {b : WrittenBlock},
      b ∈ (value.object?.getD []).filterMap (WrittenBlock.ofEntry? group) → b.group = group := by
    intro group value b hb
    obtain ⟨e, -, hb⟩ := List.mem_filterMap.1 hb
    exact (WrittenBlock.ofEntry?_eq_some_iff.1 hb).1
  rw [writtenBlocks, List.map_flatMap, List.nodup_flatMap]
  constructor
  · rintro ⟨group, value⟩ he
    -- The members of a group that are blocks have the levels as their names.
    have hmembers : ((value.object?.getD []).map Prod.fst).Nodup := by
      cases value with
      | object members => exact (hd.of_mem he).nodup
      | _ => exact List.nodup_nil
    rw [List.Nodup, List.pairwise_map] at hmembers ⊢
    rw [List.pairwise_filterMap]
    refine hmembers.imp fun {d e} hne b hb b' hb' hkey => hne ?_
    obtain ⟨-, rfl⟩ := WrittenBlock.ofEntry?_eq_some_iff.1 hb
    obtain ⟨-, rfl⟩ := WrittenBlock.ofEntry?_eq_some_iff.1 hb'
    exact congrArg Prod.snd hkey
  · refine (List.pairwise_map.1 hd.nodup).imp fun {d e} hne => ?_
    refine List.disjoint_left.2 fun key hd he => ?_
    obtain ⟨b, hb, rfl⟩ := List.mem_map.1 hd
    obtain ⟨b', hb', hkey⟩ := List.mem_map.1 he
    exact hne ((hgroup hb).symm.trans ((congrArg Prod.fst hkey).symm.trans (hgroup hb')))

/-- The grants of an expansion come from the allowed blocks of the value. -/
theorem mem_expand_iff {allowed : Permission → String → Bool}
    (hd : (Json.object entries).Distinct) {gr : Grant} :
    gr ∈ expand (.ofEntries entries) allowed ↔
      ∃ group p scopes, allowed p group = true ∧
        (Json.object entries).block? group p = some (.object scopes) ∧
        gr ∈ (Block.ofScopes p scopes).grants group := by
  simp only [expand_eq_flatMap, List.mem_flatMap, List.mem_filter, mem_writtenBlocks_iff hd]
  constructor
  · rintro ⟨⟨group, p, scopes⟩, ⟨hblock, hallowed⟩, hgr⟩
    exact ⟨group, p, scopes, hallowed, hblock, hgr⟩
  · rintro ⟨group, p, scopes, hallowed, hblock, hgr⟩
    exact ⟨⟨group, p, scopes⟩, ⟨hblock, hallowed⟩, hgr⟩

end Acl

end Gatehouse
