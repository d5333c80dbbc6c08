import Gatehouse.Access.Policy
import Gatehouse.Acl.Expansion
import Mathlib.Tactic.Common

/-!
# Levels in the grants

A policy that lets a user write lets him read, and not the other way round.  Here this is said of
the grants themselves.

* `Policy.Lists` — a list of the policy has a name, and a pattern that covers a group.
* `Policy.authorizes_write_iff`, `Policy.authorizes_read_iff` — which lists count for a level.
* `Document.blocks` — the blocks of a document, each with the name of its group.
* `Share` — what a block adds to the grants: all that it has if one of the right lists covers its
  group, and nothing otherwise.
* `expand_eq_flatMap_shareOf` — the grants of a document are the shares of its blocks.

`expand_levels` concludes that the grants of a block for reading are there whenever a grant of the
block for writing is.
-/

namespace Gatehouse

namespace Access.Policy

variable {policy : Policy} {group : String}

/-- A list of this name has a pattern that covers the group. -/
def Lists (policy : Policy) (name group : String) : Prop :=
  ∃ l ∈ policy.lists, l.name = name ∧ ∃ pattern ∈ l.patterns, pattern.covers group = true

theorem grantsDirectly_iff_lists {p : Permission} :
    policy.grantsDirectly p group = true ↔ policy.Lists p.name group := by
  simp only [grantsDirectly, Lists, PatternList.covers, List.any_eq_true, Bool.and_eq_true,
    beq_iff_eq]

/-- To write takes a list named `write`. -/
theorem authorizes_write_iff :
    policy.authorizes .write group = true ↔ policy.Lists "write" group := by
  have hdirect : policy.authorizes .write group = policy.grantsDirectly .write group :=
    Bool.or_false _
  rw [hdirect, grantsDirectly_iff_lists]
  rfl

/-- To read takes a list named `read` or `write`. -/
theorem authorizes_read_iff :
    policy.authorizes .read group = true ↔
      policy.Lists "read" group ∨ policy.Lists "write" group := by
  have hdirect : policy.authorizes .read group =
      (policy.grantsDirectly .read group || policy.grantsDirectly .write group) := rfl
  rw [hdirect, Bool.or_eq_true, grantsDirectly_iff_lists, grantsDirectly_iff_lists]
  rfl

/-- The lists that are named after a level. -/
def levelLists (policy : Policy) : List PatternList :=
  policy.lists.filter fun l => l.name == "read" || l.name == "write"

theorem lists_iff_levelLists {name : String} (hname : name = "read" ∨ name = "write") :
    policy.Lists name group ↔
      ∃ l ∈ policy.levelLists, l.name = name ∧
        ∃ pattern ∈ l.patterns, pattern.covers group = true := by
  constructor
  · rintro ⟨l, hl, rfl, hcovers⟩
    exact ⟨l, List.mem_filter.2 ⟨hl, by simpa using hname⟩, rfl, hcovers⟩
  · rintro ⟨l, hl, hl', hcovers⟩
    exact ⟨l, (List.mem_filter.1 hl).1, hl', hcovers⟩

/-- Policies that differ only in lists with other names authorize the same. -/
theorem authorizes_congr {policy' : Policy} (h : policy.levelLists = policy'.levelLists)
    (p : Permission) (group : String) :
    policy.authorizes p group = policy'.authorizes p group := by
  have hlists : ∀ name, name = "read" ∨ name = "write" →
      (policy.Lists name group ↔ policy'.Lists name group) := fun name hname => by
    rw [lists_iff_levelLists hname, lists_iff_levelLists hname, h]
  rw [Bool.eq_iff_iff]
  cases p with
  | read =>
    rw [authorizes_read_iff, authorizes_read_iff, hlists "read" (.inl rfl),
      hlists "write" (.inr rfl)]
  | write => rw [authorizes_write_iff, authorizes_write_iff, hlists "write" (.inr rfl)]

end Access.Policy

namespace Acl

open Gatehouse.Access

/-! ## Blocks and their shares -/

/-- The blocks of a document in order, each with the name of its group. -/
def Document.blocks (d : Document) : List (String × Block) :=
  d.groups.flatMap fun g => g.blocks.map (g.name, ·)

/-- What a block adds to the grants of a policy. -/
inductive Share (policy : Policy) : String × Block → List Grant → Prop where
  /-- A block for writing, in a group that some list named `write` covers. -/
  | write {group : String} {b : Block} (hb : b.permission = .write)
      (h : policy.Lists "write" group) : Share policy (group, b) (b.grants group)
  /-- A block for writing, in a group that no such list covers. -/
  | noWrite {group : String} {b : Block} (hb : b.permission = .write)
      (h : ¬policy.Lists "write" group) : Share policy (group, b) []
  /-- A block for reading, in a group that some list named `read` or `write` covers. -/
  | read {group : String} {b : Block} (hb : b.permission = .read)
      (h : policy.Lists "read" group ∨ policy.Lists "write" group) :
      Share policy (group, b) (b.grants group)
  /-- A block for reading, in a group that no such list covers. -/
  | noRead {group : String} {b : Block} (hb : b.permission = .read)
      (h : ¬(policy.Lists "read" group ∨ policy.Lists "write" group)) : Share policy (group, b) []

/-- The grants of a block, if it is allowed. -/
def shareOf (allowed : Permission → String → Bool) (e : String × Block) : List Grant :=
  if allowed e.2.permission e.1 then e.2.grants e.1 else []

/-- The grants of a document are the shares of its blocks, one after the other. -/
theorem expand_eq_flatMap_shareOf (d : Document) (allowed : Permission → String → Bool) :
    expand d allowed = d.blocks.flatMap (shareOf allowed) := by
  rw [Document.blocks, List.flatMap_assoc]
  simp only [List.flatMap_map]
  rfl

variable {policy : Policy} {group : String} {b : Block}

theorem share_shareOf (policy : Policy) (e : String × Block) :
    Share policy e (shareOf (Authorization.limited policy).allows e) := by
  obtain ⟨group, b⟩ := e
  have hallows : shareOf (Authorization.limited policy).allows (group, b) =
      if policy.authorizes b.permission group then b.grants group else [] := rfl
  rw [hallows]
  cases hb : b.permission with
  | read =>
    by_cases h : policy.authorizes .read group = true
    · rw [if_pos h]
      exact .read hb (Policy.authorizes_read_iff.1 h)
    · rw [if_neg h]
      exact .noRead hb (mt Policy.authorizes_read_iff.2 h)
  | write =>
    by_cases h : policy.authorizes .write group = true
    · rw [if_pos h]
      exact .write hb (Policy.authorizes_write_iff.1 h)
    · rw [if_neg h]
      exact .noWrite hb (mt Policy.authorizes_write_iff.2 h)

/-- A block for writing adds something only if a list named `write` covers its group. -/
theorem Share.lists_of_mem {gs : List Grant} (h : Share policy (group, b) gs)
    (hb : b.permission = .write) {gr : Grant} (hgr : gr ∈ gs) : policy.Lists "write" group := by
  cases h with
  | write _ hlists => exact hlists
  | noWrite => exact absurd hgr List.not_mem_nil
  | read hread => exact absurd (hb.symm.trans hread) (by simp)
  | noRead hread => exact absurd (hb.symm.trans hread) (by simp)

/-- A block for reading adds all its grants if a list named `write` covers its group. -/
theorem Share.eq_of_lists {gs : List Grant} (h : Share policy (group, b) gs)
    (hb : b.permission = .read) (hlists : policy.Lists "write" group) : gs = b.grants group := by
  cases h with
  | write => rfl
  | noWrite hwrite => exact absurd (hb.symm.trans hwrite) (by simp)
  | read => rfl
  | noRead _ hnot => exact absurd (.inr hlists) hnot

/-- A block for writing adds nothing if no list named `write` covers its group. -/
theorem Share.eq_nil_of_not_lists {gs : List Grant} (h : Share policy (group, b) gs)
    (hb : b.permission = .write) (hlists : ¬policy.Lists "write" group) : gs = [] :=
  List.eq_nil_iff_forall_not_mem.2 fun _ hgr => hlists (h.lists_of_mem hb hgr)

/-- **Writing includes reading, also in the grants.**  The grants of a policy are the shares of the
blocks of a document, block by block: a block for writing gives all its grants if some list named
`write` covers its group, one for reading if some list named `read` or `write` does, and otherwise
they give none.  So where a block for writing gives any grant, the block of its group for reading
gives all of them; where no list named `write` covers the group, the block for writing gives none;
and lists with other names change nothing. -/
theorem expand_levels (d : Document) (policy : Policy) :
    (∃ shares : List ((String × Block) × List Grant),
      shares.map Prod.fst = d.blocks ∧
        expand d (Authorization.limited policy).allows = shares.flatMap Prod.snd ∧
        (∀ e ∈ shares, Share policy e.1 e.2) ∧
        (∀ (group : String) (w r : Block) (ws rs : List Grant),
          ((group, w), ws) ∈ shares → w.permission = .write →
            ((group, r), rs) ∈ shares → r.permission = .read →
              ws ≠ [] → rs = r.grants group) ∧
        ∀ (group : String) (w : Block) (ws : List Grant),
          ((group, w), ws) ∈ shares → w.permission = .write →
            ¬policy.Lists "write" group → ws = []) ∧
      ∀ policy' : Policy, policy.levelLists = policy'.levelLists →
        expand d (Authorization.limited policy).allows =
          expand d (Authorization.limited policy').allows := by
  constructor
  · have hshare : ∀ e ∈ d.blocks.map fun e =>
        (e, shareOf (Authorization.limited policy).allows e), Share policy e.1 e.2 := by
      intro e he
      obtain ⟨e, -, rfl⟩ := List.mem_map.1 he
      exact share_shareOf policy e
    refine ⟨_, ?_, ?_, hshare, ?_, ?_⟩
    · rw [List.map_map]
      exact List.map_id _
    · rw [expand_eq_flatMap_shareOf, List.flatMap_map]
    · intro group w r ws rs hws hw hrs hr hne
      obtain ⟨gr, hgr⟩ := List.exists_mem_of_ne_nil ws hne
      exact (hshare _ hrs).eq_of_lists hr ((hshare _ hws).lists_of_mem hw hgr)
    · intro group w ws hws hw hnot
      exact (hshare _ hws).eq_nil_of_not_lists hw hnot
  · intro policy' h
    have hallows : (Authorization.limited policy).allows = (Authorization.limited policy').allows :=
      funext fun p => funext fun group => Policy.authorizes_congr h p group
    rw [hallows]

/-! A policy with lists of several names, one of them with a pattern that is malformed. -/

/-- Three groups with a block for writing and one for reading. -/
def threeGroups : Document :=
  ⟨["status", "network", "admin"].map fun group =>
    ⟨group, none, [⟨.write, [.flat "uci" [group]]⟩, ⟨.read, [.flat "luci-io" [group]]⟩]⟩⟩

/-- The user may read `status` and write `network`; lists with other names say nothing. -/
def mixedPolicy : Policy :=
  ⟨"ops", "alice", [⟨"write", [⟨"[a"⟩]⟩, ⟨"Write", [⟨"*"⟩]⟩, ⟨"read", [⟨"stat*"⟩]⟩,
    ⟨"write", [⟨"net*"⟩]⟩, ⟨"admin", [⟨"admin"⟩]⟩]⟩

theorem expand_levels_mixed :
    expand threeGroups (Authorization.limited mixedPolicy).allows =
        [⟨"luci-io", [("status", "read")]⟩, ⟨"luci-ui", [("status", "read")]⟩,
          ⟨"uci", [("network", "write")]⟩, ⟨"luci-ui", [("network", "write")]⟩,
          ⟨"luci-io", [("network", "read")]⟩, ⟨"luci-ui", [("network", "read")]⟩] ∧
      expand threeGroups (Authorization.limited mixedPolicy).allows =
        expand threeGroups
          (Authorization.limited { mixedPolicy with lists := mixedPolicy.levelLists }).allows := by
  obtain ⟨-, hother⟩ := expand_levels threeGroups mixedPolicy
  exact ⟨by cbv, hother _ (by decide)⟩

end Acl

end Gatehouse
