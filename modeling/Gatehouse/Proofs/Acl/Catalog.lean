import Gatehouse.Proofs.Acl.Blocks
import Gatehouse.Proofs.Acl.Documents
import Gatehouse.Proofs.Login.Access

/-!
# What the catalog of a library says

The catalog is gathered group by group, from all documents and in their order.

* `Declaration` — a group as one document declares it; `declarations` are those of some values, one
  after the other, and `groups_eq_declarations` reads them as the groups of the documents.
* `Gathers` — what a table of gathered groups says of the groups seen so far: an invariant that one
  more group keeps (`Gathers.alter`), and so any number of them (`Gathers.foldl`).
* `description_foldl_add`, `mem_permissions_foldl_add` — what is gathered about one group.
* `mem_catalog_iff` — the groups and levels of a catalog.

`Library.catalog_merges` puts this together: one summary for each group that is declared, in the
order of the first declarations, with the first description that is not empty and the levels that
some declaration has.
-/

namespace Gatehouse.Acl

open Gatehouse.Access Gatehouse.Files

/-! ## Declarations -/

/-- A group as a document declares it: its name and the members of its object. -/
structure Declaration where
  /-- The name of the group. -/
  group : String
  /-- The members. -/
  members : List (String × Json)

namespace Declaration

/-- The declaration that an entry of a document is, if its value is an object. -/
def ofEntry? : String × Json → Option Declaration
  | (name, .object members) => some ⟨name, members⟩
  | _ => none

/-- The description, if it is a string that is not empty. -/
def description? (d : Declaration) : Option String :=
  match (Json.object d.members).member? "description" with
  | some (.string s) => if s = "" then none else some s
  | _ => none

/-- The declaration has an object under the name of the level. -/
def Has (d : Declaration) (p : Permission) : Prop :=
  ∃ scopes, (p.name, .object scopes) ∈ d.members

/-- The group that is declared. -/
def toGroup (d : Declaration) : Group :=
  ⟨d.group, (Keyed.get? "description" d.members).bind Json.string?,
    d.members.filterMap Block.ofEntry?⟩

theorem ofEntry?_eq_some_iff {e : String × Json} {d : Declaration} :
    ofEntry? e = some d ↔ e = (d.group, .object d.members) := by
  obtain ⟨name, value⟩ := e
  obtain ⟨group, members⟩ := d
  unfold ofEntry?
  cases value <;> simp

/-- The description that the catalog takes into account. -/
theorem filter_description_toGroup (d : Declaration) :
    d.toGroup.description.filter (· != "") = d.description? := by
  have hmember : (Json.object d.members).member? "description" =
      Keyed.get? "description" d.members := rfl
  unfold description? toGroup
  rw [hmember]
  cases Keyed.get? "description" d.members with
  | none => rfl
  | some v =>
    cases v with
    | string s =>
      by_cases hs : s = ""
      · simp [Json.string?, hs]
      · simp [Json.string?, hs, Option.filter]
    | _ => rfl

/-- The levels of the blocks are those that the declaration has. -/
theorem exists_block_iff {d : Declaration} {p : Permission} :
    (∃ b ∈ d.toGroup.blocks, b.permission = p) ↔ d.Has p := by
  constructor
  · rintro ⟨b, hb, rfl⟩
    obtain ⟨⟨name, value⟩, hmem, hblock⟩ := List.mem_filterMap.1 hb
    cases value <;> simp only [Block.ofEntry?, reduceCtorEq] at hblock
    obtain ⟨q, hq, rfl⟩ := Option.map_eq_some_iff.1 hblock
    rw [Permission.name_of_ofName? hq] at hmem
    exact ⟨_, hmem⟩
  · rintro ⟨scopes, hmem⟩
    have hblock : Block.ofEntry? (p.name, .object scopes) = some (.ofScopes p scopes) := by
      simp [Block.ofEntry?, Block.ofScopes]
    exact ⟨_, List.mem_filterMap.2 ⟨_, hmem, hblock⟩, rfl⟩

end Declaration

/-- The declarations of documents with these values, one after the other. -/
def declarations (values : List Json) : List Declaration :=
  values.flatMap fun v => (v.object?.getD []).filterMap Declaration.ofEntry?

theorem mem_declarations_iff {values : List Json} {d : Declaration} :
    d ∈ declarations values ↔
      ∃ entries, .object entries ∈ values ∧ (d.group, .object d.members) ∈ entries := by
  simp only [declarations, List.mem_flatMap, List.mem_filterMap, Declaration.ofEntry?_eq_some_iff]
  constructor
  · rintro ⟨v, hv, e, he, rfl⟩
    cases v with
    | object entries => exact ⟨entries, hv, he⟩
    | _ => exact absurd he List.not_mem_nil
  · rintro ⟨entries, hv, he⟩
    exact ⟨_, hv, _, he, rfl⟩

/-- An entry of a document is read as the group that it declares. -/
theorem Group.ofEntry?_eq_map (e : String × Json) :
    Group.ofEntry? e = (Declaration.ofEntry? e).map Declaration.toGroup := by
  obtain ⟨name, value⟩ := e
  cases value <;> rfl

/-- The groups of documents are those that their values declare, in the same order. -/
theorem groups_eq_declarations (values : List Json) :
    (values.filterMap Document.ofJson?).flatMap (·.groups) =
      (declarations values).map Declaration.toGroup := by
  induction values with
  | nil => rfl
  | cons v values ih =>
    rw [declarations, List.flatMap_cons, List.map_append, List.map_filterMap, ← declarations, ← ih]
    simp only [← Group.ofEntry?_eq_map]
    cases v <;> rfl

/-! ## What is gathered about a group -/

/-- The first description that is not empty is kept. -/
theorem description_foldl_add (gs : List Group) (old : Gathered) :
    (gs.foldl Gathered.add old).description =
      old.description.or (gs.findSome? fun g => g.description.filter (· != "")) := by
  induction gs generalizing old with
  | nil => rw [List.foldl_nil, List.findSome?_nil, Option.or_none]
  | cons g gs ih =>
    rw [List.foldl_cons, ih, Gathered.add, Option.or_assoc, List.findSome?_cons]
    cases g.description.filter (· != "") <;> rfl

/-- The levels of the blocks of a group are noted. -/
theorem mem_permissions_add {old : Gathered} {g : Group} {p : Permission} :
    p ∈ (old.add g).permissions ↔ p ∈ old.permissions ∨ ∃ b ∈ g.blocks, b.permission = p := by
  unfold Gathered.add
  dsimp only
  generalize old.permissions = ps
  induction g.blocks generalizing ps with
  | nil => simp
  | cons b bs ih =>
    rw [List.foldl_cons, ih, List.exists_mem_cons_iff, ← or_assoc]
    split
    · rename_i hmem
      exact or_congr_left ⟨Or.inl, fun h => h.elim id fun heq => heq ▸ hmem⟩
    · rw [List.mem_append, List.mem_singleton, eq_comm]

/-- The levels noted are those that some group has a block for. -/
theorem mem_permissions_foldl_add {gs : List Group} {old : Gathered} {p : Permission} :
    p ∈ (gs.foldl Gathered.add old).permissions ↔
      p ∈ old.permissions ∨ ∃ g ∈ gs, ∃ b ∈ g.blocks, b.permission = p := by
  induction gs generalizing old with
  | nil => simp
  | cons g gs ih =>
    rw [List.foldl_cons, ih, mem_permissions_add, List.exists_mem_cons_iff, or_assoc]

/-! ## The table of groups -/

/-- Notes one more group in a table of gathered groups. -/
def gather (t : List (String × Gathered)) (g : Group) : List (String × Gathered) :=
  Keyed.alter g.name (fun old => (old.getD Gathered.none).add g) t

/-- A table holds what was gathered about the groups seen so far. -/
structure Gathers (seen : List Group) (t : List (String × Gathered)) : Prop where
  /-- It has the names of these groups. -/
  mem_keys_iff : ∀ name, name ∈ t.map Prod.fst ↔ name ∈ seen.map Group.name
  /-- A name comes before another if it was seen first. -/
  ordered : (t.map Prod.fst).Pairwise fun a b =>
    (seen.map Group.name).idxOf a < (seen.map Group.name).idxOf b
  /-- Under a name stands what the groups of that name say. -/
  get?_eq : ∀ name, (Keyed.get? name t).getD Gathered.none =
    (seen.filter (·.name = name)).foldl Gathered.add Gathered.none

namespace Gathers

theorem nil : Gathers [] [] :=
  ⟨fun _ => Iff.rfl, .nil, fun _ => rfl⟩

variable {seen : List Group} {t : List (String × Gathered)}

/-- A name that was seen keeps the place where it was seen first, and a new one comes last. -/
theorem ordered_gather (h : Gathers seen t) (g : Group) :
    ((gather t g).map Prod.fst).Pairwise fun a b =>
      ((seen ++ [g]).map Group.name).idxOf a < ((seen ++ [g]).map Group.name).idxOf b := by
  have hplace : ∀ a ∈ t.map Prod.fst,
      ((seen ++ [g]).map Group.name).idxOf a = (seen.map Group.name).idxOf a := by
    intro a ha
    rw [List.map_append, List.idxOf_append_of_mem ((h.mem_keys_iff a).1 ha)]
  have hkept : (t.map Prod.fst).Pairwise fun a b =>
      ((seen ++ [g]).map Group.name).idxOf a < ((seen ++ [g]).map Group.name).idxOf b := by
    refine h.ordered.imp_of_mem fun {a b} ha hb hlt => ?_
    rwa [hplace a ha, hplace b hb]
  rw [gather, Keyed.keys_alter]
  split
  · exact hkept
  · rename_i hnew
    rw [List.pairwise_append]
    refine ⟨hkept, List.pairwise_singleton _ _, fun a ha b hb => ?_⟩
    obtain rfl := List.mem_singleton.1 hb
    have hlt := List.idxOf_lt_length_of_mem ((h.mem_keys_iff a).1 ha)
    have hlast : g.name ∉ seen.map Group.name := fun hmem => hnew ((h.mem_keys_iff _).2 hmem)
    rw [hplace a ha, List.map_append, List.idxOf_append_of_notMem hlast]
    omega

/-- One more group. -/
theorem gather (h : Gathers seen t) (g : Group) : Gathers (seen ++ [g]) (gather t g) where
  mem_keys_iff name := by
    rw [Acl.gather, Keyed.keys_alter, List.map_append, List.mem_append, ← h.mem_keys_iff]
    split
    · rename_i hmem
      rw [List.map_singleton, List.mem_singleton]
      exact ⟨Or.inl, fun h => h.elim id fun h => h ▸ hmem⟩
    · rw [List.mem_append, List.map_singleton]
  ordered := h.ordered_gather g
  get?_eq name := by
    rw [Acl.gather, Keyed.get?_alter, List.filter_append]
    by_cases hname : name = g.name
    · have hfilter : [g].filter (·.name = name) = [g] := by simp [hname]
      rw [if_pos hname, Option.getD_some, ← hname, h.get?_eq, hfilter, List.foldl_append]
      rfl
    · have hfilter : [g].filter (·.name = name) = [] := by simp [Ne.symm hname]
      rw [if_neg hname, h.get?_eq, hfilter, List.append_nil]

/-- Any number of groups. -/
theorem foldl (h : Gathers seen t) (gs : List Group) :
    Gathers (seen ++ gs) (gs.foldl Acl.gather t) := by
  induction gs generalizing seen t with
  | nil => rwa [List.append_nil]
  | cons g gs ih =>
    have hnext := ih (h.gather g)
    rwa [List.append_assoc, List.singleton_append] at hnext

theorem nodup_keys (h : Gathers seen t) : (t.map Prod.fst).Nodup := by
  refine h.ordered.imp fun {a b} hlt heq => ?_
  rw [heq] at hlt
  exact Nat.lt_irrefl _ hlt

/-- What stands in an entry of the table. -/
theorem eq_of_mem (h : Gathers seen t) {e : String × Gathered} (he : e ∈ t) :
    e.2 = (seen.filter (·.name = e.1)).foldl Gathered.add Gathered.none := by
  rw [← h.get?_eq, (Keyed.get?_eq_some_iff h.nodup_keys).2 he, Option.getD_some]

end Gathers

/-! ## Summaries -/

/-- What a summary says about its group, given all declarations. -/
structure Summarizes (ds : List Declaration) (s : Summary) : Prop where
  /-- The description is the first one that is a string and not empty. -/
  description : s.description = (ds.filter (·.group = s.name)).findSome? Declaration.description?
  /-- The levels are those that some declaration of the group has. -/
  mem_permissions : ∀ p, p ∈ s.permissions ↔ ∃ d ∈ ds, d.group = s.name ∧ d.Has p
  /-- The levels stand in order, each once. -/
  sublist : s.permissions.Sublist [.read, .write]

theorem filter_map_toGroup (ds : List Declaration) (name : String) :
    (ds.map Declaration.toGroup).filter (·.name = name) =
      (ds.filter (·.group = name)).map Declaration.toGroup :=
  List.filter_map

/-- An entry of the table is summed up as the declarations have it. -/
theorem summarizes_summary {ds : List Declaration} {t : List (String × Gathered)}
    (h : Gathers (ds.map Declaration.toGroup) t) {e : String × Gathered} (he : e ∈ t) :
    Summarizes ds (e.2.summary e.1) := by
  have hgathered := h.eq_of_mem he
  rw [filter_map_toGroup] at hgathered
  refine ⟨?_, fun p => ?_, List.filter_sublist⟩
  · have hdescription : (e.2.summary e.1).description = e.2.description := rfl
    rw [hdescription, hgathered, description_foldl_add, List.findSome?_map]
    simp only [Gathered.none, Option.none_or, Function.comp_def,
      Declaration.filter_description_toGroup]
    rfl
  · have hall : p ∈ Permission.all := by cases p <;> decide
    have hsummary : p ∈ (e.2.summary e.1).permissions ↔ p ∈ e.2.permissions := by
      simp [Gathered.summary, hall]
    have hname : (e.2.summary e.1).name = e.1 := rfl
    rw [hsummary, hname, hgathered, mem_permissions_foldl_add]
    constructor
    · rintro (hnone | ⟨g, hg, hb⟩)
      · exact absurd hnone List.not_mem_nil
      · obtain ⟨d, hd, rfl⟩ := List.mem_map.1 hg
        obtain ⟨hd, hgroup⟩ := List.mem_filter.1 hd
        exact ⟨d, hd, of_decide_eq_true hgroup, Declaration.exists_block_iff.1 hb⟩
    · rintro ⟨d, hd, hgroup, hhas⟩
      have hd : d ∈ ds.filter (·.group = e.1) := List.mem_filter.2 ⟨hd, decide_eq_true hgroup⟩
      exact .inr ⟨_, List.mem_map_of_mem hd, Declaration.exists_block_iff.2 hhas⟩

/-- The catalog of documents is a table of their groups, summed up entry by entry. -/
theorem exists_gathers (values : List Json) :
    ∃ t, Gathers ((declarations values).map Declaration.toGroup) t ∧
      catalog (values.filterMap Document.ofJson?) = t.map fun e => e.2.summary e.1 := by
  refine ⟨((declarations values).map Declaration.toGroup).foldl gather [], ?_, ?_⟩
  · exact Gathers.nil.foldl _
  · rw [← groups_eq_declarations]
    rfl

namespace Library

variable {l : Library} {tree : Tree} {paths : List String}

/-- A library whose folder can be searched has a catalog. -/
theorem catalog_of_paths (h : l.paths tree = .ok paths) :
    l.catalog tree = .ok (Acl.catalog ((l.values tree).filterMap Document.ofJson?)) := by
  have hload : ∃ files, l.load tree = .ok files := by
    rw [Library.load, h]
    exact ⟨_, rfl⟩
  obtain ⟨files, hload⟩ := hload
  rw [Library.catalog, hload]
  exact congrArg (fun ds => Except.ok (Acl.catalog ds)) (loadable_eq_values hload)

theorem exists_paths_of_catalog {summaries : List Summary} (h : l.catalog tree = .ok summaries) :
    ∃ paths, l.paths tree = .ok paths := by
  unfold Library.catalog Library.load at h
  cases hpaths : l.paths tree with
  | ok paths => exact ⟨paths, rfl⟩
  | error e => rw [hpaths] at h; exact absurd h (by simp)

/-- The groups and levels of a catalog are those that some document has a block for. -/
theorem mem_catalog_iff {summaries : List Summary} (h : l.catalog tree = .ok summaries)
    {group : String} {p : Permission} :
    (∃ s ∈ summaries, s.name = group ∧ p ∈ s.permissions) ↔
      ∃ v ∈ l.values tree, ∃ scopes, v.block? group p = some (.object scopes) := by
  have hdeclared : (∃ s ∈ summaries, s.name = group ∧ p ∈ s.permissions) ↔
      ∃ d ∈ declarations (l.values tree), d.group = group ∧ d.Has p := by
    obtain ⟨paths, hpaths⟩ := exists_paths_of_catalog h
    obtain ⟨t, ht, hcatalog⟩ := exists_gathers (l.values tree)
    obtain rfl := Except.ok.inj (h.symm.trans (catalog_of_paths hpaths))
    rw [hcatalog]
    constructor
    · rintro ⟨_, hs, rfl, hp⟩
      obtain ⟨e, he, rfl⟩ := List.mem_map.1 hs
      exact ((summarizes_summary ht he).mem_permissions p).1 hp
    · rintro ⟨d, hd, rfl, hhas⟩
      have hkey : d.group ∈ t.map Prod.fst :=
        (ht.mem_keys_iff _).2 (List.mem_map_of_mem (List.mem_map_of_mem hd))
      obtain ⟨e, he, hname⟩ := List.mem_map.1 hkey
      exact ⟨_, List.mem_map_of_mem he, hname,
        ((summarizes_summary ht he).mem_permissions p).2 ⟨d, hd, hname.symm, hhas⟩⟩
  rw [hdeclared]
  constructor
  · rintro ⟨d, hd, rfl, scopes, hmem⟩
    obtain ⟨entries, hentries, hgroup⟩ := mem_declarations_iff.1 hd
    exact ⟨_, hentries, scopes,
      (block?_eq_some_iff (distinct_of_mem_values hentries)).2 ⟨_, hgroup, hmem⟩⟩
  · rintro ⟨v, hv, scopes, hblock⟩
    obtain ⟨w, hw, -⟩ := Option.bind_eq_some_iff.1 hblock
    obtain ⟨entries, rfl⟩ := Json.exists_object_of_member? hw
    obtain ⟨members, hgroup, hmem⟩ := (block?_eq_some_iff (distinct_of_mem_values hv)).1 hblock
    exact ⟨⟨group, members⟩, mem_declarations_iff.2 ⟨entries, hv, hgroup⟩, rfl, scopes, hmem⟩

/-- **The catalog merges the documents of a library.**  A library whose folder can be searched has
a catalog.  In it every group that some document declares has exactly one summary, in the order of
the first declarations; its description is the first one among all declarations of the group that is
a string and not empty, and its levels are those that some declaration has an object for, reading
before writing and neither twice. -/
theorem catalog_merges (l : Library) (tree : Tree) (paths : List String)
    (h : l.paths tree = .ok paths) :
    let ds := declarations (l.values tree)
    ∃ summaries, l.catalog tree = .ok summaries ∧
      (summaries.map Summary.name).Nodup ∧
      (∀ name, name ∈ summaries.map Summary.name ↔ ∃ d ∈ ds, d.group = name) ∧
      summaries.Pairwise (fun s s' => (ds.map Declaration.group).idxOf s.name <
        (ds.map Declaration.group).idxOf s'.name) ∧
      ∀ s ∈ summaries, Summarizes ds s := by
  intro ds
  obtain ⟨t, ht, hcatalog⟩ := exists_gathers (l.values tree)
  have hnames : (t.map fun e => e.2.summary e.1).map Summary.name = t.map Prod.fst := by
    rw [List.map_map]
    rfl
  have hgroups : (ds.map Declaration.toGroup).map Group.name = ds.map Declaration.group := by
    rw [List.map_map]
    rfl
  refine ⟨_, catalog_of_paths h, ?_, fun name => ?_, ?_, fun s hs => ?_⟩
  · rw [hcatalog, hnames]
    exact ht.nodup_keys
  · rw [hcatalog, hnames, ht.mem_keys_iff, hgroups, List.mem_map]
  · rw [hcatalog]
    refine List.Pairwise.of_map Summary.name ?_ (hnames ▸ hgroups ▸ ht.ordered)
    exact fun _ _ hlt => hlt
  · rw [hcatalog] at hs
    obtain ⟨e, he, rfl⟩ := List.mem_map.1 hs
    exact summarizes_summary ht he

/-! A library with two documents and a broken file between them.  One group has an empty
description first, and is opened to writing before it is opened to reading; the description of the
other group is no string. -/

/-- The text of the first document. -/
def firstText : String :=
  "\x7b\"net\":\x7b\"description\":\"\",\"write\":\x7b\x7d\x7d," ++
    "\"sys\":\x7b\"read\":\x7b\x7d\x7d\x7d"

/-- The text of the second document. -/
def secondText : String :=
  "\x7b\"sys\":\x7b\"description\":true\x7d,\"all\":[]," ++
    "\"net\":\x7b\"description\":\"N\",\"read\":\x7b\"uci\":[]\x7d\x7d\x7d"

/-- The folder. -/
def mergedTree : Tree :=
  ((Tree.empty.write "acl/a.json" (.file firstText.toUTF8.toList)).write "acl/b.json"
    (.file "nope".toUTF8.toList)).write "acl/c.json" (.file secondText.toUTF8.toList)

theorem paths_mergedTree : sampleSettings.library.paths mergedTree =
    .ok ["acl/a.json", "acl/b.json", "acl/c.json"] :=
  Library.paths_of_found parse_samplePattern rfl (by decide) (by decide)

/-- The value of the first document. -/
def firstEntries : List (String × Json) :=
  [("net", .object [("description", .string ""), ("write", .object [])]),
    ("sys", .object [("read", .object [])])]

/-- The value of the second document. -/
def secondEntries : List (String × Json) :=
  [("sys", .object [("description", .bool true)]), ("all", .array []),
    ("net", .object [("description", .string "N"), ("read", .object [("uci", .array [])])])]

theorem value?_first : Document.value? mergedTree "acl/a.json" = some (.object firstEntries) := by
  have htext : mergedTree.readText "acl/a.json" = .ok firstText := Tree.readText_of_find? rfl
  unfold Document.value?
  rw [htext]
  cbv

theorem value?_broken : Document.value? mergedTree "acl/b.json" = none := by
  have htext : mergedTree.readText "acl/b.json" = .ok "nope" := Tree.readText_of_find? rfl
  unfold Document.value?
  rw [htext]
  cbv

theorem value?_second :
    Document.value? mergedTree "acl/c.json" = some (.object secondEntries) := by
  have htext : mergedTree.readText "acl/c.json" = .ok secondText := Tree.readText_of_find? rfl
  unfold Document.value?
  rw [htext]
  cbv

theorem values_mergedTree : sampleSettings.library.values mergedTree =
    [.object firstEntries, .object secondEntries] := by
  rw [Library.values, paths_mergedTree]
  simp only [value?_first, value?_broken, value?_second, List.filterMap_cons, List.filterMap_nil]
  rfl

/-- The catalog of the library. -/
def mergedCatalog : List Summary :=
  [⟨"net", some "N", [.read, .write]⟩, ⟨"sys", none, [.read]⟩]

theorem catalog_mergedTree : sampleSettings.library.catalog mergedTree = .ok mergedCatalog := by
  rw [catalog_of_paths paths_mergedTree, values_mergedTree]
  rfl

theorem catalog_merges_mergedTree :
    sampleSettings.library.paths mergedTree = .ok ["acl/a.json", "acl/b.json", "acl/c.json"] ∧
      ∀ s ∈ mergedCatalog,
        Summarizes (declarations [.object firstEntries, .object secondEntries]) s := by
  obtain ⟨summaries, hcatalog, -, -, -, hsummaries⟩ :=
    catalog_merges sampleSettings.library mergedTree _ paths_mergedTree
  obtain rfl := Except.ok.inj (hcatalog.symm.trans catalog_mergedTree)
  rw [values_mergedTree] at hsummaries
  exact ⟨paths_mergedTree, hsummaries⟩

end Library

end Gatehouse.Acl
