import Gatehouse.Proofs.Acl.Segments

/-!
# Noise in a document

A document may have much in it that grants nothing.  Here it is deleted, as much of it and at as
many places as one likes, and the grants stay what they are.

* `Part` — what part of a document a value is, which decides what is noise among its members
  (`Noise`).
* `Thins` — one value becomes another by deleting noise, as the closure of single deletions.
* `Part.given` — what the members of a part give: grants, or the pairs of one grant.
* `Part.Alike` — two values that give the same.  Each deletion leaves a value alike
  (`Thins.alike`), because what a member gives depends only on what its value gives
  (`Part.gives_congr`), and noise gives nothing (`Part.gives_of_noise`).

`expand_thinned` says this of whole documents.  A scope that is recognized stays even if all in it
is deleted, since it still makes a grant.
-/

namespace Gatehouse.Acl

open Gatehouse.Access

/-! ## Noise -/

/-- What part of a document a value is. -/
inductive Part where
  /-- The document. -/
  | document
  /-- A group of the document. -/
  | group
  /-- A block of a group. -/
  | block
  /-- The remote objects of a block. -/
  | objects
  /-- Anything else, as a list of names. -/
  | other
  deriving DecidableEq, Repr

/-- What part the value of a member is. -/
def Part.member : Part → String → Part
  | .document, _ => .group
  | .group, name => if name = "read" ∨ name = "write" then .block else .other
  | .block, name => if name = "ubus" then .objects else .other
  | .objects, _ => .other
  | .other, _ => .other

/-- Whether a member of a part is noise. -/
def Noise : Part → String × Json → Prop
  | .document, e => e.2.object? = none
  | .group, e => (e.1 ≠ "read" ∧ e.1 ≠ "write") ∨ e.2.object? = none
  | .block, e => recognizes e = false
  | .objects, e => e.2.array? = none
  | .other, _ => False

/-- A value becomes another one by deleting noise in it. -/
inductive Thins : Part → Json → Json → Prop where
  /-- Nothing is deleted. -/
  | refl (part : Part) (v : Json) : Thins part v v
  /-- Deletions are made one after the other. -/
  | trans {part : Part} {u v w : Json} (h : Thins part u v) (h' : Thins part v w) :
      Thins part u w
  /-- A member is deleted. -/
  | member {part : Part} (es fs : List (String × Json)) {e : String × Json} (h : Noise part e) :
      Thins part (.object (es ++ e :: fs)) (.object (es ++ fs))
  /-- An item that is no string is deleted. -/
  | item {part : Part} (vs ws : List Json) {v : Json} (h : v.string? = none) :
      Thins part (.array (vs ++ v :: ws)) (.array (vs ++ ws))
  /-- Something is deleted inside a member. -/
  | inMember {part inner : Part} (es fs : List (String × Json)) {name : String} {v w : Json}
      (hinner : part.member name = inner) (h : Thins inner v w) :
      Thins part (.object (es ++ (name, v) :: fs)) (.object (es ++ (name, w) :: fs))
  /-- Something is deleted inside an item. -/
  | inItem {part : Part} (vs ws : List Json) {v w : Json} (h : Thins .other v w) :
      Thins part (.array (vs ++ v :: ws)) (.array (vs ++ w :: ws))

/-! ## What the members of a part give -/

/-- What a part is made of: remote objects are pairs, and all else is grants. -/
abbrev Part.Output : Part → Type
  | .objects => String × String
  | _ => Grant

section Giving

variable (allowed : Permission → String → Bool) (group : String) (level : Permission)

/-- The grants of a block whose scopes have these grants. -/
def withView (gs : List Grant) : List Grant :=
  if gs.isEmpty then [] else gs ++ [Grant.view group level]

/-- What a member of a part gives, in a block of this group at this level. -/
def Part.gives : (part : Part) → String × Json → List part.Output
  | .document, e => (Group.ofEntry? e).toList.flatMap (·.grants allowed)
  | .group, e => (Block.ofEntry? e).toList.flatMap fun b =>
      if allowed b.permission group then b.grants group else []
  | .block, e => ((ScopeEntry.classify e.1 e.2).grant? level).toList
  | .objects, e => (methods? e).toList.flatMap fun (o, ms) => ms.map (o, ·)
  | .other, _ => []

/-- What the members of a part give, one after the other. -/
def Part.given (part : Part) (es : List (String × Json)) : List part.Output :=
  es.flatMap (part.gives allowed group level)

theorem flatMap_filterMap {α β γ : Type} (f : α → Option β) (g : β → List γ) (l : List α) :
    (l.filterMap f).flatMap g = l.flatMap fun a => (f a).toList.flatMap g := by
  rw [List.filterMap_eq_flatMap_toList, List.flatMap_assoc]

theorem Part.given_document (es : List (String × Json)) :
    Part.document.given allowed group level es = expand (.ofEntries es) allowed :=
  (flatMap_filterMap Group.ofEntry? (·.grants allowed) es).symm

theorem Part.given_block (es : List (String × Json)) :
    Part.block.given allowed group level es = (Block.ofScopes level es).scopeGrants := by
  unfold Block.scopeGrants Block.ofScopes
  rw [List.filterMap_map, List.filterMap_eq_flatMap_toList]
  rfl

theorem Part.given_objects (es : List (String × Json)) :
    Part.objects.given allowed group level es = methodPairs es :=
  (flatMap_filterMap methods? (fun (o, ms) => ms.map (o, ·)) es).symm

/-! A member gives what its value gives. -/

theorem Part.gives_document (name : String) (v : Json) :
    Part.document.gives allowed group level (name, v) =
      (v.object?.map (Part.group.given allowed name level)).getD [] := by
  cases v with
  | object es =>
    have hgroup := flatMap_filterMap Block.ofEntry?
      (fun b => if allowed b.permission name then b.grants name else []) es
    exact (List.append_nil _).trans hgroup
  | _ => rfl

theorem Part.gives_group (name : String) (v : Json) :
    Part.group.gives allowed group level (name, v) =
      ((Permission.ofName? name).bind fun p =>
        (v.object?.map (Part.block.given allowed group p)).map fun gs =>
          if allowed p group then withView group p gs else []).getD [] := by
  cases v with
  | object es =>
    cases hp : Permission.ofName? name with
    | none => simp [Part.gives, Block.ofEntry?, hp]
    | some p =>
      simp only [Option.bind_some, Json.object?, Option.map_some, Option.getD_some,
        Part.given_block]
      simp [Part.gives, Block.ofEntry?, hp, withView, Block.grants, Block.ofScopes]
  | _ => cases Permission.ofName? name <;> rfl

theorem Part.gives_block (name : String) (v : Json) :
    Part.block.gives allowed group level (name, v) =
      (if name = objectScope then
        (v.object?.map (Part.objects.given allowed group level)).map fun pairs =>
          Grant.mk objectScope pairs
      else if name = configScope ∨ name = fileScope then
        (v.array?.map strings).map fun names => Grant.mk name (names.map (·, level.name))
      else none).toList := by
  have hne : ¬(objectScope = configScope ∨ objectScope = fileScope) := by decide
  unfold Part.gives
  by_cases hobjects : name = objectScope
  · subst hobjects
    rw [if_pos rfl]
    cases v with
    | object es =>
      simp [ScopeEntry.classify, ScopeEntry.grant?, Json.object?, Part.given_objects, methodPairs]
    | array items => simp [ScopeEntry.classify, ScopeEntry.grant?, hne, Json.object?]
    | _ => rfl
  · rw [if_neg hobjects]
    by_cases hflat : name = configScope ∨ name = fileScope
    · rw [if_pos hflat]
      cases v with
      | object es => simp [ScopeEntry.classify, ScopeEntry.grant?, hobjects, Json.array?]
      | array items => simp [ScopeEntry.classify, ScopeEntry.grant?, hflat, Json.array?]
      | _ => rfl
    · rw [if_neg hflat]
      cases v <;> simp [ScopeEntry.classify, ScopeEntry.grant?, hobjects, hflat]

theorem Part.gives_objects (name : String) (v : Json) :
    Part.objects.gives allowed group level (name, v) =
      ((v.array?.map strings).map fun ms => ms.map (name, ·)).getD [] := by
  cases v <;> simp [Part.gives, methods?, Json.array?]

/-! ## What noise gives -/

/-- Noise gives nothing. -/
theorem Part.gives_of_noise {part : Part} {e : String × Json} (h : Noise part e) :
    part.gives allowed group level e = [] := by
  obtain ⟨name, v⟩ := e
  cases part with
  | document =>
    have hv : v.object? = none := h
    rw [Part.gives_document, hv]
    rfl
  | group =>
    rw [Part.gives_group]
    rcases h with ⟨hread, hwrite⟩ | hv
    · have hname : Permission.ofName? name = none := by
        simp only [Permission.ofName?]
        rw [if_neg hread, if_neg hwrite]
      rw [hname]
      rfl
    · have hv : v.object? = none := hv
      rw [hv]
      cases Permission.ofName? name <;> rfl
  | block =>
    have hnone : (ScopeEntry.classify name v).grant? level = none := by
      rw [← Option.not_isSome_iff_eq_none, ← recognizes_eq_isSome level (name, v)]
      exact Bool.eq_false_iff.1 h
    exact congrArg Option.toList hnone
  | objects =>
    have hv : v.array? = none := h
    rw [Part.gives_objects, hv]
    rfl
  | other => exact absurd h id

end Giving

/-! ## Values that give the same -/

/-- Two values of a part that give the same: they are the same string or none, have the same strings
among their items, and their members give the same. -/
structure Part.Alike (part : Part) (v w : Json) : Prop where
  /-- The values are the same string, or no strings. -/
  string : v.string? = w.string?
  /-- The values have the same strings as items, or no items. -/
  array : v.array?.map strings = w.array?.map strings
  /-- The members of the values give the same, or there are none. -/
  object : ∀ allowed group level, v.object?.map (part.given allowed group level) =
    w.object?.map (part.given allowed group level)

/-- What a member gives depends only on what its value gives. -/
theorem Part.gives_congr {part : Part} {name : String} {v w : Json}
    (h : (part.member name).Alike v w) (allowed : Permission → String → Bool) (group : String)
    (level : Permission) :
    part.gives allowed group level (name, v) = part.gives allowed group level (name, w) := by
  cases part with
  | document =>
    rw [Part.gives_document, Part.gives_document]
    exact congrArg (·.getD []) (h.object allowed name level)
  | group =>
    rw [Part.gives_group, Part.gives_group]
    cases hp : Permission.ofName? name with
    | none => rfl
    | some p =>
      have hblock : Part.group.member name = .block := by
        rw [Permission.name_of_ofName? hp]
        cases p <;> rfl
      rw [hblock] at h
      rw [Option.bind_some, Option.bind_some, h.object allowed group p]
  | block =>
    rw [Part.gives_block, Part.gives_block, h.array]
    by_cases hobjects : name = objectScope
    · subst hobjects
      have hobject := h.object allowed group level
      rw [if_pos rfl, if_pos rfl]
      exact congrArg (fun a => (a.map (Grant.mk objectScope)).toList) hobject
    · rw [if_neg hobjects, if_neg hobjects]
  | objects => rw [Part.gives_objects, Part.gives_objects, h.array]
  | other => rfl

/-- Deleting noise leaves a value alike. -/
theorem Thins.alike {part : Part} {v w : Json} (h : Thins part v w) : part.Alike v w := by
  induction h with
  | refl part v => exact ⟨rfl, rfl, fun _ _ _ => rfl⟩
  | trans _ _ ih ih' =>
    exact ⟨ih.string.trans ih'.string, ih.array.trans ih'.array,
      fun allowed group level => (ih.object allowed group level).trans (ih'.object _ _ _)⟩
  | member es fs hnoise =>
    refine ⟨rfl, rfl, fun allowed group level => ?_⟩
    simp [Json.object?, Part.given, Part.gives_of_noise allowed group level hnoise]
  | item vs ws hv =>
    refine ⟨rfl, ?_, fun _ _ _ => rfl⟩
    simp [Json.array?, strings, hv]
  | inMember es fs hinner _ ih =>
    subst hinner
    refine ⟨rfl, rfl, fun allowed group level => ?_⟩
    simp [Json.object?, Part.given, Part.gives_congr ih allowed group level]
  | inItem vs ws _ ih =>
    refine ⟨rfl, ?_, fun _ _ _ => rfl⟩
    simp only [Json.array?, strings, Option.map_some, List.filterMap_append, List.filterMap_cons,
      ih.string]

/-- **Noise grants nothing.**  Whatever noise is deleted from a document, and at whatever places,
the document has the same grants as before, in the same order and with the same pairs, whatever is
allowed. -/
theorem expand_thinned {entries : List (String × Json)} {w : Json}
    (h : Thins .document (.object entries) w) :
    ∃ thinned, w = .object thinned ∧ ∀ allowed : Permission → String → Bool,
      expand (.ofEntries thinned) allowed = expand (.ofEntries entries) allowed := by
  have hgiven := h.alike.object
  cases w with
  | object thinned =>
    refine ⟨thinned, rfl, fun allowed => ?_⟩
    have hsame := Option.some.inj (hgiven allowed "" .read)
    rw [Part.given_document, Part.given_document] at hsame
    exact hsame.symm
  | _ => exact absurd (hgiven (fun _ _ => true) "" .read) (by simp [Json.object?])

/-! A document with noise of every kind. -/

/-- The members of the document. -/
def noisyEntries : List (String × Json) :=
  [("version", .number "2"),
    ("ops", .object [("description", .string "Operations"), ("write", .array [.string "uci"]),
      ("read", .object [("future", .object []),
        ("ubus", .object [("log", .string "read"),
          ("system", .array [.string "info", .number "1"])]),
        ("uci", .array [.array [.string "network"]])])])]

/-- The members that are left without the noise.  The scope `uci` is empty now. -/
def quietEntries : List (String × Json) :=
  [("ops", .object [("read", .object [("ubus", .object [("system", .array [.string "info"])]),
    ("uci", .array [])])])]

theorem expand_thinned_quiet :
    Thins .document (.object noisyEntries) (.object quietEntries) ∧
      expand (.ofEntries noisyEntries) (fun _ _ => true) =
        [⟨"ubus", [("system", "info")]⟩, ⟨"uci", []⟩, ⟨"luci-ui", [("ops", "read")]⟩] := by
  have hsystem : Thins .other (.array [.string "info", .number "1"]) (.array [.string "info"]) :=
    .item [.string "info"] [] rfl
  have hubus : Thins .objects
      (.object [("log", .string "read"), ("system", .array [.string "info", .number "1"])])
      (.object [("system", .array [.string "info"])]) :=
    .trans (.member [] _ rfl) (.inMember [] [] rfl hsystem)
  have huci : Thins .other (.array [.array [.string "network"]]) (.array []) :=
    .item [] [] rfl
  have hread : Thins .block
      (.object [("future", .object []),
        ("ubus", .object [("log", .string "read"),
          ("system", .array [.string "info", .number "1"])]),
        ("uci", .array [.array [.string "network"]])])
      (.object [("ubus", .object [("system", .array [.string "info"])]), ("uci", .array [])]) :=
    .trans (.member [] _ rfl) (.trans (.inMember [] _ rfl hubus)
      (.inMember [("ubus", .object [("system", .array [.string "info"])])] [] rfl huci))
  have hdescription : Noise .group ("description", .string "Operations") := Or.inl (by decide)
  have hwrite : Noise .group ("write", .array [.string "uci"]) := Or.inr rfl
  have hops : Thins .group _ (.object [("read", .object [
      ("ubus", .object [("system", .array [.string "info"])]), ("uci", .array [])])]) :=
    .trans (.member [] _ hdescription) (.trans (.member [] _ hwrite) (.inMember [] [] rfl hread))
  have h : Thins .document (.object noisyEntries) (.object quietEntries) :=
    .trans (.member [] _ rfl) (.inMember [] [] rfl hops)
  obtain ⟨thinned, hthinned, hsame⟩ := expand_thinned h
  obtain rfl := Json.object.inj hthinned
  refine ⟨h, (hsame _).symm.trans ?_⟩
  decide

end Gatehouse.Acl
