import Gatehouse.Proofs.Login.Course

/-!
# The gate of a login

Who may log in, told from the files of a folder of packages, whatever those files contain.

* `Uci.FolderHolds` — a folder holds a package: there is a file of that name, it is text, and the
  text can be read to its end.
* `Access.Binds` — a section states the rights of a user; `Access.FirstBound` is the first section
  of a package that does.
* `policyIn?_eq_some_iff`, `policy_ofFolder_iff` — the policy that is found for a user is that of
  the first section bound to him.
* `Authorization.forUser_eq_limited_iff`, `Authorization.forUser_eq_unrestricted_iff` — which
  authorization follows from it.

`gate_ofFolder` puts these together: who gets as far as the broker, and with what rights.
-/

namespace Gatehouse

open Gatehouse.Access Gatehouse.Acl Gatehouse.Broker Gatehouse.Files

/-! ## Packages of a folder -/

namespace Uci

/-- The folder holds the package: its file is there, is text, and can be read to the end. -/
def FolderHolds (tree : Tree) (dir name : String) (p : Package) : Prop :=
  tree.exists? (join dir name) = true ∧
    ∃ text, tree.readText (join dir name) = .ok text ∧ Package.parse name text = .ok p

variable {tree : Tree} {dir name : String} {p : Package}

theorem Package.read_eq_ok_iff {text : String} :
    Package.read name text = .ok p ↔ Package.parse name text = .ok p := by
  unfold Package.read
  cases h : Package.parse name text with
  | ok q => simp
  | error e => simp

/-- A package is loaded from a folder exactly if the folder holds it. -/
theorem load_ofFolder_eq_ok_some_iff (hname : isPackageName name = true) :
    (Store.ofFolder tree dir).load name = .ok (some p) ↔ FolderHolds tree dir name p := by
  unfold Store.ofFolder FolderHolds
  simp only [hname, if_true]
  by_cases hthere : tree.exists? (join dir name) = true
  · cases htext : tree.readText (join dir name) with
    | error fault => simp [hthere]
    | ok text =>
      simp only [hthere, if_true, true_and]
      constructor
      · intro h
        cases hread : Package.read name text with
        | error e => rw [hread] at h; exact absurd h (by simp)
        | ok q =>
          rw [hread] at h
          obtain rfl := Option.some.inj (Except.ok.inj h)
          exact ⟨text, rfl, Package.read_eq_ok_iff.1 hread⟩
      · rintro ⟨text', heq, hparse⟩
        obtain rfl := Except.ok.inj heq
        rw [Package.read_eq_ok_iff.2 hparse]
        rfl
  · simp [hthere]

end Uci

/-! ## The section of a user -/

namespace Access

open Gatehouse.Uci

/-- The section states the rights of a user: it is one for access, and its option `user` is a
single value, the name of the user. -/
def Binds (s : Section) (user : String) : Prop :=
  s.type = "access" ∧ s.option? "user" = some (.scalar user)

/-- The first section of a package that states the rights of a user. -/
def FirstBound (p : Package) (user : String) (s : Section) : Prop :=
  ∃ before after, p.sections = before ++ s :: after ∧ Binds s user ∧ ∀ t ∈ before, ¬Binds t user

variable {p : Package} {user : String} {s : Section}

theorem boundUser?_eq_some_iff :
    boundUser? s = some user ↔ s.option? "user" = some (.scalar user) := by
  unfold boundUser?
  change (s.option? "user").bind _ = _ ↔ _
  cases s.option? "user" with
  | none => simp
  | some value => cases value <;> simp [OptionValue.scalar?]

/-- What is looked for among the sections of a package. -/
theorem binds_iff :
    Binds s user ↔ (s.type == policyType && boundUser? s == some user) = true := by
  rw [Bool.and_eq_true, beq_iff_eq, beq_iff_eq, boundUser?_eq_some_iff]
  rfl

theorem policyIn?_eq (p : Package) (user : String) :
    policyIn? p user = (p.sections.find? fun s =>
      s.type == policyType && boundUser? s == some user).map (Policy.ofSection · user) := by
  unfold policyIn? Package.ofType
  rw [List.find?_filter]
  congr 3
  funext s
  rw [Bool.eq_iff_iff]
  simp

/-- The policy of a user in a package is that of the first section that states his rights. -/
theorem policyIn?_eq_some_iff {policy : Policy} :
    policyIn? p user = some policy ↔ ∃ s, FirstBound p user s ∧ policy = .ofSection s user := by
  rw [policyIn?_eq, Option.map_eq_some_iff]
  constructor
  · rintro ⟨s, hs, rfl⟩
    obtain ⟨hbinds, before, after, hsections, hbefore⟩ := List.find?_eq_some_iff_append.1 hs
    refine ⟨s, ⟨before, after, hsections, binds_iff.2 hbinds, ?_⟩, rfl⟩
    intro t ht hbound
    have hnot := hbefore t ht
    rw [binds_iff.1 hbound] at hnot
    exact absurd hnot (by decide)
  · rintro ⟨s, ⟨before, after, hsections, hbinds, hbefore⟩, rfl⟩
    refine ⟨s, List.find?_eq_some_iff_append.2 ⟨binds_iff.1 hbinds, before, after, hsections, ?_⟩,
      rfl⟩
    intro t ht
    have hnot := hbefore t ht
    rw [binds_iff, Bool.not_eq_true] at hnot
    rw [hnot]
    rfl

/-- If some section states the rights of a user, there is a first one. -/
theorem exists_firstBound_iff :
    (∃ s, FirstBound p user s) ↔ ∃ s ∈ p.sections, Binds s user := by
  constructor
  · rintro ⟨s, before, after, hsections, hbinds, -⟩
    refine ⟨s, ?_, hbinds⟩
    rw [hsections]
    exact List.mem_append_right _ List.mem_cons_self
  · rintro ⟨s, hs, hbinds⟩
    have hsome : (p.sections.find? fun s =>
        s.type == policyType && boundUser? s == some user).isSome = true :=
      List.find?_isSome.2 ⟨s, hs, binds_iff.1 hbinds⟩
    obtain ⟨first, hfirst⟩ := Option.isSome_iff_exists.1 hsome
    have hpolicy : policyIn? p user = some (.ofSection first user) := by
      rw [policyIn?_eq, hfirst]
      rfl
    obtain ⟨t, ht, -⟩ := policyIn?_eq_some_iff.1 hpolicy
    exact ⟨t, ht⟩

/-- A folder of packages binds a user: it holds a package `luci`, and a section of that states his
rights. -/
def FolderBinds (tree : Tree) (dir user : String) : Prop :=
  ∃ p, FolderHolds tree dir "luci" p ∧ ∃ s ∈ p.sections, Binds s user

variable {tree : Tree} {dir : String}

/-- The policy that is found in a folder is that of the first section that states the rights of the
user. -/
theorem policy_ofFolder_iff {policy : Policy} :
    (findPolicy (.ofFolder tree dir) user).policy = some policy ↔
      ∃ p s, FolderHolds tree dir "luci" p ∧ FirstBound p user s ∧
        policy = .ofSection s user := by
  have hload : ∀ p, (Store.ofFolder tree dir).load policyPackage = .ok (some p) ↔
      FolderHolds tree dir "luci" p :=
    fun p => load_ofFolder_eq_ok_some_iff (by decide)
  have hfind : (findPolicy (.ofFolder tree dir) user).policy = some policy ↔
      ∃ p, (Store.ofFolder tree dir).load policyPackage = .ok (some p) ∧
        policyIn? p user = some policy := by
    unfold findPolicy
    rcases (Store.ofFolder tree dir).load policyPackage with e | _ | p <;> simp
  rw [hfind]
  simp only [hload, policyIn?_eq_some_iff]
  constructor
  · rintro ⟨p, hp, s, hs, rfl⟩
    exact ⟨p, s, hp, hs, rfl⟩
  · rintro ⟨p, s, hp, hs, rfl⟩
    exact ⟨p, hp, s, hs, rfl⟩

/-- A policy is found for exactly the users whom the folder binds. -/
theorem exists_policy_ofFolder_iff :
    (∃ policy, (findPolicy (.ofFolder tree dir) user).policy = some policy) ↔
      FolderBinds tree dir user := by
  simp only [policy_ofFolder_iff]
  constructor
  · rintro ⟨policy, p, s, hp, hs, -⟩
    exact ⟨p, hp, exists_firstBound_iff.1 ⟨s, hs⟩⟩
  · rintro ⟨p, hp, hbinds⟩
    obtain ⟨s, hs⟩ := exists_firstBound_iff.2 hbinds
    exact ⟨_, p, s, hp, hs, rfl⟩

/-! ## What follows for the user -/

namespace Authorization

variable {found : Option Policy}

/-- The rights are limited by the policy that was found. -/
theorem forUser_eq_limited_iff {policy : Policy} :
    forUser user found = some (.limited policy) ↔ found = some policy := by
  cases found with
  | some policy' => simp [forUser]
  | none => by_cases h : user = superuser <;> simp [forUser, h]

/-- Only the superuser is not limited, and only if no policy was found for him. -/
theorem forUser_eq_unrestricted_iff :
    forUser user found = some .unrestricted ↔ user = superuser ∧ found = none := by
  cases found with
  | some policy' => simp [forUser]
  | none => by_cases h : user = superuser <;> simp [forUser, h]

theorem forUser_isSome_iff :
    (forUser user found).isSome = true ↔ user = superuser ∨ ∃ policy, found = some policy := by
  cases found with
  | some policy' => simp [forUser]
  | none => by_cases h : user = superuser <;> simp [forUser, h]

end Authorization

end Access

/-- **The gate.**  A login with the packages of a folder gets as far as the broker exactly if the
user is `root` or the folder binds him, and is denied else, without a single request.  The rights
are those of the first section of the package `luci` that is bound to the user exactly if the folder
binds him; they are unlimited exactly for a `root` whom it does not bind.  So without a package
`luci` that can be read to its end, whether its file is missing, is no text or has a bad line,
`root` may do everything and no other user may log in. -/
theorem gate_ofFolder {σ : Type} (b : Broker σ) (start : σ) (tree : Tree) (dir : String)
    (settings : LoginSettings) (user : String) :
    let c := LoginCase.prepare (.ofFolder tree dir) tree settings user
    let o := (Login.dialogue c).run b start
    (.connect ∈ o.requests ↔ user = "root" ∨ FolderBinds tree dir user) ∧
      (¬(user = "root" ∨ FolderBinds tree dir user) →
        o.result = .error (.denied user) ∧ o.requests = []) ∧
      ((∃ policy, c.authorization = some (.limited policy)) ↔ FolderBinds tree dir user) ∧
      (∀ policy, c.authorization = some (.limited policy) ↔
        ∃ p s, Uci.FolderHolds tree dir "luci" p ∧ FirstBound p user s ∧
          policy = .ofSection s user) ∧
      (c.authorization = some .unrestricted ↔ user = "root" ∧ ¬FolderBinds tree dir user) ∧
      (∀ report, o.result = .ok report → ∃ auth, c.authorization = some auth ∧
        o.requests = .connect :: .create c.idle c.call :: .set report.sid "user" user c.call ::
          (c.grants auth).map (.grant report.sid · c.call)) ∧
      ((tree.exists? (join dir "luci") = false ∨
          (∃ fault, tree.readText (join dir "luci") = .error fault) ∨
          ∃ text e, tree.readText (join dir "luci") = .ok text ∧
            Uci.Package.parse "luci" text = .error e) →
        (user ≠ "root" → o.result = .error (.denied user) ∧ o.requests = []) ∧
          (user = "root" → c.authorization = some .unrestricted)) := by
  intro c o
  have hlimited : ∀ policy, c.authorization = some (.limited policy) ↔
      (findPolicy (.ofFolder tree dir) user).policy = some policy :=
    fun policy => Authorization.forUser_eq_limited_iff
  have hunrestricted : c.authorization = some .unrestricted ↔
      user = "root" ∧ ¬FolderBinds tree dir user := by
    rw [← exists_policy_ofFolder_iff]
    refine Authorization.forUser_eq_unrestricted_iff.trans (and_congr_right fun _ => ?_)
    exact Option.eq_none_iff_forall_ne_some.trans not_exists.symm
  have hsome : c.authorization.isSome = true ↔ user = "root" ∨ FolderBinds tree dir user := by
    rw [← exists_policy_ofFolder_iff]
    exact Authorization.forUser_isSome_iff
  have hdenied : ¬(user = "root" ∨ FolderBinds tree dir user) →
      o.result = .error (.denied user) ∧ o.requests = [] := by
    intro h
    rw [← hsome, Option.not_isSome_iff_eq_none] at h
    exact Login.denied_of_authorization b h start
  refine ⟨⟨?_, ?_⟩, hdenied, ?_, ?_, hunrestricted, ?_, ?_⟩
  · intro hconnect
    by_contra h
    rw [(hdenied h).2] at hconnect
    exact absurd hconnect List.not_mem_nil
  · intro h
    obtain ⟨auth, hauth⟩ := Option.isSome_iff_exists.1 (hsome.2 h)
    obtain ⟨rest, hrest⟩ := Login.connect_of_authorization b hauth start
    have hrequests : o.requests = .connect :: rest := hrest
    rw [hrequests]
    exact List.mem_cons_self
  · simp only [hlimited]
    exact exists_policy_ofFolder_iff
  · intro policy
    exact (hlimited policy).trans policy_ofFolder_iff
  · intro report hreport
    obtain ⟨auth, hauth, -, hrequests⟩ := Login.opened_of_ok hreport
    exact ⟨auth, hauth, hrequests⟩
  · -- Each of the three says that no package is held.
    intro hbad
    have hnone : ¬FolderBinds tree dir user := by
      rintro ⟨p, ⟨hthere, text, htext, hparse⟩, -⟩
      rcases hbad with hmissing | ⟨fault, hfault⟩ | ⟨text', e, htext', he⟩
      · rw [hthere] at hmissing
        exact absurd hmissing (by decide)
      · exact absurd (hfault.symm.trans htext) (by simp)
      · obtain rfl := Except.ok.inj (htext'.symm.trans htext)
        exact absurd (he.symm.trans hparse) (by simp)
    refine ⟨fun hroot => hdenied ?_, fun hroot => hunrestricted.2 ⟨hroot, hnone⟩⟩
    rintro (h | h)
    · exact hroot h
    · exact hnone h

end Gatehouse
