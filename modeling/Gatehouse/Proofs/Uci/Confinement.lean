import Gatehouse.Proofs.Files.Listing
import Gatehouse.Uci.Store

/-!
# A store stays in its folder

A store of package files reads one entry of its folder for each name, whatever else there is.

* `Tree.inside?` — what stands under a name directly in the folder that a path names;
  `Tree.find?_join` says that the path of a name in that folder leads there and nowhere else.
* `isPackageName_iff` — the names that a store accepts, and `isName_of_isPackageName` that each of
  them is the name of an entry: no separator is in it, and it is not one of the dots.
* `Package.ofEntry` — what is loaded where a certain entry stands under the name, and
  `load_ofFolder_eq` that nothing else is.

`load_ofFolder_confined` compares two trees: on other names a store fails in both, and on these it
gives the same in both if they have the same entry of that name.
-/

namespace Gatehouse

open Gatehouse.Files

/-! ## What is inside a folder -/

namespace Files.Tree

/-- The folder that a path names.  The empty path stands for the one that relative paths start
in. -/
def folderAt? (t : Tree) (dir : String) : Option Place :=
  if dir = "" then some (.start "")
  else
    match t.locate dir with
    | .ok place => if t.entry? place = some .folder then some place else none
    | .error _ => none

/-- What stands under a name directly in the folder that a path names. -/
def inside? (t : Tree) (dir name : String) : Option Entry :=
  (t.folderAt? dir).bind fun place => t.entry? (place.child name)

variable {t : Tree} {dir name : String} {place q : Place}

theorem folderAt?_eq_some_iff (hdir : dir ≠ "") :
    t.folderAt? dir = some place ↔ t.locate dir = .ok place ∧ t.entry? place = some .folder := by
  unfold folderAt?
  rw [if_neg hdir]
  cases t.locate dir with
  | error fault => simp
  | ok p =>
    dsimp only
    split
    · rename_i hfolder
      constructor
      · intro h
        obtain rfl := Option.some.inj h
        exact ⟨rfl, hfolder⟩
      · rintro ⟨h, -⟩
        rw [Except.ok.inj h]
    · rename_i hfolder
      constructor
      · intro h
        exact absurd h (by simp)
      · rintro ⟨h, hplace⟩
        obtain rfl := Except.ok.inj h
        exact absurd hplace hfolder

theorem entry?_of_folderAt? (h : t.folderAt? dir = some place) :
    t.entry? place = some .folder := by
  by_cases hdir : dir = ""
  · rw [folderAt?, if_pos hdir] at h
    obtain rfl := Option.some.inj h
    rfl
  · exact ((folderAt?_eq_some_iff hdir).1 h).2

/-- The path of a name inside a folder leads there exactly by the steps from the folder. -/
theorem locate_join_iff_follow (hslash : '/' ∉ name.toList) (hne : name ≠ "") :
    t.locate (join dir name) = .ok q ↔ ∃ place, t.folderAt? dir = some place ∧
      '\x00' ∉ name.toList ∧ t.follow place (steps name) = .ok q := by
  have hrelative : isAbsolute name = false := isAbsolute_of_notMem hslash
  by_cases hdir : dir = ""
  · have hjoin : join dir name = name := by simp [join, hrelative, hdir]
    have hstart : Place.start name = Place.start "" := by
      simp [Place.start, hrelative, show isAbsolute "" = false from rfl]
    rw [hjoin, locate_eq_ok_iff, hstart, folderAt?, if_pos hdir]
    simp [hne]
  · rw [locate_join_eq_ok_iff hdir hrelative]
    refine exists_congr fun place => ?_
    rw [folderAt?_eq_some_iff hdir, and_assoc]

/-- The path of a name inside a folder leads to the entry of that name, and nowhere else. -/
theorem locate_join_iff (hname : IsName name) :
    t.locate (join dir name) = .ok q ↔ ∃ place, t.folderAt? dir = some place ∧
      (t.entry? (place.child name)).isSome = true ∧ q = place.child name := by
  rw [locate_join_iff_follow hname.slash hname.nonempty]
  refine exists_congr fun place => and_congr_right fun hplace => ?_
  rw [and_iff_right hname.nul, follow_steps_of_notMem (entry?_of_folderAt? hplace) hname.nonempty
    hname.slash hname.nul]
  simp [hname, hname.here, hname.up]

/-- What the path of a name inside a folder names is what stands under the name there. -/
theorem find?_join (hname : IsName name) : t.find? (join dir name) = t.inside? dir name := by
  unfold find?
  cases hlocate : t.locate (join dir name) with
  | ok q =>
    obtain ⟨place, hplace, -, rfl⟩ := (locate_join_iff hname).1 hlocate
    rw [inside?, hplace]
    rfl
  | error fault =>
    -- If something stood there, the path would lead to it.
    cases hentry : t.inside? dir name with
    | none => rfl
    | some e =>
      obtain ⟨place, hplace, hchild⟩ := Option.bind_eq_some_iff.1 hentry
      have hfound := (locate_join_iff hname).2
        ⟨place, hplace, Option.isSome_of_eq_some hchild, rfl⟩
      exact absurd (hlocate.symm.trans hfound) (by simp)

end Files.Tree

/-! ## Names of packages -/

namespace Uci

/-- The characters that names of packages are made of: ASCII letters and digits, the underscore and
the hyphen. -/
def IsPackageChar (c : Char) : Prop :=
  ('a' ≤ c ∧ c ≤ 'z') ∨ ('A' ≤ c ∧ c ≤ 'Z') ∨ ('0' ≤ c ∧ c ≤ '9') ∨ c = '_' ∨ c = '-'

instance (c : Char) : Decidable (IsPackageChar c) :=
  inferInstanceAs (Decidable (_ ∨ _))

variable {name : String}

theorem isAlphanum_iff {c : Char} : c.isAlphanum = true ↔
    ('a' ≤ c ∧ c ≤ 'z') ∨ ('A' ≤ c ∧ c ≤ 'Z') ∨ ('0' ≤ c ∧ c ≤ '9') := by
  have hupper : c.isUpper = true ↔ 'A' ≤ c ∧ c ≤ 'Z' := decide_eq_true_iff
  have hlower : c.isLower = true ↔ 'a' ≤ c ∧ c ≤ 'z' :=
    (Bool.and_eq_true _ _).to_iff.trans (and_congr decide_eq_true_iff decide_eq_true_iff)
  have hdigit : c.isDigit = true ↔ '0' ≤ c ∧ c ≤ '9' :=
    (Bool.and_eq_true _ _).to_iff.trans (and_congr decide_eq_true_iff decide_eq_true_iff)
  have hclasses : c.isAlphanum = (c.isUpper || c.isLower || c.isDigit) := rfl
  rw [hclasses, Bool.or_eq_true, Bool.or_eq_true, hupper, hlower, hdigit,
    or_comm (a := 'A' ≤ c ∧ _), or_assoc]

theorem isPackageChar_iff {c : Char} :
    IsPackageChar c ↔ (c.isAlphanum || c == '_' || c == '-') = true := by
  rw [Bool.or_eq_true, Bool.or_eq_true, isAlphanum_iff, beq_iff_eq, beq_iff_eq]
  simp only [IsPackageChar, or_assoc]

theorem isPackageName_iff :
    isPackageName name = true ↔ name ≠ "" ∧ ∀ c ∈ name.toList, IsPackageChar c := by
  simp only [isPackageName, Bool.and_eq_true, bne_iff_ne, List.all_eq_true, isPackageChar_iff]

/-- A name that a store accepts is the name of an entry. -/
theorem isName_of_isPackageName (h : isPackageName name = true) : IsName name := by
  obtain ⟨hne, hchars⟩ := isPackageName_iff.1 h
  have hdot : '.' ∉ name.toList := fun hmem => absurd (hchars _ hmem) (by decide)
  refine ⟨hne, ?_, ?_, ?_, ?_⟩
  · rintro rfl
    exact hdot (by decide)
  · rintro rfl
    exact hdot (by decide)
  · exact fun hmem => absurd (hchars _ hmem) (by decide)
  · exact fun hmem => absurd (hchars _ hmem) (by decide)

/-! ## What is loaded -/

/-- What is loaded as a package where a certain entry, or none, stands under its name. -/
def Package.ofEntry (path name : String) : Option Entry → Except StoreError (Option Package)
  | none => .ok none
  | some e =>
    match Tree.textOf e with
    | .error fault => .error (.read path fault.message)
    | .ok text => some <$> Package.read name text

/-- A store loads what stands under the name in its folder. -/
theorem load_ofFolder_eq (t : Tree) (dir : String) (h : isPackageName name = true) :
    (Store.ofFolder t dir).load name =
      Package.ofEntry (join dir name) name (t.inside? dir name) := by
  have hpath : t.inside? dir name = t.find? (join dir name) :=
    (Tree.find?_join (isName_of_isPackageName h)).symm
  simp only [Store.ofFolder, h, if_true, Tree.exists?, hpath]
  rcases Option.eq_none_or_eq_some (t.find? (join dir name)) with hnone | ⟨e, hentry⟩
  · simp [hnone, Package.ofEntry]
  · have hread : t.readText (join dir name) = Tree.textOf e := Tree.readText_eq_textOf hentry
    cases htext : Tree.textOf e with
    | error fault => simp [hentry, hread, htext, Package.ofEntry]
    | ok text => simp [hentry, hread, htext, Package.ofEntry]

/-- A store refuses the names that it does not accept before it looks at the tree. -/
theorem load_ofFolder_of_not_isPackageName (t : Tree) (dir : String)
    (h : ¬isPackageName name = true) :
    (Store.ofFolder t dir).load name = .error (.invalidName name) := by
  simp only [Store.ofFolder, if_neg h]

/-- **A store does not look outside its folder.**  If a name is empty or has a character that names
of packages do not have, loading it fails for that reason, whatever files there are.  On any other
name a store gives the same for two trees that have the same entry of that name, or none, directly
in its folder, however they differ elsewhere. -/
theorem load_ofFolder_confined (dir name : String) (t t' : Tree) :
    ((name = "" ∨ ∃ c ∈ name.toList, ¬IsPackageChar c) →
      (Store.ofFolder t dir).load name = .error (.invalidName name) ∧
        (Store.ofFolder t' dir).load name = .error (.invalidName name)) ∧
    (name ≠ "" → (∀ c ∈ name.toList, IsPackageChar c) →
      t.inside? dir name = t'.inside? dir name →
        (Store.ofFolder t dir).load name = (Store.ofFolder t' dir).load name) := by
  constructor
  · intro hbad
    have hrefused : ¬isPackageName name = true := by
      rw [isPackageName_iff]
      rintro ⟨hne, hchars⟩
      rcases hbad with hempty | ⟨c, hc, hchar⟩
      · exact hne hempty
      · exact hchar (hchars c hc)
    exact ⟨load_ofFolder_of_not_isPackageName t dir hrefused,
      load_ofFolder_of_not_isPackageName t' dir hrefused⟩
  · intro hne hchars hsame
    have hname : isPackageName name = true := isPackageName_iff.2 ⟨hne, hchars⟩
    rw [load_ofFolder_eq t dir hname, load_ofFolder_eq t' dir hname, hsame]

/-- A folder with a package, and a file next to the folder. -/
def guardedTree : Tree :=
  (Tree.empty.write "uci/luci" (.file "config access ops\n".toUTF8.toList)).write "passwd"
    (.file "root\n".toUTF8.toList)

/-- The same package in a folder with another one, a folder next to it, and another file. -/
def crowdedTree : Tree :=
  (((Tree.empty.write "passwd/backup" .folder).write "uci/luci"
    (.file "config access ops\n".toUTF8.toList)).write "uci/network" .folder).write "shadow"
      (.file [0xFF])

theorem load_ofFolder_confined_guarded :
    guardedTree.find? "passwd" ≠ crowdedTree.find? "passwd" ∧
      (Store.ofFolder guardedTree "uci").load "../passwd" = .error (.invalidName "../passwd") ∧
      (Store.ofFolder crowdedTree "uci").load "../passwd" = .error (.invalidName "../passwd") ∧
      (Store.ofFolder guardedTree "uci").load "luci" =
        (Store.ofFolder crowdedTree "uci").load "luci" := by
  obtain ⟨hrefused, -⟩ := load_ofFolder_confined "uci" "../passwd" guardedTree crowdedTree
  obtain ⟨-, hsame⟩ := load_ofFolder_confined "uci" "luci" guardedTree crowdedTree
  obtain ⟨hguarded, hcrowded⟩ := hrefused (.inr ⟨'/', by decide, by decide⟩)
  obtain ⟨hne, hchars⟩ := isPackageName_iff.1 (show isPackageName "luci" = true by decide)
  exact ⟨by decide +kernel, hguarded, hcrowded, hsame hne hchars (by decide +kernel)⟩

end Uci

end Gatehouse
