import Gatehouse.Proofs.CommandLine.DryRun
import Gatehouse.Proofs.Files.Walk

/-!
# Reading the output of a dry run

A dry run prints the session and then its grants, one a line.  The names in documents may have any
characters, newlines among them; the lines can still be told apart, and read.

* `splitOn_ofLines` — a text of lines falls into these lines at its newlines.
* `splitOn_dryRun` — so what a dry run prints falls into the session and the grants.

`dryRun_readBack` says what is read from it: the grants that the library gives the user, in order.
-/

namespace Gatehouse.CommandLine

open Gatehouse.Access Gatehouse.Acl Gatehouse.Files

variable {c : Config} {tree : Tree} {user : String}

/-- Lines that end with a newline each are what the text falls into at its newlines, with an empty
piece after the last one. -/
theorem splitOn_ofLines {ls : List (List Char)} (h : ∀ l ∈ ls, '\n' ∉ l) :
    (Text.ofLines ls).splitOn '\n' = ls ++ [[]] := by
  induction ls with
  | nil => rfl
  | cons l ls ih =>
    obtain ⟨hl, hls⟩ := List.forall_mem_cons.1 h
    have htext : Text.ofLines (l :: ls) = l ++ '\n' :: Text.ofLines ls := by simp [Text.ofLines]
    rw [htext, List.splitOn_append_cons_self_of_not_mem hl, ih hls]
    rfl

/-- What a dry run prints falls into the session and the grants. -/
theorem splitOn_dryRun (n : Nat) (gs : List Grant) :
    ((unlines ((SessionId.ofNumber n).text ::
        gs.map fun g => g.toJson.compact)).toList.splitOn '\n').map String.ofList =
      ((SessionId.ofNumber n).text :: gs.map fun g => g.toJson.compact) ++ [""] := by
  rw [toList_unlines, splitOn_ofLines]
  · simp
  · intro l hl
    obtain ⟨text, htext, rfl⟩ := List.mem_map.1 hl
    exact (writable_of_mem_dryRun htext).newline

/-- A dry run that succeeds is one for a user who may log in. -/
theorem exists_authorization_of_dryRun {sid : SessionId}
    (h : (dryRun sid c tree user).status = 0) :
    ∃ auth, (loginCase c tree user).authorization = some auth := by
  cases hauth : (loginCase c tree user).authorization with
  | none =>
    rw [dryRun_of_denied hauth] at h
    exact absurd h Nat.one_ne_zero
  | some auth => exact ⟨auth, rfl⟩

/-- **The output of a dry run can be read back.**  If a dry run succeeds, what it prints falls at
its newlines into the session and one line for each grant that the documents of the library give to
the user, in their order, and each line is read as that grant. -/
theorem dryRun_readBack (n : Nat) (c : Config) (tree : Tree) (user : String)
    (h : (dryRun (.ofNumber n) c tree user).status = 0) :
    let stdout := (dryRun (.ofNumber n) c tree user).stdout
    ∃ auth lines,
      authorizationOf (.ofFolder tree c.paths.uciDir) user = some auth ∧
        (stdout.toList.splitOn '\n').map String.ofList =
          (SessionId.ofNumber n).text :: lines ++ [""] ∧
        (Text.lines stdout.toList).map String.ofList = (SessionId.ofNumber n).text :: lines ∧
        List.Forall₂ (fun line g => Grant.parse line = .ok g) lines
          (c.login.library.grants tree auth) := by
  obtain ⟨auth, hauth⟩ := exists_authorization_of_dryRun h
  have hgrants : (loginCase c tree user).grants auth = c.login.library.grants tree auth :=
    grants_prepare (.ofFolder tree c.paths.uciDir) tree c.login user auth
  have hstdout : (dryRun (.ofNumber n) c tree user).stdout = unlines ((SessionId.ofNumber n).text ::
      (c.login.library.grants tree auth).map fun g => g.toJson.compact) := by
    rw [dryRun_of_authorized hauth (SessionId.text_ofNumber_ne n), hgrants, Result.success]
  dsimp only
  rw [hstdout]
  refine ⟨auth, (c.login.library.grants tree auth).map fun g => g.toJson.compact, hauth, ?_, ?_, ?_⟩
  · exact splitOn_dryRun n _
  · exact lines_dryRun n _
  · rw [List.forall₂_map_left_iff, List.forall₂_same]
    intro g _
    exact g.parse_compact

/-! A document with names of awkward characters. -/

/-- The text of the document: the group, the object and one of its methods have a newline, a quote
and a control character in their names. -/
def awkwardText : String :=
  "\x7b\"a\\nb\":\x7b\"read\":\x7b\"ubus\":\x7b\"o\\\"\":[\"\\u0001\\\\\",\"x\"]\x7d\x7d\x7d\x7d"

/-- The folder of the document. -/
def awkwardTree : Tree :=
  Tree.empty.write "acl/awkward.json" (.file awkwardText.toUTF8.toList)

theorem dryRun_readBack_awkward :
    ∃ lines,
      ((dryRun (.ofNumber 1) sampleConfig awkwardTree "root").stdout.toList.splitOn '\n').map
          String.ofList = (SessionId.ofNumber 1).text :: lines ++ [""] ∧
        List.Forall₂ (fun line g => Grant.parse line = .ok g) lines
          [⟨"ubus", [("o\"", "\x01\\"), ("o\"", "x")]⟩, ⟨"luci-ui", [("a\nb", "read")]⟩] := by
  have hstatus : (dryRun (.ofNumber 1) sampleConfig awkwardTree "root").status = 0 := by
    decide +kernel
  have hgrants : sampleConfig.login.library.grants awkwardTree .unrestricted =
      [⟨"ubus", [("o\"", "\x01\\"), ("o\"", "x")]⟩, ⟨"luci-ui", [("a\nb", "read")]⟩] := by
    decide +kernel
  have hauth : authorizationOf (.ofFolder awkwardTree sampleConfig.paths.uciDir) "root" =
      some .unrestricted := by
    rfl
  obtain ⟨auth, lines, hauth', hsplit, -, hread⟩ :=
    dryRun_readBack 1 sampleConfig awkwardTree "root" hstatus
  obtain rfl := Option.some.inj (hauth.symm.trans hauth')
  rw [hgrants] at hread
  exact ⟨lines, hsplit, hread⟩

end Gatehouse.CommandLine
