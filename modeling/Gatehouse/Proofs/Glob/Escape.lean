import Gatehouse.Proofs.Access.Language
import Gatehouse.Proofs.Files.Listing

/-!
# Names that are escaped

An escaped text is read as the tokens that stand for its characters, whatever stands in front of it
and behind it.  So a pattern behind an escaped folder and a slash is read as if it stood alone.

* `Token.exactly`, `accepts_map_exactly` — the token that an escaped character is read as; such
  tokens accept the text itself and nothing else.
* `parseFrom_escape`, `splitOn_escape` — an escaped text is read and split character by character.
* `parseFrom_congr` — where a pattern starts does not matter, as long as it starts a component.
* `Opening` — how a pattern of one component starts, with the tokens that it is read as.
* `Segment.exactly` — the component of one name, and `PathPattern.parse_folder` that the components
  of an escaped folder are those of its pieces.
* `PathPattern.parse_folder_of_notMem`, `PathPattern.isOk_parse_folder` — so a pattern without
  slashes adds one component, and whether a pattern can be read behind a folder does not
  depend on the folder.
-/

namespace Gatehouse.Glob

open Gatehouse.Files Gatehouse.Access

/-! ## The tokens of an escaped text -/

/-- The token that an escaped character is read as. -/
def Token.exactly (c : Char) : Token :=
  if c ∈ ['?', '*', '[', ']'] then .within [.single c] else .char c

theorem escape_cons (c : Char) (s : List Char) :
    escape (c :: s) = (if c ∈ ['?', '*', '[', ']'] then ['[', c, ']'] else [c]) ++ escape s := rfl

variable {position position' : Nat} {before before' : Option Char} {s rest : List Char}
  {ts : List Token}

/-- A character alone in brackets is the only member of its set. -/
theorem bracket_single {c : Char} (h : c ≠ '!') (rest : List Char) :
    bracket (c :: ']' :: rest) = some (.within [.single c], rest) := by
  rw [bracket_of_ne fun r hr => h (List.cons.inj hr).1]
  have hbody : bracketBody (c :: ([] ++ ']' :: rest)) = some ([c], rest) :=
    bracketBody_eq List.not_mem_nil
  rw [List.nil_append] at hbody
  rw [hbody]
  rfl

/-- An escaped text is read as the tokens of its characters, and then what stands behind it. -/
theorem parseFrom_escape (s rest : List Char) (position : Nat) (before : Option Char) :
    ∃ position' before', Token.parseFrom position before (escape s ++ rest) =
      (s.map Token.exactly ++ ·) <$> Token.parseFrom position' before' rest := by
  induction s generalizing position before with
  | nil =>
    refine ⟨position, before, ?_⟩
    cases hrest : Token.parseFrom position before rest <;> simp [escape, hrest]
  | cons c s ih =>
    have hcons : ∀ {t : Token} {ts : List Token} (e : Except PatternError (List Token)),
        (t :: ·) <$> (ts ++ ·) <$> e = (t :: ts ++ ·) <$> e := by
      intro t ts e
      cases e <;> rfl
    rw [escape_cons, List.append_assoc]
    by_cases hc : c ∈ ['?', '*', '[', ']']
    · have hne : c ≠ '!' := by
        rintro rfl
        exact absurd hc (by decide)
      rw [if_pos hc, List.cons_append, List.cons_append, List.cons_append, List.nil_append,
        parseFrom_bracket (bracket_single hne _)]
      obtain ⟨position', before', hs⟩ := ih (position + _) (some ']')
      refine ⟨position', before', ?_⟩
      rw [hs, hcons, List.map_cons, Token.exactly, if_pos hc]
    · obtain ⟨hany, hstar, hbracket⟩ : c ≠ '?' ∧ c ≠ '*' ∧ c ≠ '[' := by
        simp only [List.mem_cons, not_or] at hc
        exact ⟨hc.1, hc.2.1, hc.2.2.1⟩
      rw [if_neg hc, List.cons_append, List.nil_append, parseFrom_char hany hstar hbracket]
      obtain ⟨position', before', hs⟩ := ih (position + 1) (some c)
      refine ⟨position', before', ?_⟩
      rw [hs, hcons, List.map_cons, Token.exactly, if_neg hc]

theorem parse_escape (s : List Char) : Token.parse (escape s) = .ok (s.map Token.exactly) := by
  obtain ⟨position, before, h⟩ := parseFrom_escape s [] 0 none
  rw [List.append_nil] at h
  rw [Token.parse, h, Token.parseFrom]
  exact congrArg Except.ok (List.append_nil _)

/-- Slashes are not escaped, and nothing that is escaped has a slash. -/
theorem splitOn_escape (s : List Char) :
    (escape s).splitOn '/' = (s.splitOn '/').map escape := by
  induction s with
  | nil => rfl
  | cons c s ih =>
    rw [escape_cons, List.splitOn_cons_eq_if_modifyHead]
    by_cases hslash : c = '/'
    · subst hslash
      rw [if_neg (by decide), List.singleton_append, List.splitOn_cons_eq_if_modifyHead, ih]
      rfl
    · obtain ⟨p, ps, hs⟩ := List.exists_cons_of_ne_nil (List.splitOn_ne_nil '/' s)
      rw [hs, List.map_cons] at ih
      by_cases hc : c ∈ ['?', '*', '[', ']'] <;>
        simp [List.splitOn_cons_eq_if_modifyHead, hslash, hs, hc, ih, escape_cons]

/-! ## What the tokens accept -/

/-- A token for each character, that takes this character and no other, accepts the text itself and
nothing else. -/
theorem accepts_map_iff {f : Char → Token} (hstar : ∀ c, f c ≠ .star) (hdeep : ∀ c, f c ≠ .deep)
    (htakes : ∀ c (x : Symbol), (x.guarded = true → x.char = '.') →
      ((f c).takes x = true ↔ x.char = c)) (s name : List Char) :
    accepts (s.map f) (ofFileName name) = true ↔ name = s := by
  have hplain : ∀ s name : List Char, accepts (s.map f) (plain name) = true ↔ name = s := by
    intro s
    induction s with
    | nil =>
      intro name
      rw [List.map_nil, accepts_nil]
      cases name <;> simp [plain]
    | cons c s ih =>
      intro name
      cases name with
      | nil => simp [plain, accepts_cons_nil (hstar c) (hdeep c)]
      | cons d name =>
        rw [List.map_cons, plain, List.map_cons, accepts_cons_cons (hstar c) (hdeep c), ← plain,
          Bool.and_eq_true, ih, htakes c _ (by simp), List.cons.injEq]
  cases s with
  | nil =>
    rw [List.map_nil, accepts_nil]
    cases name <;> simp [ofFileName]
  | cons c s =>
    cases name with
    | nil => simp [ofFileName, accepts_cons_nil (hstar c) (hdeep c)]
    | cons d name =>
      rw [List.map_cons, ofFileName, accepts_cons_cons (hstar c) (hdeep c), Bool.and_eq_true,
        hplain, htakes c _ (by simp), List.cons.injEq]

/-- The tokens of an escaped text accept the text itself and nothing else, also as a file name. -/
theorem accepts_map_exactly (s name : List Char) :
    accepts (s.map Token.exactly) (ofFileName name) = true ↔ name = s := by
  refine accepts_map_iff (fun c => ?_) (fun c => ?_) (fun c x hx => ?_) s name
  · unfold Token.exactly
    split <;> simp
  · unfold Token.exactly
    split <;> simp
  · unfold Token.exactly
    split
    · rename_i hc
      -- No dot is escaped, so the set does not stand in front of a guarded character.
      have hdot : c ≠ '.' := by
        rintro rfl
        exact absurd hc (by decide)
      have hguard : x.char = c → x.guarded = false := by
        rintro rfl
        exact Bool.eq_false_iff.2 fun h => hdot (hx h)
      simp only [Token.takes, List.any_cons, List.any_nil, Member.covers, Bool.or_false,
        Bool.and_eq_true, Bool.not_eq_true', beq_iff_eq]
      exact ⟨fun h => h.2, fun h => ⟨hguard h, h⟩⟩
    · simpa [Token.takes] using eq_comm

/-- Literal tokens accept the name that they spell and nothing else. -/
theorem accepts_map_char_fileName (s name : List Char) :
    accepts (s.map Token.char) (ofFileName name) = true ↔ name = s :=
  accepts_map_iff (by simp) (by simp) (fun c x _ => by simpa [Token.takes] using eq_comm) s name

/-! ## Where a pattern starts -/

theorem head?_ne_star (h : ∀ r, s = '*' :: r → False) : s.head? ≠ some '*' := by
  intro hhead
  obtain ⟨r, hr⟩ := List.head?_eq_some_iff.1 hhead
  exact h r hr

/-- Where a pattern starts does not matter, unless `**` could start a component there only. -/
theorem parseFrom_congr (h : Token.parseFrom position before s = .ok ts)
    (hbefore : before = none ∨ before = some '/' → before' = none ∨ before' = some '/') :
    Token.parseFrom position' before' s = .ok ts := by
  fun_induction Token.parseFrom position before s generalizing ts position' before' with
  | case1 =>
    rw [Token.parseFrom]
    exact h
  | case2 _ _ r ih =>
    obtain ⟨rest, hrest, rfl⟩ := exists_of_cons_eq_ok h
    rw [parseFrom_any, ih hrest id]
    rfl
  | case3 | case6 | case7 | case9 => exact absurd h (by simp)
  | case4 position before hstart =>
    rw [Token.parseFrom, if_pos (hbefore hstart)]
    exact h
  | case5 position before hstart r _ ih =>
    obtain ⟨rest, hrest, rfl⟩ := exists_of_cons_eq_ok h
    rw [Token.parseFrom, if_pos (hbefore hstart), if_pos rfl, ih hrest id]
    · rfl
    · simp
  | case8 _ _ r _ hr ih =>
    obtain ⟨rest, hrest, rfl⟩ := exists_of_cons_eq_ok h
    rw [parseFrom_star (head?_ne_star hr), ih hrest id]
    rfl
  | case10 _ _ r t rest hbracket ih =>
    obtain ⟨tokens, htokens, rfl⟩ := exists_of_cons_eq_ok h
    rw [parseFrom_bracket hbracket, ih htokens id]
    rfl
  | case11 _ _ d r hany _ _ hstar hbracket ih =>
    obtain ⟨rest, hrest, rfl⟩ := exists_of_cons_eq_ok h
    rw [parseFrom_char hany hstar hbracket, ih hrest id]
    rfl

/-- How a pattern of one component starts, and its tokens. -/
inductive Opening (position : Nat) : List Char → List Token → Prop where
  /-- There is nothing. -/
  | empty : Opening position [] []
  /-- The component is arbitrary depth. -/
  | deep : Opening position ['*', '*'] [.deep]
  /-- It starts with a star. -/
  | star {r : List Char} {tail : List Token} (hr : r.head? ≠ some '*')
      (htail : Token.parseFrom (position + 1) (some '*') r = .ok tail) :
      Opening position ('*' :: r) (.star :: tail)
  /-- It starts with a token that takes one character. -/
  | one {s : List Char} {t : Token} {tail : List Token} (hstar : t ≠ .star) (hdeep : t ≠ .deep)
      (hdot : t = .char '.' ↔ s.head? = some '.') : Opening position s (t :: tail)

theorem bracket_cases {t : Token} (h : bracket s = some (t, rest)) :
    (∃ ms, t = .within ms) ∨ ∃ ms, t = .except ms := by
  unfold bracket at h
  split at h
  · obtain ⟨body, -, hbody⟩ := Option.map_eq_some_iff.1 h
    exact .inr ⟨_, (Prod.mk.inj hbody).1.symm⟩
  · obtain ⟨body, -, hbody⟩ := Option.map_eq_some_iff.1 h
    exact .inl ⟨_, (Prod.mk.inj hbody).1.symm⟩

theorem opening_of_parseFrom (h : Token.parseFrom position before s = .ok ts) (hslash : '/' ∉ s) :
    Opening position s ts := by
  fun_induction Token.parseFrom position before s generalizing ts with
  | case1 =>
    obtain rfl := Except.ok.inj h
    exact .empty
  | case2 =>
    obtain ⟨tail, -, rfl⟩ := exists_of_cons_eq_ok h
    exact .one (by simp) (by simp) (by simp)
  | case3 | case6 | case7 | case9 => exact absurd h (by simp)
  | case4 =>
    obtain rfl := Except.ok.inj h
    exact .deep
  | case5 => exact absurd hslash (by simp)
  | case8 _ _ r _ hr =>
    obtain ⟨tail, htail, rfl⟩ := exists_of_cons_eq_ok h
    exact .star (head?_ne_star hr) htail
  | case10 _ _ r t rest hbracket =>
    obtain ⟨tail, -, rfl⟩ := exists_of_cons_eq_ok h
    obtain ⟨ms, rfl⟩ | ⟨ms, rfl⟩ := bracket_cases hbracket <;>
      exact .one (by simp) (by simp) (by simp)
  | case11 =>
    obtain ⟨tail, -, rfl⟩ := exists_of_cons_eq_ok h
    exact .one (by simp) (by simp) (by simp)

/-- A pattern behind an escaped folder and a slash can be read exactly if it can be read alone. -/
theorem exists_parse_escape_iff (s p : List Char) :
    (∃ ts, Token.parse (escape s ++ '/' :: p) = .ok ts) ↔ ∃ ts, Token.parse p = .ok ts := by
  obtain ⟨position, before, h⟩ := parseFrom_escape s ('/' :: p) 0 none
  rw [parseFrom_char (by decide) (by decide) (by decide)] at h
  rw [Token.parse, h]
  constructor
  · rintro ⟨ts, hts⟩
    cases hp : Token.parseFrom (position + 1) (some '/') p with
    | error fault => rw [hp] at hts; exact absurd hts (by simp)
    | ok ts' => exact ⟨ts', parseFrom_congr hp fun _ => .inl rfl⟩
  · rintro ⟨ts, hts⟩
    have hp : Token.parseFrom (position + 1) (some '/') p = .ok ts :=
      parseFrom_congr hts fun _ => .inr rfl
    rw [hp]
    exact ⟨_, rfl⟩

/-! ## The components of an escaped folder -/

namespace Segment

/-- The component of one name. -/
def exactly (name : String) : Segment :=
  .ofTokens (name.toList.map Token.exactly)

theorem exactly_ne_deep (name : String) : exactly name ≠ .deep := by
  have hdeep : name.toList.map Token.exactly ≠ [.deep] := by
    intro h
    obtain ⟨c, -, hc⟩ := List.mem_map.1 (h ▸ List.mem_cons_self : Token.deep ∈ _)
    unfold Token.exactly at hc
    split at hc <;> exact absurd hc (by simp)
  unfold exactly ofTokens
  rw [if_neg hdeep]
  split <;> simp

/-- The component of a name is the name itself, or it has to be looked for in the folder. -/
theorem exactly_cases (name : String) : exactly name = .name name ∨
    exactly name = .wild (name.toList.map Token.exactly) ∧
      name ≠ "" ∧ name ≠ "." ∧ name ≠ ".." := by
  have hwild : ∀ {ts : List Token}, exactly name = .wild ts →
      name ≠ "" ∧ name ≠ "." ∧ name ≠ ".." := by
    intro ts h
    have hplain : exactly "" = .name "" ∧ exactly "." = .name "." ∧ exactly ".." = .name ".." := by
      decide
    refine ⟨?_, ?_, ?_⟩ <;> rintro rfl
    · exact absurd (hplain.1.symm.trans h) (by simp)
    · exact absurd (hplain.2.1.symm.trans h) (by simp)
    · exact absurd (hplain.2.2.symm.trans h) (by simp)
  have hdeep := exactly_ne_deep name
  cases hexactly : exactly name with
  | deep => exact absurd hexactly hdeep
  | name text =>
    unfold exactly ofTokens at hexactly
    split at hexactly
    · exact absurd hexactly (by simp)
    · split at hexactly
      · rename_i s hs
        obtain rfl := Segment.name.inj hexactly
        have htokens := eq_map_char_of_literal? hs
        -- Both lists of tokens accept one text only.
        have hname := (accepts_map_exactly name.toList name.toList).2 rfl
        rw [htokens, accepts_map_char_fileName] at hname
        exact .inl (by rw [← hname, String.ofList_toList])
      · exact absurd hexactly (by simp)
  | wild ts =>
    have hne := hwild hexactly
    unfold exactly ofTokens at hexactly
    split at hexactly
    · exact absurd hexactly (by simp)
    · split at hexactly
      · exact absurd hexactly (by simp)
      · exact .inr ⟨by rw [← hexactly], hne⟩

/-- Components that are not `**` are not joined with others. -/
theorem collapse_append {a b : List Segment} (h : ∀ s ∈ a, s ≠ .deep) :
    collapse (a ++ b) = a ++ collapse b := by
  induction a with
  | nil => rfl
  | cons s a ih =>
    obtain ⟨hs, ha⟩ := List.forall_mem_cons.1 h
    rw [List.cons_append, collapse, if_neg fun hjoin => hs hjoin.1, ih ha, List.cons_append]

end Segment

/-- The pieces that lead to a folder, without the slash that an absolute path starts with.  The
empty path comes to the root, as a slash is put behind it. -/
def folderPieces (dir : String) : List String :=
  if isAbsolute (dir ++ "/") then (pieces dir).drop 1 else pieces dir

/-- Escaping does not change whether a path starts at the root. -/
theorem isAbsolute_escape (dir rest : String) :
    isAbsolute (String.ofList (escape dir.toList) ++ "/" ++ rest) = isAbsolute (dir ++ "/") := by
  unfold isAbsolute
  simp only [String.toList_append, String.toList_ofList]
  cases hdir : dir.toList with
  | nil => rfl
  | cons c cs =>
    rw [escape_cons]
    split
    · rename_i hc
      have hslash : c ≠ '/' := by
        rintro rfl
        exact absurd hc (by decide)
      simp [hslash]
    · simp

theorem notMem_of_mem_folderPieces {dir p : String} (h : p ∈ folderPieces dir) :
    '/' ∉ p.toList := by
  have hmem : p ∈ pieces dir := by
    unfold folderPieces at h
    split at h
    · exact (List.drop_sublist 1 _).subset h
    · exact h
  exact notMem_of_mem_pieces hmem

namespace PathPattern

/-- The components of a pattern, without the empty one that stands for a slash at its end. -/
def lastPieces (pattern : String) : List (List Char) :=
  if (pattern.toList.splitOn '/').getLast? == some [] then (pattern.toList.splitOn '/').dropLast
  else pattern.toList.splitOn '/'

theorem mapM_append_ok {α β ε : Type} {f : α → Except ε β} {as : List α} {bs : List β}
    (h : as.mapM f = .ok bs) (rest : List α) :
    (as ++ rest).mapM f = (bs ++ ·) <$> rest.mapM f := by
  rw [List.mapM_append, h]
  cases rest.mapM f <;> rfl

theorem mapM_map_exactly (ps : List (List Char)) :
    (ps.map escape).mapM (fun p => Segment.ofTokens <$> Token.parse p) =
      .ok (ps.map fun p => Segment.exactly (String.ofList p)) := by
  induction ps with
  | nil => rfl
  | cons p ps ih =>
    rw [List.map_cons, List.mapM_cons, ih, parse_escape, List.map_cons, Segment.exactly,
      String.toList_ofList]
    rfl

/-- A pattern behind an escaped folder has the components of the folder's pieces, and then its
own. -/
theorem parse_folder (dir pattern : String) :
    parse (String.ofList (escape dir.toList) ++ "/" ++ pattern) = (do
      let _ ← Token.parse (escape dir.toList ++ '/' :: pattern.toList)
      let last ← (lastPieces pattern).mapM fun p => Segment.ofTokens <$> Token.parse p
      pure ⟨isAbsolute (dir ++ "/"), (pattern.toList.splitOn '/').getLast? == some [],
        Segment.collapse ((folderPieces dir).map Segment.exactly ++ last)⟩) := by
  -- What is split, and what is left of it without the root and a slash at the end.
  have htext : (String.ofList (escape dir.toList) ++ "/" ++ pattern).toList =
      escape dir.toList ++ '/' :: pattern.toList := by simp
  have hsplit : (escape dir.toList ++ '/' :: pattern.toList).splitOn '/' =
      (dir.toList.splitOn '/').map escape ++ pattern.toList.splitOn '/' := by
    rw [List.splitOn_append_cons_self, splitOn_escape]
  have hne := List.splitOn_ne_nil '/' pattern.toList
  have hlast : ((dir.toList.splitOn '/').map escape ++ pattern.toList.splitOn '/').getLast? =
      (pattern.toList.splitOn '/').getLast? := List.getLast?_append_of_ne_nil _ hne
  obtain ⟨ps, hps, hinner⟩ : ∃ ps : List (List Char), folderPieces dir = ps.map String.ofList ∧
      (if isAbsolute (dir ++ "/") = true then
        ((dir.toList.splitOn '/').map escape ++ pattern.toList.splitOn '/').drop 1
        else (dir.toList.splitOn '/').map escape ++ pattern.toList.splitOn '/') =
        ps.map escape ++ pattern.toList.splitOn '/' := by
    unfold folderPieces pieces
    split
    · refine ⟨(dir.toList.splitOn '/').drop 1, List.map_drop.symm, ?_⟩
      cases hdir : dir.toList.splitOn '/' with
      | nil => exact absurd hdir (List.splitOn_ne_nil _ _)
      | cons p ps => rfl
    · exact ⟨_, rfl, rfl⟩
  have hpieces : (if ((pattern.toList.splitOn '/').getLast? == some []) = true then
      (ps.map escape ++ pattern.toList.splitOn '/').dropLast
      else ps.map escape ++ pattern.toList.splitOn '/') = ps.map escape ++ lastPieces pattern := by
    unfold lastPieces
    split
    · rw [List.dropLast_append_of_ne_nil hne]
    · rfl
  unfold parse
  rw [htext, hsplit, isAbsolute_escape]
  dsimp only
  rw [hlast, hinner, hpieces, mapM_append_ok (mapM_map_exactly ps), hps, List.map_map]
  cases Token.parse (escape dir.toList ++ '/' :: pattern.toList) with
  | error fault => rfl
  | ok ts =>
    cases (lastPieces pattern).mapM fun p => Segment.ofTokens <$> Token.parse p with
    | error fault => rfl
    | ok last => rfl

/-- What is read behind an escaped folder can be read alone, piece by piece. -/
theorem exists_of_parse_folder {dir pattern : String} {p : PathPattern}
    (h : parse (String.ofList (escape dir.toList) ++ "/" ++ pattern) = .ok p) :
    (∃ ts, Token.parse pattern.toList = .ok ts) ∧
      ∃ last, (lastPieces pattern).mapM (fun p => Segment.ofTokens <$> Token.parse p) =
        .ok last := by
  rw [parse_folder] at h
  cases hwhole : Token.parse (escape dir.toList ++ '/' :: pattern.toList) with
  | error fault => rw [hwhole] at h; exact absurd h (by simp [bind, Except.bind])
  | ok ts =>
    cases hlast : (lastPieces pattern).mapM fun p => Segment.ofTokens <$> Token.parse p with
    | error fault => rw [hwhole, hlast] at h; exact absurd h (by simp [bind, Except.bind])
    | ok last => exact ⟨(exists_parse_escape_iff _ _).1 ⟨ts, hwhole⟩, last, rfl⟩

theorem parse_folder_of_parse (dir : String) {pattern : String} {ts : List Token}
    {last : List Segment} (h : Token.parse pattern.toList = .ok ts)
    (hlast : (lastPieces pattern).mapM (fun p => Segment.ofTokens <$> Token.parse p) = .ok last) :
    parse (String.ofList (escape dir.toList) ++ "/" ++ pattern) =
      .ok ⟨isAbsolute (dir ++ "/"), (pattern.toList.splitOn '/').getLast? == some [],
        (folderPieces dir).map Segment.exactly ++ Segment.collapse last⟩ := by
  obtain ⟨whole, hwhole⟩ := (exists_parse_escape_iff dir.toList pattern.toList).2 ⟨ts, h⟩
  have hnames : ∀ s ∈ (folderPieces dir).map Segment.exactly, s ≠ .deep := by
    rintro s hs
    obtain ⟨name, -, rfl⟩ := List.mem_map.1 hs
    exact Segment.exactly_ne_deep name
  rw [parse_folder, hwhole, hlast, ← Segment.collapse_append hnames]
  rfl

/-- Whether a pattern behind an escaped folder can be read does not depend on the folder. -/
theorem isOk_parse_folder (dir dir' pattern : String) :
    (parse (String.ofList (escape dir.toList) ++ "/" ++ pattern)).isOk =
      (parse (String.ofList (escape dir'.toList) ++ "/" ++ pattern)).isOk := by
  have hread : ∀ dir dir' : String,
      (parse (String.ofList (escape dir.toList) ++ "/" ++ pattern)).isOk = true →
      (parse (String.ofList (escape dir'.toList) ++ "/" ++ pattern)).isOk = true := by
    intro dir dir' h
    cases hdir : parse (String.ofList (escape dir.toList) ++ "/" ++ pattern) with
    | error fault => rw [hdir] at h; exact absurd h (by simp [Except.isOk, Except.toBool])
    | ok p =>
      obtain ⟨⟨ts, hts⟩, last, hlast⟩ := exists_of_parse_folder hdir
      rw [parse_folder_of_parse dir' hts hlast]
      rfl
  exact Bool.eq_iff_iff.2 ⟨hread dir dir', hread dir' dir⟩

section OnePiece

variable {pattern : String}

/-- A pattern without slashes is one component. -/
theorem parse_folder_of_notMem (dir : String) (hslash : '/' ∉ pattern.toList) (hne : pattern ≠ "")
    (h : Token.parse pattern.toList = .ok ts) :
    parse (String.ofList (escape dir.toList) ++ "/" ++ pattern) =
      .ok ⟨isAbsolute (dir ++ "/"), false,
        (folderPieces dir).map Segment.exactly ++ [.ofTokens ts]⟩ := by
  have hfull : ((pattern.toList.splitOn '/').getLast? == some []) = false := by
    simp [List.splitOn_eq_singleton hslash, hne]
  have hlast : (lastPieces pattern).mapM (fun p => Segment.ofTokens <$> Token.parse p) =
      .ok [.ofTokens ts] := by
    rw [lastPieces, hfull, if_neg (by decide), List.splitOn_eq_singleton hslash, List.mapM_cons, h]
    rfl
  have hcollapse : Segment.collapse [.ofTokens ts] = [.ofTokens ts] := by simp [Segment.collapse]
  rw [parse_folder_of_parse dir h hlast, hfull, hcollapse]

/-- The empty pattern asks for the folder itself. -/
theorem parse_folder_empty (dir : String) :
    parse (String.ofList (escape dir.toList) ++ "/" ++ "") =
      .ok ⟨isAbsolute (dir ++ "/"), true, (folderPieces dir).map Segment.exactly⟩ := by
  have hlast : (lastPieces "").mapM (fun p => Segment.ofTokens <$> Token.parse p) = .ok [] := rfl
  have htokens : Token.parse "".toList = .ok [] := parse_escape []
  rw [parse_folder_of_parse dir htokens hlast, Segment.collapse, List.append_nil]
  rfl

end OnePiece

end PathPattern

end Gatehouse.Glob
