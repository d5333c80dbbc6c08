import Gatehouse.Proofs.Access.Literal
import Mathlib.Computability.Language
import Mathlib.Data.List.TakeWhile

/-!
# The language of a group pattern

What a group pattern means, without looking at how it is matched.

* `Piece` — a piece of a pattern, and `Piece.language` the texts that it stands for.
* `pieces?` — the reading of a pattern from left to right; there is none exactly if a bracket is
  not closed.
* `language` — the texts that are made of one text for each piece, in order.

`covers_iff_language` says that a pattern covers exactly the names in its language.  It goes by way
of the plain glob pattern: `Agrees` compares a reading with what became of the glob pattern, and
`agrees_globFrom` follows both from piece to piece.
-/

namespace Gatehouse.Access

open Gatehouse.Glob

/-! ## Pieces and their texts -/

/-- A piece of a group pattern. -/
inductive Piece where
  /-- One character, itself. -/
  | char (c : Char)
  /-- Any one character. -/
  | any
  /-- Any text, also the empty one. -/
  | run
  /-- One character of a set that is written like this. -/
  | oneOf (content : List Char)
  /-- One character that is not in a set that is written like this. -/
  | noneOf (content : List Char)
  deriving DecidableEq, Repr

/-- The characters of a set, read from left to right: two characters with a `-` between them are all
characters from one code point to the other, and any other character is itself. -/
def setOf : List Char → Set Char
  | lo :: '-' :: hi :: r => {c | lo.toNat ≤ c.toNat ∧ c.toNat ≤ hi.toNat} ∪ setOf r
  | c :: r => {c} ∪ setOf r
  | [] => ∅

/-- The texts of one character from a set. -/
def lettersOf (s : Set Char) : Language Char :=
  {t | ∃ c ∈ s, t = [c]}

/-- The texts that a piece stands for. -/
def Piece.language : Piece → Language Char
  | .char c => lettersOf {c}
  | .any => lettersOf Set.univ
  | .run => ⊤
  | .oneOf content => lettersOf (setOf content)
  | .noneOf content => lettersOf (setOf content)ᶜ

/-- The texts that pieces stand for, one after the other. -/
def language (ps : List Piece) : Language Char :=
  (ps.map Piece.language).prod

/-! ## Reading a pattern -/

/-- The content of a set that was opened, up to the next `]`, and the text after that.  The first
character belongs to the set, whatever it is. -/
def content? : List Char → Option (List Char × List Char)
  | [] => none
  | first :: r =>
    match r.dropWhile (· ≠ ']') with
    | _ :: rest => some (first :: r.takeWhile (· ≠ ']'), rest)
    | [] => none

/-- A set that was opened is closed by the first `]` after its first character, if there is one. -/
theorem content?_cases (s : List Char) :
    (∃ first body rest, ']' ∉ body ∧ s = first :: (body ++ ']' :: rest) ∧
        content? s = some (first :: body, rest)) ∨
      ']' ∉ s.tail ∧ content? s = none := by
  cases s with
  | nil => exact Or.inr ⟨by simp, rfl⟩
  | cons first r =>
    have hne : ∀ u : List Char, ']' ∉ u → ∀ c ∈ u, (decide (c ≠ ']')) = true := by
      intro u hu c hc
      simpa using ne_of_mem_of_not_mem hc hu
    by_cases hmem : ']' ∈ r
    · obtain ⟨body, rest, rfl, hbody⟩ := List.eq_append_cons_of_mem hmem
      refine Or.inl ⟨first, body, rest, hbody, rfl, ?_⟩
      simp only [content?]
      rw [List.dropWhile_append_of_pos (hne body hbody),
        List.takeWhile_append_of_pos (hne body hbody)]
      simp
    · refine Or.inr ⟨hmem, ?_⟩
      have hdrop : r.dropWhile (· ≠ ']') = [] := List.dropWhile_eq_nil_iff.2 (hne r hmem)
      simp only [content?]
      rw [hdrop]

theorem length_of_content? {s content rest : List Char} (h : content? s = some (content, rest)) :
    rest.length < s.length := by
  rcases content?_cases s with ⟨first, body, rest', -, rfl, hs⟩ | ⟨-, hs⟩
  · obtain ⟨-, rfl⟩ := Prod.mk.inj (Option.some.inj (hs.symm.trans h))
    simp
    omega
  · exact absurd (hs.symm.trans h) (by simp)

/-- The pieces of a pattern, unless it has a bracket that is not closed. -/
def pieces? : List Char → Option (List Piece)
  | [] => some []
  | '\\' :: c :: r => (Piece.char c :: ·) <$> pieces? r
  | '*' :: r => (Piece.run :: ·) <$> pieces? (r.dropWhile (· = '*'))
  | '?' :: r => (Piece.any :: ·) <$> pieces? r
  | '[' :: '!' :: r =>
    match _h : content? r with
    | some (content, rest) => (Piece.noneOf content :: ·) <$> pieces? rest
    | none => none
  | '[' :: r =>
    match _h : content? r with
    | some (content, rest) => (Piece.oneOf content :: ·) <$> pieces? rest
    | none => none
  | c :: r => (Piece.char c :: ·) <$> pieces? r
termination_by s => s.length
decreasing_by
  all_goals simp only [List.length_cons]
  all_goals first
    | omega
    | exact Nat.lt_succ_of_le (List.dropWhile_suffix _).length_le
    | exact Nat.lt_of_lt_of_le (length_of_content? _h) (by omega)

/-! ## Tokens and their texts -/

/-- The tokens accept exactly the texts of the language. -/
def Denotes (ts : List Token) (l : Language Char) : Prop :=
  ∀ s : List Char, accepts ts (plain s) = true ↔ s ∈ l

theorem mem_lettersOf_mul {s : Set Char} {l : Language Char} {t : List Char} :
    t ∈ lettersOf s * l ↔ ∃ c r, t = c :: r ∧ c ∈ s ∧ r ∈ l := by
  rw [Language.mem_mul]
  constructor
  · rintro ⟨_, ⟨c, hc, rfl⟩, r, hr, rfl⟩
    exact ⟨c, r, rfl, hc, hr⟩
  · rintro ⟨c, r, rfl, hc, hr⟩
    exact ⟨[c], ⟨c, hc, rfl⟩, r, hr, rfl⟩

theorem denotes_nil : Denotes [] 1 := by
  intro s
  rw [accepts_nil, Language.mem_one]
  cases s <;> simp [plain]

/-- A token that takes the characters of a set stands for one of them. -/
theorem Denotes.letter {t : Token} {ts : List Token} {s : Set Char} {l : Language Char}
    (h : Denotes ts l) (hstar : t ≠ .star) (hdeep : t ≠ .deep)
    (ht : ∀ c, t.takes ⟨c, false⟩ = true ↔ c ∈ s) : Denotes (t :: ts) (lettersOf s * l) := by
  intro text
  rw [mem_lettersOf_mul]
  cases text with
  | nil =>
    rw [plain, List.map_nil, accepts_cons_nil hstar hdeep]
    simp
  | cons c r =>
    rw [plain, List.map_cons, accepts_cons_cons hstar hdeep, ← plain, Bool.and_eq_true, ht, h]
    constructor
    · rintro ⟨hc, hr⟩
      exact ⟨c, r, rfl, hc, hr⟩
    · rintro ⟨c', r', heq, hc, hr⟩
      obtain ⟨rfl, rfl⟩ := List.cons.inj heq
      exact ⟨hc, hr⟩

/-- A star stands for any text. -/
theorem Denotes.run {ts : List Token} {l : Language Char} (h : Denotes ts l) :
    Denotes (.star :: ts) (⊤ * l) := by
  intro text
  rw [Language.mem_mul]
  induction text with
  | nil =>
    rw [plain, List.map_nil, accepts_star_nil, ← List.map_nil, ← plain, h]
    constructor
    · intro hnil
      exact ⟨[], trivial, [], hnil, rfl⟩
    · rintro ⟨a, -, b, hb, hab⟩
      obtain ⟨rfl, rfl⟩ := List.append_eq_nil_iff.1 hab
      exact hb
  | cons c r ih =>
    have hplain : plain (c :: r) = ⟨c, false⟩ :: plain r := rfl
    rw [hplain, accepts_star_cons, ← hplain, Bool.or_eq_true, h, Bool.not_false, Bool.true_and, ih]
    constructor
    · rintro (hall | ⟨a, -, b, hb, rfl⟩)
      · exact ⟨[], trivial, c :: r, hall, rfl⟩
      · exact ⟨c :: a, trivial, b, hb, rfl⟩
    · rintro ⟨a, -, b, hb, hab⟩
      cases a with
      | nil => exact Or.inl (hab ▸ hb)
      | cons d a =>
        obtain ⟨-, rfl⟩ := List.cons.inj hab
        exact Or.inr ⟨a, trivial, b, hb, rfl⟩

theorem takes_char (c d : Char) :
    (Token.char c).takes ⟨d, false⟩ = true ↔ d ∈ ({c} : Set Char) := by
  rw [Token.takes, beq_iff_eq, Set.mem_singleton_iff, eq_comm]

/-- The members of a bracket cover exactly the characters of the set. -/
theorem any_covers_iff (content : List Char) (c : Char) :
    (Member.list content).any (·.covers c) = true ↔ c ∈ setOf content := by
  fun_induction Member.list content with
  | case1 lo hi r ih =>
    rw [List.any_cons, Bool.or_eq_true, ih, setOf]
    simp [Member.covers, Char.le_def, UInt32.le_iff_toNat_le]
  | case2 d r hrange ih =>
    rw [List.any_cons, Bool.or_eq_true, ih, setOf]
    · simp [Member.covers]
    · exact hrange
  | case3 => simp [setOf]

/-! ## The glob pattern, piece by piece -/

variable {s rest : List Char} {position : Nat} {before : Option Char}

theorem parseFrom_any :
    Token.parseFrom position before ('?' :: s) =
      (Token.any :: ·) <$> Token.parseFrom (position + 1) (some '?') s := by
  rw [Token.parseFrom]

/-- A single star is never one of the wildcards that can be wrong. -/
theorem parseFrom_star (h : s.head? ≠ some '*') :
    Token.parseFrom position before ('*' :: s) =
      (Token.star :: ·) <$> Token.parseFrom (position + 1) (some '*') s := by
  rw [Token.parseFrom]
  · rintro r rfl
    exact h rfl
  · rintro r rfl
    exact h rfl

theorem parseFrom_bracket {t : Token} (h : bracket s = some (t, rest)) :
    Token.parseFrom position before ('[' :: s) =
      (t :: ·) <$> Token.parseFrom (position + (1 + s.length - rest.length)) (some ']') rest := by
  rw [Token.parseFrom]
  split
  · rename_i hnone
    exact absurd (hnone.symm.trans h) (by simp)
  · rename_i t' rest' hsome
    obtain ⟨rfl, rfl⟩ := Prod.mk.inj (Option.some.inj (hsome.symm.trans h))
    rfl

theorem parseFrom_openBracket (h : bracket s = none) :
    Token.parseFrom position before ('[' :: s) = .error ⟨position, .openBracket⟩ := by
  rw [Token.parseFrom]
  split
  · rfl
  · rename_i hsome
    exact absurd (hsome.symm.trans h) (by simp)

theorem bracketBody_eq {first : Char} {body : List Char} (h : ']' ∉ body) :
    bracketBody (first :: (body ++ ']' :: rest)) = some (first :: body, rest) := by
  have huntil : untilBracket (body ++ ']' :: rest) = some (body, rest) := by
    induction body with
    | nil => simp [untilBracket]
    | cons c body ih =>
      rw [List.mem_cons, not_or] at h
      obtain ⟨hc, hbody⟩ := h
      simp [untilBracket, Ne.symm hc, ih hbody]
  simp [bracketBody, huntil]

theorem bracketBody_eq_none (h : ']' ∉ s.tail) : bracketBody s = none := by
  cases s with
  | nil => rfl
  | cons first r =>
    rw [List.tail_cons] at h
    have huntil : untilBracket r = none := by
      induction r with
      | nil => rfl
      | cons c r ih =>
        rw [List.mem_cons, not_or] at h
        obtain ⟨hc, hr⟩ := h
        simp [untilBracket, Ne.symm hc, ih hr]
    simp [bracketBody, huntil]

/-- The content of a set goes into the glob pattern as it is, with the `]` that closes it. -/
theorem globFrom_inBracket {body : List Char} (h : ']' ∉ body) :
    globFrom .inBracket (body ++ ']' :: rest) = body ++ ']' :: globFrom .outside rest := by
  induction body with
  | nil => simp [globFrom]
  | cons c body ih =>
    rw [List.mem_cons, not_or] at h
    obtain ⟨hc, hbody⟩ := h
    simp [globFrom, Ne.symm hc, ih hbody]

theorem globFrom_inBracket_of_notMem (h : ']' ∉ s) : globFrom .inBracket s = s := by
  induction s with
  | nil => rfl
  | cons c s ih =>
    rw [List.mem_cons, not_or] at h
    obtain ⟨hc, hs⟩ := h
    simp [globFrom, Ne.symm hc, ih hs]

/-- A set that is closed goes into the glob pattern as it is. -/
theorem globFrom_bracketFirst {first : Char} {body : List Char} (h : ']' ∉ body) :
    globFrom .bracketFirst (first :: (body ++ ']' :: rest)) =
      first :: (body ++ ']' :: globFrom .outside rest) := by
  rw [globFrom, globFrom_inBracket h]

/-- A set that is not closed takes the rest of the pattern into the glob pattern. -/
theorem globFrom_bracketFirst_of_notMem (h : ']' ∉ s.tail) : globFrom .bracketFirst s = s := by
  cases s with
  | nil => rfl
  | cons first r => exact congrArg (first :: ·) (globFrom_inBracket_of_notMem h)

theorem globFrom_bracketStart (h : ∀ r, s = '!' :: r → False) :
    globFrom .bracketStart s = globFrom .bracketFirst s := by
  cases s with
  | nil => rfl
  | cons first r =>
    have hne : first ≠ '!' := by rintro rfl; exact h r rfl
    rw [globFrom, globFrom, if_neg hne]

theorem globFrom_openBracket (s : List Char) :
    globFrom .outside ('[' :: s) = '[' :: globFrom .bracketStart s := by
  simp [globFrom]

theorem bracket_of_ne (h : ∀ r, s = '!' :: r → False) :
    bracket s = (bracketBody s).map fun (body, rest) => (.within (Member.list body), rest) := by
  rw [bracket]
  exact h

/-- The stars after a star do not go into the glob pattern. -/
theorem globFrom_afterStar (s : List Char) :
    globFrom .afterStar s = globFrom .outside (s.dropWhile (· = '*')) := by
  induction s with
  | nil => rfl
  | cons c s ih =>
    by_cases hc : c = '*'
    · simp [globFrom, hc, ih]
    · simp [globFrom, hc]

theorem head_globFrom (h : s.head? ≠ some '*') : (globFrom .outside s).head? ≠ some '*' := by
  cases s with
  | nil => simp [globFrom]
  | cons c r =>
    have hc : c ≠ '*' := by simpa using h
    rw [globFrom, if_neg hc]
    split
    · cases r with
      | nil => simp [globFrom]
      | cons d r =>
        rw [globFrom, literalGlob]
        split
        · simp
        · rename_i hd
          simp only [List.mem_cons, not_or] at hd
          simpa using hd.1
    split
    · simp
    · simpa using hc

/-! ## Both readings agree -/

/-- The reading of a pattern and what became of its glob pattern: either a bracket is not closed,
or the tokens stand for the language of the pieces. -/
inductive Agrees : Option (List Piece) → Except PatternError (List Token) → Prop where
  /-- A bracket is not closed. -/
  | unclosed (position : Nat) : Agrees none (.error ⟨position, .openBracket⟩)
  /-- The pattern is well formed. -/
  | denotes {ps : List Piece} {ts : List Token} (h : Denotes ts (language ps)) :
      Agrees (some ps) (.ok ts)

/-- A token goes in front of tokens as its piece goes in front of pieces. -/
theorem Agrees.cons {read : Option (List Piece)} {parsed : Except PatternError (List Token)}
    (h : Agrees read parsed) {p : Piece} {t : Token}
    (ht : ∀ ts l, Denotes ts l → Denotes (t :: ts) (p.language * l)) :
    Agrees ((p :: ·) <$> read) ((t :: ·) <$> parsed) := by
  cases h with
  | unclosed position => exact .unclosed position
  | denotes h =>
    refine .denotes ?_
    rw [language, List.map_cons, List.prod_cons]
    exact ht _ _ h

theorem Agrees.letter {read : Option (List Piece)} {parsed : Except PatternError (List Token)}
    (h : Agrees read parsed) {p : Piece} {t : Token} {s : Set Char} (hp : p.language = lettersOf s)
    (hstar : t ≠ .star) (hdeep : t ≠ .deep) (ht : ∀ c, t.takes ⟨c, false⟩ = true ↔ c ∈ s) :
    Agrees ((p :: ·) <$> read) ((t :: ·) <$> parsed) := by
  refine h.cons fun ts l hts => ?_
  rw [hp]
  exact hts.letter hstar hdeep ht

/-- A character that a backslash makes literal is read back as itself. -/
theorem agrees_literalGlob {c : Char} {read : Option (List Piece)} {g : List Char}
    (h : ∀ position before, Agrees read (Token.parseFrom position before g)) (position : Nat)
    (before : Option Char) :
    Agrees ((Piece.char c :: ·) <$> read)
      (Token.parseFrom position before (literalGlob c ++ g)) := by
  unfold literalGlob
  split
  · rename_i hc
    -- The brackets around it make the character a set with one member.
    have hbracket : bracket (c :: ([] ++ ']' :: g)) = some (.within [.single c], g) := by
      have hne : c ≠ '!' := by rintro rfl; exact absurd hc (by decide)
      rw [bracket, bracketBody_eq List.not_mem_nil]
      · rfl
      · rintro r heq
        exact hne (List.cons.inj heq).1
    change Agrees _ (Token.parseFrom position before ('[' :: (c :: ([] ++ ']' :: g))))
    rw [parseFrom_bracket hbracket]
    refine (h _ _).letter rfl (by simp) (by simp) fun d => ?_
    simp [Token.takes, Member.covers]
  · rename_i hc
    simp only [List.mem_cons, List.not_mem_nil, or_false, not_or] at hc
    obtain ⟨hstar, hany, hbracket, -⟩ := hc
    rw [List.singleton_append, parseFrom_char hany hstar hbracket]
    exact (h _ _).letter rfl (by simp) (by simp) (takes_char c)

/-- Whatever the pattern, its reading and its glob pattern agree. -/
theorem agrees_globFrom (s : List Char) (position : Nat) (before : Option Char) :
    Agrees (pieces? s) (Token.parseFrom position before (globFrom .outside s)) := by
  fun_induction pieces? s generalizing position before with
  | case1 =>
    rw [globFrom, Token.parseFrom]
    · exact .denotes denotes_nil
    · simp
  | case2 c r ih =>
    have hglob : globFrom .outside ('\\' :: c :: r) = literalGlob c ++ globFrom .outside r := by
      simp [globFrom]
    rw [hglob]
    exact agrees_literalGlob ih position before
  | case3 r ih =>
    have hglob : globFrom .outside ('*' :: r) =
        '*' :: globFrom .outside (r.dropWhile (· = '*')) := by
      simp [globFrom, globFrom_afterStar]
    have hhead : (r.dropWhile (· = '*')).head? ≠ some '*' := by
      intro hhead
      have hnot := List.head?_dropWhile_not (fun c : Char => decide (c = '*')) r
      rw [hhead] at hnot
      simp at hnot
    rw [hglob, parseFrom_star (head_globFrom hhead)]
    exact (ih _ _).cons fun ts l hts => hts.run
  | case4 r ih =>
    rw [globFrom, if_neg (by decide), if_neg (by decide), if_neg (by decide), parseFrom_any]
    exact (ih _ _).letter rfl (by simp) (by simp) fun c => by simp [Token.takes]
  | case5 r content rest hcontent ih =>
    obtain ⟨first, body, rest', hbody, rfl, hsome⟩ | ⟨-, hnone⟩ := content?_cases r
    · obtain ⟨rfl, rfl⟩ := Prod.mk.inj (Option.some.inj (hsome.symm.trans hcontent))
      have hbracket : bracket ('!' :: first :: (body ++ ']' :: globFrom .outside rest')) =
          some (.except (Member.list (first :: body)), globFrom .outside rest') := by
        rw [bracket, bracketBody_eq hbody]
        rfl
      rw [globFrom_openBracket, globFrom, if_pos rfl, globFrom_bracketFirst hbody,
        parseFrom_bracket hbracket]
      refine (ih _ _).letter rfl (by simp) (by simp) fun c => ?_
      rw [Set.mem_compl_iff, ← any_covers_iff]
      simp [Token.takes]
    · exact absurd (hnone.symm.trans hcontent) (by simp)
  | case6 r hcontent =>
    obtain ⟨_, _, _, -, -, hsome⟩ | ⟨hopen, -⟩ := content?_cases r
    · exact absurd (hsome.symm.trans hcontent) (by simp)
    · have hbracket : bracket ('!' :: r) = none := by
        rw [bracket, bracketBody_eq_none hopen]
        rfl
      rw [globFrom_openBracket, globFrom, if_pos rfl, globFrom_bracketFirst_of_notMem hopen,
        parseFrom_openBracket hbracket]
      exact .unclosed position
  | case7 r hfirst content rest hcontent ih =>
    obtain ⟨first, body, rest', hbody, rfl, hsome⟩ | ⟨-, hnone⟩ := content?_cases r
    · obtain ⟨rfl, rfl⟩ := Prod.mk.inj (Option.some.inj (hsome.symm.trans hcontent))
      have hbracket : bracket (first :: (body ++ ']' :: globFrom .outside rest')) =
          some (.within (Member.list (first :: body)), globFrom .outside rest') := by
        rw [bracket_of_ne, bracketBody_eq hbody]
        · rfl
        · rintro r heq
          exact hfirst (body ++ ']' :: rest') (by rw [(List.cons.inj heq).1])
      rw [globFrom_openBracket, globFrom_bracketStart hfirst, globFrom_bracketFirst hbody,
        parseFrom_bracket hbracket]
      refine (ih _ _).letter rfl (by simp) (by simp) fun c => ?_
      rw [← any_covers_iff]
      simp [Token.takes]
    · exact absurd (hnone.symm.trans hcontent) (by simp)
  | case8 r hfirst hcontent =>
    obtain ⟨_, _, _, -, -, hsome⟩ | ⟨hopen, -⟩ := content?_cases r
    · exact absurd (hsome.symm.trans hcontent) (by simp)
    · have hbracket : bracket r = none := by
        rw [bracket_of_ne hfirst, bracketBody_eq_none hopen]
        rfl
      rw [globFrom_openBracket, globFrom_bracketStart hfirst,
        globFrom_bracketFirst_of_notMem hopen, parseFrom_openBracket hbracket]
      exact .unclosed position
  | case9 c r hescape hstar hany _ hbracket ih =>
    have hparse : Token.parseFrom position before (globFrom .outside (c :: r)) =
        (Token.char c :: ·) <$> Token.parseFrom (position + 1) (some c) (globFrom .outside r) := by
      by_cases hc : c = '\\'
      · -- A backslash that is the last character stands for itself.
        subst hc
        cases r with
        | nil => exact parseFrom_char (by decide) (by decide) (by decide)
        | cons d r => exact (hescape d r rfl rfl).elim
      · rw [globFrom, if_neg hc, if_neg hstar, if_neg hbracket]
        exact parseFrom_char hany hstar hbracket
    rw [hparse]
    exact (ih _ _).letter rfl (by simp) (by simp) (takes_char c)

/-! ## Patterns that cover their own text -/

/-- A pattern without brackets and backslashes is one of the texts that it stands for: each piece
stands for the characters that it is written with. -/
theorem exists_pieces_mem_language {s : List Char} (h : ∀ c ∈ s, c ≠ '[' ∧ c ≠ '\\') :
    ∃ ps, pieces? s = some ps ∧ s ∈ language ps := by
  have hcons : ∀ {p : Piece} {ps : List Piece} {t u : List Char}, t ∈ p.language →
      u ∈ language ps → t ++ u ∈ language (p :: ps) := by
    intro p ps t u ht hu
    rw [language, List.map_cons, List.prod_cons]
    exact Language.append_mem_mul ht hu
  fun_induction pieces? s with
  | case1 => exact ⟨[], rfl, Language.nil_mem_one⟩
  | case2 c r ih => exact absurd rfl (h '\\' List.mem_cons_self).2
  | case3 r ih =>
    have hrest : ∀ c ∈ r.dropWhile (· = '*'), c ≠ '[' ∧ c ≠ '\\' := by
      intro c hc
      exact h c (List.mem_cons_of_mem _ ((List.dropWhile_suffix _).subset hc))
    obtain ⟨ps, hps, hmem⟩ := ih hrest
    refine ⟨.run :: ps, by rw [hps]; rfl, ?_⟩
    have hsplit : '*' :: r = ('*' :: r.takeWhile (· = '*')) ++ r.dropWhile (· = '*') := by
      rw [List.cons_append, List.takeWhile_append_dropWhile]
    rw [hsplit]
    exact hcons trivial hmem
  | case4 r ih =>
    obtain ⟨ps, hps, hmem⟩ := ih fun c hc => h c (List.mem_cons_of_mem _ hc)
    refine ⟨.any :: ps, by rw [hps]; rfl, ?_⟩
    exact hcons (t := ['?']) ⟨'?', trivial, rfl⟩ hmem
  | case5 r content rest hcontent ih => exact absurd rfl (h '[' List.mem_cons_self).1
  | case6 r hcontent => exact absurd rfl (h '[' List.mem_cons_self).1
  | case7 r hfirst content rest hcontent ih => exact absurd rfl (h '[' List.mem_cons_self).1
  | case8 r hfirst hcontent => exact absurd rfl (h '[' List.mem_cons_self).1
  | case9 c r hescape hstar hany _ hbracket ih =>
    obtain ⟨ps, hps, hmem⟩ := ih fun d hd => h d (List.mem_cons_of_mem _ hd)
    refine ⟨.char c :: ps, by rw [hps]; rfl, ?_⟩
    exact hcons (t := [c]) ⟨c, rfl, rfl⟩ hmem

/-- A pattern without brackets and backslashes covers its own text, whatever stars are in it. -/
theorem covers_self {s : String} (h : ∀ c ∈ s.toList, c ≠ '[' ∧ c ≠ '\\') :
    (GroupPattern.mk s).covers s = true := by
  obtain ⟨ps, hps, hmem⟩ := exists_pieces_mem_language h
  have hagrees := agrees_globFrom s.toList 0 none
  change Agrees _ (Token.parse (globOf s.toList)) at hagrees
  unfold GroupPattern.covers GroupPattern.tokens?
  rw [hps] at hagrees
  generalize Token.parse (globOf s.toList) = parsed at hagrees
  cases hagrees with
  | denotes hdenotes => exact (hdenotes s.toList).2 hmem

/-- **Group patterns denote shell globs.**  A pattern is malformed exactly if its reading meets a
bracket that is not closed, and then it covers no name; otherwise it covers exactly the names in the
language of its pieces.  Its glob pattern never has a wildcard that is wrong. -/
theorem covers_iff_language (p : GroupPattern) :
    (p.isValid = false ↔ pieces? p.text.toList = none) ∧
      (pieces? p.text.toList = none → ∀ name, p.covers name = false) ∧
      (∀ ps, pieces? p.text.toList = some ps →
        ∀ name, p.covers name = true ↔ name.toList ∈ language ps) ∧
      ∀ e, Token.parse (globOf p.text.toList) = .error e → e.fault = .openBracket := by
  have hagrees := agrees_globFrom p.text.toList 0 none
  change Agrees _ (Token.parse (globOf p.text.toList)) at hagrees
  unfold GroupPattern.isValid GroupPattern.covers GroupPattern.tokens?
  generalize pieces? p.text.toList = read at hagrees
  generalize Token.parse (globOf p.text.toList) = parsed at hagrees
  cases hagrees with
  | unclosed position =>
    refine ⟨by simp [Except.toOption], fun _ _ => rfl, by simp, ?_⟩
    intro e he
    obtain rfl := Except.error.inj he
    rfl
  | denotes h =>
    refine ⟨by simp [Except.toOption], by simp, ?_, by simp⟩
    intro ps hps name
    obtain rfl := Option.some.inj hps
    exact h name.toList

/-! A backslash is not special in a set, nor is a star; a run of stars is one. -/

example : pieces? "\\*[!\\a-c]**".toList =
    some [.char '*', .noneOf ['\\', 'a', '-', 'c'], .run] := by
  cbv

end Gatehouse.Access
