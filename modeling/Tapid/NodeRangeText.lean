/-
Reading written ranges.

A text is the writing of a range when the parts between `||` have the words of
its clauses; operators are attached to their version or stand alone.  Every
such text that is accepted parses to the range it writes, so the comparison of
the two meanings carries over to texts.

* `parseRequirementBase_spells`, `parseTokens_spells`, `parseClause_spells` —
  what versions, intersections and clauses are read as;
* `fromStr_of_spells` — what a written range parses to;
* `matchesVersion_eq_satisfies_iff` — exactly when the parsed range means what
  its desugaring means.
-/
import Tapid.NodeRange

namespace Tapid

open Text

namespace NodeRange

/-! ### Written ranges -/

/-- Spellings of an operator. -/
def operatorTexts : RequirementOperator → List (List Char)
  | .exact => [[], ['=']]
  | .caret => [['^']]
  | .tilde => [['~']]
  | .greater => [['>']]
  | .greaterEqual => [['>', '=']]
  | .less => [['<']]
  | .lessEqual => [['<', '=']]

/-- Spelling of a version; full versions may carry build metadata. -/
def Base.SpellsBare : Base → List Char → Prop
  | .major M, w => w = numeral M
  | .minor M m, w => w = numeral M ++ '.' :: numeral m
  | .full v, w => w = v.chars ∨ ∃ build, isBuildMetadata build = true ∧ w = v.chars ++ '+' :: build

/-- Spelling of a version with or without leading `v`. -/
def Base.Spells (b : Base) (w : List Char) : Prop :=
  b.SpellsBare w ∨ ∃ bare, w = 'v' :: bare ∧ b.SpellsBare bare

/-- Words of a comparator: the operator is attached or stands alone. -/
def Comparator.Spells (c : Comparator) (ws : List (List Char)) : Prop :=
  ∃ o ∈ operatorTexts c.op, ∃ w, c.base.Spells w ∧ (ws = [o ++ w] ∨ ws = [o, w])

/-- Words of an intersection. -/
def SpellsAll : List Comparator → List (List Char) → Prop
  | [], ws => ws = []
  | c :: cs, ws => ∃ first rest, ws = first ++ rest ∧ c.Spells first ∧ SpellsAll cs rest

/-- Words of a clause. -/
def Clause.Spells : Clause → List (List Char) → Prop
  | .hyphen lower upper, ws => ∃ l u, ws = [l, ['-'], u] ∧ lower.Spells l ∧ upper.Spells u
  | .comparators cs, ws => cs ≠ [] ∧ SpellsAll cs ws

/-- The text is the range: the parts between `||` have the words of the clauses. -/
def Spells (R : List Clause) (s : String) : Prop :=
  List.Forall₂ (fun C part => Clause.Spells C (splitWhitespace part)) R
    (splitDouble '|' (trim s.toList))

end NodeRange

/-! ### Reading written versions -/

/-- Characters of the numeric start of a version. -/
def isVersionChar (c : Char) : Bool := c.isDigit || c == '.'

theorem dropWhile_append_of_all {p : Char → Bool} {a : List Char} (h : ∀ c ∈ a, p c = true)
    (b : List Char) : (a ++ b).dropWhile p = b.dropWhile p := by
  induction a with
  | nil => rfl
  | cons c cs ih =>
    rw [List.cons_append, List.dropWhile_cons_of_pos (h c List.mem_cons_self),
      ih fun d hd => h d (List.mem_cons_of_mem _ hd)]

theorem isWildcardPart_eq {part : List Char} (h : isWildcardPart part = true) :
    part = ['x'] ∨ part = ['X'] ∨ part = ['*'] := by
  have hlower : toAsciiLower part = ['x'] ∨ toAsciiLower part = ['*'] := by
    simpa [isWildcardPart] using h
  obtain ⟨c, rfl⟩ : ∃ c, part = [c] := by
    have hlen : part.length = 1 := by
      rcases hlower with h | h <;> simpa [toAsciiLower] using congrArg List.length h
    exact List.length_eq_one_iff.mp hlen
  have hc : c.toLower = 'x' ∨ c.toLower = '*' := by simpa [toAsciiLower] using hlower
  have hlt : c.toNat < 128 := by
    by_contra hge
    have hself : c.toLower = c := by
      refine dif_neg ?_
      rintro ⟨_, hz⟩
      exact hge (lt_of_le_of_lt (show c.toNat ≤ 'Z'.toNat from hz) (by decide))
    rw [hself] at hc
    rcases hc with rfl | rfl <;> exact hge (by decide)
  have hcases := of_ascii (P := fun c => c.toLower = 'x' ∨ c.toLower = '*' →
    c = 'x' ∨ c = 'X' ∨ c = '*') (by decide) hlt hc
  simpa using hcases

/-- A wildcard follows the numeric start of the version text. -/
theorem head_of_wildcard {parts : List (List Char)} {k : Nat}
    (hk : parts.findIdx? isWildcardPart = some k)
    (hnum : (parts.take k).all isNumeral = true) :
    ∃ c ∈ ((['.'].intercalate parts).dropWhile isVersionChar).head?, isWildcardPart [c] = true := by
  induction parts generalizing k with
  | nil => simp at hk
  | cons part parts ih =>
    rw [List.findIdx?_cons] at hk
    split_ifs at hk with hpart
    · have hstart : ∃ rest, ['.'].intercalate (part :: parts) = part ++ rest := by
        cases parts with
        | nil => exact ⟨[], by simp [List.intercalate]⟩
        | cons q qs => exact ⟨_, by rw [List.intercalate_cons_of_ne_nil (by simp), List.append_assoc]⟩
      obtain ⟨rest, hrest⟩ := hstart
      rw [hrest]
      rcases isWildcardPart_eq hpart with rfl | rfl | rfl
      · exact ⟨'x', rfl, by decide⟩
      · exact ⟨'X', rfl, by decide⟩
      · exact ⟨'*', rfl, by decide⟩
    · obtain ⟨j, hj, rfl⟩ := Option.map_eq_some_iff.mp hk
      rw [List.take_succ_cons, List.all_cons, Bool.and_eq_true] at hnum
      have hne : parts ≠ [] := by
        rintro rfl
        simp at hj
      have hdig : ∀ c ∈ part ++ ['.'], isVersionChar c = true := by
        intro c hc
        rcases List.mem_append.mp hc with hc | hc
        · have hpart : part.all Char.isDigit = true := by
            have := hnum.1
            cases part with
            | nil => rfl
            | cons d ds => exact (Bool.and_eq_true_iff.mp this).1
          simp [isVersionChar, List.all_eq_true.mp hpart c hc]
        · simp [isVersionChar, List.mem_singleton.mp hc]
      rw [List.intercalate_cons_of_ne_nil hne, dropWhile_append_of_all hdig]
      exact ih hj hnum.2

/-- A text whose numeric start is not followed by a wildcard is no wildcard range. -/
theorem parseXRange_eq_none {t value : List Char} {op : RequirementOperator}
    (ht : requirementToken t = (op, value))
    (hnext : ∀ c ∈ ((stripV value).dropWhile isVersionChar).head?, isWildcardPart [c] = false) :
    parseXRange t = none := by
  rw [Option.eq_none_iff_forall_not_mem]
  intro l hl
  simp only [parseXRange, ht, Option.bind_eq_bind, Option.mem_def, Option.bind_eq_some_iff] at hl
  obtain ⟨version, hversion, k, hk, _, _, u, hguard, _⟩ := hl
  have hnum : ((version.splitOn '.').take k).all isNumeral = true := by
    by_contra hne
    simp [guard, hne] at hguard
  obtain ⟨c, hc, hwild⟩ := head_of_wildcard hk hnum
  rw [List.intercalate_splitOn] at hc
  -- the version text is a prefix of the value
  obtain ⟨rest, hrest⟩ : ∃ rest, stripV value = version ++ rest := by
    rw [dropBuild] at hversion
    split at hversion
    · rename_i a b hab
      split_ifs at hversion
      rw [← Option.some_inj.mp hversion]
      exact ⟨_, (eq_append_of_splitOnce hab).1⟩
    · exact ⟨[], by simpa using hversion⟩
  have hmem : c ∈ ((stripV value).dropWhile isVersionChar).head? := by
    rw [hrest, List.dropWhile_append]
    have hne : (version.dropWhile isVersionChar) ≠ [] := by
      intro hnil
      rw [hnil] at hc
      simp at hc
    rw [if_neg (by simpa using hne), List.head?_append, Option.mem_def.mp hc]
    rfl
  rw [hnext c hmem] at hwild
  simp at hwild

namespace NodeRange

/-- Operator characters. -/
def isOperatorChar (c : Char) : Bool := ['=', '>', '<', '^', '~'].elem c

theorem isOperatorChar_cases {c : Char} (h : isOperatorChar c = true) :
    c = '=' ∨ c = '>' ∨ c = '<' ∨ c = '^' ∨ c = '~' := by
  rw [isOperatorChar, List.elem_iff] at h
  simpa using h

/-- Operators are neither digits nor white space. -/
theorem isOperatorChar_eq_false {c : Char}
    (h : (c.isDigit = true ∨ c = 'v') ∨ isWhitespace c = true) : isOperatorChar c = false := by
  by_contra hop
  rcases isOperatorChar_cases (Bool.not_eq_false _ ▸ hop) with rfl | rfl | rfl | rfl | rfl <;>
    exact absurd h (by decide)

theorem requirementToken_append {op : RequirementOperator} {o value : List Char}
    (ho : o ∈ operatorTexts op) (hvalue : ∀ c ∈ value.head?, isOperatorChar c = false) :
    requirementToken (o ++ value) = (op, value) := by
  have hne : ∀ c ∈ value.head?, '>' ≠ c ∧ '<' ≠ c ∧ '^' ≠ c ∧ '~' ≠ c ∧ '=' ≠ c := by
    intro c hc
    have := hvalue c hc
    refine ⟨?_, ?_, ?_, ?_, ?_⟩ <;> rintro rfl <;> exact absurd this (by decide)
  cases value with
  | nil =>
    cases op <;> simp only [operatorTexts, List.mem_cons, List.not_mem_nil, or_false] at ho <;>
      rcases ho with rfl | rfl <;> rfl
  | cons c cs =>
    obtain ⟨h1, h2, h3, h4, h5⟩ := hne c rfl
    cases op <;> simp only [operatorTexts, List.mem_cons, List.not_mem_nil, or_false] at ho <;>
      rcases ho with rfl | rfl <;>
      simp [requirementToken, operatorPrefixes, stripPrefix, h1, h2, h3, h4, h5]

/-! ### Words of a written range -/

/-- A numeral begins with a digit. -/
theorem exists_numeral_eq_cons (n : Nat) : ∃ c cs, numeral n = c :: cs ∧ c.isDigit = true := by
  cases hn : numeral n with
  | nil => exact absurd hn (numeral_ne_nil n)
  | cons c cs => exact ⟨c, cs, rfl, digit_mem_numeral (by rw [hn]; exact List.mem_cons_self)⟩

theorem isVersionChar_of_mem_numeral {n : Nat} {c : Char} (h : c ∈ numeral n) :
    isVersionChar c = true := by
  simp [isVersionChar, digit_mem_numeral h]

theorem coreChars_eq (v : PackageVersion) :
    v.coreChars = numeral v.major ++ '.' :: (numeral v.minor ++ '.' :: numeral v.patch) := by
  simp [PackageVersion.coreChars, List.intercalate]

namespace Base

/-- A written version begins with digits and dots, then ends or goes on with a
prerelease or build metadata. -/
theorem SpellsBare.shape {b : Base} {w : List Char} (h : b.SpellsBare w) :
    ∃ lead tail, w = lead ++ tail ∧ (∃ c cs, lead = c :: cs ∧ c.isDigit = true) ∧
      (∀ c ∈ lead, isVersionChar c = true) ∧ ∀ c ∈ tail.head?, c = '-' ∨ c = '+' := by
  cases b with
  | major M =>
    obtain rfl : w = numeral M := h
    exact ⟨numeral M, [], by simp, exists_numeral_eq_cons _,
      fun c hc => isVersionChar_of_mem_numeral hc, by simp⟩
  | minor M m =>
    obtain rfl : w = numeral M ++ '.' :: numeral m := h
    obtain ⟨c, cs, hcs, hc⟩ := exists_numeral_eq_cons M
    refine ⟨numeral M ++ '.' :: numeral m, [], by simp, ⟨c, cs ++ '.' :: numeral m, ?_, hc⟩, ?_,
      by simp⟩
    · rw [hcs]
      rfl
    intro d hd
    rcases List.mem_append.mp hd with hd | hd
    · exact isVersionChar_of_mem_numeral hd
    · rcases List.mem_cons.mp hd with rfl | hd
      · decide
      · exact isVersionChar_of_mem_numeral hd
  | full v =>
    obtain ⟨c, cs, hcs, hc⟩ := exists_numeral_eq_cons v.major
    obtain ⟨build, rfl, hbuild⟩ : ∃ build, w = v.chars ++ build ∧ ∀ c ∈ build.head?, c = '+' := by
      rcases h with rfl | ⟨build, _, rfl⟩
      · exact ⟨[], by simp, by simp⟩
      · exact ⟨'+' :: build, rfl, by simp⟩
    refine ⟨v.coreChars, (if v.pre = [] then [] else '-' :: PackageVersion.preChars v.pre) ++ build,
      by rw [PackageVersion.chars, List.append_assoc], ?_, ?_, ?_⟩
    · rw [coreChars_eq, hcs]
      exact ⟨c, _, rfl, hc⟩
    · intro d hd
      rcases PackageVersion.mem_coreChars hd with hd | rfl
      · simp [isVersionChar, hd]
      · decide
    · intro d hd
      by_cases hp : v.pre = []
      · rw [if_pos hp, List.nil_append] at hd
        exact Or.inr (hbuild d hd)
      · rw [if_neg hp] at hd
        left
        simpa using hd.symm

theorem stripV_bare {b : Base} {w : List Char} (h : b.SpellsBare w) (rest : List Char) :
    stripV (w ++ rest) = w ++ rest := by
  obtain ⟨lead, tail, rfl, ⟨c, cs, rfl, hc⟩, _, _⟩ := h.shape
  have hne : 'v' ≠ c := by
    rintro rfl
    exact absurd hc (by decide)
  simp [stripV, stripPrefix, hne]

/-- A leading `v` is dropped. -/
theorem exists_bare {b : Base} {w : List Char} (h : b.Spells w) :
    ∃ bare, b.SpellsBare bare ∧ ∀ rest, stripV (w ++ rest) = bare ++ rest := by
  rcases h with h | ⟨bare, rfl, h⟩
  · exact ⟨w, h, stripV_bare h⟩
  · exact ⟨bare, h, fun rest => by simp [stripV, stripPrefix]⟩

/-- First character of a written version. -/
theorem head_of_spells {b : Base} {w : List Char} (h : b.Spells w) :
    ∃ c cs, w = c :: cs ∧ (c.isDigit = true ∨ c = 'v') := by
  rcases h with h | ⟨bare, rfl, _⟩
  · obtain ⟨lead, tail, rfl, ⟨c, cs, rfl, hc⟩, _, _⟩ := h.shape
    exact ⟨c, cs ++ tail, rfl, Or.inl hc⟩
  · exact ⟨'v', bare, rfl, Or.inr rfl⟩

end Base

/-- Build metadata is read and kept apart. -/
theorem semverParse_build (v : PackageVersion) {build : List Char}
    (hbuild : isBuildMetadata build = true) :
    semverParse (v.chars ++ '+' :: build) = some (v, some build) := by
  have hplus : '+' ∉ v.chars := PackageVersion.not_mem_chars (by decide) (by decide)
  have h := PackageVersion.semverParse_chars v
  rw [semverParse, splitOptional_of_not_mem hplus] at h
  rw [semverParse, splitOptional_append hplus]
  simp only [Option.bind_eq_bind, Option.bind_eq_some_iff] at h ⊢
  obtain ⟨core, hcore, ids, hids, h⟩ := h
  refine ⟨core, hcore, ids, hids, ?_⟩
  rw [if_pos (by simp)] at h
  rw [if_pos (by simpa using hbuild), (Prod.mk.inj (Option.some_inj.mp h)).1]

/-- A text of digits and dots with other than three parts is no full version. -/
theorem semverParse_eq_none {w : List Char} (hw : ∀ c ∈ w, isVersionChar c = true)
    (hparts : (w.splitOn '.').length ≠ 3) : semverParse w = none := by
  have hplus : '+' ∉ w := fun h => absurd (hw _ h) (by decide)
  have hminus : '-' ∉ w := fun h => absurd (hw _ h) (by decide)
  have hcore : parseCore w = none := by
    rw [parseCore]
    split
    · rename_i hsplit
      exact absurd (by rw [hsplit]; rfl) hparts
    · rfl
  rw [semverParse, splitOptional_of_not_mem hplus]
  simp only [splitOptional_of_not_mem hminus, hcore, Option.bind_eq_bind, Option.bind_none]

theorem dot_not_mem_numeral (n : Nat) : '.' ∉ numeral n := fun h =>
  absurd (digit_mem_numeral h) (by decide)

theorem splitOn_minor (M m : Nat) :
    (numeral M ++ '.' :: numeral m).splitOn '.' = [numeral M, numeral m] := by
  have hjoin : numeral M ++ '.' :: numeral m = ['.'].intercalate [numeral M, numeral m] := by
    simp [List.intercalate]
  rw [hjoin]
  refine splitOn_join (fun p hp => ?_) (by simp)
  simp only [List.mem_cons, List.not_mem_nil, or_false] at hp
  rcases hp with rfl | rfl <;> exact dot_not_mem_numeral _

/-- **A written version is read as it stands**, under every operator. -/
theorem parseRequirementBase_spells {b : Base} {w : List Char} (h : b.Spells w)
    (op : RequirementOperator) : parseRequirementBase op w = some b.toBase := by
  obtain ⟨bare, hbare, hstrip⟩ := Base.exists_bare h
  have hstrip := hstrip []
  rw [List.append_nil, List.append_nil] at hstrip
  rw [parseRequirementBase, hstrip]
  cases b with
  | full v =>
    rcases hbare with rfl | ⟨build, hbuild, rfl⟩
    · simp [PackageVersion.semverParse_chars, Base.toBase]
    · simp [semverParse_build v hbuild, Base.toBase]
  | major M =>
    obtain rfl : bare = numeral M := hbare
    have hsplit : (numeral M).splitOn '.' = [numeral M] :=
      splitOn_eq_singleton (dot_not_mem_numeral _)
    have hnone : semverParse (numeral M) = none :=
      semverParse_eq_none (fun c hc => isVersionChar_of_mem_numeral hc) (by simp [hsplit])
    simp [hnone, hsplit, isNumeral_numeral, guard, Base.toBase]
  | minor M m =>
    obtain rfl : bare = numeral M ++ '.' :: numeral m := hbare
    have hsplit := splitOn_minor M m
    have hnone : semverParse (numeral M ++ '.' :: numeral m) = none := by
      refine semverParse_eq_none (fun c hc => ?_) (by simp [hsplit])
      rcases List.mem_append.mp hc with hc | hc
      · exact isVersionChar_of_mem_numeral hc
      · rcases List.mem_cons.mp hc with rfl | hc
        · decide
        · exact isVersionChar_of_mem_numeral hc
    simp [hnone, hsplit, isNumeral_numeral, guard, Base.toBase]

theorem isVersionChar_of_isWhitespace {c : Char} (h : isWhitespace c = true) :
    isVersionChar c = false := by
  by_contra hne
  rw [Bool.not_eq_false, isVersionChar, Bool.or_eq_true, beq_iff_eq] at hne
  rcases hne with hdig | rfl
  · have hlt : c.toNat < 128 := toNat_lt_of_isAsciiAlphanumeric (by simp [isAsciiAlphanumeric, hdig])
    have hnot := of_ascii (P := fun c => c.isDigit = true → isWhitespace c = false) (by decide) hlt hdig
    rw [hnot] at h
    simp at h
  · exact absurd h (by decide)

theorem isWildcardPart_of_isWhitespace {c : Char} (h : isWhitespace c = true) :
    isWildcardPart [c] = false := by
  by_contra hne
  rcases isWildcardPart_eq (Bool.not_eq_false _ ▸ hne) with hc | hc | hc <;>
    (obtain rfl : c = _ := List.singleton_inj.mp hc; exact absurd h (by decide))

/-- After white space no wildcard is read. -/
theorem not_wildcard_of_blank {rest : List Char} {d : Char}
    (hrest : ∀ c ∈ rest.head?, isWhitespace c = true)
    (hd : d ∈ (rest.dropWhile isVersionChar).head?) : isWildcardPart [d] = false := by
  cases rest with
  | nil => simp at hd
  | cons r rs =>
    have hr := hrest r rfl
    rw [List.dropWhile_cons_of_neg (by simp [isVersionChar_of_isWhitespace hr])] at hd
    obtain rfl : r = d := Option.some_inj.mp hd
    exact isWildcardPart_of_isWhitespace hr

/-- A comparator with attached operator is no wildcard range, whatever follows
after white space. -/
theorem parseXRange_attached {op : RequirementOperator} {b : Base} {o w rest : List Char}
    (ho : o ∈ operatorTexts op) (h : b.Spells w)
    (hrest : ∀ c ∈ rest.head?, isWhitespace c = true) : parseXRange (o ++ (w ++ rest)) = none := by
  obtain ⟨c, cs, hw, hc⟩ := Base.head_of_spells h
  have hop : isOperatorChar c = false := isOperatorChar_eq_false (Or.inl hc)
  have htoken : requirementToken (o ++ (w ++ rest)) = (op, w ++ rest) :=
    requirementToken_append ho (by simpa [hw] using hop)
  refine parseXRange_eq_none htoken fun d hd => ?_
  obtain ⟨bare, hbare, hstrip⟩ := Base.exists_bare h
  obtain ⟨lead, tail, rfl, _, hlead, htail⟩ := hbare.shape
  rw [hstrip, List.append_assoc, dropWhile_append_of_all hlead] at hd
  cases tail with
  | nil => exact not_wildcard_of_blank hrest hd
  | cons t ts =>
    have ht : t = '-' ∨ t = '+' := htail t rfl
    rcases ht with rfl | rfl <;> (obtain rfl : _ = d := Option.some_inj.mp hd; decide)

/-! ### Parsing a written range -/

/-- An operator that stands alone is no wildcard range. -/
theorem parseXRange_operator {op : RequirementOperator} {o rest : List Char}
    (ho : o ∈ operatorTexts op) (hrest : ∀ c ∈ rest.head?, isWhitespace c = true) :
    parseXRange (o ++ rest) = none := by
  have hop : ∀ c ∈ rest.head?, isOperatorChar c = false := fun c hc =>
    isOperatorChar_eq_false (Or.inr (hrest c hc))
  refine parseXRange_eq_none (requirementToken_append ho hop) fun d hd => ?_
  have hstrip : stripV rest = rest := by
    cases rest with
    | nil => rfl
    | cons r rs =>
      have hne : 'v' ≠ r := by
        rintro rfl
        exact absurd (hrest 'v' rfl) (by decide)
      simp [stripV, stripPrefix, hne]
  rw [hstrip] at hd
  exact not_wildcard_of_blank hrest hd

theorem separatedOperator_eq_none {op : RequirementOperator} {o w : List Char} {b : Base}
    (ho : o ∈ operatorTexts op) (h : b.Spells w) : separatedOperator (o ++ w) = none := by
  obtain ⟨c, cs, rfl, hc⟩ := Base.head_of_spells h
  have hne : c ≠ '~' ∧ c ≠ '>' ∧ c ≠ '<' ∧ c ≠ '=' := by
    refine ⟨?_, ?_, ?_, ?_⟩ <;> rintro rfl <;> rcases hc with hc | hc <;> revert hc <;> decide
  cases op <;> simp only [operatorTexts, List.mem_cons, List.not_mem_nil, or_false] at ho <;>
    rcases ho with rfl | rfl <;> simp [separatedOperator, hne]

/-- Every operator but the caret may stand alone. -/
theorem separatedOperator_operator {op : RequirementOperator} {o : List Char}
    (ho : o ∈ operatorTexts op) (hne : o ≠ []) (hop : op ≠ .caret) :
    separatedOperator o = some op := by
  cases op <;> simp only [operatorTexts, List.mem_cons, List.not_mem_nil, or_false] at ho <;>
    rcases ho with rfl | rfl <;> simp_all [separatedOperator]

theorem parseToken_attached {op : RequirementOperator} {o w : List Char} {b : Base}
    (ho : o ∈ operatorTexts op) (h : b.Spells w) : parseToken (o ++ w) = some [⟨op, b.toBase⟩] := by
  obtain ⟨c, cs, hw, hc⟩ := Base.head_of_spells h
  have hop : ∀ d ∈ w.head?, isOperatorChar d = false := by
    intro d hd
    obtain rfl : c = d := by simpa [hw] using hd
    exact isOperatorChar_eq_false (Or.inl hc)
  rw [parseToken, requirementToken_append ho hop]
  simp only [parseRequirementBase_spells h, Option.map_some]

/-- A token that is neither a wildcard range nor an operator. -/
theorem parseTokens_cons {token : List Char} (rest : List (List Char))
    (hx : parseXRange token = none) (hsep : separatedOperator token = none) :
    parseTokens (token :: rest) =
      (parseToken token).bind fun comparator => (parseTokens rest).map (comparator ++ ·) := by
  cases rest with
  | nil =>
    simp only [parseTokens, hx, hsep]
    cases parseToken token <;> simp
  | cons value rest =>
    rw [parseTokens, hx, hsep]
    rfl

/-- **An accepted intersection is read comparator by comparator.** -/
theorem parseTokens_spells {cs : List Comparator} {ws : List (List Char)} (h : SpellsAll cs ws)
    (hne : ∀ w ∈ ws, w ≠ []) {l : List RequirementComparator} (hl : parseTokens ws = some l) :
    l = cs.map Comparator.toComparator := by
  induction cs generalizing ws l with
  | nil =>
    obtain rfl : ws = [] := h
    simpa [parseTokens] using hl.symm
  | cons c cs ih =>
    obtain ⟨first, rest, rfl, ⟨o, ho, w, hw, hfirst⟩, hrest⟩ := h
    have hne' : ∀ w ∈ rest, w ≠ [] := fun w hw => hne w (List.mem_append_right _ hw)
    have hx : parseXRange (o ++ w) = none := by
      have := @parseXRange_attached _ _ _ _ [] ho hw (by simp)
      rwa [List.append_nil] at this
    rcases hfirst with rfl | rfl
    · rw [List.singleton_append, parseTokens_cons rest hx (separatedOperator_eq_none ho hw),
        parseToken_attached ho hw, Option.bind_some, Option.map_eq_some_iff] at hl
      obtain ⟨l', hl', rfl⟩ := hl
      rw [ih hrest hne' hl']
      rfl
    · have ho' : o ≠ [] := hne o (by simp)
      have hxo : parseXRange o = none := by
        have := @parseXRange_operator _ _ [] ho (by simp)
        rwa [List.append_nil] at this
      rw [List.cons_append, List.singleton_append] at hl
      by_cases hop : c.op = .caret
      · -- a caret that stands alone is refused
        rw [hop] at ho
        obtain rfl : o = ['^'] := by simpa [operatorTexts] using ho
        have hnone : parseToken ['^'] = none := by decide
        rw [parseTokens_cons _ hxo (by decide), hnone] at hl
        simp at hl
      · rw [parseTokens, separatedOperator_operator ho ho' hop] at hl
        simp only [Option.bind_some, hx, hxo, parseRequirementBase_spells hw, Option.bind_eq_bind,
          Option.map_eq_some_iff] at hl
        obtain ⟨l', hl', rfl⟩ := hl
        rw [ih hrest hne' hl']
        rfl

/-- What the first word of a clause begins with. -/
structure FirstWord (w : List Char) : Prop where
  /-- An operator, a digit or `v`. -/
  head : ∃ c cs, w = c :: cs ∧ ((c.isDigit = true ∨ c = 'v') ∨ isOperatorChar c = true)
  /-- It begins no wildcard range. -/
  noWildcard : ∀ rest : List Char, (∀ c ∈ rest.head?, isWhitespace c = true) →
    parseXRange (w ++ rest) = none

theorem head_of_operatorTexts {op : RequirementOperator} {o : List Char}
    (ho : o ∈ operatorTexts op) : o = [] ∨ ∃ c cs, o = c :: cs ∧ isOperatorChar c = true := by
  cases op <;> simp only [operatorTexts, List.mem_cons, List.not_mem_nil, or_false] at ho <;>
    rcases ho with rfl | rfl <;>
    first | exact Or.inl rfl | exact Or.inr ⟨_, _, rfl, by decide⟩

theorem Comparator.firstWord {c : Comparator} {w : List Char} {ws : List (List Char)}
    (h : c.Spells (w :: ws)) (hne : w ≠ []) : FirstWord w := by
  obtain ⟨o, ho, b, hb, hws⟩ := h
  rcases hws with hws | hws
  · obtain ⟨rfl, _⟩ := List.cons.inj hws
    refine ⟨?_, fun rest hrest => by rw [List.append_assoc]; exact parseXRange_attached ho hb hrest⟩
    rcases head_of_operatorTexts ho with rfl | ⟨c, cs, rfl, hc⟩
    · obtain ⟨c, cs, rfl, hc⟩ := Base.head_of_spells hb
      exact ⟨c, cs, rfl, Or.inl hc⟩
    · exact ⟨c, cs ++ b, rfl, Or.inr hc⟩
  · obtain ⟨rfl, _⟩ := List.cons.inj hws
    refine ⟨?_, fun rest hrest => parseXRange_operator ho hrest⟩
    rcases head_of_operatorTexts ho with rfl | ⟨c, cs, rfl, hc⟩
    · exact absurd rfl hne
    · exact ⟨c, cs, rfl, Or.inr hc⟩

theorem Comparator.ne_nil_of_spells {c : Comparator} {ws : List (List Char)} (h : c.Spells ws) :
    ws ≠ [] := by
  obtain ⟨o, _, w, _, rfl | rfl⟩ := h <;> simp

theorem Clause.firstWord {C : Clause} {ws : List (List Char)} (h : C.Spells ws)
    (hne : ∀ w ∈ ws, w ≠ []) : ∃ w rest, ws = w :: rest ∧ FirstWord w := by
  cases C with
  | hyphen lower upper =>
    obtain ⟨l, u, rfl, hl, _⟩ := h
    obtain ⟨c, cs, rfl, hc⟩ := Base.head_of_spells hl
    refine ⟨_, _, rfl, ⟨c, cs, rfl, Or.inl hc⟩, fun rest hrest => ?_⟩
    have hempty : ([] : List Char) ∈ operatorTexts .exact := List.mem_cons_self
    have hx := parseXRange_attached hempty hl hrest
    rwa [List.nil_append] at hx
  | comparators cs =>
    obtain ⟨hcs, h⟩ := h
    cases cs with
    | nil => exact absurd rfl hcs
    | cons c cs =>
      obtain ⟨first, rest, rfl, hfirst, _⟩ := h
      cases first with
      | nil => exact absurd rfl (Comparator.ne_nil_of_spells hfirst)
      | cons w ws => exact ⟨w, ws ++ rest, rfl, Comparator.firstWord hfirst (hne w (by simp))⟩

/-- No word of an intersection is a hyphen. -/
theorem hyphen_not_mem {cs : List Comparator} {ws : List (List Char)} (h : SpellsAll cs ws) :
    ['-'] ∉ ws := by
  induction cs generalizing ws with
  | nil =>
    obtain rfl : ws = [] := h
    simp
  | cons c cs ih =>
    obtain ⟨first, rest, rfl, ⟨o, ho, w, hw, hfirst⟩, hrest⟩ := h
    obtain ⟨d, ds, rfl, hd⟩ := Base.head_of_spells hw
    have hd' : d ≠ '-' := by
      rintro rfl
      exact absurd hd (by decide)
    have ho' : o ≠ ['-'] ∧ o ++ d :: ds ≠ ['-'] := by
      rcases head_of_operatorTexts ho with rfl | ⟨e, es, rfl, he⟩
      · exact ⟨by simp, fun h => hd' (List.cons.inj h).1⟩
      · have he' : e ≠ '-' := by
          rintro rfl
          exact absurd he (by decide)
        exact ⟨fun h => he' (List.cons.inj h).1, fun h => he' (List.cons.inj h).1⟩
    have hfirst' : ['-'] ∉ first := by
      rcases hfirst with rfl | rfl
      · simpa using ho'.2.symm
      · simpa [hd'.symm] using ho'.1.symm
    exact fun hmem => (List.mem_append.mp hmem).elim hfirst' (ih hrest)

theorem parseComparators_spells {C : Clause} {ws : List (List Char)} (h : C.Spells ws)
    (hne : ∀ w ∈ ws, w ≠ []) {l : List RequirementComparator} (hl : parseComparators ws = some l) :
    l = C.parts.map Comparator.toComparator := by
  cases C with
  | hyphen lower upper =>
    obtain ⟨lo, up, rfl, hlo, hup⟩ := h
    simp only [parseComparators, parseRequirementBase_spells hlo, parseRequirementBase_spells hup,
      Option.bind_eq_bind, Option.bind_some, Option.some.injEq] at hl
    exact hl.symm
  | comparators cs =>
    obtain ⟨_, h⟩ := h
    unfold parseComparators at hl
    split at hl
    · exact absurd (by simp) (hyphen_not_mem h)
    · exact parseTokens_spells h hne hl

/-- **An accepted clause is read as its comparators.** -/
theorem parseClause_spells {C : Clause} {part : List Char} (h : C.Spells (splitWhitespace part))
    {k : RequirementClause} (hk : parseClause part = some k) : k = C.toClause := by
  have hne : ∀ w ∈ splitWhitespace part, w ≠ [] := fun w hw => ne_nil_of_mem_splitWhitespaceGo hw
  obtain ⟨w, ws, hws, hfirst⟩ := Clause.firstWord h hne
  obtain ⟨rest, hrest, hblank⟩ : ∃ rest, trim part = w ++ rest ∧
      ∀ c ∈ rest.head?, isWhitespace c = true :=
    eq_append_of_splitWhitespace (fun c hc => head_trim hc) (by rw [splitWhitespace_trim, hws])
  obtain ⟨c, cs, rfl, hc⟩ := hfirst.head
  have hwild : isWildcardPart (trim part) = false := by
    by_contra hwild
    rw [hrest] at hwild
    rcases isWildcardPart_eq (Bool.not_eq_false _ ▸ hwild) with heq | heq | heq <;>
      (obtain ⟨rfl, _⟩ := List.cons.inj heq; exact absurd hc (by decide))
  have hstar : ¬ (trim part = ['*'] ∨ toAsciiLower (trim part) = ['x']) := by
    rintro (heq | heq)
    · rw [heq] at hwild
      exact absurd hwild (by decide)
    · simp [isWildcardPart, heq] at hwild
  have hx : parseXRange (trim part) = none := by
    rw [hrest]
    exact hfirst.noWildcard rest hblank
  simp only [parseClause] at hk
  rw [if_neg (by rw [hrest]; simp), if_neg hstar, hx] at hk
  simp only [splitWhitespace_trim, Option.map_eq_some_iff] at hk
  obtain ⟨l, hl, rfl⟩ := hk
  rw [parseComparators_spells h hne hl, Clause.toClause]

/-- Clauses of an accepted union. -/
theorem mapM_parseClause_spells {R : List Clause} {parts : List (List Char)}
    (h : List.Forall₂ (fun C part => Clause.Spells C (splitWhitespace part)) R parts)
    {ks : List RequirementClause} (hks : parts.mapM parseClause = some ks) :
    ks = R.map Clause.toClause := by
  induction h generalizing ks with
  | nil => simpa using hks.symm
  | cons hC _ ih =>
    simp only [List.mapM_cons, Option.bind_eq_bind, Option.bind_eq_some_iff, Option.pure_def,
      Option.some.injEq] at hks
    obtain ⟨k, hk, ks', hks', rfl⟩ := hks
    rw [parseClause_spells hC hk, ih hks', List.map_cons]

/-- A written range begins with a first word. -/
theorem exists_head_of_spells {R : List Clause} {s : String} (h : Spells R s) :
    ∃ c cs, trim s.toList = c :: cs ∧ ((c.isDigit = true ∨ c = 'v') ∨ isOperatorChar c = true) := by
  rw [Spells] at h
  cases hsplit : splitDouble '|' (trim s.toList) with
  | nil =>
    exact absurd hsplit (splitDouble_ne_nil '|' (trim s.toList))
  | cons part parts =>
    rw [hsplit] at h
    cases h with
    | cons hC _ =>
      obtain ⟨w, ws, hws, hfirst⟩ := Clause.firstWord hC fun w hw => ne_nil_of_mem_splitWhitespaceGo hw
      obtain ⟨more, hmore⟩ := prefix_of_splitDouble hsplit
      have hpart : part ≠ [] := by
        rintro rfl
        simp [splitWhitespace, splitWhitespaceGo] at hws
      have hhead : ∀ c ∈ part.head?, isWhitespace c = false := by
        intro c hc
        have hc' : (trim s.toList).head? = some c := by
          rw [← hmore, List.head?_append, Option.mem_def.mp hc]
          rfl
        exact head_trim hc'
      obtain ⟨rest, hrest, _⟩ := eq_append_of_splitWhitespace hhead hws
      obtain ⟨c, cs, rfl, hc⟩ := hfirst.head
      exact ⟨c, cs ++ rest ++ more, by rw [← hmore, hrest]; simp, hc⟩

/-- A written range is no dist-tag. -/
theorem isTagText_of_spells {R : List Clause} {s : String} (h : Spells R s) :
    Requirement.isTagText (trim s.toList) = false := by
  obtain ⟨c, cs, hcs, hc⟩ := exists_head_of_spells h
  by_contra htag
  rw [Bool.not_eq_false] at htag
  simp only [Requirement.isTagText, Bool.and_eq_true, List.all_eq_true] at htag
  obtain ⟨⟨⟨⟨_, halpha⟩, hchars⟩, _⟩, hbase⟩ := htag
  -- tag characters leave one part and one word
  have hplain : ∀ d ∈ trim s.toList, d ≠ '|' ∧ isWhitespace d = false ∧ isOperatorChar d = false := by
    intro d hd
    have hd := hchars d hd
    have hlt : d.toNat < 128 := by
      simp only [Bool.or_eq_true, beq_iff_eq] at hd
      rcases hd with ((hd | rfl) | rfl) | rfl
      · exact toNat_lt_of_isAsciiAlphanumeric hd
      · decide
      · decide
      · decide
    exact of_ascii (P := fun d => (isAsciiAlphanumeric d || d == '-' || d == '_' || d == '.') = true →
      d ≠ '|' ∧ isWhitespace d = false ∧ isOperatorChar d = false) (by decide) hlt hd
  have hparts : splitDouble '|' (trim s.toList) = [trim s.toList] :=
    splitDouble_eq_singleton fun hmem => (hplain _ hmem).1 rfl
  have hwords : splitWhitespace (trim s.toList) = [trim s.toList] :=
    splitWhitespace_eq_singleton (by simp [hcs]) fun d hd => (hplain d hd).2.1
  rw [Spells, hparts] at h
  cases h with
  | cons hC hnil =>
    rename_i C _
    rw [hwords] at hC
    cases C with
    | hyphen lower upper =>
      obtain ⟨l, u, heq, _⟩ := hC
      simp at heq
    | comparators ds =>
      obtain ⟨hne, hC⟩ := hC
      cases ds with
      | nil => exact hne rfl
      | cons d ds =>
        obtain ⟨first, rest, heq, ⟨o, ho, w, hw, hfirst⟩, _⟩ := hC
        have hword : trim s.toList = o ++ w := by
          rcases hfirst with rfl | rfl
          · simpa using (List.cons.inj heq).1
          · simp at heq
        have ho' : o = [] := by
          rcases head_of_operatorTexts ho with rfl | ⟨e, es, rfl, he⟩
          · rfl
          · rw [(hplain e (by simp [hword])).2.2] at he
            simp at he
        rw [hword, ho', List.nil_append, parseRequirementBase_spells hw] at hbase
        simp at hbase

/-- **What an accepted written range parses to.** -/
theorem fromStr_of_spells {R : List Clause} {s : String} (h : Spells R s) {r : Requirement}
    (hr : Requirement.fromStr s = .ok r) :
    r = ⟨String.ofList (trim s.toList), none, none, R.map Clause.toClause⟩ := by
  obtain ⟨c, cs, hcs, hc⟩ := exists_head_of_spells h
  have hnpm : stripPrefix "npm:".toList (trim s.toList) = none := by
    rw [hcs]
    have hne : 'n' ≠ c := by
      rintro rfl
      exact absurd hc (by decide)
    exact if_neg hne
  simp only [Requirement.fromStr, hnpm, Requirement.parseRange] at hr
  rw [if_neg (by simp [hcs]), if_neg (by simp [isTagText_of_spells h])] at hr
  split at hr
  · rename_i ks hks
    rw [← Except.ok.inj hr, mapM_parseClause_spells h hks]
  · simp at hr

theorem matchesVersion_toClause {R : List Clause} {raw : String} {v : PackageVersion} :
    (Requirement.mk raw none none (R.map Clause.toClause)).matchesVersion v = true ↔
      (∃ C ∈ R, C.PlainlyAdmits v) ∨ ∃ C ∈ R, C.LeaksOn v := by
  simp only [Requirement.matchesVersion, List.any_map, List.any_eq_true, Function.comp_apply,
    Clause.toClause_admits_iff_or, and_or_left, exists_or]

theorem satisfies_iff {R : List Clause} {v : PackageVersion} :
    satisfies R v = true ↔ (∃ C ∈ R, C.PlainlyAdmits v) ∨ ∃ C ∈ R, C.MissesOn v := by
  simp only [satisfies, List.any_eq_true, Clause.satisfiedBy_iff_or, and_or_left, exists_or]

/-- **Exactly when the parsed range means what its desugaring means.**  Some
clause admits the version away from the differing cases, or a leak and a miss
of two clauses cancel, or there is neither. -/
theorem matchesVersion_eq_satisfies_iff {R : List Clause} {s : String} (h : Spells R s)
    {r : Requirement} (hr : Requirement.fromStr s = .ok r) (v : PackageVersion) :
    r.matchesVersion v = satisfies R v ↔
      (∃ C ∈ R, C.PlainlyAdmits v) ∨ ((∃ C ∈ R, C.LeaksOn v) ↔ ∃ C ∈ R, C.MissesOn v) := by
  rw [Bool.eq_iff_iff, fromStr_of_spells h hr, matchesVersion_toClause, satisfies_iff]
  by_cases hplain : ∃ C ∈ R, C.PlainlyAdmits v
  · simp only [hplain, true_or]
  · simp only [hplain, false_or]

/-- A prerelease of the bound of `^1.2.3`. -/
def alphaVersion : PackageVersion := ⟨2, 0, 0, [.alnum "alpha" (by decide)]⟩

/-- The range `^1.2.3 >=2.0.0-alpha`. -/
def leakyRange : List Clause :=
  [.comparators [⟨.caret, .full (.stable 1 2 3)⟩, ⟨.greaterEqual, .full alphaVersion⟩]]

def leakyRequirement : Requirement :=
  ⟨"^1.2.3 >=2.0.0-alpha", none, none, leakyRange.map Clause.toClause⟩

theorem leakyRange_spells : Spells leakyRange "^1.2.3 >=2.0.0-alpha" := by
  refine List.Forall₂.cons ⟨by simp, ?_⟩ List.Forall₂.nil
  refine ⟨[['^', '1', '.', '2', '.', '3']],
    [['>', '=', '2', '.', '0', '.', '0', '-', 'a', 'l', 'p', 'h', 'a']], by decide, ?_, ?_⟩
  · exact ⟨['^'], by decide, ['1', '.', '2', '.', '3'], Or.inl (Or.inl (by decide)), Or.inl rfl⟩
  · exact ⟨_, [], rfl, ⟨['>', '='], by decide, ['2', '.', '0', '.', '0', '-', 'a', 'l', 'p', 'h', 'a'],
      Or.inl (Or.inl (by decide)), Or.inl rfl⟩, rfl⟩

theorem fromStr_leakyRange :
    Requirement.fromStr "^1.2.3 >=2.0.0-alpha" = .ok leakyRequirement := by
  rfl

theorem matchesVersion_eq_satisfies_leakyRange :
    Requirement.fromStr "^1.2.3 >=2.0.0-alpha" = .ok leakyRequirement ∧
      (leakyRequirement.matchesVersion alphaVersion = satisfies leakyRange alphaVersion ↔
        (∃ C ∈ leakyRange, C.PlainlyAdmits alphaVersion) ∨
          ((∃ C ∈ leakyRange, C.LeaksOn alphaVersion) ↔ ∃ C ∈ leakyRange, C.MissesOn alphaVersion)) :=
  ⟨fromStr_leakyRange,
    matchesVersion_eq_satisfies_iff leakyRange_spells fromStr_leakyRange alphaVersion⟩

/-- The caret bound `<2.0.0-0` is read as `<2.0.0`. -/
theorem not_forall_matchesVersion_eq_satisfies : ¬ ∀ (R : List Clause) (s : String), Spells R s →
    ∀ r, Requirement.fromStr s = .ok r → ∀ v, r.matchesVersion v = satisfies R v := by
  intro h
  have heq := h leakyRange _ leakyRange_spells leakyRequirement fromStr_leakyRange alphaVersion
  exact absurd heq (by decide)

end NodeRange

end Tapid
