/-
Text as lists of characters.

The string operations of the standard library that parsers lean on, as
structural functions over `List Char`: prefix stripping, splitting once from
either end, splitting at a separator, trimming, and decimal numerals.

* `splitOnce_append`, `rsplitOnce_append` — splitting what was joined;
* `splitOn_join` — a separator-joined list splits into its parts;
* `parseNat_numeral`, `numeral_parseNat` — decimal numerals without leading
  zeros and their values determine each other.
-/
import Mathlib.Data.List.DropRight
import Mathlib.Data.List.TakeWhile
import Mathlib.Tactic

namespace Text

/-! ### Character classes -/

/-- The Unicode `White_Space` property. -/
def isWhitespace (c : Char) : Bool :=
  let n := c.toNat
  (9 ≤ n && n ≤ 13) || n == 0x20 || n == 0x85 || n == 0xA0 || n == 0x1680 ||
    (0x2000 ≤ n && n ≤ 0x200A) || n == 0x2028 || n == 0x2029 || n == 0x202F ||
    n == 0x205F || n == 0x3000

/-- The Unicode general category `Cc`. -/
def isControl (c : Char) : Bool :=
  c.toNat < 0x20 || (0x7F ≤ c.toNat && c.toNat ≤ 0x9F)

/-- ASCII letters and digits. -/
def isAsciiAlphanumeric (c : Char) : Bool := c.isAlpha || c.isDigit

/-- Hexadecimal digits in either case. -/
def isHexDigit (c : Char) : Bool :=
  c.isDigit || ('a' ≤ c && c ≤ 'f') || ('A' ≤ c && c ≤ 'F')

/-- Decimal digits and lower-case hexadecimal letters. -/
def isLowerHexDigit (c : Char) : Bool := c.isDigit || ('a' ≤ c && c ≤ 'f')

/-- ASCII lower-casing. -/
def toAsciiLower (s : List Char) : List Char := s.map Char.toLower

/-- Length in bytes of the UTF-8 encoding. -/
def byteLen (s : List Char) : Nat := (s.map Char.utf8Size).sum

/-- A property of ASCII characters is checked on the first 128 code points. -/
theorem of_ascii {P : Char → Prop} (h : ∀ n < 128, P (Char.ofNat n)) {c : Char}
    (hc : c.toNat < 128) : P c := by
  have := h c.toNat hc
  rwa [Char.ofNat_toNat] at this

theorem toNat_lt_of_isHexDigit {c : Char} (h : isHexDigit c = true) : c.toNat < 128 := by
  have hle : ∀ a b : Char, a ≤ b → a.toNat ≤ b.toNat := fun a b hab => hab
  simp only [isHexDigit, Char.isDigit, Bool.or_eq_true, Bool.and_eq_true,
    decide_eq_true_eq] at h
  rcases h with (⟨_, h⟩ | ⟨_, h⟩) | ⟨_, h⟩
  · exact lt_of_le_of_lt (hle c '9' h) (by decide)
  · exact lt_of_le_of_lt (hle c 'f' h) (by decide)
  · exact lt_of_le_of_lt (hle c 'F' h) (by decide)

theorem toNat_lt_of_isAsciiAlphanumeric {c : Char} (h : isAsciiAlphanumeric c = true) :
    c.toNat < 128 := by
  have hle : ∀ a b : Char, a.val ≤ b.val → a.toNat ≤ b.toNat := fun a b hab => hab
  rcases Bool.or_eq_true_iff.mp h with h | h
  · rcases Bool.or_eq_true_iff.mp h with h | h
    · have hz := (of_decide_eq_true h).2
      exact lt_of_le_of_lt (hle c 'Z' hz) (by decide)
    · have hz := of_decide_eq_true (Bool.and_eq_true_iff.mp h).2
      exact lt_of_le_of_lt (hle c 'z' hz) (by decide)
  · have hz := of_decide_eq_true (Bool.and_eq_true_iff.mp h).2
    exact lt_of_le_of_lt (hle c '9' hz) (by decide)

theorem isHexDigit_of_isLowerHexDigit {c : Char} (h : isLowerHexDigit c = true) :
    isHexDigit c = true := by
  rw [isHexDigit, Bool.or_eq_true]
  exact Or.inl h

theorem toLower_isHexDigit {c : Char} (h : isHexDigit c = true) :
    isLowerHexDigit c.toLower = true ∧ c.toLower.utf8Size = c.utf8Size :=
  of_ascii (P := fun c => isHexDigit c = true →
    isLowerHexDigit c.toLower = true ∧ c.toLower.utf8Size = c.utf8Size) (by decide)
    (toNat_lt_of_isHexDigit h) h

theorem toLower_of_isLowerHexDigit {c : Char} (h : isLowerHexDigit c = true) : c.toLower = c :=
  of_ascii (P := fun c => isLowerHexDigit c = true → c.toLower = c) (by decide)
    (toNat_lt_of_isHexDigit (isHexDigit_of_isLowerHexDigit h)) h

/-- Lower-casing only produces letters. -/
theorem toLower_eq_of_not_isAlpha {c : Char} (h : c.toLower.isAlpha = false) :
    c.toLower = c := by
  by_cases hlt : c.toNat < 128
  · exact of_ascii (P := fun c => c.toLower.isAlpha = false → c.toLower = c) (by decide) hlt h
  · -- beyond ASCII there is nothing to lower
    refine dif_neg ?_
    rintro ⟨_, hz⟩
    exact hlt (lt_of_le_of_lt (show c.toNat ≤ 'Z'.toNat from hz) (by decide))

theorem mem_of_mem_toAsciiLower {s : List Char} {c : Char} (hc : c.isAlpha = false)
    (h : c ∈ toAsciiLower s) : c ∈ s := by
  obtain ⟨b, hb, rfl⟩ := List.mem_map.mp h
  rwa [toLower_eq_of_not_isAlpha hc]

/-! ### Prefixes and splitting -/

/-- The rest of the text after a given start. -/
def stripPrefix : List Char → List Char → Option (List Char)
  | [], s => some s
  | _ :: _, [] => none
  | p :: ps, c :: cs => if p = c then stripPrefix ps cs else none

/-- Whether the text has the given start. -/
def startsWith (p s : List Char) : Bool := (stripPrefix p s).isSome

/-- The parts around the first occurrence of a character. -/
def splitOnce (x : Char) : List Char → Option (List Char × List Char)
  | [] => none
  | c :: cs =>
    if c = x then some ([], cs)
    else (splitOnce x cs).map fun p => (c :: p.1, p.2)

/-- The parts around the last occurrence of a character. -/
def rsplitOnce (x : Char) : List Char → Option (List Char × List Char)
  | [] => none
  | c :: cs =>
    match rsplitOnce x cs with
    | some p => some (c :: p.1, p.2)
    | none => if c = x then some ([], cs) else none

/-- The parts around the first occurrence of a pattern. -/
def splitOncePat (pat : List Char) : List Char → Option (List Char × List Char)
  | [] => (stripPrefix pat []).map fun rest => ([], rest)
  | c :: cs =>
    match stripPrefix pat (c :: cs) with
    | some rest => some ([], rest)
    | none => (splitOncePat pat cs).map fun p => (c :: p.1, p.2)

theorem stripPrefix_append (p s : List Char) : stripPrefix p (p ++ s) = some s := by
  induction p with
  | nil => rfl
  | cons c cs ih => simp [stripPrefix, ih]

theorem eq_append_of_stripPrefix {p s r : List Char} (h : stripPrefix p s = some r) :
    s = p ++ r := by
  induction p generalizing s with
  | nil => simpa [stripPrefix] using h
  | cons c cs ih =>
    cases s with
    | nil => simp [stripPrefix] at h
    | cons d ds =>
      rw [stripPrefix] at h
      split_ifs at h with hcd
      rw [hcd, ih h]
      rfl

theorem startsWith_append (p s : List Char) : startsWith p (p ++ s) = true := by
  rw [startsWith, stripPrefix_append]
  rfl

theorem startsWith_cons_of_ne {a c : Char} (h : a ≠ c) (p s : List Char) :
    startsWith (a :: p) (c :: s) = false := by
  simp [startsWith, stripPrefix, h]

theorem splitOnce_append {x : Char} {a : List Char} (h : x ∉ a) (b : List Char) :
    splitOnce x (a ++ x :: b) = some (a, b) := by
  induction a with
  | nil => simp [splitOnce]
  | cons c cs ih =>
    rw [List.mem_cons, not_or] at h
    simp [splitOnce, ih h.2, Ne.symm h.1]

theorem eq_append_of_splitOnce {x : Char} {s a b : List Char}
    (h : splitOnce x s = some (a, b)) : s = a ++ x :: b ∧ x ∉ a := by
  induction s generalizing a with
  | nil => simp [splitOnce] at h
  | cons c cs ih =>
    rw [splitOnce] at h
    split_ifs at h with hc
    · obtain ⟨rfl, rfl⟩ := Prod.mk.inj (Option.some_inj.mp h)
      simp [hc]
    · obtain ⟨⟨a', b'⟩, hp, heq⟩ := Option.map_eq_some_iff.mp h
      obtain ⟨rfl, rfl⟩ := Prod.mk.inj heq
      obtain ⟨rfl, hna⟩ := ih hp
      exact ⟨rfl, by simp [hna, Ne.symm hc]⟩

theorem rsplitOnce_eq_none {x : Char} {s : List Char} (h : x ∉ s) : rsplitOnce x s = none := by
  induction s with
  | nil => rfl
  | cons c cs ih =>
    rw [List.mem_cons, not_or] at h
    simp [rsplitOnce, ih h.2, Ne.symm h.1]

theorem rsplitOnce_append {x : Char} (a : List Char) {b : List Char} (h : x ∉ b) :
    rsplitOnce x (a ++ x :: b) = some (a, b) := by
  induction a with
  | nil => simp [rsplitOnce, rsplitOnce_eq_none h]
  | cons c cs ih => simp [rsplitOnce, ih]

theorem eq_append_of_rsplitOnce {x : Char} {s a b : List Char}
    (h : rsplitOnce x s = some (a, b)) : s = a ++ x :: b ∧ x ∉ b := by
  induction s generalizing a with
  | nil => simp [rsplitOnce] at h
  | cons c cs ih =>
    rw [rsplitOnce] at h
    cases hr : rsplitOnce x cs with
    | some p =>
      rw [hr] at h
      obtain ⟨rfl, rfl⟩ := Prod.mk.inj (Option.some_inj.mp h)
      obtain ⟨hcs, hnb⟩ := ih hr
      exact ⟨by rw [List.cons_append, ← hcs], hnb⟩
    | none =>
      rw [hr] at h
      simp only at h
      split_ifs at h with hc
      obtain ⟨rfl, rfl⟩ := Prod.mk.inj (Option.some_inj.mp h)
      refine ⟨by simp [hc], fun hmem => ?_⟩
      -- an occurrence in the tail would have been found first
      obtain ⟨p, hp⟩ : ∃ p, rsplitOnce x cs = some p := by
        clear ih hr h
        induction cs with
        | nil => simp at hmem
        | cons d ds ih =>
          cases hd : rsplitOnce x ds with
          | some q => exact ⟨_, by rw [rsplitOnce, hd]⟩
          | none =>
            rcases List.mem_cons.mp hmem with rfl | hmem
            · exact ⟨([], ds), by simp [rsplitOnce, hd]⟩
            · obtain ⟨q, hq⟩ := ih hmem
              rw [hd] at hq
              simp at hq
      rw [hr] at hp
      simp at hp

/-- Parts joined by a separator none of them contains split into the parts. -/
theorem splitOn_join {x : Char} {parts : List (List Char)} (h : ∀ p ∈ parts, x ∉ p)
    (hne : parts ≠ []) : (([x] : List Char).intercalate parts).splitOn x = parts :=
  List.splitOn_intercalate x h hne

theorem not_mem_of_mem_splitOn {x : Char} {s part : List Char} (h : part ∈ s.splitOn x) :
    x ∉ part := by
  induction s generalizing part with
  | nil => simp_all
  | cons c cs ih =>
    rw [List.splitOn_cons_eq_if_modifyHead] at h
    split_ifs at h with hc
    · rcases List.mem_cons.mp h with rfl | h
      · simp
      · exact ih h
    · cases hsplit : cs.splitOn x with
      | nil => exact absurd hsplit (List.splitOn_ne_nil x cs)
      | cons hd tl =>
        rw [hsplit, List.modifyHead_cons, List.mem_cons] at h
        rcases h with rfl | h
        · have hx : c ≠ x := by simpa using hc
          have hhd : x ∉ hd := ih (by simp [hsplit])
          simp [Ne.symm hx, hhd]
        · exact ih (by simp [hsplit, h])

theorem mem_intercalate {x c : Char} {parts : List (List Char)}
    (h : c ∈ [x].intercalate parts) : c = x ∨ ∃ part ∈ parts, c ∈ part := by
  induction parts with
  | nil => simp [List.intercalate] at h
  | cons hd tl ih =>
    cases tl with
    | nil => exact Or.inr ⟨hd, by simp, by simpa [List.intercalate] using h⟩
    | cons hd' tl =>
      rw [List.intercalate_cons_of_ne_nil (by simp), List.mem_append, List.mem_append] at h
      rcases h with (h | h) | h
      · exact Or.inr ⟨hd, by simp, h⟩
      · exact Or.inl (by simpa using h)
      · rcases ih h with h | ⟨part, hpart, h⟩
        · exact Or.inl h
        · exact Or.inr ⟨part, List.mem_cons_of_mem _ hpart, h⟩

theorem mem_of_mem_splitOn {x c : Char} {s part : List Char} (hpart : part ∈ s.splitOn x)
    (hc : c ∈ part) : c ∈ s := by
  induction s generalizing part with
  | nil => simp_all
  | cons d ds ih =>
    rw [List.splitOn_cons_eq_if_modifyHead] at hpart
    split_ifs at hpart with hd
    · rcases List.mem_cons.mp hpart with rfl | hpart
      · simp at hc
      · exact List.mem_cons_of_mem _ (ih hpart hc)
    · cases hsplit : ds.splitOn x with
      | nil => exact absurd hsplit (List.splitOn_ne_nil x ds)
      | cons hd tl =>
        rw [hsplit, List.modifyHead_cons, List.mem_cons] at hpart
        rcases hpart with rfl | hpart
        · rcases List.mem_cons.mp hc with rfl | hc
          · exact List.mem_cons_self
          · have hhd : hd ∈ ds.splitOn x := by simp [hsplit]
            exact List.mem_cons_of_mem _ (ih hhd hc)
        · exact List.mem_cons_of_mem _ (ih (by simp [hsplit, hpart]) hc)

theorem splitOn_eq_singleton {x : Char} {s : List Char} (h : x ∉ s) : s.splitOn x = [s] := by
  have hjoin : ([x] : List Char).intercalate [s] = s := by simp [List.intercalate]
  conv_lhs => rw [← hjoin]
  exact splitOn_join (by simpa using h) (by simp)

/-- The parts between non-overlapping doubled separators, read from the left. -/
def splitDouble (x : Char) : List Char → List (List Char)
  | [] => [[]]
  | [c] => [[c]]
  | c :: d :: cs =>
    if c = x ∧ d = x then [] :: splitDouble x cs
    else (splitDouble x (d :: cs)).modifyHead (c :: ·)

theorem splitDouble_ne_nil (x : Char) (s : List Char) : splitDouble x s ≠ [] := by
  induction s using splitDouble.induct x with
  | case1 => simp [splitDouble]
  | case2 c => simp [splitDouble]
  | case3 c d cs hd ih => simp [splitDouble, hd]
  | case4 c d cs hne ih =>
    rw [splitDouble, if_neg hne]
    cases hsplit : splitDouble x (d :: cs) with
    | nil => exact absurd hsplit ih
    | cons q qs => simp

theorem splitDouble_eq_singleton {x : Char} {s : List Char} (h : x ∉ s) : splitDouble x s = [s] := by
  induction s using splitDouble.induct x with
  | case1 => rfl
  | case2 c => rfl
  | case3 c d cs hd ih => exact absurd (by simp [hd.1]) h
  | case4 c d cs hne ih =>
    rw [splitDouble, if_neg hne, ih fun hmem => h (List.mem_cons_of_mem _ hmem),
      List.modifyHead_cons]

/-- The first part is where the text begins. -/
theorem prefix_of_splitDouble {x : Char} {s p : List Char} {ps : List (List Char)}
    (h : splitDouble x s = p :: ps) : p <+: s := by
  induction s using splitDouble.induct x generalizing p ps with
  | case1 => simp_all [splitDouble]
  | case2 c => simp_all [splitDouble]
  | case3 c d cs hd ih =>
    rw [splitDouble, if_pos hd] at h
    rw [← (List.cons.inj h).1]
    exact List.nil_prefix
  | case4 c d cs hne ih =>
    rw [splitDouble, if_neg hne] at h
    cases hsplit : splitDouble x (d :: cs) with
    | nil => simp [hsplit] at h
    | cons q qs =>
      rw [hsplit, List.modifyHead_cons] at h
      rw [← (List.cons.inj h).1]
      exact List.cons_prefix_cons.mpr ⟨rfl, ih hsplit⟩

/-! ### Trimming and white space -/

/-- Drop white space at both ends. -/
def trim (s : List Char) : List Char :=
  ((s.dropWhile isWhitespace).reverse.dropWhile isWhitespace).reverse

/-- Maximal runs without white space; `word` is the run read so far. -/
def splitWhitespaceGo (word : List Char) : List Char → List (List Char)
  | [] => if word = [] then [] else [word.reverse]
  | c :: cs =>
    if isWhitespace c then
      if word = [] then splitWhitespaceGo [] cs else word.reverse :: splitWhitespaceGo [] cs
    else splitWhitespaceGo (c :: word) cs

/-- The words of a text. -/
def splitWhitespace (s : List Char) : List (List Char) := splitWhitespaceGo [] s

/-- A word that has begun ends at the next white space. -/
theorem splitWhitespaceGo_of_ne_nil {word : List Char} (hword : word ≠ []) (s : List Char) :
    splitWhitespaceGo word s = (word.reverse ++ s.takeWhile (!isWhitespace ·)) ::
      splitWhitespace (s.dropWhile (!isWhitespace ·)) := by
  induction s generalizing word with
  | nil => simp [splitWhitespaceGo, splitWhitespace, hword]
  | cons c cs ih =>
    by_cases hc : isWhitespace c = true
    · simp [splitWhitespaceGo, splitWhitespace, hc, hword]
    · rw [splitWhitespaceGo, if_neg hc, ih (by simp)]
      simp [hc]

theorem splitWhitespace_cons {c : Char} (hc : isWhitespace c = false) (cs : List Char) :
    splitWhitespace (c :: cs) = (c :: cs.takeWhile (!isWhitespace ·)) ::
      splitWhitespace (cs.dropWhile (!isWhitespace ·)) := by
  rw [splitWhitespace, splitWhitespaceGo, if_neg (by simp [hc]),
    splitWhitespaceGo_of_ne_nil (by simp)]
  rfl

theorem splitWhitespace_cons_of_isWhitespace {c : Char} (hc : isWhitespace c = true)
    (cs : List Char) : splitWhitespace (c :: cs) = splitWhitespace cs := by
  rw [splitWhitespace, splitWhitespaceGo, if_pos hc, if_pos rfl]
  rfl

theorem splitWhitespace_dropWhile (s : List Char) :
    splitWhitespace (s.dropWhile isWhitespace) = splitWhitespace s := by
  induction s with
  | nil => rfl
  | cons c cs ih =>
    by_cases hc : isWhitespace c = true
    · rw [List.dropWhile_cons_of_pos hc, ih, splitWhitespace_cons_of_isWhitespace hc]
    · rw [List.dropWhile_cons_of_neg hc]

theorem splitWhitespaceGo_append (word s : List Char) {blank : List Char}
    (hblank : ∀ c ∈ blank, isWhitespace c = true) :
    splitWhitespaceGo word (s ++ blank) = splitWhitespaceGo word s := by
  induction s generalizing word with
  | nil =>
    induction blank generalizing word with
    | nil => rfl
    | cons c cs ih =>
      have hcs := ih (fun d hd => hblank d (List.mem_cons_of_mem _ hd))
      rw [List.nil_append] at hcs ⊢
      have hc := hblank c List.mem_cons_self
      by_cases hword : word = [] <;> simp [splitWhitespaceGo, hc, hcs, hword]
  | cons c cs ih => simp only [List.cons_append, splitWhitespaceGo, ih]

/-- A text is its trimmed text between white space. -/
theorem exists_trim (s : List Char) : ∃ blank, (∀ c ∈ blank, isWhitespace c = true) ∧
    s.dropWhile isWhitespace = trim s ++ blank := by
  refine ⟨((s.dropWhile isWhitespace).reverse.takeWhile isWhitespace).reverse, ?_, ?_⟩
  · intro c hc
    exact List.mem_takeWhile_imp (List.mem_reverse.mp hc)
  · rw [trim, ← List.reverse_append, List.takeWhile_append_dropWhile, List.reverse_reverse]

/-- **Trimming changes no word.** -/
@[simp] theorem splitWhitespace_trim (s : List Char) :
    splitWhitespace (trim s) = splitWhitespace s := by
  obtain ⟨blank, hblank, hs⟩ := exists_trim s
  rw [← splitWhitespace_dropWhile s, hs]
  exact (splitWhitespaceGo_append [] (trim s) hblank).symm

/-- A trimmed text does not begin with white space. -/
theorem head_trim {s : List Char} {c : Char} (h : (trim s).head? = some c) :
    isWhitespace c = false := by
  obtain ⟨blank, _, hs⟩ := exists_trim s
  have hhead : (s.dropWhile isWhitespace).head? = some c := by
    rw [hs, List.head?_append, h]
    rfl
  have hnot := List.head?_dropWhile_not isWhitespace s
  rw [hhead] at hnot
  simpa using hnot

/-- The first word of a text that begins with it. -/
theorem eq_append_of_splitWhitespace {s w : List Char} {ws : List (List Char)}
    (hs : ∀ c ∈ s.head?, isWhitespace c = false) (h : splitWhitespace s = w :: ws) :
    ∃ rest, s = w ++ rest ∧ ∀ c ∈ rest.head?, isWhitespace c = true := by
  cases s with
  | nil => simp [splitWhitespace, splitWhitespaceGo] at h
  | cons c cs =>
    rw [splitWhitespace_cons (hs c rfl)] at h
    obtain ⟨rfl, _⟩ := List.cons.inj h
    refine ⟨cs.dropWhile (!isWhitespace ·), ?_, ?_⟩
    · rw [List.cons_append, List.takeWhile_append_dropWhile]
    · intro d hd
      have hnot := List.head?_dropWhile_not (!isWhitespace ·) cs
      rw [Option.mem_def.mp hd] at hnot
      simpa using hnot

/-- A text without white space is one word. -/
theorem splitWhitespace_eq_singleton {s : List Char} (hne : s ≠ [])
    (h : ∀ c ∈ s, isWhitespace c = false) : splitWhitespace s = [s] := by
  cases s with
  | nil => exact absurd rfl hne
  | cons c cs =>
    have hcs : ∀ d ∈ cs, (!isWhitespace d) = true := fun d hd => by
      simp [h d (List.mem_cons_of_mem _ hd)]
    rw [splitWhitespace_cons (h c List.mem_cons_self), List.takeWhile_eq_self_iff.mpr hcs,
      List.dropWhile_eq_nil_iff.mpr hcs]
    rfl

theorem ne_nil_of_mem_splitWhitespaceGo {word s w : List Char}
    (h : w ∈ splitWhitespaceGo word s) : w ≠ [] := by
  induction s generalizing word with
  | nil =>
    rw [splitWhitespaceGo] at h
    split_ifs at h with hword
    · simp at h
    · rw [List.mem_singleton.mp h]
      simpa using hword
  | cons c cs ih =>
    rw [splitWhitespaceGo] at h
    split_ifs at h with hc hword
    · exact ih h
    · rcases List.mem_cons.mp h with rfl | h
      · simpa using hword
      · exact ih h
    · exact ih h

/-! ### Decimal numerals -/

/-- Decimal rendering. -/
def numeral (n : Nat) : List Char := Nat.toDigits 10 n

/-- A nonempty digit sequence without leading zero. -/
def isNumeral (s : List Char) : Bool :=
  match s with
  | [] => false
  | c :: cs => s.all Char.isDigit && (cs.isEmpty || c != '0')

/-- Value of a canonical numeral. -/
def parseNat (s : List Char) : Option Nat :=
  if isNumeral s then some (Nat.ofDigitChars 10 s 0) else none

theorem digit_mem_numeral {n : Nat} {c : Char} (h : c ∈ numeral n) : c.isDigit = true :=
  Nat.isDigit_of_mem_toDigits (by omega) (by omega) h

theorem numeral_ne_nil (n : Nat) : numeral n ≠ [] := Nat.toDigits_ne_nil

theorem numeral_of_ten_le {n : Nat} (h : 10 ≤ n) :
    numeral n = numeral (n / 10) ++ [Nat.digitChar (n % 10)] := by
  rw [numeral, Nat.toDigits_of_base_le (by omega) h]
  rfl

theorem numeral_of_lt_ten {n : Nat} (h : n < 10) : numeral n = [Nat.digitChar n] :=
  Nat.toDigits_of_lt_base h

/-- Only zero is written with a leading zero. -/
theorem head_numeral {n : Nat} (h : 0 < n) : ∀ c ∈ (numeral n).head?, c ≠ '0' := by
  induction n using Nat.strongRecOn with
  | ind n ih =>
    by_cases hn : n < 10
    · rw [numeral_of_lt_ten hn, List.head?_cons]
      rintro c ⟨⟩
      interval_cases n <;> decide
    · rw [numeral_of_ten_le (by omega)]
      have hpos : 0 < n / 10 := by omega
      have := ih (n / 10) (by omega) hpos
      cases hd : numeral (n / 10) with
      | nil => exact absurd hd (numeral_ne_nil _)
      | cons d ds => simpa [hd] using this

theorem isNumeral_numeral (n : Nat) : isNumeral (numeral n) = true := by
  have hdig : (numeral n).all Char.isDigit = true :=
    List.all_eq_true.mpr fun c hc => digit_mem_numeral hc
  cases hd : numeral n with
  | nil => exact absurd hd (numeral_ne_nil n)
  | cons c cs =>
    rw [hd] at hdig
    rw [isNumeral, hdig, Bool.true_and, Bool.or_eq_true, List.isEmpty_iff]
    rcases Nat.eq_zero_or_pos n with rfl | hpos
    · left
      have : (c :: cs) = ['0'] := hd.symm.trans (Nat.toDigits_zero 10)
      simpa using (List.cons.inj this).2
    · right
      have := head_numeral hpos c (by rw [hd]; rfl)
      simpa using this

/-- **Reading a rendered number back.** -/
@[simp] theorem parseNat_numeral (n : Nat) : parseNat (numeral n) = some n := by
  rw [parseNat, if_pos (isNumeral_numeral n), numeral, Nat.ofDigitChars_ten_toDigits]

theorem digitChar_toNat {c : Char} (h : c.isDigit = true) :
    Nat.digitChar (c.toNat - '0'.toNat) = c ∧ c.toNat - '0'.toNat < 10 := by
  have hc : 48 ≤ c.toNat ∧ c.toNat ≤ 57 := by
    simpa [Char.isDigit, UInt32.le_iff_toNat_le] using h
  obtain ⟨d, hd⟩ : ∃ d, c.toNat = 48 + d := ⟨c.toNat - 48, by omega⟩
  have hlt : d < 10 := by omega
  have hsub : c.toNat - '0'.toNat = d := by
    rw [hd, show '0'.toNat = 48 from rfl]
    omega
  have hof : c = Char.ofNat (48 + d) := by rw [← hd, Char.ofNat_toNat]
  rw [hsub]
  refine ⟨?_, hlt⟩
  rw [hof]
  clear hof hsub hd hc h
  interval_cases d <;> rfl

/-- Digits read after a positive number extend its numeral. -/
theorem numeral_ofDigitChars {cs : List Char} (hcs : ∀ c ∈ cs, c.isDigit = true) :
    ∀ acc, 0 < acc → numeral (Nat.ofDigitChars 10 cs acc) = numeral acc ++ cs := by
  induction cs with
  | nil =>
    intro acc _
    simp
  | cons c cs ih =>
    intro acc hacc
    obtain ⟨hchar, hlt⟩ := digitChar_toNat (hcs c List.mem_cons_self)
    have hstep := ih (fun d hd => hcs d (List.mem_cons_of_mem _ hd))
      (10 * acc + (c.toNat - '0'.toNat)) (by omega)
    have hjoin := Nat.toDigits_append_toDigits (by omega : 1 < 10) hacc hlt
    rw [Nat.toDigits_of_lt_base hlt, hchar] at hjoin
    rw [Nat.ofDigitChars_cons, hstep, numeral, ← hjoin]
    simp [numeral]

/-- **A canonical numeral is the rendering of its value.** -/
theorem numeral_parseNat {s : List Char} {n : Nat} (h : parseNat s = some n) : numeral n = s := by
  rw [parseNat] at h
  split_ifs at h with hs
  rw [← Option.some_inj.mp h]
  cases s with
  | nil => simp [isNumeral] at hs
  | cons c cs =>
    rw [isNumeral, Bool.and_eq_true, List.all_eq_true] at hs
    obtain ⟨hdig, hlead⟩ := hs
    obtain ⟨hchar, hlt⟩ := digitChar_toNat (hdig c List.mem_cons_self)
    rw [Nat.ofDigitChars_cons, Nat.mul_zero, Nat.zero_add]
    rcases Nat.eq_zero_or_pos (c.toNat - '0'.toNat) with hz | hpos
    · have hc0 : c = '0' := by
        rw [← hchar, hz]
        rfl
      have hcs : cs = [] := by simpa [hc0] using hlead
      subst hcs
      rw [Nat.ofDigitChars_nil, numeral_of_lt_ten hlt, hchar]
    · rw [numeral_ofDigitChars (fun d hd => hdig d (List.mem_cons_of_mem _ hd)) _ hpos,
        numeral_of_lt_ten hlt, hchar]
      rfl

theorem numeral_injective : Function.Injective numeral := fun a b h => by
  have := congrArg parseNat h
  simpa using this

/-! ### Patterns from the end -/

/-- The parts around the last occurrence of a pattern. -/
def rsplitOncePat (pat : List Char) : List Char → Option (List Char × List Char)
  | [] => (stripPrefix pat []).map fun rest => ([], rest)
  | c :: cs =>
    match rsplitOncePat pat cs with
    | some p => some (c :: p.1, p.2)
    | none => (stripPrefix pat (c :: cs)).map fun rest => ([], rest)

/-- The text without a given end. -/
def stripSuffix (suffix s : List Char) : Option (List Char) :=
  (stripPrefix suffix.reverse s.reverse).map List.reverse

/-- The text without trailing occurrences of a character. -/
def trimEnd (x : Char) (s : List Char) : List Char := (s.reverse.dropWhile (· = x)).reverse

/-- The parts put together again. -/
theorem eq_append_of_rsplitOncePat {pat s : List Char} {p : List Char × List Char}
    (h : rsplitOncePat pat s = some p) : s = p.1 ++ pat ++ p.2 := by
  induction s generalizing p with
  | nil =>
    rw [rsplitOncePat] at h
    obtain ⟨rest, hrest, rfl⟩ := Option.map_eq_some_iff.mp h
    exact eq_append_of_stripPrefix hrest
  | cons c cs ih =>
    rw [rsplitOncePat] at h
    cases hr : rsplitOncePat pat cs with
    | some q =>
      rw [hr] at h
      rw [← Option.some_inj.mp h, ih hr]
      simp
    | none =>
      rw [hr] at h
      obtain ⟨rest, hrest, rfl⟩ := Option.map_eq_some_iff.mp h
      exact eq_append_of_stripPrefix hrest

theorem exists_append_of_rsplitOncePat {pat s : List Char} (h : rsplitOncePat pat s ≠ none) :
    ∃ a b, s = a ++ pat ++ b := by
  obtain ⟨p, hp⟩ := Option.ne_none_iff_exists'.mp h
  exact ⟨p.1, p.2, eq_append_of_rsplitOncePat hp⟩

theorem rsplitOncePat_eq_none {pat s : List Char} (h : ∀ a b, s ≠ a ++ pat ++ b) :
    rsplitOncePat pat s = none := by
  by_contra hne
  obtain ⟨a, b, hab⟩ := exists_append_of_rsplitOncePat hne
  exact h a b hab

/-- The last occurrence is the one after which no other begins. -/
theorem rsplitOncePat_append {x : Char} {xs : List Char} (a : List Char) {b : List Char}
    (h : ∀ a' b', xs ++ b ≠ a' ++ (x :: xs) ++ b') :
    rsplitOncePat (x :: xs) (a ++ (x :: xs) ++ b) = some (a, b) := by
  induction a with
  | nil =>
    rw [List.nil_append, List.cons_append, rsplitOncePat, rsplitOncePat_eq_none h]
    show (stripPrefix (x :: xs) ((x :: xs) ++ b)).map _ = _
    rw [stripPrefix_append]
    rfl
  | cons c cs ih =>
    rw [List.cons_append, List.cons_append, rsplitOncePat, ih]

theorem trimEnd_of_getLast?_ne {x : Char} {s : List Char} (h : s.getLast? ≠ some x) :
    trimEnd x s = s := by
  rw [trimEnd]
  cases hs : s.reverse with
  | nil =>
    rw [List.reverse_eq_nil_iff.mp hs]
    rfl
  | cons c cs =>
    have hc : c ≠ x := by
      rintro rfl
      rw [List.getLast?_eq_head?_reverse, hs] at h
      exact h rfl
    rw [List.dropWhile_cons_of_neg (by simpa using hc), ← hs, List.reverse_reverse]

theorem trimEnd_append_self {x : Char} {s : List Char} (h : s.getLast? ≠ some x) :
    trimEnd x (s ++ [x]) = s := by
  rw [trimEnd, List.reverse_append, List.reverse_singleton, List.singleton_append,
    List.dropWhile_cons_of_pos (by simp)]
  exact trimEnd_of_getLast?_ne h

end Text
