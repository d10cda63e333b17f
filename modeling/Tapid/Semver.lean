/-
Semantic versions without build metadata.

`PackageVersion` is the identity of a published version: three 64-bit
components and a list of prerelease identifiers.  Its order is SemVer
precedence, in which a version without prerelease comes after all its
prereleases.

* `parse_display` — the rendering of a version parses to it;
* `display_of_parse` — every accepted text is the rendering of its version;
* `lt_iff` — precedence, component by component.
-/
import Mathlib.Data.Sum.Order
import Mathlib.Data.Prod.Lex
import Mathlib.Order.WithBot
import Mathlib.Data.List.Lex
import Mathlib.Data.String.Basic
import Tapid.Text

namespace Tapid

open Text

/-- Unsigned 64-bit machine integers. -/
abbrev U64 := Fin (2 ^ 64)

instance U64.neZero : NeZero (2 ^ 64) := ⟨by decide⟩

/-- `checked_add(1)`. -/
def U64.checkedSucc (n : U64) : Option U64 :=
  if h : n.val + 1 < 2 ^ 64 then some ⟨n.val + 1, h⟩ else none

/-- `u64` parsing of a canonical numeral; too large values are refused. -/
def parseU64 (s : List Char) : Option U64 :=
  (parseNat s).bind fun n => if h : n < 2 ^ 64 then some ⟨n, h⟩ else none

/-- Characters of prerelease and build identifiers. -/
def isIdentChar (c : Char) : Bool := isAsciiAlphanumeric c || c == '-'

/-- A nonempty identifier that is not a number. -/
def isAlnumIdent (s : List Char) : Bool :=
  !s.isEmpty && s.all isIdentChar && !s.all Char.isDigit

/-- One prerelease identifier. -/
inductive PreId where
  | num (n : Nat)
  | alnum (text : String) (valid : isAlnumIdent text.toList = true)
  deriving DecidableEq

namespace PreId

/-- Numeric identifiers come before alphanumeric ones. -/
def lexKey : PreId → Nat ⊕ₗ String
  | num n => Sum.inlₗ n
  | alnum s _ => Sum.inrₗ s

theorem lexKey_injective : Function.Injective lexKey := by
  intro a b h
  cases a <;> cases b <;> simp_all [lexKey]

instance : LinearOrder PreId := LinearOrder.lift' lexKey lexKey_injective

/-- Rendering of an identifier. -/
def chars : PreId → List Char
  | num n => numeral n
  | alnum s _ => s.toList

/-- Numbers must not have leading zeros. -/
def parse (s : List Char) : Option PreId :=
  match parseNat s with
  | some n => some (num n)
  | none =>
    if h : isAlnumIdent s = true then
      some (alnum (String.ofList s) (by rw [String.toList_ofList]; exact h))
    else none

end PreId

/-- A canonical version identity without build metadata. -/
structure PackageVersion where
  major : U64
  minor : U64
  patch : U64
  pre : List PreId
  deriving DecidableEq

namespace PackageVersion

/-- Precedence of prereleases: having none is the top element. -/
def preKey (pre : List PreId) : WithTop (List PreId) := if pre = [] then ⊤ else (pre : WithTop _)

/-- Precedence key. -/
def lexKey (v : PackageVersion) : U64 ×ₗ U64 ×ₗ U64 ×ₗ WithTop (List PreId) :=
  toLex (v.major, toLex (v.minor, toLex (v.patch, preKey v.pre)))

theorem preKey_injective : Function.Injective preKey := by
  intro p p' h
  by_cases hp : p = [] <;> by_cases hp' : p' = [] <;> simp_all [preKey]

theorem lexKey_injective : Function.Injective lexKey := by
  rintro ⟨a, b, c, p⟩ ⟨a', b', c', p'⟩ h
  simp only [lexKey, EmbeddingLike.apply_eq_iff_eq, Prod.mk.injEq] at h
  obtain ⟨rfl, rfl, rfl, h⟩ := h
  rw [preKey_injective h]

instance : LinearOrder PackageVersion := LinearOrder.lift' lexKey lexKey_injective

/-- A version without prerelease. -/
def stable (major minor patch : U64) : PackageVersion := ⟨major, minor, patch, []⟩

/-- Whether there is a prerelease. -/
def isPrerelease (v : PackageVersion) : Bool := !v.pre.isEmpty

/-! ### Precedence -/

/-- **Precedence, component by component.** -/
theorem lt_iff {v w : PackageVersion} : v < w ↔
    v.major < w.major ∨ v.major = w.major ∧ (v.minor < w.minor ∨ v.minor = w.minor ∧
      (v.patch < w.patch ∨ v.patch = w.patch ∧ preKey v.pre < preKey w.pre)) := by
  change v.lexKey < w.lexKey ↔ _
  simp only [lexKey, Prod.Lex.lt_iff, ofLex_toLex]

theorem preKey_le_top (p : List PreId) : preKey p ≤ preKey [] := by
  simp [preKey]

/-- Nothing between the prereleases of a version and the version itself. -/
theorem preKey_lt_top {p : List PreId} : preKey p < preKey [] ↔ p ≠ [] := by
  by_cases hp : p = [] <;> simp [preKey, hp]

/-! ### Rendering and parsing -/

/-- `.`-joined prerelease identifiers. -/
def preChars (pre : List PreId) : List Char := ['.'].intercalate (pre.map PreId.chars)

/-- The three components joined by `.`. -/
def coreChars (v : PackageVersion) : List Char :=
  ['.'].intercalate [numeral v.major, numeral v.minor, numeral v.patch]

/-- Canonical rendering. -/
def chars (v : PackageVersion) : List Char :=
  v.coreChars ++ if v.pre = [] then [] else '-' :: preChars v.pre

/-- Canonical rendering as a string. -/
def display (v : PackageVersion) : String := String.ofList v.chars

end PackageVersion

/-- Dot-separated nonempty identifiers; leading zeros are allowed. -/
def isBuildMetadata (s : List Char) : Bool :=
  (s.splitOn '.').all fun part => !part.isEmpty && part.all isIdentChar

/-- The text before a separator and, if there is one, the text after it. -/
def splitOptional (x : Char) (s : List Char) : List Char × Option (List Char) :=
  match splitOnce x s with
  | some (a, b) => (a, some b)
  | none => (s, none)

/-- `major.minor.patch`. -/
def parseCore (s : List Char) : Option PackageVersion :=
  match s.splitOn '.' with
  | [major, minor, patch] => do
    some (PackageVersion.stable (← parseU64 major) (← parseU64 minor) (← parseU64 patch))
  | _ => none

/-- Dot-separated prerelease identifiers, if present. -/
def parsePre : Option (List Char) → Option (List PreId)
  | some s => (s.splitOn '.').mapM PreId.parse
  | none => some []

/-- Parse a version with its optional build metadata. -/
def semverParse (s : List Char) : Option (PackageVersion × Option (List Char)) := do
  let (main, build) := splitOptional '+' s
  let (core, pre) := splitOptional '-' main
  let v ← parseCore core
  let ids ← parsePre pre
  if build.all isBuildMetadata then some ({ v with pre := ids }, build) else none

namespace PackageVersion

/-- Build metadata is rejected. -/
def parse (s : List Char) : Option PackageVersion :=
  match semverParse s with
  | some (v, none) => some v
  | _ => none

end PackageVersion

/-! ### Round trips -/

@[simp] theorem parseU64_numeral (n : U64) : parseU64 (numeral n) = some n := by
  simp [parseU64]

theorem numeral_of_parseU64 {s : List Char} {n : U64} (h : parseU64 s = some n) :
    numeral n = s := by
  obtain ⟨m, hm, hn⟩ := Option.bind_eq_some_iff.mp h
  split_ifs at hn with hlt
  rw [← Option.some_inj.mp hn]
  exact numeral_parseNat hm

theorem isIdentChar_of_isDigit {c : Char} (h : c.isDigit = true) : isIdentChar c = true := by
  simp [isIdentChar, isAsciiAlphanumeric, h]

namespace PreId

theorem isIdentChar_of_mem_chars {p : PreId} {c : Char} (h : c ∈ p.chars) :
    isIdentChar c = true := by
  cases p with
  | num n => exact isIdentChar_of_isDigit (digit_mem_numeral h)
  | alnum s hs =>
    simp only [isAlnumIdent, Bool.and_eq_true, List.all_eq_true] at hs
    exact hs.1.2 c h

@[simp] theorem parse_chars (p : PreId) : parse p.chars = some p := by
  cases p with
  | num n => simp [parse, chars]
  | alnum s hs =>
    -- an alphanumeric identifier has a character that is no digit
    have hnum : isNumeral s.toList = false := by
      rw [isAlnumIdent, Bool.and_eq_true, Bool.not_eq_true'] at hs
      cases hd : s.toList with
      | nil => rfl
      | cons c cs => simp only [isNumeral, ← hd, hs.2, Bool.false_and]
    have hs' : isAlnumIdent (alnum s hs).chars = true := hs
    simp only [parse, chars, parseNat, hnum, if_neg Bool.false_ne_true, dif_pos hs,
      String.ofList_toList]

theorem chars_of_parse {s : List Char} {p : PreId} (h : parse s = some p) : p.chars = s := by
  rw [parse] at h
  cases hn : parseNat s with
  | some n =>
    rw [hn] at h
    rw [← Option.some_inj.mp h, chars, numeral_parseNat hn]
  | none =>
    rw [hn] at h
    simp only at h
    split_ifs at h
    rw [← Option.some_inj.mp h, chars, String.toList_ofList]

end PreId

theorem mapM_parse_chars (l : List PreId) : (l.map PreId.chars).mapM PreId.parse = some l := by
  induction l with
  | nil => rfl
  | cons p ps ih => simp [ih]

theorem chars_of_mapM_parse {parts : List (List Char)} {l : List PreId}
    (h : parts.mapM PreId.parse = some l) : l.map PreId.chars = parts := by
  induction parts generalizing l with
  | nil => simp_all
  | cons part parts ih =>
    simp only [List.mapM_cons, Option.bind_eq_bind, Option.bind_eq_some_iff, Option.pure_def,
      Option.some.injEq] at h
    obtain ⟨p, hp, ps, hps, rfl⟩ := h
    rw [List.map_cons, PreId.chars_of_parse hp, ih hps]

theorem splitOptional_append {x : Char} {a : List Char} (h : x ∉ a) (b : List Char) :
    splitOptional x (a ++ x :: b) = (a, some b) := by
  rw [splitOptional, splitOnce_append h]

theorem splitOnce_eq_none {x : Char} {s : List Char} (h : x ∉ s) : splitOnce x s = none := by
  cases hs : splitOnce x s with
  | none => rfl
  | some p => exact absurd (by simp [(eq_append_of_splitOnce hs).1]) h

theorem splitOptional_of_not_mem {x : Char} {s : List Char} (h : x ∉ s) :
    splitOptional x s = (s, none) := by
  rw [splitOptional, splitOnce_eq_none h]

namespace PackageVersion

theorem mem_coreChars {v : PackageVersion} {c : Char} (h : c ∈ v.coreChars) :
    c.isDigit = true ∨ c = '.' := by
  simp only [coreChars, List.intercalate, List.intersperse, List.flatten_cons,
    List.flatten_nil, List.append_nil, List.mem_append, List.mem_singleton] at h
  rcases h with h | h | h | h | h
  · exact Or.inl (digit_mem_numeral h)
  · exact Or.inr h
  · exact Or.inl (digit_mem_numeral h)
  · exact Or.inr h
  · exact Or.inl (digit_mem_numeral h)

theorem mem_preChars {l : List PreId} {c : Char} (h : c ∈ preChars l) :
    isIdentChar c = true ∨ c = '.' := by
  induction l with
  | nil => simp [preChars, List.intercalate] at h
  | cons p ps ih =>
    cases ps with
    | nil =>
      left
      exact PreId.isIdentChar_of_mem_chars (by simpa [preChars, List.intercalate] using h)
    | cons q qs =>
      have hsplit : preChars (p :: q :: qs) = p.chars ++ '.' :: preChars (q :: qs) := by
        simp [preChars, List.intercalate]
      rw [hsplit, List.mem_append, List.mem_cons] at h
      rcases h with h | h | h
      · exact Or.inl (PreId.isIdentChar_of_mem_chars h)
      · exact Or.inr h
      · exact ih h

/-- A rendered version has only identifier characters and dots. -/
theorem mem_chars {v : PackageVersion} {c : Char} (h : c ∈ v.chars) :
    isIdentChar c = true ∨ c = '.' := by
  rw [chars, List.mem_append] at h
  rcases h with h | h
  · exact (mem_coreChars h).imp_left isIdentChar_of_isDigit
  · split_ifs at h with hp
    · simp at h
    · rcases List.mem_cons.mp h with rfl | h
      · left
        decide
      · exact mem_preChars h

theorem not_mem_chars {v : PackageVersion} {c : Char} (hc : isIdentChar c = false)
    (hdot : c ≠ '.') : c ∉ v.chars := fun h => by
  rcases mem_chars h with h | h
  · rw [hc] at h
    simp at h
  · exact hdot h

theorem parseCore_coreChars (v : PackageVersion) :
    parseCore v.coreChars = some { v with pre := [] } := by
  have hsplit : v.coreChars.splitOn '.' =
      [numeral v.major, numeral v.minor, numeral v.patch] := by
    refine splitOn_join (fun p hp hmem => ?_) (by simp)
    have hdig : ('.' : Char).isDigit = true := by
      simp only [List.mem_cons, List.not_mem_nil, or_false] at hp
      rcases hp with rfl | rfl | rfl <;> exact digit_mem_numeral hmem
    simp at hdig
  simp [parseCore, hsplit, stable]

theorem parsePre_preChars {l : List PreId} (h : l ≠ []) : parsePre (some (preChars l)) = some l := by
  have hsplit : (preChars l).splitOn '.' = l.map PreId.chars := by
    refine splitOn_join (fun p hp hmem => ?_) (by simpa using h)
    obtain ⟨q, _, rfl⟩ := List.mem_map.mp hp
    exact absurd (PreId.isIdentChar_of_mem_chars hmem) (by decide)
  rw [parsePre, hsplit, mapM_parse_chars]

theorem semverParse_chars (v : PackageVersion) : semverParse v.chars = some (v, none) := by
  have hplus : splitOptional '+' v.chars = (v.chars, none) :=
    splitOptional_of_not_mem (not_mem_chars (by decide) (by decide))
  have hcore : '-' ∉ v.coreChars := fun h => by
    rcases mem_coreChars h with h | h
    · exact absurd h (by decide)
    · exact absurd h (by decide)
  by_cases hp : v.pre = []
  · have hv : v.chars = v.coreChars := by simp [chars, hp]
    rw [hv] at hplus ⊢
    simp only [semverParse, hplus, splitOptional_of_not_mem hcore, parseCore_coreChars, parsePre]
    simp [← hp]
  · have hv : v.chars = v.coreChars ++ '-' :: preChars v.pre := by simp [chars, hp]
    rw [hv] at hplus ⊢
    simp only [semverParse, hplus, splitOptional_append hcore, parseCore_coreChars,
      parsePre_preChars hp]
    simp

/-- **The rendering of a version parses to it.** -/
@[simp] theorem parse_chars (v : PackageVersion) : parse v.chars = some v := by
  rw [parse, semverParse_chars]

theorem coreChars_of_parseCore {s : List Char} {v : PackageVersion} (h : parseCore s = some v) :
    v.coreChars = s ∧ v.pre = [] := by
  rw [parseCore] at h
  split at h
  · rename_i a b c habc
    simp only [Option.bind_eq_bind, Option.bind_eq_some_iff, Option.some.injEq] at h
    obtain ⟨x, hx, y, hy, z, hz, rfl⟩ := h
    refine ⟨?_, rfl⟩
    simp only [coreChars, stable, numeral_of_parseU64 hx, numeral_of_parseU64 hy,
      numeral_of_parseU64 hz]
    rw [← habc, List.intercalate_splitOn]
  · simp at h

/-- **Every accepted text is the rendering of its version.** -/
theorem chars_of_parse {s : List Char} {v : PackageVersion} (h : parse s = some v) :
    v.chars = s := by
  rw [parse] at h
  split at h
  · rename_i w hw
    obtain rfl := Option.some_inj.mp h
    rw [semverParse, splitOptional] at hw
    cases hplus : splitOnce '+' s with
    | some p =>
      rw [hplus] at hw
      simp only [Option.bind_eq_bind, Option.bind_eq_some_iff] at hw
      obtain ⟨x, _, y, _, hw⟩ := hw
      split_ifs at hw
      simp at hw
    | none =>
      rw [hplus] at hw
      simp only [Option.bind_eq_bind, Option.bind_eq_some_iff] at hw
      obtain ⟨x, hx, y, hy, hw⟩ := hw
      split_ifs at hw
      obtain ⟨rfl, _⟩ := Prod.mk.inj (Option.some_inj.mp hw)
      obtain ⟨hcore, _⟩ := coreChars_of_parseCore hx
      have hxy : ({ x with pre := y } : PackageVersion).coreChars = x.coreChars := rfl
      rw [splitOptional] at hcore hy
      cases hminus : splitOnce '-' s with
      | none =>
        rw [hminus] at hcore hy
        obtain rfl : [] = y := Option.some_inj.mp hy
        simp [chars, hxy, hcore]
      | some p =>
        obtain ⟨a, b⟩ := p
        rw [hminus] at hcore hy
        have hmap := chars_of_mapM_parse hy
        have hne : y ≠ [] := by
          rintro rfl
          exact List.splitOn_ne_nil '.' b hmap.symm
        simp only [chars, hne, if_false, hxy, preChars, hmap, List.intercalate_splitOn, hcore]
        exact (eq_append_of_splitOnce hminus).1.symm
  · simp at h

end PackageVersion

end Tapid
