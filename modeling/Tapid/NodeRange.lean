/-
Version ranges against the documented node-semver desugaring.

A range is written from full and partial versions, operators, hyphens,
intersections and unions.  Its meaning is given twice: by desugaring into
primitive comparisons over unbounded components, with `-0` below every upper
bound that is not written out, and by `Requirement.matchesVersion` on the
parsed text.  The two differ on two kinds of comparator only:

* a caret admits the prereleases of its upper bound (`Comparator.Leaks`);
* at the largest 64-bit component two comparators admit too little
  (`Comparator.Misses`).

* `Comparator.admits_iff` — one comparator, parsed and desugared;
* `Clause.toClause_admits_iff_or`, `Clause.satisfiedBy_iff_or` — one clause.
-/
import Tapid.Requirement

namespace Tapid

open Text

namespace NodeRange

/-! ### Ranges -/

/-- A full or partial version. -/
inductive Base where
  | major (M : U64)
  | minor (M m : U64)
  | full (v : PackageVersion)
  deriving DecidableEq

/-- An operator applied to a version. -/
structure Comparator where
  op : RequirementOperator
  base : Base
  deriving DecidableEq

/-- One alternative of a range. -/
inductive Clause where
  | hyphen (lower upper : Base)
  | comparators (cs : List Comparator)
  deriving DecidableEq

/-- A hyphen range is an inclusive lower and an inclusive upper comparator. -/
def Clause.parts : Clause → List Comparator
  | .hyphen lower upper => [⟨.greaterEqual, lower⟩, ⟨.lessEqual, upper⟩]
  | .comparators cs => cs

/-! ### The desugaring -/

/-- A version with unbounded components. -/
structure Bound where
  major : Nat
  minor : Nat
  patch : Nat
  pre : List PreId
  deriving DecidableEq

namespace Bound

/-- Precedence key. -/
def key (b : Bound) : Nat ×ₗ Nat ×ₗ Nat ×ₗ WithTop (List PreId) :=
  toLex (b.major, toLex (b.minor, toLex (b.patch, PackageVersion.preKey b.pre)))

def ofVersion (v : PackageVersion) : Bound := ⟨v.major, v.minor, v.patch, v.pre⟩

def stable (major minor patch : Nat) : Bound := ⟨major, minor, patch, []⟩

/-- `major.minor.patch-0`, below every prerelease of the release. -/
def below (major minor patch : Nat) : Bound := ⟨major, minor, patch, [.num 0]⟩

/-- The version is, or is a prerelease of, the release of the bound. -/
def SameRelease (b : Bound) (v : PackageVersion) : Prop :=
  v.major.val = b.major ∧ v.minor.val = b.minor ∧ v.patch.val = b.patch

instance (b : Bound) (v : PackageVersion) : Decidable (b.SameRelease v) :=
  inferInstanceAs (Decidable (_ ∧ _ ∧ _))

end Bound

/-- Comparison with a bound. -/
inductive Relation where
  | lt
  | le
  | eq
  | ge
  | gt
  deriving DecidableEq

/-- A comparator of the desugared form. -/
structure Primitive where
  rel : Relation
  bound : Bound
  deriving DecidableEq

namespace Primitive

def test (p : Primitive) (v : PackageVersion) : Bool :=
  let key := (Bound.ofVersion v).key
  match p.rel with
  | .lt => key < p.bound.key
  | .le => key ≤ p.bound.key
  | .eq => key = p.bound.key
  | .ge => p.bound.key ≤ key
  | .gt => p.bound.key < key

/-- The comparator carries a prerelease on the release of the version. -/
def opens (p : Primitive) (v : PackageVersion) : Bool :=
  p.bound.pre ≠ [] ∧ p.bound.SameRelease v

end Primitive

namespace Base

/-- The least version a base stands for. -/
def floor : Base → Bound
  | .major M => .stable M 0 0
  | .minor M m => .stable M m 0
  | .full v => .ofVersion v

/-- Exclusive bound of a tilde range, and of the versions a partial base stands for. -/
def tildeCeiling : Base → Bound
  | .major M => .below (M.val + 1) 0 0
  | .minor M m => .below M (m.val + 1) 0
  | .full v => .below v.major (v.minor.val + 1) 0

/-- Exclusive bound of a caret range: the next change of the leftmost nonzero
component among those written out. -/
def caretCeiling : Base → Bound
  | .major M => .below (M.val + 1) 0 0
  | .minor M m => if M.val = 0 then .below 0 (m.val + 1) 0 else .below (M.val + 1) 0 0
  | .full v =>
    if v.major.val ≠ 0 then .below (v.major.val + 1) 0 0
    else if v.minor.val ≠ 0 then .below 0 (v.minor.val + 1) 0
    else .below 0 0 (v.patch.val + 1)

end Base

/-- Desugaring of one comparator. -/
def Comparator.desugar (c : Comparator) : List Primitive :=
  match c.op, c.base with
  | .exact, .full v => [⟨.eq, .ofVersion v⟩]
  | .exact, b => [⟨.ge, b.floor⟩, ⟨.lt, b.tildeCeiling⟩]
  | .caret, b => [⟨.ge, b.floor⟩, ⟨.lt, b.caretCeiling⟩]
  | .tilde, b => [⟨.ge, b.floor⟩, ⟨.lt, b.tildeCeiling⟩]
  | .greater, .full v => [⟨.gt, .ofVersion v⟩]
  | .greater, .major M => [⟨.ge, .stable (M.val + 1) 0 0⟩]
  | .greater, .minor M m => [⟨.ge, .stable M (m.val + 1) 0⟩]
  | .greaterEqual, b => [⟨.ge, b.floor⟩]
  | .less, .full v => [⟨.lt, .ofVersion v⟩]
  | .less, .major M => [⟨.lt, .below M 0 0⟩]
  | .less, .minor M m => [⟨.lt, .below M m 0⟩]
  | .lessEqual, .full v => [⟨.le, .ofVersion v⟩]
  | .lessEqual, b => [⟨.lt, b.tildeCeiling⟩]

def Clause.desugar (C : Clause) : List Primitive := C.parts.flatMap Comparator.desugar

/-- All comparators hold, and a prerelease needs one that carries a prerelease
on the same release. -/
def Clause.satisfiedBy (C : Clause) (v : PackageVersion) : Bool :=
  C.desugar.all (·.test v) && (!v.isPrerelease || C.desugar.any (·.opens v))

/-- Whether a version satisfies a union of clauses. -/
def satisfies (R : List Clause) (v : PackageVersion) : Bool := R.any (·.satisfiedBy v)

/-! ### The parsed form -/

def Base.toBase : Base → RequirementBase
  | .major M => ⟨.stable M 0 0, .major⟩
  | .minor M m => ⟨.stable M m 0, .minor⟩
  | .full v => ⟨v, .full⟩

def Comparator.toComparator (c : Comparator) : RequirementComparator := ⟨c.op, c.base.toBase⟩

def Clause.toClause (C : Clause) : RequirementClause :=
  .comparators (C.parts.map Comparator.toComparator)

/-! ### Where the two meanings differ -/

namespace Comparator

/-- A caret range and a prerelease of its upper bound: parsed, the bound is the
stable release, which the prerelease is below. -/
def Leaks (c : Comparator) (v : PackageVersion) : Prop :=
  c.op = .caret ∧ v.isPrerelease = true ∧ c.base.caretCeiling.SameRelease v

/-- The two comparators whose parsed bound would need a component above 64 bits:
`^0.0.MAX-pre` admits its base only, and `>M.MAX` starts at the stable release
`(M+1).0.0`. -/
def Misses (c : Comparator) (v : PackageVersion) : Prop :=
  match c.op, c.base with
  | .caret, .full b =>
    b.major.val = 0 ∧ b.minor.val = 0 ∧ b.patch.val + 1 = 2 ^ 64 ∧
      (Bound.ofVersion b).SameRelease v ∧ b < v
  | .greater, .minor M m =>
    m.val + 1 = 2 ^ 64 ∧ v.isPrerelease = true ∧ (Bound.stable (M.val + 1) 0 0).SameRelease v
  | _, _ => False

/-- All primitives of the comparator hold. -/
def Holds (c : Comparator) (v : PackageVersion) : Prop := ∀ p ∈ c.desugar, p.test v = true

end Comparator

namespace Clause

/-- Stable versions, and prereleases of a release a comparator names a prerelease of. -/
def Eligible (C : Clause) (v : PackageVersion) : Prop :=
  v.isPrerelease = true → ∃ c ∈ C.parts, ∃ b, c.base = .full b ∧ b.isPrerelease = true ∧
    (Bound.ofVersion b).SameRelease v

/-- Every comparator holds and none is at a differing case. -/
def PlainlyAdmits (C : Clause) (v : PackageVersion) : Prop :=
  C.Eligible v ∧ ∀ c ∈ C.parts, c.Holds v ∧ ¬ c.Misses v

/-- Some caret leaks the version and nothing else in the clause stops it. -/
def LeaksOn (C : Clause) (v : PackageVersion) : Prop :=
  C.Eligible v ∧ (∀ c ∈ C.parts, c.Leaks v ∨ c.Holds v ∧ ¬ c.Misses v) ∧ ∃ c ∈ C.parts, c.Leaks v

/-- Every comparator holds and some comparator misses the version. -/
def MissesOn (C : Clause) (v : PackageVersion) : Prop :=
  C.Eligible v ∧ (∀ c ∈ C.parts, c.Holds v) ∧ ∃ c ∈ C.parts, c.Misses v

end Clause

/-! ### Comparisons with bounds -/

namespace Bound

theorem key_lt_iff {a b : Bound} : a.key < b.key ↔
    a.major < b.major ∨ a.major = b.major ∧ (a.minor < b.minor ∨ a.minor = b.minor ∧
      (a.patch < b.patch ∨ a.patch = b.patch ∧
        PackageVersion.preKey a.pre < PackageVersion.preKey b.pre)) := by
  simp only [key, Prod.Lex.lt_iff, ofLex_toLex]

theorem key_ofVersion_lt {v w : PackageVersion} : (ofVersion v).key < (ofVersion w).key ↔ v < w := by
  rw [key_lt_iff, PackageVersion.lt_iff]
  simp only [ofVersion, Fin.lt_def, Fin.ext_iff]

theorem key_ofVersion_le {v w : PackageVersion} : (ofVersion v).key ≤ (ofVersion w).key ↔ v ≤ w := by
  rw [← not_lt, ← not_lt, key_ofVersion_lt]

theorem key_ofVersion_eq {v w : PackageVersion} : (ofVersion v).key = (ofVersion w).key ↔ v = w := by
  rw [le_antisymm_iff, key_ofVersion_le, key_ofVersion_le, ← le_antisymm_iff]

/-- `-0` is the least prerelease. -/
theorem preKey_zero_le (p : List PreId) : PackageVersion.preKey [.num 0] ≤ PackageVersion.preKey p := by
  cases p with
  | nil => exact PackageVersion.preKey_le_top _
  | cons q qs =>
    have hq : PreId.num 0 ≤ q := by
      change PreId.lexKey (.num 0) ≤ PreId.lexKey q
      cases q with
      | num n => exact Sum.Lex.inl_le_inl_iff.mpr (Nat.zero_le n)
      | alnum s hs => exact Sum.Lex.inl_le_inr _ _
    simp only [PackageVersion.preKey, List.cons_ne_nil, if_false, WithTop.coe_le_coe]
    rcases hq.lt_or_eq with h | rfl
    · exact le_of_lt (List.Lex.rel h)
    · rw [← not_lt]
      intro h
      cases h with
      | cons h => cases h
      | rel h => exact lt_irrefl _ h

/-- **Below `-0` is below the release component-wise.** -/
theorem key_lt_below {v : PackageVersion} {a b c : Nat} : (ofVersion v).key < (below a b c).key ↔
    v.major.val < a ∨ v.major.val = a ∧ (v.minor.val < b ∨ v.minor.val = b ∧ v.patch.val < c) := by
  rw [key_lt_iff]
  simp only [ofVersion, below, not_lt.mpr (preKey_zero_le _), and_false, or_false]

end Bound

namespace Bound

/-- Comparison with a stable release. -/
theorem key_stable_le {v : PackageVersion} {a b c : Nat} : (stable a b c).key ≤ (ofVersion v).key ↔
    a < v.major.val ∨ a = v.major.val ∧ (b < v.minor.val ∨ b = v.minor.val ∧
      (c < v.patch.val ∨ c = v.patch.val ∧ v.pre = [])) := by
  rw [← not_lt, key_lt_iff]
  simp only [ofVersion, stable, PackageVersion.preKey_lt_top]
  by_cases hpre : v.pre = []
  · simp only [hpre, ne_eq, not_true, and_false, or_false, and_true]
    omega
  · simp only [hpre, ne_eq, not_false_iff, and_true, and_false, or_false]
    omega

end Bound

/-- Components of versions in order. -/
theorem components_le {b v : PackageVersion} (h : b ≤ v) : b.major.val ≤ v.major.val ∧
    (b.major.val = v.major.val → b.minor.val ≤ v.minor.val ∧
      (b.minor.val = v.minor.val → b.patch.val ≤ v.patch.val)) := by
  rw [← not_lt, PackageVersion.lt_iff] at h
  simp only [Fin.lt_def, Fin.ext_iff] at h
  omega

theorem le_of_components_lt {b v : PackageVersion}
    (h : b.major.val < v.major.val ∨ b.major.val = v.major.val ∧ (b.minor.val < v.minor.val ∨
      b.minor.val = v.minor.val ∧ b.patch.val < v.patch.val)) : b ≤ v := by
  refine le_of_lt (PackageVersion.lt_iff.mpr ?_)
  simp only [Fin.lt_def, Fin.ext_iff]
  omega

theorem checkedSucc_eq_some {n m : U64} : n.checkedSucc = some m ↔ m.val = n.val + 1 := by
  rw [U64.checkedSucc]
  split_ifs with h
  · rw [Option.some.injEq, Fin.ext_iff]
    exact eq_comm
  · have := m.isLt
    simp only [false_iff]
    omega

theorem checkedSucc_eq_none {n : U64} : n.checkedSucc = none ↔ n.val + 1 = 2 ^ 64 := by
  have := n.isLt
  rw [U64.checkedSucc]
  split_ifs with h
  · simp only [false_iff]
    omega
  · simp only [true_iff]
    omega

theorem isPrerelease_iff {v : PackageVersion} : v.isPrerelease = true ↔ v.pre ≠ [] := by
  simp [PackageVersion.isPrerelease]

/-- Being below a stable release or one of its prereleases. -/
theorem lt_stable_iff {v u : PackageVersion} (hu : u.pre = []) : v < u ↔
    (v.major.val < u.major.val ∨ v.major.val = u.major.val ∧ (v.minor.val < u.minor.val ∨
      v.minor.val = u.minor.val ∧ v.patch.val < u.patch.val)) ∨
    v.isPrerelease = true ∧ v.major.val = u.major.val ∧ v.minor.val = u.minor.val ∧
      v.patch.val = u.patch.val := by
  rw [PackageVersion.lt_iff, hu, PackageVersion.preKey_lt_top, ← isPrerelease_iff]
  simp only [Fin.lt_def, Fin.ext_iff]
  tauto

theorem floor_eq (b : Base) : b.floor = .ofVersion b.toBase.version := by
  cases b <;> rfl

namespace Primitive

variable {v w : PackageVersion} {b : Bound}

@[simp] theorem test_lt : test ⟨.lt, b⟩ v = true ↔ (Bound.ofVersion v).key < b.key := by
  simp [test]

@[simp] theorem test_ge : test ⟨.ge, b⟩ v = true ↔ b.key ≤ (Bound.ofVersion v).key := by
  simp [test]

@[simp] theorem test_lt_ofVersion : test ⟨.lt, .ofVersion w⟩ v = true ↔ v < w := by
  rw [test_lt, Bound.key_ofVersion_lt]

@[simp] theorem test_le_ofVersion : test ⟨.le, .ofVersion w⟩ v = true ↔ v ≤ w := by
  simp [test, Bound.key_ofVersion_le]

@[simp] theorem test_eq_ofVersion : test ⟨.eq, .ofVersion w⟩ v = true ↔ v = w := by
  simp [test, Bound.key_ofVersion_eq]

@[simp] theorem test_gt_ofVersion : test ⟨.gt, .ofVersion w⟩ v = true ↔ w < v := by
  simp [test, Bound.key_ofVersion_lt]

@[simp] theorem test_floor {b : Base} : test ⟨.ge, b.floor⟩ v = true ↔ b.toBase.version ≤ v := by
  rw [test_ge, floor_eq, Bound.key_ofVersion_le]

end Primitive

namespace Comparator

variable {v : PackageVersion}

/-- A partial base with its floor and its ceiling. -/
theorem holds_pair {op : RequirementOperator} {b : Base} {p q : Primitive}
    (h : desugar ⟨op, b⟩ = [p, q]) : Holds ⟨op, b⟩ v ↔ p.test v = true ∧ q.test v = true := by
  simp [Holds, h]

theorem holds_single {op : RequirementOperator} {b : Base} {p : Primitive}
    (h : desugar ⟨op, b⟩ = [p]) : Holds ⟨op, b⟩ v ↔ p.test v = true := by
  simp [Holds, h]

theorem admits_exact {b : Base} : (toComparator ⟨.exact, b⟩).admits v = true ↔
    Holds ⟨.exact, b⟩ v := by
  cases b with
  | full b =>
    rw [holds_single rfl, Primitive.test_eq_ofVersion]
    simp only [toComparator, Base.toBase]
    simp [RequirementComparator.admits]
  | major M =>
    rw [holds_pair rfl, Primitive.test_floor, Primitive.test_lt, Base.tildeCeiling,
      Bound.key_lt_below]
    have hcode : (toComparator ⟨.exact, .major M⟩).admits v = true ↔
        PackageVersion.stable M 0 0 ≤ v ∧ v.major = M := by
      simp only [toComparator, Base.toBase, PackageVersion.stable]
      simp [RequirementComparator.admits]
    rw [hcode, Fin.ext_iff]
    refine and_congr_right fun h => ?_
    have := (components_le h).1
    simp only [PackageVersion.stable] at this
    omega
  | minor M m =>
    rw [holds_pair rfl, Primitive.test_floor, Primitive.test_lt, Base.tildeCeiling,
      Bound.key_lt_below]
    have hcode : (toComparator ⟨.exact, .minor M m⟩).admits v = true ↔
        PackageVersion.stable M m 0 ≤ v ∧ v.major = M ∧ v.minor = m := by
      simp only [toComparator, Base.toBase, PackageVersion.stable]
      simp [RequirementComparator.admits, and_assoc]
    rw [hcode, Fin.ext_iff, Fin.ext_iff]
    refine and_congr_right fun h => ?_
    have := components_le h
    simp only [PackageVersion.stable] at this
    omega

theorem admits_tilde {b : Base} : (toComparator ⟨.tilde, b⟩).admits v = true ↔
    Holds ⟨.tilde, b⟩ v := by
  rw [holds_pair rfl, Primitive.test_floor, Primitive.test_lt]
  have hcode : (toComparator ⟨.tilde, b⟩).admits v = true ↔ b.toBase.version ≤ v ∧
      v.major = b.toBase.version.major ∧
        (b.toBase.precision = .major ∨ v.minor = b.toBase.version.minor) := by
    simp only [toComparator]
    simp [RequirementComparator.admits, and_assoc]
  rw [hcode, Fin.ext_iff, Fin.ext_iff]
  refine and_congr_right fun h => ?_
  have := components_le h
  cases b with
  | full b =>
    simp only [Base.toBase, Base.tildeCeiling, Bound.key_lt_below, reduceCtorEq, false_or] at this ⊢
    omega
  | major M =>
    simp only [Base.toBase, Base.tildeCeiling, Bound.key_lt_below, PackageVersion.stable,
      true_or, and_true] at this ⊢
    omega
  | minor M m =>
    simp only [Base.toBase, Base.tildeCeiling, Bound.key_lt_below, PackageVersion.stable,
      reduceCtorEq, false_or] at this ⊢
    omega

theorem admits_greaterEqual {b : Base} : (toComparator ⟨.greaterEqual, b⟩).admits v = true ↔
    Holds ⟨.greaterEqual, b⟩ v := by
  rw [holds_single rfl, Primitive.test_floor]
  simp only [toComparator]
  simp [RequirementComparator.admits]

theorem admits_less {b : Base} : (toComparator ⟨.less, b⟩).admits v = true ↔
    Holds ⟨.less, b⟩ v := by
  cases b with
  | full b =>
    rw [holds_single rfl, Primitive.test_lt_ofVersion]
    simp only [toComparator, Base.toBase]
    simp [RequirementComparator.admits]
  | major M =>
    rw [holds_single rfl, Primitive.test_lt, Bound.key_lt_below]
    have hcode : (toComparator ⟨.less, .major M⟩).admits v = true ↔ v.major < M := by
      simp only [toComparator, Base.toBase, PackageVersion.stable]
      simp [RequirementComparator.admits]
    rw [hcode, Fin.lt_def]
    omega
  | minor M m =>
    rw [holds_single rfl, Primitive.test_lt, Bound.key_lt_below]
    have hcode : (toComparator ⟨.less, .minor M m⟩).admits v = true ↔
        v.major < M ∨ v.major = M ∧ v.minor < m := by
      simp only [toComparator, Base.toBase, PackageVersion.stable]
      simp [RequirementComparator.admits]
    rw [hcode, Fin.lt_def, Fin.lt_def, Fin.ext_iff]
    omega

theorem admits_lessEqual {b : Base} : (toComparator ⟨.lessEqual, b⟩).admits v = true ↔
    Holds ⟨.lessEqual, b⟩ v := by
  cases b with
  | full b =>
    rw [holds_single rfl, Primitive.test_le_ofVersion]
    simp only [toComparator, Base.toBase]
    simp [RequirementComparator.admits]
  | major M =>
    rw [holds_single rfl, Primitive.test_lt, Base.tildeCeiling, Bound.key_lt_below]
    have hcode : (toComparator ⟨.lessEqual, .major M⟩).admits v = true ↔ v.major ≤ M := by
      simp only [toComparator, Base.toBase, PackageVersion.stable]
      simp [RequirementComparator.admits]
    rw [hcode, Fin.le_def]
    omega
  | minor M m =>
    rw [holds_single rfl, Primitive.test_lt, Base.tildeCeiling, Bound.key_lt_below]
    have hcode : (toComparator ⟨.lessEqual, .minor M m⟩).admits v = true ↔
        v.major < M ∨ v.major = M ∧ v.minor ≤ m := by
      simp only [toComparator, Base.toBase, PackageVersion.stable]
      simp [RequirementComparator.admits]
    rw [hcode, Fin.lt_def, Fin.le_def, Fin.ext_iff]
    omega

end Comparator

namespace Comparator

variable {v : PackageVersion}

theorem admits_greater_upper {b : Base} (hb : b.toBase.precision ≠ .full) :
    (toComparator ⟨.greater, b⟩).admits v = true ↔
      ∃ upper, partialUpperBound b.toBase.version b.toBase.precision = some upper ∧ upper ≤ v := by
  simp only [toComparator]
  simp [RequirementComparator.admits, hb, Option.any_eq_true]

/-- The stable release of an upper bound, compared component by component. -/
theorem stable_le_iff {a b c : U64} : PackageVersion.stable a b c ≤ v ↔
    a.val < v.major.val ∨ a.val = v.major.val ∧ (b.val < v.minor.val ∨ b.val = v.minor.val ∧
      (c.val < v.patch.val ∨ c.val = v.patch.val ∧ v.pre = [])) := by
  rw [← Bound.key_ofVersion_le]
  exact Bound.key_stable_le

theorem admits_greater {b : Base} : (toComparator ⟨.greater, b⟩).admits v = true ↔
    Holds ⟨.greater, b⟩ v ∧ ¬ Misses ⟨.greater, b⟩ v := by
  have hmajor := v.major.isLt
  have hminor := v.minor.isLt
  cases b with
  | full b =>
    rw [holds_single rfl, Primitive.test_gt_ofVersion]
    simp only [toComparator, Base.toBase, Misses, not_false_iff, and_true]
    simp [RequirementComparator.admits]
  | major M =>
    rw [admits_greater_upper (by simp [Base.toBase]), holds_single rfl, Primitive.test_ge,
      Bound.key_stable_le]
    simp only [Base.toBase, partialUpperBound, PackageVersion.stable, Option.map_eq_some_iff,
      Misses, not_false_iff, and_true]
    constructor
    · rintro ⟨_, ⟨M', hM', rfl⟩, hle⟩
      rw [checkedSucc_eq_some] at hM'
      have := stable_le_iff.mp hle
      simp only [Fin.val_zero] at this
      rwa [← hM']
    · intro hle
      have hlt : M.val + 1 < 2 ^ 64 := by omega
      refine ⟨_, ⟨⟨M.val + 1, hlt⟩, checkedSucc_eq_some.mpr rfl, rfl⟩, stable_le_iff.mpr ?_⟩
      simpa using hle
  | minor M m =>
    rw [admits_greater_upper (by simp [Base.toBase]), holds_single rfl, Primitive.test_ge,
      Bound.key_stable_le]
    simp only [Base.toBase, partialUpperBound, PackageVersion.stable, Misses, isPrerelease_iff,
      Bound.SameRelease, Bound.stable]
    cases hm : m.checkedSucc with
    | some m' =>
      rw [checkedSucc_eq_some] at hm
      have := m'.isLt
      simp only [Option.map_some, Option.some_or, Option.some.injEq, exists_eq_left']
      have hle := @stable_le_iff v M m' 0
      simp only [PackageVersion.stable, Fin.val_zero] at hle
      rw [hle, hm]
      have hfits : ¬ m.val + 1 = 2 ^ 64 := by omega
      rw [and_iff_left fun hmiss => hfits hmiss.1]
    | none =>
      -- the next minor does not fit: the code goes on to the next major
      rw [checkedSucc_eq_none] at hm
      simp only [Option.map_none, Option.none_or, Option.map_eq_some_iff]
      constructor
      · rintro ⟨_, ⟨M', hM', rfl⟩, hle⟩
        rw [checkedSucc_eq_some] at hM'
        have := stable_le_iff.mp hle
        simp only [Fin.val_zero] at this
        by_cases hpre : v.pre = []
        · simp only [hpre, and_true, ne_eq, not_true, false_and, and_false, not_false_iff] at this ⊢
          omega
        · simp only [hpre, and_false, or_false, ne_eq, not_false_iff, true_and] at this ⊢
          omega
      · rintro ⟨hge, hmiss⟩
        have hlt : M.val + 1 < 2 ^ 64 := by omega
        refine ⟨_, ⟨⟨M.val + 1, hlt⟩, checkedSucc_eq_some.mpr rfl, rfl⟩, stable_le_iff.mpr ?_⟩
        simp only [Fin.val_zero]
        by_cases hpre : v.pre = []
        · simp only [hpre, and_true]
          omega
        · simp only [hpre, hm, and_false, or_false, ne_eq, not_false_iff, true_and] at hmiss hge ⊢
          omega

end Comparator

namespace Comparator

variable {v : PackageVersion}

/-- A caret with a representable upper bound admits what is below the bound,
prereleases of the bound included. -/
theorem admits_bounded_caret {b : Base} {u : PackageVersion}
    (hu : caretUpperBound b.toBase = some u) (hpre : u.pre = [])
    (hceil : b.caretCeiling = .below u.major u.minor u.patch)
    (hlt : ∀ w : PackageVersion, w.major = u.major → w.minor = u.minor → w.patch = u.patch →
      b.toBase.version ≤ w) (hmiss : ¬ Misses ⟨.caret, b⟩ v) :
    (toComparator ⟨.caret, b⟩).admits v = true ↔
      Holds ⟨.caret, b⟩ v ∧ ¬ Misses ⟨.caret, b⟩ v ∨ Leaks ⟨.caret, b⟩ v := by
  have hcode : (toComparator ⟨.caret, b⟩).admits v = true ↔ b.toBase.version ≤ v ∧ v < u := by
    simp only [toComparator]
    simp [RequirementComparator.admits, hu]
  rw [hcode, holds_pair rfl, Primitive.test_floor, Primitive.test_lt, hceil, Bound.key_lt_below,
    lt_stable_iff hpre, and_iff_left hmiss, and_or_left]
  refine or_congr_right ?_
  simp only [Leaks, hceil, Bound.SameRelease, Bound.below, true_and]
  refine and_iff_right_of_imp ?_
  rintro ⟨_, hM, hm, hp⟩
  exact hlt v (Fin.ext hM) (Fin.ext hm) (Fin.ext hp)

theorem admits_unbounded_caret {b : Base} (hu : caretUpperBound b.toBase = none) :
    (toComparator ⟨.caret, b⟩).admits v = true ↔
      RequirementComparator.admitsUnboundedCaret b.toBase v = true := by
  simp only [toComparator, RequirementComparator.admits, hu]

/-- Without a representable bound no version has the release of the ceiling. -/
theorem not_leaks_of_ceiling {b : Base} {M m p : Nat} (hceil : b.caretCeiling = .below M m p)
    (h : 2 ^ 64 ≤ M ∨ 2 ^ 64 ≤ m ∨ 2 ^ 64 ≤ p) : ¬ Leaks ⟨.caret, b⟩ v := by
  rintro ⟨_, _, hM, hm, hp⟩
  rw [hceil] at hM hm hp
  simp only [Bound.below] at hM hm hp
  have := v.major.isLt
  have := v.minor.isLt
  have := v.patch.isLt
  omega

/-- The caret changes the major component. -/
theorem admits_caret_major {b : Base} (h : b.toBase.precision = .major ∨ 0 < b.toBase.version.major) :
    (toComparator ⟨.caret, b⟩).admits v = true ↔
      Holds ⟨.caret, b⟩ v ∧ ¬ Misses ⟨.caret, b⟩ v ∨ Leaks ⟨.caret, b⟩ v := by
  have hceil : b.caretCeiling = .below (b.toBase.version.major.val + 1) 0 0 := by
    cases b with
    | major M => rfl
    | minor M m =>
      have hM : M.val ≠ 0 := by
        rcases h with h | h
        · exact absurd h (by simp [Base.toBase])
        · exact Nat.pos_iff_ne_zero.mp h
      simp [Base.caretCeiling, hM, Base.toBase, PackageVersion.stable]
    | full b =>
      have hM : b.major.val ≠ 0 := by
        rcases h with h | h
        · exact absurd h (by simp [Base.toBase])
        · exact Nat.pos_iff_ne_zero.mp h
      simp [Base.caretCeiling, hM, Base.toBase]
  have hmiss : ¬ Misses ⟨.caret, b⟩ v := by
    cases b with
    | major M => exact not_false
    | minor M m => exact not_false
    | full b =>
      rintro ⟨hM, _⟩
      rcases h with h | h
      · exact absurd h (by simp [Base.toBase])
      · have : 0 < b.major.val := h
        omega
  have hupper : caretUpperBound b.toBase =
      b.toBase.version.major.checkedSucc.map fun major => .stable major 0 0 := by
    rw [caretUpperBound, if_pos h]
  cases hM : b.toBase.version.major.checkedSucc with
  | some M' =>
    rw [hM, Option.map_some] at hupper
    rw [checkedSucc_eq_some] at hM
    refine admits_bounded_caret hupper rfl (by simp [hceil, PackageVersion.stable, hM]) ?_ hmiss
    intro w hw _ _
    refine le_of_components_lt (Or.inl ?_)
    rw [hw, PackageVersion.stable, hM]
    omega
  | none =>
    rw [hM, Option.map_none] at hupper
    rw [checkedSucc_eq_none] at hM
    have hleak : ¬ Leaks ⟨.caret, b⟩ v := not_leaks_of_ceiling hceil (by omega)
    rw [admits_unbounded_caret hupper, RequirementComparator.admitsUnboundedCaret, if_pos h,
      holds_pair rfl, Primitive.test_floor, Primitive.test_lt, hceil, Bound.key_lt_below,
      and_iff_left hmiss, or_iff_left hleak, Bool.and_eq_true, decide_eq_true_iff, beq_iff_eq,
      Fin.ext_iff]
    refine and_congr_right fun hle => ?_
    have := (components_le hle).1
    have := v.major.isLt
    omega

/-- The caret changes the minor component. -/
theorem admits_caret_minor {b : Base}
    (h : ¬ (b.toBase.precision = .major ∨ 0 < b.toBase.version.major))
    (h' : b.toBase.precision = .minor ∨ 0 < b.toBase.version.minor) :
    (toComparator ⟨.caret, b⟩).admits v = true ↔
      Holds ⟨.caret, b⟩ v ∧ ¬ Misses ⟨.caret, b⟩ v ∨ Leaks ⟨.caret, b⟩ v := by
  have hzero : b.toBase.version.major.val = 0 := by
    by_contra hne
    exact h (Or.inr (Nat.pos_iff_ne_zero.mpr hne))
  have hceil : b.caretCeiling = .below 0 (b.toBase.version.minor.val + 1) 0 := by
    cases b with
    | major M => exact absurd (Or.inl rfl) h
    | minor M m =>
      have hM : M.val = 0 := hzero
      simp [Base.caretCeiling, hM, Base.toBase, PackageVersion.stable]
    | full b =>
      have hM : b.major.val = 0 := hzero
      have hm : b.minor.val ≠ 0 := by
        rcases h' with h' | h'
        · exact absurd h' (by simp [Base.toBase])
        · exact Nat.pos_iff_ne_zero.mp h'
      simp [Base.caretCeiling, hM, hm, Base.toBase]
  have hmiss : ¬ Misses ⟨.caret, b⟩ v := by
    cases b with
    | major M => exact not_false
    | minor M m => exact not_false
    | full b =>
      rintro ⟨_, hm, _⟩
      rcases h' with h' | h'
      · exact absurd h' (by simp [Base.toBase])
      · have : 0 < b.minor.val := h'
        omega
  have hupper : caretUpperBound b.toBase =
      b.toBase.version.minor.checkedSucc.map fun minor => .stable 0 minor 0 := by
    rw [caretUpperBound, if_neg h, if_pos h']
  cases hm : b.toBase.version.minor.checkedSucc with
  | some m' =>
    rw [hm, Option.map_some] at hupper
    rw [checkedSucc_eq_some] at hm
    refine admits_bounded_caret hupper rfl (by simp [hceil, PackageVersion.stable, hm]) ?_ hmiss
    intro w hw hw' _
    refine le_of_components_lt (Or.inr ⟨?_, Or.inl ?_⟩)
    · rw [hw, hzero]
      rfl
    · rw [hw', PackageVersion.stable, hm]
      omega
  | none =>
    rw [hm, Option.map_none] at hupper
    rw [checkedSucc_eq_none] at hm
    have hleak : ¬ Leaks ⟨.caret, b⟩ v := not_leaks_of_ceiling hceil (by omega)
    rw [admits_unbounded_caret hupper, RequirementComparator.admitsUnboundedCaret, if_neg h,
      if_pos h', holds_pair rfl, Primitive.test_floor, Primitive.test_lt, hceil,
      Bound.key_lt_below, and_iff_left hmiss, or_iff_left hleak, Bool.and_eq_true,
      Bool.and_eq_true, decide_eq_true_iff, beq_iff_eq, beq_iff_eq, and_assoc, Fin.ext_iff,
      Fin.ext_iff]
    refine and_congr_right fun hle => ?_
    have := components_le hle
    have := v.minor.isLt
    omega

/-- The caret changes the patch component; a base at the largest patch admits
only itself. -/
theorem admits_caret_patch {b : Base}
    (h : ¬ (b.toBase.precision = .major ∨ 0 < b.toBase.version.major))
    (h' : ¬ (b.toBase.precision = .minor ∨ 0 < b.toBase.version.minor)) :
    (toComparator ⟨.caret, b⟩).admits v = true ↔
      Holds ⟨.caret, b⟩ v ∧ ¬ Misses ⟨.caret, b⟩ v ∨ Leaks ⟨.caret, b⟩ v := by
  have hM : b.toBase.version.major.val = 0 := by
    by_contra hne
    exact h (Or.inr (Nat.pos_iff_ne_zero.mpr hne))
  have hm : b.toBase.version.minor.val = 0 := by
    by_contra hne
    exact h' (Or.inr (Nat.pos_iff_ne_zero.mpr hne))
  cases b with
  | major M => exact absurd (Or.inl rfl) h
  | minor M m => exact absurd (Or.inl rfl) h'
  | full b =>
    simp only [Base.toBase] at hM hm
    have hceil : (Base.full b).caretCeiling = .below 0 0 (b.patch.val + 1) := by
      simp [Base.caretCeiling, hM, hm]
    have hupper : caretUpperBound (Base.full b).toBase =
        b.patch.checkedSucc.map fun patch => .stable 0 0 patch := by
      rw [caretUpperBound, if_neg h, if_neg h']
      rfl
    cases hp : b.patch.checkedSucc with
    | some p' =>
      rw [hp, Option.map_some] at hupper
      rw [checkedSucc_eq_some] at hp
      have hmiss : ¬ Misses ⟨.caret, .full b⟩ v := by
        rintro ⟨_, _, hmax, _⟩
        have := p'.isLt
        omega
      refine admits_bounded_caret hupper rfl (by simp [hceil, PackageVersion.stable, hp]) ?_ hmiss
      intro w hw hw' hw''
      refine le_of_components_lt (Or.inr ⟨?_, Or.inr ⟨?_, ?_⟩⟩)
      · rw [hw]
        exact hM
      · rw [hw']
        exact hm
      · rw [hw'', PackageVersion.stable, hp]
        exact Nat.lt_succ_self _
    | none =>
      rw [hp, Option.map_none] at hupper
      rw [checkedSucc_eq_none] at hp
      have hleak : ¬ Leaks ⟨.caret, .full b⟩ v := not_leaks_of_ceiling hceil (by omega)
      rw [admits_unbounded_caret hupper, RequirementComparator.admitsUnboundedCaret, if_neg h,
        if_neg h', holds_pair rfl, Primitive.test_floor, Primitive.test_lt, hceil,
        Bound.key_lt_below, or_iff_left hleak, beq_iff_eq]
      simp only [Misses, Base.toBase, hM, hm, hp, true_and, Bound.SameRelease, Bound.ofVersion]
      constructor
      · rintro rfl
        exact ⟨⟨le_refl _, by omega⟩, fun hmiss => lt_irrefl _ hmiss.2⟩
      · rintro ⟨⟨hle, hlt⟩, hmiss⟩
        refine le_antisymm (not_lt.mp fun hgt => hmiss ⟨?_, hgt⟩) hle
        have := components_le hle
        have := v.patch.isLt
        omega

theorem admits_caret {b : Base} : (toComparator ⟨.caret, b⟩).admits v = true ↔
    Holds ⟨.caret, b⟩ v ∧ ¬ Misses ⟨.caret, b⟩ v ∨ Leaks ⟨.caret, b⟩ v := by
  by_cases h : b.toBase.precision = .major ∨ 0 < b.toBase.version.major
  · exact admits_caret_major h
  by_cases h' : b.toBase.precision = .minor ∨ 0 < b.toBase.version.minor
  · exact admits_caret_minor h h'
  · exact admits_caret_patch h h'

/-- **One comparator: the parsed reading against the desugared one.** -/
theorem admits_iff {c : Comparator} : c.toComparator.admits v = true ↔
    c.Leaks v ∨ c.Holds v ∧ ¬ c.Misses v := by
  obtain ⟨op, b⟩ := c
  -- away from the caret nothing leaks, and only `>` misses
  have hother : ∀ {op}, op ≠ .caret → ¬ Leaks ⟨op, b⟩ v := fun hop hleak => hop hleak.1
  cases op with
  | exact =>
    rw [admits_exact, or_iff_right (hother (by decide))]
    simp [Misses]
  | caret => rw [admits_caret, or_comm]
  | tilde =>
    rw [admits_tilde, or_iff_right (hother (by decide))]
    simp [Misses]
  | greater => rw [admits_greater, or_iff_right (hother (by decide))]
  | greaterEqual =>
    rw [admits_greaterEqual, or_iff_right (hother (by decide))]
    simp [Misses]
  | less =>
    rw [admits_less, or_iff_right (hother (by decide))]
    simp [Misses]
  | lessEqual =>
    rw [admits_lessEqual, or_iff_right (hother (by decide))]
    simp [Misses]

end Comparator

/-! ### Clauses and unions -/

/-- A desugared bound is the written version, a stable release, or an
exclusive `-0` bound. -/
theorem bound_of_mem_desugar {c : Comparator} {p : Primitive} (h : p ∈ c.desugar) :
    (∃ b, c.base = .full b ∧ p.bound = .ofVersion b) ∨ p.bound.pre = [] ∨
      p.rel = .lt ∧ ∃ M m q, p.bound = .below M m q := by
  obtain ⟨op, b⟩ := c
  have hceil : ∃ M m q, b.caretCeiling = .below M m q := by
    cases b <;> simp only [Base.caretCeiling] <;> (try split_ifs) <;> exact ⟨_, _, _, rfl⟩
  obtain ⟨M, m, q, hceil⟩ := hceil
  cases op <;> cases b <;>
    simp only [Comparator.desugar, List.mem_cons, List.not_mem_nil, or_false, hceil] at h <;>
    rcases h with rfl | rfl <;>
    simp [Base.floor, Base.tildeCeiling, Bound.stable, Bound.below]

/-- Every comparator on a full version has it as a bound. -/
theorem exists_bound_of_full {c : Comparator} {b : PackageVersion} (h : c.base = .full b) :
    ∃ p ∈ c.desugar, p.bound = .ofVersion b := by
  obtain ⟨op, _⟩ := c
  obtain rfl : _ = Base.full b := h
  cases op <;> simp [Comparator.desugar, Base.floor]

theorem opensPrerelease_iff {c : Comparator} {v : PackageVersion} :
    c.toComparator.opensPrerelease v = true ↔ ∃ b, c.base = .full b ∧ b.isPrerelease = true ∧
      (Bound.ofVersion b).SameRelease v := by
  obtain ⟨op, b⟩ := c
  cases b with
  | full b =>
    simp [Comparator.toComparator, Base.toBase, RequirementComparator.opensPrerelease,
      Bound.SameRelease, Bound.ofVersion, Fin.ext_iff, and_assoc]
  | _ => simp [Comparator.toComparator, Base.toBase, RequirementComparator.opensPrerelease,
      PackageVersion.stable, PackageVersion.isPrerelease]

namespace Clause

variable {C : Clause} {v : PackageVersion}

theorem toClause_admits_iff : C.toClause.admits v = true ↔
    C.Eligible v ∧ ∀ c ∈ C.parts, c.Leaks v ∨ c.Holds v ∧ ¬ c.Misses v := by
  have hgate : (!v.isPrerelease ||
      (C.parts.map Comparator.toComparator).any (·.opensPrerelease v)) = true ↔ C.Eligible v := by
    rw [Bool.or_eq_true, Bool.not_eq_true', ← Bool.not_eq_true, ← imp_iff_not_or, List.any_map,
      List.any_eq_true, Eligible]
    simp only [Function.comp_apply, opensPrerelease_iff]
  rw [toClause, RequirementClause.admits, Bool.and_eq_true, hgate, List.all_map, List.all_eq_true]
  simp only [Function.comp_apply, Comparator.admits_iff]

/-- A `-0` bound on the release of a version is not above it, so it never
makes the version eligible. -/
theorem satisfiedBy_iff : C.satisfiedBy v = true ↔ C.Eligible v ∧ ∀ c ∈ C.parts, c.Holds v := by
  have hall : (∀ p ∈ C.desugar, p.test v = true) ↔ ∀ c ∈ C.parts, c.Holds v := by
    simp only [desugar, List.mem_flatMap, Comparator.Holds]
    exact ⟨fun h c hc p hp => h p ⟨c, hc, hp⟩, fun h p ⟨c, hc, hp⟩ => h c hc p hp⟩
  rw [satisfiedBy, Bool.and_eq_true, List.all_eq_true, hall, and_comm]
  refine and_congr_left fun hholds => ?_
  rw [Bool.or_eq_true, Bool.not_eq_true', ← Bool.not_eq_true, ← imp_iff_not_or, Eligible]
  refine imp_congr_right fun hv => ?_
  rw [List.any_eq_true]
  constructor
  · rintro ⟨p, hp, hopens⟩
    obtain ⟨c, hc, hpc⟩ := List.mem_flatMap.mp hp
    obtain ⟨hpre, hsame⟩ := of_decide_eq_true hopens
    rcases bound_of_mem_desugar hpc with ⟨b, hb, hbound⟩ | hstable | ⟨hrel, M, m, q, hbound⟩
    · rw [hbound] at hpre hsame
      exact ⟨c, hc, b, hb, isPrerelease_iff.mpr hpre, hsame⟩
    · exact absurd hstable hpre
    · obtain ⟨rel, bound⟩ := p
      simp only at hrel hbound hsame
      subst hrel hbound
      have hlt := Bound.key_lt_below.mp (Primitive.test_lt.mp (hholds c hc _ hpc))
      obtain ⟨hM, hm, hq⟩ := hsame
      simp only [Bound.below] at hM hm hq
      omega
  · rintro ⟨c, hc, b, hb, hpre, hsame⟩
    obtain ⟨p, hp, hbound⟩ := exists_bound_of_full hb
    refine ⟨p, List.mem_flatMap.mpr ⟨c, hc, hp⟩, decide_eq_true ?_⟩
    rw [hbound]
    exact ⟨isPrerelease_iff.mp hpre, hsame⟩

/-- The parsed clause admits a version plainly or through a leak. -/
theorem toClause_admits_iff_or : C.toClause.admits v = true ↔ C.PlainlyAdmits v ∨ C.LeaksOn v := by
  rw [toClause_admits_iff, PlainlyAdmits, LeaksOn, ← and_or_left]
  refine and_congr_right fun _ => ?_
  constructor
  · intro h
    by_cases hleak : ∃ c ∈ C.parts, c.Leaks v
    · exact Or.inr ⟨h, hleak⟩
    · exact Or.inl fun c hc => (h c hc).resolve_left fun hl => hleak ⟨c, hc, hl⟩
  · rintro (h | ⟨h, _⟩)
    · exact fun c hc => Or.inr (h c hc)
    · exact h

/-- The desugared clause admits a version plainly or where the parsed one misses it. -/
theorem satisfiedBy_iff_or : C.satisfiedBy v = true ↔ C.PlainlyAdmits v ∨ C.MissesOn v := by
  rw [satisfiedBy_iff, PlainlyAdmits, MissesOn, ← and_or_left]
  refine and_congr_right fun _ => ?_
  constructor
  · intro h
    by_cases hmiss : ∃ c ∈ C.parts, c.Misses v
    · exact Or.inr ⟨h, hmiss⟩
    · exact Or.inl fun c hc => ⟨h c hc, fun hm => hmiss ⟨c, hc, hm⟩⟩
  · rintro (h | ⟨h, _⟩)
    · exact fun c hc => (h c hc).1
    · exact h

end Clause

end NodeRange

end Tapid
