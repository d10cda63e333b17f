/-
Enforcement dimensions and the evidence for them.

What a sandbox restricts is reported by dimensions.  Each of them comes with a piece
of evidence, which names the processes it is about.

* `EnforcementDimensions.requestedBy` — what a policy asks for;
* `validateDimensionEvidence` — the check of a list of evidence;
* `validateDimensionEvidence_eq_ok` — one valid piece for each dimension, and no other.
-/
import Tapid.SandboxPolicy
import Mathlib.Data.List.Perm.Subperm

namespace Tapid

open Text Fallible

namespace Execution

/-! ### Dimensions -/

inductive EnforcementDimension where
  | filesystemRead
  | filesystemWrite
  | network
  | environmentSanitization
  | descriptorHygiene
  | subprocessRestriction
  | descendantAuthorityPropagation
  | descendantLifecycle
  | processTreeMembership
  | completeCleanup
  | timeout
  | output
  | processCount
  | memory
  deriving DecidableEq

structure EnforcementDimensions where
  filesystemRead : Bool
  filesystemWrite : Bool
  network : Bool
  environmentSanitization : Bool
  descriptorHygiene : Bool
  subprocessRestriction : Bool
  descendantAuthorityPropagation : Bool
  descendantLifecycle : Bool
  processTreeMembership : Bool
  completeCleanup : Bool
  timeout : Bool
  output : Bool
  processCount : Bool
  memory : Bool
  deriving DecidableEq

namespace EnforcementDimensions

def none : EnforcementDimensions where
  filesystemRead := false
  filesystemWrite := false
  network := false
  environmentSanitization := false
  descriptorHygiene := false
  subprocessRestriction := false
  descendantAuthorityPropagation := false
  descendantLifecycle := false
  processTreeMembership := false
  completeCleanup := false
  timeout := false
  output := false
  processCount := false
  memory := false

def requestedBy (policy : SandboxPolicy) : EnforcementDimensions :=
  if policy.mode = .disabled then none
  else
    let managedTree := decide (policy.assurance = .managedTree)
    { filesystemRead := true
      filesystemWrite := true
      network := true
      environmentSanitization := true
      descriptorHygiene := true
      subprocessRestriction := !policy.subprocess
      descendantAuthorityPropagation := true
      descendantLifecycle := managedTree
      processTreeMembership := managedTree
      completeCleanup := managedTree
      timeout := policy.limits.timeoutSeconds.isSome
      output := policy.limits.maxOutputBytes.isSome
      processCount := policy.limits.maxProcesses.isSome
      memory := policy.limits.maxMemoryBytes.isSome }

/-- What is known only when everything has ended. -/
def completionRequired (requested : EnforcementDimensions) : EnforcementDimensions :=
  { none with
    descendantLifecycle := requested.descendantLifecycle
    processTreeMembership := requested.processTreeMembership
    completeCleanup := requested.completeCleanup }

def contains (dimensions required : EnforcementDimensions) : Bool :=
  (!required.filesystemRead || dimensions.filesystemRead) &&
    (!required.filesystemWrite || dimensions.filesystemWrite) &&
    (!required.network || dimensions.network) &&
    (!required.environmentSanitization || dimensions.environmentSanitization) &&
    (!required.descriptorHygiene || dimensions.descriptorHygiene) &&
    (!required.subprocessRestriction || dimensions.subprocessRestriction) &&
    (!required.descendantAuthorityPropagation || dimensions.descendantAuthorityPropagation) &&
    (!required.descendantLifecycle || dimensions.descendantLifecycle) &&
    (!required.processTreeMembership || dimensions.processTreeMembership) &&
    (!required.completeCleanup || dimensions.completeCleanup) &&
    (!required.timeout || dimensions.timeout) &&
    (!required.output || dimensions.output) &&
    (!required.processCount || dimensions.processCount) &&
    (!required.memory || dimensions.memory)

/-- Each dimension, and whether it is among the given ones. -/
def pairs (dimensions : EnforcementDimensions) : List (EnforcementDimension × Bool) :=
  [(.filesystemRead, dimensions.filesystemRead),
    (.filesystemWrite, dimensions.filesystemWrite),
    (.network, dimensions.network),
    (.environmentSanitization, dimensions.environmentSanitization),
    (.descriptorHygiene, dimensions.descriptorHygiene),
    (.subprocessRestriction, dimensions.subprocessRestriction),
    (.descendantAuthorityPropagation, dimensions.descendantAuthorityPropagation),
    (.descendantLifecycle, dimensions.descendantLifecycle),
    (.processTreeMembership, dimensions.processTreeMembership),
    (.completeCleanup, dimensions.completeCleanup),
    (.timeout, dimensions.timeout),
    (.output, dimensions.output),
    (.processCount, dimensions.processCount),
    (.memory, dimensions.memory)]

/-! ### Sets of dimensions -/

def has (dimensions : EnforcementDimensions) : EnforcementDimension → Bool
  | .filesystemRead => dimensions.filesystemRead
  | .filesystemWrite => dimensions.filesystemWrite
  | .network => dimensions.network
  | .environmentSanitization => dimensions.environmentSanitization
  | .descriptorHygiene => dimensions.descriptorHygiene
  | .subprocessRestriction => dimensions.subprocessRestriction
  | .descendantAuthorityPropagation => dimensions.descendantAuthorityPropagation
  | .descendantLifecycle => dimensions.descendantLifecycle
  | .processTreeMembership => dimensions.processTreeMembership
  | .completeCleanup => dimensions.completeCleanup
  | .timeout => dimensions.timeout
  | .output => dimensions.output
  | .processCount => dimensions.processCount
  | .memory => dimensions.memory

def enabled (dimensions : EnforcementDimensions) : List EnforcementDimension :=
  (dimensions.pairs.filter fun pair => pair.2).map Prod.fst

theorem mem_pairs (dimensions : EnforcementDimensions) (dimension : EnforcementDimension) :
    (dimension, dimensions.has dimension) ∈ dimensions.pairs := by
  cases dimension <;> simp [pairs, has]

theorem has_of_mem_pairs {dimensions : EnforcementDimensions} {pair : EnforcementDimension × Bool}
    (h : pair ∈ dimensions.pairs) : pair.2 = dimensions.has pair.1 := by
  have hall : ∀ pair ∈ dimensions.pairs, pair.2 = dimensions.has pair.1 := by
    rw [pairs]
    simp only [List.forall_mem_cons]
    exact ⟨rfl, rfl, rfl, rfl, rfl, rfl, rfl, rfl, rfl, rfl, rfl, rfl, rfl, rfl, List.forall_mem_nil _⟩
  exact hall pair h

theorem mem_enabled {dimensions : EnforcementDimensions} {dimension : EnforcementDimension} :
    dimension ∈ dimensions.enabled ↔ dimensions.has dimension = true := by
  rw [enabled, List.mem_map]
  constructor
  · rintro ⟨pair, hpair, rfl⟩
    obtain ⟨hmem, htrue⟩ := List.mem_filter.mp hpair
    rw [← has_of_mem_pairs hmem]
    exact htrue
  · intro h
    exact ⟨(dimension, dimensions.has dimension), List.mem_filter.mpr ⟨mem_pairs dimensions dimension, h⟩, rfl⟩

theorem enabled_nodup (dimensions : EnforcementDimensions) : dimensions.enabled.Nodup := by
  have hnames : (dimensions.pairs.map Prod.fst).Nodup := by
    show List.Nodup [EnforcementDimension.filesystemRead, .filesystemWrite, .network, .environmentSanitization,
      .descriptorHygiene, .subprocessRestriction, .descendantAuthorityPropagation, .descendantLifecycle,
      .processTreeMembership, .completeCleanup, .timeout, .output, .processCount, .memory]
    decide
  exact (List.filter_sublist.map Prod.fst).nodup hnames

theorem contains_iff {dimensions required : EnforcementDimensions} :
    dimensions.contains required = true ↔
      ∀ dimension, required.has dimension = true → dimensions.has dimension = true := by
  have hpair : ∀ r d : Bool, (!r || d) = true ↔ (r = true → d = true) := by decide
  rw [contains]
  simp only [Bool.and_eq_true, hpair, and_assoc]
  constructor
  · rintro ⟨h1, h2, h3, h4, h5, h6, h7, h8, h9, h10, h11, h12, h13, h14⟩ dimension
    cases dimension <;> assumption
  · intro h
    exact ⟨h .filesystemRead, h .filesystemWrite, h .network, h .environmentSanitization, h .descriptorHygiene,
      h .subprocessRestriction, h .descendantAuthorityPropagation, h .descendantLifecycle, h .processTreeMembership,
      h .completeCleanup, h .timeout, h .output, h .processCount, h .memory⟩

theorem requestedBy_processTreeMembership {policy : SandboxPolicy} (h : policy.mode ≠ .disabled) :
    (requestedBy policy).processTreeMembership = decide (policy.assurance = .managedTree) := by
  rw [requestedBy, if_neg h]

end EnforcementDimensions

/-! ### Evidence -/

/-- The processes a piece of evidence is about. -/
inductive EnforcementScope where
  | launchProcess
  | descendantTree
  | managedTree
  deriving DecidableEq

structure DimensionEvidence where
  dimension : EnforcementDimension
  scope : EnforcementScope
  mechanism : String
  limitations : List String
  deriving DecidableEq

def maxBackendIdentityBytes : Nat := 255

/-- A text that a backend reports: short, on one line and not empty. -/
def validIdentity (value : String) : Bool :=
  value ≠ "" && byteLen value.toList ≤ maxBackendIdentityBytes && !value.toList.any isControl

def scopeOf (managed : Bool) : EnforcementDimension → EnforcementScope
  | .environmentSanitization | .descriptorHygiene => .launchProcess
  | .descendantLifecycle | .processTreeMembership | .completeCleanup => .managedTree
  | .timeout | .output | .processCount | .memory => if managed then .managedTree else .descendantTree
  | _ => .descendantTree

def evidenceForDimensions (dimensions : EnforcementDimensions) (mechanism : String) (limitations : List String) :
    List DimensionEvidence :=
  (dimensions.pairs.filter fun pair => pair.2).map fun pair =>
    ⟨pair.1, scopeOf dimensions.processTreeMembership pair.1, mechanism, limitations⟩

def validateDimensionEvidence (dimensions : EnforcementDimensions) (evidence : List DimensionEvidence) :
    Except ExecutionError Unit :=
  let expected := evidenceForDimensions dimensions "expected" []
  rejectIf (evidence.length ≠ expected.length ∨ expected.any fun required =>
      (evidence.filter fun candidate => candidate.dimension = required.dimension).length ≠ 1 ||
        !evidence.any fun candidate => candidate.dimension = required.dimension && candidate.scope = required.scope &&
          validIdentity candidate.mechanism && candidate.limitations.all validIdentity)
    ⟨.unsupportedContainment,
      "backend dimension metadata is incomplete, duplicated, invalid, or has the wrong scope"⟩

/-- One valid piece of evidence for each of the dimensions, and none for another. -/
structure Covers (dimensions : EnforcementDimensions) (evidence : List DimensionEvidence) : Prop where
  one : ∀ dimension, (evidence.filter fun item => item.dimension = dimension).length =
    if dimensions.has dimension then 1 else 0
  scope : ∀ item ∈ evidence, item.scope = scopeOf dimensions.processTreeMembership item.dimension
  valid : ∀ item ∈ evidence, validIdentity item.mechanism = true ∧ ∀ text ∈ item.limitations, validIdentity text = true

section Evidence

variable {dimensions : EnforcementDimensions} {evidence : List DimensionEvidence}

theorem count_dimension (evidence : List DimensionEvidence) (dimension : EnforcementDimension) :
    (evidence.filter fun item => item.dimension = dimension).length =
      (evidence.map DimensionEvidence.dimension).count dimension := by
  rw [List.count, List.countP_map, List.countP_eq_length_filter]
  congr 1

theorem length_evidenceForDimensions (mechanism : String) (limitations : List String) :
    (evidenceForDimensions dimensions mechanism limitations).length = dimensions.enabled.length := by
  rw [evidenceForDimensions, EnforcementDimensions.enabled, List.length_map, List.length_map]

theorem mem_evidenceForDimensions {mechanism : String} {limitations : List String} {item : DimensionEvidence} :
    item ∈ evidenceForDimensions dimensions mechanism limitations ↔ ∃ dimension ∈ dimensions.enabled,
      item = ⟨dimension, scopeOf dimensions.processTreeMembership dimension, mechanism, limitations⟩ := by
  rw [evidenceForDimensions, EnforcementDimensions.enabled]
  simp only [List.mem_map]
  constructor
  · rintro ⟨pair, hpair, rfl⟩
    exact ⟨pair.1, ⟨pair, hpair, rfl⟩, rfl⟩
  · rintro ⟨_, ⟨pair, hpair, rfl⟩, rfl⟩
    exact ⟨pair, hpair, rfl⟩

theorem count_enabled (dimensions : EnforcementDimensions) (dimension : EnforcementDimension) :
    dimensions.enabled.count dimension = if dimensions.has dimension then 1 else 0 := by
  by_cases h : dimensions.has dimension = true
  · rw [if_pos h]
    exact List.count_eq_one_of_mem dimensions.enabled_nodup (EnforcementDimensions.mem_enabled.mpr h)
  · rw [if_neg h]
    exact List.count_eq_zero.mpr fun hmem => h (EnforcementDimensions.mem_enabled.mp hmem)

/-- A single item of a dimension is the item that was looked for. -/
theorem eq_of_filter_length_one {α : Type} {p : α → Bool} {l : List α} (h : (l.filter p).length = 1) {a b : α}
    (ha : a ∈ l) (hpa : p a = true) (hb : b ∈ l) (hpb : p b = true) : a = b := by
  obtain ⟨c, hc⟩ := List.length_eq_one_iff.mp h
  have hleft : a ∈ l.filter p := List.mem_filter.mpr ⟨ha, hpa⟩
  have hright : b ∈ l.filter p := List.mem_filter.mpr ⟨hb, hpb⟩
  rw [hc, List.mem_singleton] at hleft hright
  rw [hleft, hright]

/-- **The check of evidence.** -/
theorem validateDimensionEvidence_eq_ok {u : Unit} :
    validateDimensionEvidence dimensions evidence = .ok u ↔ Covers dimensions evidence := by
  rw [validateDimensionEvidence, rejectIf_eq_ok, not_or, not_not, length_evidenceForDimensions, Bool.not_eq_true,
    List.any_eq_false]
  constructor
  · rintro ⟨hlen, hexpected⟩
    -- What the check says about one expected piece.
    have heach : ∀ dimension ∈ dimensions.enabled,
        (evidence.filter fun item => item.dimension = dimension).length = 1 ∧ ∃ item ∈ evidence,
          item.dimension = dimension ∧ item.scope = scopeOf dimensions.processTreeMembership dimension ∧
            validIdentity item.mechanism = true ∧ ∀ text ∈ item.limitations, validIdentity text = true := by
      intro dimension hdimension
      have hitem := hexpected _ (mem_evidenceForDimensions.mpr ⟨dimension, hdimension, rfl⟩)
      simpa [List.any_eq_true, and_assoc] using hitem
    have hsubset : dimensions.enabled ⊆ evidence.map DimensionEvidence.dimension := by
      intro dimension hdimension
      obtain ⟨_, item, hitem, rfl, _⟩ := heach dimension hdimension
      exact List.mem_map_of_mem hitem
    -- As many pieces as dimensions: there is no piece for another dimension.
    have hperm : dimensions.enabled.Perm (evidence.map DimensionEvidence.dimension) := by
      refine (List.subperm_of_subset dimensions.enabled_nodup hsubset).perm_of_length_le ?_
      rw [List.length_map, hlen]
    have hitem : ∀ item ∈ evidence, item.scope = scopeOf dimensions.processTreeMembership item.dimension ∧
        validIdentity item.mechanism = true ∧ ∀ text ∈ item.limitations, validIdentity text = true := by
      intro item hmem
      have hdimension : item.dimension ∈ dimensions.enabled := hperm.mem_iff.mpr (List.mem_map_of_mem hmem)
      obtain ⟨hone, found, hfound, hsame, hscope, hvalid⟩ := heach _ hdimension
      obtain rfl := eq_of_filter_length_one hone hmem (decide_eq_true rfl) hfound (decide_eq_true hsame)
      exact ⟨hscope, hvalid⟩
    refine ⟨fun dimension => ?_, fun item hmem => (hitem item hmem).1, fun item hmem => (hitem item hmem).2⟩
    rw [count_dimension, ← hperm.count_eq, count_enabled]
  · intro h
    have hperm : dimensions.enabled.Perm (evidence.map DimensionEvidence.dimension) := by
      rw [List.perm_iff_count]
      intro dimension
      rw [count_enabled, ← count_dimension, h.one]
    refine ⟨by rw [hperm.length_eq, List.length_map], fun required hrequired => ?_⟩
    obtain ⟨dimension, hdimension, rfl⟩ := mem_evidenceForDimensions.mp hrequired
    obtain ⟨item, hitem, hsame⟩ := List.mem_map.mp (hperm.mem_iff.mp hdimension)
    have hone := h.one dimension
    rw [if_pos (EnforcementDimensions.mem_enabled.mp hdimension)] at hone
    obtain ⟨hmechanism, hlimitations⟩ := h.valid item hitem
    have hscope := h.scope item hitem
    rw [hsame] at hscope
    simp only [hone, ne_eq, not_true_eq_false, decide_false, Bool.false_or, Bool.not_eq_true, Bool.not_eq_false',
      List.any_eq_true]
    refine ⟨item, hitem, ?_⟩
    simp only [hsame, hscope, hmechanism, decide_true, Bool.and_self, Bool.true_and, List.all_eq_true]
    exact hlimitations

end Evidence

end Execution

end Tapid
