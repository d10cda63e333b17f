/-
The source graph of a lockfile.

The source graph is the lockfile without its hook outputs; recipes are bound to
its text.  Recording outputs raises a schema version below the one that can
hold them, and the source graph puts only that one version back to the current
one, so it forgets which version an older file had.

* `sourceGraph_withDerivedHooks` — what recording outputs does to the source
  graph;
* `sourceGraph_setDerivedHooks_iff` — when the source graph stays the same.
-/
import Tapid.LockfileRoundTrip

namespace Tapid

open Text Fallible

namespace Lockfile

/-! ### Schema versions -/

/-- The schema version a recipe sees. -/
def sourceVersion (version : Nat) : Nat :=
  if version = Schema.lifecycleLockfileVersion then Schema.lockfileVersion else version

theorem sourceVersion_idem (version : Nat) :
    sourceVersion (sourceVersion version) = sourceVersion version := by
  rw [sourceVersion, sourceVersion, Schema.lifecycleLockfileVersion, Schema.lockfileVersion]
  split_ifs <;> omega

/-- The schema versions that recording outputs does not change for a recipe. -/
theorem sourceVersion_max_iff (version : Nat) :
    sourceVersion (max version Schema.lifecycleLockfileVersion) = sourceVersion version ↔
      version = Schema.lockfileVersion ∨ Schema.lifecycleLockfileVersion ≤ version := by
  rw [sourceVersion, sourceVersion, Schema.lifecycleLockfileVersion, Schema.lockfileVersion]
  split_ifs <;> omega

/-- A supported version from the current one on is the current one or can hold
outputs: there is no schema in between. -/
theorem le_of_isSupportedVersion {version : Nat} (h : isSupportedVersion version = true) :
    Schema.lockfileVersion ≤ version ↔
      version = Schema.lockfileVersion ∨ Schema.lifecycleLockfileVersion ≤ version := by
  simp only [isSupportedVersion, Schema.copiedSourceLockfileVersion, Schema.lockfileVersion,
    Schema.lifecycleLockfileVersion, Schema.legacyLockfileVersion,
    Schema.provenanceLegacyLockfileVersion, Schema.registryOnlyLockfileVersion,
    Schema.rootsLegacyLockfileVersion, Bool.or_eq_true, beq_iff_eq] at h ⊢
  omega

/-! ### Recording outputs -/

@[simp] theorem sourceGraph_lockfileVersion (l : Lockfile) :
    l.sourceGraph.lockfileVersion = sourceVersion l.lockfileVersion := rfl

/-- Lockfiles that may differ in two fields only. -/
theorem eq_of_versionPackages {l l' : Lockfile} (hversion : l'.lockfileVersion = l.lockfileVersion)
    (hpackages : l'.packages = l.packages)
    (hothers : { l' with lockfileVersion := l.lockfileVersion, packages := l.packages } = l) : l' = l := by
  rw [← hothers, ← hversion, ← hpackages]

theorem sourceGraph_idem (l : Lockfile) : l.sourceGraph.sourceGraph = l.sourceGraph := by
  have hpackages : l.sourceGraph.sourceGraph.packages = l.sourceGraph.packages := by
    refine OrdMap.ext_get? fun key => ?_
    simp only [sourceGraph, OrdMap.get?_mapVal, Option.map_map]
    rfl
  exact eq_of_versionPackages (sourceVersion_idem l.lockfileVersion) hpackages rfl

/-- Recording outputs succeeds on an entry and changes only that entry. -/
theorem setDerivedHooks_eq_ok {key : String} {outputs : List DerivedHookOutput} {l l' : Lockfile} :
    Lockfile.setDerivedHooks key outputs l = .ok () l' ↔ validateDerivedHooks outputs = .ok () ∧
      ∃ package, l.packages.get? key = some package ∧ l.withDerivedHooks key package outputs = l' := by
  rw [@Lockfile.Mutation.setDerivedHooks_run fun _ => none, Lockfile.Mutation.checked]
  cases hvalid : validateDerivedHooks outputs with
  | error e =>
    constructor
    · intro h
      cases h
    · rintro ⟨h, _⟩
      cases h
  | ok u =>
    rw [ok_bind]
    cases hpackage : l.packages.get? key with
    | none =>
      constructor
      · intro h
        cases h
      · rintro ⟨_, package, h, _⟩
        cases h
    | some package =>
      show EStateM.Result.ok () (l.withDerivedHooks key package outputs) = .ok () l' ↔ _
      rw [EStateM.Result.ok.injEq]
      constructor
      · rintro ⟨_, rfl⟩
        exact ⟨rfl, package, rfl, rfl⟩
      · rintro ⟨_, _, heq, rfl⟩
        rw [Option.some_inj.mp heq]
        exact ⟨rfl, rfl⟩

/-- Recorded outputs are not part of the source graph; the schema version is. -/
theorem sourceGraph_withDerivedHooks {l : Lockfile} {key : String} {package : LockedPackage}
    (hpackage : l.packages.get? key = some package) (outputs : List DerivedHookOutput) :
    (l.withDerivedHooks key package outputs).sourceGraph =
      { l.sourceGraph with
        lockfileVersion := sourceVersion (l.withDerivedHooks key package outputs).lockfileVersion } := by
  have hpackages : (l.withDerivedHooks key package outputs).sourceGraph.packages = l.sourceGraph.packages := by
    refine OrdMap.ext_get? fun k => ?_
    simp only [sourceGraph, withDerivedHooks, OrdMap.get?_mapVal, OrdMap.get?_insert]
    by_cases hk : k = key
    · subst hk
      rw [if_pos rfl, hpackage]
      rfl
    · rw [if_neg hk]
  exact eq_of_versionPackages rfl hpackages rfl

/-- **When recorded outputs leave the source graph alone**: there are none, or
the file was written in the current schema or a later one. -/
theorem sourceGraph_setDerivedHooks_iff {url : UrlParser} {codec : JsonCodec} {l l' : Lockfile}
    (h : Reachable url codec l) {key : String} {outputs : List DerivedHookOutput}
    (hrun : (Mutation.setDerivedHooks key outputs).run url l = .ok () l') :
    (l'.sourceGraph = l.sourceGraph ∧ l.sourceGraph.sourceGraph = l.sourceGraph) ↔
      (outputs = [] ∨ Schema.lockfileVersion ≤ l.lockfileVersion) := by
  obtain ⟨_, package, hpackage, rfl⟩ := setDerivedHooks_eq_ok.mp hrun
  rw [and_iff_left (sourceGraph_idem l), sourceGraph_withDerivedHooks hpackage]
  have hversion : ({ l.sourceGraph with
      lockfileVersion := sourceVersion (l.withDerivedHooks key package outputs).lockfileVersion } : Lockfile) =
        l.sourceGraph ↔
      sourceVersion (l.withDerivedHooks key package outputs).lockfileVersion =
        sourceVersion l.lockfileVersion :=
    ⟨fun heq => congrArg Lockfile.lockfileVersion heq, fun heq => by rw [heq]; rfl⟩
  rw [hversion, withDerivedHooks]
  by_cases houtputs : outputs = []
  · rw [if_neg (not_not_intro houtputs)]
    exact iff_of_true rfl (Or.inl houtputs)
  · rw [if_pos houtputs, sourceVersion_max_iff, or_iff_right houtputs,
      le_of_isSupportedVersion h.stored.version]

/-! ### A lockfile of an older schema -/

/-- The sample lockfile as an older version wrote it. -/
def legacyLockfile : Lockfile := { rootedLockfile with lockfileVersion := Schema.registryOnlyLockfileVersion }

theorem fromJson_legacyLockfile :
    fromJson npmRegistry (documentCodec legacyLockfile.toValue) (prettyJson "" legacyLockfile.toValue ++ "\n") =
      .ok legacyLockfile := by
  have hcheck : legacyLockfile.checkDocument npmRegistry = .ok () := by decide
  have hdigest : canonicalArtifactDigest legacyLockfile.rootManifestDigest = .ok sampleDigest := by decide
  have hdecode : (documentCodec legacyLockfile.toValue).decode (prettyJson "" legacyLockfile.toValue ++ "\n") =
      .ok legacyLockfile.toValue := faithful_documentCodec _
  have hread : ofValue legacyLockfile.toValue = .ok legacyLockfile := ofValue_toValue (by decide)
  simp only [fromJson, bind_eq_ok, mapError_eq_ok, rejectIf_eq_ok, not_not, pure_eq_ok]
  exact ⟨_, hdecode, _, hread, (), rfl, _, hdigest, (), hcheck, rfl⟩

theorem reachable_legacyLockfile :
    Reachable npmRegistry (documentCodec legacyLockfile.toValue) legacyLockfile :=
  Reachable.fromJson fromJson_legacyLockfile

/-- Hooks may be recorded for the package of the older file. -/
theorem setDerivedHooks_legacyLockfile :
    (Mutation.setDerivedHooks (samplePackage.key npmRegistry) [sampleHook]).run npmRegistry legacyLockfile =
      .ok () (legacyLockfile.withDerivedHooks (samplePackage.key npmRegistry) samplePackage [sampleHook]) := by
  have hhooks : validateDerivedHooks [sampleHook] = .ok () := by decide
  have hpackage : legacyLockfile.packages.get? (samplePackage.key npmRegistry) = some samplePackage :=
    OrdMap.get?_insert_self _ _ _
  exact setDerivedHooks_eq_ok.mpr ⟨hhooks, samplePackage, hpackage, rfl⟩

theorem sourceGraph_setDerivedHooks_legacyLockfile :
    ((legacyLockfile.withDerivedHooks (samplePackage.key npmRegistry) samplePackage [sampleHook]).sourceGraph =
        legacyLockfile.sourceGraph ∧
      legacyLockfile.sourceGraph.sourceGraph = legacyLockfile.sourceGraph) ↔
      ([sampleHook] = [] ∨ Schema.lockfileVersion ≤ legacyLockfile.lockfileVersion) :=
  sourceGraph_setDerivedHooks_iff reachable_legacyLockfile setDerivedHooks_legacyLockfile

/-- Recording the outputs of a hook in a file of schema 6 moves its source graph
to schema 7. -/
theorem not_forall_sourceGraph_setDerivedHooks :
    ¬ ∀ (url : UrlParser) (codec : JsonCodec) (l l' : Lockfile) (key : String)
      (outputs : List DerivedHookOutput), Reachable url codec l →
      (Mutation.setDerivedHooks key outputs).run url l = .ok () l' →
      l'.sourceGraph = l.sourceGraph ∧ l.sourceGraph.sourceGraph = l.sourceGraph := by
  intro hall
  have hsame := hall _ _ _ _ _ _ reachable_legacyLockfile setDerivedHooks_legacyLockfile
  have hversion := congrArg Lockfile.lockfileVersion hsame.1
  exact absurd hversion (by decide)

end Lockfile

end Tapid
