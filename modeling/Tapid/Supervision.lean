/-
Supervised execution.

A request is carried out by a backend.  What the backend says about itself is
checked before anything is started, what it reports afterwards is checked against
the same preflight, and a failure after the start is cleaned up once.  The backend
is arbitrary, each of its calls may panic, and the files are arbitrary at every
moment they are looked at.  A `prepare` that fails may have built one attempt, which
is dropped.

* `FilesystemBindings.validate` — grants, bound to what is there;
* `ValidatedPreflight` — what has been checked before the start;
* `EnforcementReceipt`, `CompletionEvidence`, `ExecutionOutcome` — reports;
* `executeWithBackend` — the whole of it;
* `executeWithBackend_enforced` — what a result says about the policy.
-/
import Tapid.Enforcement

namespace Tapid

open Text Fallible
open SymlinkTree (Entry PathError)

def ResolvedSandboxPolicy.grants (policy : ResolvedSandboxPolicy) : List ResolvedGrant := policy.read ++ policy.write

namespace Execution

/-! ### Reports of a backend -/

structure BackendIdentity where
  name : String
  version : String
  deprecation : Option String
  deriving DecidableEq

inductive SupportAvailability where
  | supported
  | unsupported
  deriving DecidableEq

structure ContainmentSupport where
  availability : SupportAvailability
  backend : BackendIdentity
  platform : Option String
  reason : Option String
  requested : EnforcementDimensions
  declared : EnforcementDimensions
  observed : EnforcementDimensions
  declaredEvidence : List DimensionEvidence
  observedEvidence : List DimensionEvidence
  deriving DecidableEq

def unsupportedContainment (message : String) : ExecutionError := ⟨.unsupportedContainment, message⟩

def lacksSupport : ExecutionError :=
  unsupportedContainment "requested restrictions lack declared or observed backend support"

def ContainmentSupport.names (support : ContainmentSupport) : List String :=
  [support.backend.name, support.backend.version] ++ support.backend.deprecation.toList

def ContainmentSupport.holds (support : ContainmentSupport) (required : EnforcementDimensions) : Bool :=
  support.declared.contains required && support.observed.contains required

def validateSupportedEvidence (policy : SandboxPolicy) (support : ContainmentSupport) : Except ExecutionError Unit := do
  let required := EnforcementDimensions.requestedBy policy
  checkAll (fun name => rejectIf (!validIdentity name) (policyViolation "backend returned an invalid identity"))
    support.names
  rejectIf (support.availability ≠ .supported) (unsupportedContainment
    ("sandbox containment is unavailable on " ++ support.platform.getD "unknown platform" ++ ": " ++
      support.reason.getD "no reason reported"))
  rejectIf (support.requested ≠ required)
    (policyViolation "backend requested evidence does not match the execution policy")
  rejectIf (!support.holds required) lacksSupport
  validateDimensionEvidence support.declared support.declaredEvidence
  validateDimensionEvidence support.observed support.observedEvidence

/-! ### Bindings -/

structure FileIdentity where
  device : Nat
  inode : Nat
  deriving DecidableEq

/-- The files at one moment. -/
structure World where
  host : Host
  identity : OsPath → FileIdentity
  /-- Character devices: device, inode and number. -/
  characterDevice : OsPath → Option (Nat × Nat × Nat)
  /-- The metadata of a handle that is held. -/
  held : Nat → Except PathError FileIdentity

inductive FilesystemBindingMode where
  | nativeObject
  | canonicalPath
  deriving DecidableEq

structure ResolvedFilesystemGrant where
  path : OsPath
  access : FilesystemAccess
  kind : FilesystemGrantKind
  source : FilesystemGrantSource
  binding : FilesystemBindingMode
  deriving DecidableEq

structure BoundFilesystemGrant where
  receipt : ResolvedFilesystemGrant
  held : Option Nat
  nativeIdentity : Option FileIdentity

structure FilesystemBindings where
  grants : List BoundFilesystemGrant

def bindingMismatch : ExecutionError :=
  policyViolation "backend filesystem bindings do not match the exact validated preflight"

def grantReceipt (grant : ResolvedGrant) (binding : FilesystemBindingMode) : ResolvedFilesystemGrant :=
  ⟨grant.path, grant.access, grant.kind, grant.source, binding⟩

def FilesystemBindings.receipt (bindings : FilesystemBindings) : List ResolvedFilesystemGrant :=
  bindings.grants.map BoundFilesystemGrant.receipt

section Bindings

variable (world : World)

def grantKindMatches (grant : ResolvedGrant) (path : OsPath) : Except ExecutionError Bool :=
  match grant.resolution with
  | .runtimeDevice device inode rdev =>
    match world.host.metadata (namesPath path) with
    | .error _ => .error bindingMismatch
    | .ok _ => .ok (grant.source = .backendRuntime && grant.kind = .characterDevice &&
        world.characterDevice path = some (device, inode, rdev))
  | _ => do
    let actual ← filesystemKind world.host path
    return actual = grant.kind || (actual = .directorySubtree && grant.kind = .exactDirectory)

/-- The grant is still what it was resolved to. -/
def checkCanonical (grant : ResolvedGrant) (canonical : OsPath) : Except ExecutionError Unit :=
  if canonical ≠ grant.path then .error bindingMismatch
  else do
    let matching ← grantKindMatches world grant canonical
    rejectIf (!matching) bindingMismatch

def bindCanonical (grant : ResolvedGrant) : Except ExecutionError BoundFilesystemGrant := do
  let canonical ← (canonicalPath world.host (namesPath grant.path) "canonical filesystem binding").mapError
    fun error =>
      match grant.resolution with
      | .missingWriteDirectory _ _ => unsupportedContainment
          ("backend did not securely materialize missing write subtree: " ++ error.message)
      | _ => error
  checkCanonical world grant canonical
  return ⟨grantReceipt grant .canonicalPath, none, none⟩

def FilesystemBindings.canonicalPath (policy : ResolvedSandboxPolicy) : Except ExecutionError FilesystemBindings := do
  return ⟨← policy.grants.mapM (bindCanonical world)⟩

/-- A native object is the one that is held, and the one that was bound. -/
def validateIdentity (expected : ResolvedGrant) (bound : BoundFilesystemGrant) : Except ExecutionError Unit := do
  let held ← orError bound.held bindingMismatch
  let identity ← (world.held held).mapError
    (pathError "inspect held native filesystem binding" (namesPath expected.path))
  let _ ← (world.host.metadata (namesPath expected.path)).mapError
    (pathError "inspect current native filesystem binding" (namesPath expected.path))
  rejectIf (some identity ≠ bound.nativeIdentity ∨ identity ≠ world.identity expected.path) bindingMismatch

def validateBinding (pair : ResolvedGrant × BoundFilesystemGrant) : Except ExecutionError Unit := do
  let (expected, bound) := pair
  rejectIf (bound.receipt.path ≠ expected.path ∨ bound.receipt.access ≠ expected.access ∨
    bound.receipt.kind ≠ expected.kind ∨ bound.receipt.source ≠ expected.source) bindingMismatch
  let canonical ← Tapid.canonicalPath world.host (namesPath expected.path) "filesystem binding revalidation"
  checkCanonical world expected canonical
  match bound.receipt.binding with
  | .canonicalPath => rejectIf (bound.held.isSome = true) bindingMismatch
  | .nativeObject => validateIdentity world expected bound

def FilesystemBindings.validate (bindings : FilesystemBindings) (policy : ResolvedSandboxPolicy) :
    Except ExecutionError Unit := do
  rejectIf (policy.grants.length ≠ bindings.grants.length) bindingMismatch
  checkAll (validateBinding world) (policy.grants.zip bindings.grants)

def validateCanonicalPath (path : OsPath) : Except ExecutionError Unit := do
  let canonical ← Tapid.canonicalPath world.host (namesPath path) "filesystem grant"
  rejectIf (canonical ≠ path) (policyViolation
    ("filesystem grant is not absolute and canonical: " ++ (namesPath path).display))

def grantConfinementError (path : OsPath) : ExecutionError :=
  policyViolation ("filesystem grant is neither project-confined nor an approved runtime addition: " ++
    (namesPath path).display)

/-- Relative targets consist of names. -/
def validateGrant (projectRoot : OsPath) (grant : ResolvedGrant) : Except ExecutionError Unit :=
  match grant.resolution with
  | .existingCanonical => do
    validateCanonicalPath world grant.path
    rejectIf (¬ projectRoot <+: grant.path) (grantConfinementError grant.path)
  | .missingWriteDirectory canonicalAncestor relativeTarget => do
    validateCanonicalPath world canonicalAncestor
    rejectIf (grant.access ≠ .write ∨ grant.kind ≠ .directorySubtree ∨ ¬ projectRoot <+: canonicalAncestor ∨
      canonicalAncestor ++ relativeTarget ≠ grant.path) (grantConfinementError grant.path)
  | .runtimeCanonical => validateCanonicalPath world grant.path
  | .runtimeDevice _ _ _ => do
    validateCanonicalPath world grant.path
    rejectIf (!(← grantKindMatches world grant grant.path)) bindingMismatch

/-- `ResolvedSandboxPolicy::validate` -/
def validatePolicy (policy : ResolvedSandboxPolicy) : Except ExecutionError Unit :=
  checkAll (validateGrant world policy.projectRoot) policy.grants

end Bindings

/-! ### Before the start -/

inductive FailureCategory where
  | check (category : ExecutionErrorCategory)
  | spawn
  | timeout
  | outputLimit
  | processLimit
  | memoryLimit
  | internal
  deriving DecidableEq

/-- A request, with the outcomes of the checks that look at nothing else. -/
structure LaunchRequest extends ExecutionRequest where
  /-- `ExecutionRequest::validate` -/
  validated : Except ExecutionError Unit
  /-- `ExecutionRequest::validate_trusted_node_runtime` -/
  trustedNodeRuntime : Except ExecutionError Unit
  childEnvironment : List (String × String)

/-- The bindings are of the grants of the policy, one for one. -/
def Receives (policy : ResolvedSandboxPolicy) (grants : List ResolvedFilesystemGrant) : Prop :=
  List.Forall₂ (fun grant receipt => receipt = grantReceipt grant receipt.binding) policy.grants grants

/-- What is supported is said by dimensions, each with its evidence. -/
structure Supports (support : ContainmentSupport) : Prop where
  supported : support.availability = .supported
  holds : support.holds support.requested = true
  declared : Covers support.declared support.declaredEvidence
  observed : Covers support.observed support.observedEvidence

/-- A policy asks for managed trees by one of the dimensions. -/
def Assured (requested : EnforcementDimensions) (assurance : AssuranceLevel) : Prop :=
  requested.processTreeMembership = decide (assurance = .managedTree)

/-- Support, policy and bindings that passed the checks before the start. -/
structure ValidatedPreflight where
  support : ContainmentSupport
  policy : ResolvedSandboxPolicy
  bindings : FilesystemBindings
  childEnvironment : List (String × String)
  required : policy.mode = .required
  supports : Supports support
  assured : Assured support.requested policy.assurance
  bound : Receives policy bindings.receipt

/-! ### Reports -/

inductive CleanupConfidence where
  | notGuaranteed
  | bestEffortObserved
  | kernelOwnedComplete
  deriving DecidableEq

/-- What is known when everything has ended. -/
structure CompletionEvidence where
  confirmed : EnforcementDimensions
  evidence : List DimensionEvidence
  cleanupConfidence : CleanupConfidence
  covers : Covers confirmed evidence

structure ExecutionFailure where
  category : FailureCategory
  message : String
  completion : Option CompletionEvidence

/-- A failure before the start. -/
def failed (error : ExecutionError) : ExecutionFailure := ⟨.check error.category, error.message, none⟩

def CompletionEvidence.checked (preflight : ValidatedPreflight) (confirmed : EnforcementDimensions)
    (evidence : List DimensionEvidence) (cleanupConfidence : CleanupConfidence) :
    Except ExecutionError CompletionEvidence :=
  if confirmed ≠ .completionRequired preflight.support.requested then
    .error (policyViolation "completion evidence does not exactly match completion-observable dimensions")
  else
    match h : validateDimensionEvidence confirmed evidence with
    | .error error => .error error
    | .ok () => .ok ⟨confirmed, evidence, cleanupConfidence, validateDimensionEvidence_eq_ok.mp h⟩

/-- The limits that are configured are the ones asked for. -/
def limitsMatch (requested : EnforcementDimensions) (limits : ExecutionLimits) : Bool :=
  requested.timeout = limits.timeoutSeconds.isSome && requested.output = limits.maxOutputBytes.isSome &&
    requested.processCount = limits.maxProcesses.isSome && requested.memory = limits.maxMemoryBytes.isSome

/-- What a backend says it has enforced. -/
structure EnforcementReceipt where
  assurance : AssuranceLevel
  support : ContainmentSupport
  enforced : EnforcementDimensions
  establishedEvidence : List DimensionEvidence
  resolvedFilesystem : List ResolvedFilesystemGrant
  configuredLimits : ExecutionLimits
  exact : enforced = support.requested
  supports : Supports support
  assured : Assured support.requested assurance
  limited : limitsMatch support.requested configuredLimits = true
  covers : Covers enforced establishedEvidence

def EnforcementReceipt.checked (preflight : ValidatedPreflight) (enforced : EnforcementDimensions)
    (establishedEvidence : List DimensionEvidence) : Except ExecutionError EnforcementReceipt :=
  let requested := preflight.support.requested
  if preflight.support.availability ≠ .supported then
    .error (unsupportedContainment "cannot issue an enforcement receipt for unsupported containment")
  else if preflight.policy.mode = .disabled then
    .error (policyViolation "disabled sandbox execution cannot issue an enforcement receipt")
  else if hexact : enforced ≠ requested then
    .error (policyViolation "established dimensions do not exactly match the requested restrictions")
  else if !preflight.support.holds requested then .error lacksSupport
  else if hlimits : ¬ limitsMatch requested preflight.policy.limits = true then
    .error (policyViolation "configured limits do not match requested resource restrictions")
  else
    match h : validateDimensionEvidence enforced establishedEvidence with
    | .error error => .error error
    | .ok () => .ok {
        assurance := preflight.policy.assurance
        support := preflight.support
        enforced
        establishedEvidence
        resolvedFilesystem := preflight.bindings.receipt
        configuredLimits := preflight.policy.limits
        exact := not_not.mp hexact
        supports := preflight.supports
        assured := preflight.assured
        limited := not_not.mp hlimits
        covers := validateDimensionEvidence_eq_ok.mp h }

inductive Termination where
  | exited (code : Int)
  | signaled (signal : Int)
  | timedOut
  | outputLimitExceeded
  | processLimitExceeded
  | memoryLimitExceeded
  | cancelled
  deriving DecidableEq

/-- A managed tree is cleaned up by its owner. -/
def Cleaned (requested : EnforcementDimensions) (completion : CompletionEvidence) : Prop :=
  requested.processTreeMembership = true → completion.cleanupConfidence = .kernelOwnedComplete

structure ExecutionOutcome where
  termination : Termination
  stdout : List UInt8
  stderr : List UInt8
  processMemoryStatsHint : Bool
  enforcement : EnforcementReceipt
  completion : CompletionEvidence
  confirmed : completion.confirmed = .completionRequired enforcement.support.requested
  cleaned : Cleaned enforcement.support.requested completion

instance (requested : EnforcementDimensions) (completion : CompletionEvidence) : Decidable (Cleaned requested completion) :=
  inferInstanceAs (Decidable (_ → _))

def ExecutionOutcome.checked (termination : Termination) (stdout stderr : List UInt8) (enforcement : EnforcementReceipt)
    (completion : CompletionEvidence) : Except ExecutionError ExecutionOutcome :=
  if enforcement.enforced ≠ enforcement.support.requested then
    .error (policyViolation "execution outcome lacks complete enforcement evidence")
  else if hconfirmed : completion.confirmed ≠ .completionRequired enforcement.support.requested then
    .error (policyViolation "execution outcome lacks complete completion evidence")
  else if hcleaned : ¬ Cleaned enforcement.support.requested completion then
    .error (policyViolation "managed-tree execution requires kernel-owned complete cleanup evidence")
  else
    .ok ⟨termination, stdout, stderr, false, enforcement, completion, not_not.mp hconfirmed, not_not.mp hcleaned⟩

/-! ### After the end -/

def checkedCapturedOutputBytes (stdout stderr : Nat) : Except ExecutionError Nat :=
  orError (Usize.checkedAdd stdout stderr) (policyViolation "captured stdout and stderr byte count overflowed")

/-- A limit can be reached only where it was set. -/
def Termination.limit (limits : ExecutionLimits) : Termination → Option (Option Nat × String)
  | .timedOut => some (limits.timeoutSeconds, "timeout termination requires an exact preflight timeout limit")
  | .outputLimitExceeded =>
    some (limits.maxOutputBytes, "output-limit termination requires an exact preflight output limit")
  | .processLimitExceeded =>
    some (limits.maxProcesses, "process-limit termination requires an exact preflight process limit")
  | .memoryLimitExceeded =>
    some (limits.maxMemoryBytes, "memory-limit termination requires an exact preflight memory limit")
  | _ => none

def validateTermination (limits : ExecutionLimits) (termination : Termination) : Except ExecutionError Unit :=
  match termination.limit limits with
  | some (none, message) => .error (policyViolation message)
  | _ => .ok ()

def ExecutionOutcome.validateForPreflight (outcome : ExecutionOutcome) (preflight : ValidatedPreflight) :
    Except ExecutionError Unit := do
  let required := preflight.support.requested
  let receipt := outcome.enforcement
  rejectIf (receipt.support ≠ preflight.support ∨ receipt.support.requested ≠ required ∨ receipt.enforced ≠ required ∨
      !receipt.support.holds required ∨ receipt.configuredLimits ≠ preflight.policy.limits ∨
      receipt.resolvedFilesystem ≠ preflight.bindings.receipt ∨
      outcome.completion.confirmed ≠ .completionRequired required)
    (policyViolation "execution outcome does not match the exact validated preflight")
  let captured ← checkedCapturedOutputBytes outcome.stdout.length outcome.stderr.length
  rejectIf (preflight.policy.limits.maxOutputBytes.any fun limit => decide (limit < captured))
    (policyViolation "captured stdout and stderr exceed the exact preflight output limit")
  validateTermination preflight.policy.limits outcome.termination

def validateCompletionForPreflight (completion : CompletionEvidence) (preflight : ValidatedPreflight) :
    Except ExecutionError Unit := do
  let required := EnforcementDimensions.completionRequired preflight.support.requested
  rejectIf (completion.confirmed ≠ required)
    (policyViolation "post-spawn completion does not match completion-observable dimensions")
  validateDimensionEvidence required completion.evidence
  rejectIf (required.processTreeMembership = true ∧ completion.cleanupConfidence ≠ .kernelOwnedComplete)
    (policyViolation "managed-tree completion lacks kernel-owned complete cleanup")

/-! ### Attempts -/

/-- What comes of a call into the backend. -/
inductive Returned (α : Type) where
  | value (a : α)
  | panicked

/-- A prepared lifecycle: what its calls return when they are made. -/
structure ExecutionLifecycle where
  execute : Returned (Except ExecutionFailure ExecutionOutcome)
  cleanup : Returned CompletionEvidence

/-- What comes of `prepare`; an attempt that was built and is not returned is dropped. -/
inductive Preparation where
  | attempt (lifecycle : ExecutionLifecycle)
  | failed (failure : ExecutionFailure) (dropped : Option ExecutionLifecycle)
  | panicked (dropped : Option ExecutionLifecycle)

inductive LifecycleCall where
  | execute
  | cleanup
  deriving DecidableEq

/-- The calls of an attempt, and what comes of it. -/
structure Attempt where
  calls : List LifecycleCall
  result : Returned (Except ExecutionFailure ExecutionOutcome)

section Attempts

variable (preflight : ValidatedPreflight) (lifecycle : ExecutionLifecycle)

/-- The attempt counts as finished before the cleanup: a panic in it is not followed by another. -/
def checkedFallback (failure : ExecutionFailure) : Returned (Except ExecutionFailure ExecutionOutcome) :=
  match lifecycle.cleanup with
  | .panicked => .panicked
  | .value completion =>
    match validateCompletionForPreflight completion preflight with
    | .error _ => .panicked
    | .ok () => .value (.error { failure with completion := some completion })

/-- `finish`; where the lifecycle panics, the attempt is dropped. -/
def finish : Attempt :=
  match lifecycle.execute with
  | .value (.ok outcome) =>
    match outcome.validateForPreflight preflight with
    | .error error => ⟨[.execute, .cleanup], checkedFallback preflight lifecycle (failed error)⟩
    | .ok () => ⟨[.execute], .value (.ok outcome)⟩
  | .value (.error failure) => ⟨[.execute, .cleanup], checkedFallback preflight lifecycle failure⟩
  | .panicked => ⟨[.execute, .cleanup], .panicked⟩

/-- An attempt that did not finish is cleaned up where it is dropped; there, evidence that is not
accepted is a panic. -/
def drop (result : Returned (Except ExecutionFailure ExecutionOutcome)) : Attempt :=
  match lifecycle.cleanup with
  | .panicked => ⟨[.cleanup], .panicked⟩
  | .value completion =>
    match validateCompletionForPreflight completion preflight with
    | .error _ => ⟨[.cleanup], .panicked⟩
    | .ok () => ⟨[.cleanup], result⟩

/-- What follows `prepare`. -/
def Preparation.finish : Preparation → Attempt
  | .attempt lifecycle => Execution.finish preflight lifecycle
  | .failed failure none => ⟨[], .value (.error failure)⟩
  | .failed failure (some lifecycle) => drop preflight lifecycle (.value (.error failure))
  | .panicked none => ⟨[], .panicked⟩
  | .panicked (some lifecycle) => drop preflight lifecycle .panicked

end Attempts

/-! ### Execution -/

structure ExecutionBackend where
  containmentSupport : LaunchRequest → Returned ContainmentSupport
  runtimeFilesystemAdditions : LaunchRequest → Returned (Except ExecutionFailure RuntimeFilesystemAdditions)
  bindFilesystem : LaunchRequest → ResolvedSandboxPolicy → Returned (Except ExecutionFailure FilesystemBindings)
  prepare : LaunchRequest → ValidatedPreflight → Preparation

/-- When the files are looked at. -/
inductive Moment where
  | resolution
  | validation
  | binding
  | start

section Execution

variable (debug : List Char → String) (worlds : Moment → World) (backend : ExecutionBackend) (request : LaunchRequest)

/-- A check of the generic part. -/
def checking {α : Type} (x : Except ExecutionError α) : Except (Returned ExecutionFailure) α :=
  x.mapError fun error => .value (failed error)

/-- An answer of the backend. -/
def answered {α : Type} : Returned α → Except (Returned ExecutionFailure) α
  | .value a => .ok a
  | .panicked => .error .panicked

def accepted {α : Type} (x : Except ExecutionFailure α) : Except (Returned ExecutionFailure) α := x.mapError .value

/-- What is checked before `prepare`. -/
def preflightChecks :
    Except (Returned ExecutionFailure) (ContainmentSupport × ResolvedSandboxPolicy × FilesystemBindings) := do
  checking request.validated
  checking (rejectIf (request.policy.mode = .disabled)
    (policyViolation "sandboxed execution does not accept disabled sandbox policies"))
  let support ← answered (backend.containmentSupport request)
  checking (validateSupportedEvidence request.policy support)
  let additions ← accepted (← answered (backend.runtimeFilesystemAdditions request))
  let policy ← checking (resolvePolicy debug (worlds .resolution).host request.toExecutionRequest additions)
  checking (validatePolicy (worlds .validation) policy)
  let bindings ← accepted (← answered (backend.bindFilesystem request policy))
  checking (bindings.validate (worlds .binding) policy)
  checking (bindings.validate (worlds .start) policy)
  rejectIf (!request.childEnvironment.any fun entry => entry.1 = "PATH")
    (.value ⟨.internal, "validated child environment is missing mandatory PATH", none⟩)
  checking request.trustedNodeRuntime
  return (support, policy, bindings)

/-! ### What the checks establish -/

variable {debug worlds backend request}

theorem resolvePolicy_fields {host : Host} {r : ExecutionRequest} {additions : RuntimeFilesystemAdditions}
    {policy : ResolvedSandboxPolicy} (h : resolvePolicy debug host r additions = .ok policy) :
    policy.mode = r.policy.mode ∧ policy.assurance = r.policy.assurance ∧ policy.limits = r.policy.limits := by
  simp only [resolvePolicy, bind_eq_ok, pure_eq_ok] at h
  obtain ⟨_, _, _, _, _, _, _, _, _, _, _, _, rfl⟩ := h
  exact ⟨rfl, rfl, rfl⟩

/-- What passed the revalidation has the fields of its grant. -/
theorem receipt_of_validateBinding {world : World} {grant : ResolvedGrant} {bound : BoundFilesystemGrant}
    (h : validateBinding world (grant, bound) = .ok ()) : bound.receipt = grantReceipt grant bound.receipt.binding := by
  simp only [validateBinding, bind_eq_ok, rejectIf_eq_ok, not_or, not_not] at h
  obtain ⟨_, ⟨hpath, haccess, hkind, hsource⟩, _⟩ := h
  rw [grantReceipt, ← hpath, ← haccess, ← hkind, ← hsource]

theorem receives_of_validate {world : World} {bindings : FilesystemBindings} {policy : ResolvedSandboxPolicy}
    (h : bindings.validate world policy = .ok ()) : Receives policy bindings.receipt := by
  simp only [FilesystemBindings.validate, bind_eq_ok, rejectIf_eq_ok, not_not, checkAll_eq_ok] at h
  obtain ⟨_, hlength, hall⟩ := h
  rw [Receives, FilesystemBindings.receipt, List.forall₂_map_right_iff, List.forall₂_iff_zip]
  exact ⟨hlength, fun hmem => receipt_of_validateBinding (hall _ hmem)⟩

theorem checking_eq_ok {α : Type} {x : Except ExecutionError α} {a : α} : checking x = .ok a ↔ x = .ok a :=
  mapError_eq_ok

theorem accepted_eq_ok {α : Type} {x : Except ExecutionFailure α} {a : α} : accepted x = .ok a ↔ x = .ok a :=
  mapError_eq_ok

theorem answered_eq_ok {α : Type} {x : Returned α} {a : α} : answered x = .ok a ↔ x = .value a := by
  constructor
  · intro h
    cases x with
    | value b => exact congrArg Returned.value (Except.ok.inj h)
    | panicked => cases h
  · rintro rfl
    rfl

/-- What holds of everything that passed. -/
structure Passed (debug : List Char → String) (worlds : Moment → World) (backend : ExecutionBackend)
    (request : LaunchRequest) (support : ContainmentSupport) (policy : ResolvedSandboxPolicy)
    (bindings : FilesystemBindings) : Prop where
  validated : request.validated = .ok ()
  mode : request.policy.mode = .required
  reported : backend.containmentSupport request = .value support
  support : validateSupportedEvidence request.policy support = .ok ()
  resolved : ∃ additions, backend.runtimeFilesystemAdditions request = .value (.ok additions) ∧
    resolvePolicy debug (worlds .resolution).host request.toExecutionRequest additions = .ok policy
  confined : validatePolicy (worlds .validation) policy = .ok ()
  bound : backend.bindFilesystem request policy = .value (.ok bindings)
  unchanged : bindings.validate (worlds .binding) policy = .ok () ∧ bindings.validate (worlds .start) policy = .ok ()
  path : ∃ value, ("PATH", value) ∈ request.childEnvironment
  runtime : request.trustedNodeRuntime = .ok ()

theorem required_of_not_disabled {mode : SandboxMode} (h : mode ≠ .disabled) : mode = .required := by
  cases mode with
  | required => rfl
  | disabled => exact absurd rfl h

theorem preflightChecks_eq_ok {support : ContainmentSupport} {policy : ResolvedSandboxPolicy}
    {bindings : FilesystemBindings} :
    preflightChecks debug worlds backend request = .ok (support, policy, bindings) ↔
      Passed debug worlds backend request support policy bindings := by
  simp only [preflightChecks, bind_eq_ok, pure_eq_ok, rejectIf_eq_ok, checking_eq_ok, accepted_eq_ok, answered_eq_ok,
    Prod.mk.injEq]
  constructor
  · rintro ⟨_, hvalidated, _, hmode, support', hreported, _, hsupport, _, hadditions, additions, rfl, resolved, hresolved,
      _, hconfined, _, hbind, bindings', rfl, _, hbinding, _, hstart, _, hpath, _, hruntime, rfl, rfl, rfl⟩
    refine ⟨hvalidated, required_of_not_disabled hmode, hreported, hsupport, ⟨additions, hadditions, hresolved⟩,
      hconfined, hbind, ⟨hbinding, hstart⟩, ?_, hruntime⟩
    simpa using hpath
  · intro h
    obtain ⟨additions, hadditions, hresolved⟩ := h.resolved
    obtain ⟨value, hvalue⟩ := h.path
    have hmode : ¬ request.policy.mode = .disabled := by
      rw [h.mode]
      decide
    exact ⟨(), h.validated, (), hmode, support, h.reported, (), h.support, _, hadditions, additions, rfl, policy,
      hresolved, (), h.confined, _, h.bound, bindings, rfl, (), h.unchanged.1, (), h.unchanged.2, (),
      by simpa using ⟨value, hvalue⟩, (), h.runtime, rfl, rfl, rfl⟩

theorem supports_of_validate {policy : SandboxPolicy} {support : ContainmentSupport}
    (h : validateSupportedEvidence policy support = .ok ()) :
    support.requested = .requestedBy policy ∧ Supports support := by
  simp only [validateSupportedEvidence, bind_eq_ok, rejectIf_eq_ok, not_not, Bool.not_eq_true', Bool.not_eq_false,
    validateDimensionEvidence_eq_ok] at h
  obtain ⟨_, _, _, hsupported, _, hrequested, _, hholds, _, hdeclared, hobserved⟩ := h
  refine ⟨hrequested, hsupported, ?_, hdeclared, hobserved⟩
  rw [hrequested]
  exact hholds

section Establishes

variable {support : ContainmentSupport} {policy : ResolvedSandboxPolicy} {bindings : FilesystemBindings}

theorem Passed.policy_fields (h : Passed debug worlds backend request support policy bindings) :
    policy.mode = request.policy.mode ∧ policy.assurance = request.policy.assurance ∧
      policy.limits = request.policy.limits := by
  obtain ⟨additions, _, hresolved⟩ := h.resolved
  exact resolvePolicy_fields hresolved

theorem Passed.assured (h : Passed debug worlds backend request support policy bindings) :
    Assured support.requested policy.assurance := by
  have hmode : request.policy.mode ≠ .disabled := by
    rw [h.mode]
    decide
  rw [Assured, (supports_of_validate h.support).1, EnforcementDimensions.requestedBy_processTreeMembership hmode,
    h.policy_fields.2.1]

/-- The preflight of a request that passed. -/
def Passed.preflight (h : Passed debug worlds backend request support policy bindings) : ValidatedPreflight where
  support
  policy
  bindings
  childEnvironment := request.childEnvironment
  required := h.policy_fields.1.trans h.mode
  supports := (supports_of_validate h.support).2
  assured := h.assured
  bound := receives_of_validate h.unchanged.2

end Establishes

variable (debug worlds backend request)

/-- `execute_with_backend` -/
def executeWithBackend : Attempt :=
  match h : preflightChecks debug worlds backend request with
  | .error (.value failure) => ⟨[], .value (.error failure)⟩
  | .error .panicked => ⟨[], .panicked⟩
  | .ok (_, _, _) =>
    let preflight := (preflightChecks_eq_ok.mp h).preflight
    (backend.prepare request preflight).finish preflight

/-! ### What comes of an execution -/

/-- What a result says about the request, and about the policy it was resolved to. -/
structure Enforced (policy : ResolvedSandboxPolicy) (outcome : ExecutionOutcome) : Prop where
  support : backend.containmentSupport request = .value outcome.enforcement.support
  requested : outcome.enforcement.support.requested = .requestedBy request.policy
  declared : Covers outcome.enforcement.support.declared outcome.enforcement.support.declaredEvidence
  observed : Covers outcome.enforcement.support.observed outcome.enforcement.support.observedEvidence
  holds : ∀ dimension, (EnforcementDimensions.requestedBy request.policy).has dimension = true →
    outcome.enforcement.support.declared.has dimension = true ∧ outcome.enforcement.support.observed.has dimension = true
  enforced : outcome.enforcement.enforced = .requestedBy request.policy
  established : Covers (.requestedBy request.policy) outcome.enforcement.establishedEvidence
  assurance : outcome.enforcement.assurance = request.policy.assurance
  grants : Receives policy outcome.enforcement.resolvedFilesystem
  limits : outcome.enforcement.configuredLimits = request.policy.limits
  output : ∀ limit, request.policy.limits.maxOutputBytes = some limit →
    outcome.stdout.length + outcome.stderr.length ≤ limit
  termination : ∀ limit message, outcome.termination.limit request.policy.limits = some (limit, message) →
    limit.isSome = true
  completion : Covers (.completionRequired (.requestedBy request.policy)) outcome.completion.evidence
  cleanup : request.policy.assurance = .managedTree → outcome.completion.cleanupConfidence = .kernelOwnedComplete

/-- What is known of a cleanup. -/
structure CleanedUp (completion : CompletionEvidence) : Prop where
  evidence : Covers (.completionRequired (.requestedBy request.policy)) completion.evidence
  cleanup : request.policy.assurance = .managedTree → completion.cleanupConfidence = .kernelOwnedComplete

/-- The ways an execution goes. -/
inductive Settled : Attempt → Prop where
  /-- Nothing was started. -/
  | refused (failure : ExecutionFailure) : Settled ⟨[], .value (.error failure)⟩
  | refusedByPanic : Settled ⟨[], .panicked⟩
  /-- Nothing was started, and the attempt that was built is cleaned up. -/
  | dropped {support : ContainmentSupport} {policy : ResolvedSandboxPolicy} {bindings : FilesystemBindings}
    (failure : ExecutionFailure) {completion : CompletionEvidence} :
    Passed debug worlds backend request support policy bindings → CleanedUp request completion →
    Settled ⟨[.cleanup], .value (.error failure)⟩
  | droppedByPanic {support : ContainmentSupport} {policy : ResolvedSandboxPolicy} {bindings : FilesystemBindings} :
    Passed debug worlds backend request support policy bindings → Settled ⟨[.cleanup], .panicked⟩
  | enforced {support : ContainmentSupport} {policy : ResolvedSandboxPolicy} {bindings : FilesystemBindings}
    {outcome : ExecutionOutcome} : Passed debug worlds backend request support policy bindings →
    Enforced backend request policy outcome → Settled ⟨[.execute], .value (.ok outcome)⟩
  | failed {support : ContainmentSupport} {policy : ResolvedSandboxPolicy} {bindings : FilesystemBindings}
    {failure : ExecutionFailure} {completion : CompletionEvidence} :
    Passed debug worlds backend request support policy bindings → failure.completion = some completion →
    CleanedUp request completion → Settled ⟨[.execute, .cleanup], .value (.error failure)⟩
  | panicked {support : ContainmentSupport} {policy : ResolvedSandboxPolicy} {bindings : FilesystemBindings} :
    Passed debug worlds backend request support policy bindings → Settled ⟨[.execute, .cleanup], .panicked⟩

variable {debug worlds backend request} {support : ContainmentSupport} {policy : ResolvedSandboxPolicy}
  {bindings : FilesystemBindings}

theorem Assured.eq {requested : EnforcementDimensions} {a b : AssuranceLevel} (ha : Assured requested a)
    (hb : Assured requested b) : a = b := by
  rw [Assured] at ha hb
  rw [ha, decide_eq_decide] at hb
  cases a with
  | managedTree => exact (hb.mp rfl).symm
  | restricted =>
    cases b with
    | restricted => rfl
    | managedTree => exact absurd (hb.mpr rfl) (by decide)

/-- **A report that is accepted.** -/
theorem Passed.enforced (h : Passed debug worlds backend request support policy bindings) {outcome : ExecutionOutcome}
    (haccepted : outcome.validateForPreflight h.preflight = .ok ()) : Enforced backend request policy outcome := by
  obtain ⟨_, hassurance, hlimits⟩ := h.policy_fields
  obtain ⟨hrequested, hsupports⟩ := supports_of_validate h.support
  simp only [ExecutionOutcome.validateForPreflight, bind_eq_ok, rejectIf_eq_ok, not_or, not_not] at haccepted
  obtain ⟨_, ⟨hsupport, _, henforced, _, hconfigured, hgrants, hconfirmed⟩, captured, hcaptured, _, hfits, htermination⟩ :=
    haccepted
  have hsupport : outcome.enforcement.support = support := hsupport
  have henforced : outcome.enforcement.enforced = .requestedBy request.policy := henforced.trans hrequested
  have hreceipt : outcome.enforcement.support.requested = .requestedBy request.policy := by
    rw [hsupport, hrequested]
  -- The receipt may be of another preflight, with the same support.
  have hsame : outcome.enforcement.assurance = request.policy.assurance := by
    have hassured := h.assured
    rw [← hsupport, hassurance] at hassured
    exact outcome.enforcement.assured.eq hassured
  have hlimit : h.preflight.policy.limits = request.policy.limits := hlimits
  rw [hlimit] at hconfigured hfits htermination
  refine ⟨hsupport ▸ h.reported, hreceipt, ?_, ?_, ?_, henforced, ?_, hsame, ?_, hconfigured, ?_, ?_, ?_, ?_⟩
  · rw [hsupport]
    exact hsupports.declared
  · rw [hsupport]
    exact hsupports.observed
  · intro dimension hdimension
    have hholds := hsupports.holds
    rw [hrequested, ContainmentSupport.holds, Bool.and_eq_true, EnforcementDimensions.contains_iff,
      EnforcementDimensions.contains_iff] at hholds
    rw [hsupport]
    exact ⟨hholds.1 dimension hdimension, hholds.2 dimension hdimension⟩
  · rw [← henforced]
    exact outcome.enforcement.covers
  · rw [hgrants]
    exact h.preflight.bound
  · intro limit hset
    rw [checkedCapturedOutputBytes, orError_eq_ok, Usize.checkedAdd_eq_some] at hcaptured
    rw [hset, Option.any_some, decide_eq_true_eq, hcaptured.2] at hfits
    omega
  · intro limit message hset
    rw [validateTermination, hset] at htermination
    cases limit with
    | none => cases htermination
    | some limit => rfl
  · rw [← hreceipt, ← outcome.confirmed]
    exact outcome.completion.covers
  · intro hmanaged
    refine outcome.cleaned ?_
    have hassured := outcome.enforcement.assured
    rw [Assured, hsame, hmanaged] at hassured
    exact hassured

theorem Passed.cleanedUp (h : Passed debug worlds backend request support policy bindings)
    {completion : CompletionEvidence} (haccepted : validateCompletionForPreflight completion h.preflight = .ok ()) :
    CleanedUp request completion := by
  have hrequested : h.preflight.support.requested = .requestedBy request.policy := (supports_of_validate h.support).1
  simp only [validateCompletionForPreflight, bind_eq_ok, rejectIf_eq_ok, validateDimensionEvidence_eq_ok, hrequested]
    at haccepted
  obtain ⟨_, _, _, hcovers, hcleanup⟩ := haccepted
  refine ⟨hcovers, fun hmanaged => ?_⟩
  have hassured := h.assured
  rw [Assured, (supports_of_validate h.support).1, h.policy_fields.2.1, hmanaged] at hassured
  by_contra hne
  exact hcleanup ⟨hassured, hne⟩

/-- A failure after the start is cleaned up once, whatever comes of the cleanup. -/
theorem Passed.settled_fallback (h : Passed debug worlds backend request support policy bindings)
    (lifecycle : ExecutionLifecycle) (failure : ExecutionFailure) :
    Settled debug worlds backend request ⟨[.execute, .cleanup], checkedFallback h.preflight lifecycle failure⟩ := by
  rw [checkedFallback]
  cases hcleanup : lifecycle.cleanup with
  | panicked => exact .panicked h
  | value completion =>
    dsimp only
    cases hvalid : validateCompletionForPreflight completion h.preflight with
    | error error => exact .panicked h
    | ok u => exact .failed h rfl (h.cleanedUp hvalid)

/-- What is dropped is cleaned up once. -/
theorem Passed.settled_drop (h : Passed debug worlds backend request support policy bindings)
    (lifecycle : ExecutionLifecycle) {result : Returned (Except ExecutionFailure ExecutionOutcome)}
    (hresult : ∀ completion, CleanedUp request completion →
      Settled debug worlds backend request ⟨[.cleanup], result⟩) :
    Settled debug worlds backend request (drop h.preflight lifecycle result) := by
  rw [drop]
  cases hcleanup : lifecycle.cleanup with
  | panicked => exact .droppedByPanic h
  | value completion =>
    dsimp only
    cases hvalid : validateCompletionForPreflight completion h.preflight with
    | error error => exact .droppedByPanic h
    | ok u => exact hresult completion (h.cleanedUp hvalid)

theorem Passed.settled (h : Passed debug worlds backend request support policy bindings)
    (lifecycle : ExecutionLifecycle) : Settled debug worlds backend request (finish h.preflight lifecycle) := by
  rw [finish]
  cases lifecycle.execute with
  | panicked => exact .panicked h
  | value returned =>
    cases returned with
    | error failure => exact h.settled_fallback lifecycle failure
    | ok outcome =>
      dsimp only
      cases hvalid : outcome.validateForPreflight h.preflight with
      | error error => exact h.settled_fallback lifecycle (failed error)
      | ok u => exact .enforced h (h.enforced hvalid)

theorem Passed.settled_preparation (h : Passed debug worlds backend request support policy bindings)
    (preparation : Preparation) : Settled debug worlds backend request (preparation.finish h.preflight) := by
  cases preparation with
  | attempt lifecycle => exact h.settled lifecycle
  | failed failure dropped =>
    cases dropped with
    | none => exact .refused failure
    | some lifecycle => exact h.settled_drop lifecycle fun _ hcleaned => .dropped failure h hcleaned
  | panicked dropped =>
    cases dropped with
    | none => exact .refusedByPanic
    | some lifecycle => exact h.settled_drop lifecycle fun _ _ => .droppedByPanic h

/-! ### A backend that keeps to the rules -/

theorem forall₂_of_mapM {α β : Type} {f : α → Except ExecutionError β} {as : List α} {bs : List β}
    (h : as.mapM f = .ok bs) : List.Forall₂ (fun a b => f a = .ok b) as bs := by
  induction as generalizing bs with
  | nil =>
    obtain rfl := Except.ok.inj h
    exact .nil
  | cons a as ih =>
    simp only [List.mapM_cons, bind_eq_ok, pure_eq_ok] at h
    obtain ⟨b, hb, bs', hbs, rfl⟩ := h
    exact .cons hb (ih hbs)

theorem validateBinding_bindCanonical {world : World} {grant : ResolvedGrant} {bound : BoundFilesystemGrant}
    (h : bindCanonical world grant = .ok bound) : validateBinding world (grant, bound) = .ok () := by
  simp only [bindCanonical, bind_eq_ok, mapError_eq_ok, pure_eq_ok] at h
  obtain ⟨canonical, hcanonical, _, hsame, rfl⟩ := h
  have hresolved : canonicalPath world.host (namesPath grant.path) "filesystem binding revalidation" = .ok canonical := by
    rw [canonicalPath, mapError_eq_ok] at hcanonical ⊢
    exact hcanonical
  simp only [validateBinding, bind_eq_ok, rejectIf_eq_ok, grantReceipt]
  exact ⟨(), by simp, canonical, hresolved, (), hsame, by simp⟩

/-- **Bindings by canonical path are accepted while the files stay as they are.** -/
theorem validate_canonicalPath {world : World} {policy : ResolvedSandboxPolicy} {bindings : FilesystemBindings}
    (h : FilesystemBindings.canonicalPath world policy = .ok bindings) : bindings.validate world policy = .ok () := by
  simp only [FilesystemBindings.canonicalPath, bind_eq_ok, pure_eq_ok] at h
  obtain ⟨grants, hgrants, rfl⟩ := h
  have hall : List.Forall₂ (fun grant bound => bindCanonical world grant = .ok bound) policy.grants grants :=
    forall₂_of_mapM hgrants
  simp only [FilesystemBindings.validate, bind_eq_ok, rejectIf_eq_ok, not_not, checkAll_eq_ok]
  exact ⟨(), hall.length_eq, fun pair hpair => validateBinding_bindCanonical ((List.forall₂_iff_zip.mp hall).2 hpair)⟩

theorem EnforcementReceipt.of_checked {preflight : ValidatedPreflight} {enforced : EnforcementDimensions}
    {established : List DimensionEvidence} {receipt : EnforcementReceipt}
    (h : EnforcementReceipt.checked preflight enforced established = .ok receipt) :
    receipt.support = preflight.support ∧ receipt.configuredLimits = preflight.policy.limits ∧
      receipt.resolvedFilesystem = preflight.bindings.receipt := by
  unfold EnforcementReceipt.checked at h
  dsimp only at h
  split_ifs at h
  split at h
  · cases h
  · obtain rfl := Except.ok.inj h
    exact ⟨rfl, rfl, rfl⟩

theorem ExecutionOutcome.of_checked {termination : Termination} {stdout stderr : List UInt8}
    {receipt : EnforcementReceipt} {completion : CompletionEvidence} {outcome : ExecutionOutcome}
    (h : ExecutionOutcome.checked termination stdout stderr receipt completion = .ok outcome) :
    outcome.termination = termination ∧ outcome.stdout = stdout ∧ outcome.stderr = stderr ∧
      outcome.enforcement = receipt := by
  unfold ExecutionOutcome.checked at h
  split_ifs at h
  obtain rfl := Except.ok.inj h
  exact ⟨rfl, rfl, rfl, rfl⟩

/-- **An honest report is accepted**: one built for the preflight, within its limits. -/
theorem finish_of_checked {preflight : ValidatedPreflight} {lifecycle : ExecutionLifecycle}
    {enforced : EnforcementDimensions} {established : List DimensionEvidence} {receipt : EnforcementReceipt}
    {completion : CompletionEvidence} {termination : Termination} {stdout stderr : List UInt8} {outcome : ExecutionOutcome}
    (hreceipt : EnforcementReceipt.checked preflight enforced established = .ok receipt)
    (houtcome : ExecutionOutcome.checked termination stdout stderr receipt completion = .ok outcome)
    (hlength : stdout.length + stderr.length < 2 ^ 64)
    (hfits : ∀ limit, preflight.policy.limits.maxOutputBytes = some limit → stdout.length + stderr.length ≤ limit)
    (htermination : ∀ limit message, termination.limit preflight.policy.limits = some (limit, message) →
      limit.isSome = true)
    (hexecute : lifecycle.execute = .value (.ok outcome)) :
    finish preflight lifecycle = ⟨[.execute], .value (.ok outcome)⟩ := by
  obtain ⟨hsupport, hlimits, hgrants⟩ := EnforcementReceipt.of_checked hreceipt
  obtain ⟨hend, hout, herr, henforcement⟩ := ExecutionOutcome.of_checked houtcome
  have hexact := outcome.enforcement.exact
  have hconfirmed := outcome.confirmed
  rw [henforcement, hsupport] at hexact hconfirmed
  have hvalid : outcome.validateForPreflight preflight = .ok () := by
    simp only [ExecutionOutcome.validateForPreflight, bind_eq_ok, rejectIf_eq_ok, henforcement, hsupport, hexact, hlimits,
      hgrants, hconfirmed, hend, hout, herr, checkedCapturedOutputBytes, orError_eq_ok, Usize.checkedAdd_eq_some]
    refine ⟨(), ?_, _, ⟨hlength, rfl⟩, (), ?_, ?_⟩
    · simp [preflight.supports.holds]
    · rw [Bool.not_eq_true, Option.any_eq_false_iff_get]
      intro hsome
      have hle := hfits _ (Option.some_get hsome).symm
      simpa using hle
    · rw [validateTermination]
      split
      · next message hlimit =>
        have hsome := htermination _ _ hlimit
        cases hsome
      · rfl
  rw [finish, hexecute]
  dsimp only
  rw [hvalid]

end Execution

/-- **Execution fails closed.**  Whatever the backend answers, and whatever the files
become meanwhile: nothing is started before every check has passed, a result says that
everything the policy asks for was enforced, and any other end of a started execution is
cleaned up once, as is an attempt that is dropped before its start. -/
theorem executeWithBackend_settled (debug : List Char → String) (worlds : Moment → World) (backend : ExecutionBackend)
    (request : LaunchRequest) :
    Settled debug worlds backend request (executeWithBackend debug worlds backend request) := by
  rw [executeWithBackend]
  split
  · exact .refused _
  · exact .refusedByPanic
  · next support policy bindings h =>
    have hpassed := preflightChecks_eq_ok.mp h
    exact hpassed.settled_preparation _

/-! ### One execution -/

section Example

/-- A root and nothing below it. -/
def emptyHost : Host where
  tree := {
    entry := fun path => if path = [] then some .directory else none
    refuses := fun _ => none
    maxLinks := 40
    root := rfl
    closed := by
      intro path name h
      rw [if_neg (by simp)] at h
      cases h }
  currentDir := []
  currentDir_eq := rfl

def emptyWorld : World := ⟨emptyHost, fun _ => ⟨0, 0⟩, fun _ => none, fun _ => .error .notFound⟩

def restrictedPolicy : SandboxPolicy where
  mode := .required
  assurance := .restricted
  filesystem := ⟨[], []⟩
  network := false
  environment := []
  subprocess := false
  limits := { maxOutputBytes := some 4 }

def restrictedRequest : LaunchRequest where
  projectRoot := ⟨true, []⟩
  policy := restrictedPolicy
  policyCeiling := none
  executableSearchPaths := []
  validated := .ok ()
  trustedNodeRuntime := .ok ()
  childEnvironment := [("PATH", "")]

/-- A backend that enforces what is asked for, and prints. -/
def printingBackend (stdout : List UInt8) : ExecutionBackend where
  containmentSupport request :=
    let requested := EnforcementDimensions.requestedBy request.policy
    let evidence := evidenceForDimensions requested "kernel" []
    .value ⟨.supported, ⟨"backend", "1", none⟩, none, none, requested, requested, requested, evidence, evidence⟩
  runtimeFilesystemAdditions _ := .value (.ok ⟨[], []⟩)
  bindFilesystem _ policy := .value ((FilesystemBindings.canonicalPath emptyWorld policy).mapError failed)
  prepare _ preflight :=
    let requested := preflight.support.requested
    let reports : Except ExecutionError ExecutionLifecycle := do
      let receipt ← EnforcementReceipt.checked preflight requested (evidenceForDimensions requested "kernel" [])
      let completion ← CompletionEvidence.checked preflight (.completionRequired requested) [] .bestEffortObserved
      let outcome ← ExecutionOutcome.checked (.exited 0) stdout [] receipt completion
      return ⟨.value (.ok outcome), .value completion⟩
    match reports with
    | .ok lifecycle => .attempt lifecycle
    | .error error => .failed (failed error) none

/-- Four bytes are within the limit. -/
example : (executeWithBackend String.ofList (fun _ => emptyWorld) (printingBackend [1, 2, 3, 4])
    restrictedRequest).calls = [.execute] := by
  decide +kernel

example : (executeWithBackend String.ofList (fun _ => emptyWorld) (printingBackend [1, 2, 3, 4, 5])
    restrictedRequest).calls = [.execute, .cleanup] := by
  decide +kernel

end Example

end Execution

end Tapid
