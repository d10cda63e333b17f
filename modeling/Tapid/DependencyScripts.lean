/-
Dependency hooks of an install.

Packages are processed one after another, dependencies first when hooks may
run, and the hooks of a package one after another.  A hook runs only online;
its output is staged in the store transaction and recorded in the lockfile.
Offline every output comes from the store, authenticated under the recipe it
would be derived by.  The file system, the store and the sandbox are a `Host`:
its operations act on a world the model does not look into.  A run keeps a log
of what it did, which a failed run leaves behind too.

* `dependencyOrder` — the processing order;
* `processHook`, `finishPackage`, `processPackage`;
* `apply` — all packages of a lockfile.
-/
import Tapid.Effect
import Tapid.Layout
import Tapid.LifecyclePolicy

namespace Tapid

open Text Fallible Effect

namespace DependencyScripts

/-! ### The layout -/

/-- An instance with its verified tree. -/
structure InstalledInstance where
  key : InstanceKey
  treeDigest : String
  treeRoot : Path
  deriving DecidableEq

structure LayoutInput where
  instances : List InstalledInstance
  rootDependencies : List NamedDependency
  dependencyEdges : List NamedDependencyEdge
  deriving DecidableEq

/-- The tree of an instance; the root of a tree is an absolute path. -/
def verifiedTreeReference (digest : String) : Except ScriptError String := do
  rejectIf (!startsWith "sha256-".toList digest.toList || byteLen digest.toList != 71 ||
    !(digest.toList.drop 7).all isHexDigit) (.text ("invalid tree digest: " ++ digest))
  return String.ofList (toAsciiLower digest.toList)

/-- Replaces the tree of one instance. -/
def LayoutInput.setTree (input : LayoutInput) (index : Nat) (digest : String) (root : Path) : LayoutInput :=
  { input with instances := input.instances.modify index fun i =>
      { i with treeDigest := digest, treeRoot := root } }

/-! ### The host -/

/-- Flags that let unapproved or uncontained hooks run. -/
structure ExecutionOverrides where
  allowUnapproved : Bool := false
  withoutContainment : Bool := false
  deriving DecidableEq

def ExecutionOverrides.enabled (o : ExecutionOverrides) : Bool := o.allowUnapproved || o.withoutContainment

/-- What a hook is run with. -/
structure HookCall where
  stage : Path
  approval : DependencyLifecycleApproval
  script : String
  input : LayoutInput
  trees : OrdMap String Path
  lock : Lockfile
  withoutContainment : Bool
  implicitNodeGyp : Bool
  deriving DecidableEq

/-- The file system, the store and the sandbox. -/
structure Host (W : Type) where
  /-- The project's lockfile text. -/
  readLock : W → Option String
  /-- The manifest text of a tree, without its byte order mark, and whether
  there is a `binding.gyp` beside it. -/
  manifest : W → Path → Except ScriptError (Option (String × Bool))
  invocationApproval : W → LockedPackage → String → String → Bool →
    Except ScriptError DependencyLifecycleApproval
  newStage : W → Except ScriptError (Path × W)
  copyBuildSource : W → Path → Path → Except ScriptError W
  runHook : W → HookCall → Except ScriptError W
  validateOutput : W → Path → Except ScriptError Unit
  canonicalTreeDigest : W → Path → Except ScriptError String
  stageVerifiedTree : W → String → Path → Except ScriptError (Path × W)
  /-- The key of the store, created when there is none. -/
  createLifecycleKey : W → Except ScriptError (List UInt8 × W)
  lifecycleKey : W → Except ScriptError (List UInt8)
  /-- A verified private copy of a published tree. -/
  verifiedTreeSnapshot : W → String → Except ScriptError Path

/-- The tools hooks run with. -/
structure Toolchain where
  system : Except ScriptError String
  verify : LifecycleTool → Except ScriptError Unit

/-- What a run is given besides its state. -/
structure Env (W : Type) where
  host : Host W
  toolchain : Toolchain
  policy : DependencyLifecyclePolicy
  overrides : ExecutionOverrides
  /-- Whether there is a store transaction. -/
  online : Bool
  sha256Hex : List UInt8 → String
  hmac : List UInt8 → List UInt8 → List UInt8
  url : UrlParser
  codec : JsonCodec
  /-- The compact JSON text of a value. -/
  compact : Json → String

/-! ### The state of a run -/

/-- An output taken from the store. -/
structure Reuse (W : Type) where
  key : String
  package : LockedPackage
  hook : String
  script : String
  approval : DependencyLifecycleApproval
  toolchain : String
  lock : Lockfile
  completed : OrdMap String (List DerivedHookOutput)
  outputs : List DerivedHookOutput
  output : DerivedHookOutput
  world : W
  snapshot : Path
  path : Path

/-- What a run did. -/
inductive Event (W : Type) where
  | ran (key hook : String) (call : HookCall)
  | executed (key : String) (call : HookCall) (output : DerivedHookOutput) (path : Path)
  | reused (r : Reuse W)
  | substituted (key digest : String) (path : Path)

structure RunState (W : Type) where
  world : W
  lock : Lockfile
  input : LayoutInput
  trees : OrdMap String Path
  completed : OrdMap String (List DerivedHookOutput) := ∅
  systemIdentity : Option String := none
  retainedStages : List Path := []
  snapshots : List Path := []
  log : List (Event W) := []

abbrev ScriptM (W : Type) := EStateM ScriptError (RunState W)

/-- Progress within one package. -/
structure PackageState where
  outputs : List DerivedHookOutput := []
  current : Path
  stage : Option Path := none
  bypassed : Bool := false

variable {W : Type}

def record (e : Event W) : ScriptM W Unit := modify fun s => { s with log := s.log ++ [e] }

/-- An operation of the host that changes the world. -/
def onWorld {α : Type} (f : W → Except ScriptError (α × W)) : ScriptM W α :=
  update fun s => (f s.world).map fun r => (r.1, { s with world := r.2 })

/-- An operation of the host that returns nothing. -/
def onWorld_ (f : W → Except ScriptError W) : ScriptM W Unit := onWorld fun w => (f w).map fun w => ((), w)

/-- An operation of the host that only looks. -/
def observe {α : Type} (f : W → Except ScriptError α) : ScriptM W α := do
  let s ← get
  lift (f s.world)

/-! ### Processing order -/

/-- Keys that are done and the order they were finished in. -/
structure Visited where
  done : OrdSet String := ∅
  order : List String := []

/-- Depth-first visit; `fuel` is how much deeper the active packages may nest. -/
def visit (lock : Lockfile) : Nat → List String → Visited → String → Except ScriptError Visited
  | 0, _, v, key =>
    if key ∈ v.done then .ok v
    else .error (.text
      "approved dependency lifecycle graphs must be acyclic and no deeper than 1024 packages")
  | fuel + 1, active, v, key =>
    if key ∈ v.done then .ok v
    else if active.elem key then .error (.text
      "approved dependency lifecycle graphs must be acyclic and no deeper than 1024 packages")
    else do
      let package ← orError (lock.packages.get? key) (.text "panic")
      let v ← (package.dependencies.values.filter fun child => lock.packages.contains child).foldlM
        (visit lock fuel (key :: active)) v
      return { done := v.done.insert key, order := v.order ++ [key] }

def dependencyOrder (lock : Lockfile) : Except ScriptError (List String) := do
  let v ← lock.packages.keys.foldlM (visit lock 1024 []) {}
  return v.order

namespace Env

variable (env : Env W)

/-- The order of a run: dependencies first when hooks may run. -/
def order (lock : Lockfile) : Except ScriptError (List String) :=
  if env.policy.approvals.isEmpty && !env.overrides.allowUnapproved then .ok lock.packages.keys
  else dependencyOrder lock

/-! ### Recipes -/

/-- The exact approval of the policy; with unapproved hooks allowed, a
mismatch is as good as none. -/
def select (package : LockedPackage) (hook script : String) :
    Except ScriptError (Option DependencyLifecycleApproval) :=
  let found := env.policy.approvalFor env.sha256Hex package.name package.version package.artifactIntegrity
    hook script
  if env.overrides.allowUnapproved then .ok found.toOption.join else found.mapError .text

def toolTexts (tools : List LifecycleTool) : List String :=
  tools.flatMap fun tool => [tool.name, tool.path, tool.digest]

/-- The identity of an approval's tools on a system. -/
def toolIdentity (approval : DependencyLifecycleApproval) (system : String) : Except ScriptError String := do
  checkAll env.toolchain.verify approval.tools
  return DependencyLifecyclePolicy.sha256 env.sha256Hex
    (textBytes system ++ framedAll (toolTexts approval.tools))

/-- The identity of the system; it is determined once. -/
def systemIdentity : ScriptM W String := do
  let s ← get
  match s.systemIdentity with
  | some identity => return identity
  | none => do
    let identity ← lift env.toolchain.system
    modify fun s => { s with systemIdentity := some identity }
    return identity

def outputsValue (outputs : List DerivedHookOutput) : Json := .arr (outputs.map DerivedHookOutput.toValue)

/-- The text that binds a recipe to the source graph and to the outputs
before it. -/
def graphText (sourceGraph : String) (completed : OrdMap String (List DerivedHookOutput))
    (outputs : List DerivedHookOutput) : String :=
  env.compact (.arr [.str sourceGraph, Json.writeMap outputsValue completed, outputsValue outputs])

/-! ### Outputs in the store -/

/-- An authenticated output of the store. -/
def verifiedLifecycleSnapshot (w : W) (recipe output text : String) : Except ScriptError Path := do
  let key ← env.host.lifecycleKey w
  verifyAttestation env.hmac key recipe output text
  env.host.verifiedTreeSnapshot w output

def attestLifecycleOutput (w : W) (recipe output : String) : Except ScriptError (String × W) := do
  let (key, w) ← env.host.createLifecycleKey w
  return (attestation env.hmac key recipe output, w)

def parseDigest (digest : String) : Except ScriptError String :=
  ((ArtifactDigest.parse digest).map ArtifactDigest.text).mapError .domain

/-- The recorded output of a hook under a recipe. -/
def cachedOutput (cached : Option Lockfile) (key hook recipe : String) : Option DerivedHookOutput :=
  (cached.bind fun l => l.packages.get? key).bind fun p =>
    p.derivedHooks.find? fun o => o.hook == hook && o.key == recipe

/-- A recorded output that the store authenticates. -/
def reusable (w : W) (cached : Option Lockfile) (key hook recipe : String) :
    Except ScriptError (Option (DerivedHookOutput × Path)) :=
  match cachedOutput cached key hook recipe with
  | none => .ok none
  | some previous => do
    let recipe ← parseDigest recipe
    let digest ← parseDigest previous.treeDigest
    return (env.verifiedLifecycleSnapshot w recipe digest previous.attestation).toOption.map
      fun snapshot => (previous, snapshot)

/-! ### Hooks -/

/-- The build directory of a stage. -/
def buildDirectory (stage : Path) : Path := stage ++ ["package"]

/-- The stage of a package, created when first needed. -/
def openStage (p : PackageState) : ScriptM W Path :=
  match p.stage with
  | some stage => return stage
  | none => onWorld env.host.newStage

/-- A call of a hook in the present layout. -/
def hookCall (s : RunState W) (stage : Path) (approval : DependencyLifecycleApproval) (script : String)
    (withoutContainment implicitNodeGyp : Bool) : HookCall where
  stage := stage
  approval := approval
  script := script
  input := s.input
  trees := s.trees
  lock := s.lock
  withoutContainment := withoutContainment
  implicitNodeGyp := implicitNodeGyp

/-- Runs a hook; the log has it whether or not it succeeds. -/
def runHook (key hook : String) (stage : Path) (approval : DependencyLifecycleApproval) (script : String)
    (withoutContainment implicitNodeGyp : Bool) : ScriptM W HookCall := do
  let s ← get
  let call := hookCall s stage approval script withoutContainment implicitNodeGyp
  record (.ran key hook call)
  onWorld_ fun w => env.host.runHook w call
  return call

/-- The approval a hook runs under, and whether it is the policy's. -/
def authorize (package : LockedPackage) (requiresInstall : Bool) (hook script : String) :
    ScriptM W (Option (DependencyLifecycleApproval × Bool)) := do
  let selected ← lift (env.select package hook script)
  match selected with
  | some approval => return some (approval, true)
  | none =>
    if env.overrides.allowUnapproved && (hookRank hook).isSome then do
      let s ← get
      let approval ← observe fun w =>
        env.host.invocationApproval w package hook script s.lock.workspacePackages.isEmpty
      return some (approval, false)
    else do
      lift (rejectIf (requiresInstall = true ∧ hook = "install") (.text
        ("required dependency lifecycle hook install for " ++ package.name ++ "@" ++ package.version ++
          " is not approved; approve its exact bytes in tapid.lifecycle.toml or explicitly accept the risk with --allow-unapproved-dependency-scripts; containment remains required unless --unsafe-no-dependency-sandbox is also explicitly selected")))
      return none

/-- A hook under execution overrides; its output is not recorded. -/
def runOverridden (key hook script : String) (approval : DependencyLifecycleApproval)
    (implicitNodeGyp : Bool) (p : PackageState) : ScriptM W PackageState := do
  lift (rejectIf (env.online = false) (.text
    "dependency execution overrides cannot execute during frozen or offline replay"))
  let stage ← env.openStage p
  if p.bypassed then pure () else onWorld_ fun w => env.host.copyBuildSource w p.current (buildDirectory stage)
  let _ ← env.runHook key hook stage approval script env.overrides.withoutContainment implicitNodeGyp
  observe fun w => env.host.validateOutput w (buildDirectory stage)
  return { p with current := buildDirectory stage, stage := some stage, bypassed := true }

/-- Where a reused tree is taken from; online it is staged again. -/
def stageReused (r : Reuse W) : ScriptM W Path :=
  if env.online then do
    let digest ← lift (parseDigest r.output.treeDigest)
    onWorld fun w => env.host.stageVerifiedTree w digest r.snapshot
  else return r.snapshot

/-- Takes an output from the store. -/
def reuseOutput (r : Reuse W) (p : PackageState) : ScriptM W PackageState := do
  let path ← env.stageReused r
  modify fun s => { s with snapshots := s.snapshots ++ [r.snapshot] }
  record (.reused { r with path })
  return { p with outputs := p.outputs ++ [r.output], current := path }

def newOutput (hook recipe digest attestation : String) : Except ScriptError DerivedHookOutput := do
  let output : DerivedHookOutput := ⟨attestation, hook, recipe, digest⟩
  (validateDerivedHooks [output]).mapError .lockfile
  return output

/-- Runs an approved hook in its stage and records the output. -/
def executeHook (key : String) (package : LockedPackage) (hook script recipe : String)
    (approval : DependencyLifecycleApproval) (p : PackageState) : ScriptM W PackageState := do
  lift (rejectIf (env.online = false) (.text ("missing or mismatched verified lifecycle output for " ++
    package.name ++ "@" ++ package.version ++ " " ++ hook ++ "; run an approved online install")))
  let stage ← env.openStage p
  onWorld_ fun w => env.host.copyBuildSource w p.current (buildDirectory stage)
  let call ← env.runHook key hook stage approval script false false
  observe fun w => env.host.validateOutput w (buildDirectory stage)
  let digest ← observe fun w => env.host.canonicalTreeDigest w (buildDirectory stage)
  let tree ← lift (parseDigest digest)
  let staged ← onWorld fun w => env.host.stageVerifiedTree w tree (buildDirectory stage)
  let recipeDigest ← lift (parseDigest recipe)
  let text ← onWorld fun w => env.attestLifecycleOutput w recipeDigest tree
  let output ← lift (newOutput hook recipe digest text)
  record (.executed key call output staged)
  return { p with outputs := p.outputs ++ [output], current := staged, stage := some stage }

/-- An approved hook: its output is taken from the store or made. -/
def deriveOutput (sourceGraph : String) (cached : Option Lockfile) (key : String) (package : LockedPackage)
    (hook script : String) (approval : DependencyLifecycleApproval) (p : PackageState) :
    ScriptM W PackageState := do
  let system ← env.systemIdentity
  let toolchain ← lift (env.toolIdentity approval system)
  let s ← get
  let recipe := env.policy.derivedKey env.sha256Hex approval toolchain
    (env.graphText sourceGraph s.completed p.outputs)
  let found ← lift (env.reusable s.world cached key hook recipe)
  match found with
  | some (output, snapshot) => env.reuseOutput {
      key, package, hook, script, approval, toolchain, lock := s.lock, completed := s.completed
      outputs := p.outputs, output, world := s.world, snapshot, path := snapshot } p
  | none => env.executeHook key package hook script recipe approval p

def processHook (sourceGraph : String) (cached : Option Lockfile) (key : String) (package : LockedPackage)
    (requiresInstall : Bool) (p : PackageState) (command : String × String) : ScriptM W PackageState := do
  let authorized ← env.authorize package requiresInstall command.1 command.2
  match authorized with
  | none => return p
  | some (approval, exact) => do
    lift (rejectIf (package.registryIntegrityDeclared ≠ some true)
      (.text "approved dependency scripts require registry-declared archive integrity"))
    if env.overrides.enabled then
      env.runOverridden key command.1 command.2 approval
        (!exact && requiresInstall && command.1 == "install") p
    else env.deriveOutput sourceGraph cached key package command.1 command.2 approval p

/-! ### Packages -/

/-- The hooks of a tree; a tree without a manifest has none. -/
def commands (w : W) (tree : Path) : Except ScriptError DependencyLifecyclePlan := do
  match ← env.host.manifest w tree with
  | none => return {}
  | some (text, bindingGyp) => dependencyLifecyclePlan env.codec text bindingGyp

/-- The hooks of a package; when they cannot be read, none, unless the policy
speaks about the package. -/
def discover (package : LockedPackage) (w : W) (tree : Path) : Except ScriptError DependencyLifecyclePlan :=
  match env.commands w tree with
  | .ok plan => .ok plan
  | .error e =>
    if env.policy.approvals.any (fun a => a.package == package.name) || env.overrides.allowUnapproved then
      .error e
    else .ok {}

/-- The instance a lockfile entry is about. -/
def identityOf (key : String) : Except ScriptError InstanceKey := do
  let typed ← (LockfilePackageKey.parse env.url key).mapError .lockfile
  let peer ← (decodePeerContext typed.peerContext typed.display).mapError .lockfile
  let platform ← (decodePlatformContext typed.platformContext typed.display).mapError .lockfile
  let source ← orError typed.source.packageSource (.text "lifecycle package has no artifact source")
  return ⟨⟨source, typed.name, typed.version⟩, peer, platform⟩

/-- The place of an instance whose tree is the one of the entry. -/
def indexOf (input : LayoutInput) (trees : OrdMap String Path) (key : String) (identity : InstanceKey) :
    Option (Nat × Path) := do
  let index ← input.instances.findIdx? fun i => i.key == identity
  let inst ← input.instances[index]?
  if trees.get? key = some inst.treeRoot then return (index, inst.treeRoot) else none

/-- The tree of an entry becomes a derived one. -/
def substitute (key : String) (index : Nat) (digest : String) (path : Path) : ScriptM W Unit := do
  let digest ← lift (verifiedTreeReference digest)
  modify fun s => { s with
    input := s.input.setTree index digest path, trees := s.trees.insert key path }
  record (.substituted key digest path)

/-- Substitutes the tree that the hooks left. -/
def substituteResult (key : String) (index : Nat) (p : PackageState) : ScriptM W Unit :=
  if p.bypassed then do
    let digest ← observe fun w => env.host.canonicalTreeDigest w p.current
    substitute key index digest p.current
    modify fun s => { s with retainedStages := s.retainedStages ++ p.stage.toList }
  else
    match p.outputs.getLast? with
    | some output => substitute key index output.treeDigest p.current
    | none => return ()

/-- `set_derived_hooks` on the lockfile of the run. -/
def setDerivedHooks (key : String) (outputs : List DerivedHookOutput) : ScriptM W Unit := fun s =>
  match Lockfile.setDerivedHooks key outputs s.lock with
  | .ok _ lock => .ok () { s with lock }
  | .error e lock => .error (.lockfile e) { s with lock }

/-- Records what the hooks of a package left. -/
def finishPackage (cached : Option Lockfile) (key : String) (index : Nat) (p : PackageState) :
    ScriptM W Unit := do
  lift (rejectIf (env.online = false ∧
      ((cached.bind fun l => l.packages.get? key).map LockedPackage.derivedHooks) ≠ some p.outputs)
    (.text ("lifecycle approval was removed or changed for " ++ key ++ "; regenerate tapid.lock online")))
  env.substituteResult key index p
  setDerivedHooks key p.outputs
  modify fun s => { s with completed := s.completed.insert key p.outputs }

def processPackage (sourceGraph : String) (cached : Option Lockfile) (_ : Unit) (key : String) :
    ScriptM W Unit := do
  let s ← get
  let package ← lift (orError (s.lock.packages.get? key) (.text "panic"))
  let identity ← lift (env.identityOf key)
  let (index, source) ← lift (orError (indexOf s.input s.trees key identity)
    (.text "lifecycle package mapping lost"))
  let plan ← lift (env.discover package s.world source)
  let p ← plan.commands.foldlM (env.processHook sourceGraph cached key package plan.implicitInstall)
    { current := source }
  env.finishPackage cached key index p

/-- The lockfile whose recorded outputs may be reused. -/
def cachedLock (w : W) (lock : Lockfile) : Option Lockfile :=
  if env.online then (env.host.readLock w).bind fun text => (Lockfile.fromJson env.url env.codec text).toOption
  else some lock

/-- Applies the approved hooks of all packages. -/
def apply : ScriptM W Unit := do
  let s ← get
  let sourceGraph ← lift ((s.lock.sourceGraph.toJson env.url env.codec).mapError .lockfile)
  lift (rejectIf (¬ (s.input.instances.map InstalledInstance.key).Nodup)
    (.text "duplicate lifecycle package instance"))
  let order ← lift (env.order s.lock)
  order.foldlM (env.processPackage sourceGraph (env.cachedLock s.world s.lock)) ()

end Env

end DependencyScripts

end Tapid
