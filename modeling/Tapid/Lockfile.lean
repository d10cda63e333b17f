/-
The lockfile and its operations.

The records follow the fields of the persisted document.  A mutating operation
is a `LockfileM` computation: it returns a value or an error together with the
lockfile it leaves behind, so an operation that fails after a partial update
is visible in its result.

* `LockedPackage.validate`, `LockedWorkspacePackage.validate` — the checks of a
  single entry;
* `Lockfile.insertGraph` — insertion of a batch whose edges may be cyclic;
* `Lockfile.setRoots`, `Lockfile.setRootBindings`, `Lockfile.setDerivedHooks`,
  `Lockfile.sourceGraph` — the other public operations.
-/
import Tapid.LockKey

namespace Tapid

open Text Fallible

/-! ### Schema versions -/

namespace Schema

def lockfileVersion : Nat := 7
def lifecycleLockfileVersion : Nat := 9
def copiedSourceLockfileVersion : Nat := 10
def rootsLegacyLockfileVersion : Nat := 6
def registryOnlyLockfileVersion : Nat := rootsLegacyLockfileVersion
def legacyLockfileVersion : Nat := 4
def provenanceLegacyLockfileVersion : Nat := 5

end Schema

/-! ### Records -/

/-- A generated tree bound to one hook. -/
structure DerivedHookOutput where
  attestation : String
  hook : String
  key : String
  treeDigest : String
  deriving DecidableEq

/-- A package with a registry or copied artifact. -/
structure LockedPackage where
  registry : String
  name : String
  version : String
  artifactIntegrity : String
  registryIntegrityDeclared : Option Bool
  unpackedDigest : String
  treeDigest : String
  derivedHooks : List DerivedHookOutput
  artifactUrl : Option String
  peerContext : String
  platformContext : String
  dependencies : OrdMap String String
  dependencyAliases : OrdMap String String
  deriving DecidableEq

/-- A package supplied by a workspace member. -/
structure LockedWorkspacePackage where
  source : LocalWorkspaceSource
  manifestDigest : String
  dependencies : OrdMap String String
  dependencyAliases : OrdMap String String
  deriving DecidableEq

/-- The persisted lock state. -/
structure Lockfile where
  lockfileVersion : Nat
  rootManifestDigest : String
  resolverVersion : String
  linkerVersion : String
  roots : List String
  rootBindings : OrdMap String String
  packages : OrdMap String LockedPackage
  workspacePackages : OrdMap String LockedWorkspacePackage
  deriving DecidableEq

/-! ### Checks shared by several operations -/

def canonicalArtifactDigest (value : String) : Except LockfileError String :=
  ((ArtifactDigest.parse value).map ArtifactDigest.text).mapError .domain

/-- Position of a hook in the lifecycle. -/
def hookRank (hook : String) : Option Nat :=
  if hook = "preinstall" then some 0
  else if hook = "install" then some 1
  else if hook = "postinstall" then some 2
  else none

/-- A digest recorded in a hook output is canonical. -/
def checkHookDigest (digest : String) : Except LockfileError Unit := do
  let canonical ← canonicalArtifactDigest digest
  rejectIf (canonical ≠ digest ∨ ¬ startsWith "sha256-".toList digest.toList)
    (.invalidDerivedOutput "noncanonical digest")

/-- The checks of one output after a hook of rank `previous`. -/
def checkDerivedHook (previous : Option Nat) (output : DerivedHookOutput) :
    Except LockfileError Nat := do
  let tag ← orError (stripPrefix "hmac-sha256-".toList output.attestation.toList)
    (.invalidDerivedOutput "missing lifecycle output authentication")
  rejectIf (byteLen tag ≠ 64 ∨ ¬ tag.all isLowerHexDigit)
    (.invalidDerivedOutput "invalid lifecycle output authentication")
  let rank ← orError (hookRank output.hook) (.invalidDerivedOutput "unsupported hook")
  rejectIf (previous.any fun p => rank ≤ p) (.invalidDerivedOutput "duplicate or unordered hooks")
  checkHookDigest output.key
  checkHookDigest output.treeDigest
  return rank

/-- The loop of `validate_derived_hooks`. -/
def checkDerivedHooks : Option Nat → List DerivedHookOutput → Except LockfileError Unit
  | _, [] => .ok ()
  | previous, output :: rest => do
    let rank ← checkDerivedHook previous output
    checkDerivedHooks (some rank) rest

def validateDerivedHooks (outputs : List DerivedHookOutput) : Except LockfileError Unit :=
  checkDerivedHooks none outputs

section Checks

variable (url : UrlParser)

def validateRegistryUrl (value : String) : Except LockfileError Unit := do
  rejectIf ('?' ∈ value.toList ∨ '#' ∈ value.toList ∨ '@' ∈ value.toList) (.invalidUrl value)
  match RegistryOrigin.parse url value with
  | .ok _ => .ok ()
  | .error _ => .error (.invalidUrl value)

def validateArtifactUrl (value : String) : Except LockfileError Unit :=
  match artifactUrlParse url value with
  | .ok _ => .ok ()
  | .error _ => .error (.invalidUrl value)

/-- An edge targets an existing other entry under its name or its alias. -/
def validateDependencyTarget (package name dependency : String) (aliases : OrdMap String String)
    (present : String → Bool) : Except LockfileError Unit := do
  let target ← LockfilePackageKey.parse url dependency
  rejectIf (dependency = package) (.selfDependency package)
  rejectIf (target.name.text ≠ name ∧ aliases.get? name ≠ some target.name.text)
    (.dependencyNameMismatch package name target.name.text)
  rejectIf (¬ present dependency) (.danglingDependency package dependency)

/-- Alias entries belong to edges and name the real target. -/
def validateAlias (package : String) (dependencies : OrdMap String String)
    (entry : String × String) : Except LockfileError Unit := do
  let _ ← (PackageName.parse entry.1).mapError LockfileError.domain
  let _ ← (PackageName.parse entry.2).mapError LockfileError.domain
  let dependency ← orError (dependencies.get? entry.1)
    (.dependencyNameMismatch package entry.1 entry.2)
  let target ← LockfilePackageKey.parse url dependency
  rejectIf (entry.2 ≠ target.name.text ∨ entry.1 = entry.2)
    (.dependencyNameMismatch package entry.1 target.name.text)

namespace LockedPackage

/-- The encoded key.  The parses are `expect`ed to succeed: the key is only
asked of validated entries. -/
def key (p : LockedPackage) : String :=
  LockfilePackageKey.renderFields
    (match PackageSource.parse url p.registry with
      | .ok source => source.identity
      | .error _ => p.registry)
    (match PackageName.parse p.name with
      | .ok name => name.text
      | .error _ => p.name)
    (match PackageVersion.fromStr p.version with
      | .ok version => version.display
      | .error _ => p.version)
    p.peerContext p.platformContext

def source (p : LockedPackage) : Option PackageSource := (PackageSource.parse url p.registry).toOption

/-- Whether the source is not a registry. -/
def isCopied (p : LockedPackage) : Bool := (p.source url).any fun s => s.registry.isNone

/-- Whether the source is a registry. -/
def isRegistry (p : LockedPackage) : Bool := (p.source url).any fun s => s.registry.isSome

/-- Copied artifacts carry no registry evidence. -/
def validateEvidence (p : LockedPackage) (registry : PackageSource) : Except LockfileError Unit :=
  if registry.registry.isSome then validateRegistryUrl url p.registry
  else rejectIf (p.registryIntegrityDeclared.isSome ∨ p.artifactUrl.isSome ∨ p.derivedHooks ≠ [])
    .invalidCopiedArtifactEvidence

def validate (p : LockedPackage) : Except LockfileError Unit := do
  let registry ← (PackageSource.parse url p.registry).mapError LockfileError.domain
  rejectIf (registry.identity ≠ p.registry) .nonCanonicalRegistryIdentity
  let _ ← (PackageName.parse p.name).mapError LockfileError.domain
  let _ ← (PackageVersion.fromStr p.version).mapError LockfileError.domain
  let integrity ← (PackageIntegrity.parse p.artifactIntegrity).mapError LockfileError.domain
  rejectIf (integrity.text ≠ p.artifactIntegrity) (.invalidSha512 p.artifactIntegrity)
  let _ ← (ArtifactDigest.parse p.unpackedDigest).mapError LockfileError.domain
  let _ ← (ArtifactDigest.parse p.treeDigest).mapError LockfileError.domain
  let _ ← decodePeerContext p.peerContext (p.key url)
  let _ ← decodePlatformContext p.platformContext (p.key url)
  p.validateEvidence url registry
  checkAll (validateArtifactUrl url) p.artifactUrl.toList
  checkAll (validateAlias url (p.key url) p.dependencies) p.dependencyAliases.entries
  checkAll (fun name => do
    let _ ← (PackageName.parse name).mapError LockfileError.domain) p.dependencies.keys

end LockedPackage

namespace LockedWorkspacePackage

def key (p : LockedWorkspacePackage) : String := (LockfilePackageKey.workspace p.source).display

def validate (p : LockedWorkspacePackage) : Except LockfileError Unit := do
  let source ← LocalWorkspaceSource.new p.source.path p.source.name.text p.source.version.display
  rejectIf (source ≠ p.source) (.invalidWorkspaceSource p.source.identity)
  let digest ← (ArtifactDigest.parse p.manifestDigest).mapError LockfileError.domain
  rejectIf (digest.text ≠ p.manifestDigest) (.invalidPackageKey p.key)
  checkAll (fun (name, dependency) => do
    let parsed ← LockfilePackageKey.parse url dependency
    rejectIf (parsed.name.text ≠ name ∧ p.dependencyAliases.get? name ≠ some parsed.name.text)
      (.dependencyNameMismatch p.key name parsed.name.text)
    rejectIf (dependency = p.key) (.selfDependency p.key)) p.dependencies.entries
  checkAll (validateAlias url p.key p.dependencies) p.dependencyAliases.entries

end LockedWorkspacePackage

end Checks

/-! ### Operations -/

/-- A mutating operation on a lockfile. -/
abbrev LockfileM := EStateM LockfileError Lockfile

/-- `?` on a pure result. -/
def liftE {α : Type} (x : Except LockfileError α) : LockfileM α := fun l =>
  match x with
  | .ok a => .ok a l
  | .error e => .error e l

namespace Lockfile

def new (rootManifestDigest : String) : Except LockfileError Lockfile := do
  let digest ← canonicalArtifactDigest rootManifestDigest
  return ⟨Schema.lockfileVersion, digest, "0", "0", [], ∅, ∅, ∅⟩

def containsPackageKey (l : Lockfile) (key : String) : Bool :=
  l.packages.contains key || l.workspacePackages.contains key

/-- `sort` and `dedup`. -/
def sortDedup (roots : List String) : List String := (OrdSet.ofList roots).elems

/-- Validated entries by key; a key already present is a duplicate. -/
def collectBatch {P : Type} (validate : P → Except LockfileError Unit) (key : P → String)
    (taken : String → Bool) : List P → OrdMap String P → Except LockfileError (OrdMap String P)
  | [], batch => .ok batch
  | p :: rest, batch => do
    validate p
    rejectIf (taken (key p) ∨ batch.contains (key p)) (.duplicatePackage (key p))
    collectBatch validate key taken rest (batch.insert (key p) p)

section Mutators

variable (url : UrlParser)

/-- Every edge of the listed entries has an admissible target. -/
def checkEdges {P : Type} (dependencies aliases : P → OrdMap String String)
    (present : String → Bool) (entries : List (String × P)) : Except LockfileError Unit :=
  checkAll (fun (key, p) => checkAll (fun (name, dependency) =>
    validateDependencyTarget url key name dependency (aliases p) present)
    (dependencies p).entries) entries

def insertGraph (registryPackages : List LockedPackage)
    (workspacePackages : List LockedWorkspacePackage) : LockfileM Unit := do
  let self ← get
  let registryBatch ← liftE (collectBatch (LockedPackage.validate url) (LockedPackage.key url)
    self.containsPackageKey registryPackages ∅)
  let workspaceBatch ← liftE (collectBatch (LockedWorkspacePackage.validate url)
    LockedWorkspacePackage.key (fun key => self.containsPackageKey key || registryBatch.contains key)
    workspacePackages ∅)
  let present := fun key => self.containsPackageKey key || registryBatch.contains key ||
    workspaceBatch.contains key
  liftE (checkEdges url LockedPackage.dependencies LockedPackage.dependencyAliases present
    registryBatch.entries)
  liftE (checkEdges url LockedWorkspacePackage.dependencies LockedWorkspacePackage.dependencyAliases
    present workspaceBatch.entries)
  if registryPackages.any (LockedPackage.isCopied url) then
    modify fun l => { l with lockfileVersion := Schema.copiedSourceLockfileVersion }
  modify fun l =>
    { l with packages := l.packages.insertAll (registryPackages.map fun p => (p.key url, p)) }
  modify fun l =>
    { l with
      workspacePackages := l.workspacePackages.insertAll (workspacePackages.map fun p => (p.key, p)) }

def insertPackages (packages : List LockedPackage) : LockfileM Unit := insertGraph url packages []

def insertPackage (package : LockedPackage) : LockfileM Unit := insertPackages url [package]

def insertWorkspacePackage (package : LockedWorkspacePackage) : LockfileM Unit :=
  insertGraph url [] [package]

/-- A root parses and is an entry. -/
def checkRoot (l : Lockfile) (root : String) : Except LockfileError Unit := do
  let _ ← LockfilePackageKey.parse url root
  rejectIf (¬ l.containsPackageKey root) (.danglingRoot root)

def setRoots (roots : List String) : LockfileM Unit := do
  let self ← get
  liftE (checkAll (self.checkRoot url) (sortDedup roots))
  modify fun l => { l with roots := sortDedup roots }
  modify fun l => { l with rootBindings := ∅ }

/-- A root that is not a workspace member. -/
def isNonWorkspaceRoot (root : String) : Bool :=
  match LockfilePackageKey.parse url root with
  | .ok key => !key.source.isWorkspace
  | .error _ => true

/-- Bindings target roots, and every root outside the workspace is bound. -/
def checkBindings (roots : List String) (bindings : OrdMap String String) :
    Except LockfileError Unit := do
  checkAll (fun (name, target) => do
    let _ ← (PackageName.parse name).mapError LockfileError.domain
    let _ ← LockfilePackageKey.parse url target
    rejectIf (¬ target ∈ roots) (.danglingRoot target)) bindings.entries
  checkAll (fun root =>
    rejectIf (¬ root ∈ bindings.values ∧ isNonWorkspaceRoot url root) .nonCanonicalRoots) roots

def setRootBindings (bindings : OrdMap String String) : LockfileM Unit := do
  let self ← get
  liftE (checkBindings url self.roots bindings)
  modify fun l => { l with rootBindings := bindings }

def setDerivedHooks (key : String) (outputs : List DerivedHookOutput) : LockfileM Unit := do
  liftE (validateDerivedHooks outputs)
  let self ← get
  let package ← liftE (orError (self.packages.get? key) (.invalidPackageKey key))
  modify fun l =>
    { l with packages := l.packages.insert key { package with derivedHooks := outputs } }
  if outputs ≠ [] then
    modify fun l =>
      { l with lockfileVersion := max l.lockfileVersion Schema.lifecycleLockfileVersion }

end Mutators

def sourceGraph (l : Lockfile) : Lockfile :=
  { l with
    lockfileVersion :=
      if l.lockfileVersion = Schema.lifecycleLockfileVersion then Schema.lockfileVersion else l.lockfileVersion
    packages := l.packages.mapVal fun _ p => { p with derivedHooks := [] } }

/-- The mutating operations of the public interface. -/
inductive Mutation where
  | insertGraph (registryPackages : List LockedPackage)
      (workspacePackages : List LockedWorkspacePackage)
  | insertPackage (package : LockedPackage)
  | insertPackages (packages : List LockedPackage)
  | insertWorkspacePackage (package : LockedWorkspacePackage)
  | setRoots (roots : List String)
  | setRootBindings (bindings : OrdMap String String)
  | setDerivedHooks (key : String) (outputs : List DerivedHookOutput)

/-- The operation a mutation stands for. -/
def Mutation.run (url : UrlParser) : Mutation → LockfileM Unit
  | insertGraph rs ws => Lockfile.insertGraph url rs ws
  | insertPackage p => Lockfile.insertPackage url p
  | insertPackages ps => Lockfile.insertPackages url ps
  | insertWorkspacePackage p => Lockfile.insertWorkspacePackage url p
  | setRoots roots => Lockfile.setRoots url roots
  | setRootBindings bindings => Lockfile.setRootBindings url bindings
  | setDerivedHooks key outputs => Lockfile.setDerivedHooks key outputs

end Lockfile

end Tapid
