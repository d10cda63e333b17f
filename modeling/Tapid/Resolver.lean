/-
Dependency resolution over normalized registry metadata.

Roots are selected first, one per registry, local name and actual name; then a
stack of selected packages is expanded, each once, and every declared
dependency becomes an edge to the package selected for it.  Packages without
any metadata are collected instead and reported together.  Peers are bound
last, against the root bindings.

* `selectPackage` — the preferred, then highest, matching record;
* `selectRoot`, `expandNext` — one root and one iteration of the worklist;
* `bindPeers` — the peer context of one package;
* `resolveGraphWithPreferences` — the whole resolution.
-/
import Tapid.Loop
import Tapid.Requirement

namespace Tapid

open Fallible Text

/-! ### Metadata and options -/

/-- One root constraint. -/
structure Dependency where
  registry : PackageSource
  name : PackageName
  requirement : Requirement
  deriving DecidableEq

/-- Metadata of one exact version. -/
structure PackageVersionMetadata where
  name : PackageName
  version : PackageVersion
  distTags : OrdSet String
  dependencies : OrdMap PackageName Requirement
  peerDependencies : OrdMap PackageName Requirement
  optionalPeerDependencies : OrdSet PackageName
  deriving DecidableEq

/-- Records that belong to one registry. -/
structure RegistryMetadata where
  registry : PackageSource
  packages : List PackageVersionMetadata
  deriving DecidableEq

structure ResolutionOptions where
  offline : Bool
  frozen : Bool
  deriving DecidableEq

/-- Registry, local root name and actual name. -/
abbrev RootKey := PackageSource ×ₗ PackageName ×ₗ PackageName

/-- Registry and name of a package. -/
abbrev PackageKey := PackageSource ×ₗ PackageName

def rootKey (registry : PackageSource) (localName name : PackageName) : RootKey :=
  toLex (registry, toLex (localName, name))

def packageKey (registry : PackageSource) (name : PackageName) : PackageKey :=
  toLex (registry, name)

/-- Exact version preferences of a previous graph. -/
structure ResolutionPreferences where
  versions : OrdSet (PackageSource ×ₗ PackageName ×ₗ PackageVersion)
  refreshRoots : OrdSet RootKey
  roots : OrdMap RootKey PackageVersion
  deriving DecidableEq

/-- `ResolutionPreferences::default`. -/
def ResolutionPreferences.none : ResolutionPreferences := ⟨∅, ∅, ∅⟩

/-- One edge of the resolved graph. -/
structure ResolvedDependency where
  parent : PackageInstanceId
  dependency : PackageName
  child : PackageInstanceId
  deriving DecidableEq

namespace ResolvedDependency

def lexKey (d : ResolvedDependency) : PackageInstanceId ×ₗ PackageName ×ₗ PackageInstanceId :=
  toLex (d.parent, toLex (d.dependency, d.child))

theorem lexKey_injective : Function.Injective lexKey := by
  rintro ⟨a, b, c⟩ ⟨a', b', c'⟩ h
  obtain ⟨rfl, h⟩ := Prod.mk.inj (toLex.injective h)
  obtain ⟨rfl, rfl⟩ := Prod.mk.inj (toLex.injective h)
  rfl

instance : LinearOrder ResolvedDependency := LinearOrder.lift' lexKey lexKey_injective

end ResolvedDependency

/-- Exact identities, root selections and edges of a graph. -/
structure Resolution where
  selected : List PackageInstanceId
  roots : List PackageInstanceId
  rootBindings : OrdMap PackageKey PackageInstanceId
  dependencies : List ResolvedDependency
  peerContexts : OrdMap PackageInstanceId PeerContext
  deriving DecidableEq

/-- Registry of a dependency, from the registry of its parent and its name. -/
abbrev Routing := PackageSource → PackageName → Except String PackageSource

/-! ### Limits -/

def maxPackages : Nat := 100000

def maxRelationships : Nat := 1000000

def maxMetadataBytes : Nat := 64 * 1024 * 1024

/-- Running totals of a metadata check. -/
structure MetadataTotals where
  packages : Nat
  relationships : Nat
  bytes : Nat
  deriving DecidableEq

/-- Bytes of a map of requirements. -/
def requirementBytes (m : OrdMap PackageName Requirement) : Nat :=
  (m.entries.map fun e => byteLen e.1.text.toList + e.2.retainedBytes).sum

def PackageVersionMetadata.relationships (p : PackageVersionMetadata) : Nat :=
  p.dependencies.entries.length + p.peerDependencies.entries.length +
    p.optionalPeerDependencies.elems.length + p.distTags.elems.length

def PackageVersionMetadata.bytes (p : PackageVersionMetadata) : Nat :=
  byteLen p.name.text.toList + byteLen (PackageVersion.preChars p.version.pre) +
    requirementBytes p.dependencies + requirementBytes p.peerDependencies +
    (p.optionalPeerDependencies.elems.map fun name => byteLen name.text.toList).sum +
    (p.distTags.elems.map fun tag => byteLen tag.toList).sum

def checkRecord (totals : MetadataTotals) (p : PackageVersionMetadata) :
    Except ResolveError MetadataTotals := do
  let relationships := totals.relationships + p.relationships
  rejectIf (maxRelationships < relationships) .metadataLimitExceeded
  let bytes := totals.bytes + p.bytes
  rejectIf (maxMetadataBytes < bytes) .metadataLimitExceeded
  return { totals with relationships, bytes }

def checkRegistry (totals : MetadataTotals) (registry : PackageSource)
    (records : List PackageVersionMetadata) : Except ResolveError MetadataTotals := do
  let packages := totals.packages + records.length
  let bytes := totals.bytes + byteLen registry.identity.toList
  rejectIf (maxPackages < packages ∨ maxMetadataBytes < bytes) .metadataLimitExceeded
  records.foldlM checkRecord { totals with packages, bytes }

/-- Bytes of all metadata, or the limit error. -/
def validateMetadata (metadata : List (PackageSource × List PackageVersionMetadata)) :
    Except ResolveError Nat := do
  let totals ← metadata.foldlM (fun totals item => checkRegistry totals item.1 item.2) ⟨0, 0, 0⟩
  return totals.bytes

/-- Bytes with those of the root constraints added. -/
def checkDependencyBytes (bytes : Nat) (d : Dependency) : Except ResolveError Nat := do
  let bytes := bytes + byteLen d.registry.identity.toList + byteLen d.name.text.toList +
    d.requirement.retainedBytes
  rejectIf (maxMetadataBytes < bytes) .metadataLimitExceeded
  return bytes

/-! ### Candidate selection -/

/-- Records of each package, in metadata order. -/
abbrev CandidateIndex := OrdMap PackageKey (List PackageVersionMetadata)

def indexEntries (metadata : List RegistryMetadata) : List (PackageKey × PackageVersionMetadata) :=
  metadata.flatMap fun registry => registry.packages.map fun package =>
    (packageKey registry.registry package.name, package)

def candidateIndex (metadata : List RegistryMetadata) : CandidateIndex :=
  .group (indexEntries metadata)

/-- Last element with the greatest key. -/
def maxByKey {α κ : Type} [LinearOrder κ] (key : α → κ) (l : List α) : Option α :=
  l.foldl (fun best a => match best with
    | none => some a
    | some b => if key b ≤ key a then some a else some b) none

/-- Versions on offer, increasing and without repetition. -/
def available (candidates : List PackageVersionMetadata) : List String :=
  (OrdSet.ofList (candidates.map PackageVersionMetadata.version)).elems.map PackageVersion.display

/-- Order of preference among matching records. -/
def preferenceKey (registry : PackageSource) (name : PackageName)
    (preferred : ResolutionPreferences) (preferredRoot : Option PackageVersion)
    (package : PackageVersionMetadata) : Bool ×ₗ Bool ×ₗ PackageVersion :=
  toLex (preferredRoot == some package.version,
    toLex (decide (toLex (registry, toLex (name, package.version)) ∈ preferred.versions),
      package.version))

def satisfiesAll (requirements : OrdSet Requirement) (package : PackageVersionMetadata) : Bool :=
  requirements.elems.all fun r => r.matchesTaggedVersion package.version package.distTags

def selectPackage (registry : PackageSource) (name : PackageName)
    (requirements : OrdSet Requirement) (candidates : CandidateIndex)
    (preferred : ResolutionPreferences) (preferredRoot : Option PackageVersion)
    (origin : RequirementOrigin) : Except ResolveError PackageVersionMetadata :=
  let matching := (candidates.get? (packageKey registry name)).getD []
  match maxByKey (preferenceKey registry name preferred preferredRoot)
      (matching.filter (satisfiesAll requirements)) with
  | some package => .ok package
  | none =>
    let texts := requirements.elems.map Requirement.raw
    if 1 < texts.length then
      .error (.conflict origin registry.identity name.text texts (available matching))
    else
      .error (.missingCandidate origin registry.identity name.text (texts.headD "")
        (available matching))

/-- A selected package, or the registry and name nothing is known about. -/
inductive Selection where
  | found (package : PackageVersionMetadata)
  | unknown

/-- Selection in which a package without any metadata is no error yet. -/
def selectKnown (registry : PackageSource) (name : PackageName)
    (requirements : OrdSet Requirement) (candidates : CandidateIndex)
    (preferred : ResolutionPreferences) (preferredRoot : Option PackageVersion)
    (origin : RequirementOrigin) : Except ResolveError Selection :=
  match selectPackage registry name requirements candidates preferred preferredRoot origin with
  | .ok package => .ok (.found package)
  | .error (.missingCandidate origin reg n requirement versions) =>
    if candidates.contains (packageKey registry name) then
      .error (.missingCandidate origin reg n requirement versions)
    else .ok .unknown
  | .error e => .error e

/-! ### The worklist -/

/-- State of graph selection. -/
structure GraphState where
  selected : OrdSet PackageInstanceId
  packages : OrdMap PackageInstanceId PackageVersionMetadata
  roots : List PackageInstanceId
  rootBindings : OrdMap PackageKey PackageInstanceId
  /-- A stack: the head is popped next. -/
  queue : List PackageInstanceId
  missing : OrdSet (String ×ₗ String)
  dependencies : OrdSet ResolvedDependency
  expanded : OrdSet PackageInstanceId
  deriving DecidableEq

def GraphState.initial : GraphState := ⟨∅, ∅, [], ∅, [], ∅, ∅, ∅⟩

def rootConstraintEntries (ds : List Dependency) : List (RootKey × Requirement) :=
  ds.map fun d => (rootKey d.registry d.name (d.requirement.packageName d.name), d.requirement)

/-- Requirements of each root. -/
def rootConstraints (ds : List Dependency) : OrdMap RootKey (OrdSet Requirement) :=
  (OrdMap.group (rootConstraintEntries ds)).mapVal fun _ requirements => .ofList requirements

section Graph

variable (index : CandidateIndex) (preferred : ResolutionPreferences)

/-- Preferences a root is selected with. -/
def rootPreferences (key : RootKey) : ResolutionPreferences :=
  if key ∈ preferred.refreshRoots then .none else preferred

/-- Select one root. -/
def selectRoot (state : GraphState) (constraint : RootKey × OrdSet Requirement) :
    Except ResolveError GraphState := do
  let registry := (ofLex constraint.1).1
  let localName := (ofLex (ofLex constraint.1).2).1
  let name := (ofLex (ofLex constraint.1).2).2
  let preferences := rootPreferences preferred constraint.1
  match ← selectKnown registry name constraint.2 index preferences
      (preferences.roots.get? constraint.1) ⟨localName, none⟩ with
  | .unknown =>
    return { state with missing := state.missing.insert (toLex (registry.identity, name.text)) }
  | .found package =>
    let id : PackageInstanceId := ⟨registry, name, package.version⟩
    let key := packageKey registry localName
    rejectIf (∃ previous ∈ state.rootBindings.get? key, previous ≠ id)
      (.registryRouting ("conflicting root binding for " ++ localName.text))
    return { state with
      selected := state.selected.insert id
      packages := state.packages.insert id package
      roots := state.roots ++ [id]
      rootBindings := state.rootBindings.insert key id
      queue := id :: state.queue }

variable (route : Routing)

/-- What a dependency of a package resolves to. -/
def resolveChild (parent : PackageInstanceId) (dependency : PackageName)
    (requirement : Requirement) : Except ResolveError (PackageSource × Selection) := do
  let actualName := requirement.packageName dependency
  let registry ← (route parent.registry actualName).mapError .registryRouting
  let selection ← selectKnown registry actualName (.ofList [requirement]) index preferred none
    ⟨dependency, some parent⟩
  return (registry, selection)

/-- Record one dependency of the package being expanded. -/
def expandDependency (parent : PackageInstanceId) (state : GraphState)
    (declared : PackageName × Requirement) : Except ResolveError GraphState := do
  let actualName := declared.2.packageName declared.1
  match ← resolveChild index preferred route parent declared.1 declared.2 with
  | (registry, .unknown) =>
    return { state with missing := state.missing.insert (toLex (registry.identity, actualName.text)) }
  | (registry, .found package) =>
    let child : PackageInstanceId := ⟨registry, actualName, package.version⟩
    let state := { state with dependencies := state.dependencies.insert ⟨parent, declared.1, child⟩ }
    if child ∈ state.selected then return state
    else return { state with
      selected := state.selected.insert child
      packages := state.packages.insert child package
      queue := child :: state.queue }

/-- Declared dependencies of a selected package.  Every queued package has a
record, see `Worklist.queue_selected`. -/
def declaredDependencies (state : GraphState) (id : PackageInstanceId) :
    List (PackageName × Requirement) :=
  ((state.packages.get? id).map fun package => package.dependencies.entries).getD []

/-- One iteration of the worklist. -/
def expandNext (state : GraphState) : Option (Except ResolveError GraphState) :=
  match state.queue with
  | [] => none
  | parent :: rest =>
    let state := { state with queue := rest }
    if parent ∈ state.expanded then some (.ok state)
    else some ((declaredDependencies state parent).foldlM
      (expandDependency index preferred route parent)
      { state with expanded := state.expanded.insert parent })

end Graph

/-! ### Peers -/

section Peers

variable (route : Routing)

/-- Root bindings by local name. -/
def rootProviders (bindings : OrdMap PackageKey PackageInstanceId) :
    OrdMap PackageName (List PackageInstanceId) :=
  .group (bindings.entries.map fun e => ((ofLex e.1).2, e.2))

/-- Keep the candidate if its registry is the one peers of the package come from. -/
def considerProvider (id : PackageInstanceId) (peer : PackageName) (requirement : Requirement)
    (provider : Option PackageInstanceId) (candidate : PackageInstanceId) :
    Except ResolveError (Option PackageInstanceId) := do
  let actualName := if requirement.isAlias then requirement.packageName peer else candidate.name
  let registry ← (route id.registry actualName).mapError .registryRouting
  if candidate.registry ≠ registry then return provider
  rejectIf provider.isSome (.registryRouting ("ambiguous root peer binding for " ++ peer.text))
  return some candidate

/-- The root binding a peer resolves to, if there is one. -/
def findProvider (providers : OrdMap PackageName (List PackageInstanceId))
    (id : PackageInstanceId) (peer : PackageName) (requirement : Requirement) :
    Except ResolveError (Option PackageInstanceId) := do
  let candidates := providers.get? peer
  let provider ← (candidates.getD []).foldlM (considerProvider route id peer requirement) none
  if candidates.isNone then
    -- the route is validated even without a provider
    let _ ← (route id.registry (requirement.packageName peer)).mapError ResolveError.registryRouting
  return provider

variable (packages : OrdMap PackageInstanceId PackageVersionMetadata)

/-- Whether a provider satisfies a peer requirement. -/
def acceptsProvider (peer : PackageName) (requirement : Requirement)
    (provider : PackageInstanceId) : Bool :=
  ((packages.get? provider).any fun metadata =>
    requirement.matchesTaggedVersion provider.version metadata.distTags) &&
    (!requirement.isAlias || requirement.packageName peer == provider.name)

/-- Bind one declared peer. -/
def bindPeer (providers : OrdMap PackageName (List PackageInstanceId)) (id : PackageInstanceId)
    (package : PackageVersionMetadata) (context : PeerContext) (declared : PackageName × Requirement) :
    Except ResolveError PeerContext := do
  let provider ← findProvider route providers id declared.1 declared.2
  match provider with
  | some provider =>
    rejectIf (¬ acceptsProvider packages declared.1 declared.2 provider)
      (.peerDependency id declared.1.text declared.2.raw (some provider))
    return context.insert declared.1 provider.version
  | none =>
    rejectIf (declared.1 ∉ package.optionalPeerDependencies)
      (.peerDependency id declared.1.text declared.2.raw none)
    return context

/-- Bind all peers of one package. -/
def bindPeers (providers : OrdMap PackageName (List PackageInstanceId))
    (contexts : OrdMap PackageInstanceId PeerContext)
    (entry : PackageInstanceId × PackageVersionMetadata) :
    Except ResolveError (OrdMap PackageInstanceId PeerContext) := do
  let context ← entry.2.peerDependencies.entries.foldlM
    (bindPeer route packages providers entry.1 entry.2) ∅
  return contexts.insert entry.1 context

end Peers

/-! ### Resolution -/

/-- Identities the metadata knows. -/
def knownIds (metadata : List RegistryMetadata) : List PackageInstanceId :=
  metadata.flatMap fun registry => registry.packages.map fun package =>
    ⟨registry.registry, package.name, package.version⟩

def maxDependencies : Nat := 100000

section Resolve

variable (ds : List Dependency) (metadata : List RegistryMetadata) (options : ResolutionOptions)
  (route : Routing) (preferred : ResolutionPreferences)

/-- Checks made before anything is selected. -/
def checkRequest : Except ResolveError Unit := do
  rejectIf options.frozen (.unsupportedMode "frozen resolution requires a lockfile replay input")
  rejectIf (options.offline ∧ metadata = [])
    (.unsupportedMode "offline resolution requires a cached snapshot")
  let bytes ← validateMetadata (metadata.map fun item => (item.registry, item.packages))
  rejectIf (maxDependencies < ds.length) .metadataLimitExceeded
  let _ ← ds.foldlM checkDependencyBytes bytes
  return ()

/-- Roots, selected in key order. -/
def selectRoots : Except ResolveError GraphState :=
  (rootConstraints ds).entries.foldlM (selectRoot (candidateIndex metadata) preferred) .initial

/-- Iterations that always suffice: an iteration takes one package off the
stack, and a package is pushed once per root constraint or when it is first
selected (`selectGraph_queue`). -/
def worklistFuel : Nat := (rootConstraints ds).entries.length + (knownIds metadata).length + 1

/-- Roots and their transitive dependencies. -/
def selectGraph : Except ResolveError GraphState := do
  let state ← selectRoots ds metadata preferred
  Loop.run (expandNext (candidateIndex metadata) preferred route) (worklistFuel ds metadata) state

def resolveGraphWithPreferences : Except ResolveError Resolution := do
  checkRequest ds metadata options
  let state ← selectGraph ds metadata route preferred
  rejectIf (¬ state.missing.elems.isEmpty)
    (.missingMetadata (state.missing.elems.map ofLex))
  let contexts ← state.packages.entries.foldlM
    (bindPeers route state.packages (rootProviders state.rootBindings)) ∅
  return {
    selected := state.selected.elems
    roots := (OrdSet.ofList state.roots).elems
    rootBindings := state.rootBindings
    dependencies := state.dependencies.elems
    peerContexts := contexts }

end Resolve

end Tapid
