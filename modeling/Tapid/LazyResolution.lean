/-
Lazy resolution: metadata is fetched as the resolver asks for it.

Each round resolves with the metadata at hand.  What it fails for is repaired:
unknown packages are fetched, records that came with the request are fetched
afresh when none of them matches, and a peer that is not satisfied refreshes its
provider, the package itself, or gives up a preference.  A round that succeeds
first fetches the optional dependencies of what it selected.

* `repairPeer` — what an unsatisfied peer leads to;
* `iterate` — one round;
* `resolveWithPreferences` — rounds until there is a resolution or a failure.
-/
import Tapid.MetadataIndex

namespace Tapid

open Text Fallible Loop

/-! ### Requests -/

inductive LazyError (ε : Type) where
  | fetch (error : ε)
  | index (error : IndexError)
  | domain (error : DomainError)
  | requirement (name : PackageName) (reason : ExclusionReason)
  | routing (text : String)
  | unavailable (registry name : String)
  | resolution (error : ResolveError)

/-- What a resolution is given.  `answer` is what the registries reply to the
request with the given number; replies may change. -/
structure LazyRequest (ε : Type) where
  host : HostPlatform
  url : UrlParser
  overrides : OrdMap PackageName Requirement
  route : Routing
  seed : List PackageRecord
  answer : Nat → PackageSource → PackageName → Except ε (List PackageRecord)

/-- State between two rounds; `resolution` is there when the last round found it. -/
structure LazyState where
  roots : List Dependency
  fetched : OrdSet (String ×ₗ String) := ∅
  calls : Nat := 0
  index : MetadataIndex
  preferred : ResolutionPreferences
  resolution : Option Resolution := none

/-- Registry and name as they are remembered. -/
def nameKey (registry : PackageSource) (name : PackageName) : String ×ₗ String :=
  toLex (registry.identity, name.text)

/-- A pinned record with the parts only fresh metadata has. -/
def preservePinnedRecord (package pinned : PackageRecord) : PackageRecord :=
  { pinned with
    artifact := if pinned.artifact = "" ∧ ¬ package.fixture then package.artifact else pinned.artifact
    distTags := package.distTags
    peerDependencies := package.peerDependencies
    optionalPeerDependencies := package.optionalPeerDependencies }

section Requests

variable {ε : Type} (q : LazyRequest ε)

namespace LazyRequest

def pinnedRecords : OrdMap PackageRecordKey PackageRecord := OrdMap.ofList (q.seed.map fun p => (p.key, p))

/-- A fetched record; the exact version of the seed stays pinned. -/
def preserve (package : PackageRecord) : PackageRecord :=
  match q.pinnedRecords.get? package.key with
  | some pinned => preservePinnedRecord package pinned
  | none => package

end LazyRequest

/-! ### Fetching -/

/-- Fetches the records of a package and remembers that it did. -/
def fetchPackage (key : String ×ₗ String) (registry : PackageSource) (name : PackageName) (s : LazyState) :
    Except (LazyError ε) LazyState := do
  let packages ← (q.answer s.calls registry name).mapError LazyError.fetch
  let index ← (s.index.insertRecords q.host q.overrides q.route (packages.map q.preserve)).mapError
    LazyError.index
  return { s with fetched := s.fetched.insert key, calls := s.calls + 1, index }

/-- A package by its key. -/
def fetchKnown (s : LazyState) (package : PackageKey) : Except (LazyError ε) LazyState :=
  fetchPackage q (nameKey (ofLex package).1 (ofLex package).2) (ofLex package).1 (ofLex package).2 s

/-- A package by the texts of a failure; fetched before, the failure is final. -/
def fetchNamed (failure : LazyError ε) (s : LazyState) (package : String × String) :
    Except (LazyError ε) LazyState := do
  rejectIf (toLex package ∈ s.fetched) failure
  let registry ← (PackageSource.parse q.url package.1).mapError LazyError.domain
  let name ← (PackageName.parse package.2).mapError LazyError.domain
  fetchPackage q (toLex package) registry name s

/-- Metadata that no failure had asked for before. -/
def fetchMissing (s : LazyState) (package : String × String) : Except (LazyError ε) LazyState :=
  fetchNamed q (.unavailable package.1 package.2) s package

/-! ### Optional dependencies -/

/-- An optional dependency that was not fetched yet. -/
def addOptionalRequest (s : LazyState) (parent : PackageSource) (frontier : OrdSet PackageKey)
    (declared : String × String) : Except (LazyError ε) (OrdSet PackageKey) := do
  let name ← (PackageName.parse declared.1).mapError LazyError.domain
  let requirement ← (parseRegistryRange declared.2).mapError (LazyError.requirement name)
  let actualName := requirement.packageName name
  let registry ← (q.route parent actualName).mapError LazyError.routing
  return if nameKey registry actualName ∈ s.fetched then frontier
    else frontier.insert (packageKey registry actualName)

def addOptionalRequests (s : LazyState) (frontier : OrdSet PackageKey) (parent : PackageInstanceId) :
    Except (LazyError ε) (OrdSet PackageKey) :=
  match s.index.records.get? (recordKey parent.registry parent.name parent.version) with
  | some package => package.optionalDependencies.entries.foldlM (addOptionalRequest q s parent.registry) frontier
  | none => return frontier

def optionalFrontier (s : LazyState) (resolution : Resolution) : Except (LazyError ε) (OrdSet PackageKey) :=
  resolution.selected.foldlM (addOptionalRequests q s) ∅

end Requests

/-! ### Unsatisfied peers -/

/-- The first root with a local name. -/
def findRoot (s : LazyState) (name : String) : Option Dependency := s.roots.find? fun d => d.name.text = name

def Dependency.actualName (d : Dependency) : PackageName := d.requirement.packageName d.name

def Dependency.rootKey (d : Dependency) : RootKey := Tapid.rootKey d.registry d.name d.actualName

/-- The root that may satisfy a peer by a tag and was not fetched yet. -/
def taggedProvider (s : LazyState) (peer requirement : String) : Option Dependency :=
  if (Requirement.fromStr requirement).toOption.any fun r => r.distTag.isSome then
    (findRoot s peer).filter fun root => nameKey root.registry root.actualName ∉ s.fetched
  else none

/-- The preferences of a package are given up. -/
def ResolutionPreferences.release (preferred : ResolutionPreferences) (roots : List Dependency)
    (id : PackageInstanceId) : ResolutionPreferences :=
  { preferred with
    versions := preferred.versions.filter (· ≠ toLex (id.registry, toLex (id.name, id.version)))
    roots := preferred.roots.filter fun key selected =>
      !((ofLex key).1 = id.registry && selected = id.version && (ofLex (ofLex key).2).2 = id.name &&
        roots.any fun d => d.rootKey = key) }

/-- The range a peer asks of its provider, as one more constraint on the provider's root. -/
def peerConstraint (root : Dependency) (requirement : String) : Except ResolveError Requirement := do
  let peerRequirement ← Requirement.fromStr requirement
  if peerRequirement.isAlias ∨ root.actualName = root.name then return peerRequirement
  else Requirement.fromStr ("npm:" ++ root.actualName.text ++ "@" ++ requirement)

/-- The provider of a peer is selected anew: its preferred root is given up, or it
is refreshed once. -/
def refreshProvider {ε : Type} (s : LazyState) (failure : ResolveError) (peer requirement : String)
    (provider : Option PackageInstanceId) : Except (LazyError ε) LazyState := do
  let root ← orError (findRoot s peer) (LazyError.resolution failure)
  let releasedVersion := provider.any fun id =>
    toLex (root.registry, toLex (root.actualName, id.version)) ∈ s.preferred.versions
  let releasedRoot := s.preferred.roots.contains root.rootKey
  rejectIf (¬ (releasedRoot = true ∨ releasedVersion = true ∧ root.rootKey ∉ s.preferred.refreshRoots))
    (LazyError.resolution failure)
  let constraint ← (peerConstraint root requirement).mapError LazyError.resolution
  return { s with
    preferred := { s.preferred with
      roots := s.preferred.roots.erase root.rootKey
      refreshRoots := s.preferred.refreshRoots.insert root.rootKey }
    roots := s.roots ++ [⟨root.registry, root.name, constraint⟩] }

/-- The record a failure is about. -/
def failedRecord (s : LazyState) (package : PackageInstanceId) : Option PackageRecord :=
  s.index.records.values.find? fun p => (⟨p.registry, p.name, p.version⟩ : PackageInstanceId) = package

section Rounds

variable {ε : Type} (q : LazyRequest ε)

/-- An unsatisfied peer: fresh tags of the provider, fresh metadata of the package,
the package's preferences, then the provider's. -/
def repairPeer (s : LazyState) (package : PackageInstanceId) (peer requirement : String)
    (provider : Option PackageInstanceId) : Except (LazyError ε) LazyState :=
  let failure := ResolveError.peerDependency package peer requirement provider
  match taggedProvider s peer requirement with
  | some root => fetchKnown q s (packageKey root.registry root.actualName)
  | none =>
    match failedRecord s package with
    | none => .error (.resolution failure)
    | some p =>
      if nameKey p.registry p.name ∉ s.fetched then fetchKnown q s (packageKey p.registry p.name)
      else
        let released := { s with preferred := s.preferred.release s.roots ⟨p.registry, p.name, p.version⟩ }
        if toLex (p.registry, toLex (p.name, p.version)) ∈ s.preferred.versions then .ok released
        else refreshProvider released failure peer requirement provider

/-- The packages of the frontier are fetched, or the resolution stands. -/
def finish (s : LazyState) (resolution : Resolution) : Except (LazyError ε) LazyState := do
  let frontier ← optionalFrontier q s resolution
  if frontier.isEmpty then return { s with resolution := some resolution }
  else frontier.elems.foldlM (fetchKnown q) s

/-- One round. -/
def iterate (s : LazyState) : Except (LazyError ε) LazyState :=
  match resolveGraphWithPreferences s.roots s.index.registries ⟨false, false⟩ q.route s.preferred with
  | .ok resolution => finish q s resolution
  | .error (.missingMetadata packages) => packages.foldlM (fetchMissing q) s
  | .error (.missingCandidate origin registry name requirement available) =>
    fetchNamed q (.resolution (.missingCandidate origin registry name requirement available)) s (registry, name)
  | .error (.conflict origin registry name requirements available) =>
    fetchNamed q (.resolution (.conflict origin registry name requirements available)) s (registry, name)
  | .error (.peerDependency package peer requirement provider) => repairPeer q s package peer requirement provider
  | .error error => .error (.resolution error)

/-- Rounds go on until one leaves a resolution. -/
def lazyStep (s : LazyState) : Option (Except (LazyError ε) LazyState) :=
  match s.resolution with
  | some _ => none
  | none => some (iterate q s)

def lazyStart (roots : List Dependency) (preferred : ResolutionPreferences) :
    Except (LazyError ε) LazyState := do
  let index ← (MetadataIndex.insertRecords q.host q.overrides q.route {} q.seed).mapError LazyError.index
  return { roots, index, preferred }

/-- The whole resolution with a bound on its rounds. -/
def resolveWithPreferences (roots : List Dependency) (preferred : ResolutionPreferences) (rounds : Nat) :
    Option (Except (LazyError ε) LazyState) :=
  match lazyStart q roots preferred with
  | .error e => some (.error e)
  | .ok s => runTo (lazyStep q) rounds s

end Rounds

end Tapid
