/-
The resolver metadata that fetched records are collected into.

Records arrive in batches.  A batch normalizes its records, replaces them in the
metadata of their registries, and adds the optional dependencies that records of
the batch have come to satisfy; records of other names are not looked at again.

* `normalizeRecord` — the resolver metadata of one record;
* `RegistryMetadata.normalize` — the packages of one registry in order;
* `MetadataIndex.insertRecords` — one batch.
-/
import Tapid.Overrides
import Tapid.Platform

namespace Tapid

open Text Fallible Loop

/-! ### Records -/

/-- Registry, name and version of a record; the texts of the source's key
determine them. -/
abbrev PackageRecordKey := PackageSource ×ₗ PackageName ×ₗ PackageVersion

def recordKey (registry : PackageSource) (name : PackageName) (version : PackageVersion) :
    PackageRecordKey := toLex (registry, toLex (name, version))

/-- What a registry tells about one version. -/
structure PackageRecord where
  distTags : OrdSet String
  registry : PackageSource
  name : PackageName
  version : PackageVersion
  artifact : String
  dependencies : OrdMap String String
  peerDependencies : OrdMap String String
  optionalPeerDependencies : OrdSet String
  optionalDependencies : OrdMap String String
  platform : PackagePlatform
  fixture : Bool

def PackageRecord.key (p : PackageRecord) : PackageRecordKey := recordKey p.registry p.name p.version

inductive DependencyCategory where
  | dependency
  | peerDependency
  | optionalDependency
  | optionalPeer
  deriving DecidableEq

inductive ExclusionReason where
  | platformMismatch
  | unsupportedDependencyName
  | emptyDependencyRequirement
  | unsupportedDependencyRequirement
  | undeclaredOptionalPeer
  | unsupportedJsrAlias
  deriving DecidableEq

/-- Why a record is no candidate. -/
structure CandidateRejection where
  reason : ExclusionReason
  category : Option DependencyCategory
  deriving DecidableEq

structure NormalizedRecord where
  metadata : PackageVersionMetadata
  optionalDependencies : OrdMap PackageName Requirement
  deriving DecidableEq

/-! ### Normalization -/

/-- A registry range; an empty one is refused before it is read. -/
def parseRegistryRange (requirement : String) : Except ExclusionReason Requirement :=
  if trim requirement.toList = [] then .error .emptyDependencyRequirement
  else (Requirement.fromStr requirement).mapError fun _ => .unsupportedDependencyRequirement

def normalizeDependency (category : DependencyCategory) (declared : String × String) :
    Except CandidateRejection (PackageName × Requirement) := do
  let name ← (PackageName.parse declared.1).mapError fun _ =>
    CandidateRejection.mk .unsupportedDependencyName (some category)
  let requirement ← (parseRegistryRange declared.2).mapError fun reason =>
    CandidateRejection.mk reason (some category)
  return (name, requirement)

def normalizeDependencies (values : OrdMap String String) (category : DependencyCategory) :
    Except CandidateRejection (OrdMap PackageName Requirement) := do
  let entries ← values.entries.mapM (normalizeDependency category)
  return OrdMap.ofList entries

section Hosts

variable (host : HostPlatform)

def normalizeRecord (package : PackageRecord) : Except CandidateRejection NormalizedRecord := do
  rejectIf (!host.currentPlatformMatches package.platform) (CandidateRejection.mk .platformMismatch none)
  let dependencies ← normalizeDependencies package.dependencies .dependency
  let peerDependencies ← normalizeDependencies package.peerDependencies .peerDependency
  let optionalPeers ← package.optionalPeerDependencies.elems.mapM fun name =>
    (PackageName.parse name).mapError fun _ =>
      CandidateRejection.mk .unsupportedDependencyName (some .optionalPeer)
  rejectIf (optionalPeers.any fun name => !peerDependencies.contains name)
    (CandidateRejection.mk .undeclaredOptionalPeer (some .optionalPeer))
  let optionalDependencies ← normalizeDependencies package.optionalDependencies .optionalDependency
  rejectIf (package.registry.identity = Registry.jsr ∧
      (dependencies.values ++ peerDependencies.values ++ optionalDependencies.values).any Requirement.isAlias)
    (CandidateRejection.mk .unsupportedJsrAlias none)
  return {
    metadata := ⟨package.name, package.version, package.distTags, dependencies, peerDependencies,
      OrdSet.ofList optionalPeers⟩
    optionalDependencies }

end Hosts

namespace RegistryMetadata

/-- By name, the highest version first. -/
def sortKey (p : PackageVersionMetadata) : PackageName ×ₗ PackageVersionᵒᵈ :=
  toLex (p.name, OrderDual.toDual p.version)

/-- A dist-tag belongs to one version of a package. -/
def checkTag (registry : PackageSource) (name : PackageName) (tags : OrdSet (PackageName ×ₗ String))
    (tag : String) : Except ResolveError (OrdSet (PackageName ×ₗ String)) := do
  rejectIf (toLex (name, tag) ∈ tags)
    (ResolveError.duplicateMetadata (registry.identity ++ ":" ++ name.text ++ "@" ++ tag))
  return tags.insert (toLex (name, tag))

def checkTags (registry : PackageSource) (tags : OrdSet (PackageName ×ₗ String))
    (p : PackageVersionMetadata) : Except ResolveError (OrdSet (PackageName ×ₗ String)) :=
  p.distTags.elems.foldlM (checkTag registry p.name) tags

/-- Neighbours are different packages. -/
def checkAdjacent (registry : PackageSource) : List PackageVersionMetadata → Except ResolveError Unit
  | a :: b :: rest => do
    rejectIf (a.name = b.name ∧ a.version = b.version)
      (ResolveError.duplicateMetadata
        (registry.identity ++ ":" ++ a.name.text ++ "@" ++ a.version.display))
    checkAdjacent registry (b :: rest)
  | _ => .ok ()

def normalize (registry : PackageSource) (packages : List PackageVersionMetadata) :
    Except ResolveError RegistryMetadata := do
  let _ ← validateMetadata [(registry, packages)]
  let packages := packages.insertionSort fun a b => sortKey a ≤ sortKey b
  let _ ← packages.foldlM (checkTags registry) ∅
  checkAdjacent registry packages
  return ⟨registry, packages⟩

end RegistryMetadata

/-! ### Batches -/

inductive IndexError where
  | routing (text : String)
  | resolve (error : ResolveError)
  deriving DecidableEq

/-- All records fetched so far, what they normalize to, and the packages of each
registry. -/
structure MetadataIndex where
  records : OrdMap PackageRecordKey PackageRecord := ∅
  normalized : OrdMap PackageRecordKey (Except CandidateRejection NormalizedRecord) := ∅
  metadata : OrdMap PackageSource (List PackageVersionMetadata) := ∅

/-- A record with the overrides of the root manifest. -/
def overrideRecord (overrides : OrdMap PackageName Requirement) (package : PackageRecord) : PackageRecord :=
  if package.registry.identity = Registry.npm then
    { package with
      dependencies := overrideDependencies overrides package.dependencies
      optionalDependencies := overrideDependencies overrides package.optionalDependencies }
  else package

/-- Adds an optional dependency that a record of the routed registry provides. -/
def addProvided (route : Routing) (registry : PackageSource)
    (provides : PackageSource → PackageName → Requirement → Bool)
    (dependencies : OrdMap PackageName Requirement) (optional : PackageName × Requirement) :
    Except IndexError (OrdMap PackageName Requirement) := do
  let actualName := optional.2.packageName optional.1
  let target ← (route registry actualName).mapError IndexError.routing
  return if provides target actualName optional.2 then dependencies.insert optional.1 optional.2
    else dependencies

def addOptional (route : Routing) (registry : PackageSource)
    (provides : PackageSource → PackageName → Requirement → Bool)
    (optional dependencies : OrdMap PackageName Requirement) :
    Except IndexError (OrdMap PackageName Requirement) :=
  optional.entries.foldlM (addProvided route registry provides) dependencies

namespace MetadataIndex

/-- The packages of a registry; an unknown one starts without any. -/
def knownPackages (metadata : OrdMap PackageSource (List PackageVersionMetadata)) (registry : PackageSource) :
    Except IndexError (List PackageVersionMetadata) :=
  match metadata.get? registry with
  | some packages => .ok packages
  | none =>
    ((RegistryMetadata.normalize registry []).map RegistryMetadata.packages).mapError IndexError.resolve

/-- The packages of a registry without those of the batch, and the batch's own. -/
def replaceRegistry (inserted : OrdSet PackageRecordKey)
    (metadata : OrdMap PackageSource (List PackageVersionMetadata))
    (addition : PackageSource × List PackageVersionMetadata) :
    Except IndexError (OrdMap PackageSource (List PackageVersionMetadata)) := do
  let (registry, additions) := addition
  let known ← knownPackages metadata registry
  let kept := known.filter fun p => recordKey registry p.name p.version ∉ inserted
  let combined ← (RegistryMetadata.normalize registry (kept ++ additions)).mapError IndexError.resolve
  return metadata.insert registry combined.packages

section Inserting

variable (host : HostPlatform) (overrides : OrdMap PackageName Requirement) (route : Routing)

def record (s : MetadataIndex) (package : PackageRecord) : MetadataIndex :=
  let package := overrideRecord overrides package
  { s with
    normalized := s.normalized.insert package.key (normalizeRecord host package)
    records := s.records.insert package.key package }

/-- Whether some record satisfies a requirement. -/
def candidateMatches (s : MetadataIndex) (registry : PackageSource) (name : PackageName)
    (requirement : Requirement) : Bool :=
  s.records.entries.any fun e =>
    e.2.registry = registry && e.2.name = name &&
      (s.normalized.get? e.1).any (fun normalized => normalized.toOption.isSome) &&
      host.currentPlatformMatches e.2.platform &&
      requirement.matchesTaggedVersion e.2.version e.2.distTags

/-- Metadata of a record of the batch. -/
def additionOf (s : MetadataIndex) (key : PackageRecordKey) :
    Except IndexError (List (PackageSource × PackageVersionMetadata)) :=
  match s.normalized.get? key, s.records.get? key with
  | some (.ok normalized), some package => do
    let dependencies ← addOptional route package.registry (s.candidateMatches host)
      normalized.optionalDependencies normalized.metadata.dependencies
    return [(package.registry, { normalized.metadata with dependencies })]
  | _, _ => return []

/-- Optional dependencies of a package that the batch has come to satisfy. -/
def patchParent (s : MetadataIndex) (names : OrdSet PackageKey) (registry : PackageSource)
    (parent : PackageVersionMetadata) : Except IndexError PackageVersionMetadata :=
  match s.normalized.get? (recordKey registry parent.name parent.version) with
  | some (.ok normalized) => do
    let dependencies ← addOptional route registry
      (fun target name requirement =>
        packageKey target name ∈ names && s.candidateMatches host target name requirement)
      normalized.optionalDependencies parent.dependencies
    return { parent with dependencies }
  | _ => return parent

def insertedKeys (packages : List PackageRecord) : OrdSet PackageRecordKey :=
  OrdSet.ofList (packages.map PackageRecord.key)

def insertedNames (packages : List PackageRecord) : OrdSet PackageKey :=
  OrdSet.ofList (packages.map fun p => packageKey p.registry p.name)

def insertRecords (s : MetadataIndex) (packages : List PackageRecord) : Except IndexError MetadataIndex := do
  let s := packages.foldl (record host overrides) s
  let inserted := insertedKeys packages
  let additions ← inserted.elems.mapM (additionOf host route s)
  let metadata ← (OrdMap.group additions.flatten).entries.foldlM (replaceRegistry inserted) s.metadata
  let metadata ← metadata.mapValM fun registry parents =>
    parents.mapM (patchParent host route s (insertedNames packages) registry)
  return { s with metadata }

end Inserting

/-- The metadata as the resolver takes it. -/
def registries (s : MetadataIndex) : List RegistryMetadata :=
  s.metadata.entries.map fun e => ⟨e.1, e.2⟩

end MetadataIndex

end Tapid
