/-
Native lockfile snapshots and their comparison.

A snapshot is a lockfile that was read from a document, kept with what the
document said about its format.  `GraphSnapshot.inspect` lists its instances
and relationships, `GraphSnapshot.compare` the differences between two
snapshots, and the `…Scope` variants select from either.

An instance is referred to by a digest of its identity; the digest function is
a parameter.
-/
import Tapid.LockfileJson
import Tapid.LifecyclePolicy
import Tapid.MapDiff

namespace Tapid

open Text Fallible

/-! ### Records -/

inductive SnapshotError where
  | inputLimit
  | analysisLimit
  | invalidSnapshot
  | unsupportedFormat
  | invalidScope
  deriving DecidableEq

/-- A persisted instance; native instances have no placement. -/
structure GraphInstance where
  reference : String
  identity : String
  name : String
  version : String
  placement : Option String
  deriving DecidableEq

/-- A recorded relationship; without a parent it belongs to the project. -/
structure GraphRelationship where
  kind : String
  parent : Option String
  localName : Option String
  target : String
  deriving DecidableEq

/-- Which dimensions a snapshot represents. -/
structure GraphAvailability where
  explicitRoots : Bool
  namedRootBindings : Bool
  exactScripts : Bool
  hostToolchain : Bool
  derivedOutputs : Bool
  verificationReceipts : Bool
  declarationRequirements : Bool
  peerProviderTargets : Bool
  deriving DecidableEq

structure GraphCoverage where
  analysisComplete : Bool
  totalInstances : Nat
  totalRelationships : Nat
  excludedInstances : Nat
  excludedRelationships : Nat
  deriving DecidableEq

/-- An explicit selection. -/
inductive GraphScope where
  | all
  | packages (values : List String)
  | instances (values : List String)
  deriving DecidableEq

structure GraphInspection where
  schema : Nat
  snapshotDigest : String
  scope : GraphScope
  availability : GraphAvailability
  coverage : GraphCoverage
  instances : List GraphInstance
  relationships : List GraphRelationship
  deriving DecidableEq

/-- A retargeted, added or removed relationship. -/
structure GraphRelationshipChange where
  before : Option GraphRelationship
  after : Option GraphRelationship
  deriving DecidableEq

structure GraphEvidenceChange where
  dimension : String
  subject : Option String
  before : OrdMap String String
  after : OrdMap String String
  attestationChanged : Bool
  deriving DecidableEq

structure GraphComparison where
  selectedGraphSupported : Bool
  unsupportedReason : Option String
  scope : GraphScope
  beforeDigest : String
  afterDigest : String
  beforeAvailability : GraphAvailability
  afterAvailability : GraphAvailability
  beforeCoverage : GraphCoverage
  afterCoverage : GraphCoverage
  addedInstances : List GraphInstance
  removedInstances : List GraphInstance
  changedSelections : Nat
  relationshipChanges : List GraphRelationshipChange
  evidenceChanges : List GraphEvidenceChange
  deriving DecidableEq

/-! ### Scopes -/

namespace GraphScope

/-- The values of a scope, sorted and without repetitions. -/
def normalizedValues (values : List String) : Except SnapshotError (List String) := do
  rejectIf (64 < values.length ∨ values.any fun v => decide (4096 < byteLen v.toList)) .invalidScope
  return Lockfile.sortDedup values

def normalized : GraphScope → Except SnapshotError GraphScope
  | all => .ok all
  | packages values => (normalizedValues values).map packages
  | instances values => (normalizedValues values).map instances

/-- Binary search in sorted values finds exactly the members. -/
def includes : GraphScope → GraphInstance → Bool
  | all, _ => true
  | packages values, p => values.elem p.name
  | instances values, p => values.elem p.reference

end GraphScope

/-! ### Snapshots -/

/-- A validated snapshot of the native format. -/
structure GraphSnapshot (url : UrlParser) (codec : JsonCodec) where
  lock : Lockfile
  schema : Nat
  namedRootBindings : Bool
  digest : String
  validated : ∃ input, Lockfile.fromJson url codec input = .ok lock
  /-- Schema 8 is the imported format. -/
  native : schema ≠ 8

/-- What is read of a document before it is validated. -/
structure SnapshotFormat where
  lockfileVersion : Option Nat
  /-- Whether root bindings are recorded. -/
  rootBindings : Bool

namespace SnapshotFormat

def ofValue (j : Json) : Except String SnapshotFormat := do
  let fields ← Json.structFields ["lockfileVersion", "rootBindings"] j
  let version ← Json.defaulted none (Json.readOption Json.readU32) fields "lockfileVersion"
  let bindings ← Json.defaulted none (Json.readOption .ok) fields "rootBindings"
  return ⟨version, bindings.isSome⟩

end SnapshotFormat

namespace Lockfile

def maxInstances : Nat := 100000

def maxRelationships : Nat := 500000

/-- The entries of both kinds, each with its edges. -/
def graphEntries (l : Lockfile) : List (String × OrdMap String String) :=
  l.packages.entries.map (fun e => (e.1, e.2.dependencies)) ++
    l.workspacePackages.entries.map fun e => (e.1, e.2.dependencies)

/-- The number of recorded relationships. -/
def relationshipCount (l : Lockfile) : Nat :=
  l.roots.length + l.rootBindings.entries.length +
    (l.graphEntries.map fun e => e.2.entries.length).sum

end Lockfile

namespace GraphSnapshot

section Reading

variable (url : UrlParser) (codec : JsonCodec)

/-- A snapshot from the text of a document, whose bytes have the given
digest. -/
def ofText (digest input : String) : Except SnapshotError (GraphSnapshot url codec) := do
  let value ← (codec.decode input).mapError fun _ => .invalidSnapshot
  let format ← (SnapshotFormat.ofValue value).mapError fun _ => .invalidSnapshot
  let schema ← orError format.lockfileVersion .unsupportedFormat
  rejectIf (¬ (4 ≤ schema ∧ schema ≤ 10)) .unsupportedFormat
  if hnative : schema = 8 then
    .error .unsupportedFormat
  else
    match hlock : Lockfile.fromJson url codec input with
    | .error _ => .error .invalidSnapshot
    | .ok lock => do
      rejectIf (Lockfile.maxInstances < lock.graphEntries.length ∨
        Lockfile.maxRelationships < lock.relationshipCount) .analysisLimit
      return ⟨lock, schema, format.rootBindings, digest, ⟨input, hlock⟩, hnative⟩

end Reading

/-! ### Inspection -/

section Inspection

variable (sha256Hex : List UInt8 → String)

def referenceFor (format identity : String) : String :=
  "instance-v1-" ++ sha256Hex (textBytes "tapid-lock-graph-instance-v1" ++ [0] ++ textBytes format ++
    [0] ++ textBytes identity)

def reference (identity : String) : String := referenceFor sha256Hex "native" identity

variable {url : UrlParser} {codec : JsonCodec}

variable (url) in
/-- The instance of an entry.  Identities of validated entries parse
(`Lockfile.Stored.parse_key`). -/
def instanceOf (identity : String) : GraphInstance :=
  match LockfilePackageKey.parse url identity with
  | .ok key => ⟨reference sha256Hex identity, identity, key.name.text, key.version.display, none⟩
  | .error _ => ⟨reference sha256Hex identity, identity, "", "", none⟩

def dependencyEdge (parent : String) (edge : String × String) : GraphRelationship :=
  ⟨"dependency", some (reference sha256Hex parent), some edge.1, reference sha256Hex edge.2⟩

def rootEdge (target : String) : GraphRelationship := ⟨"root", none, none, reference sha256Hex target⟩

def bindingEdge (binding : String × String) : GraphRelationship :=
  ⟨"root_binding", none, some binding.1, reference sha256Hex binding.2⟩

/-- Identities by reference. -/
def identitiesOf (instances : List GraphInstance) : OrdMap String String :=
  OrdMap.ofList (instances.map fun p => (p.reference, p.identity))

/-- The sort key of a relationship. -/
def relationshipOrder (identities : OrdMap String String) (edge : GraphRelationship) :
    Nat ×ₗ WithBot String ×ₗ WithBot String ×ₗ String :=
  let category := if edge.kind = "root" then 0 else if edge.kind = "root_binding" then 1 else 2
  let identity := fun p => (identities.get? p).getD ""
  toLex (category, toLex (edge.parent.map identity, toLex (edge.localName, identity edge.target)))

def sortRelationships (relationships : List GraphRelationship) (instances : List GraphInstance) :
    List GraphRelationship :=
  relationships.insertionSort fun a b =>
    relationshipOrder (identitiesOf instances) a ≤ relationshipOrder (identitiesOf instances) b

/-- The recorded relationships of a lockfile. -/
def recordedEdges (l : Lockfile) : List GraphRelationship :=
  (l.graphEntries.flatMap fun e => e.2.entries.map (dependencyEdge sha256Hex e.1)) ++
    l.roots.map (rootEdge sha256Hex) ++ l.rootBindings.entries.map (bindingEdge sha256Hex)

def availability (s : GraphSnapshot url codec) : GraphAvailability where
  explicitRoots := decide (5 ≤ s.schema) || !s.lock.roots.isEmpty
  namedRootBindings := s.namedRootBindings
  exactScripts := false
  hostToolchain := false
  derivedOutputs := decide (9 ≤ s.schema)
  verificationReceipts := false
  declarationRequirements := false
  peerProviderTargets := false

/-- All persisted instances and relationships. -/
def inspect (s : GraphSnapshot url codec) : GraphInspection :=
  let instances := (s.lock.graphEntries.map fun e => instanceOf sha256Hex url e.1).insertionSort
    fun a b => a.identity ≤ b.identity
  let relationships := sortRelationships (recordedEdges sha256Hex s.lock) instances
  { schema := s.schema
    snapshotDigest := s.digest
    scope := .all
    availability := s.availability
    coverage := ⟨true, instances.length, relationships.length, 0, 0⟩
    instances
    relationships }

/-- Whether an endpoint of a relationship is selected. -/
def touches (selected : OrdSet String) (edge : GraphRelationship) : Bool :=
  decide (edge.target ∈ selected) || edge.parent.any fun p => decide (p ∈ selected)

/-- The inspection with a selection of its instances and the relationships
at them. -/
def inspectScope (s : GraphSnapshot url codec) (scope : GraphScope) :
    Except SnapshotError GraphInspection := do
  let scope ← scope.normalized
  let result := s.inspect sha256Hex
  let instances := result.instances.filter scope.includes
  let selected := OrdSet.ofList (instances.map GraphInstance.reference)
  let relationships := result.relationships.filter (touches selected)
  return { result with
    instances
    relationships
    coverage := { result.coverage with
      excludedInstances := result.coverage.totalInstances - instances.length
      excludedRelationships := result.coverage.totalRelationships - relationships.length }
    scope }

/-! ### Evidence -/

/-- A change of evidence, if there is one. -/
def recordEvidence (dimension : String) (subject : Option String) (before after : OrdMap String String)
    (attestationChanged : Bool) : Option GraphEvidenceChange :=
  if before ≠ after ∨ attestationChanged then
    some ⟨dimension, subject, before, after, attestationChanged⟩
  else none

def manifestEvidence (digest : String) : OrdMap String String := OrdMap.ofList [("manifest_digest", digest)]

def artifact (package : LockedPackage) : OrdMap String String :=
  let evidence := OrdMap.ofList [("integrity", package.artifactIntegrity),
    ("tree_digest", package.treeDigest), ("unpacked_digest", package.unpackedDigest)]
  let evidence := match package.artifactUrl with
    | some value => evidence.insert "url" value
    | none => evidence
  match package.registryIntegrityDeclared with
  | some value => evidence.insert "registry_integrity_declared" (if value then "true" else "false")
  | none => evidence

def hookKey (index : Nat) (name : String) : String := String.ofList (numeral index) ++ "." ++ name

/-- The evidence of the hook output at an index. -/
def hookEvidence (index : Nat) (output : DerivedHookOutput) : List (String × String) := [
  (hookKey index "hook", output.hook),
  (hookKey index "recipe_key", output.key),
  (hookKey index "tree_digest", output.treeDigest)]

def derived (package : LockedPackage) : OrdMap String String :=
  OrdMap.ofList ((package.derivedHooks.zipIdx).flatMap fun e => hookEvidence e.2 e.1)

/-- The attestations of the hook outputs, in order. -/
def attestations (package : LockedPackage) : List (String × String) :=
  package.derivedHooks.map fun h => (h.hook, h.attestation)

def evidenceChanges (before after : Lockfile) : List GraphEvidenceChange :=
  (recordEvidence "declarations" none (manifestEvidence before.rootManifestDigest)
      (manifestEvidence after.rootManifestDigest) false).toList ++
    ((before.workspacePackages.common after.workspacePackages).filterMap fun (key, package, new) =>
      recordEvidence "declarations" (some (reference sha256Hex key))
        (manifestEvidence package.manifestDigest) (manifestEvidence new.manifestDigest) false) ++
    ((before.packages.common after.packages).filterMap fun (key, package, new) =>
      recordEvidence "source_artifact" (some (reference sha256Hex key)) (artifact package)
        (artifact new) false) ++
    (before.packages.common after.packages).filterMap fun (key, package, new) =>
      recordEvidence "derived_outputs" (some (reference sha256Hex key)) (derived package)
        (derived new) (attestations package ≠ attestations new)

/-! ### Comparison -/

/-- Where a relationship is selected.  Root membership has no site of its own,
so its target stands in. -/
abbrev Site := String ×ₗ WithBot String ×ₗ WithBot String ×ₗ WithBot String

def site (placements : OrdMap String String) (edge : GraphRelationship) : Site :=
  toLex (edge.kind, toLex (edge.parent.map fun p => (placements.get? p).getD p, toLex (edge.localName,
    if edge.localName.isNone then some edge.target else none)))

/-- Whether both sides represent relationships of this kind. -/
def comparable (before after : GraphAvailability) (edge : GraphRelationship) : Bool :=
  if edge.kind = "root_binding" then before.namedRootBindings && after.namedRootBindings
  else if edge.kind = "root" then before.explicitRoots && after.explicitRoots
  else true

def evidenceOrder (identities : OrdMap String String) (change : GraphEvidenceChange) : Nat ×ₗ String :=
  let rank := if change.dimension = "declarations" then 0
    else if change.dimension = "source_artifact" then 1
    else if change.dimension = "verification_receipts" then 2 else 3
  toLex (rank, (change.subject.bind identities.get?).getD "")

/-- The sort key of a change is that of its older side. -/
def changeOrder (identities : OrdMap String String) (change : GraphRelationshipChange) :
    WithBot (Nat ×ₗ WithBot String ×ₗ WithBot String ×ₗ String) :=
  (change.before.or change.after).map (relationshipOrder identities)

/-- The sites on which two inspections differ. -/
def changedSites (before after : GraphInspection) :
    List (Site × Option GraphRelationship × Option GraphRelationship) :=
  let placements := OrdMap.ofList ((before.instances ++ after.instances).filterMap fun p =>
    p.placement.map fun path => (p.reference, path))
  let comparable := comparable before.availability after.availability
  let oldEdges := OrdMap.indexBy (site placements) (before.relationships.filter comparable)
  let newEdges := OrdMap.indexBy (site placements) (after.relationships.filter comparable)
  oldEdges.changes newEdges

/-- Whether a site has a local name. -/
def named (x : Site) : Bool := (ofLex (ofLex (ofLex x).2).2).1 ≠ ⊥

/-- The observed differences of two native snapshots. -/
def compare (self after : GraphSnapshot url codec) : GraphComparison :=
  let before := self.inspect sha256Hex
  let after' := after.inspect sha256Hex
  let old := OrdMap.indexBy GraphInstance.identity before.instances
  let new := OrdMap.indexBy GraphInstance.identity after'.instances
  let changed := changedSites before after'
  let identities := identitiesOf (before.instances ++ after'.instances)
  { selectedGraphSupported := true
    unsupportedReason := none
    scope := .all
    beforeDigest := before.snapshotDigest
    afterDigest := after'.snapshotDigest
    beforeAvailability := before.availability
    afterAvailability := after'.availability
    beforeCoverage := before.coverage
    afterCoverage := after'.coverage
    addedInstances := (new.missing old).values
    removedInstances := (old.missing new).values
    changedSelections := (changed.filter fun c => named c.1).length
    relationshipChanges := (changed.map fun c => ⟨c.2.1, c.2.2⟩).insertionSort fun a b =>
      changeOrder identities a ≤ changeOrder identities b
    evidenceChanges := (evidenceChanges sha256Hex self.lock after.lock).insertionSort fun a b =>
      evidenceOrder identities a ≤ evidenceOrder identities b }

/-- The differences at a selection of instances of either side. -/
def compareScope (self after : GraphSnapshot url codec) (scope : GraphScope) :
    Except SnapshotError GraphComparison := do
  let beforeScope ← self.inspectScope sha256Hex scope
  let afterScope ← after.inspectScope sha256Hex scope
  let result := self.compare sha256Hex after
  let selected := OrdSet.ofList ((beforeScope.instances ++ afterScope.instances).map
    GraphInstance.reference)
  let relationshipChanges := result.relationshipChanges.filter fun c =>
    c.before.any (touches selected) || c.after.any (touches selected)
  return { result with
    addedInstances := result.addedInstances.filter fun p => decide (p.reference ∈ selected)
    removedInstances := result.removedInstances.filter fun p => decide (p.reference ∈ selected)
    relationshipChanges
    changedSelections := (relationshipChanges.filter fun c =>
      (c.before.or c.after).any fun e => e.localName.isSome).length
    evidenceChanges := result.evidenceChanges.filter fun c =>
      c.subject.all fun p => decide (p ∈ selected)
    beforeCoverage := beforeScope.coverage
    afterCoverage := afterScope.coverage
    scope := beforeScope.scope }

end Inspection

end GraphSnapshot

end Tapid
