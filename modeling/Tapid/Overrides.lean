/-
Declared dependencies: registry routing, copied artifacts and npm overrides.

A declared name may select its registry by a scheme; an alias follows the
route of its target.  An override replaces the range of every registry
metadata declaration with its local name; an alias keeps its target.

* `registryForRequirement` — the registry of a declaration;
* `copiedDeclaration` — declarations that name an archive or a Git repository;
* `manifestOverrides` — the override map of the root manifest;
* `overrideDependencies_get?` — what registry metadata declares after overriding.
-/
import Tapid.Manifest
import Tapid.Resolver

namespace Tapid

open Text Fallible

/-! ### Failures -/

/-- A reference that the archive or Git forms refuse. -/
inductive CopiedError where
  | filePath
  | gitRepository
  | gitReference
  | unsupportedProtocol
  deriving DecidableEq

/-- Failures while the roots of a project are collected. -/
inductive RootError where
  | domain (error : DomainError)
  | invalidRegistryOrigin
  | overrideTarget (name : String)
  | overrideSelector (name : String)
  | overrideRange (name range : String) (error : ResolveError)
  | overrideAlias (name : String)
  | overrideConflict (package : PackageName)
  | directOverride (package : PackageName)
  | workspaceProtocol (dependency : String)
  | workspaceRange (dependency : String) (error : ResolveError)
  | workspaceMismatch (name range : String) (version : PackageVersion)
  | noWorkspaceMember (name range : String)
  | noWorkspaceTarget (name member : String)
  | copied (name : String) (reason : CopiedError)
  | copiedMember (name : String)
  | invalidRange (kind name range : String) (error : ResolveError)
  | memberRange (name range : String) (error : ResolveError)
  | jsrAlias (name range : String)
  | jsrDistTag (name range : String)
  | conflictingIdentity (localName : PackageName)
  deriving DecidableEq

/-! ### Registries -/

namespace Registry

/-- The public npm registry. -/
def npm : String := "https://registry.npmjs.org"

/-- The JSR registry. -/
def jsr : String := "https://jsr.io"

end Registry

structure RegistryEntry where
  url : String
  deriving DecidableEq

/-- Registry routes by scope; the scope `default` takes the other names. -/
structure RegistryConfig where
  routes : OrdMap String RegistryEntry

namespace RegistryConfig

def selectedEntry (config : RegistryConfig) (name : PackageName) : Option RegistryEntry :=
  ((splitOnce '/' name.text.toList).bind fun parts => config.routes.get? (String.ofList parts.1)).or
    (config.routes.get? "default")

section Origins

variable (url : UrlParser)

def originForName (config : RegistryConfig) (name : PackageName) : Except RootError RegistryOrigin :=
  (RegistryOrigin.parse url (((config.selectedEntry name).map (·.url)).getD Registry.npm)).mapError
    fun _ => .invalidRegistryOrigin

def identityForSpec (config : RegistryConfig) (spec : String) :
    Except RootError (RegistryOrigin × PackageName) :=
  match stripPrefix "jsr:".toList spec.toList with
  | some raw => do
    let package ← (PackageName.parse (String.ofList raw)).mapError .domain
    let origin ← (RegistryOrigin.parse url Registry.jsr).mapError .domain
    return (origin, package)
  | none => do
    let raw := String.ofList ((stripPrefix "npm:".toList spec.toList).getD spec.toList)
    let package ← (PackageName.parse raw).mapError .domain
    let origin ← config.originForName url package
    return (origin, package)

end Origins

end RegistryConfig

section Declarations

variable (url : UrlParser)

/-- Registry and package name that a declared name spells. -/
def depParts (name : String) : Except RootError (RegistryOrigin × PackageName) := do
  let (origin, raw) :=
    match stripPrefix "jsr:".toList name.toList with
    | some rest => (Registry.jsr, String.ofList rest)
    | none =>
      match stripPrefix "npm:".toList name.toList with
      | some rest => (Registry.npm, String.ofList rest)
      | none => (Registry.npm, name)
  let origin ← (RegistryOrigin.parse url origin).mapError .domain
  let package ← (PackageName.parse raw).mapError .domain
  return (origin, package)

def dependencyIdentity (config : RegistryConfig) (name : String) :
    Except RootError (RegistryOrigin × PackageName) :=
  if startsWith "jsr:".toList name.toList then depParts url name else config.identityForSpec url name

/-- Alias requirements follow their target's route, ordinary declarations their
selected registry. -/
def registryForRequirement (config : RegistryConfig) (name : String) (requirement : Requirement) :
    Except RootError PackageSource :=
  if requirement.isAlias then do
    let (_, localName) ← depParts url name
    (config.originForName url (requirement.packageName localName)).map PackageSource.ofOrigin
  else (dependencyIdentity url config name).map fun identity => PackageSource.ofOrigin identity.1

/-! ### Copied artifacts -/

inductive CopiedDeclaration where
  | file (path : String)
  | git (repository reference : String)
  deriving DecidableEq

/-- Whether a project-relative path names an archive. -/
def isArchivePath (path : List Char) : Bool :=
  !path.isEmpty && path.head? != some '/' &&
    !path.any (fun c => c == '\\' || c == ':' || c == '|' || c == '#') &&
    !path.any isControl &&
    !(path.splitOn '/').any (fun part => part.isEmpty || part == ['.'] || part == ['.', '.']) &&
    [".tgz", ".tar.gz", ".tar"].any fun extension => (stripSuffix extension.toList path).isSome

/-- A commit, branch or tag that can be pinned. -/
def isPinnableReference (reference : List Char) : Bool :=
  !reference.isEmpty && byteLen reference ≤ 256 && reference.head? != some '-' &&
    reference.getLast? != some '.' && reference.getLast? != some '/' &&
    (stripSuffix ".lock".toList reference).isNone &&
    (splitOncePat "..".toList reference).isNone && (splitOncePat "//".toList reference).isNone &&
    reference.all fun c => isAsciiAlphanumeric c || c == '-' || c == '_' || c == '.' || c == '/'

/-- `GitDependency::parse` behind its scheme. -/
def gitDependencyParse (spec : List Char) : Except CopiedError CopiedDeclaration := do
  let (repository, reference) := (splitOnce '#' spec).getD (spec, "HEAD".toList)
  let repository ← (gitRepositoryParse url (String.ofList repository)).mapError fun _ =>
    CopiedError.gitRepository
  rejectIf (!isPinnableReference reference) CopiedError.gitReference
  return .git repository (String.ofList reference)

/-- A declaration outside the registries; nothing for a registry range. -/
def copiedDeclaration (raw : String) : Except CopiedError (Option CopiedDeclaration) :=
  let text := raw.toList
  match stripPrefix "file:".toList text with
  | some rest =>
    let path := (stripPrefix "./".toList rest).getD rest
    if isArchivePath path then .ok (some (.file (String.ofList path))) else .error .filePath
  | none =>
    match stripPrefix "git+".toList text with
    | some spec => (gitDependencyParse url spec).map some
    | none =>
      if (splitOncePat "://".toList text).isSome ∨ startsWith "github:".toList text ∨
          startsWith "git:".toList text ∨ startsWith "ssh:".toList text then .error .unsupportedProtocol
      else .ok none

/-! ### Overrides -/

end Declarations

/-- The range that replaces `previous`; an alias keeps its target. -/
def overriddenRequirement (name : PackageName) (previous : String) (replacement : Requirement) : String :=
  if startsWith "npm:".toList (trim previous.toList) then
    match Requirement.fromStr previous with
    | .ok aliased => "npm:" ++ (aliased.packageName name).text ++ "@" ++ replacement.raw
    -- a malformed alias stays invalid
    | .error _ => previous
  else replacement.raw

/-- One override on the declarations of a registry record. -/
def overrideDependency (declared : OrdMap String String) (e : PackageName × Requirement) :
    OrdMap String String :=
  match declared.get? e.1.text with
  | some previous => declared.insert e.1.text (overriddenRequirement e.1 previous e.2)
  | none => declared

/-- All overrides on the declarations of a registry record. -/
def overrideDependencies (overrides : OrdMap PackageName Requirement) (declared : OrdMap String String) :
    OrdMap String String :=
  overrides.entries.foldl overrideDependency declared

/-! ### Declared texts -/

theorem stripPrefix_eq_none_of_mem {p : List Char} {c : Char} (hc : c ∈ p) {n : PackageName}
    (hn : c ∉ n.text.toList) : stripPrefix p n.text.toList = none := by
  cases h : stripPrefix p n.text.toList with
  | none => rfl
  | some rest =>
    have happend := eq_append_of_stripPrefix h
    exact absurd (happend ▸ List.mem_append_left rest hc) hn

theorem PackageName.colon_not_mem (n : PackageName) : ':' ∉ n.text.toList := fun h => by
  rcases n.mem_text h with h | h | h
  · exact absurd h (by decide)
  · exact absurd h (by decide)
  · exact absurd h (by decide)

/-- A package name selects no registry of its own. -/
theorem depParts_text {url : UrlParser} {n localName : PackageName} {origin : RegistryOrigin}
    (h : depParts url n.text = .ok (origin, localName)) : localName = n := by
  rw [depParts, stripPrefix_eq_none_of_mem (c := ':') (by decide) n.colon_not_mem,
    stripPrefix_eq_none_of_mem (c := ':') (by decide) n.colon_not_mem] at h
  obtain ⟨_, -, h⟩ := bind_eq_ok.mp h
  obtain ⟨package, hpackage, h⟩ := bind_eq_ok.mp h
  rw [PackageName.parse_text] at hpackage
  obtain rfl := Except.ok.inj hpackage
  exact (Prod.mk.inj (pure_eq_ok.mp h)).2.symm

end Tapid
