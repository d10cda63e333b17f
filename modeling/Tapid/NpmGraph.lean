/-
The placement graph of an npm lockfile document.

The import reads a version 3 `package-lock.json`: local members and the links
to them, registry packages by placement, their edges from three dependency
sections, and the entry points of the root and of every member from four.
Edges are found by the nearest-placement lookup, checked against the declared
requirement, and the result has to be representable: every placement reached,
and placements of one instance alike.

* `Npm.members`, `Npm.readLink`, `Npm.readPackage` — the entries;
* `Npm.edge`, `Npm.bindPackage`, `Npm.entryRoots` — edges and entry points;
* `Npm.ImportedNpmGraph.validateRepresentable`, `Npm.graph`.
-/
import Tapid.LockfileJson
import Tapid.Loop
import Tapid.NpmPlacement
import Tapid.Requirement

namespace Tapid

open Text Fallible

/-- JSON objects as maps. -/
abbrev JsonMap := OrdMap String Json

namespace Json

def asObject : Json → Option JsonMap
  | obj fields => some (OrdMap.ofList fields)
  | _ => none

def asStr : Json → Option String
  | str s => some s
  | _ => none

def asArray : Json → Option (List Json)
  | arr items => some items
  | _ => none

def asU64 : Json → Option Nat
  | int n => if 0 ≤ n ∧ n < 2 ^ 64 then some n.toNat else none
  | _ => none

/-- A field of an object. -/
def get (j : Json) (field : String) : Option Json := j.asObject.bind (·.get? field)

end Json

namespace Npm

/-! ### Errors -/

/-- Why the command entries of a manifest are refused. -/
inductive ManifestError where
  | invalidJson (message : String)
  | rootMustBeObject
  | requiredString (key : String)
  | expectedString (key : String)
  | expectedBoolean (key : String)
  | expectedMap (key : String)
  | expectedMapValueString (field key : String)
  | invalidPackageName (error : DomainError)
  | invalidPackageVersion (error : DomainError)
  | invalidDependencyName (error : DomainError)
  | dependencyNotDeclared (field name : String)
  | expectedBinString (command : String)
  | invalidBin (command target : String)
  | invalidBinValue
  deriving DecidableEq

/-- What a refused document is refused for; errors of the parsers are carried
along. -/
inductive Reason where
  | text (message : String)
  | json (message : String)
  | domain (error : DomainError)
  | requirement (error : ResolveError)
  | lockfile (error : LockfileError)
  | manifest (error : ManifestError)
  deriving DecidableEq

structure ImportError where
  pointer : String
  package : String
  field : String
  reason : Reason
  deriving DecidableEq

def error (pointer package field reason : String) : ImportError :=
  ⟨pointer, package, field, .text reason⟩

/-- A value that earlier checks provide; without it the import panics. -/
def expect {α : Type} (x : Option α) (message : String) : Except ImportError α :=
  orError x (error "" "" "panic" message)

def escapePointer (c : Char) : List Char :=
  if c = '~' then ['~', '0'] else if c = '/' then ['~', '1'] else [c]

/-- JSON pointer of a field. -/
def pointer (base field : String) : String :=
  base ++ "/" ++ String.ofList (field.toList.flatMap escapePointer)

/-! ### Fields -/

def object (value : Json) (loc identity : String) : Except ImportError JsonMap :=
  orError value.asObject (error loc identity "object" "expected an object")

def text (entry : JsonMap) (field loc identity : String) : Except ImportError String :=
  orError ((entry.get? field).bind Json.asStr)
    (error (pointer loc field) identity field "expected a string")

def flag (entry : JsonMap) (field loc identity : String) : Except ImportError Bool :=
  match entry.get? field with
  | none => .ok false
  | some (.bool value) => .ok value
  | some _ => .error (error (pointer loc field) identity field "expected a boolean")

def strings (entry : JsonMap) (field loc identity : String) : Except ImportError (List String) :=
  match entry.get? field with
  | none => .ok []
  | some value => do
    let values ← orError value.asArray
      (error (pointer loc field) identity field "expected string array")
    values.mapM fun v =>
      orError (v.asStr.filter fun s => !s.toList.isEmpty && !s.toList.any isWhitespace)
        (error (pointer loc field) identity field "expected nonempty platform name")

/-- One declared requirement. -/
def readRequirement (field loc identity : String) (e : String × Json) :
    Except ImportError (String × Requirement) := do
  let location := pointer (pointer loc field) e.1
  let _ ← (PackageName.parse e.1).mapError fun err => ⟨location, identity, field, .domain err⟩
  let raw ← orError e.2.asStr (error location identity field "expected a version requirement")
  let requirement ← (Requirement.fromStr raw).mapError fun err =>
    ⟨location, identity, field, .requirement err⟩
  return (e.1, requirement)

def requirements (entry : JsonMap) (field loc identity : String) :
    Except ImportError (OrdMap String Requirement) :=
  match entry.get? field with
  | none => .ok ∅
  | some value => do
    let declared ← object value (pointer loc field) identity
    let read ← declared.entries.mapM (readRequirement field loc identity)
    return OrdMap.ofList read

def checkFields (entry : JsonMap) (allowed : List String) (loc identity : String) :
    Except ImportError Unit :=
  checkAll (fun field => rejectIf (field ∉ allowed)
    (error (pointer loc field) identity field "unsupported npm lock field")) entry.keys

/-- Peers a `peerDependenciesMeta` section makes optional. -/
def optionalPeers (entry : JsonMap) (loc identity : String) (peers : OrdMap String Requirement) :
    Except ImportError (OrdSet String) :=
  match entry.get? "peerDependenciesMeta" with
  | none => .ok ∅
  | some value => do
    let metas ← object value (pointer loc "peerDependenciesMeta") identity
    metas.entries.foldlM (fun optional e => do
      let location := pointer (pointer loc "peerDependenciesMeta") e.1
      rejectIf (peers.contains e.1 = false) (error location identity "peerDependenciesMeta"
        "metadata has no corresponding peer dependency")
      let fields ← object e.2 location identity
      checkFields fields ["optional"] location identity
      return if ← flag fields "optional" location identity then optional.insert e.1 else optional) ∅

/-! ### Packages and edges -/

/-- A selected artifact and its npm placement. -/
structure ImportedNpmPackage where
  path : String
  name : PackageName
  version : PackageVersion
  registry : RegistryOrigin
  resolved : String
  integrity : PackageIntegrity
  dependencies : OrdMap String String
  optionalDependencies : OrdSet String
  peers : OrdMap String String
  optionalPeers : OrdSet String
  optional : Bool
  os : List String
  cpu : List String
  libc : List String

/-- Registry entry points of one project manifest. -/
structure ImportedNpmEntryPoints where
  dependencies : OrdMap String String
  optionalDependencies : OrdSet String

/-- Placement graph; edges are paths. -/
structure ImportedNpmGraph where
  workspaces : OrdMap String JsonMap
  workspaceLinks : OrdMap String String
  packages : OrdMap String ImportedNpmPackage
  roots : OrdMap String String
  optionalRoots : OrdSet String
  memberRoots : OrdMap String ImportedNpmEntryPoints

/-- Whether a selected package is what a requirement declared under a name
asks for. -/
def satisfies (requirement : Requirement) (name : PackageName) (selected : ImportedNpmPackage) : Bool :=
  requirement.matchesVersion selected.version && requirement.packageName name == selected.name

/-- The placement a declared dependency selects. -/
def edge (packages : OrdMap String ImportedNpmPackage) (parent name : String)
    (requirement : Requirement) (peer optional : Bool) (loc : String) :
    Except ImportError (Option String) :=
  match lookup packages parent name peer with
  | none =>
    if optional then .ok none
    else .error (error loc parent name "selected dependency is missing from npm placements")
  | some target => do
    -- the target was found in the map and the name was validated when it was read
    let accepted := match packages.get? target, PackageName.parse name with
      | some selected, .ok declared => satisfies requirement declared selected
      | _, _ => false
    rejectIf (accepted = false) (error loc parent name
      "selected package identity/version does not satisfy its declared requirement")
    return some target

/-! ### Workspace members -/

/-- Fields a member entry may have. -/
def memberFields : List String := ["name", "version", "license", "funding", "deprecated", "engines",
  "bin", "hasInstallScript", "dependencies", "devDependencies", "optionalDependencies",
  "peerDependencies", "peerDependenciesMeta"]

/-- Members read so far and the directories of their names. -/
structure MemberState where
  workspaces : OrdMap String JsonMap := ∅
  names : OrdMap String String := ∅

/-- The path a link is placed at below its `node_modules`. -/
def linkPlacement (path : List Char) : List Char :=
  let placement := ((rsplitOncePat "/node_modules/".toList path).map Prod.snd).getD path
  if startsWith "node_modules/".toList placement then placement
  else "node_modules/".toList ++ placement

/-- One link entry and the member it points to. -/
def readMember (entries : JsonMap) (state : MemberState) (path : String) (entry : JsonMap) :
    Except ImportError MemberState := do
  let loc := pointer "/packages" path
  rejectIf (entry.contains "version" ∨ entry.contains "integrity") (error (pointer loc "link") path
    "link" "local links cannot carry registry artifact fields")
  checkFields entry ["resolved", "link"] loc path
  rejectIf ((← flag entry "link" loc path) = false) (error (pointer loc "link") path "link" "expected true")
  let target ← text entry "resolved" loc path
  let memberLoc := pointer "/packages" target
  let value ← orError (entries.get? target) (error loc path "resolved" "missing local target")
  let member ← object value memberLoc target
  let name ← (if member.contains "name" then text member "name" memberLoc target
    else (orError (placementName (linkPlacement path.toList))
      (error loc path "path" "invalid local package placement")).map PackageName.text)
  let version ← text member "version" memberLoc target
  let source ← (LocalWorkspaceSource.new target name version).mapError fun err =>
    ⟨loc, path, "resolved", .lockfile err⟩
  rejectIf (source.path ≠ target ∨ (target.toList.splitOn '/').any (· == nodeModules)) (error loc path
    "link" "local targets must be named contained workspace members")
  checkFields member memberFields memberLoc name
  let _ ← flag member "hasInstallScript" memberLoc name
  rejectIf ((state.names.get? name).any (· ≠ target)) (error loc path "link" "duplicate local package name")
  return {
    workspaces := state.workspaces.insert target (member.insert "name" (.str name))
    names := state.names.insert name target }

/-- Objects with a `link` field. -/
def linkEntry (e : String × Json) : Option (String × JsonMap) :=
  e.2.asObject.bind fun entry => if entry.contains "link" then some (e.1, entry) else none

/-- Links of the document, in the order of their paths. -/
def linkEntries (entries : JsonMap) : List (String × JsonMap) := entries.entries.filterMap linkEntry

def members (entries : JsonMap) : Except ImportError (OrdMap String JsonMap) := do
  let state ← (linkEntries entries).foldlM (fun state e => readMember entries state e.1 e.2) {}
  return state.workspaces

/-- The directory in whose `node_modules` a name is linked. -/
def linkParent (path name : List Char) : Option (List Char) :=
  (stripSuffix ("node_modules/".toList ++ name) path).bind fun start =>
    if start = [] then some [] else stripSuffix ['/'] start

/-- A link has to stand in the `node_modules` of the root or of a member. -/
def readLink (workspaces : OrdMap String JsonMap) (links : OrdMap String String)
    (path : String) (entry : JsonMap) : Except ImportError (OrdMap String String) := do
  let target ← expect ((entry.get? "resolved").bind Json.asStr) "validated link"
  let member ← expect (workspaces.get? target) "validated member"
  let name ← expect ((member.get? "name").bind Json.asStr) "name"
  rejectIf (¬ (linkParent path.toList name.toList).any fun parent =>
      parent = [] || workspaces.contains (String.ofList parent))
    (error (pointer "/packages" path) path "link"
      "links must be placed at a root or declared member node_modules")
  return links.insert path target

/-! ### Registry packages -/

/-- Fields a package entry may have. -/
def packageFields : List String := ["name", "version", "resolved", "integrity", "dev", "optional",
  "devOptional", "peer", "license", "engines", "funding", "deprecated", "hasInstallScript", "bin",
  "dependencies", "optionalDependencies", "peerDependencies", "peerDependenciesMeta", "os", "cpu",
  "libc"]

/-- The path of a package relative to the member it is installed in. -/
def memberPlacement (workspaces : OrdMap String JsonMap) (path : List Char) : Option (List Char) :=
  workspaces.keys.findSome? fun member =>
    (stripPrefix (member.toList ++ "/node_modules/".toList) path).map
      ("node_modules/".toList ++ ·)

/-- Origin of an HTTPS address; the default port is not part of it. -/
def asciiSerialization (u : Url) : String :=
  u.scheme ++ "://" ++ u.host.getD "" ++
    ((u.port.map fun port => ":" ++ String.ofList (numeral port)).getD "")

/-- The tarball path of a name and version. -/
def expectedTarball (name : PackageName) (version : PackageVersion) : List Char :=
  let basename := ((name.text.toList.splitOn '/').getLast?).getD []
  '/' :: name.text.toList ++ "/-/".toList ++ basename ++ '-' :: version.chars ++ ".tgz".toList

section Documents

variable (url : UrlParser)

def readPackage (workspaces : OrdMap String JsonMap) (path : String) (entry : JsonMap) :
    Except ImportError ImportedNpmPackage := do
  let loc := pointer "/packages" path
  let localName ← orError (placementName ((memberPlacement workspaces path.toList).getD path.toList))
    (error loc path "path" "unsupported registry placement or unsafe path")
  let rawName ← (if entry.contains "name" then text entry "name" loc path else .ok localName.text)
  let rawVersion ← text entry "version" loc path
  let identity := rawName ++ "@" ++ rawVersion
  checkFields entry packageFields loc identity
  let name ← (PackageName.parse rawName).mapError fun err =>
    ⟨pointer loc "name", identity, "name", .domain err⟩
  let version ← (PackageVersion.fromStr rawVersion).mapError fun err =>
    ⟨pointer loc "version", identity, "version", .domain err⟩
  let resolved ← text entry "resolved" loc identity
  let _ ← (artifactUrlParse url resolved).mapError fun _ =>
    error (pointer loc "resolved") identity "resolved"
      "expected a safe HTTPS registry tarball URL without credentials, query or fragment"
  let u ← orError (url resolved) (error (pointer loc "resolved") identity "resolved" "invalid URL")
  let registry ← (RegistryOrigin.parse url (asciiSerialization u)).mapError fun err =>
    ⟨pointer loc "resolved", identity, "resolved", .domain err⟩
  rejectIf ((stripSuffix (expectedTarball name version) u.path.toList).isNone)
    (error (pointer loc "resolved") identity "resolved"
      "tarball path does not match selected name/version; nonstandard artifact paths are unsupported")
  let rawIntegrity ← text entry "integrity" loc identity
  let integrity ← (PackageIntegrity.parse rawIntegrity).mapError fun _ =>
    error (pointer loc "integrity") identity "integrity"
      "requires one canonical padded SHA-512 SRI value"
  rejectIf (rawIntegrity ≠ integrity.text) (error (pointer loc "integrity") identity "integrity"
    "requires canonical padded SHA-512 SRI")
  checkAll (fun field => (flag entry field loc identity).map fun _ => ())
    ["dev", "devOptional", "peer", "hasInstallScript"]
  return {
    path, name, version, registry, resolved, integrity
    dependencies := ∅
    optionalDependencies := ∅
    peers := ∅
    optionalPeers := ∅
    optional := ← flag entry "optional" loc identity
    os := ← strings entry "os" loc identity
    cpu := ← strings entry "cpu" loc identity
    libc := ← strings entry "libc" loc identity }

/-- One entry of the document; the root, members and links are no packages. -/
def addPackage (workspaces : OrdMap String JsonMap) (packages : OrdMap String ImportedNpmPackage)
    (e : String × Json) : Except ImportError (OrdMap String ImportedNpmPackage) := do
  let entry ← object e.2 (pointer "/packages" e.1) e.1
  if workspaces.contains e.1 || entry.contains "link" then return packages
  return packages.insert e.1 (← readPackage url workspaces e.1 entry)

def readPackages (entries : JsonMap) (workspaces : OrdMap String JsonMap) :
    Except ImportError (OrdMap String ImportedNpmPackage) :=
  (entries.entries.filter fun e => e.1 ≠ "").foldlM (addPackage url workspaces) ∅

end Documents

/-! ### Edges of packages -/

/-- Packages and links together. -/
def placements (packages : OrdMap String ImportedNpmPackage) (links : OrdMap String String) :
    OrdMap String Unit :=
  OrdMap.ofList ((packages.keys ++ links.keys).map fun path => (path, ()))

/-- Dependencies of a registry package may not select a link. -/
def checkNoLink (placements : OrdMap String Unit) (links : OrdMap String String) (path : String)
    (entry : JsonMap) (field : String) : Except ImportError Unit := do
  let loc := pointer "/packages" path
  let declared ← requirements entry field loc path
  checkAll (fun name => rejectIf
    (((lookup placements path name (field == "peerDependencies")).any
      fun target => links.contains target) = true)
    (error (pointer (pointer loc field) name) path field
      "registry edges to local workspace members cannot be represented")) declared.keys

/-- Targets of the declarations that select one. -/
def collectTargets (find : String → Requirement → Except ImportError (Option String))
    (declared : OrdMap String Requirement) : Except ImportError (OrdMap String String) :=
  declared.entries.foldlM (fun targets e => do
    let target ← find e.1 e.2
    return match target with
      | some target => targets.insert e.1 target
      | none => targets) ∅

/-- Regular edges of a package; optional declarations replace the others. -/
def regularEdges (packages : OrdMap String ImportedNpmPackage) (path : String)
    (dependencies optional : OrdMap String Requirement) : Except ImportError (OrdMap String String) :=
  collectTargets (fun name requirement =>
      let field := if optional.contains name then "optionalDependencies" else "dependencies"
      edge packages path name requirement false (optional.contains name)
        (pointer (pointer (pointer "/packages" path) field) name))
    (dependencies.insertAll optional.entries)

def peerEdges (packages : OrdMap String ImportedNpmPackage) (path : String)
    (edges : OrdMap String String) (peers : OrdMap String Requirement) (optional : OrdSet String) :
    Except ImportError (OrdMap String String) :=
  collectTargets (fun name requirement => do
      let loc := pointer "/packages" path
      let target ← edge packages path name requirement true (name ∈ optional)
        (pointer (pointer loc "peerDependencies") name)
      rejectIf (target.isSome ∧ (edges.get? name).any (some · ≠ target)) (error loc path
        "peerDependencies" "regular and peer placements conflict")
      return target)
    peers

/-- Set the edges of one package. -/
def bindPackage (entries : JsonMap) (placements : OrdMap String Unit) (links : OrdMap String String)
    (packages : OrdMap String ImportedNpmPackage) (path : String) :
    Except ImportError (OrdMap String ImportedNpmPackage) := do
  let loc := pointer "/packages" path
  -- every package was read from an object
  let entry := ((entries.get? path).bind Json.asObject).getD ∅
  checkAll (checkNoLink placements links path entry)
    ["dependencies", "optionalDependencies", "peerDependencies"]
  let dependencies ← requirements entry "dependencies" loc path
  let optional ← requirements entry "optionalDependencies" loc path
  let edges ← regularEdges packages path dependencies optional
  let peers ← requirements entry "peerDependencies" loc path
  let optionalPeers ← optionalPeers entry loc path peers
  let peerEdges ← peerEdges packages path edges peers optionalPeers
  return match packages.get? path with
    | none => packages
    | some package => packages.insert path { package with
        dependencies := edges
        optionalDependencies := OrdSet.ofList optional.keys
        peers := peerEdges
        optionalPeers := optionalPeers }

/-! ### Entry points -/

/-- The dependency sections of a project manifest. -/
def sections : List String :=
  ["dependencies", "devDependencies", "optionalDependencies", "peerDependencies"]

/-- Remove a name from a section that is an object. -/
def dropName (entry : JsonMap) (field name : String) : JsonMap :=
  match (entry.get? field).bind Json.asObject with
  | some declared => entry.insert field (.obj (declared.erase name).entries)
  | none => entry

/-- A local dependency leaves the sections it is declared in. -/
def dropLocal (entry : JsonMap) (field name : String) : JsonMap :=
  let entry := dropName entry field name
  let entry := if field == "optionalDependencies" then dropName entry "dependencies" name else entry
  if field == "peerDependencies" then dropName entry "peerDependenciesMeta" name else entry

/-- Whether a local member is what a requirement declared under its name asks
for. -/
def localSatisfies (requirement : Requirement) (name : String) (member : JsonMap) : Bool :=
  match PackageName.parse name, ((member.get? "version").bind Json.asStr).map PackageVersion.fromStr with
  | .ok declared, some (.ok version) =>
    requirement.packageName declared == declared && requirement.matchesVersion version
  | _, _ => false

/-- The member a project dependency is linked to. -/
def linkedMember (placements : OrdMap String Unit) (workspaces : OrdMap String JsonMap)
    (links : OrdMap String String) (parent name field : String) : Option JsonMap :=
  (lookup placements parent name (field == "peerDependencies")).bind fun selected =>
    (links.get? selected).bind fun target => workspaces.get? target

/-- One declaration of a section; linked members are checked and left out. -/
def resolveLocal (placements : OrdMap String Unit) (workspaces : OrdMap String JsonMap)
    (links : OrdMap String String) (entry : JsonMap) (parent field : String) (root : JsonMap)
    (e : String × Requirement) : Except ImportError JsonMap :=
  if field == "dependencies" &&
      ((entry.get? "optionalDependencies").bind Json.asObject).any (·.contains e.1) then .ok root
  else
    match linkedMember placements workspaces links parent e.1 field with
    | none => .ok root
    | some member => do
      rejectIf (localSatisfies e.2 e.1 member = false)
        (error (pointer (pointer (pointer "/packages" parent) field) e.1) parent field
          "local workspace identity/version does not satisfy requirement")
      return dropLocal root field e.1

def resolveSection (placements : OrdMap String Unit) (workspaces : OrdMap String JsonMap)
    (links : OrdMap String String) (entry : JsonMap) (parent : String) (root : JsonMap)
    (field : String) : Except ImportError JsonMap := do
  let declared ← requirements entry field (pointer "/packages" parent) parent
  declared.entries.foldlM (resolveLocal placements workspaces links entry parent field) root

/-- Requirements of `dependencies` and `devDependencies`; where both declare a
name the selected package has to meet both. -/
def mergeDev (packages : OrdMap String ImportedNpmPackage) (parent : String)
    (merged : OrdMap String Requirement) (e : String × Requirement) :
    Except ImportError (OrdMap String Requirement) := do
  let loc := pointer "/packages" parent
  match merged.get? e.1 with
  | none => return merged.insert e.1 e.2
  | some previous => do
    let target ← orError (lookup packages parent e.1 false)
      (error loc parent e.1 "missing direct package")
    let agree := match packages.get? target, PackageName.parse e.1 with
      | some selected, .ok declared =>
        satisfies previous declared selected && satisfies e.2 declared selected
      | _, _ => false
    rejectIf (agree = false) (error loc parent e.1
      "overlapping root requirements disagree with selection")
    return merged.insert e.1 e.2

/-- Entry points of the regular sections. -/
def regularRoots (packages : OrdMap String ImportedNpmPackage) (parent : String)
    (required optional : OrdMap String Requirement) : Except ImportError (OrdMap String String) :=
  collectTargets (fun name requirement =>
      edge packages parent name requirement false (optional.contains name) (pointer "/packages" parent))
    (required.insertAll optional.entries)

/-- Peers are entry points unless a regular section has the name. -/
def addPeerRoot (packages : OrdMap String ImportedNpmPackage) (parent : String) (optional : OrdSet String)
    (points : ImportedNpmEntryPoints) (e : String × Requirement) :
    Except ImportError ImportedNpmEntryPoints := do
  let target ← edge packages parent e.1 e.2 true (e.1 ∈ optional)
    (pointer (pointer "/packages" parent) "peerDependencies")
  return match target with
    | none => points
    | some target =>
      if points.dependencies.contains e.1 then points
      else {
        dependencies := points.dependencies.insert e.1 target
        optionalDependencies :=
          if e.1 ∈ optional then points.optionalDependencies.insert e.1
          else points.optionalDependencies }

def entryRoots (entry : JsonMap) (parent : String) (packages : OrdMap String ImportedNpmPackage)
    (workspaces : OrdMap String JsonMap) (links : OrdMap String String) :
    Except ImportError ImportedNpmEntryPoints := do
  let loc := pointer "/packages" parent
  let originalPeers ← requirements entry "peerDependencies" loc parent
  let _ ← optionalPeers entry loc parent originalPeers
  let placements := placements packages links
  let root ← sections.foldlM (resolveSection placements workspaces links entry parent) entry
  let dependencies ← requirements root "dependencies" loc parent
  let development ← requirements root "devDependencies" loc parent
  let required ← development.entries.foldlM (mergeDev packages parent) dependencies
  let optional ← requirements root "optionalDependencies" loc parent
  let roots ← regularRoots packages parent required optional
  let peers ← requirements root "peerDependencies" loc parent
  let optionalPeers ← optionalPeers root loc parent peers
  peers.entries.foldlM (addPeerRoot packages parent optionalPeers)
    ⟨roots, OrdSet.ofList optional.keys⟩

/-! ### Representable graphs -/

namespace ImportedNpmGraph

/-- Versions of the peers of a placement. -/
def peerContext (g : ImportedNpmGraph) (package : ImportedNpmPackage) : PeerContext :=
  package.peers.entries.foldl (fun context e =>
    match PackageName.parse e.1, g.packages.get? e.2 with
    | .ok name, some target => context.insert name target.version
    | _, _ => context) ∅

/-- The key a placement is stored under. -/
def key (g : ImportedNpmGraph) (package : ImportedNpmPackage) : String :=
  (LockfilePackageKey.withSource (.registry package.registry) package.name package.version
    (g.peerContext package) PlatformContext.unrestricted).display

/-- The key of a placement by its path. -/
def keyAt (g : ImportedNpmGraph) (path : String) : Option String := (g.packages.get? path).map g.key

/-- Entry points of all manifests. -/
def entryPaths (g : ImportedNpmGraph) : List String :=
  g.roots.values ++ g.memberRoots.values.flatMap fun points => points.dependencies.values

/-- Targets of a package. -/
def targets (package : ImportedNpmPackage) : List String :=
  package.dependencies.values ++ package.peers.values

/-- Paths reached so far and paths to visit; the last one is visited next. -/
structure Traversal where
  reachable : OrdSet String := ∅
  pending : List String

def traverseStep (g : ImportedNpmGraph) (t : Traversal) : Option (Except ImportError Traversal) :=
  match t.pending.getLast? with
  | none => none
  | some path =>
    let rest := t.pending.dropLast
    if path ∈ t.reachable then some (.ok { t with pending := rest })
    else some (.ok {
      reachable := t.reachable.insert path
      pending := rest ++ ((g.packages.get? path).map targets).getD [] })

/-- Rounds that suffice to visit every placement and every edge. -/
def traverseFuel (g : ImportedNpmGraph) : Nat :=
  g.entryPaths.length + g.packages.values.foldl (fun n package => n + (targets package).length) 0 + 1

def reachable (g : ImportedNpmGraph) : Except ImportError (OrdSet String) := do
  let t ← Loop.run g.traverseStep g.traverseFuel { pending := g.entryPaths }
  return t.reachable

/-- What two placements of one instance have to agree on. -/
structure Signature where
  resolved : String
  integrity : PackageIntegrity
  edges : OrdMap String (Option String)
  os : List String
  cpu : List String
  libc : List String
  optionalDependencies : OrdSet String
  optionalPeers : OrdSet String
  deriving DecidableEq

/-- Edges by the keys of their targets. -/
def keyedEdges (g : ImportedNpmGraph) (package : ImportedNpmPackage) : OrdMap String (Option String) :=
  OrdMap.ofList ((package.dependencies.entries ++ package.peers.entries).map fun e =>
    (e.1, g.keyAt e.2))

def signature (g : ImportedNpmGraph) (package : ImportedNpmPackage) : Signature where
  resolved := package.resolved
  integrity := package.integrity
  edges := g.keyedEdges package
  os := package.os
  cpu := package.cpu
  libc := package.libc
  optionalDependencies := package.optionalDependencies
  optionalPeers := package.optionalPeers

/-- Artifacts by package version and signatures by key, so far. -/
structure Seen where
  artifacts : OrdMap (RegistryOrigin ×ₗ PackageName ×ₗ PackageVersion) (String × PackageIntegrity) := ∅
  identities : OrdMap String Signature := ∅

def checkPlacement (g : ImportedNpmGraph) (seen : Seen) (e : String × ImportedNpmPackage) :
    Except ImportError Seen := do
  let (path, package) := e
  let loc := pointer "/packages" path
  let identity := package.name.text ++ "@" ++ package.version.display
  let version := toLex (package.registry, toLex (package.name, package.version))
  let artifact := (package.resolved, package.integrity)
  rejectIf ((seen.artifacts.get? version).any (· ≠ artifact))
    (error (pointer loc "integrity") identity "resolved/integrity"
      "same registry package/version has conflicting artifact source or integrity")
  rejectIf (package.peers.values.any fun target =>
      (g.packages.get? target).map ImportedNpmPackage.registry ≠ some package.registry)
    (error loc path "peerDependencies" "cross-registry peer context cannot be represented")
  rejectIf ((targets package).any fun target => g.keyAt target = some (g.key package))
    (error loc path "dependencies" "self-instance edge cannot be represented")
  let key := g.key package
  rejectIf ((seen.identities.get? key).any (· ≠ g.signature package)) (error loc identity "placement"
    "same Tapid instance has conflicting sources, constraints or dependency placements")
  return {
    artifacts := seen.artifacts.insert version artifact
    identities := seen.identities.insert key (g.signature package) }

def validateRepresentable (g : ImportedNpmGraph) : Except ImportError Unit := do
  let reachable ← g.reachable
  checkAll (fun path => rejectIf (path ∉ reachable) (error (pointer "/packages" path) path "placement"
    "unreachable selected entry cannot be represented; refresh the npm lock before importing"))
    g.packages.keys
  let _ ← g.packages.entries.foldlM g.checkPlacement {}

end ImportedNpmGraph

/-! ### The graph of a document -/

/-- Fields of the document. -/
def documentFields : List String := ["name", "version", "lockfileVersion", "requires", "packages"]

/-- Fields of the root entry. -/
def rootFields : List String := ["name", "version", "license", "engines", "workspaces", "dependencies",
  "devDependencies", "optionalDependencies", "peerDependencies", "peerDependenciesMeta"]

/-- Member entry points in the root folder are entry points of the root, and
optional ones only when no other manifest requires them. -/
def hoistRoot (points : ImportedNpmEntryPoints) (roots : ImportedNpmEntryPoints)
    (e : String × String) : ImportedNpmEntryPoints :=
  if e.2 = "node_modules/" ++ e.1 then
    let optional := roots.optionalDependencies
    let optional := if roots.dependencies.contains e.1 = false ∧ e.1 ∈ points.optionalDependencies then
      optional.insert e.1 else optional
    let optional := if e.1 ∉ points.optionalDependencies then optional.filter (· ≠ e.1) else optional
    { dependencies := if roots.dependencies.contains e.1 then roots.dependencies
        else roots.dependencies.insert e.1 e.2
      optionalDependencies := optional }
  else roots

/-- Entry points of the root and of the members so far. -/
structure RootState where
  root : ImportedNpmEntryPoints
  memberRoots : OrdMap String ImportedNpmEntryPoints := ∅

def addMember (packages : OrdMap String ImportedNpmPackage) (workspaces : OrdMap String JsonMap)
    (links : OrdMap String String) (state : RootState) (e : String × JsonMap) :
    Except ImportError RootState := do
  let selected ← entryRoots e.2 e.1 packages workspaces links
  return {
    root := selected.dependencies.entries.foldl (hoistRoot selected) state.root
    memberRoots := state.memberRoots.insert e.1 selected }

variable (url : UrlParser)

/-- The placement graph of a lockfile document. -/
def graph (input : Json) : Except ImportError ImportedNpmGraph := do
  let top ← object input "/" "root"
  rejectIf ((top.get? "lockfileVersion").bind Json.asU64 ≠ some 3) (error "/lockfileVersion" "root"
    "lockfileVersion" "only npm lockfileVersion 3 is supported; regenerate with npm install --package-lock-only --lockfile-version=3, review version changes, then retry")
  checkFields top documentFields "" "root"
  let packagesValue ← orError (top.get? "packages")
    (error "/packages" "root" "packages" "missing package placements")
  let entries ← object packagesValue "/packages" "root"
  let rootValue ← orError (entries.get? "") (error "/packages/" "root" "root" "missing root entry")
  let root ← object rootValue "/packages/" "root"
  checkFields root rootFields "/packages/" "root"
  let workspaces ← members entries
  let links ← (linkEntries entries).foldlM (fun links e => readLink workspaces links e.1 e.2) ∅
  let read ← readPackages url entries workspaces
  let packages ← read.keys.foldlM (bindPackage entries (placements read links) links) read
  let rootPoints ← entryRoots root "" packages workspaces links
  let state ← workspaces.entries.foldlM (addMember packages workspaces links) { root := rootPoints }
  let graph : ImportedNpmGraph := {
    workspaces
    workspaceLinks := links
    packages
    roots := state.root.dependencies
    optionalRoots := state.root.optionalDependencies
    memberRoots := state.memberRoots }
  graph.validateRepresentable
  return graph

end Npm

end Tapid
