/-
Discovery of workspace members.

The root manifest lists patterns; a pattern is expanded component by component
to directories, a `*` standing for every directory below, and the manifests
found there are the members.  Expansion works on two budgets: candidates, which
all patterns share, and expansion steps, which are charged for every component,
entry and probe.  This is the Unix build: on Windows a pattern with a colon is
refused as well, and paths are taken apart differently.

* `DirectoryTree` — what the system answers about paths;
* `expandPatternBounded` — one pattern;
* `discoverPaths` — all patterns on the budgets;
* `discoverBounded`, `discoverTyped` — discovery.
-/
import Tapid.LexicalPath
import Tapid.Manifest
import Tapid.Metered
import Tapid.OsPath

namespace Tapid

open Text Fallible
open LexicalPath (Component components)
open Npm (ManifestError)

/-! ### Paths -/

def OsName.packageJson : OsName := ofText "package.json".toList

def OsName.nodeModules : OsName := ofText "node_modules".toList

/-- What paths are compared by: a current directory stands for nothing. -/
def OsPath.normalized (path : OsPath) : OsPath := path.filter (· ≠ OsName.dot)

/-- A path as the system resolves it. -/
structure CanonicalPath where
  names : OsPath
  clean : OsName.dot ∉ names
  deriving DecidableEq

namespace CanonicalPath

theorem names_injective : Function.Injective names := by
  rintro ⟨a, _⟩ ⟨b, _⟩ rfl
  rfl

instance : LinearOrder CanonicalPath := LinearOrder.lift' names names_injective

end CanonicalPath

/-! ### What the system answers -/

structure OsError where
  notFound : Bool
  text : String
  deriving DecidableEq

inductive FileKind where
  | file
  | directory
  | symlink
  | other
  deriving DecidableEq

/-- An entry of a directory that is listed. -/
structure ListedEntry where
  name : OsName
  fileType : Except OsError FileKind

/-- A file that was opened without following a link. -/
structure OpenedFile where
  metadata : Except OsError (FileKind × Nat)
  /-- At most so many bytes, from the start. -/
  take : Nat → Except OsError (List UInt8)

structure DirectoryTree where
  canonicalize : OsPath → Except OsError CanonicalPath
  isDir : OsPath → Bool
  symlinkMetadata : OsPath → Except OsError FileKind
  /-- Behind links. -/
  metadata : OsPath → Except OsError FileKind
  readDir : OsPath → Except OsError (List (Except OsError ListedEntry))
  openFile : OsPath → Except OsError OpenedFile

/-! ### Errors -/

inductive WorkspaceError where
  | discovery (message : String)
  | discoveryLimitExceeded
  | manifestRead (path : OsPath) (message : String)
  /-- The diagnostic is found in the text by the error. -/
  | manifest (path : OsPath) (text : String) (error : ManifestError)
  deriving DecidableEq

/-- Length of a sequence that begins with a byte; nothing begins with the
others. -/
def sequenceLength (b : UInt8) : Nat :=
  if b.toNat < 0x80 then 1
  else if 0xC2 ≤ b.toNat ∧ b.toNat < 0xE0 then 2
  else if 0xE0 ≤ b.toNat ∧ b.toNat < 0xF0 then 3
  else if 0xF0 ≤ b.toNat ∧ b.toNat < 0xF5 then 4
  else 0

/-- `FromUtf8Error`: the first sequence that is not well formed. -/
def fromUtf8Error : Nat → Nat → List UInt8 → String
  | n + 1, index, b :: rest =>
    let taken := (Bytes.decodeOne b rest).2
    if taken + 1 = sequenceLength b then fromUtf8Error n (index + taken + 1) (rest.drop taken)
    else if taken = rest.length ∧ taken + 1 < sequenceLength b then
      "incomplete utf-8 byte sequence from index " ++ index.repr
    else "invalid utf-8 sequence of " ++ (taken + 1).repr ++ " bytes from index " ++ index.repr
  | _, _, _ => ""

def maxManifestBytes : Nat := 32 * 1024 * 1024

section Discovery

variable (codec : JsonCodec) (tree : DirectoryTree)

/-! ### Manifests -/

/-- The path as the system resolves it, which must be inside of the root. -/
def containedPath (root : CanonicalPath) (path : OsPath) : Except String CanonicalPath := do
  let canonical ← (tree.canonicalize path).mapError fun error =>
    "cannot canonicalize workspace path " ++ path.display ++ ": " ++ error.text
  rejectIf (¬ root.names <+: canonical.names) ("workspace path is outside project: " ++ path.display)
  return canonical

/-- `read_file` -/
def readWorkspaceFile (path : OsPath) : Except WorkspaceError String := do
  let atPath (message : String) : WorkspaceError := .manifestRead path message
  let file ← (tree.openFile path).mapError fun error =>
    atPath ("cannot read " ++ path.display ++ ": " ++ error.text)
  let metadata ← file.metadata.mapError fun error =>
    atPath ("cannot inspect " ++ path.display ++ ": " ++ error.text)
  rejectIf (metadata.1 ≠ .file ∨ maxManifestBytes < metadata.2)
    (atPath ("workspace manifest must be a regular file no larger than 32 MiB: " ++ path.display))
  let bytes ← (file.take (maxManifestBytes + 1)).mapError fun error =>
    atPath ("cannot read " ++ path.display ++ ": " ++ error.text)
  rejectIf (maxManifestBytes < bytes.length)
    (atPath ("workspace manifest exceeds 32 MiB: " ++ path.display))
  orError (String.fromUTF8? bytes.toByteArray)
    (atPath ("cannot read " ++ path.display ++ ": " ++ fromUtf8Error bytes.length 0 bytes))

def parseManifest (path : OsPath) (text : String) : Except WorkspaceError PackageManifest :=
  (PackageManifest.parse codec text).mapError (.manifest path text)

/-- The root manifest with the directory and the file it was found in. -/
structure WorkspaceRoot where
  projectDir : CanonicalPath
  rootPath : CanonicalPath
  root : PackageManifest

def readRoot (projectDir : OsPath) : Except WorkspaceError WorkspaceRoot := do
  let canonical ← (tree.canonicalize projectDir).mapError fun error =>
    WorkspaceError.discovery ("cannot resolve workspace root " ++ projectDir.display ++ ": " ++ error.text)
  rejectIf (tree.isDir canonical.names = false)
    (WorkspaceError.discovery ("workspace root is not a directory: " ++ OsPath.display canonical.names))
  let manifestPath := canonical.names ++ [OsName.packageJson]
  let rootReadError (message : String) : WorkspaceError := .manifestRead manifestPath message
  let kind ← (tree.symlinkMetadata manifestPath).mapError fun error =>
    rootReadError ("cannot inspect workspace root manifest: " ++ error.text)
  rejectIf (kind ≠ .file) (rootReadError "workspace root package.json must be a regular file")
  let rootPath ← (containedPath tree canonical manifestPath).mapError rootReadError
  let text ← readWorkspaceFile tree rootPath.names
  let root ← parseManifest codec rootPath.names text
  return ⟨canonical, rootPath, root⟩

/-- The patterns of a manifest. -/
def workspacePatterns (workspaces : Option Json) : Except String (List String) :=
  let strings (values : List Json) : Except String (List String) :=
    values.mapM fun value => orError value.asStr "package.json workspace patterns must be strings"
  match workspaces with
  | none => .ok []
  | some (.str pattern) => .ok [pattern]
  | some (.arr values) => strings values
  | some (.obj fields) =>
    match (OrdMap.ofList fields).get? "packages" with
    | some (.str pattern) => .ok [pattern]
    | some (.arr values) => strings values
    | _ => .error "package.json workspaces.packages must be a string or array"
  | some _ => .error "package.json workspaces must be a string, array, or object"

/-! ### Expansion -/

/-- Work that is charged to the expansion steps that remain. -/
abbrev Expansion := Metered ℕ WorkspaceError

/-- `expansion_step` -/
def expansionStep : Expansion Unit
  | 0 => .error .discoveryLimitExceeded
  | remaining + 1 => .ok ((), remaining)

/-- `Component::as_os_str` -/
def componentText : Component → List Char
  | .volume text => text
  | .rootDir => ['/']
  | .curDir => ['.']
  | .parentDir => ['.', '.']
  | .normal name => name

def isNormal : Component → Bool
  | .normal _ => true
  | _ => false

def outsideProject (relative : List Component) : Bool :=
  relative.head? = some .rootDir || relative.any (· == .parentDir)

def unsupportedPattern (pattern : String) (relative : List Component) : Bool :=
  !relative.any isNormal ||
    pattern.toList.any (fun c => ['?', '[', ']', '\x7b', '\x7d', '!', '(', ')', '\\'].contains c) ||
    relative.any fun component => (componentText component).contains '*' && componentText component ≠ ['*']

def discoveryError (message : String) : WorkspaceError := .discovery message

/-- An entry below a `*`: the directory it is or leads to. -/
def expandEntry (root : CanonicalPath) (dir : CanonicalPath) (entry : Except OsError ListedEntry) :
    Expansion (List OsPath) := do
  expansionStep
  let entry ← Metered.lift (entry.mapError fun error =>
    discoveryError ("cannot inspect workspace directory: " ++ error.text))
  let fileType ← Metered.lift (entry.fileType.mapError fun error =>
    discoveryError ("cannot inspect workspace directory: " ++ error.text))
  let candidate := dir.names ++ [entry.name]
  let take : Expansion (List OsPath) := do
    let contained ← Metered.lift ((containedPath tree root candidate).mapError discoveryError)
    return [contained.names]
  match fileType with
  | .symlink => do
    let target ← Metered.lift ((tree.metadata candidate).mapError fun error =>
      discoveryError ("cannot inspect workspace symlink target " ++ candidate.display ++ ": " ++ error.text))
    match target with
    | .file => return []
    | .directory => take
    | _ => Metered.fail (discoveryError
        ("workspace glob encountered an unsupported symlink target: " ++ candidate.display))
  | .directory => take
  | _ => return []

/-- The directories below a directory. -/
def expandDirectory (root : CanonicalPath) (path : OsPath) : Expansion (List OsPath) := do
  let dir ← Metered.lift ((containedPath tree root path).mapError discoveryError)
  let entries ← Metered.lift ((tree.readDir dir.names).mapError fun error =>
    discoveryError ("cannot read workspace directory " ++ OsPath.display dir.names ++ ": " ++ error.text))
  Metered.collect (expandEntry tree root dir) entries

/-- `PathBuf::push` of a name, charged. -/
def pushName (name : OsName) (path : OsPath) : Expansion (List OsPath) := do
  expansionStep
  return [path ++ [name]]

def expandComponent (root : CanonicalPath) (paths : List OsPath) (component : Component) :
    Expansion (List OsPath) := do
  expansionStep
  if componentText component = ['*'] then Metered.collect (expandDirectory tree root) paths
  else Metered.collect (pushName (OsName.ofText (componentText component))) paths

/-- The directories a pattern stands for. -/
def patternDirectories (root : CanonicalPath) (pattern : String) : Expansion (List OsPath) := do
  expansionStep
  let relative := components .unix pattern.toList
  Metered.lift (rejectIf (outsideProject relative)
    (discoveryError ("workspace pattern is outside project: " ++ pattern)))
  Metered.lift (rejectIf (unsupportedPattern pattern relative)
    (discoveryError ("unsupported workspace pattern '" ++ pattern ++
      "'; use a relative directory path or a whole path component '*' for one directory level")))
  relative.foldlM (expandComponent tree root) [root.names]

/-- Whether there is something at the place of a manifest. -/
def probeManifest (manifest : OsPath) : Except WorkspaceError Bool :=
  match tree.symlinkMetadata manifest with
  | .ok _ => .ok true
  | .error error =>
    if error.notFound then .ok false
    else .error (.manifestRead manifest
      ("cannot inspect workspace manifest " ++ manifest.display ++ ": " ++ error.text))

/-- One directory: its manifest is pushed while there is room. -/
def pushManifest (maxCandidates : Nat) (manifests : List OsPath) (path : OsPath) :
    Expansion (List OsPath) := do
  expansionStep
  let manifest := path ++ [OsName.packageJson]
  let present ← Metered.lift (probeManifest tree manifest)
  if present then
    if manifests.length = maxCandidates then Metered.fail .discoveryLimitExceeded
    else return manifests ++ [manifest]
  else return manifests

/-- `manifests.sort()` -/
def sortPaths (paths : List OsPath) : List OsPath :=
  paths.insertionSort fun a b => a.normalized ≤ b.normalized

/-- `expand_pattern_bounded` -/
def expandPatternBounded (root : CanonicalPath) (pattern : String) (maxCandidates : Nat) :
    Expansion (List OsPath) := do
  let paths ← patternDirectories tree root pattern
  let manifests ← paths.foldlM (pushManifest tree maxCandidates) []
  return sortPaths manifests

/-! ### Discovery -/

/-- What ends a discovery: an error, or a subtraction below zero. -/
inductive DiscoveryFailure where
  | overflow
  | refused (error : WorkspaceError)
  deriving DecidableEq

/-- `a - b` on `usize`. -/
def checkedRoom (a b : Nat) : Except DiscoveryFailure Nat := if b ≤ a then .ok (a - b) else .error .overflow

/-- `paths.extend(expand_pattern_bounded(..))` -/
def extendPaths (root : CanonicalPath) (maxCandidates : Nat) (paths : List OsPath) (pattern : String) :
    Metered ℕ DiscoveryFailure (List OsPath) := do
  let room ← Metered.lift (checkedRoom maxCandidates paths.length)
  let more ← fun remaining => (expandPatternBounded tree root pattern room remaining).mapError .refused
  return paths ++ more

def discoverPaths (root : CanonicalPath) (patterns : List String) (maxCandidates maxExpansionSteps : Nat) :
    Except DiscoveryFailure (List OsPath) :=
  (patterns.foldlM (extendPaths tree root maxCandidates) [] maxExpansionSteps).map Prod.fst

/-- The manifest as it is declared: a regular file inside of the root. -/
def declaredManifest (root : CanonicalPath) (path : OsPath) : Except WorkspaceError CanonicalPath := do
  let readError (message : String) : WorkspaceError := .manifestRead path message
  let kind ← (tree.symlinkMetadata path).mapError fun error =>
    readError ("cannot inspect workspace manifest " ++ path.display ++ ": " ++ error.text)
  rejectIf (kind ≠ .file)
    (readError ("workspace manifest must be a regular file, not a symlink: " ++ path.display))
  (containedPath tree root path).mapError readError

structure WorkspaceMember where
  name : String
  path : CanonicalPath
  manifest : PackageManifest

structure Workspace where
  root : PackageManifest
  rootPath : CanonicalPath
  members : List WorkspaceMember

/-- One member: its name must not be taken. -/
def readMember (root : CanonicalPath) (state : OrdSet String × List WorkspaceMember) (path : CanonicalPath) :
    Except WorkspaceError (OrdSet String × List WorkspaceMember) := do
  let canonical ← (tree.canonicalize path.names).mapError fun error =>
    WorkspaceError.manifestRead path.names
      ("cannot resolve workspace manifest " ++ OsPath.display path.names ++ ": " ++ error.text)
  rejectIf (¬ root.names <+: canonical.names)
    (discoveryError ("workspace member escapes workspace root: " ++ OsPath.display path.names))
  rejectIf (canonical.names = []) (discoveryError "workspace member manifest has no parent")
  let memberRoot : OsPath := canonical.names.dropLast
  rejectIf (¬ root.names <+: memberRoot)
    (discoveryError ("workspace member escapes workspace root: " ++ OsPath.display path.names))
  rejectIf (OsName.nodeModules ∈ memberRoot.drop root.names.length)
    (discoveryError ("workspace member may not be inside root node_modules: " ++ memberRoot.display))
  let text ← readWorkspaceFile tree canonical.names
  let manifest ← parseManifest codec canonical.names text
  rejectIf (manifest.name.text ∈ state.1)
    (discoveryError ("duplicate workspace package name '" ++ manifest.name.text ++ "'"))
  return (state.1.insert manifest.name.text, state.2 ++ [⟨manifest.name.text, canonical, manifest⟩])

def WorkspaceMember.le (a b : WorkspaceMember) : Prop := a.name < b.name ∨ a.name = b.name ∧ a.path ≤ b.path

instance : DecidableRel WorkspaceMember.le := fun a b =>
  inferInstanceAs (Decidable (a.name < b.name ∨ a.name = b.name ∧ a.path ≤ b.path))

/-- What follows on the expansion: the candidates are inspected, sorted, and
read one by one. -/
def readMembers (root : WorkspaceRoot) (paths : List OsPath) : Except WorkspaceError Workspace := do
  let declared ← paths.mapM (declaredManifest tree root.projectDir)
  let paths := (declared.insertionSort (· ≤ ·)).destutter (· ≠ ·)
  let names : OrdSet String := OrdSet.insert ∅ root.root.name.text
  let (_, members) ← paths.foldlM (readMember codec tree root.projectDir) (names, [])
  return ⟨root.root, root.rootPath, members.insertionSort WorkspaceMember.le⟩

/-- `Workspace::discover_bounded` -/
def discoverBounded (projectDir : OsPath) (maxCandidates maxExpansionSteps : Nat) :
    Except DiscoveryFailure Workspace := do
  let root ← (readRoot codec tree projectDir).mapError .refused
  let patterns ← (workspacePatterns (root.root.extra.get? "workspaces")).mapError fun message =>
    .refused (discoveryError message)
  let paths ← discoverPaths tree root.projectDir patterns maxCandidates maxExpansionSteps
  (readMembers codec tree root paths).mapError .refused

/-- `usize::MAX` -/
def usizeMax : Nat := 2 ^ 64 - 1

/-- `Workspace::discover_typed` -/
def discoverTyped (projectDir : OsPath) : Except DiscoveryFailure Workspace :=
  discoverBounded codec tree projectDir usizeMax usizeMax

end Discovery

end Tapid
