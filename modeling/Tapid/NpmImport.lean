/-
Imported npm lockfiles.

An imported lockfile keeps the npm document and, beside it, evidence: digests
of member manifests, of verified trees, and receipts that tie a tree to the
artifact it was made from.  Documents are read strictly: a repeated field is
refused, and objects are kept with their fields in order.

* `Json.strict` — the strict reading of a document;
* `ImportedNpmLockfile.importNpm`, `ImportedNpmLockfile.fromJson`,
  `ImportedNpmLockfile.toJson` — where such a lockfile comes from and goes;
* `ImportedNpmLockfile.call` — the operations that record evidence.
-/
import Tapid.NpmGraph

namespace Tapid

open Text Fallible

namespace Json

/-! ### Strict documents -/

mutual

/-- Objects with their fields in order; a repeated field is refused. -/
def strict : Json → Except String Json
  | null => .ok null
  | bool b => .ok (bool b)
  | int n => .ok (int n)
  | float text => .ok (float text)
  | str s => .ok (str s)
  | arr items => do return arr (← strictItems items)
  | obj fields => do return obj (← strictFields ∅ fields).entries

def strictItems : List Json → Except String (List Json)
  | [] => .ok []
  | item :: items => do
    let item ← strict item
    return item :: (← strictItems items)

def strictFields (values : JsonMap) : List (String × Json) → Except String JsonMap
  | [] => .ok values
  | (key, value) :: fields =>
    if values.contains key then .error ("duplicate JSON field " ++ key)
    else do
      let value ← strict value
      strictFields (values.insert key value) fields

end

/-- The two zeros are equal numbers. -/
def isZero (text : String) : Bool := text == "0.0" || text == "-0.0"

mutual

/-- Equality of documents with ordered fields. -/
def same : Json → Json → Bool
  | null, null => true
  | bool a, bool b => a == b
  | int a, int b => a == b
  | float a, float b => a == b || (isZero a && isZero b)
  | str a, str b => a == b
  | arr a, arr b => sameItems a b
  | obj a, obj b => sameFields a b
  | _, _ => false

def sameItems : List Json → List Json → Bool
  | [], [] => true
  | a :: as, b :: bs => same a b && sameItems as bs
  | _, _ => false

def sameFields : List (String × Json) → List (String × Json) → Bool
  | [], [] => true
  | (k, a) :: as, (l, b) :: bs => k == l && same a b && sameFields as bs
  | _, _ => false

end

end Json

namespace Npm

/-! ### Command entries of a manifest -/

/-- Components of a path. -/
inductive Component where
  | rootDir
  | curDir
  | parentDir
  | normal (name : List Char)
  deriving DecidableEq

/-- Path components; empty ones and inner dots are dropped. -/
def pathComponents (path : List Char) : List Component :=
  let parts := path.splitOn '/'
  let start := if path.head? = some '/' then [Component.rootDir]
    else if parts.head? = some ['.'] then [Component.curDir] else []
  start ++ (parts.filter fun part => part ≠ [] ∧ part ≠ ['.']).map fun part =>
    if part = ['.', '.'] then .parentDir else .normal part

def validCommand (command : List Char) : Bool :=
  command ≠ [] && command ≠ ['.'] && command ≠ ['.', '.'] &&
    !command.any fun c => c == '/' || c == '\\' || c == '\x00' || isControl c

/-- A drive letter and a colon. -/
def windowsDrive : List Char → Bool
  | c :: ':' :: _ => c.isAlpha
  | _ => false

def validTarget (target : List Char) : Bool :=
  target ≠ [] && !(target.any fun c => c == '\x00' || c == '\\') && !windowsDrive target &&
    !startsWith ['/', '/'] target && target.head? ≠ some '/' &&
    (pathComponents target).all fun c => c ≠ .parentDir && c ≠ .rootDir

/-- Removes leading current directories. -/
def trimCurDir : List Char → List Char
  | '.' :: '/' :: rest => trimCurDir rest
  | s => s

/-- A command and the path it runs; paths are compared by their components. -/
structure BinTarget where
  command : String
  target : List Component
  deriving DecidableEq

structure PackageBin where
  packageName : PackageName
  targets : List BinTarget
  deriving DecidableEq

def readBinEntry (e : String × Json) : Except ManifestError (String × String) := do
  return (e.1, ← orError e.2.asStr (.expectedBinString e.1))

/-- The entries of a `bin` field; a single text is a command named like the
package. -/
def binEntries (value : Json) (name : PackageName) : Except ManifestError (List (String × String)) :=
  match value with
  | .str target => .ok [(String.ofList ((name.text.toList.splitOn '/').getLastD []), target)]
  | .obj [] => .error .invalidBinValue
  | .obj fields => (OrdMap.ofList fields).entries.mapM readBinEntry
  | _ => .error .invalidBinValue

def readBinTarget (e : String × String) : Except ManifestError BinTarget := do
  rejectIf (!validCommand e.1.toList || !validTarget e.2.toList) (.invalidBin e.1 e.2)
  return ⟨e.1, pathComponents (trimCurDir e.2.toList)⟩

def parseBin (value : Json) (name : PackageName) : Except ManifestError PackageBin := do
  let entries ← binEntries value name
  let targets ← entries.mapM readBinTarget
  return ⟨name, targets.mergeSort fun a b => a.command ≤ b.command⟩

/-- The commands of a manifest that has nothing but a name, a version and a
`bin` field. -/
def manifestBin (name version : Option Json) (bin : Json) : Except ManifestError PackageBin := do
  let name ← orError (name.bind Json.asStr) (.requiredString "name")
  let version ← orError (version.bind Json.asStr) (.requiredString "version")
  let name ← (PackageName.parse name).mapError .invalidPackageName
  let _ ← (PackageVersion.fromStr version).mapError .invalidPackageVersion
  parseBin bin name

/-- A field that is present and not an empty object. -/
def nonempty (entry : JsonMap) (field : String) : Option Json :=
  (entry.get? field).filter fun v => !(v.asObject.any OrdMap.isEmpty)

def normalizedBin (entry : JsonMap) (path : String) : Except ImportError (Option PackageBin) :=
  match nonempty entry "bin" with
  | none => .ok none
  | some bin => do
    let _ ← expect (entry.get? "name") "no entry found for key"
    let _ ← expect (entry.get? "version") "no entry found for key"
    let bin ← (manifestBin (entry.get? "name") (entry.get? "version") bin).mapError fun e =>
      ⟨pointer "/packages" path, path, "bin", .manifest e⟩
    return some bin

/-! ### Matching manifests -/

def sameField : Option Json → Option Json → Bool
  | none, none => true
  | some a, some b => a.same b
  | _, _ => false

def validateManifestEntry (selected manifest : JsonMap) (fields : List String) (loc identity : String) :
    Except ImportError Unit :=
  checkAll (fun field => rejectIf (!sameField (nonempty selected field) (nonempty manifest field))
    (error loc identity field
      "does not match package.json; regenerate package-lock.json with npm before importing")) fields

/-- Fields in which the root entry matches the root manifest. -/
def rootManifestFields : List String := ["dependencies", "devDependencies", "optionalDependencies",
  "peerDependencies", "peerDependenciesMeta", "workspaces"]

/-- Fields in which a member entry matches the member's manifest. -/
def memberManifestFields : List String := ["name", "version", "dependencies", "devDependencies",
  "optionalDependencies", "peerDependencies", "peerDependenciesMeta"]

variable (url : UrlParser) (codec : JsonCodec)

/-- The strict reading of a text. -/
def json (input : String) : Except ImportError Json :=
  (codec.decode input >>= Json.strict).mapError fun e => ⟨"/", "root", "JSON", .json e⟩

def validateManifestFields (npmLock : Json) (manifest : String) : Except ImportError Unit := do
  let manifest ← json codec manifest
  let root ← expect (((npmLock.get "packages").bind fun packages => packages.get "").bind Json.asObject)
    "validated root"
  let manifest ← object manifest "/package.json" "root"
  validateManifestEntry root manifest rootManifestFields "/packages/" "root"

def parseDigest (loc path field digest : String) : Except ImportError ArtifactDigest :=
  (ArtifactDigest.parse digest).mapError fun e => ⟨loc, path, field, .domain e⟩

/-- The digest of a member manifest that matches its entry. -/
def validateManifest (graph : ImportedNpmGraph) (e : String × String × String) :
    Except ImportError (String × String) := do
  let path := e.1
  let current ← json codec e.2.1
  let current ← object current (pointer "/packages" path) path
  let selected ← expect (graph.workspaces.get? path) "validated member"
  validateManifestEntry selected current memberManifestFields (pointer "/packages" path) path
  let selectedBin ← normalizedBin selected path
  let currentBin ← normalizedBin current path
  rejectIf (selectedBin ≠ currentBin) (error (pointer "/packages" path) path "bin"
    "does not match package.json; regenerate package-lock.json with npm before importing")
  let _ ← parseDigest "/workspaceManifestDigests" path "digest" e.2.2
  return (path, e.2.2)

def validateManifests (graph : ImportedNpmGraph) (manifests : OrdMap String (String × String)) :
    Except ImportError (OrdMap String String) := do
  rejectIf (graph.workspaces.keys ≠ manifests.keys) (error "/packages" "root" "workspaces"
    "local targets do not match discovered workspace membership")
  let digests ← manifests.entries.mapM (validateManifest codec graph)
  return OrdMap.ofList digests

/-! ### The lockfile -/

/-- The artifact a verified tree was produced from. -/
structure ImportedNpmArtifactReceipt where
  treeDigest : String
  resolved : String
  integrity : String
  deriving DecidableEq

/-- An npm document and the evidence recorded for it. -/
structure ImportedNpmLockfile where
  lockfileVersion : Nat
  rootManifestDigest : String
  npmLock : Json
  workspaceManifestDigests : OrdMap String String := ∅
  verifiedTrees : OrdMap String String := ∅
  verifiedArtifacts : OrdMap String ImportedNpmArtifactReceipt := ∅

open Json

namespace ImportedNpmArtifactReceipt

def names : List String := ["treeDigest", "resolved", "integrity"]

/-- Fields in document order. -/
def fields (r : ImportedNpmArtifactReceipt) : List (String × Option Json) := [
  ("treeDigest", some (str r.treeDigest)),
  ("resolved", some (str r.resolved)),
  ("integrity", some (str r.integrity))]

def toValue (r : ImportedNpmArtifactReceipt) : Json := record r.fields

/-- Unknown fields are denied. -/
def ofValue (j : Json) : Except String ImportedNpmArtifactReceipt := do
  let fields ← structFields names j
  rejectIf (fields.any fun e => !names.elem e.1) "unknown field"
  return {
    treeDigest := ← required readString fields "treeDigest"
    resolved := ← required readString fields "resolved"
    integrity := ← required readString fields "integrity" }

end ImportedNpmArtifactReceipt

namespace ImportedNpmLockfile

def names : List String := ["lockfileVersion", "rootManifestDigest", "npmLock",
  "workspaceManifestDigests", "verifiedTrees", "verifiedArtifacts"]

/-- Fields in document order, `none` where skipped. -/
def fields (l : ImportedNpmLockfile) : List (String × Option Json) := [
  ("lockfileVersion", some (int l.lockfileVersion)),
  ("rootManifestDigest", some (str l.rootManifestDigest)),
  ("npmLock", some l.npmLock),
  ("workspaceManifestDigests",
    skipIf l.workspaceManifestDigests.isEmpty (writeMap str l.workspaceManifestDigests)),
  ("verifiedTrees", skipIf l.verifiedTrees.isEmpty (writeMap str l.verifiedTrees)),
  ("verifiedArtifacts", skipIf l.verifiedArtifacts.isEmpty
    (writeMap ImportedNpmArtifactReceipt.toValue l.verifiedArtifacts))]

def toValue (l : ImportedNpmLockfile) : Json := record l.fields

/-- Unknown fields are denied. -/
def ofValue (j : Json) : Except String ImportedNpmLockfile := do
  let fields ← structFields names j
  rejectIf (fields.any fun e => !names.elem e.1) "unknown field"
  return {
    lockfileVersion := ← required readU32 fields "lockfileVersion"
    rootManifestDigest := ← required readString fields "rootManifestDigest"
    npmLock := ← required (fun j => .ok j) fields "npmLock"
    workspaceManifestDigests := ← defaulted ∅ (readMap readString) fields "workspaceManifestDigests"
    verifiedTrees := ← defaulted ∅ (readMap readString) fields "verifiedTrees"
    verifiedArtifacts :=
      ← defaulted ∅ (readMap ImportedNpmArtifactReceipt.ofValue) fields "verifiedArtifacts" }

/-- The placement graph; the source computes it once and keeps it. -/
def graph (l : ImportedNpmLockfile) : Except ImportError ImportedNpmGraph := Npm.graph url l.npmLock

/-- Migration of an npm lockfile. -/
def importNpm (input manifest digest : String) : Except ImportError ImportedNpmLockfile := do
  let npmLock ← json codec input
  let _ ← Npm.graph url npmLock
  validateManifestFields codec npmLock manifest
  let digest ← parseDigest "/rootManifestDigest" "root" "digest" digest
  return { lockfileVersion := 8, rootManifestDigest := digest.text, npmLock }

def checkWorkspaceDigest (graph : ImportedNpmGraph) (e : String × String) : Except ImportError Unit := do
  rejectIf (graph.workspaces.contains e.1 = false)
    (error "/workspaceManifestDigests" e.1 "path" "unknown workspace source")
  let _ ← parseDigest "/workspaceManifestDigests" e.1 "digest" e.2

/-- A tree digest in canonical form. -/
def checkTree (graph : ImportedNpmGraph) (e : String × String) : Except ImportError (String × String) := do
  rejectIf (graph.packages.contains e.1 = false)
    (error "/verifiedTrees" e.1 "path" "unknown package placement")
  let digest ← parseDigest "/verifiedTrees" e.1 "digest" e.2
  return (e.1, digest.text)

/-- A receipt repeats the recorded tree and the selected artifact. -/
def checkReceipt (graph : ImportedNpmGraph) (trees : OrdMap String String)
    (e : String × ImportedNpmArtifactReceipt) :
    Except ImportError (String × ImportedNpmArtifactReceipt) := do
  let package ← orError (graph.packages.get? e.1)
    (error "/verifiedArtifacts" e.1 "path" "unknown package placement")
  let _ ← parseDigest "/verifiedArtifacts" e.1 "treeDigest" e.2.treeDigest
  let _ ← (PackageIntegrity.parse e.2.integrity).mapError fun err =>
    ⟨"/verifiedArtifacts", e.1, "integrity", .domain err⟩
  rejectIf (trees.get? e.1 ≠ some e.2.treeDigest ∨ e.2.resolved ≠ package.resolved ∨
      e.2.integrity ≠ package.integrity.text)
    (error "/verifiedArtifacts" e.1 "receipt" "does not match the imported artifact selection")
  return e

/-- What is checked of a lockfile that was read. -/
def validate (l : ImportedNpmLockfile) : Except ImportError Unit := do
  rejectIf (l.lockfileVersion ≠ 8)
    (error "/lockfileVersion" "root" "lockfileVersion" "expected imported Tapid schema 8")
  let _ ← parseDigest "/rootManifestDigest" "root" "digest" l.rootManifestDigest
  let graph ← l.graph url
  checkAll (checkWorkspaceDigest graph) l.workspaceManifestDigests.entries
  let _ ← l.verifiedTrees.entries.mapM (checkTree graph)
  let _ ← l.verifiedArtifacts.entries.mapM (checkReceipt graph l.verifiedTrees)

def fromJson (input : String) : Except ImportError ImportedNpmLockfile := do
  let value ← json codec input
  let l ← (ofValue value).mapError fun e => ⟨"/", "root", "JSON", .json e⟩
  l.validate url
  return l

def toJson (l : ImportedNpmLockfile) : Except ImportError String :=
  .ok (codec.encode l.toValue ++ "\n")

/-! ### Evidence -/

def bindWorkspaceManifests (l : ImportedNpmLockfile) (manifests : OrdMap String (String × String)) :
    Except ImportError ImportedNpmLockfile := do
  let graph ← l.graph url
  let digests ← validateManifests codec graph manifests
  return { l with workspaceManifestDigests := digests }

def recordVerifiedTrees (l : ImportedNpmLockfile) (trees : OrdMap String String) :
    Except ImportError ImportedNpmLockfile := do
  let graph ← l.graph url
  let validated ← trees.entries.mapM (checkTree graph)
  return { l with verifiedTrees := l.verifiedTrees.insertAll validated }

def recordVerifiedArtifacts (l : ImportedNpmLockfile)
    (receipts : OrdMap String ImportedNpmArtifactReceipt) : Except ImportError ImportedNpmLockfile := do
  let graph ← l.graph url
  let validated ← receipts.entries.mapM (checkReceipt graph l.verifiedTrees)
  return { l with verifiedArtifacts := l.verifiedArtifacts.insertAll validated }

inductive Call where
  | bindWorkspaceManifests (manifests : OrdMap String (String × String))
  | recordVerifiedTrees (trees : OrdMap String String)
  | recordVerifiedArtifacts (receipts : OrdMap String ImportedNpmArtifactReceipt)

def call (l : ImportedNpmLockfile) : Call → Except ImportError ImportedNpmLockfile
  | .bindWorkspaceManifests manifests => l.bindWorkspaceManifests url codec manifests
  | .recordVerifiedTrees trees => l.recordVerifiedTrees url trees
  | .recordVerifiedArtifacts receipts => l.recordVerifiedArtifacts url receipts

end ImportedNpmLockfile

end Npm

end Tapid
