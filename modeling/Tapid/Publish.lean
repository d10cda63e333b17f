/-
Packing and inspecting package sources.

The files of a source directory are collected, less those that are excluded, and
sorted by their paths.  Packing writes the version and then path and content of
every file, each with its length in front; inspection reads the files and keeps
their sizes and digests.  Both count what is or would be written against the
limits, each in its own way.  Which operation failed, and how, is left out of `io`
errors; the key by which paths collide is a parameter.

* `SourceTree`, `collectFiles` — what is read of a directory;
* `normalizePath`, `ExclusionRules.excludes` — paths;
* `pack`, `inspectSource` — the two readings.
-/
import Tapid.ByteFrame
import Tapid.LexicalPath
import Tapid.OsPath

namespace Tapid

open Fallible

namespace Publish

/-! ### Sources -/

structure PackLimits where
  maxFiles : Nat
  maxFileBytes : UInt64
  maxArtifactBytes : UInt64
  deriving DecidableEq

/-- `underflow` is the arithmetic panic of a subtraction. -/
inductive PublishError where
  | io
  | unsafePath (path : String)
  | invalidSource (message : String)
  | limitExceeded (limit : String)
  | underflow
  deriving DecidableEq

/-- What `symlink_metadata` tells of an entry. -/
inductive EntryKind where
  | file
  | directory
  | other
  deriving DecidableEq

/-- A file as it is read: it may not open, its length may not be told, and what
is read may fail and need not have the length that is told. -/
structure SourceFile where
  opens : Bool
  length : Option Nat
  content : Option (List UInt8)
  deriving DecidableEq

/-- A directory tree that answers alike each time; paths are relative to the root.
An entry of a directory may fail to be read. -/
structure SourceTree where
  isDir : Bool
  readDir : List OsName → Option (List (Option OsName))
  kind : List OsName → Option EntryKind
  file : List OsName → SourceFile

structure ExclusionRules where
  exact : OrdSet String
  prefixes : OrdSet String

structure PackageSource where
  tree : SourceTree
  version : String
  exclusions : ExclusionRules
  limits : PackLimits

/-! ### Paths -/

/-- `str::len`. -/
def byteLength (s : String) : Nat := (utf8Bytes s.toList).length

/-- `Path::to_string_lossy`, of a relative path. -/
def lossyText (path : List OsName) : String :=
  "/".intercalate (path.map fun name => String.ofList (Bytes.fromUtf8Lossy name.bytes))

/-- `Path::is_absolute`. -/
def isAbsolute : LexicalPath.Rules → List LexicalPath.Component → Bool
  | .unix, .rootDir :: _ => true
  | .windows, .volume _ :: .rootDir :: _ => true
  | _, _ => false

/-- One component of a path; only names may stand in it. -/
def pushComponent (raw : String) (out : List (List Char)) :
    LexicalPath.Component → Except PublishError (List (List Char))
  | .normal name => .ok (out ++ [name])
  | .curDir => .ok out
  | .parentDir | .rootDir | .volume _ => .error (.unsafePath raw)

def normalizePath (rules : LexicalPath.Rules) (raw : String) : Except PublishError String := do
  rejectIf (raw = "" ∨ Char.ofNat 0 ∈ raw.toList) (.unsafePath raw)
  let raw := String.ofList (raw.toList.map fun c => if c = '\\' then '/' else c)
  let path := LexicalPath.components rules raw.toList
  rejectIf (isAbsolute rules path = true) (.unsafePath raw)
  let out ← path.foldlM (pushComponent raw) []
  rejectIf (out = []) (.unsafePath raw)
  return String.ofList (['/'].intercalate out)

namespace ExclusionRules

/-- `ExclusionRules::matches`. -/
def excludes (rules : ExclusionRules) (path : String) : Bool :=
  path ∈ rules.exact || rules.prefixes.elems.any fun start => path == start || (start ++ "/").isPrefixOf path

/-- Explicit exclusions and the built-in ones. -/
def skips (rules : ExclusionRules) (path : String) : Bool :=
  rules.excludes path || path == ".git" || path == "target" || ".git/".isPrefixOf path || "target/".isPrefixOf path

end ExclusionRules

/-! ### Collecting files -/

/-- A file that is packed: its path in the package and in the tree. -/
structure SourcePath where
  path : String
  full : List OsName
  deriving DecidableEq

section Collect

variable (system : LexicalPath.Rules) (source : PackageSource)

/-- One entry of a directory. -/
def collectEntry (descend : List OsName → List SourcePath → Except PublishError (List SourcePath))
    (dir : List OsName) (out : List SourcePath) (entry : Option OsName) : Except PublishError (List SourcePath) := do
  let name ← orError entry .io
  let full := dir ++ [name]
  let rel ← normalizePath system (lossyText full)
  rejectIf (4096 < byteLength rel) (.limitExceeded "path bytes")
  if source.exclusions.skips rel then return out
  else
    match source.tree.kind full with
    | none => .error .io
    | some .other => .error (.unsafePath rel)
    | some .directory => descend full out
    | some .file =>
      if source.limits.maxFiles ≤ out.length then .error (.limitExceeded "file count")
      else return out ++ [⟨rel, full⟩]

/-- The files of a directory, with the depth that is left. -/
def collectFiles : Nat → List OsName → List SourcePath → Except PublishError (List SourcePath)
  | 0, _, _ => .error (.limitExceeded "directory depth")
  | left + 1, dir, out =>
    match source.tree.readDir dir with
    | none => .error .io
    | some entries => entries.foldlM (collectEntry system source (collectFiles left) dir) out

/-- The root and 128 directories below it. -/
def maxDepth : Nat := 129

variable (collisionKey : String → String)

/-- Paths whose keys are seen already are refused. -/
def checkCollision (seen : OrdSet String) (found : SourcePath) : Except PublishError (OrdSet String) :=
  if collisionKey found.path ∈ seen then .error (.unsafePath found.path)
  else .ok (seen.insert (collisionKey found.path))

/-- By path, and then by where the file is. -/
def SourcePath.key (found : SourcePath) : String ×ₗ List OsName := toLex (found.path, found.full)

def normalizedSourcePaths : Except PublishError (List SourcePath) := do
  rejectIf (source.tree.isDir = false) (.invalidSource "package root must be a directory")
  let paths ← collectFiles system source maxDepth [] []
  let paths := paths.insertionSort fun a b => a.key ≤ b.key
  let _ ← paths.foldlM (checkCollision collisionKey) ∅
  return paths

end Collect

/-! ### Packing and inspecting -/

def packMagic : List UInt8 := utf8Bytes "TAPID-PACK-1\n".toList

/-- Sizes are 64-bit numbers. -/
def checkArtifactSize (current added : Nat) (limits : PackLimits) : Except PublishError Nat :=
  if current + added < 2 ^ 64 ∧ current + added ≤ limits.maxArtifactBytes.toNat then .ok (current + added)
  else .error (.limitExceeded "artifact bytes")

def saturatingAdd (a b : Nat) : Nat := min (a + b) (2 ^ 64 - 1)

/-- A subtraction of 64-bit numbers. -/
def checkedSub (a b : Nat) : Except PublishError Nat := if a < b then .error .underflow else .ok (a - b)

structure ManifestFile where
  path : String
  size : Nat
  digest : String
  deriving DecidableEq

structure NormalizedFileManifest where
  version : String
  files : List ManifestFile
  deriving DecidableEq

structure PackedArtifact where
  version : String
  bytes : List UInt8
  digest : String
  manifest : NormalizedFileManifest
  deriving DecidableEq

/-- A file is read up to one byte more than it may have. -/
def readSourceFile (file : SourceFile) (maximum : Nat) (bytes : List UInt8) : Except PublishError (List UInt8) := do
  rejectIf (file.opens = false) .io
  let length ← orError file.length .io
  rejectIf (maximum < length) (.limitExceeded "file bytes")
  let content ← orError file.content .io
  let read := bytes ++ content.take (saturatingAdd maximum 1)
  rejectIf (maximum < read.length - bytes.length) (.limitExceeded "file bytes")
  return read

section Pack

variable (digestBytes : List UInt8 → String) (source : PackageSource)

/-- One file after the others. -/
def packFile (state : List UInt8 × List ManifestFile) (found : SourcePath) :
    Except PublishError (List UInt8 × List ManifestFile) := do
  let (bytes, files) := state
  let framing := saturatingAdd 16 (byteLength found.path)
  let _ ← checkArtifactSize bytes.length framing source.limits
  let bytes := bytes ++ Bytes.field (utf8Bytes found.path.toList)
  let sizeOffset := bytes.length
  let bytes := bytes ++ Bytes.leBytes 8 0
  let start := bytes.length
  let room ← checkedSub source.limits.maxArtifactBytes.toNat start
  let maximum := min source.limits.maxFileBytes.toNat room
  let bytes ← readSourceFile (source.tree.file found.full) maximum bytes
  let size := bytes.length - start
  let bytes := Bytes.put bytes sizeOffset (Bytes.leBytes 8 size)
  return (bytes, files ++ [⟨found.path, size, digestBytes (bytes.drop start)⟩])

/-- One file after the others; what is hashed is what is read. -/
def inspectFile (state : Nat × List ManifestFile) (found : SourcePath) :
    Except PublishError (Nat × List ManifestFile) := do
  let (total, files) := state
  let file := source.tree.file found.full
  rejectIf (file.opens = false) .io
  let total ← checkArtifactSize total (saturatingAdd 16 (byteLength found.path)) source.limits
  let room ← checkedSub source.limits.maxArtifactBytes.toNat total
  let maximum := min source.limits.maxFileBytes.toNat room
  let length ← orError file.length .io
  rejectIf (maximum < length) (.limitExceeded "file bytes")
  let content ← orError file.content .io
  rejectIf (maximum < content.length) (.limitExceeded "file bytes")
  let total ← checkArtifactSize total content.length source.limits
  return (total, files ++ [⟨found.path, content.length, digestBytes content⟩])

variable (system : LexicalPath.Rules) (collisionKey : String → String)

def pack : Except PublishError PackedArtifact := do
  let paths ← normalizedSourcePaths system source collisionKey
  let _ ← checkArtifactSize (packMagic.length + 8) (byteLength source.version) source.limits
  let start := packMagic ++ Bytes.field (utf8Bytes source.version.toList)
  let (bytes, files) ← paths.foldlM (packFile digestBytes source) (start, [])
  return ⟨source.version, bytes, digestBytes bytes, ⟨source.version, files⟩⟩

def inspectSource : Except PublishError NormalizedFileManifest := do
  let paths ← normalizedSourcePaths system source collisionKey
  let total ← checkArtifactSize (packMagic.length + 8) (byteLength source.version) source.limits
  let (_, files) ← paths.foldlM (inspectFile digestBytes source) (total, [])
  return ⟨source.version, files⟩

end Pack

end Publish

end Tapid
