/-
Planning of launchers.

Every command of an installed package gets a launcher in the `.bin` directory
beside the package.  The planner joins the path a manifest declares onto the
directory of the package, looks at the file that is there, and keeps the paths
it plans inside the managed root.  Paths are sequences of components under the
rules of the running system; the file system is a parameter.

* `planShims`, `planShimsWithWorkspacePackages` — the two planners;
* `shimOutputs`, `shimTargetKey` — the files of a launcher and what identifies
  them.
-/
import Tapid.LexicalPath
import Tapid.Bytes
import Tapid.Manifest
import Tapid.Layout

namespace Tapid

open Text Fallible
open Npm (ManifestError)

namespace Shims

open LexicalPath

/-! ### Paths -/

/-- A path by its components. -/
abbrev LexPath := List Component

/-- Volumes are the same in both cases. -/
def upperVolume : Component → Component
  | .volume text => .volume (text.map Char.toUpper)
  | c => c

/-- A server and a share behind two separators, and the parts below them. -/
def splitShare (rules : Rules) : List Char → Option (List Char × List Char × List (List Char))
  | c :: d :: rest =>
    if rules = .windows ∧ rules.isSeparator c ∧ rules.isSeparator d then
      match rest.splitOnP rules.isSeparator with
      | server :: share :: parts => if server = [] ∨ share = [] then none else some (server, share, parts)
      | _ => none
    else none
  | _ => none

/-- `Path::components` of a text. -/
def pathComponents (rules : Rules) (s : List Char) : LexPath :=
  match splitShare rules s with
  | some (server, share, parts) =>
    .volume (server ++ '\\' :: share) :: .rootDir :: parts.filterMap partComponent
  | none => (components rules s).map upperVolume

/-- `Path::join`. -/
def join (rules : Rules) (base : LexPath) (s : List Char) : LexPath := push base (pathComponents rules s)

def isAbsolute (rules : Rules) (path : LexPath) : Bool :=
  match rules, path with
  | .unix, .rootDir :: _ => true
  | .windows, .volume _ :: .rootDir :: _ => true
  | _, _ => false

/-- The text of a component. -/
def componentText : Component → List Char
  | .volume text => text
  | .rootDir => []
  | .curDir => ['.']
  | .parentDir => ['.', '.']
  | .normal name => name

/-- The text of a path. -/
def render (rules : Rules) (path : LexPath) : List Char :=
  [if rules = .windows then '\\' else '/'].intercalate (path.map componentText)

/-- The stem of a file name: a leading dot does not end it. -/
def fileStem (name : List Char) : List Char :=
  match rsplitOnce '.' name with
  | some ([], _) => name
  | some (stem, _) => stem
  | none => name

def withExtension (path : LexPath) (extension : String) : LexPath :=
  match path.getLast? with
  | some (.normal name) => path.dropLast ++ [.normal (fileStem name ++ '.' :: extension.toList)]
  | _ => path

/-- A managed directory. -/
structure ManagedRoot (rules : Rules) where
  path : LexPath
  absolute : isAbsolute rules path = true
  noParent : .parentDir ∉ path

def ManagedRoot.contains {rules : Rules} (root : ManagedRoot rules) (candidate : LexPath) : Bool :=
  isAbsolute rules candidate && !candidate.elem .parentDir && root.path.isPrefixOf candidate

/-! ### Requests and plans -/

structure ShimPackage where
  treeRoot : LexPath
  packageJson : String
  binDir : LexPath

structure WorkspaceShimPackage where
  treeRoot : LexPath
  packageJson : String
  linkRoot : LexPath
  binDir : LexPath

inductive ShimStrategy where
  | unixSymlink
  | windowsCmdAndPowerShell
  deriving DecidableEq

inductive ShimInterpreter where
  | direct
  | node
  deriving DecidableEq

structure ShimEntry where
  command : String
  source : LexPath
  target : LexPath
  strategy : ShimStrategy
  interpreter : ShimInterpreter
  deriving DecidableEq

/-- What package metadata is refused for. -/
inductive MetadataError where
  | manifest (error : ManifestError)
  | shebangTooLong
  | unsupportedInterpreter
  | notExecutable
  deriving DecidableEq

inductive PlanError where
  | pathOutsideManagedRoot (path : LexPath)
  | unsupportedPlatform (platform : Platform)
  | invalidPackageMetadata (path : LexPath) (error : MetadataError)
  | binTargetMissing (path : LexPath)
  | binTargetNotRegular (path : LexPath)
  | shimCollision (path : LexPath)
  deriving DecidableEq

structure ShimPlan (rules : Rules) where
  managedRoot : ManagedRoot rules
  entries : List ShimEntry

/-! ### Files -/

/-- What `symlink_metadata` says about a path. -/
inductive FileStatus where
  | missing
  | unreadable
  | symlink
  | regular (mode : Nat)
  | other
  deriving DecidableEq

/-- The files of the running system. -/
structure Files where
  status : LexPath → FileStatus
  canonicalize : LexPath → Option LexPath
  /-- At most the first 512 bytes. -/
  firstBytes : LexPath → Option (List UInt8)

def isAsciiWhitespace (c : Char) : Bool :=
  c == ' ' || c == '\t' || c == '\n' || c == '\x0c' || c == '\r'

def asciiWords (s : List Char) : List (List Char) := (s.splitOnP isAsciiWhitespace).filter (· ≠ [])

/-- The interpreter lines that stand for Node. -/
def nodeLines : List (List String) :=
  [["node"], ["node.exe"], ["/usr/bin/node"], ["/usr/bin/node.exe"], ["/usr/bin/env", "node"],
    ["/usr/bin/env", "node.exe"]]

def shimInterpreter (files : Files) (source : LexPath) (platform : Platform) :
    Except PlanError ShimInterpreter :=
  if platform ≠ .windows then .ok .direct
  else do
    let start ← orError (files.firstBytes source) (PlanError.binTargetMissing source)
    if start.take 2 ≠ [0x23, 0x21] then
      return .direct
    rejectIf (start.length = 512 ∧ 0x0A ∉ start) (PlanError.invalidPackageMetadata source .shebangTooLong)
    let line := (start.takeWhile (· ≠ 0x0A)).drop 2
    let words := asciiWords ((String.fromUTF8? line.toByteArray).getD "").toList
    if words ∈ nodeLines.map (·.map String.toList) then
      return .node
    throw (.invalidPackageMetadata source .unsupportedInterpreter)

/-! ### Outputs -/

inductive ShimKey where
  | bytes (text : List UInt8)
  | utf16 (units : List UInt16)
  deriving DecidableEq

/-- `encode_utf16`. -/
def utf16Units (c : Char) : List UInt16 :=
  if c.toNat < 0x10000 then [UInt16.ofNat c.toNat]
  else [UInt16.ofNat (0xD800 + (c.toNat - 0x10000) / 0x400), UInt16.ofNat (0xDC00 + (c.toNat - 0x10000) % 0x400)]

section Planning

-- `char::to_uppercase`, the table of the Unicode standard
variable (toUppercase : Char → List Char)

/-- The upper case of a unit that is a character with a single one in the same
plane. -/
def upperUnit (unit : UInt16) : UInt16 :=
  if 0xD800 ≤ unit.toNat ∧ unit.toNat < 0xE000 then unit
  else
    match toUppercase (Char.ofNat unit.toNat) with
    | [mapped] => if mapped.toNat < 0x10000 then UInt16.ofNat mapped.toNat else unit
    | _ => unit

variable {rules : Rules}

def shimTargetKey (rules : Rules) (path : LexPath) : ShimStrategy → ShimKey
  | .windowsCmdAndPowerShell => .utf16 (((render rules path).flatMap utf16Units).map (upperUnit toUppercase))
  | .unixSymlink => .bytes (utf8Bytes (render rules path))

/-- The files of a launcher. -/
def shimOutputs (path : LexPath) : ShimStrategy → List LexPath
  | .windowsCmdAndPowerShell => ["cmd", "ps1"].map (withExtension path)
  | .unixSymlink => [path]

def shimOutputKeys (rules : Rules) (path : LexPath) (strategy : ShimStrategy) : List ShimKey :=
  (shimOutputs path strategy).map fun output => shimTargetKey toUppercase rules output strategy

/-- Keys are reserved one by one. -/
def reserveKeys (target : LexPath) : List ShimKey → List ShimKey → Except PlanError (List ShimKey)
  | [], outputs => .ok outputs
  | key :: keys, outputs => do
    rejectIf (key ∈ outputs) (PlanError.shimCollision target)
    reserveKeys target keys (key :: outputs)

def reserveShimOutputs (rules : Rules) (outputs : List ShimKey) (target : LexPath) (strategy : ShimStrategy) :
    Except PlanError (List ShimKey) :=
  reserveKeys target (shimOutputKeys toUppercase rules target strategy) outputs

/-! ### Planning -/

/-- Entries and reserved outputs so far. -/
structure ShimState where
  entries : List ShimEntry
  outputs : List ShimKey

def strategyOf : Platform → Except PlanError ShimStrategy
  | .unix => .ok .unixSymlink
  | .windows => .ok .windowsCmdAndPowerShell
  | .other => .error (.unsupportedPlatform .other)

/-- Components in their order: kinds first, then the bytes of the text. -/
def componentRank : Component → Nat
  | .volume _ => 0
  | .rootDir => 1
  | .curDir => 2
  | .parentDir => 3
  | .normal _ => 4

def pathRank (path : LexPath) : List (List Nat) :=
  path.map fun c => componentRank c :: (utf8Bytes (componentText c)).map UInt8.toNat

/-- Entries by target and source. -/
def sortEntries (entries : List ShimEntry) : List ShimEntry :=
  entries.mergeSort fun a b =>
    pathRank a.target < pathRank b.target ∨
      (pathRank a.target = pathRank b.target ∧ pathRank a.source ≤ pathRank b.source)

variable (codec : JsonCodec) (files : Files) (root : ManagedRoot rules) (platform : Platform)

/-- Adds an entry after its outputs were reserved. -/
def addEntry (rules : Rules) (strategy : ShimStrategy) (state : ShimState) (command : String) (source target inspected : LexPath) :
    Except PlanError ShimState := do
  let outputs ← reserveShimOutputs toUppercase rules state.outputs target strategy
  let interpreter ← shimInterpreter files inspected platform
  return ⟨state.entries ++ [⟨command, source, target, strategy, interpreter⟩], outputs⟩

/-- The body of the loop over the targets of an installed package. -/
def planTarget (strategy : ShimStrategy) (package : ShimPackage) (state : ShimState) (t : BinTarget) :
    Except PlanError ShimState := do
  let source := join rules package.treeRoot t.target.toList
  rejectIf (!root.contains source) (PlanError.pathOutsideManagedRoot source)
  match files.status source with
  | .missing => return state
  | .unreadable => throw (.binTargetMissing source)
  | .symlink => throw (.binTargetNotRegular source)
  | .other => throw (.binTargetNotRegular source)
  | .regular _ =>
    let target := join rules (join rules package.binDir ".bin".toList) t.command.toList
    rejectIf (!root.contains target) (PlanError.pathOutsideManagedRoot target)
    addEntry toUppercase files platform rules strategy state t.command source target source

def planPackage (strategy : ShimStrategy) (state : ShimState) (package : ShimPackage) :
    Except PlanError ShimState := do
  rejectIf (!isAbsolute rules package.treeRoot || package.treeRoot.elem .parentDir)
    (PlanError.pathOutsideManagedRoot package.treeRoot)
  rejectIf (!root.contains package.binDir) (PlanError.pathOutsideManagedRoot package.binDir)
  let manifest ← (PackageManifest.parse codec package.packageJson).mapError fun error =>
    PlanError.invalidPackageMetadata package.treeRoot (.manifest error)
  match manifest.bin with
  | none => return state
  | some bin => bin.targets.foldlM (planTarget toUppercase files root platform strategy package) state

def planShims (packages : List ShimPackage) : Except PlanError (ShimPlan rules) := do
  let strategy ← strategyOf platform
  let state ← packages.foldlM (planPackage toUppercase codec files root platform strategy) ⟨[], []⟩
  return ⟨root, sortEntries state.entries⟩

/-- The body of the loop over the targets of a workspace package: the file is
checked in the member itself, the launcher goes through the link. -/
def planWorkspaceTarget (workspaceRoot : LexPath) (strategy : ShimStrategy) (package : WorkspaceShimPackage)
    (state : ShimState) (t : BinTarget) : Except PlanError ShimState := do
  let validated := join rules package.treeRoot t.target.toList
  rejectIf (!package.treeRoot.isPrefixOf validated || validated.elem .parentDir ||
    !workspaceRoot.isPrefixOf validated) (PlanError.pathOutsideManagedRoot validated)
  match files.status validated with
  | .missing => return state
  | .unreadable => throw (.binTargetMissing validated)
  | .symlink => throw (.binTargetNotRegular validated)
  | .other => throw (.binTargetNotRegular validated)
  | .regular mode =>
    let canonical ← orError (files.canonicalize validated) (PlanError.binTargetMissing validated)
    rejectIf (!package.treeRoot.isPrefixOf canonical || !workspaceRoot.isPrefixOf canonical)
      (PlanError.pathOutsideManagedRoot canonical)
    rejectIf (rules = .unix ∧ platform = .unix ∧ mode &&& 0o111 = 0)
      (PlanError.invalidPackageMetadata validated .notExecutable)
    let source := join rules package.linkRoot t.target.toList
    let target := join rules (join rules package.binDir ".bin".toList) t.command.toList
    rejectIf (!root.contains source || !root.contains target) (PlanError.pathOutsideManagedRoot source)
    addEntry toUppercase files platform rules strategy state t.command source target validated

def planWorkspacePackage (workspaceRoot : LexPath) (strategy : ShimStrategy) (state : ShimState)
    (package : WorkspaceShimPackage) : Except PlanError ShimState := do
  rejectIf (!isAbsolute rules package.treeRoot || package.treeRoot.elem .parentDir ||
      package.treeRoot = workspaceRoot || !workspaceRoot.isPrefixOf package.treeRoot)
    (PlanError.pathOutsideManagedRoot package.treeRoot)
  rejectIf (!root.contains package.linkRoot || !root.contains package.binDir)
    (PlanError.pathOutsideManagedRoot package.linkRoot)
  let manifest ← (PackageManifest.parse codec package.packageJson).mapError fun error =>
    PlanError.invalidPackageMetadata package.treeRoot (.manifest error)
  match manifest.bin with
  | none => return state
  | some bin =>
    bin.targets.foldlM (planWorkspaceTarget toUppercase files root platform workspaceRoot strategy package) state

def planShimsWithWorkspacePackages (packages : List ShimPackage) (workspaceRoot : LexPath)
    (workspacePackages : List WorkspaceShimPackage) : Except PlanError (ShimPlan rules) := do
  let plan ← planShims toUppercase codec files root platform packages
  rejectIf (!isAbsolute rules workspaceRoot || workspaceRoot.elem .parentDir)
    (PlanError.pathOutsideManagedRoot workspaceRoot)
  let strategy ← strategyOf platform
  let outputs := plan.entries.flatMap fun entry => shimOutputKeys toUppercase rules entry.target strategy
  let state ← workspacePackages.foldlM
    (planWorkspacePackage toUppercase codec files root platform workspaceRoot strategy) ⟨plan.entries, outputs⟩
  return ⟨plan.managedRoot, sortEntries state.entries⟩

end Planning

end Shims

end Tapid
