/-
Sandbox policies.

A request carries a policy: grants below the project, and what else the process
may use.  Grants are resolved against the files that are there; a policy that is
selected on an invocation is held against the configured one.  This is the Unix
build: on Windows the names of environment variables are compared without case.

* `ProjectGrant`, `SandboxPolicy`, `ExecutionRequest` — what is requested;
* `resolveProjectGrant` — one grant;
* `validateCeiling` — the configured policy as a bound;
* `resolvePolicy` — the policy as it is carried out.
-/
import Tapid.Execution
import Tapid.OsPath
import Tapid.SymlinkTree
import Tapid.Text

namespace Tapid

open Text Fallible
open SymlinkTree (Entry PathError)

/-! ### Policies -/

inductive SandboxMode where
  | required
  | disabled
  deriving DecidableEq

inductive AssuranceLevel where
  | restricted
  | managedTree
  deriving DecidableEq

def isWindowsReservedPort (suffix : List Char) : Bool :=
  ["1", "2", "3", "4", "5", "6", "7", "8", "9", "¹", "²", "³"].any fun port => port.toList = suffix

def isWindowsReservedComponent (component : List Char) : Bool :=
  let upper := ((component.splitOn '.').headD component).map Char.toUpper
  ["CON", "PRN", "AUX", "NUL", "CONIN$", "CONOUT$"].any (fun name => name.toList = upper) ||
    (stripPrefix "COM".toList upper).any isWindowsReservedPort ||
    (stripPrefix "LPT".toList upper).any isWindowsReservedPort

/-- `char::is_control` -/
def isControl (c : Char) : Bool := c.toNat < 0x20 || (0x7F ≤ c.toNat && c.toNat < 0xA0)

def invalidComponent (value component : List Char) : Bool :=
  component.isEmpty || (component = ['.'] && value ≠ ['.']) || component = ['.', '.'] ||
    (component ≠ ['.'] && component.getLast?.any fun c => c = '.' || c = ' ') ||
    component.any (fun c => isControl c || ['<', '>', ':', '"', '|', '?', '*', '\\'].contains c) ||
    isWindowsReservedComponent component

def windowsAbsolute : List Char → Bool
  | '\\' :: _ => true
  | '/' :: _ => true
  | drive :: ':' :: _ => drive.isAlpha
  | _ => false

/-- `validate_project_path`, with the bound on the length -/
def validProjectPath (value : List Char) : Bool :=
  (utf8Bytes value).length ≤ 255 && !value.isEmpty && !windowsAbsolute value &&
    !(value.splitOn '/').any (invalidComponent value)

/-- A path below the project as a policy may name it. -/
structure ProjectGrant where
  text : List Char
  valid : validProjectPath text = true
  deriving DecidableEq

structure FilesystemPolicy where
  read : List ProjectGrant
  write : List ProjectGrant
  deriving DecidableEq

structure ExecutionLimits where
  timeoutSeconds : Option Nat := none
  maxOutputBytes : Option Nat := none
  maxProcesses : Option Nat := none
  maxMemoryBytes : Option Nat := none
  deriving DecidableEq

structure SandboxPolicy where
  mode : SandboxMode
  assurance : AssuranceLevel
  filesystem : FilesystemPolicy
  network : Bool
  environment : List String
  subprocess : Bool
  limits : ExecutionLimits
  deriving DecidableEq

/-! ### Files -/

/-- Where a request is carried out. -/
structure Host where
  tree : SymlinkTree.Tree OsName
  currentDir : OsPath
  currentDir_eq : tree.entry currentDir = some .directory

/-- A path as it is written. -/
structure HostPath where
  absolute : Bool
  parts : List (SymlinkTree.Part OsName)
  deriving DecidableEq

def partText : SymlinkTree.Part OsName → String
  | .current => "."
  | .parent => ".."
  | .name name => String.ofList (Bytes.fromUtf8Lossy name.bytes)

def HostPath.display (path : HostPath) : String :=
  (if path.absolute then "/" else "") ++ "/".intercalate (path.parts.map partText)

/-- What two paths are compared by. -/
def HostPath.normalized (path : HostPath) : List (SymlinkTree.Part OsName) := path.parts.filter (· ≠ .current)

/-- The path of names from the root. -/
def namesPath (path : OsPath) : HostPath := ⟨true, path.map .name⟩

def pathErrorText : PathError → String
  | .notFound => "No such file or directory (os error 2)"
  | .notDirectory => "Not a directory (os error 20)"
  | .loop => "Too many levels of symbolic links (os error 40)"
  | .refused text => text

def Host.resolve (host : Host) (follow : Bool) (path : HostPath) : Except PathError OsPath :=
  host.tree.resolve follow host.tree.maxLinks (if path.absolute then [] else host.currentDir) path.parts

/-- `fs::symlink_metadata`: the entry at the end of a path. -/
def Host.symlinkMetadata (host : Host) (path : HostPath) : Except PathError (Option (Entry OsName)) :=
  (host.resolve false path).map host.tree.entry

/-- `fs::metadata`: the entry behind links. -/
def Host.metadata (host : Host) (path : HostPath) : Except PathError (Option (Entry OsName)) :=
  (host.resolve true path).map host.tree.entry

/-! ### Grants -/

inductive FilesystemAccess where
  | readData
  | readMetadata
  | read
  | write
  deriving DecidableEq

inductive FilesystemGrantKind where
  | exactDirectory
  | characterDevice
  | exactFile
  | directorySubtree
  deriving DecidableEq

inductive FilesystemGrantSource where
  | projectPolicy
  | backendRuntime
  deriving DecidableEq

inductive GrantResolution where
  | existingCanonical
  | missingWriteDirectory (canonicalAncestor relativeTarget : OsPath)
  | runtimeCanonical
  | runtimeDevice (device inode rdev : Nat)
  deriving DecidableEq

structure ResolvedGrant where
  path : OsPath
  access : FilesystemAccess
  kind : FilesystemGrantKind
  source : FilesystemGrantSource
  resolution : GrantResolution
  deriving DecidableEq

structure ExecutionRequest where
  projectRoot : HostPath
  policy : SandboxPolicy
  policyCeiling : Option SandboxPolicy
  executableSearchPaths : List HostPath

structure RuntimeFilesystemAdditions where
  read : List ResolvedGrant
  write : List ResolvedGrant

structure ResolvedSandboxPolicy where
  assurance : AssuranceLevel
  mode : SandboxMode
  projectRoot : OsPath
  read : List ResolvedGrant
  write : List ResolvedGrant
  limits : ExecutionLimits
  deriving DecidableEq

def policyViolation (message : String) : ExecutionError := ⟨.policyViolation, message⟩

def pathError (kind : String) (path : HostPath) (error : PathError) : ExecutionError :=
  policyViolation ("cannot resolve " ++ kind ++ " " ++ path.display ++ ": " ++ pathErrorText error)

section Resolution

variable (debug : List Char → String) (host : Host)

def canonicalPath (path : HostPath) (kind : String) : Except ExecutionError OsPath :=
  (host.resolve true path).mapError (pathError kind path)

def filesystemKind (path : OsPath) : Except ExecutionError FilesystemGrantKind := do
  let metadata ← (host.metadata (namesPath path)).mapError
    (pathError "inspect filesystem grant kind" (namesPath path))
  match metadata with
  | some .file => return .exactFile
  | some .directory => return .directorySubtree
  | _ => throw (policyViolation
      ("filesystem grant is neither a regular file nor directory: " ++ path.display))

/-- The path of a grant below the project root. -/
def grantTarget (root : OsPath) (configured : ProjectGrant) : HostPath :=
  ⟨true, root.map .name ++
    if configured.text = ['.'] then [.current]
    else (configured.text.splitOn '/').map fun part => .name (OsName.ofText part)⟩

/-- From a target that was not found up to something that is there: the parts
of the target from its end, and the names given up so far. -/
def climb (configured : ProjectGrant) (target : HostPath) :
    List (SymlinkTree.Part OsName) → List OsName → Except ExecutionError (List (SymlinkTree.Part OsName) × List OsName)
  | .name name :: above, missing =>
    match host.symlinkMetadata ⟨true, above.reverse⟩ with
    | .ok _ => .ok (above.reverse, missing ++ [name])
    | .error .notFound => climb configured target above (missing ++ [name])
    | .error error => .error (pathError "inspect filesystem grant" target error)
  | _, _ =>
    .error (policyViolation ("filesystem grant has no existing ancestor: " ++ debug configured.text))

/-- What of a target is there, and the names below it that are missing. -/
def existingAncestor (configured : ProjectGrant) (target : HostPath) (access : FilesystemAccess) :
    Except ExecutionError (List (SymlinkTree.Part OsName) × List OsName) :=
  match host.symlinkMetadata target with
  | .ok _ => .ok (target.parts, [])
  | .error .notFound =>
    if access = .read then
      .error (policyViolation ("read grant target does not exist: " ++ debug configured.text))
    else climb debug host configured target target.normalized.reverse []
  | .error error => .error (pathError "inspect filesystem grant" target error)

def resolveProjectGrant (root : OsPath) (access : FilesystemAccess) (configured : ProjectGrant) :
    Except ExecutionError ResolvedGrant := do
  let target := grantTarget root configured
  let (ancestor, missing) ← existingAncestor debug host configured target access
  let canonicalAncestor ← canonicalPath host ⟨true, ancestor⟩ "filesystem grant ancestor"
  rejectIf (¬ root <+: canonicalAncestor) (policyViolation
    ("filesystem grant escapes the canonical project root: " ++ debug configured.text))
  if missing = [] then do
    let kind ← filesystemKind host canonicalAncestor
    return ⟨canonicalAncestor, access, kind, .projectPolicy, .existingCanonical⟩
  else
    let relativeTarget := missing.reverse
    return ⟨canonicalAncestor ++ relativeTarget, access, .directorySubtree, .projectPolicy,
      .missingWriteDirectory canonicalAncestor relativeTarget⟩

/-! ### The configured policy as a bound -/

def exceeds (dimension : String) : ExecutionError :=
  policyViolation ("invocation " ++ dimension ++ " permission exceeds the configured run policy")

def bounded (requested ceiling : Option Nat) : Bool :=
  match ceiling with
  | none => true
  | some limit => requested.any (· ≤ limit)

/-- Requested grants, each at or below one of the configured grants. -/
def validateGrants (root : OsPath) (access : FilesystemAccess) (dimension : String)
    (requested : List ResolvedGrant) (configured : List ProjectGrant) : Except ExecutionError Unit := do
  let allowed ← configured.mapM (resolveProjectGrant debug host root access)
  checkAll (fun grant : ResolvedGrant =>
    rejectIf (¬ allowed.any fun cap => grant.path = cap.path ∨
      cap.kind = .directorySubtree ∧ cap.path <+: grant.path) (exceeds dimension)) requested

/-- `policy_ceiling::validate` -/
def validateCeiling (request : ExecutionRequest) (root : OsPath) (read write : List ResolvedGrant) :
    Except ExecutionError Unit :=
  match request.policyCeiling with
  | none => .ok ()
  | some ceiling => do
    let policy := request.policy
    rejectIf (ceiling.mode = .required ∧ policy.mode ≠ .required) (exceeds "sandbox mode")
    rejectIf (ceiling.assurance = .managedTree ∧ policy.assurance ≠ .managedTree) (exceeds "assurance")
    rejectIf (policy.network = true ∧ ceiling.network = false) (exceeds "network")
    rejectIf (policy.subprocess = true ∧ ceiling.subprocess = false) (exceeds "subprocess")
    rejectIf (policy.environment.any fun name => !ceiling.environment.contains name) (exceeds "environment")
    rejectIf (!bounded policy.limits.timeoutSeconds ceiling.limits.timeoutSeconds ||
      !bounded policy.limits.maxOutputBytes ceiling.limits.maxOutputBytes ||
      !bounded policy.limits.maxProcesses ceiling.limits.maxProcesses ||
      !bounded policy.limits.maxMemoryBytes ceiling.limits.maxMemoryBytes) (exceeds "resource limit")
    validateGrants debug host root .read "read" read ceiling.filesystem.read
    validateGrants debug host root .write "write" write ceiling.filesystem.write

/-! ### Executable search directories -/

def resolveExecutableSearchDirectory (path : HostPath) : Except ExecutionError ResolvedGrant := do
  rejectIf (path.absolute = false)
    (policyViolation ("executable search directory must be absolute: " ++ path.display))
  let canonical ← canonicalPath host path "executable search directory"
  let metadata ← (host.metadata (namesPath canonical)).mapError
    (pathError "executable search directory" (namesPath canonical))
  rejectIf (metadata ≠ some .directory)
    (policyViolation ("executable search path is not a directory: " ++ path.display))
  return ⟨canonical, .read, .directorySubtree, .backendRuntime, .runtimeCanonical⟩

def rejectAliases : List OsPath → List (HostPath × ResolvedGrant) → Except ExecutionError Unit
  | _, [] => .ok ()
  | prior, (requested, grant) :: rest => do
    rejectIf (grant.path ∈ prior) (policyViolation
      ("executable search directories resolve to the same platform alias: " ++ requested.display))
    rejectAliases (prior ++ [grant.path]) rest

def validateResolvedExecutableSearchPaths (requested : List HostPath) (resolved : List ResolvedGrant) :
    Except ExecutionError Unit := do
  rejectAliases [] (requested.zip resolved)
  checkAll (fun pair : HostPath × ResolvedGrant =>
    rejectIf (¬ (pair.1.absolute = true ∧ pair.1.normalized = pair.2.path.map .name)) (policyViolation
      ("executable search directory must already be canonical: " ++ pair.1.display))) (requested.zip resolved)

/-! ### Resolution -/

def resolvePolicy (request : ExecutionRequest) (additions : RuntimeFilesystemAdditions) :
    Except ExecutionError ResolvedSandboxPolicy := do
  let projectRoot ← canonicalPath host request.projectRoot "project root"
  let filesystem := request.policy.filesystem
  let read ← filesystem.read.mapM (resolveProjectGrant debug host projectRoot .read)
  let write ← filesystem.write.mapM (resolveProjectGrant debug host projectRoot .write)
  validateCeiling debug host request projectRoot read write
  let executableSearchPaths ← request.executableSearchPaths.mapM (resolveExecutableSearchDirectory host)
  validateResolvedExecutableSearchPaths request.executableSearchPaths executableSearchPaths
  return {
    assurance := request.policy.assurance
    mode := request.policy.mode
    projectRoot
    read := read ++ executableSearchPaths ++ additions.read
    write := write ++ additions.write
    limits := request.policy.limits }

end Resolution

end Tapid
