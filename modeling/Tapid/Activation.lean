/-
Activating an installed tree.

The tree that was staged takes the place of `node_modules`, and a marker says that
the tree is managed.  Marker and tree that were there before are moved aside
first, under names with the owner of the activation lock in them.  A transaction
that is not committed is rolled back by what is found under these names.

* `activateNodeModules` — the activation;
* `rollbackCoordinatedActivation` — its rollback.
-/
import Tapid.LifecycleJournal

namespace Tapid

open FileSystem FileProg Interrupted Text

namespace Activation

/-! ### Names -/

section Names

variable (project : AbsPath) (owner : String)

def markerPath : AbsPath := project ++ [".tapid-managed"]

def nodeModulesPath : AbsPath := project ++ ["node_modules"]

def markerBackup : AbsPath := project ++ [".tapid-managed-old-" ++ owner]

def nodeModulesBackup : AbsPath := project ++ [".tapid-node-modules-old-" ++ owner]

def stagePath (ordinal : Nat) : AbsPath :=
  project ++ [".tapid-install-stage-" ++ owner ++ "-" ++ String.ofList (numeral ordinal)]

def stagedPath (ordinal : Nat) : AbsPath := stagePath project owner ordinal ++ ["node_modules"]

/-- Process id and nonce. -/
def markerTemporary (pid nonce : Nat) : AbsPath :=
  project ++ [".tapid-managed-" ++ String.ofList (numeral pid ++ '-' :: numeral nonce) ++ ".tmp"]

def displayPath (path : AbsPath) : String := "/" ++ "/".intercalate path

end Names

/-! ### Parts of an activation -/

def managedMarker : List UInt8 := "tapid-managed-v1\n".toList.flatMap String.utf8EncodeChar

def unmarkedNodeModules (project : AbsPath) : String :=
  "refusing to replace unmarked node_modules at " ++ displayPath (nodeModulesPath project) ++
  "; preserve this tree at an unused backup location outside active dependency lookup paths, retain " ++
  "package-lock.json, then deliberately retry installation; see docs/npm-lockfile-import.md for resolution " ++
  "choices and rollback"

section Parts

variable (project : AbsPath) (owner : String)

def syncDirectory : ExceptT String FileProg Unit := attempt (.sync project) (context "cannot sync activation directory: ")

/-- `Path::exists`; a failing look counts as absence. -/
def exists? (path : AbsPath) : FileProg Bool := do
  match ← perform (.present path) with
  | .ok found => return found
  | .error _ => return false

/-- A directory that is no link. -/
def isDirectory (path : AbsPath) : FileProg Bool := do
  match ← perform (.metadata path) with
  | .ok m => return decide (m.kind = .directory)
  | .error _ => return false

/-- `Path::is_dir`; a link that resolves is taken to lead to a directory. -/
def leadsToDirectory (path : AbsPath) : FileProg Bool := do
  match ← perform (.metadata path) with
  | .ok m => if m.kind = .symlink then exists? path else return decide (m.kind = .directory)
  | .error _ => return false

def readMarkerBackup (path : AbsPath) : ExceptT String FileProg (List UInt8) := do
  let contents ← attempt (.read path) IoError.text
  if 128 < contents.length then throw "owner value is oversized" else return contents

/-- The outcome of a part whose failure is not the end. -/
def tried {ε ε' α : Type} (part : ExceptT ε' FileProg α) : ExceptT ε FileProg (Except ε' α) := ExceptT.lift part.run

/-! #### Putting back -/

def restoreMarker (markerExists : Bool) : ExceptT String FileProg Unit :=
  if markerExists then do
    match ← perform (.metadata (markerBackup project owner)) with
    | .ok m =>
      if m.kind = .file then
        attempt (.rename (markerBackup project owner) (markerPath project)) (context "cannot restore .tapid-managed: ")
      else do
        ignore (.removeFile (markerBackup project owner))
        throw "cannot restore .tapid-managed: staged marker is not a regular file"
    | .error e => throw (context "cannot restore .tapid-managed: " e)
  else return ()

def restoreNodeModulesBackup : ExceptT String FileProg Unit := do
  if ← exists? (nodeModulesBackup project owner) then
    attempt (.rename (nodeModulesBackup project owner) (nodeModulesPath project))
      (context "cannot restore existing node_modules: ")
  else return ()

/-- The same, whether it works or not. -/
def putBackNodeModules : FileProg Unit := do
  if ← exists? (nodeModulesBackup project owner) then
    ignore (.rename (nodeModulesBackup project owner) (nodeModulesPath project))
  else return ()

/-- What is added to a message about a restoration. -/
def restoration : Except String Unit → String
  | .ok _ => ""
  | .error restore => "; " ++ restore

/-- The marker is put back before the error is returned. -/
def failRestored {α : Type} (markerExists : Bool) (reason : String) : ExceptT String FileProg α := do
  let restore ← tried (restoreMarker project owner markerExists)
  throw (reason ++ restoration restore)

/-- Tree and marker are put back before the error is returned. -/
def failBothRestored {α : Type} (markerExists : Bool) (reason : String) : ExceptT String FileProg α := do
  let backupRestore ← tried (restoreNodeModulesBackup project owner)
  let markerRestore ← tried (restoreMarker project owner markerExists)
  throw (reason ++ restoration backupRestore ++ restoration markerRestore)

/-! #### Moving aside -/

def inspectMarker : ExceptT String FileProg Bool := do
  match ← perform (.metadata (markerPath project)) with
  | .ok m => if m.kind = .file then return true else throw "refusing to use a non-regular .tapid-managed marker"
  | .error .notFound => return false
  | .error e => throw (context "cannot inspect .tapid-managed: " e)

def checkMarked (markerExists : Bool) : ExceptT String FileProg Unit := do
  if ← exists? (nodeModulesPath project) then
    if markerExists then return () else throw (unmarkedNodeModules project)
  else return ()

/-- The marker is moved before it is read. -/
def stageMarker (markerExists : Bool) : ExceptT String FileProg Unit :=
  if markerExists then do
    attempt (.rename (markerPath project) (markerBackup project owner)) (context "cannot stage .tapid-managed marker: ")
    syncDirectory project
    match ← tried (readMarkerBackup (markerBackup project owner)) with
    | .error e => failRestored project owner markerExists ("cannot read .tapid-managed: " ++ e)
    | .ok contents =>
      match ← perform (.metadata (markerBackup project owner)) with
      | .ok m =>
        if m.kind = .file then
          if contents = managedMarker then return ()
          else
            failRestored project owner markerExists
              "refusing to replace node_modules with an invalid .tapid-managed marker"
        else failRestored project owner markerExists "refusing to use a non-regular .tapid-managed marker"
      | .error _ => failRestored project owner markerExists "refusing to use a non-regular .tapid-managed marker"
  else return ()

def stageNodeModules (markerExists : Bool) : ExceptT String FileProg Unit := do
  if ← exists? (nodeModulesPath project) then
    match ← perform (.rename (nodeModulesPath project) (nodeModulesBackup project owner)) with
    | .ok _ => return ()
    | .error e =>
      failRestored project owner markerExists (context "cannot stage existing node_modules for replacement: " e)
  else return ()

def syncStaged : ExceptT String FileProg Unit := do
  if ← exists? (nodeModulesBackup project owner) then syncDirectory project else return ()

/-! #### Moving in -/

/-- Links are validated by the caller's preflight; a failure can be injected. -/
def checkStaged (ordinal : Nat) (injected : Bool) (preflight : Except String Unit) (markerExists : Bool) :
    ExceptT String FileProg Unit := do
  if injected then
    putBackNodeModules project owner
    failRestored project owner markerExists "install activation failed (injected)"
  else
    if ← isDirectory (stagedPath project owner ordinal) then
      match preflight with
      | .ok _ => return ()
      | .error e => failBothRestored project owner markerExists e
    else failBothRestored project owner markerExists "refusing to activate a non-directory install staging tree"

def moveStaged (ordinal : Nat) (markerExists : Bool) : ExceptT String FileProg Unit := do
  match ← perform (.rename (stagedPath project owner ordinal) (nodeModulesPath project)) with
  | .ok _ => syncDirectory project
  | .error e =>
    putBackNodeModules project owner
    failRestored project owner markerExists (context "cannot activate node_modules: " e)

def checkMoved (markerExists : Bool) : ExceptT String FileProg Unit := do
  if ← isDirectory (nodeModulesPath project) then return ()
  else
    ignore (.removeFile (nodeModulesPath project))
    ignore (.removeDirAll (nodeModulesPath project))
    putBackNodeModules project owner
    failRestored project owner markerExists "refusing to activate a symlinked install staging tree"

def createMarker (temp : AbsPath) : ExceptT IoError FileProg Unit := do
  attempt (.createNew temp) id
  attempt (.writeAll temp managedMarker) id
  attempt (.sync temp) id
  attempt (.rename temp (markerPath project)) id

def writeMarker (temp : AbsPath) (markerExists : Bool) : ExceptT String FileProg Unit := do
  match ← tried (createMarker project temp) with
  | .ok _ => syncDirectory project
  | .error e =>
    ignore (.removeFile temp)
    ignore (.removeDirAll (nodeModulesPath project))
    putBackNodeModules project owner
    let restore ← tried (restoreMarker project owner markerExists)
    if markerExists then throw (context "cannot write .tapid-managed: " e ++ restoration restore)
    else
      ignore (.removeFile (markerPath project))
      throw (context "cannot write .tapid-managed: " e ++ restoration restore)

/-- What was moved aside goes, unless a transaction still needs it. -/
def cleanUp (ordinal : Nat) (preservePrevious markerExists : Bool) : FileProg Unit := do
  if preservePrevious then ignore (.removeDirAll (stagePath project owner ordinal))
  else
    if markerExists then ignore (.removeFile (markerBackup project owner)) else pure ()
    ignore (.removeDirAll (nodeModulesBackup project owner))
    ignore (.removeDirAll (stagePath project owner ordinal))

end Parts

/-! ### The activation and its rollback -/

/-- `activate_node_modules_with_preflight`. -/
def activateNodeModules (project : AbsPath) (owner : String) (ordinal pid nonce : Nat)
    (preservePrevious injected : Bool) (preflight : Except String Unit) : ExceptT String FileProg Unit := do
  if ← leadsToDirectory (stagedPath project owner ordinal) then
    let markerExists ← inspectMarker project
    checkMarked project markerExists
    stageMarker project owner markerExists
    stageNodeModules project owner markerExists
    syncStaged project owner
    checkStaged project owner ordinal injected preflight markerExists
    moveStaged project owner ordinal markerExists
    checkMoved project owner markerExists
    writeMarker project owner (markerTemporary project pid nonce) markerExists
    cleanUp project owner ordinal preservePrevious markerExists
  else throw "install transaction produced an empty node_modules layout"

/-- What was there before the activation. -/
structure RecoveryDecision where
  markerExisted : Bool
  nodeModulesExisted : Bool

section Rollback

variable (project : AbsPath) (owner : String) (decision : RecoveryDecision)

def rollbackMarker : ExceptT String FileProg Unit := do
  match ← perform (.metadata (markerBackup project owner)) with
  | .ok m =>
    if m.kind = .file then do
      match ← perform (.metadata (markerPath project)) with
      | .ok current =>
        if current.kind = .file then
          attempt (.removeFile (markerPath project)) (context "cannot remove uncommitted managed marker: ")
        else throw "refusing to replace non-regular managed marker during recovery"
      | .error _ => pure ()
      attempt (.rename (markerBackup project owner) (markerPath project)) (context "cannot restore managed marker: ")
    else throw "refusing to restore non-regular managed marker backup"
  | .error .notFound =>
    if decision.markerExisted then return ()
    else
      match ← perform (.metadata (markerPath project)) with
      | .ok m =>
        if m.kind = .file then
          attempt (.removeFile (markerPath project)) (context "cannot remove uncommitted managed marker: ")
        else throw "refusing to remove non-regular managed marker"
      | .error .notFound => return ()
      | .error e => throw (context "cannot inspect managed marker: " e)
  | .error e => throw (context "cannot inspect managed marker backup: " e)

def rollbackNodeModules : ExceptT String FileProg Unit := do
  match ← perform (.metadata (nodeModulesBackup project owner)) with
  | .ok m =>
    if m.kind = .directory then do
      match ← perform (.metadata (nodeModulesPath project)) with
      | .ok current =>
        if current.kind = .directory then
          attempt (.removeDirAll (nodeModulesPath project))
            (context "cannot remove uncommitted node_modules activation: ")
        else throw "refusing to replace non-directory node_modules during recovery"
      | .error .notFound => pure ()
      | .error e => throw (context "cannot inspect node_modules recovery: " e)
      attempt (.rename (nodeModulesBackup project owner) (nodeModulesPath project))
        (context "cannot restore prior node_modules: ")
    else throw "refusing to restore a non-directory node_modules backup"
  | .error .notFound =>
    if decision.nodeModulesExisted then return ()
    else
      match ← perform (.metadata (nodeModulesPath project)) with
      | .ok m =>
        if m.kind = .directory then
          attempt (.removeDirAll (nodeModulesPath project))
            (context "cannot remove uncommitted node_modules activation: ")
        else throw "refusing to remove non-directory node_modules"
      | .error .notFound => return ()
      | .error e => throw (context "cannot inspect node_modules: " e)
  | .error e => throw (context "cannot inspect node_modules backup: " e)

/-- The owner is that of the lock, with its line end. -/
def rollbackCoordinatedActivation : ExceptT String FileProg Unit :=
  match stripSuffix ['\n'] owner.toList with
  | none => throw "cannot recover malformed activation owner"
  | some name => do
    rollbackMarker project (String.ofList name) decision
    rollbackNodeModules project (String.ofList name) decision

end Rollback

end Activation

end Tapid
