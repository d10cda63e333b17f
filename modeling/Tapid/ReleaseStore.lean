/-
Writing the release state.

The new bytes are written to a temporary file named after the process.  An
existing state is moved aside, the temporary file takes its place, and the old
file is removed.  When a call fails, what was moved is moved back.

* `safeAtomicWrite` — the write;
* `wp_safeAtomicWrite` — what it leaves behind, whatever call fails and wherever
  it stops;
* `Leftovers.write`, `Writes.leftovers` — what interrupted writes leave over;
* `writes_oldOrNew` — the old file or the new one, and nothing in the way of other
  processes.
-/
import Tapid.FileOps
import Tapid.ReleaseState

namespace Tapid

open FileSystem FileProg Interrupted

/-! ### The write -/

def stateError (e : IoError) : ReleaseError := .state e.text

/-- How far a write got. -/
structure WriteFlags where
  created : Bool
  movedExisting : Bool
  deriving DecidableEq

/-- Temporary files are named after the process. -/
def temporaryName (name : String) (pid : Nat) : String := "." ++ name ++ ".tmp-" ++ toString pid

def backupName (name : String) (pid : Nat) : String := "." ++ name ++ ".bak-" ++ toString pid

def restrictPermissions (unix : Bool) (tmp : AbsPath) : ExceptT (ReleaseError × WriteFlags) FileProg Unit := do
  if unix then attempt (.setPermissions tmp) fun e => (stateError e, ⟨true, false⟩)

/-- The temporary file with the new bytes. -/
def writeTemporary (unix : Bool) (tmp : AbsPath) (bytes : List UInt8) :
    ExceptT (ReleaseError × WriteFlags) FileProg Unit := do
  attempt (.createNew tmp) fun e => (stateError e, ⟨false, false⟩)
  restrictPermissions unix tmp
  attempt (.writeAll tmp bytes) fun e => (stateError e, ⟨true, false⟩)
  attempt (.sync tmp) fun e => (stateError e, ⟨true, false⟩)

def checkNotSymlink (path : AbsPath) : ExceptT (ReleaseError × WriteFlags) FileProg Unit := do
  match ← perform (.metadata path) with
  | .ok m => if m.kind = .symlink then throw (.state "state path became a symlink", ⟨true, false⟩)
  | .error _ => return ()

def moveAside (existing : Bool) (path backup : AbsPath) : ExceptT (ReleaseError × WriteFlags) FileProg Unit := do
  if existing then attempt (.rename path backup) fun e => (stateError e, ⟨true, false⟩)

def restore (existing : Bool) (path backup : AbsPath) : FileProg Unit := do
  if existing then ignore (.rename backup path)

/-- The old file is moved back at once when the new one cannot be moved in. -/
def moveIn (existing : Bool) (path tmp backup : AbsPath) : ExceptT (ReleaseError × WriteFlags) FileProg Unit := do
  match ← perform (.rename tmp path) with
  | .ok _ => return ()
  | .error e =>
    restore existing path backup
    throw (stateError e, ⟨true, false⟩)

def dropBackup (existing : Bool) (backup : AbsPath) : ExceptT (ReleaseError × WriteFlags) FileProg Unit := do
  if existing then attempt (.removeFile backup) fun e => (stateError e, ⟨true, true⟩)

def syncParent (unix : Bool) (parent : AbsPath) : ExceptT (ReleaseError × WriteFlags) FileProg Unit := do
  if unix then attempt (.sync parent) fun e => (stateError e, ⟨true, false⟩)

/-- The part of the write whose failure is followed by a clean-up. -/
def replaceContents (unix existing : Bool) (parent path tmp backup : AbsPath) (bytes : List UInt8) :
    ExceptT (ReleaseError × WriteFlags) FileProg Unit := do
  writeTemporary unix tmp bytes
  checkNotSymlink path
  moveAside existing path backup
  moveIn existing path tmp backup
  dropBackup existing backup
  syncParent unix parent

def removeTemporary (created : Bool) (tmp : AbsPath) : FileProg Unit := do
  if created then ignore (.removeFile tmp)

/-- What a failed write undoes. -/
def undoWrite (path tmp backup : AbsPath) (flags : WriteFlags) : FileProg Unit := do
  removeTemporary flags.created tmp
  if flags.movedExisting then
    ignore (.removeFile path)
    ignore (.rename backup path)

def inspectExisting (path : AbsPath) : ExceptT ReleaseError FileProg Bool := do
  match ← perform (.metadata path) with
  | .ok m =>
    match m.kind with
    | .symlink => throw (.state "state path must not be a symlink")
    | .directory => throw (.state "state path must be a regular file")
    | .file => return true
  | .error .notFound => return false
  | .error e => throw (stateError e)

def finishWrite (path tmp backup : AbsPath) :
    Except (ReleaseError × WriteFlags) Unit → ExceptT ReleaseError FileProg Unit
  | .ok _ => return ()
  | .error (e, flags) => do
    undoWrite path tmp backup flags
    throw e

def checkParent (m : Metadata) : ExceptT ReleaseError FileProg Unit := do
  if m.kind ≠ .directory then throw (.state "state parent must be a real directory")

/-- The write with its paths. -/
def writeThrough (unix : Bool) (parent path tmp backup : AbsPath) (bytes : List UInt8) :
    ExceptT ReleaseError FileProg Unit := do
  checkParent (← attempt (.metadata parent) stateError)
  let existing ← inspectExisting path
  finishWrite path tmp backup (← (replaceContents unix existing parent path tmp backup bytes).run)

/-- The path is that of a file `name` in `parent`. -/
def safeAtomicWrite (unix : Bool) (pid : Nat) (parent : AbsPath) (name : String) (bytes : List UInt8) :
    ExceptT ReleaseError FileProg Unit :=
  writeThrough unix parent (parent ++ [name]) (parent ++ [temporaryName name pid]) (parent ++ [backupName name pid])
    bytes

/-! ### What each part leaves behind -/

section Parts

variable {budget : Nat} {I : List (Event FileOp) → Files → Prop} {log : List (Event FileOp)} {s : Files}
  {unix existing : Bool} {parent path tmp backup : AbsPath} {bytes : List UInt8}

theorem wp_writeTemporary {Q : Except (ReleaseError × WriteFlags) Unit → List (Event FileOp) → Files → Prop}
    (hstop : ∀ o log' t, (∀ p q, o ≠ .rename p q) → SameExcept [tmp] s t → I (.stopped o :: log') t)
    (hok : ∀ log' t, failures log' = failures log → s tmp = none → SameExcept [tmp] s t →
      t tmp = some (.file bytes) → Q (.ok ()) log' t)
    (hnew : ∀ e log', s tmp ≠ none ∨ failures log < failures log' → Q (.error (e, ⟨false, false⟩)) log' s)
    (herr : ∀ e log' t, failures log < failures log' → s tmp = none → SameExcept [tmp] s t →
      Q (.error (e, ⟨true, false⟩)) log' t) :
    wp fileCalls budget I (writeTemporary unix tmp bytes).run Q log s := by
  have hstart : ∀ c, I (.stopped (.createNew tmp) :: log) (cut (.createNew tmp) c s) := fun _ =>
    hstop _ _ _ (by simp) (SameExcept.refl _ _)
  rw [writeTemporary, wp_tryBind]
  cases hs : s tmp with
  | some node =>
    rw [wp_attempt (exec_createNew_some hs)]
    exact ⟨hstart, hnew _ _ (.inl (by simp [hs])), fun _ _ => hnew _ _ (.inr (by simp))⟩
  | none =>
    rw [wp_attempt (exec_createNew hs)]
    refine ⟨hstart, ?_, fun _ _ => hnew _ _ (.inr (by simp))⟩
    have ht : SameExcept [tmp] s (Function.update s tmp (some (.file []))) :=
      (SameExcept.refl _ _).update (by simp) _
    generalize Function.update s tmp (some (.file [])) = t at ht
    -- what follows once the permissions are set
    have hrest : ∀ log', failures log' = failures log → wp fileCalls budget I (do
        attempt (.writeAll tmp bytes) fun e => (stateError e, (⟨true, false⟩ : WriteFlags))
        attempt (.sync tmp) fun e => (stateError e, (⟨true, false⟩ : WriteFlags))).run Q log' t := by
      intro log' hlog
      rw [wp_tryBind, wp_attempt (exec_writeAll tmp bytes t)]
      refine ⟨fun c => hstop _ _ _ (by simp) (ht.trans (cut_sameExcept (.writeAll tmp bytes) c t)), ?_,
        fun _ c => herr _ _ _ (by simp [hlog]) hs (ht.trans (cut_sameExcept (.writeAll tmp bytes) c t))⟩
      have hwritten : SameExcept [tmp] s (Function.update t tmp (some (.file bytes))) := ht.update (by simp) _
      have hbytes : Function.update t tmp (some (.file bytes)) tmp = some (.file bytes) := Function.update_self _ _ _
      show wp fileCalls budget I (attempt (.sync tmp) _).run Q _ _
      rw [wp_attempt (exec_sync hbytes)]
      exact ⟨fun _ => hstop _ _ _ (by simp) hwritten, hok _ _ (by simp [hlog]) hs hwritten hbytes,
        fun _ _ => herr _ _ _ (by simp [hlog]) hs hwritten⟩
    show wp fileCalls budget I (restrictPermissions unix tmp >>= _).run Q _ t
    rw [wp_tryBind, restrictPermissions]
    cases unix with
    | false => exact hrest _ (by simp)
    | true =>
      show wp fileCalls budget I (attempt (.setPermissions tmp) _).run _ _ _
      rw [wp_attempt rfl]
      exact ⟨fun _ => hstop _ _ _ (by simp) ht, hrest _ (by simp), fun _ _ => herr _ _ _ (by simp) hs ht⟩

/-- The process stops before something is renamed to the path. -/
def BeforeRename (path : AbsPath) : List (Event FileOp) → Prop
  | .stopped (.rename _ target) :: _ => target = path
  | _ => False

/-- What a write leaves alone, and what it leaves as a backup. -/
structure Around (s : Files) (path tmp backup : AbsPath) (t : Files) : Prop where
  same : SameExcept [path, tmp, backup] s t
  leftover : t backup = none ∨ t backup = s backup ∨ t backup = s path

/-- States a write may be stopped in. -/
structure WriteStops (s : Files) (path tmp backup : AbsPath) (bytes : List UInt8) (log : List (Event FileOp))
    (t : Files) : Prop extends Around s path tmp backup t where
  missing : BeforeRename path log → t path = none
  contents : ¬ BeforeRename path log → t path = s path ∨ t path = some (.file bytes)

/-- States the replacement of the contents ends in. -/
inductive Replaced (s : Files) (parent path tmp backup : AbsPath) (bytes : List UInt8) :
    Except (ReleaseError × WriteFlags) Unit → List (Event FileOp) → Files → Prop where
  | written {log : List (Event FileOp)} {t : Files} :
    Around s path tmp backup t → t path = some (.file bytes) → t tmp = none →
    Replaced s parent path tmp backup bytes (.ok ()) log t
  | refused {e : ReleaseError} {log : List (Event FileOp)} :
    s tmp ≠ none ∨ 0 < failures log → Replaced s parent path tmp backup bytes (.error (e, ⟨false, false⟩)) log s
  | kept {e : ReleaseError} {log : List (Event FileOp)} {t : Files} :
    Around s path tmp backup t → t path = s path →
    0 < failures log ∨ (∃ entries, s backup = some (.directory entries)) →
    Replaced s parent path tmp backup bytes (.error (e, ⟨true, false⟩)) log t
  | unsynced {e : ReleaseError} {log : List (Event FileOp)} {t : Files} :
    Around s path tmp backup t → t path = some (.file bytes) → .failed (.sync parent) ∈ log → 0 < failures log →
    Replaced s parent path tmp backup bytes (.error (e, ⟨true, false⟩)) log t
  | moved {e : ReleaseError} {log : List (Event FileOp)} {t : Files} :
    Around s path tmp backup t → t path = some (.file bytes) → t backup = s path → (∃ old, s path = some (.file old)) →
    0 < failures log → Replaced s parent path tmp backup bytes (.error (e, ⟨true, true⟩)) log t

/-- The paths of a write are different. -/
structure WriteNames (parent path tmp backup : AbsPath) : Prop where
  path_tmp : path ≠ tmp
  path_backup : path ≠ backup
  tmp_backup : tmp ≠ backup
  parent_notin : parent ∉ [path, tmp, backup]

section Steps

variable {t : Files} (names : WriteNames parent path tmp backup)
  (hparent : ∃ entries, s parent = some (.directory entries))

theorem not_beforeRename {o : FileOp} (ho : ∀ p q, o ≠ .rename p q) {log : List (Event FileOp)} :
    ¬ BeforeRename path (.stopped o :: log) := by
  intro h
  cases o with
  | rename p q => exact ho p q rfl
  | _ => exact h

theorem WriteStops.of_new {o : FileOp} (ho : ∀ p q, o ≠ .rename p q) (ht : Around s path tmp backup t)
    (hnew : t path = some (.file bytes)) : WriteStops s path tmp backup bytes (.stopped o :: log) t where
  toAround := ht
  missing h := absurd h (not_beforeRename ho)
  contents _ := .inr hnew

theorem WriteStops.of_old {o : FileOp} (ho : ∀ p, o ≠ .rename p path) (ht : Around s path tmp backup t)
    (hold : t path = s path) : WriteStops s path tmp backup bytes (.stopped o :: log) t where
  toAround := ht
  missing h := by
    cases o with
    | rename p q =>
      obtain rfl : q = path := h
      exact absurd rfl (ho p)
    | _ => exact h.elim
  contents _ := .inl hold

theorem WriteStops.of_missing {p : AbsPath} (ht : Around s path tmp backup t) (hmissing : t path = none) :
    WriteStops s path tmp backup bytes (.stopped (.rename p path) :: log) t where
  toAround := ht
  missing _ := hmissing
  contents h := absurd rfl h

include names hparent in
/-- The new file is in place and nothing else is left to be moved. -/
theorem wp_syncParent (ht : Around s path tmp backup t) (hnew : t path = some (.file bytes)) (htmp : t tmp = none) :
    wp fileCalls budget (WriteStops s path tmp backup bytes) (syncParent unix parent).run
      (Replaced s parent path tmp backup bytes) log t := by
  rw [syncParent]
  cases unix with
  | false => exact .written ht hnew htmp
  | true =>
    obtain ⟨entries, hparent⟩ := hparent
    have hdir : t parent = some (.directory entries) := by rw [ht.same _ names.parent_notin, hparent]
    show wp fileCalls budget _ (attempt (.sync parent) _).run _ log t
    rw [wp_attempt (exec_sync hdir)]
    exact ⟨fun _ => .of_new (by simp) ht hnew, .written ht hnew htmp,
      fun _ _ => .unsynced ht hnew List.mem_cons_self (by simp)⟩

/-- What was at the path before the write. -/
def Existing (s : Files) (path : AbsPath) (existing : Bool) : Prop :=
  if existing then ∃ old, s path = some (.file old) else s path = none

include names hparent in
/-- The backup is dropped, and then the directory is synced. -/
theorem wp_dropBackup (hexisting : Existing s path existing) (ht : Around s path tmp backup t)
    (hnew : t path = some (.file bytes)) (htmp : t tmp = none) (hbackup : existing → t backup = s path) :
    wp fileCalls budget (WriteStops s path tmp backup bytes)
      (dropBackup existing backup >>= fun _ => syncParent unix parent).run
      (Replaced s parent path tmp backup bytes) log t := by
  rw [wp_tryBind, dropBackup]
  cases existing with
  | false => exact wp_syncParent names hparent ht hnew htmp
  | true =>
    obtain ⟨old, hold⟩ := hexisting
    have hfile : t backup = some (.file old) := (hbackup rfl).trans hold
    show wp fileCalls budget _ (attempt (.removeFile backup) _).run _ log t
    rw [wp_attempt (exec_removeFile hfile)]
    refine ⟨fun _ => .of_new (by simp) ht hnew, ?_, fun _ _ => .moved ht hnew (hbackup rfl) ⟨old, hold⟩ (by simp)⟩
    refine wp_syncParent names hparent ⟨ht.same.update (by simp) none, .inl (Function.update_self _ _ _)⟩ ?_ ?_
    · rw [Function.update_of_ne names.path_backup, hnew]
    · rw [Function.update_of_ne names.tmp_backup, htmp]

include names hparent in
/-- The path is free, and the temporary file is moved there. -/
theorem wp_moveIn (hexisting : Existing s path existing) (ht : Around s path tmp backup t) (hmissing : t path = none)
    (htmp : t tmp = some (.file bytes)) (hbackup : existing → t backup = s path) :
    wp fileCalls 1 (WriteStops s path tmp backup bytes)
      (moveIn existing path tmp backup >>= fun _ => dropBackup existing backup >>= fun _ => syncParent unix parent).run
      (Replaced s parent path tmp backup bytes) log t := by
  rw [wp_tryBind, moveIn, wp_tryBind, wp_lift,
    wp_perform (exec_rename htmp (by simp [hmissing]) (Ne.symm names.path_tmp))]
  refine ⟨fun _ => .of_missing ht hmissing, ?_, fun hlog _ => ?_⟩
  · refine wp_dropBackup names hparent hexisting ⟨(ht.same.update (by simp) _).update (by simp) _, ?_⟩ ?_ ?_ ?_
    · rw [Function.update_of_ne (Ne.symm names.tmp_backup), Function.update_of_ne (Ne.symm names.path_backup)]
      exact ht.leftover
    · rw [Function.update_of_ne names.path_tmp, Function.update_self]
    · exact Function.update_self _ _ _
    · intro h
      rw [Function.update_of_ne (Ne.symm names.tmp_backup), Function.update_of_ne (Ne.symm names.path_backup)]
      exact hbackup h
  · show wp fileCalls 1 _ (liftM (restore existing path backup) >>= _ : ExceptT _ _ _).run _ _ t
    rw [wp_tryBind, wp_lift, restore]
    cases existing with
    | false => exact .kept ht (hmissing.trans (Eq.symm hexisting)) (.inl (by simp))
    | true =>
      obtain ⟨old, hold⟩ := hexisting
      have hfile : t backup = some (.file old) := (hbackup rfl).trans hold
      show wp fileCalls 1 _ (ignore (.rename backup path)) _ _ t
      rw [wp_ignore (exec_rename hfile (by simp [hmissing]) (Ne.symm names.path_backup))]
      refine ⟨fun _ => .of_missing ht hmissing, ?_, fun hagain => ?_⟩
      · refine .kept ⟨(ht.same.update (by simp) _).update (by simp) _, .inl (Function.update_self _ _ _)⟩ ?_
          (.inl (by simp))
        rw [Function.update_of_ne names.path_backup, Function.update_self, hold]
      · rw [failures_failed] at hagain
        omega

theorem Around.of_tmp (ht : SameExcept [tmp] s t) (names : WriteNames parent path tmp backup) :
    Around s path tmp backup t where
  same := ht.mono (by simp)
  leftover := .inr (.inl (ht _ (by simpa using Ne.symm names.tmp_backup)))

include names hparent in
/-- The temporary file is written, and the old file is where it was. -/
theorem wp_moveAside (hexisting : Existing s path existing) (ht : SameExcept [tmp] s t)
    (htmp : t tmp = some (.file bytes)) :
    wp fileCalls 1 (WriteStops s path tmp backup bytes)
      (moveAside existing path backup >>= fun _ => moveIn existing path tmp backup >>= fun _ =>
        dropBackup existing backup >>= fun _ => syncParent unix parent).run
      (Replaced s parent path tmp backup bytes) log t := by
  have haround : Around s path tmp backup t := .of_tmp ht names
  have hpath : t path = s path := ht _ (by simpa using names.path_tmp)
  have hbackup : t backup = s backup := ht _ (by simpa using Ne.symm names.tmp_backup)
  rw [wp_tryBind, moveAside]
  cases existing with
  | false => exact wp_moveIn names hparent hexisting haround (hpath.trans hexisting) htmp (fun h => by cases h)
  | true =>
    obtain ⟨old, hold⟩ := id hexisting
    have hstop : ∀ c, WriteStops s path tmp backup bytes (.stopped (.rename path backup) :: log)
        (cut (.rename path backup) c t) := fun _ =>
      .of_old (fun p h => by cases h; exact names.path_backup rfl) haround hpath
    show wp fileCalls 1 _ (attempt (.rename path backup) _).run _ log t
    rcases exec_rename_cases (hpath.trans hold) names.path_backup with hexec | ⟨hexec, hdir⟩
    · rw [wp_attempt hexec]
      refine ⟨hstop, ?_, fun _ _ => .kept haround hpath (.inl (by simp))⟩
      refine wp_moveIn names hparent hexisting ⟨(haround.same.update (by simp) _).update (by simp) _, ?_⟩ ?_ ?_ ?_
      · rw [Function.update_of_ne (Ne.symm names.path_backup), Function.update_self, hold]
        exact .inr (.inr rfl)
      · exact Function.update_self _ _ _
      · rw [Function.update_of_ne (Ne.symm names.path_tmp), Function.update_of_ne names.tmp_backup, htmp]
      · intro _
        rw [Function.update_of_ne (Ne.symm names.path_backup), Function.update_self, hold]
    · rw [wp_attempt hexec]
      rw [hbackup] at hdir
      exact ⟨hstop, .kept haround hpath (.inr hdir), fun _ _ => .kept haround hpath (.inl (by simp))⟩

include names hparent in
theorem wp_replaceContents (hlog : failures log = 0) (hexisting : Existing s path existing) :
    wp fileCalls 1 (WriteStops s path tmp backup bytes) (replaceContents unix existing parent path tmp backup bytes).run
      (Replaced s parent path tmp backup bytes) log s := by
  have hsame : ∀ {t : Files}, SameExcept [tmp] s t → t path = s path := fun ht => ht _ (by simpa using names.path_tmp)
  rw [replaceContents, wp_tryBind]
  refine wp_writeTemporary ?_ ?_ ?_ ?_
  · intro o log' t ho ht
    exact .of_old (fun p => ho p path) (.of_tmp ht names) (hsame ht)
  · intro log' t _ _ ht htmp
    -- the path is looked at again, and is no link
    have hlook : ∃ r, exec (.metadata path) t = (r, t) ∧ ∀ m, r = .ok m → m.kind ≠ .symlink := by
      cases existing with
      | false => exact ⟨_, exec_metadata_none ((hsame ht).trans hexisting), fun m h => by cases h⟩
      | true =>
        obtain ⟨old, hold⟩ := hexisting
        refine ⟨_, exec_metadata ((hsame ht).trans hold), fun m h => ?_⟩
        rw [← Except.ok.inj h]
        show Kind.file ≠ Kind.symlink
        decide
    obtain ⟨r, hexec, hkind⟩ := hlook
    rw [wp_tryBind, checkNotSymlink, wp_tryBind, wp_lift, wp_perform hexec]
    refine ⟨fun _ => .of_old (by simp) (.of_tmp ht names) (hsame ht), ?_, fun _ _ => ?_⟩
    · cases r with
      | ok m =>
        show wp fileCalls 1 _ (if m.kind = .symlink then _ else _ : ExceptT _ _ _).run _ _ t
        rw [if_neg (hkind m rfl)]
        exact wp_moveAside names hparent hexisting ht htmp
      | error e => exact wp_moveAside names hparent hexisting ht htmp
    · exact wp_moveAside names hparent hexisting ht htmp
  · intro e log' h
    exact .refused (h.imp_right fun h => by omega)
  · intro e log' t h _ ht
    exact .kept (.of_tmp ht names) (hsame ht) (.inl (by omega))

/-- Nothing happens when there is a temporary file of the same name. -/
theorem wp_replaceContents_occupied (hs : s tmp ≠ none)
    (hstop : ∀ o log' t, (∀ p q, o ≠ .rename p q) → SameExcept [tmp] s t → I (.stopped o :: log') t) :
    wp fileCalls budget I (replaceContents unix existing parent path tmp backup bytes).run
      (fun r _ t => t = s ∧ ∃ e, r = .error (e, ⟨false, false⟩)) log s := by
  rw [replaceContents, wp_tryBind]
  refine wp_writeTemporary hstop ?_ ?_ ?_
  · intro _ _ _ hfree _ _
    exact absurd hfree hs
  · intro e _ _
    exact ⟨rfl, e, rfl⟩
  · intro _ _ _ _ hfree _
    exact absurd hfree hs

/-- Nothing was in the way of a write. -/
structure Writable (s : Files) (parent path tmp backup : AbsPath) : Prop where
  parent : ∃ entries, s parent = some (.directory entries)
  path : s path = none ∨ ∃ old, s path = some (.file old)
  tmp : s tmp = none
  backup : ∀ entries, s backup ≠ some (.directory entries)

/-- States a write returns in. -/
structure WriteReturns (s : Files) (parent path tmp backup : AbsPath) (bytes : List UInt8) (r : Except ReleaseError Unit)
    (log : List (Event FileOp)) (t : Files) : Prop extends Around s path tmp backup t where
  ok : r = .ok () → t path = some (.file bytes)
  error : ∀ e, r = .error e → t path = s path ∨ .failed (.sync parent) ∈ log ∧ t path = some (.file bytes)
  success : failures log = 0 → Writable s parent path tmp backup → r = .ok ()
  refused : s tmp ≠ none → (∃ e, r = .error e) ∧ t = s

theorem WriteReturns.of_unchanged {e : ReleaseError}
    (h : failures log ≠ 0 ∨ ¬ Writable s parent path tmp backup) :
    WriteReturns s parent path tmp backup bytes (.error e) log s where
  same := SameExcept.refl _ _
  leftover := .inr (.inl rfl)
  ok h := by cases h
  error _ _ := .inl rfl
  success hlog hwritable := (h.elim (absurd hlog) (absurd hwritable))
  refused _ := ⟨⟨e, rfl⟩, rfl⟩

/-- What is left to do after a failure does not matter for the path, unless the old
file has to be moved back. -/
theorem wp_removeTemporary {created : Bool} {Q : Unit → List (Event FileOp) → Files → Prop}
    (hstop : ∀ log', I (.stopped (.removeFile tmp) :: log') t)
    (hdone : ∀ log' u, (∀ o, .failed o ∈ log → .failed o ∈ log') → failures log ≤ failures log' →
      SameExcept [tmp] t u → Q () log' u) :
    wp fileCalls budget I (removeTemporary created tmp) Q log t := by
  rw [removeTemporary]
  cases created with
  | false => exact hdone _ _ (fun _ h => h) le_rfl (SameExcept.refl _ _)
  | true =>
    show wp fileCalls budget I (ignore (.removeFile tmp)) Q log t
    rw [wp_ignore rfl]
    refine ⟨fun _ => hstop _, hdone _ _ (fun _ h => List.mem_cons_of_mem _ h) le_rfl ?_, fun _ _ => ?_⟩
    · exact exec_sameExcept (.removeFile tmp) t
    · exact hdone _ _ (fun _ h => List.mem_cons_of_mem _ h) (by simp) (SameExcept.refl _ _)

include names in
theorem Around.after_tmp {u : Files} (ht : Around s path tmp backup t) (hu : SameExcept [tmp] t u) :
    Around s path tmp backup u where
  same := ht.same.trans (hu.mono (by simp))
  leftover := by
    rw [hu backup (by simpa using Ne.symm names.tmp_backup)]
    exact ht.leftover

include names in
/-- **A failed write.** -/
theorem wp_undoWrite {e : ReleaseError} {flags : WriteFlags} (hs : s tmp = none)
    (h : Replaced s parent path tmp backup bytes (.error (e, flags)) log t) :
    wp fileCalls 1 (WriteStops s path tmp backup bytes) (undoWrite path tmp backup flags)
      (fun _ => WriteReturns s parent path tmp backup bytes (.error e)) log t := by
  have hpath : ∀ {u : Files}, SameExcept [tmp] t u → u path = t path := fun hu => hu _ (by simpa using names.path_tmp)
  rw [undoWrite, wp_bind]
  cases h with
  | refused hreason => exact .of_unchanged (hreason.elim (absurd hs) fun h => .inl (by omega))
  | kept ht hold hreason =>
    -- the old state stays, and its temporary goes
    refine wp_removeTemporary (fun _ => .of_old (by simp) ht hold) fun log' u _ hlog hu => ?_
    show WriteReturns s parent path tmp backup bytes (.error e) log' u
    exact {
      toAround := ht.after_tmp names hu
      ok := fun h => by cases h
      error := fun _ _ => .inl ((hpath hu).trans hold)
      success := fun hzero hwritable => by
        obtain hreason | ⟨entries, hdir⟩ := hreason
        · omega
        · exact absurd hdir (hwritable.backup entries)
      refused := fun h => absurd hs h }
  | unsynced ht hnew hsync hreason =>
    -- the new state is in place: only the sync of the directory failed
    refine wp_removeTemporary (fun _ => .of_new (by simp) ht hnew) fun log' u hkeep hlog hu => ?_
    show WriteReturns s parent path tmp backup bytes (.error e) log' u
    exact {
      toAround := ht.after_tmp names hu
      ok := fun h => by cases h
      error := fun _ _ => .inr ⟨hkeep _ hsync, (hpath hu).trans hnew⟩
      success := fun hzero _ => by omega
      refused := fun h => absurd hs h }
  | moved ht hnew hbackup hold hreason =>
    -- the backup could not be removed: the new state goes, and the backup comes back
    obtain ⟨old, hold⟩ := hold
    refine wp_removeTemporary (fun _ => .of_new (by simp) ht hnew) fun log' u _ hlog hu => ?_
    have haround := ht.after_tmp names hu
    have hu_path : u path = some (.file bytes) := (hpath hu).trans hnew
    have hu_backup : u backup = some (.file old) :=
      (hu _ (by simpa using Ne.symm names.tmp_backup)).trans (hbackup.trans hold)
    show wp fileCalls 1 _ (ignore (.removeFile path) >>= fun _ => ignore (.rename backup path)) _ log' u
    rw [wp_bind, wp_ignore (exec_removeFile hu_path)]
    refine ⟨fun _ => .of_new (by simp) haround hu_path, ?_, fun hagain => by omega⟩
    -- between the two calls there is no state
    have hmissing : Function.update u path none path = none := Function.update_self _ _ _
    have hu_backup' : Function.update u path none backup = some (.file old) := by
      rw [Function.update_of_ne (Ne.symm names.path_backup), hu_backup]
    have haround' : Around s path tmp backup (Function.update u path none) := {
      same := haround.same.update (by simp) none
      leftover := .inr (.inr (hu_backup'.trans hold.symm)) }
    generalize Function.update u path none = v at hmissing hu_backup' haround'
    rw [wp_ignore (exec_rename hu_backup' (by simp [hmissing]) (Ne.symm names.path_backup))]
    refine ⟨fun _ => .of_missing haround' hmissing, ?_, fun hagain => ?_⟩
    · exact {
        same := (haround'.same.update (by simp) _).update (by simp) _
        leftover := .inl (Function.update_self _ _ _)
        ok := fun h => by cases h
        error := fun _ _ => .inl (by rw [Function.update_of_ne names.path_backup, Function.update_self, hold])
        success := fun hzero _ => by rw [failures_done, failures_done] at hzero; omega
        refused := fun h => absurd hs h }
    · rw [failures_done] at hagain
      omega

include names hparent in
/-- The write proper, after the state's file was inspected. -/
theorem wp_finishWrite (hlog : failures log = 0) (hexisting : Existing s path existing) :
    wp fileCalls 1 (WriteStops s path tmp backup bytes) (liftM (replaceContents unix existing parent path tmp backup
        bytes).run >>= finishWrite path tmp backup : ExceptT ReleaseError FileProg Unit).run
      (WriteReturns s parent path tmp backup bytes) log s := by
  rw [wp_tryBind, wp_lift]
  by_cases hs : s tmp = none
  · refine wp_mono (fun r log' t h => ?_) (fun _ _ h => h) (wp_replaceContents names hparent hlog hexisting)
    match r with
    | .ok () =>
      obtain ⟨haround, hnew, htmp⟩ := h
      exact {
        toAround := haround
        ok := fun _ => hnew
        error := fun e he => by cases he
        success := fun _ _ => rfl
        refused := fun h => absurd hs h }
    | .error (e, flags) =>
      show wp fileCalls 1 _ (liftM (undoWrite path tmp backup flags) >>= fun _ => throw e : ExceptT _ _ _).run _ log' t
      rw [wp_tryBind, wp_lift]
      exact wp_undoWrite names hs h
  · refine wp_mono ?_ (fun _ _ h => h) (wp_replaceContents_occupied hs fun o log' t ho ht =>
      .of_old (fun p => ho p path) (.of_tmp ht names) (ht _ (by simpa using names.path_tmp)))
    rintro _ log' t ⟨rfl, e, rfl⟩
    exact .of_unchanged (.inr fun h => hs h.tmp)

include names in
theorem wp_writeThrough (hlog : failures log = 0) :
    wp fileCalls 1 (WriteStops s path tmp backup bytes) (writeThrough unix parent path tmp backup bytes).run
      (WriteReturns s parent path tmp backup bytes) log s := by
  have hstop : ∀ {o : FileOp} {log' : List (Event FileOp)}, (∀ p q, o ≠ .rename p q) →
      WriteStops s path tmp backup bytes (.stopped o :: log') s := fun ho =>
    .of_old (fun p => ho p path) (.of_tmp (SameExcept.refl _ _) names) rfl
  have hfailed : ∀ {e : ReleaseError} {o : FileOp} {log' : List (Event FileOp)},
      WriteReturns s parent path tmp backup bytes (.error e) (.failed o :: log') s := .of_unchanged (.inl (by simp))
  rw [writeThrough, wp_tryBind]
  cases hnode : s parent with
  | none =>
    rw [wp_attempt (exec_metadata_none hnode)]
    refine ⟨fun _ => hstop (by simp), .of_unchanged (.inr fun h => ?_), fun _ _ => hfailed⟩
    -- without a directory nothing can be written there
    obtain ⟨entries, hdir⟩ := h.parent
    cases hnode.symm.trans hdir
  | some node =>
    rw [wp_attempt (exec_metadata hnode)]
    refine ⟨fun _ => hstop (by simp), ?_, fun _ _ => hfailed⟩
    show wp fileCalls 1 _ (checkParent node.metadata >>= _ : ExceptT _ _ _).run _ _ s
    rw [wp_tryBind, checkParent]
    by_cases hdir : ∃ entries, node = .directory entries
    · obtain ⟨entries, rfl⟩ := hdir
      show wp fileCalls 1 _ (inspectExisting path >>= _ : ExceptT _ _ _).run _ _ s
      rw [wp_tryBind, inspectExisting, wp_tryBind, wp_lift]
      cases hpath : s path with
      | none =>
        rw [wp_perform (exec_metadata_none hpath)]
        exact ⟨fun _ => hstop (by simp), wp_finishWrite names ⟨entries, hnode⟩ (by simpa using hlog) hpath,
          fun _ _ => hfailed⟩
      | some file =>
        rw [wp_perform (exec_metadata hpath)]
        refine ⟨fun _ => hstop (by simp), ?_, fun _ _ => hfailed⟩
        have hother : (∀ old, file ≠ .file old) → ¬ Writable s parent path tmp backup := by
          rintro hfile ⟨-, hold | ⟨old, hold⟩, -, -⟩
          · cases hpath.symm.trans hold
          · exact hfile old (Option.some_inj.mp (hpath.symm.trans hold))
        cases file with
        | file old => exact wp_finishWrite names ⟨entries, hnode⟩ (by simpa using hlog) ⟨old, hpath⟩
        | directory _ => exact .of_unchanged (.inr (hother (by simp)))
        | symlink _ => exact .of_unchanged (.inr (hother (by simp)))
    · have hkind : node.metadata.kind ≠ .directory := by
        cases node with
        | directory entries => exact absurd ⟨entries, rfl⟩ hdir
        | file _ => simp [Node.metadata]
        | symlink _ => simp [Node.metadata]
      rw [if_pos hkind]
      refine .of_unchanged (.inr fun h => ?_)
      obtain ⟨entries, h⟩ := h.parent
      exact hdir ⟨entries, Option.some_inj.mp (hnode.symm.trans h)⟩

end Steps

end Parts

/-! ### The whole write -/

section Write

variable {s : Files} {unix : Bool} {pid : Nat} {parent : AbsPath} {name : String} {bytes : List UInt8}
  {log : List (Event FileOp)}

theorem temporaryName_ne_backupName (name : String) (pid pid' : Nat) : temporaryName name pid ≠ backupName name pid' := by
  intro h
  have hchars := congrArg String.toList h
  simp only [temporaryName, backupName, String.toList_append, List.append_assoc] at hchars
  have htail : ".tmp-".toList ++ (toString pid).toList = ".bak-".toList ++ (toString pid').toList :=
    List.append_cancel_left (List.append_cancel_left hchars)
  cases htail

theorem toString_injective {pid pid' : Nat} (h : (toString pid).toList = (toString pid').toList) : pid = pid' := by
  have hrepr : ∀ n : Nat, (toString n).toList = Text.numeral n := fun n => String.toList_ofList
  rw [hrepr, hrepr] at h
  exact Text.numeral_injective h

theorem temporaryName_injective {name : String} {pid pid' : Nat} (h : temporaryName name pid = temporaryName name pid') :
    pid = pid' := by
  have hchars := congrArg String.toList h
  simp only [temporaryName, String.toList_append, List.append_assoc] at hchars
  exact toString_injective (List.append_cancel_left (List.append_cancel_left (List.append_cancel_left hchars)))

theorem backupName_injective {name : String} {pid pid' : Nat} (h : backupName name pid = backupName name pid') :
    pid = pid' := by
  have hchars := congrArg String.toList h
  simp only [backupName, String.toList_append, List.append_assoc] at hchars
  exact toString_injective (List.append_cancel_left (List.append_cancel_left (List.append_cancel_left hchars)))

theorem ne_temporaryName (name : String) (pid : Nat) : name ≠ temporaryName name pid := by
  intro h
  have hlen := congrArg String.length h
  have hdot : ".".length = 1 := rfl
  simp only [temporaryName, String.length_append] at hlen
  omega

theorem ne_backupName (name : String) (pid : Nat) : name ≠ backupName name pid := by
  intro h
  have hlen := congrArg String.length h
  have hdot : ".".length = 1 := rfl
  simp only [backupName, String.length_append] at hlen
  omega

theorem append_singleton_ne {a b : String} (h : a ≠ b) (parent : AbsPath) : parent ++ [a] ≠ parent ++ [b] := by
  intro heq
  exact h (List.singleton_inj.mp (List.append_cancel_left heq))

theorem writeNames (parent : AbsPath) (name : String) (pid : Nat) :
    WriteNames parent (parent ++ [name]) (parent ++ [temporaryName name pid]) (parent ++ [backupName name pid]) where
  path_tmp := append_singleton_ne (ne_temporaryName _ _) _
  path_backup := append_singleton_ne (ne_backupName _ _) _
  tmp_backup := append_singleton_ne (temporaryName_ne_backupName _ _ _) _
  parent_notin := by simp

/-- **A write of the state.** -/
theorem wp_safeAtomicWrite (hlog : failures log = 0) :
    wp fileCalls 1
      (WriteStops s (parent ++ [name]) (parent ++ [temporaryName name pid]) (parent ++ [backupName name pid]) bytes)
      (safeAtomicWrite unix pid parent name bytes).run
      (WriteReturns s parent (parent ++ [name]) (parent ++ [temporaryName name pid]) (parent ++ [backupName name pid])
        bytes) log s :=
  wp_writeThrough (writeNames parent name pid) hlog

end Write

/-! ### Interrupted writes, one after another -/

/-- A run of a write. -/
def runWrite (unix : Bool) (parent : AbsPath) (name : String) (pid : Nat) (bytes : List UInt8) (plan : List (Fate Cut))
    (s : Files) : Outcome FileOp Files (Except ReleaseError Unit) :=
  (safeAtomicWrite unix pid parent name bytes).run.execute fileCalls plan [] s

/-- A directory without traces of a write. -/
structure Clean (parent : AbsPath) (name : String) (s : Files) : Prop where
  directory : ∃ entries, s parent = some (.directory entries)
  state : s (parent ++ [name]) = none ∨ ∃ old, s (parent ++ [name]) = some (.file old)
  temporary : ∀ pid, s (parent ++ [temporaryName name pid]) = none
  backups : ∀ pid, s (parent ++ [backupName name pid]) = none

/-- Writes by processes with some ids, each interrupted anywhere and with at most
one failing call. -/
inductive Writes (unix : Bool) (parent : AbsPath) (name : String) (s : Files) : List Nat → Files → Prop where
  | start : Writes unix parent name s [] s
  | write {pids : List Nat} {t : Files} {pid : Nat} {bytes : List UInt8} {plan : List (Fate Cut)} :
    Writes unix parent name s pids t → planned plan ≤ 1 →
    Writes unix parent name s (pid :: pids) (runWrite unix parent name pid bytes plan t).final

/-- What is left over after writes by processes with some ids. -/
structure Leftovers (parent : AbsPath) (name : String) (pids : List Nat) (s : Files) : Prop where
  directory : ∃ entries, s parent = some (.directory entries)
  state : s (parent ++ [name]) = none ∨ ∃ old, s (parent ++ [name]) = some (.file old)
  temporary : ∀ pid ∉ pids, s (parent ++ [temporaryName name pid]) = none
  backups : ∀ pid, s (parent ++ [backupName name pid]) = none ∨
    ∃ old, s (parent ++ [backupName name pid]) = some (.file old)

variable {unix : Bool} {parent : AbsPath} {name : String} {s t : Files} {pids : List Nat} {pid : Nat} {bytes : List UInt8}
  {plan : List (Fate Cut)}

theorem Clean.leftovers (h : Clean parent name s) : Leftovers parent name [] s where
  directory := h.directory
  state := h.state
  temporary pid _ := h.temporary pid
  backups pid := .inl (h.backups pid)

theorem Leftovers.writable (h : Leftovers parent name pids s) (hpid : pid ∉ pids) :
    Writable s parent (parent ++ [name]) (parent ++ [temporaryName name pid]) (parent ++ [backupName name pid]) where
  parent := h.directory
  path := h.state
  tmp := h.temporary pid hpid
  backup entries hdir := by
    rcases h.backups pid with hnone | ⟨old, hold⟩
    · cases hdir.symm.trans hnone
    · cases hdir.symm.trans hold

/-- What a write leaves of a state it was started in. -/
theorem runWrite_satisfies (hplan : planned plan ≤ 1) :
    (runWrite unix parent name pid bytes plan s).Satisfies
      (WriteReturns s parent (parent ++ [name]) (parent ++ [temporaryName name pid]) (parent ++ [backupName name pid])
        bytes)
      (WriteStops s (parent ++ [name]) (parent ++ [temporaryName name pid]) (parent ++ [backupName name pid]) bytes) :=
  execute_of_wp plan (wp_safeAtomicWrite rfl) (by rw [failures_nil]; omega)

/-- **What one write preserves.** -/
theorem Leftovers.write (h : Leftovers parent name pids s) (hplan : planned plan ≤ 1) :
    Leftovers parent name (pid :: pids) (runWrite unix parent name pid bytes plan s).final := by
  -- however the write ends, little has changed
  have hkeep : ∀ t : Files, Around s (parent ++ [name]) (parent ++ [temporaryName name pid])
      (parent ++ [backupName name pid]) t →
      (t (parent ++ [name]) = none ∨ t (parent ++ [name]) = s (parent ++ [name]) ∨
        t (parent ++ [name]) = some (.file bytes)) → Leftovers parent name (pid :: pids) t := by
    intro t ht hpath
    refine ⟨?_, ?_, fun pid' hpid' => ?_, fun pid' => ?_⟩
    · obtain ⟨entries, hdir⟩ := h.directory
      exact ⟨entries, (ht.same _ (writeNames parent name pid).parent_notin).trans hdir⟩
    · rcases hpath with hnone | hold | hnew
      · exact .inl hnone
      · rw [hold]
        exact h.state
      · exact .inr ⟨bytes, hnew⟩
    · obtain ⟨hne, hnotin⟩ := not_or.mp (fun h => hpid' (List.mem_cons.mpr h))
      rw [ht.same, h.temporary pid' hnotin]
      simp only [List.mem_cons, List.not_mem_nil, or_false, not_or]
      exact ⟨append_singleton_ne (Ne.symm (ne_temporaryName _ _)) _,
        append_singleton_ne (fun heq => hne (temporaryName_injective heq)) _,
        append_singleton_ne (temporaryName_ne_backupName _ _ _) _⟩
    · by_cases hpid : pid' = pid
      · subst hpid
        rcases ht.leftover with hnone | hsame | hold
        · exact .inl hnone
        · rw [hsame]
          exact h.backups pid'
        · rw [hold]
          exact h.state
      · rw [ht.same]
        · exact h.backups pid'
        · simp only [List.mem_cons, List.not_mem_nil, or_false, not_or]
          exact ⟨append_singleton_ne (Ne.symm (ne_backupName _ _)) _,
            append_singleton_ne (Ne.symm (temporaryName_ne_backupName _ _ _)) _,
            append_singleton_ne (fun heq => hpid (backupName_injective heq)) _⟩
  have hrun := @runWrite_satisfies unix parent name s pid bytes plan hplan
  cases hout : runWrite unix parent name pid bytes plan s with
  | returned r log t =>
    rw [hout] at hrun
    refine hkeep t hrun.toAround ?_
    cases r with
    | ok _ => exact .inr (.inr (hrun.ok rfl))
    | error e => exact .inr ((hrun.error e rfl).imp_right And.right)
  | stopped log t =>
    rw [hout] at hrun
    refine hkeep t hrun.toAround ?_
    by_cases hbefore : BeforeRename (parent ++ [name]) log
    · exact .inl (hrun.missing hbefore)
    · exact .inr (hrun.contents hbefore)

/-- **What any number of writes leave over.** -/
theorem Writes.leftovers (h : Writes unix parent name s pids t) (hs : Clean parent name s) :
    Leftovers parent name pids t := by
  induction h with
  | start => exact hs.leftovers
  | write _ hplan ih => exact ih.write hplan

/-- The path holds the old file or the new one after a write, unless the process
stopped while the old file was moved aside; after an error it holds the old one, or
the new one if it was the directory that could not be synced. -/
def OldOrNew (parent : AbsPath) (name : String) (old : Option Node) (new : List UInt8) :
    Outcome FileOp Files (Except ReleaseError Unit) → Prop
  | .returned (.ok _) _ s => s (parent ++ [name]) = some (.file new)
  | .returned (.error _) log s => s (parent ++ [name]) = old ∨
      .failed (.sync parent) ∈ log ∧ s (parent ++ [name]) = some (.file new)
  | .stopped log s => old ≠ none ∧ BeforeRename (parent ++ [name]) log ∨ s (parent ++ [name]) = old ∨
      s (parent ++ [name]) = some (.file new)

theorem oldOrNew_runWrite (hplan : planned plan ≤ 1) :
    OldOrNew parent name (s (parent ++ [name])) bytes (runWrite unix parent name pid bytes plan s) := by
  have hrun := @runWrite_satisfies unix parent name s pid bytes plan hplan
  cases hout : runWrite unix parent name pid bytes plan s with
  | returned r log t =>
    rw [hout] at hrun
    cases r with
    | ok _ => exact hrun.ok rfl
    | error e => exact hrun.error e rfl
  | stopped log t =>
    rw [hout] at hrun
    by_cases hbefore : BeforeRename (parent ++ [name]) log
    · by_cases hold : s (parent ++ [name]) = none
      · exact .inr (.inl ((hrun.missing hbefore).trans hold.symm))
      · exact .inl ⟨hold, hbefore⟩
    · exact .inr (hrun.contents hbefore)

/-- A write without failing calls succeeds. -/
def Succeeds : Outcome FileOp Files (Except ReleaseError Unit) → Prop
  | .returned (.ok _) _ _ => True
  | _ => False

/-- The write is refused and nothing has changed. -/
def Refused (s : Files) : Outcome FileOp Files (Except ReleaseError Unit) → Prop
  | .returned (.error _) _ t => t = s
  | _ => False

/-- A write that is not stopped returns. -/
theorem runWrite_returned (hplan : planned plan ≤ 1) (hstop : ∀ c, .stopped c ∉ plan) :
    ∃ r log t, runWrite unix parent name pid bytes plan s = .returned r log t ∧ failures log ≤ planned plan ∧
      WriteReturns s parent (parent ++ [name]) (parent ++ [temporaryName name pid]) (parent ++ [backupName name pid])
        bytes r log t := by
  obtain ⟨r, log, t, hout⟩ := execute_returned fileCalls
    (safeAtomicWrite unix pid parent name bytes).run hstop [] s
  have hrun := @runWrite_satisfies unix parent name s pid bytes plan hplan
  have hfail : failures (runWrite unix parent name pid bytes plan s).log ≤ 0 + planned plan :=
    failures_execute fileCalls (safeAtomicWrite unix pid parent name bytes).run plan [] s
  rw [runWrite, hout] at hrun hfail
  exact ⟨r, log, t, hout, by rwa [Nat.zero_add] at hfail, hrun⟩

/-- A directory with a state. -/
def stateDirectory (parent : AbsPath) (name : String) (old : List UInt8) : Files := fun p =>
  if p = parent then some (.directory []) else if p = parent ++ [name] then some (.file old) else none

theorem clean_stateDirectory (parent : AbsPath) (name : String) (old : List UInt8) :
    Clean parent name (stateDirectory parent name old) := by
  have hnone : ∀ {a : String}, name ≠ a → stateDirectory parent name old (parent ++ [a]) = none := by
    intro a ha
    rw [stateDirectory, if_neg (by simp), if_neg (append_singleton_ne (Ne.symm ha) parent)]
  refine ⟨⟨[], if_pos rfl⟩, .inr ⟨old, ?_⟩, fun pid => hnone (ne_temporaryName _ _), fun pid => hnone (ne_backupName _ _)⟩
  rw [stateDirectory, if_neg (by simp), if_pos rfl]

/-- The temporary file is there once it was created. -/
def untilWritten : List (Fate Cut) := [.done, .done, .done, .stopped ⟨none, []⟩]

/-- **Interrupted writes.**  Whatever writes were interrupted before, a write
leaves the old file or the new one; their temporary files are only in the way of a
process with the same id, whose write is then refused. -/
theorem writes_oldOrNew (hs : Clean parent name s) (h : Writes unix parent name s pids t) :
    (∀ pid bytes plan, planned plan ≤ 1 →
      OldOrNew parent name (t (parent ++ [name])) bytes (runWrite unix parent name pid bytes plan t)) ∧
    (∀ pid bytes, pid ∉ pids → Succeeds (runWrite unix parent name pid bytes [] t)) ∧
    (∀ pid bytes plan, t (parent ++ [temporaryName name pid]) ≠ none → planned plan ≤ 1 → (∀ c, .stopped c ∉ plan) →
      Refused t (runWrite unix parent name pid bytes plan t)) := by
  refine ⟨fun pid bytes plan hplan => oldOrNew_runWrite hplan, fun pid bytes hpid => ?_,
    fun pid bytes plan htmp hplan hstop => ?_⟩
  · obtain ⟨r, log, u, hout, hfail, hrun⟩ := @runWrite_returned unix parent name t pid bytes [] (Nat.zero_le 1)
      fun _ => List.not_mem_nil
    obtain rfl := hrun.success (Nat.le_zero.mp hfail) ((h.leftovers hs).writable hpid)
    rw [hout]
    trivial
  · obtain ⟨r, log, u, hout, _, hrun⟩ := @runWrite_returned unix parent name t pid bytes plan hplan hstop
    obtain ⟨⟨e, rfl⟩, rfl⟩ := hrun.refused htmp
    rw [hout]
    rfl

/-- Process 7 stopped, and process 8 writes. -/
theorem writes_oldOrNew_stopped : Clean ["bin"] "state.json" (stateDirectory ["bin"] "state.json" [123]) ∧
    Succeeds (runWrite false ["bin"] "state.json" 8 [125] [] (runWrite false ["bin"] "state.json" 7 [125] untilWritten
      (stateDirectory ["bin"] "state.json" [123])).final) := by
  have hwrites : Writes false ["bin"] "state.json" (stateDirectory ["bin"] "state.json" [123]) [7]
      (runWrite false ["bin"] "state.json" 7 [125] untilWritten (stateDirectory ["bin"] "state.json" [123])).final :=
    Writes.write Writes.start (by decide)
  have hclean := clean_stateDirectory ["bin"] "state.json" [123]
  exact ⟨hclean, (writes_oldOrNew hclean hwrites).2.1 8 [125] (by decide)⟩

/-- The path holds the old file or the new one, and the old one after an error. -/
def StrictlyOldOrNew (parent : AbsPath) (name : String) (old : Option Node) (new : List UInt8) :
    Outcome FileOp Files (Except ReleaseError Unit) → Prop
  | .returned (.ok _) _ s => s (parent ++ [name]) = some (.file new)
  | .returned (.error _) _ s => s (parent ++ [name]) = old
  | .stopped _ s => s (parent ++ [name]) = old ∨ s (parent ++ [name]) = some (.file new)

/-- A write that was interrupted is in the way of the next one with its id. -/
theorem not_forall_writes_succeed : ¬ ∀ (unix : Bool) (parent : AbsPath) (name : String) (s t : Files) (pids : List Nat),
    Clean parent name s → Writes unix parent name s pids t →
    (∀ pid bytes plan, planned plan ≤ 1 →
      StrictlyOldOrNew parent name (t (parent ++ [name])) bytes (runWrite unix parent name pid bytes plan t)) ∧
    ∀ pid bytes, Succeeds (runWrite unix parent name pid bytes [] t) := by
  intro hall
  have hwrites : Writes false ["bin"] "state.json" (stateDirectory ["bin"] "state.json" [123]) [7]
      (runWrite false ["bin"] "state.json" 7 [125] untilWritten (stateDirectory ["bin"] "state.json" [123])).final :=
    Writes.write Writes.start (by decide)
  obtain ⟨-, hsucceeds⟩ := hall _ _ _ _ _ _ (clean_stateDirectory _ _ _) hwrites
  have htmp : (runWrite false ["bin"] "state.json" 7 [125] untilWritten
      (stateDirectory ["bin"] "state.json" [123])).final (["bin"] ++ [temporaryName "state.json" 7]) ≠ none := by
    rw [← Option.isSome_iff_ne_none]
    decide
  obtain ⟨r, log, u, hout, _, hrun⟩ := @runWrite_returned false ["bin"] "state.json" _ 7 [125] [] (Nat.zero_le 1)
    fun _ => List.not_mem_nil
  obtain ⟨⟨e, rfl⟩, _⟩ := hrun.refused htmp
  have hsuccess := hsucceeds 7 [125]
  rw [hout] at hsuccess
  exact hsuccess

end Tapid
