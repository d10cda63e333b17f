/-
Replacing the record of a lifecycle transaction.

A record is written to a temporary file of its own and renamed to the journal.
Where a rename cannot replace a file, the journal is first moved to a backup, which
recovery moves back when there is no journal.

* `writeRecord`, `readRecord`, `removeJournal` — the calls on the files;
* `Reads` — which record recovery finds;
* `wp_writeRecordBytes`, `wp_loadJournal`, `wp_removeJournal` — what each of them leaves,
  wherever it stops;
* `wp_writeRecordBytes_ok` — a write that nothing disturbs succeeds;
* `journal_reads_published` — recovery reads the record that was published last.
-/
import Tapid.JsonText
import Tapid.LifecycleRecord

namespace Tapid

open FileSystem FileProg Interrupted Fallible

/-! ### Calls -/

def journalPath (project : AbsPath) : AbsPath := project ++ [".tapid-lifecycle-journal.json"]

def journalBackupPath (project : AbsPath) : AbsPath := project ++ [".tapid-lifecycle-journal.lifecycle.bak"]

/-- Nonces are not used twice. -/
def journalTemporaryPath (project : AbsPath) (nonce : String) : AbsPath :=
  project ++ [".tapid-lifecycle-journal.json." ++ nonce ++ ".tmp"]

def context (message : String) (e : IoError) : String := message ++ e.text

def syncProject (project : AbsPath) : ExceptT String FileProg Unit :=
  attempt (.sync project) (context "cannot sync lifecycle directory: ")

/-- A leftover backup makes way for the journal, or becomes the journal. -/
def clearBackup (target backup : AbsPath) : ExceptT String FileProg Unit := do
  match ← perform (.present backup) with
  | .ok true =>
    match ← perform (.present target) with
    | .ok true => attempt (.removeFile backup) IoError.text
    | _ => attempt (.rename backup target) IoError.text
  | _ => return ()

/-- The old journal comes back when the new one cannot take its place. -/
def moveRecordIn (project temp target backup : AbsPath) : ExceptT String FileProg Unit := do
  match ← perform (.rename temp target) with
  | .ok _ => return ()
  | .error e =>
    ignore (.rename backup target)
    ignore (.sync project)
    throw e.text

def replaceThroughBackup (project temp target backup : AbsPath) : ExceptT String FileProg Unit := do
  clearBackup target backup
  attempt (.rename target backup) IoError.text
  syncProject project
  moveRecordIn project temp target backup
  syncProject project
  attempt (.removeFile backup) IoError.text
  syncProject project

/-- A failing look at the target counts as its absence. -/
def replaceJournalFile (unix forceFallback : Bool) (project temp target backup : AbsPath) :
    ExceptT String FileProg Unit := do
  match ← perform (.present target) with
  | .ok true =>
    if unix && !forceFallback then attempt (.rename temp target) IoError.text
    else replaceThroughBackup project temp target backup
  | _ => attempt (.rename temp target) IoError.text

def writeTemporaryRecord (temp : AbsPath) (bytes : List UInt8) : ExceptT String FileProg Unit := do
  attempt (.createNew temp) (context "cannot create lifecycle journal: ")
  attempt (.writeAll temp bytes) (context "cannot persist lifecycle journal: ")
  attempt (.sync temp) (context "cannot persist lifecycle journal: ")

/-- The write of the bytes of a record. -/
def writeRecordBytes (unix forceFallback : Bool) (project : AbsPath) (nonce : String) (bytes : List UInt8) :
    ExceptT String FileProg Unit := do
  writeTemporaryRecord (journalTemporaryPath project nonce) bytes
  ExceptT.adapt (fun e => "cannot publish lifecycle journal: " ++ e) (replaceJournalFile unix forceFallback project
    (journalTemporaryPath project nonce) (journalPath project) (journalBackupPath project))
  syncProject project

def writeRecord (codec : JsonCodec) (unix forceFallback : Bool) (project : AbsPath) (nonce : String)
    (record : LifecycleRecord) : ExceptT String FileProg Unit := do
  if (toVec codec record.toValue).length > maxJournalBytes then
    throw "lifecycle recovery state exceeds encoded size limit"
  else writeRecordBytes unix forceFallback project nonce (toVec codec record.toValue)

/-- A backup is moved back when there is no journal. -/
def restoreBackup (project : AbsPath) : ExceptT String FileProg (Option Metadata) := do
  match ← perform (.metadata (journalBackupPath project)) with
  | .ok m =>
    if m.kind ≠ .file then throw "refusing to recover a non-regular lifecycle journal backup"
    else if m.len > maxJournalBytes then throw "refusing to recover an oversized lifecycle journal backup"
    else do
      attempt (.rename (journalBackupPath project) (journalPath project))
        (context "cannot restore interrupted lifecycle journal update: ")
      syncProject project
      return some (← attempt (.metadata (journalPath project)) (context "cannot inspect restored lifecycle journal: "))
  | .error .notFound => return none
  | .error e => throw (context "cannot inspect lifecycle journal backup: " e)

/-- The journal, or the backup in its place. -/
def selectJournal (project : AbsPath) : ExceptT String FileProg (Option Metadata) := do
  match ← perform (.metadata (journalPath project)) with
  | .ok m => if m.kind = .file then return some m else throw "refusing to recover a non-regular lifecycle journal"
  | .error .notFound => restoreBackup project
  | .error e => throw (context "cannot inspect lifecycle journal: " e)

def readJournal (project : AbsPath) (selected : Option Metadata) : ExceptT String FileProg (Option (List UInt8)) :=
  match selected with
  | none => return none
  | some m => do
    if m.len > maxJournalBytes then throw "refusing to recover an oversized lifecycle journal"
    else return some (← attempt (.read (journalPath project)) (context "cannot read lifecycle journal: "))

def loadJournal (project : AbsPath) : ExceptT String FileProg (Option (List UInt8)) := do
  readJournal project (← selectJournal project)

/-- The record recovery starts from. -/
def readRecord (codec : JsonCodec) (project : AbsPath) : ExceptT String FileProg (Option LifecycleRecord) := do
  match ← loadJournal project with
  | none => return none
  | some bytes =>
    match parseRecord codec bytes with
    | .ok record => return some record
    | .error e => throw ("refusing to recover a malformed lifecycle journal: " ++ e)

def clearJournalBackup (project : AbsPath) : ExceptT String FileProg Unit := do
  match ← perform (.metadata (journalBackupPath project)) with
  | .ok m =>
    if m.kind ≠ .file then throw "refusing to remove a non-regular lifecycle journal backup"
    else do
      attempt (.removeFile (journalBackupPath project)) (context "cannot remove stale lifecycle journal backup: ")
      syncProject project
  | .error .notFound => return ()
  | .error e => throw (context "cannot inspect lifecycle journal backup: " e)

def removeJournal (project : AbsPath) : ExceptT String FileProg Unit := do
  clearJournalBackup project
  match ← perform (.removeFile (journalPath project)) with
  | .ok _ => syncProject project
  | .error .notFound => return ()
  | .error e => throw (context "cannot remove lifecycle journal: " e)

/-! ### Names -/

theorem journal_ne_backup (project : AbsPath) : journalPath project ≠ journalBackupPath project := by
  intro h
  have hname : [".tapid-lifecycle-journal.json"] = [".tapid-lifecycle-journal.lifecycle.bak"] :=
    List.append_cancel_left h
  exact absurd hname (by decide)

theorem temporary_ne_journal (project : AbsPath) (nonce : String) :
    journalTemporaryPath project nonce ≠ journalPath project := by
  intro h
  have hname : [".tapid-lifecycle-journal.json." ++ nonce ++ ".tmp"] = [".tapid-lifecycle-journal.json"] :=
    List.append_cancel_left h
  have hlen := congrArg String.length (List.singleton_inj.mp hname)
  have hjson : ".tapid-lifecycle-journal.json".length = 29 := by decide
  have hdot : ".tapid-lifecycle-journal.json.".length = 30 := by decide
  rw [String.length_append, String.length_append, hjson, hdot] at hlen
  omega

theorem temporary_ne_backup (project : AbsPath) (nonce : String) :
    journalTemporaryPath project nonce ≠ journalBackupPath project := by
  intro h
  have hname : [".tapid-lifecycle-journal.json." ++ nonce ++ ".tmp"] = [".tapid-lifecycle-journal.lifecycle.bak"] :=
    List.append_cancel_left h
  have hchars := congrArg String.toList (List.singleton_inj.mp hname)
  rw [String.toList_append, String.toList_append, List.append_assoc] at hchars
  have hstart := congrArg (List.take 26) hchars
  rw [List.take_append_of_le_length (by decide)] at hstart
  exact absurd hstart (by decide)

/-! ### What recovery finds -/

/-- Recovery finds these bytes, or nothing. -/
def Reads (project : AbsPath) (r : Option (List UInt8)) (s : Files) : Prop :=
  match r with
  | some bytes => s (journalPath project) = some (.file bytes) ∨
      s (journalPath project) = none ∧ s (journalBackupPath project) = some (.file bytes)
  | none => s (journalPath project) = none ∧ s (journalBackupPath project) = none

/-- The new journal has taken its place. -/
def Published (project : AbsPath) (nonce : String) (log : List (Event FileOp)) : Prop :=
  .done (.rename (journalTemporaryPath project nonce) (journalPath project)) ∈ log

instance (project : AbsPath) (nonce : String) (log : List (Event FileOp)) : Decidable (Published project nonce log) :=
  inferInstanceAs (Decidable (_ ∈ log))

/-- Recovery finds the old record until the new one is published. -/
def Replacing (project : AbsPath) (nonce : String) (old : Option (List UInt8)) (new : List UInt8)
    (log : List (Event FileOp)) (s : Files) : Prop :=
  Reads project (if Published project nonce log then some new else old) s

section Write

variable {project : AbsPath} {nonce : String} {old : Option (List UInt8)} {new : List UInt8}
  {log : List (Event FileOp)} {s t : Files} {unix forceFallback : Bool}

theorem Reads.of_same (h : Reads project old s) (hj : t (journalPath project) = s (journalPath project))
    (hb : t (journalBackupPath project) = s (journalBackupPath project)) : Reads project old t := by
  cases old with
  | none =>
    rw [Reads, hj, hb]
    exact h
  | some bytes =>
    rw [Reads, hj, hb]
    exact h

theorem Replacing.of_old {e : Event FileOp} (hlog : ¬ Published project nonce log)
    (he : e ≠ .done (.rename (journalTemporaryPath project nonce) (journalPath project))) (h : Reads project old s) :
    Replacing project nonce old new (e :: log) s := by
  have hnot : ¬ Published project nonce (e :: log) := fun hmem =>
    (List.mem_cons.mp hmem).elim (fun heq => he heq.symm) hlog
  rw [Replacing, if_neg hnot]
  exact h

theorem Replacing.of_new (hlog : Published project nonce log) (h : Reads project (some new) s) :
    Replacing project nonce old new log s := by
  rw [Replacing, if_pos hlog]
  exact h

/-- How a write of a record ends. -/
def Written (project : AbsPath) (nonce : String) (old : Option (List UInt8)) (new : List UInt8)
    (r : Except String Unit) (log : List (Event FileOp)) (s : Files) : Prop :=
  Replacing project nonce old new log s ∧ (r = .ok () → Published project nonce log)

/-! #### Parts of a write -/

theorem wp_syncProject {I : List (Event FileOp) → Files → Prop}
    {Q : Except String Unit → List (Event FileOp) → Files → Prop} (hstop : I (.stopped (.sync project) :: log) s)
    (hdone : ∀ r, Q r (.done (.sync project) :: log) s) : wp fileCalls 0 I (syncProject project).run Q log s := by
  obtain ⟨r, hr⟩ := exec_sync_same project s
  exact wp_attempt_zero hr (fun _ => hstop) (hdone _)

/-- After the publication it does not matter whether the directory can be synced. -/
theorem wp_syncPublished (hlog : Published project nonce log) (h : Reads project (some new) s) :
    wp fileCalls 0 (Replacing project nonce old new) (syncProject project).run (Written project nonce old new) log s := by
  have hlog' : ∀ e, Published project nonce (e :: log) := fun _ => List.mem_cons_of_mem _ hlog
  exact wp_syncProject (.of_new (hlog' _) h) fun _ => ⟨.of_new (hlog' _) h, fun _ => hlog' _⟩

/-- The rename that publishes the record. -/
theorem wp_publish {Q : Except IoError Unit → List (Event FileOp) → Files → Prop} (hlog : ¬ Published project nonce log)
    (h : Reads project old s) (htemp : s (journalTemporaryPath project nonce) = some (.file new))
    (hdir : ∀ entries, s (journalPath project) ≠ some (.directory entries))
    (hdone : ∀ log' t, Published project nonce log' → t (journalPath project) = some (.file new) →
      t (journalBackupPath project) = s (journalBackupPath project) → Q (.ok ()) log' t) :
    wp fileCalls 0 (Replacing project nonce old new)
      (perform (.rename (journalTemporaryPath project nonce) (journalPath project))) Q log s := by
  have hne := temporary_ne_journal project nonce
  refine wp_perform_zero (exec_rename htemp hdir hne) (fun _ => .of_old hlog (by simp) h) ?_
  refine hdone _ _ List.mem_cons_self ?_ ?_
  · rw [Function.update_of_ne (Ne.symm hne), Function.update_self]
  · rw [Function.update_of_ne (Ne.symm (temporary_ne_backup project nonce)),
      Function.update_of_ne (Ne.symm (journal_ne_backup project))]

theorem Reads.not_directory (h : Reads project old s) : ∀ entries, s (journalPath project) ≠ some (.directory entries) := by
  intro entries hdir
  cases old with
  | none => cases hdir.symm.trans h.1
  | some bytes =>
    rcases h with hfile | ⟨hnone, _⟩
    · cases hdir.symm.trans hfile
    · cases hdir.symm.trans hnone

theorem Written.of_error {e : Event FileOp} {message : String} (hlog : ¬ Published project nonce log)
    (he : e ≠ .done (.rename (journalTemporaryPath project nonce) (journalPath project))) (h : Reads project old s) :
    Written project nonce old new (.error message) (e :: log) s :=
  ⟨.of_old hlog he h, fun h => by cases h⟩

theorem wp_writeTemporaryRecord {Q : Except String Unit → List (Event FileOp) → Files → Prop}
    (hlog : ¬ Published project nonce log) (h : Reads project old s)
    (hok : ∀ log' t, ¬ Published project nonce log' → Reads project old t →
      t (journalTemporaryPath project nonce) = some (.file new) → Q (.ok ()) log' t)
    (herr : ∀ e log', Written project nonce old new (.error e) log' s → Q (.error e) log' s) :
    wp fileCalls 0 (Replacing project nonce old new)
      (writeTemporaryRecord (journalTemporaryPath project nonce) new).run Q log s := by
  -- what happens to the temporary file is no concern of recovery
  have hkeep : ∀ {t : Files}, SameExcept [journalTemporaryPath project nonce] s t → Reads project old t := fun ht =>
    h.of_same (ht _ (by simpa using Ne.symm (temporary_ne_journal project nonce)))
      (ht _ (by simpa using Ne.symm (temporary_ne_backup project nonce)))
  have hsame : ∀ {t : Files} (node : Option Node), SameExcept [journalTemporaryPath project nonce] s t →
      SameExcept [journalTemporaryPath project nonce] s (Function.update t (journalTemporaryPath project nonce) node) :=
    fun node ht => ht.update (by simp) node
  have hnot : ∀ {e : Event FileOp} {log' : List (Event FileOp)}, ¬ Published project nonce log' →
      e ≠ .done (.rename (journalTemporaryPath project nonce) (journalPath project)) →
      ¬ Published project nonce (e :: log') := fun hlog' he hmem =>
    (List.mem_cons.mp hmem).elim (fun heq => he heq.symm) hlog'
  rw [writeTemporaryRecord, wp_tryBind]
  cases htemp : s (journalTemporaryPath project nonce) with
  | some node =>
    exact wp_attempt_zero (exec_createNew_some htemp) (fun _ => .of_old hlog (by simp) h)
      (herr _ _ (.of_error hlog (by simp) h))
  | none =>
    refine wp_attempt_zero (exec_createNew htemp) (fun _ => .of_old hlog (by simp) h) ?_
    have ht := hsame (some (.file [])) (SameExcept.refl _ s)
    have hlog₁ := hnot (e := .done (.createNew (journalTemporaryPath project nonce))) hlog (by simp)
    generalize Function.update s (journalTemporaryPath project nonce) (some (.file [])) = t at ht
    show wp fileCalls 0 _ (attempt (.writeAll _ new) _ >>= _ : ExceptT _ _ _).run Q _ t
    rw [wp_tryBind]
    refine wp_attempt_zero (exec_writeAll _ _ _) (fun c => .of_old hlog₁ (by simp) (hkeep ?_)) ?_
    · exact ht.trans (cut_sameExcept (.writeAll (journalTemporaryPath project nonce) new) c t)
    · have hu := hsame (some (.file new)) ht
      have hfile : Function.update t (journalTemporaryPath project nonce) (some (.file new))
          (journalTemporaryPath project nonce) = some (.file new) := Function.update_self _ _ _
      have hlog₂ := hnot (e := .done (.writeAll (journalTemporaryPath project nonce) new)) hlog₁ (by simp)
      generalize Function.update t (journalTemporaryPath project nonce) (some (.file new)) = u at hu hfile
      exact wp_attempt_zero (exec_sync hfile) (fun _ => .of_old hlog₂ (by simp) (hkeep hu))
        (hok _ _ (hnot hlog₂ (by simp)) (hkeep hu) hfile)

theorem not_published_cons {e : Event FileOp} (hlog : ¬ Published project nonce log)
    (he : e ≠ .done (.rename (journalTemporaryPath project nonce) (journalPath project))) :
    ¬ Published project nonce (e :: log) := fun hmem =>
  (List.mem_cons.mp hmem).elim (fun heq => he heq.symm) hlog

/-- The old record is in the backup, and the journal is free. -/
theorem wp_moveRecordIn {bytes : List UInt8} (hlog : ¬ Published project nonce log) (hj : s (journalPath project) = none)
    (hb : s (journalBackupPath project) = some (.file bytes))
    (htemp : s (journalTemporaryPath project nonce) = some (.file new)) :
    wp fileCalls 0 (Replacing project nonce (some bytes) new)
      (moveRecordIn project (journalTemporaryPath project nonce) (journalPath project) (journalBackupPath project) >>=
        fun _ => syncProject project >>= fun _ => attempt (.removeFile (journalBackupPath project)) IoError.text >>=
        fun _ => syncProject project : ExceptT String FileProg Unit).run (Written project nonce (some bytes) new) log s := by
  have hreads : Reads project (some bytes) s := .inr ⟨hj, hb⟩
  rw [wp_tryBind, moveRecordIn, wp_tryBind, wp_lift]
  refine wp_publish hlog hreads htemp hreads.not_directory fun log' t hlog' ht htb => ?_
  have hdone : ∀ e, Published project nonce (e :: log') := fun _ => List.mem_cons_of_mem _ hlog'
  show wp fileCalls 0 _ (syncProject project >>= _ : ExceptT _ _ _).run _ log' t
  rw [wp_tryBind]
  refine wp_syncProject (.of_new (hdone _) (.inl ht)) fun r => ?_
  cases r with
  | error e => exact ⟨.of_new (hdone _) (.inl ht), fun h => by cases h⟩
  | ok _ =>
    show wp fileCalls 0 _ (attempt (.removeFile _) _ >>= _ : ExceptT _ _ _).run _ _ t
    rw [wp_tryBind]
    have hlog₂ : ∀ e e', Published project nonce (e :: e' :: log') := fun _ _ => List.mem_cons_of_mem _ (hdone _)
    refine wp_attempt_zero (exec_removeFile (htb.trans hb)) (fun _ => .of_new (hlog₂ _ _) (.inl ht)) ?_
    refine wp_syncPublished (hlog₂ _ _) (.inl ?_)
    rw [Function.update_of_ne (journal_ne_backup project), ht]

theorem wp_replaceThroughBackup {bytes : List UInt8} (hlog : ¬ Published project nonce log)
    (hj : s (journalPath project) = some (.file bytes))
    (htemp : s (journalTemporaryPath project nonce) = some (.file new)) :
    wp fileCalls 0 (Replacing project nonce (some bytes) new)
      (replaceThroughBackup project (journalTemporaryPath project nonce) (journalPath project)
        (journalBackupPath project)).run (Written project nonce (some bytes) new) log s := by
  have hjb := journal_ne_backup project
  have htb := temporary_ne_backup project nonce
  have htj := temporary_ne_journal project nonce
  -- what follows once there is no leftover backup in the way
  have hrest : ∀ log' t, ¬ Published project nonce log' → t (journalPath project) = some (.file bytes) →
      t (journalTemporaryPath project nonce) = some (.file new) →
      (∀ entries, t (journalBackupPath project) ≠ some (.directory entries)) →
      wp fileCalls 0 (Replacing project nonce (some bytes) new)
        (attempt (.rename (journalPath project) (journalBackupPath project)) IoError.text >>= fun _ =>
          syncProject project >>= fun _ => moveRecordIn project (journalTemporaryPath project nonce)
            (journalPath project) (journalBackupPath project) >>= fun _ => syncProject project >>= fun _ =>
          attempt (.removeFile (journalBackupPath project)) IoError.text >>= fun _ => syncProject project :
          ExceptT String FileProg Unit).run (Written project nonce (some bytes) new) log' t := by
    intro log' t hlog' hj htemp hdir
    rw [wp_tryBind]
    refine wp_attempt_zero (exec_rename hj hdir hjb) (fun _ => .of_old hlog' (by simp) (.inl hj)) ?_
    have hlog₁ := not_published_cons (e := .done (.rename (journalPath project) (journalBackupPath project))) hlog'
      (by simpa using fun h => absurd h.symm htj)
    have hj' : Function.update (Function.update t (journalBackupPath project) (some (.file bytes)))
        (journalPath project) none (journalPath project) = none := Function.update_self _ _ _
    have hb' : Function.update (Function.update t (journalBackupPath project) (some (.file bytes)))
        (journalPath project) none (journalBackupPath project) = some (.file bytes) := by
      rw [Function.update_of_ne (Ne.symm hjb), Function.update_self]
    have htemp' : Function.update (Function.update t (journalBackupPath project) (some (.file bytes)))
        (journalPath project) none (journalTemporaryPath project nonce) = some (.file new) := by
      rw [Function.update_of_ne htj, Function.update_of_ne htb, htemp]
    generalize Function.update (Function.update t (journalBackupPath project) (some (.file bytes)))
      (journalPath project) none = u at hj' hb' htemp'
    show wp fileCalls 0 _ (syncProject project >>= _ : ExceptT _ _ _).run _ _ u
    rw [wp_tryBind]
    refine wp_syncProject (.of_old hlog₁ (by simp) (.inr ⟨hj', hb'⟩)) fun r => ?_
    cases r with
    | error e => exact .of_error hlog₁ (by simp) (.inr ⟨hj', hb'⟩)
    | ok _ => exact wp_moveRecordIn (not_published_cons hlog₁ (by simp)) hj' hb' htemp'
  rw [replaceThroughBackup, wp_tryBind, clearBackup, wp_tryBind, wp_lift]
  refine wp_perform_zero (exec_present _ _) (fun _ => .of_old hlog (by simp) (.inl hj)) ?_
  have hlog₁ := not_published_cons (e := .done (.present (journalBackupPath project))) hlog (by simp)
  cases hb : (s (journalBackupPath project)).any Node.resolves with
  | false => exact hrest _ _ hlog₁ hj htemp (not_directory_of_not_present hb)
  | true =>
    show wp fileCalls 0 _ (liftM (perform (.present (journalPath project))) >>= _ : ExceptT _ _ _).run _ _ s
    rw [wp_tryBind, wp_lift]
    refine wp_perform_zero (exec_present _ _) (fun _ => .of_old hlog₁ (by simp) (.inl hj)) ?_
    have hlog₂ := not_published_cons (e := .done (.present (journalPath project))) hlog₁ (by simp)
    rw [hj]
    show wp fileCalls 0 _ (attempt (.removeFile (journalBackupPath project)) _).run _ _ s
    have hstop : ∀ c, Replacing project nonce (some bytes) new
        (.stopped (.removeFile (journalBackupPath project)) :: .done (.present (journalPath project)) ::
          .done (.present (journalBackupPath project)) :: log)
        (cut (.removeFile (journalBackupPath project)) c s) := fun _ => .of_old hlog₂ (by simp) (.inl hj)
    rcases exec_removeFile_cases (journalBackupPath project) s with hexec | ⟨e, hexec⟩
    · refine wp_attempt_zero hexec hstop (hrest _ _ (not_published_cons hlog₂ (by simp)) ?_ ?_ ?_)
      · rw [Function.update_of_ne hjb, hj]
      · rw [Function.update_of_ne htb, htemp]
      · intro entries hdir
        rw [Function.update_self] at hdir
        cases hdir
    · exact wp_attempt_zero hexec hstop (.of_error hlog₂ (by simp) (.inl hj))

theorem wp_replaceJournalFile (hlog : ¬ Published project nonce log) (h : Reads project old s)
    (htemp : s (journalTemporaryPath project nonce) = some (.file new)) :
    wp fileCalls 0 (Replacing project nonce old new)
      (replaceJournalFile unix forceFallback project (journalTemporaryPath project nonce) (journalPath project)
        (journalBackupPath project)).run (Written project nonce old new) log s := by
  have hlog₁ := not_published_cons (e := .done (.present (journalPath project))) hlog (by simp)
  -- the rename by itself
  have hrename : ∀ r : Except IoError Bool, wp fileCalls 0 (Replacing project nonce old new)
      (attempt (.rename (journalTemporaryPath project nonce) (journalPath project)) IoError.text :
        ExceptT String FileProg Unit).run (Written project nonce old new)
      (.done (.present (journalPath project)) :: log) s := by
    intro _
    show wp fileCalls 0 _ (perform (.rename _ _) >>= fun r => pure (r.mapError IoError.text)) _ _ s
    rw [wp_bind]
    refine wp_publish hlog₁ h htemp h.not_directory fun log' t hlog' ht _ => ?_
    exact ⟨.of_new hlog' (.inl ht), fun _ => hlog'⟩
  rw [replaceJournalFile, wp_tryBind, wp_lift]
  refine wp_perform_zero (exec_present _ _) (fun _ => .of_old hlog (by simp) h) ?_
  cases hj : s (journalPath project) with
  | none => exact hrename (.ok false)
  | some node =>
    -- what is there is the old record
    obtain ⟨bytes, rfl, rfl⟩ : ∃ bytes, old = some bytes ∧ node = .file bytes := by
      cases old with
      | none => cases hj.symm.trans h.1
      | some bytes =>
        rcases h with hfile | ⟨hnone, _⟩
        · exact ⟨bytes, rfl, Option.some_inj.mp (hj.symm.trans hfile)⟩
        · cases hj.symm.trans hnone
    show wp fileCalls 0 _ (if unix && !forceFallback then _ else _ : ExceptT _ _ _).run _ _ s
    split_ifs
    · exact hrename (.ok true)
    · exact wp_replaceThroughBackup hlog₁ hj htemp

/-- **A write of a record.** -/
theorem wp_writeRecordBytes (hlog : ¬ Published project nonce log) (h : Reads project old s) :
    wp fileCalls 0 (Replacing project nonce old new) (writeRecordBytes unix forceFallback project nonce new).run
      (Written project nonce old new) log s := by
  rw [writeRecordBytes, wp_tryBind]
  refine wp_writeTemporaryRecord hlog h (fun log' t hlog' ht htemp => ?_) fun e log' hwritten => hwritten
  show wp fileCalls 0 _ (ExceptT.adapt _ _ >>= _ : ExceptT _ _ _).run _ log' t
  rw [wp_tryBind, wp_adapt]
  refine wp_mono (fun r log'' u hu => ?_) (fun _ _ h => h) (wp_replaceJournalFile hlog' ht htemp)
  cases r with
  | error e => exact ⟨hu.1, fun h => by cases h⟩
  | ok _ =>
    have hpublished := hu.2 rfl
    have hnew : Reads project (some new) u := by
      have hreplacing := hu.1
      rwa [Replacing, if_pos hpublished] at hreplacing
    exact wp_syncPublished hpublished hnew

end Write

/-! ### Reading and removing -/

section Recovery

variable {project : AbsPath} {r : Option (List UInt8)} {log : List (Event FileOp)} {s : Files}

/-- Bytes of a size recovery accepts. -/
def Fits (r : Option (List UInt8)) : Prop := ∀ bytes, r = some bytes → bytes.length ≤ maxJournalBytes

/-- The journal is where it should be. -/
theorem wp_readPresent {bytes : List UInt8} (hj : s (journalPath project) = some (.file bytes))
    (hfits : bytes.length ≤ maxJournalBytes) {m : Metadata} (hm : m = (Node.file bytes).metadata) :
    wp fileCalls 0 (fun _ => Reads project (some bytes)) (readJournal project (some m)).run
      (fun result _ t => Reads project (some bytes) t ∧ result = .ok (some bytes)) log s := by
  subst hm
  show wp fileCalls 0 _ (if bytes.length > maxJournalBytes then _ else _ : ExceptT _ _ _).run _ log s
  rw [if_neg (not_lt.mpr hfits)]
  show wp fileCalls 0 _ (attempt (.read (journalPath project)) _ >>= _ : ExceptT _ _ _).run _ log s
  rw [wp_tryBind]
  exact wp_attempt_zero (exec_read hj) (fun _ => .inl hj) ⟨.inl hj, rfl⟩

/-- **Reading the record** changes nothing for the next reader. -/
theorem wp_loadJournal (hproject : ∃ entries, s project = some (.directory entries)) (h : Reads project r s)
    (hfits : Fits r) :
    wp fileCalls 0 (fun _ => Reads project r) (loadJournal project).run
      (fun result _ t => Reads project r t ∧ result = .ok r) log s := by
  have hjb := journal_ne_backup project
  rw [loadJournal, wp_tryBind, selectJournal, wp_tryBind, wp_lift]
  cases r with
  | none =>
    refine wp_perform_zero (exec_metadata_none h.1) (fun _ => h) ?_
    show wp fileCalls 0 _ (restoreBackup project).run _ _ s
    rw [restoreBackup, wp_tryBind, wp_lift]
    exact wp_perform_zero (exec_metadata_none h.2) (fun _ => h) ⟨h, rfl⟩
  | some bytes =>
    rcases h with hj | ⟨hj, hb⟩
    · refine wp_perform_zero (exec_metadata hj) (fun _ => .inl hj) ?_
      exact wp_readPresent hj (hfits _ rfl) rfl
    · refine wp_perform_zero (exec_metadata_none hj) (fun _ => .inr ⟨hj, hb⟩) ?_
      show wp fileCalls 0 _ (restoreBackup project).run _ _ s
      rw [restoreBackup, wp_tryBind, wp_lift]
      refine wp_perform_zero (exec_metadata hb) (fun _ => .inr ⟨hj, hb⟩) ?_
      show wp fileCalls 0 _ (if bytes.length > maxJournalBytes then _ else _ : ExceptT _ _ _).run _ _ s
      rw [if_neg (not_lt.mpr (hfits _ rfl))]
      show wp fileCalls 0 _ (attempt (.rename _ _) _ >>= _ : ExceptT _ _ _).run _ _ s
      rw [wp_tryBind]
      refine wp_attempt_zero (exec_rename hb (by simp [hj]) (Ne.symm hjb)) (fun _ => .inr ⟨hj, hb⟩) ?_
      have hj' : Function.update (Function.update s (journalPath project) (some (.file bytes)))
          (journalBackupPath project) none (journalPath project) = some (.file bytes) := by
        rw [Function.update_of_ne hjb, Function.update_self]
      have hproject' : ∃ entries, Function.update (Function.update s (journalPath project) (some (.file bytes)))
          (journalBackupPath project) none project = some (.directory entries) := by
        rw [Function.update_of_ne (by simp [journalBackupPath]), Function.update_of_ne (by simp [journalPath])]
        exact hproject
      generalize Function.update (Function.update s (journalPath project) (some (.file bytes)))
        (journalBackupPath project) none = t at hj' hproject'
      obtain ⟨entries, hdir⟩ := hproject'
      show wp fileCalls 0 _ (attempt (.sync project) _ >>= _ : ExceptT _ _ _).run _ _ t
      rw [wp_tryBind]
      refine wp_attempt_zero (exec_sync hdir) (fun _ => .inl hj') ?_
      show wp fileCalls 0 _ (attempt (.metadata _) _ >>= _ : ExceptT _ _ _).run _ _ t
      rw [wp_tryBind]
      exact wp_attempt_zero (exec_metadata hj') (fun _ => .inl hj') (wp_readPresent hj' (hfits _ rfl) rfl)

theorem Reads.without_backup {bytes : List UInt8} {t : Files} (h : Reads project (some bytes) s)
    (hj : t (journalPath project) = s (journalPath project)) (hb : t (journalBackupPath project) = none) :
    Reads project (some bytes) t ∨ Reads project none t := by
  rcases h with hfile | ⟨hnone, _⟩
  · exact .inl (.inl (hj.trans hfile))
  · exact .inr ⟨hj.trans hnone, hb⟩

/-- There is no backup any more. -/
theorem wp_removePrimary (h : Reads project r s ∨ Reads project none s) (hb : s (journalBackupPath project) = none) :
    wp fileCalls 0 (fun _ t => Reads project r t ∨ Reads project none t)
      (liftM (perform (.removeFile (journalPath project))) >>= fun result =>
        match result with
        | .ok _ => syncProject project
        | .error .notFound => pure ()
        | .error e => throw (context "cannot remove lifecycle journal: " e) : ExceptT String FileProg Unit).run
      (fun _ _ t => Reads project r t ∨ Reads project none t) log s := by
  rw [wp_tryBind, wp_lift]
  rcases exec_removeFile_cases (journalPath project) s with hexec | ⟨e, hexec⟩
  · refine wp_perform_zero hexec (fun _ => h) ?_
    have hnone : Reads project none (Function.update s (journalPath project) none) := by
      refine ⟨Function.update_self _ _ _, ?_⟩
      rw [Function.update_of_ne (Ne.symm (journal_ne_backup project)), hb]
    exact wp_syncProject (.inr hnone) fun _ => .inr hnone
  · refine wp_perform_zero hexec (fun _ => h) ?_
    cases e with
    | notFound => exact h
    | alreadyExists => exact h
    | other => exact h

/-- **Removing the journal.**  The backup goes first, so that no older record comes
back. -/
theorem wp_removeJournal (h : Reads project r s) :
    wp fileCalls 0 (fun _ t => Reads project r t ∨ Reads project none t) (removeJournal project).run
      (fun _ _ t => Reads project r t ∨ Reads project none t) log s := by
  rw [removeJournal, wp_tryBind, clearJournalBackup, wp_tryBind, wp_lift]
  cases hb : s (journalBackupPath project) with
  | none => exact wp_perform_zero (exec_metadata_none hb) (fun _ => .inl h) (wp_removePrimary (.inl h) hb)
  | some node =>
    refine wp_perform_zero (exec_metadata hb) (fun _ => .inl h) ?_
    cases node with
    | directory entries => exact .inl h
    | symlink resolves => exact .inl h
    | file bytes =>
      -- the backup goes; what it held is only missed when there is no journal
      have hcleared : Reads project r (Function.update s (journalBackupPath project) none) ∨
          Reads project none (Function.update s (journalBackupPath project) none) := by
        cases r with
        | none => cases hb.symm.trans h.2
        | some old =>
          exact h.without_backup (Function.update_of_ne (journal_ne_backup project) _ _) (Function.update_self _ _ _)
      have hb' : Function.update s (journalBackupPath project) none (journalBackupPath project) = none :=
        Function.update_self _ _ _
      show wp fileCalls 0 _ (attempt (.removeFile (journalBackupPath project)) _ >>= _ : ExceptT _ _ _).run _ _ s
      rw [wp_tryBind]
      refine wp_attempt_zero (exec_removeFile hb) (fun _ => .inl h) ?_
      refine wp_syncProject hcleared fun result => ?_
      cases result with
      | error e => exact hcleared
      | ok _ => exact wp_removePrimary hcleared hb'

end Recovery

/-! ### The project directory stays, and no other one comes in the way -/

section Frames

variable {project : AbsPath} {nonce : String} {cells : List AbsPath} (hj : journalPath project ∈ cells)
  (hb : journalBackupPath project ∈ cells)

theorem onFiles_look {o : FileOp} (ho : o.touched = []) (hdir : ∀ p, o ≠ .createDir p) : o.OnFiles cells :=
  ⟨ho ▸ List.nil_subset _, hdir⟩

theorem onFiles_removeFile {p : AbsPath} (hp : p ∈ cells) : (FileOp.removeFile p).OnFiles cells :=
  ⟨by simpa [FileOp.touched] using hp, by simp⟩

theorem onFiles_rename {p q : AbsPath} (hp : p ∈ cells) (hq : q ∈ cells) : (FileOp.rename p q).OnFiles cells :=
  ⟨by simpa [FileOp.touched] using ⟨hp, hq⟩, by simp⟩

theorem onFiles_syncProject : OnFiles cells (syncProject project).run :=
  .attempt (.sync project) _ (onFiles_look rfl (by simp))

include hj hb

theorem onFiles_clearBackup : OnFiles cells (clearBackup (journalPath project) (journalBackupPath project)).run := by
  refine .tryBind (.lift (.perform _ (onFiles_look rfl (by simp)))) fun r => ?_
  match r with
  | .ok true =>
    refine .tryBind (.lift (.perform _ (onFiles_look rfl (by simp)))) fun r => ?_
    match r with
    | .ok true => exact .attempt (.removeFile (journalBackupPath project)) _ (onFiles_removeFile hb)
    | .ok false => exact .attempt (.rename (journalBackupPath project) (journalPath project)) _ (onFiles_rename hb hj)
    | .error _ => exact .attempt (.rename (journalBackupPath project) (journalPath project)) _ (onFiles_rename hb hj)
  | .ok false => exact trivial
  | .error _ => exact trivial

theorem onFiles_moveRecordIn (ht : journalTemporaryPath project nonce ∈ cells) : OnFiles cells
    (moveRecordIn project (journalTemporaryPath project nonce) (journalPath project) (journalBackupPath project)).run := by
  refine .tryBind (.lift (.perform _ (onFiles_rename ht hj))) fun r => ?_
  match r with
  | .ok _ => exact trivial
  | .error _ =>
    refine .tryBind (.lift (.ignore _ (onFiles_rename hb hj))) fun _ => ?_
    exact .tryBind (.lift (.ignore _ (onFiles_look rfl (by simp)))) fun _ => trivial

theorem onFiles_replaceThroughBackup (ht : journalTemporaryPath project nonce ∈ cells) : OnFiles cells
    (replaceThroughBackup project (journalTemporaryPath project nonce) (journalPath project)
      (journalBackupPath project)).run :=
  .tryBind (onFiles_clearBackup hj hb) fun _ => .tryBind (.attempt _ _ (onFiles_rename hj hb)) fun _ =>
    .tryBind onFiles_syncProject fun _ => .tryBind (onFiles_moveRecordIn hj hb ht) fun _ =>
    .tryBind onFiles_syncProject fun _ => .tryBind (.attempt _ _ (onFiles_removeFile hb)) fun _ => onFiles_syncProject

theorem onFiles_writeRecordBytes (ht : journalTemporaryPath project nonce ∈ cells) (unix forceFallback : Bool)
    (bytes : List UInt8) : OnFiles cells (writeRecordBytes unix forceFallback project nonce bytes).run := by
  have hcreate : (FileOp.createNew (journalTemporaryPath project nonce)).OnFiles cells :=
    ⟨by simpa [FileOp.touched] using ht, by simp⟩
  have hwrite : (FileOp.writeAll (journalTemporaryPath project nonce) bytes).OnFiles cells :=
    ⟨by simpa [FileOp.touched] using ht, by simp⟩
  refine .tryBind ?_ fun _ => .tryBind (Prog.only_adapt _ ?_) fun _ => onFiles_syncProject
  · exact .tryBind (.attempt _ _ hcreate) fun _ => .tryBind (.attempt _ _ hwrite) fun _ =>
      .attempt _ _ (onFiles_look rfl (by simp))
  · show OnFiles cells (replaceJournalFile _ _ _ _ _ _).run
    refine .tryBind (.lift (.perform _ (onFiles_look rfl (by simp)))) fun r => ?_
    have hmove := onFiles_rename ht hj
    rcases r with _ | existing
    · exact .attempt _ _ hmove
    · cases existing with
      | false => exact .attempt _ _ hmove
      | true =>
        show OnFiles cells (if unix && !forceFallback then _ else _ : ExceptT _ _ _).run
        split_ifs
        · exact .attempt _ _ hmove
        · exact onFiles_replaceThroughBackup hj hb ht

theorem onFiles_restoreBackup : OnFiles cells (restoreBackup project).run := by
  refine .tryBind (.lift (.perform _ (onFiles_look rfl (by simp)))) fun r => ?_
  match r with
  | .ok m =>
    show OnFiles cells (if m.kind ≠ .file then _ else _ : ExceptT _ _ _).run
    split_ifs
    · exact trivial
    · exact trivial
    · exact .tryBind (.attempt _ _ (onFiles_rename hb hj)) fun _ => .tryBind onFiles_syncProject fun _ =>
        .tryBind (.attempt _ _ (onFiles_look rfl (by simp))) fun _ => trivial
  | .error .notFound => exact trivial
  | .error .alreadyExists => exact trivial
  | .error .other => exact trivial

theorem onFiles_loadJournal : OnFiles cells (loadJournal project).run := by
  refine .tryBind (.tryBind (.lift (.perform _ (onFiles_look rfl (by simp)))) fun r => ?_) fun selected => ?_
  · match r with
    | .ok m =>
      show OnFiles cells (if m.kind = .file then _ else _ : ExceptT _ _ _).run
      split_ifs
      · exact trivial
      · exact trivial
    | .error .notFound => exact onFiles_restoreBackup hj hb
    | .error .alreadyExists => exact trivial
    | .error .other => exact trivial
  · match selected with
    | none => exact trivial
    | some m =>
      show OnFiles cells (if m.len > maxJournalBytes then _ else _ : ExceptT _ _ _).run
      split_ifs
      · exact trivial
      · exact .tryBind (.attempt _ _ (onFiles_look rfl (by simp))) fun _ => trivial

theorem onFiles_readRecord (codec : JsonCodec) : OnFiles cells (readRecord codec project).run := by
  refine .tryBind (onFiles_loadJournal hj hb) fun r => ?_
  match r with
  | none => exact trivial
  | some bytes =>
    show OnFiles cells (match parseRecord codec bytes with | .ok _ => _ | .error _ => _ : ExceptT _ _ _).run
    cases parseRecord codec bytes with
    | ok _ => exact trivial
    | error _ => exact trivial

theorem onFiles_removeJournal : OnFiles cells (removeJournal project).run := by
  refine .tryBind ?_ fun _ => .tryBind (.lift (.perform _ (onFiles_removeFile hj))) fun r => ?_
  · refine .tryBind (.lift (.perform _ (onFiles_look rfl (by simp)))) fun r => ?_
    match r with
    | .ok m =>
      show OnFiles cells (if m.kind ≠ .file then _ else _ : ExceptT _ _ _).run
      split_ifs
      · exact trivial
      · exact .tryBind (.attempt _ _ (onFiles_removeFile hb)) fun _ => onFiles_syncProject
    | .error .notFound => exact trivial
    | .error .alreadyExists => exact trivial
    | .error .other => exact trivial
  · match r with
    | .ok _ => exact onFiles_syncProject
    | .error .notFound => exact trivial
    | .error .alreadyExists => exact trivial
    | .error .other => exact trivial

omit hj hb

/-- The files recovery looks at. -/
def journalCells (project : AbsPath) : List AbsPath := [journalPath project, journalBackupPath project]

theorem notin_journalCells (project : AbsPath) : project ∉ journalCells project := by
  simp [journalCells, journalPath, journalBackupPath]

/-- A write leaves the project directory alone. -/
theorem writeRecordBytes_other (project : AbsPath) (nonce : String) (unix forceFallback : Bool) (bytes : List UInt8)
    (plan : List (Fate Cut)) (s : Files) :
    ((writeRecordBytes unix forceFallback project nonce bytes).run.execute fileCalls plan [] s).final project =
      s project := by
  have hj : journalPath project ∈ journalTemporaryPath project nonce :: journalCells project := by simp [journalCells]
  have hb : journalBackupPath project ∈ journalTemporaryPath project nonce :: journalCells project := by
    simp [journalCells]
  refine (onFiles_writeRecordBytes hj hb List.mem_cons_self unix forceFallback bytes).execute ?_ plan [] s
  simp [journalCells, journalPath, journalBackupPath, journalTemporaryPath]

/-- The temporary file is a new one, or nothing else happens. -/
theorem writeRecordBytes_noDirectory {s : Files} {unix forceFallback : Bool} {bytes : List UInt8}
    {plan : List (Fate Cut)} (h : NoDirectory (journalCells project) s) (hplan : planned plan = 0) :
    NoDirectory (journalCells project)
      ((writeRecordBytes unix forceFallback project nonce bytes).run.execute fileCalls plan [] s).final := by
  cases htemp : s (journalTemporaryPath project nonce) with
  | none =>
    have hcells : NoDirectory (journalTemporaryPath project nonce :: journalCells project) s := by
      intro p hp entries hdir
      rcases List.mem_cons.mp hp with rfl | hp
      · cases htemp.symm.trans hdir
      · exact h p hp entries hdir
    have hj : journalPath project ∈ journalTemporaryPath project nonce :: journalCells project := by simp [journalCells]
    have hb : journalBackupPath project ∈ journalTemporaryPath project nonce :: journalCells project := by
      simp [journalCells]
    have hfinal := (onFiles_writeRecordBytes hj hb List.mem_cons_self unix forceFallback bytes).noDirectory hcells plan []
    exact fun p hp => hfinal p (List.mem_cons_of_mem _ hp)
  | some node =>
    have hwp : wp fileCalls 0 (fun _ t => t = s) (writeRecordBytes unix forceFallback project nonce bytes).run
        (fun _ _ t => t = s) [] s := by
      rw [writeRecordBytes, wp_tryBind, writeTemporaryRecord, wp_tryBind]
      exact wp_attempt_zero (exec_createNew_some htemp) (fun _ => rfl) rfl
    have hrun := execute_of_wp plan hwp (by rw [failures_nil]; omega)
    generalize (writeRecordBytes unix forceFallback project nonce bytes).run.execute fileCalls plan [] s = out at hrun ⊢
    cases out with
    | returned r log t =>
      obtain rfl : t = s := hrun
      exact h
    | stopped log t =>
      obtain rfl : t = s := hrun
      exact h

end Frames

/-! ### A write that nothing disturbs -/

section Undisturbed

variable {project : AbsPath} {nonce : String} {new : List UInt8} {log : List (Event FileOp)} {s : Files}
  {unix forceFallback : Bool}

/-- The record is in its temporary file. -/
structure Staged (project : AbsPath) (nonce : String) (new : List UInt8) (s : Files) : Prop where
  directory : ∃ entries, s project = some (.directory entries)
  temporary : s (journalTemporaryPath project nonce) = some (.file new)

theorem update_project {p : AbsPath} (hp : p ≠ project) (node : Option Node)
    (h : ∃ entries, s project = some (.directory entries)) :
    ∃ entries, Function.update s p node project = some (.directory entries) := by
  rw [Function.update_of_ne (Ne.symm hp)]
  exact h

theorem Staged.update (h : Staged project nonce new s) {p : AbsPath} (hp : p ∈ journalCells project)
    (node : Option Node) : Staged project nonce new (Function.update s p node) := by
  have hproject : p ≠ project := by
    rintro rfl
    exact notin_journalCells p hp
  have htemp : journalTemporaryPath project nonce ≠ p := by
    rintro rfl
    rcases List.mem_cons.mp hp with heq | hp
    · exact temporary_ne_journal project nonce heq
    · exact temporary_ne_backup project nonce (List.mem_singleton.mp hp)
  refine ⟨update_project hproject node h.directory, ?_⟩
  rw [Function.update_of_ne htemp]
  exact h.temporary

theorem journal_ne_project : journalPath project ≠ project := by simp [journalPath]

theorem backup_ne_project : journalBackupPath project ≠ project := by simp [journalBackupPath]

theorem temporary_ne_project : journalTemporaryPath project nonce ≠ project := by simp [journalTemporaryPath]

/-- The directory can be synced. -/
theorem wp_syncProject_ok (hproject : ∃ entries, s project = some (.directory entries))
    {Q : Except String Unit → List (Event FileOp) → Files → Prop} (hQ : ∀ log, Q (.ok ()) log s) :
    wp fileCalls 0 (fun _ _ => True) (syncProject project).run Q log s := by
  obtain ⟨entries, hdir⟩ := hproject
  exact wp_attempt_zero (exec_sync hdir) (fun _ => trivial) (hQ _)

theorem wp_writeTemporaryRecord_ok (hproject : ∃ entries, s project = some (.directory entries))
    (htemp : s (journalTemporaryPath project nonce) = none)
    {Q : Except String Unit → List (Event FileOp) → Files → Prop}
    (hQ : ∀ log t, Staged project nonce new t → SameExcept [journalTemporaryPath project nonce] s t → Q (.ok ()) log t) :
    wp fileCalls 0 (fun _ _ => True) (writeTemporaryRecord (journalTemporaryPath project nonce) new).run Q log s := by
  rw [writeTemporaryRecord, wp_tryBind]
  refine wp_attempt_zero (exec_createNew htemp) (fun _ => trivial) ?_
  have ht := (SameExcept.refl [journalTemporaryPath project nonce] s).update List.mem_cons_self (some (.file []))
  have hdir := update_project (@temporary_ne_project project nonce) (some (.file [])) hproject
  generalize Function.update s (journalTemporaryPath project nonce) (some (.file [])) = t at ht hdir
  show wp fileCalls 0 _ (attempt (.writeAll _ new) _ >>= _ : ExceptT _ _ _).run Q _ t
  rw [wp_tryBind]
  refine wp_attempt_zero (exec_writeAll _ _ _) (fun _ => trivial) ?_
  have hfile : Function.update t (journalTemporaryPath project nonce) (some (.file new))
      (journalTemporaryPath project nonce) = some (.file new) := Function.update_self _ _ _
  refine wp_attempt_zero (exec_sync hfile) (fun _ => trivial) (hQ _ _ ⟨update_project temporary_ne_project _ hdir, hfile⟩ ?_)
  exact ht.update List.mem_cons_self _

/-- A leftover backup is removed. -/
theorem wp_clearBackup_ok {bytes : List UInt8} (h : Staged project nonce new s)
    (hj : s (journalPath project) = some (.file bytes))
    (hb : ∀ entries, s (journalBackupPath project) ≠ some (.directory entries))
    {Q : Except String Unit → List (Event FileOp) → Files → Prop}
    (hQ : ∀ log t, Staged project nonce new t → t (journalPath project) = some (.file bytes) →
      (∀ entries, t (journalBackupPath project) ≠ some (.directory entries)) → Q (.ok ()) log t) :
    wp fileCalls 0 (fun _ _ => True) (clearBackup (journalPath project) (journalBackupPath project)).run Q log s := by
  rw [clearBackup, wp_tryBind, wp_lift]
  refine wp_perform_zero (exec_present _ _) (fun _ => trivial) ?_
  cases hpresent : (s (journalBackupPath project)).any Node.resolves with
  | false => exact hQ _ _ h hj hb
  | true =>
    show wp fileCalls 0 _ (liftM (perform (.present (journalPath project))) >>= _ : ExceptT _ _ _).run _ _ s
    rw [wp_tryBind, wp_lift]
    refine wp_perform_zero (exec_present _ _) (fun _ => trivial) ?_
    rw [hj]
    have hexec : exec (.removeFile (journalBackupPath project)) s =
        (.ok (), Function.update s (journalBackupPath project) none) := by
      rw [exec]
      cases hs : s (journalBackupPath project) with
      | none => rw [hs] at hpresent; cases hpresent
      | some node =>
        cases node with
        | directory entries => exact absurd hs (hb entries)
        | file _ => rfl
        | symlink _ => rfl
    refine wp_attempt_zero hexec (fun _ => trivial) (hQ _ _ (h.update (by simp [journalCells]) _) ?_ ?_)
    · rw [Function.update_of_ne (journal_ne_backup project), hj]
    · intro entries hdir
      rw [Function.update_self] at hdir
      cases hdir

/-- The rename into place. -/
theorem exec_renameIn (h : Staged project nonce new s)
    (hdir : ∀ entries, s (journalPath project) ≠ some (.directory entries)) :
    ∃ t, exec (.rename (journalTemporaryPath project nonce) (journalPath project)) s = (.ok (), t) ∧
      (∃ entries, t project = some (.directory entries)) ∧
      t (journalBackupPath project) = s (journalBackupPath project) := by
  refine ⟨_, exec_rename h.temporary hdir (temporary_ne_journal project nonce), ?_, ?_⟩
  · exact update_project temporary_ne_project _ (update_project journal_ne_project _ h.directory)
  · rw [Function.update_of_ne (Ne.symm (temporary_ne_backup project nonce)),
      Function.update_of_ne (Ne.symm (journal_ne_backup project))]

theorem wp_replaceThroughBackup_ok {bytes : List UInt8} (h : Staged project nonce new s)
    (hj : s (journalPath project) = some (.file bytes))
    (hb : ∀ entries, s (journalBackupPath project) ≠ some (.directory entries)) :
    wp fileCalls 0 (fun _ _ => True)
      (replaceThroughBackup project (journalTemporaryPath project nonce) (journalPath project)
        (journalBackupPath project)).run
      (fun r _ t => r = .ok () ∧ ∃ entries, t project = some (.directory entries)) log s := by
  rw [replaceThroughBackup, wp_tryBind]
  refine wp_clearBackup_ok h hj hb fun log t h hj hb => ?_
  show wp fileCalls 0 _ (attempt (.rename _ _) _ >>= _ : ExceptT _ _ _).run _ log t
  rw [wp_tryBind]
  refine wp_attempt_zero (exec_rename hj hb (journal_ne_backup project)) (fun _ => trivial) ?_
  have hu := (h.update (p := journalBackupPath project) (by simp [journalCells]) (some (.file bytes))).update
    (p := journalPath project) List.mem_cons_self none
  have hnone : Function.update (Function.update t (journalBackupPath project) (some (.file bytes)))
      (journalPath project) none (journalPath project) = none := Function.update_self _ _ _
  have hbackup : Function.update (Function.update t (journalBackupPath project) (some (.file bytes)))
      (journalPath project) none (journalBackupPath project) = some (.file bytes) := by
    rw [Function.update_of_ne (Ne.symm (journal_ne_backup project)), Function.update_self]
  generalize Function.update (Function.update t (journalBackupPath project) (some (.file bytes)))
    (journalPath project) none = u at hu hnone hbackup
  show wp fileCalls 0 _ (syncProject project >>= _ : ExceptT _ _ _).run _ _ u
  rw [wp_tryBind]
  refine wp_syncProject_ok hu.directory fun log => ?_
  obtain ⟨v, hmove, hdir, hkept⟩ := exec_renameIn hu fun entries hdir => by cases hnone.symm.trans hdir
  show wp fileCalls 0 _ (moveRecordIn _ _ _ _ >>= _ : ExceptT _ _ _).run _ _ u
  rw [wp_tryBind, moveRecordIn, wp_tryBind, wp_lift]
  refine wp_perform_zero hmove (fun _ => trivial) ?_
  show wp fileCalls 0 (fun _ _ => True) (syncProject project >>= fun _ =>
    attempt (.removeFile (journalBackupPath project)) IoError.text >>= fun _ => syncProject project :
      ExceptT String FileProg Unit).run (fun r _ t => r = .ok () ∧ ∃ entries, t project = some (.directory entries)) _ v
  rw [wp_tryBind]
  refine wp_syncProject_ok hdir fun log => ?_
  show wp fileCalls 0 _ (attempt (.removeFile _) _ >>= _ : ExceptT _ _ _).run _ _ v
  rw [wp_tryBind]
  refine wp_attempt_zero (exec_removeFile (hkept.trans hbackup)) (fun _ => trivial) ?_
  have hdir' := update_project (backup_ne_project) none hdir
  exact wp_syncProject_ok hdir' fun _ => ⟨rfl, hdir'⟩

/-- **A write succeeds** where its temporary file is new and no directory is in its way. -/
theorem wp_writeRecordBytes_ok (hproject : ∃ entries, s project = some (.directory entries))
    (htemp : s (journalTemporaryPath project nonce) = none) (hclear : NoDirectory (journalCells project) s)
    (hj : s (journalPath project) = none ∨ ∃ bytes, s (journalPath project) = some (.file bytes)) :
    wp fileCalls 0 (fun _ _ => True) (writeRecordBytes unix forceFallback project nonce new).run
      (fun r _ _ => r = .ok ()) log s := by
  rw [writeRecordBytes, wp_tryBind]
  refine wp_writeTemporaryRecord_ok hproject htemp fun log t h ht => ?_
  have hsame : t (journalPath project) = s (journalPath project) :=
    ht _ (by simpa using Ne.symm (temporary_ne_journal project nonce))
  have hbackup : t (journalBackupPath project) = s (journalBackupPath project) :=
    ht _ (by simpa using Ne.symm (temporary_ne_backup project nonce))
  have hdir : ∀ entries, t (journalPath project) ≠ some (.directory entries) := by
    rw [hsame]
    exact hclear _ List.mem_cons_self
  have hrename : ∀ log, wp fileCalls 0 (fun _ _ => True)
      (attempt (.rename (journalTemporaryPath project nonce) (journalPath project)) IoError.text :
        ExceptT String FileProg Unit).run
      (fun r _ t => r = .ok () ∧ ∃ entries, t project = some (.directory entries)) log t := by
    intro log
    obtain ⟨u, hmove, hdir, -⟩ := exec_renameIn h hdir
    exact wp_attempt_zero hmove (fun _ => trivial) ⟨rfl, hdir⟩
  have hreplace : wp fileCalls 0 (fun _ _ => True)
      (replaceJournalFile unix forceFallback project (journalTemporaryPath project nonce) (journalPath project)
        (journalBackupPath project)).run
      (fun r _ t => r = .ok () ∧ ∃ entries, t project = some (.directory entries)) log t := by
    rw [replaceJournalFile, wp_tryBind, wp_lift]
    refine wp_perform_zero (exec_present _ _) (fun _ => trivial) ?_
    rw [hsame]
    rcases hj with hnone | ⟨bytes, hfile⟩
    · rw [hnone]
      exact hrename _
    · rw [hfile]
      show wp fileCalls 0 _ (if unix && !forceFallback then _ else _ : ExceptT _ _ _).run _ _ t
      split_ifs
      · exact hrename _
      · refine wp_replaceThroughBackup_ok h (hsame.trans hfile) ?_
        rw [hbackup]
        exact hclear _ (by simp [journalCells])
  show wp fileCalls 0 _ (ExceptT.adapt _ _ >>= _ : ExceptT _ _ _).run _ log t
  rw [wp_tryBind, wp_adapt]
  refine wp_mono ?_ (fun _ _ h => h) hreplace
  rintro _ log u ⟨rfl, hdir⟩
  exact wp_syncProject_ok hdir fun _ => rfl

end Undisturbed

/-! ### Runs -/

section Runs

variable (codec : JsonCodec) (project : AbsPath)

/-- The JSON library reads back what it wrote for the record. -/
def RecordReadsBack (r : LifecycleRecord) : Prop :=
  codec.decode (codec.encode r.toValue) = .ok r.toValue ∧ r.version < 2 ^ 32

/-- A write of a record, cut short or not. -/
def runWriteRecord (unix forceFallback : Bool) (nonce : String) (record : LifecycleRecord) (plan : List (Fate Cut))
    (s : Files) : Outcome FileOp Files (Except String Unit) :=
  (writeRecord codec unix forceFallback project nonce record).run.execute fileCalls plan [] s

def runReadRecord (plan : List (Fate Cut)) (s : Files) : Outcome FileOp Files (Except String (Option LifecycleRecord)) :=
  (readRecord codec project).run.execute fileCalls plan [] s

def runRemoveJournal (plan : List (Fate Cut)) (s : Files) : Outcome FileOp Files (Except String Unit) :=
  (removeJournal project).run.execute fileCalls plan [] s

/-- The record that was published last, in the states of a run: writes by either
strategy, reads and removals, each of them stopped anywhere.  No calls fail. -/
inductive Journal : Option LifecycleRecord → Files → Prop where
  | start {s : Files} : (∃ entries, s project = some (.directory entries)) → Reads project none s → Journal none s
  | write {r : Option LifecycleRecord} {s : Files} {unix forceFallback : Bool} {nonce : String} {new : LifecycleRecord}
    {plan : List (Fate Cut)} : Journal r s → RecordReadsBack codec new → planned plan = 0 →
    Journal (if Published project nonce (runWriteRecord codec project unix forceFallback nonce new plan s).log
      then some new else r) (runWriteRecord codec project unix forceFallback nonce new plan s).final
  | read {r : Option LifecycleRecord} {s : Files} {plan : List (Fate Cut)} : Journal r s → planned plan = 0 →
    Journal r (runReadRecord codec project plan s).final
  /-- The removal got to its end. -/
  | removed {r : Option LifecycleRecord} {s : Files} {plan : List (Fate Cut)} : Journal r s → planned plan = 0 →
    Reads project none (runRemoveJournal project plan s).final → Journal none (runRemoveJournal project plan s).final
  /-- The removal was cut short. -/
  | kept {r : Option LifecycleRecord} {s : Files} {plan : List (Fate Cut)} : Journal r s → planned plan = 0 →
    ¬ Reads project none (runRemoveJournal project plan s).final → Journal r (runRemoveJournal project plan s).final

variable {codec} {project}

/-- What the files of a run hold. -/
structure JournalHolds (codec : JsonCodec) (project : AbsPath) (r : Option LifecycleRecord) (s : Files) : Prop where
  directory : ∃ entries, s project = some (.directory entries)
  clear : NoDirectory (journalCells project) s
  reads : Reads project (r.map fun record => toVec codec record.toValue) s
  fits : ∀ record, r = some record → (toVec codec record.toValue).length ≤ maxJournalBytes
  readsBack : ∀ record, r = some record → RecordReadsBack codec record

variable {r : Option LifecycleRecord} {new : LifecycleRecord} {s : Files} {plan : List (Fate Cut)}
  {unix forceFallback : Bool} {nonce : String}

theorem JournalHolds.of_none (hproject : ∃ entries, s project = some (.directory entries))
    (hreads : Reads project none s) : JournalHolds codec project none s where
  directory := hproject
  clear p hp entries hdir := by
    rcases List.mem_cons.mp hp with rfl | hp
    · cases hdir.symm.trans hreads.1
    · rw [List.mem_singleton.mp hp] at hdir
      cases hdir.symm.trans hreads.2
  reads := hreads
  fits record hrecord := by cases hrecord
  readsBack record hrecord := by cases hrecord

theorem fits_of_holds (h : JournalHolds codec project r s) :
    Fits (r.map fun record => toVec codec record.toValue) := by
  intro bytes hbytes
  obtain ⟨record, hrecord, rfl⟩ := Option.map_eq_some_iff.mp hbytes
  exact h.fits record hrecord

/-- **What a write preserves.** -/
theorem JournalHolds.write (h : JournalHolds codec project r s) (hnew : RecordReadsBack codec new)
    (hplan : planned plan = 0) :
    JournalHolds codec project
      (if Published project nonce (runWriteRecord codec project unix forceFallback nonce new plan s).log
        then some new else r) (runWriteRecord codec project unix forceFallback nonce new plan s).final := by
  rw [runWriteRecord, writeRecord]
  by_cases hsize : (toVec codec new.toValue).length > maxJournalBytes
  · -- the record is too large, and nothing is written
    have hnot : ¬ Published project nonce [] := List.not_mem_nil
    rw [if_pos hsize]
    show JournalHolds codec project (if Published project nonce [] then some new else r) s
    rw [if_neg hnot]
    exact h
  · rw [if_neg hsize]
    have hrun := execute_of_wp plan
      (@wp_writeRecordBytes project nonce _ (toVec codec new.toValue) [] s unix forceFallback List.not_mem_nil h.reads)
      (by rw [failures_nil]; omega)
    have hframe := writeRecordBytes_other project nonce unix forceFallback (toVec codec new.toValue) plan s
    have hclear := @writeRecordBytes_noDirectory project nonce s unix forceFallback (toVec codec new.toValue) plan
      h.clear hplan
    generalize (writeRecordBytes unix forceFallback project nonce (toVec codec new.toValue)).run.execute fileCalls plan
      [] s = out at hrun hframe hclear
    have hreads : Replacing project nonce (r.map fun record => toVec codec record.toValue) (toVec codec new.toValue)
        out.log out.final := by
      cases out with
      | returned result log t => exact hrun.1
      | stopped log t => exact hrun
    have hdirectory : ∃ entries, out.final project = some (.directory entries) := by
      rw [hframe]
      exact h.directory
    rw [Replacing] at hreads
    split_ifs at hreads ⊢ with hpublished
    · refine ⟨hdirectory, hclear, hreads, fun record hrecord => ?_, fun record hrecord => ?_⟩
      · rw [← Option.some_inj.mp hrecord]
        exact not_lt.mp hsize
      · rw [← Option.some_inj.mp hrecord]
        exact hnew
    · exact ⟨hdirectory, hclear, hreads, h.fits, h.readsBack⟩

/-- What reading the record comes to. -/
theorem runReadRecord_satisfies (h : JournalHolds codec project r s) (hplan : planned plan = 0) :
    (runReadRecord codec project plan s).Satisfies
      (fun result _ t => JournalHolds codec project r t ∧ result = .ok r)
      (fun _ t => JournalHolds codec project r t) := by
  have hparse : ∀ record, r = some record → parseRecord codec (toVec codec record.toValue) = .ok record := by
    intro record hrecord
    obtain ⟨hcodec, hversion⟩ := h.readsBack record hrecord
    exact parseRecord_toVec hcodec hversion
  have hwp : wp fileCalls 0 (fun _ => Reads project (r.map fun record => toVec codec record.toValue))
      (readRecord codec project).run (fun result _ t =>
        Reads project (r.map fun record => toVec codec record.toValue) t ∧ result = .ok r) [] s := by
    rw [readRecord, wp_tryBind]
    refine wp_mono ?_ (fun _ _ h => h) (wp_loadJournal h.directory h.reads (fits_of_holds h))
    rintro _ log t ⟨hreads, rfl⟩
    cases r with
    | none => exact ⟨hreads, rfl⟩
    | some record =>
      show wp fileCalls 0 _ (match parseRecord codec (toVec codec record.toValue) with
        | .ok _ => _ | .error _ => _ : ExceptT _ _ _).run _ log t
      rw [hparse record rfl]
      exact ⟨hreads, rfl⟩
  have hrun := execute_of_wp plan hwp (by rw [failures_nil]; omega)
  have honFiles : OnFiles (journalCells project) (readRecord codec project).run :=
    onFiles_readRecord List.mem_cons_self (List.mem_cons_of_mem _ List.mem_cons_self) codec
  have hframe := honFiles.execute (notin_journalCells project) plan [] s
  have hclear := honFiles.noDirectory h.clear plan []
  have hholds : ∀ t : Files, t project = s project → NoDirectory (journalCells project) t →
      Reads project (r.map fun record => toVec codec record.toValue) t → JournalHolds codec project r t :=
    fun t ht hclear hreads => ⟨by rw [ht]; exact h.directory, hclear, hreads, h.fits, h.readsBack⟩
  rw [runReadRecord]
  generalize (readRecord codec project).run.execute fileCalls plan [] s = out at hrun hframe hclear
  cases out with
  | returned result log t => exact ⟨hholds t hframe hclear hrun.1, hrun.2⟩
  | stopped log t => exact hholds t hframe hclear hrun

/-- **What a run preserves.** -/
theorem Journal.holds (h : Journal codec project r s) : JournalHolds codec project r s := by
  have honFiles : OnFiles (journalCells project) (removeJournal project).run :=
    onFiles_removeJournal List.mem_cons_self (by simp [journalCells])
  induction h with
  | start hproject hreads =>
    exact .of_none hproject hreads
  | write _ hnew hplan ih => exact ih.write hnew hplan
  | @read r s plan _ hplan ih =>
    have hrun := runReadRecord_satisfies ih hplan
    cases hout : runReadRecord codec project plan s with
    | returned result log t =>
      rw [hout] at hrun
      exact hrun.1
    | stopped log t =>
      rw [hout] at hrun
      exact hrun
  | @removed r s plan _ hplan hnone ih =>
    refine .of_none ?_ hnone
    rw [runRemoveJournal, honFiles.execute (notin_journalCells project)]
    exact ih.directory
  | @kept r s plan _ hplan hnot ih =>
    refine ⟨?_, honFiles.noDirectory ih.clear plan [], ?_, ih.fits, ih.readsBack⟩
    · rw [runRemoveJournal, honFiles.execute (notin_journalCells project)]
      exact ih.directory
    · have hrun := execute_of_wp plan (@wp_removeJournal project _ [] s ih.reads) (by rw [failures_nil]; omega)
      rw [runRemoveJournal] at hnot ⊢
      generalize (removeJournal project).run.execute fileCalls plan [] s = out at hrun hnot ⊢
      cases out with
      | returned result log t => exact hrun.resolve_right hnot
      | stopped log t => exact hrun.resolve_right hnot

/-- A record that fits is published by a write that nothing disturbs. -/
theorem JournalHolds.write_ok (h : JournalHolds codec project r s) (hfits : (toVec codec new.toValue).length ≤ maxJournalBytes)
    (htemp : s (journalTemporaryPath project nonce) = none) (hplan : planned plan = 0) (hstop : ∀ c, .stopped c ∉ plan) :
    ∃ log t, runWriteRecord codec project unix forceFallback nonce new plan s = .returned (.ok ()) log t := by
  have hj : s (journalPath project) = none ∨ ∃ bytes, s (journalPath project) = some (.file bytes) := by
    have hreads := h.reads
    cases r with
    | none => exact .inl hreads.1
    | some record => exact hreads.elim (fun hfile => .inr ⟨_, hfile⟩) fun hbackup => .inl hbackup.1
  rw [runWriteRecord, writeRecord, if_neg (not_lt.mpr hfits)]
  have hrun := execute_of_wp plan (@wp_writeRecordBytes_ok project nonce (toVec codec new.toValue) [] s unix forceFallback
    h.directory htemp h.clear hj) (by rw [failures_nil]; omega)
  obtain ⟨result, log, t, hout⟩ := execute_returned fileCalls
    (writeRecordBytes unix forceFallback project nonce (toVec codec new.toValue)).run hstop [] s
  rw [hout] at hrun
  obtain rfl : result = .ok () := hrun
  exact ⟨log, t, hout⟩

/-- **Replacement is atomic.**  In every state of a run recovery reads the record
that was published last.  A write that is stopped anywhere leaves the old record or
the new one for every later reader, and the new one as soon as it is published; it
returns only after that, and it gets there when nothing disturbs it. -/
theorem journal_reads_published (h : Journal codec project r s) :
    (∀ plan, planned plan = 0 → (∀ c, .stopped c ∉ plan) →
      ∃ log t, runReadRecord codec project plan s = .returned (.ok r) log t) ∧
    ∀ unix forceFallback nonce new plan, RecordReadsBack codec new → planned plan = 0 →
      ∀ out, runWriteRecord codec project unix forceFallback nonce new plan s = out →
      (∀ plan', planned plan' = 0 → (∀ c, .stopped c ∉ plan') →
        ∃ log t, runReadRecord codec project plan' out.final =
          .returned (.ok (if Published project nonce out.log then some new else r)) log t) ∧
      (∀ log t, out = .returned (.ok ()) log t → Published project nonce log) ∧
      ((toVec codec new.toValue).length ≤ maxJournalBytes → s (journalTemporaryPath project nonce) = none →
        (∀ c, .stopped c ∉ plan) → ∃ log t, out = .returned (.ok ()) log t) := by
  have hread : ∀ {r s}, Journal codec project r s → ∀ plan, planned plan = 0 → (∀ c, .stopped c ∉ plan) →
      ∃ log t, runReadRecord codec project plan s = .returned (.ok r) log t := by
    intro r s h plan hplan hstop
    have hrun := runReadRecord_satisfies h.holds hplan
    obtain ⟨result, log, t, hout⟩ := execute_returned fileCalls (readRecord codec project).run hstop [] s
    rw [runReadRecord, hout] at hrun
    obtain rfl := hrun.2
    exact ⟨log, t, hout⟩
  refine ⟨hread h, ?_⟩
  rintro unix forceFallback nonce new plan hnew hplan out rfl
  refine ⟨hread (h.write hnew hplan), fun log t hout => ?_, fun hfits htemp hstop => h.holds.write_ok hfits htemp hplan hstop⟩
  rw [runWriteRecord, writeRecord] at hout
  by_cases hsize : (toVec codec new.toValue).length > maxJournalBytes
  · rw [if_pos hsize] at hout
    cases hout
  · rw [if_neg hsize] at hout
    have hrun := execute_of_wp plan
      (@wp_writeRecordBytes project nonce _ (toVec codec new.toValue) [] s unix forceFallback List.not_mem_nil
        h.holds.reads) (by rw [failures_nil]; omega)
    rw [hout] at hrun
    exact hrun.2 rfl

/-- A record of a project with an empty manifest. -/
def projectRecord (owner : String) (state : LifecycleState) : LifecycleRecord where
  version := 2
  manifestPath := defaultManifestPath
  owner := owner
  state := state
  manifestExisted := true
  manifest := "e30="
  lockExisted := false
  lock := ""
  markerExisted := false
  nodeModulesExisted := false
  storeRoot := none
  members := []

def preparedRecord : LifecycleRecord := projectRecord "1-a\n" .prepared

def committedRecord : LifecycleRecord := projectRecord "1-a\n" .committed

def projectRecords : List Json := [preparedRecord.toValue, committedRecord.toValue]

/-- A library that knows the two records. -/
def recordCodec : JsonCodec := compactCodec (readDocument projectRecords)

theorem nodup_projectRecords : (projectRecords.map Json.compact).Nodup := by decide +kernel

theorem readsBack_recordCodec {record : LifecycleRecord} (hrecord : record.toValue ∈ projectRecords)
    (hversion : record.version < 2 ^ 32) : RecordReadsBack recordCodec record := by
  refine ⟨?_, hversion⟩
  rw [recordCodec, decode_compactCodec]
  exact readDocument_compact nodup_projectRecords hrecord

theorem readsBack_preparedRecord : RecordReadsBack recordCodec preparedRecord :=
  readsBack_recordCodec List.mem_cons_self (by decide)

theorem readsBack_committedRecord : RecordReadsBack recordCodec committedRecord :=
  readsBack_recordCodec (List.mem_cons_of_mem _ List.mem_cons_self) (by decide)

theorem preparedRecord_fits : (toVec recordCodec preparedRecord.toValue).length ≤ maxJournalBytes := by
  rw [length_toVec]
  show Text.byteLen (String.ofList preparedRecord.toValue.compact).toList ≤ maxJournalBytes
  rw [String.toList_ofList]
  decide +kernel

theorem committedRecord_fits : (toVec recordCodec committedRecord.toValue).length ≤ maxJournalBytes := by
  rw [length_toVec]
  show Text.byteLen (String.ofList committedRecord.toValue.compact).toList ≤ maxJournalBytes
  rw [String.toList_ofList]
  decide +kernel

def emptyProject : Files := fun p => if p = ["p"] then some (.directory []) else none

/-- The first record of the project, by a rename. -/
def firstRecord : Outcome FileOp Files (Except String Unit) :=
  runWriteRecord recordCodec ["p"] true false "0" preparedRecord [] emptyProject

/-- Its replacement through the backup. -/
def secondRecord (plan : List (Fate Cut)) : Outcome FileOp Files (Except String Unit) :=
  runWriteRecord recordCodec ["p"] false true "1" committedRecord plan firstRecord.final

/-- What is written does not depend on the bytes of a record that fits. -/
theorem firstRecord_eq : firstRecord =
    (writeRecordBytes true false ["p"] "0" (toVec recordCodec preparedRecord.toValue)).run.execute fileCalls [] []
      emptyProject := by
  rw [firstRecord, runWriteRecord, writeRecord, if_neg (not_lt.mpr preparedRecord_fits)]

theorem secondRecord_eq (plan : List (Fate Cut)) : secondRecord plan =
    (writeRecordBytes false true ["p"] "1" (toVec recordCodec committedRecord.toValue)).run.execute fileCalls plan []
      firstRecord.final := by
  rw [secondRecord, runWriteRecord, writeRecord, if_neg (not_lt.mpr committedRecord_fits)]

theorem firstRecord_ends : Published ["p"] "0" firstRecord.log ∧
    (firstRecord.final (journalTemporaryPath ["p"] "1")).isNone = true := by
  rw [firstRecord_eq]
  decide +kernel

/-- The record is in the backup, and the process stops at the rename of the new one. -/
def stopsBetween : List (Fate Cut) := List.replicate 7 .done ++ [.stopped ⟨none, []⟩]

/-- The new record has taken its place, and the process stops before it syncs. -/
def stopsBehind : List (Fate Cut) := List.replicate 8 .done ++ [.stopped ⟨none, []⟩]

theorem secondRecord_between : ¬ Published ["p"] "1" (secondRecord stopsBetween).log ∧
    ((secondRecord stopsBetween).final (journalPath ["p"])).isNone = true := by
  rw [secondRecord_eq, firstRecord_eq]
  decide +kernel

theorem secondRecord_behind : Published ["p"] "1" (secondRecord stopsBehind).log := by
  rw [secondRecord_eq, firstRecord_eq]
  decide +kernel

theorem journal_firstRecord : Journal recordCodec ["p"] (some preparedRecord) firstRecord.final := by
  have hstart : Journal recordCodec ["p"] none emptyProject :=
    Journal.start ⟨[], if_pos rfl⟩ ⟨if_neg (by decide), if_neg (by decide)⟩
  have h : Journal recordCodec ["p"] (if Published ["p"] "0" firstRecord.log then some preparedRecord else none)
      firstRecord.final := hstart.write readsBack_preparedRecord rfl
  rwa [if_pos firstRecord_ends.1] at h

/-- With the journal away the old record is read, and the new one once it is there; a
replacement that nothing disturbs returns. -/
theorem journal_reads_published_fallback :
    ((secondRecord stopsBetween).final (journalPath ["p"])).isNone = true ∧
    (∃ log t, runReadRecord recordCodec ["p"] [] (secondRecord stopsBetween).final =
      .returned (.ok (some preparedRecord)) log t) ∧
    (∃ log t, runReadRecord recordCodec ["p"] [] (secondRecord stopsBehind).final =
      .returned (.ok (some committedRecord)) log t) ∧
    ∃ log t, secondRecord [] = .returned (.ok ()) log t := by
  obtain ⟨-, hwrite⟩ := journal_reads_published journal_firstRecord
  have hwrite := hwrite false true "1" committedRecord
  have hleft : ∀ c : Cut, Fate.stopped c ∉ ([] : List (Fate Cut)) := fun c => List.not_mem_nil
  refine ⟨secondRecord_between.2, ?_, ?_, ?_⟩
  · have hread := (hwrite stopsBetween readsBack_committedRecord rfl (secondRecord stopsBetween) rfl).1 [] rfl hleft
    rwa [if_neg secondRecord_between.1] at hread
  · have hread := (hwrite stopsBehind readsBack_committedRecord rfl (secondRecord stopsBehind) rfl).1 [] rfl hleft
    rwa [if_pos secondRecord_behind] at hread
  · exact (hwrite [] readsBack_committedRecord rfl (secondRecord []) rfl).2.2 committedRecord_fits
      (Option.isNone_iff_eq_none.mp firstRecord_ends.2) hleft

end Runs

end Tapid
