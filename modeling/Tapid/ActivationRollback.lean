/-
An activation that is not committed is rolled back.

The rollback finds what an interrupted activation left, or an interrupted
rollback, and keeps it safe as far as it gets.  When it ends without an error
both marker and tree are those from before the activation.

* `wp_rollbackMarker`, `wp_rollbackNodeModules` — its two halves;
* `wp_rollback` — the rollback, whatever fails in it;
* `rollback_of_activation` — any number of interrupted rollbacks of an
  interrupted activation.
-/
import Tapid.ActivationSafe

namespace Tapid

open FileSystem FileProg Interrupted Text

namespace Activation

/-! ### What a backup says -/

section Backups

variable {fits : Node → Prop} {path backup : AbsPath} {s₀ s : Files}

theorem Recoverable.of_backup (h : Recoverable fits path backup s₀ s) {node : Node} (hnode : s backup = some node) :
    s₀ path = some node ∧ fits node ∧ Aside fits path backup s₀ s ∧ ∀ n, s path = some n → fits n := by
  rcases h with ⟨hnone, _⟩ | ⟨haside, hfits⟩
  · cases hnone.symm.trans hnode
  · rcases id haside with ⟨node', hold, hfit, hbackup⟩ | ⟨_, hnone⟩
    · obtain rfl := Option.some_inj.mp (hbackup.symm.trans hnode)
      exact ⟨hold, hfit, haside, hfits⟩
    · cases hnone.symm.trans hnode

theorem Recoverable.of_no_backup (h : Recoverable fits path backup s₀ s) (hnone : s backup = none) :
    s path = s₀ path ∨ (s₀ path = none ∧ Aside fits path backup s₀ s ∧ ∀ n, s path = some n → fits n) := by
  rcases h with ⟨_, hkept⟩ | ⟨haside, hfits⟩
  · exact .inl hkept
  · rcases id haside with ⟨node, _, _, hbackup⟩ | ⟨hold, _⟩
    · cases hnone.symm.trans hbackup
    · exact .inr ⟨hold, haside, hfits⟩

end Backups

/-! ### The halves of the rollback -/

section Halves

variable {project : AbsPath} {owner : String} {s₀ s : Files} {budget : Nat} {log : List (Event FileOp)}

/-- A marker that was not there, or is in its backup, is removed. -/
theorem wp_removeUncommittedMarker {bytes : List UInt8} (h : Safe project owner s₀ s)
    (haside : Aside IsFile (markerPath project) (markerBackup project owner) s₀ s)
    (hfile : s (markerPath project) = some (.file bytes)) {Q : Except IoError Unit → List (Event FileOp) → Files → Prop}
    (hok : ∀ log t, Safe project owner s₀ t → t (markerPath project) = none →
      SameExcept [markerPath project] s t → Q (.ok ()) log t)
    (hfailed : ∀ log, 0 < budget → Q (.error .other) log s) :
    wp fileCalls budget (fun _ t => Safe project owner s₀ t) (perform (.removeFile (markerPath project))) Q log s := by
  obtain ⟨t, ht⟩ : ∃ t, t = Function.update s (markerPath project) none := ⟨_, rfl⟩
  have hgone : t (markerPath project) = none := by
    rw [ht, Function.update_self]
  have hsame : SameExcept [markerPath project] s t := by
    rw [ht]
    exact (SameExcept.refl _ _).update List.mem_cons_self _
  refine wp_whole (fun _ => rfl) h ?_ (hfailed _)
  rw [exec_removeFile hfile, ← ht]
  have hbackup : t (markerBackup project owner) = s (markerBackup project owner) :=
    hsame _ (by simp [Ne.symm (marker_ne_markerBackup project owner)])
  refine hok _ _ (h.of_marker (hsame.mono (by simp)) (.inr ⟨haside.of_same hbackup, fun n hn => ?_⟩)) hgone hsame
  cases hgone.symm.trans hn

/-- **The backup becomes the marker** where there is no marker, or a file. -/
theorem wp_bringMarkerBack {node : Node} (h : Safe project owner s₀ s)
    (hbackup : s (markerBackup project owner) = some node) {f : IoError → String}
    {Q : Except String Unit → List (Event FileOp) → Files → Prop}
    (hok : ∀ log t, Safe project owner s₀ t → t (markerPath project) = s₀ (markerPath project) → Q (.ok ()) log t)
    (herror : ∀ e log t, 0 < budget → Safe project owner s₀ t → Q (.error e) log t) :
    wp fileCalls budget (fun _ t => Safe project owner s₀ t)
      (attempt (.rename (markerBackup project owner) (markerPath project)) f).run Q log s := by
  obtain ⟨hold, ⟨bytes, rfl⟩, _, hfits⟩ := h.marker.of_backup hbackup
  rw [wp_attempt_perform]
  refine wp_whole (fun _ => rfl) h ?_ fun hbudget => herror _ _ _ hbudget h
  have hback := h.moveMarkerBack
  have hne := Ne.symm (marker_ne_markerBackup project owner)
  have hplace : ∀ entries, s (markerPath project) ≠ some (.directory entries) := by
    intro entries hdirectory
    obtain ⟨bytes', hfile⟩ := hfits _ hdirectory
    cases hfile
  rw [exec_rename hbackup hplace hne] at hback ⊢
  refine hok _ _ hback ?_
  show Function.update (Function.update s (markerPath project) (some (.file bytes))) (markerBackup project owner) none
    (markerPath project) = _
  rw [Function.update_of_ne (Ne.symm hne), Function.update_self, hold]

theorem wp_rollbackMarker (h : Safe project owner s₀ s) {decision : RecoveryDecision}
    (hdecision : decision.markerExisted = (s₀ (markerPath project)).isSome)
    {Q : Except String Unit → List (Event FileOp) → Files → Prop}
    (hok : ∀ log t, Safe project owner s₀ t → t (markerPath project) = s₀ (markerPath project) → Q (.ok ()) log t)
    (herror : ∀ e log t, 0 < budget → Safe project owner s₀ t → Q (.error e) log t) :
    wp fileCalls budget (fun _ t => Safe project owner s₀ t) (rollbackMarker project owner decision).run Q log s := by
  show wp _ _ _ (liftM (perform _) >>= _ : ExceptT _ _ _).run Q log s
  rw [wp_tryBind, wp_lift]
  refine wp_metadata h (fun node log hbackup => ?_) (fun log hbackup => ?_) fun log hbudget => herror _ _ _ hbudget h
  · -- the marker was moved aside
    obtain ⟨hold, hfile, haside, hfits⟩ := h.marker.of_backup hbackup
    show wp _ _ _ (if node.metadata.kind = .file then _ else _ : ExceptT _ _ _).run Q log s
    rw [if_pos (kind_eq_file.mpr hfile)]
    show wp _ _ _ (liftM (perform _) >>= _ : ExceptT _ _ _).run Q log s
    rw [wp_tryBind, wp_lift]
    refine wp_metadata h (fun current log hcurrent => ?_) (fun log hgone => ?_) fun log hbudget => ?_
    · obtain ⟨bytes, rfl⟩ := hfits current hcurrent
      show wp _ _ _ (attempt (.removeFile (markerPath project)) _ >>= _ : ExceptT _ _ _).run Q log s
      rw [wp_tryBind, wp_attempt_perform]
      refine wp_removeUncommittedMarker h haside hcurrent (fun log t ht hgone hsame => ?_) fun log hbudget =>
        herror _ _ _ hbudget h
      have hbackupT : t (markerBackup project owner) = some node :=
        (hsame _ (by simp [Ne.symm (marker_ne_markerBackup project owner)])).trans hbackup
      exact wp_bringMarkerBack ht hbackupT hok herror
    · exact wp_bringMarkerBack h hbackup hok herror
    · exact wp_bringMarkerBack h hbackup hok herror
  · cases hexisted : decision.markerExisted with
    | true =>
      rw [if_pos rfl]
      refine hok _ _ h ((h.marker.of_no_backup hbackup).resolve_right fun ⟨hnone, _⟩ => ?_)
      rw [hdecision, hnone] at hexisted
      cases hexisted
    | false =>
      -- there was no marker
      have hold : s₀ (markerPath project) = none := by
        rw [hdecision] at hexisted
        exact Option.isNone_iff_eq_none.mp (by simpa using hexisted)
      show wp _ _ _ (liftM (perform _) >>= _ : ExceptT _ _ _).run Q log s
      rw [wp_tryBind, wp_lift]
      refine wp_metadata h (fun node log hnode => ?_) (fun log hgone => hok _ _ h (hgone.trans hold.symm))
        fun log hbudget => herror _ _ _ hbudget h
      rcases h.marker.of_no_backup hbackup with hkept | ⟨_, haside, hfits⟩
      · cases (hkept.trans hold).symm.trans hnode
      · obtain ⟨bytes, rfl⟩ := hfits node hnode
        show wp _ _ _ (attempt (.removeFile (markerPath project)) _).run Q log s
        rw [wp_attempt_perform]
        exact wp_removeUncommittedMarker h haside hnode (fun log t ht hgone _ => hok _ _ ht (hgone.trans hold.symm))
          fun log hbudget => herror _ _ _ hbudget h

/-- **The backup becomes the tree** where there is none. -/
theorem wp_bringTreeBack {node : Node} (h : Safe project owner s₀ s)
    (hbackup : s (nodeModulesBackup project owner) = some node) (hgone : s (nodeModulesPath project) = none)
    {f : IoError → String} {Q : Except String Unit → List (Event FileOp) → Files → Prop}
    (hok : ∀ log t, Safe project owner s₀ t → t (nodeModulesPath project) = s₀ (nodeModulesPath project) →
      SameExcept [nodeModulesPath project, nodeModulesBackup project owner] s t → Q (.ok ()) log t)
    (herror : ∀ e log t, 0 < budget → Safe project owner s₀ t → Q (.error e) log t) :
    wp fileCalls budget (fun _ t => Safe project owner s₀ t)
      (attempt (.rename (nodeModulesBackup project owner) (nodeModulesPath project)) f).run Q log s := by
  obtain ⟨hold, _⟩ := h.tree.of_backup hbackup
  rw [wp_attempt_perform]
  refine wp_whole (fun _ => rfl) h ?_ fun hbudget => herror _ _ _ hbudget h
  have hback := h.moveTreeBack
  have hne := Ne.symm (nodeModules_ne_nodeModulesBackup project owner)
  rw [exec_rename_none hbackup hgone hne] at hback ⊢
  refine hok _ _ hback ?_ (((SameExcept.refl _ _).update (by simp) _).update (by simp) _)
  show Function.update (Function.update s (nodeModulesPath project) (some node)) (nodeModulesBackup project owner) none
    (nodeModulesPath project) = _
  rw [Function.update_of_ne (Ne.symm hne), Function.update_self, hold]

theorem wp_rollbackNodeModules (h : Safe project owner s₀ s) {decision : RecoveryDecision}
    (hdecision : decision.nodeModulesExisted = (s₀ (nodeModulesPath project)).isSome)
    {Q : Except String Unit → List (Event FileOp) → Files → Prop}
    (hok : ∀ log t, Safe project owner s₀ t → t (nodeModulesPath project) = s₀ (nodeModulesPath project) →
      SameExcept [nodeModulesPath project, nodeModulesBackup project owner] s t → Q (.ok ()) log t)
    (herror : ∀ e log t, 0 < budget → Safe project owner s₀ t → Q (.error e) log t) :
    wp fileCalls budget (fun _ t => Safe project owner s₀ t) (rollbackNodeModules project owner decision).run Q log
      s := by
  show wp _ _ _ (liftM (perform _) >>= _ : ExceptT _ _ _).run Q log s
  rw [wp_tryBind, wp_lift]
  refine wp_metadata h (fun node log hbackup => ?_) (fun log hbackup => ?_) fun log hbudget => herror _ _ _ hbudget h
  · -- the tree was moved aside
    obtain ⟨hold, hdirectory, haside, hfits⟩ := h.tree.of_backup hbackup
    show wp _ _ _ (if node.metadata.kind = .directory then _ else _ : ExceptT _ _ _).run Q log s
    rw [if_pos (kind_eq_directory.mpr hdirectory)]
    show wp _ _ _ (liftM (perform _) >>= _ : ExceptT _ _ _).run Q log s
    rw [wp_tryBind, wp_lift]
    refine wp_metadata h (fun current log hcurrent => ?_) (fun log hgone => ?_) fun log hbudget =>
      herror _ _ _ hbudget h
    · obtain ⟨entries, rfl⟩ := hfits current hcurrent
      show wp _ _ _ (attempt (.removeDirAll (nodeModulesPath project)) _ >>= _ : ExceptT _ _ _).run Q log s
      rw [wp_tryBind, wp_attempt_perform]
      refine wp_removeUncommitted h ⟨haside, entries, hcurrent⟩ (fun log t ht hgone hsame => ?_)
        fun log t hbudget ht _ => herror _ _ _ hbudget ht
      have hbackupT : t (nodeModulesBackup project owner) = some node :=
        (hsame _ (by simp [Ne.symm (nodeModules_ne_nodeModulesBackup project owner)])).trans hbackup
      exact wp_bringTreeBack ht hbackupT hgone
        (fun log u hu hback hsameU => hok _ _ hu hback ((hsame.mono (by simp)).trans hsameU)) herror
    · exact wp_bringTreeBack h hbackup hgone hok herror
  · cases hexisted : decision.nodeModulesExisted with
    | true =>
      rw [if_pos rfl]
      refine hok _ _ h ((h.tree.of_no_backup hbackup).resolve_right fun ⟨hnone, _⟩ => ?_) (SameExcept.refl _ _)
      rw [hdecision, hnone] at hexisted
      cases hexisted
    | false =>
      -- there was no tree
      have hold : s₀ (nodeModulesPath project) = none := by
        rw [hdecision] at hexisted
        exact Option.isNone_iff_eq_none.mp (by simpa using hexisted)
      show wp _ _ _ (liftM (perform _) >>= _ : ExceptT _ _ _).run Q log s
      rw [wp_tryBind, wp_lift]
      refine wp_metadata h (fun node log hnode => ?_)
        (fun log hgone => hok _ _ h (hgone.trans hold.symm) (SameExcept.refl _ _)) fun log hbudget =>
        herror _ _ _ hbudget h
      rcases h.tree.of_no_backup hbackup with hkept | ⟨_, haside, hfits⟩
      · cases (hkept.trans hold).symm.trans hnode
      · obtain ⟨entries, rfl⟩ := hfits node hnode
        show wp _ _ _ (attempt (.removeDirAll (nodeModulesPath project)) _).run Q log s
        rw [wp_attempt_perform]
        exact wp_removeUncommitted h ⟨haside, entries, hnode⟩
          (fun log t ht hgone hsame => hok _ _ ht (hgone.trans hold.symm) (hsame.mono (by simp)))
          fun log t hbudget ht _ => herror _ _ _ hbudget ht

end Halves

/-! ### Runs -/

/-- What the lifecycle journal notes before the activation. -/
def decisionAt (project : AbsPath) (s₀ : Files) : RecoveryDecision where
  markerExisted := (s₀ (markerPath project)).isSome
  nodeModulesExisted := (s₀ (nodeModulesPath project)).isSome

/-- Marker and tree are those from before the activation. -/
structure Restored (project : AbsPath) (s₀ s : Files) : Prop where
  marker : s (markerPath project) = s₀ (markerPath project)
  tree : s (nodeModulesPath project) = s₀ (nodeModulesPath project)

section Runs

variable (project : AbsPath) (owner : String) (s₀ : Files)

/-- The rollback of the activation, from whatever is found. -/
def rollback : FileProg (Except String Unit) :=
  (rollbackCoordinatedActivation project (owner ++ "\n") (decisionAt project s₀)).run

/-- A run of the rollback with failures, which may be interrupted. -/
def RollbackRun (s t : Files) : Prop := ∃ plan, ((rollback project owner s₀).execute fileCalls plan [] s).final = t

variable {project owner s₀} {s t : Files} {budget : Nat} {log : List (Event FileOp)}

theorem stripSuffix_line : stripSuffix ['\n'] (owner ++ "\n").toList = some owner.toList := by
  rw [String.toList_append, stripSuffix, List.reverse_append]
  show (stripPrefix ['\n'] ('\n' :: owner.toList.reverse)).map List.reverse = _
  simp [stripPrefix]

/-- **A rollback keeps what is safe**; if it returns without an error the state is
the one from before, and it does so unless a call fails. -/
theorem wp_rollback (h : Safe project owner s₀ s) :
    wp fileCalls budget (fun _ t => Safe project owner s₀ t) (rollback project owner s₀)
      (fun r _ t => Safe project owner s₀ t ∧ (r = .ok () → Restored project s₀ t) ∧ (budget = 0 → r = .ok ()))
      log s := by
  have hfailed : ∀ (e : String) (log : List (Event FileOp)) (t : Files), 0 < budget → Safe project owner s₀ t →
      Safe project owner s₀ t ∧ ((.error e : Except String Unit) = .ok () → Restored project s₀ t) ∧
        (budget = 0 → (.error e : Except String Unit) = .ok ()) := by
    intro e log t hbudget ht
    refine ⟨ht, fun hok => ?_, fun hzero => ?_⟩
    · cases hok
    · omega
  rw [rollback, rollbackCoordinatedActivation, stripSuffix_line]
  show wp _ _ _ (rollbackMarker project (String.ofList owner.toList) _ >>= _ : ExceptT _ _ _).run _ log s
  rw [String.ofList_toList, wp_tryBind]
  refine wp_rollbackMarker h rfl (fun log t ht hmarker => ?_) hfailed
  refine wp_rollbackNodeModules ht rfl (fun log u hu htree hsame => ?_) hfailed
  refine ⟨hu, fun _ => ⟨?_, htree⟩, fun _ => rfl⟩
  rw [hsame _ (by simp [marker_ne_nodeModules, marker_ne_nodeModulesBackup]), hmarker]

theorem Safe.rollbackRun (h : Safe project owner s₀ s) (hrun : RollbackRun project owner s₀ s t) :
    Safe project owner s₀ t := by
  obtain ⟨plan, rfl⟩ := hrun
  have hwp : wp fileCalls (planned plan) (fun _ t => Safe project owner s₀ t) (rollback project owner s₀) _ [] s :=
    wp_rollback h
  have hsat := execute_of_wp plan hwp (by rw [failures_nil]; omega)
  generalize (rollback project owner s₀).execute fileCalls plan [] s = outcome at hsat ⊢
  cases outcome with
  | returned r log t => exact hsat.1
  | stopped log t => exact hsat

theorem Safe.rollbackRuns (h : Safe project owner s₀ s)
    (hruns : Relation.ReflTransGen (RollbackRun project owner s₀) s t) : Safe project owner s₀ t := by
  induction hruns with
  | refl => exact h
  | tail _ hrun ih => exact ih.rollbackRun hrun

end Runs

/-- **Rollback of an activation**, wherever the activation was cut off or failed
and wherever any number of rollbacks were: the next rollback that is left alone
ends with the marker and the tree from before, and so does every other one that
ends without an error.  The condition is on what was there: the owner is new, and
the tree is one that can be moved aside and back, unless nothing is moved at all. -/
theorem rollback_of_activation (project : AbsPath) (owner : String) (ordinal pid nonce : Nat)
    (preservePrevious injected : Bool) (preflight : Except String Unit) (s₀ : Files)
    (hmarker : s₀ (markerBackup project owner) = none) (htree : s₀ (nodeModulesBackup project owner) = none)
    (hcondition : Refused project owner ordinal s₀ ∨
      Restorable project owner ordinal preservePrevious injected preflight s₀)
    (plan : List (Fate Cut)) (s : Files)
    (hruns : Relation.ReflTransGen (RollbackRun project owner s₀)
      ((activateNodeModules project owner ordinal pid nonce preservePrevious injected preflight).run.execute fileCalls
        plan [] s₀).final s) :
    (∃ log t, (rollback project owner s₀).execute fileCalls [] [] s = .returned (.ok ()) log t ∧
      Restored project s₀ t) ∧
    ∀ plan log t, (rollback project owner s₀).execute fileCalls plan [] s = .returned (.ok ()) log t →
      Restored project s₀ t := by
  have hactivated : Safe project owner s₀
      ((activateNodeModules project owner ordinal pid nonce preservePrevious injected preflight).run.execute fileCalls
        plan [] s₀).final := by
    have hwp : wp fileCalls (planned plan) (fun _ t => Safe project owner s₀ t)
        (activateNodeModules project owner ordinal pid nonce preservePrevious injected preflight).run _ [] s₀ :=
      wp_activateNodeModules hmarker htree hcondition
    have hsat := execute_of_wp plan hwp (by rw [failures_nil]; omega)
    generalize (activateNodeModules project owner ordinal pid nonce preservePrevious injected preflight).run.execute
      fileCalls plan [] s₀ = outcome at hsat ⊢
    cases outcome with
    | returned r log t => exact hsat
    | stopped log t => exact hsat
  have hsafe : Safe project owner s₀ s := hactivated.rollbackRuns hruns
  refine ⟨?_, fun plan log t hrun => ?_⟩
  · -- no call fails and the process is not stopped
    have hleft : ∀ c : Cut, Fate.stopped c ∉ ([] : List (Fate Cut)) := fun c => List.not_mem_nil
    obtain ⟨r, log, t, hrun⟩ := execute_returned fileCalls (rollback project owner s₀) hleft [] s
    have hwp : wp fileCalls 0 (fun _ t => Safe project owner s₀ t) (rollback project owner s₀) _ [] s :=
      wp_rollback hsafe
    have hsat := execute_of_wp [] hwp (Nat.le_refl _)
    rw [hrun] at hsat ⊢
    obtain ⟨_, hrestored, hok⟩ := hsat
    obtain rfl := hok rfl
    exact ⟨log, t, rfl, hrestored rfl⟩
  · have hwp : wp fileCalls (planned plan) (fun _ t => Safe project owner s₀ t) (rollback project owner s₀) _ [] s :=
      wp_rollback hsafe
    have hsat := execute_of_wp plan hwp (by rw [failures_nil]; omega)
    rw [hrun] at hsat
    exact hsat.2.1 rfl

section Example

/-- A managed tree with one file, and a staged tree. -/
def managed : Files := fun p =>
  if p = ["project"] then some (.directory [])
  else if p = markerPath ["project"] then some (.file managedMarker)
  else if p = nodeModulesPath ["project"] then some (.directory [("a", .file [])])
  else if p = stagedPath ["project"] "7-1" 0 then some (.directory [])
  else none

/-- The process stops when it looks at the staged tree again. -/
def stopped : List (Fate Cut) := List.replicate 11 .done ++ [.stopped ⟨none, []⟩]

theorem rollback_of_activation_managed :
    ∃ log t, (rollback ["project"] "7-1" managed).execute fileCalls [] []
      ((activateNodeModules ["project"] "7-1" 0 7 1 true false (.ok ())).run.execute fileCalls stopped [] managed).final =
        .returned (.ok ()) log t ∧ Restored ["project"] managed t := by
  refine (rollback_of_activation ["project"] "7-1" 0 7 1 true false (.ok ()) managed ?_ ?_ (.inr ⟨?_, ?_, ?_⟩) stopped _
    .refl).1
  · rfl
  · rfl
  · intro node hnode _
    obtain rfl : Node.directory [("a", .file [])] = node := Option.some_inj.mp hnode
    exact ⟨_, rfl⟩
  · intro _ hnode
    cases hnode
  · exact fun _ => .inl rfl

/-- The same where `node_modules` is a link to a directory. -/
def linked : Files := fun p => if p = nodeModulesPath ["project"] then some (.symlink true) else managed p

def endsWell : Outcome FileOp Files (Except String Unit) → Bool
  | .returned (.ok _) _ _ => true
  | _ => false

/-- The link is moved aside, and never moved back. -/
theorem rollback_of_activation_linked :
    ¬∀ plan s, Relation.ReflTransGen (RollbackRun ["project"] "7-1" linked)
      ((activateNodeModules ["project"] "7-1" 0 7 1 true false (.ok ())).run.execute fileCalls plan [] linked).final s →
        ∃ log t, (rollback ["project"] "7-1" linked).execute fileCalls [] [] s = .returned (.ok ()) log t ∧
          Restored ["project"] linked t := by
  intro h
  obtain ⟨log, t, hrun, _⟩ := h stopped _ .refl
  have hends : endsWell ((rollback ["project"] "7-1" linked).execute fileCalls [] []
      ((activateNodeModules ["project"] "7-1" 0 7 1 true false (.ok ())).run.execute fileCalls stopped []
        linked).final) = false := by
    decide +kernel
  rw [hrun] at hends
  cases hends

end Example

end Activation

end Tapid
