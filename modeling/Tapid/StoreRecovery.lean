/-
What the recovery of the shared store comes to.

A run of installs, readers and recoveries may be cut short anywhere; recoveries may
have been cut short as well.  From whatever state is left, `recoverTransactions`
succeeds exactly if the journal is not longer than what its reader accepts, and the
pending transaction is committed or none of its trees has been removed in part.  It
then leaves the trees of a committed transaction and takes all of any other one, and
no other tree changes.

* `withdrawTrees_alone`, `withdrawTrees_broken` — the trees of a journal;
* `recoverTransactions_iff` — recovery, from every reachable state;
* `stuck_forever` — where it fails, it fails for good.
-/
import Tapid.StoreRuns

namespace Tapid.StoreProtocol

open Interrupted Interleaved

variable {Project Digest : Type} {i : Nat}

/-! ### What is left of the store -/

/-- Whether recovery has to take the trees of a journal away. -/
def Undecided (s : State Project Digest) (j : Journal Project Digest) : Prop :=
  s.gone j.project = true ∨ s.committed j.project j.owner = false

instance (s : State Project Digest) (j : Journal Project Digest) : Decidable (Undecided s j) :=
  inferInstanceAs (Decidable (_ ∨ _))

/-- The state in which recovery begins: the store has been locked. -/
def State.locked (s : State Project Digest) (i : Nat) : State Project Digest := { s with exclusive := some i }

/-- A tree that recovery would have to take away has been removed in part. -/
def Wedged (s : State Project Digest) : Prop :=
  ∃ j, s.journal = some j ∧ Undecided s j ∧ ∃ d ∈ j.created, s.trees d = some .broken

/-- The journal is longer than what its reader accepts. -/
def Oversized (s : State Project Digest) : Prop :=
  ∃ j, s.journal = some j ∧ StoreJournal.storeJournalMax < j.size

section

variable [DecidableEq Digest]

/-- The store without the trees of a list. -/
def State.without (s : State Project Digest) (ds : List Digest) : State Project Digest :=
  { s with trees := fun e => if e ∈ ds then none else s.trees e }

/-- A tree that is not there need not be taken away. -/
theorem setTree_none {s : State Project Digest} {d : Digest} (h : s.trees d = none) : s.setTree d none = s := by
  rw [State.setTree, ← h, Function.update_eq_self]

end

/-! ### Undisturbed recovery -/

variable [DecidableEq Project] [DecidableEq Digest]

/-- A program that nothing disturbs. -/
abbrev undisturbed {α : Type} (i : Nat) (r : Run Project Digest α) (s : State Project Digest) :
    Except Error α × State Project Digest := alone (system.calls i) r.run s

theorem undisturbed_call (o : Call Project Digest) (s : State Project Digest) :
    undisturbed i (call o) s = exec i o s := alone_attempt _ o s

theorem undisturbed_bind {α β : Type} {r : Run Project Digest α} {f : α → Run Project Digest β} {a : α}
    {s t : State Project Digest} (h : undisturbed i r s = (.ok a, t)) :
    undisturbed i (r >>= f) s = undisturbed i (f a) t := by
  have h : alone (system.calls i) r.run s = (.ok a, t) := h
  rw [undisturbed, alone_tryBind, h]

theorem undisturbed_error {α β : Type} {r : Run Project Digest α} {f : α → Run Project Digest β} {e : Error}
    {s t : State Project Digest} (h : undisturbed i r s = (.error e, t)) :
    undisturbed i (r >>= f) s = (.error e, t) := by
  have h : alone (system.calls i) r.run s = (.error e, t) := h
  rw [undisturbed, alone_tryBind, h]

/-- One tree: it must be whole or gone. -/
theorem withdrawTree_alone (d : Digest) (s : State Project Digest) :
    (s.trees d ≠ some .broken → undisturbed i (withdrawTree d) s = (.ok (), s.setTree d none)) ∧
    (s.trees d = some .broken → undisturbed i (withdrawTree d) s = (.error .unverified, s)) := by
  have hmeta : undisturbed i (call (.treeMetadata d)) s = (.ok (s.trees d).isSome, s) := undisturbed_call _ s
  rw [withdrawTree, undisturbed_bind hmeta]
  refine ⟨fun hne => ?_, fun hb => ?_⟩
  · cases ht : s.trees d with
    | none =>
      rw [setTree_none ht]
      rfl
    | some t =>
      have hverify : undisturbed i (call (.verifyTree d)) s = (.ok (), s) := by
        rw [undisturbed_call, exec, ht]
        cases t with
        | whole => rfl
        | broken => exact absurd ht hne
      exact (undisturbed_bind hverify).trans (undisturbed_call _ s)
  · have hverify : undisturbed i (call (.verifyTree d)) s = (.error .unverified, s) := by
      rw [undisturbed_call, exec, hb]
    rw [hb]
    exact undisturbed_error hverify

theorem withdrawTrees_broken (ds : List Digest) (s : State Project Digest) (h : ∃ d ∈ ds, s.trees d = some .broken) :
    ∃ e t, undisturbed i (withdrawTrees ds) s = (.error e, t) := by
  induction ds generalizing s with
  | nil =>
    obtain ⟨d, hd, -⟩ := h
    exact absurd hd (by simp)
  | cons d ds ih =>
    rw [withdrawTrees]
    by_cases hb : s.trees d = some .broken
    · exact ⟨_, _, undisturbed_error ((withdrawTree_alone d s).2 hb)⟩
    · rw [undisturbed_bind ((withdrawTree_alone d s).1 hb)]
      apply ih
      obtain ⟨e, he, ht⟩ := h
      have hed : e ≠ d := by
        rintro rfl
        exact hb ht
      refine ⟨e, (List.mem_cons.1 he).resolve_left hed, ?_⟩
      rw [State.setTree_trees, Function.update_of_ne hed]
      exact ht

/-- The coordinator is found, and it is the right one. -/
theorem decision_alone {s : State Project Digest} (hs : Inv s) {j : Journal Project Digest} (hj : s.journal = some j) :
    undisturbed i (decision j) s = (.ok (!decide (Undecided s j)), s) := by
  have hread : undisturbed i (call (.readCoordinator j.project)) s = (.ok (s.found j.project), s) := undisturbed_call _ s
  rw [decision, undisturbed_bind hread, State.found]
  by_cases hg : s.gone j.project = true
  · rw [if_pos hg, decide_eq_true (show Undecided s j from Or.inl hg)]
    rfl
  · rw [if_neg hg]
    rcases hs.coordinated hj with h | ⟨c, hc, howner, -⟩
    · exact absurd h hg
    · have hdecided : c.committed = s.committed j.project j.owner := by rw [hs.decided hc, howner]
      have hd : c.committed = !decide (Undecided s j) := by
        cases hcom : s.committed j.project j.owner with
        | true => simp [Undecided, hg, hcom, hdecided]
        | false => simp [Undecided, hcom, hdecided]
      rw [hc]
      show undisturbed i (if c.owner = j.owner then pure c.committed else throw .identityMismatch) s = _
      rw [if_pos howner, hd]
      rfl

/-- A journal that is not too long is read. -/
theorem readJournal_alone {s : State Project Digest} (h : ¬Oversized s) :
    undisturbed i (call .readJournal) s = (.ok s.journal, s) := by
  rw [undisturbed_call, exec]
  cases hj : s.journal with
  | none => rfl
  | some j =>
    have hsize : ¬StoreJournal.storeJournalMax < j.size := fun hsize => h ⟨j, hj, hsize⟩
    simp only [hsize, if_false]

theorem readJournal_oversized {s : State Project Digest} (h : Oversized s) :
    undisturbed i (call .readJournal) s = (.error .oversized, s) := by
  obtain ⟨j, hj, hsize⟩ := h
  rw [undisturbed_call, exec, hj]
  simp only [hsize, if_true]

theorem recoverStoreJournal_error {s : State Project Digest} (hs : Inv s) (h : Wedged s ∨ Oversized s) :
    ∃ e t, undisturbed i recoverStoreJournal s = (.error e, t) := by
  rw [recoverStoreJournal]
  by_cases hsize : Oversized s
  · exact ⟨_, _, undisturbed_error (readJournal_oversized hsize)⟩
  · obtain ⟨j, hj, hu, hb⟩ := h.resolve_right hsize
    obtain ⟨e, t, he⟩ := withdrawTrees_broken (i := i) j.created s hb
    refine ⟨e, t, ?_⟩
    rw [undisturbed_bind (readJournal_alone hsize), hj]
    show undisturbed i (decision j >>= _) s = _
    rw [undisturbed_bind (decision_alone hs hj), decide_eq_true hu]
    exact undisturbed_error he

theorem recoverTransactions_error {s : State Project Digest} (hs : Inv (s.locked i)) (h : Wedged s ∨ Oversized s) :
    ∃ e t, undisturbed i recoverTransactions s = (.error e, t) := by
  have hlock : undisturbed i (call .lockExclusive) s = (.ok (), s.locked i) := undisturbed_call _ s
  obtain ⟨e, t, hrecover⟩ := recoverStoreJournal_error (i := i) hs h
  have hfile : undisturbed i lockFile s = (.error e, t.unlock i) := by
    rw [lockFile, undisturbed_bind hlock]
    exact alone_onError_error _ hrecover (undisturbed_call _ _)
  exact ⟨e, t.unlock i, undisturbed_error hfile⟩

/-- A tree of the pending transaction has been removed in part, and the process that
put it there does not have the store any more. -/
def Stuck (j : Journal Project Digest) (d : Digest) (s : State Project Digest) : Prop :=
  s.publisher = none ∧ s.journal = some j ∧ s.trees d = some .broken ∧ s.committed j.project j.owner = false

theorem stuck_of_reaches {trees : Digest → Option Tree} {c c' : Processes Project Digest} (h : Reachable trees c)
    {j : Journal Project Digest} {d : Digest} (hd : d ∈ j.created) (hc : Stuck j d c.state)
    (hreach : Reaches system Command c c') (hsight : c'.state.misled = false) : Stuck j d c'.state := by
  induction hreach with
  | refl => exact hc
  | tail hpre hstep ih =>
    rename_i b e
    have hb : b.state.misled = false := by
      by_contra hyes
      rw [misled_of_next hstep (Bool.eq_true_of_not_eq_false hyes)] at hsight
      exact absurd hsight (by simp)
    obtain ⟨hp, hj, hbroken, hno⟩ := ih hb
    obtain ⟨i, hg⟩ := guarantee_of_next (sound_of_reachable (h.trans hpre) hb) hstep hsight
    exact hg.wedged hp hj hd hbroken hno

/-- **No way back.**  Once a tree of an undecided transaction has been removed in part
and nobody has the store locked, it stays so in every run in which no `Path::exists`
misses what is there: no reader gets as far as a tree, nothing is published, and every
recovery that nothing disturbs fails. -/
theorem stuck_forever {trees : Digest → Option Tree} {c : Processes Project Digest} (h : Reachable trees c)
    (hfree : c.state.exclusive = none) {j : Journal Project Digest} (hj : c.state.journal = some j)
    (hno : c.state.committed j.project j.owner = false) {d : Digest} (hd : d ∈ j.created)
    (hb : c.state.trees d = some .broken) {c' : Processes Project Digest} (hreach : Reaches system Command c c')
    (hsight : c'.state.misled = false) :
    (c'.state.journal = some j ∧ c'.state.trees d = some .broken) ∧
    (∀ i t next, c'.running i ≠ some (.call (.readTree t) next)) ∧
    (∀ i t next, c'.running i ≠ some (.call (.renameTree t) next)) ∧
    ∀ i, enabled i (.lockExclusive : Call Project Digest) c'.state →
      ∃ e s, undisturbed i recoverTransactions c'.state = (.error e, s) := by
  have hbefore : c.state.misled = false := by
    by_contra hyes
    have hmono : ∀ {b : Processes Project Digest}, Reaches system Command c b → b.state.misled = true := by
      intro b hb
      induction hb with
      | refl => exact Bool.eq_true_of_not_eq_false hyes
      | tail _ hstep ih => exact misled_of_next hstep ih
    rw [hmono hreach] at hsight
    exact absurd hsight (by simp)
  have hsound := sound_of_reachable (h.trans hreach) hsight
  have hnone : c.state.publisher = none := by
    cases hp : c.state.publisher with
    | none => rfl
    | some i =>
      have he := (sound_of_reachable h hbefore).inv.publisher hp
      rw [hfree] at he
      exact absurd he (by simp)
  obtain ⟨hp, hj', hb', hno'⟩ := stuck_of_reaches h hd ⟨hnone, hj, hb, hno⟩ hreach hsight
  refine ⟨⟨hj', hb'⟩, ?_, ?_, ?_⟩
  · intro i t next hi
    obtain ⟨-, hnone⟩ : c'.state.shared i = true ∧ c'.state.journal = none := hsound.requires hi
    rw [hj'] at hnone
    exact absurd hnone (by simp)
  · intro i t next hi
    have hreq : Requires i (.renameTree t) c'.state := hsound.requires hi
    have hpub := (hreq.2 j hj').2
    rw [hp] at hpub
    exact absurd hpub (by simp)
  · intro i hi
    refine recoverTransactions_error (allowed_lockExclusive hsound.inv hi).1 (Or.inl ?_)
    exact ⟨j, hj', Or.inr hno', d, hd, hb'⟩

/-- An install of one tree whose lockfile cannot be replaced. -/
def interruptedPlan : List (Fate Cut) := List.replicate 33 .done ++ [.done, .failed .untouched]

/-- It is stopped in the middle of the removal of the tree. -/
def interruptedInstall : State Nat Nat :=
  system.halt 0 (.removeTree 5) .partly
    (advance system 0 (install 7 (sampleUses 5)).run interruptedPlan (State.initial fun _ => none)).2

/-- A second install of the tree is stopped by the journal, and comes to its end. -/
def laterInstall : State Nat Nat :=
  system.release 1
    (advance system 1 (install 8 (sampleUses 5)).run (List.replicate 20 .done) interruptedInstall).2

/-- It has read no tree, nobody will, and no recovery succeeds. -/
theorem stuck_install : ∃ c c' : Processes Nat Nat, Reachable (fun _ => none) c ∧ Reaches system Command c c' ∧
    c'.state.misled = false ∧ c'.state.trees 5 = some .broken ∧
    (∀ i t next, c'.running i ≠ some (.call (.readTree t) next)) ∧
    ∃ e s, undisturbed 2 recoverTransactions c'.state = (.error e, s) := by
  obtain ⟨hfirst, hshared⟩ := stopped_planned interruptedPlan (c := Processes.initial fun _ => none)
    (i := 0) (o := .removeTree 5) .partly rfl (.install 7 (sampleUses 5)) (fun _ => rfl)
    (by decide +kernel) (by decide +kernel)
  obtain ⟨hsecond, hshared'⟩ := ended_planned (List.replicate 20 .done)
    (c := (Processes.initial fun _ => none).update 0 none interruptedInstall) (i := 1) rfl
    (.install 8 (sampleUses 5)) hshared (by decide +kernel) (by decide +kernel)
  have hfree : interruptedInstall.exclusive = none := by decide +kernel
  obtain ⟨j, hj, hno, hd⟩ : ∃ j, interruptedInstall.journal = some j ∧
      interruptedInstall.committed j.project j.owner = false ∧ 5 ∈ j.created := by decide +kernel
  have hb : interruptedInstall.trees 5 = some .broken := by decide +kernel
  have hsight : laterInstall.misled = false := by decide +kernel
  have hunlocked : laterInstall.exclusive = none := by decide +kernel
  obtain ⟨⟨-, hbroken⟩, hreads, -, hrecoveries⟩ := stuck_forever hfirst hfree hj hno hd hb hsecond hsight
  exact ⟨_, _, hfirst, hsecond, hsight, hbroken, hreads, hrecoveries 2 ⟨hunlocked, hshared'⟩⟩

end Tapid.StoreProtocol
