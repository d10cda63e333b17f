/-
The locks of the shared store.

A process asks for the lock of the store only while it has not locked it, whatever
its calls come to; so nobody waits for itself, and whoever has locked the store goes
on.  The trees and the journal play no part in it.

* `cut_cases`, `fail_cases` — what a call comes to that is not carried out;
* `SameLocks`, `lockContract` — what a process may do to the locks of the others;
* `unlock_free`, `steady_spec` — calls that unlock the store, and calls that leave it
  as it is;
* `lockFile_free`, `publishInner_free`, ... — every program asks for the lock where it
  is free;
* `not_deadlocked` — what follows for every run.
-/
import Tapid.StoreProtocol

namespace Tapid.StoreProtocol

open Interrupted Interleaved
open Interleaved.Contract (Ends Spec)

variable {Project Digest : Type}

/-! ### The locks of one process -/

/-- The process has not locked the store. -/
def Free (i : Nat) (s : State Project Digest) : Prop := s.exclusive ≠ some i ∧ s.shared i = false

/-- The locks of process `i` are as they were. -/
structure SameLocks (i : Nat) (s t : State Project Digest) : Prop where
  exclusive : t.exclusive = some i ↔ s.exclusive = some i
  shared : t.shared i = s.shared i

theorem SameLocks.refl (i : Nat) (s : State Project Digest) : SameLocks i s s := ⟨Iff.rfl, rfl⟩

theorem SameLocks.trans {i : Nat} {s t u : State Project Digest} (h : SameLocks i s t) (h' : SameLocks i t u) :
    SameLocks i s u := ⟨h'.exclusive.trans h.exclusive, h'.shared.trans h.shared⟩

theorem SameLocks.free {i : Nat} {s t : State Project Digest} (h : SameLocks i s t) (hs : Free i s) : Free i t :=
  ⟨by rw [ne_eq, h.exclusive]; exact hs.1, h.shared.trans hs.2⟩

theorem unlock_exclusive_of_ne {s : State Project Digest} {i j : Nat} (hj : j ≠ i) :
    (s.unlock i).exclusive = some j ↔ s.exclusive = some j := by
  rw [State.unlock_exclusive]
  by_cases he : s.exclusive = some i
  · rw [if_pos he, he]
    constructor
    · intro h
      exact absurd h (by simp)
    · intro h
      exact absurd (Option.some.inj h).symm hj
  · rw [if_neg he]

theorem free_unlock (i : Nat) (s : State Project Digest) : Free i (s.unlock i) := by
  refine ⟨?_, Function.update_self _ _ _⟩
  rw [State.unlock_exclusive]
  by_cases he : s.exclusive = some i
  · rw [if_pos he]
    simp
  · rwa [if_neg he]

/-- The calls that lock or unlock the store. -/
def Call.isLock : Call Project Digest → Bool
  | .lockShared | .lockExclusive | .unlock => true
  | _ => false

/-- A call that has nothing to do with the lock of the store. -/
def NoLock (o : Call Project Digest) : Prop := o.isLock = false

variable [DecidableEq Project] [DecidableEq Digest] {i : Nat}

/-! ### What a call comes to -/

/-- Calls that only look. -/
def Call.isQuery : Call Project Digest → Bool
  | .readOwner _ | .look _ | .readJournal | .treeMetadata _ | .verifyTree _ | .readCoordinator _ | .work => true
  | _ => false

theorem exec_of_isQuery {o : Call Project Digest} (ho : o.isQuery = true) (s : State Project Digest) :
    (exec i o s).2 = s := by
  cases o with
  | readJournal =>
    rw [exec]
    split
    · rfl
    · split <;> rfl
  | readOwner p | verifyTree d =>
    rw [exec]
    split <;> rfl
  | look t | treeMetadata d | readCoordinator p | work => rfl
  | _ => exact absurd ho (by simp [Call.isQuery])

/-- A call that is not carried out has done nothing, all of it, or a part of two. -/
theorem cut_cases (o : Call Project Digest) (c : Cut) (s : State Project Digest) :
    cut i o c s = s ∨ (o.durable = true ∧ cut i o c s = (exec i o s).2) ∨
    (∃ p line, o = .initOwner p ∧ cut i o c s = s.setOwner p line) ∨
    ∃ d, o = .removeTree d ∧ (s.trees d).isSome ∧ cut i o c s = s.setTree d (some .broken) := by
  cases c with
  | untouched => exact Or.inl rfl
  | carried =>
    rw [cut]
    split
    next hd => exact Or.inr (Or.inl ⟨hd, rfl⟩)
    · exact Or.inl rfl
  | emptied =>
    cases o with
    | initOwner p => exact Or.inr (Or.inr (Or.inl ⟨p, .empty, rfl, rfl⟩))
    | _ => exact Or.inl rfl
  | partly =>
    cases o with
    | initOwner p => exact Or.inr (Or.inr (Or.inl ⟨p, .malformed, rfl, rfl⟩))
    | removeTree d =>
      rw [cut]
      split
      next hd => exact Or.inr (Or.inr (Or.inr ⟨d, rfl, hd, rfl⟩))
      · exact Or.inl rfl
    | _ => exact Or.inl rfl

/-- A look that fails answers that nothing is there. -/
def Blind (o : Call Project Digest) (s : State Project Digest) : Prop := ∃ t, o = .look t ∧ s.has t = true

/-- What is noted of a call that fails: a look that has missed something, or a commit
decision that is on the disk nevertheless. -/
theorem fail_cases (o : Call Project Digest) (c : Cut) (s : State Project Digest) :
    (fail i o c s = cut i o c s ∧ ¬Blind o s) ∨ (fail i o c s = { s with misled := true } ∧ Blind o s) ∨
    ∃ p r, o = .writeCoordinator p r ∧ r.committed = true ∧ fail i o c s = (cut i o c s).tear p r.owner := by
  cases o with
  | look t =>
    have hfail : fail i (.look t) c s = if s.has t then { s with misled := true } else s := by cases c <;> rfl
    have hcut : cut i (.look t) c s = s := by cases c <;> rfl
    rw [hfail, hcut]
    by_cases ht : s.has t = true
    · rw [if_pos ht]
      exact Or.inr (Or.inl ⟨rfl, t, rfl, ht⟩)
    · rw [if_neg ht]
      refine Or.inl ⟨rfl, ?_⟩
      rintro ⟨_, ⟨⟩, ht'⟩
      exact ht ht'
  | writeCoordinator p r =>
    cases c with
    | carried =>
      rw [fail]
      by_cases hr : r.committed = true
      · rw [if_pos hr]
        exact Or.inr (Or.inr ⟨p, r, rfl, hr, rfl⟩)
      · rw [if_neg hr]
        exact Or.inl ⟨rfl, by rintro ⟨_, ⟨⟩, -⟩⟩
    | _ => exact Or.inl ⟨rfl, by rintro ⟨_, ⟨⟩, -⟩⟩
  | _ => exact Or.inl ⟨by cases c <;> rfl, by rintro ⟨_, ⟨⟩, -⟩⟩

theorem fail_eq_cut {o : Call Project Digest} {s : State Project Digest} (hb : ¬Blind o s)
    (ho : ∀ p r, o ≠ .writeCoordinator p r) (c : Cut) : fail i o c s = cut i o c s := by
  rcases fail_cases (i := i) o c s with ⟨h, -⟩ | ⟨-, h⟩ | ⟨p, r, h, -⟩
  · exact h
  · exact absurd h hb
  · exact absurd h (ho p r)

/-! ### What the calls do to the locks -/

/-- Only three calls have anything to do with the locks of the store. -/
theorem exec_locks {o : Call Project Digest} (ho : o.isLock = false) (s : State Project Digest) :
    (exec i o s).2.exclusive = s.exclusive ∧ (exec i o s).2.shared = s.shared := by
  cases o with
  | lockShared | lockExclusive | unlock => exact absurd ho (by simp [Call.isLock])
  | readOwner p | readJournal | verifyTree d =>
    rw [exec_of_isQuery rfl]
    exact ⟨rfl, rfl⟩
  | lockProject p =>
    rw [exec]
    split
    · exact ⟨rfl, rfl⟩
    · split <;> exact ⟨rfl, rfl⟩
  | renameTree d =>
    rw [exec]
    split <;> exact ⟨rfl, rfl⟩
  | writeCoordinator p c =>
    rw [exec, State.record]
    split <;> exact ⟨rfl, rfl⟩
  | _ => exact ⟨rfl, rfl⟩

omit [DecidableEq Project] [DecidableEq Digest] in
theorem isLock_of_durable {o : Call Project Digest} (ho : o.durable = true) : o.isLock = false := by
  cases o with
  | lockShared | lockExclusive | unlock => exact absurd ho (by simp [Call.durable])
  | _ => rfl

/-- A call that is not carried out changes no lock. -/
theorem cut_locks (o : Call Project Digest) (c : Cut) (s : State Project Digest) :
    (cut i o c s).exclusive = s.exclusive ∧ (cut i o c s).shared = s.shared := by
  rcases cut_cases (i := i) o c s with h | ⟨hd, h⟩ | ⟨p, line, -, h⟩ | ⟨d, -, -, h⟩
  · rw [h]
    exact ⟨rfl, rfl⟩
  · rw [h]
    exact exec_locks (isLock_of_durable hd) s
  · rw [h]
    exact ⟨rfl, rfl⟩
  · rw [h]
    exact ⟨rfl, rfl⟩

theorem fail_locks (o : Call Project Digest) (c : Cut) (s : State Project Digest) :
    (fail i o c s).exclusive = s.exclusive ∧ (fail i o c s).shared = s.shared := by
  rcases fail_cases (i := i) o c s with ⟨h, -⟩ | ⟨h, -⟩ | ⟨p, r, -, -, h⟩
  · rw [h]
    exact cut_locks o c s
  · rw [h]
    exact ⟨rfl, rfl⟩
  · rw [h]
    exact cut_locks o c s

omit [DecidableEq Project] [DecidableEq Digest] in
theorem sameLocks_of_eq {j : Nat} {s t : State Project Digest}
    (h : t.exclusive = s.exclusive ∧ t.shared = s.shared) : SameLocks j s t := by
  obtain ⟨he, hshared⟩ := h
  exact ⟨by rw [he], by rw [hshared]⟩

omit [DecidableEq Project] [DecidableEq Digest] in
theorem sameLocks_unlock {j : Nat} (hj : j ≠ i) (s : State Project Digest) : SameLocks j s (s.unlock i) :=
  ⟨unlock_exclusive_of_ne hj, Function.update_of_ne hj _ _⟩

omit [DecidableEq Project] [DecidableEq Digest] in
theorem sameLocks_release {j : Nat} (hj : j ≠ i) (s : State Project Digest) : SameLocks j s (s.release i) :=
  ⟨unlock_exclusive_of_ne hj, Function.update_of_ne hj _ _⟩

/-- A call of one process leaves the locks of the others alone. -/
theorem sameLocks_exec {o : Call Project Digest} {s : State Project Digest} (ho : enabled i o s) {j : Nat}
    (hj : j ≠ i) : SameLocks j s (exec i o s).2 := by
  cases o with
  | lockShared => exact ⟨Iff.rfl, Function.update_of_ne hj _ _⟩
  | lockExclusive =>
    refine ⟨?_, rfl⟩
    have hnone : s.exclusive = none := ho.1
    show some i = some j ↔ s.exclusive = some j
    rw [hnone]
    constructor
    · intro h
      exact absurd (Option.some.inj h).symm hj
    · intro h
      exact absurd h (by simp)
  | unlock => exact sameLocks_unlock hj s
  | _ => exact sameLocks_of_eq (exec_locks rfl s)

/-! ### The contract -/

/-- The lock of the store is asked for by a process that has not locked it. -/
def lockContract : Contract (@system Project Digest _ _) where
  inv _ := True
  guarantee i s t := ∀ j, j ≠ i → SameLocks j s t
  rely := SameLocks
  requires i o s := o = .lockShared ∨ o = .lockExclusive → Free i s
  idle := Free
  rely_refl := SameLocks.refl
  rely_trans := SameLocks.trans
  rely_of_guarantee hij _ _ h := h _ hij
  exec_ok _ _ ho := ⟨trivial, fun _ hj => sameLocks_exec ho hj⟩
  cut_ok c _ _ _ := ⟨trivial, fun _ _ => sameLocks_of_eq (fail_locks _ c _)⟩
  halt_ok c _ _ :=
    ⟨trivial, fun _ hj => (sameLocks_of_eq (cut_locks _ c _)).trans (sameLocks_release hj _), free_unlock _ _⟩
  release_ok _ := ⟨trivial, fun _ hj => sameLocks_release hj _, free_unlock _ _⟩
  guarantee_refl _ s _ _ := SameLocks.refl _ s
  idle_rely hs h := h.free hs

/-- What only the locks of the process decide. -/
def Steady (i : Nat) (P : State Project Digest → Prop) : Prop := ∀ ⦃s t⦄, SameLocks i s t → P s → P t

omit [DecidableEq Project] [DecidableEq Digest] in
theorem steady_true : Steady i (fun _ : State Project Digest => True) := fun _ _ _ _ => trivial

omit [DecidableEq Project] [DecidableEq Digest] in
theorem steady_free : Steady i (@Free Project Digest i) := fun _ _ h hs => h.free hs

/-- A program that neither locks nor unlocks the store. -/
theorem steady_spec {α : Type} {P : State Project Digest → Prop} (hP : Steady i P) {r : Run Project Digest α}
    (hr : Prog.Only NoLock r.run) :
    lockContract.Spec i P r (fun _ => P) P := by
  refine (Contract.triple_of_only (P := P) (fun _ _ _ hst h => hP hst h) ?_ ?_ ?_ hr).conseq (fun _ _ h => h) ?_
  · rintro o s ho _ _ (rfl | rfl)
    · exact absurd ho (by simp [NoLock, Call.isLock])
    · exact absurd ho (by simp [NoLock, Call.isLock])
  · exact fun o s ho _ h => hP (sameLocks_of_eq (exec_locks ho s)) h
  · exact fun o s c _ _ h => hP (sameLocks_of_eq (fail_locks o c s)) h
  · rintro (e | a) s h
    · exact h
    · exact h

omit [DecidableEq Project] [DecidableEq Digest] in
theorem only_call {ok : Call Project Digest → Prop} {o : Call Project Digest} (h : ok o) :
    Prog.Only ok (call o).run := ⟨h, fun _ => trivial⟩

theorem steady_call {P : State Project Digest → Prop} (hP : Steady i P) {o : Call Project Digest}
    (ho : o.isLock = false) : lockContract.Spec i P (call o) (fun _ => P) P := steady_spec hP (only_call ho)

/-- Dropping a lock cannot fail. -/
theorem unlock_free {P E : State Project Digest → Prop} :
    lockContract.Spec i P (call .unlock) (fun _ => Free i) E := by
  refine Spec.pre (P := fun _ => True) ?_ fun _ _ _ => trivial
  refine Spec.attempt (fun _ _ _ _ _ => trivial) (fun _ _ _ h => absurd h (by simp)) ?_ ?_
  · exact fun s _ _ _ => free_unlock i s
  · exact fun _ _ _ h => absurd h (by simp [system, Call.mayFail])

/-- A lock is asked for; where the call fails there is none. -/
theorem lock_free {o : Call Project Digest} (ho : o = .lockShared ∨ o = .lockExclusive) :
    lockContract.Spec i (Free i) (call o) (fun _ _ => True) (Free i) := by
  refine Spec.attempt (fun _ _ _ hst h => hst.free h) (fun _ _ h _ => h) ?_ ?_
  · intro s _ _ _
    obtain rfl | rfl := ho
    · trivial
    · trivial
  · exact fun s _ h _ c => (sameLocks_of_eq (fail_locks o c s)).free h

/-! ### Programs that leave the lock alone -/

section

omit [DecidableEq Project] [DecidableEq Digest]

theorem only_pathExists (t : Target Digest) : Prog.Only (@NoLock Project Digest) (pathExists t).run :=
  only_tryCatch (only_call rfl) fun _ => trivial

theorem only_withdrawTree (d : Digest) : Prog.Only (@NoLock Project Digest) (withdrawTree d).run := by
  refine Prog.only_tryBind (only_call rfl) ?_
  rintro (_ | _)
  · trivial
  · exact Prog.only_tryBind (only_call rfl) fun _ => only_call rfl

theorem only_withdrawTrees (ds : List Digest) : Prog.Only (@NoLock Project Digest) (withdrawTrees ds).run := by
  induction ds with
  | nil => trivial
  | cons d ds ih => exact Prog.only_tryBind (only_withdrawTree d) fun _ => ih

theorem only_decision (j : Journal Project Digest) : Prog.Only NoLock (decision j).run := by
  refine Prog.only_tryBind (only_call rfl) ?_
  rintro (_ | _ | c)
  · trivial
  · trivial
  · show Prog.Only NoLock (if c.owner = j.owner then pure c.committed else throw .identityMismatch : Run _ _ _).run
    split <;> trivial

theorem only_recoverStoreJournal : Prog.Only (@NoLock Project Digest) recoverStoreJournal.run := by
  refine Prog.only_tryBind (only_call rfl) ?_
  rintro (_ | j)
  · trivial
  · refine Prog.only_tryBind (only_decision j) ?_
    rintro (_ | _)
    · exact Prog.only_tryBind (only_withdrawTrees _) fun _ => Prog.only_tryBind (only_call rfl) fun _ => only_call rfl
    · exact only_call rfl

theorem only_newDigests (staged : List Digest) : Prog.Only (@NoLock Project Digest) (newDigests staged).run := by
  induction staged with
  | nil => trivial
  | cons d staged ih =>
    refine Prog.only_tryBind (only_pathExists _) ?_
    rintro (_ | _)
    · exact Prog.only_tryBind ih fun _ => trivial
    · exact Prog.only_tryBind (only_call rfl) fun _ => ih

theorem only_syncStaged (staged : List Digest) : Prog.Only (@NoLock Project Digest) (syncStaged staged).run := by
  induction staged with
  | nil => trivial
  | cons d staged ih =>
    refine Prog.only_tryBind (only_pathExists _) ?_
    rintro (_ | _)
    · exact Prog.only_tryBind (only_call rfl) fun _ => ih
    · exact ih

theorem only_writePendingJournal (x : Option Project) (size : List Digest → Nat) (created : List Digest) :
    Prog.Only NoLock (writePendingJournal x size created).run := by
  cases x with
  | none => trivial
  | some p =>
    refine Prog.only_tryBind (only_call rfl) ?_
    rintro (_ | _ | c)
    · trivial
    · trivial
    · show Prog.Only NoLock (if c.committed then throw .notPrepared else _ : Run _ _ _).run
      split
      · trivial
      · exact only_call rfl

theorem only_removeStoreJournal (x : Option Project) : Prog.Only (@NoLock _ Digest) (removeStoreJournal x).run := by
  cases x with
  | none => trivial
  | some p => exact only_call rfl

theorem only_removeTrees (ds : List Digest) : Prog.Only (@NoLock Project Digest) (removeTrees ds).run := by
  induction ds with
  | nil => trivial
  | cons d ds ih => exact Prog.only_tryBind (only_call rfl) fun _ => ih

theorem only_withdraw (x : Option Project) (published : List Digest) : Prog.Only NoLock (withdraw x published).run :=
  Prog.only_tryBind (only_removeTrees _) fun _ => Prog.only_tryBind (only_call rfl) fun _ => only_removeStoreJournal x

theorem only_placeTree (d : Digest) : Prog.Only (@NoLock Project Digest) (placeTree d).run := by
  refine Prog.only_tryBind (only_pathExists _) ?_
  rintro (_ | _)
  · exact Prog.only_tryBind (only_call rfl) fun _ => trivial
  · exact Prog.only_tryBind (only_call rfl) fun _ => trivial

theorem only_placeTrees (x : Option Project) (staged published : List Digest) :
    Prog.Only NoLock (placeTrees x staged published).run := by
  induction staged generalizing published with
  | nil => trivial
  | cons d staged ih =>
    exact Prog.only_tryBind (only_onError (only_withdraw x published) (only_placeTree d)) fun isNew => ih _

theorem only_publishLocked (x : Option Project) (size : List Digest → Nat) (staged : List Digest) :
    Prog.Only NoLock (publishLocked x size staged).run := by
  refine Prog.only_tryBind (only_newDigests staged) fun created => ?_
  refine Prog.only_tryBind (only_syncStaged staged) fun _ => ?_
  refine Prog.only_tryBind (only_writePendingJournal x size created) fun _ => ?_
  refine Prog.only_tryBind (only_placeTrees x staged []) fun published => ?_
  exact Prog.only_tryBind (only_onError (only_withdraw x published) (only_call rfl)) fun _ => trivial

theorem only_removeEach (ds : List Digest) : Prog.Only (@NoLock Project Digest) (removeEach ds).run := by
  induction ds with
  | nil => trivial
  | cons d ds ih => exact Prog.only_tryBind (only_onError (only_ignored ih) (only_call rfl)) fun _ => ih

/-- What is done under a read guard leaves the guard as it is. -/
theorem only_use (r : Reader Project Digest) : Prog.Only NoLock r.use.run := by
  refine Prog.Only.mono ?_ r.reads
  intro o ho
  cases o with
  | readTree d | work => rfl
  | _ => exact ho.elim

end

/-! ### Every program -/

/-- `lock_file` -/
theorem lockFile_free : lockContract.Spec i (Free i) lockFile (fun _ (_ : State Project Digest) => True) (Free i) :=
  (lock_free (Or.inr rfl)).bind fun _ =>
    Spec.onError (steady_spec steady_true only_recoverStoreJournal) unlock_free

theorem recoverTransactions_free :
    lockContract.Spec i (Free i) recoverTransactions (fun _ => @Free Project Digest i) (Free i) :=
  lockFile_free.bind fun _ => unlock_free

theorem readGuard_free (rounds : Nat) :
    lockContract.Spec i (Free i) (readGuard rounds) (fun _ (_ : State Project Digest) => True) (Free i) := by
  induction rounds with
  | zero => exact Spec.throw fun _ _ h => h
  | succ rounds ih =>
    refine (lock_free (Or.inl rfl)).bind fun _ => Spec.bind (R := fun _ _ => True) ?_ ?_
    · refine Spec.tryCatch (S := fun _ => True) ?_ fun _ => Spec.return fun _ _ h => h
      exact steady_call steady_true rfl
    · rintro (_ | _)
      · exact Spec.return fun _ _ h => h
      · exact unlock_free.bind fun _ => lockFile_free.bind fun _ => unlock_free.bind fun _ => ih

theorem reading_free (r : Reader Project Digest) : lockContract.Spec i (Free i) (reading r) (fun _ => Free i) (Free i) :=
  (readGuard_free r.rounds).bind fun _ =>
    (Spec.onError (steady_spec steady_true (only_use r)) unlock_free).bind fun _ => unlock_free

theorem useStore_free (u : StoreUse Project Digest) :
    lockContract.Spec i (Free i) (useStore u) (fun _ => Free i) (Free i) := by
  cases u with
  | snapshot r => exact reading_free r
  | lookup r => exact Spec.ignored (reading_free r)
  | exclusive =>
    exact lockFile_free.bind fun _ => (Spec.onError (steady_call steady_true rfl) unlock_free).bind fun _ => unlock_free

theorem useStoreAll_free (us : List (StoreUse Project Digest)) :
    lockContract.Spec i (Free i) (useStoreAll us) (fun _ => Free i) (Free i) := by
  induction us with
  | nil => exact Spec.return fun _ _ h => h
  | cons u us ih => exact (useStore_free u).bind fun _ => (steady_call steady_free rfl).bind fun _ => ih

/-- A publication ends with the store locked, or with an error. -/
theorem publishInner_free (x : Option Project) (size : List Digest → Nat) (staged : List Digest) :
    lockContract.Spec i (Free i) (publishInner x size staged) (fun _ _ => True) (Free i) :=
  lockFile_free.bind fun _ => Spec.onError (steady_spec steady_true (only_publishLocked x size staged)) unlock_free

theorem dropPublication_free (published : List Digest) {E : State Project Digest → Prop} :
    lockContract.Spec i (fun _ => True) (dropPublication published) (fun _ => Free i) E := by
  induction published with
  | nil => exact unlock_free
  | cons d published ih => exact (Spec.ignored (steady_call steady_true rfl)).bind fun _ => ih

theorem rollback_free (x : Option Project) (published : List Digest) :
    lockContract.Spec i (fun _ => True) (rollback x published) (fun _ => Free i) (Free i) := by
  refine Spec.bind (R := fun _ _ => True) (Spec.onError ?_ (dropPublication_free published)) fun _ => unlock_free
  refine steady_spec steady_true (Prog.only_tryBind (only_removeEach published) fun _ => ?_)
  exact Prog.only_tryBind (only_call rfl) fun _ => only_removeStoreJournal x

theorem commit_free (x : Option Project) :
    lockContract.Spec i (fun _ => True) (commit x) (fun _ => @Free _ Digest i) (Free i) :=
  (Spec.onError (steady_spec steady_true (only_removeStoreJournal x)) unlock_free).bind fun _ => unlock_free

theorem recover_free (p : Project) (stale : Option Nat) :
    lockContract.Spec i (Free i) (recover p stale) (fun _ => @Free _ Digest i) (Free i) := by
  refine Spec.bind (steady_call steady_free rfl) ?_
  rintro (_ | _ | c)
  · exact Spec.throw fun _ _ h => h
  · exact Spec.return fun _ _ h => h
  · show lockContract.Spec i _ (if stale.any (fun o => decide (o ≠ c.owner)) then _ else _) _ _
    split
    · exact Spec.throw fun _ _ h => h
    · refine Spec.bind (R := fun _ => Free i) ?_ fun _ =>
        (steady_call steady_free rfl).bind fun _ => Spec.return fun _ _ h => h
      rw [recoverRecorded]
      split
      · exact recoverTransactions_free
      · exact Spec.return fun _ _ h => h

theorem acquire_free (p : Project) : lockContract.Spec i (Free i) (acquire p) (fun _ => @Free _ Digest i) (Free i) := by
  refine (steady_call steady_free rfl).bind fun _ => (steady_call steady_free rfl).bind fun previous =>
    (recover_free p previous).bind ?_
  rintro (_ | c)
  · exact (steady_call steady_free rfl).bind fun _ => steady_call steady_free rfl
  · exact (steady_call steady_free rfl).bind fun _ => (steady_call steady_free rfl).bind fun _ =>
      steady_call steady_free rfl

theorem settle_free (p : Project) (owner : Nat) :
    lockContract.Spec i (Free i) (settle p owner) (fun _ => @Free _ Digest i) (Free i) := by
  refine (recover_free p _).bind ?_
  rintro (_ | c)
  · exact Spec.throw fun _ _ h => h
  · exact (steady_call steady_free rfl).bind fun _ => steady_call steady_free rfl

theorem begin_free (p : Project) (owner : Nat) :
    lockContract.Spec i (Free i) (begin p owner) (fun _ => @Free _ Digest i) (Free i) := by
  refine Spec.bind (steady_call steady_free rfl) ?_
  rintro (_ | _ | c)
  · exact steady_call steady_free rfl
  · exact steady_call steady_free rfl
  · exact Spec.throw fun _ _ h => h

theorem performInstall_free (p : Project) (owner : Nat) (uses : StoreUses Project Digest) :
    lockContract.Spec i (Free i) (performInstall p owner uses) (fun _ => Free i) (Free i) := by
  refine (steady_call steady_free rfl).bind fun _ => (steady_call steady_free rfl).bind fun _ =>
    (useStoreAll_free uses.applied).bind fun _ => (steady_call steady_free rfl).bind fun _ =>
    (publishInner_free (some p) uses.size uses.staged).bind fun published => ?_
  have hdrop : lockContract.Spec i (fun _ : State Project Digest => True) (dropPublication published)
      (fun _ => Free i) (Free i) := dropPublication_free published
  refine (Spec.onError (steady_call steady_true rfl) hdrop).bind fun _ =>
    (Spec.onError (steady_call steady_true rfl) (Spec.ignored (rollback_free (some p) published))).bind fun _ =>
    (Spec.onError (steady_call steady_true rfl) hdrop).bind fun _ => (commit_free (some p)).bind fun _ => ?_
  exact (steady_call steady_free rfl).bind fun _ => steady_call steady_free rfl

theorem install_free (p : Project) (uses : StoreUses Project Digest) :
    lockContract.Spec i (Free i) (install p uses) (fun _ => Free i) (Free i) :=
  (acquire_free p).bind fun owner => recoverTransactions_free.bind fun _ => (useStoreAll_free uses.fetched).bind fun _ =>
    (steady_call steady_free rfl).bind fun _ => (begin_free p owner).bind fun _ =>
    Spec.onError (performInstall_free p owner uses) (Spec.ignored (settle_free p owner))

/-- Every program a process may run asks for the lock where it has not got it. -/
theorem free_of_command {r : Plain Project Digest (Except Error Unit)} (h : Command r) (i : Nat) :
    lockContract.Triple i (Free i) r fun _ _ => True := by
  have hdrop : ∀ {q : Run Project Digest Unit}, lockContract.Spec i (Free i) q (fun _ => Free i) (Free i) →
      lockContract.Triple i (Free i) q.run fun _ _ => True :=
    fun h => Contract.Triple.conseq h (fun _ _ h => h) fun _ _ _ => trivial
  cases h with
  | install p uses => exact hdrop (install_free p uses)
  | acquire p => exact hdrop ((acquire_free p).bind fun _ => Spec.return fun _ _ h => h)
  | recoverTransactions => exact hdrop recoverTransactions_free
  | activateVerifiedTree d => exact hdrop ((publishInner_free none _ [d]).bind fun _ => commit_free none)
  | useStore u => exact hdrop (useStore_free u)
  | deletion p => exact hdrop ((steady_call steady_free rfl).bind fun _ => steady_call steady_free rfl)

/-! ### Plans -/

/-- Whether a plan can happen while nobody else has locked the store. -/
def quiet (i : Nat) : Plain Project Digest (Except Error Unit) → List (Fate Cut) → State Project Digest → Bool
  | .call o next, .done :: plan, s =>
    (s.exclusive.isNone && !s.shared i || !(o = .lockShared ∨ o = .lockExclusive)) &&
      quiet i (next (exec i o s).1) plan (exec i o s).2
  | .call o next, .failed c :: plan, s => o.mayFail && quiet i (next (.error .io)) plan (fail i o c s)
  | _, _, _ => true

/-- Others lock the store for themselves. -/
theorem shared_exec {s : State Project Digest} {o : Call Project Digest} {j : Nat} (hj : j ≠ i) :
    (exec i o s).2.shared j = s.shared j := by
  cases o with
  | lockShared | unlock => exact Function.update_of_ne hj _ _
  | lockExclusive => rfl
  | _ => exact congrFun (exec_locks rfl s).2 j

theorem allows_of_quiet {p : Plain Project Digest (Except Error Unit)} {plan : List (Fate Cut)}
    {s : State Project Digest} (hs : ∀ j, j ≠ i → s.shared j = false) (h : quiet i p plan s = true) :
    Allows system i p plan s := by
  induction p generalizing plan s with
  | done a => trivial
  | call o next ih =>
    match plan with
    | [] => trivial
    | .stopped _ :: _ => trivial
    | .done :: plan =>
      obtain ⟨hlock, hrest⟩ := Bool.and_eq_true_iff.1 h
      refine ⟨?_, ih _ (fun j hj => (shared_exec hj).trans (hs j hj)) hrest⟩
      have hfree : o = .lockShared ∨ o = .lockExclusive → s.exclusive = none ∧ s.shared i = false := by
        intro ho
        simpa [ho] using hlock
      cases o with
      | lockShared => exact (hfree (Or.inl rfl)).1
      | lockExclusive =>
        refine ⟨(hfree (Or.inr rfl)).1, fun j => ?_⟩
        by_cases hj : j = i
        · rw [hj]
          exact (hfree (Or.inr rfl)).2
        · exact hs j hj
      | _ => trivial
    | .failed c :: plan =>
      obtain ⟨hmay, hrest⟩ := Bool.and_eq_true_iff.1 h
      exact ⟨hmay, ih _ (fun j hj => (congrFun (fail_locks o c s).2 j).trans (hs j hj)) hrest⟩

theorem shared_advance {p : Plain Project Digest (Except Error Unit)} {plan : List (Fate Cut)}
    {s : State Project Digest} {j : Nat} (hj : j ≠ i) : (advance system i p plan s).2.shared j = s.shared j := by
  induction p generalizing plan s with
  | done a => rfl
  | call o next ih =>
    match plan with
    | [] => rfl
    | .stopped _ :: _ => rfl
    | .done :: plan => exact (ih _).trans (shared_exec hj)
    | .failed c :: plan => exact (ih _).trans (congrFun (fail_locks o c s).2 j)

omit [DecidableEq Project] [DecidableEq Digest] in
theorem unlock_shared_none {s : State Project Digest} (hs : ∀ j, j ≠ i → s.shared j = false) (j : Nat) :
    (s.unlock i).shared j = false := by
  by_cases hj : j = i
  · rw [hj]
    exact Function.update_self _ _ _
  · exact (Function.update_of_ne hj _ _).trans (hs j hj)

variable {c : Processes Project Digest} {p : Plain Project Digest (Except Error Unit)} (plan : List (Fate Cut))

/-- A process begins where nobody reads, and its calls go as planned. -/
theorem reaches_planned (hi : c.running i = none) (hp : Command p) (hs : ∀ j, c.state.shared j = false)
    (h : quiet i p plan c.state = true) :
    Reaches system Command c
      (c.update i (some (advance system i p plan c.state).1) (advance system i p plan c.state).2) := by
  have hstart : Next c (c.update i (some p) c.state) := .start i p hi hp
  exact Relation.ReflTransGen.head hstart (reaches_advance system Command (allows_of_quiet (fun j _ => hs j) h))

/-- ... then it is stopped. -/
theorem stopped_planned {o : Call Project Digest} (x : Cut) (hi : c.running i = none) (hp : Command p)
    (hs : ∀ j, c.state.shared j = false) (h : quiet i p plan c.state = true)
    (ho : nextCall (advance system i p plan c.state).1 = some o) :
    Reaches system Command c (c.update i none (system.halt i o x (advance system i p plan c.state).2)) ∧
      ∀ j, (system.halt i o x (advance system i p plan c.state).2).shared j = false := by
  have hstart : Next c (c.update i (some p) c.state) := .start i p hi hp
  refine ⟨Relation.ReflTransGen.head hstart
    (reaches_stopped system Command x (allows_of_quiet (fun j _ => hs j) h) ho), ?_⟩
  refine unlock_shared_none (s := cut i o x (advance system i p plan c.state).2) fun j hj => ?_
  rw [(cut_locks o x _).2]
  exact (shared_advance hj).trans (hs j)

/-- ... or it ends. -/
theorem ended_planned (hi : c.running i = none) (hp : Command p) (hs : ∀ j, c.state.shared j = false)
    (h : quiet i p plan c.state = true) (ho : nextCall (advance system i p plan c.state).1 = none) :
    Reaches system Command c (c.update i none (system.release i (advance system i p plan c.state).2)) ∧
      ∀ j, (system.release i (advance system i p plan c.state).2).shared j = false := by
  have hstart : Next c (c.update i (some p) c.state) := .start i p hi hp
  refine ⟨Relation.ReflTransGen.head hstart
    (reaches_ended system Command (allows_of_quiet (fun j _ => hs j) h) ho), ?_⟩
  exact unlock_shared_none fun j hj => (shared_advance hj).trans (hs j)

/-! ### Every run -/

theorem lockSound_of_reachable {trees : Digest → Option Tree} {c : Processes Project Digest}
    (h : Reachable trees c) : Contract.Sound lockContract c := by
  have hinitial : Contract.Sound lockContract (@Processes.initial Project _ trees) := by
    refine ⟨trivial, ?_, ?_⟩
    · rintro i r ⟨⟩
    · intro i _
      exact ⟨by simp [Processes.initial, State.initial], rfl⟩
  exact Contract.safe_of_reachable (fun r hr i => free_of_command hr i) hinitial h

/-- A process that has locked the store does not wait for the lock. -/
theorem enabled_of_holder {c : Processes Project Digest} (h : Contract.Sound lockContract c) {k : Nat}
    (hk : c.state.exclusive = some k ∨ c.state.shared k = true) {o : Call Project Digest}
    {next : Except Error (Reply o) → Plain Project Digest (Except Error Unit)} (hrun : c.running k = some (.call o next)) :
    enabled k o c.state := by
  have hnotfree : ¬Free k c.state := by
    rintro ⟨he, hshared⟩
    rcases hk with hk | hk
    · exact he hk
    · rw [hshared] at hk
      exact Bool.false_ne_true hk
  have hreq : o = .lockShared ∨ o = .lockExclusive → Free k c.state := h.requires hrun
  cases o with
  | lockShared => exact absurd (hreq (Or.inl rfl)) hnotfree
  | lockExclusive => exact absurd (hreq (Or.inr rfl)) hnotfree
  | _ => trivial

/-- **No deadlock.**  In every run, as long as a process runs, one of them can go on:
whoever waits for the lock of the store has not locked it, and whoever has locked it
does not wait. -/
theorem not_deadlocked {trees : Digest → Option Tree} {c : Processes Project Digest} (h : Reachable trees c)
    (hrun : ∃ i r, c.running i = some r) :
    (∃ i r, c.running i = some r ∧
      ((∃ a, r = .done a) ∨ ∃ o next, r = .call o next ∧ enabled i o c.state)) ∧
    ∀ i o next, c.running i = some (.call o next) → ¬enabled i o c.state →
      c.state.exclusive ≠ some i ∧ c.state.shared i = false := by
  have hsound := lockSound_of_reachable h
  have hheld : ∀ k, (c.state.exclusive = some k ∨ c.state.shared k = true) → ∃ i r, c.running i = some r ∧
      ((∃ a, r = .done a) ∨ ∃ o next, r = .call o next ∧ enabled i o c.state) := by
    intro k hk
    cases hr : c.running k with
    | none =>
      -- the locks of a process end with it
      obtain ⟨he, hshared⟩ : Free k c.state := hsound.waiting hr
      rcases hk with hk | hk
      · exact absurd hk he
      · rw [hshared] at hk
        exact absurd hk (by simp)
    | some r =>
      refine ⟨k, r, hr, ?_⟩
      cases r with
      | done a => exact Or.inl ⟨a, rfl⟩
      | call o next => exact Or.inr ⟨o, next, rfl, enabled_of_holder hsound hk hr⟩
  refine ⟨?_, ?_⟩
  · obtain ⟨i, r, hr⟩ := hrun
    cases r with
    | done a => exact ⟨i, _, hr, Or.inl ⟨a, rfl⟩⟩
    | call o next =>
      by_cases he : enabled i o c.state
      · exact ⟨i, _, hr, Or.inr ⟨o, next, rfl, he⟩⟩
      · cases hx : c.state.exclusive with
        | some k => exact hheld k (Or.inl hx)
        | none =>
          have hshared : ∃ k, c.state.shared k = true := by
            by_contra hno
            apply he
            cases o with
            | lockShared => exact hx
            | lockExclusive => exact ⟨hx, fun k => Bool.eq_false_iff.2 fun hk => hno ⟨k, hk⟩⟩
            | _ => trivial
          obtain ⟨k, hk⟩ := hshared
          exact hheld k (Or.inr hk)
  · intro i o next hr he
    refine ⟨fun hx => he (enabled_of_holder hsound (Or.inl hx) hr), ?_⟩
    exact Bool.eq_false_iff.2 fun hshared => he (enabled_of_holder hsound (Or.inr hshared) hr)

/-- A recovery waits for another one, which goes on. -/
theorem not_deadlocked_waiting : ∃ c : Processes Nat Nat,
    (∃ next, c.running 1 = some (.call .lockExclusive next)) ∧ c.state.exclusive = some 0 ∧
    c.state.exclusive ≠ some 1 ∧ ∃ i r, c.running i = some r ∧
      ((∃ a, r = .done a) ∨ ∃ o next, r = .call o next ∧ enabled i o c.state) := by
  have hlock := reaches_planned [.done] (c := Processes.initial fun _ : Nat => none) (i := 0) rfl
    (@Command.recoverTransactions Nat Nat) (fun _ => rfl) rfl
  have hreach : Reachable (fun _ => none) _ := hlock.tail (.start 1 recoverTransactions.run rfl .recoverTransactions)
  obtain ⟨hgo, hnotself⟩ := not_deadlocked hreach ⟨1, _, Config.update_same _ _ _ _⟩
  refine ⟨_, ⟨_, Config.update_same _ _ _ _⟩, rfl, (hnotself 1 .lockExclusive _ (Config.update_same _ _ _ _) ?_).1, hgo⟩
  rintro ⟨hnone, -⟩
  change (some 0 : Option Nat) = none at hnone
  exact absurd hnone (by simp)

end Tapid.StoreProtocol
