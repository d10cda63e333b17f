/-
Every run of installs, readers and recoveries over the shared store.

* `performInstall_spec`, `settle_spec`, `acquire_spec` — the lifecycle transaction;
* `safe_of_command` — every program keeps to the contract;
* `sightedRun_of_reachable` — what `State.misled` says about the run;
* `isolated` — readers see committed trees only, a tree only goes with its own
  transaction, and a committed one keeps its trees.
-/
import Tapid.StorePublication

namespace Tapid.StoreProtocol

open Interrupted Interleaved
open Interleaved.Contract (Ends Spec)

variable {Project Digest : Type} {i : Nat}

/-- The process has locked its project, and not the store. -/
def Resting (i : Nat) (p : Project) (s : State Project Digest) : Prop := Holding i p s ∧ Free i s

/-! ### The end of a publication -/

/-- The commit decision is on the disk and the journal still there. -/
def Decided (i : Nat) (s : State Project Digest) : Prop :=
  s.exclusive = some i ∧ ∀ j, s.journal = some j → s.committed j.project j.owner = true

section

variable [DecidableEq Project] [DecidableEq Digest]

theorem stable_decided : contract.Stable i (@Decided Project Digest i) := by
  refine stable_exclusive ?_
  intro s t hst h
  rw [hst.journal, hst.committed]
  exact h

theorem stable_resting (p : Project) : contract.Stable i (@Resting _ Digest i p) :=
  (framed_holding p).stable.and stable_free

theorem stable_apart (p : Project) :
    contract.Stable i fun s : State Project Digest => Resting i p s ∧ Apart p s :=
  fun _ _ ht hst h => ⟨stable_resting p ht hst h.1, hst.apart h.1.1.1 h.2⟩

/-- `StorePublication::rollback` -/
theorem rollback_spec (size : List Digest → Nat) (p : Project) (owner : Nat) {created staged published : List Digest} :
    contract.Spec i
      (fun s => Prepared i (some (p, owner)) s ∧ Publishing i size (some (p, owner)) created staged published s)
      (rollback (some p) published) (fun _ => Resting i p) (Resting i p) := by
  have hF : Framed i (@Prepared _ Digest i (some (p, owner))) := framed_prepared _
  have hhold : ∀ s : State Project Digest, Prepared i (some (p, owner)) s → Holding i p s := fun s h => (h p owner rfl).1
  rw [rollback]
  refine Spec.bind (R := fun _ => Prepared i (some (p, owner))) ?_ fun _ =>
    (unlock_framed hF).conseq (fun _ _ h => h) (fun _ s h => ⟨hhold s h.1, h.2⟩) fun _ h => h
  refine (Spec.onError (S := fun s => Prepared i (some (p, owner)) s ∧ Dropping i published s) ?_
    (dropPublication_spec hF published (List.Subset.refl _))).conseq (fun _ _ h => h) (fun _ _ h => h) ?_
  swap
  · exact fun s h => ⟨hhold s h.1, h.2⟩
  intro s hs h
  have hpub : published ⊆ created := h.2.listed
  refine (?_ : contract.Spec i (fun s => Prepared i (some (p, owner)) s ∧ Withdrawing i published created published s)
    _ (fun _ => Prepared i (some (p, owner))) _) hs ⟨h.1, h.2.withdrawing hs h.1⟩
  refine (removeEach_spec hF published (List.Subset.refl _)).bind fun _ =>
    Spec.bind (R := fun _ s => Prepared i (some (p, owner)) s ∧ Withdrawing i published created [] s) ?_ fun _ =>
    removeStoreJournal_spec hF hpub _
  refine (spec_work (hF.stable.and (stable_withdrawing _ _ _))).conseq (fun _ _ h => h) (fun _ _ h => h) ?_
  exact fun _ h => ⟨h.1, h.2.toDropping⟩

/-- `StorePublication::commit` -/
theorem commit_spec (p : Project) :
    contract.Spec i (fun s : State Project Digest => Holding i p s ∧ Decided i s) (commit (some p))
      (fun _ s => Resting i p s ∧ Apart p s) (Resting i p) := by
  have hF : Framed i (@Holding _ Digest i p) := framed_holding p
  rw [commit]
  refine Spec.bind (R := fun _ s => Holding i p s ∧ s.exclusive = some i ∧ s.journal = none) ?_ fun _ => ?_
  · refine Spec.onError ?_ (unlock_framed hF)
    refine spec_aside' hF rfl stable_decided ?_ ?_
    · rintro s _ _ ⟨he, hj⟩
      exact ⟨he, fun j h => Or.inl (hj j h)⟩
    · rintro s _ _ ⟨he, _⟩ _
      exact ⟨he, rfl⟩
  · refine unlock_spec (G := fun s => s.exclusive = some i ∧ s.journal = none) hF
      (stable_exclusive fun hst h => hst.journal.trans h) ?_
    rintro s _ _ ⟨-, hnone⟩ j hj
    change s.journal = some j at hj
    rw [hnone] at hj
    exact absurd hj (by simp)

/-! ### The lifecycle journal -/

/-- A record without a decision. -/
theorem writeRecord_spec (p : Project) (owner : Nat) {c : Option Coordinator} (hc : ∀ r, c = some r → r.storeRoot = false)
    (root : Bool) :
    contract.Spec i (fun s : State Project Digest => Begun i p owner c s ∧ Free i s)
      (call (.writeCoordinator p ⟨owner, false, root⟩))
      (fun _ s => Begun i p owner (some ⟨owner, false, root⟩) s ∧ Free i s) (Resting i p) := by
  refine Spec.attempt ((framed_begun p owner c).stable.and stable_free) ?_ ?_ ?_
  · rintro s hs ⟨⟨hr, -, hno, hn⟩, -⟩
    exact ⟨hr.1.1, hn, apart_of_recorded hs hr hc, hno⟩
  · rintro s _ ⟨⟨hr, h⟩, hfree⟩ _
    exact ⟨⟨⟨hr.1, Function.update_self _ _ _⟩, h⟩, hfree⟩
  · rintro s _ ⟨⟨hr, -⟩, hfree⟩ _ c
    cases c <;> exact ⟨hr.1, hfree⟩

/-- The decision, with the trees of the transaction in place.  If it fails, it may
have reached the disk, but then its own process knows that it failed. -/
theorem markCommitted_spec (size : List Digest → Nat) (p : Project) (owner : Nat) {created staged published : List Digest} :
    contract.Spec i
      (fun s => Prepared i (some (p, owner)) s ∧ Publishing i size (some (p, owner)) created staged published s)
      (call (.writeCoordinator p ⟨owner, true, true⟩))
      (fun _ s => Holding i p s ∧ Decided i s) (fun s => Holding i p s ∧ Dropping i published s) := by
  have hF : Framed i (@Prepared _ Digest i (some (p, owner))) := framed_prepared _
  refine Spec.attempt (hF.stable.and (stable_publishing _ _ _ _ _)) ?_ ?_ ?_
  · rintro s hs ⟨hx, h⟩
    obtain ⟨hh, hc⟩ := hx p owner rfl
    have howner : owner < s.nextOwner := hs.coordinatorOwner hc
    refine ⟨hh.1, howner, h.exclusive, rfl, ?_, fun d ho => h.whole p owner d rfl ho⟩
    rintro j hj -
    rw [h.journal] at hj
    rw [← Option.some.inj hj]
  · rintro s _ ⟨hx, h⟩ _
    refine ⟨(hx p owner rfl).1, h.exclusive, ?_⟩
    intro j hj
    change s.journal = some j at hj
    rw [h.journal] at hj
    rw [← Option.some.inj hj]
    show ((s.setCoordinator p _).markCommitted p owner).committed p owner = true
    simp
  · rintro s hs ⟨hx, h⟩ _ c
    have hdrop := (h.withdrawing hs hx).toDropping
    cases c with
    | untouched | emptied | partly => exact ⟨(hx p owner rfl).1, hdrop⟩
    | carried =>
      refine ⟨(hx p owner rfl).1, h.exclusive, ?_⟩
      intro d hd _
      refine ⟨Or.inr ⟨⟨p, owner, created, size created⟩, h.journal, h.listed d hd, Or.inr (Or.inr ⟨?_, (hx p owner rfl).1.1⟩)⟩,
        Or.inl (h.publisher (by simp))⟩
      show (((s.setCoordinator p _).markCommitted p owner).tear p owner).torn p owner = true
      simp

/-- The transaction of an install: where it fails, the project is still locked. -/
theorem performInstall_spec (p : Project) (owner : Nat) (uses : StoreUses Project Digest) :
    contract.Spec i (fun s : State Project Digest => Begun i p owner (some ⟨owner, false, false⟩) s ∧ Free i s)
      (performInstall p owner uses) (fun _ _ => True) (Resting i p) := by
  have hF : Framed i (@Prepared _ Digest i (some (p, owner))) := framed_prepared _
  have hhold : ∀ s : State Project Digest, Prepared i (some (p, owner)) s → Holding i p s := fun s h => (h p owner rfl).1
  have hroot : ∀ r : Coordinator, (some ⟨owner, false, false⟩ : Option Coordinator) = some r → r.storeRoot = false := by
    rintro _ ⟨⟩
    rfl
  have hbegun : Framed i (@Begun _ Digest i p owner (some ⟨owner, false, true⟩)) := framed_begun _ _ _
  rw [performInstall]
  refine (writeRecord_spec p owner hroot false).bind fun _ => (writeRecord_spec p owner hroot true).bind fun _ =>
    Spec.bind (R := fun _ s => Begun i p owner (some ⟨owner, false, true⟩) s ∧ Free i s) ?_ fun _ =>
    Spec.bind (R := fun _ s => Begun i p owner (some ⟨owner, false, true⟩) s ∧ Free i s) ?_ fun _ =>
    Spec.bind (R := fun published s => Prepared i (some (p, owner)) s ∧
      ∃ created, Publishing i uses.size (some (p, owner)) created uses.staged published s) ?_ fun published => ?_
  · exact (useStoreAll_spec hbegun uses.applied).conseq (fun _ _ h => h) (fun _ _ h => h) fun _ h => ⟨h.1.1.1, h.2⟩
  · refine (spec_work (hbegun.stable.and stable_free)).conseq (fun _ _ h => h) (fun _ _ h => h) ?_
    exact fun _ h => ⟨h.1.1.1, h.2⟩
  · refine (publishInner_spec uses.size (some (p, owner)) uses.staged).conseq ?_ (fun _ _ h => h) ?_
    · rintro s _ ⟨⟨hr, hf, -⟩, hfree⟩
      refine ⟨⟨?_, ?_⟩, hfree⟩
      · rintro _ _ ⟨⟩
        exact hr
      · rintro _ _ ⟨⟩
        exact hf
    · exact fun s h => ⟨hhold s h.1, h.2⟩
  · intro s hs ⟨hx, created, h⟩
    refine (?_ : contract.Spec i (fun s => Prepared i (some (p, owner)) s ∧
      Publishing i uses.size (some (p, owner)) created uses.staged published s) _ _ _) hs ⟨hx, h⟩
    have hstable := hF.stable.and (stable_publishing (i := i) uses.size (some (p, owner)) created uses.staged published)
    have hhold' : Framed i (@Holding _ Digest i p) := framed_holding p
    have hdrop := dropPublication_spec hhold' published (List.Subset.refl _)
    refine Spec.bind (Spec.onError (spec_work hstable) (hdrop.pre ?_)) fun _ =>
      Spec.bind (Spec.onError (spec_work hstable) (Spec.ignored (rollback_spec uses.size p owner))) fun _ =>
      Spec.bind (Spec.onError (markCommitted_spec uses.size p owner) hdrop) fun _ => (commit_spec p).bind fun _ => ?_
    · exact fun s hs h => ⟨hhold s h.1, (h.2.withdrawing hs h.1).toDropping⟩
    · refine Spec.bind (R := fun _ s => Resting i p s ∧ Apart p s) ?_ fun _ => ?_
      · exact (spec_work (stable_apart p)).conseq (fun _ _ h => h) (fun _ _ h => h) fun _ h => h.1
      · refine Spec.attempt (stable_apart p) (fun _ _ h => ⟨h.1.1.1, h.2⟩) (fun _ _ _ _ => trivial) ?_
        rintro s _ ⟨h, -⟩ _ c
        cases c <;> exact h

/-- What the lifecycle journal of a locked project says about the store journal. -/
def Told (p : Project) (r : Found) (s : State Project Digest) : Prop :=
  match r with
  | .gone => True
  | .missing => s.coordinators p = none
  | .record c => c.storeRoot = false → Apart p s

omit [DecidableEq Project] [DecidableEq Digest] in
theorem told_found {s : State Project Digest} (hs : Inv s) {p : Project} (h : Holding i p s) : Told p (s.found p) s := by
  rw [State.found, h.2, if_neg (by simp)]
  cases hc : s.coordinators p with
  | none => exact hc
  | some c =>
    intro hroot
    refine apart_of_recorded hs ⟨h, hc⟩ ?_
    rintro _ ⟨⟩
    exact hroot

/-- `lifecycle_journal::recover`: the store journal is not one of the project then. -/
theorem recover_spec (p : Project) (stale : Option Nat) :
    contract.Spec i (@Resting _ Digest i p) (recover p stale)
      (fun r s => (Resting i p s ∧ Apart p s) ∧ (r = none → s.coordinators p = none)) (Resting i p) := by
  have hF : Framed i (@Holding _ Digest i p) := framed_holding p
  rw [recover]
  refine Spec.bind (R := fun r s => Resting i p s ∧ Told p r s) ?_ ?_
  · refine spec_query (stable_resting p) rfl ?_
    rintro s hs h _ ⟨⟩
    exact ⟨h, told_found hs h.1⟩
  · rintro (_ | _ | c)
    · exact Spec.throw fun _ _ h => h.1
    · refine Spec.return fun s hs h => ⟨⟨h.1, ?_⟩, fun _ => h.2⟩
      exact apart_of_recorded hs ⟨h.1.1, h.2⟩ fun _ hr => absurd hr (by simp)
    · by_cases howner : (stale.any fun o => decide (o ≠ c.owner)) = true
      · refine Spec.pre (P := Resting i p) ?_ fun _ _ h => h.1
        show contract.Spec i _ (if _ then _ else _) _ _
        rw [if_pos howner]
        exact Spec.throw fun _ _ h => h
      · show contract.Spec i _ (if _ then _ else _) _ _
        rw [if_neg howner]
        refine Spec.bind (R := fun _ s => Resting i p s ∧ Apart p s) ?_ fun _ => Spec.bind (R := fun _ s => Resting i p s ∧ Apart p s) ?_
          fun _ => Spec.return fun _ _ h => ⟨h, fun h => absurd h (by simp)⟩
        · rw [recoverRecorded]
          by_cases hroot : c.storeRoot = true
          · rw [if_pos hroot]
            refine (recoverTransactions_spec hF ?_).pre fun _ _ h => h.1
            intro s hnone j hj
            change s.journal = some j at hj
            rw [hnone] at hj
            exact absurd hj (by simp)
          · rw [if_neg hroot]
            exact Spec.return fun _ _ h => ⟨h.1, h.2 (Bool.eq_false_iff.2 hroot)⟩
        · exact (spec_work (stable_apart p)).conseq (fun _ _ h => h) (fun _ _ h => h) fun _ h => h.1

/-- The lifecycle journal goes when the store journal is not one of the project. -/
theorem removeCoordinator_spec (p : Project) :
    contract.Spec i (fun s : State Project Digest => Resting i p s ∧ Apart p s) (call (.removeCoordinator p))
      (fun _ s => Recorded i p none s ∧ Free i s) (Resting i p) := by
  refine Spec.attempt (stable_apart p) (fun _ _ h => ⟨h.1.1.1, h.2⟩) ?_ ?_
  · rintro s _ ⟨h, -⟩ _
    exact ⟨⟨h.1, Function.update_self _ _ _⟩, h.2⟩
  · rintro s _ ⟨h, -⟩ _ c
    cases c <;> exact h

theorem settle_spec (p : Project) (owner : Nat) :
    contract.Spec i (@Resting _ Digest i p) (settle p owner) (fun _ _ => True) fun _ => True := by
  rw [settle]
  refine Spec.bind ((recover_spec p (some owner)).conseq (fun _ _ h => h) (fun _ _ h => h) fun _ _ => trivial) ?_
  rintro (_ | c)
  · exact Spec.throw fun _ _ _ => trivial
  · refine Spec.bind (R := fun _ s => Resting i p s ∧ Apart p s) ?_ fun _ => ?_
    · exact (spec_work (stable_apart p)).conseq (fun _ _ h => h.1) (fun _ _ h => h) fun _ _ => trivial
    · exact (removeCoordinator_spec p).conseq (fun _ _ h => h) (fun _ _ _ => trivial) fun _ _ => trivial

theorem lockProject_spec (p : Project) :
    contract.Spec i (@Idle Project Digest i) (call (.lockProject p))
      (fun _ => Resting i p) fun _ => True := by
  refine Spec.attempt (fun _ _ _ hst h => contract.idle_rely h hst) (fun _ _ _ => trivial) ?_ (fun _ _ _ _ _ => trivial)
  rintro s _ ⟨hfree, -⟩ _
  change Ends (fun _ => Resting i p) (fun _ => True) (exec i (.lockProject p) s).1 (exec i (.lockProject p) s).2
  rw [exec]
  by_cases hg : s.gone p = true
  · rw [if_pos hg]
    trivial
  · rw [if_neg hg]
    split
    · trivial
    · exact ⟨⟨Function.update_self _ _ _, Bool.eq_false_iff.2 hg⟩, hfree⟩

/-- A lock is held in the name of a new owner, and nothing is left of the last one. -/
theorem acquire_spec (p : Project) :
    contract.Spec i (@Idle Project Digest i) (acquire p)
      (fun owner s => Begun i p owner none s ∧ Free i s) fun _ => True := by
  have hnone : contract.Stable i fun s : State Project Digest => Recorded i p none s ∧ Free i s :=
    Contract.Stable.and (fun _ _ _ hst h => recorded_rely hst h) stable_free
  rw [acquire]
  refine (lockProject_spec p).bind fun _ => Spec.bind (R := fun _ => Resting i p) ?_ fun previous => Spec.bind
    ((recover_spec p previous).conseq (fun _ _ h => h) (fun _ _ h => h) fun _ _ => trivial) fun r => ?_
  · exact (spec_query (stable_resting p) rfl fun _ _ h _ _ => h).conseq (fun _ _ h => h) (fun _ _ h => h) fun _ _ => trivial
  have hinit : contract.Spec i (fun s : State Project Digest => Recorded i p none s ∧ Free i s) (call (.initOwner p))
      (fun owner s => Begun i p owner none s ∧ Free i s) fun _ => True := by
    refine Spec.attempt hnone (fun _ _ _ => trivial) ?_ (fun _ _ _ _ _ => trivial)
    rintro s hs ⟨h, hfree⟩ _
    refine ⟨⟨h, ?_, ?_, Nat.lt_succ_self _⟩, hfree⟩
    · intro d ho
      exact absurd (hs.originOwner ho) (Nat.lt_irrefl _)
    · by_contra hyes
      exact absurd (hs.committedOwner (Bool.eq_true_of_not_eq_false hyes)) (Nat.lt_irrefl _)
  cases r with
  | none =>
    refine Spec.bind (R := fun _ s => Recorded i p none s ∧ Free i s) ?_ fun _ => hinit
    exact (spec_work hnone).conseq (fun _ _ h => ⟨⟨h.1.1.1, h.2 rfl⟩, h.1.1.2⟩) (fun _ _ h => h) fun _ _ => trivial
  | some c =>
    refine Spec.bind (R := fun _ s => Resting i p s ∧ Apart p s) ?_ fun _ =>
      Spec.bind ((removeCoordinator_spec p).conseq (fun _ _ h => h) (fun _ _ h => h) fun _ _ => trivial) fun _ => hinit
    exact (spec_work (stable_apart p)).conseq (fun _ _ h => h.1) (fun _ _ h => h) fun _ _ => trivial

theorem begin_spec (p : Project) (owner : Nat) :
    contract.Spec i (fun s : State Project Digest => Begun i p owner none s ∧ Free i s) (begin p owner)
      (fun _ s => Begun i p owner (some ⟨owner, false, false⟩) s ∧ Free i s) fun _ => True := by
  have hF : Framed i (@Begun _ Digest i p owner none) := framed_begun p owner none
  have hstable := hF.stable.and stable_free
  rw [begin]
  refine Spec.bind (R := fun r s => r = .missing ∧ Begun i p owner none s ∧ Free i s) ?_ ?_
  · refine (spec_query hstable rfl ?_).conseq (fun _ _ h => h) (fun _ _ h => h) fun _ _ => trivial
    rintro s _ h _ ⟨⟩
    refine ⟨?_, h⟩
    show s.found p = _
    rw [State.found, h.1.1.1.2, if_neg (by simp), h.1.1.2]
  · have hwrite := @writeRecord_spec _ Digest i _ _ p owner none (fun _ hr => absurd hr (by simp)) false
    rintro (_ | _ | c)
    · exact fun s _ h => absurd h.1 (by simp)
    · exact hwrite.conseq (fun _ _ h => h.2) (fun _ _ h => h) fun _ _ => trivial
    · exact fun s _ h => absurd h.1 (by simp)

/-! ### Every program -/

theorem install_spec (p : Project) (uses : StoreUses Project Digest) :
    contract.Spec i (@Idle Project Digest i) (install p uses) (fun _ _ => True) fun _ => True := by
  rw [install]
  refine (acquire_spec p).bind fun owner => ?_
  have hF : Framed i (@Begun _ Digest i p owner none) := framed_begun p owner none
  refine Spec.bind (R := fun _ s => Begun i p owner none s ∧ Free i s) ?_ fun _ =>
    Spec.bind (R := fun _ s => Begun i p owner none s ∧ Free i s) ?_ fun _ =>
    Spec.bind (R := fun _ s => Begun i p owner none s ∧ Free i s) ?_ fun _ => (begin_spec p owner).bind fun _ => ?_
  · exact (recoverTransactions_spec (G := fun _ => True) hF fun _ _ => trivial).conseq (fun _ _ h => h)
      (fun _ _ h => h.1) fun _ _ => trivial
  · exact (useStoreAll_spec hF uses.fetched).conseq (fun _ _ h => h) (fun _ _ h => h) fun _ _ => trivial
  · exact (spec_work (hF.stable.and stable_free)).conseq (fun _ _ h => h) (fun _ _ h => h) fun _ _ => trivial
  · exact Spec.onError (performInstall_spec p owner uses) (Spec.ignored (settle_spec p owner))

/-- A publication without a journal keeps the lock until it is committed. -/
theorem activateVerifiedTree_spec (d : Digest) :
    contract.Spec i (@Free Project _ i) (activateVerifiedTree d) (fun _ _ => True) fun _ => True := by
  rw [activateVerifiedTree]
  refine Spec.bind (R := fun _ _ => True) ?_ fun _ => ?_
  · refine (@publishInner_spec Project Digest i _ _ (fun _ => 0) none [d]).conseq ?_ (fun _ _ _ => trivial) fun _ _ => trivial
    intro s _ hfree
    exact ⟨⟨fun _ _ h => absurd h (by simp), fun _ _ h => absurd h (by simp)⟩, hfree⟩
  · have hunlock : contract.Spec i (fun _ : State Project Digest => True) (call .unlock) (fun _ _ => True) fun _ => True :=
      (unlock_framed framed_true).conseq (fun _ _ h => h) (fun _ _ _ => trivial) fun _ h => h
    rw [commit]
    refine Spec.bind (R := fun _ _ => True) ?_ fun _ => hunlock
    exact Spec.onError (S := fun _ => True) (Spec.return fun _ _ _ => trivial) hunlock

theorem deletion_spec (p : Project) :
    contract.Spec i (@Idle Project Digest i) (deletion p) (fun _ _ => True) fun _ => True := by
  rw [deletion]
  refine (lockProject_spec p).bind fun _ => ?_
  exact Spec.attempt (stable_resting p) (fun _ _ h => h.1.1) (fun _ _ _ _ => trivial) fun _ _ _ _ _ => trivial

/-- Every program a process may run keeps to the contract. -/
theorem safe_of_command {r : Plain Project Digest (Except Error Unit)} (h : Command r) (i : Nat) :
    contract.Triple i (contract.idle i) r fun _ _ => True := by
  have hdrop : ∀ {P : State Project Digest → Prop} {q : Run Project Digest Unit},
      contract.Spec i P q (fun _ _ => True) (fun _ => True) → contract.Triple i P q.run fun _ _ => True :=
    fun h => Contract.Triple.conseq h (fun _ _ h => h) fun _ _ _ => trivial
  cases h with
  | install p uses => exact hdrop (install_spec p uses)
  | acquire p =>
    refine hdrop ((acquire_spec p).bind fun _ => Spec.return fun _ _ _ => trivial)
  | recoverTransactions =>
    refine hdrop ((recoverTransactions_spec (G := fun _ => True) framed_true fun _ _ => trivial).conseq ?_ ?_ ?_)
    · exact fun _ _ h => ⟨trivial, h.1⟩
    · exact fun _ _ _ => trivial
    · exact fun _ _ => trivial
  | activateVerifiedTree d => exact hdrop ((activateVerifiedTree_spec d).pre fun _ _ h => h.1)
  | useStore u =>
    refine hdrop ((useStore_spec framed_true u).conseq ?_ ?_ ?_)
    · exact fun _ _ h => ⟨trivial, h.1⟩
    · exact fun _ _ _ => trivial
    · exact fun _ _ => trivial
  | deletion p => exact hdrop (deletion_spec p)

end

/-! ### Every run -/

theorem inv_initial (trees : Digest → Option Tree) : Inv (@State.initial Project _ trees) where
  listed h := absurd h (by simp [State.initial])
  created h := absurd h (by simp [State.initial])
  coordinated h := absurd h (by simp [State.initial])
  decided h := absurd h (by simp [State.initial])
  kept h := absurd h (by simp [State.initial])
  loose h := absurd h (by simp [State.initial])
  locks h := absurd h (by simp [State.initial])
  publisher h := absurd h (by simp [State.initial])
  originOwner h := absurd h (by simp [State.initial])
  committedOwner h := absurd h (by simp [State.initial])
  coordinatorOwner h := absurd h (by simp [State.initial])
  journalOwner h := absurd h (by simp [State.initial])

variable [DecidableEq Project] [DecidableEq Digest]

/-! ### What the looks have missed -/

theorem exec_misled (o : Call Project Digest) (s : State Project Digest) : (exec i o s).2.misled = s.misled := by
  cases o with
  | readOwner p | readJournal | verifyTree d => rw [exec_of_isQuery rfl]
  | lockProject p =>
    rw [exec]
    split
    · rfl
    · split <;> rfl
  | renameTree d =>
    rw [exec]
    split <;> rfl
  | writeCoordinator p c =>
    rw [exec, State.record]
    split <;> rfl
  | _ => rfl

theorem cut_misled (o : Call Project Digest) (c : Cut) (s : State Project Digest) :
    (cut i o c s).misled = s.misled := by
  rcases cut_cases (i := i) o c s with h | ⟨-, h⟩ | ⟨p, line, -, h⟩ | ⟨d, -, -, h⟩
  · rw [h]
  · rw [h]
    exact exec_misled o s
  · rw [h]
    rfl
  · rw [h]
    rfl

/-- Of all calls that fail, only a look that misses something is noted. -/
theorem fail_misled (o : Call Project Digest) (c : Cut) (s : State Project Digest) :
    (fail i o c s).misled = true ↔ s.misled = true ∨ Blind o s := by
  rcases fail_cases (i := i) o c s with ⟨h, hb⟩ | ⟨h, hb⟩ | ⟨p, r, rfl, -, h⟩
  · rw [h, cut_misled, or_iff_left hb]
  · rw [h]
    exact ⟨fun _ => Or.inr hb, fun _ => rfl⟩
  · rw [h, State.tear_misled, cut_misled, or_iff_left]
    rintro ⟨_, ⟨⟩, -⟩

/-- What has been missed stays noted. -/
theorem misled_of_next {c d : Processes Project Digest} (h : Next c d) (hc : c.state.misled = true) :
    d.state.misled = true := by
  cases h with
  | start p q hi hp => exact hc
  | done p o next hi ho => exact (exec_misled o c.state).trans hc
  | failed p o next x hi ho => exact (fail_misled o x c.state).2 (Or.inl hc)
  | stopped p o next x hi => exact (cut_misled o x c.state).trans hc
  | ended p a hi => exact hc

/-- A look changes no tree, whatever it answers. -/
theorem trees_of_misled {c d : Processes Project Digest} (h : Next c d) (hc : c.state.misled = false)
    (hd : d.state.misled = true) : d.state.trees = c.state.trees := by
  have hsame : d.state.misled = c.state.misled → d.state.trees = c.state.trees := by
    intro h
    rw [hd, hc] at h
    exact absurd h (by simp)
  cases h with
  | start p q hi hp => rfl
  | done p o next hi ho => exact hsame (exec_misled o c.state)
  | failed p o next x hi ho =>
    show (fail p o x c.state).trees = c.state.trees
    rcases fail_cases (i := p) o x c.state with ⟨h, hb⟩ | ⟨h, -⟩ | ⟨q, r, rfl, -, h⟩
    · exact absurd ((fail_misled o x c.state).1 hd) (by simp [hc, hb])
    · rw [h]
    · have hb : ¬Blind (.writeCoordinator q r) c.state := by rintro ⟨_, ⟨⟩, -⟩
      exact absurd ((fail_misled _ x c.state).1 hd) (by simp [hc, hb])
  | stopped p o next x hi => exact hsame (cut_misled o x c.state)
  | ended p a hi => rfl

/-! ### Every run -/

/-- A run in which no look has missed anything. -/
def SightedRun (trees : Digest → Option Tree) (c : Processes Project Digest) : Prop :=
  Reaches sighted Command (Processes.initial trees) c

theorem sightedRun_of_reachable {trees : Digest → Option Tree} {c : Processes Project Digest} (h : Reachable trees c)
    (hsight : c.state.misled = false) : SightedRun trees c := by
  refine reaches_without (fun s : State Project Digest => s.misled = true) ?_ ?_ h ?_
  · exact fun _ _ hstep hc => misled_of_next hstep hc
  · exact fun p o x s hb => (fail_misled o x s).2 (Or.inr hb)
  · rw [hsight]
    simp

theorem sound_of_sightedRun {trees : Digest → Option Tree} {c : Processes Project Digest} (h : SightedRun trees c) :
    Contract.Sound contract c := by
  have hinitial : Contract.Sound contract (@Processes.initial Project _ trees) := by
    refine ⟨inv_initial trees, ?_, ?_⟩
    · rintro i r ⟨⟩
    · intro i _
      exact ⟨⟨by simp [Processes.initial, State.initial], rfl⟩, by simp [Processes.initial, State.initial]⟩
  exact Contract.safe_of_reachable (fun r hr i => safe_of_command hr i) hinitial h

theorem sound_of_reachable {trees : Digest → Option Tree} {c : Processes Project Digest} (h : Reachable trees c)
    (hsight : c.state.misled = false) : Contract.Sound contract c :=
  sound_of_sightedRun (sightedRun_of_reachable h hsight)

/-- What a step may change, where no look misses anything. -/
theorem guarantee_of_next {c d : Processes Project Digest} (h : Contract.Sound contract c) (hstep : Next c d)
    (hsight : d.state.misled = false) : ∃ i, Guarantee i c.state d.state := by
  have hmarked : ¬d.state.misled = true := by
    rw [hsight]
    simp
  have hsighted : Step sighted Command c d :=
    step_without (fun s => s.misled = true) (fun p o x s hb => (fail_misled o x s).2 (Or.inr hb)) hstep hmarked
  exact Contract.guarantee_of_step h hsighted

/-- The removal of a tree that was whole, by the process that has locked the store. -/
theorem removed_of_next {c d : Processes Project Digest} (h : Contract.Sound contract c)
    (hsight : c.state.misled = false) (hstep : Next c d) {t : Digest} (hw : c.state.trees t = some .whole)
    (hne : d.state.trees t ≠ some .whole) : ∃ i, c.state.exclusive = some i ∧ Withdrawable i t c.state := by
  cases hd : d.state.misled with
  | true =>
    rw [trees_of_misled hstep hsight hd] at hne
    exact absurd hw hne
  | false =>
    obtain ⟨i, hg⟩ := guarantee_of_next h hstep hd
    refine ⟨i, ?_, hg.removed hw hne⟩
    by_contra he
    rw [(hg.store he).trees] at hne
    exact hne hw

/-- What was in the store before the run began is not removed by it. -/
theorem initial_trees_kept {trees : Digest → Option Tree} {c : Processes Project Digest} (h : SightedRun trees c)
    {t : Digest} (ht : trees t = some .whole) :
    c.state.trees t = some .whole ∧ c.state.origin t = none ∧ c.state.loose t = false := by
  induction h with
  | refl => exact ⟨ht, rfl, rfl⟩
  | tail hreach hstep ih =>
    rename_i b d
    obtain ⟨hw, ho, hl⟩ := ih
    have hsound := sound_of_sightedRun hreach
    obtain ⟨i, hg⟩ := Contract.guarantee_of_step hsound hstep
    have hg : Guarantee i b.state d.state := hg
    have hplaced := hg.placed (d := t) (by rw [hw]; rfl)
    refine ⟨?_, hplaced.1.trans ho, ?_⟩
    · by_contra hne
      rcases hg.removed hw hne with hloose | ⟨j, hj, hmem, -⟩
      · rw [hl] at hloose
        exact absurd hloose (by simp)
      · have := hsound.inv.created hj hmem (by rw [hw]; rfl)
        rw [ho] at this
        exact absurd this (by simp)
    · by_contra hyes
      have := hplaced.2 (Bool.eq_true_of_not_eq_false hyes)
      rw [hl] at this
      exact absurd this (by simp)

/-- **Isolation.**  In every run, whatever calls fail and wherever processes are
stopped, as long as no `Path::exists` has missed what was there:

* a tree that a reader finds under its guard and that a lifecycle transaction has put
  there belongs to a transaction that has been committed;
* a whole tree goes only while its own transaction is the pending one and is not
  committed, its project is gone, or the process that holds the lock of its project
  has seen its commit decision fail; or it was put there without a journal by the
  process that still has the store locked;
* a committed transaction keeps its trees, unless its decision failed or its project
  is gone;
* what was in the store before stays.

A project is only deleted under its lock. -/
theorem isolated {trees : Digest → Option Tree} {c : Processes Project Digest} (h : Reachable trees c)
    (hsight : c.state.misled = false) :
    (∀ i t next, c.running i = some (.call (.readTree t) next) → (c.state.trees t).isSome →
      ∀ p o, c.state.origin t = some (p, o) → c.state.committed p o = true) ∧
    (∀ d, Next c d → ∀ t, c.state.trees t = some .whole → d.state.trees t ≠ some .whole →
      ∃ i, c.state.exclusive = some i ∧
        (c.state.loose t = true ∨ ∃ p o, c.state.origin t = some (p, o) ∧
          (∃ j, c.state.journal = some j ∧ j.project = p ∧ j.owner = o) ∧
          (c.state.committed p o = false ∨ c.state.gone p = true ∨
            (c.state.torn p o = true ∧ c.state.projects p = some i)))) ∧
    (∀ t p o, c.state.origin t = some (p, o) → c.state.committed p o = true → c.state.torn p o = false →
      c.state.gone p = false → c.state.trees t = some .whole) ∧
    ∀ t, trees t = some .whole → c.state.trees t = some .whole := by
  have hsound := sound_of_reachable h hsight
  have hinv : Inv c.state := hsound.inv
  refine ⟨?_, ?_, fun t p o => hinv.kept, fun t ht => (initial_trees_kept (sightedRun_of_reachable h hsight) ht).1⟩
  · intro i t next hi ht p o ho
    obtain ⟨-, hnone⟩ : c.state.shared i = true ∧ c.state.journal = none := hsound.requires hi
    by_contra hno
    obtain ⟨j, hj, -⟩ := hinv.listed ho ht (Bool.eq_false_iff.2 hno)
    rw [hnone] at hj
    exact absurd hj (by simp)
  · intro d hstep t hw hne
    obtain ⟨i, he, hloose | ⟨j, hj, hmem, hj'⟩⟩ := removed_of_next hsound hsight hstep hw hne
    · exact ⟨i, he, Or.inl hloose⟩
    · refine ⟨i, he, Or.inr ⟨j.project, j.owner, ?_, ⟨j, hj, rfl, rfl⟩, hj'⟩⟩
      exact hinv.created hj hmem (by rw [hw]; rfl)

/-! ### One run -/

/-- Tree 5 is read under a guard. -/
def sampleReader : Reader Nat Nat where
  rounds := 2
  use := do
    let _ ← call (.readTree 5)
  reads := Prog.only_tryBind (only_call trivial) fun _ => trivial

/-- One tree is published; another may be looked up, and an output is attested. -/
def sampleUses (d : Nat) : StoreUses Nat Nat where
  fetched := [.lookup sampleReader]
  applied := [.exclusive]
  staged := [d]
  size created := StoreJournal.storeRecordSize "p/.tapid-lifecycle-journal.json" "1-a\n" created.length true

/-- An install of tree 5. -/
def committedInstall : State Nat Nat :=
  system.release 0
    (advance system 0 (install 7 (sampleUses 5)).run (List.replicate 41 .done) (State.initial fun _ => none)).2

/-- One of tree 6 that is stopped when the tree has been published. -/
def publishedInstall : State Nat Nat :=
  system.halt 1 .work .untouched
    (advance system 1 (install 8 (sampleUses 6)).run (List.replicate 33 .done) committedInstall).2

def twoInstalls : Processes Nat Nat :=
  ((Processes.initial fun _ => none).update 0 none committedInstall).update 1 none publishedInstall

theorem publishedInstall_reachable :
    Reachable (fun _ => none) twoInstalls ∧ ∀ j, twoInstalls.state.shared j = false := by
  obtain ⟨hfirst, hfree⟩ := ended_planned (List.replicate 41 .done) (c := Processes.initial fun _ => none)
    (i := 0) rfl (.install 7 (sampleUses 5)) (fun _ => rfl) (by decide +kernel)
    (by decide +kernel)
  obtain ⟨hsecond, hfree⟩ := stopped_planned (List.replicate 33 .done)
    (c := (Processes.initial fun _ => none).update 0 none committedInstall) (i := 1) (o := .work) .untouched rfl
    (.install 8 (sampleUses 6)) hfree (by decide +kernel) (by decide +kernel)
  exact ⟨hfirst.trans hsecond, hfree⟩

/-- A reader takes the published tree away, and has found no journal then. -/
def recoveredReader : State Nat Nat :=
  (advance system 2 (useStore (.snapshot sampleReader)).run (List.replicate 14 .done) publishedInstall).2

/-- The tree it is about to read is one of a committed transaction. -/
theorem isolated_reader : ∃ c : Processes Nat Nat, Reachable (fun _ => none) c ∧
    (∃ next, c.running 2 = some (.call (.readTree 5) next)) ∧
    publishedInstall.trees 6 = some .whole ∧ c.state.trees 6 = none ∧
    c.state.origin 5 = some (7, 0) ∧ c.state.committed 7 0 = true ∧ c.state.trees 5 = some .whole := by
  obtain ⟨hpublished, hfree⟩ := publishedInstall_reachable
  have hreader := reaches_planned (List.replicate 14 .done) (c := twoInstalls) (i := 2) rfl
    (.useStore (.snapshot sampleReader)) hfree (by decide +kernel)
  have hreach : Reachable (fun _ => none) _ := hpublished.trans hreader
  obtain ⟨next, hnext⟩ := eq_call_of_nextCall (o := .readTree 5)
    (p := (advance system 2 (useStore (.snapshot sampleReader)).run (List.replicate 14 .done) publishedInstall).1)
    (by decide +kernel)
  have hsight : recoveredReader.misled = false := by decide +kernel
  have horigin : recoveredReader.origin 5 = some (7, 0) := by decide +kernel
  have hthere : (recoveredReader.trees 5).isSome := by decide +kernel
  have hrun : ∀ {c : Processes Nat Nat}, (c.update 2 (some (advance system 2 (useStore (.snapshot sampleReader)).run
      (List.replicate 14 .done) publishedInstall).1) recoveredReader).running 2 = some (.call (.readTree 5) next) := by
    intro c
    rw [Config.update_same, hnext]
  obtain ⟨hreads, -, hkept, -⟩ := isolated hreach hsight
  have hcommitted := hreads 2 5 next hrun hthere 7 0 horigin
  exact ⟨_, hreach, ⟨next, hrun⟩, by decide +kernel, by decide +kernel, horigin, hcommitted,
    hkept 5 7 0 horigin hcommitted (by decide +kernel) (by decide +kernel)⟩

end Tapid.StoreProtocol
