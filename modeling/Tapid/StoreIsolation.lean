/-
What the calls of any number of installs, readers and recoveries keep true of one
shared store.

`Inv` ties the trees, the store journal, the coordinators and the locks together;
`Guarantee` is what one call may change, `Rely` what a process that holds a lock can
count on, and `Requires` the condition under which each call is made.  A look that
misses what is there would have the invariant broken: it is left out of `sighted`,
and `State.misled` tells the runs that had one.

* `allowed_exec`, `allowed_fail`, `allowed_halt`, `allowed_release` — what one call
  preserves, one case per call;
* `rely_of_guarantee` — the locks make what one process promises what another one
  counts on;
* `contract` — the four together, as a contract.
-/
import Tapid.StoreLocks

namespace Tapid.StoreProtocol

open Interrupted Interleaved

variable {Project Digest : Type}

/-! ### Invariant -/

/-- The store journal is not one of `p`. -/
def Apart (p : Project) (s : State Project Digest) : Prop := ∀ j, s.journal = some j → j.project ≠ p

structure Inv (s : State Project Digest) : Prop where
  /-- Trees of a transaction that is not committed are in the journal. -/
  listed {d p o} : s.origin d = some (p, o) → (s.trees d).isSome → s.committed p o = false →
    ∃ j, s.journal = some j ∧ j.project = p ∧ j.owner = o ∧ d ∈ j.created
  created {j d} : s.journal = some j → d ∈ j.created → (s.trees d).isSome → s.origin d = some (j.project, j.owner)
  /-- Recovery finds the coordinator of the journal. -/
  coordinated {j} : s.journal = some j →
    s.gone j.project = true ∨ ∃ c, s.coordinators j.project = some c ∧ c.owner = j.owner ∧ c.storeRoot = true
  decided {p c} : s.coordinators p = some c → c.committed = s.committed p c.owner
  /-- Trees of a committed transaction stay. -/
  kept {d p o} : s.origin d = some (p, o) → s.committed p o = true → s.torn p o = false → s.gone p = false →
    s.trees d = some .whole
  loose {d} : s.loose d = true → s.origin d = none
  locks {i} : s.exclusive = some i → ∀ j, s.shared j = false
  publisher {i} : s.publisher = some i → s.exclusive = some i
  originOwner {d p o} : s.origin d = some (p, o) → o < s.nextOwner
  committedOwner {p o} : s.committed p o = true → o < s.nextOwner
  coordinatorOwner {p c} : s.coordinators p = some c → c.owner < s.nextOwner
  journalOwner {j} : s.journal = some j → j.owner < s.nextOwner

/-! ### Guarantee and rely -/

/-- What only the holder of the exclusive lock changes. -/
structure SameStore (s t : State Project Digest) : Prop where
  trees : t.trees = s.trees
  journal : t.journal = s.journal
  origin : t.origin = s.origin
  loose : t.loose = s.loose
  committed : t.committed = s.committed
  torn : t.torn = s.torn
  publisher : t.publisher = s.publisher

/-- Process `i` may remove the tree: it has put it there itself without a journal,
or the tree belongs to the pending transaction, and that transaction is not
committed, or its project is gone, or its own process could not confirm the commit. -/
def Withdrawable (i : Nat) (d : Digest) (s : State Project Digest) : Prop :=
  s.loose d = true ∨ ∃ j, s.journal = some j ∧ d ∈ j.created ∧
    (s.committed j.project j.owner = false ∨ s.gone j.project = true ∨
      (s.torn j.project j.owner = true ∧ s.projects j.project = some i))

/-- What a step of process `i` changes. -/
structure Guarantee (i : Nat) (s t : State Project Digest) : Prop where
  store : s.exclusive ≠ some i → SameStore s t
  exclusive {j} : j ≠ i → (t.exclusive = some j ↔ s.exclusive = some j)
  shared {j} : j ≠ i → t.shared j = s.shared j
  projects {p j} : j ≠ i → (t.projects p = some j ↔ s.projects p = some j)
  coordinators {p} : s.projects p ≠ some i → t.coordinators p = s.coordinators p ∧ t.gone p = s.gone p ∧
    t.committed p = s.committed p ∧ t.torn p = s.torn p
  gone {p} : s.gone p = true → t.gone p = true
  nextOwner : s.nextOwner ≤ t.nextOwner
  journals {j} : t.journal = some j → s.journal = some j ∨ s.projects j.project = some i
  origins {d p o} : t.origin d = some (p, o) → s.origin d = some (p, o) ∨ s.projects p = some i
  removed {d} : s.trees d = some .whole → t.trees d ≠ some .whole → Withdrawable i d s
  placed {d} : (s.trees d).isSome → t.origin d = s.origin d ∧ (t.loose d = true → s.loose d = true)
  /-- Once nobody publishes, a tree that was removed in part stays in the journal. -/
  wedged {j d} : s.publisher = none → s.journal = some j → d ∈ j.created → s.trees d = some .broken →
    s.committed j.project j.owner = false →
    t.publisher = none ∧ t.journal = some j ∧ t.trees d = some .broken ∧ t.committed j.project j.owner = false

/-- What the steps of the others leave to process `i`. -/
structure Rely (i : Nat) (s t : State Project Digest) : Prop where
  exclusive : t.exclusive = some i ↔ s.exclusive = some i
  shared : t.shared i = s.shared i
  projects (p) : t.projects p = some i ↔ s.projects p = some i
  store : s.exclusive = some i ∨ s.shared i = true → SameStore s t
  coordinators {p} : s.projects p = some i → t.coordinators p = s.coordinators p ∧ t.gone p = s.gone p ∧
    t.committed p = s.committed p ∧ t.torn p = s.torn p
  apart {p} : s.projects p = some i → Apart p s → Apart p t
  origins {p d o} : s.projects p = some i → t.origin d = some (p, o) → s.origin d = some (p, o)
  gone {p} : s.gone p = true → t.gone p = true
  nextOwner : s.nextOwner ≤ t.nextOwner

theorem SameStore.refl (s : State Project Digest) : SameStore s s := ⟨rfl, rfl, rfl, rfl, rfl, rfl, rfl⟩

theorem SameStore.trans {s t u : State Project Digest} (h : SameStore s t) (h' : SameStore t u) : SameStore s u :=
  ⟨h'.trees.trans h.trees, h'.journal.trans h.journal, h'.origin.trans h.origin, h'.loose.trans h.loose,
    h'.committed.trans h.committed, h'.torn.trans h.torn, h'.publisher.trans h.publisher⟩

theorem Guarantee.refl (i : Nat) (s : State Project Digest) : Guarantee i s s where
  store _ := SameStore.refl s
  exclusive _ := Iff.rfl
  shared _ := rfl
  projects _ := Iff.rfl
  coordinators _ := ⟨rfl, rfl, rfl, rfl⟩
  gone h := h
  nextOwner := Nat.le_refl _
  journals := Or.inl
  origins := Or.inl
  removed h h' := absurd h h'
  placed _ := ⟨rfl, id⟩
  wedged hp hj _ ht hc := ⟨hp, hj, ht, hc⟩

theorem Rely.refl (i : Nat) (s : State Project Digest) : Rely i s s where
  exclusive := Iff.rfl
  shared := rfl
  projects _ := Iff.rfl
  store _ := SameStore.refl s
  coordinators _ := ⟨rfl, rfl, rfl, rfl⟩
  apart _ h := h
  origins _ h := h
  gone h := h
  nextOwner := Nat.le_refl _

theorem Rely.trans {i : Nat} {s t u : State Project Digest} (h : Rely i s t) (h' : Rely i t u) : Rely i s u where
  exclusive := h'.exclusive.trans h.exclusive
  shared := h'.shared.trans h.shared
  projects p := (h'.projects p).trans (h.projects p)
  store hs := by
    refine (h.store hs).trans (h'.store ?_)
    rw [h.exclusive, h.shared]
    exact hs
  coordinators := by
    intro p hp
    obtain ⟨h₁, h₂, h₃, h₄⟩ := h.coordinators hp
    obtain ⟨k₁, k₂, k₃, k₄⟩ := h'.coordinators ((h.projects p).2 hp)
    exact ⟨k₁.trans h₁, k₂.trans h₂, k₃.trans h₃, k₄.trans h₄⟩
  apart := by
    intro p hp ha
    exact h'.apart ((h.projects p).2 hp) (h.apart hp ha)
  origins := by
    intro p d o hp ho
    exact h.origins hp (h'.origins ((h.projects p).2 hp) ho)
  gone hg := h'.gone (h.gone hg)
  nextOwner := h.nextOwner.trans h'.nextOwner

/-- The locks make what one process promises what another one counts on. -/
theorem rely_of_guarantee {i j : Nat} {s t : State Project Digest} (hij : i ≠ j) (hs : Inv s)
    (h : Guarantee j s t) : Rely i s t where
  exclusive := h.exclusive hij
  shared := h.shared hij
  projects _ := h.projects hij
  store := by
    intro hi
    apply h.store
    intro hj
    rcases hi with hi | hi
    · rw [hi] at hj
      exact hij (Option.some.inj hj)
    · rw [hs.locks hj i] at hi
      exact Bool.false_ne_true hi
  coordinators := by
    intro p hp
    apply h.coordinators
    rw [hp]
    exact fun he => hij (Option.some.inj he)
  apart := by
    intro p hp ha k hk hkp
    rcases h.journals hk with hk | hk
    · exact ha k hk hkp
    · rw [hkp, hp] at hk
      exact hij (Option.some.inj hk)
  origins := by
    intro p d o hp ho
    rcases h.origins ho with ho | ho
    · exact ho
    · rw [hp] at ho
      exact absurd (Option.some.inj ho) hij
  gone hg := h.gone hg
  nextOwner := h.nextOwner

/-! ### One call -/

/-- Where a call is made.  What has been removed in part is only removed by the
process that has put it there. -/
def Requires (i : Nat) : Call Project Digest → State Project Digest → Prop
  | .lockShared, s | .lockExclusive, s => Free i s
  | .writeJournal j, s => s.exclusive = some i ∧ s.journal = none ∧ s.projects j.project = some i ∧
      s.coordinators j.project = some ⟨j.owner, false, true⟩ ∧ ∀ d ∈ j.created, s.trees d = none
  | .removeJournal, s => s.exclusive = some i ∧ ∀ j, s.journal = some j →
      s.committed j.project j.owner = true ∨ ∀ d ∈ j.created, s.trees d = none
  | .renameTree d, s => s.exclusive = some i ∧ ∀ j, s.journal = some j →
      (d ∈ j.created ∧ s.projects j.project = some i ∧ s.committed j.project j.owner = false) ∧ s.publisher = some i
  | .removeTree d, s => s.exclusive = some i ∧ ((s.trees d).isSome → Withdrawable i d s) ∧
      (s.trees d = some .broken → s.publisher = some i ∨ s.loose d = true)
  | .readTree _, s => s.shared i = true ∧ s.journal = none
  | .writeCoordinator p c, s => s.projects p = some i ∧ c.owner < s.nextOwner ∧
      match c.committed with
      | false => Apart p s ∧ s.committed p c.owner = false
      | true => s.exclusive = some i ∧ c.storeRoot = true ∧
          (∀ j, s.journal = some j → j.project = p → j.owner = c.owner) ∧
          ∀ d, s.origin d = some (p, c.owner) → s.trees d = some .whole
  | .removeCoordinator p, s => s.projects p = some i ∧ Apart p s
  | .deleteProject p, s => s.projects p = some i
  | _, _ => True

section

variable {s : State Project Digest} {i : Nat}

/-- What one call is allowed to come to. -/
def Allowed (i : Nat) (s t : State Project Digest) : Prop := Inv t ∧ Guarantee i s t

theorem Allowed.refl (hs : Inv s) : Allowed i s s := ⟨hs, Guarantee.refl i s⟩

/-- The journal of a publication. -/
theorem allowed_writeJournal (hs : Inv s) {j : Journal Project Digest} (h : Requires i (.writeJournal j) s) :
    Allowed i s { s with journal := some j, publisher := some i } := by
  obtain ⟨he, hnone, hp, hc, htrees⟩ := h
  refine ⟨{ hs with
      listed := ?_
      created := ?_
      coordinated := ?_
      publisher := ?_
      journalOwner := ?_ }, { Guarantee.refl i s with
      store := fun h => absurd he h
      journals := ?_
      wedged := ?_ }⟩
  · intro d p o ho h hcommitted
    obtain ⟨k, hk, -⟩ := hs.listed ho h hcommitted
    rw [hnone] at hk
    exact absurd hk (by simp)
  · rintro _ d ⟨⟩ hd h
    change (s.trees d).isSome at h
    rw [htrees d hd] at h
    exact absurd h (by simp)
  · rintro _ ⟨⟩
    exact Or.inr ⟨_, hc, rfl, rfl⟩
  · rintro _ ⟨⟩
    exact he
  · rintro _ ⟨⟩
    exact hs.coordinatorOwner hc
  · rintro _ ⟨⟩
    exact Or.inr hp
  · intro k d _ hk
    rw [hnone] at hk
    exact absurd hk (by simp)

/-- The journal goes when its transaction is committed or nothing is left of it. -/
theorem allowed_removeJournal (hs : Inv s) (h : Requires i .removeJournal s) :
    Allowed i s { s with journal := none } := by
  obtain ⟨he, hj⟩ := h
  refine ⟨{ hs with
      listed := ?_
      created := by rintro _ _ ⟨⟩
      coordinated := by rintro _ ⟨⟩
      journalOwner := by rintro _ ⟨⟩ }, { Guarantee.refl i s with
      store := fun h => absurd he h
      journals := by rintro _ ⟨⟩
      wedged := ?_ }⟩
  · intro d p o ho h hc
    obtain ⟨j, hjs, rfl, rfl, hd⟩ := hs.listed ho h hc
    rcases hj j hjs with hcommitted | hnone
    · change s.committed _ _ = false at hc
      rw [hcommitted] at hc
      exact absurd hc (by simp)
    · change (s.trees d).isSome at h
      rw [hnone d hd] at h
      exact absurd h (by simp)
  · intro j d _ hjs hd ht hc
    rcases hj j hjs with hcommitted | hnone
    · rw [hcommitted] at hc
      exact absurd hc (by simp)
    · rw [hnone d hd] at ht
      exact absurd ht (by simp)

/-! ### Locks -/

/-- What a lock file says about the last owner. -/
theorem allowed_setOwner [DecidableEq Project] (hs : Inv s) (p : Project) (line : OwnerLine) :
    Allowed i s (s.setOwner p line) :=
  ⟨{ hs with }, { Guarantee.refl i s with store := fun _ => ⟨rfl, rfl, rfl, rfl, rfl, rfl, rfl⟩ }⟩

theorem allowed_initOwner [DecidableEq Project] (hs : Inv s) (p : Project) :
    Allowed i s { s.setOwner p (.line s.nextOwner) with nextOwner := s.nextOwner + 1 } := by
  refine ⟨{ hs with
      originOwner := fun h => Nat.lt_succ_of_lt (hs.originOwner h)
      committedOwner := fun h => Nat.lt_succ_of_lt (hs.committedOwner h)
      coordinatorOwner := fun h => Nat.lt_succ_of_lt (hs.coordinatorOwner h)
      journalOwner := fun h => Nat.lt_succ_of_lt (hs.journalOwner h) }, { Guarantee.refl i s with
      store := fun _ => ⟨rfl, rfl, rfl, rfl, rfl, rfl, rfl⟩
      nextOwner := Nat.le_succ _ }⟩

theorem allowed_lockShared (hs : Inv s) (he : s.exclusive = none) :
    Allowed i s { s with shared := Function.update s.shared i true } := by
  refine ⟨{ hs with
      locks := ?_ }, { Guarantee.refl i s with
      store := fun _ => ⟨rfl, rfl, rfl, rfl, rfl, rfl, rfl⟩
      shared := fun hj => Function.update_of_ne hj _ _ }⟩
  intro k hk
  rw [he] at hk
  exact absurd hk (by simp)

theorem allowed_lockExclusive (hs : Inv s) (h : enabled i (.lockExclusive : Call Project Digest) s) :
    Allowed i s { s with exclusive := some i } := by
  obtain ⟨he, hshared⟩ := h
  refine ⟨{ hs with
      locks := fun _ => hshared
      publisher := ?_ }, { Guarantee.refl i s with
      store := fun _ => ⟨rfl, rfl, rfl, rfl, rfl, rfl, rfl⟩
      exclusive := ?_ }⟩
  · intro k hk
    rw [hs.publisher hk] at he
    exact absurd he (by simp)
  · intro j hj
    rw [he]
    constructor
    · intro h
      exact absurd (Option.some.inj h).symm hj
    · intro h
      exact absurd h (by simp)

theorem unlock_loose_imp {d : Digest} (h : (s.unlock i).loose d = true) : s.loose d = true := by
  by_cases he : s.exclusive = some i
  · rw [State.unlock_loose, if_pos he] at h
    exact absurd h (by simp)
  · rwa [State.unlock_loose, if_neg he] at h

theorem allowed_unlock (hs : Inv s) : Allowed i s (s.unlock i) := by
  refine ⟨{ hs with
      loose := ?_
      locks := ?_
      publisher := ?_ }, { Guarantee.refl i s with
      store := ?_
      exclusive := fun hj => unlock_exclusive_of_ne hj
      shared := fun hj => Function.update_of_ne hj _ _
      placed := fun _ => ⟨rfl, unlock_loose_imp⟩
      wedged := fun hp hj _ ht hc => ⟨?_, hj, ht, hc⟩ }⟩
  · intro d hd
    exact hs.loose (unlock_loose_imp hd)
  · intro k hk j
    by_cases he : s.exclusive = some i
    · rw [State.unlock_exclusive, if_pos he] at hk
      exact absurd hk (by simp)
    · rw [State.unlock_exclusive, if_neg he] at hk
      by_cases hj : j = i
      · rw [State.unlock_shared, hj, Function.update_self]
      · rw [State.unlock_shared, Function.update_of_ne hj]
        exact hs.locks hk j
  · intro k hk
    by_cases he : s.exclusive = some i
    · rw [State.unlock_publisher, if_pos he] at hk
      exact absurd hk (by simp)
    · rw [State.unlock_publisher, if_neg he] at hk
      rw [State.unlock_exclusive, if_neg he]
      exact hs.publisher hk
  · intro he
    exact ⟨rfl, rfl, rfl, if_neg he, rfl, rfl, if_neg he⟩
  · rw [State.unlock_publisher, hp, ite_self]

/-- A second step that leaves the trees alone, behind one that leaves the locks alone. -/
theorem Guarantee.trans {t u : State Project Digest} (h : Guarantee i s t) (h' : Guarantee i t u)
    (ho : u.origin = t.origin) (hl : ∀ d, u.loose d = true → t.loose d = true)
    (he : t.exclusive = s.exclusive) (hp : t.projects = s.projects) (ht : u.trees = t.trees) :
    Guarantee i s u where
  store hi := (h.store hi).trans (h'.store (by rwa [he]))
  exclusive hj := (h'.exclusive hj).trans (h.exclusive hj)
  shared hj := (h'.shared hj).trans (h.shared hj)
  projects hj := (h'.projects hj).trans (h.projects hj)
  coordinators := by
    intro p hi
    obtain ⟨h₁, h₂, h₃, h₄⟩ := h.coordinators hi
    obtain ⟨k₁, k₂, k₃, k₄⟩ := h'.coordinators (p := p) (by rwa [hp])
    exact ⟨k₁.trans h₁, k₂.trans h₂, k₃.trans h₃, k₄.trans h₄⟩
  gone hg := h'.gone (h.gone hg)
  nextOwner := h.nextOwner.trans h'.nextOwner
  journals := by
    intro j hj
    rcases h'.journals hj with hj | hj
    · exact h.journals hj
    · right
      rwa [hp] at hj
  origins := by
    intro d p o ho
    rcases h'.origins ho with ho | ho
    · exact h.origins ho
    · right
      rwa [hp] at ho
  removed := by
    intro d hw hne
    rw [ht] at hne
    exact h.removed hw hne
  placed := by
    intro d hd
    rw [ho]
    exact ⟨(h.placed hd).1, fun hu => (h.placed hd).2 (hl d hu)⟩
  wedged := by
    intro j d hp hj hd hb hc
    obtain ⟨hp', hj', hb', hc'⟩ := h.wedged hp hj hd hb hc
    exact h'.wedged hp' hj' hd hb' hc'

/-- The files of a process that has ended are closed. -/
theorem allowed_release (hs : Inv s) : Allowed i s (s.release i) := by
  obtain ⟨hinv, hg⟩ := allowed_unlock (i := i) hs
  refine ⟨{ hinv with }, { hg with
      store := ?_
      projects := ?_ }⟩
  · intro he
    exact ⟨rfl, rfl, rfl, (hg.store he).loose, rfl, rfl, (hg.store he).publisher⟩
  · intro p j hj
    rw [State.release_projects]
    by_cases hp : s.projects p = some i
    · rw [if_pos hp, hp]
      constructor
      · intro h
        exact absurd h (by simp)
      · intro h
        exact absurd (Option.some.inj h).symm hj
    · rw [if_neg hp]

/-- Where a process that has ended may start again. -/
def Idle (i : Nat) (s : State Project Digest) : Prop := Free i s ∧ ∀ p, s.projects p ≠ some i

theorem idle_release : Idle i (s.release i) := by
  refine ⟨free_unlock i s, ?_⟩
  intro p
  rw [State.release_projects]
  by_cases hp : s.projects p = some i
  · rw [if_pos hp]
    simp
  · rwa [if_neg hp]

section

variable [DecidableEq Digest]

/-- A removal, or the part of one. -/
theorem allowed_setTree (hs : Inv s) (he : s.exclusive = some i) {d : Digest} {t : Option Tree}
    (hd : (s.trees d).isSome → Withdrawable i d s)
    (hb : s.trees d = some .broken → s.publisher = some i ∨ s.loose d = true)
    (hsome : t.isSome → (s.trees d).isSome) : Allowed i s (s.setTree d t) := by
  have hisSome : ∀ e, ((s.setTree d t).trees e).isSome → (s.trees e).isSome := by
    intro e h
    by_cases hed : e = d
    · subst hed
      rw [State.setTree_trees, Function.update_self] at h
      exact hsome h
    · rwa [State.setTree_trees, Function.update_of_ne hed] at h
  refine ⟨{ hs with
      listed := fun ho h hc => hs.listed ho (hisSome _ h) hc
      created := fun hj hd h => hs.created hj hd (hisSome _ h)
      kept := ?_ }, { Guarantee.refl i s with
      store := fun h => absurd he h
      removed := ?_
      wedged := ?_ }⟩
  · intro e p o ho hc htorn hgone
    have hw := hs.kept ho hc htorn hgone
    by_cases hed : e = d
    · -- a tree of a committed transaction cannot be withdrawn
      subst hed
      rcases hd (by rw [hw]; rfl) with hl | ⟨j, hj, hmem, hj'⟩
      · rw [State.setTree_origin, hs.loose hl] at ho
        exact absurd ho (by simp)
      · have hjo := hs.created hj hmem (by rw [hw]; rfl)
        rw [← State.setTree_origin, ho] at hjo
        obtain ⟨rfl, rfl⟩ := Prod.mk.inj (Option.some.inj hjo)
        simp only [State.setTree_committed, State.setTree_torn, State.setTree_gone] at hc htorn hgone
        rw [hc, htorn, hgone] at hj'
        simp at hj'
    · rw [State.setTree_trees, Function.update_of_ne hed]
      exact hw
  · intro e hw hne
    by_cases hed : e = d
    · subst hed
      exact hd (by rw [hw]; rfl)
    · rw [State.setTree_trees, Function.update_of_ne hed] at hne
      exact absurd hw hne
  · intro j e hp hj he ht hc
    by_cases hed : e = d
    · subst hed
      have ho := hs.created hj he (by rw [ht]; rfl)
      rcases hb ht with hp' | hl
      · rw [hp] at hp'
        exact absurd hp' (by simp)
      · rw [hs.loose hl] at ho
        exact absurd ho (by simp)
    · refine ⟨hp, hj, ?_, hc⟩
      rw [State.setTree_trees, Function.update_of_ne hed]
      exact ht

/-- A tree is put in place. -/
theorem allowed_place (hs : Inv s) (he : s.exclusive = some i) {d : Digest} (hd : s.trees d = none)
    (hj : ∀ j, s.journal = some j → d ∈ j.created ∧ s.projects j.project = some i ∧
      s.committed j.project j.owner = false) : Allowed i s (s.place d) := by
  have horigin : ∀ e p o, (s.place d).origin e = some (p, o) →
      (e ≠ d ∧ s.origin e = some (p, o)) ∨
      (e = d ∧ ∃ j, s.journal = some j ∧ j.project = p ∧ j.owner = o) := by
    intro e p o h
    by_cases hed : e = d
    · refine Or.inr ⟨hed, ?_⟩
      rw [State.place_origin, hed, Function.update_self, Option.map_eq_some_iff] at h
      obtain ⟨j, hj, hpo⟩ := h
      obtain ⟨rfl, rfl⟩ := Prod.mk.inj hpo
      exact ⟨j, hj, rfl, rfl⟩
    · rw [State.place_origin, Function.update_of_ne hed] at h
      exact Or.inl ⟨hed, h⟩
  have htrees : ∀ e, e ≠ d → (s.place d).trees e = s.trees e := fun e hed => Function.update_of_ne hed _ _
  refine ⟨{ hs with
      listed := ?_
      created := ?_
      kept := ?_
      loose := ?_
      originOwner := ?_ }, { Guarantee.refl i s with
      store := fun h => absurd he h
      origins := ?_
      removed := ?_
      placed := ?_
      wedged := ?_ }⟩
  · -- the journal lists the tree before it is put in place
    intro e p o ho h hc
    rcases horigin e p o ho with ⟨hed, ho⟩ | ⟨rfl, j, hjs, rfl, rfl⟩
    · rw [htrees e hed] at h
      exact hs.listed ho h hc
    · exact ⟨j, hjs, rfl, rfl, (hj j hjs).1⟩
  · intro j e hjs hmem h
    by_cases hed : e = d
    · subst hed
      rw [State.place_journal] at hjs
      rw [State.place_origin, Function.update_self, hjs]
      rfl
    · rw [htrees e hed] at h
      rw [State.place_origin, Function.update_of_ne hed]
      exact hs.created hjs hmem h
  · -- what is put in place is whole
    intro e p o ho hc htorn hgone
    rcases horigin e p o ho with ⟨hed, ho⟩ | ⟨rfl, j, hjs, rfl, rfl⟩
    · rw [htrees e hed]
      exact hs.kept ho hc htorn hgone
    · exact Function.update_self _ _ _
  · -- without a journal the tree is loose, and nobody's
    intro e h
    by_cases hed : e = d
    · subst hed
      rw [State.place_loose, Function.update_self, Option.isNone_iff_eq_none] at h
      rw [State.place_origin, Function.update_self, h]
      rfl
    · rw [State.place_loose, Function.update_of_ne hed] at h
      rw [State.place_origin, Function.update_of_ne hed]
      exact hs.loose h
  · intro e p o ho
    rcases horigin e p o ho with ⟨-, ho⟩ | ⟨-, j, hjs, -, rfl⟩
    · exact hs.originOwner ho
    · exact hs.journalOwner hjs
  · -- a new origin is a project this process has locked
    intro e p o ho
    rcases horigin e p o ho with ⟨-, ho⟩ | ⟨-, j, hjs, rfl, -⟩
    · exact Or.inl ho
    · exact Or.inr (hj j hjs).2.1
  · intro e hw hne
    by_cases hed : e = d
    · rw [hed, hd] at hw
      exact absurd hw (by simp)
    · rw [htrees e hed] at hne
      exact absurd hw hne
  · intro e ht
    have hed : e ≠ d := by
      rintro rfl
      rw [hd] at ht
      exact absurd ht (by simp)
    rw [State.place_origin, State.place_loose, Function.update_of_ne hed, Function.update_of_ne hed]
    exact ⟨rfl, id⟩
  · intro j e hp hjs _ ht hc
    have hed : e ≠ d := by
      rintro rfl
      rw [hd] at ht
      exact absurd ht (by simp)
    refine ⟨hp, hjs, ?_, hc⟩
    rw [htrees e hed]
    exact ht

end

section

variable [DecidableEq Project]

theorem setCoordinator_some {p q : Project} {c : Option Coordinator} {r : Coordinator}
    (h : (s.setCoordinator p c).coordinators q = some r) : (q = p ∧ c = some r) ∨ (q ≠ p ∧ s.coordinators q = some r) := by
  by_cases hqp : q = p
  · subst hqp
    rw [State.setCoordinator_coordinators, Function.update_self] at h
    exact Or.inl ⟨rfl, h⟩
  · rw [State.setCoordinator_coordinators, Function.update_of_ne hqp] at h
    exact Or.inr ⟨hqp, h⟩

theorem allowed_removeCoordinator (hs : Inv s) {p : Project} (h : Requires i (.removeCoordinator p) s) :
    Allowed i s (s.setCoordinator p none) := by
  obtain ⟨hp, ha⟩ := h
  refine ⟨{ hs with
      coordinated := ?_
      decided := ?_
      coordinatorOwner := ?_ }, { Guarantee.refl i s with
      store := fun _ => ⟨rfl, rfl, rfl, rfl, rfl, rfl, rfl⟩
      coordinators := ?_ }⟩
  · intro j hj
    rw [State.setCoordinator_coordinators, Function.update_of_ne (ha j hj)]
    exact hs.coordinated hj
  · intro q c hq
    rcases setCoordinator_some hq with ⟨-, hnone⟩ | ⟨-, hq⟩
    · exact absurd hnone (by simp)
    · exact hs.decided hq
  · intro q c hq
    rcases setCoordinator_some hq with ⟨-, hnone⟩ | ⟨-, hq⟩
    · exact absurd hnone (by simp)
    · exact hs.coordinatorOwner hq
  · intro q hq
    refine ⟨Function.update_of_ne ?_ _ _, rfl, rfl, rfl⟩
    rintro rfl
    exact hq hp

/-- A project whose directory goes takes its coordinator along. -/
theorem allowed_delete (hs : Inv s) {p : Project} (hp : s.projects p = some i) : Allowed i s (s.delete p) := by
  have hgone : ∀ {q}, s.gone q = true → (s.delete p).gone q = true := by
    intro q hq
    by_cases hqp : q = p
    · rw [State.delete_gone, hqp, Function.update_self]
    · rw [State.delete_gone, Function.update_of_ne hqp]
      exact hq
  have hcoordinators : ∀ {q c}, (s.delete p).coordinators q = some c → s.coordinators q = some c := by
    intro q c hq
    by_cases hqp : q = p
    · rw [State.delete_coordinators, hqp, Function.update_self] at hq
      exact absurd hq (by simp)
    · rwa [State.delete_coordinators, Function.update_of_ne hqp] at hq
  refine ⟨{ hs with
      coordinated := ?_
      decided := fun hq => hs.decided (hcoordinators hq)
      kept := ?_
      coordinatorOwner := fun hq => hs.coordinatorOwner (hcoordinators hq) }, { Guarantee.refl i s with
      store := fun _ => ⟨rfl, rfl, rfl, rfl, rfl, rfl, rfl⟩
      coordinators := ?_
      gone := hgone }⟩
  · intro j hj
    by_cases hjp : j.project = p
    · left
      rw [State.delete_gone, hjp, Function.update_self]
    · rcases hs.coordinated hj with hg | ⟨c, hc, hc'⟩
      · exact Or.inl (hgone hg)
      · refine Or.inr ⟨c, ?_, hc'⟩
        rw [State.delete_coordinators, Function.update_of_ne hjp]
        exact hc
  · -- trees of a project that is gone are promised to nobody
    intro d q o ho hc htorn hg
    refine hs.kept ho hc htorn ?_
    by_contra hne
    rw [hgone (Bool.eq_true_of_not_eq_false hne)] at hg
    exact absurd hg (by simp)
  · intro q hq
    have hqp : q ≠ p := by
      rintro rfl
      exact hq hp
    exact ⟨Function.update_of_ne hqp _ _, Function.update_of_ne hqp _ _, rfl, rfl⟩

/-- A record of the lifecycle journal; with a commit decision it is written under
the lock of the store, where all trees of the transaction are in place. -/
theorem allowed_record (hs : Inv s) {p : Project} {c : Coordinator} (h : Requires i (.writeCoordinator p c) s) :
    Allowed i s (s.record p c) := by
  obtain ⟨hp, howner, h⟩ := h
  have hown : ∀ q, s.projects q ≠ some i → q ≠ p := by
    rintro q hq rfl
    exact hq hp
  cases hc : c.committed with
  | false =>
    -- the journal of the store is not this project's, so no tree depends on the record
    rw [hc] at h
    obtain ⟨ha, hno⟩ := h
    rw [State.record, hc, if_neg (by simp)]
    refine ⟨{ hs with
        coordinated := ?_
        decided := ?_
        coordinatorOwner := ?_ }, { Guarantee.refl i s with
        store := fun _ => ⟨rfl, rfl, rfl, rfl, rfl, rfl, rfl⟩
        coordinators := fun hq => ⟨Function.update_of_ne (hown _ hq) _ _, rfl, rfl, rfl⟩ }⟩
    · intro j hj
      rw [State.setCoordinator_coordinators, Function.update_of_ne (ha j hj)]
      exact hs.coordinated hj
    · intro q r hq
      rcases setCoordinator_some hq with ⟨rfl, ⟨⟩⟩ | ⟨hqp, hq⟩
      · rw [hc]
        exact hno.symm
      · exact hs.decided hq
    · intro q r hq
      rcases setCoordinator_some hq with ⟨rfl, ⟨⟩⟩ | ⟨hqp, hq⟩
      · exact howner
      · exact hs.coordinatorOwner hq
  | true =>
    rw [hc] at h
    obtain ⟨he, hroot, hj, hwhole⟩ := h
    rw [State.record, if_pos hc]
    have hcommitted : ∀ q o, ((s.setCoordinator p (some c)).markCommitted p c.owner).committed q o = true →
        (q = p ∧ o = c.owner) ∨ s.committed q o = true := by
      intro q o h
      simpa using h
    have hmono : ∀ q o, s.committed q o = true →
        ((s.setCoordinator p (some c)).markCommitted p c.owner).committed q o = true := by
      intro q o h
      simp [h]
    refine ⟨{ hs with
        listed := ?_
        coordinated := ?_
        decided := ?_
        kept := ?_
        committedOwner := ?_
        coordinatorOwner := ?_ }, { Guarantee.refl i s with
        store := fun h => absurd he h
        coordinators := ?_
        wedged := ?_ }⟩
    · -- what is not committed now was not committed before
      intro d q o ho ht hno
      refine hs.listed ho ht ?_
      by_contra hyes
      rw [hmono q o (Bool.eq_true_of_not_eq_false hyes)] at hno
      exact absurd hno (by simp)
    · intro j hjs
      by_cases hjp : j.project = p
      · refine Or.inr ⟨c, ?_, (hj j hjs hjp).symm, hroot⟩
        rw [State.markCommitted_coordinators, State.setCoordinator_coordinators, hjp, Function.update_self]
      · rw [State.markCommitted_coordinators, State.setCoordinator_coordinators, Function.update_of_ne hjp]
        exact hs.coordinated hjs
    · intro q r hq
      rcases setCoordinator_some hq with ⟨rfl, ⟨⟩⟩ | ⟨hqp, hq⟩
      · rw [hc]
        simp
      · rw [hs.decided hq]
        simp [hqp]
    · -- the transaction is committed with all its trees in place
      intro d q o ho hcom htorn hg
      rcases hcommitted q o hcom with ⟨rfl, rfl⟩ | hcom
      · exact hwhole d ho
      · exact hs.kept ho hcom htorn hg
    · intro q o hcom
      rcases hcommitted q o hcom with ⟨rfl, rfl⟩ | hcom
      · exact howner
      · exact hs.committedOwner hcom
    · intro q r hq
      rcases setCoordinator_some hq with ⟨rfl, ⟨⟩⟩ | ⟨hqp, hq⟩
      · exact howner
      · exact hs.coordinatorOwner hq
    · intro q hq
      refine ⟨Function.update_of_ne (hown q hq) _ _, rfl, ?_, rfl⟩
      funext o
      simp [hown q hq]
    · -- a transaction with a broken tree is not the one that is committed
      intro k d hpub hk hd ht hno
      refine ⟨hpub, hk, ht, ?_⟩
      by_contra hyes
      rcases hcommitted _ _ (Bool.eq_true_of_not_eq_false hyes) with ⟨hkp, hko⟩ | hcom
      · have ho := hs.created hk hd (by rw [ht]; rfl)
        rw [hkp, hko] at ho
        rw [hwhole d ho] at ht
        exact absurd ht (by simp)
      · rw [hno] at hcom
        exact absurd hcom (by simp)

/-- A lock of a project that is not locked. -/
theorem allowed_lockProject (hs : Inv s) {p : Project} (hp : s.projects p = none) :
    Allowed i s { s with projects := Function.update s.projects p (some i) } := by
  refine ⟨{ hs with }, { Guarantee.refl i s with
      store := fun _ => ⟨rfl, rfl, rfl, rfl, rfl, rfl, rfl⟩
      projects := ?_ }⟩
  intro q j hj
  by_cases hqp : q = p
  · subst hqp
    show Function.update s.projects q (some i) q = some j ↔ _
    rw [Function.update_self, hp]
    constructor
    · intro h
      exact absurd (Option.some.inj h).symm hj
    · intro h
      exact absurd h (by simp)
  · show Function.update s.projects p (some i) q = some j ↔ _
    rw [Function.update_of_ne hqp]

/-- The failure of a call that has had its effect is noted. -/
theorem allowed_tear {t : State Project Digest} (h : Allowed i s t) {p : Project} (hp : s.projects p = some i)
    (he : s.exclusive = some i) (o : Nat) : Allowed i s (t.tear p o) := by
  obtain ⟨hinv, hg⟩ := h
  refine ⟨{ hinv with
      kept := ?_ }, { hg with
      store := fun h => absurd he h
      coordinators := ?_ }⟩
  · intro d q r ho hc htorn hgone
    refine hinv.kept ho hc ?_ hgone
    by_contra hyes
    have : (t.tear p o).torn q r = true := by
      simp [Bool.eq_true_of_not_eq_false hyes]
    rw [this] at htorn
    exact absurd htorn (by simp)
  · intro q hq
    obtain ⟨h₁, h₂, h₃, h₄⟩ := hg.coordinators hq
    refine ⟨h₁, h₂, h₃, ?_⟩
    have hqp : q ≠ p := by
      rintro rfl
      exact hq hp
    funext r
    rw [State.tear_torn, ← h₄]
    simp [hqp]

end

/-! ### Every call -/

section

variable [DecidableEq Project] [DecidableEq Digest]

/-- A call that is carried out, one case per call. -/
theorem allowed_exec (hs : Inv s) {o : Call Project Digest} (h : Requires i o s) (ho : enabled i o s) :
    Allowed i s (exec i o s).2 := by
  cases o with
  | lockProject p =>
    by_cases hg : s.gone p = true
    · rw [exec, if_pos hg]
      exact Allowed.refl hs
    · rw [exec, if_neg hg]
      cases hp : s.projects p with
      | some j => exact Allowed.refl hs
      | none => exact allowed_lockProject hs hp
  | initOwner p => exact allowed_initOwner hs p
  | lockShared => exact allowed_lockShared hs ho
  | lockExclusive => exact allowed_lockExclusive hs ho
  | unlock => exact allowed_unlock hs
  | writeJournal j => exact allowed_writeJournal hs h
  | removeJournal => exact allowed_removeJournal hs h
  | readOwner p | look t | readJournal | treeMetadata d | verifyTree d | readCoordinator p | work =>
    rw [exec_of_isQuery rfl]
    exact Allowed.refl hs
  | readTree d => exact Allowed.refl hs
  | renameTree d =>
    rw [exec]
    cases hd : s.trees d with
    | some t => exact Allowed.refl hs
    | none => exact allowed_place hs h.1 hd fun j hj => (h.2 j hj).1
  | removeTree d => exact allowed_setTree hs h.1 h.2.1 h.2.2 (fun h => absurd h (by simp))
  | writeCoordinator p c => exact allowed_record hs h
  | removeCoordinator p => exact allowed_removeCoordinator hs h
  | deleteProject p => exact allowed_delete hs h

/-- A call that is not carried out. -/
theorem allowed_cut (hs : Inv s) {o : Call Project Digest} (h : Requires i o s) (c : Cut) :
    Allowed i s (cut i o c s) := by
  rcases cut_cases (i := i) o c s with hcut | ⟨hd, hcut⟩ | ⟨p, line, -, hcut⟩ | ⟨d, rfl, hd, hcut⟩
  · rw [hcut]
    exact Allowed.refl hs
  · rw [hcut]
    refine allowed_exec hs h ?_
    cases o <;> trivial
  · rw [hcut]
    exact allowed_setOwner hs p line
  · rw [hcut]
    exact allowed_setTree hs h.1 h.2.1 h.2.2 fun _ => hd

theorem allowed_fail (hs : Inv s) {o : Call Project Digest} (h : Requires i o s) (hb : ¬Blind o s) (c : Cut) :
    Allowed i s (fail i o c s) := by
  have hcut := allowed_cut hs h c
  rcases fail_cases (i := i) o c s with ⟨hfail, -⟩ | ⟨-, hblind⟩ | ⟨p, r, rfl, hr, hfail⟩
  · rw [hfail]
    exact hcut
  · exact absurd hblind hb
  · rw [hfail]
    obtain ⟨hp, -, h⟩ := h
    rw [hr] at h
    exact allowed_tear hcut hp h.1 _

/-- No lock of a project changes hands in a call that is not carried out. -/
theorem cut_projects (o : Call Project Digest) (c : Cut) : (cut i o c s).projects = s.projects := by
  rcases cut_cases (i := i) o c s with hcut | ⟨hd, hcut⟩ | ⟨p, line, -, hcut⟩ | ⟨d, -, -, hcut⟩
  · rw [hcut]
  · rw [hcut]
    cases o with
    | initOwner p | writeJournal j | removeJournal | removeTree d | removeCoordinator p => rfl
    | writeCoordinator p r =>
      rw [exec, State.record]
      split <;> rfl
    | _ => exact absurd hd (by simp [Call.durable])
  · rw [hcut]
    rfl
  · rw [hcut]
    rfl

theorem allowed_halt (hs : Inv s) {o : Call Project Digest} (h : Requires i o s) (c : Cut) :
    Allowed i s ((cut i o c s).release i) := by
  obtain ⟨hinv, hg⟩ := allowed_cut hs h c
  obtain ⟨hinv', hg'⟩ := allowed_release (i := i) hinv
  exact ⟨hinv', hg.trans hg' rfl (fun _ => unlock_loose_imp) (cut_locks o c s).1 (cut_projects o c) rfl⟩

end

end

/-- The processes when every look sees what is there. -/
def sighted [DecidableEq Project] [DecidableEq Digest] :
    System (@Reply Project Digest) Nat Error (State Project Digest) Cut := system.without Blind

/-- What the calls of the programs keep true. -/
def contract [DecidableEq Project] [DecidableEq Digest] : Contract (@sighted Project Digest _ _) where
  inv := Inv
  guarantee := Guarantee
  rely := Rely
  requires := Requires
  idle := Idle
  rely_refl := Rely.refl
  rely_trans := Rely.trans
  rely_of_guarantee hij hs _ h := rely_of_guarantee hij hs h
  exec_ok hs h ho := allowed_exec hs h ho
  cut_ok c hs h hmay := allowed_fail hs h hmay.2 c
  halt_ok c hs h := ⟨(allowed_halt hs h c).1, (allowed_halt hs h c).2, idle_release⟩
  release_ok hs := ⟨(allowed_release hs).1, (allowed_release hs).2, idle_release⟩
  guarantee_refl := Guarantee.refl
  idle_rely := by
    rintro i s t ⟨⟨he, hshared⟩, hp⟩ h
    refine ⟨⟨?_, ?_⟩, ?_⟩
    · rwa [ne_eq, h.exclusive]
    · rwa [h.shared]
    · intro p
      rw [ne_eq, h.projects]
      exact hp p

end Tapid.StoreProtocol
