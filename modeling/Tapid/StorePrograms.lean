/-
The programs over the shared store make every call where it is allowed.

A condition of a process that holds a lock is stable: the steps of the others do not
end it.  `Framed` conditions are left alone by the calls on trees, journal and locks
as well, so that the recovery of a journal can stand anywhere in a program.
-/
import Tapid.StoreIsolation

namespace Tapid.StoreProtocol

open Interrupted Interleaved
open Interleaved.Contract (Ends Spec)

variable {Project Digest : Type} {i : Nat}

/-! ### Conditions of a process -/

/-- All but trees, journal and locks of the store. -/
structure Beside (s t : State Project Digest) : Prop where
  projects : t.projects = s.projects
  gone : t.gone = s.gone
  coordinators : t.coordinators = s.coordinators
  origin : t.origin = s.origin
  committed : t.committed = s.committed
  nextOwner : t.nextOwner = s.nextOwner

theorem Beside.refl (s : State Project Digest) : Beside s s := ⟨rfl, rfl, rfl, rfl, rfl, rfl⟩

/-- The calls that only concern trees, journal and locks of the store. -/
def Call.aside : Call Project Digest → Bool
  | .lockProject _ | .initOwner _ | .renameTree _ | .writeCoordinator _ _ | .removeCoordinator _ | .deleteProject _ => false
  | _ => true

/-- The tree can be withdrawn by the process that has put it there, whole or not. -/
def Removable (i : Nat) (d : Digest) (s : State Project Digest) : Prop :=
  Withdrawable i d s ∧ (s.publisher = some i ∨ s.loose d = true)

/-- The trees `published` can be withdrawn by the process that has locked the store. -/
structure Dropping (i : Nat) (published : List Digest) (s : State Project Digest) : Prop where
  exclusive : s.exclusive = some i
  removable : ∀ d ∈ published, (s.trees d).isSome → Removable i d s

/-- What a journal lists as created is in place only if it is still to be removed. -/
structure Withdrawing (i : Nat) (published created rest : List Digest) (s : State Project Digest) : Prop
    extends Dropping i published s where
  left : ∀ d ∈ created, (s.trees d).isSome → d ∈ rest
  journal : ∀ j, s.journal = some j → j.created = created

theorem withdrawable_rely {s t : State Project Digest} {d : Digest} (hst : Rely i s t) (he : s.exclusive = some i)
    (h : Withdrawable i d s) : Withdrawable i d t := by
  have hstore := hst.store (Or.inl he)
  rcases h with hl | ⟨j, hj, hd, h⟩
  · left
    rwa [hstore.loose]
  · refine Or.inr ⟨j, by rwa [hstore.journal], hd, ?_⟩
    rcases h with hc | hg | ⟨htorn, hp⟩
    · exact Or.inl (by rwa [hstore.committed])
    · exact Or.inr (Or.inl (hst.gone hg))
    · exact Or.inr (Or.inr ⟨by rwa [hstore.torn], (hst.projects _).2 hp⟩)

theorem removable_rely {s t : State Project Digest} {d : Digest} (hst : Rely i s t) (he : s.exclusive = some i)
    (h : Removable i d s) : Removable i d t := by
  have hstore := hst.store (Or.inl he)
  refine ⟨withdrawable_rely hst he h.1, ?_⟩
  rw [hstore.publisher, hstore.loose]
  exact h.2

theorem Dropping.requires {s : State Project Digest} {published : List Digest} (h : Dropping i published s) {d : Digest}
    (hd : d ∈ published) : Requires i (.removeTree d) s := by
  refine ⟨h.exclusive, fun hsome => (h.removable d hd hsome).1, fun hb => (h.removable d hd ?_).2⟩
  rw [hb]
  rfl

/-- What reading the coordinator of `p` says about the transactions of `p`. -/
def Says (p : Project) (r : Found) (s : State Project Digest) : Prop :=
  match r with
  | .gone => s.gone p = true
  | .missing => True
  | .record c => c.committed = s.committed p c.owner

theorem says_found {s : State Project Digest} (hs : Inv s) (p : Project) : Says p (s.found p) s := by
  rw [State.found]
  by_cases hg : s.gone p = true
  · rw [if_pos hg]
    exact hg
  · rw [if_neg hg]
    cases hc : s.coordinators p with
    | none => trivial
    | some c => exact hs.decided hc

section

variable [DecidableEq Digest]

/-- The state behind a removal, of which nothing, a part or all has happened. -/
theorem dropping_setTree {s : State Project Digest} {published : List Digest} (h : Dropping i published s)
    {d : Digest} {t : Option Tree} (ht : t.isSome → (s.trees d).isSome) : Dropping i published (s.setTree d t) := by
  refine ⟨h.exclusive, ?_⟩
  intro e he hsome
  refine h.removable e he ?_
  by_cases hed : e = d
  · subst hed
    rw [State.setTree_trees, Function.update_self] at hsome
    exact ht hsome
  · rwa [State.setTree_trees, Function.update_of_ne hed] at hsome

theorem withdrawing_removed {s : State Project Digest} {published created rest : List Digest} {d : Digest}
    (h : Withdrawing i published created (d :: rest) s) : Withdrawing i published created rest (s.setTree d none) := by
  refine ⟨dropping_setTree h.toDropping (fun h => absurd h (by simp)), ?_, h.journal⟩
  intro e he hsome
  by_cases hed : e = d
  · rw [State.setTree_trees, hed, Function.update_self] at hsome
    exact absurd hsome (by simp)
  · rw [State.setTree_trees, Function.update_of_ne hed] at hsome
    rcases List.mem_cons.1 (h.left e he hsome) with heq | hmem
    · exact absurd heq hed
    · exact hmem

end

variable [DecidableEq Project] [DecidableEq Digest]

theorem beside_exec {o : Call Project Digest} (ho : o.aside = true) (s : State Project Digest) :
    Beside s (exec i o s).2 := by
  cases o with
  | lockProject p | initOwner p | renameTree d | writeCoordinator p c | removeCoordinator p | deleteProject p =>
    exact absurd ho (by simp [Call.aside])
  | readOwner p | readJournal | verifyTree d =>
    rw [exec_of_isQuery rfl]
    exact Beside.refl s
  | _ => exact ⟨rfl, rfl, rfl, rfl, rfl, rfl⟩

theorem beside_cut {o : Call Project Digest} (ho : o.aside = true) (c : Cut) (s : State Project Digest) :
    Beside s (cut i o c s) := by
  rcases cut_cases (i := i) o c s with h | ⟨-, h⟩ | ⟨p, line, rfl, -⟩ | ⟨d, -, -, h⟩
  · rw [h]
    exact Beside.refl s
  · rw [h]
    exact beside_exec ho s
  · exact absurd ho (by simp [Call.aside])
  · rw [h]
    exact ⟨rfl, rfl, rfl, rfl, rfl, rfl⟩

/-- Where every look sees what is there, a failed call on trees, journal and locks
leaves nothing but what has reached the disk. -/
theorem fail_aside {o : Call Project Digest} (ho : o.aside = true) {s : State Project Digest} (hb : ¬Blind o s)
    (c : Cut) : fail i o c s = cut i o c s := by
  refine fail_eq_cut hb ?_ c
  rintro p r rfl
  exact absurd ho (by simp [Call.aside])

/-- A condition that neither the others nor calls on trees, journal and locks end. -/
structure Framed (i : Nat) (F : State Project Digest → Prop) : Prop where
  stable : contract.Stable i F
  beside {s t} : Beside s t → F s → F t

theorem framed_true : Framed i (fun _ : State Project Digest => True) :=
  ⟨fun _ _ _ _ _ => trivial, fun _ _ => trivial⟩

/-- The rule for a call on trees, journal and locks. -/
theorem spec_aside {F G E : State Project Digest → Prop} {o : Call Project Digest} {Q : Reply o → State Project Digest → Prop}
    (hF : Framed i F) (ho : o.aside = true) (hG : contract.Stable i G)
    (hreq : ∀ s, Inv s → F s → G s → Requires i o s)
    (hdone : ∀ s, Inv s → F s → G s → enabled i o s → Ends Q E (exec i o s).1 (exec i o s).2)
    (hfail : ∀ s, Inv s → F s → G s → ∀ c, E (cut i o c s)) :
    contract.Spec i (fun s => F s ∧ G s) (call o) (fun a s => F s ∧ Q a s) (fun s => F s ∧ E s) := by
  refine Spec.attempt (hF.stable.and hG) (fun s hs h => hreq s hs h.1 h.2) ?_ ?_
  · intro s hs h hen
    have hdone' := hdone s hs h.1 h.2 hen
    have hF' := hF.beside (beside_exec (i := i) ho s) h.1
    change Ends (fun a t => F t ∧ Q a t) (fun t => F t ∧ E t) (exec i o s).1 (exec i o s).2
    revert hdone'
    cases (exec i o s).1 with
    | ok a => exact fun h => ⟨hF', h⟩
    | error e => exact fun h => ⟨hF', h⟩
  · intro s hs h hmay c
    change F (fail i o c s) ∧ E (fail i o c s)
    rw [fail_aside ho hmay.2]
    exact ⟨hF.beside (beside_cut ho c s) h.1, hfail s hs h.1 h.2 c⟩

/-- The same where nothing is left to say about an error. -/
theorem spec_aside' {F G : State Project Digest → Prop} {o : Call Project Digest} {Q : Reply o → State Project Digest → Prop}
    (hF : Framed i F) (ho : o.aside = true) (hG : contract.Stable i G)
    (hreq : ∀ s, Inv s → F s → G s → Requires i o s)
    (hdone : ∀ s, Inv s → F s → G s → enabled i o s →
      Ends Q (fun _ => True) (exec i o s).1 (exec i o s).2) :
    contract.Spec i (fun s => F s ∧ G s) (call o) (fun a s => F s ∧ Q a s) F :=
  (spec_aside hF ho hG hreq hdone fun _ _ _ _ _ => trivial).conseq (fun _ _ h => h) (fun _ _ h => h) fun _ h => h.1

theorem stable_free : contract.Stable i (@Free Project Digest i) := by
  rintro s t _ hst ⟨he, hshared⟩
  exact ⟨by rwa [ne_eq, hst.exclusive], hst.shared.trans hshared⟩

/-- A lock is dropped, and that cannot fail. -/
theorem unlock_spec {F G H E : State Project Digest → Prop} (hF : Framed i F) (hG : contract.Stable i G)
    (hH : ∀ s, Inv s → F s → G s → H (s.unlock i)) :
    contract.Spec i (fun s => F s ∧ G s) (call .unlock) (fun _ s => (F s ∧ Free i s) ∧ H s) E := by
  refine Spec.attempt (hF.stable.and hG) (fun _ _ _ => trivial) ?_ ?_
  · intro s hs h _
    exact ⟨⟨hF.beside (beside_exec (i := i) (o := .unlock) rfl s) h.1, free_unlock i s⟩, hH s hs h.1 h.2⟩
  · exact fun _ _ _ hmay => absurd hmay.1 (by simp [system, Call.mayFail])

theorem unlock_framed {F E : State Project Digest → Prop} (hF : Framed i F) :
    contract.Spec i F (call .unlock) (fun _ s => F s ∧ Free i s) E := by
  refine (unlock_spec (G := fun _ => True) (H := fun _ => True) hF (fun _ _ _ _ _ => trivial) ?_).conseq
    (fun _ _ h => ⟨h, trivial⟩) (fun _ _ h => h.1) fun _ h => h
  exact fun _ _ _ _ => trivial

omit [DecidableEq Project] [DecidableEq Digest] in
theorem requires_of_isQuery {o : Call Project Digest} (ho : o.isQuery = true) (s : State Project Digest) :
    Requires i o s := by
  cases o <;> trivial

theorem fail_of_isQuery {o : Call Project Digest} (ho : o.isQuery = true) {s : State Project Digest} (hb : ¬Blind o s)
    (c : Cut) : fail i o c s = s := by
  cases o with
  | look t | readOwner p | readJournal | treeMetadata d | verifyTree d | readCoordinator p | work =>
    refine (fail_eq_cut hb (by simp) c).trans ?_
    cases c <;> rfl
  | _ => exact absurd ho (by simp [Call.isQuery])

/-- The rule for a call that only looks. -/
theorem spec_query {P : State Project Digest → Prop} {o : Call Project Digest} {Q : Reply o → State Project Digest → Prop}
    (hP : contract.Stable i P) (ho : o.isQuery = true)
    (hQ : ∀ s, Inv s → P s → ∀ a, (exec i o s).1 = .ok a → Q a s) : contract.Spec i P (call o) Q P := by
  refine Spec.attempt hP (fun s _ _ => requires_of_isQuery ho s) ?_ ?_
  · intro s hs h _
    change Ends Q P (exec i o s).1 (exec i o s).2
    rw [exec_of_isQuery ho]
    cases ha : (exec i o s).1 with
    | ok a => exact hQ s hs h a ha
    | error e => exact h
  · intro s _ h hmay c
    change P (fail i o c s)
    rwa [fail_of_isQuery ho hmay.2]

/-- `Path::exists`, whether or not it fails. -/
theorem pathExists_spec {P E : State Project Digest → Prop} (hP : contract.Stable i P) (t : Target Digest) :
    contract.Spec i P (pathExists t) (fun b s => P s ∧ s.has t = b) E := by
  rw [pathExists]
  refine Spec.tryCatch (S := fun s => P s ∧ s.has t = false) ?_ fun _ => Spec.return fun _ _ h => h
  refine Spec.attempt hP (fun _ _ _ => trivial) (fun s _ h _ => ⟨h, rfl⟩) ?_
  rintro s _ h ⟨-, hb⟩ c
  have ht : s.has t = false := Bool.eq_false_iff.2 fun ht => hb ⟨t, rfl, ht⟩
  change P (fail i (.look t) c s) ∧ (fail i (.look t) c s).has t = false
  rw [fail_of_isQuery rfl hb]
  exact ⟨h, ht⟩

omit [DecidableEq Project] [DecidableEq Digest] in
theorem trees_none_of_has {s : State Project Digest} {d : Digest} (h : s.has (.tree d) = false) : s.trees d = none :=
  Option.isNone_iff_eq_none.1 (Option.isSome_eq_false_iff.1 h)

omit [DecidableEq Project] [DecidableEq Digest] in
theorem journal_none_of_has {s : State Project Digest} (h : s.has .journal = false) : s.journal = none :=
  Option.isNone_iff_eq_none.1 (Option.isSome_eq_false_iff.1 h)

theorem spec_work {P : State Project Digest → Prop} (hP : contract.Stable i P) :
    contract.Spec i P (call .work) (fun _ => P) P :=
  spec_query hP rfl fun _ _ h _ _ => h

/-- What depends on the store alone is stable under the exclusive lock. -/
theorem stable_exclusive {G : State Project Digest → Prop} (hG : ∀ {s t}, SameStore s t → G s → G t) :
    contract.Stable i fun s => s.exclusive = some i ∧ G s := by
  rintro s t _ hst ⟨he, hg⟩
  exact ⟨hst.exclusive.2 he, hG (hst.store (Or.inl he)) hg⟩

/-! ### Removal of trees -/

theorem stable_dropping (published : List Digest) :
    contract.Stable i (@Dropping Project _ i published) := by
  intro s t _ hst h
  refine ⟨hst.exclusive.2 h.exclusive, ?_⟩
  intro d hd ht
  rw [(hst.store (Or.inl h.exclusive)).trees] at ht
  exact removable_rely hst h.exclusive (h.removable d hd ht)

theorem stable_withdrawing (published created rest : List Digest) :
    contract.Stable i (@Withdrawing Project _ i published created rest) := by
  intro s t ht hst h
  have hstore := hst.store (Or.inl h.exclusive)
  refine ⟨stable_dropping published ht hst h.toDropping, ?_, ?_⟩
  · rw [hstore.trees]
    exact h.left
  · rw [hstore.journal]
    exact h.journal

theorem dropping_cut {s : State Project Digest} {published : List Digest} (h : Dropping i published s) (d : Digest)
    (c : Cut) : Dropping i published (cut i (.removeTree d) c s) := by
  cases c with
  | untouched | emptied => exact h
  | carried => exact dropping_setTree h (fun h => absurd h (by simp))
  | partly =>
    rw [cut]
    split
    next hd => exact dropping_setTree h fun _ => hd
    · exact h

variable {F : State Project Digest → Prop}

/-- The next tree is removed; on an error everything can still be withdrawn. -/
theorem removeTree_spec (hF : Framed i F) {published created rest : List Digest} {d : Digest} (hd : d ∈ published) :
    contract.Spec i (fun s => F s ∧ Withdrawing i published created (d :: rest) s) (call (.removeTree d))
      (fun _ s => F s ∧ Withdrawing i published created rest s) (fun s => F s ∧ Dropping i published s) :=
  spec_aside hF rfl (stable_withdrawing _ _ _) (fun _ _ _ h => h.requires hd)
    (fun _ _ _ h _ => withdrawing_removed h) fun _ _ _ h c => dropping_cut h.toDropping d c

theorem removeTrees_spec (hF : Framed i F) {published created : List Digest} (rest : List Digest)
    (hrest : rest ⊆ published) :
    contract.Spec i (fun s => F s ∧ Withdrawing i published created rest s) (removeTrees rest)
      (fun _ s => F s ∧ Withdrawing i published created [] s) (fun s => F s ∧ Dropping i published s) := by
  induction rest with
  | nil => exact Spec.return fun _ _ h => h
  | cons d rest ih =>
    rw [removeTrees]
    refine (removeTree_spec hF (hrest List.mem_cons_self)).bind fun _ => ih ?_
    exact fun e he => hrest (List.mem_cons_of_mem _ he)

theorem ignored_removeTree_spec {E : State Project Digest → Prop} (hF : Framed i F) {published : List Digest}
    {d : Digest} (hd : d ∈ published) :
    contract.Spec i (fun s => F s ∧ Dropping i published s) (ignored (call (.removeTree d)))
      (fun _ s => F s ∧ Dropping i published s) E := by
  refine Spec.ignored (spec_aside hF rfl (stable_dropping _) (fun _ _ _ h => h.requires hd) ?_ ?_)
  · intro s _ _ h _
    exact dropping_setTree h (fun h => absurd h (by simp))
  · intro s _ _ h c
    exact dropping_cut h d c

/-- Whatever the removals come to, everything can still be withdrawn. -/
theorem removeEach_dropping (hF : Framed i F) {published : List Digest} (rest : List Digest)
    (hrest : rest ⊆ published) :
    contract.Spec i (fun s => F s ∧ Dropping i published s) (removeEach rest)
      (fun _ s => F s ∧ Dropping i published s) (fun s => F s ∧ Dropping i published s) := by
  induction rest with
  | nil => exact Spec.return fun _ _ h => h
  | cons d rest ih =>
    have ih := ih fun e he => hrest (List.mem_cons_of_mem _ he)
    have hd : d ∈ published := hrest List.mem_cons_self
    rw [removeEach]
    refine Spec.bind (Spec.onError ?_ (Spec.ignored ih)) fun _ => ih
    refine spec_aside hF rfl (stable_dropping _) (fun _ _ _ h => h.requires hd) ?_ ?_
    · intro s _ _ h _
      exact dropping_setTree h (fun h => absurd h (by simp))
    · intro s _ _ h c
      exact dropping_cut h d c

theorem removeEach_spec (hF : Framed i F) {published created : List Digest} (rest : List Digest)
    (hrest : rest ⊆ published) :
    contract.Spec i (fun s => F s ∧ Withdrawing i published created rest s) (removeEach rest)
      (fun _ s => F s ∧ Withdrawing i published created [] s) (fun s => F s ∧ Dropping i published s) := by
  induction rest with
  | nil => exact Spec.return fun _ _ h => h
  | cons d rest ih =>
    have htail : rest ⊆ published := fun e he => hrest (List.mem_cons_of_mem _ he)
    rw [removeEach]
    refine Spec.bind (Spec.onError (removeTree_spec hF (hrest List.mem_cons_self)) ?_) fun _ => ih htail
    exact Spec.ignored (removeEach_dropping hF rest htail)

/-- `StorePublication::drop` -/
theorem dropPublication_spec (hF : Framed i F) {published : List Digest} (rest : List Digest)
    (hrest : rest ⊆ published) :
    contract.Spec i (fun s => F s ∧ Dropping i published s) (dropPublication rest)
      (fun _ s => F s ∧ Free i s) (fun s => F s ∧ Free i s) := by
  induction rest with
  | nil =>
    exact (unlock_framed hF).pre fun _ _ h => h.1
  | cons d rest ih =>
    rw [dropPublication]
    refine (ignored_removeTree_spec hF (hrest List.mem_cons_self)).bind fun _ => ih ?_
    exact fun e he => hrest (List.mem_cons_of_mem _ he)

/-- The journal of trees that are gone is removed. -/
theorem removeJournal_spec (hF : Framed i F) {published created : List Digest} (hpub : published ⊆ created) :
    contract.Spec i (fun s => F s ∧ Withdrawing i published created [] s) (call .removeJournal)
      (fun _ s => F s ∧ s.exclusive = some i ∧ s.journal = none) (fun s => F s ∧ Dropping i published s) := by
  have hnone : ∀ s : State Project Digest, Withdrawing i published created [] s → ∀ d ∈ created, s.trees d = none := by
    intro s h d hd
    by_contra hne
    exact absurd (h.left d hd (Option.isSome_iff_ne_none.2 hne)) (by simp)
  have hdrop : ∀ s t : State Project Digest, Withdrawing i published created [] s → t.trees = s.trees →
      t.exclusive = s.exclusive → Dropping i published t := by
    intro s t h ht he
    refine ⟨he.trans h.exclusive, fun d hd hsome => ?_⟩
    rw [ht, hnone s h d (hpub hd)] at hsome
    exact absurd hsome (by simp)
  refine spec_aside hF rfl (stable_withdrawing _ _ _) ?_ ?_ ?_
  · intro s _ _ h
    refine ⟨h.exclusive, fun j hj => Or.inr ?_⟩
    rw [h.journal j hj]
    exact hnone s h
  · intro s _ _ h _
    exact ⟨h.exclusive, rfl⟩
  · intro s _ _ h c
    cases c with
    | untouched | emptied | partly => exact h.toDropping
    | carried => exact hdrop s _ h rfl rfl

/-! ### Recovery -/

/-- The process that has locked the store has read this journal. -/
def Pending (i : Nat) (j : Journal Project Digest) (s : State Project Digest) : Prop :=
  s.exclusive = some i ∧ s.journal = some j

theorem stable_pending (j : Journal Project Digest) : contract.Stable i (Pending i j) :=
  stable_exclusive fun hst h => hst.journal.trans h

/-- The coordinator of the journal says what its transaction has come to. -/
theorem decision_spec (hF : Framed i F) (j : Journal Project Digest) :
    contract.Spec i (fun s => F s ∧ Pending i j s) (decision j)
      (fun b s => F s ∧ Pending i j s ∧
        if b then s.committed j.project j.owner = true
        else s.committed j.project j.owner = false ∨ s.gone j.project = true) F := by
  rw [decision]
  have hread : contract.Spec i (fun s => F s ∧ Pending i j s) (call (.readCoordinator j.project))
      (fun r s => F s ∧ Pending i j s ∧ Says j.project r s) (fun s => F s ∧ Pending i j s) := by
    refine spec_query (hF.stable.and (stable_pending j)) rfl ?_
    rintro s hs ⟨hf, h⟩ _ ⟨⟩
    exact ⟨hf, h, says_found hs j.project⟩
  refine Spec.bind (hread.conseq (fun _ _ h => h) (fun _ _ h => h) fun _ h => h.1) ?_
  · rintro (_ | _ | c)
    · exact Spec.return fun s _ h => ⟨h.1, h.2.1, Or.inr h.2.2⟩
    · exact Spec.throw fun s _ h => h.1
    · show contract.Spec i _ (if c.owner = j.owner then _ else _) _ _
      by_cases ho : c.owner = j.owner
      · rw [if_pos ho]
        refine Spec.return fun s _ h => ⟨h.1, h.2.1, ?_⟩
        have hc : c.committed = s.committed j.project j.owner := by rw [h.2.2, ho]
        cases hb : c.committed with
        | true => exact hc.symm.trans hb
        | false => exact Or.inl (hc.symm.trans hb)
      · rw [if_neg ho]
        exact Spec.throw fun s _ h => h.1

/-- Recovery has read that the journal's transaction is not committed; what it lists is
in place only if it is still to be removed. -/
structure Recovering (i : Nat) (j : Journal Project Digest) (rest : List Digest) (s : State Project Digest) : Prop where
  pending : Pending i j s
  undecided : s.committed j.project j.owner = false ∨ s.gone j.project = true
  left : ∀ d ∈ j.created, (s.trees d).isSome → d ∈ rest

theorem stable_recovering (j : Journal Project Digest) (rest : List Digest) : contract.Stable i (Recovering i j rest) := by
  intro s t ht hst h
  have hstore := hst.store (Or.inl h.pending.1)
  refine ⟨stable_pending j ht hst h.pending, ?_, ?_⟩
  · rcases h.undecided with hc | hg
    · exact Or.inl (by rwa [hstore.committed])
    · exact Or.inr (hst.gone hg)
  · rw [hstore.trees]
    exact h.left

/-- A tree is only removed when it has been found whole. -/
theorem withdrawTree_spec (hF : Framed i F) {j : Journal Project Digest} {rest : List Digest} {d : Digest}
    (hd : d ∈ j.created) :
    contract.Spec i (fun s => F s ∧ Recovering i j (d :: rest) s) (withdrawTree d)
      (fun _ s => F s ∧ Recovering i j rest s) F := by
  have hrest : ∀ s : State Project Digest, Recovering i j (d :: rest) s → ∀ e ∈ j.created, (s.trees e).isSome → e ≠ d → e ∈ rest :=
    fun s h e he hsome hed => (List.mem_cons.1 (h.left e he hsome)).resolve_left hed
  have hstable := hF.stable.and (stable_recovering (i := i) j (d :: rest))
  have hwhole : contract.Stable i fun s : State Project Digest => Recovering i j (d :: rest) s ∧ s.trees d ≠ some .broken := by
    rintro s t ht hst ⟨h, hb⟩
    refine ⟨stable_recovering j _ ht hst h, ?_⟩
    rw [(hst.store (Or.inl h.pending.1)).trees]
    exact hb
  rw [withdrawTree]
  refine Spec.bind (R := fun b s => F s ∧ Recovering i j (d :: rest) s ∧ (b = false → s.trees d = none)) ?_ ?_
  · refine (spec_query hstable rfl ?_).conseq (fun _ _ h => h) (fun _ _ h => h) fun _ h => h.1
    rintro s _ ⟨hf, h⟩ _ ⟨⟩
    exact ⟨hf, h, fun hb => Option.isNone_iff_eq_none.1 (Option.isSome_eq_false_iff.1 hb)⟩
  · rintro (_ | _)
    · refine Spec.return fun s _ h => ⟨h.1, h.2.1.pending, h.2.1.undecided, fun e he hsome => hrest s h.2.1 e he hsome ?_⟩
      rintro rfl
      rw [h.2.2 rfl] at hsome
      exact absurd hsome (by simp)
    · refine Spec.bind (R := fun _ s => F s ∧ Recovering i j (d :: rest) s ∧ s.trees d ≠ some .broken) ?_ fun _ => ?_
      · refine (spec_query hstable rfl ?_).conseq (fun _ _ h => ⟨h.1, h.2.1⟩) (fun _ _ h => h) fun _ h => h.1
        intro s _ h _ hok
        refine ⟨h.1, h.2, fun hb => ?_⟩
        rw [exec, hb] at hok
        exact absurd hok (by simp)
      · refine spec_aside' hF rfl hwhole ?_ ?_
        · rintro s _ _ ⟨h, hb⟩
          refine ⟨h.pending.1, fun _ => Or.inr ⟨j, h.pending.2, hd, ?_⟩, fun hbroken => absurd hbroken hb⟩
          rcases h.undecided with hc | hg
          · exact Or.inl hc
          · exact Or.inr (Or.inl hg)
        · rintro s _ _ ⟨h, -⟩ _
          refine ⟨h.pending, h.undecided, fun e he hsome => ?_⟩
          change ((s.setTree d none).trees e).isSome at hsome
          by_cases hed : e = d
          · rw [State.setTree_trees, hed, Function.update_self] at hsome
            exact absurd hsome (by simp)
          · rw [State.setTree_trees, Function.update_of_ne hed] at hsome
            exact hrest s h e he hsome hed

theorem withdrawTrees_spec (hF : Framed i F) {j : Journal Project Digest} (rest : List Digest) (hrest : rest ⊆ j.created) :
    contract.Spec i (fun s => F s ∧ Recovering i j rest s) (withdrawTrees rest)
      (fun _ s => F s ∧ Recovering i j [] s) F := by
  induction rest with
  | nil => exact Spec.return fun _ _ h => h
  | cons d rest ih =>
    rw [withdrawTrees]
    refine (withdrawTree_spec hF (hrest List.mem_cons_self)).bind fun _ => ih ?_
    exact fun e he => hrest (List.mem_cons_of_mem _ he)

/-- Only a journal that is not too long is read. -/
theorem journal_of_read {s : State Project Digest} {r : Option (Journal Project Digest)}
    (h : (exec i .readJournal s).1 = .ok r) : s.journal = r := by
  rw [exec] at h
  cases hj : s.journal with
  | none =>
    rw [hj] at h
    exact Except.ok.inj h
  | some j =>
    simp only [hj] at h
    split at h
    · exact absurd h (by simp)
    · exact Except.ok.inj h

/-- `recover_store_journal` leaves no journal or returns an error. -/
theorem recoverStoreJournal_spec (hF : Framed i F) :
    contract.Spec i (fun s => F s ∧ s.exclusive = some i) recoverStoreJournal
      (fun _ s => F s ∧ s.exclusive = some i ∧ s.journal = none) F := by
  rw [recoverStoreJournal]
  refine Spec.bind (R := fun r s => F s ∧ s.exclusive = some i ∧ s.journal = r) ?_ ?_
  · refine (spec_query (hF.stable.and fun _ _ _ hst h => hst.exclusive.2 h) rfl ?_).conseq (fun _ _ h => h)
      (fun _ _ h => h) fun _ h => h.1
    exact fun s _ h r hr => ⟨h.1, h.2, journal_of_read hr⟩
  rintro (_ | j)
  · exact Spec.return fun _ _ h => h
  · refine (decision_spec hF j).bind ?_
    rintro (_ | _)
    · refine Spec.bind (R := fun _ s => F s ∧ Recovering i j [] s) ?_ fun _ =>
        Spec.bind (R := fun _ s => F s ∧ Recovering i j [] s) ?_ fun _ => ?_
      · refine (withdrawTrees_spec hF j.created (List.Subset.refl _)).pre ?_
        exact fun s _ h => ⟨h.1, h.2.1, h.2.2, fun d hd _ => hd⟩
      · refine (spec_work (hF.stable.and (stable_recovering _ _))).conseq (fun _ _ h => h) (fun _ _ h => h) ?_
        exact fun _ h => h.1
      · refine spec_aside' hF rfl (stable_recovering j []) ?_ fun s _ _ h _ => ⟨h.pending.1, rfl⟩
        intro s _ _ h
        refine ⟨h.pending.1, fun k hk => Or.inr fun d hd => ?_⟩
        rw [h.pending.2] at hk
        rw [← Option.some.inj hk] at hd
        by_contra hne
        exact absurd (h.left d hd (Option.isSome_iff_ne_none.2 hne)) (by simp)
    · -- a committed transaction keeps its trees
      refine (spec_aside' (G := fun s => s.exclusive = some i ∧ s.journal = some j ∧ s.committed j.project j.owner = true)
        hF rfl (stable_exclusive fun hst h => ⟨hst.journal.trans h.1, by rw [hst.committed]; exact h.2⟩) ?_ ?_).pre ?_
      · rintro s _ _ ⟨he, hj, hc⟩
        refine ⟨he, fun k hk => Or.inl ?_⟩
        rw [hj] at hk
        rw [← Option.some.inj hk]
        exact hc
      · intro s _ _ h _
        exact ⟨h.1, rfl⟩
      · rintro s _ ⟨hf, ⟨he, hj⟩, hc⟩
        exact ⟨hf, he, hj, hc⟩

theorem lockFile_spec (hF : Framed i F) :
    contract.Spec i (fun s => F s ∧ Free i s) lockFile (fun _ s => F s ∧ s.exclusive = some i ∧ s.journal = none)
      (fun s => F s ∧ Free i s) := by
  rw [lockFile]
  refine Spec.bind (R := fun _ s => F s ∧ s.exclusive = some i) ?_ fun _ => ?_
  · refine spec_aside hF rfl stable_free (fun _ _ _ h => h) (fun _ _ _ _ _ => rfl) ?_
    intro s _ _ h c
    cases c <;> exact h
  · exact Spec.onError (recoverStoreJournal_spec hF) (unlock_framed hF)

/-- After a recovery, what a store without a journal makes true is true. -/
theorem recoverTransactions_spec {G : State Project Digest → Prop} (hF : Framed i F)
    (hG : ∀ s : State Project Digest, s.journal = none → G (s.unlock i)) :
    contract.Spec i (fun s => F s ∧ Free i s) recoverTransactions (fun _ s => (F s ∧ Free i s) ∧ G s)
      (fun s => F s ∧ Free i s) := by
  rw [recoverTransactions]
  refine (lockFile_spec hF).bind fun _ => ?_
  refine unlock_spec (G := fun s => s.exclusive = some i ∧ s.journal = none) hF
    (stable_exclusive fun hst h => hst.journal.trans h) ?_
  exact fun s _ _ h => hG s h.2

/-! ### Readers -/

/-- What a read guard stands for. -/
def Guarded (i : Nat) (s : State Project Digest) : Prop := s.shared i = true ∧ s.journal = none

theorem stable_guarded : contract.Stable i (@Guarded Project Digest i) := by
  rintro s t _ hst ⟨hs, hj⟩
  exact ⟨hst.shared.trans hs, (hst.store (Or.inr hs)).journal.trans hj⟩

/-- `lock_file` for the shared lock; what `F` says is kept through any number of rounds. -/
theorem readGuard_spec (hF : Framed i F) (rounds : Nat) :
    contract.Spec i (fun s => F s ∧ Free i s) (readGuard rounds) (fun _ s => F s ∧ Guarded i s)
      (fun s => F s ∧ Free i s) := by
  have hshared : contract.Stable i fun s : State Project Digest => F s ∧ s.shared i = true :=
    hF.stable.and fun _ _ _ hst h => hst.shared.trans h
  induction rounds with
  | zero => exact Spec.throw fun _ _ h => h
  | succ rounds ih =>
    rw [readGuard]
    refine Spec.bind (R := fun _ s => F s ∧ s.shared i = true) ?_ fun _ => ?_
    · refine spec_aside hF rfl stable_free (fun _ _ _ h => h) (fun _ _ _ _ _ => Function.update_self _ _ _) ?_
      intro s _ _ h c
      cases c <;> exact h
    · refine Spec.bind (pathExists_spec hshared .journal) ?_
      rintro (_ | _)
      · exact Spec.return fun s _ h => ⟨h.1.1, h.1.2, journal_none_of_has h.2⟩
      · -- a journal is recovered before the next round
        refine Spec.bind ((unlock_framed hF).pre fun _ _ h => h.1.1) fun _ => (lockFile_spec hF).bind fun _ => ?_
        exact Spec.bind ((unlock_framed hF).pre fun _ _ h => h.1) fun _ => ih

/-- The calls under a read guard find no journal. -/
theorem use_spec (hF : Framed i F) (r : Reader Project Digest) :
    contract.Spec i (fun s => F s ∧ Guarded i s) r.use (fun _ => F) F := by
  have huse : contract.Triple i (fun s => F s ∧ Guarded i s) r.use.run fun _ s => F s ∧ Guarded i s := by
    refine Contract.triple_of_only (hF.stable.and stable_guarded) ?_ ?_ ?_ r.reads
    · intro o s ho _ h
      cases o with
      | readTree d => exact h.2
      | work => trivial
      | _ => exact ho.elim
    · intro o s ho _ h
      cases o with
      | readTree d | work => exact h
      | _ => exact ho.elim
    · intro o s c ho _ h
      cases o with
      | readTree d | work => cases c <;> exact h
      | _ => exact ho.elim
  refine huse.conseq (fun _ _ h => h) ?_
  rintro (e | a) s h
  · exact h.1
  · exact h.1

theorem reading_spec (hF : Framed i F) (r : Reader Project Digest) :
    contract.Spec i (fun s => F s ∧ Free i s) (reading r) (fun _ s => F s ∧ Free i s) (fun s => F s ∧ Free i s) := by
  rw [reading]
  exact (readGuard_spec hF r.rounds).bind fun _ =>
    Spec.bind (Spec.onError (use_spec hF r) (unlock_framed hF)) fun _ => unlock_framed hF

/-- A use of the store begins and ends with the store unlocked. -/
theorem useStore_spec (hF : Framed i F) (u : StoreUse Project Digest) :
    contract.Spec i (fun s => F s ∧ Free i s) (useStore u) (fun _ s => F s ∧ Free i s) (fun s => F s ∧ Free i s) := by
  cases u with
  | snapshot r => exact reading_spec hF r
  | lookup r => exact Spec.ignored (reading_spec hF r)
  | exclusive =>
    rw [useStore]
    refine (lockFile_spec hF).bind fun _ => Spec.bind (R := fun _ => F) ?_ fun _ => unlock_framed hF
    exact (Spec.onError (spec_work hF.stable) (unlock_framed hF)).pre fun _ _ h => h.1

theorem useStoreAll_spec (hF : Framed i F) (us : List (StoreUse Project Digest)) :
    contract.Spec i (fun s => F s ∧ Free i s) (useStoreAll us) (fun _ s => F s ∧ Free i s)
      (fun s => F s ∧ Free i s) := by
  induction us with
  | nil => exact Spec.return fun _ _ h => h
  | cons u us ih =>
    rw [useStoreAll]
    exact (useStore_spec hF u).bind fun _ => (spec_work (hF.stable.and stable_free)).bind fun _ => ih

end Tapid.StoreProtocol
