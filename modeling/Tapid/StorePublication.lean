/-
Publications into the shared store.

`Publishing` is the condition of a process that has locked the store and put some of
its trees in place: what its journal lists is absent or can be withdrawn, and what
its transaction has put in place is whole, which is what the commit decision needs.

* `Publishing.withdrawing`, `Publishing.place` — what follows, and one step;
* `newDigests_spec`, `writeStoreJournal_spec`, `placeTrees_spec` — the parts;
* `publishInner_spec` — the publication.
-/
import Tapid.StorePrograms

namespace Tapid.StoreProtocol

open Interrupted Interleaved
open Interleaved.Contract (Ends Spec)

variable {Project Digest : Type} {i : Nat}

/-! ### The project's side -/

/-- The process has locked a project whose directory is there. -/
def Holding (i : Nat) (p : Project) (s : State Project Digest) : Prop := s.projects p = some i ∧ s.gone p = false

/-- ... and this is its lifecycle journal. -/
def Recorded (i : Nat) (p : Project) (c : Option Coordinator) (s : State Project Digest) : Prop :=
  Holding i p s ∧ s.coordinators p = c

/-- No tree comes from the transaction. -/
def Fresh (p : Project) (owner : Nat) (s : State Project Digest) : Prop := ∀ d, s.origin d ≠ some (p, owner)

/-- A transaction before its publication. -/
def Begun (i : Nat) (p : Project) (owner : Nat) (c : Option Coordinator) (s : State Project Digest) : Prop :=
  Recorded i p c s ∧ Fresh p owner s ∧ s.committed p owner = false ∧ owner < s.nextOwner

/-- The prepared transaction of a publication that has one. -/
def Prepared (i : Nat) (x : Option (Project × Nat)) (s : State Project Digest) : Prop :=
  ∀ p owner, x = some (p, owner) → Recorded i p (some ⟨owner, false, true⟩) s

theorem holding_rely {s t : State Project Digest} {p : Project} (hst : Rely i s t) (h : Holding i p s) :
    Holding i p t :=
  ⟨(hst.projects p).2 h.1, (hst.coordinators h.1).2.1.trans h.2⟩

theorem recorded_rely {s t : State Project Digest} {p : Project} {c : Option Coordinator} (hst : Rely i s t)
    (h : Recorded i p c s) : Recorded i p c t :=
  ⟨holding_rely hst h.1, (hst.coordinators h.1.1).1.trans h.2⟩

theorem fresh_rely {s t : State Project Digest} {p : Project} {owner : Nat} (hst : Rely i s t) (hp : Holding i p s)
    (h : Fresh p owner s) : Fresh p owner t := fun d ho => h d (hst.origins hp.1 ho)

theorem holding_beside {s t : State Project Digest} {p : Project} (hst : Beside s t) (h : Holding i p s) :
    Holding i p t :=
  ⟨by rw [hst.projects]; exact h.1, by rw [hst.gone]; exact h.2⟩

theorem recorded_beside {s t : State Project Digest} {p : Project} {c : Option Coordinator} (hst : Beside s t)
    (h : Recorded i p c s) : Recorded i p c t :=
  ⟨holding_beside hst h.1, by rw [hst.coordinators]; exact h.2⟩

/-- The store journal is not one of a project without the record of a store. -/
theorem apart_of_recorded {s : State Project Digest} (hs : Inv s) {p : Project} {c : Option Coordinator}
    (h : Recorded i p c s) (hc : ∀ r, c = some r → r.storeRoot = false) : Apart p s := by
  rintro j hj rfl
  rcases hs.coordinated hj with hg | ⟨r, hr, -, hroot⟩
  · rw [h.1.2] at hg
    exact absurd hg (by simp)
  · rw [h.2] at hr
    rw [hc r hr] at hroot
    exact absurd hroot (by simp)

section

variable [DecidableEq Project] [DecidableEq Digest]

theorem framed_holding (p : Project) : Framed i (@Holding _ Digest i p) :=
  ⟨fun _ _ _ hst h => holding_rely hst h, fun hst h => holding_beside hst h⟩

theorem framed_begun (p : Project) (owner : Nat) (c : Option Coordinator) :
    Framed i (@Begun _ Digest i p owner c) := by
  refine ⟨?_, ?_⟩
  · rintro s t _ hst ⟨hr, hf, hc, hn⟩
    refine ⟨recorded_rely hst hr, fresh_rely hst hr.1 hf, ?_, hn.trans_le hst.nextOwner⟩
    rw [(hst.coordinators hr.1.1).2.2.1]
    exact hc
  · rintro s t hst ⟨hr, hf, hc, hn⟩
    refine ⟨recorded_beside hst hr, ?_, by rwa [hst.committed], by rwa [hst.nextOwner]⟩
    rw [Fresh, hst.origin]
    exact hf

theorem framed_prepared (x : Option (Project × Nat)) : Framed i (@Prepared _ Digest i x) :=
  ⟨fun _ _ _ hst h p o hx => recorded_rely hst (h p o hx), fun hst h p o hx => recorded_beside hst (h p o hx)⟩

/-- A transaction of which no tree is in the store yet. -/
theorem framed_fresh (x : Option (Project × Nat)) :
    Framed i fun s : State Project Digest => Prepared i x s ∧ ∀ p o, x = some (p, o) → Fresh p o s := by
  refine ⟨?_, ?_⟩
  · rintro s t ht hst ⟨hp, hf⟩
    exact ⟨(framed_prepared x).stable ht hst hp, fun p o hx => fresh_rely hst (hp p o hx).1 (hf p o hx)⟩
  · rintro s t hst ⟨hp, hf⟩
    refine ⟨(framed_prepared x).beside hst hp, fun p o hx => ?_⟩
    rw [Fresh, hst.origin]
    exact hf p o hx

end

/-! ### The store's side -/

/-- The store is locked, and a publication has put `published` in place. -/
structure Publishing (i : Nat) (size : List Digest → Nat) (x : Option (Project × Nat))
    (created staged published : List Digest) (s : State Project Digest) : Prop where
  exclusive : s.exclusive = some i
  journal : s.journal = x.map fun y => ⟨y.1, y.2, created, size created⟩
  missing : ∀ d ∈ staged, s.trees d = none → d ∈ created
  left : ∀ d ∈ created, (s.trees d).isSome → d ∈ published
  listed : ∀ d ∈ published, d ∈ created
  loose : x = none → ∀ d ∈ published, s.loose d = true
  publisher : x ≠ none → s.publisher = some i
  whole : ∀ p o d, x = some (p, o) → s.origin d = some (p, o) → s.trees d = some .whole

variable {size : List Digest → Nat}

theorem Publishing.same {s t : State Project Digest} {x : Option (Project × Nat)} {created staged published : List Digest}
    (h : Publishing i size x created staged published s) (he : t.exclusive = some i) (hst : SameStore s t) :
    Publishing i size x created staged published t where
  exclusive := he
  journal := hst.journal.trans h.journal
  missing := by
    rw [hst.trees]
    exact h.missing
  left := by
    rw [hst.trees]
    exact h.left
  listed := h.listed
  loose := by
    rw [hst.loose]
    exact h.loose
  publisher hx := hst.publisher.trans (h.publisher hx)
  whole := by
    rw [hst.trees, hst.origin]
    exact h.whole

/-- A publication that is not decided can be withdrawn. -/
theorem Publishing.withdrawing {s : State Project Digest} {x : Option (Project × Nat)}
    {created staged published : List Digest} (hs : Inv s) (hx : Prepared i x s)
    (h : Publishing i size x created staged published s) : Withdrawing i published created published s := by
  refine ⟨⟨h.exclusive, ?_⟩, h.left, ?_⟩
  · intro d hd _
    cases x with
    | none => exact ⟨Or.inl (h.loose rfl d hd), Or.inr (h.loose rfl d hd)⟩
    | some y =>
      refine ⟨Or.inr ⟨_, h.journal, h.listed d hd, Or.inl ?_⟩, Or.inl (h.publisher (by simp))⟩
      exact (hs.decided (hx y.1 y.2 rfl).2).symm
  · intro j hj
    rw [h.journal, Option.map_eq_some_iff] at hj
    obtain ⟨y, -, rfl⟩ := hj
    rfl

/-- The next tree is put in place. -/
theorem Publishing.place [DecidableEq Digest] {s : State Project Digest} {x : Option (Project × Nat)}
    {created staged published : List Digest}
    (h : Publishing i size x created staged published s) {d : Digest} (hd : d ∈ staged) (hnone : s.trees d = none) :
    Publishing i size x created staged (published ++ [d]) (s.place d) where
  exclusive := h.exclusive
  journal := h.journal
  missing := by
    intro e he ht
    by_cases hed : e = d
    · rw [hed]
      exact h.missing d hd hnone
    · rw [State.place_trees, Function.update_of_ne hed] at ht
      exact h.missing e he ht
  left := by
    intro e he ht
    by_cases hed : e = d
    · rw [hed]
      exact List.mem_append_right _ List.mem_cons_self
    · rw [State.place_trees, Function.update_of_ne hed] at ht
      exact List.mem_append_left _ (h.left e he ht)
  listed := by
    intro e he
    rcases List.mem_append.1 he with he | he
    · exact h.listed e he
    · rw [List.mem_singleton.1 he]
      exact h.missing d hd hnone
  loose := by
    intro hx e he
    by_cases hed : e = d
    · rw [State.place_loose, hed, Function.update_self, h.journal, hx]
      rfl
    · rw [State.place_loose, Function.update_of_ne hed]
      rcases List.mem_append.1 he with he | he
      · exact h.loose hx e he
      · exact absurd (List.mem_singleton.1 he) hed
  publisher := h.publisher
  whole := by
    intro p o e hx ho
    by_cases hed : e = d
    · rw [State.place_trees, hed, Function.update_self]
    · rw [State.place_origin, Function.update_of_ne hed] at ho
      rw [State.place_trees, Function.update_of_ne hed]
      exact h.whole p o e hx ho

section

variable [DecidableEq Project] [DecidableEq Digest]

theorem stable_publishing (size : List Digest → Nat) (x : Option (Project × Nat)) (created staged published : List Digest) :
    contract.Stable i (@Publishing Project _ i size x created staged published) :=
  fun _ _ _ hst h => h.same (hst.exclusive.2 h.exclusive) (hst.store (Or.inl h.exclusive))

variable {F G : State Project Digest → Prop}

/-- What is missing is counted as new, and nothing changes meanwhile. -/
theorem newDigests_spec (hF : contract.Stable i F) (hG : ∀ {s t}, SameStore s t → G s → G t) (staged : List Digest) :
    contract.Spec i (fun s => F s ∧ s.exclusive = some i ∧ G s) (newDigests staged)
      (fun created s => F s ∧ s.exclusive = some i ∧ G s ∧ (∀ d ∈ created, s.trees d = none) ∧
        ∀ d ∈ staged, s.trees d = none → d ∈ created) F := by
  induction staged generalizing G with
  | nil =>
    refine Spec.return fun s _ h => ⟨h.1, h.2.1, h.2.2, ?_, ?_⟩
    · intro d hd
      exact absurd hd (by simp)
    · intro d hd
      exact absurd hd (by simp)
  | cons d staged ih =>
    rw [newDigests]
    refine Spec.bind (R := fun b s => F s ∧ s.exclusive = some i ∧ G s ∧ (s.trees d).isSome = b) ?_ ?_
    · refine (pathExists_spec (hF.and (stable_exclusive hG)) _).conseq (fun _ _ h => h) ?_ fun _ h => h
      exact fun b s h => ⟨h.1.1, h.1.2.1, h.1.2.2, h.2⟩
    · rintro (_ | _)
      · have ih := ih (G := fun s => G s ∧ s.trees d = none) fun hst h => ⟨hG hst h.1, by rw [hst.trees]; exact h.2⟩
        refine Spec.bind (ih.pre ?_) fun created => Spec.return ?_
        · rintro s _ ⟨hf, he, hg, hd⟩
          exact ⟨hf, he, hg, Option.isNone_iff_eq_none.1 (Option.isSome_eq_false_iff.1 hd)⟩
        · rintro s _ ⟨hf, he, ⟨hg, hd⟩, hnone, hmem⟩
          refine ⟨hf, he, hg, ?_, ?_⟩
          · intro e hem
            rcases List.mem_cons.1 hem with rfl | hem
            · exact hd
            · exact hnone e hem
          · intro e hem ht
            rcases List.mem_cons.1 hem with rfl | hem
            · exact List.mem_cons_self
            · exact List.mem_cons_of_mem _ (hmem e hem ht)
      · have hsame : ∀ {s t : State Project Digest}, SameStore s t → G s ∧ (s.trees d).isSome = true →
            G t ∧ (t.trees d).isSome = true := fun hst h => ⟨hG hst h.1, by rw [hst.trees]; exact h.2⟩
        have ih := ih (G := fun s => G s ∧ (s.trees d).isSome = true) hsame
        refine Spec.bind (R := fun _ s => F s ∧ s.exclusive = some i ∧ G s ∧ (s.trees d).isSome = true) ?_ fun _ => ?_
        · exact (spec_query (hF.and (stable_exclusive hsame)) rfl fun _ _ h _ _ => h).conseq (fun _ _ h => h)
            (fun _ _ h => h) fun _ h => h.1
        · refine ih.conseq (fun _ _ h => h) ?_ fun _ h => h
          rintro created s ⟨hf, he, ⟨hg, hd⟩, hnone, hmem⟩
          refine ⟨hf, he, hg, hnone, ?_⟩
          intro e hem ht
          rcases List.mem_cons.1 hem with rfl | hem
          · rw [ht] at hd
            exact absurd hd (by simp)
          · exact hmem e hem ht

theorem syncStaged_spec (hF : contract.Stable i F) (staged : List Digest) :
    contract.Spec i F (syncStaged staged) (fun _ => F) F := by
  induction staged with
  | nil => exact Spec.return fun _ _ h => h
  | cons d staged ih =>
    rw [syncStaged]
    refine Spec.bind (R := fun _ => F) ((pathExists_spec hF _).conseq (fun _ _ h => h) (fun _ _ h => h.1) fun _ h => h) ?_
    rintro (_ | _)
    · exact (spec_work hF).bind fun _ => ih
    · exact ih

/-- The journal names the trees that are about to be put in place. -/
theorem writeStoreJournal_spec (p : Project) (owner : Nat) (size : List Digest → Nat) (created staged : List Digest) :
    contract.Spec i
      (fun s => Prepared i (some (p, owner)) s ∧ s.exclusive = some i ∧ (s.journal = none ∧ Fresh p owner s) ∧
        (∀ d ∈ created, s.trees d = none) ∧ ∀ d ∈ staged, s.trees d = none → d ∈ created)
      (writeStoreJournal p size created)
      (fun _ s => Prepared i (some (p, owner)) s ∧ Publishing i size (some (p, owner)) created staged [] s)
      (Prepared i (some (p, owner))) := by
  have hF : Framed i (@Prepared _ Digest i (some (p, owner))) := framed_prepared _
  have hG : contract.Stable i fun s : State Project Digest => s.exclusive = some i ∧ (s.journal = none ∧ Fresh p owner s) ∧
      (∀ d ∈ created, s.trees d = none) ∧ ∀ d ∈ staged, s.trees d = none → d ∈ created := by
    refine stable_exclusive ?_
    rintro s t hst ⟨⟨hj, hf⟩, hnone, hmem⟩
    refine ⟨⟨hst.journal.trans hj, ?_⟩, by rwa [hst.trees], by rwa [hst.trees]⟩
    rw [Fresh, hst.origin]
    exact hf
  rw [writeStoreJournal]
  refine Spec.bind (R := fun r s => r = .record ⟨owner, false, true⟩ ∧ Prepared i (some (p, owner)) s ∧
    s.exclusive = some i ∧ (s.journal = none ∧ Fresh p owner s) ∧
    (∀ d ∈ created, s.trees d = none) ∧ ∀ d ∈ staged, s.trees d = none → d ∈ created) ?_ ?_
  · refine (spec_query (hF.stable.and hG) rfl ?_).conseq (fun _ _ h => h) (fun _ _ h => h) fun _ h => h.1
    rintro s _ ⟨hp, h⟩ _ ⟨⟩
    refine ⟨?_, hp, h⟩
    show s.found p = _
    rw [State.found, (hp p owner rfl).1.2, if_neg (by simp), (hp p owner rfl).2]
  · rintro (_ | _ | c)
    · exact Spec.throw fun _ _ h => h.2.1
    · exact Spec.throw fun _ _ h => h.2.1
    · by_cases hc : c = ⟨owner, false, true⟩
      · subst hc
        refine (spec_aside' hF rfl hG ?_ ?_).pre fun _ _ h => h.2
        · rintro s _ hp ⟨he, ⟨hj, -⟩, hnone, -⟩
          exact ⟨he, hj, (hp p owner rfl).1.1, (hp p owner rfl).2, hnone⟩
        · rintro s _ hp ⟨he, ⟨hj, hf⟩, hnone, hmem⟩ _
          refine ⟨he, rfl, hmem, ?_, ?_, ?_, fun _ => rfl, ?_⟩
          · intro d hd ht
            change (s.trees d).isSome at ht
            rw [hnone d hd] at ht
            exact absurd ht (by simp)
          · intro d hd
            exact absurd hd (by simp)
          · intro hx
            exact absurd hx (by simp)
          · rintro q o d ⟨⟩ ho
            exact absurd ho (hf d)
      · intro s _ h
        exact absurd (Found.record.inj h.1) hc

/-! ### Publication -/

theorem removeStoreJournal_spec (hF : Framed i F) {published created : List Digest} (hpub : published ⊆ created)
    (x : Option Project) :
    contract.Spec i (fun s => F s ∧ Withdrawing i published created [] s) (removeStoreJournal x)
      (fun _ => F) (fun s => F s ∧ Dropping i published s) := by
  cases x with
  | none => exact Spec.return fun _ _ h => h.1
  | some p => exact (removeJournal_spec hF hpub).conseq (fun _ _ h => h) (fun _ _ h => h.1) fun _ h => h

/-- The error path of `publish_inner`. -/
theorem withdraw_spec (size : List Digest → Nat) (x : Option (Project × Nat))
    {created staged published : List Digest} (hpub : published ⊆ created)
    (c : Option Project) :
    contract.Spec i (fun s => Prepared i x s ∧ Publishing i size x created staged published s) (withdraw c published)
      (fun _ => Prepared i x) (Prepared i x) := by
  have hF : Framed i (@Prepared _ Digest i x) := framed_prepared x
  rw [withdraw]
  refine Spec.bind (R := fun _ s => Prepared i x s ∧ Withdrawing i published created [] s) ?_ fun _ =>
    Spec.bind (R := fun _ s => Prepared i x s ∧ Withdrawing i published created [] s) ?_ fun _ => ?_
  · refine (removeTrees_spec hF published (List.Subset.refl _)).conseq ?_ (fun _ _ h => h) fun _ h => h.1
    exact fun s hs h => ⟨h.1, h.2.withdrawing hs h.1⟩
  · refine (spec_work (hF.stable.and (stable_withdrawing _ _ _))).conseq (fun _ _ h => h) (fun _ _ h => h) ?_
    exact fun _ h => h.1
  · exact (removeStoreJournal_spec hF hpub c).conseq (fun _ _ h => h) (fun _ _ h => h) fun _ h => h.1

theorem placeTree_spec (size : List Digest → Nat) (x : Option (Project × Nat)) {created staged published : List Digest} {d : Digest}
    (hd : d ∈ staged) :
    contract.Spec i (fun s => Prepared i x s ∧ Publishing i size x created staged published s) (placeTree d)
      (fun isNew s => Prepared i x s ∧
        Publishing i size x created staged (if isNew then published ++ [d] else published) s)
      (fun s => Prepared i x s ∧ Publishing i size x created staged published s) := by
  have hF : Framed i (@Prepared _ Digest i x) := framed_prepared x
  have hstable := hF.stable.and (stable_publishing (i := i) size x created staged published)
  have hmissing : contract.Stable i fun s : State Project Digest =>
      (Prepared i x s ∧ Publishing i size x created staged published s) ∧ s.trees d = none := by
    rintro s t ht hst ⟨h, hnone⟩
    refine ⟨hstable ht hst h, ?_⟩
    rw [(hst.store (Or.inl h.2.exclusive)).trees]
    exact hnone
  rw [placeTree]
  refine Spec.bind (R := fun b s => (Prepared i x s ∧ Publishing i size x created staged published s) ∧
    (b = false → s.trees d = none)) ?_ ?_
  · refine (pathExists_spec hstable _).conseq (fun _ _ h => h) ?_ fun _ h => h
    rintro b s ⟨h, hb⟩
    exact ⟨h, fun hfalse => trees_none_of_has (hb.trans hfalse)⟩
  · rintro (_ | _)
    · refine Spec.bind (R := fun _ s => Prepared i x s ∧ Publishing i size x created staged (published ++ [d]) s) ?_
        fun _ => Spec.return fun _ _ h => h
      refine (Spec.attempt hmissing ?_ ?_ ?_).pre fun _ _ h => ⟨h.1, h.2 rfl⟩
      · rintro s hs ⟨⟨hx, h⟩, hnone⟩
        refine ⟨h.exclusive, fun j hj => ?_⟩
        rw [h.journal, Option.map_eq_some_iff] at hj
        obtain ⟨⟨p, owner⟩, rfl, rfl⟩ := hj
        exact ⟨⟨h.missing d hd hnone, (hx p owner rfl).1.1, (hs.decided (hx p owner rfl).2).symm⟩, h.publisher (by simp)⟩
      · rintro s _ ⟨⟨hx, h⟩, hnone⟩ _
        change Ends _ _ (exec i (.renameTree d) s).1 (exec i (.renameTree d) s).2
        rw [exec, hnone]
        exact ⟨hx, h.place hd hnone⟩
      · rintro s _ ⟨h, -⟩ _ c
        cases c <;> exact h
    · refine Spec.bind (R := fun _ s => Prepared i x s ∧ Publishing i size x created staged published s) ?_
        fun _ => Spec.return fun _ _ h => h
      exact (spec_query hstable rfl fun _ _ h _ _ => h).pre fun _ _ h => h.1

theorem placeTrees_spec (size : List Digest → Nat) (x : Option (Project × Nat)) (c : Option Project) {created staged : List Digest}
    (rest published : List Digest) (hrest : rest ⊆ staged) :
    contract.Spec i (fun s => Prepared i x s ∧ Publishing i size x created staged published s) (placeTrees c rest published)
      (fun published s => Prepared i x s ∧ Publishing i size x created staged published s) (Prepared i x) := by
  induction rest generalizing published with
  | nil => exact Spec.return fun _ _ h => h
  | cons d rest ih =>
    have hd : d ∈ staged := hrest List.mem_cons_self
    rw [placeTrees]
    refine Spec.bind (Spec.onError (placeTree_spec size x hd) ?_) fun isNew =>
      ih _ fun e he => hrest (List.mem_cons_of_mem _ he)
    intro s hs h
    exact withdraw_spec size x (fun e he => h.2.listed e he) c hs h

/-- What `publish_inner` leaves when it succeeds. -/
theorem publishInner_spec (size : List Digest → Nat) (x : Option (Project × Nat)) (staged : List Digest) :
    contract.Spec i (fun s => (Prepared i x s ∧ ∀ p o, x = some (p, o) → Fresh p o s) ∧ Free i s)
      (publishInner (x.map Prod.fst) size staged)
      (fun published s => Prepared i x s ∧ ∃ created, Publishing i size x created staged published s)
      (fun s => Prepared i x s ∧ Free i s) := by
  have hF : Framed i (@Prepared _ Digest i x) := framed_prepared x
  rw [publishInner]
  refine Spec.bind ((lockFile_spec (framed_fresh x)).conseq (fun _ _ h => h) (fun _ _ h => h) ?_) fun _ => ?_
  · exact fun _ h => ⟨h.1.1, h.2⟩
  refine Spec.onError ?_ (unlock_framed hF)
  rw [publishLocked]
  have hG : ∀ {s t : State Project Digest}, SameStore s t →
      (s.journal = none ∧ ∀ p o, x = some (p, o) → Fresh p o s) → t.journal = none ∧ ∀ p o, x = some (p, o) → Fresh p o t := by
    rintro s t hst ⟨hj, hf⟩
    refine ⟨hst.journal.trans hj, fun p o hx => ?_⟩
    rw [Fresh, hst.origin]
    exact hf p o hx
  refine Spec.bind ((newDigests_spec hF.stable hG staged).pre ?_) fun created => ?_
  · rintro s _ ⟨⟨hx, hf⟩, he, hj⟩
    exact ⟨hx, he, hj, hf⟩
  have hlocked : contract.Stable i fun s : State Project Digest => Prepared i x s ∧ s.exclusive = some i ∧
      (s.journal = none ∧ ∀ p o, x = some (p, o) → Fresh p o s) ∧
      (∀ d ∈ created, s.trees d = none) ∧ ∀ d ∈ staged, s.trees d = none → d ∈ created := by
    refine hF.stable.and (stable_exclusive ?_)
    rintro s t hst ⟨hg, hnone, hmem⟩
    exact ⟨hG hst hg, by rwa [hst.trees], by rwa [hst.trees]⟩
  refine Spec.bind ((syncStaged_spec hlocked staged).conseq (fun _ _ h => h) (fun _ _ h => h) fun _ h => h.1) fun _ => ?_
  refine Spec.bind (R := fun _ s => Prepared i x s ∧ Publishing i size x created staged [] s) ?_ fun _ => ?_
  · cases x with
    | none =>
      refine Spec.return ?_
      rintro s _ ⟨hx, he, ⟨hj, -⟩, hnone, hmem⟩
      refine ⟨hx, he, hj, hmem, ?_, ?_, ?_, fun hne => absurd rfl hne, ?_⟩
      · intro d hd ht
        rw [hnone d hd] at ht
        exact absurd ht (by simp)
      · intro d hd
        exact absurd hd (by simp)
      · intro _ d hd
        exact absurd hd (by simp)
      · rintro p o d ⟨⟩
    | some y =>
      refine (writeStoreJournal_spec y.1 y.2 size created staged).pre ?_
      rintro s _ ⟨hx, he, ⟨hj, hf⟩, hnone, hmem⟩
      exact ⟨hx, he, ⟨hj, hf y.1 y.2 rfl⟩, hnone, hmem⟩
  · refine (placeTrees_spec size x _ staged [] (List.Subset.refl _)).bind fun published => ?_
    have hstable := hF.stable.and (stable_publishing (i := i) size x created staged published)
    refine Spec.bind (Spec.onError (spec_work hstable) ?_) fun _ => Spec.return fun s _ h => ⟨h.1, created, h.2⟩
    intro s hs h
    exact withdraw_spec size x (fun e he => h.2.listed e he) _ hs h

end

end Tapid.StoreProtocol
