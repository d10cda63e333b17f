/-
When the processing order of a lockfile exists.

The traversal bounds how deep active packages nest, not how long chains of
dependencies are: a package is found along the first chain that leads to it, and
what is done already is not entered again.

* `FirstChain` — the chain along which a depth-first traversal finds something;
* `foldlM_visit_ok_iff` — the traversal succeeds while first chains are short;
* `exactOrder_iff` — when acceptance depends on the graph alone.
-/
import Mathlib.Data.List.Chain
import Mathlib.Logic.Relation
import Tapid.DependencyScriptsSound
import Tapid.LockKeyCodec

namespace Tapid

open Fallible

/-! ### First chains -/

section FirstChain

variable {α : Type} {children : α → List α}

/-- Something is found from something by following children. -/
def Follows (children : α → List α) : α → α → Prop := Relation.ReflTransGen fun a b => b ∈ children a

/-- **The first chain** to something: the first candidate that reaches it is
followed.  The number counts what stands on the chain. -/
inductive FirstChain (children : α → List α) : List α → α → Nat → Prop where
  | found (a : α) (rest : List α) : FirstChain children (a :: rest) a 1
  | down {a b : α} {n : Nat} (rest : List α) (hne : a ≠ b) (hfollows : Follows children a b)
      (h : FirstChain children (children a) b n) : FirstChain children (a :: rest) b (n + 1)
  | skip {a b : α} {n : Nat} {rest : List α} (hfollows : ¬ Follows children a b)
      (h : FirstChain children rest b n) : FirstChain children (a :: rest) b n

theorem FirstChain.of_not_follows {a b : α} {rest : List α} {n : Nat} (hfollows : ¬ Follows children a b)
    (h : FirstChain children (a :: rest) b n) : FirstChain children rest b n := by
  cases h with
  | found => exact absurd .refl hfollows
  | down _ _ h => exact absurd h hfollows
  | skip _ h => exact h

theorem FirstChain.follows {candidates : List α} {b : α} {n : Nat} (h : FirstChain children candidates b n) :
    ∃ a ∈ candidates, Follows children a b := by
  induction h with
  | found a rest => exact ⟨a, List.mem_cons_self, .refl⟩
  | @down a b n rest hne hfollows h ih => exact ⟨a, List.mem_cons_self, hfollows⟩
  | skip hfollows h ih =>
    obtain ⟨c, hc, hfollows⟩ := ih
    exact ⟨c, List.mem_cons_of_mem _ hc, hfollows⟩

/-- A first chain is a chain. -/
theorem FirstChain.exists_chain {candidates : List α} {b : α} {n : Nat} (h : FirstChain children candidates b n) :
    ∃ a rest, a ∈ candidates ∧ (a :: rest).IsChain (fun a b => b ∈ children a) ∧ (a :: rest).length = n := by
  induction h with
  | found a rest => exact ⟨a, [], List.mem_cons_self, List.isChain_singleton a, rfl⟩
  | @down a b n rest hne hfollows h ih =>
    obtain ⟨c, tail, hc, hchain, hlength⟩ := ih
    exact ⟨a, c :: tail, List.mem_cons_self, List.isChain_cons_cons.mpr ⟨hc, hchain⟩, by simpa using hlength⟩
  | skip hfollows h ih =>
    obtain ⟨c, tail, hc, hchain, hlength⟩ := ih
    exact ⟨c, tail, List.mem_cons_of_mem _ hc, hchain, hlength⟩

end FirstChain

namespace DependencyScripts

/-! ### The graph -/

/-- The packages among the dependencies of a package, in the order they are visited. -/
def children (lock : Lockfile) (key : String) : List String :=
  (lock.packages.get? key).elim [] fun p =>
    p.dependencies.values.filter fun child => lock.packages.contains child

/-- No package depends on itself, not even through others. -/
def Acyclic (lock : Lockfile) : Prop := ∀ key, ¬ Relation.TransGen (RegistryDependency lock) key key

/-- Packages of which each depends on the next. -/
def IsDependencyChain (lock : Lockfile) (chain : List String) : Prop :=
  (∀ key ∈ chain, lock.packages.contains key = true) ∧ chain.IsChain (RegistryDependency lock)

/-- The order exists exactly when the graph has no cycle and no chain of more
than 1024 packages, and then it has every package once after what it depends on. -/
def ExactOrder (lock : Lockfile) : Prop :=
  ((∃ order, dependencyOrder lock = .ok order) ↔
      Acyclic lock ∧ ∀ chain, IsDependencyChain lock chain → chain.length ≤ 1024) ∧
    ∀ order, dependencyOrder lock = .ok order →
      order.Nodup ∧ (∀ key, key ∈ order ↔ lock.packages.contains key = true) ∧ DependenciesFirst lock order

variable {lock : Lockfile}

theorem mem_children {parent child : String} : child ∈ children lock parent ↔ RegistryDependency lock parent child := by
  unfold children RegistryDependency
  cases hparent : lock.packages.get? parent with
  | none => simp
  | some p => simp [List.mem_filter]

theorem follows_iff {a b : String} :
    Follows (children lock) a b ↔ Relation.ReflTransGen (RegistryDependency lock) a b := by
  have hrel : (fun a b => b ∈ children lock a) = RegistryDependency lock := by
    funext a b
    exact propext mem_children
  rw [Follows, hrel]

theorem contains_of_mem_children {parent child : String} (h : child ∈ children lock parent) :
    lock.packages.contains child = true := by
  obtain ⟨_, _, _, hchild⟩ := mem_children.mp h
  exact hchild

/-! ### What a visit finishes -/

/-- What is done stays closed under dependencies. -/
theorem Visited.Ordered.closed {v : Visited} (hv : v.Ordered lock) {a b : String} (ha : a ∈ v.done)
    (h : Follows (children lock) a b) : b ∈ v.done := by
  induction h with
  | refl => exact ha
  | @tail b c _ hchild ih =>
    obtain ⟨before, after, horder⟩ := List.append_of_mem ((hv.done b).mp ih)
    have hmem := hv.dependenciesFirst before b after horder c (mem_children.mp hchild)
    exact (hv.done c).mpr (horder ▸ List.mem_append_left _ hmem)

/-- One visit, with its children spelled out. -/
theorem visit_succ {fuel : Nat} {active : List String} {v : Visited} {key : String} (hdone : key ∉ v.done)
    (hactive : key ∉ active) (hkey : lock.packages.contains key = true) :
    visit lock (fuel + 1) active v key =
      ((children lock key).foldlM (visit lock fuel (key :: active)) v).map fun u =>
        { done := u.done.insert key, order := u.order ++ [key] } := by
  obtain ⟨p, hp⟩ := Option.isSome_iff_exists.mp hkey
  have helem : active.elem key = false := by simpa using hactive
  rw [visit, if_neg hdone, helem, if_neg Bool.false_ne_true, hp, children, hp, Option.elim_some]
  show (do
    let u ← (p.dependencies.values.filter fun child => lock.packages.contains child).foldlM
      (visit lock fuel (key :: active)) v
    return ({ done := u.done.insert key, order := u.order ++ [key] } : Visited)) = _
  cases (p.dependencies.values.filter fun child => lock.packages.contains child).foldlM
      (visit lock fuel (key :: active)) v <;> rfl

/-- Only what a key reaches is finished by its visit. -/
theorem visit_done {fuel : Nat} {active : List String} {v w : Visited} {key : String}
    (hkey : lock.packages.contains key = true) (h : visit lock fuel active v key = .ok w) :
    ∀ k ∈ w.done, k ∈ v.done ∨ Follows (children lock) key k := by
  induction fuel generalizing active v w key with
  | zero =>
    rw [visit] at h
    split_ifs at h with hdone
    obtain rfl := Except.ok.inj h
    exact fun k hk => Or.inl hk
  | succ fuel ih =>
    by_cases hdone : key ∈ v.done
    · rw [visit, if_pos hdone] at h
      obtain rfl := Except.ok.inj h
      exact fun k hk => Or.inl hk
    by_cases hactive : key ∈ active
    · rw [visit, if_neg hdone, if_pos (List.elem_iff.mpr hactive)] at h
      cases h
    rw [visit_succ hdone hactive hkey] at h
    obtain ⟨u, hu, rfl⟩ := map_eq_ok.mp h
    have hchildren : ∀ k ∈ u.done, k ∈ v.done ∨ Follows (children lock) key k := by
      refine (Loop.foldlM_inv (I := fun rest u => (∀ c ∈ rest, c ∈ children lock key) ∧
        ∀ k ∈ u.done, k ∈ v.done ∨ Follows (children lock) key k) ?_ ⟨fun _ hc => hc, fun k hk => Or.inl hk⟩ hu).2
      rintro child rest u u' ⟨hrest, hu⟩ hstep
      have hchild : child ∈ children lock key := hrest child List.mem_cons_self
      refine ⟨fun c hc => hrest c (List.mem_cons_of_mem _ hc), fun k hk => ?_⟩
      rcases ih (contains_of_mem_children hchild) hstep k hk with hk | hk
      · exact hu k hk
      · exact Or.inr (.head hchild hk)
    intro k hk
    rcases OrdSet.mem_insert.mp hk with rfl | hk
    · exact Or.inr .refl
    · exact hchildren k hk

/-- **Candidates are visited successfully while first chains are short.**  The
induction is on how deep packages may still nest, then on the candidates: what
the first candidate reaches is done for the others. -/
theorem foldlM_visit_ok_iff (hacyclic : Acyclic lock) {fuel : Nat} {active candidates : List String} {v : Visited}
    (hv : v.Ordered lock) (hcandidates : ∀ c ∈ candidates, lock.packages.contains c = true)
    (hactive : ∀ a ∈ active, ∀ c ∈ candidates, ¬ Follows (children lock) c a) :
    (∃ w, candidates.foldlM (visit lock fuel active) v = .ok w) ↔
      ∀ key n, key ∉ v.done → FirstChain (children lock) candidates key n → n ≤ fuel := by
  induction fuel generalizing active candidates v with
  | zero =>
    induction candidates with
    | nil => exact ⟨fun _ key n _ h => (by cases h), fun _ => ⟨v, rfl⟩⟩
    | cons c rest ihrest =>
      by_cases hdone : c ∈ v.done
      · have hskip : visit lock 0 active v c = .ok v := by rw [visit, if_pos hdone]
        rw [List.foldlM_cons, hskip]
        refine (ihrest (fun c hc => hcandidates c (List.mem_cons_of_mem _ hc))
          (fun a ha c hc => hactive a ha c (List.mem_cons_of_mem _ hc))).trans ?_
        refine forall₃_congr fun key n hkey => ?_
        have hfollows : ¬ Follows (children lock) c key := fun h => hkey (hv.closed hdone h)
        exact ⟨fun h hchain => h (hchain.of_not_follows hfollows), fun h hchain => h (.skip hfollows hchain)⟩
      · constructor
        · rintro ⟨w, hw⟩
          rw [List.foldlM_cons, visit, if_neg hdone] at hw
          cases hw
        · intro h
          exact absurd (h c 1 hdone (.found c rest)) (by omega)
  | succ fuel ih =>
    induction candidates generalizing v with
    | nil => exact ⟨fun _ key n _ h => (by cases h), fun _ => ⟨v, rfl⟩⟩
    | cons c rest ihrest =>
      have hrest : ∀ c ∈ rest, lock.packages.contains c = true := fun c hc =>
        hcandidates c (List.mem_cons_of_mem _ hc)
      have hactiveRest : ∀ a ∈ active, ∀ c ∈ rest, ¬ Follows (children lock) c a := fun a ha c hc =>
        hactive a ha c (List.mem_cons_of_mem _ hc)
      by_cases hdone : c ∈ v.done
      · have hskip : visit lock (fuel + 1) active v c = .ok v := by rw [visit, if_pos hdone]
        rw [List.foldlM_cons, hskip]
        refine (ihrest hv hrest hactiveRest).trans ?_
        refine forall₃_congr fun key n hkey => ?_
        have hfollows : ¬ Follows (children lock) c key := fun h => hkey (hv.closed hdone h)
        exact ⟨fun h hchain => h (hchain.of_not_follows hfollows), fun h hchain => h (.skip hfollows hchain)⟩
      have hcontains := hcandidates c List.mem_cons_self
      have hnotActive : c ∉ active := fun hc => hactive c hc c List.mem_cons_self .refl
      -- below the candidate no active package is reached, the candidate included
      have hbelow : (∃ u, (children lock c).foldlM (visit lock fuel (c :: active)) v = .ok u) ↔
          ∀ key n, key ∉ v.done → FirstChain (children lock) (children lock c) key n → n ≤ fuel := by
        refine ih hv (fun _ hchild => contains_of_mem_children hchild) ?_
        rintro a ha child hchild hfollows
        rcases List.mem_cons.mp ha with rfl | ha
        · exact hacyclic a (.head' (mem_children.mp hchild) (follows_iff.mp hfollows))
        · exact hactive a ha c List.mem_cons_self (.head hchild hfollows)
      have hvisit : visit lock (fuel + 1) active v c =
          ((children lock c).foldlM (visit lock fuel (c :: active)) v).map fun u =>
            { done := u.done.insert c, order := u.order ++ [c] } := visit_succ hdone hnotActive hcontains
      rw [List.foldlM_cons]
      constructor
      · rintro ⟨w, hw⟩ key n hkey hchain
        obtain ⟨t, ht, hw⟩ := bind_eq_ok.mp hw
        obtain ⟨hordered, -, -, -⟩ := visit_ordered hv ht
        cases hchain with
        | found => omega
        | @down _ _ n _ hne hfollows h =>
          obtain ⟨u, hu, -⟩ := map_eq_ok.mp (hvisit.symm.trans ht)
          exact Nat.succ_le_succ (hbelow.mp ⟨u, hu⟩ key n hkey h)
        | skip hfollows h =>
          refine (ihrest hordered hrest hactiveRest).mp ⟨w, hw⟩ key n (fun hmem => ?_) h
          rcases visit_done hcontains ht key hmem with hmem | hmem
          · exact hkey hmem
          · exact hfollows hmem
      · intro hshort
        obtain ⟨u, hu⟩ := hbelow.mpr fun key n hkey hchain => by
          obtain ⟨child, hchild, hfollows⟩ := hchain.follows
          have hne : c ≠ key := by
            rintro rfl
            exact hacyclic c (.head' (mem_children.mp hchild) (follows_iff.mp hfollows))
          have := hshort key (n + 1) hkey (.down rest hne (.head hchild hfollows) hchain)
          omega
        rw [hu] at hvisit
        obtain ⟨hordered, hmem, hmono, -⟩ := visit_ordered hv hvisit
        obtain ⟨w, hw⟩ := (ihrest hordered hrest hactiveRest).mpr fun key n hkey hchain =>
          hshort key n (fun h => hkey (hmono key h)) (.skip (fun h => hkey (hordered.closed hmem h)) hchain)
        exact ⟨w, bind_eq_ok.mpr ⟨_, hvisit, hw⟩⟩

/-- **The order exists** exactly when the graph has no cycle and first chains are
short. -/
theorem dependencyOrder_ok_iff : (∃ order, dependencyOrder lock = .ok order) ↔
    Acyclic lock ∧ ∀ key n, FirstChain (children lock) lock.packages.keys key n → n ≤ 1024 := by
  have hkeys : ∀ c ∈ lock.packages.keys, lock.packages.contains c = true := fun c hc => by
    obtain ⟨p, hp⟩ := OrdMap.mem_keys.mp hc
    exact OrdMap.contains_eq_true.mpr ⟨p, hp⟩
  have hvisited : (∃ order, dependencyOrder lock = .ok order) ↔
      ∃ w, lock.packages.keys.foldlM (visit lock 1024 []) {} = .ok w := by
    simp only [dependencyOrder, bind_eq_ok, pure_eq_ok]
    constructor
    · rintro ⟨_, w, hw, _⟩
      exact ⟨w, hw⟩
    · rintro ⟨w, hw⟩
      exact ⟨w.order, w, hw, rfl⟩
  have hshort : Acyclic lock → ((∃ w, lock.packages.keys.foldlM (visit lock 1024 []) {} = .ok w) ↔
      ∀ key n, FirstChain (children lock) lock.packages.keys key n → n ≤ 1024) := by
    intro hacyclic
    rw [foldlM_visit_ok_iff hacyclic (Visited.ordered_empty lock) hkeys (fun a ha => absurd ha List.not_mem_nil)]
    exact forall₂_congr fun key n => ⟨fun h => h (OrdSet.not_mem_empty key), fun h _ => h⟩
  constructor
  · rintro ⟨order, horder⟩
    have hacyclic : Acyclic lock := by
      intro key hcycle
      obtain ⟨hnodup, hmem, hfirst⟩ := dependencyOrder_ordered horder
      -- a package on a cycle would stand before itself
      have hkey : key ∈ order := by
        obtain ⟨parent, hparent⟩ : ∃ parent, RegistryDependency lock parent key := by
          cases hcycle with
          | single h => exact ⟨_, h⟩
          | tail _ h => exact ⟨_, h⟩
        obtain ⟨_, _, _, hcontains⟩ := hparent
        exact (hmem key).mpr hcontains
      obtain ⟨before, after, rfl⟩ := List.append_of_mem hkey
      have hbefore := hfirst.transGen rfl hcycle
      rw [List.nodup_append] at hnodup
      exact hnodup.2.2 key hbefore key List.mem_cons_self rfl
    exact ⟨hacyclic, (hshort hacyclic).mp (hvisited.mp ⟨order, horder⟩)⟩
  · rintro ⟨hacyclic, h⟩
    exact hvisited.mpr ((hshort hacyclic).mpr h)

theorem isDependencyChain_of_firstChain {key : String} {n : Nat}
    (h : FirstChain (children lock) lock.packages.keys key n) :
    ∃ chain, IsDependencyChain lock chain ∧ chain.length = n := by
  obtain ⟨a, rest, ha, hchain, hlength⟩ := h.exists_chain
  refine ⟨a :: rest, ⟨?_, ?_⟩, hlength⟩
  · have hcontains : lock.packages.contains a = true := by
      obtain ⟨p, hp⟩ := OrdMap.mem_keys.mp ha
      exact OrdMap.contains_eq_true.mpr ⟨p, hp⟩
    clear hlength ha h
    induction rest generalizing a with
    | nil =>
      intro key hkey
      rwa [List.mem_singleton.mp hkey]
    | cons b rest ih =>
      rw [List.isChain_cons_cons] at hchain
      intro key hkey
      rcases List.mem_cons.mp hkey with rfl | hkey
      · exact hcontains
      · exact ih b hchain.2 (contains_of_mem_children hchain.1) key hkey
  · exact hchain.imp fun a b h => mem_children.mp h

/-- **Acceptance depends on the graph alone** exactly when a graph with a long
chain also has a long first chain. -/
theorem exactOrder_iff (lock : Lockfile) :
    ExactOrder lock ↔
      (Acyclic lock → (∃ chain, IsDependencyChain lock chain ∧ 1024 < chain.length) →
        ∃ key n, FirstChain (children lock) lock.packages.keys key n ∧ 1024 < n) := by
  constructor
  · rintro ⟨hexact, -⟩ hacyclic ⟨chain, hchain, hlong⟩
    by_contra hnone
    simp only [not_exists, not_and, not_lt] at hnone
    have hshort := (hexact.mp (dependencyOrder_ok_iff.mpr ⟨hacyclic, hnone⟩)).2 chain hchain
    omega
  · intro h
    refine ⟨?_, fun order horder => dependencyOrder_ordered horder⟩
    rw [dependencyOrder_ok_iff]
    constructor
    · rintro ⟨hacyclic, hfirst⟩
      refine ⟨hacyclic, fun chain hchain => ?_⟩
      by_contra hlong
      obtain ⟨key, n, hkey, hn⟩ := h hacyclic ⟨chain, hchain, not_le.mp hlong⟩
      exact absurd (hfirst key n hkey) (by omega)
    · rintro ⟨hacyclic, hchains⟩
      refine ⟨hacyclic, fun key n hkey => ?_⟩
      obtain ⟨chain, hchain, rfl⟩ := isDependencyChain_of_firstChain hkey
      exact hchains chain hchain

/-! ### A long chain that is not seen as deep -/

/-- When dependencies come before their dependents in key order, every first
chain is a single package. -/
theorem firstChain_eq_one (hlt : ∀ parent child, RegistryDependency lock parent child → child < parent)
    {candidates : List String} (hsorted : candidates.Pairwise (· < ·)) {key : String} {n : Nat}
    (hkey : key ∈ candidates) (h : FirstChain (children lock) candidates key n) : n = 1 := by
  have hfollows : ∀ a b, Follows (children lock) a b → b ≤ a := by
    intro a b hab
    induction hab with
    | refl => exact le_refl a
    | tail _ hchild ih => exact le_trans (le_of_lt (hlt _ _ (mem_children.mp hchild))) ih
  induction candidates with
  | nil => cases hkey
  | cons c rest ih =>
    rw [List.pairwise_cons] at hsorted
    cases h with
    | found => rfl
    | down _ hne hc h =>
      have hrest : key ∈ rest := (List.mem_cons.mp hkey).resolve_left (Ne.symm hne)
      exact absurd (hfollows c key hc) (not_le.mpr (hsorted.1 key hrest))
    | skip hc h =>
      have hrest : key ∈ rest := (List.mem_cons.mp hkey).resolve_left fun heq => hc (heq ▸ .refl)
      exact ih hsorted.2 hrest h

/-- Such a lockfile is always accepted. -/
theorem dependencyOrder_ok_of_lt (hlt : ∀ parent child, RegistryDependency lock parent child → child < parent) :
    ∃ order, dependencyOrder lock = .ok order := by
  refine dependencyOrder_ok_iff.mpr ⟨fun key hcycle => ?_, fun key n h => ?_⟩
  · have hdescends : ∀ a b, Relation.TransGen (RegistryDependency lock) a b → b < a := by
      intro a b hab
      induction hab with
      | single h => exact hlt _ _ h
      | tail _ h ih => exact lt_trans (hlt _ _ h) ih
    exact lt_irrefl key (hdescends key key hcycle)
  · have hkey : key ∈ lock.packages.keys := by
      obtain ⟨a, ha, hfollows⟩ := h.follows
      cases hfollows with
      | refl => exact ha
      | tail _ hchild =>
        obtain ⟨p, hp⟩ := OrdMap.contains_eq_true.mp (contains_of_mem_children hchild)
        exact OrdMap.mem_keys.mpr ⟨p, hp⟩
    rw [firstChain_eq_one hlt (List.pairwise_map.mpr lock.packages.sorted) hkey h]
    omega

/-- Prereleases of one package: the longer one comes first in key order. -/
def deepTag (k : Nat) : List Char := List.replicate (1025 - k + 1) 'a'

theorem isAlnumIdent_deepTag (k : Nat) : isAlnumIdent (String.ofList (deepTag k)).toList = true := by
  rw [String.toList_ofList, deepTag, isAlnumIdent, List.replicate_succ]
  simp [isIdentChar, Text.isAsciiAlphanumeric]

def deepVersion (k : Nat) : PackageVersion :=
  ⟨1, 3, 0, [.alnum (String.ofList (deepTag k)) (isAlnumIdent_deepTag k)]⟩

def deepIdentity (k : Nat) : PackageIdentity :=
  ⟨.registry ⟨"https://registry.npmjs.org"⟩, PackageIdentity.leftPad, deepVersion k, ∅, .unrestricted⟩

def deepKey (k : Nat) : String := (deepIdentity k).key.display

/-- A package that depends on the one before it. -/
def deepPackage (k : Nat) : LockedPackage :=
  { Lockfile.samplePackage with
    version := (deepVersion k).display
    dependencies := if k = 0 then ∅ else (∅ : OrdMap String String).insert "left-pad" (deepKey (k - 1)) }

/-- The first packages of the chain. -/
def deepLockfile : Nat → Lockfile
  | 0 => Lockfile.emptyLockfile
  | k + 1 => (deepLockfile k).withGraph Lockfile.npmRegistry [deepPackage k] []

theorem deepKey_eq (k : Nat) : deepKey k = LockfilePackageKey.renderFields "https://registry.npmjs.org" "left-pad"
    (deepVersion k).display "" "os=;cpu=;libc=" := by
  have hplatform : canonicalPlatformContext .unrestricted = "os=;cpu=;libc=" := by decide
  have hpeer : canonicalPeerContext ∅ = "" := by decide
  rw [deepKey, LockfilePackageKey.display, deepIdentity, PackageIdentity.key, LockfilePackageKey.withSource,
    hplatform, hpeer]
  rfl

theorem key_deepPackage (k : Nat) : (deepPackage k).key Lockfile.npmRegistry = deepKey k := by
  have hversion : PackageVersion.fromStr (deepPackage k).version = .ok (deepVersion k) :=
    PackageVersion.fromStr_display _
  have hsource : PackageSource.parse Lockfile.npmRegistry (deepPackage k).registry =
      .ok (.ofOrigin ⟨"https://registry.npmjs.org"⟩) := by
    show PackageSource.parse Lockfile.npmRegistry "https://registry.npmjs.org" = _
    decide
  have hname : PackageName.parse (deepPackage k).name = .ok PackageIdentity.leftPad := by
    show PackageName.parse "left-pad" = _
    decide
  rw [LockedPackage.key, hversion, hsource, hname, deepKey_eq]
  rfl

theorem parse_deepKey (k : Nat) :
    LockfilePackageKey.parse Lockfile.npmRegistry (deepKey k) = .ok (deepIdentity k).key := by
  have hparsed : (deepIdentity k).source.Parsed Lockfile.npmRegistry := ⟨"https://registry.npmjs.org", by decide⟩
  exact ((PackageIdentity.parse_key_iff PackageIdentity.hostsHaveNoBar_npmRegistry
    PackageIdentity.originsReparse_npmRegistry hparsed).mpr ⟨rfl, rfl⟩).1

theorem toList_deepKey (k : Nat) : (deepKey k).toList =
    "https://registry.npmjs.org|left-pad@1.3.0-".toList ++ (deepTag k ++ "|peer=-|platform=os=;cpu=;libc=".toList) := by
  have hcore : (deepVersion k).coreChars = "1.3.0".toList := by
    show ['.'].intercalate [Text.numeral 1, Text.numeral 3, Text.numeral 0] = _
    decide
  have hversion : (deepVersion k).display.toList = "1.3.0-".toList ++ deepTag k := by
    rw [PackageVersion.display, String.toList_ofList, PackageVersion.chars, hcore, deepVersion]
    simp [PackageVersion.preChars, PreId.chars, List.intercalate]
  rw [deepKey_eq, LockfilePackageKey.toList_renderFields, hversion]
  simp [List.intercalate, contextOrDash]

theorem deepKey_lt {k k' : Nat} (h : k < k') (hk' : k' ≤ 1025) : deepKey k < deepKey k' := by
  obtain ⟨d, rfl⟩ : ∃ d, k' = k + 1 + d := ⟨k' - (k + 1), by omega⟩
  have htag : deepTag k = deepTag (k + 1 + d) ++ 'a' :: List.replicate d 'a' := by
    rw [deepTag, deepTag, ← List.replicate_succ, ← List.replicate_add]
    congr 1
    omega
  rw [String.lt_iff, toList_deepKey, toList_deepKey, htag, List.append_assoc]
  exact List.append_left_lt (List.append_left_lt (List.Lex.rel (by decide)))

theorem packages_deepLockfile {n : Nat} (hn : n ≤ 1026) (key : String) (p : LockedPackage) :
    (deepLockfile n).packages.get? key = some p ↔ ∃ k < n, key = deepKey k ∧ p = deepPackage k := by
  induction n with
  | zero => simp [deepLockfile, Lockfile.emptyLockfile]
  | succ n ih =>
    have hget : (deepLockfile (n + 1)).packages.get? key =
        if key = deepKey n then some (deepPackage n) else (deepLockfile n).packages.get? key := by
      rw [deepLockfile, Lockfile.withGraph]
      show ((deepLockfile n).packages.insert ((deepPackage n).key Lockfile.npmRegistry) (deepPackage n)).get? key = _
      rw [key_deepPackage, OrdMap.get?_insert]
    rw [hget]
    split_ifs with hkey
    · constructor
      · intro h
        exact ⟨n, Nat.lt_succ_self n, hkey, (Option.some.inj h).symm⟩
      · rintro ⟨k, hk, heq, rfl⟩
        rcases Nat.lt_succ_iff_lt_or_eq.mp hk with hlt | rfl
        · exact absurd (heq.symm.trans hkey) (ne_of_lt (deepKey_lt hlt (by omega)))
        · rfl
    · rw [ih (by omega)]
      constructor
      · rintro ⟨k, hk, h⟩
        exact ⟨k, Nat.lt_succ_of_lt hk, h⟩
      · rintro ⟨k, hk, heq, hp⟩
        rcases Nat.lt_succ_iff_lt_or_eq.mp hk with hlt | rfl
        · exact ⟨k, hlt, heq, hp⟩
        · exact absurd heq hkey

theorem contains_deepLockfile {n : Nat} (hn : n ≤ 1026) {k : Nat} (hk : k < n) :
    (deepLockfile n).packages.contains (deepKey k) = true :=
  OrdMap.contains_eq_true.mpr ⟨deepPackage k, (packages_deepLockfile hn _ _).mpr ⟨k, hk, rfl, rfl⟩⟩

/-- The packages of the chain are valid. -/
theorem validate_deepPackage (k : Nat) : (deepPackage k).validate Lockfile.npmRegistry = .ok () := by
  have hsample : Lockfile.samplePackage.validate Lockfile.npmRegistry = .ok () := by decide
  obtain ⟨source, h⟩ := LockedPackage.validate_eq_ok.mp hsample
  refine LockedPackage.validate_eq_ok.mpr ⟨source, ⟨h.source_eq, h.canonical, h.name,
    ⟨deepVersion k, PackageVersion.fromStr_display _⟩, h.integrity, h.unpacked, h.tree, ⟨∅, rfl⟩, ?_, h.evidence,
    h.artifactUrl, rfl, ?_⟩⟩
  · obtain ⟨c, hc⟩ := h.platform
    exact ⟨c, decodePlatformContext_ok_irrel hc⟩
  · intro name hname
    obtain ⟨dependency, hget⟩ := OrdMap.mem_keys.mp hname
    have hdependencies : (deepPackage k).dependencies =
        if k = 0 then ∅ else (∅ : OrdMap String String).insert "left-pad" (deepKey (k - 1)) := rfl
    rw [hdependencies] at hget
    split_ifs at hget with hk
    · cases hget
    · rw [OrdMap.get?_insert] at hget
      split_ifs at hget with hleft
      · exact ⟨PackageIdentity.leftPad, hleft ▸ by decide⟩
      · cases hget

theorem workspacePackages_deepLockfile (n : Nat) : (deepLockfile n).workspacePackages = ∅ := by
  induction n with
  | zero => rfl
  | succ n ih =>
    rw [deepLockfile, Lockfile.withGraph]
    exact ih

/-- The next package of the chain may be inserted. -/
theorem checkGraph_deepLockfile {n : Nat} (hn : n ≤ 1025) :
    Lockfile.checkGraph Lockfile.npmRegistry (deepLockfile n) [deepPackage n] [] = .ok () := by
  have hfresh : (deepLockfile n).containsPackageKey (deepKey n) = false := by
    rw [Lockfile.containsPackageKey, workspacePackages_deepLockfile, Bool.or_eq_false_iff]
    refine ⟨OrdMap.contains_eq_false.mpr ?_, rfl⟩
    rw [Option.eq_none_iff_forall_ne_some]
    intro p hp
    obtain ⟨k, hk, hkey, -⟩ := (packages_deepLockfile (by omega) _ _).mp hp
    exact absurd hkey (ne_of_gt (deepKey_lt hk hn))
  have hbatch : Lockfile.collectBatch (LockedPackage.validate Lockfile.npmRegistry)
      (LockedPackage.key Lockfile.npmRegistry) (deepLockfile n).containsPackageKey [deepPackage n] ∅ =
        .ok ((∅ : OrdMap String LockedPackage).insert (deepKey n) (deepPackage n)) := by
    simp only [Lockfile.collectBatch, bind_eq_ok, rejectIf_eq_ok, not_or]
    refine ⟨(), validate_deepPackage n, (), ⟨?_, ?_⟩, ?_⟩
    · rw [key_deepPackage, hfresh]
      exact Bool.false_ne_true
    · simp
    · rw [key_deepPackage]
  have hedges : Lockfile.checkEdges Lockfile.npmRegistry LockedPackage.dependencies LockedPackage.dependencyAliases
      (fun key => (deepLockfile n).containsPackageKey key ||
        ((∅ : OrdMap String LockedPackage).insert (deepKey n) (deepPackage n)).contains key ||
          (∅ : OrdMap String LockedWorkspacePackage).contains key)
      ((∅ : OrdMap String LockedPackage).insert (deepKey n) (deepPackage n)).entries = .ok () := by
    refine Lockfile.checkEdges_eq_ok.mpr fun key p hmem name dependency hget => ?_
    rw [OrdMap.mem_entries, OrdMap.get?_insert] at hmem
    split_ifs at hmem with hkey
    · obtain rfl := Option.some.inj hmem
      have hdependencies : (deepPackage n).dependencies =
          if n = 0 then ∅ else (∅ : OrdMap String String).insert "left-pad" (deepKey (n - 1)) := rfl
      rw [hdependencies] at hget
      split_ifs at hget with hzero
      · cases hget
      · rw [OrdMap.get?_insert] at hget
        split_ifs at hget with hname
        · -- the dependency is the package inserted last
          obtain rfl := Option.some.inj hget
          have hlt : deepKey (n - 1) < deepKey n := deepKey_lt (by omega) hn
          refine Lockfile.validateDependencyTarget_eq_ok.mpr ⟨_, parse_deepKey (n - 1), hkey ▸ ne_of_lt hlt,
            fun hne => absurd hname.symm hne, ?_⟩
          rw [Lockfile.containsPackageKey, contains_deepLockfile (by omega) (show n - 1 < n by omega)]
          rfl
        · cases hget
    · cases hmem
  rw [Lockfile.checkGraph, hbatch]
  show (do
    Lockfile.checkEdges Lockfile.npmRegistry LockedPackage.dependencies LockedPackage.dependencyAliases
      (fun key => (deepLockfile n).containsPackageKey key ||
        ((∅ : OrdMap String LockedPackage).insert (deepKey n) (deepPackage n)).contains key ||
          (∅ : OrdMap String LockedWorkspacePackage).contains key)
      ((∅ : OrdMap String LockedPackage).insert (deepKey n) (deepPackage n)).entries
    _) = _
  rw [hedges]
  rfl

/-- **The chain is a lockfile that insertions build.** -/
theorem reachable_deepLockfile {n : Nat} (hn : n ≤ 1026) :
    Lockfile.Reachable Lockfile.npmRegistry Lockfile.noCodec (deepLockfile n) := by
  induction n with
  | zero => exact .new Lockfile.new_sampleDigest
  | succ n ih =>
    have hinsert : (Lockfile.Mutation.insertPackage (deepPackage n)).run Lockfile.npmRegistry (deepLockfile n) =
        .ok () (deepLockfile (n + 1)) := by
      rw [Lockfile.Mutation.run_eq, Lockfile.Mutation.checked, checkGraph_deepLockfile (by omega)]
      rfl
    have hreachable := (ih (by omega)).mutate (.insertPackage (deepPackage n))
    rwa [hinsert] at hreachable

theorem dependency_deepLockfile {parent child : String} :
    RegistryDependency (deepLockfile 1025) parent child ↔
      ∃ k, k + 1 < 1025 ∧ parent = deepKey (k + 1) ∧ child = deepKey k := by
  constructor
  · rintro ⟨p, hp, hmem, -⟩
    obtain ⟨n, hn, rfl, rfl⟩ := (packages_deepLockfile (by omega) _ _).mp hp
    cases n with
    | zero =>
      obtain ⟨name, hget⟩ := OrdMap.mem_values.mp hmem
      cases hget
    | succ k =>
      refine ⟨k, hn, rfl, ?_⟩
      obtain ⟨name, hget⟩ := OrdMap.mem_values.mp hmem
      have hdependencies : (deepPackage (k + 1)).dependencies =
          (∅ : OrdMap String String).insert "left-pad" (deepKey k) := rfl
      rw [hdependencies, OrdMap.get?_insert] at hget
      split_ifs at hget
      · exact (Option.some.inj hget).symm
      · cases hget
  · rintro ⟨k, hk, rfl, rfl⟩
    refine ⟨deepPackage (k + 1), (packages_deepLockfile (by omega) _ _).mpr ⟨k + 1, hk, rfl, rfl⟩, ?_,
      contains_deepLockfile (by omega) (by omega)⟩
    exact OrdMap.mem_values.mpr ⟨"left-pad", OrdMap.get?_insert_self _ _ _⟩

/-- The whole chain, from the last package to the first. -/
theorem isDependencyChain_deep {n : Nat} (hn : n < 1025) :
    ∃ rest, IsDependencyChain (deepLockfile 1025) (deepKey n :: rest) ∧ rest.length = n := by
  induction n with
  | zero =>
    refine ⟨[], ⟨fun key hkey => ?_, List.isChain_singleton _⟩, rfl⟩
    rw [List.mem_singleton.mp hkey]
    exact contains_deepLockfile (by omega) hn
  | succ n ih =>
    obtain ⟨rest, ⟨hmem, hchain⟩, hlength⟩ := ih (by omega)
    refine ⟨deepKey n :: rest, ⟨fun key hkey => ?_,
      List.isChain_cons_cons.mpr ⟨dependency_deepLockfile.mpr ⟨n, hn, rfl, rfl⟩, hchain⟩⟩, by simp [hlength]⟩
    rcases List.mem_cons.mp hkey with rfl | hkey
    · exact contains_deepLockfile (by omega) hn
    · exact hmem key hkey

/-- A chain of 1025 packages is ordered, because each is done before the next is
entered. -/
theorem not_exactOrder_deepLockfile :
    Lockfile.Reachable Lockfile.npmRegistry Lockfile.noCodec (deepLockfile 1025) ∧
      ¬ ExactOrder (deepLockfile 1025) := by
  refine ⟨reachable_deepLockfile (by omega), fun hexact => ?_⟩
  have hlt : ∀ parent child, RegistryDependency (deepLockfile 1025) parent child → child < parent := by
    intro parent child h
    obtain ⟨k, hk, rfl, rfl⟩ := dependency_deepLockfile.mp h
    exact deepKey_lt (Nat.lt_succ_self k) (by omega)
  obtain ⟨rest, hchain, hlength⟩ := isDependencyChain_deep (n := 1024) (by omega)
  have hshort := (hexact.1.mp (dependencyOrder_ok_of_lt hlt)).2 _ hchain
  rw [List.length_cons, hlength] at hshort
  omega

end DependencyScripts

end Tapid
