/-
Paths that never come back.

A step leads to further steps, and each is at a place.  A path is simple when
its steps follow one another and no two are at one place; all extensions of a
path by at most so many steps are enumerated depth first, the path itself before
those that go on.

* `below` — the enumeration;
* `mem_below_singleton` — it has every simple path of bounded length;
* `below_of_exhausted` — and every simple path, when no step is left at the bound;
* `nodup_below` — each once.
-/
import Mathlib.Data.List.Basic
import Mathlib.Data.List.Nodup
import Mathlib.Data.List.Infix
import Mathlib.Data.List.Chain

namespace SimplePaths

variable {S K : Type} (next : S → List S) (key : S → K)

/-- Steps that follow one another, each at another place. -/
structure Simple (path : List S) : Prop where
  follows : path.IsChain fun a b => b ∈ next a
  nodup : (path.map key).Nodup

variable [DecidableEq K]

/-- Steps that go on from the end of a path without coming back to it. -/
def fresh (path : List S) (s : S) : List S := (next s).filter fun t => key t ∉ path.map key

/-- A path that ends in a step, and its extensions by at most so many steps. -/
def below : Nat → List S → S → List (List S)
  | 0, path, _ => [path]
  | n + 1, path, s => path :: (fresh next key path s).flatMap fun t => below n (path ++ [t]) t

/-- After so many steps there is no further one. -/
def Exhausted : Nat → List S → S → Prop
  | 0, _, s => next s = []
  | n + 1, path, s => ∀ t ∈ fresh next key path s, Exhausted n (path ++ [t]) t

variable {next key} {n m : Nat} {path p : List S} {s t : S}

theorem mem_fresh : t ∈ fresh next key path s ↔ t ∈ next s ∧ key t ∉ path.map key := by
  rw [fresh, List.mem_filter, decide_eq_true_eq]

omit [DecidableEq K] in
theorem nodup_map_append (hpath : (path.map key).Nodup) (ht : key t ∉ path.map key) :
    ((path ++ [t]).map key).Nodup := by
  rw [List.map_append, List.nodup_append]
  refine ⟨hpath, List.nodup_singleton _, fun a ha b hb heq => ht ?_⟩
  rw [← List.mem_singleton.mp hb, ← heq]
  exact ha

/-- **What is enumerated.** -/
theorem mem_below (hpath : (path.map key).Nodup) : p ∈ below next key n path s ↔
    ∃ rest, p = path ++ rest ∧ rest.length ≤ n ∧ ((s :: rest).IsChain fun a b => b ∈ next a) ∧
      (p.map key).Nodup := by
  induction n generalizing path s with
  | zero =>
    rw [below, List.mem_singleton]
    constructor
    · rintro rfl
      exact ⟨[], (List.append_nil p).symm, Nat.le_refl 0, List.isChain_singleton s, hpath⟩
    · rintro ⟨rest, rfl, hlength, _, _⟩
      rw [List.length_eq_zero_iff.mp (Nat.le_zero.mp hlength), List.append_nil]
  | succ n ih =>
    rw [below, List.mem_cons, List.mem_flatMap]
    constructor
    · rintro (rfl | ⟨t, ht, hp⟩)
      · exact ⟨[], (List.append_nil p).symm, Nat.zero_le _, List.isChain_singleton s, hpath⟩
      · obtain ⟨hnext, hfresh⟩ := mem_fresh.mp ht
        obtain ⟨rest, rfl, hlength, hchain, hnodup⟩ := (ih (nodup_map_append hpath hfresh)).mp hp
        refine ⟨t :: rest, by rw [List.append_assoc]; rfl, Nat.succ_le_succ hlength, ?_, hnodup⟩
        exact List.isChain_cons_cons.mpr ⟨hnext, hchain⟩
    · rintro ⟨rest, rfl, hlength, hchain, hnodup⟩
      cases rest with
      | nil => exact Or.inl (List.append_nil path)
      | cons t rest =>
        obtain ⟨hnext, hchain⟩ := List.isChain_cons_cons.mp hchain
        have hsplit : path ++ t :: rest = path ++ [t] ++ rest := by rw [List.append_assoc]; rfl
        have hfresh : key t ∉ path.map key := by
          rw [hsplit, List.map_append, List.map_append] at hnodup
          have hinit := (List.nodup_append.mp hnodup).1
          exact fun hmem => (List.nodup_append.mp hinit).2.2 _ hmem _ (List.mem_singleton_self _) rfl
        have hrest := (@ih (path ++ [t]) t (nodup_map_append hpath hfresh)).mpr
          ⟨rest, hsplit, Nat.le_of_succ_le_succ hlength, hchain, hnodup⟩
        exact Or.inr ⟨t, mem_fresh.mpr ⟨hnext, hfresh⟩, hrest⟩

/-- **From one step, every simple path of bounded length.** -/
theorem mem_below_singleton : p ∈ below next key n [s] s ↔
    ∃ rest, p = s :: rest ∧ rest.length ≤ n ∧ Simple next key p := by
  have hpath : ([s].map key).Nodup := List.nodup_singleton (key s)
  rw [mem_below hpath]
  constructor
  · rintro ⟨rest, rfl, hlength, hchain, hnodup⟩
    exact ⟨rest, rfl, hlength, hchain, hnodup⟩
  · rintro ⟨rest, rfl, hlength, hsimple⟩
    exact ⟨rest, rfl, hlength, hsimple.follows, hsimple.nodup⟩

/-- Where no step is left, a larger bound finds no more. -/
theorem below_of_exhausted (h : Exhausted next key n path s) (hle : n ≤ m) :
    below next key m path s = below next key n path s := by
  induction n generalizing path s m with
  | zero =>
    cases m with
    | zero => rfl
    | succ m =>
      have hnil : next s = [] := h
      rw [below, below, fresh, hnil]
      rfl
  | succ n ih =>
    obtain ⟨m, rfl⟩ := Nat.exists_eq_succ_of_ne_zero (by omega : m ≠ 0)
    have hall : ∀ t ∈ fresh next key path s, Exhausted next key n (path ++ [t]) t := h
    rw [below, below]
    congr 1
    exact List.flatMap_congr fun t ht => ih (hall t ht) (by omega)

/-- **Every simple path**, when no step is left at the bound. -/
theorem mem_below_of_exhausted (h : Exhausted next key n [s] s) : p ∈ below next key n [s] s ↔
    ∃ rest, p = s :: rest ∧ Simple next key p := by
  constructor
  · intro hp
    obtain ⟨rest, hrest, _, hsimple⟩ := mem_below_singleton.mp hp
    exact ⟨rest, hrest, hsimple⟩
  · rintro ⟨rest, hrest, hsimple⟩
    rw [← below_of_exhausted h (Nat.le_max_left n rest.length)]
    exact mem_below_singleton.mpr ⟨rest, hrest, Nat.le_max_right n rest.length, hsimple⟩

/-- Every path that is enumerated goes on from the given one. -/
theorem isPrefix_of_mem_below (h : p ∈ below next key n path s) : path <+: p := by
  induction n generalizing path s with
  | zero => rw [List.mem_singleton.mp h]
  | succ n ih =>
    rw [below, List.mem_cons, List.mem_flatMap] at h
    rcases h with rfl | ⟨t, _, hp⟩
    · exact List.prefix_rfl
    · exact (List.prefix_append path [t]).trans (ih hp)

/-- **Each path once**, when no step is offered twice. -/
theorem nodup_below (hnext : ∀ s, (next s).Nodup) : (below next key n path s).Nodup := by
  induction n generalizing path s with
  | zero => exact List.nodup_singleton path
  | succ n ih =>
    rw [below, List.nodup_cons, List.nodup_flatMap]
    refine ⟨fun hmem => ?_, fun t _ => ih, ?_⟩
    · obtain ⟨t, _, hp⟩ := List.mem_flatMap.mp hmem
      have hlength := (isPrefix_of_mem_below hp).length_le
      rw [List.length_append, List.length_singleton] at hlength
      omega
    · refine ((hnext s).filter _).imp fun {t u} hne => ?_
      intro p hp hp'
      -- both go on from the path, one by the one step and one by the other
      obtain ⟨rest, hrest⟩ := isPrefix_of_mem_below hp
      obtain ⟨rest', hrest'⟩ := isPrefix_of_mem_below hp'
      rw [← hrest', List.append_assoc, List.append_assoc] at hrest
      exact hne (List.cons.inj (List.append_cancel_left hrest)).1

end SimplePaths
