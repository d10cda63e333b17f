/-
Ordered maps and ordered sets as strictly sorted lists.

`OrdMap K V` is an association list whose keys increase strictly, `OrdSet K` a
strictly increasing list.  The representation is canonical, so two maps that
answer every lookup alike are equal (`OrdMap.ext_get?`), and iterating the
entries visits the keys in order.

* `OrdMap.get?_insert`, `OrdMap.get?_erase`, `OrdMap.get?_filter`,
  `OrdMap.get?_mapVal` — what the operations do to a lookup;
* `OrdMap.mem_entries` — the entries are exactly the lookups;
* `OrdMap.get?_group` — grouping a list of pairs by key;
* `OrdSet.mem_insert`, `OrdSet.mem_ofList`, `OrdSet.ext_mem` — the same for
  sets.

The sortedness proof is a field, so no operation has to carry it around.
-/
import Mathlib.Order.Basic
import Mathlib.Data.List.Pairwise
import Mathlib.Order.Defs.LinearOrder
import Mathlib.Tactic
import Tapid.Fallible

universe u v w

/-- An ordered map: entries with strictly increasing keys. -/
structure OrdMap (K : Type u) (V : Type v) [LinearOrder K] where
  entries : List (K × V)
  sorted : entries.Pairwise fun a b => a.1 < b.1

namespace OrdMap

section Lists

variable {K : Type u} {V : Type v} [LinearOrder K]

/-- Sorted insertion into an association list, replacing an entry with the
same key. -/
def insertEntry (k : K) (v : V) : List (K × V) → List (K × V)
  | [] => [(k, v)]
  | (k', v') :: rest =>
    if k < k' then (k, v) :: (k', v') :: rest
    else if k = k' then (k, v) :: rest
    else (k', v') :: insertEntry k v rest

theorem mem_insertEntry {k : K} {v : V} {e : K × V} {l : List (K × V)}
    (h : e ∈ insertEntry k v l) : e = (k, v) ∨ e ∈ l := by
  induction l with
  | nil => simpa [insertEntry] using h
  | cons hd tl ih =>
    obtain ⟨k', v'⟩ := hd
    rw [insertEntry] at h
    split_ifs at h with h1 h2
    · simpa using h
    · rcases List.mem_cons.mp h with h | h
      · exact Or.inl h
      · exact Or.inr (List.mem_cons_of_mem _ h)
    · rcases List.mem_cons.mp h with h | h
      · exact Or.inr (h ▸ List.mem_cons_self)
      · exact (ih h).imp_right (List.mem_cons_of_mem _)

theorem insertEntry_sorted {k : K} {v : V} {l : List (K × V)}
    (h : l.Pairwise fun a b => a.1 < b.1) :
    (insertEntry k v l).Pairwise fun a b => a.1 < b.1 := by
  induction l with
  | nil => simp [insertEntry]
  | cons hd tl ih =>
    obtain ⟨k', v'⟩ := hd
    obtain ⟨hhd, htl⟩ := List.pairwise_cons.mp h
    rw [insertEntry]
    split_ifs with h1 h2
    · refine List.pairwise_cons.mpr ⟨fun e he => ?_, h⟩
      rcases List.mem_cons.mp he with rfl | he
      · exact h1
      · exact h1.trans (hhd e he)
    · subst h2
      exact List.pairwise_cons.mpr ⟨hhd, htl⟩
    · refine List.pairwise_cons.mpr ⟨fun e he => ?_, ih htl⟩
      rcases mem_insertEntry he with rfl | he
      · exact lt_of_le_of_ne (not_lt.mp h1) (Ne.symm h2)
      · exact hhd e he

/-- Value of the first entry with the given key. -/
def findEntry (k : K) : List (K × V) → Option V
  | [] => none
  | (k', v) :: rest => if k = k' then some v else findEntry k rest

theorem findEntry_insertEntry (k k' : K) (v : V) (l : List (K × V)) :
    findEntry k' (insertEntry k v l) = if k' = k then some v else findEntry k' l := by
  induction l with
  | nil => rfl
  | cons hd tl ih =>
    obtain ⟨k₁, v₁⟩ := hd
    rw [insertEntry]
    by_cases h1 : k < k₁
    · rw [if_pos h1, findEntry]
    · rw [if_neg h1]
      by_cases h2 : k = k₁
      · subst h2
        rw [if_pos rfl]
        by_cases h3 : k' = k <;> simp [findEntry, h3]
      · rw [if_neg h2, findEntry, ih]
        by_cases h3 : k' = k
        · subst h3
          simp [h2]
        · simp [findEntry, h3]

theorem findEntry_eq_some {k : K} {v : V} {l : List (K × V)}
    (h : l.Pairwise fun a b => a.1 < b.1) : findEntry k l = some v ↔ (k, v) ∈ l := by
  induction l with
  | nil => simp [findEntry]
  | cons hd tl ih =>
    obtain ⟨k', v'⟩ := hd
    obtain ⟨hhd, htl⟩ := List.pairwise_cons.mp h
    by_cases hk : k = k'
    · subst hk
      have hne : ∀ w, (k, w) ∉ tl := fun w hm => lt_irrefl k (hhd (k, w) hm)
      simp [findEntry, hne, eq_comm]
    · simp [findEntry, hk, ih htl]

end Lists

section Operations

variable {K : Type u} {V : Type v} {W : Type w} [LinearOrder K]

/-- The map without entries. -/
def empty : OrdMap K V := ⟨[], List.Pairwise.nil⟩

instance : EmptyCollection (OrdMap K V) := ⟨empty⟩

instance : Inhabited (OrdMap K V) := ⟨empty⟩

instance [DecidableEq V] : DecidableEq (OrdMap K V) := fun a b =>
  decidable_of_iff (a.entries = b.entries) (by cases a; cases b; simp)

/-- Value stored under a key. -/
def get? (m : OrdMap K V) (k : K) : Option V := findEntry k m.entries

/-- Whether a key is present. -/
def contains (m : OrdMap K V) (k : K) : Bool := (m.get? k).isSome

/-- Insert, replacing the value of a present key. -/
def insert (m : OrdMap K V) (k : K) (v : V) : OrdMap K V :=
  ⟨insertEntry k v m.entries, insertEntry_sorted m.sorted⟩

/-- Keep the entries that satisfy `p`. -/
def filter (p : K → V → Bool) (m : OrdMap K V) : OrdMap K V :=
  ⟨m.entries.filter fun e => p e.1 e.2, m.sorted.filter _⟩

/-- Remove a key. -/
def erase (m : OrdMap K V) (k : K) : OrdMap K V := m.filter fun k' _ => k' ≠ k

/-- Apply a function to every value. -/
def mapVal (f : K → V → W) (m : OrdMap K V) : OrdMap K W :=
  ⟨m.entries.map fun e => (e.1, f e.1 e.2), by
    rw [List.pairwise_map]
    exact m.sorted⟩

/-- Insert the pairs of a list in turn, later ones replacing earlier ones. -/
def insertAll (m : OrdMap K V) (l : List (K × V)) : OrdMap K V :=
  l.foldl (fun m e => m.insert e.1 e.2) m

/-- Collect a list of pairs. -/
def ofList (l : List (K × V)) : OrdMap K V := empty.insertAll l

/-- Keys in increasing order. -/
def keys (m : OrdMap K V) : List K := m.entries.map Prod.fst

/-- Values in the order of their keys. -/
def values (m : OrdMap K V) : List V := m.entries.map Prod.snd

/-- Whether there is no entry. -/
def isEmpty (m : OrdMap K V) : Bool := m.entries.isEmpty

end Operations

section Lookup

variable {K : Type u} {V : Type v} {W : Type w} [LinearOrder K] {m m' : OrdMap K V}

theorem mem_entries {k : K} {v : V} : (k, v) ∈ m.entries ↔ m.get? k = some v :=
  (findEntry_eq_some m.sorted).symm

/-- **Maps are determined by their lookups.** -/
theorem ext_get? (h : ∀ k, m.get? k = m'.get? k) : m = m' := by
  have hmem : ∀ e, e ∈ m.entries ↔ e ∈ m'.entries := fun e => by
    rw [mem_entries, mem_entries, h]
  have hirr : ∀ a b : K × V, a.1 < b.1 → b.1 < a.1 → a = b :=
    fun a b hab hba => absurd hab (lt_asymm hba)
  have hnd : ∀ {n : OrdMap K V}, n.entries.Nodup := fun {n} =>
    n.sorted.imp fun {a b} (hab : a.1 < b.1) (heq : a = b) => absurd (heq ▸ hab) (lt_irrefl _)
  have hperm : m.entries.Perm m'.entries := (List.perm_ext_iff_of_nodup hnd hnd).mpr hmem
  have heq : m.entries = m'.entries :=
    hperm.eq_of_pairwise (fun a b _ _ => hirr a b) m.sorted m'.sorted
  cases m
  cases m'
  simpa using heq

@[simp] theorem get?_empty (k : K) : (∅ : OrdMap K V).get? k = none := rfl

@[simp] theorem get?_empty' (k : K) : (empty : OrdMap K V).get? k = none := rfl

@[simp] theorem entries_empty : (∅ : OrdMap K V).entries = [] := rfl

theorem get?_insert (m : OrdMap K V) (k k' : K) (v : V) :
    (m.insert k v).get? k' = if k' = k then some v else m.get? k' :=
  findEntry_insertEntry k k' v m.entries

@[simp] theorem get?_insert_self (m : OrdMap K V) (k : K) (v : V) :
    (m.insert k v).get? k = some v := by
  rw [get?_insert, if_pos rfl]

theorem get?_insert_of_ne (m : OrdMap K V) {k k' : K} (v : V) (h : k' ≠ k) :
    (m.insert k v).get? k' = m.get? k' := by
  rw [get?_insert, if_neg h]

theorem get?_filter (p : K → V → Bool) (m : OrdMap K V) (k : K) :
    (m.filter p).get? k = (m.get? k).filter (p k) := by
  refine Option.ext fun v => ?_
  rw [Option.filter_eq_some_iff, ← mem_entries, ← mem_entries]
  simp [filter]

theorem get?_erase (m : OrdMap K V) (k k' : K) :
    (m.erase k).get? k' = if k' = k then none else m.get? k' := by
  rw [erase, get?_filter]
  by_cases h : k' = k
  · simp [h]
  · rw [if_neg h]
    cases m.get? k' <;> simp [h]

theorem get?_mapVal (f : K → V → W) (m : OrdMap K V) (k : K) :
    (m.mapVal f).get? k = (m.get? k).map (f k) := by
  refine Option.ext fun w => ?_
  rw [Option.map_eq_some_iff, ← mem_entries]
  constructor
  · intro h
    obtain ⟨⟨k', v⟩, he, heq⟩ := List.mem_map.mp h
    obtain ⟨rfl, rfl⟩ := Prod.mk.inj heq
    exact ⟨v, mem_entries.mp he, rfl⟩
  · rintro ⟨v, hv, rfl⟩
    exact List.mem_map.mpr ⟨(k, v), mem_entries.mpr hv, rfl⟩

@[simp] theorem contains_eq_true {k : K} : m.contains k = true ↔ ∃ v, m.get? k = some v := by
  rw [contains, Option.isSome_iff_exists]

@[simp] theorem contains_eq_false {k : K} : m.contains k = false ↔ m.get? k = none := by
  rw [contains, Option.isSome_eq_false_iff, Option.isNone_iff_eq_none]

theorem mem_keys {k : K} : k ∈ m.keys ↔ ∃ v, m.get? k = some v := by
  rw [keys, List.mem_map]
  constructor
  · rintro ⟨⟨k', v⟩, he, rfl⟩
    exact ⟨v, mem_entries.mp he⟩
  · rintro ⟨v, hv⟩
    exact ⟨(k, v), mem_entries.mpr hv, rfl⟩

theorem not_mem_keys {k : K} (h : m.get? k = none) : k ∉ m.keys := by
  rw [mem_keys, h]
  simp

theorem nodup_keys (m : OrdMap K V) : m.keys.Nodup := by
  rw [keys, List.Nodup, List.pairwise_map]
  exact m.sorted.imp fun h => ne_of_lt h

theorem keys_mapVal (f : K → V → W) (m : OrdMap K V) : (m.mapVal f).keys = m.keys := by
  rw [keys, keys, mapVal, List.map_map]
  rfl

theorem mem_values {v : V} : v ∈ m.values ↔ ∃ k, m.get? k = some v := by
  rw [values, List.mem_map]
  constructor
  · rintro ⟨⟨k, v'⟩, he, rfl⟩
    exact ⟨k, mem_entries.mp he⟩
  · rintro ⟨k, hk⟩
    exact ⟨(k, v), mem_entries.mpr hk, rfl⟩

theorem isEmpty_iff : m.isEmpty = true ↔ ∀ k, m.get? k = none := by
  rw [isEmpty, List.isEmpty_iff]
  constructor
  · intro h k
    rw [get?, h]
    rfl
  · intro h
    refine List.eq_nil_iff_forall_not_mem.mpr fun e he => ?_
    have := mem_entries.mp (show (e.1, e.2) ∈ m.entries from he)
    rw [h] at this
    simp at this

theorem eq_empty_of_isEmpty (h : m.isEmpty = true) : m = ∅ :=
  ext_get? fun k => isEmpty_iff.mp h k

theorem insertAll_cons (m : OrdMap K V) (e : K × V) (l : List (K × V)) :
    m.insertAll (e :: l) = (m.insert e.1 e.2).insertAll l := rfl

/-- Inserting a list changes only the listed keys. -/
theorem get?_insertAll_of_not_mem (m : OrdMap K V) {l : List (K × V)} {k : K}
    (h : k ∉ l.map Prod.fst) : (m.insertAll l).get? k = m.get? k := by
  induction l generalizing m with
  | nil => rfl
  | cons e tl ih =>
    rw [List.map_cons, List.mem_cons, not_or] at h
    rw [insertAll_cons, ih _ h.2, get?_insert_of_ne _ _ h.1]

/-- With distinct keys every listed pair is found. -/
theorem get?_insertAll_of_mem (m : OrdMap K V) {l : List (K × V)} {k : K} {v : V}
    (hnd : (l.map Prod.fst).Nodup) (h : (k, v) ∈ l) : (m.insertAll l).get? k = some v := by
  induction l generalizing m with
  | nil => simp at h
  | cons e tl ih =>
    rw [List.map_cons] at hnd
    obtain ⟨hhd, htl⟩ := List.nodup_cons.mp hnd
    rw [insertAll_cons]
    rcases List.mem_cons.mp h with rfl | h
    · rw [get?_insertAll_of_not_mem _ hhd, get?_insert_self]
    · exact ih _ htl h

/-- Whatever a lookup finds after inserting a list was listed or was there. -/
theorem mem_or_get?_of_insertAll {l : List (K × V)} {k : K} {v : V}
    (h : (m.insertAll l).get? k = some v) : (k, v) ∈ l ∨ m.get? k = some v := by
  induction l generalizing m with
  | nil => exact Or.inr h
  | cons e tl ih =>
    rw [insertAll_cons] at h
    rcases ih h with h | h
    · exact Or.inl (List.mem_cons_of_mem _ h)
    · rw [get?_insert] at h
      split_ifs at h with hk
      · left
        rw [← Option.some_inj.mp h, hk]
        exact List.mem_cons_self
      · exact Or.inr h

/-- What a lookup finds after inserting a list: the last listed value, or else
what was there. -/
theorem get?_insertAll (m : OrdMap K V) (l : List (K × V)) (k : K) :
    (m.insertAll l).get? k = ((ofList l).get? k).or (m.get? k) := by
  induction l generalizing m with
  | nil => rfl
  | cons e tl ih =>
    rw [ofList, insertAll_cons, ih, insertAll_cons, ih (empty.insert e.1 e.2), Option.or_assoc,
      get?_insert, get?_insert]
    by_cases hk : k = e.1 <;> simp [hk]

/-- A map collected from a list only holds listed pairs. -/
theorem mem_of_get?_ofList {l : List (K × V)} {k : K} {v : V} (h : (ofList l).get? k = some v) :
    (k, v) ∈ l := by
  rcases mem_or_get?_of_insertAll h with h | h
  · exact h
  · simp at h

/-- Inserting under the only key replaces its value. -/
theorem insert_ofList_singleton (k : K) (v v' : V) :
    (ofList [(k, v)]).insert k v' = ofList [(k, v')] := by
  refine ext_get? fun k' => ?_
  have hsingle : ∀ w : V, ofList [(k, w)] = empty.insert k w := fun _ => rfl
  rw [hsingle, hsingle, get?_insert, get?_insert, get?_insert]
  by_cases hk : k' = k <;> simp [hk]

@[simp] theorem contains_insert {k k' : K} {v : V} :
    (m.insert k v).contains k' = (k' == k || m.contains k') := by
  rw [contains, get?_insert]
  by_cases h : k' = k <;> simp [h, contains]

@[simp] theorem contains_insertAll {l : List (K × V)} {k : K} :
    (m.insertAll l).contains k = (m.contains k || (l.map Prod.fst).elem k) := by
  induction l generalizing m with
  | nil => simp [insertAll]
  | cons e tl ih =>
    rw [insertAll_cons, ih, contains_insert, List.map_cons, List.elem_cons]
    cases m.contains k <;> cases (k == e.1) <;> simp

theorem insertAll_of_entries (m : OrdMap K V) : ofList m.entries = m := by
  refine ext_get? fun k => ?_
  cases hk : m.get? k with
  | some v => exact get?_insertAll_of_mem _ m.nodup_keys (mem_entries.mpr hk)
  | none => exact (get?_insertAll_of_not_mem _ (not_mem_keys hk)).trans (get?_empty' k)

theorem entries_ofList {l : List (K × V)} (h : l.Pairwise fun a b => a.1 < b.1) : (ofList l).entries = l :=
  congrArg entries (insertAll_of_entries ⟨l, h⟩)

/-- The order in which different keys are inserted does not matter. -/
theorem insertAll_perm (m : OrdMap K V) {l l' : List (K × V)} (hperm : l.Perm l')
    (hnd : (l.map Prod.fst).Nodup) : m.insertAll l = m.insertAll l' := by
  have hnd' : (l'.map Prod.fst).Nodup := (hperm.map Prod.fst).nodup_iff.mp hnd
  refine ext_get? fun k => ?_
  by_cases hk : k ∈ l.map Prod.fst
  · obtain ⟨⟨k, v⟩, he, rfl⟩ := List.mem_map.mp hk
    rw [get?_insertAll_of_mem m hnd he, get?_insertAll_of_mem m hnd' (hperm.mem_iff.mp he)]
  · have hk' : k ∉ l'.map Prod.fst := fun h => hk ((hperm.map Prod.fst).mem_iff.mpr h)
    rw [get?_insertAll_of_not_mem m hk, get?_insertAll_of_not_mem m hk']

theorem insertAll_append (m : OrdMap K V) (l l' : List (K × V)) :
    m.insertAll (l ++ l') = (m.insertAll l).insertAll l' := List.foldl_append

end Lookup

/-! ### Fallible mapping -/

section Fallibly

open Fallible

/-- Fallible mapping, the keys stay. -/
def mapValM {K V W ε : Type} [LinearOrder K] (f : K → V → Except ε W) (m : OrdMap K V) :
    Except ε (OrdMap K W) := do
  let entries ← m.entries.mapM fun e => (f e.1 e.2).map fun w => (e.1, w)
  return ofList entries

/-- **A fallible mapping changes each value by itself.** -/
theorem get?_mapValM {K V W ε : Type} [LinearOrder K] {f : K → V → Except ε W} {m : OrdMap K V}
    {m' : OrdMap K W} (h : m.mapValM f = .ok m') (k : K) :
    (m.get? k = none ∧ m'.get? k = none) ∨
      ∃ v w, m.get? k = some v ∧ f k v = .ok w ∧ m'.get? k = some w := by
  rw [mapValM] at h
  obtain ⟨entries, hentries, h⟩ := bind_eq_ok.mp h
  obtain rfl := pure_eq_ok.mp h
  have hsorted : entries.Pairwise fun a b => a.1 < b.1 := by
    have hkeys : entries.map Prod.fst = m.entries.map Prod.fst := by
      refine map_eq_of_mapM_ok hentries fun e w hw => ?_
      obtain ⟨v, -, rfl⟩ := map_eq_ok.mp hw
      rfl
    have hpairwise := m.sorted
    rw [← List.pairwise_map (f := Prod.fst) (R := (· < ·)), ← hkeys, List.pairwise_map] at hpairwise
    exact hpairwise
  have hget : ∀ w, (ofList entries).get? k = some w ↔ (k, w) ∈ entries := fun w => by
    rw [← mem_entries, entries_ofList hsorted]
  cases hk : m.get? k with
  | none =>
    refine Or.inl ⟨rfl, Option.eq_none_iff_forall_ne_some.mpr fun w hw => ?_⟩
    obtain ⟨e, he, hew⟩ := of_mem_mapM_ok hentries _ ((hget w).mp hw)
    obtain ⟨v, -, heq⟩ := map_eq_ok.mp hew
    rw [← (Prod.mk.inj heq).1, mem_entries.mp he] at hk
    cases hk
  | some v =>
    obtain ⟨e, he, hev⟩ := ok_of_mem_mapM hentries _ (mem_entries.mpr hk)
    obtain ⟨w, hw, rfl⟩ := map_eq_ok.mp hev
    exact Or.inr ⟨v, w, rfl, hw, (hget w).mpr he⟩

end Fallibly

/-! ### Grouping -/

section Grouping

variable {K : Type u} {V : Type v} [LinearOrder K]

/-- Append a value to the group of its key. -/
def push (m : OrdMap K (List V)) (e : K × V) : OrdMap K (List V) :=
  m.insert e.1 ((m.get? e.1).getD [] ++ [e.2])

/-- Values by key, each group in list order. -/
def group (l : List (K × V)) : OrdMap K (List V) := l.foldl push ∅

/-- Values of a key in a list of pairs. -/
def valuesAt (l : List (K × V)) (k : K) : List V := (l.filter fun e => e.1 = k).map Prod.snd

theorem mem_valuesAt {l : List (K × V)} {k : K} {v : V} : v ∈ valuesAt l k ↔ (k, v) ∈ l := by
  simp only [valuesAt, List.mem_map, List.mem_filter, decide_eq_true_eq]
  constructor
  · rintro ⟨e, ⟨he, rfl⟩, rfl⟩
    exact he
  · exact fun h => ⟨(k, v), ⟨h, rfl⟩, rfl⟩

theorem get?_foldl_push (m : OrdMap K (List V)) (l : List (K × V)) (k : K) :
    (l.foldl push m).get? k =
      if valuesAt l k = [] then m.get? k else some ((m.get? k).getD [] ++ valuesAt l k) := by
  induction l generalizing m with
  | nil => simp [valuesAt]
  | cons e l ih =>
    rw [List.foldl_cons, ih, push, get?_insert]
    by_cases hk : k = e.1
    · subst hk
      have hcons : valuesAt (e :: l) e.1 = e.2 :: valuesAt l e.1 := by simp [valuesAt]
      by_cases hl : valuesAt l e.1 = [] <;> simp [hl, hcons]
    · have hcons : valuesAt (e :: l) k = valuesAt l k := by simp [valuesAt, Ne.symm hk]
      simp [hk, hcons]

/-- **A group holds the values of its key**; keys without values have none. -/
theorem get?_group (l : List (K × V)) (k : K) :
    (group l).get? k = if valuesAt l k = [] then none else some (valuesAt l k) := by
  rw [group, get?_foldl_push]
  simp

theorem mem_of_get?_group {l : List (K × V)} {k : K} {vs : List V}
    (h : (group l).get? k = some vs) : vs = valuesAt l k ∧ vs ≠ [] := by
  rw [get?_group] at h
  split_ifs at h with hnil
  obtain rfl := Option.some_inj.mp h
  exact ⟨rfl, hnil⟩

end Grouping

end OrdMap

/-- An ordered set: a strictly increasing list. -/
structure OrdSet (K : Type u) [LinearOrder K] where
  elems : List K
  sorted : elems.Pairwise (· < ·)

namespace OrdSet

section Lists

variable {K : Type u} [LinearOrder K]

/-- Sorted insertion without duplicates. -/
def insertElem (k : K) : List K → List K
  | [] => [k]
  | k' :: rest =>
    if k < k' then k :: k' :: rest
    else if k = k' then k' :: rest
    else k' :: insertElem k rest

theorem mem_insertElem {k x : K} {l : List K} : x ∈ insertElem k l ↔ x = k ∨ x ∈ l := by
  induction l with
  | nil => simp [insertElem]
  | cons hd tl ih =>
    rw [insertElem]
    split_ifs with h1 h2
    · simp
    · simp [h2]
    · rw [List.mem_cons, ih, List.mem_cons]
      tauto

theorem insertElem_sorted {k : K} {l : List K} (h : l.Pairwise (· < ·)) :
    (insertElem k l).Pairwise (· < ·) := by
  induction l with
  | nil => simp [insertElem]
  | cons hd tl ih =>
    obtain ⟨hhd, htl⟩ := List.pairwise_cons.mp h
    rw [insertElem]
    split_ifs with h1 h2
    · refine List.pairwise_cons.mpr ⟨fun x hx => ?_, h⟩
      rcases List.mem_cons.mp hx with rfl | hx
      · exact h1
      · exact h1.trans (hhd x hx)
    · exact h
    · refine List.pairwise_cons.mpr ⟨fun x hx => ?_, ih htl⟩
      rcases mem_insertElem.mp hx with rfl | hx
      · exact lt_of_le_of_ne (not_lt.mp h1) (Ne.symm h2)
      · exact hhd x hx

end Lists

variable {K : Type u} [LinearOrder K]

/-- The set without elements. -/
def empty : OrdSet K := ⟨[], List.Pairwise.nil⟩

instance : EmptyCollection (OrdSet K) := ⟨empty⟩

instance : Inhabited (OrdSet K) := ⟨empty⟩

instance : DecidableEq (OrdSet K) := fun a b =>
  decidable_of_iff (a.elems = b.elems) (by cases a; cases b; simp)

instance : Membership K (OrdSet K) := ⟨fun s x => x ∈ s.elems⟩

instance (s : OrdSet K) (x : K) : Decidable (x ∈ s) :=
  inferInstanceAs (Decidable (x ∈ s.elems))

/-- Insert an element. -/
def insert (s : OrdSet K) (k : K) : OrdSet K :=
  ⟨insertElem k s.elems, insertElem_sorted s.sorted⟩

/-- Insert the elements of a list in turn. -/
def insertAll (s : OrdSet K) (l : List K) : OrdSet K := l.foldl insert s

/-- Collect a list. -/
def ofList (l : List K) : OrdSet K := empty.insertAll l

/-- Keep the elements that satisfy `p`. -/
def filter (p : K → Bool) (s : OrdSet K) : OrdSet K :=
  ⟨s.elems.filter p, s.sorted.filter _⟩

/-- Whether there is no element. -/
def isEmpty (s : OrdSet K) : Bool := s.elems.isEmpty

theorem mem_def {s : OrdSet K} {x : K} : x ∈ s ↔ x ∈ s.elems := Iff.rfl

@[simp] theorem not_mem_empty (x : K) : ¬ x ∈ (∅ : OrdSet K) := List.not_mem_nil

@[simp] theorem not_mem_empty' (x : K) : ¬ x ∈ (empty : OrdSet K) := List.not_mem_nil

@[simp] theorem mem_insert {s : OrdSet K} {k x : K} : x ∈ s.insert k ↔ x = k ∨ x ∈ s :=
  mem_insertElem

@[simp] theorem mem_insertAll {s : OrdSet K} {l : List K} {x : K} :
    x ∈ s.insertAll l ↔ x ∈ l ∨ x ∈ s := by
  induction l generalizing s with
  | nil => simp [insertAll]
  | cons hd tl ih =>
    rw [insertAll, List.foldl_cons, ← insertAll, ih, mem_insert, List.mem_cons]
    tauto

@[simp] theorem mem_ofList {l : List K} {x : K} : x ∈ ofList l ↔ x ∈ l := by
  simp [ofList]

@[simp] theorem mem_filter {p : K → Bool} {s : OrdSet K} {x : K} :
    x ∈ s.filter p ↔ x ∈ s ∧ p x = true := by
  simp [filter, mem_def]

theorem nodup (s : OrdSet K) : s.elems.Nodup := s.sorted.imp fun h => ne_of_lt h

/-- **Sets are determined by their elements.** -/
theorem ext_mem {s t : OrdSet K} (h : ∀ x, x ∈ s ↔ x ∈ t) : s = t := by
  have hperm : s.elems.Perm t.elems := (List.perm_ext_iff_of_nodup s.nodup t.nodup).mpr h
  have heq : s.elems = t.elems :=
    hperm.eq_of_pairwise (fun a b _ _ hab hba => absurd hab (lt_asymm hba)) s.sorted t.sorted
  cases s
  cases t
  simpa using heq

end OrdSet
