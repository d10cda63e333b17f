/-
Comparing two ordered maps.

* `OrdMap.missing` — the entries of one map whose keys the other lacks;
* `OrdMap.common` — the shared keys, with the values on both sides;
* `OrdMap.changes` — the keys on which the maps differ, with what either map
  stores there.

The last two list the same keys whichever map comes first
(`OrdMap.common_swap`, `OrdMap.changes_swap`), and two maps without changes are
equal (`OrdMap.changes_eq_nil`).  For maps that store values under keys of
their own (`OrdMap.indexBy`), replacing the old values by the new ones turns
one set of values into the other (`OrdMap.mem_iff_replaced`).
-/
import Tapid.OrdMap

universe u v w

namespace OrdMap

variable {K : Type u} {V : Type v} {W : Type w} [LinearOrder K]

/-- Lists with strictly increasing keys and the same members are equal. -/
theorem eq_of_sorted_keys {l l' : List (K × V)} (hl : l.Pairwise fun a b => a.1 < b.1)
    (hl' : l'.Pairwise fun a b => a.1 < b.1) (hmem : ∀ e, e ∈ l ↔ e ∈ l') : l = l' := by
  have hget : ∀ k, (⟨l, hl⟩ : OrdMap K V).get? k = (⟨l', hl'⟩ : OrdMap K V).get? k := by
    intro k
    refine Option.ext fun v => ?_
    rw [← mem_entries, ← mem_entries]
    exact hmem (k, v)
  exact congrArg entries (ext_get? hget)

/-- A listed value is stored if its key is listed with no other. -/
theorem get?_ofList_of_unique {l : List (K × V)} {k : K} {v : V} (hmem : (k, v) ∈ l)
    (hunique : ∀ w, (k, w) ∈ l → w = v) : (ofList l).get? k = some v := by
  have hcontains : (ofList l).contains k = true := by
    rw [ofList, contains_insertAll, Bool.or_eq_true, List.elem_eq_mem, decide_eq_true_eq]
    exact Or.inr (List.mem_map.mpr ⟨(k, v), hmem, rfl⟩)
  obtain ⟨w, hw⟩ := contains_eq_true.mp hcontains
  rw [hw, hunique w (mem_of_get?_ofList hw)]

/-! ### Keys of one map only -/

/-- The entries whose keys the other map lacks. -/
def missing (m : OrdMap K V) (m' : OrdMap K W) : OrdMap K V := m.filter fun k _ => !m'.contains k

theorem get?_missing {m : OrdMap K V} {m' : OrdMap K W} {k : K} {v : V} :
    (m.missing m').get? k = some v ↔ m.get? k = some v ∧ m'.get? k = none := by
  rw [missing, get?_filter, Option.filter_eq_some_iff, Bool.not_eq_true', contains_eq_false]

/-! ### Shared keys -/

/-- The shared keys with the values on both sides. -/
def common (m : OrdMap K V) (m' : OrdMap K W) : List (K × V × W) :=
  m.entries.filterMap fun e => (m'.get? e.1).map fun w => (e.1, e.2, w)

theorem mem_common {m : OrdMap K V} {m' : OrdMap K W} {k : K} {v : V} {w : W} :
    (k, v, w) ∈ m.common m' ↔ m.get? k = some v ∧ m'.get? k = some w := by
  rw [common, List.mem_filterMap]
  constructor
  · rintro ⟨⟨k', v'⟩, he, heq⟩
    obtain ⟨w', hw, heq⟩ := Option.map_eq_some_iff.mp heq
    obtain ⟨rfl, rfl, rfl⟩ : k' = k ∧ v' = v ∧ w' = w := by simpa using heq
    exact ⟨mem_entries.mp he, hw⟩
  · rintro ⟨hv, hw⟩
    exact ⟨(k, v), mem_entries.mpr hv, Option.map_eq_some_iff.mpr ⟨w, hw, rfl⟩⟩

theorem sorted_common (m : OrdMap K V) (m' : OrdMap K W) :
    (m.common m').Pairwise fun a b => a.1 < b.1 := by
  refine m.sorted.filterMap _ ?_
  intro e e' hlt c hc c' hc'
  obtain ⟨w, -, rfl⟩ := Option.map_eq_some_iff.mp hc
  obtain ⟨w', -, rfl⟩ := Option.map_eq_some_iff.mp hc'
  exact hlt

/-- **The shared keys are the same from either side.** -/
theorem common_swap (m : OrdMap K V) (m' : OrdMap K W) :
    m'.common m = (m.common m').map fun c => (c.1, c.2.2, c.2.1) := by
  refine eq_of_sorted_keys (sorted_common m' m) ?_ ?_
  · rw [List.pairwise_map]
    exact sorted_common m m'
  · rintro ⟨k, w, v⟩
    rw [mem_common, List.mem_map]
    constructor
    · rintro ⟨hw, hv⟩
      exact ⟨(k, v, w), mem_common.mpr ⟨hv, hw⟩, rfl⟩
    · rintro ⟨⟨k', v', w'⟩, hmem, heq⟩
      obtain ⟨rfl, rfl, rfl⟩ : k' = k ∧ w' = w ∧ v' = v := by simpa using heq
      exact (mem_common.mp hmem).symm

/-! ### Differing keys -/

section Changes

variable [DecidableEq V]

/-- The keys on which two maps differ, with what they store there. -/
def changes (m m' : OrdMap K V) : List (K × Option V × Option V) :=
  (OrdSet.ofList (m.keys ++ m'.keys)).elems.filterMap fun k =>
    if m.get? k = m'.get? k then none else some (k, m.get? k, m'.get? k)

theorem mem_changes {m m' : OrdMap K V} {k : K} {x y : Option V} :
    (k, x, y) ∈ m.changes m' ↔ m.get? k = x ∧ m'.get? k = y ∧ x ≠ y := by
  rw [changes, List.mem_filterMap]
  constructor
  · rintro ⟨k', -, h⟩
    split_ifs at h with heq
    obtain ⟨rfl, rfl, rfl⟩ : k' = k ∧ m.get? k' = x ∧ m'.get? k' = y := by simpa using h
    exact ⟨rfl, rfl, heq⟩
  · rintro ⟨rfl, rfl, hne⟩
    refine ⟨k, ?_, if_neg hne⟩
    rw [← OrdSet.mem_def, OrdSet.mem_ofList, List.mem_append, mem_keys, mem_keys]
    -- a key that neither map has would store the same on both sides
    by_contra hnone
    rw [not_or, not_exists, not_exists] at hnone
    refine hne ?_
    rw [Option.eq_none_iff_forall_ne_some.mpr hnone.1, Option.eq_none_iff_forall_ne_some.mpr hnone.2]

theorem sorted_changes (m m' : OrdMap K V) : (m.changes m').Pairwise fun a b => a.1 < b.1 := by
  refine (OrdSet.ofList (m.keys ++ m'.keys)).sorted.filterMap _ ?_
  intro k k' hlt c hc c' hc'
  split_ifs at hc hc'
  rw [← Option.some_inj.mp hc, ← Option.some_inj.mp hc']
  exact hlt

/-- **The differing keys are the same from either side.** -/
theorem changes_swap (m m' : OrdMap K V) :
    m'.changes m = (m.changes m').map fun c => (c.1, c.2.2, c.2.1) := by
  refine eq_of_sorted_keys (sorted_changes m' m) ?_ ?_
  · rw [List.pairwise_map]
    exact sorted_changes m m'
  · rintro ⟨k, x, y⟩
    rw [mem_changes, List.mem_map]
    constructor
    · rintro ⟨hx, hy, hne⟩
      exact ⟨(k, y, x), mem_changes.mpr ⟨hy, hx, hne.symm⟩, rfl⟩
    · rintro ⟨⟨k', y', x'⟩, hmem, heq⟩
      obtain ⟨rfl, rfl, rfl⟩ : k' = k ∧ x' = x ∧ y' = y := by simpa using heq
      obtain ⟨hy, hx, hne⟩ := mem_changes.mp hmem
      exact ⟨hx, hy, hne.symm⟩

/-- **Maps without changes are equal.** -/
theorem changes_eq_nil {m m' : OrdMap K V} : m.changes m' = [] ↔ m = m' := by
  constructor
  · intro h
    refine ext_get? fun k => ?_
    by_contra hne
    have hmem := mem_changes.mpr ⟨rfl, rfl, hne⟩
    rw [h] at hmem
    exact List.not_mem_nil hmem
  · rintro rfl
    refine List.eq_nil_iff_forall_not_mem.mpr fun c hc => ?_
    obtain ⟨hx, hy, hne⟩ := mem_changes.mp (show (c.1, c.2.1, c.2.2) ∈ _ from hc)
    exact hne (hx.symm.trans hy)

end Changes

/-! ### Values under keys of their own -/

section IndexBy

/-- Values under their keys; of two values with one key the later stays. -/
def indexBy (key : V → K) (l : List V) : OrdMap K V := ofList (l.map fun v => (key v, v))

theorem of_get?_indexBy {key : V → K} {l : List V} {k : K} {v : V}
    (h : (indexBy key l).get? k = some v) : v ∈ l ∧ key v = k := by
  obtain ⟨v', hv', heq⟩ := List.mem_map.mp (mem_of_get?_ofList h)
  obtain ⟨rfl, rfl⟩ := Prod.mk.inj heq
  exact ⟨hv', rfl⟩

/-- **Values with keys of their own are all stored.** -/
theorem get?_indexBy {key : V → K} {l : List V} (hkey : Set.InjOn key {v | v ∈ l}) {k : K} {v : V} :
    (indexBy key l).get? k = some v ↔ v ∈ l ∧ key v = k := by
  refine ⟨of_get?_indexBy, ?_⟩
  rintro ⟨hv, rfl⟩
  refine get?_ofList_of_unique (List.mem_map.mpr ⟨v, hv, rfl⟩) fun w hw => ?_
  obtain ⟨w', hw', heq⟩ := List.mem_map.mp hw
  obtain ⟨hkeys, rfl⟩ := Prod.mk.inj heq
  exact hkey hw' hv hkeys

/-- Lists of values with the same members are stored alike. -/
theorem indexBy_congr {key : V → K} {l l' : List V} (hkey : Set.InjOn key {v | v ∈ l})
    (hmem : ∀ v, v ∈ l ↔ v ∈ l') : indexBy key l = indexBy key l' := by
  have hkey' : Set.InjOn key {v | v ∈ l'} := fun v hv w hw =>
    hkey ((hmem v).mpr hv) ((hmem w).mpr hw)
  refine ext_get? fun k => Option.ext fun v => ?_
  rw [get?_indexBy hkey, get?_indexBy hkey', hmem]

variable [DecidableEq V]

/-- **Replacing the old values by the new ones turns one list into the
other.** -/
theorem mem_iff_replaced {key : V → K} {l l' : List V} (hl : Set.InjOn key {v | v ∈ l})
    (hl' : Set.InjOn key {v | v ∈ l'}) (v : V) :
    v ∈ l' ↔ (v ∈ l ∧ ∀ c ∈ (indexBy key l).changes (indexBy key l'), c.2.1 ≠ some v) ∨
      ∃ c ∈ (indexBy key l).changes (indexBy key l'), c.2.2 = some v := by
  constructor
  · intro hv
    have hnew := (get?_indexBy hl').mpr ⟨hv, rfl⟩
    by_cases hold : (indexBy key l).get? (key v) = some v
    · -- a change that takes the value away would be one at its own key
      refine Or.inl ⟨(of_get?_indexBy hold).1, ?_⟩
      rintro ⟨k, x, y⟩ hc rfl
      obtain ⟨hx, hy, hne⟩ := mem_changes.mp hc
      obtain ⟨-, rfl⟩ := of_get?_indexBy hx
      exact hne (hnew.symm.trans hy)
    · exact Or.inr ⟨(key v, (indexBy key l).get? (key v), some v),
        mem_changes.mpr ⟨rfl, hnew, hold⟩, rfl⟩
  · rintro (⟨hv, hkept⟩ | ⟨⟨k, x, y⟩, hc, rfl⟩)
    · by_contra hgone
      have hold := (get?_indexBy hl).mpr ⟨hv, rfl⟩
      refine hkept _ (mem_changes.mpr ⟨hold, rfl, ?_⟩) rfl
      intro heq
      exact hgone (of_get?_indexBy heq.symm).1
    · obtain ⟨-, hy, -⟩ := mem_changes.mp hc
      exact (of_get?_indexBy hy).1

end IndexBy

end OrdMap
