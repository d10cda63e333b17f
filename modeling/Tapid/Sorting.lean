/-
Sorting by a key.

Elements with different keys are sorted in one way only, whatever order they
come in.
-/
import Mathlib.Data.List.Sort

namespace Sorting

variable {α κ : Type} [LinearOrder κ] {key : α → κ} {l l' : List α}

/-- **The order elements come in does not matter**, when their keys tell them apart. -/
theorem insertionSort_eq_of_perm (hperm : l.Perm l') (hkey : ∀ a ∈ l, ∀ b ∈ l, key a = key b → a = b) :
    (l.insertionSort fun a b => key a ≤ key b) = l'.insertionSort fun a b => key a ≤ key b := by
  have hp : (l.insertionSort fun a b => key a ≤ key b).Perm (l'.insertionSort fun a b => key a ≤ key b) :=
    ((List.perm_insertionSort _ l).trans hperm).trans (List.perm_insertionSort _ l').symm
  refine hp.eq_of_pairwise (fun a b ha hb hab hba => ?_) (pairwise l) (pairwise l')
  have ha := (List.mem_insertionSort _).mp ha
  have hb := hperm.mem_iff.mpr ((List.mem_insertionSort _).mp hb)
  exact hkey a ha b hb (le_antisymm hab hba)
where
  pairwise (l : List α) : (l.insertionSort fun a b => key a ≤ key b).Pairwise fun a b => key a ≤ key b :=
    List.pairwise_insertionSort _ l

end Sorting
