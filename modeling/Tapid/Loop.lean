/-
Loops that may fail.

A `while` loop is a step function run with fuel: the step answers `none` when
the loop condition fails.  A `for` loop over a list is `List.foldlM`.  Each has
an invariant rule, and the `while` loop a termination rule: a measure that
every step decreases makes the fuel sufficient.

* `run_inv`, `foldlM_inv` — invariants;
* `foldlM_keyed` — loops whose rounds touch different keys;
* `foldlM_budget` — loops that stop when a total is exceeded;
* `run_stops`, `exists_runTo` — with enough fuel the loop ends;
* `weight` — a measure for work lists;
* `Reaches`, `runTo_reaches`, `Reaches.to_end` — the states of a run.
-/
import Mathlib.Algebra.Order.BigOperators.Group.List
import Mathlib.Logic.Relation
import Tapid.Fallible

universe u v w

namespace Loop

open Fallible

variable {ε : Type u} {σ : Type v} {α : Type w}

/-! ### While loops -/

/-- Run a step until it stops, fails or the fuel is used up. -/
def run (step : σ → Option (Except ε σ)) : Nat → σ → Except ε σ
  | 0, s => .ok s
  | n + 1, s =>
    match step s with
    | none => .ok s
    | some (.error e) => .error e
    | some (.ok s') => run step n s'

/-- Run a step to its end; `none` when the fuel does not suffice. -/
def runTo (step : σ → Option (Except ε σ)) : Nat → σ → Option (Except ε σ)
  | 0, s => if (step s).isNone then some (.ok s) else none
  | n + 1, s =>
    match step s with
    | none => some (.ok s)
    | some (.error e) => some (.error e)
    | some (.ok s') => runTo step n s'

variable {step : σ → Option (Except ε σ)}

/-- **Invariant rule.** -/
theorem run_inv {I : σ → Prop} (hstep : ∀ s s', I s → step s = some (.ok s') → I s')
    {n : Nat} {s t : σ} (hs : I s) (h : run step n s = .ok t) : I t := by
  induction n generalizing s with
  | zero =>
    rw [run] at h
    exact Except.ok.inj h ▸ hs
  | succ n ih =>
    rw [run] at h
    cases hst : step s with
    | none =>
      rw [hst] at h
      exact Except.ok.inj h ▸ hs
    | some r =>
      rw [hst] at h
      cases r with
      | error e => simp at h
      | ok s' => exact ih (hstep s s' hs hst) h

/-- **Invariant rule** for failures: a step from a state on the way fails. -/
theorem run_error {I : σ → Prop} (hstep : ∀ s s', I s → step s = some (.ok s') → I s') {n : Nat} {s : σ}
    {e : ε} (hs : I s) (h : run step n s = .error e) : ∃ s', I s' ∧ step s' = some (.error e) := by
  induction n generalizing s with
  | zero => cases h
  | succ n ih =>
    rw [run] at h
    cases hst : step s with
    | none =>
      rw [hst] at h
      cases h
    | some r =>
      rw [hst] at h
      cases r with
      | error e' =>
        obtain rfl := Except.error.inj h
        exact ⟨s, hs, hst⟩
      | ok s' => exact ih (hstep s s' hs hst) h

/-- **Termination rule.**  A measure that decreases along the invariant bounds
the fuel the loop needs. -/
theorem run_stops {I : σ → Prop} (μ : σ → Nat)
    (hstep : ∀ s s', I s → step s = some (.ok s') → I s' ∧ μ s' < μ s)
    {n : Nat} {s t : σ} (hs : I s) (hn : μ s < n) (h : run step n s = .ok t) : step t = none := by
  induction n generalizing s with
  | zero => omega
  | succ n ih =>
    rw [run] at h
    cases hst : step s with
    | none =>
      rw [hst] at h
      rw [← Except.ok.inj h]
      exact hst
    | some r =>
      rw [hst] at h
      cases r with
      | error e => simp at h
      | ok s' =>
        obtain ⟨hs', hlt⟩ := hstep s s' hs hst
        exact ih hs' (by omega) h

/-- States the loop goes through. -/
def Reaches (step : σ → Option (Except ε σ)) : σ → σ → Prop :=
  Relation.ReflTransGen fun s s' => step s = some (.ok s')

theorem Reaches.inv {I : σ → Prop} (hstep : ∀ s s', I s → step s = some (.ok s') → I s')
    {s t : σ} (h : Reaches step s t) (hs : I s) : I t := by
  induction h with
  | refl => exact hs
  | tail _ hst ih => exact hstep _ _ ih hst

/-- A finished run has gone through its states to one without a step. -/
theorem runTo_reaches {n : Nat} {s t : σ} (h : runTo step n s = some (.ok t)) :
    Reaches step s t ∧ step t = none := by
  induction n generalizing s with
  | zero =>
    rw [runTo] at h
    split_ifs at h with hs
    obtain rfl := Except.ok.inj (Option.some_inj.mp h)
    exact ⟨Relation.ReflTransGen.refl, Option.isNone_iff_eq_none.mp hs⟩
  | succ n ih =>
    rw [runTo] at h
    cases hst : step s with
    | none =>
      rw [hst] at h
      obtain rfl := Except.ok.inj (Option.some_inj.mp h)
      exact ⟨Relation.ReflTransGen.refl, hst⟩
    | some r =>
      rw [hst] at h
      cases r with
      | error e => simp at h
      | ok s' =>
        obtain ⟨hreach, hnone⟩ := ih h
        exact ⟨Relation.ReflTransGen.head hst hreach, hnone⟩

/-- A failed run has gone through its states to one whose step fails. -/
theorem runTo_reaches_error {n : Nat} {s : σ} {e : ε} (h : runTo step n s = some (.error e)) :
    ∃ t, Reaches step s t ∧ step t = some (.error e) := by
  induction n generalizing s with
  | zero =>
    rw [runTo] at h
    split_ifs at h
    cases Option.some_inj.mp h
  | succ n ih =>
    rw [runTo] at h
    cases hst : step s with
    | none =>
      rw [hst] at h
      cases Option.some_inj.mp h
    | some r =>
      rw [hst] at h
      cases r with
      | error e' =>
        obtain rfl := Except.error.inj (Option.some_inj.mp h)
        exact ⟨s, Relation.ReflTransGen.refl, hst⟩
      | ok s' =>
        obtain ⟨t, hreach, herror⟩ := ih h
        exact ⟨t, Relation.ReflTransGen.head hst hreach, herror⟩

/-- More fuel gives the same result. -/
theorem runTo_mono {n m : Nat} {s : σ} {r : Except ε σ} (h : runTo step n s = some r) (hle : n ≤ m) :
    runTo step m s = some r := by
  induction n generalizing s m with
  | zero =>
    rw [runTo] at h
    split_ifs at h with hnone
    rw [Option.isNone_iff_eq_none] at hnone
    cases m with
    | zero => rw [runTo, hnone, ← h]; rfl
    | succ m => rw [runTo, hnone, ← h]
  | succ n ih =>
    obtain ⟨m, rfl⟩ : ∃ k, m = k + 1 := ⟨m - 1, by omega⟩
    rw [runTo] at h ⊢
    cases hst : step s with
    | none =>
      rw [hst] at h
      exact h
    | some r' =>
      rw [hst] at h
      cases r' with
      | error e => exact h
      | ok s' => exact ih h (by omega)

/-- **Termination rule** for runs to the end. -/
theorem exists_runTo {I : σ → Prop} (μ : σ → Nat)
    (hstep : ∀ s s', I s → step s = some (.ok s') → I s' ∧ μ s' < μ s)
    {n : Nat} {s : σ} (hs : I s) (hn : μ s < n) : ∃ r, runTo step n s = some r := by
  induction n generalizing s with
  | zero => omega
  | succ n ih =>
    rw [runTo]
    cases hst : step s with
    | none => exact ⟨_, rfl⟩
    | some r =>
      cases r with
      | error e => exact ⟨_, rfl⟩
      | ok s' =>
        obtain ⟨hs', hlt⟩ := hstep s s' hs hst
        exact ih hs' (by omega)

/-- The states of the first iterations, up to the end. -/
def states (step : σ → Option (Except ε σ)) : Nat → σ → List σ
  | 0, s => [s]
  | n + 1, s => s :: match step s with
    | some (.ok s') => states step n s'
    | _ => []

/-- Weight of a work list in which an item leaves at most `d` items of smaller
rank behind. -/
def weight (d : Nat) (rank : α → Nat) (l : List α) : Nat := (l.map fun a => (d + 1) ^ rank a).sum

/-- Replacing an item by few of smaller rank makes the list lighter. -/
theorem weight_append_lt {d : Nat} {rank : α → Nat} {a : α} {rest new : List α} (hlen : new.length ≤ d)
    (hrank : ∀ b ∈ new, rank b < rank a) : weight d rank (rest ++ new) < weight d rank (a :: rest) := by
  have hnew : (new.map fun b => (d + 1) ^ rank b).sum < (d + 1) ^ rank a := by
    cases hr : rank a with
    | zero =>
      -- nothing is of smaller rank
      have hnil : new = [] := List.eq_nil_iff_forall_not_mem.mpr fun b hb => by
        have := hrank b hb
        omega
      rw [hnil]
      exact Nat.pow_pos (Nat.succ_pos d)
    | succ r =>
      have hitem : ∀ x ∈ new.map fun b => (d + 1) ^ rank b, x ≤ (d + 1) ^ r := by
        intro x hx
        obtain ⟨b, hb, rfl⟩ := List.mem_map.mp hx
        have hlt := hrank b hb
        exact Nat.pow_le_pow_right (Nat.succ_pos d) (by omega)
      have hsum := List.sum_le_card_nsmul _ _ hitem
      rw [List.length_map, smul_eq_mul] at hsum
      calc (new.map fun b => (d + 1) ^ rank b).sum
          ≤ new.length * (d + 1) ^ r := hsum
        _ ≤ d * (d + 1) ^ r := Nat.mul_le_mul_right _ hlen
        _ < (d + 1) * (d + 1) ^ r := Nat.mul_lt_mul_of_pos_right (Nat.lt_succ_self d)
            (Nat.pow_pos (Nat.succ_pos d))
        _ = (d + 1) ^ (r + 1) := (Nat.pow_succ').symm
  rw [weight, weight, List.map_append, List.sum_append, List.map_cons, List.sum_cons]
  omega

/-- Dropping an item makes the list lighter. -/
theorem weight_lt_cons {d : Nat} {rank : α → Nat} {a : α} {rest : List α} :
    weight d rank rest < weight d rank (a :: rest) := by
  have h := @weight_append_lt _ d rank a rest [] (Nat.zero_le d) (fun _ hb => absurd hb List.not_mem_nil)
  rwa [List.append_nil] at h

/-! ### For loops -/

theorem foldlM_cons_eq_ok {f : σ → α → Except ε σ} {a : α} {l : List α} {s t : σ} :
    (a :: l).foldlM f s = .ok t ↔ ∃ s', f s a = .ok s' ∧ l.foldlM f s' = .ok t := by
  rw [List.foldlM_cons, bind_eq_ok]

/-- **Invariant rule** with the elements still to come. -/
theorem foldlM_inv {f : σ → α → Except ε σ} {I : List α → σ → Prop}
    (hstep : ∀ a l s s', I (a :: l) s → f s a = .ok s' → I l s') {l : List α} {s t : σ}
    (hs : I l s) (h : l.foldlM f s = .ok t) : I [] t := by
  induction l generalizing s with
  | nil =>
    rw [List.foldlM_nil] at h
    exact pure_eq_ok.mp h ▸ hs
  | cons a l ih =>
    obtain ⟨s', hs', h⟩ := foldlM_cons_eq_ok.mp h
    exact ih (hstep a l s s' hs hs') h

/-- **Invariant rule** with the elements already seen. -/
theorem foldlM_inv_done {f : σ → α → Except ε σ} {I : List α → σ → Prop}
    (hstep : ∀ done a s s', I done s → f s a = .ok s' → I (done ++ [a]) s') {l : List α} {s t : σ}
    (hs : I [] s) (h : l.foldlM f s = .ok t) : I l t := by
  have hall : ∀ (l done : List α) (s : σ), I done s → l.foldlM f s = .ok t → I (done ++ l) t := by
    intro l
    induction l with
    | nil =>
      intro done s hs h
      rw [List.foldlM_nil] at h
      rw [List.append_nil]
      exact pure_eq_ok.mp h ▸ hs
    | cons a l ih =>
      intro done s hs h
      obtain ⟨s', hs', h⟩ := foldlM_cons_eq_ok.mp h
      have := ih (done ++ [a]) s' (hstep done a s s' hs hs') h
      rwa [List.append_assoc, List.singleton_append] at this
  exact hall l [] s hs h

/-- **Progress rule.**  A loop none of whose steps can fail goes through. -/
theorem foldlM_succeeds {f : σ → α → Except ε σ} {I : List α → σ → Prop} {l : List α}
    (hstep : ∀ done a rest s, done ++ a :: rest = l → I done s → ∃ s', f s a = .ok s' ∧ I (done ++ [a]) s')
    {s : σ} (hs : I [] s) : ∃ t, l.foldlM f s = .ok t ∧ I l t := by
  have hall : ∀ (rest done : List α) (s : σ), done ++ rest = l → I done s →
      ∃ t, rest.foldlM f s = .ok t ∧ I l t := by
    intro rest
    induction rest with
    | nil =>
      intro done s hl hs
      rw [List.append_nil] at hl
      exact ⟨s, rfl, hl ▸ hs⟩
    | cons a rest ih =>
      intro done s hl hs
      obtain ⟨s', hs', hI⟩ := hstep done a rest s hl hs
      have hl' : done ++ [a] ++ rest = l := by rw [List.append_assoc, List.singleton_append, hl]
      obtain ⟨t, ht, hI⟩ := ih (done ++ [a]) s' hl' hI
      exact ⟨t, foldlM_cons_eq_ok.mpr ⟨s', hs', ht⟩, hI⟩
  exact hall l [] s rfl hs

/-- **Invariant rule** for failures: an element on the way fails. -/
theorem foldlM_error {f : σ → α → Except ε σ} {I : σ → Prop} {l : List α}
    (hstep : ∀ a ∈ l, ∀ s s', I s → f s a = .ok s' → I s') {s : σ} {e : ε} (hs : I s)
    (h : l.foldlM f s = .error e) : ∃ a ∈ l, ∃ s', I s' ∧ f s' a = .error e := by
  induction l generalizing s with
  | nil => cases h
  | cons a l ih =>
    rw [List.foldlM_cons] at h
    rcases bind_eq_error.mp h with h | ⟨s', hs', h⟩
    · exact ⟨a, List.mem_cons_self, s, hs, h⟩
    · obtain ⟨b, hb, t, ht, herror⟩ := ih (fun b hb => hstep b (List.mem_cons_of_mem _ hb))
        (hstep a List.mem_cons_self s s' hs hs') h
      exact ⟨b, List.mem_cons_of_mem _ hb, t, ht, herror⟩

/-- **Invariant rule** for failures, with the elements still to come. -/
theorem foldlM_inv_error {f : σ → α → Except ε σ} {I : List α → σ → Prop}
    (hstep : ∀ a l s s', I (a :: l) s → f s a = .ok s' → I l s') {l : List α} {s : σ} {e : ε}
    (hs : I l s) (h : l.foldlM f s = .error e) : ∃ a rest s', I (a :: rest) s' ∧ f s' a = .error e := by
  induction l generalizing s with
  | nil => cases h
  | cons a l ih =>
    rw [List.foldlM_cons] at h
    rcases bind_eq_error.mp h with h | ⟨s', hs', h⟩
    · exact ⟨a, l, s, hs, h⟩
    · exact ih (hstep a l s s' hs hs') h

/-- **Frame rule.**  A loop over elements with different keys, each of which
touches only what is seen under its own key, relates what is seen there before
the loop to what is seen after it. -/
theorem foldlM_keyed {K W : Type*} {f : σ → α → Except ε σ} {I : σ → Prop} {k : α → K}
    {v : σ → K → W} {R : α → W → W → Prop}
    (hstep : ∀ s a s', I s → f s a = .ok s' →
      I s' ∧ R a (v s (k a)) (v s' (k a)) ∧ ∀ i, i ≠ k a → v s' i = v s i)
    {l : List α} {s t : σ} (hs : I s) (hnd : (l.map k).Nodup) (h : l.foldlM f s = .ok t) :
    I t ∧ (∀ a ∈ l, R a (v s (k a)) (v t (k a))) ∧ ∀ i, i ∉ l.map k → v t i = v s i := by
  induction l generalizing s with
  | nil =>
    rw [List.foldlM_nil] at h
    obtain rfl := pure_eq_ok.mp h
    exact ⟨hs, by simp, fun _ _ => rfl⟩
  | cons a l ih =>
    obtain ⟨s', hs', h⟩ := foldlM_cons_eq_ok.mp h
    obtain ⟨hI, hR, hframe⟩ := hstep s a s' hs hs'
    rw [List.map_cons, List.nodup_cons] at hnd
    obtain ⟨ht, hall, hrest⟩ := ih hI hnd.2 h
    refine ⟨ht, ?_, ?_⟩
    · intro b hb
      rcases List.mem_cons.mp hb with rfl | hb
      · rw [hrest _ hnd.1]
        exact hR
      · have hne : k b ≠ k a := fun heq => hnd.1 (heq ▸ List.mem_map_of_mem hb)
        rw [← hframe _ hne]
        exact hall b hb
    · intro i hi
      rw [List.map_cons, List.mem_cons, not_or] at hi
      rw [hrest i hi.2, hframe i hi.1]

/-- **Budget rule.**  A loop that accumulates and fails as soon as the budget
is exceeded fails exactly when the total exceeds it. -/
theorem foldlM_budget {f : σ → α → Except ε σ} {g : σ → α → σ} {P : σ → Prop} [DecidablePred P] {e : ε}
    (hf : ∀ s a, P s → f s a = if P (g s a) then .ok (g s a) else .error e)
    (hmono : ∀ s a, P (g s a) → P s) {l : List α} {s : σ} (hs : P s) :
    l.foldlM f s = if P (l.foldl g s) then .ok (l.foldl g s) else .error e := by
  induction l generalizing s with
  | nil =>
    rw [List.foldl_nil, if_pos hs]
    rfl
  | cons a l ih =>
    rw [List.foldlM_cons, hf s a hs, List.foldl_cons]
    by_cases ha : P (g s a)
    · rw [if_pos ha, ok_bind, ih ha]
    · have hnot : ∀ (l : List α) (s : σ), ¬ P s → ¬ P (l.foldl g s) := by
        intro l
        induction l with
        | nil => exact fun s hs => hs
        | cons b l ihl => exact fun s hs => ihl (g s b) fun h => hs (hmono s b h)
      rw [if_neg ha, if_neg (hnot l _ ha)]
      rfl

end Loop
