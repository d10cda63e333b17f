/-
Fallible computations.

Inversion rules for `Except`: what must have happened for a computation to
succeed.  `rejectIf` and `checkAll` are the two shapes validation code is
written in, an early return and a loop of checks.

* `bind_eq_ok`, `map_eq_ok`, `ite_eq_ok` — peel a successful computation apart;
* `rejectIf_eq_ok`, `checkAll_eq_ok` — validation succeeded iff nothing was
  rejected;
* `ok_of_mem_mapM`, `of_mem_mapM_ok` — a list that is mapped element by
  element.
-/
import Mathlib.Tactic

universe u v w

namespace Fallible

variable {ε : Type u} {α : Type v} {β : Type v}

@[simp] theorem bind_eq_ok {x : Except ε α} {f : α → Except ε β} {b : β} :
    x >>= f = .ok b ↔ ∃ a, x = .ok a ∧ f a = .ok b := by
  cases x with
  | error e => simp [bind, Except.bind]
  | ok a => simp [bind, Except.bind]

theorem bind_eq_error {x : Except ε α} {f : α → Except ε β} {e : ε} :
    x >>= f = .error e ↔ x = .error e ∨ ∃ a, x = .ok a ∧ f a = .error e := by
  cases x with
  | error e' => simp [bind, Except.bind]
  | ok a => simp [bind, Except.bind]

@[simp] theorem ok_bind (a : α) (f : α → Except ε β) : (Except.ok a >>= f) = f a := rfl

@[simp] theorem pure_eq_ok {a b : α} : (pure a : Except ε α) = .ok b ↔ a = b :=
  ⟨fun h => Except.ok.inj h, fun h => h ▸ rfl⟩

@[simp] theorem throw_eq_ok {e : ε} {a : α} : (throw e : Except ε α) = .ok a ↔ False := by
  constructor
  · intro h
    cases h
  · exact False.elim

@[simp] theorem map_eq_ok {x : Except ε α} {f : α → β} {b : β} :
    x.map f = .ok b ↔ ∃ a, x = .ok a ∧ f a = b := by
  cases x <;> simp [Except.map]

@[simp] theorem mapError_eq_ok {ε' : Type w} {x : Except ε α} {f : ε → ε'} {a : α} :
    x.mapError f = .ok a ↔ x = .ok a := by
  cases x <;> simp [Except.mapError]

theorem mapError_eq_error {ε' : Type w} {x : Except ε α} {f : ε → ε'} {e : ε'} :
    x.mapError f = .error e ↔ ∃ e', x = .error e' ∧ f e' = e := by
  cases x <;> simp [Except.mapError]

/-- An early return with an error. -/
def rejectIf (p : Prop) [Decidable p] (e : ε) : Except ε Unit :=
  if p then .error e else .ok ()

@[simp] theorem rejectIf_eq_ok {p : Prop} [Decidable p] {e : ε} {u : Unit} :
    rejectIf p e = .ok u ↔ ¬ p := by
  by_cases hp : p <;> simp [rejectIf, hp]

theorem rejectIf_eq_error {p : Prop} [Decidable p] {e e' : ε} :
    rejectIf p e = .error e' ↔ p ∧ e = e' := by
  by_cases hp : p <;> simp [rejectIf, hp]

/-- A loop of checks that stops at the first failure. -/
def checkAll {γ : Type w} (f : γ → Except ε Unit) : List γ → Except ε Unit
  | [] => .ok ()
  | a :: as => match f a with
    | .error e => .error e
    | .ok _ => checkAll f as

@[simp] theorem checkAll_eq_ok {γ : Type w} {f : γ → Except ε Unit} {l : List γ} {u : Unit} :
    checkAll f l = .ok u ↔ ∀ a ∈ l, f a = .ok () := by
  induction l with
  | nil => simp [checkAll]
  | cons a as ih =>
    rw [checkAll]
    cases hfa : f a with
    | error e => simp [hfa]
    | ok b => simp [hfa, ih]

/-- The value of an optional result, or an error. -/
def orError (x : Option α) (e : ε) : Except ε α :=
  match x with
  | some a => .ok a
  | none => .error e

@[simp] theorem orError_eq_ok {x : Option α} {e : ε} {a : α} : orError x e = .ok a ↔ x = some a := by
  cases x <;> simp [orError]

/-! ### Mapping -/

/-- Every element of a mapped list is mapped. -/
theorem ok_of_mem_mapM {f : α → Except ε β} {l : List α} {r : List β} (h : l.mapM f = .ok r) :
    ∀ a ∈ l, ∃ b ∈ r, f a = .ok b := by
  induction l generalizing r with
  | nil => exact fun a ha => absurd ha List.not_mem_nil
  | cons x l ih =>
    rw [List.mapM_cons, bind_eq_ok] at h
    obtain ⟨y, hy, h⟩ := h
    obtain ⟨ys, hys, h⟩ := bind_eq_ok.mp h
    obtain rfl := pure_eq_ok.mp h
    intro a ha
    rcases List.mem_cons.mp ha with rfl | ha
    · exact ⟨y, List.mem_cons_self, hy⟩
    · obtain ⟨b, hb, hab⟩ := ih hys a ha
      exact ⟨b, List.mem_cons_of_mem _ hb, hab⟩

/-- Every result comes from an element. -/
theorem of_mem_mapM_ok {f : α → Except ε β} {l : List α} {r : List β} (h : l.mapM f = .ok r) :
    ∀ b ∈ r, ∃ a ∈ l, f a = .ok b := by
  induction l generalizing r with
  | nil =>
    rw [List.mapM_nil] at h
    obtain rfl := pure_eq_ok.mp h
    exact fun b hb => absurd hb List.not_mem_nil
  | cons x l ih =>
    rw [List.mapM_cons, bind_eq_ok] at h
    obtain ⟨y, hy, h⟩ := h
    obtain ⟨ys, hys, h⟩ := bind_eq_ok.mp h
    obtain rfl := pure_eq_ok.mp h
    intro b hb
    rcases List.mem_cons.mp hb with rfl | hb
    · exact ⟨x, List.mem_cons_self, hy⟩
    · obtain ⟨a, ha, hab⟩ := ih hys b hb
      exact ⟨a, List.mem_cons_of_mem _ ha, hab⟩

theorem exists_mapM {f : α → Except ε β} {l : List α} (h : ∀ a ∈ l, ∃ b, f a = .ok b) :
    ∃ r, l.mapM f = .ok r := by
  induction l with
  | nil => exact ⟨[], rfl⟩
  | cons x l ih =>
    obtain ⟨y, hy⟩ := h x List.mem_cons_self
    obtain ⟨ys, hys⟩ := ih fun a ha => h a (List.mem_cons_of_mem _ ha)
    refine ⟨y :: ys, ?_⟩
    rw [List.mapM_cons, hy, ok_bind, hys, ok_bind]
    rfl

/-- A list that was written element by element is read back. -/
theorem mapM_map_eq_ok {read : β → Except ε α} {write : α → β} {l : List α}
    (h : ∀ a ∈ l, read (write a) = .ok a) : (l.map write).mapM read = .ok l := by
  induction l with
  | nil => rfl
  | cons a as ih =>
    simp only [List.map_cons, List.mapM_cons, bind_eq_ok, pure_eq_ok]
    exact ⟨a, h a List.mem_cons_self, as, ih fun b hb => h b (List.mem_cons_of_mem _ hb), rfl⟩

/-- What a mapping keeps of the elements it keeps of the list. -/
theorem map_eq_of_mapM_ok {γ : Type*} {f : α → Except ε β} {g : α → γ} {g' : β → γ} {l : List α}
    {r : List β} (h : l.mapM f = .ok r) (hf : ∀ a b, f a = .ok b → g' b = g a) : r.map g' = l.map g := by
  induction l generalizing r with
  | nil =>
    rw [List.mapM_nil] at h
    obtain rfl := pure_eq_ok.mp h
    rfl
  | cons a l ih =>
    rw [List.mapM_cons, bind_eq_ok] at h
    obtain ⟨b, hb, h⟩ := h
    obtain ⟨bs, hbs, h⟩ := bind_eq_ok.mp h
    obtain rfl := pure_eq_ok.mp h
    rw [List.map_cons, List.map_cons, hf a b hb, ih hbs]

end Fallible
