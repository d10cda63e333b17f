/-
Stateful computations that may fail.

A computation returns a value or an error, and leaves a state behind in both
cases.  `Triple P m Q E` says that from a state with `P` the computation either
returns a value with `Q` or fails in a state with `E`; what a failed run did is
described as well as what a successful run did.

* `bind_ok`, `lift_ok`, `foldlM_cons_ok` — peel a successful run apart;
* `Triple.bind`, `Triple.lift`, `Triple.foldlM` — the rules of the logic.
-/
import Mathlib.Tactic

universe u

namespace Effect

variable {ε : Type u} {σ : Type u} {α β γ : Type u}

/-- A result that does not touch the state. -/
def lift (x : Except ε α) : EStateM ε σ α := fun s =>
  match x with
  | .ok a => .ok a s
  | .error e => .error e s

/-- A partial operation on the state. -/
def update (f : σ → Except ε (α × σ)) : EStateM ε σ α := fun s =>
  match f s with
  | .ok (a, t) => .ok a t
  | .error e => .error e s

/-- The state a run leaves, whether it succeeded or not. -/
def final : EStateM.Result ε σ α → σ
  | .ok _ s => s
  | .error _ s => s

/-! ### Successful runs -/

theorem pure_ok {a b : α} {s t : σ} : (pure a : EStateM ε σ α) s = .ok b t ↔ a = b ∧ s = t := by
  show EStateM.Result.ok a s = _ ↔ _
  rw [EStateM.Result.ok.injEq]

theorem bind_ok {m : EStateM ε σ α} {f : α → EStateM ε σ β} {s t : σ} {b : β} :
    (m >>= f) s = .ok b t ↔ ∃ a u, m s = .ok a u ∧ f a u = .ok b t := by
  show EStateM.bind m f s = _ ↔ _
  rw [EStateM.bind]
  cases hm : m s with
  | ok a u =>
    constructor
    · intro h
      exact ⟨a, u, rfl, h⟩
    · rintro ⟨a', u', heq, h⟩
      obtain ⟨rfl, rfl⟩ := EStateM.Result.ok.inj heq
      exact h
  | error e u =>
    constructor
    · intro h
      cases h
    · rintro ⟨a', u', heq, h⟩
      cases heq

theorem get_ok {s t a : σ} : (get : EStateM ε σ σ) s = .ok a t ↔ s = a ∧ s = t := by
  show EStateM.Result.ok s s = _ ↔ _
  rw [EStateM.Result.ok.injEq]

theorem modify_ok {f : σ → σ} {s t : σ} {a : PUnit} :
    (modify f : EStateM ε σ PUnit) s = .ok a t ↔ f s = t := by
  show EStateM.Result.ok PUnit.unit (f s) = _ ↔ _
  rw [EStateM.Result.ok.injEq]
  exact ⟨fun h => h.2, fun h => ⟨rfl, h⟩⟩

theorem lift_ok {x : Except ε α} {s t : σ} {a : α} :
    (lift x : EStateM ε σ α) s = .ok a t ↔ x = .ok a ∧ s = t := by
  cases x with
  | ok b =>
    show EStateM.Result.ok b s = _ ↔ _
    rw [EStateM.Result.ok.injEq, Except.ok.injEq]
  | error e =>
    constructor
    · intro h
      cases h
    · rintro ⟨h, _⟩
      cases h

theorem update_ok {f : σ → Except ε (α × σ)} {s t : σ} {a : α} :
    update f s = .ok a t ↔ f s = .ok (a, t) := by
  rw [update]
  cases hf : f s with
  | ok b =>
    show EStateM.Result.ok b.1 b.2 = _ ↔ _
    rw [EStateM.Result.ok.injEq, Except.ok.injEq, Prod.ext_iff]
  | error e =>
    constructor
    · intro h
      cases h
    · intro h
      cases h

theorem get_bind_ok {f : σ → EStateM ε σ β} {s t : σ} {b : β} :
    ((get : EStateM ε σ σ) >>= f) s = .ok b t ↔ f s s = .ok b t := by
  rw [bind_ok]
  constructor
  · rintro ⟨a, u, hget, h⟩
    obtain ⟨rfl, rfl⟩ := get_ok.mp hget
    exact h
  · exact fun h => ⟨s, s, get_ok.mpr ⟨rfl, rfl⟩, h⟩

theorem modify_bind_ok {f : σ → σ} {g : PUnit → EStateM ε σ β} {s t : σ} {b : β} :
    ((modify f : EStateM ε σ PUnit) >>= g) s = .ok b t ↔ g ⟨⟩ (f s) = .ok b t := by
  rw [bind_ok]
  constructor
  · rintro ⟨a, u, hmodify, h⟩
    obtain rfl := modify_ok.mp hmodify
    exact h
  · exact fun h => ⟨⟨⟩, f s, modify_ok.mpr rfl, h⟩

theorem lift_bind_ok {x : Except ε α} {f : α → EStateM ε σ β} {s t : σ} {b : β} :
    ((lift x : EStateM ε σ α) >>= f) s = .ok b t ↔ ∃ a, x = .ok a ∧ f a s = .ok b t := by
  rw [bind_ok]
  constructor
  · rintro ⟨a, u, hlift, h⟩
    obtain ⟨hx, rfl⟩ := lift_ok.mp hlift
    exact ⟨a, hx, h⟩
  · rintro ⟨a, hx, h⟩
    exact ⟨a, s, lift_ok.mpr ⟨hx, rfl⟩, h⟩

theorem foldlM_cons_ok {f : β → γ → EStateM ε σ β} {a : γ} {l : List γ} {b c : β} {s t : σ} :
    (a :: l).foldlM f b s = .ok c t ↔ ∃ b' u, f b a s = .ok b' u ∧ l.foldlM f b' u = .ok c t := by
  rw [List.foldlM_cons, bind_ok]

/-! ### The logic -/

/-- What holds of a result. -/
def After (Q : α → σ → Prop) (E : σ → Prop) : EStateM.Result ε σ α → Prop
  | .ok a t => Q a t
  | .error _ t => E t

/-- From a state with `P`, a value with `Q` or a failure with `E`. -/
def Triple (P : σ → Prop) (m : EStateM ε σ α) (Q : α → σ → Prop) (E : σ → Prop) : Prop :=
  ∀ s, P s → After Q E (m s)

namespace Triple

variable {P P' : σ → Prop} {Q Q' : α → σ → Prop} {E : σ → Prop}

theorem ok {m : EStateM ε σ α} (h : Triple P m Q E) {s t : σ} {a : α} (hs : P s) (hm : m s = .ok a t) :
    Q a t := by
  have := h s hs
  rw [hm] at this
  exact this

theorem conseq {m : EStateM ε σ α} (h : Triple P m Q E) (hP : ∀ s, P' s → P s)
    (hQ : ∀ a t, Q a t → Q' a t) : Triple P' m Q' E := by
  intro s hs
  have := h s (hP s hs)
  cases hm : m s with
  | ok a t =>
    rw [hm] at this
    exact hQ a t this
  | error e t =>
    rw [hm] at this
    exact this

/-- What every successful run guarantees, with nothing said of failures. -/
theorem of_ok {m : EStateM ε σ α} (h : ∀ s a t, P s → m s = .ok a t → Q a t) :
    Triple P m Q fun _ => True := by
  intro s hs
  cases hm : m s with
  | ok a t => exact h s a t hs hm
  | error e t => trivial

theorem pure {a : α} (h : ∀ s, P s → Q a s) : Triple P (pure a : EStateM ε σ α) Q E := fun s hs => h s hs

theorem bind {m : EStateM ε σ α} {f : α → EStateM ε σ β} {R : β → σ → Prop}
    (hm : Triple P m Q E) (hf : ∀ a, Triple (Q a) (f a) R E) : Triple P (m >>= f) R E := by
  intro s hs
  have := hm s hs
  show After R E (EStateM.bind m f s)
  rw [EStateM.bind]
  cases hms : m s with
  | ok a t =>
    rw [hms] at this
    exact hf a t this
  | error e t =>
    rw [hms] at this
    exact this

/-- Reading the state remembers it. -/
theorem get {f : σ → EStateM ε σ β} {R : β → σ → Prop}
    (hf : ∀ a, Triple (fun s => P s ∧ s = a) (f a) R E) :
    Triple P ((MonadState.get : EStateM ε σ σ) >>= f) R E :=
  fun s hs => hf s s ⟨hs, rfl⟩

theorem modify {f : σ → σ} {R : PUnit → σ → Prop} (h : ∀ s, P s → R ⟨⟩ (f s)) :
    Triple P (modify f : EStateM ε σ PUnit) R E := fun s hs => h s hs

/-- A result that does not touch the state: failing keeps what held. -/
theorem lift {x : Except ε α} (hP : ∀ s, P s → E s) (h : ∀ a s, x = .ok a → P s → Q a s) :
    Triple P (lift x : EStateM ε σ α) Q E := by
  intro s hs
  cases x with
  | ok a => exact h a s rfl hs
  | error e => exact hP s hs

theorem update {f : σ → Except ε (α × σ)} (hP : ∀ s, P s → E s)
    (h : ∀ a s t, f s = .ok (a, t) → P s → Q a t) : Triple P (update f) Q E := by
  intro s hs
  show After Q E (Effect.update f s)
  rw [Effect.update]
  cases hf : f s with
  | ok b => exact h b.1 s b.2 hf hs
  | error e => exact hP s hs

/-- **Loop rule** with the elements already done. -/
theorem foldlM {f : β → γ → EStateM ε σ β} {I : List γ → β → σ → Prop} {l : List γ} {b : β}
    (hstep : ∀ done a rest b, l = done ++ a :: rest →
      Triple (I done b) (f b a) (fun b' => I (done ++ [a]) b') E) :
    Triple (I [] b) (l.foldlM f b) (fun b' => I l b') E := by
  have hall : ∀ (rest done : List γ) (b : β), l = done ++ rest →
      Triple (I done b) (rest.foldlM f b) (fun b' => I l b') E := by
    intro rest
    induction rest with
    | nil =>
      intro done b hl
      rw [List.append_nil] at hl
      rw [List.foldlM_nil]
      exact Triple.pure fun s hs => hl ▸ hs
    | cons a rest ih =>
      intro done b hl
      rw [List.foldlM_cons]
      refine (hstep done a rest b hl).bind fun b' => ih (done ++ [a]) b' ?_
      rw [hl, List.append_assoc, List.singleton_append]
  exact hall l [] b rfl

end Triple

end Effect
