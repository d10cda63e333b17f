/-
Metered computations.

A computation draws on a budget and gives up when there is not enough of it
left.  Nothing else may depend on the budget: with more of it the computation
has the same result, and what it costs is always the same (`Lawful`).  Loops
that push what each element gives stay lawful, and their elements may come in
any order.

* `spend`, `fail`, `collect` — what computations are written with;
* `Lawful.run_add` — a larger budget gives the same result;
* `Simulates` — one computation follows another, results related;
* `Simulates.collect_perm` — loops over reordered elements;
* `Pushes.foldlM` — a loop that compares what it has pushed with a limit.
-/
import Tapid.Fallible

/-- Computations on a budget. -/
abbrev Metered (β ε α : Type) := StateT β (Except ε) α

namespace Metered

open Fallible

variable {β ε α γ δ : Type}

def fail (e : ε) : Metered β ε α := fun _ => .error e

def lift (x : Except ε α) : Metered β ε α := fun b => x.map fun a => (a, b)

/-- Takes from the budget, or gives up. -/
def spend [Sub β] [LE β] [DecidableLE β] (spent : ε) (c : β) : Metered β ε Unit :=
  fun b => if c ≤ b then .ok ((), b - c) else .error spent

/-- A loop that pushes what each element gives. -/
def collect (f : α → Metered β ε (List γ)) : List α → Metered β ε (List γ)
  | [] => pure []
  | a :: l => do
    let x ← f a
    let xs ← collect f l
    pure (x ++ xs)

section Runs

theorem run_pure (a : α) (b : β) : (pure a : Metered β ε α) b = .ok (a, b) := rfl

theorem run_bind (x : Metered β ε α) (f : α → Metered β ε γ) (b : β) :
    (x >>= f) b = (x b >>= fun r => f r.1 r.2) := rfl

theorem run_bind_of_ok {x : Metered β ε α} {f : α → Metered β ε γ} {b r : β} {a : α}
    (h : x b = .ok (a, r)) : (x >>= f) b = f a r := by
  rw [run_bind, h, ok_bind]

theorem run_bind_of_error {x : Metered β ε α} {f : α → Metered β ε γ} {b : β} {e : ε}
    (h : x b = .error e) : (x >>= f) b = .error e := by
  rw [run_bind, h]
  rfl

theorem run_bind_eq_ok {x : Metered β ε α} {f : α → Metered β ε γ} {b r : β} {c : γ} :
    (x >>= f) b = .ok (c, r) ↔ ∃ a m, x b = .ok (a, m) ∧ f a m = .ok (c, r) := by
  rw [run_bind, bind_eq_ok]
  exact ⟨fun ⟨s, hx, hf⟩ => ⟨s.1, s.2, hx, hf⟩, fun ⟨a, m, hx, hf⟩ => ⟨(a, m), hx, hf⟩⟩

theorem lift_eq_ok {x : Except ε α} {b r : β} {a : α} :
    (lift x : Metered β ε α) b = .ok (a, r) ↔ x = .ok a ∧ r = b := by
  rw [lift, map_eq_ok]
  constructor
  · rintro ⟨a', hx, heq⟩
    cases heq
    exact ⟨hx, rfl⟩
  · rintro ⟨hx, rfl⟩
    exact ⟨a, hx, rfl⟩

end Runs

/-! ### Budgets only -/

/-- What a computation gives depends on the budget only through giving up. -/
structure Lawful [AddCommMonoid β] (spent : ε) (x : Metered β ε α) : Prop where
  /-- It has a cost, and any budget that covers the cost does. -/
  frame : ∀ {b r : β} {a : α}, x b = .ok (a, r) → ∃ c, b = r + c ∧ ∀ r', x (r' + c) = .ok (a, r')
  /-- Another failure stays with a larger budget. -/
  failure : ∀ {b : β} {e : ε}, x b = .error e → e = spent ∨ ∀ d, x (b + d) = .error e

section Lawful

variable [AddCommMonoid β] {spent : ε}

namespace Lawful

theorem pure (a : α) : Lawful spent (pure a : Metered β ε α) where
  frame {b r a'} h := by
    rw [run_pure] at h
    cases h
    exact ⟨0, (add_zero b).symm, fun r' => by rw [add_zero]; rfl⟩
  failure h := by cases h

theorem fail (e : ε) : Lawful spent (fail e : Metered β ε α) where
  frame h := by cases h
  failure h := .inr fun _ => h

theorem lift (x : Except ε α) : Lawful spent (lift x : Metered β ε α) := by
  cases x with
  | error e => exact fail e
  | ok a => exact pure a

theorem spend [PartialOrder β] [IsOrderedCancelAddMonoid β] [CanonicallyOrderedAdd β] [Sub β] [OrderedSub β]
    [DecidableLE β] (c : β) : Lawful spent (spend spent c) where
  frame {b r u} h := by
    rw [Metered.spend] at h
    split_ifs at h with hle
    cases h
    refine ⟨c, (tsub_add_cancel_of_le hle).symm, fun r' => ?_⟩
    rw [Metered.spend, if_pos le_add_self, add_tsub_cancel_right]
  failure {b e} h := by
    rw [Metered.spend] at h
    split_ifs at h
    cases h
    exact .inl rfl

theorem bind {x : Metered β ε α} {f : α → Metered β ε γ} (hx : Lawful spent x)
    (hf : ∀ a, Lawful spent (f a)) : Lawful spent (x >>= f) where
  frame {b r a} h := by
    obtain ⟨a', m, hxb, hfm⟩ := run_bind_eq_ok.mp h
    obtain ⟨c, hb, hframe⟩ := hx.frame hxb
    obtain ⟨c', hm, hframe'⟩ := (hf a').frame hfm
    refine ⟨c' + c, by rw [hb, hm, add_assoc], fun r' => ?_⟩
    rw [← add_assoc, run_bind_of_ok (hframe (r' + c'))]
    exact hframe' r'
  failure {b e} h := by
    rw [run_bind] at h
    rcases bind_eq_error.mp h with h | ⟨⟨a, m⟩, hxb, hfm⟩
    · exact (hx.failure h).imp id fun hall d => run_bind_of_error (hall d)
    · obtain ⟨c, hb, hframe⟩ := hx.frame hxb
      refine ((hf a).failure hfm).imp id fun hall d => ?_
      have hbd : b + d = m + d + c := by rw [hb, add_right_comm]
      rw [hbd, run_bind_of_ok (hframe (m + d))]
      exact hall d

theorem collect {f : α → Metered β ε (List γ)} (hf : ∀ a, Lawful spent (f a)) (l : List α) :
    Lawful spent (collect f l) := by
  induction l with
  | nil => exact pure []
  | cons a l ih => exact (hf a).bind fun x => ih.bind fun xs => pure (x ++ xs)

theorem foldlM {f : δ → α → Metered β ε δ} (hf : ∀ s a, Lawful spent (f s a)) (l : List α) (s : δ) :
    Lawful spent (l.foldlM f s) := by
  induction l generalizing s with
  | nil => exact pure s
  | cons a l ih =>
    rw [List.foldlM_cons]
    exact (hf s a).bind ih

/-- **A larger budget gives the same result**, unless the computation gave up. -/
theorem run_add {x : Metered β ε α} (hx : Lawful spent x) (b d : β) :
    x b = .error spent ∨ (x b).map Prod.fst = (x (b + d)).map Prod.fst := by
  cases hxb : x b with
  | error e =>
    refine (hx.failure hxb).imp (fun he => by rw [he]) fun hall => ?_
    rw [hall d]
  | ok r =>
    obtain ⟨a, r⟩ := r
    obtain ⟨c, hb, hframe⟩ := hx.frame hxb
    right
    have hbd : b + d = r + d + c := by rw [hb, add_right_comm]
    rw [hbd, hframe]
    rfl

end Lawful

end Lawful

/-! ### Following another computation -/

/-- Whatever the first computation gives, the second gives something related,
at the same cost. -/
def Simulates (R : α → γ → Prop) (x : Metered β ε α) (y : Metered β ε γ) : Prop :=
  ∀ (b r : β) (a : α), x b = .ok (a, r) → ∃ c, y b = .ok (c, r) ∧ R a c

namespace Simulates

theorem pure {R : α → γ → Prop} {a : α} {c : γ} (h : R a c) :
    Simulates R (pure a : Metered β ε α) (pure c) := by
  intro b r a' hrun
  rw [run_pure] at hrun
  cases hrun
  exact ⟨c, rfl, h⟩

theorem refl {R : α → α → Prop} (hR : ∀ a, R a a) (x : Metered β ε α) : Simulates R x x :=
  fun _ _ a h => ⟨a, h, hR a⟩

theorem bind {α' γ' : Type} {R : α → γ → Prop} {S : α' → γ' → Prop} {x : Metered β ε α} {y : Metered β ε γ}
    {f : α → Metered β ε α'} {g : γ → Metered β ε γ'} (hx : Simulates R x y)
    (hf : ∀ a c, R a c → Simulates S (f a) (g c)) : Simulates S (x >>= f) (y >>= g) := by
  intro b r a h
  obtain ⟨a', m, hxb, hfm⟩ := run_bind_eq_ok.mp h
  obtain ⟨c', hyb, hR⟩ := hx b m a' hxb
  obtain ⟨c, hgm, hS⟩ := hf a' c' hR m r a hfm
  exact ⟨c, by rw [run_bind_of_ok hyb]; exact hgm, hS⟩

theorem trans {α' : Type} {R : α → γ → Prop} {S : γ → α' → Prop} {T : α → α' → Prop} {x : Metered β ε α}
    {y : Metered β ε γ} {z : Metered β ε α'} (hxy : Simulates R x y) (hyz : Simulates S y z)
    (hT : ∀ a c a', R a c → S c a' → T a a') : Simulates T x z := by
  intro b r a h
  obtain ⟨c, hy, hR⟩ := hxy b r a h
  obtain ⟨a', hz, hS⟩ := hyz b r c hy
  exact ⟨a', hz, hT a c a' hR hS⟩

theorem collect {f g : α → Metered β ε (List γ)} (h : ∀ a, Simulates List.Perm (f a) (g a)) (l : List α) :
    Simulates List.Perm (collect f l) (collect g l) := by
  induction l with
  | nil => exact pure (.refl [])
  | cons a l ih =>
    exact (h a).bind fun x x' hx => ih.bind fun xs xs' hxs => pure (hx.append hxs)

theorem foldlM {α' γ' : Type} {R : α' → γ' → Prop} {f : α' → α → Metered β ε α'} {g : γ' → α → Metered β ε γ'}
    (h : ∀ a s s', R s s' → Simulates R (f s a) (g s' a)) (l : List α) {s : α'} {s' : γ'} (hs : R s s') :
    Simulates R (l.foldlM f s) (l.foldlM g s') := by
  induction l generalizing s s' with
  | nil => exact pure hs
  | cons a l ih =>
    rw [List.foldlM_cons, List.foldlM_cons]
    exact (h a s s' hs).bind fun t t' ht => ih ht

/-- **Reordered elements** push the same, and cost the same. -/
theorem collect_reorder [AddCommMonoid β] {spent : ε} {f : α → Metered β ε (List γ)}
    (hf : ∀ a, Lawful spent (f a)) {l l' : List α} (hl : l.Perm l') :
    Simulates List.Perm (Metered.collect f l) (Metered.collect f l') := by
  induction hl with
  | nil => exact refl List.Perm.refl _
  | @cons a l l' _ ih =>
    exact (refl List.Perm.refl (f a)).bind fun x x' hx => ih.bind fun xs xs' hxs => pure (hx.append hxs)
  | swap a a' l =>
    intro b r zs h
    obtain ⟨y, m, hy, h⟩ := run_bind_eq_ok.mp h
    obtain ⟨ys, m', hys, h⟩ := run_bind_eq_ok.mp h
    obtain ⟨x, m'', hx, hys⟩ := run_bind_eq_ok.mp hys
    obtain ⟨xs, m''', hxs, hys⟩ := run_bind_eq_ok.mp hys
    cases hys
    cases h
    -- the cost of either element is the same wherever it comes
    obtain ⟨c, hb, hframe⟩ := (hf a').frame hy
    obtain ⟨c', hm, hframe'⟩ := (hf a).frame hx
    have hbx : b = m'' + c + c' := by rw [hb, hm, add_right_comm]
    refine ⟨x ++ (y ++ xs), ?_, ?_⟩
    · have hfirst : f a b = .ok (x, m'' + c) := by rw [hbx]; exact hframe' (m'' + c)
      have hsecond : f a' (m'' + c) = .ok (y, m'') := hframe m''
      rw [Metered.collect, run_bind_of_ok hfirst, Metered.collect]
      rw [run_bind_of_ok (run_bind_eq_ok.mpr ⟨y, m'', hsecond, run_bind_eq_ok.mpr ⟨xs, r, hxs, rfl⟩⟩)]
      rfl
    · rw [← List.append_assoc, ← List.append_assoc]
      exact List.perm_append_comm.append_right xs
  | trans _ _ ih ih' => exact ih.trans ih' fun _ _ _ h h' => h.trans h'

theorem collect_perm [AddCommMonoid β] {spent : ε} {f g : α → Metered β ε (List γ)}
    (h : ∀ a, Simulates List.Perm (f a) (g a)) (hg : ∀ a, Lawful spent (g a)) {l l' : List α}
    (hl : l.Perm l') : Simulates List.Perm (Metered.collect f l) (Metered.collect g l') :=
  (collect h l).trans (collect_reorder hg hl) fun _ _ _ h h' => h.trans h'

end Simulates

/-! ### Other failures -/

def mapFailure {ε' : Type} (φ : ε → ε') (x : Metered β ε α) : Metered β ε' α := fun b => (x b).mapError φ

theorem collect_mapFailure {ε' : Type} (φ : ε → ε') (f : α → Metered β ε (List γ)) (l : List α) (b : β) :
    collect (fun a => mapFailure φ (f a)) l b = (collect f l b).mapError φ := by
  induction l generalizing b with
  | nil => rfl
  | cons a l ih =>
    cases hfa : f a b with
    | error e =>
      have hmap : mapFailure φ (f a) b = .error (φ e) := by rw [mapFailure, hfa]; rfl
      rw [collect, collect, run_bind_of_error hfa, run_bind_of_error hmap]
      rfl
    | ok r =>
      obtain ⟨x, m⟩ := r
      have hmap : mapFailure φ (f a) b = .ok (x, m) := by rw [mapFailure, hfa]; rfl
      rw [collect, collect, run_bind_of_ok hfa, run_bind_of_ok hmap, run_bind, run_bind, ih m]
      cases collect f l m with
      | error e => rfl
      | ok r => rfl

/-! ### Room for what is pushed -/

/-- What is drawn from the second budget only. -/
def second (x : Metered ℕ ε α) : Metered (ℕ × ℕ) ε α :=
  fun b => (x b.2).map fun r => (r.1, (b.1, r.2))

theorem Lawful.second {spent : ε} {x : Metered ℕ ε α} (hx : Lawful spent x) :
    Lawful spent (second x) where
  frame {b r a} h := by
    rw [Metered.second, map_eq_ok] at h
    obtain ⟨⟨a', m⟩, hxb, heq⟩ := h
    cases heq
    obtain ⟨c, hb, hframe⟩ := hx.frame hxb
    refine ⟨(0, c), Prod.ext (add_zero _).symm hb, fun r' => ?_⟩
    show Except.map _ (x (r'.2 + c)) = _
    rw [hframe]
    rfl
  failure {b e} h := by
    rw [Metered.second] at h
    cases hxb : x b.2 with
    | ok r =>
      rw [hxb] at h
      cases h
    | error e' =>
      rw [hxb] at h
      cases h
      refine (hx.failure hxb).imp id fun hall d => ?_
      show Except.map _ (x (b.2 + d.2)) = _
      rw [hall]
      rfl

theorem Simulates.second {R : α → γ → Prop} {x : Metered ℕ ε α} {y : Metered ℕ ε γ} (h : Simulates R x y) :
    Simulates R (second x) (second y) := by
  intro b r a hrun
  rw [Metered.second, map_eq_ok] at hrun
  obtain ⟨⟨a', m⟩, hxb, heq⟩ := hrun
  cases heq
  obtain ⟨c, hyb, hR⟩ := h b.2 m a' hxb
  refine ⟨c, ?_, hR⟩
  rw [Metered.second, hyb]
  rfl

/-- The same failure, or the same elements pushed: onto what was there, and
with what remains of the room for them. -/
inductive Pushes (pushed : List γ) (room : ℕ) :
    Except ε (List γ × ℕ) → Except ε (List γ × ℕ × ℕ) → Prop
  | failed (e : ε) : Pushes pushed room (.error e) (.error e)
  | pushed (more : List γ) (room' steps : ℕ) (h : more.length + room' = room) :
      Pushes pushed room (.ok (pushed ++ more, steps)) (.ok (more, room', steps))

namespace Pushes

variable {pushed pushed' : List γ} {room room' steps : ℕ}

theorem none : Pushes pushed room ((Pure.pure pushed : Metered ℕ ε (List γ)) steps)
    ((Pure.pure [] : Metered (ℕ × ℕ) ε (List γ)) (room, steps)) := by
  have h := @Pushes.pushed ε γ pushed room [] room steps (Nat.zero_add room)
  rwa [List.append_nil] at h

/-- A limit on what is pushed, against taking it from a budget. -/
theorem one (spent : ε) (a : γ) {limit : ℕ} (h : pushed.length + room = limit) :
    Pushes pushed room
      ((if pushed.length = limit then Metered.fail spent else Pure.pure (pushed ++ [a])
        : Metered ℕ ε (List γ)) steps)
      ((spend spent (1, 0) >>= fun _ => Pure.pure [a] : Metered (ℕ × ℕ) ε (List γ)) (room, steps)) := by
  cases room with
  | zero =>
    rw [if_pos (by omega)]
    exact .failed spent
  | succ room =>
    rw [if_neg (by omega)]
    have hspend : (spend spent (1, 0) : Metered (ℕ × ℕ) ε Unit) (room + 1, steps) = .ok ((), room, steps) := by
      have hle : ((1, 0) : ℕ × ℕ) ≤ (room + 1, steps) := ⟨Nat.le_add_left 1 room, Nat.zero_le steps⟩
      rw [spend, if_pos hle]
      rfl
    rw [run_bind_of_ok hspend]
    exact .pushed [a] room steps (Nat.add_comm 1 room)

theorem bind {x : Metered ℕ ε (List γ)} {y : Metered (ℕ × ℕ) ε (List γ)} {f : List γ → Metered ℕ ε (List δ)}
    {g : List γ → Metered (ℕ × ℕ) ε (List δ)} {before : List δ} {space : ℕ}
    (h : Pushes pushed room (x steps) (y (room, steps)))
    (hf : ∀ more room' steps', more.length + room' = room →
      Pushes before space (f (pushed ++ more) steps') (g more (room', steps'))) :
    Pushes before space ((x >>= f) steps) ((y >>= g) (room, steps)) := by
  rw [run_bind, run_bind]
  generalize x steps = r at h ⊢
  generalize y (room, steps) = r' at h ⊢
  cases h with
  | failed e => exact .failed e
  | pushed more room' steps' hroom => exact hf more room' steps' hroom

theorem second_bind {x : Metered ℕ ε α} {f : α → Metered ℕ ε (List γ)} {g : α → Metered (ℕ × ℕ) ε (List γ)}
    (hf : ∀ a steps', Pushes pushed room (f a steps') (g a (room, steps'))) :
    Pushes pushed room ((x >>= f) steps) ((second x >>= g) (room, steps)) := by
  rw [run_bind, run_bind, second]
  cases x steps with
  | error e => exact .failed e
  | ok r => exact hf r.1 r.2

theorem mapFailure {ε' : Type} (φ : ε → ε') {r : Except ε (List γ × ℕ)} {r' : Except ε (List γ × ℕ × ℕ)}
    (h : Pushes pushed room r r') : Pushes pushed room (r.mapError φ) (r'.mapError φ) := by
  cases h with
  | failed e => exact .failed (φ e)
  | pushed more room' steps' hroom => exact .pushed more room' steps' hroom

/-- **Loops**: a loop that compares what it has pushed with a limit, against one
that takes each element from a budget. -/
theorem foldlM {limit : ℕ} {f : List γ → α → Metered ℕ ε (List γ)} {g : α → Metered (ℕ × ℕ) ε (List γ)}
    (h : ∀ a pushed room steps, pushed.length + room = limit →
      Pushes pushed room (f pushed a steps) (g a (room, steps)))
    (l : List α) (hlimit : pushed.length + room = limit) :
    Pushes pushed room (l.foldlM f pushed steps) (collect g l (room, steps)) := by
  induction l generalizing pushed room steps with
  | nil => exact none
  | cons a l ih =>
    rw [List.foldlM_cons, collect]
    refine bind (h a pushed room steps hlimit) fun more room' steps' hroom => ?_
    have hlimit' : (pushed ++ more).length + room' = limit := by
      rw [List.length_append]
      omega
    rw [run_bind]
    have hrest := @ih (pushed ++ more) room' steps' hlimit'
    generalize List.foldlM f (pushed ++ more) l steps' = r at hrest ⊢
    generalize collect g l (room', steps') = r' at hrest ⊢
    cases hrest with
    | failed e => exact .failed e
    | pushed last room'' steps'' hroom' =>
      rw [List.append_assoc]
      refine .pushed (more ++ last) room'' steps'' ?_
      rw [List.length_append]
      omega

end Pushes

end Metered
