/-
Processes that share a state and take their steps in any order.

Each process runs a program of calls.  A step of the system is one call of one
process: it is carried out, it fails, or it is the call at which the process is
stopped.  Between two calls of one process the others take any number of steps.

A contract says what one call may do: an invariant of the state, what the steps
of a process promise to the others (`guarantee`), what a process may count on
between two calls of its own (`rely`), and what has to hold where a call is made
(`requires`).  `Safe` is then a condition on one program alone.

* `Contract.safe_of_reachable` — programs that are safe one by one keep the
  invariant together, and each call is made where its condition holds;
* `Contract.guarantee_of_step` — every step is one that a process promises;
* `reaches_without` — a run that nothing has marked is a run in which the failures
  that leave a mark do not happen;
* `Spec` and its rules — how `Safe` is shown of a program.
-/
import Tapid.Interrupted

namespace Interleaved

open Interrupted

/-- The meaning of the calls of every process. -/
structure System {Op : Type} (Reply : Op → Type) (Pid ε σ κ : Type) where
  calls : Pid → Calls Reply ε σ κ
  /-- A call that waits is not carried out before this holds. -/
  enabled : Pid → Op → σ → Prop
  /-- Whether a call may fail in a state. -/
  mayFail : Op → σ → Prop
  /-- The state behind the call at which a process is stopped. -/
  halt : Pid → Op → κ → σ → σ
  /-- The state behind the end of a process. -/
  release : Pid → σ → σ

/-- A state and what is left to do for each process. -/
structure Config {Op : Type} (Reply : Op → Type) (Pid ε α σ : Type) where
  state : σ
  running : Pid → Option (Prog Reply ε α)

section

variable {Op : Type} {Reply : Op → Type} {Pid ε α β σ κ : Type}

/-! ### Runs -/

section

variable [DecidableEq Pid]

/-- The process `i` goes on with `p`. -/
def Config.update (c : Config Reply Pid ε α σ) (i : Pid) (p : Option (Prog Reply ε α)) (s : σ) :
    Config Reply Pid ε α σ :=
  ⟨s, fun j => if j = i then p else c.running j⟩

@[simp] theorem Config.update_same (c : Config Reply Pid ε α σ) (i : Pid) (p : Option (Prog Reply ε α)) (s : σ) :
    (c.update i p s).running i = p := if_pos rfl

theorem Config.update_other (c : Config Reply Pid ε α σ) {i j : Pid} (h : j ≠ i) (p : Option (Prog Reply ε α))
    (s : σ) : (c.update i p s).running j = c.running j := if_neg h

theorem Config.update_update (c : Config Reply Pid ε α σ) (i : Pid) (p q : Option (Prog Reply ε α)) (s t : σ) :
    (c.update i p s).update i q t = c.update i q t := by
  rw [update, update, update]
  congr 1
  funext j
  by_cases hj : j = i
  · simp [hj]
  · simp [hj]

variable (sys : System Reply Pid ε σ κ) (starts : Prog Reply ε α → Prop)

/-- One step of one process. -/
inductive Step : Config Reply Pid ε α σ → Config Reply Pid ε α σ → Prop
  | start {c} (i : Pid) (p : Prog Reply ε α) (hi : c.running i = none) (hp : starts p) :
      Step c (c.update i (some p) c.state)
  | done {c} (i : Pid) (o : Op) (next : Except ε (Reply o) → Prog Reply ε α)
      (hi : c.running i = some (.call o next)) (ho : sys.enabled i o c.state) :
      Step c (c.update i (some (next ((sys.calls i).exec o c.state).1)) ((sys.calls i).exec o c.state).2)
  | failed {c} (i : Pid) (o : Op) (next : Except ε (Reply o) → Prog Reply ε α) (cut : κ)
      (hi : c.running i = some (.call o next)) (ho : sys.mayFail o c.state) :
      Step c (c.update i (some (next (.error (sys.calls i).failure))) ((sys.calls i).cut o cut c.state))
  | stopped {c} (i : Pid) (o : Op) (next : Except ε (Reply o) → Prog Reply ε α) (cut : κ)
      (hi : c.running i = some (.call o next)) :
      Step c (c.update i none (sys.halt i o cut c.state))
  | ended {c} (i : Pid) (a : α) (hi : c.running i = some (.done a)) :
      Step c (c.update i none (sys.release i c.state))

/-- What a run from `c` can come to. -/
def Reaches : Config Reply Pid ε α σ → Config Reply Pid ε α σ → Prop := Relation.ReflTransGen (Step sys starts)

end

/-! ### Failures that leave a mark -/

section

/-- The system without some of the failures. -/
def System.without (sys : System Reply Pid ε σ κ) (bad : Op → σ → Prop) : System Reply Pid ε σ κ :=
  { sys with mayFail := fun o s => sys.mayFail o s ∧ ¬bad o s }

variable [DecidableEq Pid] {sys : System Reply Pid ε σ κ} {starts : Prog Reply ε α → Prop} {bad : Op → σ → Prop}
  (marked : σ → Prop)

/-- A step that leaves no mark is none of these failures. -/
theorem step_without (hbad : ∀ i o c s, bad o s → marked ((sys.calls i).cut o c s))
    {c d : Config Reply Pid ε α σ} (h : Step sys starts c d) (hd : ¬marked d.state) :
    Step (sys.without bad) starts c d := by
  cases h with
  | start i p hi hp => exact .start i p hi hp
  | done i o next hi ho => exact (.done i o next hi ho : Step (sys.without bad) starts c _)
  | failed i o next cut hi ho =>
    have hgood : ¬bad o c.state := fun h => hd (hbad i o cut _ h)
    exact (.failed i o next cut hi ⟨ho, hgood⟩ : Step (sys.without bad) starts c _)
  | stopped i o next cut hi => exact (.stopped i o next cut hi : Step (sys.without bad) starts c _)
  | ended i a hi => exact (.ended i a hi : Step (sys.without bad) starts c _)

/-- **Unmarked runs.**  A run that ends without a mark has had none of these failures. -/
theorem reaches_without (hmono : ∀ c d, Step sys starts c d → marked c.state → marked d.state)
    (hbad : ∀ i o c s, bad o s → marked ((sys.calls i).cut o c s)) {c d : Config Reply Pid ε α σ}
    (h : Reaches sys starts c d) (hd : ¬marked d.state) : Reaches (sys.without bad) starts c d := by
  induction h with
  | refl => exact Relation.ReflTransGen.refl
  | tail _ hstep ih => exact (ih fun h => hd (hmono _ _ hstep h)).tail (step_without marked hbad hstep hd)

end

/-! ### Contracts -/

/-- What the calls of one process may do and what the others may count on. -/
structure Contract (sys : System Reply Pid ε σ κ) where
  inv : σ → Prop
  guarantee : Pid → σ → σ → Prop
  rely : Pid → σ → σ → Prop
  requires : Pid → Op → σ → Prop
  /-- Where a process may start. -/
  idle : Pid → σ → Prop
  rely_refl (i : Pid) (s : σ) : rely i s s
  rely_trans {i : Pid} {s t u : σ} : rely i s t → rely i t u → rely i s u
  rely_of_guarantee {i j : Pid} {s t : σ} : i ≠ j → inv s → inv t → guarantee j s t → rely i s t
  exec_ok {i : Pid} {o : Op} {s : σ} : inv s → requires i o s → sys.enabled i o s →
    inv ((sys.calls i).exec o s).2 ∧ guarantee i s ((sys.calls i).exec o s).2
  cut_ok {i : Pid} {o : Op} {s : σ} (c : κ) : inv s → requires i o s → sys.mayFail o s →
    inv ((sys.calls i).cut o c s) ∧ guarantee i s ((sys.calls i).cut o c s)
  halt_ok {i : Pid} {o : Op} {s : σ} (c : κ) : inv s → requires i o s →
    inv (sys.halt i o c s) ∧ guarantee i s (sys.halt i o c s) ∧ idle i (sys.halt i o c s)
  release_ok {i : Pid} {s : σ} : inv s →
    inv (sys.release i s) ∧ guarantee i s (sys.release i s) ∧ idle i (sys.release i s)
  guarantee_refl (i : Pid) (s : σ) : guarantee i s s
  idle_rely {i : Pid} {s t : σ} : idle i s → rely i s t → idle i t

namespace Contract

variable {sys : System Reply Pid ε σ κ} (K : Contract sys)

/-- Whatever the others do, each call is made where its condition holds, and the
program ends in `Q`. -/
def Safe (i : Pid) : Prog Reply ε α → (α → σ → Prop) → σ → Prop
  | .done a, Q, s => Q a s
  | .call o next, Q, s => ∀ t, K.inv t → K.rely i s t →
    K.requires i o t ∧
    (sys.enabled i o t →
      Safe i (next ((sys.calls i).exec o t).1) Q ((sys.calls i).exec o t).2) ∧
    (sys.mayFail o t → ∀ c, Safe i (next (.error (sys.calls i).failure)) Q ((sys.calls i).cut o c t))

/-- What the steps of the others do not end. -/
def Stable (i : Pid) (P : σ → Prop) : Prop := ∀ ⦃s t⦄, K.inv t → K.rely i s t → P s → P t

/-- From `P` the program is safe and ends in `Q`. -/
def Triple (i : Pid) (P : σ → Prop) (p : Prog Reply ε α) (Q : α → σ → Prop) : Prop :=
  ∀ ⦃s⦄, K.inv s → P s → K.Safe i p Q s

variable {K} {i : Pid}

theorem Safe.mono {p : Prog Reply ε α} {Q R : α → σ → Prop} {s : σ} (h : K.Safe i p Q s)
    (hQ : ∀ a t, Q a t → R a t) : K.Safe i p R s := by
  induction p generalizing s with
  | done a => exact hQ a s h
  | call o next ih =>
    intro t ht hst
    obtain ⟨hreq, hdone, hfail⟩ := h t ht hst
    exact ⟨hreq, fun ho => ih _ (hdone ho), fun ho c => ih _ (hfail ho c)⟩

/-- A safe program stays safe while the others take their steps. -/
theorem Safe.rely {p : Prog Reply ε α} {Q : α → σ → Prop} (hQ : ∀ a, K.Stable i (Q a)) {s t : σ} (ht : K.inv t)
    (hst : K.rely i s t) (h : K.Safe i p Q s) : K.Safe i p Q t := by
  cases p with
  | done a => exact hQ a ht hst h
  | call o next =>
    intro u hu htu
    exact h u hu (K.rely_trans hst htu)

theorem Safe.bind {p : Prog Reply ε α} {f : α → Prog Reply ε β} {Q : β → σ → Prop} {s : σ}
    (h : K.Safe i p (fun a t => K.Safe i (f a) Q t) s) : K.Safe i (p.bind f) Q s := by
  induction p generalizing s with
  | done a => exact h
  | call o next ih =>
    intro t ht hst
    obtain ⟨hreq, hdone, hfail⟩ := h t ht hst
    exact ⟨hreq, fun ho => ih _ (hdone ho), fun ho c => ih _ (hfail ho c)⟩

/-- The invariant holds wherever a program ends. -/
theorem Safe.inv {p : Prog Reply ε α} {Q : α → σ → Prop} {s : σ} (hs : K.inv s) (h : K.Safe i p Q s) :
    K.Safe i p (fun a t => K.inv t ∧ Q a t) s := by
  induction p generalizing s with
  | done a => exact ⟨hs, h⟩
  | call o next ih =>
    intro t ht hst
    obtain ⟨hreq, hdone, hfail⟩ := h t ht hst
    refine ⟨hreq, fun ho => ih _ (K.exec_ok ht hreq ho).1 (hdone ho), fun ho c => ?_⟩
    exact ih _ (K.cut_ok c ht hreq ho).1 (hfail ho c)

theorem stable_true (a : α) : K.Stable i ((fun _ _ => True : α → σ → Prop) a) := fun _ _ _ _ _ => trivial

/-! ### Every interleaving -/

/-- The invariant holds, every process that runs is safe, and every other one is
idle. -/
structure Sound (K : Contract sys) (c : Config Reply Pid ε α σ) : Prop where
  inv : K.inv c.state
  running {i : Pid} {p : Prog Reply ε α} : c.running i = some p → K.Safe i p (fun _ _ => True) c.state
  waiting {i : Pid} : c.running i = none → K.idle i c.state

/-- A process makes its next call where the condition of the call holds. -/
theorem Sound.requires {c : Config Reply Pid ε α σ} (h : Sound K c) {o : Op}
    {next : Except ε (Reply o) → Prog Reply ε α} (hi : c.running i = some (.call o next)) :
    K.requires i o c.state :=
  (h.running hi c.state h.inv (K.rely_refl i _)).1

variable [DecidableEq Pid] {starts : Prog Reply ε α → Prop}

/-- The other processes are as sound behind a step as before it. -/
theorem Sound.update {c : Config Reply Pid ε α σ} (h : Sound K c) {t : σ} {p : Option (Prog Reply ε α)}
    (ht : K.inv t) (hg : K.guarantee i c.state t) (hrun : ∀ q, p = some q → K.Safe i q (fun _ _ => True) t)
    (hwait : p = none → K.idle i t) : Sound K (c.update i p t) := by
  have hrely : ∀ j, j ≠ i → K.rely j c.state t := fun j hj => K.rely_of_guarantee hj h.inv ht hg
  refine ⟨ht, ?_, ?_⟩
  · intro j q hq
    by_cases hj : j = i
    · subst hj
      rw [Config.update_same] at hq
      exact hrun q hq
    · rw [Config.update_other c hj] at hq
      exact (h.running hq).rely stable_true ht (hrely j hj)
  · intro j hq
    by_cases hj : j = i
    · subst hj
      rw [Config.update_same] at hq
      exact hwait hq
    · rw [Config.update_other c hj] at hq
      exact K.idle_rely (h.waiting hq) (hrely j hj)

/-- Every step is one that some process promises to the others. -/
theorem guarantee_of_step {c d : Config Reply Pid ε α σ} (h : Sound K c) (hstep : Step sys starts c d) :
    ∃ i, K.guarantee i c.state d.state := by
  cases hstep with
  | start i p hi hp => exact ⟨i, K.guarantee_refl i _⟩
  | done i o next hi ho =>
    obtain ⟨hreq, -, -⟩ := h.running hi c.state h.inv (K.rely_refl i _)
    exact ⟨i, (K.exec_ok h.inv hreq ho).2⟩
  | failed i o next cut hi ho =>
    obtain ⟨hreq, -, -⟩ := h.running hi c.state h.inv (K.rely_refl i _)
    exact ⟨i, (K.cut_ok cut h.inv hreq ho).2⟩
  | stopped i o next cut hi =>
    obtain ⟨hreq, -, -⟩ := h.running hi c.state h.inv (K.rely_refl i _)
    exact ⟨i, (K.halt_ok cut h.inv hreq).2.1⟩
  | ended i a hi => exact ⟨i, (K.release_ok h.inv).2.1⟩

/-- One step, one case per way a call can end. -/
theorem Sound.step {c d : Config Reply Pid ε α σ}
    (hstarts : ∀ p, starts p → ∀ i, K.Triple i (K.idle i) p fun _ _ => True) (h : Sound K c)
    (hstep : Step sys starts c d) : Sound K d := by
  cases hstep with
  | start i p hi hp =>
    refine h.update h.inv (K.guarantee_refl i _) (fun q hq => ?_) (fun hq => nomatch hq)
    obtain rfl := Option.some.inj hq
    exact hstarts p hp i h.inv (h.waiting hi)
  | done i o next hi ho =>
    obtain ⟨hreq, hdone, -⟩ := h.running hi c.state h.inv (K.rely_refl i _)
    obtain ⟨hinv, hg⟩ := K.exec_ok h.inv hreq ho
    refine h.update hinv hg (fun q hq => ?_) (fun hq => nomatch hq)
    obtain rfl := Option.some.inj hq
    exact hdone ho
  | failed i o next cut hi ho =>
    obtain ⟨hreq, -, hfail⟩ := h.running hi c.state h.inv (K.rely_refl i _)
    obtain ⟨hinv, hg⟩ := K.cut_ok cut h.inv hreq ho
    refine h.update hinv hg (fun q hq => ?_) (fun hq => nomatch hq)
    obtain rfl := Option.some.inj hq
    exact hfail ho cut
  | stopped i o next cut hi =>
    obtain ⟨hreq, -, -⟩ := h.running hi c.state h.inv (K.rely_refl i _)
    obtain ⟨hinv, hg, hidle⟩ := K.halt_ok cut h.inv hreq
    exact h.update hinv hg (fun q hq => nomatch hq) fun _ => hidle
  | ended i a hi =>
    obtain ⟨hinv, hg, hidle⟩ := K.release_ok (i := i) h.inv
    exact h.update hinv hg (fun q hq => nomatch hq) fun _ => hidle

/-- **Every interleaving.**  Programs that are safe one by one are safe together. -/
theorem safe_of_reachable {c d : Config Reply Pid ε α σ}
    (hstarts : ∀ p, starts p → ∀ i, K.Triple i (K.idle i) p fun _ _ => True) (h : Sound K c)
    (hreach : Reaches sys starts c d) : Sound K d := by
  induction hreach with
  | refl => exact h
  | tail _ hstep ih => exact ih.step hstarts hstep

end Contract

/-! ### Errors -/

section

variable {ε' : Type}

/-- `cleanup` runs where `r` returns an error; its own error takes the other's place. -/
def onError (cleanup : ExceptT ε' (Prog Reply ε) Unit) (r : ExceptT ε' (Prog Reply ε) α) :
    ExceptT ε' (Prog Reply ε) α :=
  tryCatch r fun e => do
    cleanup
    throw e

/-- The result of `r` is dropped, and so is its error. -/
def ignored (r : ExceptT ε' (Prog Reply ε) α) : ExceptT ε' (Prog Reply ε) Unit :=
  tryCatch (do let _ ← r) fun _ => pure ()

end

/-! ### Undisturbed runs -/

section

variable {ε' : Type} (calls : Calls Reply ε σ κ)

/-- The result of a program of which every call is carried out while nobody else
takes a step. -/
def alone : Prog Reply ε α → σ → α × σ
  | .done a, s => (a, s)
  | .call o next, s => alone (next (calls.exec o s).1) (calls.exec o s).2

theorem alone_bind (p : Prog Reply ε α) (f : α → Prog Reply ε β) (s : σ) :
    alone calls (p >>= f) s = alone calls (f (alone calls p s).1) (alone calls p s).2 := by
  show alone calls (p.bind f) s = _
  induction p generalizing s with
  | done a => rfl
  | call o next ih => exact ih _ _

theorem alone_attempt (o : Op) (s : σ) :
    alone calls (Prog.attempt o id : ExceptT ε (Prog Reply ε) (Reply o)).run s = calls.exec o s := by
  show (((calls.exec o s).1.mapError id), (calls.exec o s).2) = _
  cases h : calls.exec o s with
  | mk r t => cases r <;> rfl

/-- `?` -/
theorem alone_tryBind (p : ExceptT ε' (Prog Reply ε) α) (f : α → ExceptT ε' (Prog Reply ε) β) (s : σ) :
    alone calls (p >>= f).run s =
      match alone calls p.run s with
      | (.ok a, t) => alone calls (f a).run t
      | (.error e, t) => (.error e, t) := by
  show alone calls (p.run >>= ExceptT.bindCont f) s = _
  rw [alone_bind]
  cases h : alone calls p.run s with
  | mk r t => cases r <;> rfl

theorem alone_onError_error {cleanup : ExceptT ε' (Prog Reply ε) Unit} {p : ExceptT ε' (Prog Reply ε) α} {s t u : σ}
    {e : ε'} (h : alone calls p.run s = (.error e, t)) (hc : alone calls cleanup.run t = (.ok (), u)) :
    alone calls (onError cleanup p).run s = (.error e, u) := by
  show alone calls (p.run >>= fun r => _) s = _
  rw [alone_bind, h]
  show alone calls (cleanup >>= fun _ => throw e : ExceptT ε' (Prog Reply ε) α).run t = _
  rw [alone_tryBind, hc]
  rfl

theorem only_tryCatch {ok : Op → Prop} {p : ExceptT ε' (Prog Reply ε) α} {f : ε' → ExceptT ε' (Prog Reply ε) α}
    (hp : Prog.Only ok p.run) (hf : ∀ e, Prog.Only ok (f e).run) : Prog.Only ok (tryCatch p f).run :=
  Prog.only_bind hp fun r => match r with
    | .ok _ => trivial
    | .error e => hf e

theorem only_onError {ok : Op → Prop} {cleanup : ExceptT ε' (Prog Reply ε) Unit} {p : ExceptT ε' (Prog Reply ε) α}
    (hc : Prog.Only ok cleanup.run) (hp : Prog.Only ok p.run) : Prog.Only ok (onError cleanup p).run :=
  only_tryCatch hp fun _ => Prog.only_tryBind hc fun _ => trivial

theorem only_ignored {ok : Op → Prop} {p : ExceptT ε' (Prog Reply ε) α} (hp : Prog.Only ok p.run) :
    Prog.Only ok (ignored p).run :=
  only_tryCatch (Prog.only_tryBind hp fun _ => trivial) fun _ => trivial

/-- A program and the state after as many of its calls as a plan decides. -/
def advance (sys : System Reply Pid ε σ κ) (i : Pid) : Prog Reply ε α → List (Fate κ) → σ → Prog Reply ε α × σ
  | .call o next, .done :: plan, s =>
    advance sys i (next ((sys.calls i).exec o s).1) plan ((sys.calls i).exec o s).2
  | .call o next, .failed c :: plan, s =>
    advance sys i (next (.error (sys.calls i).failure)) plan ((sys.calls i).cut o c s)
  | p, _, s => (p, s)

/-- The call a program comes to first. -/
def nextCall : Prog Reply ε α → Option Op
  | .done _ => none
  | .call o _ => some o

theorem eq_call_of_nextCall {p : Prog Reply ε α} {o : Op} (h : nextCall p = some o) :
    ∃ next, p = .call o next := by
  cases p with
  | done a => exact absurd h (by simp [nextCall])
  | call o' next =>
    obtain rfl : o' = o := Option.some.inj h
    exact ⟨next, rfl⟩

/-- What a plan decides can happen. -/
def Allows (sys : System Reply Pid ε σ κ) (i : Pid) : Prog Reply ε α → List (Fate κ) → σ → Prop
  | .call o next, .done :: plan, s =>
    sys.enabled i o s ∧ Allows sys i (next ((sys.calls i).exec o s).1) plan ((sys.calls i).exec o s).2
  | .call o next, .failed c :: plan, s =>
    sys.mayFail o s ∧ Allows sys i (next (.error (sys.calls i).failure)) plan ((sys.calls i).cut o c s)
  | _, _, _ => True

/-- The part of a run in which one process takes all the steps. -/
theorem reaches_advance [DecidableEq Pid] (sys : System Reply Pid ε σ κ) (starts : Prog Reply ε α → Prop)
    {c : Config Reply Pid ε α σ} {i : Pid} {p : Prog Reply ε α} {plan : List (Fate κ)} {s : σ}
    (h : Allows sys i p plan s) :
    Reaches sys starts (c.update i (some p) s)
      (c.update i (some (advance sys i p plan s).1) (advance sys i p plan s).2) := by
  induction p generalizing plan s with
  | done a => exact Relation.ReflTransGen.refl
  | call o next ih =>
    match plan with
    | [] => exact Relation.ReflTransGen.refl
    | .stopped _ :: _ => exact Relation.ReflTransGen.refl
    | .done :: plan =>
      have hstep : Step sys starts (c.update i (some (.call o next)) s) _ :=
        .done i o next (Config.update_same _ _ _ _) h.1
      rw [Config.update_update] at hstep
      exact Relation.ReflTransGen.head hstep (ih _ h.2)
    | .failed cut :: plan =>
      have hstep : Step sys starts (c.update i (some (.call o next)) s) _ :=
        .failed i o next cut (Config.update_same _ _ _ _) h.1
      rw [Config.update_update] at hstep
      exact Relation.ReflTransGen.head hstep (ih _ h.2)

/-- ... and is stopped then. -/
theorem reaches_stopped [DecidableEq Pid] (sys : System Reply Pid ε σ κ) (starts : Prog Reply ε α → Prop)
    {c : Config Reply Pid ε α σ} {i : Pid} {p : Prog Reply ε α} {plan : List (Fate κ)} {s : σ} {o : Op} (cut : κ)
    (h : Allows sys i p plan s) (ho : nextCall (advance sys i p plan s).1 = some o) :
    Reaches sys starts (c.update i (some p) s) (c.update i none (sys.halt i o cut (advance sys i p plan s).2)) := by
  have hreach := reaches_advance sys starts (c := c) h
  obtain ⟨next, hnext⟩ := eq_call_of_nextCall ho
  rw [hnext] at hreach
  have hstop : Step sys starts (c.update i (some (.call o next)) (advance sys i p plan s).2) _ :=
    .stopped i o next cut (Config.update_same _ _ _ _)
  rw [Config.update_update] at hstop
  exact hreach.tail hstop

theorem eq_done_of_nextCall {p : Prog Reply ε α} (h : nextCall p = none) : ∃ a, p = .done a := by
  cases p with
  | done a => exact ⟨a, rfl⟩
  | call o next => exact absurd h (by simp [nextCall])

/-- ... or has come to its end. -/
theorem reaches_ended [DecidableEq Pid] (sys : System Reply Pid ε σ κ) (starts : Prog Reply ε α → Prop)
    {c : Config Reply Pid ε α σ} {i : Pid} {p : Prog Reply ε α} {plan : List (Fate κ)} {s : σ}
    (h : Allows sys i p plan s) (ho : nextCall (advance sys i p plan s).1 = none) :
    Reaches sys starts (c.update i (some p) s) (c.update i none (sys.release i (advance sys i p plan s).2)) := by
  have hreach := reaches_advance sys starts (c := c) h
  obtain ⟨a, hdone⟩ := eq_done_of_nextCall ho
  rw [hdone] at hreach
  have hend : Step sys starts (c.update i (some (.done a)) (advance sys i p plan s).2) _ :=
    .ended i a (Config.update_same _ _ _ _)
  rw [Config.update_update] at hend
  exact hreach.tail hend

end

/-! ### Rules -/

namespace Contract

variable {sys : System Reply Pid ε σ κ} {K : Contract sys} {i : Pid} {ε' : Type}

theorem Stable.and {P Q : σ → Prop} (hP : K.Stable i P) (hQ : K.Stable i Q) : K.Stable i fun s => P s ∧ Q s :=
  fun _ _ ht hst h => ⟨hP ht hst h.1, hQ ht hst h.2⟩

theorem Triple.conseq {P P' : σ → Prop} {p : Prog Reply ε α} {Q Q' : α → σ → Prop} (h : K.Triple i P p Q)
    (hP : ∀ s, K.inv s → P' s → P s) (hQ : ∀ a s, Q a s → Q' a s) : K.Triple i P' p Q' :=
  fun s hs hP' => (h hs (hP s hs hP')).mono hQ

theorem Triple.pure {P : σ → Prop} {a : α} {Q : α → σ → Prop} (h : ∀ s, K.inv s → P s → Q a s) :
    K.Triple i P (Pure.pure a) Q := fun s hs hP => h s hs hP

theorem Triple.bind {P : σ → Prop} {p : Prog Reply ε α} {f : α → Prog Reply ε β} {R : α → σ → Prop}
    {Q : β → σ → Prop} (hp : K.Triple i P p R) (hf : ∀ a, K.Triple i (R a) (f a) Q) :
    K.Triple i P (p >>= f) Q := by
  intro s hs hP
  refine Safe.bind (((hp hs hP).inv hs).mono ?_)
  intro a t ht
  exact hf a ht.1 ht.2

/-- `Q` where there is a result, `E` where there is an error. -/
def Ends (Q : α → σ → Prop) (E : σ → Prop) : Except ε' α → σ → Prop
  | .ok a => Q a
  | .error _ => E

variable (K i) in
/-- From `P` the program is safe and ends in `Q` or, with an error, in `E`. -/
def Spec (P : σ → Prop) (p : ExceptT ε' (Prog Reply ε) α) (Q : α → σ → Prop) (E : σ → Prop) : Prop :=
  K.Triple i P p.run (Ends Q E)

theorem Spec.conseq {P P' : σ → Prop} {p : ExceptT ε' (Prog Reply ε) α} {Q Q' : α → σ → Prop} {E E' : σ → Prop}
    (h : K.Spec i P p Q E) (hP : ∀ s, K.inv s → P' s → P s) (hQ : ∀ a s, Q a s → Q' a s)
    (hE : ∀ s, E s → E' s) : K.Spec i P' p Q' E' := by
  refine Triple.conseq h hP ?_
  rintro (e | a) s hs
  · exact hE s hs
  · exact hQ a s hs

theorem Spec.pre {P P' : σ → Prop} {p : ExceptT ε' (Prog Reply ε) α} {Q : α → σ → Prop} {E : σ → Prop}
    (h : K.Spec i P p Q E) (hP : ∀ s, K.inv s → P' s → P s) : K.Spec i P' p Q E :=
  h.conseq hP (fun _ _ h => h) fun _ h => h

theorem Spec.return {P : σ → Prop} {a : α} {Q : α → σ → Prop} {E : σ → Prop} (h : ∀ s, K.inv s → P s → Q a s) :
    K.Spec i P (Pure.pure a : ExceptT ε' (Prog Reply ε) α) Q E := Triple.pure h

theorem Spec.throw {P : σ → Prop} {e : ε'} {Q : α → σ → Prop} {E : σ → Prop} (h : ∀ s, K.inv s → P s → E s) :
    K.Spec i P (MonadExcept.throw e : ExceptT ε' (Prog Reply ε) α) Q E := Triple.pure h

/-- The rule for `?`. -/
theorem Spec.bind {P : σ → Prop} {p : ExceptT ε' (Prog Reply ε) α} {f : α → ExceptT ε' (Prog Reply ε) β}
    {R : α → σ → Prop} {Q : β → σ → Prop} {E : σ → Prop} (hp : K.Spec i P p R E)
    (hf : ∀ a, K.Spec i (R a) (f a) Q E) : K.Spec i P (p >>= f) Q E := by
  refine Triple.bind hp ?_
  rintro (e | a)
  · exact Triple.pure fun _ _ h => h
  · exact hf a

theorem Spec.tryCatch {P : σ → Prop} {p : ExceptT ε' (Prog Reply ε) α} {f : ε' → ExceptT ε' (Prog Reply ε) α}
    {Q : α → σ → Prop} {S E : σ → Prop} (hp : K.Spec i P p Q S) (hf : ∀ e, K.Spec i S (f e) Q E) :
    K.Spec i P (MonadExcept.tryCatch p f) Q E := by
  refine Triple.bind hp ?_
  rintro (e | a)
  · exact hf e
  · exact Triple.pure fun _ _ h => h

theorem Spec.onError {P : σ → Prop} {p : ExceptT ε' (Prog Reply ε) α} {cleanup : ExceptT ε' (Prog Reply ε) Unit}
    {Q : α → σ → Prop} {S E : σ → Prop} (hp : K.Spec i P p Q S) (hc : K.Spec i S cleanup (fun _ => E) E) :
    K.Spec i P (Interleaved.onError cleanup p) Q E :=
  hp.tryCatch fun _ => hc.bind fun _ => Spec.throw fun _ _ h => h

theorem Spec.ignored {P : σ → Prop} {p : ExceptT ε' (Prog Reply ε) α} {R E : σ → Prop}
    (hp : K.Spec i P p (fun _ => R) R) : K.Spec i P (Interleaved.ignored p) (fun _ => R) E :=
  (hp.bind fun _ => Spec.return fun _ _ h => h).tryCatch fun _ => Spec.return fun _ _ h => h

/-- A program without errors of its own. -/
theorem Spec.lift {P : σ → Prop} {p : Prog Reply ε α} {Q : α → σ → Prop} {E : σ → Prop} (h : K.Triple i P p Q) :
    K.Spec i P (liftM p : ExceptT ε' (Prog Reply ε) α) Q E :=
  Triple.bind h fun _ => Triple.pure fun _ _ hs => hs

/-- The rule for one call: what stands before it outlives the steps of the others. -/
theorem Spec.attempt {P : σ → Prop} {o : Op} {Q : Reply o → σ → Prop} {E : σ → Prop} (hP : K.Stable i P)
    (hreq : ∀ s, K.inv s → P s → K.requires i o s)
    (hdone : ∀ s, K.inv s → P s → sys.enabled i o s →
      Ends Q E ((sys.calls i).exec o s).1 ((sys.calls i).exec o s).2)
    (hfail : ∀ s, K.inv s → P s → sys.mayFail o s → ∀ c, E ((sys.calls i).cut o c s)) :
    K.Spec i P (Prog.attempt o id) Q E := by
  have hcall : K.Triple i P (Prog.perform o) (Ends Q E) := by
    intro s _ hs t ht hst
    have hPt := hP ht hst hs
    exact ⟨hreq t ht hPt, fun ho => hdone t ht hPt ho, fun ho c => hfail t ht hPt ho c⟩
  refine hcall.bind ?_
  rintro (e | a)
  · exact Triple.pure fun _ _ hs => hs
  · exact Triple.pure fun _ _ hs => hs

/-- What every single call keeps is kept by a program of such calls. -/
theorem triple_of_only {ok : Op → Prop} {P : σ → Prop} (hP : K.Stable i P)
    (hreq : ∀ o s, ok o → K.inv s → P s → K.requires i o s)
    (hdone : ∀ o s, ok o → K.inv s → P s → P ((sys.calls i).exec o s).2)
    (hfail : ∀ o s c, ok o → K.inv s → P s → P ((sys.calls i).cut o c s)) {p : Prog Reply ε α} (hp : p.Only ok) :
    K.Triple i P p fun _ => P := by
  intro s hs h
  induction p generalizing s with
  | done a => exact h
  | call o next ih =>
    intro t ht hst
    have hPt := hP ht hst h
    have hreq' := hreq o t hp.1 ht hPt
    refine ⟨hreq', fun ho => ?_, fun ho c => ?_⟩
    · exact ih _ (hp.2 _) (K.exec_ok ht hreq' ho).1 (hdone o t hp.1 ht hPt)
    · exact ih _ (hp.2 _) (K.cut_ok c ht hreq' ho).1 (hfail o t c hp.1 ht hPt)

end Contract

end

end Interleaved
