/-
Programs whose calls fail and whose runs are cut short.

A program is a tree of calls to the outside.  Each call is carried out, fails, or
is the one at which the process stops; what a failing or interrupted call has
already done to the state is described by a cut.  `execute` runs a program
against a list of fates and keeps a log, newest event first.  `wp` asks for a
condition on every result and a second one on every state a process may stop in,
when at most a given number of calls fail.

* `execute_of_wp` — runs satisfy what `wp` says;
* `execute_returned`, `failures_execute` — what a plan says about the end of a run;
* `wp_bind`, `wp_lift`, `wp_tryBind` — the rules;
* `wp_mono` — weaker conditions;
* `Prog.Only`, `Prog.execute_inv` — what all calls of a program preserve.
-/
import Mathlib.Tactic

namespace Interrupted

/-- A program of calls with their replies. -/
inductive Prog {Op : Type} (Reply : Op → Type) (ε α : Type) : Type where
  | done (a : α)
  | call (o : Op) (next : Except ε (Reply o) → Prog Reply ε α)

/-- What happened to a call. -/
inductive Event (Op : Type) where
  | done (o : Op)
  | failed (o : Op)
  | stopped (o : Op)
  deriving DecidableEq

/-- What is to happen to a call; a cut says how much a call that is not carried
out has done. -/
inductive Fate (κ : Type) where
  | done
  | failed (cut : κ)
  | stopped (cut : κ)
  deriving DecidableEq

/-- The meaning of the calls. -/
structure Calls {Op : Type} (Reply : Op → Type) (ε σ κ : Type) where
  /-- A call that is carried out; it may still find that it cannot succeed. -/
  exec (o : Op) : σ → Except ε (Reply o) × σ
  /-- The state behind a call that is not carried out. -/
  cut (o : Op) : κ → σ → σ
  /-- The error of a call that is not carried out. -/
  failure : ε

/-- How a run ends. -/
inductive Outcome (Op σ α : Type) where
  | returned (a : α) (log : List (Event Op)) (s : σ)
  | stopped (log : List (Event Op)) (s : σ)

section

variable {Op : Type} {Reply : Op → Type} {ε ε' α β σ κ : Type}

namespace Prog

def bind : Prog Reply ε α → (α → Prog Reply ε β) → Prog Reply ε β
  | done a, f => f a
  | call o next, f => call o fun r => (next r).bind f

instance : Monad (Prog Reply ε) where
  pure := done
  bind := bind

/-- One call. -/
def perform (o : Op) : Prog Reply ε (Except ε (Reply o)) := call o done

/-- One call whose error ends the program. -/
def attempt (o : Op) (f : ε → ε') : ExceptT ε' (Prog Reply ε) (Reply o) :=
  ExceptT.mk (perform o >>= fun r => pure (r.mapError f))

/-- A call that cannot make the program fail. -/
def ignore (o : Op) : Prog Reply ε Unit := perform o >>= fun _ => pure ()

/-! ### Runs -/

def execute (calls : Calls Reply ε σ κ) :
    Prog Reply ε α → List (Fate κ) → List (Event Op) → σ → Outcome Op σ α
  | done a, _, log, s => .returned a log s
  | call o next, [], log, s => (next (calls.exec o s).1).execute calls [] (.done o :: log) (calls.exec o s).2
  | call o next, .done :: plan, log, s =>
    (next (calls.exec o s).1).execute calls plan (.done o :: log) (calls.exec o s).2
  | call o next, .failed c :: plan, log, s =>
    (next (.error calls.failure)).execute calls plan (.failed o :: log) (calls.cut o c s)
  | call o _, .stopped c :: _, log, s => .stopped (.stopped o :: log) (calls.cut o c s)

end Prog

/-- The state behind a run. -/
def Outcome.final : Outcome Op σ α → σ
  | .returned _ _ s => s
  | .stopped _ s => s

/-- The events of a run, newest first. -/
def Outcome.log : Outcome Op σ α → List (Event Op)
  | .returned _ log _ => log
  | .stopped log _ => log

/-- Number of calls that failed. -/
def failures : List (Event Op) → Nat
  | [] => 0
  | .failed _ :: log => failures log + 1
  | _ :: log => failures log

/-- Number of calls that are to fail. -/
def planned : List (Fate κ) → Nat
  | [] => 0
  | .failed _ :: plan => planned plan + 1
  | _ :: plan => planned plan

@[simp] theorem failures_nil : failures ([] : List (Event Op)) = 0 := rfl
@[simp] theorem failures_done (o : Op) (log : List (Event Op)) : failures (.done o :: log) = failures log := rfl
@[simp] theorem failures_failed (o : Op) (log : List (Event Op)) :
    failures (.failed o :: log) = failures log + 1 := rfl
@[simp] theorem failures_stopped (o : Op) (log : List (Event Op)) :
    failures (.stopped o :: log) = failures log := rfl

/-! ### Conditions on all runs -/

variable (calls : Calls Reply ε σ κ) (budget : Nat) (I : List (Event Op) → σ → Prop)

/-- Every run with at most `budget` failing calls returns with `Q` or stops with
`I`. -/
def wp : Prog Reply ε α → (α → List (Event Op) → σ → Prop) → List (Event Op) → σ → Prop
  | .done a, Q, log, s => Q a log s
  | .call o next, Q, log, s =>
    (∀ c, I (.stopped o :: log) (calls.cut o c s)) ∧
    wp (next (calls.exec o s).1) Q (.done o :: log) (calls.exec o s).2 ∧
    (failures log < budget → ∀ c, wp (next (.error calls.failure)) Q (.failed o :: log) (calls.cut o c s))

variable {calls budget I}

/-- What a run that ended satisfies. -/
def Outcome.Satisfies (Q : α → List (Event Op) → σ → Prop) (I : List (Event Op) → σ → Prop) :
    Outcome Op σ α → Prop
  | .returned a log s => Q a log s
  | .stopped log s => I log s

/-- **Runs satisfy what `wp` says.** -/
theorem execute_of_wp (plan : List (Fate κ)) {p : Prog Reply ε α} {Q : α → List (Event Op) → σ → Prop}
    {log : List (Event Op)} {s : σ} (h : wp calls budget I p Q log s) (hplan : failures log + planned plan ≤ budget) :
    (p.execute calls plan log s).Satisfies Q I := by
  induction p generalizing plan log s with
  | done a =>
    rw [Prog.execute]
    exact h
  | call o next ih =>
    obtain ⟨hstop, hdone, hfail⟩ := h
    match plan with
    | [] => exact ih _ _ hdone hplan
    | .done :: plan => exact ih _ _ hdone hplan
    | .failed c :: plan =>
      rw [planned] at hplan
      exact ih _ _ (hfail (by omega) c) (by rw [failures_failed]; omega)
    | .stopped c :: plan => exact hstop c

/-- A process that is not stopped returns. -/
theorem execute_returned (calls : Calls Reply ε σ κ) (p : Prog Reply ε α) {plan : List (Fate κ)} (hplan : ∀ c, .stopped c ∉ plan)
    (log : List (Event Op)) (s : σ) : ∃ a log' t, p.execute calls plan log s = .returned a log' t := by
  induction p generalizing plan log s with
  | done a => exact ⟨a, log, s, rfl⟩
  | call o next ih =>
    match plan with
    | [] => exact ih _ hplan _ _
    | .done :: plan => exact ih _ (fun c h => hplan c (List.mem_cons_of_mem _ h)) _ _
    | .failed c :: plan => exact ih _ (fun c h => hplan c (List.mem_cons_of_mem _ h)) _ _
    | .stopped c :: plan => exact absurd List.mem_cons_self (hplan c)

/-- No more calls fail than are to fail. -/
theorem failures_execute (calls : Calls Reply ε σ κ) (p : Prog Reply ε α) (plan : List (Fate κ)) (log : List (Event Op)) (s : σ) :
    failures (p.execute calls plan log s).log ≤ failures log + planned plan := by
  induction p generalizing plan log s with
  | done a => exact Nat.le_add_right _ _
  | call o next ih =>
    match plan with
    | [] => exact ih _ _ _ _
    | .done :: plan => exact ih _ _ _ _
    | .failed c :: plan =>
      refine (ih _ plan _ _).trans ?_
      rw [failures_failed, planned]
      omega
    | .stopped c :: plan => exact Nat.le_add_right _ _

theorem wp_mono {p : Prog Reply ε α} {Q R : α → List (Event Op) → σ → Prop} {J : List (Event Op) → σ → Prop}
    {log : List (Event Op)} {s : σ} (hQ : ∀ a log s, Q a log s → R a log s) (hI : ∀ log s, I log s → J log s)
    (h : wp calls budget I p Q log s) : wp calls budget J p R log s := by
  induction p generalizing log s with
  | done a => exact hQ a log s h
  | call o next ih =>
    obtain ⟨hstop, hdone, hfail⟩ := h
    exact ⟨fun c => hI _ _ (hstop c), ih _ hdone, fun hlog c => ih _ (hfail hlog c)⟩

/-! ### Rules -/

@[simp] theorem wp_pure (a : α) (Q : α → List (Event Op) → σ → Prop) (log : List (Event Op)) (s : σ) :
    wp calls budget I (pure a) Q log s = Q a log s := rfl

@[simp] theorem wp_bind (p : Prog Reply ε α) (f : α → Prog Reply ε β) (Q : β → List (Event Op) → σ → Prop)
    (log : List (Event Op)) (s : σ) :
    wp calls budget I (p >>= f) Q log s = wp calls budget I p (fun a => wp calls budget I (f a) Q) log s := by
  show wp calls budget I (p.bind f) Q log s = _
  induction p generalizing log s with
  | done a => rfl
  | call o next ih => simp only [Prog.bind, wp, ih]

@[simp] theorem wp_return (a : α) (Q : Except ε' α → List (Event Op) → σ → Prop) (log : List (Event Op)) (s : σ) :
    wp calls budget I (pure a : ExceptT ε' (Prog Reply ε) α).run Q log s = Q (.ok a) log s := rfl

@[simp] theorem wp_throw (e : ε') (Q : Except ε' α → List (Event Op) → σ → Prop) (log : List (Event Op)) (s : σ) :
    wp calls budget I (throw e : ExceptT ε' (Prog Reply ε) α).run Q log s = Q (.error e) log s := rfl

/-- A program without errors of its own. -/
@[simp] theorem wp_lift (p : Prog Reply ε α) (Q : Except ε' α → List (Event Op) → σ → Prop)
    (log : List (Event Op)) (s : σ) :
    wp calls budget I (liftM p : ExceptT ε' (Prog Reply ε) α).run Q log s =
      wp calls budget I p (fun a => Q (.ok a)) log s := by
  show wp calls budget I (p >>= fun a => pure (.ok a)) Q log s = _
  rw [wp_bind]
  rfl

/-- The rule for `map_err`. -/
@[simp] theorem wp_adapt {ε'' : Type} (f : ε' → ε'') (p : ExceptT ε' (Prog Reply ε) α)
    (Q : Except ε'' α → List (Event Op) → σ → Prop) (log : List (Event Op)) (s : σ) :
    wp calls budget I (ExceptT.adapt f p).run Q log s = wp calls budget I p.run (fun r => Q (r.mapError f)) log s := by
  show wp calls budget I (p.run >>= fun r => pure (r.mapError f)) Q log s = _
  rw [wp_bind]
  rfl

/-- The rule for `?`. -/
theorem wp_tryBind (p : ExceptT ε' (Prog Reply ε) α) (f : α → ExceptT ε' (Prog Reply ε) β)
    (Q : Except ε' β → List (Event Op) → σ → Prop) (log : List (Event Op)) (s : σ) :
    wp calls budget I (p >>= f).run Q log s =
      wp calls budget I p.run (fun r log s =>
        match r with
        | .ok a => wp calls budget I (f a).run Q log s
        | .error e => Q (.error e) log s) log s := by
  show wp calls budget I (p.run >>= ExceptT.bindCont f) Q log s = _
  rw [wp_bind]
  congr 1
  funext r log s
  cases r with
  | ok a => rfl
  | error e => rfl

/-! ### Programs with some calls only -/

namespace Prog

/-- All calls a program may come to. -/
def Only (ok : Op → Prop) : Prog Reply ε α → Prop
  | done _ => True
  | call o next => ok o ∧ ∀ r, (next r).Only ok

variable {ok : Op → Prop}

theorem Only.mono {ok' : Op → Prop} (hok : ∀ o, ok o → ok' o) {p : Prog Reply ε α} (hp : p.Only ok) : p.Only ok' := by
  induction p with
  | done a => trivial
  | call o next ih => exact ⟨hok o hp.1, fun r => ih r (hp.2 r)⟩

theorem only_bind {p : Prog Reply ε α} {f : α → Prog Reply ε β} (hp : p.Only ok) (hf : ∀ a, (f a).Only ok) :
    (p >>= f).Only ok := by
  show (p.bind f).Only ok
  induction p with
  | done a => exact hf a
  | call o next ih => exact ⟨hp.1, fun r => ih r (hp.2 r)⟩

theorem only_tryBind {p : ExceptT ε' (Prog Reply ε) α} {f : α → ExceptT ε' (Prog Reply ε) β} (hp : Only ok p.run)
    (hf : ∀ a, Only ok (f a).run) : Only ok (p >>= f).run :=
  only_bind hp fun r => match r with
    | .ok a => hf a
    | .error _ => trivial

theorem only_lift {p : Prog Reply ε α} (hp : p.Only ok) : Only ok (liftM p : ExceptT ε' (Prog Reply ε) α).run :=
  only_bind hp fun _ => trivial

theorem only_adapt {ε'' : Type} {p : ExceptT ε' (Prog Reply ε) α} (f : ε' → ε'') (hp : Only ok p.run) :
    Only ok (ExceptT.adapt f p).run :=
  only_bind hp fun _ => trivial

/-- **Invariant rule.**  What every call of a program preserves is preserved by its
runs. -/
theorem execute_inv {I : σ → Prop} (hexec : ∀ o s, ok o → I s → I (calls.exec o s).2)
    (hcut : ∀ o c s, ok o → I s → I (calls.cut o c s)) {p : Prog Reply ε α} (hp : p.Only ok) {plan : List (Fate κ)}
    {log : List (Event Op)} {s : σ} (hs : I s) : I (p.execute calls plan log s).final := by
  induction p generalizing plan log s with
  | done a => exact hs
  | call o next ih =>
    match plan with
    | [] => exact ih _ (hp.2 _) (hexec o s hp.1 hs)
    | .done :: plan => exact ih _ (hp.2 _) (hexec o s hp.1 hs)
    | .failed c :: plan => exact ih _ (hp.2 _) (hcut o c s hp.1 hs)
    | .stopped c :: plan => exact hcut o c s hp.1 hs

end Prog

end

end Interrupted
