/-
Dependency hooks run only when they are exactly approved.

A run keeps the packages of its lockfile, records every output it used, and
logs what it did (`Kept`).  Each step is a triple over that invariant, for
successful and for failed runs (`processHook_frame`, `finishPackage_frame`,
`processPackage_between`).

* `dependencyOrder_ordered`, `visit_ordered` — dependencies come first;
* `apply_onlyAuthorized` — what a run executes and substitutes is authorized.
-/
import Tapid.DependencyScripts
import Tapid.LockfileSourceGraph
import Tapid.Loop

namespace Tapid

open Text Fallible Effect

namespace DependencyScripts

/-! ### Dependencies come first -/

/-- A package lists another package of the lockfile as a dependency. -/
def RegistryDependency (lock : Lockfile) (parent child : String) : Prop :=
  ∃ p, lock.packages.get? parent = some p ∧ child ∈ p.dependencies.values ∧
    lock.packages.contains child = true

/-- Every key stands after all its dependencies. -/
def DependenciesFirst (lock : Lockfile) (order : List String) : Prop :=
  ∀ before key after, order = before ++ key :: after →
    ∀ child, RegistryDependency lock key child → child ∈ before

/-- What a visit keeps. -/
structure Visited.Ordered (lock : Lockfile) (v : Visited) : Prop where
  done : ∀ key, key ∈ v.done ↔ key ∈ v.order
  nodup : v.order.Nodup
  packages : ∀ key ∈ v.order, lock.packages.contains key = true
  dependenciesFirst : DependenciesFirst lock v.order

theorem Visited.ordered_empty (lock : Lockfile) : Visited.Ordered lock {} where
  done key := by
    show key ∈ ([] : List String) ↔ key ∈ ([] : List String)
    exact Iff.rfl
  nodup := List.nodup_nil
  packages key h := absurd h List.not_mem_nil
  dependenciesFirst before key after h := by simp at h

/-- A package whose dependencies are done may be finished. -/
theorem Visited.Ordered.finish {lock : Lockfile} {v : Visited} (hv : v.Ordered lock) {key : String}
    (hkey : key ∉ v.done) (hpackage : lock.packages.contains key = true)
    (hchildren : ∀ child, RegistryDependency lock key child → child ∈ v.done) :
    Visited.Ordered lock { done := v.done.insert key, order := v.order ++ [key] } where
  done k := by
    rw [OrdSet.mem_insert, List.mem_append, List.mem_singleton, hv.done, or_comm]
  nodup := by
    rw [List.nodup_append]
    refine ⟨hv.nodup, List.nodup_singleton key, fun a ha b hb => ?_⟩
    obtain rfl := List.mem_singleton.mp hb
    rintro rfl
    exact hkey ((hv.done a).mpr ha)
  packages k hk := by
    rcases List.mem_append.mp hk with hk | hk
    · exact hv.packages k hk
    · obtain rfl := List.mem_singleton.mp hk
      exact hpackage
  dependenciesFirst before k after h child hchild := by
    rcases List.append_eq_append_iff.mp h with ⟨rest, hbefore, hrest⟩ | ⟨rest, horder, hrest⟩
    · -- the key is the last one
      cases rest with
      | nil =>
        obtain ⟨rfl, _⟩ := List.cons.inj hrest
        rw [hbefore, List.append_nil]
        exact (hv.done child).mp (hchildren child hchild)
      | cons x rest =>
        have hlen := congrArg List.length hrest
        simp at hlen
    · cases rest with
      | nil =>
        obtain ⟨rfl, _⟩ := List.cons.inj hrest
        rw [List.append_nil] at horder
        rw [← horder]
        exact (hv.done child).mp (hchildren child hchild)
      | cons x rest =>
        obtain ⟨rfl, _⟩ := List.cons.inj hrest
        exact hv.dependenciesFirst before k rest horder child hchild

/-- **A visit finishes its key after all its dependencies.**  What is active
is not finished meanwhile. -/
theorem visit_ordered {lock : Lockfile} {fuel : Nat} {active : List String} {v w : Visited} {key : String}
    (hv : v.Ordered lock) (h : visit lock fuel active v key = .ok w) :
    w.Ordered lock ∧ key ∈ w.done ∧ (∀ k ∈ v.done, k ∈ w.done) ∧
      ∀ k ∈ active, k ∉ v.done → k ∉ w.done := by
  induction fuel generalizing active v w key with
  | zero =>
    rw [visit] at h
    split_ifs at h with hdone
    obtain rfl := Except.ok.inj h
    exact ⟨hv, hdone, fun _ hk => hk, fun _ _ hk => hk⟩
  | succ fuel ih =>
    rw [visit] at h
    split_ifs at h with hdone hactive
    · obtain rfl := Except.ok.inj h
      exact ⟨hv, hdone, fun _ hk => hk, fun _ _ hk => hk⟩
    · obtain ⟨package, hpackage, h⟩ := bind_eq_ok.mp h
      obtain ⟨u, hu, h⟩ := bind_eq_ok.mp h
      obtain rfl := pure_eq_ok.mp h
      rw [orError_eq_ok] at hpackage
      -- the loop over the children: they are done one after another
      obtain ⟨hordered, hmono, hkept, hchildren⟩ := Loop.foldlM_inv_done
        (I := fun visited u => u.Ordered lock ∧ (∀ k ∈ v.done, k ∈ u.done) ∧
          (∀ k ∈ key :: active, k ∉ v.done → k ∉ u.done) ∧ ∀ k ∈ visited, k ∈ u.done)
        (fun visited child u u' hI hstep => by
          obtain ⟨hordered, hmono, hkept, hchildren⟩ := hI
          obtain ⟨hordered', hchild, hmono', hkept'⟩ := ih hordered hstep
          refine ⟨hordered', fun k hk => hmono' k (hmono k hk),
            fun k hk hnot => hkept' k hk (hkept k hk hnot), fun k hk => ?_⟩
          rcases List.mem_append.mp hk with hk | hk
          · exact hmono' k (hchildren k hk)
          · obtain rfl := List.mem_singleton.mp hk
            exact hchild)
        ⟨hv, fun _ hk => hk, fun _ _ hk => hk, fun _ hk => absurd hk List.not_mem_nil⟩ hu
      have hcontains : lock.packages.contains key = true := by
        rw [OrdMap.contains, hpackage]
        rfl
      have hdeps : ∀ child, RegistryDependency lock key child → child ∈ u.done := by
        rintro child ⟨p, hp, hmem, hchild⟩
        obtain rfl := Option.some_inj.mp (hpackage.symm.trans hp)
        exact hchildren child (List.mem_filter.mpr ⟨hmem, hchild⟩)
      have hkey : key ∉ u.done := hkept key List.mem_cons_self hdone
      refine ⟨hordered.finish hkey hcontains hdeps, OrdSet.mem_insert.mpr (Or.inl rfl),
        fun k hk => OrdSet.mem_insert.mpr (Or.inr (hmono k hk)), fun k hk hnot hmem => ?_⟩
      rcases OrdSet.mem_insert.mp hmem with rfl | hmem
      · exact hactive (List.elem_iff.mpr hk)
      · exact hkept k (List.mem_cons_of_mem _ hk) hnot hmem

/-- The processing order has every package once, after its dependencies. -/
theorem dependencyOrder_ordered {lock : Lockfile} {order : List String}
    (h : dependencyOrder lock = .ok order) :
    order.Nodup ∧ (∀ key, key ∈ order ↔ lock.packages.contains key = true) ∧
      DependenciesFirst lock order := by
  obtain ⟨v, hv, h⟩ := bind_eq_ok.mp h
  obtain rfl := pure_eq_ok.mp h
  obtain ⟨hordered, hall⟩ := Loop.foldlM_inv_done
    (I := fun visited u => u.Ordered lock ∧ ∀ k ∈ visited, k ∈ u.done)
    (fun visited key u u' hI hstep => by
      obtain ⟨hordered', hkey, hmono, _⟩ := visit_ordered hI.1 hstep
      refine ⟨hordered', fun k hk => ?_⟩
      rcases List.mem_append.mp hk with hk | hk
      · exact hmono k (hI.2 k hk)
      · obtain rfl := List.mem_singleton.mp hk
        exact hkey)
    ⟨Visited.ordered_empty lock, fun _ hk => absurd hk List.not_mem_nil⟩ hv
  refine ⟨hordered.nodup, fun key => ⟨hordered.packages key, fun hkey => ?_⟩, hordered.dependenciesFirst⟩
  obtain ⟨p, hp⟩ := Option.isSome_iff_exists.mp hkey
  exact (hordered.done key).mp (hall key (OrdMap.mem_keys.mpr ⟨p, hp⟩))

/-- With dependencies first, transitive dependencies are first too. -/
theorem DependenciesFirst.transGen {lock : Lockfile} {order : List String} (h : DependenciesFirst lock order)
    {before after : List String} {key child : String} (horder : order = before ++ key :: after)
    (hchild : Relation.TransGen (RegistryDependency lock) key child) : child ∈ before := by
  induction hchild with
  | single hchild => exact h before key after horder _ hchild
  | tail _ hchild ih =>
    obtain ⟨first, rest, hbefore⟩ := List.append_of_mem ih
    have hmem := h first _ (rest ++ key :: after) (by rw [horder, hbefore, List.append_assoc]; rfl) _ hchild
    rw [hbefore]
    exact List.mem_append_left _ hmem

/-- **The order of a run** has every package once; when there are approvals,
dependencies come first. -/
theorem Env.order_ordered {W : Type} (env : Env W) {lock : Lockfile} {order : List String}
    (h : env.order lock = .ok order) :
    order.Nodup ∧ (∀ key, key ∈ order ↔ lock.packages.contains key = true) ∧
      (env.policy.approvals ≠ [] → env.overrides = {} → DependenciesFirst lock order) := by
  rw [Env.order] at h
  split_ifs at h with hempty
  · obtain rfl := Except.ok.inj h
    refine ⟨OrdMap.nodup_keys _, fun key => ?_, fun hne _ => ?_⟩
    · rw [OrdMap.mem_keys, OrdMap.contains, Option.isSome_iff_exists]
    · rw [Bool.and_eq_true, List.isEmpty_iff] at hempty
      exact absurd hempty.1 hne
  · obtain ⟨hnodup, hmem, hfirst⟩ := dependencyOrder_ordered h
    exact ⟨hnodup, hmem, fun _ _ => hfirst⟩

/-! ### What a run may do -/

variable {W : Type}

/-- An entry with declared integrity and an exact approval for it. -/
def Authorized (env : Env W) (lock : Lockfile) (key hook script : String)
    (approval : DependencyLifecycleApproval) : Prop :=
  ∃ package, lock.packages.get? key = some package ∧ package.registryIntegrityDeclared = some true ∧
    env.policy.Approves env.sha256Hex package hook script approval

/-- An output of the store that is authenticated under the recipe of the hook
it is used for. -/
structure Authenticated (env : Env W) (lock : Lockfile) (r : Reuse W) : Prop where
  authorized : Authorized env lock r.key r.hook r.script r.approval
  toolchain : ∃ system, env.toolchain.system = .ok system ∧ env.toolIdentity r.approval system = .ok r.toolchain
  hook : r.output.hook = r.hook
  recipe : ∃ sourceGraph, lock.sourceGraph.toJson env.url env.codec = .ok sourceGraph ∧
    r.output.key = env.policy.derivedKey env.sha256Hex r.approval r.toolchain
      (env.graphText sourceGraph r.completed r.outputs)
  snapshot : ∃ recipe digest, Env.parseDigest r.output.key = .ok recipe ∧
    Env.parseDigest r.output.treeDigest = .ok digest ∧
    env.verifiedLifecycleSnapshot r.world recipe digest r.output.attestation = .ok r.snapshot ∧
    ((env.online = false ∧ r.path = r.snapshot) ∨
      ∃ w w', env.host.stageVerifiedTree w digest r.snapshot = .ok (r.path, w'))
  recorded : ∀ k outputs, r.completed.get? k = some outputs →
    (r.lock.packages.get? k).map LockedPackage.derivedHooks = some outputs
  dependencies : ∀ child, Relation.TransGen (RegistryDependency lock) r.key child →
    r.completed.contains child = true

/-- An output was made by a hook of this run or taken from the store. -/
def Provenance (log : List (Event W)) (key : String) (output : DerivedHookOutput) (path : Path) : Prop :=
  (∃ call, .executed key call output path ∈ log) ∨
    ∃ r, .reused r ∈ log ∧ r.key = key ∧ r.output = output ∧ r.path = path

/-- The tree of an output was staged from the build directory of a call. -/
def StagedFrom (env : Env W) (call : HookCall) (output : DerivedHookOutput) (path : Path) : Prop :=
  ∃ w w' tree, Env.parseDigest output.treeDigest = .ok tree ∧
    env.host.stageVerifiedTree w tree (Env.buildDirectory call.stage) = .ok (path, w')

/-- An event that a run may log. -/
def Good (env : Env W) (lock : Lockfile) (log : List (Event W)) : Event W → Prop
  | .ran key hook call => env.online = true ∧ call.implicitNodeGyp = false ∧
    Authorized env lock key hook call.script call.approval
  | .executed key call output path => .ran key output.hook call ∈ log ∧ StagedFrom env call output path
  | .reused r => Authenticated env lock r
  | .substituted key digest path =>
    ∃ output, verifiedTreeReference output.treeDigest = .ok digest ∧ Provenance log key output path

/-- A log of a run that ran and reused only what it may. -/
def GoodLog (env : Env W) (lock : Lockfile) (log : List (Event W)) : Prop :=
  ∀ e ∈ log, Good env lock log e

theorem Provenance.mono {log log' : List (Event W)} (hsub : ∀ e ∈ log, e ∈ log') {key : String}
    {output : DerivedHookOutput} {path : Path} (h : Provenance log key output path) :
    Provenance log' key output path := by
  rcases h with ⟨call, hmem⟩ | ⟨r, hmem, hr⟩
  · exact Or.inl ⟨call, hsub _ hmem⟩
  · exact Or.inr ⟨r, hsub _ hmem, hr⟩

theorem Good.mono {env : Env W} {lock : Lockfile} {log log' : List (Event W)} (hsub : ∀ e ∈ log, e ∈ log')
    {e : Event W} (h : Good env lock log e) : Good env lock log' e := by
  cases e with
  | ran key hook call => exact h
  | executed key call output path => exact ⟨hsub _ h.1, h.2⟩
  | reused r => exact h
  | substituted key digest path =>
    obtain ⟨output, hdigest, hprov⟩ := h
    exact ⟨output, hdigest, hprov.mono hsub⟩

theorem GoodLog.append {env : Env W} {lock : Lockfile} {log : List (Event W)} (hlog : GoodLog env lock log)
    {e : Event W} (he : Good env lock log e) : GoodLog env lock (log ++ [e]) := by
  intro x hx
  have hsub : ∀ y ∈ log, y ∈ log ++ [e] := fun y hy => List.mem_append_left _ hy
  rcases List.mem_append.mp hx with hx | hx
  · exact (hlog x hx).mono hsub
  · obtain rfl := List.mem_singleton.mp hx
    exact he.mono hsub

/-- Lockfiles that differ in their hook outputs only. -/
def SameEntries (lock lock' : Lockfile) : Prop :=
  ∀ k, (lock'.packages.get? k).map LockedPackage.withoutHooks =
    (lock.packages.get? k).map LockedPackage.withoutHooks

/-- Every tree is one the run was given or a logged substitution. -/
def TreesFrom (start : RunState W) (trees : OrdMap String Path) (log : List (Event W)) : Prop :=
  ∀ key path, trees.get? key = some path →
    start.trees.get? key = some path ∨ ∃ digest, .substituted key digest path ∈ log

/-- Every instance is one the run was given or has a logged substitution. -/
def InstancesFrom (start : RunState W) (input : LayoutInput) (log : List (Event W)) : Prop :=
  ∀ (i : Nat) (inst : InstalledInstance), input.instances[i]? = some inst →
    start.input.instances[i]? = some inst ∨ ∃ key, .substituted key inst.treeDigest inst.treeRoot ∈ log

/-- What every step of a run keeps. -/
structure Kept (env : Env W) (start : RunState W) (lock : Lockfile)
    (completed : OrdMap String (List DerivedHookOutput)) (input : LayoutInput) (trees : OrdMap String Path)
    (system : Option String) (log : List (Event W)) : Prop where
  entries : SameEntries start.lock lock
  goodLog : GoodLog env start.lock log
  recorded : ∀ k outputs, completed.get? k = some outputs →
    (lock.packages.get? k).map LockedPackage.derivedHooks = some outputs
  knownSystem : ∀ identity, system = some identity → env.toolchain.system = .ok identity
  treesFrom : TreesFrom start trees log
  instancesFrom : InstancesFrom start input log

/-- `Kept` of a state. -/
def Keeps (env : Env W) (start s : RunState W) : Prop :=
  Kept env start s.lock s.completed s.input s.trees s.systemIdentity s.log

/-- What a failed step leaves. -/
def Safe (env : Env W) (start s : RunState W) : Prop :=
  GoodLog env start.lock s.log ∧ TreesFrom start s.trees s.log ∧ InstancesFrom start s.input s.log

theorem Keeps.safe {env : Env W} {start s : RunState W} (h : Keeps env start s) : Safe env start s :=
  ⟨h.goodLog, h.treesFrom, h.instancesFrom⟩

theorem TreesFrom.mono {start : RunState W} {trees : OrdMap String Path} {log log' : List (Event W)}
    (hsub : ∀ e ∈ log, e ∈ log') (h : TreesFrom start trees log) : TreesFrom start trees log' :=
  fun key path hget => (h key path hget).imp_right fun ⟨digest, hmem⟩ => ⟨digest, hsub _ hmem⟩

theorem InstancesFrom.mono {start : RunState W} {input : LayoutInput} {log log' : List (Event W)}
    (hsub : ∀ e ∈ log, e ∈ log') (h : InstancesFrom start input log) : InstancesFrom start input log' :=
  fun i inst hget => (h i inst hget).imp_right fun ⟨key, hmem⟩ => ⟨key, hsub _ hmem⟩

/-- Logging an event that may be logged. -/
theorem Keeps.record {env : Env W} {start s : RunState W} (h : Keeps env start s) {e : Event W}
    (he : Good env start.lock s.log e) : Keeps env start { s with log := s.log ++ [e] } where
  entries := h.entries
  goodLog := h.goodLog.append he
  recorded := h.recorded
  knownSystem := h.knownSystem
  treesFrom := h.treesFrom.mono fun _ hx => List.mem_append_left _ hx
  instancesFrom := h.instancesFrom.mono fun _ hx => List.mem_append_left _ hx

/-! ### Steps within one package -/

/-- Between two steps of a package: the lockfile and the recorded outputs are
those the package was started with. -/
def Frame (env : Env W) (start : RunState W) (l : Lockfile)
    (c : OrdMap String (List DerivedHookOutput)) (s : RunState W) : Prop :=
  Keeps env start s ∧ s.lock = l ∧ s.completed = c

/-- The tree of a package is that of its last output, if it has one. -/
def Progress (key : String) (p : PackageState) (log : List (Event W)) : Prop :=
  p.bypassed = false ∧
    ∀ output, p.outputs.getLast? = some output → Provenance log key output p.current

/-- Steps that only change the world. -/
theorem onWorld_triple {α : Type} {f : W → Except ScriptError (α × W)} {P E : RunState W → Prop}
    (hworld : ∀ s w, P s → P { s with world := w }) (hE : ∀ s, P s → E s) :
    Triple P (onWorld f) (fun a s => P s ∧ ∃ w w', f w = .ok (a, w')) E := by
  refine Triple.update hE fun a s t h hs => ?_
  rw [map_eq_ok] at h
  obtain ⟨⟨b, w'⟩, hb, heq⟩ := h
  obtain ⟨rfl, rfl⟩ := Prod.mk.inj heq
  exact ⟨hworld s w' hs, s.world, w', hb⟩

theorem observe_triple {α : Type} {f : W → Except ScriptError α} {P E : RunState W → Prop}
    (hE : ∀ s, P s → E s) : Triple P (observe f) (fun _ => P) E :=
  Triple.get fun _ => Triple.lift (fun s hs => hE s hs.1) fun _ _ _ hs => hs.1

section Package

variable {env : Env W} {start : RunState W} {l : Lockfile} {c : OrdMap String (List DerivedHookOutput)}
  {A : List (Event W) → Prop}

theorem Frame.safe {s : RunState W} (h : Frame env start l c s) : Safe env start s := h.1.safe

theorem Frame.record {s : RunState W} (h : Frame env start l c s) {e : Event W}
    (he : Good env start.lock s.log e) : Frame env start l c { s with log := s.log ++ [e] } :=
  ⟨h.1.record he, h.2.1, h.2.2⟩

/-- Steps on the world keep the frame and what is known of the log. -/
theorem onWorld_frame {α : Type} {f : W → Except ScriptError (α × W)} :
    Triple (fun s => Frame env start l c s ∧ A s.log) (onWorld f)
      (fun a s => (Frame env start l c s ∧ A s.log) ∧ ∃ w w', f w = .ok (a, w')) (Safe env start) :=
  onWorld_triple (fun _ _ h => h) fun _ h => h.1.safe

theorem observe_frame {α : Type} {f : W → Except ScriptError α} :
    Triple (fun s => Frame env start l c s ∧ A s.log) (observe f)
      (fun _ s => Frame env start l c s ∧ A s.log) (Safe env start) :=
  observe_triple fun _ h => h.1.safe

theorem openStage_frame (p : PackageState) :
    Triple (fun s => Frame env start l c s ∧ A s.log) (env.openStage p)
      (fun _ s => Frame env start l c s ∧ A s.log) (Safe env start) := by
  rw [Env.openStage]
  cases p.stage with
  | some stage => exact Triple.pure fun _ h => h
  | none => exact onWorld_frame.conseq (fun _ h => h) fun _ _ h => h.1

theorem systemIdentity_frame :
    Triple (fun s => Frame env start l c s ∧ A s.log) env.systemIdentity
      (fun identity s => (Frame env start l c s ∧ A s.log) ∧ env.toolchain.system = .ok identity)
      (Safe env start) := by
  refine Triple.get fun a => ?_
  cases ha : a.systemIdentity with
  | some identity =>
    refine Triple.pure fun s hs => ⟨hs.1, ?_⟩
    obtain ⟨⟨hs, _⟩, rfl⟩ := hs
    exact hs.1.knownSystem identity ha
  | none =>
    refine Triple.bind (Q := fun identity s => (Frame env start l c s ∧ A s.log) ∧
      env.toolchain.system = .ok identity)
      (Triple.lift (fun s hs => hs.1.1.safe) fun identity s hx hs => ⟨hs.1, hx⟩) fun identity => ?_
    refine Triple.bind (Q := fun _ s => (Frame env start l c s ∧ A s.log) ∧
      env.toolchain.system = .ok identity)
      (Triple.modify fun s hs => ?_) fun _ => Triple.pure fun s hs => hs
    obtain ⟨⟨⟨hkept, hlock, hcompleted⟩, hA⟩, hsystem⟩ := hs
    exact ⟨⟨⟨{ hkept with knownSystem := fun x hx => Option.some_inj.mp hx ▸ hsystem }, hlock, hcompleted⟩,
      hA⟩, hsystem⟩

/-- **A hook that is run is online and authorized.** -/
theorem runHook_frame {key hook script : String} {stage : Path} {approval : DependencyLifecycleApproval}
    (honline : env.online = true) (hauth : Authorized env start.lock key hook script approval) :
    Triple (fun s => Frame env start l c s ∧ True) (env.runHook key hook stage approval script false false)
      (fun call s => (Frame env start l c s ∧ .ran key hook call ∈ s.log) ∧ call.stage = stage)
      (Safe env start) := by
  refine Triple.get fun s₀ => ?_
  have hran : Good env start.lock [] (.ran key hook (Env.hookCall s₀ stage approval script false false)) :=
    ⟨honline, rfl, hauth⟩
  refine Triple.bind (Q := fun _ s => Frame env start l c s ∧
    .ran key hook (Env.hookCall s₀ stage approval script false false) ∈ s.log)
    (Triple.modify fun s hs => ⟨hs.1.1.record (hran.mono fun _ h => absurd h List.not_mem_nil),
      List.mem_append_right _ List.mem_cons_self⟩) fun _ => ?_
  refine ((onWorld_frame
    (A := fun log => .ran key hook (Env.hookCall s₀ stage approval script false false) ∈ log)).conseq
    (fun _ h => h) fun _ _ h => h.1).bind fun _ => ?_
  exact Triple.pure fun s hs => ⟨hs, rfl⟩

theorem newOutput_eq_ok {hook recipe digest text : String} {output : DerivedHookOutput}
    (h : Env.newOutput hook recipe digest text = .ok output) :
    output = ⟨text, hook, recipe, digest⟩ ∧ validateDerivedHooks [output] = .ok () := by
  simp only [Env.newOutput, bind_eq_ok, mapError_eq_ok, pure_eq_ok] at h
  obtain ⟨_, hvalid, rfl⟩ := h
  exact ⟨rfl, hvalid⟩

/-- An executed hook leaves its output. -/
theorem executeHook_frame {key hook script recipe : String} {package : LockedPackage}
    {approval : DependencyLifecycleApproval} {p : PackageState} (hp : p.bypassed = false)
    (hauth : Authorized env start.lock key hook script approval) :
    Triple (fun s => Frame env start l c s ∧ True)
      (env.executeHook key package hook script recipe approval p)
      (fun p' s => Frame env start l c s ∧ Progress key p' s.log) (Safe env start) := by
  by_cases honline : env.online = true
  · refine Triple.bind (Q := fun _ s => Frame env start l c s ∧ True)
      (Triple.lift (fun s hs => hs.1.safe) fun _ s _ hs => hs) fun _ => ?_
    refine (openStage_frame (A := fun _ => True) p).bind fun stage => ?_
    refine ((onWorld_frame (A := fun _ => True)).conseq (fun _ h => h) fun _ _ h => h.1).bind fun _ => ?_
    refine (runHook_frame honline hauth).bind fun call => ?_
    intro s₁ hs₁
    obtain ⟨hs₁, rfl⟩ := hs₁
    refine Triple.bind (observe_frame (A := fun log => .ran key hook call ∈ log)) (fun _ => ?_) s₁ hs₁
    refine (observe_frame (A := fun log => .ran key hook call ∈ log)).bind fun digest => ?_
    refine Triple.bind (Q := fun tree s => (Frame env start l c s ∧ .ran key hook call ∈ s.log) ∧
      Env.parseDigest digest = .ok tree)
      (Triple.lift (fun s hs => hs.1.safe) fun tree s hx hs => ⟨hs, hx⟩) fun tree => ?_
    intro s₂ hs₂
    obtain ⟨hs₂, htree⟩ := hs₂
    refine Triple.bind (onWorld_frame (A := fun log => .ran key hook call ∈ log)) (fun staged => ?_) s₂ hs₂
    refine Triple.bind (Q := fun _ s => (Frame env start l c s ∧ .ran key hook call ∈ s.log) ∧
      ∃ w w', env.host.stageVerifiedTree w tree (Env.buildDirectory call.stage) = .ok (staged, w'))
      (Triple.lift (fun s hs => hs.1.1.safe) fun _ s _ hs => hs) fun recipeDigest => ?_
    intro s₃ hs₃
    obtain ⟨hs₃, w, w', hstaged⟩ := hs₃
    refine Triple.bind ((onWorld_frame (A := fun log => .ran key hook call ∈ log)).conseq (fun _ h => h)
      fun _ _ h => h.1) (fun text => ?_) s₃ hs₃
    refine Triple.bind (Q := fun output s => (Frame env start l c s ∧ .ran key hook call ∈ s.log) ∧
      output = ⟨text, hook, recipe, digest⟩) (Triple.lift (fun s hs => hs.1.safe) fun output s hx hs =>
        ⟨hs, (newOutput_eq_ok hx).1⟩) fun output => ?_
    refine Triple.bind (Q := fun _ s => Frame env start l c s ∧ .executed key call output staged ∈ s.log)
      (Triple.modify fun s hs => ?_) fun _ => Triple.pure fun s hs => ?_
    · obtain ⟨⟨hframe, hran⟩, rfl⟩ := hs
      exact ⟨hframe.record ⟨hran, w, w', tree, htree, hstaged⟩, List.mem_append_right _ List.mem_cons_self⟩
    · refine ⟨hs.1, hp, fun o ho => Or.inl ⟨call, ?_⟩⟩
      rw [List.getLast?_concat] at ho
      rw [← Option.some_inj.mp ho]
      exact hs.2
  · refine Triple.bind (Q := fun _ _ => False) (Triple.lift (fun s hs => hs.1.safe) ?_) fun _ s hs => hs.elim
    intro _ s hx _
    exact rejectIf_eq_ok.mp hx (Bool.not_eq_true _ ▸ honline)

/-- What is known of an output before it is staged again. -/
structure Reusable (env : Env W) (lock : Lockfile) (r : Reuse W) : Prop where
  authorized : Authorized env lock r.key r.hook r.script r.approval
  toolchain : ∃ system, env.toolchain.system = .ok system ∧ env.toolIdentity r.approval system = .ok r.toolchain
  hook : r.output.hook = r.hook
  recipe : ∃ sourceGraph, lock.sourceGraph.toJson env.url env.codec = .ok sourceGraph ∧
    r.output.key = env.policy.derivedKey env.sha256Hex r.approval r.toolchain
      (env.graphText sourceGraph r.completed r.outputs)
  snapshot : ∃ recipe digest, Env.parseDigest r.output.key = .ok recipe ∧
    Env.parseDigest r.output.treeDigest = .ok digest ∧
    env.verifiedLifecycleSnapshot r.world recipe digest r.output.attestation = .ok r.snapshot
  recorded : ∀ k outputs, r.completed.get? k = some outputs →
    (r.lock.packages.get? k).map LockedPackage.derivedHooks = some outputs
  dependencies : ∀ child, Relation.TransGen (RegistryDependency lock) r.key child →
    r.completed.contains child = true

/-- Staging tells where the tree of a reused output is. -/
theorem Reusable.authenticated {lock : Lockfile} {r : Reuse W} (h : Reusable env lock r) {path : Path}
    (hpath : ∀ digest, Env.parseDigest r.output.treeDigest = .ok digest →
      (env.online = false ∧ path = r.snapshot) ∨
        ∃ w w', env.host.stageVerifiedTree w digest r.snapshot = .ok (path, w')) :
    Authenticated env lock { r with path } where
  authorized := h.authorized
  toolchain := h.toolchain
  hook := h.hook
  recipe := h.recipe
  snapshot := by
    obtain ⟨recipe, digest, hrecipe, hdigest, hsnapshot⟩ := h.snapshot
    exact ⟨recipe, digest, hrecipe, hdigest, hsnapshot, hpath digest hdigest⟩
  recorded := h.recorded
  dependencies := h.dependencies

theorem stageReused_frame (r : Reuse W) :
    Triple (fun s => Frame env start l c s ∧ True) (env.stageReused r)
      (fun path s => Frame env start l c s ∧ ∀ digest, Env.parseDigest r.output.treeDigest = .ok digest →
        (env.online = false ∧ path = r.snapshot) ∨
          ∃ w w', env.host.stageVerifiedTree w digest r.snapshot = .ok (path, w')) (Safe env start) := by
  rw [Env.stageReused]
  by_cases honline : env.online = true
  · rw [if_pos honline]
    refine Triple.bind (Q := fun digest s => (Frame env start l c s ∧ True) ∧
      Env.parseDigest r.output.treeDigest = .ok digest)
      (Triple.lift (fun s hs => hs.1.safe) fun digest s hx hs => ⟨hs, hx⟩) fun digest => ?_
    refine (onWorld_triple (P := fun s => (Frame env start l c s ∧ True) ∧
      Env.parseDigest r.output.treeDigest = .ok digest) (fun _ _ h => h) fun _ h => h.1.1.safe).conseq
      (fun _ h => h) fun path s hs => ⟨hs.1.1.1, fun digest' hdigest' => Or.inr ?_⟩
    obtain rfl := Except.ok.inj (hs.1.2.symm.trans hdigest')
    exact hs.2
  · rw [if_neg honline]
    exact Triple.pure fun s hs => ⟨hs.1, fun _ _ => Or.inl ⟨Bool.not_eq_true _ ▸ honline, rfl⟩⟩

theorem reuseOutput_frame {r : Reuse W} {p : PackageState} (hp : p.bypassed = false)
    (hr : Reusable env start.lock r) :
    Triple (fun s => Frame env start l c s ∧ True) (env.reuseOutput r p)
      (fun p' s => Frame env start l c s ∧ Progress r.key p' s.log) (Safe env start) := by
  refine (stageReused_frame r).bind fun path => ?_
  refine Triple.bind (Q := fun _ s => Frame env start l c s ∧ ∀ digest,
    Env.parseDigest r.output.treeDigest = .ok digest → (env.online = false ∧ path = r.snapshot) ∨
      ∃ w w', env.host.stageVerifiedTree w digest r.snapshot = .ok (path, w'))
    (Triple.modify fun s hs => hs) fun _ => ?_
  refine Triple.bind (Q := fun _ s => Frame env start l c s ∧ .reused { r with path } ∈ s.log)
    (Triple.modify fun s hs => ⟨hs.1.record (hr.authenticated hs.2),
      List.mem_append_right _ List.mem_cons_self⟩) fun _ => ?_
  refine Triple.pure fun s hs => ⟨hs.1, hp, fun o ho => Or.inr ⟨_, hs.2, rfl, ?_, rfl⟩⟩
  rw [List.getLast?_concat] at ho
  exact Option.some_inj.mp ho

/-- An exact approval for an entry of the present lockfile is one for the
entry the run was given. -/
theorem SameEntries.authorized {lock lock' : Lockfile} (h : SameEntries lock lock') {key hook script : String}
    {package : LockedPackage} {approval : DependencyLifecycleApproval}
    (hpackage : lock'.packages.get? key = some package)
    (hdeclared : package.registryIntegrityDeclared = some true)
    (happroves : env.policy.Approves env.sha256Hex package hook script approval) :
    Authorized env lock key hook script approval := by
  have hentry := h key
  rw [hpackage, Option.map_some, eq_comm, Option.map_eq_some_iff] at hentry
  obtain ⟨source, hsource, heq⟩ := hentry
  have hfield : ∀ {α : Type} (f : LockedPackage → α), f source.withoutHooks = f package.withoutHooks :=
    fun f => congrArg f heq
  have hname : source.name = package.name := hfield LockedPackage.name
  have hversion : source.version = package.version := hfield LockedPackage.version
  have hintegrity : source.artifactIntegrity = package.artifactIntegrity :=
    hfield LockedPackage.artifactIntegrity
  have hsame : source.registryIntegrityDeclared = package.registryIntegrityDeclared :=
    hfield LockedPackage.registryIntegrityDeclared
  exact ⟨source, hsource, hsame.trans hdeclared, happroves.mem, happroves.nameEq.trans hname.symm,
    happroves.versionEq.trans hversion.symm, happroves.archiveEq.trans hintegrity.symm,
    happroves.hookEq, happroves.scriptEq⟩

/-- What is known when a recorded output can be reused. -/
theorem reusable_eq_some {w : W} {cached : Option Lockfile} {key hook recipe : String}
    {output : DerivedHookOutput} {snapshot : Path}
    (h : env.reusable w cached key hook recipe = .ok (some (output, snapshot))) :
    Env.cachedOutput cached key hook recipe = some output ∧ output.hook = hook ∧ output.key = recipe ∧
      ∃ digest tree, Env.parseDigest recipe = .ok digest ∧ Env.parseDigest output.treeDigest = .ok tree ∧
        env.verifiedLifecycleSnapshot w digest tree output.attestation = .ok snapshot := by
  rw [Env.reusable] at h
  cases hcached : Env.cachedOutput cached key hook recipe with
  | none =>
    rw [hcached] at h
    cases h
  | some previous =>
    rw [hcached] at h
    simp only [bind_eq_ok, pure_eq_ok] at h
    obtain ⟨digest, hdigest, tree, htree, h⟩ := h
    obtain ⟨path, hpath, heq⟩ := Option.map_eq_some_iff.mp h
    obtain ⟨rfl, rfl⟩ := Prod.mk.inj heq
    obtain ⟨p, _, hfind⟩ := Option.bind_eq_some_iff.mp hcached
    have hmatch := List.find?_some hfind
    rw [Bool.and_eq_true, beq_iff_eq, beq_iff_eq] at hmatch
    have hsnapshot : env.verifiedLifecycleSnapshot w digest tree previous.attestation = .ok path := by
      cases hv : env.verifiedLifecycleSnapshot w digest tree previous.attestation with
      | ok x =>
        rw [hv] at hpath
        rw [Option.some_inj.mp hpath]
      | error e =>
        rw [hv] at hpath
        cases hpath
    exact ⟨rfl, hmatch.1, hmatch.2, digest, tree, hdigest, htree, hsnapshot⟩

/-- **An approved hook leaves an output of this run or of the store.** -/
theorem deriveOutput_frame {sourceGraph : String} {cached : Option Lockfile} {key hook script : String}
    {package : LockedPackage} {approval : DependencyLifecycleApproval} {p : PackageState}
    (hp : p.bypassed = false) (hgraph : start.lock.sourceGraph.toJson env.url env.codec = .ok sourceGraph)
    (hauth : Authorized env start.lock key hook script approval)
    (hdeps : ∀ child, Relation.TransGen (RegistryDependency start.lock) key child → c.contains child = true) :
    Triple (fun s => Frame env start l c s ∧ True)
      (env.deriveOutput sourceGraph cached key package hook script approval p)
      (fun p' s => Frame env start l c s ∧ Progress key p' s.log) (Safe env start) := by
  refine (systemIdentity_frame (A := fun _ => True)).bind fun system => ?_
  refine Triple.bind (Q := fun toolchain s => (Frame env start l c s ∧ True) ∧
    env.toolchain.system = .ok system ∧ env.toolIdentity approval system = .ok toolchain)
    (Triple.lift (fun s hs => hs.1.1.safe) fun toolchain s hx hs => ⟨hs.1, hs.2, hx⟩) fun toolchain => ?_
  refine Triple.get fun s₀ => ?_
  refine Triple.bind (Q := fun found s => ((Frame env start l c s ∧ True) ∧
    env.toolchain.system = .ok system ∧ env.toolIdentity approval system = .ok toolchain) ∧
    s₀.lock = l ∧ s₀.completed = c ∧ Keeps env start s₀ ∧
    env.reusable s₀.world cached key hook (env.policy.derivedKey env.sha256Hex approval toolchain
      (env.graphText sourceGraph s₀.completed p.outputs)) = .ok found)
    (Triple.lift (fun s hs => hs.1.1.1.safe) fun found s hx hs => ?_) fun found => ?_
  · obtain ⟨hs, rfl⟩ := hs
    exact ⟨hs, hs.1.1.2.1, hs.1.1.2.2, hs.1.1.1, hx⟩
  · intro s hs
    obtain ⟨⟨hframe, hsystem, htool⟩, hlock, hcompleted, hkeeps, hfound⟩ := hs
    cases found with
    | none => exact executeHook_frame hp hauth s hframe
    | some found =>
      obtain ⟨_, hhook, hkey, digest, tree, hdigest, htree, hsnapshot⟩ := reusable_eq_some hfound
      have hreusable : Reusable env start.lock (⟨key, package, hook, script, approval, toolchain, s₀.lock,
          s₀.completed, p.outputs, found.1, s₀.world, found.2, found.2⟩ : Reuse W) := {
        authorized := hauth
        toolchain := ⟨system, hsystem, htool⟩
        hook := hhook
        recipe := ⟨sourceGraph, hgraph, hkey⟩
        snapshot := ⟨digest, tree, hkey.symm ▸ hdigest, htree, hsnapshot⟩
        recorded := hkeeps.recorded
        dependencies := fun child hchild => hcompleted.symm ▸ hdeps child hchild }
      exact reuseOutput_frame hp hreusable s hframe

theorem authorize_frame (hoverrides : env.overrides = {}) {package : LockedPackage} {requiresInstall : Bool}
    {hook script : String} :
    Triple (fun s => Frame env start l c s ∧ A s.log) (env.authorize package requiresInstall hook script)
      (fun found s => (Frame env start l c s ∧ A s.log) ∧ ∀ approval exact, found = some (approval, exact) →
        env.policy.Approves env.sha256Hex package hook script approval) (Safe env start) := by
  have hunapproved : env.overrides.allowUnapproved = false := by rw [hoverrides]
  refine Triple.bind (Q := fun selected s => (Frame env start l c s ∧ A s.log) ∧
    env.select package hook script = .ok selected)
    (Triple.lift (fun s hs => hs.1.safe) fun selected s hx hs => ⟨hs, hx⟩) fun selected => ?_
  cases selected with
  | some approval =>
    refine Triple.pure fun s hs => ⟨hs.1, fun approval' exact heq => ?_⟩
    obtain ⟨rfl, _⟩ := Prod.mk.inj (Option.some_inj.mp heq)
    have hselect := hs.2
    rw [Env.select, if_neg (by rw [hunapproved]; exact Bool.false_ne_true), mapError_eq_ok] at hselect
    exact DependencyLifecyclePolicy.approves_of_approvalFor _ hselect
  | none =>
    show Triple _ (if (env.overrides.allowUnapproved && (hookRank hook).isSome) = true then _ else _) _ _
    rw [if_neg (by rw [hunapproved]; exact Bool.false_ne_true)]
    refine Triple.bind (Q := fun _ s => Frame env start l c s ∧ A s.log)
      (Triple.lift (fun s hs => hs.1.1.safe) fun _ s _ hs => hs.1) fun _ => ?_
    exact Triple.pure fun s hs => ⟨hs, fun _ _ heq => by cases heq⟩

/-- **One hook.** -/
theorem processHook_frame (hoverrides : env.overrides = {}) {sourceGraph : String} {cached : Option Lockfile}
    {key : String} {package : LockedPackage} {requiresInstall : Bool} {p : PackageState}
    {command : String × String} (hpackage : l.packages.get? key = some package)
    (hgraph : start.lock.sourceGraph.toJson env.url env.codec = .ok sourceGraph)
    (hdeps : env.policy.approvals ≠ [] →
      ∀ child, Relation.TransGen (RegistryDependency start.lock) key child → c.contains child = true) :
    Triple (fun s => Frame env start l c s ∧ Progress key p s.log)
      (env.processHook sourceGraph cached key package requiresInstall p command)
      (fun p' s => Frame env start l c s ∧ Progress key p' s.log) (Safe env start) := by
  refine (authorize_frame (A := Progress key p) hoverrides).bind fun found => ?_
  cases found with
  | none => exact Triple.pure fun s hs => hs.1
  | some found =>
    obtain ⟨approval, exact⟩ := found
    refine Triple.bind (Q := fun _ s => ((Frame env start l c s ∧ Progress key p s.log) ∧
      env.policy.Approves env.sha256Hex package command.1 command.2 approval) ∧
      package.registryIntegrityDeclared = some true)
      (Triple.lift (fun s hs => hs.1.1.safe) fun _ s hx hs =>
        ⟨⟨hs.1, hs.2 approval exact rfl⟩, not_not.mp (rejectIf_eq_ok.mp hx)⟩) fun _ => ?_
    have hdisabled : env.overrides.enabled = false := by rw [hoverrides]; rfl
    rw [if_neg (by rw [hdisabled]; exact Bool.false_ne_true)]
    intro s hs
    obtain ⟨⟨⟨hframe, hprogress⟩, happroves⟩, hdeclared⟩ := hs
    have hauth : Authorized env start.lock key command.1 command.2 approval :=
      hframe.1.entries.authorized (hframe.2.1.symm ▸ hpackage) hdeclared happroves
    exact deriveOutput_frame hprogress.1 hgraph hauth
      (hdeps (List.ne_nil_of_mem happroves.mem)) s ⟨hframe, trivial⟩

/-! ### One package -/

theorem InstancesFrom.setTree {input : LayoutInput} {log : List (Event W)} (h : InstancesFrom start input log)
    {key digest : String} {path : Path} (index : Nat) (hmem : .substituted key digest path ∈ log) :
    InstancesFrom start (input.setTree index digest path) log := by
  intro i inst hget
  rw [LayoutInput.setTree, List.getElem?_modify] at hget
  obtain ⟨old, hold, rfl⟩ := Option.map_eq_some_iff.mp hget
  by_cases hi : index = i
  · right
    refine ⟨key, ?_⟩
    rw [if_pos hi]
    exact hmem
  · rw [if_neg hi]
    exact h i old hold

/-- A substituted tree has an output it comes from. -/
theorem substitute_frame {key : String} {index : Nat} {path : Path} (output : DerivedHookOutput) :
    Triple (fun s => Frame env start l c s ∧ Provenance s.log key output path)
      (Env.substitute key index output.treeDigest path)
      (fun _ s => Frame env start l c s ∧ True) (Safe env start) := by
  refine Triple.bind (Q := fun digest s => (Frame env start l c s ∧ Provenance s.log key output path) ∧
    verifiedTreeReference output.treeDigest = .ok digest)
    (Triple.lift (fun s hs => hs.1.safe) fun digest s hx hs => ⟨hs, hx⟩) fun digest => ?_
  refine Triple.bind (Q := fun _ s => ∃ s₀, (Frame env start l c s₀ ∧
      Provenance s₀.log key output path) ∧ verifiedTreeReference output.treeDigest = .ok digest ∧
      s = { s₀ with input := s₀.input.setTree index digest path, trees := s₀.trees.insert key path })
    (Triple.modify fun s hs => ⟨s, hs.1, hs.2, rfl⟩) fun _ => ?_
  refine Triple.modify fun s hs => ?_
  obtain ⟨s₀, ⟨⟨hkeeps, hlock, hcompleted⟩, hprov⟩, hdigest, rfl⟩ := hs
  have hmem : ∀ e ∈ s₀.log, e ∈ s₀.log ++ [.substituted key digest path] := fun e he =>
    List.mem_append_left _ he
  have hlast : .substituted key digest path ∈ s₀.log ++ [.substituted key digest path] :=
    List.mem_append_right _ List.mem_cons_self
  refine ⟨⟨{
    entries := hkeeps.entries
    goodLog := hkeeps.goodLog.append ⟨output, hdigest, hprov⟩
    recorded := hkeeps.recorded
    knownSystem := hkeeps.knownSystem
    treesFrom := fun k p hget => ?_
    instancesFrom := (hkeeps.instancesFrom.mono hmem).setTree index hlast }, hlock, hcompleted⟩, trivial⟩
  rw [OrdMap.get?_insert] at hget
  split_ifs at hget with hk
  · obtain rfl := Option.some_inj.mp hget
    rw [hk]
    exact Or.inr ⟨digest, hlast⟩
  · exact hkeeps.treesFrom.mono hmem k p hget

theorem substituteResult_frame {key : String} {index : Nat} {p : PackageState} :
    Triple (fun s => Frame env start l c s ∧ Progress key p s.log) (env.substituteResult key index p)
      (fun _ s => Frame env start l c s ∧ True) (Safe env start) := by
  intro s hs
  rw [Env.substituteResult, if_neg (by rw [hs.2.1]; exact Bool.false_ne_true)]
  cases hlast : p.outputs.getLast? with
  | none => exact ⟨hs.1, trivial⟩
  | some output => exact substitute_frame output s ⟨hs.1, hs.2.2 output hlast⟩

theorem SameEntries.withDerivedHooks {lock lock' : Lockfile} (h : SameEntries lock lock') {key : String}
    {package : LockedPackage} (hpackage : lock'.packages.get? key = some package)
    (outputs : List DerivedHookOutput) : SameEntries lock (lock'.withDerivedHooks key package outputs) := by
  intro k
  rw [Lockfile.withDerivedHooks, OrdMap.get?_insert, ← h k]
  split_ifs with hk
  · rw [hk, hpackage]
    rfl
  · rfl

theorem setDerivedHooks_frame {key : String} {outputs : List DerivedHookOutput} (hkey : c.get? key = none) :
    Triple (fun s => Frame env start l c s ∧ True) (Env.setDerivedHooks key outputs)
      (fun _ s => (Keeps env start s ∧ s.completed = c) ∧
        (s.lock.packages.get? key).map LockedPackage.derivedHooks = some outputs) (Safe env start) := by
  intro s hs
  obtain ⟨⟨hkeeps, rfl, rfl⟩, _⟩ := hs
  rw [Env.setDerivedHooks]
  cases hset : Lockfile.setDerivedHooks key outputs s.lock with
  | error e lock => exact hkeeps.safe
  | ok u lock =>
    obtain ⟨_, package, hpackage, rfl⟩ := Lockfile.setDerivedHooks_eq_ok.mp hset
    refine ⟨⟨{ hkeeps with
      entries := hkeeps.entries.withDerivedHooks hpackage outputs
      recorded := fun k outs hget => ?_ }, rfl⟩, ?_⟩
    · have hne : k ≠ key := by
        rintro rfl
        rw [hkey] at hget
        cases hget
      rw [Lockfile.withDerivedHooks, OrdMap.get?_insert_of_ne _ _ hne]
      exact hkeeps.recorded k outs hget
    · show ((s.lock.withDerivedHooks key package outputs).packages.get? key).map _ = _
      rw [Lockfile.withDerivedHooks, OrdMap.get?_insert_self]
      rfl

/-- The outputs of a package are recorded. -/
theorem finishPackage_frame {cached : Option Lockfile} {key : String} {index : Nat} {p : PackageState}
    (hkey : c.get? key = none) :
    Triple (fun s => Frame env start l c s ∧ Progress key p s.log) (env.finishPackage cached key index p)
      (fun _ s => Keeps env start s ∧ s.completed = c.insert key p.outputs) (Safe env start) := by
  refine Triple.bind (Q := fun _ s => Frame env start l c s ∧ Progress key p s.log)
    (Triple.lift (fun s hs => hs.1.safe) fun _ s _ hs => hs) fun _ => ?_
  refine substituteResult_frame.bind fun _ => ?_
  refine (setDerivedHooks_frame hkey).bind fun _ => ?_
  refine Triple.modify fun s hs => ?_
  obtain ⟨⟨hkeeps, rfl⟩, hrecorded⟩ := hs
  refine ⟨{ hkeeps with recorded := fun k outs hget => ?_ }, rfl⟩
  rw [OrdMap.get?_insert] at hget
  split_ifs at hget with hk
  · obtain rfl := Option.some_inj.mp hget
    rw [hk]
    exact hrecorded
  · exact hkeeps.recorded k outs hget

end Package

/-- What holds between two packages. -/
def Between (env : Env W) (start : RunState W) (done : List String) (s : RunState W) : Prop :=
  Keeps env start s ∧ ∀ k, s.completed.contains k = true ↔ k ∈ done

/-- **One package.** -/
theorem processPackage_between {env : Env W} {start : RunState W} (hoverrides : env.overrides = {})
    {sourceGraph : String} {cached : Option Lockfile} {done : List String} {key : String} (hkey : key ∉ done)
    (hgraph : start.lock.sourceGraph.toJson env.url env.codec = .ok sourceGraph)
    (hdeps : env.policy.approvals ≠ [] →
      ∀ child, Relation.TransGen (RegistryDependency start.lock) key child → child ∈ done) :
    Triple (Between env start done) (env.processPackage sourceGraph cached () key)
      (fun _ => Between env start (done ++ [key])) (Safe env start) := by
  refine Triple.get fun s₀ => ?_
  have hstart : ∀ s, Between env start done s ∧ s = s₀ → Frame env start s₀.lock s₀.completed s :=
    fun s hs => ⟨hs.1.1, hs.2 ▸ rfl, hs.2 ▸ rfl⟩
  intro s hs
  obtain ⟨hbetween, rfl⟩ := hs
  have hcontains : s.completed.get? key = none := by
    rw [← Option.not_isSome_iff_eq_none]
    exact fun h => hkey ((hbetween.2 key).mp h)
  have hdone : env.policy.approvals ≠ [] →
      ∀ child, Relation.TransGen (RegistryDependency start.lock) key child →
        s.completed.contains child = true :=
    fun hne child hchild => (hbetween.2 child).mpr (hdeps hne child hchild)
  refine (Triple.bind (P := fun t => Frame env start s.lock s.completed t ∧ True)
    (Q := fun package t => (Frame env start s.lock s.completed t ∧ True) ∧
      s.lock.packages.get? key = some package)
    (Triple.lift (fun t ht => ht.1.safe) fun package t hx ht => ⟨ht, orError_eq_ok.mp hx⟩)
    fun package => ?_) s ⟨⟨hbetween.1, rfl, rfl⟩, trivial⟩
  refine Triple.bind (Q := fun _ t => (Frame env start s.lock s.completed t ∧ True) ∧
      s.lock.packages.get? key = some package)
    (Triple.lift (fun t ht => ht.1.1.safe) fun _ t _ ht => ht) fun identity => ?_
  refine Triple.bind (Q := fun _ t => (Frame env start s.lock s.completed t ∧ True) ∧
      s.lock.packages.get? key = some package)
    (Triple.lift (fun t ht => ht.1.1.safe) fun _ t _ ht => ht) fun place => ?_
  refine Triple.bind (Q := fun _ t => (Frame env start s.lock s.completed t ∧ True) ∧
      s.lock.packages.get? key = some package)
    (Triple.lift (fun t ht => ht.1.1.safe) fun _ t _ ht => ht) fun plan => ?_
  intro t ht
  obtain ⟨⟨hframe, _⟩, hpackage⟩ := ht
  refine (Triple.bind (P := fun t => Frame env start s.lock s.completed t ∧
      Progress key { current := place.2 } t.log)
    (Q := fun p t => Frame env start s.lock s.completed t ∧ Progress key p t.log)
    (Triple.foldlM (I := fun _ p t => Frame env start s.lock s.completed t ∧ Progress key p t.log)
      fun _ command _ p _ => processHook_frame hoverrides hpackage hgraph hdone) fun p => ?_) t
    ⟨hframe, rfl, fun o ho => by simp at ho⟩
  refine (finishPackage_frame hcontains).conseq (fun _ h => h) fun _ u hu => ⟨hu.1, fun k => ?_⟩
  rw [hu.2, OrdMap.contains_insert, Bool.or_eq_true, beq_iff_eq, hbetween.2 k, List.mem_append,
    List.mem_singleton, or_comm]

/-- **All packages.** -/
theorem apply_between {env : Env W} (hoverrides : env.overrides = {}) {start : RunState W}
    (hlog : start.log = []) (hcompleted : start.completed = ∅) (hsystem : start.systemIdentity = none) :
    Triple (fun s => s = start) env.apply (fun _ s => Keeps env start s) (Safe env start) := by
  have hkeeps : Keeps env start start := {
    entries := fun _ => rfl
    goodLog := fun e he => by rw [hlog] at he; exact absurd he List.not_mem_nil
    recorded := fun k outputs hget => by simp [hcompleted] at hget
    knownSystem := fun identity h => by rw [hsystem] at h; cases h
    treesFrom := fun _ _ h => Or.inl h
    instancesFrom := fun _ _ h => Or.inl h }
  refine Triple.get fun s₀ => ?_
  intro s hs
  obtain ⟨rfl, rfl⟩ := hs
  refine (Triple.bind (P := Between env s [])
    (Q := fun sourceGraph t => Between env s [] t ∧ s.lock.sourceGraph.toJson env.url env.codec = .ok sourceGraph)
    (Triple.lift (fun t ht => ht.1.safe) fun sourceGraph t hx ht => ⟨ht, mapError_eq_ok.mp hx⟩)
    fun sourceGraph => ?_) s ⟨hkeeps, fun k => by rw [hcompleted]; simp [OrdMap.contains]⟩
  refine Triple.bind (Q := fun _ t => Between env s [] t ∧
    s.lock.sourceGraph.toJson env.url env.codec = .ok sourceGraph)
    (Triple.lift (fun t ht => ht.1.1.safe) fun _ t _ ht => ht) fun _ => ?_
  refine Triple.bind (Q := fun order t => (Between env s [] t ∧
    s.lock.sourceGraph.toJson env.url env.codec = .ok sourceGraph) ∧ env.order s.lock = .ok order)
    (Triple.lift (fun t ht => ht.1.1.safe) fun order t hx ht => ⟨ht, hx⟩) fun order => ?_
  intro t ht
  obtain ⟨⟨hbetween, hgraph⟩, horder⟩ := ht
  have hnodup : order.Nodup := (env.order_ordered horder).1
  refine ((Triple.foldlM (I := fun done _ => Between env s done) (E := Safe env s)
    fun done key rest _ hsplit => ?_).conseq (fun _ h => h) fun _ _ h => h.1) t hbetween
  have hkey : key ∉ done := by
    rw [hsplit, List.nodup_append] at hnodup
    exact fun hmem => hnodup.2.2 key hmem key List.mem_cons_self rfl
  exact processPackage_between hoverrides hkey hgraph fun hne child hchild =>
    ((env.order_ordered horder).2.2 hne hoverrides).transGen hsplit hchild

/-! ### What runs and what is substituted -/

/-- The run of an installation that was not told to override anything. -/
def Env.withoutOverrides (env : Env W) : Env W := { env with overrides := {} }

/-- The state a run starts in. -/
def RunState.initial (world : W) (lock : Lockfile) (input : LayoutInput) (trees : OrdMap String Path) :
    RunState W where
  world := world
  lock := lock
  input := input
  trees := trees

/-- Only what is exactly approved ran, only online, and every derived tree is
the output of such a call or authenticated under its recipe. -/
structure OnlyAuthorized (env : Env W) (start t : RunState W) : Prop where
  ran : ∀ key hook call, .ran key hook call ∈ t.log →
    call.implicitNodeGyp = false ∧ Authorized env start.lock key hook call.script call.approval
  offline : env.online = false → ∀ key hook call, .ran key hook call ∉ t.log
  derived : ∀ key digest path, .substituted key digest path ∈ t.log →
    ∃ output, verifiedTreeReference output.treeDigest = .ok digest ∧
      ((∃ call, .executed key call output path ∈ t.log ∧ .ran key output.hook call ∈ t.log ∧
        StagedFrom env call output path) ∨
      ∃ r, .reused r ∈ t.log ∧ r.key = key ∧ r.output = output ∧ r.path = path ∧
        Authenticated env start.lock r)
  trees : TreesFrom start t.trees t.log
  instances : InstancesFrom start t.input t.log

theorem Safe.onlyAuthorized {env : Env W} {start t : RunState W} (h : Safe env start t) :
    OnlyAuthorized env start t where
  ran key hook call hmem := (h.1 _ hmem).2
  offline hoffline key hook call hmem := by
    have honline : env.online = true := (h.1 _ hmem).1
    rw [hoffline] at honline
    exact Bool.false_ne_true honline
  derived key digest path hmem := by
    obtain ⟨output, hdigest, hprov⟩ := h.1 _ hmem
    refine ⟨output, hdigest, ?_⟩
    rcases hprov with ⟨call, hcall⟩ | ⟨r, hr, hkey, houtput, hpath⟩
    · have hgood : Good env start.lock t.log (.executed key call output path) := h.1 _ hcall
      exact Or.inl ⟨call, hcall, hgood.1, hgood.2⟩
    · exact Or.inr ⟨r, hr, hkey, houtput, hpath, h.1 _ hr⟩
  trees := h.2.1
  instances := h.2.2

/-- **Hooks run only when exactly approved.**  However a run ends, what it ran
and what it substituted is authorized. -/
theorem apply_onlyAuthorized (env : Env W) (world : W) (lock : Lockfile) (input : LayoutInput)
    (trees : OrdMap String Path) :
    OnlyAuthorized env.withoutOverrides (.initial world lock input trees)
      (final (env.withoutOverrides.apply (.initial world lock input trees))) := by
  have h := @apply_between _ env.withoutOverrides rfl (.initial world lock input trees) rfl rfl rfl _ rfl
  cases hrun : env.withoutOverrides.apply (.initial world lock input trees) with
  | ok a t =>
    rw [hrun] at h
    exact (Keeps.safe h).onlyAuthorized
  | error e t =>
    rw [hrun] at h
    exact Safe.onlyAuthorized h

end DependencyScripts

end Tapid
