/-
What a run of the hooks derives.

The outputs of a package are determined by the policy, the scripts of its
source tree and the outputs of the packages before it.  `Processed` says which
outputs a lockfile may have and which digests its trees then have, without a
word about how they were made or where they were taken from.

* `Derived`, `Processed` — outputs of a package and of a lockfile;
* `processHook_ok`, `finishPackage_ok`, `processPackage_ok` — what a successful
  step did;
* `apply_ok` — a successful run, online or not, is a derivation.
-/
import Tapid.DependencyScriptsSound
import Tapid.LockfileRoundTrip

namespace Tapid

open Text Fallible Effect

namespace DependencyScripts

variable {W : Type}

/-! ### The derivation of a lockfile's outputs -/

/-- A run with or without a store transaction, without overrides. -/
def Env.mode (env : Env W) (online : Bool) : Env W := { env with overrides := {}, online }

/-- The hook is not in the policy. -/
def Env.Unapproved (env : Env W) (package : LockedPackage) (command : String × String) : Prop :=
  env.policy.approvalFor env.sha256Hex package.name package.version package.artifactIntegrity command.1
    command.2 = .ok none

/-- The store authenticates an output with its key. -/
def Env.Attested (env : Env W) (storeKey : List UInt8) (output : DerivedHookOutput) : Prop :=
  ∃ recipe tree, Env.parseDigest output.key = .ok recipe ∧ Env.parseDigest output.treeDigest = .ok tree ∧
    verifyAttestation env.hmac storeKey recipe tree output.attestation = .ok ()

/-- The recipe of a hook whose package comes after `completed` and that comes
after `outputs`. -/
def Env.IsRecipe (env : Env W) (sourceGraph : String) (completed : OrdMap String (List DerivedHookOutput))
    (outputs : List DerivedHookOutput) (approval : DependencyLifecycleApproval) (recipe : String) : Prop :=
  ∃ system toolchain, env.toolchain.system = .ok system ∧ env.toolIdentity approval system = .ok toolchain ∧
    recipe = env.policy.derivedKey env.sha256Hex approval toolchain
      (env.graphText sourceGraph completed outputs)

section Derivation

variable (env : Env W) (storeKey : List UInt8) (sourceGraph : String)

/-- Outputs of the hooks of one package: an approved hook has one under its
recipe, the others have none. -/
inductive Derived (completed : OrdMap String (List DerivedHookOutput)) (package : LockedPackage)
    (requiresInstall : Bool) : List (String × String) → List DerivedHookOutput → Prop
  | nil : Derived completed package requiresInstall [] []
  | skip {done : List (String × String)} {outputs : List DerivedHookOutput} {command : String × String}
      (h : Derived completed package requiresInstall done outputs)
      (hcommand : env.Unapproved package command)
      (hrequired : ¬ (requiresInstall = true ∧ command.1 = "install")) :
      Derived completed package requiresInstall (done ++ [command]) outputs
  | derive {done : List (String × String)} {outputs : List DerivedHookOutput} {command : String × String}
      {approval : DependencyLifecycleApproval} {output : DerivedHookOutput}
      (h : Derived completed package requiresInstall done outputs)
      (hcommand : env.policy.approvalFor env.sha256Hex package.name package.version
        package.artifactIntegrity command.1 command.2 = .ok (some approval))
      (hdeclared : package.registryIntegrityDeclared = some true) (hhook : output.hook = command.1)
      (hrecipe : env.IsRecipe sourceGraph completed outputs approval output.key)
      (hattested : env.Attested storeKey output) :
      Derived completed package requiresInstall (done ++ [command]) (outputs ++ [output])

/-- The hooks of a package as they are discovered in its source tree. -/
def Env.Discovers (env : Env W) (trees : OrdMap String Path) (key : String) (package : LockedPackage)
    (plan : DependencyLifecyclePlan) : Prop :=
  ∃ w path, trees.get? key = some path ∧ env.withoutOverrides.discover package w path = .ok plan

/-- The digest of the tree of an instance. -/
def LayoutInput.digestOf (input : LayoutInput) (identity : InstanceKey) : Option String :=
  (input.instances.find? fun i => i.key == identity).map InstalledInstance.treeDigest

/-- The digests after an instance got the tree of its last output. -/
def redirected (digests : InstanceKey → Option String) (identity : InstanceKey)
    (outputs : List DerivedHookOutput) : Except ScriptError (InstanceKey → Option String) :=
  match outputs.getLast? with
  | none => .ok digests
  | some output => do
    let digest ← verifiedTreeReference output.treeDigest
    return Function.update digests identity (some digest)

/-- Outputs of the packages of a lockfile, one package after another, and the
digests of the trees they leave. -/
inductive Processed (lock : Lockfile) (trees : OrdMap String Path) (sources : InstanceKey → Option String) :
    List String → OrdMap String (List DerivedHookOutput) → (InstanceKey → Option String) → Prop
  | nil : Processed lock trees sources [] ∅ sources
  | snoc {done : List String} {completed : OrdMap String (List DerivedHookOutput)}
      {digests digests' : InstanceKey → Option String} {key : String} {package : LockedPackage}
      {identity : InstanceKey} {plan : DependencyLifecyclePlan} {outputs : List DerivedHookOutput}
      (h : Processed lock trees sources done completed digests) (hkey : key ∉ done)
      (hpackage : (lock.packages.get? key).map LockedPackage.withoutHooks = some package)
      (hidentity : env.identityOf key = .ok identity) (hplan : env.Discovers trees key package plan)
      (hderived : Derived env storeKey sourceGraph completed package plan.implicitInstall plan.commands outputs)
      (hvalid : validateDerivedHooks outputs = .ok ())
      (hdigests : redirected digests identity outputs = .ok digests') :
      Processed lock trees sources (done ++ [key]) (completed.insert key outputs) digests'

end Derivation

section DerivationLemmas

variable {env : Env W} {storeKey : List UInt8} {sourceGraph : String}

/-- The facts about one processed package. -/
theorem Processed.of_get? {lock : Lockfile} {trees : OrdMap String Path} {done : List String}
    {completed : OrdMap String (List DerivedHookOutput)} {sources digests : InstanceKey → Option String}
    (h : Processed env storeKey sourceGraph lock trees sources done completed digests) {key : String}
    {outputs : List DerivedHookOutput} (hget : completed.get? key = some outputs) :
    ∃ before package plan, (lock.packages.get? key).map LockedPackage.withoutHooks = some package ∧
      (∃ identity, env.identityOf key = .ok identity) ∧ env.Discovers trees key package plan ∧
      Derived env storeKey sourceGraph before package plan.implicitInstall plan.commands outputs ∧
      validateDerivedHooks outputs = .ok () := by
  induction h with
  | nil => simp at hget
  | @snoc done completed _ _ key' package identity plan outs _ hkey hpackage hidentity hplan hderived hvalid _ ih =>
    rw [OrdMap.get?_insert] at hget
    split_ifs at hget with hk
    · obtain rfl := Option.some_inj.mp hget
      exact ⟨completed, package, plan, hk ▸ hpackage, ⟨identity, hk ▸ hidentity⟩, hk ▸ hplan, hderived, hvalid⟩
    · exact ih hget

theorem Processed.contains_iff {lock : Lockfile} {trees : OrdMap String Path} {done : List String}
    {completed : OrdMap String (List DerivedHookOutput)} {sources digests : InstanceKey → Option String}
    (h : Processed env storeKey sourceGraph lock trees sources done completed digests) (key : String) :
    completed.contains key = true ↔ key ∈ done := by
  induction h with
  | nil => simp [OrdMap.contains]
  | snoc _ _ _ _ _ _ _ _ ih =>
    rw [OrdMap.contains_insert, Bool.or_eq_true, beq_iff_eq, ih, List.mem_append, List.mem_singleton, or_comm]

end DerivationLemmas

/-- Hooks of valid outputs are different. -/
theorem pairwise_of_checkDerivedHooks {previous : Option Nat} {outputs : List DerivedHookOutput}
    (h : checkDerivedHooks previous outputs = .ok ()) :
    (∀ o ∈ outputs, ∃ rank, hookRank o.hook = some rank ∧ ∀ p ∈ previous, p < rank) ∧
      outputs.Pairwise fun a b => a.hook ≠ b.hook := by
  induction outputs generalizing previous with
  | nil => exact ⟨fun o ho => absurd ho List.not_mem_nil, List.Pairwise.nil⟩
  | cons o outputs ih =>
    rw [checkDerivedHooks, bind_eq_ok] at h
    obtain ⟨rank, hrank, h⟩ := h
    obtain ⟨hrest, hpairwise⟩ := ih h
    simp only [checkDerivedHook, bind_eq_ok, rejectIf_eq_ok, orError_eq_ok, pure_eq_ok] at hrank
    obtain ⟨_, _, _, _, rank', hrank', _, hprevious, _, _, _, _, rfl⟩ := hrank
    have hlt : ∀ p ∈ previous, p < rank' := by
      intro p hp
      rw [Option.mem_def] at hp
      rw [hp] at hprevious
      simpa using hprevious
    refine ⟨fun x hx => ?_, List.pairwise_cons.mpr ⟨fun x hx heq => ?_, hpairwise⟩⟩
    · rcases List.mem_cons.mp hx with rfl | hx
      · exact ⟨rank', hrank', hlt⟩
      · obtain ⟨r, hr, hbelow⟩ := hrest x hx
        exact ⟨r, hr, fun p hp => lt_trans (hlt p hp) (hbelow rank' rfl)⟩
    · obtain ⟨r, hr, hbelow⟩ := hrest x hx
      rw [← heq, hrank'] at hr
      have := hbelow rank' rfl
      rw [← Option.some_inj.mp hr] at this
      exact lt_irrefl _ this

/-! ### The layout -/

theorem indexOf_eq_some {input : LayoutInput} {trees : OrdMap String Path} {key : String}
    {identity : InstanceKey} {index : Nat} {path : Path} :
    Env.indexOf input trees key identity = some (index, path) ↔
      input.instances.findIdx? (fun i => i.key == identity) = some index ∧
        ∃ inst, input.instances[index]? = some inst ∧ trees.get? key = some path ∧ inst.treeRoot = path := by
  rw [Env.indexOf]
  constructor
  · intro h
    obtain ⟨i, hi, h⟩ := Option.bind_eq_some_iff.mp h
    obtain ⟨inst, hinst, h⟩ := Option.bind_eq_some_iff.mp h
    split_ifs at h with htree
    obtain ⟨rfl, rfl⟩ := Prod.mk.inj (Option.some_inj.mp h)
    exact ⟨hi, inst, hinst, htree, rfl⟩
  · rintro ⟨hi, inst, hinst, htree, rfl⟩
    refine Option.bind_eq_some_iff.mpr ⟨index, hi, Option.bind_eq_some_iff.mpr ⟨inst, hinst, ?_⟩⟩
    rw [if_pos htree]
    rfl

/-- Instances keep their keys when a tree is replaced. -/
theorem find?_modify_tree {identity other : InstanceKey} {digest : String} {root : Path}
    {instances : List InstalledInstance} {index : Nat}
    (h : instances.findIdx? (fun i => i.key == identity) = some index) :
    ((instances.modify index fun i => { i with treeDigest := digest, treeRoot := root }).find? fun i =>
        i.key == other).map InstalledInstance.treeDigest =
      if other = identity then some digest
      else (instances.find? fun i => i.key == other).map InstalledInstance.treeDigest := by
  induction instances generalizing index with
  | nil => simp at h
  | cons i instances ih =>
    rw [List.findIdx?_cons] at h
    by_cases hi : (i.key == identity) = true
    · rw [if_pos hi] at h
      obtain rfl := Option.some_inj.mp h
      rw [beq_iff_eq] at hi
      rw [List.modify_zero_cons, List.find?_cons, List.find?_cons]
      by_cases hother : other = identity
      · rw [if_pos hother, hother]
        simp [hi]
      · have hne : (i.key == other) = false := by
          rw [beq_eq_false_iff_ne, hi]
          exact fun h => hother h.symm
        rw [if_neg hother]
        simp only [hne]
    · rw [if_neg hi] at h
      obtain ⟨j, hj, rfl⟩ := Option.map_eq_some_iff.mp h
      rw [List.modify_succ_cons, List.find?_cons, List.find?_cons]
      by_cases hother : (i.key == other) = true
      · have hne : other ≠ identity := by
          rintro rfl
          exact hi hother
        simp only [hother, if_neg hne]
      · simp only [Bool.not_eq_true _ ▸ hother]
        exact ih hj

/-- **The digest of one instance changes.** -/
theorem digestOf_setTree {input : LayoutInput} {trees : OrdMap String Path} {key : String}
    {identity : InstanceKey} {index : Nat} {path : Path}
    (h : Env.indexOf input trees key identity = some (index, path)) (digest : String) (root : Path) :
    (input.setTree index digest root).digestOf = Function.update input.digestOf identity (some digest) := by
  funext other
  rw [Function.update_apply]
  exact find?_modify_tree (indexOf_eq_some.mp h).1

theorem key_of_indexOf {input : LayoutInput} {trees : OrdMap String Path} {key : String}
    {identity : InstanceKey} {index : Nat} {path : Path}
    (h : Env.indexOf input trees key identity = some (index, path)) {inst : InstalledInstance}
    (hinst : input.instances[index]? = some inst) : inst.key = identity := by
  obtain ⟨hlt, hp, _⟩ := List.findIdx?_eq_some_iff_getElem.mp (indexOf_eq_some.mp h).1
  rw [List.getElem?_eq_getElem hlt] at hinst
  obtain rfl := Option.some_inj.mp hinst
  exact beq_iff_eq.mp hp

theorem findIdx?_modify_tree (other : InstanceKey) (digest : String) (root : Path)
    (instances : List InstalledInstance) (index : Nat) :
    (instances.modify index fun i => { i with treeDigest := digest, treeRoot := root }).findIdx?
        (fun i => i.key == other) = instances.findIdx? fun i => i.key == other := by
  induction instances generalizing index with
  | nil => rw [List.modify_nil]
  | cons i instances ih =>
    cases index with
    | zero => rw [List.modify_zero_cons, List.findIdx?_cons, List.findIdx?_cons]
    | succ index => rw [List.modify_succ_cons, List.findIdx?_cons, List.findIdx?_cons, ih]

/-- Other entries keep their place. -/
theorem indexOf_setTree {input : LayoutInput} {trees : OrdMap String Path} {key key' : String}
    {identity identity' : InstanceKey} {index : Nat} {path : Path} {place : Nat × Path}
    (h : Env.indexOf input trees key identity = some (index, path))
    (h' : Env.indexOf input trees key' identity' = some place) (hkey : key' ≠ key)
    (hidentity : identity' ≠ identity) (digest : String) (root : Path) :
    Env.indexOf (input.setTree index digest root) (trees.insert key root) key' identity' =
      some place := by
  obtain ⟨index', path'⟩ := place
  obtain ⟨_, inst, hinst, _, _⟩ := indexOf_eq_some.mp h
  obtain ⟨hfind', inst', hinst', htree', hroot'⟩ := indexOf_eq_some.mp h'
  have hindex : index ≠ index' := by
    rintro rfl
    obtain rfl := Option.some_inj.mp (hinst.symm.trans hinst')
    exact hidentity ((key_of_indexOf h' hinst).symm.trans (key_of_indexOf h hinst))
  refine indexOf_eq_some.mpr ⟨?_, inst', ?_, ?_, hroot'⟩
  · rw [← hfind']
    exact findIdx?_modify_tree identity' digest root input.instances index
  · rw [LayoutInput.setTree, List.getElem?_modify, hinst']
    exact congrArg some (if_neg hindex)
  · rw [OrdMap.get?_insert_of_ne _ _ hkey]
    exact htree'

/-! ### Successful steps -/

/-- The system of a state is that of the toolchain. -/
def Env.SystemKnown (env : Env W) (s : RunState W) : Prop :=
  ∀ identity, s.systemIdentity = some identity → env.toolchain.system = .ok identity

/-- The store has one key. -/
structure Host.HasKey (host : Host W) (storeKey : List UInt8) : Prop where
  created : ∀ w key w', host.createLifecycleKey w = .ok (key, w') → key = storeKey
  read : ∀ w key, host.lifecycleKey w = .ok key → key = storeKey

/-- What steps within one package leave alone. -/
structure Steady (env : Env W) (s s' : RunState W) : Prop where
  lock : s'.lock = s.lock
  completed : s'.completed = s.completed
  input : s'.input = s.input
  trees : s'.trees = s.trees
  system : env.SystemKnown s → env.SystemKnown s'

namespace Steady

variable {env : Env W} {s t u : RunState W}

theorem refl : Steady env s s := ⟨rfl, rfl, rfl, rfl, id⟩

theorem trans (h : Steady env s t) (h' : Steady env t u) : Steady env s u where
  lock := h'.lock.trans h.lock
  completed := h'.completed.trans h.completed
  input := h'.input.trans h.input
  trees := h'.trees.trans h.trees
  system := fun hs => h'.system (h.system hs)

theorem onWorld {α : Type} {f : W → Except ScriptError (α × W)} {a : α}
    (h : onWorld f s = .ok a t) : Steady env s t ∧ ∃ w, f s.world = .ok (a, w) := by
  rw [DependencyScripts.onWorld, update_ok, map_eq_ok] at h
  obtain ⟨⟨b, w⟩, hf, heq⟩ := h
  obtain ⟨rfl, rfl⟩ := Prod.mk.inj heq
  exact ⟨⟨rfl, rfl, rfl, rfl, id⟩, w, hf⟩

theorem onWorld_ {f : W → Except ScriptError W} (h : onWorld_ f s = .ok () t) : Steady env s t :=
  (Steady.onWorld h).1

theorem observe {α : Type} {f : W → Except ScriptError α} {a : α} (h : observe f s = .ok a t) :
    s = t ∧ f s.world = .ok a := by
  replace h := get_bind_ok.mp h
  obtain ⟨hf, rfl⟩ := lift_ok.mp h
  exact ⟨rfl, hf⟩

theorem record {e : Event W} (h : record e s = .ok () t) : Steady env s t := by
  obtain rfl := modify_ok.mp h
  exact ⟨rfl, rfl, rfl, rfl, id⟩

theorem openStage {p : PackageState} {stage : Path} (h : env.openStage p s = .ok stage t) :
    Steady env s t := by
  rw [Env.openStage] at h
  cases hp : p.stage with
  | some stage =>
    rw [hp] at h
    obtain ⟨_, rfl⟩ := pure_ok.mp h
    exact refl
  | none =>
    rw [hp] at h
    exact (Steady.onWorld h).1

theorem systemIdentity {identity : String} (h : env.systemIdentity s = .ok identity t)
    (hs : env.SystemKnown s) : Steady env s t ∧ env.toolchain.system = .ok identity := by
  replace h := get_bind_ok.mp h
  cases hsystem : s.systemIdentity with
  | some known =>
    rw [hsystem] at h
    obtain ⟨rfl, rfl⟩ := pure_ok.mp h
    exact ⟨refl, hs _ hsystem⟩
  | none =>
    rw [hsystem] at h
    obtain ⟨found, hfound, h⟩ := lift_bind_ok.mp h
    replace h := modify_bind_ok.mp h
    obtain ⟨rfl, rfl⟩ := pure_ok.mp h
    exact ⟨⟨rfl, rfl, rfl, rfl, fun _ _ hx => Option.some_inj.mp hx ▸ hfound⟩, hfound⟩

theorem runHook {key hook script : String} {stage : Path} {approval : DependencyLifecycleApproval}
    {withoutContainment implicitNodeGyp : Bool} {call : HookCall}
    (h : env.runHook key hook stage approval script withoutContainment implicitNodeGyp s = .ok call t) :
    Steady env s t := by
  replace h := get_bind_ok.mp h
  obtain ⟨_, _, hrecord, h⟩ := bind_ok.mp h
  obtain ⟨_, _, hrun, h⟩ := bind_ok.mp h
  obtain ⟨_, rfl⟩ := pure_ok.mp h
  exact (record hrecord).trans (onWorld_ hrun)

theorem stageReused {r : Reuse W} {path : Path} (h : env.stageReused r s = .ok path t) : Steady env s t := by
  rw [Env.stageReused] at h
  by_cases honline : env.online = true
  · rw [if_pos honline] at h
    obtain ⟨_, _, h⟩ := lift_bind_ok.mp h
    exact (onWorld h).1
  · rw [if_neg honline] at h
    obtain ⟨_, rfl⟩ := pure_ok.mp h
    exact refl

end Steady

section Steps

variable {env : Env W} {storeKey : List UInt8} {s s' : RunState W}

/-- Reusing an output appends it. -/
theorem reuseOutput_ok {r : Reuse W} {p p' : PackageState} (h : env.reuseOutput r p s = .ok p' s') :
    p'.outputs = p.outputs ++ [r.output] ∧ p'.bypassed = p.bypassed ∧ Steady env s s' := by
  obtain ⟨path, s₁, hstage, h⟩ := bind_ok.mp h
  obtain ⟨_, s₂, hmodify, h⟩ := bind_ok.mp h
  obtain ⟨_, s₃, hrecord, h⟩ := bind_ok.mp h
  obtain ⟨rfl, rfl⟩ := pure_ok.mp h
  have hkept : Steady env s₁ s₂ := by
    obtain rfl := modify_ok.mp hmodify
    exact ⟨rfl, rfl, rfl, rfl, id⟩
  exact ⟨rfl, rfl, (Steady.stageReused hstage).trans (hkept.trans (Steady.record hrecord))⟩

/-- **A hook that was run** has an output that the store authenticates. -/
theorem executeHook_ok (hkey : env.host.HasKey storeKey) {key hook script recipe : String}
    {package : LockedPackage} {approval : DependencyLifecycleApproval} {p p' : PackageState}
    (h : env.executeHook key package hook script recipe approval p s = .ok p' s') :
    ∃ output : DerivedHookOutput, output.hook = hook ∧ output.key = recipe ∧
      env.Attested storeKey output ∧ p'.outputs = p.outputs ++ [output] ∧ p'.bypassed = p.bypassed ∧
      Steady env s s' := by
  obtain ⟨_, _, h⟩ := lift_bind_ok.mp h
  obtain ⟨stage, s₁, hopen, h⟩ := bind_ok.mp h
  obtain ⟨_, s₂, hcopy, h⟩ := bind_ok.mp h
  obtain ⟨call, s₃, hrun, h⟩ := bind_ok.mp h
  obtain ⟨_, _, hvalidate, h⟩ := bind_ok.mp h
  obtain ⟨rfl, _⟩ := Steady.observe hvalidate
  obtain ⟨digest, _, hdigest, h⟩ := bind_ok.mp h
  obtain ⟨rfl, _⟩ := Steady.observe hdigest
  obtain ⟨tree, htree, h⟩ := lift_bind_ok.mp h
  obtain ⟨staged, s₄, hstage, h⟩ := bind_ok.mp h
  obtain ⟨recipeDigest, hrecipe, h⟩ := lift_bind_ok.mp h
  obtain ⟨text, s₅, hattest, h⟩ := bind_ok.mp h
  obtain ⟨output, houtput, h⟩ := lift_bind_ok.mp h
  obtain ⟨_, s₆, hrecord, h⟩ := bind_ok.mp h
  obtain ⟨rfl, rfl⟩ := pure_ok.mp h
  obtain ⟨rfl, _⟩ := newOutput_eq_ok houtput
  obtain ⟨hsteady, w, hw⟩ : Steady env s₄ s₅ ∧ _ := Steady.onWorld hattest
  have htext : text = attestation env.hmac storeKey recipeDigest tree := by
    obtain ⟨⟨created, w'⟩, hcreated, hw⟩ := bind_eq_ok.mp hw
    obtain ⟨rfl, _⟩ := Prod.mk.inj (pure_eq_ok.mp hw)
    rw [hkey.created _ _ _ hcreated]
  refine ⟨⟨text, hook, recipe, digest⟩, rfl, rfl, ⟨recipeDigest, tree, hrecipe, htree, ?_⟩, rfl, rfl, ?_⟩
  · rw [htext]
    exact verifyAttestation_attestation env.hmac storeKey recipeDigest tree
  · exact (Steady.openStage hopen).trans ((Steady.onWorld_ hcopy).trans ((Steady.runHook hrun).trans
      ((Steady.onWorld hstage).1.trans (hsteady.trans (Steady.record hrecord)))))

/-- **An approved hook** leaves an authenticated output under its recipe. -/
theorem deriveOutput_ok (hkey : env.host.HasKey storeKey) {sourceGraph : String} {cached : Option Lockfile}
    {key hook script : String} {package : LockedPackage} {approval : DependencyLifecycleApproval}
    {p p' : PackageState} (hs : env.SystemKnown s)
    (h : env.deriveOutput sourceGraph cached key package hook script approval p s = .ok p' s') :
    ∃ output : DerivedHookOutput, output.hook = hook ∧
      env.IsRecipe sourceGraph s.completed p.outputs approval output.key ∧
      env.Attested storeKey output ∧ p'.outputs = p.outputs ++ [output] ∧ p'.bypassed = p.bypassed ∧
      Steady env s s' := by
  obtain ⟨system, s₁, hsystem, h⟩ := bind_ok.mp h
  obtain ⟨hsteady, hsystem⟩ := Steady.systemIdentity hsystem hs
  obtain ⟨toolchain, htool, h⟩ := lift_bind_ok.mp h
  replace h := get_bind_ok.mp h
  obtain ⟨found, hfound, h⟩ := lift_bind_ok.mp h
  have hrecipe : env.IsRecipe sourceGraph s.completed p.outputs approval
      (env.policy.derivedKey env.sha256Hex approval toolchain
        (env.graphText sourceGraph s₁.completed p.outputs)) :=
    ⟨system, toolchain, hsystem, htool, by rw [hsteady.completed]⟩
  cases found with
  | none =>
    obtain ⟨output, hhook, hout, hattested, houtputs, hbypassed, hsteady'⟩ := executeHook_ok hkey h
    exact ⟨output, hhook, hout ▸ hrecipe, hattested, houtputs, hbypassed, hsteady.trans hsteady'⟩
  | some found =>
    obtain ⟨_, hhook, hout, digest, tree, hdigest, htree, hsnapshot⟩ := reusable_eq_some hfound
    obtain ⟨houtputs, hbypassed, hsteady'⟩ := reuseOutput_ok h
    obtain ⟨read, hread, hsnapshot⟩ := bind_eq_ok.mp hsnapshot
    obtain ⟨_, hverify, _⟩ := bind_eq_ok.mp hsnapshot
    rw [hkey.read _ _ hread] at hverify
    exact ⟨found.1, hhook, hout ▸ hrecipe, ⟨digest, tree, hout ▸ hdigest, htree, hverify⟩, houtputs,
      hbypassed, hsteady.trans hsteady'⟩

/-- **The approval of a hook**, without overrides. -/
theorem authorize_ok {online : Bool} {package : LockedPackage} {requiresInstall : Bool} {hook script : String}
    {found : Option (DependencyLifecycleApproval × Bool)} :
    (env.mode online).authorize package requiresInstall hook script s = .ok found s' ↔ s = s' ∧
      ((∃ approval, found = some (approval, true) ∧ env.policy.approvalFor env.sha256Hex package.name
          package.version package.artifactIntegrity hook script = .ok (some approval)) ∨
        (found = none ∧ env.Unapproved package (hook, script) ∧
          ¬ (requiresInstall = true ∧ hook = "install"))) := by
  have hselect : ∀ selected, (env.mode online).select package hook script = .ok selected ↔
      env.policy.approvalFor env.sha256Hex package.name package.version package.artifactIntegrity hook script =
        .ok selected := fun selected => by
    show (Except.mapError _ _ = _) ↔ _
    rw [mapError_eq_ok]
    exact Iff.rfl
  rw [Env.authorize, bind_ok]
  constructor
  · rintro ⟨selected, _, hlift, h⟩
    obtain ⟨hselected, rfl⟩ := lift_ok.mp hlift
    rw [hselect] at hselected
    cases selected with
    | some approval =>
      obtain ⟨rfl, rfl⟩ := pure_ok.mp h
      exact ⟨rfl, Or.inl ⟨approval, rfl, hselected⟩⟩
    | none =>
      obtain ⟨_, hrequired, h⟩ := lift_bind_ok.mp (show (lift _ >>= fun _ => pure none : ScriptM W _) s = _ from h)
      obtain ⟨rfl, rfl⟩ := pure_ok.mp h
      exact ⟨rfl, Or.inr ⟨rfl, hselected, rejectIf_eq_ok.mp hrequired⟩⟩
  · rintro ⟨rfl, ⟨approval, rfl, hfound⟩ | ⟨rfl, hfound, hrequired⟩⟩
    · exact ⟨some approval, s, lift_ok.mpr ⟨(hselect _).mpr hfound, rfl⟩, pure_ok.mpr ⟨rfl, rfl⟩⟩
    · refine ⟨none, s, lift_ok.mpr ⟨(hselect _).mpr hfound, rfl⟩, ?_⟩
      show (lift _ >>= fun _ => pure none : ScriptM W _) s = _
      exact bind_ok.mpr ⟨(), s, lift_ok.mpr ⟨rejectIf_eq_ok.mpr hrequired, rfl⟩, pure_ok.mpr ⟨rfl, rfl⟩⟩

/-- **One hook extends the derivation.** -/
theorem processHook_ok {online : Bool} (hkey : env.host.HasKey storeKey) {sourceGraph : String}
    {cached : Option Lockfile} {key : String} {package : LockedPackage} {requiresInstall : Bool}
    {done : List (String × String)} {command : String × String} {p p' : PackageState}
    (hs : env.SystemKnown s) (hp : p.bypassed = false)
    (hderived : Derived env storeKey sourceGraph s.completed package.withoutHooks requiresInstall done p.outputs)
    (h : (env.mode online).processHook sourceGraph cached key package requiresInstall p command s = .ok p' s') :
    Derived env storeKey sourceGraph s.completed package.withoutHooks requiresInstall (done ++ [command])
      p'.outputs ∧ p'.bypassed = false ∧ Steady env s s' := by
  obtain ⟨found, _, hauthorize, h⟩ := bind_ok.mp h
  obtain ⟨rfl, ⟨approval, rfl, hfound⟩ | ⟨rfl, hfound, hrequired⟩⟩ := authorize_ok.mp hauthorize
  · obtain ⟨_, hdeclared, h⟩ := lift_bind_ok.mp h
    rw [rejectIf_eq_ok, not_not] at hdeclared
    have hstore : (env.mode online).host.HasKey storeKey := hkey
    obtain ⟨output, hhook, hrecipe, hattested, houtputs, hbypassed, hsteady⟩ := deriveOutput_ok hstore hs h
    rw [houtputs]
    exact ⟨hderived.derive hfound hdeclared hhook hrecipe hattested, hbypassed.trans hp,
      hsteady.lock, hsteady.completed, hsteady.input, hsteady.trees, hsteady.system⟩
  · obtain ⟨rfl, rfl⟩ := pure_ok.mp h
    exact ⟨hderived.skip hfound hrequired, hp, Steady.refl⟩

/-- **The hooks of a package.** -/
theorem processHooks_ok {online : Bool} (hkey : env.host.HasKey storeKey) {sourceGraph : String}
    {cached : Option Lockfile} {key : String} {package : LockedPackage} {requiresInstall : Bool}
    {commands done : List (String × String)} {p p' : PackageState}
    (hs : env.SystemKnown s) (hp : p.bypassed = false)
    (hderived : Derived env storeKey sourceGraph s.completed package.withoutHooks requiresInstall done p.outputs)
    (h : commands.foldlM ((env.mode online).processHook sourceGraph cached key package requiresInstall) p s =
      .ok p' s') :
    Derived env storeKey sourceGraph s.completed package.withoutHooks requiresInstall (done ++ commands)
      p'.outputs ∧ p'.bypassed = false ∧ Steady env s s' := by
  induction commands generalizing s p done with
  | nil =>
    obtain ⟨rfl, rfl⟩ := pure_ok.mp h
    rw [List.append_nil]
    exact ⟨hderived, hp, Steady.refl⟩
  | cons command commands ih =>
    obtain ⟨q, t, hstep, h⟩ := foldlM_cons_ok.mp h
    obtain ⟨hderived, hq, hsteady⟩ := processHook_ok hkey hs hp hderived hstep
    rw [← hsteady.completed] at hderived
    obtain ⟨hderived, hp', hsteady'⟩ := ih (hsteady.system hs) hq hderived h
    rw [hsteady.completed, List.append_assoc, List.singleton_append] at hderived
    exact ⟨hderived, hp', hsteady.trans hsteady'⟩

end Steps

/-! ### Successful runs -/

/-- A lockfile with outputs recorded in it. -/
structure Records (lock : Lockfile) (completed : OrdMap String (List DerivedHookOutput)) (lock' : Lockfile) :
    Prop where
  entries : SameEntries lock lock'
  others : { lock' with lockfileVersion := lock.lockfileVersion, packages := lock.packages } = lock
  recorded : ∀ key outputs, completed.get? key = some outputs →
    (lock'.packages.get? key).map LockedPackage.derivedHooks = some outputs
  version : (lock'.lockfileVersion = lock.lockfileVersion ∧
      ∀ key outputs, completed.get? key = some outputs → outputs = []) ∨
    (lock'.lockfileVersion = max lock.lockfileVersion Schema.lifecycleLockfileVersion ∧
      ∃ key outputs, completed.get? key = some outputs ∧ outputs ≠ [])

theorem Records.refl (lock : Lockfile) : Records lock ∅ lock where
  entries _ := rfl
  others := rfl
  recorded key outputs h := by simp at h
  version := Or.inl ⟨rfl, fun key outputs h => by simp at h⟩

/-- Recording the outputs of one more package. -/
theorem Records.insert {lock lock' : Lockfile} {completed : OrdMap String (List DerivedHookOutput)}
    (h : Records lock completed lock') {key : String} {package : LockedPackage}
    (hpackage : lock'.packages.get? key = some package) (hkey : completed.get? key = none)
    (outputs : List DerivedHookOutput) :
    Records lock (completed.insert key outputs) (lock'.withDerivedHooks key package outputs) where
  entries := h.entries.withDerivedHooks hpackage outputs
  others := h.others
  recorded k outs hget := by
    rw [OrdMap.get?_insert] at hget
    rw [Lockfile.withDerivedHooks, OrdMap.get?_insert]
    split_ifs at hget ⊢ with hk
    · exact hget
    · exact h.recorded k outs hget
  version := by
    have hmono : ∀ k outs, completed.get? k = some outs → (completed.insert key outputs).get? k = some outs := by
      intro k outs hget
      rw [OrdMap.get?_insert_of_ne, hget]
      rintro rfl
      rw [hkey] at hget
      cases hget
    by_cases houtputs : outputs = []
    · have hversion : (lock'.withDerivedHooks key package outputs).lockfileVersion = lock'.lockfileVersion :=
        if_neg (not_not.mpr houtputs)
      rw [hversion]
      rcases h.version with ⟨hsame, hnone⟩ | ⟨hmax, k, outs, hget, hne⟩
      · refine Or.inl ⟨hsame, fun k outs hget => ?_⟩
        rw [OrdMap.get?_insert] at hget
        split_ifs at hget with hk
        · rw [← Option.some_inj.mp hget]
          exact houtputs
        · exact hnone k outs hget
      · exact Or.inr ⟨hmax, k, outs, hmono k outs hget, hne⟩
    · have hversion : (lock'.withDerivedHooks key package outputs).lockfileVersion =
          max lock'.lockfileVersion Schema.lifecycleLockfileVersion := if_pos houtputs
      refine Or.inr ⟨?_, key, outputs, OrdMap.get?_insert_self _ _ _, houtputs⟩
      rw [hversion]
      rcases h.version with ⟨hsame, _⟩ | ⟨hmax, _⟩
      · rw [hsame]
      · rw [hmax, max_assoc, max_self]

/-- A state whose packages `done` have been derived. -/
structure Derives (env : Env W) (storeKey : List UInt8) (sourceGraph : String) (lock : Lockfile)
    (trees : OrdMap String Path) (sources : InstanceKey → Option String) (done : List String)
    (s : RunState W) : Prop where
  processed : Processed env storeKey sourceGraph lock trees sources done s.completed s.input.digestOf
  system : env.SystemKnown s
  sources : ∀ key, key ∉ done → s.trees.get? key = trees.get? key
  records : Records lock s.completed s.lock
  reachable : Lockfile.Reachable env.url env.codec lock → Lockfile.Reachable env.url env.codec s.lock

section Runs

variable {env : Env W} {storeKey : List UInt8} {s s' : RunState W}

/-- Other entries than one keep their trees and their places. -/
structure SamePlaces (key : String) (identity : InstanceKey) (s s' : RunState W) : Prop where
  trees : ∀ other, other ≠ key → s'.trees.get? other = s.trees.get? other
  places : ∀ other identity' place, other ≠ key → identity' ≠ identity →
    Env.indexOf s.input s.trees other identity' = some place →
      Env.indexOf s'.input s'.trees other identity' = some place

/-- The last output becomes the tree of its package. -/
theorem substituteResult_ok {key : String} {identity : InstanceKey} {index : Nat} {path : Path}
    {p : PackageState} (hp : p.bypassed = false)
    (hindex : Env.indexOf s.input s.trees key identity = some (index, path))
    (h : env.substituteResult key index p s = .ok () s') :
    redirected s.input.digestOf identity p.outputs = .ok s'.input.digestOf ∧
      SamePlaces key identity s s' ∧
      s'.lock = s.lock ∧ s'.completed = s.completed ∧ s'.systemIdentity = s.systemIdentity := by
  rw [Env.substituteResult, if_neg (by rw [hp]; exact Bool.false_ne_true)] at h
  rw [redirected]
  cases hlast : p.outputs.getLast? with
  | none =>
    rw [hlast] at h
    obtain ⟨_, rfl⟩ := pure_ok.mp h
    exact ⟨rfl, ⟨fun _ _ => rfl, fun _ _ _ _ _ h => h⟩, rfl, rfl, rfl⟩
  | some output =>
    rw [hlast] at h
    obtain ⟨digest, hdigest, h⟩ := lift_bind_ok.mp h
    replace h := modify_bind_ok.mp h
    obtain rfl := modify_ok.mp h
    refine ⟨bind_eq_ok.mpr ⟨digest, hdigest, pure_eq_ok.mpr ?_⟩,
      ⟨fun other hne => ?_, fun other identity' place hne hidentity h => ?_⟩, rfl, rfl, rfl⟩
    · exact (digestOf_setTree hindex digest p.current).symm
    · exact OrdMap.get?_insert_of_ne _ _ hne
    · exact indexOf_setTree hindex h hne hidentity digest p.current

/-- **The outputs of a package are recorded** and its tree is substituted. -/
theorem finishPackage_ok {online : Bool} {cached : Option Lockfile} {key : String} {identity : InstanceKey}
    {index : Nat} {path : Path} {p : PackageState} (hp : p.bypassed = false)
    (hindex : Env.indexOf s.input s.trees key identity = some (index, path))
    (h : (env.mode online).finishPackage cached key index p s = .ok () s') :
    validateDerivedHooks p.outputs = .ok () ∧
      redirected s.input.digestOf identity p.outputs = .ok s'.input.digestOf ∧
      SamePlaces key identity s s' ∧
      (∃ package, s.lock.packages.get? key = some package ∧
        s'.lock = s.lock.withDerivedHooks key package p.outputs) ∧
      s'.completed = s.completed.insert key p.outputs ∧ s'.systemIdentity = s.systemIdentity := by
  obtain ⟨_, _, h⟩ := lift_bind_ok.mp h
  obtain ⟨_, s₁, hsubstitute, h⟩ := bind_ok.mp h
  obtain ⟨hredirected, hplaces, hlock, hcompleted, hsystem⟩ := substituteResult_ok hp hindex hsubstitute
  obtain ⟨_, s₂, hset, h⟩ := bind_ok.mp h
  obtain rfl := modify_ok.mp h
  rw [Env.setDerivedHooks] at hset
  cases hrecord : Lockfile.setDerivedHooks key p.outputs s₁.lock with
  | error e lock =>
    rw [hrecord] at hset
    cases hset
  | ok u lock =>
    rw [hrecord] at hset
    obtain ⟨_, rfl⟩ := EStateM.Result.ok.inj hset
    obtain ⟨hvalid, package, hpackage, rfl⟩ := Lockfile.setDerivedHooks_eq_ok.mp hrecord
    rw [hlock] at hpackage
    refine ⟨hvalid, hredirected, ⟨hplaces.trees, hplaces.places⟩, ⟨package, hpackage, ?_⟩, ?_, hsystem⟩
    · show s₁.lock.withDerivedHooks key package p.outputs = _
      rw [hlock]
    · show s₁.completed.insert key p.outputs = _
      rw [hcompleted]

/-- **One package.** -/
theorem processPackage_ok {online : Bool} (hstore : env.host.HasKey storeKey) {sourceGraph : String}
    {cached : Option Lockfile} {lock : Lockfile} {trees : OrdMap String Path}
    {sources : InstanceKey → Option String} {done : List String} {key : String} (hkey : key ∉ done)
    (hs : Derives env storeKey sourceGraph lock trees sources done s)
    (h : (env.mode online).processPackage sourceGraph cached () key s = .ok () s') :
    Derives env storeKey sourceGraph lock trees sources (done ++ [key]) s' := by
  replace h := get_bind_ok.mp h
  obtain ⟨package, hpackage, h⟩ := lift_bind_ok.mp h
  rw [orError_eq_ok] at hpackage
  obtain ⟨identity, hidentity, h⟩ := lift_bind_ok.mp h
  obtain ⟨⟨index, source⟩, hindex, h⟩ := lift_bind_ok.mp h
  rw [orError_eq_ok] at hindex
  obtain ⟨plan, hplan, h⟩ := lift_bind_ok.mp h
  obtain ⟨p, s₁, hhooks, h⟩ := bind_ok.mp h
  obtain ⟨hderived, hp, hsteady⟩ := processHooks_ok hstore hs.system rfl Derived.nil hhooks
  rw [List.nil_append] at hderived
  rw [← hsteady.input, ← hsteady.trees] at hindex
  obtain ⟨hvalid, hredirected, hplaces, ⟨package', hpackage', hlock⟩, hcompleted, hsystem⟩ :=
    finishPackage_ok hp hindex h
  rw [hsteady.lock] at hpackage' hlock
  rw [hsteady.completed] at hcompleted
  rw [hsteady.input] at hredirected
  have hnone : s.completed.get? key = none := by
    rw [← Option.not_isSome_iff_eq_none]
    exact fun hsome => hkey ((hs.processed.contains_iff key).mp hsome)
  refine {
    processed := ?_
    system := fun i hi => hsteady.system hs.system i (hsystem ▸ hi)
    sources := fun other hother => ?_
    records := ?_
    reachable := fun hreach => ?_ }
  · rw [hcompleted]
    have hentry : (lock.packages.get? key).map LockedPackage.withoutHooks = some package.withoutHooks := by
      rw [← hs.records.entries key, hpackage]
      rfl
    have htree : trees.get? key = some source := by
      obtain ⟨_, inst, _, htree, _⟩ := indexOf_eq_some.mp hindex
      rw [← hs.sources key hkey, ← hsteady.trees]
      exact htree
    exact hs.processed.snoc hkey hentry hidentity ⟨s.world, source, htree, hplan⟩ hderived hvalid hredirected
  · rw [List.mem_append, List.mem_singleton, not_or] at hother
    rw [hplaces.trees other hother.2, hsteady.trees]
    exact hs.sources other hother.1
  · rw [hcompleted, hlock]
    exact hs.records.insert hpackage' hnone p.outputs
  · rw [hlock]
    refine (hs.reachable hreach).checked (.setDerivedHooks key p.outputs) ?_
    simp only [Lockfile.Mutation.checked, hvalid, hpackage', orError, ok_bind]
    rfl

/-- **A successful run is a derivation** of what it recorded and substituted. -/
theorem apply_ok {online : Bool} (hstore : env.host.HasKey storeKey) {world : W} {lock : Lockfile}
    {input : LayoutInput} {trees : OrdMap String Path}
    (h : (env.mode online).apply (.initial world lock input trees) = .ok () s') :
    ∃ sourceGraph order, lock.sourceGraph.toJson env.url env.codec = .ok sourceGraph ∧
      (env.mode online).order lock = .ok order ∧
      Derives env storeKey sourceGraph lock trees input.digestOf order s' := by
  replace h := get_bind_ok.mp h
  obtain ⟨sourceGraph, hgraph, h⟩ := lift_bind_ok.mp h
  rw [mapError_eq_ok] at hgraph
  obtain ⟨_, _, h⟩ := lift_bind_ok.mp h
  obtain ⟨order, horder, h⟩ := lift_bind_ok.mp h
  refine ⟨sourceGraph, order, hgraph, horder, ?_⟩
  have hnodup : order.Nodup := ((env.mode online).order_ordered horder).1
  have hstart : Derives env storeKey sourceGraph lock trees input.digestOf []
      (.initial world lock input trees) := {
    processed := Processed.nil
    system := fun _ hi => by cases hi
    sources := fun _ _ => rfl
    records := Records.refl lock
    reachable := id }
  -- the loop over the packages of the order
  refine (Triple.foldlM (I := fun done _ => Derives env storeKey sourceGraph lock trees input.digestOf done)
    fun done key rest _ hsplit => Triple.of_ok fun s _ t hs hrun => ?_).ok hstart h
  have hkey : key ∉ done := by
    rw [hsplit, List.nodup_append] at hnodup
    exact fun hmem => hnodup.2.2 key hmem key List.mem_cons_self rfl
  exact processPackage_ok hstore hkey hs hrun

end Runs

end DependencyScripts

end Tapid
