/-
Replaying the hooks of a recorded lockfile.

A lockfile with recorded outputs is replayed without a store transaction: every
output is looked up under the recipe it would be derived by.  The recipe names
the text of the source graph, which is the lockfile without its outputs.  Recording
an output raises the schema version, and the source graph restores the version an
online install builds its lockfile in; from an older version it would not.

* `Records.sourceGraph` — what recording does to the source graph;
* `processPackage_run`, `processPackages_run` — recorded packages are replayed;
* `replays_of_recording` — what an online install recorded replays.
-/
import Tapid.HookDerivation
import Tapid.JsonText
import Tapid.Sha256

namespace Tapid

open Text Fallible Effect

namespace DependencyScripts

variable {W : Type}

/-! ### Lockfiles with the same entries -/

/-- The entries of a lockfile decide which keys it has. -/
theorem SameEntries.contains {lock lock' : Lockfile} (h : SameEntries lock lock') (key : String) :
    lock'.packages.contains key = lock.packages.contains key := by
  have := congrArg Option.isSome (h key)
  rwa [Option.isSome_map, Option.isSome_map] at this

/-- Without their outputs the entries are the same map. -/
theorem SameEntries.mapVal {lock lock' : Lockfile} (h : SameEntries lock lock') :
    (lock'.packages.mapVal fun _ p => p.withoutHooks) = lock.packages.mapVal fun _ p => p.withoutHooks := by
  refine OrdMap.ext_get? fun key => ?_
  rw [OrdMap.get?_mapVal, OrdMap.get?_mapVal]
  exact h key

theorem SameEntries.keys {lock lock' : Lockfile} (h : SameEntries lock lock') :
    lock'.packages.keys = lock.packages.keys := by
  rw [← OrdMap.keys_mapVal (fun _ p => LockedPackage.withoutHooks p), h.mapVal, OrdMap.keys_mapVal]

/-- The visiting order depends on the dependencies only. -/
theorem visit_congr {lock lock' : Lockfile} (h : SameEntries lock lock') (fuel : Nat) (active : List String)
    (v : Visited) (key : String) : visit lock' fuel active v key = visit lock fuel active v key := by
  induction fuel generalizing active v key with
  | zero => rfl
  | succ fuel ih =>
    have hvisit : visit lock' fuel (key :: active) = visit lock fuel (key :: active) :=
      funext fun v => funext fun child => ih (key :: active) v child
    rw [visit, visit, hvisit]
    have hentry := h key
    have hcontains : (fun child => lock'.packages.contains child) = fun child => lock.packages.contains child :=
      funext h.contains
    rw [hcontains]
    cases hget : lock.packages.get? key with
    | none =>
      rw [hget, Option.map_none, Option.map_eq_none_iff] at hentry
      rw [hentry]
    | some package =>
      rw [hget, Option.map_some, Option.map_eq_some_iff] at hentry
      obtain ⟨package', hget', heq⟩ := hentry
      have hdependencies : package'.withoutHooks.dependencies = package.withoutHooks.dependencies :=
        congrArg LockedPackage.dependencies heq
      have hdependencies : package'.dependencies = package.dependencies := hdependencies
      rw [hget']
      simp only [orError, ok_bind, hdependencies]

/-- **The processing order does not depend on outputs.** -/
theorem order_congr (env : Env W) (online : Bool) {lock lock' : Lockfile} (h : SameEntries lock lock') :
    (env.mode false).order lock' = (env.mode online).order lock := by
  have hvisit : visit lock' 1024 [] = visit lock 1024 [] :=
    funext fun v => funext fun key => visit_congr h 1024 [] v key
  have horder : dependencyOrder lock' = dependencyOrder lock := by
    rw [dependencyOrder, dependencyOrder, hvisit, h.keys]
  show (if _ then _ else _) = if _ then _ else _
  rw [horder, h.keys]
  rfl

/-- **Recorded outputs leave the source graph alone** up to its schema version. -/
theorem Records.sourceGraph {lock lock' : Lockfile} {completed : OrdMap String (List DerivedHookOutput)}
    (h : Records lock completed lock') :
    lock'.sourceGraph = { lock.sourceGraph with lockfileVersion := Lockfile.sourceVersion lock'.lockfileVersion } := by
  have hpackages : (lock'.packages.mapVal fun _ p => { p with derivedHooks := [] }) =
      lock.packages.mapVal fun _ p => { p with derivedHooks := [] } := h.entries.mapVal
  rw [Lockfile.sourceGraph, Lockfile.sourceGraph, hpackages]
  exact congrArg (fun l : Lockfile => { l with
    lockfileVersion := Lockfile.sourceVersion lock'.lockfileVersion
    packages := lock.packages.mapVal fun _ => LockedPackage.withoutHooks }) h.others

/-! ### Replaying the hooks of a package -/

/-- A recorded output whose tree is in the store. -/
def Env.Published (env : Env W) (storeKey : List UInt8) (w : W) (output : DerivedHookOutput) : Prop :=
  env.host.lifecycleKey w = .ok storeKey ∧ ∀ tree, Env.parseDigest output.treeDigest = .ok tree →
    ∃ path, env.host.verifiedTreeSnapshot w tree = .ok path

section Replay

variable {env : Env W} {storeKey : List UInt8} {s : RunState W}

theorem systemIdentity_run (hs : env.SystemKnown s) {system : String} (hsystem : env.toolchain.system = .ok system) :
    ∃ t, env.systemIdentity s = .ok system t ∧ t.world = s.world := by
  cases hknown : s.systemIdentity with
  | some identity =>
    obtain rfl := Except.ok.inj (hsystem.symm.trans (hs identity hknown))
    refine ⟨s, get_bind_ok.mpr ?_, rfl⟩
    rw [hknown]
    exact pure_ok.mpr ⟨rfl, rfl⟩
  | none =>
    refine ⟨{ s with systemIdentity := some system }, get_bind_ok.mpr ?_, rfl⟩
    rw [hknown]
    exact lift_bind_ok.mpr ⟨system, hsystem, modify_bind_ok.mpr (pure_ok.mpr ⟨rfl, rfl⟩)⟩

/-- An authenticated output is reused. -/
theorem reusable_run {w : W} {cached : Option Lockfile} {key : String} {output : DerivedHookOutput}
    (hcached : Env.cachedOutput cached key output.hook output.key = some output)
    (hattested : env.Attested storeKey output) (hpublished : env.Published storeKey w output) :
    ∃ path, env.reusable w cached key output.hook output.key = .ok (some (output, path)) := by
  obtain ⟨recipe, tree, hrecipe, htree, hverify⟩ := hattested
  obtain ⟨path, hpath⟩ := hpublished.2 tree htree
  have hsnapshot : env.verifiedLifecycleSnapshot w recipe tree output.attestation = .ok path :=
    bind_eq_ok.mpr ⟨storeKey, hpublished.1, bind_eq_ok.mpr ⟨(), hverify, hpath⟩⟩
  refine ⟨path, ?_⟩
  rw [Env.reusable, hcached]
  refine bind_eq_ok.mpr ⟨recipe, hrecipe, bind_eq_ok.mpr ⟨tree, htree, pure_eq_ok.mpr ?_⟩⟩
  rw [hsnapshot]
  rfl

/-- Offline the tree of a reused output is the snapshot itself. -/
theorem reuseOutput_run (r : Reuse W) (p : PackageState) :
    ∃ p' s', (env.mode false).reuseOutput r p s = .ok p' s' ∧ s'.world = s.world := by
  have hstage : (env.mode false).stageReused r s = .ok r.snapshot s := pure_ok.mpr ⟨rfl, rfl⟩
  exact ⟨_, _, bind_ok.mpr ⟨r.snapshot, s, hstage, modify_bind_ok.mpr (modify_bind_ok.mpr
    (pure_ok.mpr ⟨rfl, rfl⟩))⟩, rfl⟩

/-- **A recorded hook is replayed.** -/
theorem deriveOutput_run {sourceGraph : String} {cached : Option Lockfile} {key script : String}
    {package : LockedPackage} {approval : DependencyLifecycleApproval} {p : PackageState}
    {output : DerivedHookOutput} (hs : env.SystemKnown s)
    (hrecipe : env.IsRecipe sourceGraph s.completed p.outputs approval output.key)
    (hcached : Env.cachedOutput cached key output.hook output.key = some output)
    (hattested : env.Attested storeKey output) (hpublished : env.Published storeKey s.world output) :
    ∃ p' s', (env.mode false).deriveOutput sourceGraph cached key package output.hook script approval p s =
      .ok p' s' ∧ p'.outputs = p.outputs ++ [output] ∧ p'.bypassed = p.bypassed ∧ s'.world = s.world ∧
      Steady env s s' := by
  obtain ⟨system, toolchain, hsystem, htool, hkey⟩ := hrecipe
  obtain ⟨t, ht, hworld⟩ := systemIdentity_run hs hsystem
  obtain ⟨hsteady, _⟩ := Steady.systemIdentity ht hs
  rw [← hworld] at hpublished
  obtain ⟨path, hpath⟩ := reusable_run hcached hattested hpublished
  have hgraph : output.key = env.policy.derivedKey env.sha256Hex approval toolchain
      (env.graphText sourceGraph t.completed p.outputs) := by
    rw [hsteady.completed]
    exact hkey
  rw [hgraph] at hpath
  obtain ⟨p', s', hreuse, hworld'⟩ := @reuseOutput_run _ env t {
    key, package, hook := output.hook, script, approval, toolchain, lock := t.lock, completed := t.completed
    outputs := p.outputs, output, world := t.world, snapshot := path, path } p
  obtain ⟨houtputs, hbypassed, hsteady'⟩ := reuseOutput_ok hreuse
  refine ⟨p', s', ?_, houtputs, hbypassed, hworld'.trans hworld, hsteady.trans
    ⟨hsteady'.lock, hsteady'.completed, hsteady'.input, hsteady'.trees, hsteady'.system⟩⟩
  exact bind_ok.mpr ⟨system, t, ht, lift_bind_ok.mpr ⟨toolchain, htool, get_bind_ok.mpr
    (lift_bind_ok.mpr ⟨some (output, path), hpath, hreuse⟩)⟩⟩

/-- **The hooks of a package are replayed.** -/
theorem processHooks_run {sourceGraph : String} {cached : Option Lockfile} {key : String}
    {package : LockedPackage} {requiresInstall : Bool} {commands : List (String × String)}
    {outputs : List DerivedHookOutput} {p : PackageState} (hs : env.SystemKnown s)
    (hderived : Derived env storeKey sourceGraph s.completed package.withoutHooks requiresInstall commands outputs)
    (hcached : ∀ output ∈ outputs, Env.cachedOutput cached key output.hook output.key = some output)
    (hpublished : ∀ output ∈ outputs, env.Published storeKey s.world output) (hp : p.outputs = [])
    (hbypassed : p.bypassed = false) :
    ∃ p' s', commands.foldlM ((env.mode false).processHook sourceGraph cached key package requiresInstall) p s =
      .ok p' s' ∧ p'.outputs = outputs ∧ p'.bypassed = false ∧ s'.world = s.world ∧ Steady env s s' := by
  induction hderived with
  | nil => exact ⟨p, s, pure_ok.mpr ⟨rfl, rfl⟩, hp, hbypassed, rfl, Steady.refl⟩
  | @skip done outputs command _ hcommand hrequired ih =>
    obtain ⟨p', s', hrun, hout, hby, hworld, hsteady⟩ := ih hcached hpublished
    refine ⟨p', s', ?_, hout, hby, hworld, hsteady⟩
    rw [List.foldlM_append]
    refine bind_ok.mpr ⟨p', s', hrun, foldlM_cons_ok.mpr ⟨p', s', ?_, pure_ok.mpr ⟨rfl, rfl⟩⟩⟩
    exact bind_ok.mpr ⟨none, s', authorize_ok.mpr ⟨rfl, Or.inr ⟨rfl, hcommand, hrequired⟩⟩,
      pure_ok.mpr ⟨rfl, rfl⟩⟩
  | @derive done outputs command approval output _ hcommand hdeclared hhook hrecipe hattested ih =>
    obtain ⟨p', s', hrun, rfl, hby, hworld, hsteady⟩ :=
      ih (fun o ho => hcached o (List.mem_append_left _ ho)) fun o ho => hpublished o (List.mem_append_left _ ho)
    have hlast : output ∈ p'.outputs ++ [output] := List.mem_append_right _ List.mem_cons_self
    have hpub := hpublished output hlast
    rw [← hworld] at hpub
    rw [← hsteady.completed] at hrecipe
    obtain ⟨p'', s'', hstep, hout, hby', hworld', hsteady'⟩ := @deriveOutput_run _ env storeKey s' sourceGraph
      cached key command.2 package approval p' output (hsteady.system hs) hrecipe (hcached output hlast) hattested hpub
    refine ⟨p'', s'', ?_, hout, hby'.trans hby, hworld'.trans hworld, hsteady.trans hsteady'⟩
    rw [List.foldlM_append]
    refine bind_ok.mpr ⟨p', s', hrun, foldlM_cons_ok.mpr ⟨p'', s'', ?_, pure_ok.mpr ⟨rfl, rfl⟩⟩⟩
    rw [hhook] at hstep
    refine bind_ok.mpr ⟨some (approval, true), s', authorize_ok.mpr ⟨rfl, Or.inl ⟨approval, rfl, hcommand⟩⟩, ?_⟩
    exact lift_bind_ok.mpr ⟨(), rejectIf_eq_ok.mpr (not_not.mpr hdeclared), hstep⟩

/-- Recording the outputs that are recorded already. -/
theorem withDerivedHooks_self {l : Lockfile} {key : String} {package : LockedPackage}
    (hpackage : l.packages.get? key = some package)
    (hversion : package.derivedHooks ≠ [] → Schema.lifecycleLockfileVersion ≤ l.lockfileVersion) :
    l.withDerivedHooks key package package.derivedHooks = l := by
  have hpackages : l.packages.insert key package = l.packages := by
    refine OrdMap.ext_get? fun k => ?_
    rw [OrdMap.get?_insert]
    split_ifs with hk
    · rw [hk, hpackage]
    · rfl
  have hversion' : (if package.derivedHooks ≠ [] then max l.lockfileVersion Schema.lifecycleLockfileVersion
      else l.lockfileVersion) = l.lockfileVersion := by
    split_ifs with hne
    · exact max_eq_left (hversion hne)
    · rfl
  rw [Lockfile.withDerivedHooks, hversion']
  show ({ l with packages := l.packages.insert key package } : Lockfile) = l
  rw [hpackages]

/-- The last output becomes the tree of its package offline too. -/
theorem substituteResult_run {key : String} {identity : InstanceKey} {index : Nat} {p : PackageState}
    {digests digests' : InstanceKey → Option String} (hp : p.bypassed = false)
    (h : redirected digests identity p.outputs = .ok digests') :
    ∃ s', env.substituteResult key index p s = .ok () s' ∧ s'.world = s.world ∧ s'.lock = s.lock := by
  rw [Env.substituteResult, if_neg (by rw [hp]; exact Bool.false_ne_true)]
  rw [redirected] at h
  cases hlast : p.outputs.getLast? with
  | none => exact ⟨s, pure_ok.mpr ⟨rfl, rfl⟩, rfl, rfl⟩
  | some output =>
    rw [hlast] at h
    obtain ⟨digest, hdigest, _⟩ := bind_eq_ok.mp h
    exact ⟨_, lift_bind_ok.mpr ⟨digest, hdigest, modify_bind_ok.mpr (modify_ok.mpr rfl)⟩, rfl, rfl⟩

/-- **Recorded outputs are recorded again.** -/
theorem finishPackage_run {online : Bool} {cached : Option Lockfile} {key : String} {identity : InstanceKey}
    {index : Nat} {p : PackageState} {package : LockedPackage} {digests digests' : InstanceKey → Option String}
    (hp : p.bypassed = false)
    (hcached : online = false →
      ((cached.bind fun l => l.packages.get? key).map LockedPackage.derivedHooks) = some p.outputs)
    (hpackage : s.lock.packages.get? key = some package) (hvalid : validateDerivedHooks p.outputs = .ok ())
    (hdigests : redirected digests identity p.outputs = .ok digests') :
    ∃ s', (env.mode online).finishPackage cached key index p s = .ok () s' ∧ s'.world = s.world := by
  obtain ⟨t, ht, hworld, hlock⟩ := @substituteResult_run _ (env.mode online) s key identity index p _ _ hp hdigests
  have hset : Lockfile.setDerivedHooks key p.outputs t.lock =
      .ok () (s.lock.withDerivedHooks key package p.outputs) := by
    rw [hlock]
    exact Lockfile.setDerivedHooks_eq_ok.mpr ⟨hvalid, package, hpackage, rfl⟩
  have hrecord : Env.setDerivedHooks key p.outputs t =
      .ok () { t with lock := s.lock.withDerivedHooks key package p.outputs } := by
    rw [Env.setDerivedHooks, hset]
  refine ⟨_, lift_bind_ok.mpr ⟨(), rejectIf_eq_ok.mpr fun h => h.2 (hcached h.1), bind_ok.mpr ⟨(), t, ht,
    bind_ok.mpr ⟨(), _, hrecord, modify_ok.mpr rfl⟩⟩⟩, hworld⟩

end Replay

/-! ### Replaying a lockfile -/

/-- A layout in which every entry of a lockfile has an instance of its own. -/
structure Laid (env : Env W) (lock : Lockfile) (input : LayoutInput) (trees : OrdMap String Path) : Prop where
  nodup : (input.instances.map InstalledInstance.key).Nodup
  placed : ∀ key identity, lock.packages.contains key = true → env.identityOf key = .ok identity →
    ∃ place, Env.indexOf input trees key identity = some place
  distinct : ∀ key key' identity, lock.packages.contains key = true → lock.packages.contains key' = true →
    env.identityOf key = .ok identity → env.identityOf key' = .ok identity → key = key'

/-- The source trees of two layouts have the same manifests at all times. -/
def Host.SameSources (host : Host W) (trees trees' : OrdMap String Path) : Prop :=
  ∀ w w' key path path', trees.get? key = some path → trees'.get? key = some path' →
    host.manifest w path = host.manifest w' path'

/-- A replay between two packages. -/
structure Replaying (env : Env W) (world : W) (lock : Lockfile) (trees : OrdMap String Path)
    (done : List String) (completed : OrdMap String (List DerivedHookOutput))
    (digests : InstanceKey → Option String) (s : RunState W) : Prop where
  sameWorld : s.world = world
  sameLock : s.lock = lock
  sameCompleted : s.completed = completed
  sameDigests : s.input.digestOf = digests
  system : env.SystemKnown s
  sources : ∀ key, key ∉ done → s.trees.get? key = trees.get? key
  placed : ∀ key identity, key ∉ done → lock.packages.contains key = true → env.identityOf key = .ok identity →
    ∃ place, Env.indexOf s.input s.trees key identity = some place

/-- A recorded output is found by its hook and recipe. -/
theorem cachedOutput_of_mem {lock : Lockfile} {key : String} {package : LockedPackage}
    (hpackage : lock.packages.get? key = some package)
    (hvalid : validateDerivedHooks package.derivedHooks = .ok ()) {output : DerivedHookOutput}
    (hmem : output ∈ package.derivedHooks) :
    Env.cachedOutput (some lock) key output.hook output.key = some output := by
  have hpairwise := (pairwise_of_checkDerivedHooks hvalid).2
  rw [Env.cachedOutput, Option.bind_some, hpackage, Option.bind_some]
  generalize package.derivedHooks = outputs at hmem hpairwise
  induction outputs with
  | nil => exact absurd hmem List.not_mem_nil
  | cons o outputs ih =>
    obtain ⟨hhead, htail⟩ := List.pairwise_cons.mp hpairwise
    rcases List.mem_cons.mp hmem with rfl | hmem
    · exact List.find?_cons_of_pos (by rw [beq_self_eq_true, beq_self_eq_true]; rfl)
    · have hne : (o.hook == output.hook && o.key == output.key) = false := by
        rw [Bool.and_eq_false_iff, beq_eq_false_iff_ne]
        exact Or.inl (hhead output hmem)
      rw [List.find?_cons, hne]
      exact ih hmem htail

section Replay

variable {env : Env W} {storeKey : List UInt8} {s : RunState W}

theorem discover_congr {package : LockedPackage} {w w' : W} {path path' : Path}
    (h : env.host.manifest w path = env.host.manifest w' path') :
    env.discover package w path = env.discover package w' path' := by
  rw [Env.discover, Env.discover, Env.commands, Env.commands, h]

/-- **One package is replayed.** -/
theorem processPackage_run {sourceGraph : String} {world : W} {lock : Lockfile} {trees trees' : OrdMap String Path}
    {done : List String} {completed : OrdMap String (List DerivedHookOutput)}
    {digests digests' : InstanceKey → Option String} {key : String} {package : LockedPackage}
    {identity : InstanceKey} {plan : DependencyLifecyclePlan}
    (hs : Replaying env world lock trees' done completed digests s) (hkey : key ∉ done)
    (hdistinct : ∀ other identity, lock.packages.contains other = true → other ≠ key →
      env.identityOf key = .ok identity → env.identityOf other ≠ .ok identity)
    (hsources : env.host.SameSources trees trees')
    (hpackage : lock.packages.get? key = some package)
    (hversion : package.derivedHooks ≠ [] → Schema.lifecycleLockfileVersion ≤ lock.lockfileVersion)
    (hidentity : env.identityOf key = .ok identity)
    (hplan : env.Discovers trees key package.withoutHooks plan)
    (hderived : Derived env storeKey sourceGraph completed package.withoutHooks plan.implicitInstall plan.commands
      package.derivedHooks)
    (hvalid : validateDerivedHooks package.derivedHooks = .ok ())
    (hdigests : redirected digests identity package.derivedHooks = .ok digests')
    (hpublished : ∀ output ∈ package.derivedHooks, env.Published storeKey world output) :
    ∃ s', (env.mode false).processPackage sourceGraph (some lock) () key s = .ok () s' ∧
      Replaying env world lock trees' (done ++ [key]) (completed.insert key package.derivedHooks) digests' s' := by
  obtain ⟨rfl, rfl, rfl, rfl, hsystem, htrees, hplaced⟩ := hs
  have hcontains : s.lock.packages.contains key = true := by
    rw [OrdMap.contains, hpackage]
    rfl
  obtain ⟨⟨index, source⟩, hindex⟩ := hplaced key identity hkey hcontains hidentity
  obtain ⟨_, inst, _, htree, _⟩ := indexOf_eq_some.mp hindex
  rw [htrees key hkey] at htree
  -- the manifest is the one the hooks were recorded from
  have hdiscover : (env.mode false).discover package s.world source = .ok plan := by
    obtain ⟨w, path, hpath, hplan⟩ := hplan
    have hsame := @discover_congr _ env.withoutOverrides package _ _ _ _
      (hsources w s.world key path source hpath htree)
    exact hsame.symm.trans hplan
  obtain ⟨p, t, hhooks, houtputs, hbypassed, hworld, hsteady⟩ := @processHooks_run _ env storeKey s sourceGraph
    (some s.lock) key package _ _ _ { current := source } hsystem hderived
    (fun output hmem => cachedOutput_of_mem hpackage hvalid hmem) hpublished rfl rfl
  rw [← houtputs] at hvalid hdigests
  -- what is derived again is what the lockfile has, so no output is new
  have hcached : (((some s.lock).bind fun l => l.packages.get? key).map LockedPackage.derivedHooks) =
      some p.outputs := by
    rw [Option.bind_some, hpackage, houtputs]
    rfl
  obtain ⟨s', hfinish, hworld'⟩ := @finishPackage_run _ env t false (some s.lock) key identity index p package _ _
    hbypassed (fun _ => hcached) (hsteady.lock ▸ hpackage) hvalid hdigests
  rw [← hsteady.input, ← hsteady.trees] at hindex
  obtain ⟨_, hredirected, hplaces, ⟨package', hpackage', hlock⟩, hcompleted, hsystem'⟩ :=
    finishPackage_ok hbypassed hindex hfinish
  refine ⟨s', get_bind_ok.mpr (lift_bind_ok.mpr ⟨package, orError_eq_ok.mpr hpackage, lift_bind_ok.mpr
    ⟨identity, hidentity, lift_bind_ok.mpr ⟨(index, source), orError_eq_ok.mpr ?_, lift_bind_ok.mpr
      ⟨plan, hdiscover, bind_ok.mpr ⟨p, t, hhooks, hfinish⟩⟩⟩⟩⟩), ?_⟩
  · rw [← hsteady.input, ← hsteady.trees]
    exact hindex
  rw [hsteady.lock] at hpackage' hlock
  obtain rfl := Option.some_inj.mp (hpackage.symm.trans hpackage')
  refine {
    sameWorld := hworld'.trans hworld
    sameLock := ?_
    sameCompleted := ?_
    sameDigests := ?_
    system := fun i hi => hsteady.system hsystem i (hsystem' ▸ hi)
    sources := fun other hother => ?_
    placed := fun other identity' hother hcontains' hidentity' => ?_ }
  · rw [hlock, houtputs]
    exact withDerivedHooks_self hpackage hversion
  · rw [hcompleted, hsteady.completed, houtputs]
  · rw [hsteady.input] at hredirected
    exact Except.ok.inj (hredirected.symm.trans hdigests)
  · rw [List.mem_append, List.mem_singleton, not_or] at hother
    rw [hplaces.trees other hother.2, hsteady.trees]
    exact htrees other hother.1
  · rw [List.mem_append, List.mem_singleton, not_or] at hother
    obtain ⟨place, hplace⟩ := hplaced other identity' hother.1 hcontains' hidentity'
    rw [← hsteady.input, ← hsteady.trees] at hplace
    refine ⟨place, hplaces.places other identity' place hother.2 ?_ hplace⟩
    rintro rfl
    exact hdistinct other identity' hcontains' hother.2 hidentity hidentity'

/-- **All packages are replayed.** -/
theorem processPackages_run {sourceGraph : String} {world : W} {lock lock' : Lockfile}
    {input' : LayoutInput} {trees trees' : OrdMap String Path} {order : List String}
    {completed : OrdMap String (List DerivedHookOutput)} {sources digests : InstanceKey → Option String}
    (hprocessed : Processed env storeKey sourceGraph lock trees sources order completed digests)
    (hlaid : Laid env lock' input' trees') (hsources : env.host.SameSources trees trees')
    (hentries : SameEntries lock lock') (hdigests : input'.digestOf = sources)
    (hrecorded : ∀ key outputs, completed.get? key = some outputs →
      (lock'.packages.get? key).map LockedPackage.derivedHooks = some outputs)
    (hversion : ∀ key outputs, completed.get? key = some outputs → outputs ≠ [] →
      Schema.lifecycleLockfileVersion ≤ lock'.lockfileVersion)
    (hpublished : ∀ key outputs, completed.get? key = some outputs → ∀ output ∈ outputs,
      env.Published storeKey world output) :
    ∃ s', order.foldlM ((env.mode false).processPackage sourceGraph (some lock')) ()
        (.initial world lock' input' trees') = .ok () s' ∧
      Replaying env world lock' trees' order completed digests s' := by
  induction hprocessed with
  | nil =>
    exact ⟨_, pure_ok.mpr ⟨rfl, rfl⟩, {
      sameWorld := rfl
      sameLock := rfl
      sameCompleted := rfl
      sameDigests := hdigests
      system := fun _ hi => by cases hi
      sources := fun _ _ => rfl
      placed := fun key identity _ => hlaid.placed key identity }⟩
  | @snoc done completed digests digests' key package identity plan outputs h hkey hpackage hidentity hplan hderived
      hvalid hredirected ih =>
    have hself : (completed.insert key outputs).get? key = some outputs := OrdMap.get?_insert_self _ _ _
    have hmono : ∀ k outs, completed.get? k = some outs → (completed.insert key outputs).get? k = some outs := by
      intro k outs hget
      rw [OrdMap.get?_insert_of_ne, hget]
      rintro rfl
      refine hkey ((h.contains_iff k).mp ?_)
      rw [OrdMap.contains, hget]
      rfl
    obtain ⟨t, ht, hreplaying⟩ := ih (fun k outs hget => hrecorded k outs (hmono k outs hget))
      (fun k outs hget => hversion k outs (hmono k outs hget))
      fun k outs hget => hpublished k outs (hmono k outs hget)
    -- the entry of the recorded lockfile
    rw [← hentries key] at hpackage
    obtain ⟨entry, hentry, rfl⟩ := Option.map_eq_some_iff.mp hpackage
    obtain ⟨entry', hentry', rfl⟩ := Option.map_eq_some_iff.mp (hrecorded key outputs hself)
    obtain rfl := Option.some_inj.mp (hentry.symm.trans hentry')
    have hcontains : lock'.packages.contains key = true := by
      rw [OrdMap.contains, hentry]
      rfl
    obtain ⟨s', hs', hnext⟩ := processPackage_run hreplaying hkey
      (fun other identity' hother hne hid hid' => hne (hlaid.distinct _ _ identity' hother hcontains hid' hid))
      hsources hentry (hversion key _ hself) hidentity hplan hderived hvalid hredirected (hpublished key _ hself)
    refine ⟨s', ?_, hnext⟩
    rw [List.foldlM_append]
    exact bind_ok.mpr ⟨(), t, ht, foldlM_cons_ok.mpr ⟨(), s', hs', pure_ok.mpr ⟨rfl, rfl⟩⟩⟩

end Replay

/-! ### When a recorded lockfile replays -/

/-- The lockfiles an online install builds and hands over with its transaction: a new
one that packages, roots and root bindings were put into. -/
inductive Assembled (url : UrlParser) : Lockfile → Prop where
  | new {digest : String} {l : Lockfile} (h : Lockfile.new digest = .ok l) : Assembled url l
  | insertGraph {l : Lockfile} (packages : List LockedPackage) (members : List LockedWorkspacePackage)
    (h : Assembled url l) : Assembled url (Lockfile.leftover (Lockfile.insertGraph url packages members l))
  | setRoots {l : Lockfile} (roots : List String) (h : Assembled url l) :
    Assembled url (Lockfile.leftover (Lockfile.setRoots url roots l))
  | setRootBindings {l : Lockfile} (bindings : OrdMap String String) (h : Assembled url l) :
    Assembled url (Lockfile.leftover (Lockfile.setRootBindings url bindings l))

theorem Assembled.reachable {url : UrlParser} (codec : JsonCodec) {l : Lockfile} (h : Assembled url l) :
    Lockfile.Reachable url codec l := by
  induction h with
  | new h => exact .new h
  | insertGraph packages members _ ih => exact ih.mutate (.insertGraph packages members)
  | setRoots roots _ ih => exact ih.mutate (.setRoots roots)
  | setRootBindings bindings _ ih => exact ih.mutate (.setRootBindings bindings)

/-- **The schema of an online install** is the current one, or that of copied sources. -/
theorem Assembled.version {url : UrlParser} {l : Lockfile} (h : Assembled url l) :
    l.lockfileVersion = Schema.lockfileVersion ∨ l.lockfileVersion = Schema.copiedSourceLockfileVersion := by
  -- an operation that fails leaves the lockfile, and only a copied package changes its version
  have hmutate : ∀ (m : Lockfile.Mutation) (l : Lockfile),
      (∀ l', m.checked url l = .ok l' → l'.lockfileVersion = l.lockfileVersion ∨
        l'.lockfileVersion = Schema.copiedSourceLockfileVersion) →
      (Lockfile.leftover (m.run url l)).lockfileVersion = l.lockfileVersion ∨
        (Lockfile.leftover (m.run url l)).lockfileVersion = Schema.copiedSourceLockfileVersion := by
    intro m l hchecked
    rw [Lockfile.Mutation.run_eq]
    cases hc : m.checked url l with
    | ok l' => exact hchecked l' hc
    | error e => exact .inl rfl
  induction h with
  | new h =>
    obtain ⟨_, _, h⟩ := bind_eq_ok.mp h
    exact .inl (congrArg Lockfile.lockfileVersion (pure_eq_ok.mp h)).symm
  | @insertGraph l packages members _ ih =>
    rcases hmutate (.insertGraph packages members) l (fun l' hl' => by
      obtain ⟨_, _, rfl⟩ := map_eq_ok.mp hl'
      rw [Lockfile.withGraph]
      split_ifs
      · exact .inr rfl
      · exact .inl rfl) with hsame | hcopied
    · exact ih.imp hsame.trans hsame.trans
    · exact .inr hcopied
  | @setRoots l roots _ ih =>
    rcases hmutate (.setRoots roots) l (fun l' hl' => by
      obtain ⟨_, _, rfl⟩ := map_eq_ok.mp hl'
      exact .inl rfl) with hsame | hcopied
    · exact ih.imp hsame.trans hsame.trans
    · exact .inr hcopied
  | @setRootBindings l bindings _ ih =>
    rcases hmutate (.setRootBindings bindings) l (fun l' hl' => by
      obtain ⟨_, _, rfl⟩ := map_eq_ok.mp hl'
      exact .inl rfl) with hsame | hcopied
    · exact ih.imp hsame.trans hsame.trans
    · exact .inr hcopied

/-- An online run whose lockfile was written and read back, whose outputs are
in the store, and a layout of that lockfile to replay it in. -/
structure Recording (env : Env W) (storeKey : List UInt8) (lock : Lockfile) (input : LayoutInput)
    (trees : OrdMap String Path) (t : RunState W) (world : W) (lock' : Lockfile) (input' : LayoutInput)
    (trees' : OrdMap String Path) : Prop where
  assembled : Assembled env.url lock
  hasKey : env.host.HasKey storeKey
  applied : ∃ w, (env.mode true).apply (.initial w lock input trees) = .ok () t
  faithful : Lockfile.Faithful env.codec t.lock.toValue
  reread : ∃ text, t.lock.toJson env.url env.codec = .ok text ∧ Lockfile.fromJson env.url env.codec text = .ok lock'
  laid : Laid env lock' input' trees'
  sameDigests : input'.digestOf = input.digestOf
  sources : env.host.SameSources trees trees'
  published : ∀ key package, lock'.packages.get? key = some package → ∀ output ∈ package.derivedHooks,
    env.Published storeKey world output

/-- A run without a store transaction succeeds, runs nothing, leaves trees of
the given digests and the lockfile as it is. -/
def Replays (env : Env W) (world : W) (lock : Lockfile) (input : LayoutInput) (trees : OrdMap String Path)
    (digests : InstanceKey → Option String) : Prop :=
  ∃ t, (env.mode false).apply (.initial world lock input trees) = .ok () t ∧
    (∀ key hook call, .ran key hook call ∉ t.log) ∧ t.input.digestOf = digests ∧ t.lock = lock

section Recordings

variable {env : Env W} {storeKey : List UInt8} {lock lock' : Lockfile} {input input' : LayoutInput}
  {trees trees' : OrdMap String Path} {t : RunState W} {world : W}

/-- What was read back is what was written. -/
theorem Recording.lock_eq (h : Recording env storeKey lock input trees t world lock' input' trees') :
    t.lock = lock' := by
  obtain ⟨w, happlied⟩ := h.applied
  obtain ⟨_, _, _, _, hderives⟩ := apply_ok h.hasKey happlied
  obtain ⟨text, htext, hread⟩ := h.reread
  have hreachable := h.assembled.reachable env.codec
  exact ((hderives.reachable hreachable).stored.eq_of_fromJson h.faithful htext hread).symm

end Recordings

section Replays

variable {env : Env W} {storeKey : List UInt8} {lock lock' : Lockfile} {input input' : LayoutInput}
  {trees trees' : OrdMap String Path} {t : RunState W} {world : W}

/-- A lockfile whose schema version no recipe sees replays. -/
theorem Recording.replays (h : Recording env storeKey lock input trees t world lock' input' trees')
    (hversion : Lockfile.sourceVersion lock'.lockfileVersion = Lockfile.sourceVersion lock.lockfileVersion) :
    Replays env world lock' input' trees' t.input.digestOf := by
  have hlock := h.lock_eq
  obtain ⟨w, happlied⟩ := h.applied
  obtain ⟨sourceGraph, order, hgraph, horder, hderives⟩ := apply_ok h.hasKey happlied
  obtain ⟨hprocessed, _, _, hrecords, _⟩ := hderives
  rw [hlock] at hrecords
  have hsame : lock'.sourceGraph = lock.sourceGraph := by
    rw [hrecords.sourceGraph, hversion]
    rfl
  have hschema : ∀ key outputs, t.completed.get? key = some outputs → outputs ≠ [] →
      Schema.lifecycleLockfileVersion ≤ lock'.lockfileVersion := by
    intro key outputs hget hne
    rcases hrecords.version with ⟨_, hnone⟩ | ⟨hmax, _⟩
    · exact absurd (hnone key outputs hget) hne
    · rw [hmax]
      exact le_max_right _ _
  have hpublished : ∀ key outputs, t.completed.get? key = some outputs → ∀ output ∈ outputs,
      env.Published storeKey world output := by
    intro key outputs hget output hmem
    obtain ⟨package, hpackage, rfl⟩ := Option.map_eq_some_iff.mp (hrecords.recorded key outputs hget)
    exact h.published key package hpackage output hmem
  obtain ⟨u, hrun, hreplaying⟩ := processPackages_run hprocessed h.laid h.sources hrecords.entries h.sameDigests
    hrecords.recorded hschema hpublished
  have happly : (env.mode false).apply (.initial world lock' input' trees') = .ok () u := by
    refine get_bind_ok.mpr (lift_bind_ok.mpr ⟨sourceGraph, ?_, lift_bind_ok.mpr ⟨(), ?_,
      lift_bind_ok.mpr ⟨order, ?_, hrun⟩⟩⟩)
    · rw [mapError_eq_ok]
      show lock'.sourceGraph.toJson env.url env.codec = _
      rw [hsame]
      exact hgraph
    · exact rejectIf_eq_ok.mpr (not_not.mpr h.laid.nodup)
    · exact (order_congr env true hrecords.entries).trans horder
  have hsafe := (@apply_between _ (env.mode false) rfl (.initial world lock' input' trees') rfl rfl rfl).ok rfl happly
  exact ⟨u, happly, hsafe.safe.onlyAuthorized.offline rfl, hreplaying.sameDigests, hreplaying.sameLock⟩

/-- **What an online install recorded replays.** -/
theorem replays_of_recording (h : Recording env storeKey lock input trees t world lock' input' trees') :
    Replays env world lock' input' trees' t.input.digestOf := by
  obtain ⟨w, happlied⟩ := h.applied
  obtain ⟨sourceGraph, order, hgraph, horder, hderives⟩ := apply_ok h.hasKey happlied
  have hrecords := hderives.records
  rw [h.lock_eq] at hrecords
  refine h.replays ?_
  rcases hrecords.version with ⟨hsame, _⟩ | ⟨hmax, _⟩
  · rw [hsame]
  · rw [hmax]
    refine (Lockfile.sourceVersion_max_iff _).mpr (h.assembled.version.imp_right fun hcopied => ?_)
    rw [hcopied]
    decide

end Replays

/-! ### A sample installation -/

/-- The manifest of the sample package. -/
def sampleManifest : Json :=
  .obj [("name", .str "left-pad"), ("scripts", .obj [("postinstall", .str "node build.js")])]

def sourceTree : Path := ["store", "source"]

/-- A host whose hooks leave the tree of the sample digest. -/
def sampleHost : Host Unit where
  readLock _ := none
  manifest _ tree :=
    if tree = sourceTree then .ok (some (Lockfile.prettyJson "" sampleManifest ++ "\n", false)) else .ok none
  invocationApproval _ _ _ _ _ := .error (.host "not used")
  newStage w := .ok (["stage"], w)
  copyBuildSource w _ _ := .ok w
  runHook w _ := .ok w
  validateOutput _ _ := .ok ()
  canonicalTreeDigest _ _ := .ok Lockfile.sampleDigest
  stageVerifiedTree w tree _ := .ok (["store", tree], w)
  createLifecycleKey w := .ok (List.replicate 32 7, w)
  lifecycleKey _ := .ok (List.replicate 32 7)
  verifiedTreeSnapshot _ tree := .ok ["snapshots", tree]

/-- An approval for the hook of the sample package. -/
def sampleApproval : DependencyLifecycleApproval where
  package := "left-pad"
  version := "1.3.0"
  archiveDigest := Lockfile.sampleIntegrity
  scriptDigest := "sha256-fb06378354edd97eda7081e36e21e6a83c9a34fc02c9285fd07f5fb87f59146c"
  hook := "postinstall"
  tools := []
  dependencies := false

/-- A policy that approves the hook of the sample package. -/
def samplePolicy : DependencyLifecyclePolicy where
  digest := Lockfile.sampleDigest
  approvals := [sampleApproval]

def sampleTool : String := "sha256-caf90169eefa5f807d577486b9f795ab86ae2983c5c20806cff959117e90af18"

def sampleKey : String := Lockfile.samplePackage.key Lockfile.npmRegistry

/-- The sample lockfile in a schema version. -/
def versionedLockfile (version : Nat) : Lockfile := { Lockfile.rootedLockfile with lockfileVersion := version }

/-- The text of the source graph of a schema version. -/
def graphOf (version : Nat) : String :=
  Lockfile.prettyJson "" (versionedLockfile version).sourceGraph.toValue ++ "\n"

/-- The graph text of a first output. -/
def firstGraphText (graph : String) : String :=
  String.ofList (Json.compact (.arr [.str graph, Json.writeMap Env.outputsValue ∅, Env.outputsValue []]))

/-- The bytes a recipe of the sample is the digest of. -/
def recipeBytes (graph : String) : List UInt8 :=
  framedAll (samplePolicy.recipeTexts sampleApproval sampleTool (firstGraphText graph))

def currentHex : String := "82255f5cc7980183e58d683977e4fa9fcd0f60753c5b0be38cf5686638c5cbbb"

/-- SHA-256, with its value on the recipe given: it is long. -/
def sampleSha256 (bytes : List UInt8) : String :=
  if bytes = recipeBytes (graphOf 7) then currentHex
  else String.ofList (hexEncode (Sha256.digest bytes))

def sampleEnv (documents : List Json) : Env Unit where
  host := sampleHost
  toolchain := ⟨.ok "linux", fun _ => .ok ()⟩
  policy := samplePolicy
  overrides := {}
  online := true
  sha256Hex := sampleSha256
  hmac := Sha256.hmac
  url := Lockfile.npmRegistry
  codec := Lockfile.libraryCodec documents
  compact j := String.ofList j.compact

def sampleIdentity : Option InstanceKey :=
  ((sampleEnv []).identityOf sampleKey).toOption

def sampleTrees : OrdMap String Path := OrdMap.ofList [(sampleKey, sourceTree)]

def sampleInput : LayoutInput where
  instances := sampleIdentity.toList.map fun key => ⟨key, Lockfile.sampleDigest, sourceTree⟩
  rootDependencies := []
  dependencyEdges := []

/-- The output of the hook under a recipe. -/
def sampleOutput (recipe : String) : DerivedHookOutput where
  attestation := attestation Sha256.hmac (List.replicate 32 7) recipe Lockfile.sampleDigest
  hook := "postinstall"
  key := recipe
  treeDigest := Lockfile.sampleDigest

/-- The lockfile an online run leaves. -/
def recordedLockfile (recipe : String) : Lockfile :=
  { versionedLockfile Schema.lifecycleLockfileVersion with
    packages := OrdMap.ofList [(sampleKey, { Lockfile.samplePackage with
      derivedHooks := [sampleOutput recipe] })] }

/-- The recipe over the source graph of schema 7. -/
def currentRecipe : String := "sha256-" ++ currentHex

def recordedCurrent : Lockfile := recordedLockfile currentRecipe

/-- The documents of the sample runs. -/
def sampleDocuments (recorded : Lockfile) : List Json :=
  [sampleManifest, recorded.toValue, (versionedLockfile 7).toValue]

/-- What the definitions of the sample evaluate to. -/
structure SampleFacts : Prop where
  rooted : versionedLockfile 7 = Lockfile.rootedLockfile
  packages : Lockfile.rootedLockfile.packages = OrdMap.ofList [(sampleKey, Lockfile.samplePackage)]
  unrecorded : { Lockfile.samplePackage with derivedHooks := [] } = Lockfile.samplePackage
  notCopied : Lockfile.samplePackage.isCopied Lockfile.npmRegistry = false
  unbound : Lockfile.rootedLockfile.rootBindings.isEmpty = true
  noWorkspace : Lockfile.rootedLockfile.workspacePackages.isEmpty = true
  digest : checkHookDigest Lockfile.sampleDigest = .ok ()
  parsed : Env.parseDigest Lockfile.sampleDigest = .ok Lockfile.sampleDigest
  reference : verifiedTreeReference Lockfile.sampleDigest = .ok Lockfile.sampleDigest
  tool : DependencyLifecyclePolicy.sha256 sampleSha256 (textBytes "linux" ++ framedAll []) = sampleTool
  approved : samplePolicy.approvalFor sampleSha256 Lockfile.samplePackage.name Lockfile.samplePackage.version
    Lockfile.samplePackage.artifactIntegrity "postinstall" "node build.js" = .ok (some sampleApproval)
  order : dependencyOrder Lockfile.rootedLockfile = .ok [sampleKey]
  plan : dependencyLifecyclePlan (Lockfile.libraryCodec [sampleManifest]) (Lockfile.prettyJson "" sampleManifest ++ "\n")
    false = .ok ⟨[("postinstall", "node build.js")], false⟩
  placed : sampleIdentity.map (fun identity => Env.indexOf sampleInput sampleTrees sampleKey identity) =
    some (some (0, sourceTree))
  distinct : (sampleInput.instances.map InstalledInstance.key).Nodup

theorem sampleFacts : SampleFacts where
  rooted := by decide
  packages := by decide
  unrecorded := by decide
  notCopied := by decide
  unbound := by decide
  noWorkspace := by decide
  digest := by decide
  parsed := by decide
  reference := by decide
  tool := by decide +kernel
  approved := by decide +kernel
  order := by decide
  plan := by decide
  placed := by decide
  distinct := by decide

/-- What an online run from a schema version and its recipe evaluates to. -/
structure SampleRecipe (version : Nat) (recipe : String) : Prop where
  parsed : Env.parseDigest recipe = .ok recipe
  checked : checkHookDigest recipe = .ok ()
  source : (versionedLockfile version).sourceGraph = versionedLockfile version
  written : (versionedLockfile version).withDerivedHooks sampleKey Lockfile.samplePackage [sampleOutput recipe] =
    recordedLockfile recipe
  recorded : (recordedLockfile recipe).sourceGraph = versionedLockfile 7
  documents : ((sampleDocuments (recordedLockfile recipe)).map (Lockfile.prettyJson "")).Nodup

theorem get?_sampleLockfile {lock : Lockfile} {package : LockedPackage}
    (hlock : lock.packages = OrdMap.ofList [(sampleKey, package)]) {key : String}
    (hkey : lock.packages.contains key = true) : key = sampleKey := by
  rw [hlock, OrdMap.contains, OrdMap.ofList, OrdMap.insertAll, List.foldl_cons, List.foldl_nil,
    OrdMap.get?_insert] at hkey
  by_contra hne
  rw [if_neg hne] at hkey
  simp at hkey

/-! ### The recipes of the sample -/

theorem derivedKey_current (documents : List Json) :
    samplePolicy.derivedKey sampleSha256 sampleApproval sampleTool
      ((sampleEnv documents).graphText (graphOf 7) ∅ []) = currentRecipe := by
  have hhash : sampleSha256 (recipeBytes (graphOf 7)) = currentHex := if_pos rfl
  show "sha256-" ++ sampleSha256 (recipeBytes (graphOf 7)) = _
  rw [hhash]
  rfl

/-! ### The outputs of the sample -/

/-- What a store hands out passes the check of a recorded output. -/
theorem sampleOutput_valid {recipe : String} (hrecipe : checkHookDigest recipe = .ok ()) :
    validateDerivedHooks [sampleOutput recipe] = .ok () := by
  obtain ⟨hall, hlen⟩ := hexEncode_digits
    (outputMac Sha256.hmac (List.replicate 32 7) recipe Lockfile.sampleDigest)
  have htag : stripPrefix "hmac-sha256-".toList (sampleOutput recipe).attestation.toList =
      some (hexEncode (outputMac Sha256.hmac (List.replicate 32 7) recipe Lockfile.sampleDigest)) := by
    show stripPrefix _ (attestation Sha256.hmac _ recipe Lockfile.sampleDigest).toList = _
    rw [attestation, String.toList_append, stripPrefix_append, String.toList_ofList]
  rw [outputMac, Sha256.length_hmac] at hlen
  have hcheck : checkDerivedHook none (sampleOutput recipe) = .ok 2 := by
    simp only [checkDerivedHook, htag, orError, ok_bind, bind_eq_ok, rejectIf_eq_ok, pure_eq_ok]
    refine ⟨(), ?_, 2, rfl, (), fun h => Bool.false_ne_true h, (), hrecipe, (), sampleFacts.digest, rfl⟩
    rw [outputMac, hlen]
    exact not_or.mpr ⟨not_not.mpr rfl, not_not.mpr hall⟩
  exact bind_eq_ok.mpr ⟨2, hcheck, rfl⟩

theorem packages_versionedLockfile (version : Nat) :
    (versionedLockfile version).packages = OrdMap.ofList [(sampleKey, Lockfile.samplePackage)] :=
  sampleFacts.packages

/-- Nothing is recorded in the sample lockfiles. -/
theorem versionedLockfile_eq (version : Nat) :
    versionedLockfile version = { versionedLockfile version with
      packages := OrdMap.ofList [(sampleKey, { Lockfile.samplePackage with derivedHooks := [] })] } := by
  rw [sampleFacts.unrecorded, ← packages_versionedLockfile version]

/-- The sample is written in every schema version that allows its hooks. -/
theorem toJson_sample (codec : JsonCodec) {version : Nat} {hooks : List DerivedHookOutput}
    (hversion : Schema.lifecycleLockfileVersion ≤ version ∨ hooks = []) (hvalid : validateDerivedHooks hooks = .ok ())
    {l : Lockfile} (hl : l = { versionedLockfile version with
      packages := OrdMap.ofList [(sampleKey, { Lockfile.samplePackage with derivedHooks := hooks })] }) :
    l.toJson Lockfile.npmRegistry codec = .ok (codec.encode l.toValue ++ "\n") := by
  have hroots : l.roots ≠ [] := by
    rw [hl]
    exact List.cons_ne_nil _ _
  have hvalues : l.packages.values = [{ Lockfile.samplePackage with derivedHooks := hooks }] := by
    rw [hl]
    rfl
  have hentries : l.packages.entries = [(sampleKey, { Lockfile.samplePackage with derivedHooks := hooks })] := by
    rw [hl]
    rfl
  have hschema : l.validateAliasSchema Lockfile.npmRegistry = .ok () := by
    simp only [Lockfile.validateAliasSchema, bind_eq_ok, rejectIf_eq_ok, hvalues]
    refine ⟨(), fun h => ?_, (), fun h => ?_, (), ?_, fun h => ?_⟩
    · rcases hversion with hversion | rfl
      · have hlt : l.lockfileVersion < Schema.lifecycleLockfileVersion := h.1
        rw [hl] at hlt
        exact absurd hversion (not_le.mpr hlt)
      · exact Bool.false_ne_true h.2
    · have hany : ([{ Lockfile.samplePackage with derivedHooks := hooks }].any
          (LockedPackage.isCopied Lockfile.npmRegistry)) = (Lockfile.samplePackage.isCopied Lockfile.npmRegistry ||
            false) := rfl
      rw [hany, sampleFacts.notCopied] at h
      exact Bool.false_ne_true h.2
    · exact checkAll_eq_ok.mpr fun p hp => by
        rw [List.mem_singleton.mp hp]
        exact hvalid
    · rcases h.2 with h | h
      · rw [hl] at h
        exact h sampleFacts.unbound
      · exact Bool.false_ne_true h
  have hprov : l.checkProvenance Lockfile.npmRegistry Schema.rootsLegacyLockfileVersion = .ok () := by
    have hmissing : l.missingProvenance Lockfile.npmRegistry = none := by
      rw [Lockfile.missingProvenance, hentries, List.find?_eq_none]
      intro e he
      rw [List.mem_singleton.mp he]
      show ¬ (_ && false) = true
      rw [Bool.and_false]
      exact Bool.false_ne_true
    rw [Lockfile.checkProvenance, hmissing]
    split_ifs
    · rfl
    · rfl
  obtain ⟨text, htext⟩ := Lockfile.exists_toJson codec hschema hroots hprov
  rw [htext, (Lockfile.toJson_eq_ok htext).2.2.2]

/-! ### The online run of the sample -/

theorem hasKey_sampleHost : sampleHost.HasKey (List.replicate 32 7) where
  created _ _ _ h := (Prod.mk.inj (Except.ok.inj h)).1.symm
  read _ _ h := (Except.ok.inj h).symm

section SampleRun

variable (documents : List Json)

/-- The hook of the sample leaves the sample output. -/
theorem executeHook_sample (s : RunState Unit) {p : PackageState} (hstage : p.stage = none) {recipe : String}
    (hrecipe : Env.parseDigest recipe = .ok recipe)
    (hvalid : validateDerivedHooks [sampleOutput recipe] = .ok ()) :
    ∃ p' s', ((sampleEnv documents).mode true).executeHook sampleKey Lockfile.samplePackage "postinstall"
        "node build.js" recipe sampleApproval p s = .ok p' s' ∧
      p'.outputs = p.outputs ++ [sampleOutput recipe] := by
  have hopen : ((sampleEnv documents).mode true).openStage p s = .ok ["stage"] s := by
    rw [Env.openStage, hstage]
    rfl
  have hattest : ((sampleEnv documents).mode true).attestLifecycleOutput () recipe Lockfile.sampleDigest =
      .ok (attestation Sha256.hmac (List.replicate 32 7) recipe Lockfile.sampleDigest, ()) := rfl
  have hnew : Env.newOutput "postinstall" recipe Lockfile.sampleDigest (sampleOutput recipe).attestation =
      .ok (sampleOutput recipe) := bind_eq_ok.mpr ⟨(), mapError_eq_ok.mpr hvalid, rfl⟩
  -- copying, running and checking leave the world as it is
  have hrun : ∃ t, ((sampleEnv documents).mode true).executeHook sampleKey Lockfile.samplePackage "postinstall"
      "node build.js" recipe sampleApproval p s = .ok { p with
        outputs := p.outputs ++ [sampleOutput recipe], current := ["store", Lockfile.sampleDigest]
        stage := some ["stage"] } t :=
    ⟨_, lift_bind_ok.mpr ⟨(), rejectIf_eq_ok.mpr Bool.false_ne_true.symm, bind_ok.mpr ⟨["stage"], s, hopen,
      bind_ok.mpr ⟨(), s, rfl, bind_ok.mpr ⟨_, _, rfl, bind_ok.mpr ⟨(), _, rfl,
      bind_ok.mpr ⟨Lockfile.sampleDigest, _, rfl, lift_bind_ok.mpr ⟨Lockfile.sampleDigest, sampleFacts.parsed,
      bind_ok.mpr ⟨_, _, rfl, lift_bind_ok.mpr ⟨recipe, hrecipe,
      bind_ok.mpr ⟨_, _, update_ok.mpr (map_eq_ok.mpr ⟨_, hattest, rfl⟩),
      lift_bind_ok.mpr ⟨sampleOutput recipe, hnew, bind_ok.mpr ⟨(), _, rfl, pure_ok.mpr ⟨rfl, rfl⟩⟩⟩⟩⟩⟩⟩⟩⟩⟩⟩⟩⟩⟩
  obtain ⟨t, hrun⟩ := hrun
  exact ⟨_, t, hrun, rfl⟩

theorem toolIdentity_sample : (sampleEnv documents).toolIdentity sampleApproval "linux" = .ok sampleTool :=
  bind_eq_ok.mpr ⟨(), rfl, congrArg Except.ok sampleFacts.tool⟩

/-- The approved hook of the sample is run. -/
theorem processHook_sample (s : RunState Unit) (hs : s.systemIdentity = none) (hcompleted : s.completed = ∅)
    {version : Nat} {recipe : String}
    (hkey : samplePolicy.derivedKey sampleSha256 sampleApproval sampleTool
      ((sampleEnv documents).graphText (graphOf version) ∅ []) = recipe)
    (hrecipe : Env.parseDigest recipe = .ok recipe)
    (hvalid : validateDerivedHooks [sampleOutput recipe] = .ok ()) :
    ∃ p' s', ((sampleEnv documents).mode true).processHook (graphOf version) none sampleKey Lockfile.samplePackage
        false { current := sourceTree } ("postinstall", "node build.js") s = .ok p' s' ∧
      p'.outputs = [sampleOutput recipe] := by
  have htool := toolIdentity_sample documents
  obtain ⟨t, ht, _⟩ := @systemIdentity_run _ (sampleEnv documents) s (fun _ h => by rw [hs] at h; cases h) _ rfl
  obtain ⟨hsteady, _⟩ := Steady.systemIdentity ht fun _ h => by rw [hs] at h; cases h
  have hcompleted' : t.completed = ∅ := hsteady.completed.trans hcompleted
  obtain ⟨p', s', hrun, houtputs⟩ := executeHook_sample documents t (p := { current := sourceTree }) rfl hrecipe hvalid
  refine ⟨p', s', bind_ok.mpr ⟨some (sampleApproval, true), s, authorize_ok.mpr ⟨rfl, Or.inl
    ⟨sampleApproval, rfl, sampleFacts.approved⟩⟩, lift_bind_ok.mpr ⟨(), rejectIf_eq_ok.mpr (not_not.mpr rfl), ?_⟩⟩, houtputs⟩
  refine bind_ok.mpr ⟨"linux", t, ht, lift_bind_ok.mpr ⟨sampleTool, htool, get_bind_ok.mpr
    (lift_bind_ok.mpr ⟨none, rfl, ?_⟩)⟩⟩
  rw [← hkey, ← hcompleted'] at hrun
  exact hrun

theorem order_sample (online : Bool) {lock : Lockfile} (h : SameEntries Lockfile.rootedLockfile lock) :
    ((sampleEnv documents).mode online).order lock = .ok [sampleKey] := by
  have hlock : ((sampleEnv documents).mode online).order lock = ((sampleEnv documents).mode false).order lock := rfl
  rw [hlock]
  exact (order_congr (sampleEnv documents) true h).trans sampleFacts.order

theorem discover_sample (online : Bool) (package : LockedPackage)
    (hmanifest : Lockfile.Faithful (Lockfile.libraryCodec documents) sampleManifest) :
    ((sampleEnv documents).mode online).discover package () sourceTree =
      .ok ⟨[("postinstall", "node build.js")], false⟩ := by
  have hcommands : ((sampleEnv documents).mode online).commands () sourceTree =
      .ok ⟨[("postinstall", "node build.js")], false⟩ := by
    show dependencyLifecyclePlan (Lockfile.libraryCodec documents) (Lockfile.prettyJson "" sampleManifest ++ "\n") false = _
    have hdecode : (Lockfile.libraryCodec documents).decode (Lockfile.prettyJson "" sampleManifest ++ "\n") =
        .ok sampleManifest := hmanifest
    have hplan := sampleFacts.plan
    have hsample : (Lockfile.libraryCodec [sampleManifest]).decode (Lockfile.prettyJson "" sampleManifest ++ "\n") =
        .ok sampleManifest :=
      @Lockfile.faithful_libraryCodec [sampleManifest] (List.nodup_singleton _) _ List.mem_cons_self
    rw [dependencyLifecyclePlan, hsample] at hplan
    rw [dependencyLifecyclePlan, hdecode]
    exact hplan
  rw [Env.discover, hcommands]

/-- **The online run of the sample** records its output. -/
theorem sampleRun_ok {version : Nat} {recipe : String}
    (hkey : samplePolicy.derivedKey sampleSha256 sampleApproval sampleTool
      ((sampleEnv documents).graphText (graphOf version) ∅ []) = recipe)
    (hrecipe : SampleRecipe version recipe)
    (hmanifest : Lockfile.Faithful (Lockfile.libraryCodec documents) sampleManifest) :
    ∃ t, ((sampleEnv documents).mode true).apply (.initial () (versionedLockfile version) sampleInput sampleTrees) =
      .ok () t ∧ t.lock = recordedLockfile recipe := by
  have hpackage : (versionedLockfile version).packages.get? sampleKey = some Lockfile.samplePackage := by
    rw [packages_versionedLockfile]
    exact OrdMap.get?_insert_self _ _ _
  have horder := order_sample documents true (fun k => by
    rw [packages_versionedLockfile, sampleFacts.packages] : SameEntries Lockfile.rootedLockfile
      (versionedLockfile version))
  have hplan := discover_sample documents true Lockfile.samplePackage hmanifest
  obtain ⟨identity, hidentity⟩ : ∃ identity, (sampleEnv documents).identityOf sampleKey = .ok identity := by
    have hsome : ((sampleEnv []).identityOf sampleKey).toOption.map (fun identity =>
        Env.indexOf sampleInput sampleTrees sampleKey identity) = some (some (0, sourceTree)) := sampleFacts.placed
    have hsame : (sampleEnv documents).identityOf sampleKey = (sampleEnv []).identityOf sampleKey := rfl
    rw [hsame]
    cases h : (sampleEnv []).identityOf sampleKey with
    | ok identity => exact ⟨identity, rfl⟩
    | error e =>
      rw [h] at hsome
      cases hsome
  have hindex : Env.indexOf sampleInput sampleTrees sampleKey identity = some (0, sourceTree) := by
    have hplaced := sampleFacts.placed
    have hsome : sampleIdentity = some identity := by
      show ((sampleEnv documents).identityOf sampleKey).toOption = _
      rw [hidentity]
      rfl
    rw [hsome] at hplaced
    exact Option.some_inj.mp hplaced
  have hgraph : (versionedLockfile version).sourceGraph.toJson Lockfile.npmRegistry (Lockfile.libraryCodec documents) =
      .ok (graphOf version) := by
    rw [graphOf, hrecipe.source]
    exact toJson_sample (Lockfile.libraryCodec documents) (Or.inr rfl) rfl (versionedLockfile_eq version)
  have hvalid := sampleOutput_valid hrecipe.checked
  obtain ⟨p, s, hhook, houtputs⟩ := processHook_sample documents
    (.initial () (versionedLockfile version) sampleInput sampleTrees) rfl rfl hkey hrecipe.parsed
    hvalid
  have hhooks : [("postinstall", "node build.js")].foldlM (((sampleEnv documents).mode true).processHook
      (graphOf version) none sampleKey Lockfile.samplePackage false) { current := sourceTree }
      (.initial () (versionedLockfile version) sampleInput sampleTrees) = .ok p s :=
    foldlM_cons_ok.mpr ⟨p, s, hhook, pure_ok.mpr ⟨rfl, rfl⟩⟩
  have hstore : (sampleEnv documents).host.HasKey (List.replicate 32 7) := hasKey_sampleHost
  obtain ⟨_, hbypassed, hsteady⟩ := processHooks_ok hstore (fun _ h => by cases h) rfl Derived.nil hhooks
  have hredirected : redirected sampleInput.digestOf identity p.outputs =
      .ok (Function.update sampleInput.digestOf identity (some Lockfile.sampleDigest)) := by
    rw [houtputs]
    exact bind_eq_ok.mpr ⟨_, sampleFacts.reference, rfl⟩
  obtain ⟨t, hfinish, _⟩ := @finishPackage_run _ (sampleEnv documents) s true none sampleKey identity 0 p
    Lockfile.samplePackage _ _ hbypassed (fun h => absurd h Bool.false_ne_true.symm)
    (hsteady.lock ▸ hpackage) (houtputs ▸ hvalid) hredirected
  have hindex' := hindex
  rw [show sampleInput = s.input from hsteady.input.symm, show sampleTrees = s.trees from hsteady.trees.symm]
    at hindex'
  obtain ⟨_, _, _, ⟨package, hpackage', hlock'⟩, _⟩ := finishPackage_ok hbypassed hindex' hfinish
  refine ⟨t, get_bind_ok.mpr (lift_bind_ok.mpr ⟨graphOf version, mapError_eq_ok.mpr hgraph, lift_bind_ok.mpr
    ⟨(), rejectIf_eq_ok.mpr (not_not.mpr ?_), lift_bind_ok.mpr ⟨[sampleKey], horder,
      foldlM_cons_ok.mpr ⟨(), t, ?_, pure_ok.mpr ⟨rfl, rfl⟩⟩⟩⟩⟩), ?_⟩
  · exact sampleFacts.distinct
  · exact get_bind_ok.mpr (lift_bind_ok.mpr ⟨Lockfile.samplePackage, orError_eq_ok.mpr hpackage, lift_bind_ok.mpr
      ⟨identity, hidentity, lift_bind_ok.mpr ⟨(0, sourceTree), orError_eq_ok.mpr hindex, lift_bind_ok.mpr
        ⟨_, hplan, bind_ok.mpr ⟨p, s, hhooks, hfinish⟩⟩⟩⟩⟩)
  · rw [hsteady.lock] at hpackage' hlock'
    obtain rfl := Option.some_inj.mp (hpackage.symm.trans hpackage')
    rw [hlock', houtputs]
    exact hrecipe.written

end SampleRun

/-! ### The sample recordings -/

/-- The recorded sample is one a reader accepts. -/
theorem rereadable_recordedLockfile (recipe : String) :
    Lockfile.Rereadable Lockfile.npmRegistry (recordedLockfile recipe) := by
  refine ⟨fun k p hp hcopied => ?_, fun h => ?_, fun h => ?_⟩
  rotate_left
  · have hversion : Schema.lifecycleLockfileVersion = Schema.provenanceLegacyLockfileVersion := h
    exact absurd hversion (by decide)
  · have hversion : Schema.lifecycleLockfileVersion < Schema.lockfileVersion := h
    exact absurd hversion (by decide)
  have hcontains : (recordedLockfile recipe).packages.contains k = true := by
    rw [OrdMap.contains, hp]
    rfl
  have hkey : k = sampleKey := get?_sampleLockfile rfl hcontains
  have hself : (recordedLockfile recipe).packages.get? sampleKey =
      some { Lockfile.samplePackage with derivedHooks := [sampleOutput recipe] } := OrdMap.get?_insert_self _ _ _
  rw [hkey, hself] at hp
  obtain rfl := Option.some_inj.mp hp
  exact absurd (sampleFacts.notCopied.symm.trans hcopied) Bool.false_ne_true

/-- A run of the sample is a recording. -/
theorem recording_sample {documents : List Json} {recipe : String} {version : Nat} {t : RunState Unit}
    (hassembled : Assembled Lockfile.npmRegistry (versionedLockfile version))
    (hrun : ((sampleEnv documents).mode true).apply (.initial () (versionedLockfile version) sampleInput
      sampleTrees) = .ok () t)
    (hlock : t.lock = recordedLockfile recipe)
    (hfaithful : Lockfile.Faithful (Lockfile.libraryCodec documents) (recordedLockfile recipe).toValue)
    (hvalid : validateDerivedHooks [sampleOutput recipe] = .ok ()) :
    Recording (sampleEnv documents) (List.replicate 32 7) (versionedLockfile version) sampleInput sampleTrees t ()
      (recordedLockfile recipe) sampleInput sampleTrees where
  assembled := hassembled
  hasKey := hasKey_sampleHost
  applied := ⟨(), hrun⟩
  faithful := by
    rw [hlock]
    exact hfaithful
  reread := by
    obtain ⟨_, _, _, _, hderives⟩ := apply_ok hasKey_sampleHost hrun
    have hstored := (hderives.reachable (hassembled.reachable (Lockfile.libraryCodec documents))).stored
    rw [hlock] at hstored ⊢
    have htext := toJson_sample (Lockfile.libraryCodec documents) (Or.inl le_rfl) hvalid
      (rfl : recordedLockfile recipe = _)
    have haccepted := (hstored.accepted_iff Lockfile.hostsHaveNoBar_npmRegistry htext).mpr
      (rereadable_recordedLockfile recipe)
    exact ⟨_, htext, (hstored.fromJson_iff_accepted hfaithful htext).mpr haccepted⟩
  laid := {
    nodup := sampleFacts.distinct
    placed := fun key identity hkey hidentity => by
      rw [get?_sampleLockfile rfl hkey] at hidentity ⊢
      have hplaced := sampleFacts.placed
      have hsome : sampleIdentity = some identity := by
        show ((sampleEnv documents).identityOf sampleKey).toOption = _
        rw [hidentity]
        rfl
      rw [hsome] at hplaced
      exact ⟨_, Option.some_inj.mp hplaced⟩
    distinct := fun key key' _ hkey hkey' _ _ =>
      (get?_sampleLockfile rfl hkey).trans (get?_sampleLockfile rfl hkey').symm }
  sameDigests := rfl
  sources := fun _ _ key path path' h h' => by
    rw [Option.some_inj.mp (h.symm.trans h')]
  published := fun _ _ _ _ _ => ⟨rfl, fun _ _ => ⟨_, rfl⟩⟩

/-- The sample is built like that of an install. -/
theorem assembled_rootedLockfile : Assembled Lockfile.npmRegistry Lockfile.rootedLockfile := by
  have hnew : Assembled Lockfile.npmRegistry Lockfile.emptyLockfile := .new Lockfile.new_sampleDigest
  have h := hnew.insertGraph [Lockfile.samplePackage] []
  have hinsert : Lockfile.leftover (Lockfile.insertGraph Lockfile.npmRegistry [Lockfile.samplePackage] []
      Lockfile.emptyLockfile) = Lockfile.sampleLockfile := congrArg Lockfile.leftover Lockfile.insert_samplePackage
  rw [hinsert] at h
  have h := h.setRoots [Lockfile.samplePackage.key Lockfile.npmRegistry]
  have hcheck : checkAll (Lockfile.sampleLockfile.checkRoot Lockfile.npmRegistry)
      (Lockfile.sortDedup [Lockfile.samplePackage.key Lockfile.npmRegistry]) = .ok () := by decide
  have hroots : Lockfile.leftover (Lockfile.setRoots Lockfile.npmRegistry
      [Lockfile.samplePackage.key Lockfile.npmRegistry] Lockfile.sampleLockfile) = Lockfile.rootedLockfile := by
    show Lockfile.leftover (Lockfile.Mutation.run Lockfile.npmRegistry (.setRoots _) _) = _
    rw [Lockfile.Mutation.run_eq, Lockfile.Mutation.checked, hcheck]
    rfl
  rwa [hroots] at h

/-- An approved hook that was run and recorded replays. -/
theorem replays_recordedCurrent :
    ∃ t, ((sampleEnv (sampleDocuments recordedCurrent)).mode true).apply
        (.initial () (versionedLockfile 7) sampleInput sampleTrees) = .ok () t ∧
      Replays (sampleEnv (sampleDocuments recordedCurrent)) () recordedCurrent sampleInput sampleTrees
        t.input.digestOf := by
  have hcurrent : SampleRecipe 7 currentRecipe := {
    parsed := by decide
    checked := by decide
    source := by decide
    written := by decide +kernel
    recorded := by decide
    documents := by decide }
  have hassembled := assembled_rootedLockfile
  rw [← sampleFacts.rooted] at hassembled
  obtain ⟨t, hrun, hlock⟩ := sampleRun_ok (sampleDocuments recordedCurrent) (derivedKey_current _) hcurrent
    (Lockfile.faithful_libraryCodec hcurrent.documents List.mem_cons_self)
  have hrecording := recording_sample hassembled hrun hlock
    (Lockfile.faithful_libraryCodec hcurrent.documents (List.mem_cons_of_mem _ List.mem_cons_self))
    (sampleOutput_valid hcurrent.checked)
  exact ⟨t, hrun, replays_of_recording hrecording⟩

end DependencyScripts

end Tapid
