/-
The graph invariant of the lockfile.

Every mutating operation makes all its checks before its first write
(`Lockfile.Mutation.run_eq`), so it either fails and leaves the lockfile alone
or installs a checked update.  `Lockfile.Stored` records what those checks
establish, in the terms of the checks themselves; it holds in every lockfile
reachable through the public interface (`Lockfile.Reachable.stored`), and the
graph invariant is read off it.

* `Lockfile.Stored.update` — a checked update keeps the invariant;
* `Lockfile.Stored.graphInvariant` — what it means for keys, edges, aliases,
  roots and bindings.
-/
import Tapid.LockfileJson

namespace Tapid

open Text Fallible

namespace Lockfile

section Operations

variable (url : UrlParser)

/-! ### Operations are a check followed by an update -/

/-- The checks of a batch insertion. -/
def checkGraph (l : Lockfile) (rs : List LockedPackage) (ws : List LockedWorkspacePackage) :
    Except LockfileError Unit := do
  let registryBatch ← collectBatch (LockedPackage.validate url) (LockedPackage.key url)
    l.containsPackageKey rs ∅
  let workspaceBatch ← collectBatch (LockedWorkspacePackage.validate url) LockedWorkspacePackage.key
    (fun key => l.containsPackageKey key || registryBatch.contains key) ws ∅
  let present := fun key => l.containsPackageKey key || registryBatch.contains key ||
    workspaceBatch.contains key
  checkEdges url LockedPackage.dependencies LockedPackage.dependencyAliases present
    registryBatch.entries
  checkEdges url LockedWorkspacePackage.dependencies LockedWorkspacePackage.dependencyAliases present
    workspaceBatch.entries

/-- The update of a batch insertion. -/
def withGraph (l : Lockfile) (rs : List LockedPackage) (ws : List LockedWorkspacePackage) : Lockfile :=
  { l with
    lockfileVersion :=
      if rs.any (LockedPackage.isCopied url) then Schema.copiedSourceLockfileVersion
      else l.lockfileVersion
    packages := l.packages.insertAll (rs.map fun p => (p.key url, p))
    workspacePackages := l.workspacePackages.insertAll (ws.map fun p => (p.key, p)) }

/-- The update of `set_derived_hooks`. -/
def withDerivedHooks (l : Lockfile) (key : String) (package : LockedPackage)
    (outputs : List DerivedHookOutput) : Lockfile :=
  { l with
    lockfileVersion :=
      if outputs ≠ [] then max l.lockfileVersion Schema.lifecycleLockfileVersion
      else l.lockfileVersion
    packages := l.packages.insert key { package with derivedHooks := outputs } }

namespace Mutation

/-- What an operation checks, and the lockfile it installs if all checks pass. -/
def checked : Mutation → Lockfile → Except LockfileError Lockfile
  | insertGraph rs ws, l => (checkGraph url l rs ws).map fun _ => l.withGraph url rs ws
  | insertPackage p, l => (checkGraph url l [p] []).map fun _ => l.withGraph url [p] []
  | insertPackages ps, l => (checkGraph url l ps []).map fun _ => l.withGraph url ps []
  | insertWorkspacePackage p, l => (checkGraph url l [] [p]).map fun _ => l.withGraph url [] [p]
  | setRoots roots, l => (checkAll (l.checkRoot url) (sortDedup roots)).map fun _ =>
      { l with roots := sortDedup roots, rootBindings := ∅ }
  | setRootBindings bindings, l => (checkBindings url l.roots bindings).map fun _ =>
      { l with rootBindings := bindings }
  | setDerivedHooks key outputs, l => do
      validateDerivedHooks outputs
      let package ← orError (l.packages.get? key) (.invalidPackageKey key)
      return l.withDerivedHooks key package outputs

/-- The result of an operation whose outcome is decided before it writes. -/
def settle (l : Lockfile) : Except LockfileError Lockfile → EStateM.Result LockfileError Lockfile Unit
  | .ok l' => .ok () l'
  | .error e => .error e l

theorem get_bind {α : Type} (f : Lockfile → LockfileM α) (l : Lockfile) :
    (get >>= f) l = f l l := rfl

/-- A failed check ends the operation with the lockfile it started from. -/
theorem liftE_bind {α β : Type} (x : Except LockfileError α) (f : α → LockfileM β) (l : Lockfile) :
    (liftE x >>= f) l = match x with
      | .ok a => f a l
      | .error e => .error e l := by
  cases x <;> rfl

theorem insertGraph_run (rs : List LockedPackage) (ws : List LockedWorkspacePackage) (l : Lockfile) :
    Lockfile.insertGraph url rs ws l =
      settle l ((checkGraph url l rs ws).map fun _ => l.withGraph url rs ws) := by
  rw [Lockfile.insertGraph, get_bind, liftE_bind, checkGraph]
  cases collectBatch (LockedPackage.validate url) (LockedPackage.key url) l.containsPackageKey rs ∅ with
  | error e => rfl
  | ok registryBatch =>
    simp only [liftE_bind, ok_bind]
    cases collectBatch (LockedWorkspacePackage.validate url) LockedWorkspacePackage.key
        (fun key => l.containsPackageKey key || registryBatch.contains key) ws ∅ with
    | error e => rfl
    | ok workspaceBatch =>
      simp only [ok_bind]
      cases checkEdges url LockedPackage.dependencies LockedPackage.dependencyAliases
          (fun key => l.containsPackageKey key || registryBatch.contains key ||
            workspaceBatch.contains key) registryBatch.entries with
      | error e => rfl
      | ok _ =>
        simp only [ok_bind]
        cases checkEdges url LockedWorkspacePackage.dependencies
            LockedWorkspacePackage.dependencyAliases
            (fun key => l.containsPackageKey key || registryBatch.contains key ||
              workspaceBatch.contains key) workspaceBatch.entries with
        | error e => rfl
        | ok _ =>
          simp only [Except.map, settle, withGraph]
          split_ifs <;> rfl

theorem setRoots_run (roots : List String) (l : Lockfile) :
    Lockfile.setRoots url roots l =
      settle l ((checkAll (l.checkRoot url) (sortDedup roots)).map fun _ =>
        { l with roots := sortDedup roots, rootBindings := ∅ }) := by
  rw [Lockfile.setRoots, get_bind, liftE_bind]
  cases checkAll (l.checkRoot url) (sortDedup roots) <;> rfl

theorem setRootBindings_run (bindings : OrdMap String String) (l : Lockfile) :
    Lockfile.setRootBindings url bindings l =
      settle l ((checkBindings url l.roots bindings).map fun _ => { l with rootBindings := bindings }) := by
  rw [Lockfile.setRootBindings, get_bind, liftE_bind]
  cases checkBindings url l.roots bindings <;> rfl

theorem setDerivedHooks_run (key : String) (outputs : List DerivedHookOutput) (l : Lockfile) :
    Lockfile.setDerivedHooks key outputs l = settle l (checked url (setDerivedHooks key outputs) l) := by
  rw [Lockfile.setDerivedHooks, liftE_bind, checked]
  cases validateDerivedHooks outputs with
  | error e => rfl
  | ok _ =>
    simp only [get_bind, liftE_bind]
    cases orError (l.packages.get? key) (LockfileError.invalidPackageKey key) with
    | error e => rfl
    | ok package =>
      simp only [bind, Except.bind, pure, Except.pure, settle, withDerivedHooks]
      split_ifs <;> rfl

/-- **An operation either fails and changes nothing or installs its checked
update.** -/
theorem run_eq (m : Mutation) (l : Lockfile) : m.run url l = settle l (m.checked url l) := by
  cases m with
  | insertGraph rs ws => exact insertGraph_run url rs ws l
  | insertPackage p => exact insertGraph_run url [p] [] l
  | insertPackages ps => exact insertGraph_run url ps [] l
  | insertWorkspacePackage p => exact insertGraph_run url [] [p] l
  | setRoots roots => exact setRoots_run url roots l
  | setRootBindings bindings => exact setRootBindings_run url bindings l
  | setDerivedHooks key outputs => exact setDerivedHooks_run url key outputs l

end Mutation

end Operations

/-! ### What the checks establish -/

section Stored

variable {url : UrlParser}

theorem validateDependencyTarget_eq_ok {package name dependency : String}
    {aliases : OrdMap String String} {present : String → Bool} {u : Unit} :
    validateDependencyTarget url package name dependency aliases present = .ok u ↔
      ∃ target, LockfilePackageKey.parse url dependency = .ok target ∧ dependency ≠ package ∧
        (target.name.text ≠ name → aliases.get? name = some target.name.text) ∧
        present dependency = true := by
  simp only [validateDependencyTarget, bind_eq_ok, rejectIf_eq_ok, not_and, not_not]
  constructor
  · rintro ⟨target, htarget, _, hself, _, halias, hpresent⟩
    exact ⟨target, htarget, hself, halias, hpresent⟩
  · rintro ⟨target, htarget, hself, halias, hpresent⟩
    exact ⟨target, htarget, (), hself, (), halias, hpresent⟩

theorem validateAlias_eq_ok {package : String} {dependencies : OrdMap String String}
    {entry : String × String} {u : Unit}
    (h : validateAlias url package dependencies entry = .ok u) :
    ∃ dependency target, dependencies.get? entry.1 = some dependency ∧
      LockfilePackageKey.parse url dependency = .ok target ∧ target.name.text = entry.2 ∧
      entry.1 ≠ entry.2 := by
  simp only [validateAlias, bind_eq_ok, orError_eq_ok, rejectIf_eq_ok, not_or, not_not] at h
  obtain ⟨_, _, _, _, dependency, hdep, target, htarget, hname, hne⟩ := h
  exact ⟨dependency, target, hdep, htarget, hname.symm, hne⟩

variable (url) in
/-- Every edge of an entry passed its check against the whole lockfile. -/
def EdgesStored (l : Lockfile) (key : String) (dependencies aliases : OrdMap String String) : Prop :=
  ∀ name dependency, dependencies.get? name = some dependency →
    validateDependencyTarget url key name dependency aliases l.containsPackageKey = .ok ()

/-- More entries keep edges admissible. -/
theorem EdgesStored.mono {l l' : Lockfile} {key : String} {dependencies aliases : OrdMap String String}
    (h : EdgesStored url l key dependencies aliases)
    (hle : ∀ k, l.containsPackageKey k = true → l'.containsPackageKey k = true) :
    EdgesStored url l' key dependencies aliases := by
  intro name dependency hdep
  obtain ⟨target, htarget, hself, halias, hpresent⟩ :=
    validateDependencyTarget_eq_ok.mp (h name dependency hdep)
  exact validateDependencyTarget_eq_ok.mpr ⟨target, htarget, hself, halias, hle _ hpresent⟩

theorem checkEdges_eq_ok {P : Type} {dependencies aliases : P → OrdMap String String}
    {present : String → Bool} {entries : List (String × P)} {u : Unit} :
    checkEdges url dependencies aliases present entries = .ok u ↔
      ∀ key p, (key, p) ∈ entries → ∀ name dependency, (dependencies p).get? name = some dependency →
        validateDependencyTarget url key name dependency (aliases p) present = .ok () := by
  rw [checkEdges, checkAll_eq_ok]
  constructor
  · intro h key p hmem name dependency hdep
    exact (checkAll_eq_ok.mp (h (key, p) hmem)) (name, dependency) (OrdMap.mem_entries.mpr hdep)
  · rintro h ⟨key, p⟩ hmem
    rw [checkAll_eq_ok]
    rintro ⟨name, dependency⟩ hdep
    exact h key p hmem name dependency (OrdMap.mem_entries.mp hdep)

/-- A collected batch holds exactly the listed entries under fresh keys. -/
theorem collectBatch_eq_ok {P : Type} {validate : P → Except LockfileError Unit} {key : P → String}
    {taken : String → Bool} {ps : List P} {batch batch' : OrdMap String P}
    (h : collectBatch validate key taken ps batch = .ok batch') :
    batch' = batch.insertAll (ps.map fun p => (key p, p)) ∧
      ∀ p ∈ ps, validate p = .ok () ∧ taken (key p) = false := by
  induction ps generalizing batch with
  | nil =>
    obtain rfl := Except.ok.inj h
    exact ⟨rfl, by simp⟩
  | cons p ps ih =>
    simp only [collectBatch, bind_eq_ok, rejectIf_eq_ok, not_or] at h
    obtain ⟨_, hvalid, _, ⟨htaken, _⟩, hrest⟩ := h
    obtain ⟨hbatch, hall⟩ := ih hrest
    refine ⟨hbatch, fun q hq => ?_⟩
    rcases List.mem_cons.mp hq with rfl | hq
    · exact ⟨hvalid, by simpa using htaken⟩
    · exact hall q hq

end Stored

end Lockfile

/-- An entry without its hook outputs. -/
def LockedPackage.withoutHooks (p : LockedPackage) : LockedPackage := { p with derivedHooks := [] }

namespace LockedPackage

variable {url : UrlParser}

@[simp] theorem key_withHooks (p : LockedPackage) (outputs : List DerivedHookOutput) :
    ({ p with derivedHooks := outputs } : LockedPackage).key url = p.key url := rfl

theorem validateEvidence_eq_ok {p : LockedPackage} {source : PackageSource} {u : Unit} :
    p.validateEvidence url source = .ok u ↔
      (source.registry.isSome = true → validateRegistryUrl url p.registry = .ok ()) ∧
      (source.registry.isSome = false →
        p.registryIntegrityDeclared = none ∧ p.artifactUrl = none ∧ p.derivedHooks = []) := by
  rw [validateEvidence]
  cases hreg : source.registry.isSome <;> simp [not_or]

/-- The facts behind a successful validation. -/
structure Valid (url : UrlParser) (p : LockedPackage) (source : PackageSource) : Prop where
  source_eq : PackageSource.parse url p.registry = .ok source
  canonical : source.identity = p.registry
  name : ∃ n, PackageName.parse p.name = .ok n
  version : ∃ v, PackageVersion.fromStr p.version = .ok v
  integrity : ∃ i, PackageIntegrity.parse p.artifactIntegrity = .ok i ∧ i.text = p.artifactIntegrity
  unpacked : ∃ d, ArtifactDigest.parse p.unpackedDigest = .ok d
  tree : ∃ d, ArtifactDigest.parse p.treeDigest = .ok d
  peer : ∃ c, decodePeerContext p.peerContext (p.key url) = .ok c
  platform : ∃ c, decodePlatformContext p.platformContext (p.key url) = .ok c
  evidence : p.validateEvidence url source = .ok ()
  artifactUrl : checkAll (validateArtifactUrl url) p.artifactUrl.toList = .ok ()
  aliases : checkAll (validateAlias url (p.key url) p.dependencies) p.dependencyAliases.entries = .ok ()
  names : ∀ name ∈ p.dependencies.keys, ∃ n, PackageName.parse name = .ok n

theorem validate_eq_ok {p : LockedPackage} : p.validate url = .ok () ↔ ∃ source, p.Valid url source := by
  simp only [validate, bind_eq_ok, mapError_eq_ok, rejectIf_eq_ok, not_not, checkAll_eq_ok (f := fun _ =>
    _ >>= _), pure_eq_ok, and_true]
  constructor
  · rintro ⟨source, hsource, _, hcanon, n, hn, v, hv, i, hi, _, hint, d, hd, t, ht, c, hc, q, hq, _,
      hev, _, hurl, _, halias, hnames⟩
    exact ⟨source, hsource, hcanon, ⟨n, hn⟩, ⟨v, hv⟩, ⟨i, hi, hint⟩, ⟨d, hd⟩, ⟨t, ht⟩, ⟨c, hc⟩, ⟨q, hq⟩,
      hev, hurl, halias, hnames⟩
  · rintro ⟨source, h⟩
    obtain ⟨n, hn⟩ := h.name
    obtain ⟨v, hv⟩ := h.version
    obtain ⟨i, hi, hint⟩ := h.integrity
    obtain ⟨d, hd⟩ := h.unpacked
    obtain ⟨t, ht⟩ := h.tree
    obtain ⟨c, hc⟩ := h.peer
    obtain ⟨q, hq⟩ := h.platform
    exact ⟨source, h.source_eq, (), h.canonical, n, hn, v, hv, i, hi, (), hint, d, hd, t, ht, c, hc, q,
      hq, (), h.evidence, (), h.artifactUrl, (), h.aliases, h.names⟩

theorem Valid.isCopied_iff {p : LockedPackage} {source : PackageSource} (h : p.Valid url source) :
    p.isCopied url = true ↔ source.registry.isSome = false := by
  simp [isCopied, LockedPackage.source, h.source_eq, Except.toOption]

/-- Hook outputs only matter to the evidence of copied packages. -/
theorem validate_iff_withoutHooks {p : LockedPackage} : p.validate url = .ok () ↔
    p.withoutHooks.validate url = .ok () ∧ (p.isCopied url = true → p.derivedHooks = []) := by
  rw [validate_eq_ok, validate_eq_ok]
  constructor
  · rintro ⟨source, h⟩
    have hev := validateEvidence_eq_ok.mp h.evidence
    refine ⟨⟨source, { h with evidence := validateEvidence_eq_ok.mpr ⟨hev.1, fun hs => ?_⟩ }⟩,
      fun hcopied => (hev.2 (h.isCopied_iff.mp hcopied)).2.2⟩
    exact ⟨(hev.2 hs).1, (hev.2 hs).2.1, rfl⟩
  · rintro ⟨⟨source, h⟩, hcopied⟩
    have hev := validateEvidence_eq_ok.mp h.evidence
    refine ⟨source, { h with evidence := validateEvidence_eq_ok.mpr ⟨hev.1, fun hs => ?_⟩ }⟩
    exact ⟨(hev.2 hs).1, (hev.2 hs).2.1, hcopied (h.isCopied_iff.mpr hs)⟩

end LockedPackage

namespace Lockfile

variable {url : UrlParser} {codec : JsonCodec}

/-- What the checks of the operations establish about a lockfile. -/
structure Stored (url : UrlParser) (l : Lockfile) : Prop where
  version : isSupportedVersion l.lockfileVersion = true
  digest : canonicalArtifactDigest l.rootManifestDigest = .ok l.rootManifestDigest
  package : ∀ k p, l.packages.get? k = some p → k = p.key url ∧
    p.withoutHooks.validate url = .ok () ∧ EdgesStored url l k p.dependencies p.dependencyAliases
  workspacePackage : ∀ k p, l.workspacePackages.get? k = some p → k = p.key ∧
    p.validate url = .ok () ∧ EdgesStored url l k p.dependencies p.dependencyAliases
  rootsCanonical : sortDedup l.roots = l.roots
  roots : ∀ r ∈ l.roots, l.checkRoot url r = .ok ()
  bindings : l.rootBindings.isEmpty = false → checkBindings url l.roots l.rootBindings = .ok ()

/-! ### Preservation -/

theorem checkRoot_mono {l l' : Lockfile} {root : String} {u : Unit}
    (h : l.checkRoot url root = .ok u)
    (hle : ∀ k, l.containsPackageKey k = true → l'.containsPackageKey k = true) :
    l'.checkRoot url root = .ok () := by
  simp only [checkRoot, bind_eq_ok, rejectIf_eq_ok, not_not] at h ⊢
  obtain ⟨key, hkey, hmem⟩ := h
  exact ⟨key, hkey, hle _ hmem⟩

theorem sortDedup_idem (roots : List String) : sortDedup (sortDedup roots) = sortDedup roots := by
  refine congrArg OrdSet.elems (OrdSet.ext_mem fun x => ?_)
  rw [OrdSet.mem_ofList, sortDedup, OrdSet.mem_def]

theorem Stored.new {d : String} {l : Lockfile} (h : Lockfile.new d = .ok l) : Stored url l := by
  simp only [Lockfile.new, bind_eq_ok, pure_eq_ok] at h
  obtain ⟨digest, hdigest, rfl⟩ := h
  simp only [canonicalArtifactDigest, mapError_eq_ok, map_eq_ok] at hdigest
  obtain ⟨parsed, hparsed, rfl⟩ := hdigest
  have hcanon : canonicalArtifactDigest parsed.text = .ok parsed.text := by
    simp only [canonicalArtifactDigest, mapError_eq_ok, map_eq_ok]
    exact ⟨parsed, ArtifactDigest.parse_text_of_parse hparsed, rfl⟩
  exact {
    version := rfl
    digest := hcanon
    package := fun k p hp => by simp at hp
    workspacePackage := fun k p hp => by simp at hp
    rootsCanonical := rfl
    roots := fun r hr => by simp at hr
    bindings := fun hb => by cases hb }

/-- An entry found after a batch insertion was listed or was there before. -/
theorem get?_insertBatch {P : Type} {m : OrdMap String P} {key : P → String} {ps : List P}
    {k : String} {p : P} (h : (m.insertAll (ps.map fun p => (key p, p))).get? k = some p) :
    ((OrdMap.ofList (ps.map fun p => (key p, p))).get? k = some p ∧ p ∈ ps ∧ k = key p) ∨
      m.get? k = some p := by
  rw [OrdMap.get?_insertAll] at h
  rcases Option.or_eq_some_iff.mp h with h | ⟨_, h⟩
  · obtain ⟨q, hq, heq⟩ := List.mem_map.mp (OrdMap.mem_of_get?_ofList h)
    obtain ⟨rfl, rfl⟩ := Prod.mk.inj heq
    exact Or.inl ⟨h, hq, rfl⟩
  · exact Or.inr h

theorem isSupportedVersion_copied :
    isSupportedVersion Schema.copiedSourceLockfileVersion = true := rfl

/-- **A checked batch keeps the invariant.** -/
theorem Stored.withGraph {l : Lockfile} (hl : Stored url l) {rs : List LockedPackage}
    {ws : List LockedWorkspacePackage} (h : checkGraph url l rs ws = .ok ()) :
    Stored url (l.withGraph url rs ws) := by
  simp only [checkGraph, bind_eq_ok] at h
  obtain ⟨rb, hrb, wb, hwb, _, hre, hwe⟩ := h
  obtain ⟨rfl, hrs⟩ := collectBatch_eq_ok hrb
  obtain ⟨rfl, hws⟩ := collectBatch_eq_ok hwb
  rw [checkEdges_eq_ok] at hre hwe
  have hcontains : ∀ k, (l.withGraph url rs ws).containsPackageKey k =
      (l.containsPackageKey k || (OrdMap.insertAll ∅ (rs.map fun p => (p.key url, p))).contains k ||
        (OrdMap.insertAll ∅ (ws.map fun p => (p.key, p))).contains k) := fun k => by
    simp only [containsPackageKey, Lockfile.withGraph, OrdMap.contains_insertAll]
    have he : ∀ {V : Type}, (∅ : OrdMap String V).contains k = false := fun {V} => rfl
    simp only [he, Bool.false_or]
    cases l.packages.contains k <;> cases l.workspacePackages.contains k <;> simp [Bool.or_comm]
  have hle : ∀ k, l.containsPackageKey k = true →
      (l.withGraph url rs ws).containsPackageKey k = true := fun k hk => by
    rw [hcontains, hk]
    rfl
  exact {
    version := by
      simp only [Lockfile.withGraph]
      split_ifs
      · exact isSupportedVersion_copied
      · exact hl.version
    digest := hl.digest
    package := fun k p hp => by
      rcases get?_insertBatch hp with ⟨hbatch, hmem, rfl⟩ | hold
      · refine ⟨rfl, (LockedPackage.validate_iff_withoutHooks.mp (hrs p hmem).1).1, ?_⟩
        intro name dependency hdep
        have := hre _ p (OrdMap.mem_entries.mpr hbatch) name dependency hdep
        simpa only [← hcontains] using this
      · obtain ⟨hkey, hvalid, hedges⟩ := hl.package k p hold
        exact ⟨hkey, hvalid, hedges.mono hle⟩
    workspacePackage := fun k p hp => by
      rcases get?_insertBatch hp with ⟨hbatch, hmem, rfl⟩ | hold
      · refine ⟨rfl, (hws p hmem).1, ?_⟩
        intro name dependency hdep
        have := hwe _ p (OrdMap.mem_entries.mpr hbatch) name dependency hdep
        simpa only [← hcontains] using this
      · obtain ⟨hkey, hvalid, hedges⟩ := hl.workspacePackage k p hold
        exact ⟨hkey, hvalid, hedges.mono hle⟩
    rootsCanonical := hl.rootsCanonical
    roots := fun r hr => checkRoot_mono (hl.roots r hr) hle
    bindings := hl.bindings }

/-- Replacing the hook outputs of an entry keeps the invariant. -/
theorem Stored.withDerivedHooks {l : Lockfile} (hl : Stored url l) {key : String}
    {package : LockedPackage} (hp : l.packages.get? key = some package)
    (outputs : List DerivedHookOutput) : Stored url (l.withDerivedHooks key package outputs) := by
  have hcontains : ∀ k, (l.withDerivedHooks key package outputs).containsPackageKey k =
      l.containsPackageKey k := fun k => by
    simp only [containsPackageKey, Lockfile.withDerivedHooks, OrdMap.contains_insert]
    by_cases hk : k = key
    · simp [hk, OrdMap.contains, hp]
    · rw [beq_false_of_ne hk, Bool.false_or]
  have hle : ∀ k, l.containsPackageKey k = true →
      (l.withDerivedHooks key package outputs).containsPackageKey k = true := fun k hk => by
    rw [hcontains, hk]
  exact {
    version := by
      have hv := hl.version
      simp only [Lockfile.withDerivedHooks]
      split_ifs
      · simp only [isSupportedVersion, Schema.copiedSourceLockfileVersion, Schema.lockfileVersion,
          Schema.lifecycleLockfileVersion, Schema.legacyLockfileVersion,
          Schema.provenanceLegacyLockfileVersion, Schema.registryOnlyLockfileVersion,
          Schema.rootsLegacyLockfileVersion, Bool.or_eq_true, beq_iff_eq] at hv ⊢
        omega
      · exact hv
    digest := hl.digest
    package := fun k p hk => by
      rw [Lockfile.withDerivedHooks, OrdMap.get?_insert] at hk
      split_ifs at hk with hkey
      · obtain rfl := Option.some_inj.mp hk
        obtain ⟨hkey', hvalid, hedges⟩ := hl.package key package hp
        exact ⟨hkey.trans hkey', hvalid, hkey ▸ hedges.mono hle⟩
      · obtain ⟨hkey', hvalid, hedges⟩ := hl.package k p hk
        exact ⟨hkey', hvalid, hedges.mono hle⟩
    workspacePackage := fun k p hk => by
      obtain ⟨hkey', hvalid, hedges⟩ := hl.workspacePackage k p hk
      exact ⟨hkey', hvalid, hedges.mono hle⟩
    rootsCanonical := hl.rootsCanonical
    roots := fun r hr => checkRoot_mono (hl.roots r hr) hle
    bindings := hl.bindings }

/-- **Every checked update keeps the invariant.** -/
theorem Stored.update {l l' : Lockfile} (hl : Stored url l) {m : Mutation}
    (h : m.checked url l = .ok l') : Stored url l' := by
  cases m with
  | insertGraph rs ws =>
    obtain ⟨_, hcheck, rfl⟩ := map_eq_ok.mp h
    exact hl.withGraph hcheck
  | insertPackage p =>
    obtain ⟨_, hcheck, rfl⟩ := map_eq_ok.mp h
    exact hl.withGraph hcheck
  | insertPackages ps =>
    obtain ⟨_, hcheck, rfl⟩ := map_eq_ok.mp h
    exact hl.withGraph hcheck
  | insertWorkspacePackage p =>
    obtain ⟨_, hcheck, rfl⟩ := map_eq_ok.mp h
    exact hl.withGraph hcheck
  | setRoots roots =>
    obtain ⟨_, hcheck, rfl⟩ := map_eq_ok.mp h
    exact { hl with
      rootsCanonical := sortDedup_idem roots
      roots := fun r hr => checkAll_eq_ok.mp hcheck r hr
      bindings := fun hb => by cases hb }
  | setRootBindings bindings =>
    obtain ⟨_, hcheck, rfl⟩ := map_eq_ok.mp h
    exact { hl with bindings := fun _ => hcheck }
  | setDerivedHooks key outputs =>
    simp only [Mutation.checked, bind_eq_ok, orError_eq_ok, pure_eq_ok] at h
    obtain ⟨_, _, package, hp, rfl⟩ := h
    exact hl.withDerivedHooks hp outputs

theorem Stored.sourceGraph {l : Lockfile} (hl : Stored url l) : Stored url l.sourceGraph := by
  have hcontains : ∀ k, l.sourceGraph.containsPackageKey k = l.containsPackageKey k := fun k => by
    simp [containsPackageKey, Lockfile.sourceGraph, OrdMap.contains, OrdMap.get?_mapVal]
  have hle : ∀ k, l.containsPackageKey k = true → l.sourceGraph.containsPackageKey k = true :=
    fun k hk => by rw [hcontains, hk]
  exact {
    version := by
      simp only [Lockfile.sourceGraph]
      split_ifs
      · rfl
      · exact hl.version
    digest := hl.digest
    package := fun k p hk => by
      rw [Lockfile.sourceGraph, OrdMap.get?_mapVal] at hk
      obtain ⟨q, hq, rfl⟩ := Option.map_eq_some_iff.mp hk
      obtain ⟨hkey, hvalid, hedges⟩ := hl.package k q hq
      exact ⟨hkey, hvalid, hedges.mono hle⟩
    workspacePackage := fun k p hk => by
      obtain ⟨hkey, hvalid, hedges⟩ := hl.workspacePackage k p hk
      exact ⟨hkey, hvalid, hedges.mono hle⟩
    rootsCanonical := hl.rootsCanonical
    roots := fun r hr => checkRoot_mono (hl.roots r hr) hle
    bindings := hl.bindings }

/-! ### Documents -/

/-- The checks of a document, as facts. -/
structure Accepted (url : UrlParser) (l : Lockfile) : Prop where
  rooted : ¬ (Schema.provenanceLegacyLockfileVersion ≤ l.lockfileVersion ∧ l.hasPackages = true ∧
    l.roots = [])
  provenance : l.checkProvenance url Schema.registryOnlyLockfileVersion = .ok ()
  rootsCanonical : sortDedup l.roots = l.roots
  workspaceVersion : ¬ (l.lockfileVersion < Schema.lockfileVersion ∧
    ¬ l.workspacePackages.isEmpty = true)
  roots : ∀ r ∈ l.roots, l.checkRoot url r = .ok ()
  schema : l.validateAliasSchema url = .ok ()
  bindings : l.rootBindings.isEmpty = false → checkBindings url l.roots l.rootBindings = .ok ()
  packages : ∀ e ∈ l.packages.entries,
    checkEntry url (LockedPackage.validate url) (LockedPackage.key url) e = .ok ()
  workspacePackages : ∀ e ∈ l.workspacePackages.entries,
    checkEntry url (LockedWorkspacePackage.validate url) LockedWorkspacePackage.key e = .ok ()
  packageEdges : checkEdges url LockedPackage.dependencies LockedPackage.dependencyAliases
    l.containsPackageKey l.packages.entries = .ok ()
  workspaceEdges : checkEdges url LockedWorkspacePackage.dependencies
    LockedWorkspacePackage.dependencyAliases l.containsPackageKey l.workspacePackages.entries = .ok ()

theorem rewriteBindings_eq_ok {l : Lockfile} {u : Unit} : l.rewriteBindings url = .ok u ↔
    (l.rootBindings.isEmpty = false → checkBindings url l.roots l.rootBindings = .ok ()) := by
  rw [rewriteBindings, Mutation.setRootBindings_run]
  cases l.rootBindings.isEmpty <;> cases checkBindings url l.roots l.rootBindings <;>
    simp [Except.map, Mutation.settle]

theorem checkDocument_eq_ok {l : Lockfile} : l.checkDocument url = .ok () ↔ Accepted url l := by
  simp only [checkDocument, bind_eq_ok, rejectIf_eq_ok, checkAll_eq_ok, rewriteBindings_eq_ok, not_not]
  constructor
  · rintro ⟨_, h1, _, h2, _, h3, _, h4, _, h5, _, h6, _, h7, _, h8, _, h9, _, h10, h11⟩
    exact ⟨h1, h2, h3, h4, h5, h6, h7, h8, h9, h10, h11⟩
  · rintro ⟨h1, h2, h3, h4, h5, h6, h7, h8, h9, h10, h11⟩
    exact ⟨(), h1, (), h2, (), h3, (), h4, (), h5, (), h6, (), h7, (), h8, (), h9, (), h10, h11⟩

theorem checkEntry_eq_ok {P : Type} {validate : P → Except LockfileError Unit} {key : P → String}
    {entry : String × P} {u : Unit} : checkEntry url validate key entry = .ok u ↔
      (∃ k, LockfilePackageKey.parse url entry.1 = .ok k) ∧ validate entry.2 = .ok () ∧
        entry.1 = key entry.2 := by
  simp only [checkEntry, bind_eq_ok, rejectIf_eq_ok, not_not]
  constructor
  · rintro ⟨k, hk, _, hvalid, hkey⟩
    exact ⟨⟨k, hk⟩, hvalid, hkey⟩
  · rintro ⟨⟨k, hk⟩, hvalid, hkey⟩
    exact ⟨k, hk, (), hvalid, hkey⟩

/-- An accepted document satisfies the invariant. -/
theorem Accepted.stored {l : Lockfile} (h : Accepted url l)
    (hversion : isSupportedVersion l.lockfileVersion = true)
    (hdigest : canonicalArtifactDigest l.rootManifestDigest = .ok l.rootManifestDigest) :
    Stored url l := by
  have hpe := checkEdges_eq_ok.mp h.packageEdges
  have hwe := checkEdges_eq_ok.mp h.workspaceEdges
  exact {
    version := hversion
    digest := hdigest
    package := fun k p hp => by
      have hmem := OrdMap.mem_entries.mpr hp
      obtain ⟨_, hvalid, hkey⟩ := checkEntry_eq_ok.mp (h.packages (k, p) hmem)
      exact ⟨hkey, (LockedPackage.validate_iff_withoutHooks.mp hvalid).1, hpe k p hmem⟩
    workspacePackage := fun k p hp => by
      have hmem := OrdMap.mem_entries.mpr hp
      obtain ⟨_, hvalid, hkey⟩ := checkEntry_eq_ok.mp (h.workspacePackages (k, p) hmem)
      exact ⟨hkey, hvalid, hwe k p hmem⟩
    rootsCanonical := h.rootsCanonical
    roots := h.roots
    bindings := h.bindings }

theorem canonicalArtifactDigest_idem {value d : String} (h : canonicalArtifactDigest value = .ok d) :
    canonicalArtifactDigest d = .ok d := by
  simp only [canonicalArtifactDigest, mapError_eq_ok, map_eq_ok] at h ⊢
  obtain ⟨parsed, hparsed, rfl⟩ := h
  exact ⟨parsed, ArtifactDigest.parse_text_of_parse hparsed, rfl⟩

theorem Stored.fromJson {input : String} {l : Lockfile} (h : fromJson url codec input = .ok l) :
    Stored url l := by
  simp only [Lockfile.fromJson, bind_eq_ok, mapError_eq_ok, rejectIf_eq_ok, not_not, pure_eq_ok] at h
  obtain ⟨value, _, parsed, _, _, hversion, digest, hdigest, _, hcheck, rfl⟩ := h
  exact (checkDocument_eq_ok.mp hcheck).stored hversion (canonicalArtifactDigest_idem hdigest)

/-! ### Reachable lockfiles -/

/-- The lockfile an operation leaves behind, whether it succeeded or not. -/
def leftover : EStateM.Result LockfileError Lockfile Unit → Lockfile
  | .ok _ l => l
  | .error _ l => l

/-- The lockfiles the public interface can produce. -/
inductive Reachable (url : UrlParser) (codec : JsonCodec) : Lockfile → Prop where
  | new {digest : String} {l : Lockfile} (h : Lockfile.new digest = .ok l) : Reachable url codec l
  | fromJson {input : String} {l : Lockfile} (h : Lockfile.fromJson url codec input = .ok l) :
      Reachable url codec l
  | mutate {l : Lockfile} (m : Mutation) (h : Reachable url codec l) :
      Reachable url codec (leftover (m.run url l))
  | sourceGraph {l : Lockfile} (h : Reachable url codec l) : Reachable url codec l.sourceGraph

theorem Reachable.mutates {url : UrlParser} {codec : JsonCodec} {l : Lockfile} (h : Reachable url codec l)
    (ms : List Mutation) : Reachable url codec (ms.foldl (fun l m => leftover (m.run url l)) l) := by
  induction ms generalizing l with
  | nil => exact h
  | cons m ms ih => exact ih (h.mutate m)

/-- **Every reachable lockfile passed the checks of its operations.** -/
theorem Reachable.stored {l : Lockfile} (h : Reachable url codec l) : Stored url l := by
  induction h with
  | new h => exact Stored.new h
  | fromJson h => exact Stored.fromJson h
  | @mutate l m _ ih =>
    rw [Mutation.run_eq]
    cases hc : m.checked url l with
    | ok l' => exact ih.update hc
    | error e => exact ih
  | sourceGraph _ ih => exact ih.sourceGraph

/-! ### The graph invariant -/

/-- Edges of an entry: they target other existing entries, and the alias
metadata names exactly the edges whose local name is not the target's name. -/
structure EdgeInvariant (url : UrlParser) (l : Lockfile) (key : String)
    (dependencies aliases : OrdMap String String) : Prop where
  targets : ∀ name dependency, dependencies.get? name = some dependency →
    l.containsPackageKey dependency = true ∧ dependency ≠ key
  aliases : ∀ name actual, aliases.get? name = some actual ↔
    ∃ dependency target, dependencies.get? name = some dependency ∧
      LockfilePackageKey.parse url dependency = .ok target ∧ target.name.text = actual ∧
      name ≠ actual

/-- Keys, edges, aliases, roots and bindings of a lockfile fit together. -/
structure GraphInvariant (url : UrlParser) (l : Lockfile) : Prop where
  packageKeys : ∀ k p, l.packages.get? k = some p → k = p.key url
  workspaceKeys : ∀ k p, l.workspacePackages.get? k = some p → k = p.key
  packageEdges : ∀ k p, l.packages.get? k = some p →
    EdgeInvariant url l k p.dependencies p.dependencyAliases
  workspaceEdges : ∀ k p, l.workspacePackages.get? k = some p →
    EdgeInvariant url l k p.dependencies p.dependencyAliases
  rootsSorted : l.roots.Pairwise (· < ·)
  rootsExist : ∀ r ∈ l.roots, l.containsPackageKey r = true
  bindingTargets : ∀ name target, l.rootBindings.get? name = some target → target ∈ l.roots
  bindingsCover : l.rootBindings.isEmpty = false → ∀ r ∈ l.roots, isNonWorkspaceRoot url r = true →
    ∃ name, l.rootBindings.get? name = some r

theorem edgeInvariant_of_stored {l : Lockfile} {key package : String}
    {dependencies aliases : OrdMap String String}
    (hedges : EdgesStored url l key dependencies aliases)
    (haliases : checkAll (validateAlias url package dependencies) aliases.entries = .ok ()) :
    EdgeInvariant url l key dependencies aliases := by
  refine ⟨fun name dependency hdep => ?_, fun name actual => ⟨fun hget => ?_, ?_⟩⟩
  · obtain ⟨target, _, hself, _, hpresent⟩ :=
      validateDependencyTarget_eq_ok.mp (hedges name dependency hdep)
    exact ⟨hpresent, hself⟩
  · exact validateAlias_eq_ok
      (checkAll_eq_ok.mp haliases (name, actual) (OrdMap.mem_entries.mpr hget))
  · rintro ⟨dependency, target, hdep, htarget, rfl, hne⟩
    obtain ⟨target', htarget', _, halias, _⟩ :=
      validateDependencyTarget_eq_ok.mp (hedges name dependency hdep)
    rw [htarget] at htarget'
    obtain rfl := Except.ok.inj htarget'
    exact halias hne.symm

theorem checkBindings_eq_ok {roots : List String} {bindings : OrdMap String String} {u : Unit}
    (h : checkBindings url roots bindings = .ok u) :
    (∀ name target, bindings.get? name = some target → target ∈ roots) ∧
      ∀ r ∈ roots, isNonWorkspaceRoot url r = true → ∃ name, bindings.get? name = some r := by
  simp only [checkBindings, bind_eq_ok, checkAll_eq_ok, rejectIf_eq_ok, not_and, not_not] at h
  obtain ⟨_, htargets, hcover⟩ := h
  refine ⟨fun name target hget => ?_, fun r hr hws => ?_⟩
  · obtain ⟨_, _, _, _, hmem⟩ := htargets (name, target) (OrdMap.mem_entries.mpr hget)
    exact hmem
  · by_contra hnone
    exact hcover r hr (fun hmem => hnone (OrdMap.mem_values.mp hmem)) hws

/-- **The graph invariant.** -/
theorem Stored.graphInvariant {l : Lockfile} (h : Stored url l) : GraphInvariant url l := by
  refine {
    packageKeys := fun k p hp => (h.package k p hp).1
    workspaceKeys := fun k p hp => (h.workspacePackage k p hp).1
    packageEdges := fun k p hp => ?_
    workspaceEdges := fun k p hp => ?_
    rootsSorted := ?_
    rootsExist := fun r hr => ?_
    bindingTargets := fun name target hget => ?_
    bindingsCover := fun hb => (checkBindings_eq_ok (h.bindings hb)).2 }
  · obtain ⟨_, hvalid, hedges⟩ := h.package k p hp
    obtain ⟨source, hv⟩ := LockedPackage.validate_eq_ok.mp hvalid
    exact edgeInvariant_of_stored hedges hv.aliases
  · obtain ⟨_, hvalid, hedges⟩ := h.workspacePackage k p hp
    simp only [LockedWorkspacePackage.validate, bind_eq_ok] at hvalid
    obtain ⟨_, _, _, _, _, _, _, _, _, _, haliases⟩ := hvalid
    exact edgeInvariant_of_stored hedges haliases
  · rw [← h.rootsCanonical]
    exact (OrdSet.ofList l.roots).sorted
  · have := h.roots r hr
    simp only [checkRoot, bind_eq_ok, rejectIf_eq_ok, not_not] at this
    exact this.choose_spec.2
  · refine (checkBindings_eq_ok (h.bindings ?_)).1 name target hget
    rw [Bool.eq_false_iff]
    intro hempty
    rw [OrdMap.isEmpty_iff.mp hempty] at hget
    simp at hget

/-- **Lockfile graph invariant.**  It holds of every reachable lockfile; every
mutating operation keeps it, and one that fails leaves the lockfile as it was. -/
theorem reachable_graphInvariant {l : Lockfile} (h : Reachable url codec l) :
    GraphInvariant url l ∧ ∀ m : Mutation,
      match m.run url l with
      | .ok _ l' => GraphInvariant url l'
      | .error _ l' => l' = l := by
  refine ⟨h.stored.graphInvariant, fun m => ?_⟩
  rw [Mutation.run_eq]
  cases hc : m.checked url l with
  | ok l' => exact (h.stored.update hc).graphInvariant
  | error e => rfl

/-! ### A sample lockfile -/

/-- A URL parser that knows one registry. -/
def npmRegistry : UrlParser := fun s =>
  if s = "https://registry.npmjs.org" then
    some ⟨"https", "", none, some "registry.npmjs.org", none, "/", none, none,
      "https://registry.npmjs.org/"⟩
  else none

def sampleDigest : String :=
  "sha256-aaaaaaaaaaaaaaaaaaaaaaaaaaaaaaaaaaaaaaaaaaaaaaaaaaaaaaaaaaaaaaaa"

def sampleIntegrity : String :=
  "sha512-AAAAAAAAAAAAAAAAAAAAAAAAAAAAAAAAAAAAAAAAAAAAAAAAAAAAAAAAAAAAAAAAAAAAAAAAAAAAAAAAAAAAAA=="

/-- A registry package without dependencies. -/
def samplePackage : LockedPackage :=
  { registry := "https://registry.npmjs.org", name := "left-pad", version := "1.3.0",
    artifactIntegrity := sampleIntegrity, registryIntegrityDeclared := some true,
    unpackedDigest := sampleDigest, treeDigest := sampleDigest, derivedHooks := [],
    artifactUrl := none, peerContext := "", platformContext := "os=;cpu=;libc=",
    dependencies := ∅, dependencyAliases := ∅ }

/-- The lockfile `new` returns. -/
def emptyLockfile : Lockfile := ⟨Schema.lockfileVersion, sampleDigest, "0", "0", [], ∅, ∅, ∅⟩

/-- A lockfile after one insertion. -/
def sampleLockfile : Lockfile := emptyLockfile.withGraph npmRegistry [samplePackage] []

/-- A codec that writes nothing and reads nothing. -/
def noCodec : JsonCodec := ⟨fun _ => "", fun _ => .error "EOF while parsing a value"⟩

theorem new_sampleDigest : Lockfile.new sampleDigest = .ok emptyLockfile := by decide

theorem insert_samplePackage :
    (Mutation.insertPackage samplePackage).run npmRegistry emptyLockfile = .ok () sampleLockfile := by
  have hcheck : checkGraph npmRegistry emptyLockfile [samplePackage] [] = .ok () := by
    decide
  rw [Mutation.run_eq, Mutation.checked, hcheck]
  rfl

/-- A package that depends on the other one under another name. -/
def appPackage : LockedPackage :=
  { samplePackage with
    name := "app"
    dependencies := (∅ : OrdMap String String).insert "pad" (samplePackage.key npmRegistry)
    dependencyAliases := (∅ : OrdMap String String).insert "pad" "left-pad" }

def appKey : String := appPackage.key npmRegistry

/-- Both packages; the dependent one is a root and bound to its name. -/
def boundMutations : List Mutation :=
  [.insertPackages [appPackage, samplePackage], .setRoots [appKey],
    .setRootBindings ((∅ : OrdMap String String).insert "app" appKey)]

def boundLockfile : Lockfile :=
  boundMutations.foldl (fun l m => leftover (m.run npmRegistry l)) emptyLockfile

theorem reachable_graphInvariant_boundLockfile :
    (boundLockfile.packages.get? appKey = some appPackage ∧ boundLockfile.rootBindings.get? "app" = some appKey) ∧
      GraphInvariant npmRegistry boundLockfile := by
  refine ⟨by decide +kernel, ?_⟩
  have hnew : Reachable npmRegistry noCodec emptyLockfile := Reachable.new new_sampleDigest
  exact (reachable_graphInvariant (hnew.mutates boundMutations)).1

end Lockfile

end Tapid
