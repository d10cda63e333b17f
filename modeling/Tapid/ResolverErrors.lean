/-
What the failures of a resolution name.

Missing metadata and missing or conflicting candidates are packages that a root
or a package of the metadata asks for, and a peer failure repeats a peer
requirement of some package.

* `NamesAsked` — what each failure names;
* `resolveGraphWithPreferences_error` — every failure names what was asked for.
-/
import Tapid.ResolverSound

namespace Tapid

open Fallible Loop

variable {ds : List Dependency} {metadata : List RegistryMetadata} {route : Routing}
  {preferred : ResolutionPreferences}

/-- A package that a root or a record of the metadata asks for. -/
def AskedFor (ds : List Dependency) (metadata : List RegistryMetadata) (route : Routing)
    (registry : PackageSource) (name : PackageName) : Prop :=
  (∃ d ∈ ds, d.registry = registry ∧ d.requirement.packageName d.name = name) ∨
    ∃ m ∈ metadata, ∃ p ∈ m.packages, ∃ n r, p.dependencies.get? n = some r ∧
      r.packageName n = name ∧ route m.registry name = .ok registry

/-- The same by its texts. -/
def AskedText (ds : List Dependency) (metadata : List RegistryMetadata) (route : Routing)
    (registry name : String) : Prop :=
  ∃ source package, AskedFor ds metadata route source package ∧ source.identity = registry ∧
    package.text = name

/-- **What a failure names**: packages that were asked for, or a peer requirement. -/
def NamesAsked (ds : List Dependency) (metadata : List RegistryMetadata) (route : Routing) :
    ResolveError → Prop
  | .missingMetadata packages =>
    packages ≠ [] ∧ ∀ p ∈ packages, AskedText ds metadata route p.1 p.2
  | .missingCandidate _ registry name _ _ => AskedText ds metadata route registry name
  | .conflict _ registry name _ _ => AskedText ds metadata route registry name
  | .peerDependency _ peer requirement _ => ∃ m ∈ metadata, ∃ p ∈ m.packages, ∃ n r,
      p.peerDependencies.get? n = some r ∧ n.text = peer ∧ r.raw = requirement
  | _ => True

/-- Selection fails for the package it was asked for. -/
theorem namesAsked_selectKnown {registry : PackageSource} {name : PackageName}
    {requirements : OrdSet Requirement} {preferredRoot : Option PackageVersion} {origin : RequirementOrigin}
    {e : ResolveError} (hasked : AskedFor ds metadata route registry name)
    (h : selectKnown registry name requirements (candidateIndex metadata) preferred preferredRoot origin =
      .error e) : NamesAsked ds metadata route e := by
  have htext : AskedText ds metadata route registry.identity name.text := ⟨registry, name, hasked, rfl, rfl⟩
  have hselect : ∀ e, selectPackage registry name requirements (candidateIndex metadata) preferred
      preferredRoot origin = .error e → NamesAsked ds metadata route e := by
    intro e h
    simp only [selectPackage] at h
    split at h
    · cases h
    · split_ifs at h
      · obtain rfl := Except.error.inj h
        exact htext
      · obtain rfl := Except.error.inj h
        exact htext
  rw [selectKnown] at h
  split at h
  · cases h
  · next origin' reg n requirement versions hcandidate =>
    split_ifs at h
    obtain rfl := Except.error.inj h
    exact hselect _ hcandidate
  · next e' herror hother =>
    obtain rfl := Except.error.inj h
    exact hselect _ hother

/-- A constraint comes from a root. -/
theorem exists_root_of_constraint {c : RootKey × OrdSet Requirement} (h : c ∈ (rootConstraints ds).entries) :
    ∃ d ∈ ds, c.1 = rootKey d.registry d.name (d.requirement.packageName d.name) := by
  have hget := OrdMap.mem_entries.mp h
  rw [rootConstraints, OrdMap.get?_mapVal] at hget
  obtain ⟨requirements, hgroup, -⟩ := Option.map_eq_some_iff.mp hget
  obtain ⟨rfl, hne⟩ := OrdMap.mem_of_get?_group hgroup
  obtain ⟨r, hr⟩ := List.exists_mem_of_ne_nil _ hne
  obtain ⟨d, hd, hkey⟩ := List.mem_map.mp (OrdMap.mem_valuesAt.mp hr)
  exact ⟨d, hd, (Prod.mk.inj hkey).1.symm⟩

/-- Selected packages are records, and what is missing was asked for. -/
structure GraphAsked (ds : List Dependency) (metadata : List RegistryMetadata) (route : Routing)
    (state : GraphState) : Prop where
  record : ∀ id p, state.packages.get? id = some p → IsRecord metadata id p
  missing : ∀ k ∈ state.missing, AskedText ds metadata route (ofLex k).1 (ofLex k).2

namespace GraphAsked

variable {state state' : GraphState}

theorem insert_missing (h : GraphAsked ds metadata route state) {registry : PackageSource} {name : PackageName}
    (hasked : AskedFor ds metadata route registry name) : GraphAsked ds metadata route
      { state with missing := state.missing.insert (toLex (registry.identity, name.text)) } := by
  refine ⟨h.record, fun k hk => ?_⟩
  rcases OrdSet.mem_insert.mp hk with rfl | hk
  · exact ⟨registry, name, hasked, rfl, rfl⟩
  · exact h.missing k hk

theorem insert_package (h : GraphAsked ds metadata route state) {id : PackageInstanceId}
    {p : PackageVersionMetadata} (hp : IsRecord metadata id p) :
    ∀ id' p', (state.packages.insert id p).get? id' = some p' → IsRecord metadata id' p' := by
  intro id' p' hget
  rw [OrdMap.get?_insert] at hget
  split_ifs at hget with hid
  · rw [hid, ← Option.some.inj hget]
    exact hp
  · exact h.record id' p' hget

theorem selectRoot (h : GraphAsked ds metadata route state) {c : RootKey × OrdSet Requirement}
    (hc : c ∈ (rootConstraints ds).entries) : (∀ state', selectRoot (candidateIndex metadata) preferred state c = .ok state' →
        GraphAsked ds metadata route state') ∧
      ∀ e, selectRoot (candidateIndex metadata) preferred state c = .error e →
        NamesAsked ds metadata route e := by
  obtain ⟨d, hd, hkey⟩ := exists_root_of_constraint hc
  have hasked : AskedFor ds metadata route (ofLex c.1).1 (ofLex (ofLex c.1).2).2 := by
    rw [hkey]
    exact Or.inl ⟨d, hd, rfl, rfl⟩
  constructor
  · intro state' hok
    rw [Tapid.selectRoot] at hok
    obtain ⟨selection, hselection, hok⟩ := bind_eq_ok.mp hok
    cases selection with
    | unknown =>
      obtain rfl := pure_eq_ok.mp hok
      exact h.insert_missing hasked
    | found package =>
      obtain ⟨_, _, hok⟩ := bind_eq_ok.mp hok
      obtain rfl := pure_eq_ok.mp hok
      exact ⟨h.insert_package (selectKnown_found hselection).1, h.missing⟩
  · intro e herror
    rw [Tapid.selectRoot] at herror
    rcases bind_eq_error.mp herror with hselect | ⟨selection, hselection, hrest⟩
    · exact namesAsked_selectKnown hasked hselect
    · cases selection with
      | unknown => cases hrest
      | found package =>
        rcases bind_eq_error.mp hrest with hreject | ⟨_, _, hpure⟩
        · rw [← (rejectIf_eq_error.mp hreject).2]
          exact trivial
        · cases hpure

theorem expandDependency (h : GraphAsked ds metadata route state) {parent : PackageInstanceId}
    {p : PackageVersionMetadata} (hp : IsRecord metadata parent p) {declared : PackageName × Requirement}
    (hdeclared : declared ∈ p.dependencies.entries) :
    (∀ state', expandDependency (candidateIndex metadata) preferred route parent state declared = .ok state' →
        GraphAsked ds metadata route state') ∧
      ∀ e, expandDependency (candidateIndex metadata) preferred route parent state declared = .error e →
        NamesAsked ds metadata route e := by
  obtain ⟨n, r⟩ := declared
  have hasked : ∀ registry, route parent.registry (r.packageName n) = .ok registry →
      AskedFor ds metadata route registry (r.packageName n) := by
    intro registry hroute
    obtain ⟨m, hm, hregistry, hmem, -, -⟩ := hp
    exact Or.inr ⟨m, hm, p, hmem, n, r, OrdMap.mem_entries.mp hdeclared, rfl, hregistry ▸ hroute⟩
  constructor
  · intro state' hok
    rw [Tapid.expandDependency] at hok
    obtain ⟨⟨registry, selection⟩, hchild, hok⟩ := bind_eq_ok.mp hok
    rw [resolveChild] at hchild
    obtain ⟨registry', hroute, hchild⟩ := bind_eq_ok.mp hchild
    obtain ⟨selection', hselection, hchild⟩ := bind_eq_ok.mp hchild
    obtain ⟨rfl, rfl⟩ := Prod.mk.inj (pure_eq_ok.mp hchild)
    cases selection' with
    | unknown =>
      obtain rfl := pure_eq_ok.mp hok
      exact h.insert_missing (hasked _ (mapError_eq_ok.mp hroute))
    | found package =>
      dsimp only at hok
      split_ifs at hok
      · obtain rfl := pure_eq_ok.mp hok
        exact ⟨h.record, h.missing⟩
      · obtain rfl := pure_eq_ok.mp hok
        exact ⟨h.insert_package (selectKnown_found hselection).1, h.missing⟩
  · intro e herror
    rw [Tapid.expandDependency] at herror
    rcases bind_eq_error.mp herror with hchild | ⟨⟨registry, selection⟩, -, hrest⟩
    · rw [resolveChild] at hchild
      rcases bind_eq_error.mp hchild with hroute | ⟨registry, hroute, hchild⟩
      · obtain ⟨text, -, rfl⟩ := mapError_eq_error.mp hroute
        exact trivial
      · rcases bind_eq_error.mp hchild with hselect | ⟨_, _, hpure⟩
        · exact namesAsked_selectKnown (hasked _ (mapError_eq_ok.mp hroute)) hselect
        · cases hpure
    · cases selection with
      | unknown => cases hrest
      | found package =>
        dsimp only at hrest
        split_ifs at hrest
        · cases hrest
        · cases hrest

theorem expandNext (h : GraphAsked ds metadata route state) :
    (∀ state', expandNext (candidateIndex metadata) preferred route state = some (.ok state') →
        GraphAsked ds metadata route state') ∧
      ∀ e, expandNext (candidateIndex metadata) preferred route state = some (.error e) →
        NamesAsked ds metadata route e := by
  rw [Tapid.expandNext]
  split
  · exact ⟨fun _ hnone => absurd hnone (by simp), fun _ hnone => absurd hnone (by simp)⟩
  · next parent rest hqueue =>
    dsimp only
    split_ifs with hexpanded
    · refine ⟨fun state' hok => ?_, fun e herror => by cases herror⟩
      obtain rfl := Except.ok.inj (Option.some.inj hok)
      exact ⟨h.record, h.missing⟩
    · -- every declaration is one of a record
      have hstart : GraphAsked ds metadata route
          { state with queue := rest, expanded := state.expanded.insert parent } := ⟨h.record, h.missing⟩
      have hdeclared : ∀ d ∈ declaredDependencies { state with queue := rest } parent,
          ∃ p, IsRecord metadata parent p ∧ d ∈ p.dependencies.entries := by
        intro d hd
        rw [declaredDependencies] at hd
        cases hp : state.packages.get? parent with
        | none => simp [hp] at hd
        | some p =>
          refine ⟨p, h.record parent p hp, ?_⟩
          simpa [hp] using hd
      constructor
      · intro state' hok
        refine foldlM_inv (I := fun l s => (∀ d ∈ l, d ∈ declaredDependencies { state with queue := rest } parent) ∧
          GraphAsked ds metadata route s) ?_ ⟨fun _ hd => hd, hstart⟩ (Option.some.inj hok) |>.2
        rintro d l s s' ⟨hl, hs⟩ hstep
        obtain ⟨p, hp, hd⟩ := hdeclared d (hl d List.mem_cons_self)
        exact ⟨fun d' hd' => hl d' (List.mem_cons_of_mem _ hd'), (hs.expandDependency hp hd).1 s' hstep⟩
      · intro e herror
        obtain ⟨d, hd, s, hs, hfail⟩ := foldlM_error (I := GraphAsked ds metadata route)
          (fun d hd s s' hs hstep => by
            obtain ⟨p, hp, hmem⟩ := hdeclared d hd
            exact (hs.expandDependency hp hmem).1 s' hstep) hstart (Option.some.inj herror)
        obtain ⟨p, hp, hmem⟩ := hdeclared d hd
        exact (hs.expandDependency hp hmem).2 e hfail

end GraphAsked

theorem graphAsked_initial : GraphAsked ds metadata route .initial :=
  ⟨fun _ _ h => by simp [GraphState.initial] at h, fun _ h => by simp [GraphState.initial] at h⟩

theorem namesAsked_selectGraph : (∀ state, selectGraph ds metadata route preferred = .ok state →
      GraphAsked ds metadata route state) ∧
    ∀ e, selectGraph ds metadata route preferred = .error e → NamesAsked ds metadata route e := by
  have hroots : ∀ state, selectRoots ds metadata preferred = .ok state → GraphAsked ds metadata route state := by
    intro state hok
    refine (foldlM_inv (I := fun l s => (∀ c ∈ l, c ∈ (rootConstraints ds).entries) ∧
      GraphAsked ds metadata route s) ?_ ⟨fun _ hc => hc, graphAsked_initial⟩ hok).2
    rintro c l s s' ⟨hl, hs⟩ hstep
    exact ⟨fun c' hc' => hl c' (List.mem_cons_of_mem _ hc'), (hs.selectRoot (hl c List.mem_cons_self)).1 s' hstep⟩
  constructor
  · intro state hok
    rw [selectGraph] at hok
    obtain ⟨s, hs, hok⟩ := bind_eq_ok.mp hok
    exact run_inv (fun s s' hs hstep => hs.expandNext.1 s' hstep) (hroots s hs) hok
  · intro e herror
    rw [selectGraph] at herror
    rcases bind_eq_error.mp herror with hroot | ⟨s, hs, hrun⟩
    · obtain ⟨c, hc, s, hs, hfail⟩ := foldlM_error (I := GraphAsked ds metadata route)
        (fun c hc s s' hs hstep => (hs.selectRoot hc).1 s' hstep) graphAsked_initial hroot
      exact (hs.selectRoot hc).2 e hfail
    · obtain ⟨s', hs', hfail⟩ := run_error (fun s s' hs hstep => hs.expandNext.1 s' hstep) (hroots s hs) hrun
      exact hs'.expandNext.2 e hfail

/-! ### Peers -/

/-- Looking for a provider only fails on its route. -/
theorem namesAsked_findProvider {providers : OrdMap PackageName (List PackageInstanceId)}
    {id : PackageInstanceId} {peer : PackageName} {requirement : Requirement} {e : ResolveError}
    (h : findProvider route providers id peer requirement = .error e) : NamesAsked ds metadata route e := by
  have hconsider : ∀ provider candidate e, considerProvider route id peer requirement provider candidate =
      .error e → NamesAsked ds metadata route e := by
    intro provider candidate e h
    rw [considerProvider] at h
    rcases bind_eq_error.mp h with hroute | ⟨registry, -, h⟩
    · obtain ⟨text, -, rfl⟩ := mapError_eq_error.mp hroute
      exact trivial
    · split_ifs at h
      · cases h
      · rcases bind_eq_error.mp h with hreject | ⟨_, _, hpure⟩
        · rw [← (rejectIf_eq_error.mp hreject).2]
          exact trivial
        · cases hpure
  rw [findProvider] at h
  rcases bind_eq_error.mp h with hfold | ⟨provider, -, h⟩
  · obtain ⟨candidate, -, provider, -, hfail⟩ := foldlM_error (I := fun _ => True)
      (fun _ _ _ _ _ _ => trivial) trivial hfold
    exact hconsider provider candidate e hfail
  · split_ifs at h
    · rcases bind_eq_error.mp h with hroute | ⟨_, _, hpure⟩
      · obtain ⟨text, -, rfl⟩ := mapError_eq_error.mp hroute
        exact trivial
      · cases hpure
    · cases h

/-- Binding the peers of a record fails for one of its requirements. -/
theorem namesAsked_bindPeers {packages : OrdMap PackageInstanceId PackageVersionMetadata}
    {providers : OrdMap PackageName (List PackageInstanceId)}
    {contexts : OrdMap PackageInstanceId PeerContext} {entry : PackageInstanceId × PackageVersionMetadata}
    {e : ResolveError} (hentry : IsRecord metadata entry.1 entry.2)
    (h : bindPeers route packages providers contexts entry = .error e) : NamesAsked ds metadata route e := by
  rw [bindPeers] at h
  rcases bind_eq_error.mp h with hfold | ⟨_, _, hpure⟩
  · obtain ⟨⟨peer, requirement⟩, hdeclared, context, -, hfail⟩ := foldlM_error (I := fun _ => True)
      (fun _ _ _ _ _ _ => trivial) trivial hfold
    obtain ⟨m, hm, -, hmem, -, -⟩ := hentry
    have hpeer : ∀ provider, NamesAsked ds metadata route
        (.peerDependency entry.1 peer.text requirement.raw provider) := fun provider =>
      ⟨m, hm, entry.2, hmem, peer, requirement, OrdMap.mem_entries.mp hdeclared, rfl, rfl⟩
    rw [bindPeer] at hfail
    rcases bind_eq_error.mp hfail with hfind | ⟨provider, -, hfail⟩
    · exact namesAsked_findProvider hfind
    · cases provider with
      | some provider =>
        rcases bind_eq_error.mp hfail with hreject | ⟨_, _, hpure⟩
        · rw [← (rejectIf_eq_error.mp hreject).2]
          exact hpeer _
        · cases hpure
      | none =>
        rcases bind_eq_error.mp hfail with hreject | ⟨_, _, hpure⟩
        · rw [← (rejectIf_eq_error.mp hreject).2]
          exact hpeer _
        · cases hpure
  · cases hpure

/-! ### The whole resolution -/

/-- Metadata checks fail at their limits, whatever the metadata. -/
theorem checkRequest_error {options : ResolutionOptions} {e : ResolveError}
    (h : checkRequest ds metadata options = .error e) : NamesAsked ds metadata route e := by
  have hrecord : ∀ totals p e, checkRecord totals p = .error e → e = .metadataLimitExceeded := by
    intro totals p e h
    rw [checkRecord] at h
    rcases bind_eq_error.mp h with hreject | ⟨_, _, h⟩
    · exact (rejectIf_eq_error.mp hreject).2.symm
    · rcases bind_eq_error.mp h with hreject | ⟨_, _, hpure⟩
      · exact (rejectIf_eq_error.mp hreject).2.symm
      · cases hpure
  have hregistry : ∀ totals registry records e, checkRegistry totals registry records = .error e →
      e = .metadataLimitExceeded := by
    intro totals registry records e h
    rw [checkRegistry] at h
    rcases bind_eq_error.mp h with hreject | ⟨_, _, h⟩
    · exact (rejectIf_eq_error.mp hreject).2.symm
    · obtain ⟨p, -, totals', -, hfail⟩ := foldlM_error (I := fun _ => True)
        (fun _ _ _ _ _ _ => trivial) trivial h
      exact hrecord totals' p e hfail
  have hdependency : ∀ bytes d e, checkDependencyBytes bytes d = .error e → e = .metadataLimitExceeded := by
    intro bytes d e h
    rw [checkDependencyBytes] at h
    rcases bind_eq_error.mp h with hreject | ⟨_, _, hpure⟩
    · exact (rejectIf_eq_error.mp hreject).2.symm
    · cases hpure
  rw [checkRequest] at h
  rcases bind_eq_error.mp h with hreject | ⟨_, _, h⟩
  · rw [← (rejectIf_eq_error.mp hreject).2]
    exact trivial
  rcases bind_eq_error.mp h with hreject | ⟨_, _, h⟩
  · rw [← (rejectIf_eq_error.mp hreject).2]
    exact trivial
  rcases bind_eq_error.mp h with hvalidate | ⟨bytes, _, h⟩
  · rw [validateMetadata] at hvalidate
    rcases bind_eq_error.mp hvalidate with hfold | ⟨_, _, hpure⟩
    · obtain ⟨item, -, totals, -, hfail⟩ := foldlM_error (I := fun _ => True)
        (fun _ _ _ _ _ _ => trivial) trivial hfold
      rw [hregistry _ _ _ _ hfail]
      exact trivial
    · cases hpure
  rcases bind_eq_error.mp h with hreject | ⟨_, _, h⟩
  · rw [← (rejectIf_eq_error.mp hreject).2]
    exact trivial
  rcases bind_eq_error.mp h with hfold | ⟨_, _, hpure⟩
  · obtain ⟨d, -, bytes', -, hfail⟩ := foldlM_error (I := fun _ => True)
      (fun _ _ _ _ _ _ => trivial) trivial hfold
    rw [hdependency _ _ _ hfail]
    exact trivial
  · cases hpure

/-- **Every failure names what was asked for.** -/
theorem resolveGraphWithPreferences_error {options : ResolutionOptions} {e : ResolveError}
    (h : resolveGraphWithPreferences ds metadata options route preferred = .error e) :
    NamesAsked ds metadata route e := by
  rw [resolveGraphWithPreferences] at h
  rcases bind_eq_error.mp h with hcheck | ⟨_, _, h⟩
  · exact checkRequest_error hcheck
  rcases bind_eq_error.mp h with hselect | ⟨state, hstate, h⟩
  · exact namesAsked_selectGraph.2 e hselect
  have hasked := namesAsked_selectGraph.1 state hstate
  rcases bind_eq_error.mp h with hreject | ⟨_, _, h⟩
  · obtain ⟨hmissing, rfl⟩ := rejectIf_eq_error.mp hreject
    refine ⟨fun hnil => hmissing ?_, fun p hp => ?_⟩
    · rw [List.map_eq_nil_iff.mp hnil]
      rfl
    · obtain ⟨k, hk, rfl⟩ := List.mem_map.mp hp
      exact hasked.missing k hk
  rcases bind_eq_error.mp h with hfold | ⟨_, _, hpure⟩
  · obtain ⟨entry, hentry, contexts, -, hfail⟩ := foldlM_error (I := fun _ => True)
      (fun _ _ _ _ _ _ => trivial) trivial hfold
    exact namesAsked_bindPeers (hasked.record _ _ (OrdMap.mem_entries.mp hentry)) hfail
  · cases hpure

end Tapid
