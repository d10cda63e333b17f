/-
Resolution selects the greedy closure.

A root key and a declared dependency each demand a record; the record chosen is
the greatest one, by the preferences and then by version, of those that satisfy
all requirements.  The demands that are met are those of the roots and, from
there, those of the dependencies of chosen records.

The worklist only meets such demands (`Greedy`), and when its stack is empty it
has handled all of them (`Greedy.handled`).  So a failure of selection points at
a demand nothing satisfies, missing metadata is exactly what demands met know
nothing about, and otherwise the chosen records are what is selected.  Peers of
these are looked for among the choices of the root keys.

* `Demand.select_cases` — selection for one demand;
* `selectGraph_greedy` — the invariant at the end of the worklist;
* `failure_of_bindPeers` — when a peer fails;
* `resolveGraphWithPreferences_greedy` — every outcome, and when there is a graph.
-/
import Tapid.ResolverOrder

namespace Tapid

open Fallible Loop

/-! ### Demands -/

/-- Something a record has to be selected for. -/
structure Demand where
  registry : PackageSource
  name : PackageName
  requirements : OrdSet Requirement
  preferred : ResolutionPreferences
  preferredRoot : Option PackageVersion

/-- What a root key demands; a refreshed root has no preferences. -/
def rootDemand (preferred : ResolutionPreferences) (constraint : RootKey × OrdSet Requirement) : Demand :=
  let preferences := if constraint.1 ∈ preferred.refreshRoots then .none else preferred
  ⟨(ofLex constraint.1).1, (ofLex (ofLex constraint.1).2).2, constraint.2, preferences,
    preferences.roots.get? constraint.1⟩

/-- What a declared dependency demands. -/
def dependencyDemand (preferred : ResolutionPreferences) (registry : PackageSource)
    (declared : PackageName × Requirement) : Demand :=
  ⟨registry, declared.2.packageName declared.1, .ofList [declared.2], preferred, none⟩

/-- The binding a root key is recorded under. -/
def bindingKey (c : RootKey × OrdSet Requirement) : PackageKey :=
  packageKey (ofLex c.1).1 (ofLex (ofLex c.1).2).1

/-- Under one identity there is one record. -/
def Unambiguous (metadata : List RegistryMetadata) : Prop :=
  ∀ id p q, IsRecord metadata id p → IsRecord metadata id q → p = q

namespace Demand

/-- The identity of a record of the demanded package. -/
def id (d : Demand) (p : PackageVersionMetadata) : PackageInstanceId := ⟨d.registry, d.name, p.version⟩

/-- Preferred root version, preferred version, version. -/
def rank (d : Demand) (p : PackageVersionMetadata) : Bool ×ₗ Bool ×ₗ PackageVersion :=
  preferenceKey d.registry d.name d.preferred d.preferredRoot p

/-- The pair missing metadata is reported by. -/
def text (d : Demand) : String × String := (d.registry.identity, d.name.text)

section Metadata

variable (metadata : List RegistryMetadata)

/-- No record is known. -/
def Unknown (d : Demand) : Prop := ∀ p, ¬ IsRecord metadata (d.id p) p

/-- A record that satisfies all requirements. -/
def Satisfied (d : Demand) (p : PackageVersionMetadata) : Prop :=
  IsRecord metadata (d.id p) p ∧ ∀ r ∈ d.requirements, r.matchesTaggedVersion p.version p.distTags = true

/-- The greatest record that satisfies all requirements. -/
def Chosen (d : Demand) (p : PackageVersionMetadata) : Prop :=
  d.Satisfied metadata p ∧ ∀ q, d.Satisfied metadata q → d.rank q ≤ d.rank p

/-- Selection for a demand. -/
def select (d : Demand) (origin : RequirementOrigin) : Except ResolveError Selection :=
  selectKnown d.registry d.name d.requirements (candidateIndex metadata) d.preferred d.preferredRoot origin

end Metadata

variable {metadata : List RegistryMetadata} {d : Demand} {p q : PackageVersionMetadata}

theorem Chosen.not_unknown (h : d.Chosen metadata p) : ¬ d.Unknown metadata := fun hunknown =>
  hunknown p h.1.1

/-- A demand chooses one record. -/
theorem Chosen.unique (hrecords : Unambiguous metadata) (hp : d.Chosen metadata p)
    (hq : d.Chosen metadata q) : p = q := by
  have hrank := le_antisymm (hq.2 p hp.1) (hp.2 q hq.1)
  have hversion : p.version = q.version :=
    (Prod.mk.inj (toLex.injective (Prod.mk.inj (toLex.injective hrank)).2)).2
  refine hrecords (d.id p) p q hp.1.1 ?_
  have hid : d.id p = d.id q := by rw [Demand.id, Demand.id, hversion]
  rw [hid]
  exact hq.1.1

/-- Without preferences the greatest version is chosen. -/
theorem Chosen.version_le (hpreferred : d.preferred = .none) (hroot : d.preferredRoot = none)
    (hp : d.Chosen metadata p) (hq : d.Satisfied metadata q) : q.version ≤ p.version := by
  have hle := hp.2 q hq
  have hrank : ∀ p, d.rank p = toLex (false, toLex (false, p.version)) := by
    intro p
    rw [rank, preferenceKey, hpreferred, hroot]
    rfl
  rw [hrank, hrank, Prod.Lex.le_iff] at hle
  rcases hle with hlt | ⟨-, hle⟩
  · exact absurd hlt (lt_irrefl _)
  rw [Prod.Lex.le_iff] at hle
  rcases hle with hlt | ⟨-, hle⟩
  · exact absurd hlt (lt_irrefl _)
  · exact hle

/-- The candidates of a package are its records. -/
theorem mem_candidates :
    p ∈ ((candidateIndex metadata).get? (packageKey d.registry d.name)).getD [] ↔
      IsRecord metadata (d.id p) p := by
  refine ⟨isRecord_of_mem_candidates, ?_⟩
  rintro ⟨m, hm, hregistry, hp, hname, -⟩
  have hentry : p ∈ OrdMap.valuesAt (indexEntries metadata) (packageKey d.registry d.name) := by
    refine OrdMap.mem_valuesAt.mpr (List.mem_flatMap.mpr ⟨m, hm, List.mem_map.mpr ⟨p, hp, ?_⟩⟩)
    rw [hregistry, hname]
    rfl
  rw [candidateIndex, OrdMap.get?_group, if_neg (List.ne_nil_of_mem hentry)]
  exact hentry

/-- The index has exactly the packages with records. -/
theorem contains_candidates :
    (candidateIndex metadata).contains (packageKey d.registry d.name) = true ↔ ¬ d.Unknown metadata := by
  rw [OrdMap.contains_eq_true]
  constructor
  · rintro ⟨ps, hps⟩ hunknown
    obtain ⟨p, hp⟩ := List.exists_mem_of_ne_nil _ (OrdMap.mem_of_get?_group hps).2
    refine hunknown p (mem_candidates.mp ?_)
    rw [hps]
    exact hp
  · intro hknown
    obtain ⟨p, hp⟩ := not_forall_not.mp hknown
    have hmem := mem_candidates.mpr hp
    cases hget : (candidateIndex metadata).get? (packageKey d.registry d.name) with
    | none =>
      rw [hget] at hmem
      exact absurd hmem List.not_mem_nil
    | some ps => exact ⟨ps, rfl⟩

end Demand

/-- A failure of candidate selection. -/
def ResolveError.OfSelection : ResolveError → Prop
  | .missingCandidate .. => True
  | .conflict .. => True
  | _ => False

namespace Demand

variable {metadata : List RegistryMetadata} {d : Demand}

theorem selectPackage_cases (metadata : List RegistryMetadata) (d : Demand) (origin : RequirementOrigin) :
    (∃ p, selectPackage d.registry d.name d.requirements (candidateIndex metadata) d.preferred
        d.preferredRoot origin = .ok p ∧ d.Chosen metadata p) ∨
      (∃ e, selectPackage d.registry d.name d.requirements (candidateIndex metadata) d.preferred
        d.preferredRoot origin = .error e ∧ e.OfSelection) ∧ ∀ p, ¬ d.Satisfied metadata p := by
  have hfilter : ∀ p, p ∈ (((candidateIndex metadata).get? (packageKey d.registry d.name)).getD []).filter
      (satisfiesAll d.requirements) ↔ d.Satisfied metadata p := by
    intro p
    rw [List.mem_filter, mem_candidates, satisfiesAll, List.all_eq_true]
    exact Iff.rfl
  rcases maxByKey_cases d.rank ((((candidateIndex metadata).get? (packageKey d.registry d.name)).getD
      []).filter (satisfiesAll d.requirements)) with ⟨hnil, hmax⟩ | ⟨p, hp, hmax, hle⟩
  · refine Or.inr ⟨?_, fun p hp => ?_⟩
    · have hmax' : maxByKey (preferenceKey d.registry d.name d.preferred d.preferredRoot) _ = none := hmax
      simp only [selectPackage, hmax']
      split_ifs
      · exact ⟨_, rfl, trivial⟩
      · exact ⟨_, rfl, trivial⟩
    · have hmem := (hfilter p).mpr hp
      rw [hnil] at hmem
      exact List.not_mem_nil hmem
  · have hmax' : maxByKey (preferenceKey d.registry d.name d.preferred d.preferredRoot) _ = some p := hmax
    refine Or.inl ⟨p, ?_, (hfilter p).mp hp, fun q hq => hle q ((hfilter q).mpr hq)⟩
    simp only [selectPackage, hmax']

/-- **Selection for one demand**: the chosen record, nothing for a package
without records, or a failure when no record satisfies it. -/
theorem select_cases (metadata : List RegistryMetadata) (d : Demand) (origin : RequirementOrigin) :
    (∃ p, d.select metadata origin = .ok (.found p) ∧ d.Chosen metadata p) ∨
      (d.select metadata origin = .ok .unknown ∧ d.Unknown metadata) ∨
      (∃ e, d.select metadata origin = .error e ∧ e.OfSelection) ∧ ∀ p, ¬ d.Satisfied metadata p := by
  rcases selectPackage_cases metadata d origin with ⟨p, hp, hchosen⟩ | ⟨⟨e, he, hkind⟩, hnone⟩
  · exact Or.inl ⟨p, by rw [select, selectKnown, hp], hchosen⟩
  · cases e with
    | missingCandidate origin' reg n requirement versions =>
      by_cases hknown : (candidateIndex metadata).contains (packageKey d.registry d.name) = true
      · refine Or.inr (Or.inr ⟨⟨_, ?_, hkind⟩, hnone⟩)
        simp only [select, selectKnown, he, if_pos hknown]
      · refine Or.inr (Or.inl ⟨?_, not_not.mp (mt contains_candidates.mpr hknown)⟩)
        simp only [select, selectKnown, he, if_neg hknown]
    | conflict =>
      refine Or.inr (Or.inr ⟨⟨_, ?_, hkind⟩, hnone⟩)
      simp only [select, selectKnown, he]
    | _ => exact hkind.elim

theorem select_found {origin : RequirementOrigin} {p : PackageVersionMetadata}
    (h : d.select metadata origin = .ok (.found p)) : d.Chosen metadata p := by
  rcases select_cases metadata d origin with ⟨q, hq, hchosen⟩ | ⟨hunknown, -⟩ | ⟨⟨e, he, -⟩, -⟩
  · rw [h] at hq
    injection hq with hq
    injection hq with hq
    rw [hq]
    exact hchosen
  · rw [h] at hunknown
    cases hunknown
  · rw [h] at he
    cases he

theorem select_unknown {origin : RequirementOrigin} (h : d.select metadata origin = .ok .unknown) :
    d.Unknown metadata := by
  rcases select_cases metadata d origin with ⟨q, hq, -⟩ | ⟨-, hunknown⟩ | ⟨⟨e, he, -⟩, -⟩
  · rw [h] at hq
    cases hq
  · exact hunknown
  · rw [h] at he
    cases he

theorem select_error {origin : RequirementOrigin} {e : ResolveError}
    (h : d.select metadata origin = .error e) : e.OfSelection ∧ ∀ p, ¬ d.Satisfied metadata p := by
  rcases select_cases metadata d origin with ⟨q, hq, -⟩ | ⟨hunknown, -⟩ | ⟨⟨e', he, hkind⟩, hnone⟩
  · rw [h] at hq
    cases hq
  · rw [h] at hunknown
    cases hunknown
  · rw [h] at he
    injection he with he
    rw [he]
    exact ⟨hkind, hnone⟩

end Demand

/-! ### The closure -/

section Closure

variable (ds : List Dependency) (metadata : List RegistryMetadata) (route : Routing)
  (preferred : ResolutionPreferences)

/-- The demands met from the roots on. -/
inductive Met : Demand → Prop where
  | root {constraint : RootKey × OrdSet Requirement} (h : constraint ∈ (rootConstraints ds).entries) :
      Met (rootDemand preferred constraint)
  | dependency {d : Demand} {p : PackageVersionMetadata} {declared : PackageName × Requirement}
      {registry : PackageSource} (hd : Met d) (hp : d.Chosen metadata p)
      (hdeclared : declared ∈ p.dependencies.entries)
      (hroute : route d.registry (declared.2.packageName declared.1) = .ok registry) :
      Met (dependencyDemand preferred registry declared)

/-- A package the greedy closure selects. -/
def InClosure (id : PackageInstanceId) : Prop :=
  ∃ d p, Met ds metadata route preferred d ∧ d.Chosen metadata p ∧ id = d.id p

/-- Every demand met has a record that satisfies it. -/
def AllSatisfied : Prop := ∀ d, Met ds metadata route preferred d → ∃ p, d.Chosen metadata p

/-- Two root keys bind one name of one registry to different packages. -/
def RootConflict : Prop :=
  ∃ c ∈ (rootConstraints ds).entries, ∃ c' ∈ (rootConstraints ds).entries,
    (ofLex c.1).1 = (ofLex c'.1).1 ∧ (ofLex (ofLex c.1).2).1 = (ofLex (ofLex c'.1).2).1 ∧
      ∃ p p', (rootDemand preferred c).Chosen metadata p ∧ (rootDemand preferred c').Chosen metadata p' ∧
        (rootDemand preferred c).id p ≠ (rootDemand preferred c').id p'

/-- A root key binds a name of a registry to the package it chooses. -/
def RootChoice (key : PackageKey) (id : PackageInstanceId) : Prop :=
  ∃ c ∈ (rootConstraints ds).entries, key = bindingKey c ∧
    ∃ p, (rootDemand preferred c).Chosen metadata p ∧ id = (rootDemand preferred c).id p

/-- A root provides a peer of a package: it goes by the name of the peer, and the
peer is routed to its registry. -/
def Provides (id : PackageInstanceId) (peer : PackageName) (r : Requirement) (provider : PackageInstanceId) : Prop :=
  RootChoice ds metadata preferred (packageKey provider.registry peer) provider ∧
    route id.registry (if r.isAlias then r.packageName peer else provider.name) = .ok provider.registry

/-- A provider is what the peer asks for. -/
def FitsPeer (peer : PackageName) (r : Requirement) (provider : PackageInstanceId) : Prop :=
  Satisfies metadata r provider ∧ (r.isAlias = true → r.packageName peer = provider.name)

/-- A package of the closure declares a peer. -/
def MetPeer (id : PackageInstanceId) (p : PackageVersionMetadata) (peer : PackageName) (r : Requirement) : Prop :=
  (∃ d, Met ds metadata route preferred d ∧ d.Chosen metadata p ∧ id = d.id p) ∧ p.peerDependencies.get? peer = some r

/-- Two roots provide one peer. -/
def AmbiguousPeer (id : PackageInstanceId) (peer : PackageName) (r : Requirement) : Prop :=
  ∃ a b, a ≠ b ∧ Provides ds metadata route preferred id peer r a ∧ Provides ds metadata route preferred id peer r b

/-- The provider of a peer does not fit, or a peer that is not optional has none. -/
def UnmetPeer (id : PackageInstanceId) (p : PackageVersionMetadata) (peer : PackageName) (r : Requirement) :
    Option PackageInstanceId → Prop
  | some provider => Provides ds metadata route preferred id peer r provider ∧ ¬ FitsPeer metadata peer r provider
  | none => (∀ provider, ¬ Provides ds metadata route preferred id peer r provider) ∧
      peer ∉ p.optionalPeerDependencies

/-- Every peer of the closure has at most one provider, which fits, and one that is
not optional has a provider. -/
def PeersMet : Prop :=
  ∀ id p peer r, MetPeer ds metadata route preferred id p peer r →
    ¬ AmbiguousPeer ds metadata route preferred id peer r ∧
      ∀ provider, ¬ UnmetPeer ds metadata route preferred id p peer r provider

/-- A demand that is dealt with: its record is selected, or it is reported. -/
def Handled (state : GraphState) (d : Demand) : Prop :=
  (∃ p, d.Chosen metadata p ∧ d.id p ∈ state.selected) ∨
    d.Unknown metadata ∧ toLex d.text ∈ state.missing

/-- What is selected and reported comes from demands that are met. -/
structure OfDemands (state : GraphState) : Prop where
  chosen : ∀ id p, state.packages.get? id = some p →
    ∃ d, Met ds metadata route preferred d ∧ d.Chosen metadata p ∧ id = d.id p
  missing : ∀ k ∈ state.missing, ∃ d, Met ds metadata route preferred d ∧ d.Unknown metadata ∧
    k = toLex d.text

end Closure

variable {ds : List Dependency} {metadata : List RegistryMetadata} {route : Routing}
  {preferred : ResolutionPreferences} {state state' : GraphState} {d : Demand}

/-- What is dealt with stays so. -/
theorem Handled.mono (h : Handled metadata state d) (hselected : ∀ id ∈ state.selected, id ∈ state'.selected)
    (hmissing : ∀ k ∈ state.missing, k ∈ state'.missing) : Handled metadata state' d := by
  rcases h with ⟨p, hp, hid⟩ | ⟨hunknown, hk⟩
  · exact Or.inl ⟨p, hp, hselected _ hid⟩
  · exact Or.inr ⟨hunknown, hmissing _ hk⟩

namespace OfDemands

theorem insert_missing (h : OfDemands ds metadata route preferred state)
    (hmet : Met ds metadata route preferred d) (hunknown : d.Unknown metadata) :
    OfDemands ds metadata route preferred { state with missing := state.missing.insert (toLex d.text) } := by
  refine ⟨h.chosen, fun k hk => ?_⟩
  rcases OrdSet.mem_insert.mp hk with rfl | hk
  · exact ⟨d, hmet, hunknown, rfl⟩
  · exact h.missing k hk

theorem get?_insert (h : OfDemands ds metadata route preferred state)
    (hmet : Met ds metadata route preferred d) {p : PackageVersionMetadata} (hp : d.Chosen metadata p) :
    ∀ id q, (state.packages.insert (d.id p) p).get? id = some q →
      ∃ d, Met ds metadata route preferred d ∧ d.Chosen metadata q ∧ id = d.id q := by
  intro id q hq
  rw [OrdMap.get?_insert] at hq
  split_ifs at hq with hid
  · obtain rfl := Option.some_inj.mp hq
    exact ⟨d, hmet, hp, hid⟩
  · exact h.chosen id q hq

end OfDemands

/-! ### Roots -/

/-- Invariant of root selection; `todo` are the constraints left. -/
structure RootsHandled (ds : List Dependency) (metadata : List RegistryMetadata) (route : Routing)
    (preferred : ResolutionPreferences) (todo : List (RootKey × OrdSet Requirement)) (state : GraphState) :
    Prop where
  ofDemands : OfDemands ds metadata route preferred state
  todo_subset : ∀ c ∈ todo, c ∈ (rootConstraints ds).entries
  handled : ∀ c ∈ (rootConstraints ds).entries, c ∈ todo ∨ Handled metadata state (rootDemand preferred c)
  bindings : ∀ key id, state.rootBindings.get? key = some id → RootChoice ds metadata preferred key id

theorem RootsHandled.initial : RootsHandled ds metadata route preferred (rootConstraints ds).entries .initial where
  ofDemands := ⟨fun _ _ h => by simp [GraphState.initial] at h, fun _ h => by simp [GraphState.initial] at h⟩
  todo_subset _ hc := hc
  handled _ hc := Or.inl hc
  bindings _ _ h := by simp [GraphState.initial] at h

theorem RootsHandled.unknown {c : RootKey × OrdSet Requirement} {todo : List (RootKey × OrdSet Requirement)}
    (h : RootsHandled ds metadata route preferred (c :: todo) state)
    (hunknown : (rootDemand preferred c).Unknown metadata) :
    RootsHandled ds metadata route preferred todo
      { state with missing := state.missing.insert (toLex (rootDemand preferred c).text) } := by
  have hc := h.todo_subset c List.mem_cons_self
  refine ⟨h.ofDemands.insert_missing (.root hc) hunknown,
    fun c' hc' => h.todo_subset c' (List.mem_cons_of_mem _ hc'), fun c' hc' => ?_, h.bindings⟩
  rcases h.handled c' hc' with hmem | hdone
  · rcases List.mem_cons.mp hmem with rfl | hmem
    · exact Or.inr (Or.inr ⟨hunknown, OrdSet.mem_insert.mpr (Or.inl rfl)⟩)
    · exact Or.inl hmem
  · exact Or.inr (hdone.mono (fun _ hid => hid) fun k hk => OrdSet.mem_insert.mpr (Or.inr hk))

theorem RootsHandled.found {c : RootKey × OrdSet Requirement} {todo : List (RootKey × OrdSet Requirement)}
    {p : PackageVersionMetadata} (h : RootsHandled ds metadata route preferred (c :: todo) state)
    (hp : (rootDemand preferred c).Chosen metadata p) :
    RootsHandled ds metadata route preferred todo { state with
      selected := state.selected.insert ((rootDemand preferred c).id p)
      packages := state.packages.insert ((rootDemand preferred c).id p) p
      roots := state.roots ++ [(rootDemand preferred c).id p]
      rootBindings := state.rootBindings.insert (bindingKey c) ((rootDemand preferred c).id p)
      queue := (rootDemand preferred c).id p :: state.queue } := by
  have hc := h.todo_subset c List.mem_cons_self
  refine ⟨⟨h.ofDemands.get?_insert (.root hc) hp, h.ofDemands.missing⟩,
    fun c' hc' => h.todo_subset c' (List.mem_cons_of_mem _ hc'), fun c' hc' => ?_, fun key id hkey => ?_⟩
  · rcases h.handled c' hc' with hmem | hdone
    · rcases List.mem_cons.mp hmem with rfl | hmem
      · exact Or.inr (Or.inl ⟨p, hp, OrdSet.mem_insert.mpr (Or.inl rfl)⟩)
      · exact Or.inl hmem
    · exact Or.inr (hdone.mono (fun id hid => OrdSet.mem_insert.mpr (Or.inr hid)) fun _ hk => hk)
  · simp only [OrdMap.get?_insert] at hkey
    split_ifs at hkey with heq
    · exact ⟨c, hc, heq, p, hp, (Option.some_inj.mp hkey).symm⟩
    · exact h.bindings key id hkey

/-- **One root.**  A root that fails has no record that satisfies it, or its
binding conflicts with that of another root. -/
theorem RootsHandled.step {c : RootKey × OrdSet Requirement} {todo : List (RootKey × OrdSet Requirement)}
    (h : RootsHandled ds metadata route preferred (c :: todo) state) :
    (∀ state', selectRoot (candidateIndex metadata) preferred state c = .ok state' →
        RootsHandled ds metadata route preferred todo state') ∧
      ∀ e, selectRoot (candidateIndex metadata) preferred state c = .error e →
        (e.OfSelection ∧ ∀ p, ¬ (rootDemand preferred c).Satisfied metadata p) ∨
          (∃ text, e = .registryRouting text) ∧ RootConflict ds metadata preferred := by
  have hc := h.todo_subset c List.mem_cons_self
  have hselect : ∀ origin, selectKnown (ofLex c.1).1 (ofLex (ofLex c.1).2).2 c.2 (candidateIndex metadata)
      (rootPreferences preferred c.1) ((rootPreferences preferred c.1).roots.get? c.1) origin =
      (rootDemand preferred c).select metadata origin := fun _ => rfl
  constructor
  · intro state' hok
    rw [selectRoot] at hok
    obtain ⟨selection, hselection, hok⟩ := bind_eq_ok.mp hok
    rw [hselect] at hselection
    cases selection with
    | unknown =>
      obtain rfl := pure_eq_ok.mp hok
      exact h.unknown (Demand.select_unknown hselection)
    | found p =>
      obtain ⟨_, _, hok⟩ := bind_eq_ok.mp hok
      obtain rfl := pure_eq_ok.mp hok
      exact h.found (Demand.select_found hselection)
  · intro e herror
    rw [selectRoot] at herror
    rcases bind_eq_error.mp herror with hselection | ⟨selection, hselection, hrest⟩
    · rw [hselect] at hselection
      exact Or.inl (Demand.select_error hselection)
    · rw [hselect] at hselection
      cases selection with
      | unknown => cases hrest
      | found p =>
        have hp := Demand.select_found hselection
        rcases bind_eq_error.mp hrest with hreject | ⟨_, _, hpure⟩
        · obtain ⟨⟨previous, hprevious, hne⟩, rfl⟩ := rejectIf_eq_error.mp hreject
          obtain ⟨c', hc', hkey, q, hq, rfl⟩ := h.bindings _ previous hprevious
          -- both keys are recorded under one registry and local name
          obtain ⟨hregistry, hlocal⟩ := Prod.mk.inj (toLex.injective hkey)
          exact Or.inr ⟨⟨_, rfl⟩, c', hc', c, hc, hregistry.symm, hlocal.symm, q, p, hq, hp, hne⟩
        · cases hpure

theorem selectRoots_handled (h : selectRoots ds metadata preferred = .ok state) :
    RootsHandled ds metadata route preferred [] state :=
  foldlM_inv (I := RootsHandled ds metadata route preferred) (fun _ _ _ s' hs hstep => hs.step.1 s' hstep)
    .initial h

theorem selectRoots_error {e : ResolveError} (h : selectRoots ds metadata preferred = .error e) :
    (e.OfSelection ∧ ∃ d, Met ds metadata route preferred d ∧ ∀ p, ¬ d.Satisfied metadata p) ∨
      (∃ text, e = .registryRouting text) ∧ RootConflict ds metadata preferred := by
  obtain ⟨c, rest, s, hs, hfail⟩ := foldlM_inv_error (I := RootsHandled ds metadata route preferred)
    (fun _ _ _ s' hs hstep => hs.step.1 s' hstep) .initial h
  rcases hs.step.2 e hfail with ⟨hkind, hnone⟩ | hconflict
  · exact Or.inl ⟨hkind, _, .root (hs.todo_subset c List.mem_cons_self), hnone⟩
  · exact Or.inr hconflict

/-! ### The worklist -/

/-- Invariant of the worklist; `todo` holds of the declarations that the package
being expanded still has to go through. -/
structure Greedy (ds : List Dependency) (metadata : List RegistryMetadata) (route : Routing)
    (preferred : ResolutionPreferences) (todo : PackageInstanceId → PackageName × Requirement → Prop)
    (state : GraphState) : Prop where
  ofDemands : OfDemands ds metadata route preferred state
  roots : ∀ c ∈ (rootConstraints ds).entries, Handled metadata state (rootDemand preferred c)
  expanded : ∀ id ∈ state.expanded, ∀ p, state.packages.get? id = some p →
    ∀ declared ∈ p.dependencies.entries, todo id declared ∨ ∀ registry,
      route id.registry (declared.2.packageName declared.1) = .ok registry →
        Handled metadata state (dependencyDemand preferred registry declared)

open Worklist

/-- What a child resolves to, in terms of its demand. -/
theorem resolveChild_eq {parent : PackageInstanceId} {declared : PackageName × Requirement}
    {registry : PackageSource} (hroute : route parent.registry (declared.2.packageName declared.1) = .ok registry) :
    resolveChild (candidateIndex metadata) preferred route parent declared.1 declared.2 =
      ((dependencyDemand preferred registry declared).select metadata ⟨declared.1, some parent⟩).map
        fun selection => (registry, selection) := by
  rw [resolveChild, hroute]
  rfl

theorem Greedy.unknown {parent : PackageInstanceId} {declared : PackageName × Requirement}
    {l : List (PackageName × Requirement)} {registry : PackageSource}
    (h : Greedy ds metadata route preferred (Remaining parent (declared :: l)) state)
    (hroute : route parent.registry (declared.2.packageName declared.1) = .ok registry)
    (hmet : Met ds metadata route preferred (dependencyDemand preferred registry declared))
    (hunknown : (dependencyDemand preferred registry declared).Unknown metadata) :
    Greedy ds metadata route preferred (Remaining parent l) { state with
      missing := state.missing.insert (toLex (dependencyDemand preferred registry declared).text) } := by
  have hmono : ∀ {d}, Handled metadata state d → Handled metadata { state with
      missing := state.missing.insert (toLex (dependencyDemand preferred registry declared).text) } d :=
    fun hd => hd.mono (fun _ hid => hid) fun k hk => OrdSet.mem_insert.mpr (Or.inr hk)
  refine ⟨h.ofDemands.insert_missing hmet hunknown, fun c hc => hmono (h.roots c hc), ?_⟩
  intro id hid p hp declared' hdeclared'
  rcases h.expanded id hid p hp declared' hdeclared' with ⟨rfl, htodo⟩ | hdone
  · rcases List.mem_cons.mp htodo with rfl | htodo
    · refine Or.inr fun registry' hroute' => Or.inr ?_
      obtain rfl := Except.ok.inj (hroute.symm.trans hroute')
      exact ⟨hunknown, OrdSet.mem_insert.mpr (Or.inl rfl)⟩
    · exact Or.inl ⟨rfl, htodo⟩
  · exact Or.inr fun registry' hroute' => hmono (hdone registry' hroute')

/-- A declaration whose record is selected is dealt with. -/
theorem Greedy.found {parent : PackageInstanceId} {declared : PackageName × Requirement}
    {l : List (PackageName × Requirement)} {registry : PackageSource} {p : PackageVersionMetadata}
    (h : Greedy ds metadata route preferred (Remaining parent (declared :: l)) state)
    (hroute : route parent.registry (declared.2.packageName declared.1) = .ok registry)
    (hp : (dependencyDemand preferred registry declared).Chosen metadata p)
    (hselected : (dependencyDemand preferred registry declared).id p ∈ state.selected) :
    Greedy ds metadata route preferred (Remaining parent l) state := by
  refine ⟨h.ofDemands, h.roots, ?_⟩
  intro id hid q hq declared' hdeclared'
  rcases h.expanded id hid q hq declared' hdeclared' with ⟨rfl, htodo⟩ | hdone
  · rcases List.mem_cons.mp htodo with rfl | htodo
    · refine Or.inr fun registry' hroute' => Or.inl ?_
      obtain rfl := Except.ok.inj (hroute.symm.trans hroute')
      exact ⟨p, hp, hselected⟩
    · exact Or.inl ⟨rfl, htodo⟩
  · exact Or.inr hdone

/-- A new package comes in with its demand. -/
theorem Greedy.select {todo : PackageInstanceId → PackageName × Requirement → Prop}
    {p : PackageVersionMetadata} (h : Greedy ds metadata route preferred todo state)
    (hmet : Met ds metadata route preferred d) (hp : d.Chosen metadata p)
    (hnew : d.id p ∉ state.selected) (hexpanded : ∀ id ∈ state.expanded, id ∈ state.selected) :
    Greedy ds metadata route preferred todo { state with
      selected := state.selected.insert (d.id p)
      packages := state.packages.insert (d.id p) p
      queue := d.id p :: state.queue } := by
  have hmono : ∀ {d'}, Handled metadata state d' → Handled metadata { state with
      selected := state.selected.insert (d.id p)
      packages := state.packages.insert (d.id p) p
      queue := d.id p :: state.queue } d' :=
    fun hd => hd.mono (fun id hid => OrdSet.mem_insert.mpr (Or.inr hid)) fun _ hk => hk
  refine ⟨⟨h.ofDemands.get?_insert hmet hp, h.ofDemands.missing⟩, fun c hc => hmono (h.roots c hc), ?_⟩
  intro id hid q hq declared hdeclared
  -- nothing expanded is new
  have hne : id ≠ d.id p := fun heq => hnew (heq ▸ hexpanded id hid)
  rw [OrdMap.get?_insert_of_ne _ _ hne] at hq
  exact (h.expanded id hid q hq declared hdeclared).imp_right fun hdone registry hroute =>
    hmono (hdone registry hroute)

/-- Routing never fails. -/
def Routes (route : Routing) : Prop := ∀ registry name, ∃ registry', route registry name = .ok registry'

/-- Selection failed at a demand that nothing satisfies. -/
def Unsatisfied (ds : List Dependency) (metadata : List RegistryMetadata) (route : Routing)
    (preferred : ResolutionPreferences) (e : ResolveError) : Prop :=
  e.OfSelection ∧ ∃ d, Met ds metadata route preferred d ∧ ∀ p, ¬ d.Satisfied metadata p

/-- **One declaration.** -/
theorem Greedy.step (hroutes : Routes route) {parent : PackageInstanceId}
    {declared : PackageName × Requirement} {l : List (PackageName × Requirement)}
    (he : Expanding metadata preferred route parent (declared :: l) state)
    (h : Greedy ds metadata route preferred (Remaining parent (declared :: l)) state) :
    (∀ state', expandDependency (candidateIndex metadata) preferred route parent state declared = .ok state' →
        Greedy ds metadata route preferred (Remaining parent l) state') ∧
      ∀ e, expandDependency (candidateIndex metadata) preferred route parent state declared = .error e →
        Unsatisfied ds metadata route preferred e := by
  obtain ⟨registry, hroute⟩ := hroutes parent.registry (declared.2.packageName declared.1)
  obtain ⟨p, hp, hl⟩ := he.declared
  -- the demand is met because the record of the parent was chosen for one that is
  have hmet : Met ds metadata route preferred (dependencyDemand preferred registry declared) := by
    obtain ⟨d, hd, hchosen, hid⟩ := h.ofDemands.chosen parent p hp
    refine .dependency hd hchosen (hl declared List.mem_cons_self) ?_
    rw [hid] at hroute
    exact hroute
  rw [expandDependency, resolveChild_eq hroute]
  rcases Demand.select_cases metadata (dependencyDemand preferred registry declared)
    ⟨declared.1, some parent⟩ with ⟨q, hq, hchosen⟩ | ⟨hq, hunknown⟩ | ⟨⟨e, hq, hkind⟩, hnone⟩
  · rw [hq]
    refine ⟨fun state' hok => ?_, fun e herror => ?_⟩
    · -- the edge changes neither records nor what is missing
      have hedge : Greedy ds metadata route preferred (Remaining parent (declared :: l))
          { state with dependencies := state.dependencies.insert ⟨parent, declared.1,
            (dependencyDemand preferred registry declared).id q⟩ } :=
        ⟨⟨h.ofDemands.chosen, h.ofDemands.missing⟩, h.roots, h.expanded⟩
      by_cases hold : (dependencyDemand preferred registry declared).id q ∈ state.selected
      · obtain rfl : _ = state' := Except.ok.inj ((if_pos hold).symm.trans hok)
        exact hedge.found hroute hchosen hold
      · obtain rfl : _ = state' := Except.ok.inj ((if_neg hold).symm.trans hok)
        refine (hedge.select hmet hchosen hold he.worklist.expanded_selected).found hroute hchosen ?_
        exact OrdSet.mem_insert.mpr (Or.inl rfl)
    · by_cases hold : (dependencyDemand preferred registry declared).id q ∈ state.selected
      · cases (if_pos hold).symm.trans herror
      · cases (if_neg hold).symm.trans herror
  · rw [hq]
    refine ⟨fun state' hok => ?_, fun e herror => by cases herror⟩
    obtain rfl := Except.ok.inj hok
    exact h.unknown hroute hmet hunknown
  · rw [hq]
    refine ⟨fun state' hok => by (cases hok), fun e' herror => ?_⟩
    obtain rfl := Except.error.inj herror
    exact ⟨hkind, _, hmet, hnone⟩

/-- **One iteration.** -/
theorem Greedy.expandNext (hroutes : Routes route) (hw : Worklist metadata preferred route Idle state)
    (hchildren : ChildrenSelected state) (h : Greedy ds metadata route preferred Idle state) :
    (∀ state', expandNext (candidateIndex metadata) preferred route state = some (.ok state') →
        Greedy ds metadata route preferred Idle state') ∧
      ∀ e, expandNext (candidateIndex metadata) preferred route state = some (.error e) →
        Unsatisfied ds metadata route preferred e := by
  rw [Tapid.expandNext]
  split
  · exact ⟨fun _ hnone => absurd hnone (by simp), fun _ hnone => absurd hnone (by simp)⟩
  · next parent rest hqueue =>
    dsimp only
    split_ifs with hexpanded
    · refine ⟨fun state' hok => ?_, fun e herror => by cases herror⟩
      obtain rfl := Except.ok.inj (Option.some.inj hok)
      exact ⟨⟨h.ofDemands.chosen, h.ofDemands.missing⟩, h.roots, h.expanded⟩
    · obtain ⟨p, hp⟩ := (hw.selected_iff parent).mp (hw.queue_selected parent (by simp [hqueue]))
      have hdeclared : declaredDependencies { state with queue := rest } parent = p.dependencies.entries := by
        simp [declaredDependencies, hp]
      -- the package counts as expanded from here on; its dependencies are what remains
      have hstart : Greedy ds metadata route preferred (Remaining parent p.dependencies.entries)
          { state with queue := rest, expanded := state.expanded.insert parent } := by
        refine ⟨⟨h.ofDemands.chosen, h.ofDemands.missing⟩, h.roots, fun id hid q hq declared hmem => ?_⟩
        rcases OrdSet.mem_insert.mp hid with rfl | hid
        · obtain rfl : p = q := Option.some_inj.mp (hp.symm.trans hq)
          exact Or.inl ⟨rfl, hmem⟩
        · exact Or.inr ((h.expanded id hid q hq declared hmem).resolve_left not_false)
      have hstep : ∀ declared l s s',
          (Expanding metadata preferred route parent (declared :: l) s ∧
            Greedy ds metadata route preferred (Remaining parent (declared :: l)) s) →
          expandDependency (candidateIndex metadata) preferred route parent s declared = .ok s' →
          Expanding metadata preferred route parent l s' ∧
            Greedy ds metadata route preferred (Remaining parent l) s' := fun declared l s s' hs hs' =>
        ⟨expanding_step hs.1 hs', (hs.2.step hroutes hs.1).1 s' hs'⟩
      have hboth := And.intro (expanding_start hw hchildren hqueue hp) hstart
      rw [hdeclared]
      constructor
      · intro state' hok
        obtain ⟨-, hend⟩ := foldlM_inv (I := fun l s => Expanding metadata preferred route parent l s ∧
          Greedy ds metadata route preferred (Remaining parent l) s) hstep hboth (Option.some.inj hok)
        refine ⟨hend.ofDemands, hend.roots, fun id hid q hq declared hmem => ?_⟩
        refine Or.inr ((hend.expanded id hid q hq declared hmem).resolve_left ?_)
        exact fun hleft => List.not_mem_nil hleft.2
      · intro e herror
        obtain ⟨declared, l, s, hs, hfail⟩ := foldlM_inv_error
          (I := fun l s => Expanding metadata preferred route parent l s ∧
            Greedy ds metadata route preferred (Remaining parent l) s) hstep hboth (Option.some.inj herror)
        exact (hs.2.step hroutes hs.1).2 e hfail

/-- Between roots and worklist nothing is expanded. -/
theorem RootsHandled.greedy (h : RootsHandled ds metadata route preferred [] state)
    (hnone : state.expanded = ∅) : Greedy ds metadata route preferred Idle state := by
  refine ⟨h.ofDemands, fun c hc => (h.handled c hc).resolve_left List.not_mem_nil, fun id hid => ?_⟩
  rw [hnone] at hid
  exact absurd hid (OrdSet.not_mem_empty id)

/-- **The invariant when the worklist is done**, and its failures. -/
theorem selectGraph_greedy (hroutes : Routes route) :
    (∀ state, selectGraph ds metadata route preferred = .ok state →
        Greedy ds metadata route preferred Idle state ∧ ∃ start,
          RootsHandled ds metadata route preferred [] start ∧ state.rootBindings = start.rootBindings) ∧
      ∀ e, selectGraph ds metadata route preferred = .error e → Unsatisfied ds metadata route preferred e ∨
        (∃ text, e = .registryRouting text) ∧ RootConflict ds metadata preferred := by
  have hstep : ∀ s s', ((Worklist metadata preferred route Idle s ∧ ChildrenSelected s) ∧
      Greedy ds metadata route preferred Idle s) →
      expandNext (candidateIndex metadata) preferred route s = some (.ok s') →
      (Worklist metadata preferred route Idle s' ∧ ChildrenSelected s') ∧
        Greedy ds metadata route preferred Idle s' := fun s s' hs hs' =>
    ⟨expandNext_inv hs.1.1 hs.1.2 hs', (hs.2.expandNext hroutes hs.1.1 hs.1.2).1 s' hs'⟩
  have hstart : ∀ start, selectRoots ds metadata preferred = .ok start →
      (Worklist metadata preferred route Idle start ∧ ChildrenSelected start) ∧
        Greedy ds metadata route preferred Idle start := by
    intro start h
    have hroots := selectRoots_inv h
    refine ⟨⟨hroots.worklist, fun e he => ?_⟩, (selectRoots_handled h).greedy hroots.no_edges.2⟩
    rw [hroots.no_edges.1] at he
    exact absurd he (OrdSet.not_mem_empty e)
  constructor
  · intro state hok
    rw [selectGraph] at hok
    obtain ⟨start, hroots, hrun⟩ := bind_eq_ok.mp hok
    have hend := run_inv (I := fun s => ((Worklist metadata preferred route Idle s ∧ ChildrenSelected s) ∧
        Greedy ds metadata route preferred Idle s) ∧ s.rootBindings = start.rootBindings)
      (fun s s' hs hs' => ⟨hstep s s' hs.1 hs', (expandNext_frame hs').1.trans hs.2⟩)
      ⟨hstart start hroots, rfl⟩ hrun
    exact ⟨hend.1.2, start, selectRoots_handled hroots, hend.2⟩
  · intro e herror
    rw [selectGraph] at herror
    rcases bind_eq_error.mp herror with hroots | ⟨start, hroots, hrun⟩
    · exact selectRoots_error hroots
    · obtain ⟨s, hs, hfail⟩ := run_error hstep (hstart start hroots) hrun
      exact Or.inl ((hs.2.expandNext hroutes hs.1.1 hs.1.2).2 e hfail)

/-- **With an empty stack every demand met is dealt with.** -/
theorem Greedy.handled (hrecords : Unambiguous metadata) (hw : Worklist metadata preferred route Idle state)
    (hqueue : state.queue = []) (h : Greedy ds metadata route preferred Idle state)
    (hmet : Met ds metadata route preferred d) : Handled metadata state d := by
  induction hmet with
  | root hc => exact h.roots _ hc
  | @dependency d p declared registry _ hp hdeclared hroute ih =>
    rcases ih with ⟨q, hq, hselected⟩ | ⟨hunknown, -⟩
    · obtain rfl := hp.unique hrecords hq
      obtain ⟨r, hr⟩ := (hw.selected_iff _).mp hselected
      obtain rfl : p = r := hrecords _ p r hp.1.1 (hw.record _ r hr)
      have hexpanded : d.id p ∈ state.expanded := by
        rcases hw.pending _ hselected with hexpanded | hmem
        · exact hexpanded
        · rw [hqueue] at hmem
          exact absurd hmem List.not_mem_nil
      exact ((h.expanded _ hexpanded p hr declared hdeclared).resolve_left not_false) registry hroute
    · exact absurd hunknown hp.not_unknown

/-! ### Peers -/

/-- The bindings are what the root keys choose. -/
def ChoosesRoots (ds : List Dependency) (metadata : List RegistryMetadata) (preferred : ResolutionPreferences)
    (bindings : OrdMap PackageKey PackageInstanceId) : Prop :=
  ∀ key id, bindings.get? key = some id ↔ RootChoice ds metadata preferred key id

section Peers

variable {bindings : OrdMap PackageKey PackageInstanceId} {packages : OrdMap PackageInstanceId PackageVersionMetadata}
  {id provider : PackageInstanceId} {peer : PackageName} {r : Requirement} {registry : PackageSource}

/-- A root is bound under its own registry. -/
theorem RootChoice.registry_eq {key : PackageKey} (h : RootChoice ds metadata preferred key id) :
    (ofLex key).1 = id.registry := by
  obtain ⟨c, -, rfl, p, -, rfl⟩ := h
  rfl

theorem isProvider_iff (hroots : ChoosesRoots ds metadata preferred bindings) :
    IsProvider route bindings id peer r registry provider ↔
      registry = provider.registry ∧ Provides ds metadata route preferred id peer r provider := by
  rw [IsProvider, hroots]
  constructor
  · rintro ⟨hchoice, hroute⟩
    obtain rfl : registry = provider.registry := hchoice.registry_eq
    exact ⟨rfl, hchoice, hroute⟩
  · rintro ⟨rfl, hchoice, hroute⟩
    exact ⟨hchoice, hroute⟩

/-- What a search for the provider finds. -/
theorem provides_iff_of_findProvider {found : Option PackageInstanceId}
    (hroots : ChoosesRoots ds metadata preferred bindings)
    (h : findProvider route (rootProviders bindings) id peer r = .ok found) :
    Provides ds metadata route preferred id peer r provider ↔ found = some provider := by
  have hentries := findProvider_eq h
  have hmem : Provides ds metadata route preferred id peer r provider ↔
      (packageKey provider.registry peer, provider) ∈ providerEntries route bindings id peer r := by
    rw [← mem_providerEntries, isProvider_iff hroots]
    exact (and_iff_right rfl).symm
  rw [hmem]
  constructor
  · intro hprovider
    have hfound : provider ∈ found.toList := hentries ▸ List.mem_map_of_mem (f := Prod.snd) hprovider
    exact Option.mem_toList.mp hfound
  · rintro rfl
    obtain ⟨key, hkey⟩ := eq_of_map_snd_eq_singleton hentries
    have hmem : (key, provider) ∈ providerEntries route bindings id peer r := by
      rw [hkey]
      exact List.mem_singleton_self _
    obtain ⟨hbound, hand⟩ := List.mem_filter.mp hmem
    have hlocal : (ofLex key).2 = peer := by
      simp only [Bool.and_eq_true, decide_eq_true_eq] at hand
      exact hand.1
    have hregistry := ((hroots key provider).mp (OrdMap.mem_entries.mp hbound)).registry_eq
    obtain rfl : key = packageKey provider.registry peer := ofLex.injective (Prod.ext hregistry hlocal)
    exact hmem

/-- Bindings of one local name are in different registries. -/
theorem nodup_namedEntries (hroots : ChoosesRoots ds metadata preferred bindings) (peer : PackageName) :
    ((bindings.entries.filter fun e => (ofLex e.1).2 = peer).map Prod.snd).Nodup := by
  refine List.Nodup.map_on ?_ ((List.Nodup.of_map _ (nodup_keys bindings)).filter _)
  rintro ⟨key, id⟩ he ⟨key', id'⟩ he' (rfl : id = id')
  obtain ⟨hmem, hlocal⟩ := List.mem_filter.mp he
  obtain ⟨hmem', hlocal'⟩ := List.mem_filter.mp he'
  have hregistry := ((hroots key id).mp (OrdMap.mem_entries.mp hmem)).registry_eq
  have hregistry' := ((hroots key' id).mp (OrdMap.mem_entries.mp hmem')).registry_eq
  have hkey : key = key' := ofLex.injective (Prod.ext (hregistry.trans hregistry'.symm)
    ((of_decide_eq_true hlocal).trans (of_decide_eq_true hlocal').symm))
  rw [hkey]

/-- **A search that fails** has found two providers. -/
theorem ambiguous_of_findProvider {e : ResolveError} (hroutes : Routes route)
    (hroots : ChoosesRoots ds metadata preferred bindings)
    (h : findProvider route (rootProviders bindings) id peer r = .error e) :
    (∃ text, e = .registryRouting text) ∧ AmbiguousPeer ds metadata route preferred id peer r := by
  -- a candidate of the right registry is a provider
  have hprovides : ∀ candidate, candidate ∈ (bindings.entries.filter fun e => (ofLex e.1).2 = peer).map Prod.snd →
      route id.registry (if r.isAlias then r.packageName peer else candidate.name) = .ok candidate.registry →
      Provides ds metadata route preferred id peer r candidate := by
    intro candidate hcandidate hroute
    obtain ⟨⟨key, id'⟩, hentry, rfl⟩ := List.mem_map.mp hcandidate
    obtain ⟨hbound, hlocal⟩ := List.mem_filter.mp hentry
    have hchoice := (hroots key id').mp (OrdMap.mem_entries.mp hbound)
    have hkey : key = packageKey id'.registry peer :=
      ofLex.injective (Prod.ext hchoice.registry_eq (of_decide_eq_true hlocal))
    exact ⟨hkey ▸ hchoice, hroute⟩
  rw [findProvider] at h
  rcases bind_eq_error.mp h with hfold | ⟨_, -, h⟩
  · rw [getD_rootProviders] at hfold
    -- the provider so far is one of the candidates gone through
    obtain ⟨c, rest, acc, ⟨done, hdone, hacc⟩, hfail⟩ := foldlM_inv_error
      (I := fun todo (acc : Option PackageInstanceId) => ∃ done,
        done ++ todo = (bindings.entries.filter fun e => (ofLex e.1).2 = peer).map Prod.snd ∧
          ∀ a, acc = some a → a ∈ done ∧ Provides ds metadata route preferred id peer r a) (by
        rintro a l acc acc' ⟨done, hdone, hacc⟩ hstep
        refine ⟨done ++ [a], by rw [List.append_assoc, List.singleton_append, hdone], fun b hb => ?_⟩
        subst hb
        rw [considerProvider] at hstep
        obtain ⟨registry, hroute, hstep⟩ := bind_eq_ok.mp hstep
        split_ifs at hstep with hregistry
        · obtain ⟨hmem, hb⟩ := hacc b (pure_eq_ok.mp hstep)
          exact ⟨List.mem_append_left _ hmem, hb⟩
        · obtain ⟨_, -, hstep⟩ := bind_eq_ok.mp hstep
          obtain rfl := Option.some.inj (pure_eq_ok.mp hstep)
          refine ⟨List.mem_append_right _ (List.mem_singleton_self _), hprovides a ?_ ?_⟩
          · rw [← hdone]
            exact List.mem_append_right _ List.mem_cons_self
          · rw [not_not.mp hregistry]
            exact mapError_eq_ok.mp hroute)
      ⟨[], rfl, fun a ha => by cases ha⟩ hfold
    rw [considerProvider] at hfail
    rcases bind_eq_error.mp hfail with hroute | ⟨registry, hroute, hfail⟩
    · obtain ⟨text, htext, -⟩ := mapError_eq_error.mp hroute
      obtain ⟨registry, hok⟩ := hroutes id.registry (if r.isAlias then r.packageName peer else c.name)
      rw [hok] at htext
      cases htext
    · split_ifs at hfail with hregistry
      · cases hfail
      · rcases bind_eq_error.mp hfail with hreject | ⟨_, _, hpure⟩
        · obtain ⟨hsome, rfl⟩ := rejectIf_eq_error.mp hreject
          obtain ⟨a, rfl⟩ := Option.isSome_iff_exists.mp hsome
          obtain ⟨hmem, ha⟩ := hacc a rfl
          refine ⟨⟨_, rfl⟩, a, c, ?_, ha, hprovides c ?_ ?_⟩
          · rintro rfl
            have hnodup := nodup_namedEntries hroots peer
            rw [← hdone] at hnodup
            exact (List.nodup_append.mp hnodup).2.2 _ hmem _ List.mem_cons_self rfl
          · rw [← hdone]
            exact List.mem_append_right _ List.mem_cons_self
          · rw [not_not.mp hregistry]
            exact mapError_eq_ok.mp hroute
        · cases hpure
  · split_ifs at h
    · rcases bind_eq_error.mp h with hroute | ⟨_, _, hpure⟩
      · obtain ⟨text, htext, -⟩ := mapError_eq_error.mp hroute
        obtain ⟨registry, hok⟩ := hroutes id.registry (r.packageName peer)
        rw [hok] at htext
        cases htext
      · cases hpure
    · cases h

/-- A provider that is not accepted does not fit. -/
theorem acceptsProvider_iff (hrecords : Unambiguous metadata)
    (hpackages : ∀ id p, packages.get? id = some p → IsRecord metadata id p)
    (hprovider : ∃ p, packages.get? provider = some p) :
    acceptsProvider packages peer r provider = true ↔ FitsPeer metadata peer r provider := by
  obtain ⟨p, hp⟩ := hprovider
  have hrecord := hpackages provider p hp
  have hsatisfies : Satisfies metadata r provider ↔ r.matchesTaggedVersion provider.version p.distTags = true := by
    constructor
    · rintro ⟨q, hq, hmatch⟩
      obtain rfl := hrecords _ _ _ hrecord hq
      obtain ⟨_, _, _, _, _, hversion⟩ := hrecord
      rwa [hversion] at hmatch
    · intro hmatch
      refine ⟨p, hrecord, ?_⟩
      obtain ⟨_, _, _, _, _, hversion⟩ := hrecord
      rwa [hversion]
  rw [acceptsProvider, FitsPeer, hsatisfies, hp]
  cases r.isAlias <;> simp

/-- Why binding the peers of a package fails. -/
inductive PeerFailure (ds : List Dependency) (metadata : List RegistryMetadata) (route : Routing)
    (preferred : ResolutionPreferences) (id : PackageInstanceId) (p : PackageVersionMetadata) : ResolveError → Prop where
  | ambiguous {peer : PackageName} {r : Requirement} {text : String} :
    p.peerDependencies.get? peer = some r → AmbiguousPeer ds metadata route preferred id peer r →
    PeerFailure ds metadata route preferred id p (.registryRouting text)
  | unmet {peer : PackageName} {r : Requirement} {provider : Option PackageInstanceId} :
    p.peerDependencies.get? peer = some r → UnmetPeer ds metadata route preferred id p peer r provider →
    PeerFailure ds metadata route preferred id p (.peerDependency id peer.text r.raw provider)

/-- **Binding that fails.** -/
theorem failure_of_bindPeers {p : PackageVersionMetadata} {contexts : OrdMap PackageInstanceId PeerContext}
    {e : ResolveError} (hroutes : Routes route) (hrecords : Unambiguous metadata)
    (hroots : ChoosesRoots ds metadata preferred bindings)
    (hpackages : ∀ id p, packages.get? id = some p → IsRecord metadata id p)
    (hbound : ∀ key id, bindings.get? key = some id → ∃ p, packages.get? id = some p)
    (h : bindPeers route packages (rootProviders bindings) contexts (id, p) = .error e) :
    PeerFailure ds metadata route preferred id p e := by
  rw [bindPeers] at h
  rcases bind_eq_error.mp h with hfold | ⟨_, _, hpure⟩
  · obtain ⟨⟨peer, r⟩, hdeclared, context, -, hfail⟩ := foldlM_error (I := fun _ => True)
      (fun _ _ _ _ _ _ => trivial) trivial hfold
    have hget := OrdMap.mem_entries.mp hdeclared
    rw [bindPeer] at hfail
    rcases bind_eq_error.mp hfail with hfind | ⟨found, hfound, hfail⟩
    · obtain ⟨⟨text, rfl⟩, hambiguous⟩ := ambiguous_of_findProvider hroutes hroots hfind
      exact .ambiguous hget hambiguous
    · cases found with
      | some provider =>
        rcases bind_eq_error.mp hfail with hreject | ⟨_, _, hpure⟩
        · obtain ⟨haccept, rfl⟩ := rejectIf_eq_error.mp hreject
          have hprovides : Provides ds metadata route preferred id peer r provider :=
            (provides_iff_of_findProvider hroots hfound).mpr rfl
          have hpackage := hbound _ _ ((hroots _ _).mpr hprovides.1)
          exact .unmet hget ⟨hprovides, fun hfits => haccept ((acceptsProvider_iff hrecords hpackages hpackage).mpr hfits)⟩
        · cases hpure
      | none =>
        rcases bind_eq_error.mp hfail with hreject | ⟨_, _, hpure⟩
        · obtain ⟨hrequired, rfl⟩ := rejectIf_eq_error.mp hreject
          refine .unmet hget ⟨fun provider hprovides => ?_, hrequired⟩
          cases (provides_iff_of_findProvider hroots hfound).mp hprovides
        · cases hpure
  · cases hpure

/-- **Binding that succeeds** has met the peers. -/
theorem met_of_peerBound {p : PackageVersionMetadata} {context : PeerContext}
    (hroots : ChoosesRoots ds metadata preferred bindings)
    (h : PeerBound metadata route bindings id p context peer r) :
    ¬ AmbiguousPeer ds metadata route preferred id peer r ∧
      ∀ provider, ¬ UnmetPeer ds metadata route preferred id p peer r provider := by
  have hprovider : ∀ provider, Provides ds metadata route preferred id peer r provider →
      IsProvider route bindings id peer r provider.registry provider := fun _ hprovides =>
    (isProvider_iff hroots).mpr ⟨rfl, hprovides⟩
  rcases h with ⟨hoptional, -, hnone⟩ | ⟨registry, q, hq, hunique, -, hfits⟩
  · refine ⟨fun ⟨a, _, _, ha, _⟩ => hnone _ _ (hprovider a ha), fun provider hunmet => ?_⟩
    cases provider with
    | some provider => exact hnone _ _ (hprovider provider hunmet.1)
    | none => exact hunmet.2 hoptional
  · refine ⟨fun ⟨a, b, hne, ha, hb⟩ => hne ?_, fun provider hunmet => ?_⟩
    · rw [(hunique _ _ (hprovider a ha)).2, (hunique _ _ (hprovider b hb)).2]
    · cases provider with
      | some provider =>
        obtain rfl := (hunique _ _ (hprovider provider hunmet.1)).2
        exact hunmet.2 hfits
      | none => exact hunmet.1 q ((isProvider_iff hroots).mp hq).2

end Peers

/-! ### Outcomes -/

/-- A request that nothing is resolved for. -/
def ResolutionOptions.Unsupported (options : ResolutionOptions) (metadata : List RegistryMetadata) : Prop :=
  options.frozen = true ∨ options.offline = true ∧ metadata = []

section Outcome

variable (ds : List Dependency) (metadata : List RegistryMetadata) (options : ResolutionOptions)
  (route : Routing) (preferred : ResolutionPreferences)

/-- What each outcome says about the demands and peers met. -/
def GreedyOutcome : Except ResolveError Resolution → Prop
  | .ok res => AllSatisfied ds metadata route preferred ∧
      (∀ id, id ∈ res.selected ↔ InClosure ds metadata route preferred id) ∧
      (∀ c ∈ (rootConstraints ds).entries, ∃ p, (rootDemand preferred c).Chosen metadata p ∧
        res.rootBindings.get? (bindingKey c) = some ((rootDemand preferred c).id p)) ∧
      PeersMet ds metadata route preferred
  | .error (.missingCandidate ..) | .error (.conflict ..) =>
      ∃ d, Met ds metadata route preferred d ∧ ∀ p, ¬ d.Satisfied metadata p
  | .error (.missingMetadata ps) => ps ≠ [] ∧
      (∀ d, Met ds metadata route preferred d → d.Unknown metadata ∨ ∃ p, d.Chosen metadata p) ∧
        ∀ pair, pair ∈ ps ↔
          ∃ d, Met ds metadata route preferred d ∧ d.Unknown metadata ∧ d.text = pair
  | .error (.unsupportedMode _) => options.Unsupported metadata
  | .error (.registryRouting _) => RootConflict ds metadata preferred ∨
      AllSatisfied ds metadata route preferred ∧ ∃ id p peer r, MetPeer ds metadata route preferred id p peer r ∧
        AmbiguousPeer ds metadata route preferred id peer r
  | .error (.peerDependency id peer requirement provider) => AllSatisfied ds metadata route preferred ∧
      ∃ p name r, MetPeer ds metadata route preferred id p name r ∧ peer = name.text ∧ requirement = r.raw ∧
        UnmetPeer ds metadata route preferred id p name r provider
  | .error _ => False

end Outcome

variable {options : ResolutionOptions}

/-- Nothing satisfies a demand when selection fails. -/
theorem Unsatisfied.outcome {e : ResolveError} (h : Unsatisfied ds metadata route preferred e) :
    GreedyOutcome ds metadata options route preferred (.error e) := by
  obtain ⟨hkind, hmet⟩ := h
  cases e with
  | missingCandidate => exact hmet
  | conflict => exact hmet
  | _ => exact hkind.elim

/-- Peers are bound after every demand has been satisfied. -/
theorem PeerFailure.outcome {id : PackageInstanceId} {p : PackageVersionMetadata} {e : ResolveError}
    (h : PeerFailure ds metadata route preferred id p e) (hall : AllSatisfied ds metadata route preferred)
    (hmet : ∃ d, Met ds metadata route preferred d ∧ d.Chosen metadata p ∧ id = d.id p) :
    GreedyOutcome ds metadata options route preferred (.error e) := by
  cases h with
  | ambiguous hget hambiguous => exact Or.inr ⟨hall, id, p, _, _, ⟨hmet, hget⟩, hambiguous⟩
  | unmet hget hunmet => exact ⟨hall, p, _, _, ⟨hmet, hget⟩, rfl, rfl, hunmet⟩

/-- A root key is bound to the record its demand chooses. -/
theorem RootsHandled.bound (h : RootsHandled ds metadata route preferred [] state)
    {c : RootKey × OrdSet Requirement} (hc : c ∈ (rootConstraints ds).entries)
    (hbound : RootBound metadata state.rootBindings c.1 c.2) :
    ∃ p, (rootDemand preferred c).Chosen metadata p ∧
      state.rootBindings.get? (bindingKey c) = some ((rootDemand preferred c).id p) := by
  obtain ⟨q, hget, -, -⟩ := hbound
  obtain ⟨c', hc', hkey, p, hp, hid⟩ := h.bindings _ _ hget
  -- one local name and one package name: the root keys agree
  have hkeys : c.1 = c'.1 := by
    obtain ⟨hregistry, hlocal⟩ := Prod.mk.inj (toLex.injective hkey)
    have hname : (ofLex (ofLex c.1).2).2 = (ofLex (ofLex c'.1).2).2 := congrArg PackageInstanceId.name hid
    exact ofLex.injective (Prod.ext hregistry (ofLex.injective (Prod.ext hlocal hname)))
  have hsame : c = c' := by
    have hc1 := OrdMap.mem_entries.mp hc
    have hc2 := OrdMap.mem_entries.mp hc'
    rw [← hkeys, hc1] at hc2
    exact Prod.ext hkeys (Option.some_inj.mp hc2)
  subst hsame
  exact ⟨p, hp, hget.trans (congrArg some hid)⟩

/-- What selection ends with, when all demands met are dealt with. -/
theorem Handled.unknown_or_chosen (h : Handled metadata state d) : d.Unknown metadata ∨ ∃ p, d.Chosen metadata p := by
  rcases h with ⟨p, hp, -⟩ | ⟨hunknown, -⟩
  · exact Or.inr ⟨p, hp⟩
  · exact Or.inl hunknown

/-- The end of a selection: missing names, or peers over the closure. -/
theorem outcome_of_selectGraph (hrecords : Unambiguous metadata) (hroutes : Routes route)
    (h : selectGraph ds metadata route preferred = .ok state) :
    GreedyOutcome ds metadata options route preferred (do
      rejectIf (¬ state.missing.elems.isEmpty) (.missingMetadata (state.missing.elems.map ofLex))
      let contexts ← state.packages.entries.foldlM
        (bindPeers route state.packages (rootProviders state.rootBindings)) ∅
      return {
        selected := state.selected.elems
        roots := (OrdSet.ofList state.roots).elems
        rootBindings := state.rootBindings
        dependencies := state.dependencies.elems
        peerContexts := contexts }) := by
  obtain ⟨hw, -, start, hroots, hbindings, hstart⟩ := selectGraph_worklist h
  obtain ⟨hgreedy, start', hstarted, hbindings'⟩ := (selectGraph_greedy hroutes).1 state h
  have hhandled : ∀ d, Met ds metadata route preferred d → Handled metadata state d := fun d hd =>
    hgreedy.handled hrecords hw (selectGraph_queue h) hd
  by_cases hmissing : state.missing.elems = []
  · have hall : AllSatisfied ds metadata route preferred := by
      intro d hd
      rcases hhandled d hd with ⟨p, hp, -⟩ | ⟨-, hk⟩
      · exact ⟨p, hp⟩
      · exact absurd (show toLex d.text ∈ state.missing.elems from hk) (by simp [hmissing])
    have hclosure : ∀ id, id ∈ state.selected ↔ InClosure ds metadata route preferred id := by
      intro id
      constructor
      · intro hid
        obtain ⟨p, hp⟩ := (hw.selected_iff id).mp hid
        obtain ⟨d, hd, hchosen, rfl⟩ := hgreedy.ofDemands.chosen id p hp
        exact ⟨d, p, hd, hchosen, rfl⟩
      · rintro ⟨d, p, hd, hp, rfl⟩
        rcases hhandled d hd with ⟨q, hq, hselected⟩ | ⟨hunknown, -⟩
        · obtain rfl := hp.unique hrecords hq
          exact hselected
        · exact absurd hunknown hp.not_unknown
    have hbound : ∀ c ∈ (rootConstraints ds).entries, ∃ p, (rootDemand preferred c).Chosen metadata p ∧
        state.rootBindings.get? (bindingKey c) = some ((rootDemand preferred c).id p) := by
      intro c hc
      rcases hroots.bound c hc with hnil | hmiss | hbound
      · exact absurd hnil List.not_mem_nil
      · exact absurd (hstart hmissing) hmiss
      · rw [← hbindings, hbindings'] at hbound
        obtain ⟨p, hp, hget⟩ := hstarted.bound hc hbound
        exact ⟨p, hp, (congrArg (OrdMap.get? · (bindingKey c)) hbindings').trans hget⟩
    have hchooses : ChoosesRoots ds metadata preferred state.rootBindings := by
      intro key id
      constructor
      · intro hget
        rw [hbindings'] at hget
        exact hstarted.bindings key id hget
      · rintro ⟨c, hc, rfl, p, hp, rfl⟩
        obtain ⟨q, hq, hget⟩ := hbound c hc
        obtain rfl := hp.unique hrecords hq
        exact hget
    rw [rejectIf, if_neg (by simp [hmissing]), ok_bind]
    cases hpeers : state.packages.entries.foldlM
        (bindPeers route state.packages (rootProviders state.rootBindings)) ∅ with
    | error e =>
      obtain ⟨⟨id, p⟩, hentry, contexts, -, hfail⟩ := foldlM_error (I := fun _ => True)
        (fun _ _ _ _ _ _ => trivial) trivial hpeers
      have hselected : ∀ key id, state.rootBindings.get? key = some id → ∃ p, state.packages.get? id = some p :=
        fun key id hget => (hw.selected_iff id).mp (hw.bindings_selected key id hget)
      have hfailure := failure_of_bindPeers hroutes hrecords hchooses hw.record hselected hfail
      exact hfailure.outcome hall (hgreedy.ofDemands.chosen id p (OrdMap.mem_entries.mp hentry))
    | ok contexts =>
      refine ⟨hall, hclosure, hbound, fun id p peer r hmet => ?_⟩
      obtain ⟨⟨d, hd, hchosen, rfl⟩, hget⟩ := hmet
      -- the record chosen for a package of the closure is the one it was selected with
      obtain ⟨q, hq⟩ := (hw.selected_iff _).mp ((hclosure _).mpr ⟨d, p, hd, hchosen, rfl⟩)
      obtain rfl := hrecords _ _ _ hchosen.1.1 (hw.record _ q hq)
      obtain ⟨context, -, hpeersBound⟩ := contexts_of_bindPeers hw.record hpeers _ _ hq
      exact met_of_peerBound hchooses (hpeersBound peer r hget)
  · rw [rejectIf, if_pos (by simpa using hmissing)]
    refine ⟨by simpa using hmissing, fun d hd => (hhandled d hd).unknown_or_chosen, fun pair => ?_⟩
    rw [List.mem_map]
    constructor
    · rintro ⟨k, hk, rfl⟩
      obtain ⟨d, hd, hunknown, rfl⟩ := hgreedy.ofDemands.missing k hk
      exact ⟨d, hd, hunknown, rfl⟩
    · rintro ⟨d, hd, hunknown, rfl⟩
      rcases hhandled d hd with ⟨p, hp, -⟩ | ⟨-, hk⟩
      · exact absurd hunknown hp.not_unknown
      · exact ⟨_, hk, rfl⟩

/-- A preference does not lead outside the requirements of a demand. -/
theorem GreedyOutcome.satisfied {res : Resolution}
    (h : GreedyOutcome ds metadata options route preferred (.ok res)) {id : PackageInstanceId}
    (hid : id ∈ res.selected) : ∃ d p, Met ds metadata route preferred d ∧ d.Satisfied metadata p ∧ id = d.id p := by
  obtain ⟨d, p, hd, hp, hid⟩ := (h.2.1 id).mp hid
  exact ⟨d, p, hd, hp.1, hid⟩

/-- A refreshed root has the greatest version that satisfies it. -/
theorem GreedyOutcome.refreshed {res : Resolution}
    (h : GreedyOutcome ds metadata options route preferred (.ok res)) {c : RootKey × OrdSet Requirement}
    (hc : c ∈ (rootConstraints ds).entries) (hrefreshed : c.1 ∈ preferred.refreshRoots) :
    ∃ p, (rootDemand preferred c).Satisfied metadata p ∧
      res.rootBindings.get? (bindingKey c) = some ((rootDemand preferred c).id p) ∧
      ∀ q, (rootDemand preferred c).Satisfied metadata q → q.version ≤ p.version := by
  obtain ⟨p, hp, hget⟩ := h.2.2.1 c hc
  have hnone : (rootDemand preferred c).preferred = .none := if_pos hrefreshed
  have hroot : (rootDemand preferred c).preferredRoot = none := by
    rw [rootDemand, if_pos hrefreshed]
    rfl
  exact ⟨p, hp.1, hget, fun q hq => hp.version_le hnone hroot hq⟩

/-- A request that resolution answers: the mode is supported, every demand met has a
record, no two root keys conflict, and all peers are met. -/
structure Resolvable (ds : List Dependency) (metadata : List RegistryMetadata) (options : ResolutionOptions)
    (route : Routing) (preferred : ResolutionPreferences) : Prop where
  supported : ¬ options.Unsupported metadata
  satisfied : AllSatisfied ds metadata route preferred
  roots : ¬ RootConflict ds metadata preferred
  peers : PeersMet ds metadata route preferred

/-- Every failure is that of a request that is not resolvable. -/
theorem GreedyOutcome.not_resolvable {e : ResolveError}
    (h : GreedyOutcome ds metadata options route preferred (.error e)) :
    ¬ Resolvable ds metadata options route preferred := by
  intro hresolvable
  cases e with
  | missingCandidate =>
    obtain ⟨d, hd, hnone⟩ := h
    obtain ⟨p, hp⟩ := hresolvable.satisfied d hd
    exact hnone p hp.1
  | conflict =>
    obtain ⟨d, hd, hnone⟩ := h
    obtain ⟨p, hp⟩ := hresolvable.satisfied d hd
    exact hnone p hp.1
  | missingMetadata ps =>
    obtain ⟨hne, -, hmem⟩ := h
    obtain ⟨pair, hpair⟩ := List.exists_mem_of_ne_nil ps hne
    obtain ⟨d, hd, hunknown, -⟩ := (hmem pair).mp hpair
    obtain ⟨p, hp⟩ := hresolvable.satisfied d hd
    exact hp.not_unknown hunknown
  | unsupportedMode => exact hresolvable.supported h
  | registryRouting =>
    rcases h with hconflict | ⟨-, id, p, peer, r, hmet, hambiguous⟩
    · exact hresolvable.roots hconflict
    · exact (hresolvable.peers id p peer r hmet).1 hambiguous
  | peerDependency id peer requirement provider =>
    obtain ⟨-, p, name, r, hmet, -, -, hunmet⟩ := h
    exact (hresolvable.peers id p name r hmet).2 provider hunmet
  | _ => exact h

/-- Root keys of one registry and local name are bound to one package. -/
theorem GreedyOutcome.not_rootConflict {res : Resolution} (hrecords : Unambiguous metadata)
    (h : GreedyOutcome ds metadata options route preferred (.ok res)) : ¬ RootConflict ds metadata preferred := by
  rintro ⟨c, hc, c', hc', hregistry, hlocal, p, p', hp, hp', hne⟩
  obtain ⟨q, hq, hget⟩ := h.2.2.1 c hc
  obtain ⟨q', hq', hget'⟩ := h.2.2.1 c' hc'
  obtain rfl := hp.unique hrecords hq
  obtain rfl := hp'.unique hrecords hq'
  have hkey : bindingKey c = bindingKey c' := by rw [bindingKey, bindingKey, hregistry, hlocal]
  rw [hkey] at hget
  exact hne (Option.some.inj (hget.symm.trans hget'))

/-- **Greedy maximality and exact failures.**  Resolution of unambiguous
metadata within the limits fails at a demand that nothing satisfies, reports
exactly the packages without records, or selects exactly the closure; it fails
for another reason on the mode, at two bindings of one root name, or once every
demand is satisfied at a peer that two roots provide, that has no provider or none
that fits.  It succeeds exactly if there is none of these reasons.  No preference
leads outside the requirements, and a refreshed root takes the greatest version. -/
theorem resolveGraphWithPreferences_greedy {ds : List Dependency} {metadata : List RegistryMetadata}
    {route : Routing} (hlimits : WithinLimits ds metadata) (hrecords : Unambiguous metadata)
    (hroutes : Routes route) (options : ResolutionOptions) (preferred : ResolutionPreferences) :
    GreedyOutcome ds metadata options route preferred
        (resolveGraphWithPreferences ds metadata options route preferred) ∧
      ((∃ res, resolveGraphWithPreferences ds metadata options route preferred = .ok res) ↔
        Resolvable ds metadata options route preferred) ∧
      ∀ res, resolveGraphWithPreferences ds metadata options route preferred = .ok res →
        (∀ id ∈ res.selected, ∃ d p, Met ds metadata route preferred d ∧ d.Satisfied metadata p ∧
          id = d.id p) ∧
        ∀ c ∈ (rootConstraints ds).entries, c.1 ∈ preferred.refreshRoots →
          ∃ p, (rootDemand preferred c).Satisfied metadata p ∧
            res.rootBindings.get? (bindingKey c) = some ((rootDemand preferred c).id p) ∧
            ∀ q, (rootDemand preferred c).Satisfied metadata q → q.version ≤ p.version := by
  have houtcome : GreedyOutcome ds metadata options route preferred
      (resolveGraphWithPreferences ds metadata options route preferred) := by
    rw [resolveGraphWithPreferences, checkRequest_eq]
    split_ifs with hfrozen hoffline
    · exact Or.inl hfrozen
    · exact Or.inr hoffline
    · -- the mode is supported: what fails is the graph or a peer
      rw [ok_bind]
      cases hgraph : selectGraph ds metadata route preferred with
      | ok state => exact outcome_of_selectGraph hrecords hroutes hgraph
      | error e =>
        rcases (selectGraph_greedy hroutes).2 e hgraph with hunsatisfied | ⟨⟨text, rfl⟩, hconflict⟩
        · exact hunsatisfied.outcome
        · exact Or.inl hconflict
  refine ⟨houtcome, ⟨?_, fun hresolvable => ?_⟩, fun res hres => ?_⟩
  · rintro ⟨res, hres⟩
    have hsupported : ¬ options.Unsupported metadata := by
      rw [resolveGraphWithPreferences, checkRequest_eq] at hres
      split_ifs at hres with hfrozen hoffline
      · cases hres
      · cases hres
      · exact not_or.mpr ⟨hfrozen, hoffline⟩
    rw [hres] at houtcome
    exact ⟨hsupported, houtcome.1, houtcome.not_rootConflict hrecords, houtcome.2.2.2⟩
  · cases hres : resolveGraphWithPreferences ds metadata options route preferred with
    | ok res => exact ⟨res, rfl⟩
    | error e =>
      rw [hres] at houtcome
      exact absurd hresolvable houtcome.not_resolvable
  · rw [hres] at houtcome
    exact ⟨fun id hid => houtcome.satisfied hid, fun c hc hrefreshed => houtcome.refreshed hc hrefreshed⟩

section Sample

theorem unambiguous_sampleMetadata : Unambiguous sampleMetadata := by
  rintro id p q ⟨m, hm, -, hp, hname, -⟩ ⟨m', hm', -, hq, hname', -⟩
  obtain rfl := List.mem_singleton.mp hm
  obtain rfl := List.mem_singleton.mp hm'
  have heq : p.name = q.name := hname.trans hname'.symm
  simp only [List.mem_cons, List.not_mem_nil, or_false] at hp hq
  -- the two records have different names
  rcases hp with rfl | rfl <;> rcases hq with rfl | rfl
  · rfl
  · exact absurd heq (by decide)
  · exact absurd heq (by decide)
  · rfl

theorem resolveGraphWithPreferences_sample_greedy :
    GreedyOutcome [⟨sampleRegistry, sampleA, anyStable⟩] sampleMetadata ⟨false, false⟩
        (fun registry _ => .ok registry) .none (.ok sampleResolution) ∧
      Resolvable [⟨sampleRegistry, sampleA, anyStable⟩] sampleMetadata ⟨false, false⟩
        (fun registry _ => .ok registry) .none := by
  have hlimits : WithinLimits [⟨sampleRegistry, sampleA, anyStable⟩] sampleMetadata := by decide
  have hres : resolveGraphWithPreferences [⟨sampleRegistry, sampleA, anyStable⟩] sampleMetadata
      ⟨false, false⟩ (fun registry _ => .ok registry) .none = .ok sampleResolution := by
    decide
  have hroutes : Routes fun registry _ => .ok registry := fun registry _ => ⟨registry, rfl⟩
  obtain ⟨houtcome, hsucceeds, -⟩ := resolveGraphWithPreferences_greedy hlimits unambiguous_sampleMetadata hroutes
    ⟨false, false⟩ .none
  rw [hres] at houtcome
  exact ⟨houtcome, hsucceeds.mp ⟨_, hres⟩⟩

/-- A requirement for one version. -/
def exactly (raw : String) (version : PackageVersion) : Requirement :=
  ⟨raw, none, none, [.comparators [⟨.exact, ⟨version, .full⟩⟩]]⟩

/-- The tagged version of `b` under another name. -/
def taggedAlias : Requirement := ⟨"npm:b@t", some sampleB, some "t", []⟩

/-- `b` with a peer that no root provides. -/
def peerMetadata : List RegistryMetadata :=
  [⟨sampleRegistry, [⟨sampleB, .stable 1 0 0, ∅, ∅, .ofList [(sampleA, anyStable)], ∅⟩]⟩]

def twoVersions : List RegistryMetadata :=
  [⟨sampleRegistry, [⟨sampleA, .stable 1 0 0, ∅, ∅, ∅, ∅⟩, ⟨sampleA, .stable 2 0 0, ∅, ∅, ∅, ∅⟩]⟩]

/-- Two records of one version of `b`, of which the tagged one depends on `a`. -/
def twoRecords : List RegistryMetadata :=
  [⟨sampleRegistry, [⟨sampleB, .stable 1 0 0, .ofList ["t"], .ofList [(sampleA, anyStable)], ∅, ∅⟩,
    ⟨sampleB, .stable 1 0 0, ∅, ∅, ∅, ∅⟩, ⟨sampleA, .stable 1 0 0, ∅, ∅, ∅, ∅⟩]⟩]

/-- With two records of one identity a root can miss a package of the closure. -/
theorem twoRecords_inClosure : InClosure
    [⟨sampleRegistry, sampleA, taggedAlias⟩, ⟨sampleRegistry, sampleB, anyStable⟩] twoRecords
    (fun registry _ => .ok registry) .none ⟨sampleRegistry, sampleA, .stable 1 0 0⟩ := by
  have hroot : (rootDemand .none (rootKey sampleRegistry sampleA sampleB, .ofList [taggedAlias])).select
      twoRecords ⟨sampleA, none⟩ = .ok (.found
        ⟨sampleB, .stable 1 0 0, .ofList ["t"], .ofList [(sampleA, anyStable)], ∅, ∅⟩) := rfl
  have hchild : (dependencyDemand .none sampleRegistry (sampleA, anyStable)).select twoRecords
      ⟨sampleA, none⟩ = .ok (.found ⟨sampleA, .stable 1 0 0, ∅, ∅, ∅, ∅⟩) := rfl
  have hconstraint : (rootKey sampleRegistry sampleA sampleB, OrdSet.ofList [taggedAlias]) ∈
      (rootConstraints [⟨sampleRegistry, sampleA, taggedAlias⟩,
        ⟨sampleRegistry, sampleB, anyStable⟩]).entries := by decide
  have hdeclared : (sampleA, anyStable) ∈ (OrdMap.ofList [(sampleA, anyStable)]).entries := by decide
  exact ⟨_, _, .dependency (.root hconstraint) (Demand.select_found hroot) hdeclared rfl,
    Demand.select_found hchild, rfl⟩

/-- Resolution fails on a peer when every requirement has a record, and at a root
with two requirements that have one each; with two records of one identity it
misses a package of the closure. -/
theorem resolveGraphWithPreferences_beyond_greedy :
    resolveGraphWithPreferences [⟨sampleRegistry, sampleB, anyStable⟩] peerMetadata ⟨false, false⟩
        (fun registry _ => .ok registry) .none =
      .error (.peerDependency ⟨sampleRegistry, sampleB, .stable 1 0 0⟩ "a" "*" none) ∧
    (resolveGraphWithPreferences [⟨sampleRegistry, sampleA, exactly "1.0.0" (.stable 1 0 0)⟩,
        ⟨sampleRegistry, sampleA, exactly "2.0.0" (.stable 2 0 0)⟩] twoVersions ⟨false, false⟩
        (fun registry _ => .ok registry) .none =
      .error (.conflict ⟨sampleA, none⟩ "r" "a" ["1.0.0", "2.0.0"] ["1.0.0", "2.0.0"]) ∧
      Satisfies twoVersions (exactly "1.0.0" (.stable 1 0 0)) ⟨sampleRegistry, sampleA, .stable 1 0 0⟩ ∧
      Satisfies twoVersions (exactly "2.0.0" (.stable 2 0 0)) ⟨sampleRegistry, sampleA, .stable 2 0 0⟩) ∧
    ∃ res, resolveGraphWithPreferences [⟨sampleRegistry, sampleA, taggedAlias⟩,
        ⟨sampleRegistry, sampleB, anyStable⟩] twoRecords ⟨false, false⟩
        (fun registry _ => .ok registry) .none = .ok res ∧
      ⟨sampleRegistry, sampleA, .stable 1 0 0⟩ ∉ res.selected ∧
      InClosure [⟨sampleRegistry, sampleA, taggedAlias⟩, ⟨sampleRegistry, sampleB, anyStable⟩] twoRecords
        (fun registry _ => .ok registry) .none ⟨sampleRegistry, sampleA, .stable 1 0 0⟩ := by
  refine ⟨by decide, ⟨by decide, ?_, ?_⟩, ?_⟩
  · exact ⟨_, ⟨_, List.mem_singleton.mpr rfl, rfl, List.mem_cons_self, rfl, rfl⟩, by decide⟩
  · exact ⟨_, ⟨_, List.mem_singleton.mpr rfl, rfl, List.mem_cons_of_mem _ List.mem_cons_self, rfl, rfl⟩,
      by decide⟩
  · have hres : resolveGraphWithPreferences [⟨sampleRegistry, sampleA, taggedAlias⟩,
        ⟨sampleRegistry, sampleB, anyStable⟩] twoRecords ⟨false, false⟩ (fun registry _ => .ok registry) .none =
        .ok ⟨[⟨sampleRegistry, sampleB, .stable 1 0 0⟩], [⟨sampleRegistry, sampleB, .stable 1 0 0⟩],
          .ofList [(packageKey sampleRegistry sampleA, ⟨sampleRegistry, sampleB, .stable 1 0 0⟩),
            (packageKey sampleRegistry sampleB, ⟨sampleRegistry, sampleB, .stable 1 0 0⟩)], [],
          .ofList [(⟨sampleRegistry, sampleB, .stable 1 0 0⟩, ∅)]⟩ := by
      decide
    exact ⟨_, hres, by decide, twoRecords_inClosure⟩

end Sample

end Tapid
