/-
Soundness and closure of dependency resolution.

The worklist keeps an invariant over an arbitrary graph (`Worklist`): what is
selected has a record and is reachable, every edge is the one its parent
declares, and every expanded package has all its edges unless metadata is
missing.  When the stack is empty everything selected is expanded, which gives
closure.

* `selectGraph_queue` — the worklist runs until its stack is empty;
* `selectGraph_worklist` — the invariant at the end;
* `resolveGraphWithPreferences_sound` — the whole result.
-/
import Tapid.Resolver

namespace Tapid

open Fallible

/-! ### What a sound resolution is -/

/-- The record is one the metadata has for the identity. -/
def IsRecord (metadata : List RegistryMetadata) (id : PackageInstanceId)
    (p : PackageVersionMetadata) : Prop :=
  ∃ registry ∈ metadata, registry.registry = id.registry ∧ p ∈ registry.packages ∧
    p.name = id.name ∧ p.version = id.version

/-- Some record of the identity satisfies the requirement, as a range or by a tag. -/
def Satisfies (metadata : List RegistryMetadata) (r : Requirement) (id : PackageInstanceId) : Prop :=
  ∃ p, IsRecord metadata id p ∧ r.matchesTaggedVersion p.version p.distTags = true

/-- One edge between packages. -/
def HasEdge (dependencies : List ResolvedDependency) (a b : PackageInstanceId) : Prop :=
  ∃ name, ⟨a, name, b⟩ ∈ dependencies

/-- Reachable from a root binding along the edges. -/
def Reachable (bindings : OrdMap PackageKey PackageInstanceId)
    (dependencies : List ResolvedDependency) (id : PackageInstanceId) : Prop :=
  ∃ key root, bindings.get? key = some root ∧ Relation.ReflTransGen (HasEdge dependencies) root id

/-- The edge a declared dependency must have: the routed registry, the actual
name and a version that satisfies the requirement. -/
structure IsChild (metadata : List RegistryMetadata) (route : Routing) (parent : PackageInstanceId)
    (declared : PackageName) (r : Requirement) (child : PackageInstanceId) : Prop where
  registry : route parent.registry (r.packageName declared) = .ok child.registry
  name : child.name = r.packageName declared
  satisfied : Satisfies metadata r child

/-- A root binding under the local name of a peer, from the registry peers of
the package come from. -/
def IsProvider (route : Routing) (bindings : OrdMap PackageKey PackageInstanceId)
    (id : PackageInstanceId) (peer : PackageName) (r : Requirement) (registry : PackageSource)
    (provider : PackageInstanceId) : Prop :=
  bindings.get? (packageKey registry peer) = some provider ∧
    route id.registry (if r.isAlias then r.packageName peer else provider.name) =
      .ok provider.registry

/-- A declared peer is bound to the only provider, which satisfies it, or is
optional and has none. -/
def PeerBound (metadata : List RegistryMetadata) (route : Routing)
    (bindings : OrdMap PackageKey PackageInstanceId) (id : PackageInstanceId)
    (p : PackageVersionMetadata) (context : PeerContext) (peer : PackageName) (r : Requirement) :
    Prop :=
  (peer ∈ p.optionalPeerDependencies ∧ context.get? peer = none ∧
    ∀ registry provider, ¬ IsProvider route bindings id peer r registry provider) ∨
  ∃ registry provider, IsProvider route bindings id peer r registry provider ∧
    (∀ registry' provider', IsProvider route bindings id peer r registry' provider' →
      registry' = registry ∧ provider' = provider) ∧
    context.get? peer = some provider.version ∧ Satisfies metadata r provider ∧
    (r.isAlias = true → r.packageName peer = provider.name)

/-- A resolution that is closed and satisfies every declaration.  `records` holds
the metadata record each selected identity was resolved with. -/
structure ResolutionSound (ds : List Dependency) (metadata : List RegistryMetadata) (route : Routing)
    (res : Resolution) (records : OrdMap PackageInstanceId PackageVersionMetadata) : Prop where
  /-- Exactly the selected identities have records. -/
  has_record : ∀ id, id ∈ res.selected ↔ ∃ p, records.get? id = some p
  /-- Records come from the metadata. -/
  isRecord : ∀ id p, records.get? id = some p → IsRecord metadata id p
  /-- Selected is reachable. -/
  selected_iff : ∀ id, id ∈ res.selected ↔ Reachable res.rootBindings res.dependencies id
  /-- Every declared dependency has exactly one edge, to a right child. -/
  edges : ∀ id p, records.get? id = some p → ∀ name r, p.dependencies.get? name = some r →
    ∃ child, (⟨id, name, child⟩ ∈ res.dependencies ∧ IsChild metadata route id name r child) ∧
      ∀ child', ⟨id, name, child'⟩ ∈ res.dependencies → child' = child
  /-- Every edge is declared. -/
  declared : ∀ e ∈ res.dependencies, ∃ p r, records.get? e.parent = some p ∧
    p.dependencies.get? e.dependency = some r
  /-- Every root constraint is bound. -/
  bound : ∀ d ∈ ds, ∃ id, res.rootBindings.get? (packageKey d.registry d.name) = some id ∧
    id.registry = d.registry ∧ id.name = d.requirement.packageName d.name
  /-- A root binding satisfies every root requirement under its key. -/
  roots : ∀ registry localName id, res.rootBindings.get? (packageKey registry localName) = some id →
    id.registry = registry ∧ ∀ d ∈ ds, d.registry = registry → d.name = localName →
      d.requirement.packageName d.name = id.name → Satisfies metadata d.requirement id
  /-- Every selected package has its peers bound. -/
  peers : ∀ id p, records.get? id = some p → ∃ context, res.peerContexts.get? id = some context ∧
    ∀ peer r, p.peerDependencies.get? peer = some r →
      PeerBound metadata route res.rootBindings id p context peer r

/-! ### Candidate selection -/

/-- A fold that keeps its value or takes the element read ends in one of them. -/
theorem mem_of_foldl_keep {α : Type} {f : Option α → α → Option α}
    (hf : ∀ best b, f best b = some b ∨ f best b = best) {l : List α} {best : Option α} {a : α}
    (h : l.foldl f best = some a) : a ∈ l ∨ best = some a := by
  induction l generalizing best with
  | nil => exact Or.inr h
  | cons b l ih =>
    rw [List.foldl_cons] at h
    rcases ih h with h | h
    · exact Or.inl (List.mem_cons_of_mem _ h)
    · rcases hf best b with hb | hb
      · rw [hb] at h
        exact Or.inl (by simp [Option.some_inj.mp h])
      · rw [hb] at h
        exact Or.inr h

theorem mem_of_maxByKey {α κ : Type} [LinearOrder κ] {key : α → κ} {l : List α} {a : α}
    (h : maxByKey key l = some a) : a ∈ l := by
  rw [maxByKey] at h
  refine (mem_of_foldl_keep (fun best b => ?_) h).resolve_right (by simp)
  cases best with
  | none => exact Or.inl rfl
  | some c =>
    by_cases hle : key c ≤ key b
    · exact Or.inl (if_pos hle)
    · exact Or.inr (if_neg hle)

/-- Every candidate is a record of its key. -/
theorem isRecord_of_mem_candidates {metadata : List RegistryMetadata} {registry : PackageSource}
    {name : PackageName} {p : PackageVersionMetadata}
    (h : p ∈ ((candidateIndex metadata).get? (packageKey registry name)).getD []) :
    IsRecord metadata ⟨registry, name, p.version⟩ p := by
  cases hget : (candidateIndex metadata).get? (packageKey registry name) with
  | none => simp [hget] at h
  | some ps =>
    rw [hget, Option.getD_some] at h
    obtain ⟨rfl, _⟩ := OrdMap.mem_of_get?_group hget
    have hmem := OrdMap.mem_valuesAt.mp h
    simp only [indexEntries, List.mem_flatMap, List.mem_map, Prod.mk.injEq] at hmem
    obtain ⟨rm, hrm, p', hp', hkey, rfl⟩ := hmem
    obtain ⟨rfl, rfl⟩ := Prod.mk.inj (toLex.injective hkey)
    exact ⟨rm, hrm, rfl, hp', rfl, rfl⟩

theorem mem_knownIds {metadata : List RegistryMetadata} {id : PackageInstanceId}
    {p : PackageVersionMetadata} (h : IsRecord metadata id p) : id ∈ knownIds metadata := by
  obtain ⟨rm, hrm, hreg, hp, hname, hversion⟩ := h
  refine List.mem_flatMap.mpr ⟨rm, hrm, List.mem_map.mpr ⟨p, hp, ?_⟩⟩
  rw [hreg, hname, hversion]

variable {metadata : List RegistryMetadata} {preferred : ResolutionPreferences} {route : Routing}

theorem selectKnown_found {registry : PackageSource} {name : PackageName}
    {requirements : OrdSet Requirement} {preferredRoot : Option PackageVersion}
    {origin : RequirementOrigin} {p : PackageVersionMetadata}
    (h : selectKnown registry name requirements (candidateIndex metadata) preferred preferredRoot
      origin = .ok (.found p)) :
    IsRecord metadata ⟨registry, name, p.version⟩ p ∧
      ∀ r ∈ requirements, r.matchesTaggedVersion p.version p.distTags = true := by
  have hsel : selectPackage registry name requirements (candidateIndex metadata) preferred
      preferredRoot origin = .ok p := by
    rw [selectKnown] at h
    split at h
    · rename_i q hq
      rw [hq]
      simpa using h
    · split_ifs at h
      simp at h
    · simp at h
  simp only [selectPackage] at hsel
  split at hsel
  · rename_i q hq
    obtain rfl := Except.ok.inj hsel
    obtain ⟨hmem, hall⟩ := List.mem_filter.mp (mem_of_maxByKey hq)
    exact ⟨isRecord_of_mem_candidates hmem, fun r hr => List.all_eq_true.mp hall r hr⟩
  · split_ifs at hsel

/-- What a found child is. -/
theorem resolveChild_found {parent : PackageInstanceId} {name : PackageName} {r : Requirement}
    {registry : PackageSource} {p : PackageVersionMetadata}
    (h : resolveChild (candidateIndex metadata) preferred route parent name r =
      .ok (registry, .found p)) :
    IsRecord metadata ⟨registry, r.packageName name, p.version⟩ p ∧
      IsChild metadata route parent name r ⟨registry, r.packageName name, p.version⟩ := by
  simp only [resolveChild, bind_eq_ok, mapError_eq_ok, pure_eq_ok, Prod.mk.injEq] at h
  obtain ⟨_, hroute, _, hsel, rfl, rfl⟩ := h
  obtain ⟨hrec, hall⟩ := selectKnown_found hsel
  exact ⟨hrec, hroute, rfl, p, hrec, hall r (by simp)⟩

/-! ### The worklist invariant -/

/-- The edge is the one its parent declares and selection yields. -/
def EdgeDeclared (metadata : List RegistryMetadata) (preferred : ResolutionPreferences)
    (route : Routing) (state : GraphState) (e : ResolvedDependency) : Prop :=
  ∃ p r registry q, state.packages.get? e.parent = some p ∧ p.dependencies.get? e.dependency = some r ∧
    resolveChild (candidateIndex metadata) preferred route e.parent e.dependency r =
      .ok (registry, .found q) ∧
    e.child = ⟨registry, r.packageName e.dependency, q.version⟩

/-- Invariant of the worklist; `todo` holds of the declarations that the
package being expanded still has to go through. -/
structure Worklist (metadata : List RegistryMetadata) (preferred : ResolutionPreferences)
    (route : Routing) (todo : PackageInstanceId → PackageName × Requirement → Prop)
    (state : GraphState) : Prop where
  selected_iff : ∀ id, id ∈ state.selected ↔ ∃ p, state.packages.get? id = some p
  record : ∀ id p, state.packages.get? id = some p → IsRecord metadata id p
  queue_selected : ∀ id ∈ state.queue, id ∈ state.selected
  expanded_selected : ∀ id ∈ state.expanded, id ∈ state.selected
  bindings_selected : ∀ key id, state.rootBindings.get? key = some id → id ∈ state.selected
  pending : ∀ id ∈ state.selected, id ∈ state.expanded ∨ id ∈ state.queue
  reachable : ∀ id ∈ state.selected, Reachable state.rootBindings state.dependencies.elems id
  edge : ∀ e ∈ state.dependencies, EdgeDeclared metadata preferred route state e
  closed : ∀ id ∈ state.expanded, ∀ p, state.packages.get? id = some p →
    ∀ d ∈ p.dependencies.entries, todo id d ∨
      (∃ child, ⟨id, d.1, child⟩ ∈ state.dependencies) ∨ state.missing.elems ≠ []

theorem insert_elems_ne_nil {K : Type} [LinearOrder K] (s : OrdSet K) (k : K) :
    (s.insert k).elems ≠ [] := by
  have hmem : k ∈ s.insert k := OrdSet.mem_insert.mpr (Or.inl rfl)
  intro hnil
  rw [OrdSet.mem_def, hnil] at hmem
  simp at hmem

theorem Reachable.mono {bindings : OrdMap PackageKey PackageInstanceId}
    {deps deps' : List ResolvedDependency} (h : ∀ e ∈ deps, e ∈ deps') {id : PackageInstanceId}
    (hid : Reachable bindings deps id) : Reachable bindings deps' id := by
  obtain ⟨key, root, hroot, hpath⟩ := hid
  refine ⟨key, root, hroot, Relation.ReflTransGen.mono ?_ root id hpath⟩
  rintro a b ⟨name, he⟩
  exact ⟨name, h _ he⟩

theorem Reachable.tail {bindings : OrdMap PackageKey PackageInstanceId}
    {deps : List ResolvedDependency} {a b : PackageInstanceId} (ha : Reachable bindings deps a)
    (hab : HasEdge deps a b) : Reachable bindings deps b := by
  obtain ⟨key, root, hroot, hpath⟩ := ha
  exact ⟨key, root, hroot, hpath.tail hab⟩

namespace Worklist

variable {todo : PackageInstanceId → PackageName × Requirement → Prop} {state : GraphState}

/-- Declarations of the package being expanded that are left. -/
def Remaining (parent : PackageInstanceId) (l : List (PackageName × Requirement)) :
    PackageInstanceId → PackageName × Requirement → Prop :=
  fun id d => id = parent ∧ d ∈ l

/-- A declaration without metadata is set aside. -/
theorem insert_missing {parent : PackageInstanceId} {d : PackageName × Requirement}
    {l : List (PackageName × Requirement)} {key : String ×ₗ String}
    (h : Worklist metadata preferred route (Remaining parent (d :: l)) state) :
    Worklist metadata preferred route (Remaining parent l)
      { state with missing := state.missing.insert key } := by
  exact { h with closed := fun id _ p _ d' _ => Or.inr (Or.inr (insert_elems_ne_nil _ _)) }

/-- A declaration becomes an edge. -/
theorem insert_edge {parent : PackageInstanceId} {d : PackageName × Requirement}
    {l : List (PackageName × Requirement)} {e : ResolvedDependency}
    (h : Worklist metadata preferred route (Remaining parent (d :: l)) state)
    (hparent : e.parent = parent) (hname : e.dependency = d.1)
    (hdecl : EdgeDeclared metadata preferred route state e) :
    Worklist metadata preferred route (Remaining parent l)
      { state with dependencies := state.dependencies.insert e } := by
  have hmono : ∀ e' ∈ state.dependencies, e' ∈ state.dependencies.insert e := fun e' he' =>
    OrdSet.mem_insert.mpr (Or.inr he')
  refine { h with reachable := ?_, edge := ?_, closed := ?_ }
  · intro id hid
    exact (h.reachable id hid).mono hmono
  · intro e' he'
    rcases OrdSet.mem_insert.mp he' with rfl | he'
    · exact hdecl
    · exact h.edge e' he'
  · intro id hid p hp d' hd'
    rcases h.closed id hid p hp d' hd' with ⟨rfl, htodo⟩ | ⟨child, hc⟩ | hmiss
    · rcases List.mem_cons.mp htodo with rfl | htodo
      · refine Or.inr (Or.inl ⟨e.child, OrdSet.mem_insert.mpr (Or.inl ?_)⟩)
        rw [← hparent, ← hname]
      · exact Or.inl ⟨rfl, htodo⟩
    · exact Or.inr (Or.inl ⟨child, hmono _ hc⟩)
    · exact Or.inr (Or.inr hmiss)

/-- A package reached by an edge is selected and queued. -/
theorem select {id : PackageInstanceId} {p : PackageVersionMetadata}
    (h : Worklist metadata preferred route todo state) (hnew : id ∉ state.selected)
    (hrec : IsRecord metadata id p)
    (hreach : Reachable state.rootBindings state.dependencies.elems id) :
    Worklist metadata preferred route todo { state with
      selected := state.selected.insert id
      packages := state.packages.insert id p
      queue := id :: state.queue } := by
  -- the new package is not among the old ones, so lookups stay
  have hfresh : ∀ id' p', state.packages.get? id' = some p' → id' ≠ id := by
    rintro id' p' hp' rfl
    exact hnew ((h.selected_iff id').mpr ⟨p', hp'⟩)
  have hkeep : ∀ id' p', state.packages.get? id' = some p' →
      (state.packages.insert id p).get? id' = some p' := fun id' p' hp' => by
    rw [OrdMap.get?_insert_of_ne _ _ (hfresh id' p' hp'), hp']
  refine ⟨?_, ?_, ?_, ?_, ?_, ?_, ?_, ?_, ?_⟩
  · intro id'
    show id' ∈ state.selected.insert id ↔ ∃ q, (state.packages.insert id p).get? id' = some q
    rw [OrdSet.mem_insert, OrdMap.get?_insert]
    by_cases heq : id' = id
    · simp [heq]
    · simp [heq, h.selected_iff id']
  · intro id' p' hp'
    simp only [OrdMap.get?_insert] at hp'
    split_ifs at hp' with heq
    · rw [heq, ← Option.some_inj.mp hp']
      exact hrec
    · exact h.record id' p' hp'
  · intro id' hid'
    rcases List.mem_cons.mp hid' with rfl | hid'
    · exact OrdSet.mem_insert.mpr (Or.inl rfl)
    · exact OrdSet.mem_insert.mpr (Or.inr (h.queue_selected id' hid'))
  · intro id' hid'
    exact OrdSet.mem_insert.mpr (Or.inr (h.expanded_selected id' hid'))
  · intro key id' hid'
    exact OrdSet.mem_insert.mpr (Or.inr (h.bindings_selected key id' hid'))
  · intro id' hid'
    rcases OrdSet.mem_insert.mp hid' with rfl | hid'
    · exact Or.inr List.mem_cons_self
    · exact (h.pending id' hid').imp_right (List.mem_cons_of_mem _)
  · intro id' hid'
    rcases OrdSet.mem_insert.mp hid' with rfl | hid'
    · exact hreach
    · exact h.reachable id' hid'
  · intro e he
    obtain ⟨q, r, registry, q', hq, hrest⟩ := h.edge e he
    exact ⟨q, r, registry, q', hkeep _ _ hq, hrest⟩
  · intro id' hid' p' hp' d hd
    have hne : id' ≠ id := by
      rintro rfl
      exact hnew (h.expanded_selected id' hid')
    simp only [OrdMap.get?_insert_of_ne _ _ hne] at hp'
    exact h.closed id' hid' p' hp' d hd

/-- Every edge leads to a selected package. -/
def ChildrenSelected (state : GraphState) : Prop := ∀ e ∈ state.dependencies, e.child ∈ state.selected

/-- What the loop over the declarations of a package keeps. -/
structure Expanding (metadata : List RegistryMetadata) (preferred : ResolutionPreferences)
    (route : Routing) (parent : PackageInstanceId) (l : List (PackageName × Requirement))
    (state : GraphState) : Prop where
  worklist : Worklist metadata preferred route (Remaining parent l) state
  children : ChildrenSelected state
  parent_selected : parent ∈ state.selected
  declared : ∃ p, state.packages.get? parent = some p ∧ ∀ d ∈ l, d ∈ p.dependencies.entries

/-- **One declaration.** -/
theorem expanding_step {parent : PackageInstanceId} {d : PackageName × Requirement}
    {l : List (PackageName × Requirement)} {state' : GraphState}
    (h : Expanding metadata preferred route parent (d :: l) state)
    (hstep : expandDependency (candidateIndex metadata) preferred route parent state d = .ok state') :
    Expanding metadata preferred route parent l state' := by
  obtain ⟨hw, hchildren, hparent, p, hp, hl⟩ := h
  have hd : p.dependencies.get? d.1 = some d.2 := OrdMap.mem_entries.mp (hl d List.mem_cons_self)
  have hl' : ∀ d' ∈ l, d' ∈ p.dependencies.entries := fun d' hd' => hl d' (List.mem_cons_of_mem _ hd')
  simp only [expandDependency, bind_eq_ok] at hstep
  obtain ⟨⟨registry, selection⟩, hchild, hstep⟩ := hstep
  cases selection with
  | unknown =>
    simp only [pure_eq_ok] at hstep
    subst hstep
    exact ⟨hw.insert_missing, hchildren, hparent, p, hp, hl'⟩
  | found q =>
    obtain ⟨hrec, _⟩ := resolveChild_found hchild
    -- the edge is recorded whether or not the child is new
    have hw' := hw.insert_edge (e := ⟨parent, d.1, ⟨registry, d.2.packageName d.1, q.version⟩⟩) rfl rfl
      ⟨p, d.2, registry, q, hp, hd, hchild, rfl⟩
    simp only at hstep
    split_ifs at hstep with hold
    · rw [pure_eq_ok] at hstep
      subst hstep
      refine ⟨hw', fun e he => ?_, hparent, p, hp, hl'⟩
      rcases OrdSet.mem_insert.mp he with rfl | he
      · exact hold
      · exact hchildren e he
    · rw [pure_eq_ok] at hstep
      subst hstep
      have hreach := (hw'.reachable parent hparent).tail
        ⟨d.1, OrdSet.mem_def.mp (OrdSet.mem_insert.mpr (Or.inl rfl))⟩
      refine ⟨hw'.select hold hrec hreach, fun e he => ?_,
        OrdSet.mem_insert.mpr (Or.inr hparent), p, ?_, hl'⟩
      · rcases OrdSet.mem_insert.mp he with rfl | he
        · exact OrdSet.mem_insert.mpr (Or.inl rfl)
        · exact OrdSet.mem_insert.mpr (Or.inr (hchildren e he))
      · have hne : parent ≠ ⟨registry, d.2.packageName d.1, q.version⟩ := by
          intro heq
          exact hold (heq ▸ hparent)
        simp only [OrdMap.get?_insert_of_ne _ _ hne, hp]

/-- No declaration is left between two iterations. -/
abbrev Idle : PackageInstanceId → PackageName × Requirement → Prop := fun _ _ => False

/-- Expanding a package starts with all its declarations. -/
theorem expanding_start {parent : PackageInstanceId} {rest : List PackageInstanceId}
    {p : PackageVersionMetadata} (h : Worklist metadata preferred route Idle state)
    (hchildren : ChildrenSelected state) (hqueue : state.queue = parent :: rest)
    (hp : state.packages.get? parent = some p) :
    Expanding metadata preferred route parent p.dependencies.entries
      { state with queue := rest, expanded := state.expanded.insert parent } := by
  have hsel : parent ∈ state.selected := h.queue_selected parent (by simp [hqueue])
  refine ⟨{ h with queue_selected := ?_, expanded_selected := ?_, pending := ?_, closed := ?_ },
    hchildren, hsel, p, hp, fun d hd => hd⟩
  · exact fun id hid => h.queue_selected id (by rw [hqueue]; exact List.mem_cons_of_mem _ hid)
  · intro id hid
    rcases OrdSet.mem_insert.mp hid with rfl | hid
    · exact hsel
    · exact h.expanded_selected id hid
  · intro id hid
    rcases h.pending id hid with hid | hid
    · exact Or.inl (OrdSet.mem_insert.mpr (Or.inr hid))
    · rw [hqueue] at hid
      rcases List.mem_cons.mp hid with rfl | hid
      · exact Or.inl (OrdSet.mem_insert.mpr (Or.inl rfl))
      · exact Or.inr hid
  · intro id hid p' hp' d hd
    rcases OrdSet.mem_insert.mp hid with rfl | hid
    · obtain rfl : p = p' := Option.some_inj.mp (hp.symm.trans hp')
      exact Or.inl ⟨rfl, hd⟩
    · rcases h.closed id hid p' hp' d hd with hfalse | hdone
      · exact absurd hfalse not_false
      · exact Or.inr hdone

/-- **One iteration.** -/
theorem expandNext_inv {state' : GraphState}
    (h : Worklist metadata preferred route Idle state) (hchildren : ChildrenSelected state)
    (hstep : expandNext (candidateIndex metadata) preferred route state = some (.ok state')) :
    Worklist metadata preferred route Idle state' ∧ ChildrenSelected state' := by
  rw [expandNext] at hstep
  split at hstep
  · simp at hstep
  · rename_i parent rest hqueue
    have hsel : parent ∈ state.selected := h.queue_selected parent (by simp [hqueue])
    simp only at hstep
    split_ifs at hstep with hexp
    · obtain rfl := Except.ok.inj (Option.some_inj.mp hstep)
      refine ⟨{ h with queue_selected := ?_, pending := ?_ }, hchildren⟩
      · exact fun id hid => h.queue_selected id (by rw [hqueue]; exact List.mem_cons_of_mem _ hid)
      · intro id hid
        rcases h.pending id hid with hid | hid
        · exact Or.inl hid
        · rw [hqueue] at hid
          rcases List.mem_cons.mp hid with rfl | hid
          · exact Or.inl hexp
          · exact Or.inr hid
    · have hfold := Option.some_inj.mp hstep
      obtain ⟨p, hp⟩ := (h.selected_iff parent).mp hsel
      have hdecl : declaredDependencies { state with queue := rest } parent = p.dependencies.entries := by
        simp [declaredDependencies, hp]
      rw [hdecl] at hfold
      have hend := Loop.foldlM_inv (I := Expanding metadata preferred route parent)
        (fun d l s s' hs hs' => expanding_step hs hs') (expanding_start h hchildren hqueue hp) hfold
      refine ⟨{ hend.worklist with closed := ?_ }, hend.children⟩
      intro id hid p' hp' d hd
      rcases hend.worklist.closed id hid p' hp' d hd with ⟨_, hnil⟩ | hdone
      · simp at hnil
      · exact Or.inr hdone

end Worklist

/-! ### Roots -/

/-- The root of a constraint is bound to a record that satisfies all of it. -/
def RootBound (metadata : List RegistryMetadata) (bindings : OrdMap PackageKey PackageInstanceId)
    (key : RootKey) (requirements : OrdSet Requirement) : Prop :=
  let registry := (ofLex key).1
  let localName := (ofLex (ofLex key).2).1
  let name := (ofLex (ofLex key).2).2
  ∃ p, bindings.get? (packageKey registry localName) = some ⟨registry, name, p.version⟩ ∧
    IsRecord metadata ⟨registry, name, p.version⟩ p ∧
    ∀ r ∈ requirements, r.matchesTaggedVersion p.version p.distTags = true

/-- Invariant of root selection; `todo` are the constraints left out of `all`. -/
structure RootsSelected (metadata : List RegistryMetadata)
    (all todo : List (RootKey × OrdSet Requirement)) (state : GraphState) : Prop where
  selected_iff : ∀ id, id ∈ state.selected ↔ ∃ p, state.packages.get? id = some p
  record : ∀ id p, state.packages.get? id = some p → IsRecord metadata id p
  queue_iff : ∀ id, id ∈ state.queue ↔ id ∈ state.selected
  bindings_selected : ∀ key id, state.rootBindings.get? key = some id →
    id ∈ state.selected ∧ id.registry = (ofLex key).1
  selected_bound : ∀ id ∈ state.selected, ∃ key, state.rootBindings.get? key = some id
  no_edges : state.dependencies = ∅ ∧ state.expanded = ∅
  pushed : state.queue.length + todo.length ≤ all.length
  bound : ∀ c ∈ all, c ∈ todo ∨ state.missing.elems ≠ [] ∨ RootBound metadata state.rootBindings c.1 c.2

namespace RootsSelected

variable {all todo : List (RootKey × OrdSet Requirement)} {state state' : GraphState}

/-- A selected root replaces at most another record of the same identity. -/
theorem bind {key : RootKey} {requirements : OrdSet Requirement} {id : PackageInstanceId}
    {p : PackageVersionMetadata} (h : RootsSelected metadata all ((key, requirements) :: todo) state)
    (hid : id = ⟨(ofLex key).1, (ofLex (ofLex key).2).2, p.version⟩) (hrec : IsRecord metadata id p)
    (hall : ∀ r ∈ requirements, r.matchesTaggedVersion p.version p.distTags = true)
    (hsame : ¬ ∃ previous ∈ state.rootBindings.get?
      (packageKey (ofLex key).1 (ofLex (ofLex key).2).1), previous ≠ id) :
    RootsSelected metadata all todo { state with
      selected := state.selected.insert id
      packages := state.packages.insert id p
      roots := state.roots ++ [id]
      rootBindings := state.rootBindings.insert
        (packageKey (ofLex key).1 (ofLex (ofLex key).2).1) id
      queue := id :: state.queue } := by
  have hpushed := h.pushed
  rw [List.length_cons] at hpushed
  -- an earlier binding of the key is the same package, so bindings stay
  have hkeep : ∀ k id', state.rootBindings.get? k = some id' → (state.rootBindings.insert
      (packageKey (ofLex key).1 (ofLex (ofLex key).2).1) id).get? k = some id' := by
    intro k id' hk
    rw [OrdMap.get?_insert]
    split_ifs with heq
    · subst heq
      by_contra hne
      exact hsame ⟨id', hk, fun heq' => hne (by rw [heq'])⟩
    · exact hk
  refine ⟨?_, ?_, ?_, ?_, ?_, h.no_edges, ?_, ?_⟩
  · intro id'
    show id' ∈ state.selected.insert id ↔ ∃ q, (state.packages.insert id p).get? id' = some q
    rw [OrdSet.mem_insert, OrdMap.get?_insert]
    by_cases heq : id' = id
    · simp [heq]
    · simp [heq, h.selected_iff id']
  · intro id' q hq
    simp only [OrdMap.get?_insert] at hq
    split_ifs at hq with heq
    · rw [heq, ← Option.some_inj.mp hq]
      exact hrec
    · exact h.record id' q hq
  · intro id'
    show id' ∈ id :: state.queue ↔ id' ∈ state.selected.insert id
    rw [List.mem_cons, OrdSet.mem_insert, h.queue_iff]
  · intro k id' hk
    simp only [OrdMap.get?_insert] at hk
    split_ifs at hk with heq
    · rw [heq, ← Option.some_inj.mp hk]
      exact ⟨OrdSet.mem_insert.mpr (Or.inl rfl), by rw [hid]; rfl⟩
    · obtain ⟨hsel, hreg⟩ := h.bindings_selected k id' hk
      exact ⟨OrdSet.mem_insert.mpr (Or.inr hsel), hreg⟩
  · intro id' hid'
    rcases OrdSet.mem_insert.mp hid' with rfl | hid'
    · exact ⟨_, OrdMap.get?_insert_self _ _ _⟩
    · obtain ⟨k, hk⟩ := h.selected_bound id' hid'
      exact ⟨k, hkeep k id' hk⟩
  · simp only [List.length_cons]
    omega
  · intro c hc
    rcases h.bound c hc with hc | hmiss | ⟨q, hq, hrest⟩
    · rcases List.mem_cons.mp hc with rfl | hc
      · refine Or.inr (Or.inr ⟨p, ?_, ?_, hall⟩)
        · rw [← hid]
          exact OrdMap.get?_insert_self _ _ _
        · rw [← hid]
          exact hrec
      · exact Or.inl hc
    · exact Or.inr (Or.inl hmiss)
    · exact Or.inr (Or.inr ⟨q, hkeep _ _ hq, hrest⟩)

/-- **One root.** -/
theorem step {c : RootKey × OrdSet Requirement} (h : RootsSelected metadata all (c :: todo) state)
    (hstep : selectRoot (candidateIndex metadata) preferred state c = .ok state') :
    RootsSelected metadata all todo state' := by
  simp only [selectRoot, bind_eq_ok] at hstep
  obtain ⟨selection, hsel, hstep⟩ := hstep
  cases selection with
  | unknown =>
    simp only [pure_eq_ok] at hstep
    subst hstep
    have hpushed := h.pushed
    rw [List.length_cons] at hpushed
    exact { h with
      pushed := by simp only; omega
      bound := fun _ _ => Or.inr (Or.inl (insert_elems_ne_nil _ _)) }
  | found p =>
    obtain ⟨hrec, hall⟩ := selectKnown_found hsel
    simp only [bind_eq_ok, rejectIf_eq_ok, pure_eq_ok] at hstep
    obtain ⟨_, hsame, rfl⟩ := hstep
    exact h.bind rfl hrec hall hsame

/-- Between roots and worklist nothing is expanded. -/
theorem worklist (h : RootsSelected metadata all todo state) :
    Worklist metadata preferred route Worklist.Idle state := by
  obtain ⟨hdeps, hexp⟩ := h.no_edges
  refine ⟨h.selected_iff, h.record, fun id hid => (h.queue_iff id).mp hid, ?_,
    fun key id hk => (h.bindings_selected key id hk).1, fun id hid => Or.inr ((h.queue_iff id).mpr hid),
    ?_, ?_, ?_⟩
  · intro id hid
    rw [hexp] at hid
    exact absurd hid (OrdSet.not_mem_empty id)
  · intro id hid
    obtain ⟨key, hkey⟩ := h.selected_bound id hid
    exact ⟨key, id, hkey, Relation.ReflTransGen.refl⟩
  · intro e he
    rw [hdeps] at he
    exact absurd he (OrdSet.not_mem_empty e)
  · intro id hid
    rw [hexp] at hid
    exact absurd hid (OrdSet.not_mem_empty id)

end RootsSelected

theorem selectRoots_inv {ds : List Dependency} {state : GraphState}
    (h : selectRoots ds metadata preferred = .ok state) :
    RootsSelected metadata (rootConstraints ds).entries [] state := by
  refine Loop.foldlM_inv (I := RootsSelected metadata (rootConstraints ds).entries)
    (fun c l s s' hs hs' => hs.step hs') ?_ h
  refine ⟨?_, ?_, ?_, ?_, ?_, ⟨rfl, rfl⟩, ?_, fun c hc => Or.inl hc⟩ <;>
    simp [GraphState.initial]

/-! ### Termination -/

/-- Packages on the stack and known packages that are not selected. -/
def weight (metadata : List RegistryMetadata) (state : GraphState) : Nat :=
  state.queue.length + ((knownIds metadata).filter fun id => id ∉ state.selected).length

/-- Selecting a known package makes fewer packages unselected. -/
theorem length_unselected_insert {l : List PackageInstanceId} {s : OrdSet PackageInstanceId}
    {id : PackageInstanceId} (hid : id ∈ l) (hnew : id ∉ s) :
    (l.filter fun x => x ∉ s.insert id).length < (l.filter fun x => x ∉ s).length := by
  have hsplit : (l.filter fun x => x ∉ s.insert id) =
      (l.filter fun x => x ∉ s).filter fun x => x ≠ id := by
    rw [List.filter_filter]
    refine List.filter_congr fun x _ => ?_
    rw [← Bool.decide_and]
    simp only [OrdSet.mem_insert, not_or, ne_eq]
  rw [hsplit, List.length_filter_lt_length_iff_exists]
  exact ⟨id, List.mem_filter.mpr ⟨hid, by simpa using hnew⟩, by simp⟩

/-- One declaration leaves the root bindings alone, forgets no missing package
and adds no weight. -/
theorem expandDependency_frame {parent : PackageInstanceId} {d : PackageName × Requirement}
    {state state' : GraphState}
    (h : expandDependency (candidateIndex metadata) preferred route parent state d = .ok state') :
    state'.rootBindings = state.rootBindings ∧
      (state.missing.elems ≠ [] → state'.missing.elems ≠ []) ∧
      weight metadata state' ≤ weight metadata state := by
  simp only [expandDependency, bind_eq_ok] at h
  obtain ⟨⟨registry, selection⟩, hchild, h⟩ := h
  cases selection with
  | unknown =>
    simp only [pure_eq_ok] at h
    subst h
    exact ⟨rfl, fun _ => insert_elems_ne_nil _ _, le_refl _⟩
  | found q =>
    simp only at h
    split_ifs at h with hold
    · rw [pure_eq_ok] at h
      subst h
      exact ⟨rfl, id, le_refl _⟩
    · rw [pure_eq_ok] at h
      subst h
      have hlt := length_unselected_insert (mem_knownIds (resolveChild_found hchild).1) hold
      refine ⟨rfl, id, ?_⟩
      simp only [weight, List.length_cons]
      omega

/-- One iteration leaves the root bindings alone, forgets no missing package and
takes weight away. -/
theorem expandNext_frame {state state' : GraphState}
    (h : expandNext (candidateIndex metadata) preferred route state = some (.ok state')) :
    state'.rootBindings = state.rootBindings ∧
      (state.missing.elems ≠ [] → state'.missing.elems ≠ []) ∧
      weight metadata state' < weight metadata state := by
  rw [expandNext] at h
  split at h
  · simp at h
  · rename_i parent rest hqueue
    simp only at h
    split_ifs at h with hexp
    · obtain rfl := Except.ok.inj (Option.some_inj.mp h)
      refine ⟨rfl, id, ?_⟩
      simp [weight, hqueue]
    · have hfold := Option.some_inj.mp h
      have hend := Loop.foldlM_inv (I := fun _ s => s.rootBindings = state.rootBindings ∧
          (state.missing.elems ≠ [] → s.missing.elems ≠ []) ∧
          weight metadata s + 1 ≤ weight metadata state) (fun d l s s' hs hs' => by
        obtain ⟨hb, hm, hw⟩ := expandDependency_frame hs'
        exact ⟨hb.trans hs.1, hm ∘ hs.2.1, by omega⟩)
        ⟨rfl, id, by simp only [weight, hqueue, List.length_cons]; omega⟩ hfold
      exact ⟨hend.1, hend.2.1, by omega⟩

variable {ds : List Dependency} {state : GraphState}

/-- **The worklist runs until its stack is empty.** -/
theorem selectGraph_queue (h : selectGraph ds metadata route preferred = .ok state) :
    state.queue = [] := by
  simp only [selectGraph, bind_eq_ok] at h
  obtain ⟨start, hstart, hrun⟩ := h
  have hroots := selectRoots_inv hstart
  have hweight : weight metadata start < worklistFuel ds metadata := by
    have hpushed := hroots.pushed
    have hfilter := List.length_filter_le (fun id => decide (id ∉ start.selected)) (knownIds metadata)
    simp only [weight, worklistFuel, List.length_nil, Nat.add_zero] at hpushed ⊢
    omega
  have hstop := Loop.run_stops (I := fun _ => True) (weight metadata)
    (fun s s' _ hs => ⟨trivial, (expandNext_frame hs).2.2⟩) trivial hweight hrun
  rw [expandNext] at hstop
  split at hstop
  · assumption
  · simp only at hstop
    split_ifs at hstop

/-- **The invariant when the worklist is done.** -/
theorem selectGraph_worklist (h : selectGraph ds metadata route preferred = .ok state) :
    Worklist metadata preferred route Worklist.Idle state ∧ Worklist.ChildrenSelected state ∧
      ∃ start, RootsSelected metadata (rootConstraints ds).entries [] start ∧
        state.rootBindings = start.rootBindings ∧
        (state.missing.elems = [] → start.missing.elems = []) := by
  simp only [selectGraph, bind_eq_ok] at h
  obtain ⟨start, hstart, hrun⟩ := h
  have hroots := selectRoots_inv hstart
  have hnone : Worklist.ChildrenSelected start := by
    intro e he
    rw [hroots.no_edges.1] at he
    exact absurd he (OrdSet.not_mem_empty e)
  have hend := Loop.run_inv (I := fun s => (Worklist metadata preferred route Worklist.Idle s ∧
      Worklist.ChildrenSelected s) ∧ s.rootBindings = start.rootBindings ∧
      (start.missing.elems ≠ [] → s.missing.elems ≠ []))
    (fun s s' hs hs' => ⟨Worklist.expandNext_inv hs.1.1 hs.1.2 hs',
      (expandNext_frame hs').1.trans hs.2.1, (expandNext_frame hs').2.1 ∘ hs.2.2⟩)
    ⟨⟨hroots.worklist, hnone⟩, rfl, id⟩ hrun
  exact ⟨hend.1.1, hend.1.2, start, hroots, hend.2.1, not_imp_not.mp hend.2.2⟩

/-! ### Peers -/

/-- The candidate comes from the registry the peer is routed to. -/
def fromPeerRegistry (route : Routing) (id : PackageInstanceId) (peer : PackageName)
    (r : Requirement) (candidate : PackageInstanceId) : Bool :=
  match route id.registry (if r.isAlias then r.packageName peer else candidate.name) with
  | .ok registry => candidate.registry == registry
  | .error _ => false

theorem fromPeerRegistry_iff {id candidate : PackageInstanceId} {peer : PackageName} {r : Requirement} :
    fromPeerRegistry route id peer r candidate = true ↔
      route id.registry (if r.isAlias then r.packageName peer else candidate.name) =
        .ok candidate.registry := by
  rw [fromPeerRegistry]
  split
  · rename_i registry hroute
    rw [hroute, beq_iff_eq, Except.ok.injEq]
    exact eq_comm
  · rename_i e hroute
    rw [hroute]
    simp

/-- At most one candidate is from the right registry, and it is the one found. -/
theorem filter_of_considerProvider {id : PackageInstanceId} {peer : PackageName} {r : Requirement}
    {candidates : List PackageInstanceId} {provider found : Option PackageInstanceId}
    (h : candidates.foldlM (considerProvider route id peer r) provider = .ok found) :
    provider.toList ++ candidates.filter (fromPeerRegistry route id peer r) = found.toList := by
  induction candidates generalizing provider with
  | nil =>
    rw [List.foldlM_nil, pure_eq_ok] at h
    simp [h]
  | cons c cs ih =>
    obtain ⟨next, hnext, h⟩ := Loop.foldlM_cons_eq_ok.mp h
    rw [← ih h]
    simp only [considerProvider, bind_eq_ok, mapError_eq_ok] at hnext
    obtain ⟨registry, hroute, hnext⟩ := hnext
    split_ifs at hnext with hreg
    · rw [pure_eq_ok] at hnext
      have hnot : fromPeerRegistry route id peer r c = false := by
        rw [fromPeerRegistry, hroute]
        simpa using hreg
      rw [List.filter_cons_of_neg (by simp [hnot]), hnext]
    · simp only [bind_eq_ok, rejectIf_eq_ok, pure_eq_ok] at hnext
      obtain ⟨_, hnone, rfl⟩ := hnext
      have hyes : fromPeerRegistry route id peer r c = true := by
        rw [fromPeerRegistry, hroute]
        simpa using hreg
      have hprovider : provider = none := by simpa using hnone
      rw [List.filter_cons_of_pos hyes, hprovider]
      rfl

/-- Root bindings under the local name of a peer, from the right registry. -/
def providerEntries (route : Routing) (bindings : OrdMap PackageKey PackageInstanceId)
    (id : PackageInstanceId) (peer : PackageName) (r : Requirement) :
    List (PackageKey × PackageInstanceId) :=
  bindings.entries.filter fun e => (ofLex e.1).2 = peer && fromPeerRegistry route id peer r e.2

theorem mem_providerEntries {bindings : OrdMap PackageKey PackageInstanceId} {id : PackageInstanceId}
    {peer : PackageName} {r : Requirement} {registry : PackageSource} {provider : PackageInstanceId} :
    IsProvider route bindings id peer r registry provider ↔
      (packageKey registry peer, provider) ∈ providerEntries route bindings id peer r := by
  rw [IsProvider, providerEntries, List.mem_filter, OrdMap.mem_entries, ← fromPeerRegistry_iff]
  simp [packageKey]

/-- The candidates for a peer are the bindings under its name. -/
theorem getD_rootProviders (bindings : OrdMap PackageKey PackageInstanceId) (peer : PackageName) :
    ((rootProviders bindings).get? peer).getD [] =
      (bindings.entries.filter fun e => (ofLex e.1).2 = peer).map Prod.snd := by
  have hvalues : OrdMap.valuesAt (bindings.entries.map fun e => ((ofLex e.1).2, e.2)) peer =
      (bindings.entries.filter fun e => (ofLex e.1).2 = peer).map Prod.snd := by
    rw [OrdMap.valuesAt, List.filter_map, List.map_map]
    exact congrArg (List.map Prod.snd) (List.filter_congr fun e _ => decide_eq_decide.mpr Iff.rfl)
  rw [rootProviders, OrdMap.get?_group, hvalues]
  split_ifs with hnil
  · rw [hnil]
    rfl
  · rfl

theorem findProvider_eq {bindings : OrdMap PackageKey PackageInstanceId} {id : PackageInstanceId}
    {peer : PackageName} {r : Requirement} {found : Option PackageInstanceId}
    (h : findProvider route (rootProviders bindings) id peer r = .ok found) :
    (providerEntries route bindings id peer r).map Prod.snd = found.toList := by
  simp only [findProvider, bind_eq_ok] at h
  obtain ⟨provider, hfold, h⟩ := h
  obtain rfl : provider = found := by
    split_ifs at h
    · simp only [bind_eq_ok, pure_eq_ok] at h
      obtain ⟨_, _, h⟩ := h
      exact h
    · simpa using h
  rw [getD_rootProviders] at hfold
  have hfilter := filter_of_considerProvider hfold
  rw [Option.toList_none, List.nil_append, List.filter_map, List.filter_filter] at hfilter
  rw [← hfilter, providerEntries]
  refine congrArg _ (List.filter_congr fun e _ => ?_)
  rw [Function.comp_apply, Bool.and_comm]

/-- The only element of a list determines its members. -/
theorem eq_of_map_snd_eq_singleton {K V : Type} {l : List (K × V)} {v : V}
    (h : l.map Prod.snd = [v]) : ∃ k, l = [(k, v)] := by
  cases l with
  | nil => simp at h
  | cons e l =>
    rw [List.map_cons, List.cons.injEq, List.map_eq_nil_iff] at h
    obtain ⟨rfl, rfl⟩ := h
    exact ⟨e.1, rfl⟩

/-- **One declared peer.** -/
theorem peerBound_of_findProvider {bindings : OrdMap PackageKey PackageInstanceId}
    {packages : OrdMap PackageInstanceId PackageVersionMetadata} {id : PackageInstanceId}
    {p : PackageVersionMetadata} {context : PeerContext} {peer : PackageName} {r : Requirement}
    {found : Option PackageInstanceId}
    (hrecord : ∀ id p, packages.get? id = some p → IsRecord metadata id p)
    (h : findProvider route (rootProviders bindings) id peer r = .ok found)
    (hcontext : context.get? peer = found.map PackageInstanceId.version)
    (hnone : found = none → peer ∈ p.optionalPeerDependencies)
    (haccept : ∀ provider, found = some provider → acceptsProvider packages peer r provider = true) :
    PeerBound metadata route bindings id p context peer r := by
  have hentries := findProvider_eq h
  cases found with
  | none =>
    left
    have hnil : providerEntries route bindings id peer r = [] := by simpa using hentries
    refine ⟨hnone rfl, hcontext, fun registry provider hprov => ?_⟩
    rw [mem_providerEntries, hnil] at hprov
    simp at hprov
  | some provider =>
    right
    obtain ⟨key, hkey⟩ := eq_of_map_snd_eq_singleton hentries
    -- the entry of the provider has the peer as local name
    have hlocal : (ofLex key).2 = peer := by
      have hmem : (key, provider) ∈ providerEntries route bindings id peer r := by simp [hkey]
      have hand := (List.mem_filter.mp hmem).2
      simp only [Bool.and_eq_true, decide_eq_true_eq] at hand
      exact hand.1
    have hkey' : key = packageKey (ofLex key).1 peer := by
      rw [← hlocal]
      rfl
    have haccept := haccept provider rfl
    simp only [acceptsProvider, Bool.and_eq_true, Option.any_eq_true, Bool.or_eq_true,
      Bool.not_eq_true', beq_iff_eq] at haccept
    obtain ⟨⟨q, hq, hmatch⟩, halias⟩ := haccept
    have hrec := hrecord provider q hq
    refine ⟨(ofLex key).1, provider, ?_, ?_, hcontext, ⟨q, hrec, ?_⟩, ?_⟩
    · rw [mem_providerEntries, hkey, ← hkey']
      simp
    · intro registry' provider' hprov
      rw [mem_providerEntries, hkey, List.mem_singleton, Prod.mk.injEq, hkey'] at hprov
      exact ⟨(Prod.mk.inj (toLex.injective hprov.1)).1, hprov.2⟩
    · obtain ⟨_, _, _, _, _, hversion⟩ := hrec
      rw [hversion]
      exact hmatch
    · intro hr
      rcases halias with halias | halias
      · rw [hr] at halias
        simp at halias
      · exact halias

/-- Invariant of the loop over the peers of one package. -/
structure PeersBinding (metadata : List RegistryMetadata) (route : Routing)
    (bindings : OrdMap PackageKey PackageInstanceId) (id : PackageInstanceId)
    (p : PackageVersionMetadata) (todo : List (PackageName × Requirement)) (context : PeerContext) :
    Prop where
  declared : ∀ d ∈ todo, d ∈ p.peerDependencies.entries
  nodup : (todo.map Prod.fst).Nodup
  unbound : ∀ d ∈ todo, context.get? d.1 = none
  bound : ∀ d ∈ p.peerDependencies.entries, d ∈ todo ∨
    PeerBound metadata route bindings id p context d.1 d.2

/-- Only the binding of the peer itself matters. -/
theorem PeerBound.congr {bindings : OrdMap PackageKey PackageInstanceId} {id : PackageInstanceId}
    {p : PackageVersionMetadata} {context context' : PeerContext} {peer : PackageName} {r : Requirement}
    (h : PeerBound metadata route bindings id p context peer r)
    (hsame : context'.get? peer = context.get? peer) :
    PeerBound metadata route bindings id p context' peer r := by
  rw [PeerBound, hsame]
  exact h

theorem PeersBinding.step {bindings : OrdMap PackageKey PackageInstanceId}
    {packages : OrdMap PackageInstanceId PackageVersionMetadata} {id : PackageInstanceId}
    {p : PackageVersionMetadata} {d : PackageName × Requirement}
    {todo : List (PackageName × Requirement)} {context context' : PeerContext}
    (hrecord : ∀ id p, packages.get? id = some p → IsRecord metadata id p)
    (h : PeersBinding metadata route bindings id p (d :: todo) context)
    (hstep : bindPeer route packages (rootProviders bindings) id p context d = .ok context') :
    PeersBinding metadata route bindings id p todo context' := by
  have hd := h.declared d List.mem_cons_self
  have hnodup : d.1 ∉ todo.map Prod.fst ∧ (todo.map Prod.fst).Nodup := by
    simpa using h.nodup
  have hne : ∀ d' ∈ todo, d'.1 ≠ d.1 := fun d' hd' heq =>
    hnodup.1 (heq ▸ List.mem_map_of_mem hd')
  -- what the step binds, and that it binds nothing else
  obtain ⟨hbound, hframe⟩ : PeerBound metadata route bindings id p context' d.1 d.2 ∧
      ∀ peer, peer ≠ d.1 → context'.get? peer = context.get? peer := by
    simp only [bindPeer, bind_eq_ok] at hstep
    obtain ⟨found, hfound, hstep⟩ := hstep
    cases found with
    | some provider =>
      simp only [bind_eq_ok, rejectIf_eq_ok, pure_eq_ok] at hstep
      obtain ⟨_, haccept, rfl⟩ := hstep
      refine ⟨peerBound_of_findProvider hrecord hfound (by simp) (by simp) ?_, ?_⟩
      · rintro _ ⟨⟩
        simpa using haccept
      · exact fun peer hpeer => OrdMap.get?_insert_of_ne _ _ hpeer
    | none =>
      simp only [bind_eq_ok, rejectIf_eq_ok, pure_eq_ok] at hstep
      obtain ⟨_, hoptional, rfl⟩ := hstep
      refine ⟨peerBound_of_findProvider hrecord hfound ?_ (fun _ => not_not.mp hoptional) (by simp),
        fun _ _ => rfl⟩
      exact h.unbound d List.mem_cons_self
  refine ⟨fun d' hd' => h.declared d' (List.mem_cons_of_mem _ hd'), hnodup.2, ?_, ?_⟩
  · intro d' hd'
    rw [hframe d'.1 (hne d' hd')]
    exact h.unbound d' (List.mem_cons_of_mem _ hd')
  · intro d' hd'
    rcases h.bound d' hd' with hmem | hb
    · rcases List.mem_cons.mp hmem with rfl | hmem
      · exact Or.inr hbound
      · exact Or.inl hmem
    · by_cases heq : d'.1 = d.1
      · -- one requirement per peer
        have hsame : d'.2 = d.2 := by
          have h1 := OrdMap.mem_entries.mp hd'
          have h2 := OrdMap.mem_entries.mp hd
          rw [heq, h2] at h1
          exact (Option.some_inj.mp h1).symm
        rw [heq, hsame]
        exact Or.inr hbound
      · exact Or.inr (hb.congr (hframe d'.1 heq))

theorem nodup_keys {K V : Type} [LinearOrder K] (m : OrdMap K V) : (m.entries.map Prod.fst).Nodup := by
  rw [List.Nodup, List.pairwise_map]
  exact m.sorted.imp fun h => ne_of_lt h

/-- All peers of one package. -/
theorem peerBound_of_bindPeers {bindings : OrdMap PackageKey PackageInstanceId}
    {packages : OrdMap PackageInstanceId PackageVersionMetadata} {id : PackageInstanceId}
    {p : PackageVersionMetadata} {context : PeerContext}
    (hrecord : ∀ id p, packages.get? id = some p → IsRecord metadata id p)
    (h : p.peerDependencies.entries.foldlM
      (bindPeer route packages (rootProviders bindings) id p) ∅ = .ok context) :
    ∀ peer r, p.peerDependencies.get? peer = some r →
      PeerBound metadata route bindings id p context peer r := by
  have hend := Loop.foldlM_inv (I := PeersBinding metadata route bindings id p)
    (fun d l s s' hs hs' => hs.step hrecord hs')
    ⟨fun _ hd => hd, nodup_keys _, fun _ _ => rfl, fun _ hd => Or.inl hd⟩ h
  intro peer r hr
  rcases hend.bound (peer, r) (OrdMap.mem_entries.mpr hr) with hnil | hb
  · simp at hnil
  · exact hb

/-- Contexts of the packages gone through. -/
theorem contexts_of_bindPeers {bindings : OrdMap PackageKey PackageInstanceId}
    {packages : OrdMap PackageInstanceId PackageVersionMetadata}
    {contexts : OrdMap PackageInstanceId PeerContext}
    (hrecord : ∀ id p, packages.get? id = some p → IsRecord metadata id p)
    (h : packages.entries.foldlM (bindPeers route packages (rootProviders bindings)) ∅ =
      .ok contexts) :
    ∀ id p, packages.get? id = some p → ∃ context, contexts.get? id = some context ∧
      ∀ peer r, p.peerDependencies.get? peer = some r →
        PeerBound metadata route bindings id p context peer r := by
  have hend := Loop.foldlM_inv (I := fun l (contexts : OrdMap PackageInstanceId PeerContext) =>
      (∀ e ∈ l, e ∈ packages.entries) ∧ ∀ e ∈ packages.entries, e ∈ l ∨
        ∃ context, contexts.get? e.1 = some context ∧
          ∀ peer r, e.2.peerDependencies.get? peer = some r →
            PeerBound metadata route bindings e.1 e.2 context peer r) ?_
    ⟨fun _ he => he, fun _ he => Or.inl he⟩ h
  · intro id p hp
    rcases hend.2 (id, p) (OrdMap.mem_entries.mpr hp) with hnil | hdone
    · simp at hnil
    · exact hdone
  · rintro e l s s' ⟨hl, hs⟩ hs'
    simp only [bindPeers, bind_eq_ok, pure_eq_ok] at hs'
    obtain ⟨context, hfold, rfl⟩ := hs'
    refine ⟨fun e' he' => hl e' (List.mem_cons_of_mem _ he'), fun e' he' => ?_⟩
    by_cases heq : e'.1 = e.1
    · -- one record per identity
      have hsame : e' = e := by
        have h1 := OrdMap.mem_entries.mp he'
        have h2 := OrdMap.mem_entries.mp (hl e List.mem_cons_self)
        rw [heq, h2] at h1
        exact Prod.ext heq (Option.some_inj.mp h1).symm
      subst hsame
      exact Or.inr ⟨context, OrdMap.get?_insert_self _ _ _, peerBound_of_bindPeers hrecord hfold⟩
    · rcases hs e' he' with hmem | ⟨c, hc, hrest⟩
      · rcases List.mem_cons.mp hmem with rfl | hmem
        · exact absurd rfl heq
        · exact Or.inl hmem
      · exact Or.inr ⟨c, by rw [OrdMap.get?_insert_of_ne _ _ heq, hc], hrest⟩

/-! ### The whole resolution -/

/-- Every root constraint has its requirement in the set of its key. -/
theorem exists_constraint {d : Dependency} (hd : d ∈ ds) : ∃ requirements,
    (rootKey d.registry d.name (d.requirement.packageName d.name), requirements) ∈
      (rootConstraints ds).entries ∧ d.requirement ∈ requirements := by
  have hmem : d.requirement ∈ OrdMap.valuesAt (rootConstraintEntries ds)
      (rootKey d.registry d.name (d.requirement.packageName d.name)) :=
    OrdMap.mem_valuesAt.mpr (List.mem_map.mpr ⟨d, hd, rfl⟩)
  refine ⟨_, OrdMap.mem_entries.mpr ?_, OrdSet.mem_ofList.mpr hmem⟩
  rw [rootConstraints, OrdMap.get?_mapVal, OrdMap.get?_group, if_neg (List.ne_nil_of_mem hmem)]
  rfl

/-- An edge of the worklist is the right child of a declaration. -/
theorem isChild_of_edgeDeclared {e : ResolvedDependency} {p : PackageVersionMetadata}
    {r : Requirement} (h : EdgeDeclared metadata preferred route state e)
    (hp : state.packages.get? e.parent = some p) (hr : p.dependencies.get? e.dependency = some r) :
    IsChild metadata route e.parent e.dependency r e.child := by
  obtain ⟨p', r', registry, q, hp', hr', hres, hchild⟩ := h
  obtain rfl : p = p' := Option.some_inj.mp (hp.symm.trans hp')
  obtain rfl : r = r' := Option.some_inj.mp (hr.symm.trans hr')
  rw [hchild]
  exact (resolveChild_found hres).2

/-- A declaration determines its edge. -/
theorem edgeDeclared_unique {parent child child' : PackageInstanceId} {name : PackageName}
    (h : EdgeDeclared metadata preferred route state ⟨parent, name, child⟩)
    (h' : EdgeDeclared metadata preferred route state ⟨parent, name, child'⟩) : child' = child := by
  obtain ⟨p, r, registry, q, hp, hr, hres, hchild⟩ := h
  obtain ⟨p', r', registry', q', hp', hr', hres', hchild'⟩ := h'
  obtain rfl : p = p' := Option.some_inj.mp (hp.symm.trans hp')
  obtain rfl : r = r' := Option.some_inj.mp (hr.symm.trans hr')
  have heq := Except.ok.inj (hres.symm.trans hres')
  simp only [Prod.mk.injEq, Selection.found.injEq] at heq
  simp only at hchild hchild'
  rw [hchild, hchild', heq.1, heq.2]

/-- **Soundness and closure of resolution.** -/
theorem resolveGraphWithPreferences_sound {options : ResolutionOptions} {res : Resolution}
    (h : resolveGraphWithPreferences ds metadata options route preferred = .ok res) :
    ∃ records, ResolutionSound ds metadata route res records := by
  simp only [resolveGraphWithPreferences, bind_eq_ok, rejectIf_eq_ok, pure_eq_ok] at h
  obtain ⟨_, _, state, hgraph, _, hmissing, contexts, hpeers, rfl⟩ := h
  have hmissing : state.missing.elems = [] := by simpa using hmissing
  have hqueue := selectGraph_queue hgraph
  obtain ⟨hw, hchildren, start, hroots, hbindings, hstart⟩ := selectGraph_worklist hgraph
  -- with an empty stack everything selected is expanded
  have hexpanded : ∀ id ∈ state.selected, id ∈ state.expanded := by
    intro id hid
    rcases hw.pending id hid with hid | hid
    · exact hid
    · rw [hqueue] at hid
      simp at hid
  have hbound : ∀ d ∈ ds, RootBound metadata state.rootBindings
      (rootKey d.registry d.name (d.requirement.packageName d.name)) (.ofList [d.requirement]) := by
    intro d hd
    obtain ⟨requirements, hentry, hmem⟩ := exists_constraint hd
    rcases hroots.bound _ hentry with hnil | hmiss | ⟨p, hget, hrec, hall⟩
    · simp at hnil
    · exact absurd (hstart hmissing) hmiss
    · rw [← hbindings] at hget
      refine ⟨p, hget, hrec, fun r hr => hall r ?_⟩
      obtain rfl : r = d.requirement := by simpa using hr
      exact hmem
  refine ⟨state.packages, hw.selected_iff, hw.record, ?_, ?_, ?_, ?_, ?_, contexts_of_bindPeers hw.record hpeers⟩
  · intro id
    refine ⟨hw.reachable id, ?_⟩
    rintro ⟨key, root, hroot, hpath⟩
    induction hpath with
    | refl => exact hw.bindings_selected key root hroot
    | tail _ hedge _ =>
      obtain ⟨name, he⟩ := hedge
      exact hchildren _ he
  · intro id p hp name r hr
    have hid : id ∈ state.selected := (hw.selected_iff id).mpr ⟨p, hp⟩
    rcases hw.closed id (hexpanded id hid) p hp (name, r) (OrdMap.mem_entries.mpr hr) with
      hfalse | ⟨child, hedge⟩ | hmiss
    · exact absurd hfalse not_false
    · have hdecl := hw.edge _ hedge
      exact ⟨child, ⟨hedge, isChild_of_edgeDeclared hdecl hp hr⟩,
        fun child' hedge' => edgeDeclared_unique hdecl (hw.edge _ hedge')⟩
    · exact absurd hmissing hmiss
  · intro e he
    obtain ⟨p, r, _, _, hp, hr, _⟩ := hw.edge e he
    exact ⟨p, r, hp, hr⟩
  · intro d hd
    obtain ⟨p, hget, _⟩ := hbound d hd
    exact ⟨_, hget, rfl, rfl⟩
  · intro registry localName id hid
    have hreg : id.registry = registry := by
      rw [hbindings] at hid
      exact (hroots.bindings_selected _ _ hid).2
    refine ⟨hreg, ?_⟩
    rintro d hd rfl rfl hname
    obtain ⟨p, hget, hrec, hall⟩ := hbound d hd
    obtain rfl := Option.some_inj.mp (hid.symm.trans hget)
    exact ⟨p, hrec, hall _ (by simp)⟩

/-! ### A small graph -/

section Sample

def sampleRegistry : PackageSource := ⟨"r", none⟩

def sampleA : PackageName := ⟨"a", by decide⟩

def sampleB : PackageName := ⟨"b", by decide⟩

/-- Any stable version. -/
def anyStable : Requirement := ⟨"*", none, none, [.anyStable]⟩

/-- `a` depends on `b`, which has `a` as a peer. -/
def sampleMetadata : List RegistryMetadata :=
  [⟨sampleRegistry,
    [⟨sampleA, .stable 1 0 0, ∅, .ofList [(sampleB, anyStable)], ∅, ∅⟩,
      ⟨sampleB, .stable 2 0 0, ∅, ∅, .ofList [(sampleA, anyStable)], ∅⟩]⟩]

def sampleResolution : Resolution :=
  let a : PackageInstanceId := ⟨sampleRegistry, sampleA, .stable 1 0 0⟩
  let b : PackageInstanceId := ⟨sampleRegistry, sampleB, .stable 2 0 0⟩
  { selected := [a, b]
    roots := [a]
    rootBindings := .ofList [(packageKey sampleRegistry sampleA, a)]
    dependencies := [⟨a, sampleB, b⟩]
    peerContexts := .ofList [(a, ∅), (b, .ofList [(sampleA, .stable 1 0 0)])] }

theorem resolveGraphWithPreferences_sample_sound : ∃ records,
    ResolutionSound [⟨sampleRegistry, sampleA, anyStable⟩] sampleMetadata
      (fun registry _ => .ok registry) sampleResolution records := by
  have hres : resolveGraphWithPreferences [⟨sampleRegistry, sampleA, anyStable⟩] sampleMetadata
      ⟨false, false⟩ (fun registry _ => .ok registry) .none = .ok sampleResolution := by
    decide
  exact resolveGraphWithPreferences_sound hres

end Sample

end Tapid
