/-
Comparing snapshots loses nothing.

Every recorded relationship has a site of its own (`GraphSnapshot.site_injOn`),
so folding relationships into a map by site drops none, and the differences
reported turn one graph into the other (`GraphSnapshot.compare_relationships`).
Together with the evidence they determine the lockfile up to its format
versions (`GraphSnapshot.eq_of_unchanged`).

* `GraphSnapshot.mem_inspect_relationships` — what an inspection lists;
* `GraphSnapshot.compare_swap` — comparing in the other direction;
* `GraphSnapshot.compare_complete` — the results together.
-/
import Tapid.LockSnapshot
import Tapid.LockfileRoundTrip
import Tapid.Sha256

namespace Tapid

open Text Fallible

/-! ### Entries of a stored lockfile -/

namespace Lockfile

variable {url : UrlParser} {l l' : Lockfile}

theorem mem_graphEntries {k : String} {deps : OrdMap String String} : (k, deps) ∈ l.graphEntries ↔
    (∃ p, l.packages.get? k = some p ∧ p.dependencies = deps) ∨
      ∃ p, l.workspacePackages.get? k = some p ∧ p.dependencies = deps := by
  simp only [graphEntries, List.mem_append, List.mem_map, Prod.mk.injEq, Prod.exists]
  constructor
  · rintro (⟨k', p, hmem, rfl, rfl⟩ | ⟨k', p, hmem, rfl, rfl⟩)
    · exact Or.inl ⟨p, OrdMap.mem_entries.mp hmem, rfl⟩
    · exact Or.inr ⟨p, OrdMap.mem_entries.mp hmem, rfl⟩
  · rintro (⟨p, hget, rfl⟩ | ⟨p, hget, rfl⟩)
    · exact Or.inl ⟨k, p, OrdMap.mem_entries.mpr hget, rfl, rfl⟩
    · exact Or.inr ⟨k, p, OrdMap.mem_entries.mpr hget, rfl, rfl⟩

theorem containsPackageKey_iff {k : String} : l.containsPackageKey k = true ↔
    ∃ deps, (k, deps) ∈ l.graphEntries := by
  rw [containsPackageKey, Bool.or_eq_true, OrdMap.contains_eq_true, OrdMap.contains_eq_true]
  constructor
  · rintro (⟨p, hp⟩ | ⟨p, hp⟩)
    · exact ⟨_, mem_graphEntries.mpr (Or.inl ⟨p, hp, rfl⟩)⟩
    · exact ⟨_, mem_graphEntries.mpr (Or.inr ⟨p, hp, rfl⟩)⟩
  · rintro ⟨deps, hmem⟩
    rcases mem_graphEntries.mp hmem with ⟨p, hp, -⟩ | ⟨p, hp, -⟩
    · exact Or.inl ⟨p, hp⟩
    · exact Or.inr ⟨p, hp⟩

theorem Stored.valid {k : String} {p : LockedPackage} (hl : Stored url l) (hp : l.packages.get? k = some p) :
    k = p.withoutHooks.key url ∧ ∃ source, p.withoutHooks.Valid url source := by
  obtain ⟨hkey, hvalid, -⟩ := hl.package k p hp
  exact ⟨hkey, LockedPackage.validate_eq_ok.mp hvalid⟩

/-- The identity of a stored entry parses. -/
theorem Stored.parse_key (hurl : HostsHaveNoBar url) (hl : Stored url l) {k : String}
    (hk : l.containsPackageKey k = true) : ∃ key, LockfilePackageKey.parse url k = .ok key := by
  rw [containsPackageKey, Bool.or_eq_true, OrdMap.contains_eq_true, OrdMap.contains_eq_true] at hk
  rcases hk with ⟨p, hp⟩ | ⟨p, hp⟩
  · obtain ⟨rfl, source, hvalid⟩ := hl.valid hp
    exact hvalid.parse_key hurl
  · obtain ⟨rfl, -⟩ := hl.workspacePackage k p hp
    exact ⟨_, LockfilePackageKey.parse_workspace p.source⟩

/-- No identity is a package in one lockfile and a workspace member in
another. -/
theorem Stored.kinds_disjoint (hurl : HostsHaveNoBar url) (hl : Stored url l) (hl' : Stored url l')
    {k : String} {p : LockedPackage} {q : LockedWorkspacePackage} (hp : l.packages.get? k = some p)
    (hq : l'.workspacePackages.get? k = some q) : False := by
  obtain ⟨rfl, source, hvalid⟩ := hl.valid hp
  obtain ⟨n, v, -, -, hparse⟩ := hvalid.parse_fields hurl
  obtain ⟨hkey, -⟩ := hl'.workspacePackage _ q hq
  rw [hkey, LockedWorkspacePackage.key, LockfilePackageKey.parse_workspace, Except.ok.injEq,
    LockfilePackageKey.workspace, LockfilePackageKey.mk.injEq] at hparse
  have hkind := LockedPackage.isWorkspace_ofPackageSource source
  rw [← hparse.1] at hkind
  exact Bool.noConfusion hkind

/-- An identity has one set of edges. -/
theorem Stored.graphEntries_unique (hurl : HostsHaveNoBar url) (hl : Stored url l) {k : String}
    {deps deps' : OrdMap String String} (h : (k, deps) ∈ l.graphEntries)
    (h' : (k, deps') ∈ l.graphEntries) : deps = deps' := by
  rcases mem_graphEntries.mp h with ⟨p, hp, rfl⟩ | ⟨p, hp, rfl⟩ <;>
    rcases mem_graphEntries.mp h' with ⟨q, hq, rfl⟩ | ⟨q, hq, rfl⟩
  · rw [Option.some_inj.mp (hp.symm.trans hq)]
  · exact (hl.kinds_disjoint hurl hl hp hq).elim
  · exact (hl.kinds_disjoint hurl hl hq hp).elim
  · rw [Option.some_inj.mp (hp.symm.trans hq)]

/-- Edges lead to entries. -/
theorem Stored.contains_of_edge (hl : Stored url l) {k name target : String} {deps : OrdMap String String}
    (h : (k, deps) ∈ l.graphEntries) (hedge : deps.get? name = some target) :
    l.containsPackageKey target = true := by
  have hgraph := hl.graphInvariant
  rcases mem_graphEntries.mp h with ⟨p, hp, rfl⟩ | ⟨p, hp, rfl⟩
  · exact ((hgraph.packageEdges k p hp).targets name target hedge).1
  · exact ((hgraph.workspaceEdges k p hp).targets name target hedge).1

end Lockfile

/-- A lockfile without the versions of its schema, resolver and linker. -/
def Lockfile.withoutVersions (l : Lockfile) : Lockfile :=
  { l with lockfileVersion := 0, resolverVersion := "", linkerVersion := "" }

namespace GraphSnapshot

variable {url : UrlParser} {codec : JsonCodec} {sha256Hex : List UInt8 → String}

theorem stored (s : GraphSnapshot url codec) : Lockfile.Stored url s.lock := by
  obtain ⟨input, h⟩ := s.validated
  exact Lockfile.Stored.fromJson h

/-! ### Sites -/

/-- Different identities have different references. -/
def CollisionFree (sha256Hex : List UInt8 → String) (identities : Set String) : Prop :=
  Set.InjOn (reference sha256Hex) identities

/-- The identities of two lockfiles. -/
def identitiesIn (l l' : Lockfile) : Set String :=
  {k | l.containsPackageKey k = true ∨ l'.containsPackageKey k = true}

/-- The relationships of a lockfile, by what records them. -/
inductive Recorded (sha256Hex : List UInt8 → String) (l : Lockfile) : GraphRelationship → Prop where
  | dependency {k name target : String} {deps : OrdMap String String} (hentry : (k, deps) ∈ l.graphEntries)
      (hedge : deps.get? name = some target) : Recorded sha256Hex l (dependencyEdge sha256Hex k (name, target))
  | root {target : String} (hroot : target ∈ l.roots) : Recorded sha256Hex l (rootEdge sha256Hex target)
  | binding {name target : String} (hbinding : l.rootBindings.get? name = some target) :
      Recorded sha256Hex l (bindingEdge sha256Hex (name, target))

theorem mem_recordedEdges {l : Lockfile} {e : GraphRelationship} :
    e ∈ recordedEdges sha256Hex l ↔ Recorded sha256Hex l e := by
  simp only [recordedEdges, List.mem_append, List.mem_flatMap, List.mem_map]
  constructor
  · rintro ((⟨⟨k, deps⟩, hentry, ⟨name, target⟩, hedge, rfl⟩ | ⟨target, hroot, rfl⟩) |
      ⟨⟨name, target⟩, hbinding, rfl⟩)
    · exact .dependency hentry (OrdMap.mem_entries.mp hedge)
    · exact .root hroot
    · exact .binding (OrdMap.mem_entries.mp hbinding)
  · intro h
    cases h with
    | dependency hentry hedge =>
      exact Or.inl (Or.inl ⟨_, hentry, _, OrdMap.mem_entries.mpr hedge, rfl⟩)
    | root hroot => exact Or.inl (Or.inr ⟨_, hroot, rfl⟩)
    | binding hbinding => exact Or.inr ⟨_, OrdMap.mem_entries.mpr hbinding, rfl⟩

/-- What two relationships at one site share. -/
theorem site_eq {e e' : GraphRelationship} (h : site ∅ e = site ∅ e') :
    e.kind = e'.kind ∧ e.parent = e'.parent ∧ e.localName = e'.localName ∧
      (e.localName = none → e.target = e'.target) := by
  have hmap : ∀ parent : Option String,
      parent.map (fun p => ((∅ : OrdMap String String).get? p).getD p) = parent := by
    intro parent
    cases parent <;> rfl
  simp only [site, hmap] at h
  obtain ⟨hkind, h⟩ := Prod.mk.inj (toLex.injective h)
  obtain ⟨hparent, h⟩ := Prod.mk.inj (toLex.injective h)
  obtain ⟨hlocal, h⟩ := Prod.mk.inj (toLex.injective h)
  refine ⟨hkind, hparent, hlocal, fun hnone => ?_⟩
  rw [← hlocal, hnone] at h
  have hsome : some e.target = some e'.target := h
  exact Option.some_inj.mp hsome

/-- **Every recorded relationship has a site of its own.** -/
theorem site_injOn (hurl : HostsHaveNoBar url) {l : Lockfile} (hl : Lockfile.Stored url l)
    (hsha : CollisionFree sha256Hex {k | l.containsPackageKey k = true}) :
    Set.InjOn (site ∅) {e | e ∈ recordedEdges sha256Hex l} := by
  intro e he e' he' hsite
  obtain ⟨hkind, hparent, hlocal, htarget⟩ := site_eq hsite
  cases mem_recordedEdges.mp he with
  | @dependency k name target deps hentry hedge =>
    cases mem_recordedEdges.mp he' with
    | @dependency k' name' target' deps' hentry' hedge' =>
      -- parent and local name determine the entry and its edge
      obtain rfl : name = name' := Option.some_inj.mp hlocal
      obtain rfl : k = k' := hsha (Lockfile.containsPackageKey_iff.mpr ⟨deps, hentry⟩)
        (Lockfile.containsPackageKey_iff.mpr ⟨deps', hentry'⟩) (Option.some_inj.mp hparent)
      obtain rfl := hl.graphEntries_unique hurl hentry hentry'
      rw [Option.some_inj.mp (hedge.symm.trans hedge')]
    | root => cases hparent
    | binding => cases hparent
  | root =>
    cases mem_recordedEdges.mp he' with
    | dependency => cases hparent
    | root =>
      have hreference := htarget rfl
      rw [rootEdge, rootEdge]
      exact congrArg _ hreference
    | binding => cases hlocal
  | @binding name target hbinding =>
    cases mem_recordedEdges.mp he' with
    | dependency => cases hparent
    | root => cases hlocal
    | @binding name' target' hbinding' =>
      obtain rfl : name = name' := Option.some_inj.mp hlocal
      rw [Option.some_inj.mp (hbinding.symm.trans hbinding')]

/-! ### What an inspection lists -/

theorem perm_relationships (sha256Hex : List UInt8 → String) (s : GraphSnapshot url codec) :
    (s.inspect sha256Hex).relationships.Perm (recordedEdges sha256Hex s.lock) :=
  List.perm_insertionSort _ _

theorem perm_instances (sha256Hex : List UInt8 → String) (s : GraphSnapshot url codec) :
    (s.inspect sha256Hex).instances.Perm (s.lock.graphEntries.map fun e => instanceOf sha256Hex url e.1) :=
  List.perm_insertionSort _ _

/-- **An inspection lists the recorded relationships.** -/
theorem mem_inspect_relationships {s : GraphSnapshot url codec} {e : GraphRelationship} :
    e ∈ (s.inspect sha256Hex).relationships ↔ Recorded sha256Hex s.lock e := by
  rw [(perm_relationships sha256Hex s).mem_iff, mem_recordedEdges]

/-- An inspection lists the instances of all entries. -/
theorem mem_inspect_instances {s : GraphSnapshot url codec} {p : GraphInstance} :
    p ∈ (s.inspect sha256Hex).instances ↔
      ∃ k, s.lock.containsPackageKey k = true ∧ instanceOf sha256Hex url k = p := by
  rw [(perm_instances sha256Hex s).mem_iff, List.mem_map]
  constructor
  · rintro ⟨⟨k, deps⟩, hmem, rfl⟩
    exact ⟨k, Lockfile.containsPackageKey_iff.mpr ⟨deps, hmem⟩, rfl⟩
  · rintro ⟨k, hk, rfl⟩
    obtain ⟨deps, hmem⟩ := Lockfile.containsPackageKey_iff.mp hk
    exact ⟨(k, deps), hmem, rfl⟩

@[simp] theorem identity_instanceOf (k : String) : (instanceOf sha256Hex url k).identity = k := by
  rw [instanceOf]
  split <;> rfl

@[simp] theorem placement_instanceOf (k : String) : (instanceOf sha256Hex url k).placement = none := by
  rw [instanceOf]
  split <;> rfl

theorem instances_injOn (s : GraphSnapshot url codec) :
    Set.InjOn GraphInstance.identity {p | p ∈ (s.inspect sha256Hex).instances} := by
  intro p hp q hq h
  obtain ⟨k, -, rfl⟩ := mem_inspect_instances.mp hp
  obtain ⟨k', -, rfl⟩ := mem_inspect_instances.mp hq
  rw [identity_instanceOf, identity_instanceOf] at h
  rw [h]

/-! ### Instances -/

variable {a b : GraphSnapshot url codec}

/-- The instances of a snapshot by identity. -/
def instancesById (sha256Hex : List UInt8 → String) (s : GraphSnapshot url codec) :
    OrdMap String GraphInstance :=
  OrdMap.indexBy GraphInstance.identity (s.inspect sha256Hex).instances

theorem get?_instancesById {s : GraphSnapshot url codec} {k : String} {p : GraphInstance} :
    (instancesById sha256Hex s).get? k = some p ↔
      s.lock.containsPackageKey k = true ∧ instanceOf sha256Hex url k = p := by
  rw [instancesById, OrdMap.get?_indexBy s.instances_injOn, mem_inspect_instances]
  constructor
  · rintro ⟨⟨k', hk, rfl⟩, rfl⟩
    rw [identity_instanceOf]
    exact ⟨hk, rfl⟩
  · rintro ⟨hk, rfl⟩
    exact ⟨⟨k, hk, rfl⟩, identity_instanceOf k⟩

theorem get?_instancesById_eq_none {s : GraphSnapshot url codec} {k : String} :
    (instancesById sha256Hex s).get? k = none ↔ s.lock.containsPackageKey k = false := by
  rw [Option.eq_none_iff_forall_ne_some, Bool.eq_false_iff]
  constructor
  · intro h hk
    exact h _ (get?_instancesById.mpr ⟨hk, rfl⟩)
  · intro h p hp
    exact h (get?_instancesById.mp hp).1

theorem addedInstances_eq : (a.compare sha256Hex b).addedInstances =
    ((instancesById sha256Hex b).missing (instancesById sha256Hex a)).values := rfl

theorem removedInstances_eq : (a.compare sha256Hex b).removedInstances =
    ((instancesById sha256Hex a).missing (instancesById sha256Hex b)).values := rfl

/-- Values stored under their identities. -/
theorem map_identity_values {m : OrdMap String GraphInstance}
    (hm : ∀ k p, m.get? k = some p → p.identity = k) : m.values.map GraphInstance.identity = m.keys := by
  rw [OrdMap.values, OrdMap.keys, List.map_map]
  refine List.map_congr_left ?_
  rintro ⟨k, p⟩ hmem
  exact hm k p (OrdMap.mem_entries.mp hmem)

/-- **The identities of one side only**, each once. -/
theorem missing_instances (sha256Hex : List UInt8 → String) (a b : GraphSnapshot url codec) :
    let identities := ((instancesById sha256Hex b).missing (instancesById sha256Hex a)).values.map
      GraphInstance.identity
    identities.Nodup ∧ ∀ k, k ∈ identities ↔
      b.lock.containsPackageKey k = true ∧ a.lock.containsPackageKey k = false := by
  have hkeys := map_identity_values (m := (instancesById sha256Hex b).missing (instancesById sha256Hex a))
    (by
      intro k p hp
      obtain ⟨-, rfl⟩ := get?_instancesById.mp (OrdMap.get?_missing.mp hp).1
      exact identity_instanceOf k)
  show (List.map _ _).Nodup ∧ ∀ k, k ∈ List.map _ _ ↔ _
  rw [hkeys]
  refine ⟨OrdMap.nodup_keys _, fun k => ?_⟩
  rw [OrdMap.mem_keys, ← @get?_instancesById_eq_none _ _ sha256Hex]
  constructor
  · rintro ⟨p, hp⟩
    obtain ⟨hb, ha⟩ := OrdMap.get?_missing.mp hp
    exact ⟨(get?_instancesById.mp hb).1, ha⟩
  · rintro ⟨hb, ha⟩
    exact ⟨_, OrdMap.get?_missing.mpr ⟨get?_instancesById.mpr ⟨hb, rfl⟩, ha⟩⟩

/-! ### Relationships -/

/-- Both kinds of root relationships are represented. -/
def RecordsRoots (s : GraphSnapshot url codec) : Prop :=
  s.availability.explicitRoots = true ∧ s.availability.namedRootBindings = true

/-- The relationships of a snapshot by site. -/
def edgesBySite (sha256Hex : List UInt8 → String) (s : GraphSnapshot url codec) :
    OrdMap Site GraphRelationship :=
  OrdMap.indexBy (site ∅) (s.inspect sha256Hex).relationships

theorem edges_injOn (hurl : HostsHaveNoBar url) {s : GraphSnapshot url codec}
    (hsha : CollisionFree sha256Hex {k | s.lock.containsPackageKey k = true}) :
    Set.InjOn (site ∅) {e | e ∈ (s.inspect sha256Hex).relationships} := by
  intro e he e' he' hsite
  refine site_injOn hurl s.stored hsha ?_ ?_ hsite
  · exact mem_recordedEdges.mpr (mem_inspect_relationships.mp he)
  · exact mem_recordedEdges.mpr (mem_inspect_relationships.mp he')

/-- The changes a comparison reports. -/
def siteChanges (sha256Hex : List UInt8 → String) (a b : GraphSnapshot url codec) :=
  (edgesBySite sha256Hex a).changes (edgesBySite sha256Hex b)

/-- Native instances have no placements. -/
theorem placements_eq (a b : GraphSnapshot url codec) :
    OrdMap.ofList (((a.inspect sha256Hex).instances ++ (b.inspect sha256Hex).instances).filterMap fun p =>
      p.placement.map fun path => (p.reference, path)) = ∅ := by
  have hnone : ∀ p ∈ (a.inspect sha256Hex).instances ++ (b.inspect sha256Hex).instances,
      p.placement.map (fun path => (p.reference, path)) = none := by
    intro p hp
    rw [List.mem_append, mem_inspect_instances, mem_inspect_instances] at hp
    rcases hp with ⟨k, -, rfl⟩ | ⟨k, -, rfl⟩ <;> rw [placement_instanceOf] <;> rfl
  rw [List.filterMap_eq_nil_iff.mpr hnone]
  rfl

/-- With roots on both sides all relationships are compared. -/
theorem filter_comparable (ha : a.RecordsRoots) (hb : b.RecordsRoots) (edges : List GraphRelationship) :
    edges.filter (comparable a.availability b.availability) = edges := by
  refine List.filter_eq_self.mpr fun e _ => ?_
  rw [comparable, ha.1, ha.2, hb.1, hb.2]
  split_ifs <;> rfl

/-- **With roots on both sides a comparison looks at all sites.** -/
theorem changedSites_eq (ha : a.RecordsRoots) (hb : b.RecordsRoots) :
    changedSites (a.inspect sha256Hex) (b.inspect sha256Hex) = siteChanges sha256Hex a b := by
  have hfilter : ∀ edges, List.filter (comparable (a.inspect sha256Hex).availability
      (b.inspect sha256Hex).availability) edges = edges := filter_comparable ha hb
  simp only [changedSites, placements_eq, hfilter]
  rfl

theorem compare_relationshipChanges (ha : a.RecordsRoots) (hb : b.RecordsRoots) :
    (a.compare sha256Hex b).relationshipChanges.Perm
      ((siteChanges sha256Hex a b).map fun c => ⟨c.2.1, c.2.2⟩) := by
  rw [← changedSites_eq ha hb, compare]
  dsimp only
  exact List.perm_insertionSort _ _

theorem compare_changedSelections (ha : a.RecordsRoots) (hb : b.RecordsRoots) :
    (a.compare sha256Hex b).changedSelections =
      ((siteChanges sha256Hex a b).filter fun c => named c.1).length := by
  rw [← changedSites_eq ha hb, compare]

theorem mem_relationshipChanges (ha : a.RecordsRoots) (hb : b.RecordsRoots) {c : GraphRelationshipChange} :
    c ∈ (a.compare sha256Hex b).relationshipChanges ↔
      ∃ x, (x, c.before, c.after) ∈ siteChanges sha256Hex a b := by
  rw [(compare_relationshipChanges ha hb).mem_iff, List.mem_map]
  constructor
  · rintro ⟨⟨x, before, after⟩, hmem, rfl⟩
    exact ⟨x, hmem⟩
  · rintro ⟨x, hmem⟩
    exact ⟨_, hmem, rfl⟩

/-- A set of relationships with every older side replaced by the newer one. -/
def replaceAll (changes : List GraphRelationshipChange) (edges : Set GraphRelationship) :
    Set GraphRelationship :=
  {e | (e ∈ edges ∧ ∀ c ∈ changes, c.before ≠ some e) ∨ ∃ c ∈ changes, c.after = some e}

/-- **The reported changes turn one graph into the other.** -/
theorem compare_relationships (hurl : HostsHaveNoBar url) (ha : a.RecordsRoots) (hb : b.RecordsRoots)
    (hsha : CollisionFree sha256Hex (identitiesIn a.lock b.lock)) :
    replaceAll (a.compare sha256Hex b).relationshipChanges
        {e | e ∈ (a.inspect sha256Hex).relationships} =
      {e | e ∈ (b.inspect sha256Hex).relationships} := by
  have hla := edges_injOn hurl (s := a) (hsha.mono fun k hk => Or.inl hk)
  have hlb := edges_injOn hurl (s := b) (hsha.mono fun k hk => Or.inr hk)
  ext e
  show _ ↔ e ∈ (b.inspect sha256Hex).relationships
  rw [OrdMap.mem_iff_replaced hla hlb e]
  simp only [replaceAll, Set.mem_ofPred_eq, mem_relationshipChanges ha hb]
  refine or_congr (and_congr_right fun _ => ?_) ?_
  · constructor
    · rintro hkept ⟨x, before, after⟩ hmem
      exact hkept ⟨before, after⟩ ⟨x, hmem⟩
    · rintro hkept c ⟨x, hmem⟩
      exact hkept _ hmem
  · constructor
    · rintro ⟨c, ⟨x, hmem⟩, hafter⟩
      exact ⟨_, hmem, hafter⟩
    · rintro ⟨⟨x, before, after⟩, hmem, hafter⟩
      exact ⟨⟨before, after⟩, ⟨x, hmem⟩, hafter⟩

/-! ### The other direction -/

end GraphSnapshot

/-- A change seen from the other side. -/
def GraphRelationshipChange.swap (c : GraphRelationshipChange) : GraphRelationshipChange :=
  ⟨c.after, c.before⟩

/-- A change of evidence seen from the other side. -/
def GraphEvidenceChange.swap (c : GraphEvidenceChange) : GraphEvidenceChange :=
  { c with before := c.after, after := c.before }

namespace GraphSnapshot

variable {url : UrlParser} {codec : JsonCodec} {sha256Hex : List UInt8 → String}
  {a b : GraphSnapshot url codec}

theorem relationshipChanges_swap (ha : a.RecordsRoots) (hb : b.RecordsRoots) :
    (b.compare sha256Hex a).relationshipChanges.Perm
      ((a.compare sha256Hex b).relationshipChanges.map GraphRelationshipChange.swap) := by
  have hswap : (siteChanges sha256Hex b a).map (fun c => (⟨c.2.1, c.2.2⟩ : GraphRelationshipChange)) =
      ((siteChanges sha256Hex a b).map fun c => ⟨c.2.1, c.2.2⟩).map GraphRelationshipChange.swap := by
    rw [siteChanges, OrdMap.changes_swap, List.map_map, List.map_map]
    rfl
  refine (compare_relationshipChanges hb ha).trans ?_
  rw [hswap]
  exact ((compare_relationshipChanges ha hb).map _).symm

theorem recordEvidence_swap (dimension : String) (subject : Option String)
    (before after : OrdMap String String) {changed changed' : Bool} (h : changed' = changed) :
    recordEvidence dimension subject after before changed' =
      (recordEvidence dimension subject before after changed).map GraphEvidenceChange.swap := by
  subst h
  by_cases hne : before ≠ after ∨ changed' = true
  · rw [recordEvidence, recordEvidence, if_pos hne, if_pos (hne.imp_left Ne.symm)]
    rfl
  · rw [recordEvidence, recordEvidence, if_neg hne, if_neg fun h => hne (h.imp_left Ne.symm)]
    rfl

/-- Evidence over shared keys, seen from the other side. -/
theorem filterMap_common_swap {P : Type} (m m' : OrdMap String P)
    {f : String → P → P → Option GraphEvidenceChange}
    (hf : ∀ k p q, f k q p = (f k p q).map GraphEvidenceChange.swap) :
    ((m'.common m).filterMap fun c => f c.1 c.2.1 c.2.2) =
      ((m.common m').filterMap fun c => f c.1 c.2.1 c.2.2).map GraphEvidenceChange.swap := by
  rw [OrdMap.common_swap, List.filterMap_map, List.map_filterMap]
  exact congrArg (List.filterMap · _) (funext fun c => hf c.1 c.2.1 c.2.2)

theorem evidenceChanges_swap_eq (l l' : Lockfile) :
    evidenceChanges sha256Hex l' l =
      (evidenceChanges sha256Hex l l').map GraphEvidenceChange.swap := by
  have hroot := recordEvidence_swap "declarations" none (manifestEvidence l.rootManifestDigest)
    (manifestEvidence l'.rootManifestDigest) (rfl : false = false)
  have hmembers := filterMap_common_swap l.workspacePackages l'.workspacePackages
    (f := fun key package new => recordEvidence "declarations" (some (reference sha256Hex key))
      (manifestEvidence package.manifestDigest) (manifestEvidence new.manifestDigest) false)
    fun k p q => recordEvidence_swap _ _ _ _ rfl
  have hartifacts := filterMap_common_swap l.packages l'.packages
    (f := fun key package new => recordEvidence "source_artifact" (some (reference sha256Hex key))
      (artifact package) (artifact new) false)
    fun k p q => recordEvidence_swap _ _ _ _ rfl
  have houtputs := filterMap_common_swap l.packages l'.packages
    (f := fun key package new => recordEvidence "derived_outputs" (some (reference sha256Hex key))
      (derived package) (derived new) (attestations package ≠ attestations new))
    fun k p q => recordEvidence_swap _ _ _ _ (decide_eq_decide.mpr ne_comm)
  rw [evidenceChanges, hroot, evidenceChanges, List.map_append, List.map_append, List.map_append,
    ← hmembers, ← hartifacts, ← houtputs, Option.toList_map]

theorem evidenceChanges_swap : (b.compare sha256Hex a).evidenceChanges.Perm
    ((a.compare sha256Hex b).evidenceChanges.map GraphEvidenceChange.swap) := by
  refine (List.perm_insertionSort _ _).trans ?_
  rw [evidenceChanges_swap_eq a.lock b.lock]
  exact ((List.perm_insertionSort _ _).map _).symm

theorem changedSelections_swap (ha : a.RecordsRoots) (hb : b.RecordsRoots) :
    (b.compare sha256Hex a).changedSelections = (a.compare sha256Hex b).changedSelections := by
  rw [compare_changedSelections hb ha, compare_changedSelections ha hb, siteChanges,
    OrdMap.changes_swap, List.filter_map, List.length_map]
  rfl

/-! ### What the evidence determines -/

theorem recordEvidence_eq_none {dimension : String} {subject : Option String}
    {before after : OrdMap String String} {changed : Bool} :
    recordEvidence dimension subject before after changed = none ↔ before = after ∧ changed = false := by
  by_cases h : before ≠ after ∨ changed = true
  · rw [recordEvidence, if_pos h]
    simpa [imp_iff_not_or] using h
  · rw [recordEvidence, if_neg h]
    simpa [not_or] using h

theorem manifestEvidence_injective : Function.Injective manifestEvidence := by
  intro d d' h
  have hget : ∀ d, (manifestEvidence d).get? "manifest_digest" = some d := fun d =>
    OrdMap.get?_insert_self _ _ _
  exact Option.some_inj.mp ((hget d).symm.trans (h ▸ hget d'))

/-- What the evidence of an artifact records. -/
theorem get?_artifact (p : LockedPackage) :
    (artifact p).get? "integrity" = some p.artifactIntegrity ∧
      (artifact p).get? "tree_digest" = some p.treeDigest ∧
      (artifact p).get? "unpacked_digest" = some p.unpackedDigest ∧
      (artifact p).get? "url" = p.artifactUrl ∧
      (artifact p).get? "registry_integrity_declared" =
        p.registryIntegrityDeclared.map fun value => if value then "true" else "false" := by
  rw [artifact]
  cases p.artifactUrl <;> cases p.registryIntegrityDeclared <;>
    simp [OrdMap.get?_insert, OrdMap.ofList, OrdMap.insertAll]

/-- **The evidence determines the artifact.** -/
theorem artifact_eq {p q : LockedPackage} (h : artifact p = artifact q) :
    p.artifactIntegrity = q.artifactIntegrity ∧ p.treeDigest = q.treeDigest ∧
      p.unpackedDigest = q.unpackedDigest ∧ p.artifactUrl = q.artifactUrl ∧
      p.registryIntegrityDeclared = q.registryIntegrityDeclared := by
  have hp := get?_artifact p
  rw [h] at hp
  obtain ⟨hintegrity, htree, hunpacked, hurl, hdeclared⟩ := hp
  obtain ⟨hintegrity', htree', hunpacked', hurl', hdeclared'⟩ := get?_artifact q
  refine ⟨Option.some_inj.mp (hintegrity.symm.trans hintegrity'),
    Option.some_inj.mp (htree.symm.trans htree'), Option.some_inj.mp (hunpacked.symm.trans hunpacked'),
    hurl.symm.trans hurl', ?_⟩
  have hinj : Function.Injective fun value : Bool => if value then "true" else "false" := by decide
  exact Option.map_injective hinj (hdeclared.symm.trans hdeclared')

/-- The key of hook evidence determines index and field. -/
theorem hookKey_inj {i j : Nat} {s t : String} (h : hookKey i s = hookKey j t) : i = j ∧ s = t := by
  have hdot : ∀ n, '.' ∉ numeral n := fun n hmem => absurd (digit_mem_numeral hmem) (by decide)
  have hsplit : ∀ n s, splitOnce '.' (hookKey n s).toList = some (numeral n, s.toList) := by
    intro n s
    have hlist : (hookKey n s).toList = numeral n ++ '.' :: s.toList := by
      simp [hookKey, String.toList_append]
    rw [hlist]
    exact splitOnce_append (hdot n) _
  have heq := (hsplit i s).symm.trans (h ▸ hsplit j t)
  obtain ⟨hnumeral, htext⟩ := Prod.mk.inj (Option.some_inj.mp heq)
  refine ⟨?_, String.toList_inj.mp htext⟩
  have hparse := congrArg parseNat hnumeral
  rw [parseNat_numeral, parseNat_numeral] at hparse
  exact Option.some_inj.mp hparse

/-- The fields of a hook output that are evidence. -/
def hookFields (output : DerivedHookOutput) : List (String × String) :=
  [("hook", output.hook), ("recipe_key", output.key), ("tree_digest", output.treeDigest)]

theorem mem_hookEvidence {i j : Nat} {name value : String} {output : DerivedHookOutput} :
    (hookKey i name, value) ∈ hookEvidence j output ↔ i = j ∧ (name, value) ∈ hookFields output := by
  have hkey : ∀ t, hookKey i name = hookKey j t ↔ i = j ∧ name = t := by
    intro t
    refine ⟨hookKey_inj, ?_⟩
    rintro ⟨rfl, rfl⟩
    rfl
  simp only [hookEvidence, hookFields, List.mem_cons, Prod.mk.injEq, List.not_mem_nil, or_false, hkey]
  tauto

/-- What the evidence of a hook output records. -/
theorem get?_derived {p : LockedPackage} {i : Nat} {output : DerivedHookOutput}
    (h : p.derivedHooks[i]? = some output) {name value : String} (hfield : (name, value) ∈ hookFields output)
    (hunique : ∀ w, (name, w) ∈ hookFields output → w = value) :
    (derived p).get? (hookKey i name) = some value := by
  refine OrdMap.get?_ofList_of_unique ?_ fun w hw => ?_
  · exact List.mem_flatMap.mpr
      ⟨(output, i), List.mem_zipIdx_iff_getElem?.mpr h, mem_hookEvidence.mpr ⟨rfl, hfield⟩⟩
  · obtain ⟨⟨output', j⟩, hj, hw⟩ := List.mem_flatMap.mp hw
    -- the index in the key leads back to the same output
    obtain ⟨rfl, hw⟩ := mem_hookEvidence.mp hw
    rw [List.mem_zipIdx_iff_getElem?, h] at hj
    obtain rfl := Option.some_inj.mp hj
    exact hunique w hw

/-- **The evidence and the attestations determine the hook outputs.** -/
theorem derivedHooks_eq {p q : LockedPackage} (hderived : derived p = derived q)
    (hattestations : attestations p = attestations q) : p.derivedHooks = q.derivedHooks := by
  refine List.ext_getElem? fun i => ?_
  have hi := congrArg (fun l => l[i]?) hattestations
  simp only [attestations, List.getElem?_map] at hi
  cases hp : p.derivedHooks[i]? with
  | none =>
    rw [hp, Option.map_none] at hi
    exact (Option.map_eq_none_iff.mp hi.symm).symm
  | some o =>
    rw [hp, Option.map_some] at hi
    obtain ⟨o', hq, heq⟩ := Option.map_eq_some_iff.mp hi.symm
    obtain ⟨hhook, hattestation⟩ := Prod.mk.inj heq
    have hkeys : ∀ {r : LockedPackage} {o : DerivedHookOutput}, r.derivedHooks[i]? = some o →
        (derived r).get? (hookKey i "recipe_key") = some o.key ∧
          (derived r).get? (hookKey i "tree_digest") = some o.treeDigest := fun hr =>
      ⟨get?_derived hr (by simp [hookFields]) (by simp [hookFields]),
        get?_derived hr (by simp [hookFields]) (by simp [hookFields])⟩
    obtain ⟨hkey, htree⟩ := hkeys hp
    obtain ⟨hkey', htree'⟩ := hkeys hq
    rw [hderived, hkey', Option.some_inj] at hkey
    rw [hderived, htree', Option.some_inj] at htree
    rw [hq, Option.some_inj]
    cases o
    cases o'
    simp only [DerivedHookOutput.mk.injEq]
    exact ⟨hattestation.symm, hhook.symm, hkey.symm, htree.symm⟩

/-! ### Without changes -/

/-- Two lockfiles between which nothing is reported. -/
structure Unchanged (sha256Hex : List UInt8 → String) (l l' : Lockfile) : Prop where
  identities : ∀ k, l.containsPackageKey k = true ↔ l'.containsPackageKey k = true
  edges : ∀ e, Recorded sha256Hex l e ↔ Recorded sha256Hex l' e
  rootManifest : l.rootManifestDigest = l'.rootManifestDigest
  manifests : ∀ k p q, l.workspacePackages.get? k = some p → l'.workspacePackages.get? k = some q →
    p.manifestDigest = q.manifestDigest
  artifacts : ∀ k p q, l.packages.get? k = some p → l'.packages.get? k = some q → artifact p = artifact q
  outputs : ∀ k p q, l.packages.get? k = some p → l'.packages.get? k = some q →
    derived p = derived q ∧ attestations p = attestations q

section Unchanged

variable {l l' : Lockfile}

theorem Unchanged.symm (h : Unchanged sha256Hex l l') : Unchanged sha256Hex l' l where
  identities k := (h.identities k).symm
  edges e := (h.edges e).symm
  rootManifest := h.rootManifest.symm
  manifests k p q hp hq := (h.manifests k q p hq hp).symm
  artifacts k p q hp hq := (h.artifacts k q p hq hp).symm
  outputs k p q hp hq := ⟨(h.outputs k q p hq hp).1.symm, (h.outputs k q p hq hp).2.symm⟩

/-- References of known identities tell them apart. -/
theorem target_eq (hsha : CollisionFree sha256Hex (identitiesIn l l')) {k k' : String}
    (hk : l.containsPackageKey k = true) (hk' : l'.containsPackageKey k' = true)
    (h : reference sha256Hex k = reference sha256Hex k') : k = k' :=
  hsha (Or.inl hk) (Or.inr hk') h

theorem Unchanged.root (h : Unchanged sha256Hex l l') (hl : Lockfile.Stored url l)
    (hl' : Lockfile.Stored url l') (hsha : CollisionFree sha256Hex (identitiesIn l l')) {r : String}
    (hr : r ∈ l.roots) : r ∈ l'.roots := by
  have hrecorded := (h.edges _).mp (.root hr)
  generalize he : rootEdge sha256Hex r = e at hrecorded
  cases hrecorded with
  | dependency => cases congrArg GraphRelationship.parent he
  | @root r' hr' =>
    have htarget : reference sha256Hex r = reference sha256Hex r' := congrArg GraphRelationship.target he
    rw [target_eq hsha (hl.graphInvariant.rootsExist r hr) (hl'.graphInvariant.rootsExist r' hr') htarget]
    exact hr'
  | binding => cases congrArg GraphRelationship.localName he

theorem Unchanged.binding (h : Unchanged sha256Hex l l') (hl : Lockfile.Stored url l)
    (hl' : Lockfile.Stored url l') (hsha : CollisionFree sha256Hex (identitiesIn l l'))
    {name r : String} (hr : l.rootBindings.get? name = some r) : l'.rootBindings.get? name = some r := by
  have hexists : ∀ {m : Lockfile}, Lockfile.Stored url m → ∀ {name r : String},
      m.rootBindings.get? name = some r → m.containsPackageKey r = true := fun hm _ _ hr =>
    hm.graphInvariant.rootsExist _ (hm.graphInvariant.bindingTargets _ _ hr)
  have hrecorded := (h.edges _).mp (.binding hr)
  generalize he : bindingEdge sha256Hex (name, r) = e at hrecorded
  cases hrecorded with
  | dependency => cases congrArg GraphRelationship.parent he
  | root => cases congrArg GraphRelationship.localName he
  | @binding name' r' hr' =>
    have htarget : reference sha256Hex r = reference sha256Hex r' := congrArg GraphRelationship.target he
    obtain rfl : name = name' := Option.some_inj.mp (congrArg GraphRelationship.localName he)
    rw [target_eq hsha (hexists hl hr) (hexists hl' hr') htarget]
    exact hr'

theorem Unchanged.edge (hurl : HostsHaveNoBar url) (h : Unchanged sha256Hex l l')
    (hl : Lockfile.Stored url l) (hl' : Lockfile.Stored url l')
    (hsha : CollisionFree sha256Hex (identitiesIn l l')) {k name target : String}
    {deps deps' : OrdMap String String} (hdeps : (k, deps) ∈ l.graphEntries)
    (hdeps' : (k, deps') ∈ l'.graphEntries) (hedge : deps.get? name = some target) :
    deps'.get? name = some target := by
  have hrecorded := (h.edges _).mp (.dependency hdeps hedge)
  generalize he : dependencyEdge sha256Hex k (name, target) = e at hrecorded
  cases hrecorded with
  | @dependency k' name' target' deps'' hentry hedge' =>
    have hparent := Option.some_inj.mp (congrArg GraphRelationship.parent he)
    have htarget : reference sha256Hex target = reference sha256Hex target' :=
      congrArg GraphRelationship.target he
    obtain rfl : name = name' := Option.some_inj.mp (congrArg GraphRelationship.localName he)
    obtain rfl := target_eq hsha (Lockfile.containsPackageKey_iff.mpr ⟨deps, hdeps⟩)
      (Lockfile.containsPackageKey_iff.mpr ⟨deps'', hentry⟩) hparent
    obtain rfl := hl'.graphEntries_unique hurl hdeps' hentry
    rw [target_eq hsha (hl.contains_of_edge hdeps hedge) (hl'.contains_of_edge hentry hedge') htarget]
    exact hedge'
  | root => cases congrArg GraphRelationship.parent he
  | binding => cases congrArg GraphRelationship.parent he

theorem CollisionFree.symm (hsha : CollisionFree sha256Hex (identitiesIn l l')) :
    CollisionFree sha256Hex (identitiesIn l' l) :=
  hsha.mono fun _ hk => hk.symm

/-- The edges of an entry are the same on both sides. -/
theorem Unchanged.edges_eq (hurl : HostsHaveNoBar url) (h : Unchanged sha256Hex l l')
    (hl : Lockfile.Stored url l) (hl' : Lockfile.Stored url l')
    (hsha : CollisionFree sha256Hex (identitiesIn l l')) {k : String} {deps deps' : OrdMap String String}
    (hdeps : (k, deps) ∈ l.graphEntries) (hdeps' : (k, deps') ∈ l'.graphEntries) : deps = deps' := by
  refine OrdMap.ext_get? fun name => Option.ext fun target => ?_
  exact ⟨h.edge hurl hl hl' hsha hdeps hdeps', h.symm.edge hurl hl' hl hsha.symm hdeps' hdeps⟩

/-- Edges determine the aliases. -/
theorem aliases_eq {k k' : String} {deps aliases aliases' : OrdMap String String}
    (h : Lockfile.EdgeInvariant url l k deps aliases) (h' : Lockfile.EdgeInvariant url l' k' deps aliases') :
    aliases = aliases' := by
  refine OrdMap.ext_get? fun name => Option.ext fun actual => ?_
  rw [h.aliases, h'.aliases]

/-- **An unchanged package is the same package.** -/
theorem Unchanged.package (hurl : HostsHaveNoBar url) (h : Unchanged sha256Hex l l')
    (hl : Lockfile.Stored url l) (hl' : Lockfile.Stored url l')
    (hsha : CollisionFree sha256Hex (identitiesIn l l')) {k : String} {p : LockedPackage}
    (hp : l.packages.get? k = some p) : l'.packages.get? k = some p := by
  have hentry := Lockfile.mem_graphEntries.mpr (Or.inl ⟨p, hp, rfl⟩)
  obtain ⟨deps, hentry'⟩ := Lockfile.containsPackageKey_iff.mp
    ((h.identities k).mp (Lockfile.containsPackageKey_iff.mpr ⟨_, hentry⟩))
  rcases Lockfile.mem_graphEntries.mp hentry' with ⟨q, hq, rfl⟩ | ⟨q, hq, rfl⟩
  · obtain ⟨hkey, source, hvalid⟩ := hl.valid hp
    obtain ⟨hkey', source', hvalid'⟩ := hl'.valid hq
    obtain ⟨hregistry, hname, hversion, hpeer, hplatform⟩ :=
      hvalid.eq_of_key_eq hurl hvalid' (hkey.symm.trans hkey')
    obtain ⟨hintegrity, htree, hunpacked, hartifactUrl, hdeclared⟩ := artifact_eq (h.artifacts k p q hp hq)
    obtain ⟨hderived, hattestations⟩ := h.outputs k p q hp hq
    have hhooks := derivedHooks_eq hderived hattestations
    have hdeps := h.edges_eq hurl hl hl' hsha hentry hentry'
    have haliases : p.dependencyAliases = q.dependencyAliases :=
      aliases_eq (hl.graphInvariant.packageEdges k p hp)
        (hdeps ▸ hl'.graphInvariant.packageEdges k q hq)
    have heq : q = p := by
      cases p
      cases q
      rw [LockedPackage.mk.injEq]
      exact ⟨hregistry.symm, hname.symm, hversion.symm, hintegrity.symm, hdeclared.symm, hunpacked.symm,
        htree.symm, hhooks.symm, hartifactUrl.symm, hpeer.symm, hplatform.symm, hdeps.symm, haliases.symm⟩
    rw [hq, heq]
  · exact (hl.kinds_disjoint hurl hl' hp hq).elim

/-- An unchanged workspace member is the same member. -/
theorem Unchanged.workspacePackage (hurl : HostsHaveNoBar url) (h : Unchanged sha256Hex l l')
    (hl : Lockfile.Stored url l) (hl' : Lockfile.Stored url l')
    (hsha : CollisionFree sha256Hex (identitiesIn l l')) {k : String} {p : LockedWorkspacePackage}
    (hp : l.workspacePackages.get? k = some p) : l'.workspacePackages.get? k = some p := by
  have hentry := Lockfile.mem_graphEntries.mpr (Or.inr ⟨p, hp, rfl⟩)
  obtain ⟨deps, hentry'⟩ := Lockfile.containsPackageKey_iff.mp
    ((h.identities k).mp (Lockfile.containsPackageKey_iff.mpr ⟨_, hentry⟩))
  rcases Lockfile.mem_graphEntries.mp hentry' with ⟨q, hq, rfl⟩ | ⟨q, hq, rfl⟩
  · exact (hl'.kinds_disjoint hurl hl hq hp).elim
  · have hkey : p.key = q.key := (hl.workspacePackage k p hp).1.symm.trans (hl'.workspacePackage k q hq).1
    have hsource : p.source = q.source := by
      have hparse := @LockfilePackageKey.parse_workspace url p.source
      rw [show (LockfilePackageKey.workspace p.source).display =
          (LockfilePackageKey.workspace q.source).display from hkey,
        LockfilePackageKey.parse_workspace, Except.ok.injEq, LockfilePackageKey.workspace,
        LockfilePackageKey.workspace, LockfilePackageKey.mk.injEq] at hparse
      exact (LockfilePackageSource.workspace.inj hparse.1).symm
    have hmanifest := h.manifests k p q hp hq
    have hdeps := h.edges_eq hurl hl hl' hsha hentry hentry'
    have haliases : p.dependencyAliases = q.dependencyAliases :=
      aliases_eq (hl.graphInvariant.workspaceEdges k p hp)
        (hdeps ▸ hl'.graphInvariant.workspaceEdges k q hq)
    have heq : q = p := by
      cases p
      cases q
      rw [LockedWorkspacePackage.mk.injEq]
      exact ⟨hsource.symm, hmanifest.symm, hdeps.symm, haliases.symm⟩
    rw [hq, heq]

/-- **Nothing unchanged is different**, up to the versions. -/
theorem Unchanged.eq (hurl : HostsHaveNoBar url) (h : Unchanged sha256Hex l l')
    (hl : Lockfile.Stored url l) (hl' : Lockfile.Stored url l')
    (hsha : CollisionFree sha256Hex (identitiesIn l l')) : l.withoutVersions = l'.withoutVersions := by
  have hroots : l.roots = l'.roots := by
    rw [← hl.rootsCanonical, ← hl'.rootsCanonical]
    refine congrArg OrdSet.elems (OrdSet.ext_mem fun r => ?_)
    rw [OrdSet.mem_ofList, OrdSet.mem_ofList]
    exact ⟨h.root hl hl' hsha, h.symm.root hl' hl hsha.symm⟩
  have hbindings : l.rootBindings = l'.rootBindings :=
    OrdMap.ext_get? fun name => Option.ext fun r =>
      ⟨h.binding hl hl' hsha, h.symm.binding hl' hl hsha.symm⟩
  have hpackages : l.packages = l'.packages :=
    OrdMap.ext_get? fun k => Option.ext fun p =>
      ⟨h.package hurl hl hl' hsha, h.symm.package hurl hl' hl hsha.symm⟩
  have hmembers : l.workspacePackages = l'.workspacePackages :=
    OrdMap.ext_get? fun k => Option.ext fun p =>
      ⟨h.workspacePackage hurl hl hl' hsha, h.symm.workspacePackage hurl hl' hl hsha.symm⟩
  rw [Lockfile.withoutVersions, Lockfile.withoutVersions, h.rootManifest, hroots, hbindings, hpackages,
    hmembers]

end Unchanged

theorem missing_eq_nil (h : ((instancesById sha256Hex b).missing (instancesById sha256Hex a)).values = [])
    {k : String} (hk : b.lock.containsPackageKey k = true) : a.lock.containsPackageKey k = true := by
  by_contra hne
  have hmem := ((missing_instances sha256Hex a b).2 k).mpr ⟨hk, Bool.eq_false_iff.mpr hne⟩
  rw [h] at hmem
  exact List.not_mem_nil hmem

/-- **A comparison that reports nothing compared unchanged lockfiles.** -/
theorem unchanged_of_compare (hurl : HostsHaveNoBar url) (ha : a.RecordsRoots) (hb : b.RecordsRoots)
    (hsha : CollisionFree sha256Hex (identitiesIn a.lock b.lock))
    (hadded : (a.compare sha256Hex b).addedInstances = [])
    (hremoved : (a.compare sha256Hex b).removedInstances = [])
    (hchanges : (a.compare sha256Hex b).relationshipChanges = [])
    (hevidence : (a.compare sha256Hex b).evidenceChanges = []) :
    Unchanged sha256Hex a.lock b.lock := by
  have hedges := compare_relationships hurl ha hb hsha
  rw [hchanges] at hedges
  have hevidence : evidenceChanges sha256Hex a.lock b.lock = [] :=
    List.perm_nil.mp ((List.perm_insertionSort _ _).symm.trans (List.Perm.of_eq hevidence))
  simp only [evidenceChanges, List.append_eq_nil_iff, Option.toList_eq_nil_iff,
    recordEvidence_eq_none] at hevidence
  obtain ⟨⟨⟨⟨hroot, -⟩, hmembers⟩, hartifacts⟩, houtputs⟩ := hevidence
  refine {
    identities := fun k => ⟨missing_eq_nil hremoved, missing_eq_nil hadded⟩
    edges := fun e => ?_
    rootManifest := manifestEvidence_injective hroot
    manifests := fun k p q hp hq => ?_
    artifacts := fun k p q hp hq => ?_
    outputs := fun k p q hp hq => ?_ }
  · have he : e ∈ (a.inspect sha256Hex).relationships ↔ e ∈ (b.inspect sha256Hex).relationships := by
      have := Set.ext_iff.mp hedges e
      simpa [replaceAll] using this
    rw [← mem_inspect_relationships, ← mem_inspect_relationships]
    exact he
  · have hnone := List.filterMap_eq_nil_iff.mp hmembers (k, p, q) (OrdMap.mem_common.mpr ⟨hp, hq⟩)
    exact manifestEvidence_injective (recordEvidence_eq_none.mp hnone).1
  · have hnone := List.filterMap_eq_nil_iff.mp hartifacts (k, p, q) (OrdMap.mem_common.mpr ⟨hp, hq⟩)
    exact (recordEvidence_eq_none.mp hnone).1
  · have hnone := List.filterMap_eq_nil_iff.mp houtputs (k, p, q) (OrdMap.mem_common.mpr ⟨hp, hq⟩)
    obtain ⟨hderived, hattestations⟩ := recordEvidence_eq_none.mp hnone
    exact ⟨hderived, by simpa using hattestations⟩

/-! ### Scopes -/

/-- **A scope selects from the changes of the whole comparison.** -/
theorem compareScope_subset {scope : GraphScope} {r : GraphComparison}
    (h : a.compareScope sha256Hex b scope = .ok r) :
    r.addedInstances ⊆ (a.compare sha256Hex b).addedInstances ∧
      r.removedInstances ⊆ (a.compare sha256Hex b).removedInstances ∧
      r.relationshipChanges ⊆ (a.compare sha256Hex b).relationshipChanges ∧
      r.evidenceChanges ⊆ (a.compare sha256Hex b).evidenceChanges := by
  rw [compareScope] at h
  generalize a.compare sha256Hex b = result at h
  obtain ⟨before, -, h⟩ := bind_eq_ok.mp h
  obtain ⟨after, -, h⟩ := bind_eq_ok.mp h
  obtain rfl := pure_eq_ok.mp h
  refine ⟨?_, ?_, ?_, ?_⟩ <;> exact fun x hx => (List.mem_filter.mp hx).1

/-! ### The results together -/

end GraphSnapshot

/-- No difference is reported. -/
def GraphComparison.ReportsNothing (c : GraphComparison) : Prop :=
  c.addedInstances = [] ∧ c.removedInstances = [] ∧ c.relationshipChanges = [] ∧ c.evidenceChanges = []

namespace GraphSnapshot

section Complete

variable {url : UrlParser} {codec : JsonCodec} {sha256Hex : List UInt8 → String}
  {a b : GraphSnapshot url codec}

theorem inspect_congr (sha256Hex : List UInt8 → String)
    (hentries : a.lock.graphEntries = b.lock.graphEntries)
    (hroots : a.lock.roots = b.lock.roots) (hbindings : a.lock.rootBindings = b.lock.rootBindings) :
    (a.inspect sha256Hex).instances = (b.inspect sha256Hex).instances ∧
      (a.inspect sha256Hex).relationships = (b.inspect sha256Hex).relationships := by
  have hedges : recordedEdges sha256Hex a.lock = recordedEdges sha256Hex b.lock := by
    rw [recordedEdges, recordedEdges, hentries, hroots, hbindings]
  constructor
  · show List.insertionSort _ (a.lock.graphEntries.map _) = List.insertionSort _ (b.lock.graphEntries.map _)
    rw [hentries]
  · show sortRelationships (recordedEdges sha256Hex a.lock) (List.insertionSort _ (a.lock.graphEntries.map _))
      = sortRelationships (recordedEdges sha256Hex b.lock) (List.insertionSort _ (b.lock.graphEntries.map _))
    rw [hedges, hentries]

/-- Shared keys of a map with itself. -/
theorem filterMap_common_self {P : Type} (m : OrdMap String P) {f : String × P × P → Option GraphEvidenceChange}
    (hf : ∀ k p, f (k, p, p) = none) : (m.common m).filterMap f = [] := by
  refine List.filterMap_eq_nil_iff.mpr ?_
  rintro ⟨k, p, q⟩ hmem
  obtain ⟨hp, hq⟩ := OrdMap.mem_common.mp hmem
  obtain rfl := Option.some_inj.mp (hp.symm.trans hq)
  exact hf k p

/-- **Between equal lockfiles nothing is reported**, whatever their versions. -/
theorem reportsNothing_of_eq (ha : a.RecordsRoots) (hb : b.RecordsRoots)
    (h : a.lock.withoutVersions = b.lock.withoutVersions) : (a.compare sha256Hex b).ReportsNothing := by
  obtain ⟨-, hmanifest, -, -, hroots, hbindings, hpackages, hmembers⟩ := Lockfile.mk.inj h
  have hentries : a.lock.graphEntries = b.lock.graphEntries := by
    rw [Lockfile.graphEntries, Lockfile.graphEntries, hpackages, hmembers]
  obtain ⟨hinstances, hrelationships⟩ := inspect_congr sha256Hex hentries hroots hbindings
  have hsame : instancesById sha256Hex a = instancesById sha256Hex b := by
    rw [instancesById, instancesById, hinstances]
  have hmissing : (instancesById sha256Hex a).missing (instancesById sha256Hex b) = ∅ := by
    refine OrdMap.ext_get? fun k => Option.eq_none_iff_forall_ne_some.mpr fun p hp => ?_
    obtain ⟨hold, hnew⟩ := OrdMap.get?_missing.mp hp
    rw [hsame, hnew] at hold
    cases hold
  refine ⟨?_, ?_, ?_, ?_⟩
  · rw [addedInstances_eq, ← hsame]
    rw [← hsame] at hmissing
    rw [hmissing]
    rfl
  · rw [removedInstances_eq, hmissing]
    rfl
  · have hnone : siteChanges sha256Hex a b = [] := by
      rw [siteChanges, OrdMap.changes_eq_nil, edgesBySite, edgesBySite, hrelationships]
    have hperm : (a.compare sha256Hex b).relationshipChanges.Perm _ := compare_relationshipChanges ha hb
    rw [hnone] at hperm
    exact List.perm_nil.mp hperm
  · have hnone : evidenceChanges sha256Hex a.lock b.lock = [] := by
      have hself : ∀ dimension subject evidence,
          recordEvidence dimension subject evidence evidence false = none := fun _ _ _ =>
        recordEvidence_eq_none.mpr ⟨rfl, rfl⟩
      rw [evidenceChanges, hmanifest, hmembers, hpackages, hself,
        filterMap_common_self _ (fun k p => hself _ _ _), filterMap_common_self _ (fun k p => hself _ _ _),
        filterMap_common_self _ fun k p => recordEvidence_eq_none.mpr ⟨rfl, by simp⟩]
      rfl
    have hperm : (a.compare sha256Hex b).evidenceChanges.Perm _ := List.perm_insertionSort _ _
    rw [hnone] at hperm
    exact List.perm_nil.mp hperm

/-- **A comparison loses nothing.**  The instances on one side only are listed,
the relationship changes turn one graph into the other, the other direction
reports the same changes from the other side, nothing is reported exactly
between lockfiles that are equal up to their versions, and a scope only
selects. -/
theorem compare_complete (hurl : HostsHaveNoBar url) (ha : a.RecordsRoots) (hb : b.RecordsRoots)
    (hsha : CollisionFree sha256Hex (identitiesIn a.lock b.lock)) :
    let c := a.compare sha256Hex b
    let c' := b.compare sha256Hex a
    ((c.addedInstances.map GraphInstance.identity).Nodup ∧
      (∀ k, k ∈ c.addedInstances.map GraphInstance.identity ↔
        b.lock.containsPackageKey k = true ∧ a.lock.containsPackageKey k = false) ∧
      (c.removedInstances.map GraphInstance.identity).Nodup ∧
      ∀ k, k ∈ c.removedInstances.map GraphInstance.identity ↔
        a.lock.containsPackageKey k = true ∧ b.lock.containsPackageKey k = false) ∧
    replaceAll c.relationshipChanges {e | e ∈ (a.inspect sha256Hex).relationships} =
      {e | e ∈ (b.inspect sha256Hex).relationships} ∧
    (c'.addedInstances = c.removedInstances ∧ c'.removedInstances = c.addedInstances ∧
      c'.changedSelections = c.changedSelections ∧
      c'.relationshipChanges.Perm (c.relationshipChanges.map GraphRelationshipChange.swap) ∧
      c'.evidenceChanges.Perm (c.evidenceChanges.map GraphEvidenceChange.swap)) ∧
    (c.ReportsNothing ↔ a.lock.withoutVersions = b.lock.withoutVersions) ∧
    ∀ scope r, a.compareScope sha256Hex b scope = .ok r →
      r.addedInstances ⊆ c.addedInstances ∧ r.removedInstances ⊆ c.removedInstances ∧
        r.relationshipChanges ⊆ c.relationshipChanges ∧ r.evidenceChanges ⊆ c.evidenceChanges := by
  intro c c'
  obtain ⟨hnodup, hadded⟩ := missing_instances sha256Hex a b
  obtain ⟨hnodup', hremoved⟩ := missing_instances sha256Hex b a
  refine ⟨⟨hnodup, hadded, hnodup', hremoved⟩, compare_relationships hurl ha hb hsha,
    ⟨rfl, rfl, changedSelections_swap ha hb, relationshipChanges_swap ha hb, evidenceChanges_swap⟩, ?_,
    fun scope r h => compareScope_subset h⟩
  refine ⟨?_, reportsNothing_of_eq ha hb⟩
  rintro ⟨h1, h2, h3, h4⟩
  exact (unchanged_of_compare hurl ha hb hsha h1 h2 h3 h4).eq hurl a.stored b.stored hsha

end Complete

/-! ### Sample snapshots -/

/-- What makes a document a snapshot. -/
theorem ofText_eq_ok {url : UrlParser} {codec : JsonCodec} {digest input : String} {value : Json}
    {format : SnapshotFormat} {schema : Nat} {lock : Lockfile} (hdecode : codec.decode input = .ok value)
    (hformat : SnapshotFormat.ofValue value = .ok format) (hschema : format.lockfileVersion = some schema)
    (hrange : 4 ≤ schema ∧ schema ≤ 10) (hnative : schema ≠ 8)
    (hlock : Lockfile.fromJson url codec input = .ok lock)
    (hlimit : ¬ (Lockfile.maxInstances < lock.graphEntries.length ∨
      Lockfile.maxRelationships < lock.relationshipCount)) :
    ofText url codec digest input =
      .ok ⟨lock, schema, format.rootBindings, digest, ⟨input, hlock⟩, hnative⟩ := by
  simp only [ofText, bind_eq_ok, mapError_eq_ok, orError_eq_ok, rejectIf_eq_ok]
  refine ⟨value, hdecode, format, hformat, schema, hschema, (), not_not.mpr hrange, ?_⟩
  rw [dif_neg hnative]
  split
  · rename_i e he
    rw [hlock] at he
    cases he
  · rename_i lock' hlock'
    obtain rfl := Except.ok.inj (hlock'.symm.trans hlock)
    simp only [bind_eq_ok, rejectIf_eq_ok, pure_eq_ok]
    exact ⟨(), hlimit, trivial⟩

/-- An empty document with given versions of resolver and linker. -/
def versionsDocument (resolver linker : String) : Json := .obj [
  ("lockfileVersion", .int 7),
  ("rootManifestDigest", .str Lockfile.sampleDigest),
  ("resolverVersion", .str resolver),
  ("linkerVersion", .str linker),
  ("rootBindings", .obj []),
  ("packages", .obj [])]

/-- The lockfile in such a document. -/
def versionsLockfile (resolver linker : String) : Lockfile :=
  { Lockfile.emptyLockfile with resolverVersion := resolver, linkerVersion := linker }

def libSource : LocalWorkspaceSource := ⟨"packages/lib", ⟨"lib", by decide⟩, .stable 1 0 0, by decide⟩

def appSource : LocalWorkspaceSource := ⟨"packages/app", ⟨"app", by decide⟩, .stable 1 0 0, by decide⟩

def libMember : LockedWorkspacePackage := ⟨libSource, Lockfile.sampleDigest, ∅, ∅⟩

/-- It depends on the other member under another name. -/
def appMember : LockedWorkspacePackage :=
  ⟨appSource, Lockfile.sampleDigest, OrdMap.ofList [("helper", libMember.key)], OrdMap.ofList [("helper", "lib")]⟩

/-- It depends on the other member by its name, and on a registry package. -/
def relinkedMember : LockedWorkspacePackage :=
  ⟨appSource, Lockfile.sampleDigest, OrdMap.ofList [("left-pad", Lockfile.samplePackage.key Lockfile.npmRegistry),
    ("lib", libMember.key)], ∅⟩

/-- A graph with one root. -/
def graphLockfile (packages : List LockedPackage) (members : List LockedWorkspacePackage) (root : String) : Lockfile :=
  { Lockfile.emptyLockfile.withGraph Lockfile.npmRegistry packages members with roots := [root], rootBindings := ∅ }

def linkedLockfile : Lockfile := graphLockfile [] [libMember, appMember] appMember.key

def relinkedLockfile : Lockfile :=
  graphLockfile [Lockfile.samplePackage] [libMember, relinkedMember] relinkedMember.key

def sampleDocuments : List Json := [versionsDocument "0" "0", versionsDocument "1" "0",
  versionsDocument "0" "1", linkedLockfile.toValue, relinkedLockfile.toValue]

def sampleCodec : JsonCodec := Lockfile.libraryCodec sampleDocuments

theorem faithful_sampleCodec {j : Json} (hj : j ∈ sampleDocuments) : Lockfile.Faithful sampleCodec j :=
  Lockfile.faithful_libraryCodec (by decide +kernel) hj

theorem fromJson_versionsDocument {resolver linker : String}
    (hj : versionsDocument resolver linker ∈ sampleDocuments) :
    Lockfile.fromJson Lockfile.npmRegistry sampleCodec
        (sampleCodec.encode (versionsDocument resolver linker) ++ "\n") =
      .ok (versionsLockfile resolver linker) := by
  have hdigest : canonicalArtifactDigest Lockfile.sampleDigest = .ok Lockfile.sampleDigest := by decide
  have hparsed : Lockfile.ofValue (versionsDocument resolver linker) =
      .ok (versionsLockfile resolver linker) := rfl
  rw [Lockfile.fromJson, faithful_sampleCodec hj]
  simp only [Except.mapError, ok_bind, hparsed, versionsLockfile, Lockfile.emptyLockfile, hdigest]
  rfl

/-- The reader accepts what the writer has written of a graph that passes the checks. -/
theorem fromJson_graphLockfile {packages : List LockedPackage} {members : List LockedWorkspacePackage} {root : String}
    (hdocument : (graphLockfile packages members root).toValue ∈ sampleDocuments)
    (hgraph : Lockfile.checkGraph Lockfile.npmRegistry Lockfile.emptyLockfile packages members = .ok ())
    (hcopied : packages.any (LockedPackage.isCopied Lockfile.npmRegistry) = false)
    (hroot : checkAll ((Lockfile.emptyLockfile.withGraph Lockfile.npmRegistry packages members).checkRoot
      Lockfile.npmRegistry) [root] = .ok ())
    (hschema : (graphLockfile packages members root).validateAliasSchema Lockfile.npmRegistry = .ok ())
    (hprovenance : (graphLockfile packages members root).checkProvenance Lockfile.npmRegistry
      Schema.rootsLegacyLockfileVersion = .ok ())
    (hhooks : ∀ p ∈ (graphLockfile packages members root).packages.values, p.derivedHooks = []) :
    Lockfile.fromJson Lockfile.npmRegistry sampleCodec
        (sampleCodec.encode (graphLockfile packages members root).toValue ++ "\n") =
      .ok (graphLockfile packages members root) := by
  have hreach : Lockfile.Reachable Lockfile.npmRegistry sampleCodec (graphLockfile packages members root) := by
    have hnew : Lockfile.Reachable Lockfile.npmRegistry sampleCodec Lockfile.emptyLockfile :=
      Lockfile.Reachable.new Lockfile.new_sampleDigest
    have hinsert : (Lockfile.Mutation.insertGraph packages members).checked Lockfile.npmRegistry Lockfile.emptyLockfile =
        .ok (Lockfile.emptyLockfile.withGraph Lockfile.npmRegistry packages members) := by
      rw [Lockfile.Mutation.checked, hgraph]
      rfl
    refine (hnew.checked _ hinsert).checked (.setRoots [root]) ?_
    rw [Lockfile.Mutation.checked, show Lockfile.sortDedup [root] = [root] from rfl, hroot]
    rfl
  have hversion : (graphLockfile packages members root).lockfileVersion = Schema.lockfileVersion := by
    show (if packages.any (LockedPackage.isCopied Lockfile.npmRegistry) then _ else Schema.lockfileVersion) = _
    rw [hcopied, if_neg Bool.false_ne_true]
  have hreadable : Lockfile.Rereadable Lockfile.npmRegistry (graphLockfile packages members root) := by
    refine ⟨fun k p hp _ => hhooks p (OrdMap.mem_values.mpr ⟨k, hp⟩), fun _ => Or.inr (by simp [graphLockfile]), ?_⟩
    intro h
    rw [hversion] at h
    exact absurd h (by decide)
  obtain ⟨s, hs⟩ := Lockfile.exists_toJson sampleCodec hschema (by simp [graphLockfile]) hprovenance
  have hread := (Lockfile.fromJson_toJson_iff Lockfile.hostsHaveNoBar_npmRegistry hreach
    (faithful_sampleCodec hdocument) hs).mpr hreadable
  rw [(Lockfile.toJson_eq_ok hs).2.2.2] at hread
  exact hread

/-- The snapshot of a sample document without entries. -/
def versionsSnapshot (resolver linker : String) (hj : versionsDocument resolver linker ∈ sampleDocuments) :
    GraphSnapshot Lockfile.npmRegistry sampleCodec :=
  ⟨versionsLockfile resolver linker, 7, true, Lockfile.sampleDigest, ⟨_, fromJson_versionsDocument hj⟩,
    by decide⟩

theorem ofText_versionsDocument {resolver linker : String}
    (hj : versionsDocument resolver linker ∈ sampleDocuments) :
    ofText Lockfile.npmRegistry sampleCodec Lockfile.sampleDigest
        (sampleCodec.encode (versionsDocument resolver linker) ++ "\n") =
      .ok (versionsSnapshot resolver linker hj) :=
  ofText_eq_ok (faithful_sampleCodec hj)
    (show SnapshotFormat.ofValue (versionsDocument resolver linker) = .ok ⟨some 7, true⟩ from rfl) rfl
    (by decide) (by decide) (fromJson_versionsDocument hj)
    (show ¬ (Lockfile.maxInstances < 0 ∨ Lockfile.maxRelationships < 0) by omega)

theorem fromJson_linkedLockfile :
    Lockfile.fromJson Lockfile.npmRegistry sampleCodec (sampleCodec.encode linkedLockfile.toValue ++ "\n") =
      .ok linkedLockfile :=
  fromJson_graphLockfile (List.mem_append_right [_, _, _] List.mem_cons_self) (by decide +kernel) (by decide +kernel)
    (by decide +kernel) (by decide +kernel) (by decide +kernel) (by decide +kernel)

theorem fromJson_relinkedLockfile :
    Lockfile.fromJson Lockfile.npmRegistry sampleCodec (sampleCodec.encode relinkedLockfile.toValue ++ "\n") =
      .ok relinkedLockfile :=
  fromJson_graphLockfile (List.mem_append_right [_, _, _, _] List.mem_cons_self) (by decide +kernel) (by decide +kernel)
    (by decide +kernel) (by decide +kernel) (by decide +kernel) (by decide +kernel)

def linkedSnapshot : GraphSnapshot Lockfile.npmRegistry sampleCodec :=
  ⟨linkedLockfile, 7, true, Lockfile.sampleDigest, ⟨_, fromJson_linkedLockfile⟩, by decide⟩

def relinkedSnapshot : GraphSnapshot Lockfile.npmRegistry sampleCodec :=
  ⟨relinkedLockfile, 7, true, Lockfile.sampleDigest, ⟨_, fromJson_relinkedLockfile⟩, by decide⟩

/-- Snapshots that differ in the version of the resolver or of the linker only,
and between which no difference is reported. -/
theorem compare_versions :
    let a := versionsSnapshot "0" "0" (by simp [sampleDocuments])
    let b := versionsSnapshot "1" "0" (by simp [sampleDocuments])
    let c := versionsSnapshot "0" "1" (by simp [sampleDocuments])
    (a.RecordsRoots ∧ b.RecordsRoots ∧ c.RecordsRoots) ∧
      (∀ sha256Hex, CollisionFree sha256Hex (identitiesIn a.lock b.lock) ∧
        CollisionFree sha256Hex (identitiesIn a.lock c.lock) ∧
        (a.compare sha256Hex b).ReportsNothing ∧ (a.compare sha256Hex c).ReportsNothing) ∧
      { a.lock with lockfileVersion := b.lock.lockfileVersion } ≠ b.lock ∧
      { a.lock with lockfileVersion := c.lock.lockfileVersion } ≠ c.lock := by
  have hempty : ∀ r l r' l', identitiesIn (versionsLockfile r l) (versionsLockfile r' l') = ∅ := by
    intro r l r' l'
    refine Set.eq_empty_iff_forall_notMem.mpr ?_
    rintro k (hk | hk) <;> exact Bool.noConfusion hk
  have hfree : ∀ sha256Hex r l r' l',
      CollisionFree sha256Hex (identitiesIn (versionsLockfile r l) (versionsLockfile r' l')) := by
    intro sha256Hex r l r' l'
    rw [hempty]
    exact Set.injOn_empty _
  intro a b c
  have ha : a.RecordsRoots := ⟨rfl, rfl⟩
  have hb : b.RecordsRoots := ⟨rfl, rfl⟩
  have hc : c.RecordsRoots := ⟨rfl, rfl⟩
  refine ⟨⟨ha, hb, hc⟩, fun sha256Hex => ?_, by decide, by decide⟩
  exact ⟨hfree sha256Hex _ _ _ _, hfree sha256Hex _ _ _ _, reportsNothing_of_eq ha hb rfl,
    reportsNothing_of_eq ha hc rfl⟩

/-- The identities of both graphs. -/
def linkedIdentities : List String :=
  [appMember.key, libMember.key, Lockfile.samplePackage.key Lockfile.npmRegistry]

/-- A package is new, and two edges are in the place of one. -/
theorem compare_complete_relinked :
    let sha256Hex := fun bytes => String.ofList (hexEncode (Sha256.digest bytes))
    Lockfile.samplePackage.key Lockfile.npmRegistry ∈
        (linkedSnapshot.compare sha256Hex relinkedSnapshot).addedInstances.map GraphInstance.identity ∧
      (linkedSnapshot.compare sha256Hex relinkedSnapshot).removedInstances.map GraphInstance.identity = [] ∧
      replaceAll (linkedSnapshot.compare sha256Hex relinkedSnapshot).relationshipChanges
          {e | e ∈ (linkedSnapshot.inspect sha256Hex).relationships} =
        {e | e ∈ (relinkedSnapshot.inspect sha256Hex).relationships} := by
  intro sha256Hex
  have hlinked : ∀ k ∈ linkedLockfile.graphEntries.map Prod.fst, k ∈ linkedIdentities := by decide +kernel
  have hrelinked : ∀ k ∈ relinkedLockfile.graphEntries.map Prod.fst, k ∈ linkedIdentities := by decide +kernel
  have hidentity : ∀ k ∈ identitiesIn linkedLockfile relinkedLockfile, k ∈ linkedIdentities := by
    rintro k (hk | hk)
    · obtain ⟨deps, hmem⟩ := Lockfile.containsPackageKey_iff.mp hk
      exact hlinked k (List.mem_map.mpr ⟨_, hmem, rfl⟩)
    · obtain ⟨deps, hmem⟩ := Lockfile.containsPackageKey_iff.mp hk
      exact hrelinked k (List.mem_map.mpr ⟨_, hmem, rfl⟩)
  have hdistinct : ∀ k ∈ linkedIdentities, ∀ k' ∈ linkedIdentities,
      reference sha256Hex k = reference sha256Hex k' → k = k' := by decide +kernel
  have hfree : CollisionFree sha256Hex (identitiesIn linkedLockfile relinkedLockfile) :=
    fun k hk k' hk' => hdistinct k (hidentity k hk) k' (hidentity k' hk')
  have hkept : ∀ k ∈ linkedIdentities, linkedLockfile.containsPackageKey k = true →
      relinkedLockfile.containsPackageKey k = true := by decide +kernel
  have hnew : relinkedLockfile.containsPackageKey (Lockfile.samplePackage.key Lockfile.npmRegistry) = true ∧
      linkedLockfile.containsPackageKey (Lockfile.samplePackage.key Lockfile.npmRegistry) = false := by decide +kernel
  obtain ⟨⟨-, hadded, -, hremoved⟩, hreplace, -⟩ := compare_complete Lockfile.hostsHaveNoBar_npmRegistry
    (a := linkedSnapshot) (b := relinkedSnapshot) ⟨rfl, rfl⟩ ⟨rfl, rfl⟩ hfree
  refine ⟨(hadded _).mpr hnew, ?_, hreplace⟩
  rw [List.eq_nil_iff_forall_not_mem]
  intro k hk
  obtain ⟨hold, hgone⟩ := (hremoved k).mp hk
  exact absurd ((hkept k (hidentity k (Or.inl hold)) hold).symm.trans hgone) (by simp)

end GraphSnapshot

end Tapid
