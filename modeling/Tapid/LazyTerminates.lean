/-
Lazy resolution terminates.

A round that does not end fetches a package that was not fetched before, gives
up a preferred version or a preferred root, or refreshes a root that was not
refreshed before.  Packages are only asked for when a root or a record names
them, so within finitely many names the rounds are bounded by the names not
fetched, the preferences left and the roots not refreshed.

* `NamesClosed` — a set of names that no record leads out of;
* `insertRecords_sourced` — what the metadata declares comes from the records;
* `iterate_spec` — one round keeps the invariant and makes progress;
* `resolveWithPreferences_terminates` — the whole resolution.
-/
import Mathlib.Data.Finset.Card
import Tapid.LazyResolution
import Tapid.MetadataIndexSound
import Tapid.ResolverErrors

namespace Tapid

open Text Fallible Loop

/-! ### What records declare -/

/-- A dependency or optional dependency of a record. -/
def PackageRecord.Declares (p : PackageRecord) (name : PackageName) (r : Requirement) : Prop :=
  ∃ declared range, (p.dependencies.get? declared = some range ∨
    p.optionalDependencies.get? declared = some range) ∧
      PackageName.parse declared = .ok name ∧ parseRegistryRange range = .ok r

/-- A peer of a record. -/
def PackageRecord.DeclaresPeer (p : PackageRecord) (name : PackageName) (r : Requirement) : Prop :=
  ∃ declared range, p.peerDependencies.get? declared = some range ∧
    PackageName.parse declared = .ok name ∧ parseRegistryRange range = .ok r

theorem exists_of_normalizeDependencies {values : OrdMap String String} {category : DependencyCategory}
    {m : OrdMap PackageName Requirement} (h : normalizeDependencies values category = .ok m)
    {name : PackageName} {r : Requirement} (hget : m.get? name = some r) :
    ∃ declared range, values.get? declared = some range ∧ PackageName.parse declared = .ok name ∧
      parseRegistryRange range = .ok r := by
  rw [normalizeDependencies] at h
  obtain ⟨entries, hentries, h⟩ := bind_eq_ok.mp h
  obtain rfl := pure_eq_ok.mp h
  obtain ⟨⟨declared, range⟩, hmem, hnormal⟩ :=
    of_mem_mapM_ok hentries _ (OrdMap.mem_of_get?_ofList hget)
  rw [normalizeDependency] at hnormal
  obtain ⟨name', hname, hnormal⟩ := bind_eq_ok.mp hnormal
  obtain ⟨r', hr, hnormal⟩ := bind_eq_ok.mp hnormal
  obtain ⟨rfl, rfl⟩ := Prod.mk.inj (pure_eq_ok.mp hnormal)
  exact ⟨declared, range, OrdMap.mem_entries.mp hmem, mapError_eq_ok.mp hname, mapError_eq_ok.mp hr⟩

/-- What a normalized record asks for is declared. -/
theorem declares_of_normalizeRecord {host : HostPlatform} {p : PackageRecord} {n : NormalizedRecord}
    (h : normalizeRecord host p = .ok n) :
    (∀ name r, n.metadata.dependencies.get? name = some r ∨ n.optionalDependencies.get? name = some r →
        p.Declares name r) ∧
      ∀ name r, n.metadata.peerDependencies.get? name = some r → p.DeclaresPeer name r := by
  rw [normalizeRecord] at h
  obtain ⟨_, _, h⟩ := bind_eq_ok.mp h
  obtain ⟨dependencies, hdependencies, h⟩ := bind_eq_ok.mp h
  obtain ⟨peers, hpeers, h⟩ := bind_eq_ok.mp h
  obtain ⟨_, _, h⟩ := bind_eq_ok.mp h
  obtain ⟨_, _, h⟩ := bind_eq_ok.mp h
  obtain ⟨optional, hoptional, h⟩ := bind_eq_ok.mp h
  obtain ⟨_, _, h⟩ := bind_eq_ok.mp h
  obtain rfl := pure_eq_ok.mp h
  constructor
  · rintro name r (hget | hget)
    · obtain ⟨declared, range, hvalue, hrest⟩ := exists_of_normalizeDependencies hdependencies hget
      exact ⟨declared, range, Or.inl hvalue, hrest⟩
    · obtain ⟨declared, range, hvalue, hrest⟩ := exists_of_normalizeDependencies hoptional hget
      exact ⟨declared, range, Or.inr hvalue, hrest⟩
  · intro name r hget
    exact exists_of_normalizeDependencies hpeers hget

/-! ### Where metadata comes from -/

namespace MetadataIndex

variable {host : HostPlatform} {overrides : OrdMap PackageName Requirement} {route : Routing}

/-- Records and metadata come from given records. -/
structure Sourced (overrides : OrdMap PackageName Requirement) (A : PackageRecord → Prop) (s : MetadataIndex) :
    Prop where
  record : ∀ k p, s.records.get? k = some p → ∃ q, A q ∧ p = overrideRecord overrides q
  declares : ∀ registry p, s.Holds registry p → ∀ name r, p.dependencies.get? name = some r →
    ∃ q, A q ∧ q.registry = registry ∧ (overrideRecord overrides q).Declares name r
  peers : ∀ registry p, s.Holds registry p → ∀ name r, p.peerDependencies.get? name = some r →
    ∃ q, A q ∧ (overrideRecord overrides q).DeclaresPeer name r

theorem get?_withOffered_cases {offers : PackageName → Requirement → Bool}
    {optional dependencies : OrdMap PackageName Requirement} {name : PackageName} {r : Requirement}
    (h : (withOffered offers optional dependencies).get? name = some r) :
    optional.get? name = some r ∨ dependencies.get? name = some r := by
  rw [get?_withOffered] at h
  cases hoptional : optional.get? name with
  | none =>
    rw [hoptional] at h
    exact Or.inr h
  | some r' =>
    rw [hoptional, Option.elim_some] at h
    split_ifs at h
    · exact Or.inl h
    · exact Or.inr h

@[simp] theorem overrideRecord_registry (p : PackageRecord) :
    (overrideRecord overrides p).registry = p.registry := by
  unfold overrideRecord
  split_ifs <;> rfl

/-- **A batch of given records** leaves metadata from given records. -/
theorem insertRecords_sourced {A : PackageRecord → Prop} {s s' : MetadataIndex} (hs : WellKeyed host s)
    (hsource : Sourced overrides A s) {packages : List PackageRecord} (hpackages : ∀ p ∈ packages, A p)
    (h : s.insertRecords host overrides route packages = .ok s') : Sourced overrides A s' := by
  obtain ⟨hrecords, -, hspec⟩ := insertRecords_spec hs h
  have hkeyed := wellKeyed_insertRecords hs h
  have hrecord : ∀ k p, s'.records.get? k = some p → ∃ q, A q ∧ p = overrideRecord overrides q := by
    intro k p hp
    rw [hrecords] at hp
    by_cases hk : k ∈ insertedKeys packages
    · obtain ⟨q, hq, -, hget⟩ : ∃ q ∈ packages, q.key = k ∧
        (packages.foldl (MetadataIndex.record host overrides) s).records.get? k = some (overrideRecord overrides q) :=
        exists_records_foldl_record hk
      exact ⟨q, hpackages q hq, Option.some.inj (hp.symm.trans hget)⟩
    · rw [records_foldl_record hk] at hp
      exact hsource.record k p hp
  -- a normalized record of a registry is one of a given record
  have hnormal : ∀ registry name version n,
      s'.normalized.get? (recordKey registry name version) = some (.ok n) →
      ∃ q, A q ∧ q.registry = registry ∧ normalizeRecord host (overrideRecord overrides q) = .ok n := by
    intro registry name version n hn
    obtain ⟨-, -, p, hp, hregistry⟩ := hkeyed.names hn
    obtain ⟨q, hq, rfl⟩ := hrecord _ p hp
    rw [hkeyed.normalized, hp, Option.map_some] at hn
    exact ⟨q, hq, by rw [← hregistry, overrideRecord_registry], Option.some.inj hn⟩
  have hbefore : ∀ registry p, s'.Added host route (insertedKeys packages) registry p ∨ s.Holds registry p →
      (∀ name r, p.dependencies.get? name = some r →
        ∃ q, A q ∧ q.registry = registry ∧ (overrideRecord overrides q).Declares name r) ∧
      ∀ name r, p.peerDependencies.get? name = some r →
        ∃ q, A q ∧ (overrideRecord overrides q).DeclaresPeer name r := by
    rintro registry p (⟨-, n, hn, hp⟩ | hholds)
    · obtain ⟨q, hq, hregistry, hnormalize⟩ := hnormal registry _ _ n hn
      have hdeclares := declares_of_normalizeRecord hnormalize
      refine ⟨fun name r hget => ⟨q, hq, hregistry, hdeclares.1 name r ?_⟩,
        fun name r hget => ⟨q, hq, hdeclares.2 name r ?_⟩⟩
      · rw [hp] at hget
        exact (get?_withOffered_cases hget).symm
      · rwa [hp] at hget
    · exact ⟨hsource.declares registry p hholds, hsource.peers registry p hholds⟩
  have hafter : ∀ registry p', s'.Holds registry p' →
      (∀ name r, p'.dependencies.get? name = some r →
        ∃ q, A q ∧ q.registry = registry ∧ (overrideRecord overrides q).Declares name r) ∧
      ∀ name r, p'.peerDependencies.get? name = some r →
        ∃ q, A q ∧ (overrideRecord overrides q).DeclaresPeer name r := by
    intro registry p' hholds
    obtain ⟨p, rfl, hp⟩ := (hspec registry p').mp hholds
    obtain ⟨hdependencies, hpeers⟩ := hbefore registry p (hp.imp_right And.left)
    unfold patched
    split
    · next n hn =>
      obtain ⟨q, hq, hregistry, hnormalize⟩ := hnormal registry _ _ n hn
      refine ⟨fun name r hget => ?_, hpeers⟩
      rcases get?_withOffered_cases hget with hoptional | hdeclared
      · exact ⟨q, hq, hregistry, (declares_of_normalizeRecord hnormalize).1 name r (Or.inr hoptional)⟩
      · exact hdependencies name r hdeclared
    · exact ⟨hdependencies, hpeers⟩
  exact ⟨hrecord, fun registry p hp => (hafter registry p hp).1, fun registry p hp => (hafter registry p hp).2⟩

theorem sourced_empty {A : PackageRecord → Prop} : Sourced overrides A {} :=
  ⟨fun _ _ h => by simp at h, fun _ _ ⟨_, hl, _⟩ => by simp at hl, fun _ _ ⟨_, hl, _⟩ => by simp at hl⟩

/-- The resolver sees what the index holds. -/
theorem holds_of_mem_registries {s : MetadataIndex} {m : RegistryMetadata} (hm : m ∈ s.registries)
    {p : PackageVersionMetadata} (hp : p ∈ m.packages) : s.Holds m.registry p := by
  obtain ⟨e, he, rfl⟩ := List.mem_map.mp hm
  exact ⟨e.2, OrdMap.mem_entries.mp he, hp⟩

end MetadataIndex

/-! ### Names that records do not lead out of -/

section Termination

variable {ε : Type}

/-- A package that one of the names may be requested as. -/
def LazyRequest.Requested (q : LazyRequest ε) (N : Finset (String ×ₗ String)) (registry : PackageSource)
    (name : PackageName) : Prop :=
  nameKey registry name ∈ N ∨
    ∃ text, toLex (text, name.text) ∈ N ∧ PackageSource.parse q.url text = .ok registry

/-- A record of the seed, or of any reply to a request for one of the names. -/
def LazyRequest.Answered (q : LazyRequest ε) (N : Finset (String ×ₗ String)) (p : PackageRecord) : Prop :=
  p ∈ q.seed ∨ ∃ i registry name packages, q.Requested N registry name ∧
    q.answer i registry name = .ok packages ∧ ∃ package ∈ packages, p = q.preserve package

/-- **Names reachable from the roots**: they contain the roots, the records that
come with the request and everything that replies declare, with the constraints
that peers put on roots. -/
structure NamesClosed (q : LazyRequest ε) (roots : List Dependency) (N : Finset (String ×ₗ String)) : Prop where
  rootNames : ∀ d ∈ roots, nameKey d.registry d.actualName ∈ N
  own : ∀ p, q.Answered N p → nameKey p.registry p.name ∈ N
  dependencies : ∀ p, q.Answered N p → ∀ name r target, (overrideRecord q.overrides p).Declares name r →
    q.route p.registry (r.packageName name) = .ok target → nameKey target (r.packageName name) ∈ N
  peers : ∀ p, q.Answered N p → ∀ name r, (overrideRecord q.overrides p).DeclaresPeer name r →
    ∀ d ∈ roots, d.name = name → ∀ c, peerConstraint d r.raw = .ok c →
      nameKey d.registry (c.packageName d.name) ∈ N

/-- Invariant of the rounds. -/
structure LazyWithin (q : LazyRequest ε) (roots : List Dependency) (N : Finset (String ×ₗ String))
    (s : LazyState) : Prop where
  extra : ∃ extra, s.roots = roots ++ extra ∧ ∀ d ∈ extra, ∃ d₀ ∈ roots, d₀.name = d.name
  named : ∀ d ∈ s.roots, nameKey d.registry d.actualName ∈ N
  fetched : ∀ k ∈ s.fetched, k ∈ N
  keyed : s.index.WellKeyed q.host
  sourced : s.index.Sourced q.overrides (q.Answered N)

/-- Nothing that was done is undone. -/
structure Forward (s s' : LazyState) : Prop where
  fetched : ∀ k ∈ s.fetched, k ∈ s'.fetched
  versions : ∀ v ∈ s'.preferred.versions, v ∈ s.preferred.versions
  roots : ∀ k ∈ s'.preferred.roots.keys, k ∈ s.preferred.roots.keys
  refreshed : ∀ k ∈ s.preferred.refreshRoots, k ∈ s'.preferred.refreshRoots

/-- **What a round does**: it fetches a name that was not fetched before, gives up
a preferred version or a preferred root, uses up the refresh of a root, or ends
with a resolution. -/
inductive Advances (roots : List Dependency) (s s' : LazyState) : Prop where
  | fetches (k : String ×ₗ String) (before : k ∉ s.fetched) (after : k ∈ s'.fetched)
  | releasesVersion (v : PackageSource ×ₗ PackageName ×ₗ PackageVersion)
      (before : v ∈ s.preferred.versions) (after : v ∉ s'.preferred.versions)
  | releasesRoot (k : RootKey) (before : k ∈ s.preferred.roots.keys) (after : k ∉ s'.preferred.roots.keys)
  | refreshes (d : Dependency) (root : d ∈ roots) (before : d.rootKey ∉ s.preferred.refreshRoots)
      (after : d.rootKey ∈ s'.preferred.refreshRoots)
  | finishes (found : s'.resolution.isSome = true)

/-- One round of a resolution. -/
structure Progress (roots : List Dependency) (s s' : LazyState) : Prop where
  forward : Forward s s'
  advances : Advances roots s s'

theorem Forward.refl (s : LazyState) : Forward s s :=
  ⟨fun _ h => h, fun _ h => h, fun _ h => h, fun _ h => h⟩

/-! ### The measure -/

/-- Names left to fetch, preferences left, roots left to refresh, and the end. -/
def lazyMeasure (roots : List Dependency) (N : Finset (String ×ₗ String)) (s : LazyState) : Nat :=
  (N.filter fun k => k ∉ s.fetched).card + s.preferred.versions.elems.toFinset.card +
    s.preferred.roots.keys.toFinset.card +
    ((roots.map Dependency.rootKey).toFinset.filter fun k => k ∉ s.preferred.refreshRoots).card +
    (if s.resolution.isSome then 0 else 1)

variable {q : LazyRequest ε} {roots : List Dependency} {N : Finset (String ×ₗ String)}

/-- **Every round makes the measure smaller.** -/
theorem lazyMeasure_lt {s s' : LazyState} (hs' : ∀ k ∈ s'.fetched, k ∈ N) (hnone : s.resolution = none)
    (h : Progress roots s s') : lazyMeasure roots N s' < lazyMeasure roots N s := by
  have hfetched : (N.filter fun k => k ∉ s'.fetched) ⊆ N.filter fun k => k ∉ s.fetched :=
    fun k hk => by
      rw [Finset.mem_filter] at hk ⊢
      exact ⟨hk.1, fun hmem => hk.2 (h.forward.fetched k hmem)⟩
  have hversions : s'.preferred.versions.elems.toFinset ⊆ s.preferred.versions.elems.toFinset :=
    fun v hv => List.mem_toFinset.mpr (h.forward.versions v (List.mem_toFinset.mp hv))
  have hroots : s'.preferred.roots.keys.toFinset ⊆ s.preferred.roots.keys.toFinset :=
    fun k hk => List.mem_toFinset.mpr (h.forward.roots k (List.mem_toFinset.mp hk))
  have hrefreshed : ((roots.map Dependency.rootKey).toFinset.filter fun k => k ∉ s'.preferred.refreshRoots) ⊆
      (roots.map Dependency.rootKey).toFinset.filter fun k => k ∉ s.preferred.refreshRoots := fun k hk => by
    rw [Finset.mem_filter] at hk ⊢
    exact ⟨hk.1, fun hmem => hk.2 (h.forward.refreshed k hmem)⟩
  have h₁ := Finset.card_le_card hfetched
  have h₂ := Finset.card_le_card hversions
  have h₃ := Finset.card_le_card hroots
  have h₄ := Finset.card_le_card hrefreshed
  have h₅ : (if s'.resolution.isSome then 0 else 1) ≤ 1 := by split_ifs <;> omega
  simp only [lazyMeasure, hnone, Option.isSome_none, Bool.false_eq_true, if_false]
  -- one of the parts becomes strictly smaller
  cases h.advances with
  | fetches k before after =>
    have hlt := Finset.card_lt_card (Finset.ssubset_iff_subset_ne.mpr ⟨hfetched, fun heq => by
      have hmem : k ∈ N.filter fun k => k ∉ s.fetched := Finset.mem_filter.mpr ⟨hs' k after, before⟩
      rw [← heq, Finset.mem_filter] at hmem
      exact hmem.2 after⟩)
    omega
  | releasesVersion v before after =>
    have hlt := Finset.card_lt_card (Finset.ssubset_iff_subset_ne.mpr ⟨hversions, fun heq => by
      have hmem := List.mem_toFinset.mpr before
      rw [← heq, List.mem_toFinset] at hmem
      exact after hmem⟩)
    omega
  | releasesRoot k before after =>
    have hlt := Finset.card_lt_card (Finset.ssubset_iff_subset_ne.mpr ⟨hroots, fun heq => by
      have hmem := List.mem_toFinset.mpr before
      rw [← heq, List.mem_toFinset] at hmem
      exact after hmem⟩)
    omega
  | refreshes d root before after =>
    have hlt := Finset.card_lt_card (Finset.ssubset_iff_subset_ne.mpr ⟨hrefreshed, fun heq => by
      have hmem : d.rootKey ∈ (roots.map Dependency.rootKey).toFinset.filter fun k =>
          k ∉ s.preferred.refreshRoots :=
        Finset.mem_filter.mpr ⟨List.mem_toFinset.mpr (List.mem_map_of_mem root), before⟩
      rw [← heq, Finset.mem_filter] at hmem
      exact hmem.2 after⟩)
    omega
  | finishes found =>
    rw [if_pos found]
    omega

/-! ### Fetching -/

/-- Fetching leaves preferences, roots and the resolution alone. -/
structure FetchFrame (s s' : LazyState) : Prop where
  fetched : ∀ k ∈ s.fetched, k ∈ s'.fetched
  preferred : s'.preferred = s.preferred

theorem FetchFrame.forward {s s' : LazyState} (h : FetchFrame s s') : Forward s s' := by
  refine ⟨h.fetched, ?_, ?_, ?_⟩ <;> rw [h.preferred] <;> exact fun _ hk => hk

theorem fetchPackage_spec {s s' : LazyState} (hs : LazyWithin q roots N s) {key : String ×ₗ String}
    {registry : PackageSource} {name : PackageName} (hkey : key ∈ N) (hrequested : q.Requested N registry name)
    (h : fetchPackage q key registry name s = .ok s') :
    LazyWithin q roots N s' ∧ FetchFrame s s' ∧ key ∈ s'.fetched := by
  rw [fetchPackage] at h
  obtain ⟨packages, hpackages, h⟩ := bind_eq_ok.mp h
  obtain ⟨index, hindex, h⟩ := bind_eq_ok.mp h
  obtain rfl := pure_eq_ok.mp h
  have hanswered : ∀ p ∈ packages.map q.preserve, q.Answered N p := by
    intro p hp
    obtain ⟨package, hpackage, rfl⟩ := List.mem_map.mp hp
    exact Or.inr ⟨s.calls, registry, name, packages, hrequested, mapError_eq_ok.mp hpackages, package, hpackage, rfl⟩
  refine ⟨⟨hs.extra, hs.named, fun k hk => ?_, MetadataIndex.wellKeyed_insertRecords hs.keyed
    (mapError_eq_ok.mp hindex), MetadataIndex.insertRecords_sourced hs.keyed hs.sourced hanswered
      (mapError_eq_ok.mp hindex)⟩, ⟨fun k hk => OrdSet.mem_insert.mpr (Or.inr hk), rfl⟩,
    OrdSet.mem_insert.mpr (Or.inl rfl)⟩
  rcases OrdSet.mem_insert.mp hk with rfl | hk
  · exact hkey
  · exact hs.fetched k hk

theorem fetchKnown_spec {s s' : LazyState} (hs : LazyWithin q roots N s) (package : PackageKey)
    (hkey : nameKey (ofLex package).1 (ofLex package).2 ∈ N) (h : fetchKnown q s package = .ok s') :
    LazyWithin q roots N s' ∧ FetchFrame s s' ∧ nameKey (ofLex package).1 (ofLex package).2 ∈ s'.fetched :=
  fetchPackage_spec hs hkey (Or.inl hkey) h

theorem fetchNamed_spec {s s' : LazyState} (hs : LazyWithin q roots N s) {failure : LazyError ε}
    {package : String × String} (hkey : toLex package ∈ N) (h : fetchNamed q failure s package = .ok s') :
    (LazyWithin q roots N s' ∧ FetchFrame s s' ∧ toLex package ∈ s'.fetched) ∧ toLex package ∉ s.fetched := by
  rw [fetchNamed] at h
  obtain ⟨_, hnew, h⟩ := bind_eq_ok.mp h
  obtain ⟨registry, hregistry, h⟩ := bind_eq_ok.mp h
  obtain ⟨name, hname, h⟩ := bind_eq_ok.mp h
  have htext := PackageName.text_of_parse (mapError_eq_ok.mp hname)
  refine ⟨fetchPackage_spec hs hkey (Or.inr ⟨package.1, ?_, mapError_eq_ok.mp hregistry⟩) h,
    rejectIf_eq_ok.mp hnew⟩
  rw [htext]
  exact hkey

/-- Fetching several packages. -/
theorem foldlM_fetch_spec {α : Type} {f : LazyState → α → Except (LazyError ε) LazyState}
    {k : α → String ×ₗ String} {l : List α} (hf : ∀ a ∈ l, ∀ s s', LazyWithin q roots N s → f s a = .ok s' →
      LazyWithin q roots N s' ∧ FetchFrame s s' ∧ k a ∈ s'.fetched) {s t : LazyState} (hs : LazyWithin q roots N s)
    (h : l.foldlM f s = .ok t) : LazyWithin q roots N t ∧ FetchFrame s t ∧ ∀ a ∈ l, k a ∈ t.fetched := by
  induction l generalizing s with
  | nil =>
    obtain rfl := pure_eq_ok.mp h
    exact ⟨hs, ⟨fun _ hk => hk, rfl⟩, fun _ ha => absurd ha List.not_mem_nil⟩
  | cons a l ih =>
    obtain ⟨s', hs', h⟩ := foldlM_cons_eq_ok.mp h
    obtain ⟨hwithin, hframe, hmem⟩ := hf a List.mem_cons_self s s' hs hs'
    obtain ⟨ht, hframe', hall⟩ := ih (fun b hb => hf b (List.mem_cons_of_mem _ hb)) hwithin h
    refine ⟨ht, ⟨fun k hk => hframe'.fetched k (hframe.fetched k hk), hframe'.preferred.trans hframe.preferred⟩, ?_⟩
    intro b hb
    rcases List.mem_cons.mp hb with rfl | hb
    · exact hframe'.fetched _ hmem
    · exact hall b hb

/-! ### One round -/

/-- What a failure names is among the names. -/
theorem mem_of_askedText (hclosed : NamesClosed q roots N) {s : LazyState} (hs : LazyWithin q roots N s)
    {registry name : String} (h : AskedText s.roots s.index.registries q.route registry name) :
    toLex (registry, name) ∈ N := by
  obtain ⟨source, package, hasked, rfl, rfl⟩ := h
  rcases hasked with ⟨d, hd, rfl, rfl⟩ | ⟨m, hm, p, hp, n, r, hget, rfl, hroute⟩
  · exact hs.named d hd
  · obtain ⟨p₀, hp₀, hregistry, hdeclares⟩ := hs.sourced.declares m.registry p
      (MetadataIndex.holds_of_mem_registries hm hp) n r hget
    exact hclosed.dependencies p₀ hp₀ n r source hdeclares (hregistry ▸ hroute)

/-- The frontier of a resolution is among the names, and new. -/
theorem mem_optionalFrontier (hclosed : NamesClosed q roots N) {s : LazyState} (hs : LazyWithin q roots N s)
    {resolution : Resolution} {frontier : OrdSet PackageKey} (h : optionalFrontier q s resolution = .ok frontier) :
    ∀ package ∈ frontier, nameKey (ofLex package).1 (ofLex package).2 ∈ N ∧
      nameKey (ofLex package).1 (ofLex package).2 ∉ s.fetched := by
  let I : OrdSet PackageKey → Prop := fun frontier => ∀ package ∈ frontier,
    nameKey (ofLex package).1 (ofLex package).2 ∈ N ∧ nameKey (ofLex package).1 (ofLex package).2 ∉ s.fetched
  refine foldlM_inv (I := fun _ => I) ?_ (fun _ hmem => absurd hmem (OrdSet.not_mem_empty _)) h
  intro parent _ frontier frontier' hfrontier hstep
  unfold addOptionalRequests at hstep
  split at hstep
  · next package hpackage =>
    obtain ⟨p₀, hp₀, rfl⟩ := hs.sourced.record _ _ hpackage
    have hkey := toLex.injective (hs.keyed.key _ _ hpackage)
    have hregistry : p₀.registry = parent.registry := by
      have hsame : (overrideRecord q.overrides p₀).registry = p₀.registry :=
        MetadataIndex.overrideRecord_registry p₀
      exact hsame.symm.trans (Prod.mk.inj hkey).1
    refine (foldlM_inv (I := fun l frontier =>
      (∀ d ∈ l, d ∈ (overrideRecord q.overrides p₀).optionalDependencies.entries) ∧ I frontier) ?_
        ⟨fun _ hd => hd, hfrontier⟩ hstep).2
    rintro ⟨declared, range⟩ l frontier frontier' ⟨hl, hfrontier⟩ hadd
    refine ⟨fun d hd => hl d (List.mem_cons_of_mem _ hd), ?_⟩
    rw [addOptionalRequest] at hadd
    obtain ⟨name, hname, hadd⟩ := bind_eq_ok.mp hadd
    obtain ⟨r, hr, hadd⟩ := bind_eq_ok.mp hadd
    obtain ⟨target, htarget, hadd⟩ := bind_eq_ok.mp hadd
    obtain rfl := pure_eq_ok.mp hadd
    have hdeclares : (overrideRecord q.overrides p₀).Declares name r :=
      ⟨declared, range, Or.inr (OrdMap.mem_entries.mp (hl _ List.mem_cons_self)), mapError_eq_ok.mp hname,
        mapError_eq_ok.mp hr⟩
    have hmem := hclosed.dependencies p₀ hp₀ name r target hdeclares (hregistry ▸ mapError_eq_ok.mp htarget)
    intro package hpackage
    split_ifs at hpackage with hfetched
    · exact hfrontier package hpackage
    · rcases OrdSet.mem_insert.mp hpackage with rfl | hpackage
      · exact ⟨hmem, hfetched⟩
      · exact hfrontier package hpackage
  · obtain rfl := pure_eq_ok.mp hstep
    exact hfrontier

/-- A round that fetches makes progress. -/
theorem progress_of_fetch {s s' : LazyState} (hframe : FetchFrame s s') {k : String ×ₗ String}
    (hnew : k ∉ s.fetched) (hmem : k ∈ s'.fetched) : Progress roots s s' :=
  ⟨hframe.forward, .fetches k hnew hmem⟩

theorem finish_spec (hclosed : NamesClosed q roots N) {s s' : LazyState} (hs : LazyWithin q roots N s)
    {resolution : Resolution} (h : finish q s resolution = .ok s') :
    LazyWithin q roots N s' ∧ Progress roots s s' := by
  rw [finish] at h
  obtain ⟨frontier, hfrontier, h⟩ := bind_eq_ok.mp h
  have hmem := mem_optionalFrontier hclosed hs hfrontier
  split_ifs at h with hempty
  · obtain rfl := pure_eq_ok.mp h
    exact ⟨⟨hs.extra, hs.named, hs.fetched, hs.keyed, hs.sourced⟩,
      ⟨fun _ hk => hk, fun _ hk => hk, fun _ hk => hk, fun _ hk => hk⟩, .finishes rfl⟩
  · obtain ⟨hwithin, hframe, hall⟩ := foldlM_fetch_spec
      (k := fun package : PackageKey => nameKey (ofLex package).1 (ofLex package).2)
      (fun package hpackage s s' hs hstep => fetchKnown_spec hs package (hmem package hpackage).1 hstep) hs h
    obtain ⟨package, hpackage⟩ : ∃ package, package ∈ frontier.elems := by
      refine List.exists_mem_of_ne_nil _ fun hnil => hempty ?_
      rw [OrdSet.isEmpty, hnil]
      rfl
    exact ⟨hwithin, progress_of_fetch hframe (hmem package hpackage).2 (hall package hpackage)⟩

theorem fetchMissing_spec {s s' : LazyState} (hs : LazyWithin q roots N s) {packages : List (String × String)}
    (hne : packages ≠ []) (hmem : ∀ p ∈ packages, toLex p ∈ N)
    (h : packages.foldlM (fetchMissing q) s = .ok s') : LazyWithin q roots N s' ∧ Progress roots s s' := by
  obtain ⟨hwithin, hframe, hall⟩ := foldlM_fetch_spec (k := fun p : String × String => toLex p)
    (fun p hp s s' hs hstep => (fetchNamed_spec hs (hmem p hp) hstep).1) hs h
  cases packages with
  | nil => exact absurd rfl hne
  | cons p rest =>
    obtain ⟨s₁, hs₁, -⟩ := foldlM_cons_eq_ok.mp h
    exact ⟨hwithin, progress_of_fetch hframe (fetchNamed_spec hs (hmem p List.mem_cons_self) hs₁).2
      (hall p List.mem_cons_self)⟩

/-- The first root with a name is one of the given roots. -/
theorem findRoot_mem {s : LazyState} (hs : LazyWithin q roots N s) {name : String} {root : Dependency}
    (h : findRoot s name = some root) : root ∈ roots ∧ root ∈ s.roots ∧ root.name.text = name := by
  have hname : root.name.text = name := by simpa using List.find?_some h
  refine ⟨?_, List.mem_of_find?_eq_some h, hname⟩
  obtain ⟨extra, hextra, hall⟩ := hs.extra
  rw [findRoot, hextra, List.find?_append] at h
  cases hfind : roots.find? fun d => d.name.text = name with
  | some d =>
    rw [hfind, Option.some_or] at h
    rw [← Option.some.inj h]
    exact List.mem_of_find?_eq_some hfind
  | none =>
    -- an added root has the name of a given one
    rw [hfind, Option.none_or] at h
    obtain ⟨d₀, hd₀, hd₀name⟩ := hall root (List.mem_of_find?_eq_some h)
    have hno := List.find?_eq_none.mp hfind d₀ hd₀
    simp [hd₀name, hname] at hno

theorem release_forward {s : LazyState} {id : PackageInstanceId} :
    Forward s { s with preferred := s.preferred.release s.roots id } := by
  refine ⟨fun _ hk => hk, fun v hv => (OrdSet.mem_filter.mp hv).1, fun k hk => ?_, fun _ hk => hk⟩
  obtain ⟨v, hv⟩ := OrdMap.mem_keys.mp hk
  have hget : ((s.preferred.roots.filter _).get? k) = some v := hv
  rw [OrdMap.get?_filter, Option.filter_eq_some_iff] at hget
  exact OrdMap.mem_keys.mpr ⟨v, hget.1⟩

theorem Forward.trans {s s' s'' : LazyState} (h : Forward s s') (h' : Forward s' s'') : Forward s s'' :=
  ⟨fun k hk => h'.fetched k (h.fetched k hk), fun v hv => h.versions v (h'.versions v hv),
    fun k hk => h.roots k (h'.roots k hk), fun k hk => h'.refreshed k (h.refreshed k hk)⟩

/-- Refreshing a provider gives up its preferred root, or uses up its refresh. -/
theorem refreshProvider_spec (hclosed : NamesClosed q roots N) {s s' : LazyState} (hs : LazyWithin q roots N s)
    {failure : ResolveError} {peer requirement : String} {provider : Option PackageInstanceId}
    (hpeer : ∃ m ∈ s.index.registries, ∃ p ∈ m.packages, ∃ n r, p.peerDependencies.get? n = some r ∧
      n.text = peer ∧ r.raw = requirement)
    (h : refreshProvider s failure peer requirement provider = Except.ok (ε := LazyError ε) s') :
    LazyWithin q roots N s' ∧ Progress roots s s' := by
  rw [refreshProvider] at h
  obtain ⟨root, hroot, h⟩ := bind_eq_ok.mp h
  obtain ⟨_, hreleased, h⟩ := bind_eq_ok.mp h
  obtain ⟨constraint, hconstraint, h⟩ := bind_eq_ok.mp h
  obtain rfl := pure_eq_ok.mp h
  obtain ⟨hmem, hmem', hname⟩ := findRoot_mem hs (orError_eq_ok.mp hroot)
  refine ⟨⟨?_, ?_, hs.fetched, hs.keyed, hs.sourced⟩, ⟨fun _ hk => hk, fun _ hv => hv, ?_, ?_⟩, ?_⟩
  · -- the constraint is added to a root that is there
    obtain ⟨extra, hextra, hall⟩ := hs.extra
    refine ⟨extra ++ [⟨root.registry, root.name, constraint⟩], by rw [hextra, List.append_assoc], fun d hd => ?_⟩
    rcases List.mem_append.mp hd with hd | hd
    · exact hall d hd
    · rw [List.mem_singleton.mp hd]
      exact ⟨root, hmem, rfl⟩
  · intro d hd
    rcases List.mem_append.mp hd with hd | hd
    · exact hs.named d hd
    · rw [List.mem_singleton.mp hd]
      obtain ⟨m, hm, p, hp, n, r, hget, hn, rfl⟩ := hpeer
      obtain ⟨p₀, hp₀, hdeclares⟩ := hs.sourced.peers m.registry p
        (MetadataIndex.holds_of_mem_registries hm hp) n r hget
      exact hclosed.peers p₀ hp₀ n r hdeclares root hmem (PackageName.text_injective (hname.trans hn.symm))
        constraint (mapError_eq_ok.mp hconstraint)
  · intro k hk
    obtain ⟨v, hv⟩ := OrdMap.mem_keys.mp hk
    have hget : (s.preferred.roots.erase root.rootKey).get? k = some v := hv
    rw [OrdMap.get?_erase] at hget
    split_ifs at hget
    exact OrdMap.mem_keys.mpr ⟨v, hget⟩
  · exact fun k hk => OrdSet.mem_insert.mpr (Or.inr hk)
  · -- either way something is used up that does not come back
    have hcases := not_not.mp (rejectIf_eq_ok.mp hreleased)
    rcases hcases with hroot | ⟨-, hrefresh⟩
    · obtain ⟨v, hv⟩ := OrdMap.contains_eq_true.mp hroot
      refine .releasesRoot root.rootKey (OrdMap.mem_keys.mpr ⟨v, hv⟩) fun hk => ?_
      obtain ⟨v', hv'⟩ := OrdMap.mem_keys.mp hk
      have hget : (s.preferred.roots.erase root.rootKey).get? root.rootKey = some v' := hv'
      rw [OrdMap.get?_erase, if_pos rfl] at hget
      cases hget
    · exact .refreshes root hmem hrefresh (OrdSet.mem_insert.mpr (Or.inl rfl))

theorem taggedProvider_mem {s : LazyState} {peer requirement : String} {root : Dependency}
    (h : taggedProvider s peer requirement = some root) :
    root ∈ s.roots ∧ nameKey root.registry root.actualName ∉ s.fetched := by
  unfold taggedProvider at h
  split_ifs at h
  obtain ⟨hroot, hnew⟩ := Option.filter_eq_some_iff.mp h
  exact ⟨List.mem_of_find?_eq_some hroot, by simpa using hnew⟩

/-- **An unsatisfied peer** leads to a fetch, or gives something up. -/
theorem repairPeer_spec (hclosed : NamesClosed q roots N) {s s' : LazyState} (hs : LazyWithin q roots N s)
    {package : PackageInstanceId} {peer requirement : String} {provider : Option PackageInstanceId}
    (hpeer : ∃ m ∈ s.index.registries, ∃ p ∈ m.packages, ∃ n r, p.peerDependencies.get? n = some r ∧
      n.text = peer ∧ r.raw = requirement)
    (h : repairPeer q s package peer requirement provider = .ok s') :
    LazyWithin q roots N s' ∧ Progress roots s s' := by
  unfold repairPeer at h
  dsimp only at h
  split at h
  · next root hroot =>
    -- the provider has a tag and was not fetched
    obtain ⟨hmem, hnew⟩ := taggedProvider_mem hroot
    obtain ⟨hwithin, hframe, hfetched⟩ := fetchKnown_spec hs (packageKey root.registry root.actualName) (hs.named root hmem) h
    exact ⟨hwithin, progress_of_fetch hframe hnew hfetched⟩
  · split at h
    · cases h
    · next p hp =>
      have hvalue : p ∈ s.index.records.values := List.mem_of_find?_eq_some hp
      obtain ⟨k, hget⟩ := OrdMap.mem_values.mp hvalue
      obtain ⟨p₀, hp₀, rfl⟩ := hs.sourced.record k p hget
      have hown : nameKey (overrideRecord q.overrides p₀).registry (overrideRecord q.overrides p₀).name ∈ N := by
        have hsame : (overrideRecord q.overrides p₀).key = p₀.key := MetadataIndex.overrideRecord_key p₀
        have hkey := toLex.injective hsame
        rw [(Prod.mk.inj hkey).1, (Prod.mk.inj (toLex.injective (Prod.mk.inj hkey).2)).1]
        exact hclosed.own p₀ hp₀
      split_ifs at h with hfetched hversion
      · obtain rfl := Except.ok.inj h
        refine ⟨⟨hs.extra, hs.named, hs.fetched, hs.keyed, hs.sourced⟩, release_forward,
          .releasesVersion _ hversion fun hmem => ?_⟩
        have hkept := (OrdSet.mem_filter.mp hmem).2
        simp at hkept
      · -- the preferences of the package go first, then its provider is selected anew
        obtain ⟨hwithin, hprogress⟩ := refreshProvider_spec hclosed
          (s := { s with preferred := s.preferred.release s.roots _ })
          ⟨hs.extra, hs.named, hs.fetched, hs.keyed, hs.sourced⟩ hpeer h
        refine ⟨hwithin, release_forward.trans hprogress.forward, ?_⟩
        cases hprogress.advances with
        | fetches k before after => exact .fetches k before after
        | releasesVersion v before after =>
          exact .releasesVersion v ((OrdSet.mem_filter.mp before).1) after
        | releasesRoot k before after => exact .releasesRoot k (release_forward.roots k before) after
        | refreshes d root before after => exact .refreshes d root before after
        | finishes found => exact .finishes found
      · obtain ⟨hwithin, hframe, hmem⟩ := fetchKnown_spec hs
          (packageKey (overrideRecord q.overrides p₀).registry (overrideRecord q.overrides p₀).name) hown h
        exact ⟨hwithin, progress_of_fetch hframe hfetched hmem⟩

/-- **One round** keeps within the names and makes progress. -/
theorem iterate_spec (hclosed : NamesClosed q roots N) {s s' : LazyState} (hs : LazyWithin q roots N s)
    (h : iterate q s = .ok s') : LazyWithin q roots N s' ∧ Progress roots s s' := by
  have herror : ∀ e, resolveGraphWithPreferences s.roots s.index.registries ⟨false, false⟩ q.route s.preferred =
      .error e → NamesAsked s.roots s.index.registries q.route e := fun e => resolveGraphWithPreferences_error
  unfold iterate at h
  split at h
  · exact finish_spec hclosed hs h
  · next packages hfail =>
    obtain ⟨hne, hasked⟩ := herror _ hfail
    exact fetchMissing_spec hs hne (fun p hp => mem_of_askedText hclosed hs (hasked p hp)) h
  · next origin registry name requirement available hfail =>
    obtain ⟨⟨hwithin, hframe, hmem⟩, hnew⟩ := fetchNamed_spec hs (mem_of_askedText hclosed hs (herror _ hfail)) h
    exact ⟨hwithin, progress_of_fetch hframe hnew hmem⟩
  · next origin registry name requirements available hfail =>
    obtain ⟨⟨hwithin, hframe, hmem⟩, hnew⟩ := fetchNamed_spec hs (mem_of_askedText hclosed hs (herror _ hfail)) h
    exact ⟨hwithin, progress_of_fetch hframe hnew hmem⟩
  · next package peer requirement provider hfail => exact repairPeer_spec hclosed hs (herror _ hfail) h
  · cases h

/-! ### The whole resolution -/

theorem within_lazyStart (hclosed : NamesClosed q roots N) {preferred : ResolutionPreferences} {s : LazyState}
    (h : lazyStart q roots preferred = .ok s) : LazyWithin q roots N s ∧
      s.preferred = preferred ∧ s.resolution = none := by
  rw [lazyStart] at h
  obtain ⟨index, hindex, h⟩ := bind_eq_ok.mp h
  obtain rfl := pure_eq_ok.mp h
  refine ⟨⟨⟨[], (List.append_nil _).symm, fun _ hd => absurd hd List.not_mem_nil⟩, hclosed.rootNames,
    fun _ hk => absurd hk (OrdSet.not_mem_empty _), ?_, ?_⟩, rfl, rfl⟩
  · exact MetadataIndex.wellKeyed_insertRecords MetadataIndex.wellKeyed_empty (mapError_eq_ok.mp hindex)
  · exact MetadataIndex.insertRecords_sourced MetadataIndex.wellKeyed_empty MetadataIndex.sourced_empty
      (fun p hp => Or.inl hp) (mapError_eq_ok.mp hindex)

theorem lazyStep_spec (hclosed : NamesClosed q roots N) {s s' : LazyState} (hs : LazyWithin q roots N s)
    (h : lazyStep q s = some (.ok s')) : LazyWithin q roots N s' ∧ Progress roots s s' ∧ s.resolution = none := by
  unfold lazyStep at h
  split at h
  · cases h
  · next hnone =>
    obtain ⟨hwithin, hprogress⟩ := iterate_spec hclosed hs (Option.some.inj h)
    exact ⟨hwithin, hprogress, hnone⟩

/-- Rounds that always suffice. -/
def lazyRounds (roots : List Dependency) (preferred : ResolutionPreferences) (N : Finset (String ×ₗ String)) : Nat :=
  N.card + preferred.versions.elems.length + preferred.roots.keys.length + roots.length + 2

theorem lazyMeasure_start {preferred : ResolutionPreferences} {s : LazyState} (hs : s.preferred = preferred)
    (hnone : s.resolution = none) : lazyMeasure roots N s < lazyRounds roots preferred N := by
  have h₁ : (N.filter fun k => k ∉ s.fetched).card ≤ N.card := Finset.card_filter_le _ _
  have h₂ := List.toFinset_card_le s.preferred.versions.elems
  have h₃ := List.toFinset_card_le s.preferred.roots.keys
  have h₄ : ((roots.map Dependency.rootKey).toFinset.filter fun k => k ∉ s.preferred.refreshRoots).card ≤
      roots.length := by
    calc _ ≤ (roots.map Dependency.rootKey).toFinset.card := Finset.card_filter_le _ _
      _ ≤ (roots.map Dependency.rootKey).length := List.toFinset_card_le _
      _ = roots.length := List.length_map _
  subst hs
  simp only [lazyMeasure, lazyRounds, hnone, Option.isSome_none, Bool.false_eq_true, if_false]
  omega

/-- **Lazy resolution terminates**: within finitely many names it ends with a
resolution or a failure, after rounds that each make progress. -/
theorem resolveWithPreferences_terminates (hclosed : NamesClosed q roots N) (preferred : ResolutionPreferences) :
    (∃ outcome, resolveWithPreferences q roots preferred (lazyRounds roots preferred N) = some outcome ∧
        ∀ t, outcome = .ok t → t.resolution.isSome = true) ∧
      ∀ start, lazyStart q roots preferred = .ok start → ∀ s s', Reaches (lazyStep q) start s →
        lazyStep q s = some (.ok s') → Progress roots s s' := by
  have hstep : ∀ s s', LazyWithin q roots N s → lazyStep q s = some (.ok s') →
      LazyWithin q roots N s' ∧ lazyMeasure roots N s' < lazyMeasure roots N s := by
    intro s s' hs h
    obtain ⟨hwithin, hprogress, hnone⟩ := lazyStep_spec hclosed hs h
    exact ⟨hwithin, lazyMeasure_lt hwithin.fetched hnone hprogress⟩
  constructor
  · unfold resolveWithPreferences
    cases hstart : lazyStart q roots preferred with
    | error e => exact ⟨.error e, rfl, fun t h => by cases h⟩
    | ok start =>
      obtain ⟨hwithin, hpreferred, hnone⟩ := within_lazyStart hclosed hstart
      obtain ⟨outcome, houtcome⟩ := exists_runTo (lazyMeasure roots N) hstep hwithin
        (lazyMeasure_start hpreferred hnone)
      refine ⟨outcome, houtcome, fun t ht => ?_⟩
      rw [ht] at houtcome
      have hend := (runTo_reaches houtcome).2
      unfold lazyStep at hend
      split at hend
      · next resolution hresolution => rw [hresolution]; rfl
      · cases hend
  · intro start hstart s s' hreaches h
    have hwithin := Reaches.inv (fun s s' hs h => (hstep s s' hs h).1) hreaches (within_lazyStart hclosed hstart).1
    exact (lazyStep_spec hclosed hwithin h).2.1

/-! ### A preference that a peer contradicts -/

/-- A URL parser that knows the npm registry. -/
def npmHostUrl : UrlParser := fun s =>
  if s = "https://registry.npmjs.org" ∨ s = "https://registry.npmjs.org/" then
    some ⟨"https", "", none, some "registry.npmjs.org", none, "/", none, none, "https://registry.npmjs.org/"⟩
  else none

def helperName : PackageName := ⟨"helper", by decide⟩

def frameworkName : PackageName := ⟨"framework", by decide⟩

/-- Version 1.0.0 of a package that declares nothing. -/
def bareRecord (name : PackageName) : PackageRecord where
  distTags := ∅
  registry := npmSource
  name := name
  version := .stable 1 0 0
  artifact := ""
  dependencies := ∅
  peerDependencies := ∅
  optionalPeerDependencies := ∅
  optionalDependencies := ∅
  platform := ⟨[], [], []⟩
  fixture := false

/-- An addon with a dependency and a peer. -/
def addonRecord (minor : U64) (range : String) : PackageRecord :=
  { bareRecord addonName with
    version := .stable 1 minor 0
    dependencies := (∅ : OrdMap String String).insert "helper" "^1.0.0"
    peerDependencies := (∅ : OrdMap String String).insert "framework" range }

/-- The registry knows two versions of the addon; the request comes with the first,
which asks for a framework that there is no version of. -/
def addonRequest : LazyRequest Unit where
  host := glibcHost
  url := npmHostUrl
  overrides := ∅
  route := MetadataIndex.Refresh.ownRegistry
  seed := [addonRecord 0 "^2.0.0"]
  answer := fun _ _ name =>
    .ok (if name = addonName then [addonRecord 0 "^2.0.0", addonRecord 1 "^1.0.0"]
      else if name = helperName ∨ name = frameworkName then [bareRecord name] else [])

def anyRoot (name : PackageName) : Dependency := ⟨npmSource, name, ⟨"*", none, none, [.anyStable]⟩⟩

def addonRoots : List Dependency := [anyRoot addonName, anyRoot frameworkName]

/-- Version 1.0.0 of the addon is preferred. -/
def addonPinned : ResolutionPreferences :=
  { ResolutionPreferences.none with
    versions := (∅ : OrdSet _).insert (toLex (npmSource, toLex (addonName, .stable 1 0 0))) }

def addonNames : Finset (String ×ₗ String) :=
  {nameKey npmSource addonName, nameKey npmSource helperName, nameKey npmSource frameworkName}

theorem overrideRecord_empty (p : PackageRecord) : overrideRecord ∅ p = p := by
  unfold overrideRecord
  split_ifs <;> rfl

/-- What the registry replies. -/
theorem answered_addonRequest {p : PackageRecord} (h : addonRequest.Answered addonNames p) :
    p = addonRecord 0 "^2.0.0" ∨ p = addonRecord 1 "^1.0.0" ∨ p = bareRecord helperName ∨
      p = bareRecord frameworkName := by
  rcases h with hp | ⟨i, registry, name, packages, -, hanswer, package, hpackage, rfl⟩
  · exact .inl (List.mem_singleton.mp hp)
  · obtain rfl := Except.ok.inj hanswer
    split_ifs at hpackage with haddon hother
    · rcases List.mem_cons.mp hpackage with rfl | hpackage
      · exact .inl rfl
      · rw [List.mem_singleton.mp hpackage]
        exact .inr (.inl rfl)
    · rw [List.mem_singleton.mp hpackage]
      rcases hother with rfl | rfl
      · exact .inr (.inr (.inl rfl))
      · exact .inr (.inr (.inr rfl))
    · cases hpackage

/-- The addon declares the helper. -/
theorem declares_addonRecord {minor : U64} {range : String} {name : PackageName} {r : Requirement}
    (h : (addonRecord minor range).Declares name r) : r.packageName name = helperName := by
  obtain ⟨declared, text, hget, hname, hr⟩ := h
  have hget : ((∅ : OrdMap String String).insert "helper" "^1.0.0").get? declared = some text := by
    rcases hget with hget | hget
    · exact hget
    · cases hget
  rw [OrdMap.get?_insert] at hget
  split_ifs at hget with hdeclared
  · obtain rfl := Option.some.inj hget
    subst hdeclared
    have hparse : PackageName.parse "helper" = .ok helperName := by decide
    have hrange : (parseRegistryRange "^1.0.0").toOption.map Requirement.aliasName = some none := by decide
    obtain rfl := Except.ok.inj (hparse.symm.trans hname)
    rw [hr] at hrange
    rw [Requirement.packageName, Option.some.inj hrange]
    rfl
  · cases hget

/-- What the peer asks of the root is asked of the framework. -/
theorem declaresPeer_addonRecord {minor : U64} {range : String}
    (hrange : ((parseRegistryRange range).toOption.bind fun r =>
      (peerConstraint (anyRoot frameworkName) r.raw).toOption).map Requirement.aliasName = some none)
    {name : PackageName} {r : Requirement} (h : (addonRecord minor range).DeclaresPeer name r) {d : Dependency}
    (hd : d ∈ addonRoots) (hname : d.name = name) {c : Requirement} (hc : peerConstraint d r.raw = .ok c) :
    d = anyRoot frameworkName ∧ c.packageName d.name = frameworkName := by
  obtain ⟨declared, text, hget, hparsed, hr⟩ := h
  have hget : ((∅ : OrdMap String String).insert "framework" range).get? declared = some text := hget
  rw [OrdMap.get?_insert] at hget
  split_ifs at hget with hdeclared
  · obtain rfl := Option.some.inj hget
    subst hdeclared
    have hparse : PackageName.parse "framework" = .ok frameworkName := by decide
    obtain rfl := Except.ok.inj (hparse.symm.trans hparsed)
    rcases List.mem_cons.mp hd with rfl | hd
    · exact absurd hname (by decide)
    · obtain rfl := List.mem_singleton.mp hd
      rw [hr] at hrange
      change ((peerConstraint (anyRoot frameworkName) r.raw).toOption).map Requirement.aliasName = some none at hrange
      rw [hc] at hrange
      refine ⟨rfl, ?_⟩
      rw [Requirement.packageName, Option.some.inj hrange]
      rfl
  · cases hget

theorem not_declares_bareRecord {name declared : PackageName} {r : Requirement} :
    ¬ (bareRecord name).Declares declared r ∧ ¬ (bareRecord name).DeclaresPeer declared r := by
  refine ⟨?_, ?_⟩
  · rintro ⟨text, range, hget | hget, -⟩ <;> cases hget
  · rintro ⟨text, range, hget, -⟩
    cases hget

theorem closed_addonRequest : NamesClosed addonRequest addonRoots addonNames := by
  have haddon : nameKey npmSource addonName ∈ addonNames := Finset.mem_insert_self _ _
  have hhelper : nameKey npmSource helperName ∈ addonNames :=
    Finset.mem_insert_of_mem (Finset.mem_insert_self _ _)
  have hframework : nameKey npmSource frameworkName ∈ addonNames :=
    Finset.mem_insert_of_mem (Finset.mem_insert_of_mem (Finset.mem_singleton_self _))
  have hhelped : ∀ (p : PackageRecord) (r : Requirement) (name : PackageName) (target : PackageSource),
      p.registry = npmSource → addonRequest.route p.registry (r.packageName name) = .ok target →
      r.packageName name = helperName → nameKey target (r.packageName name) ∈ addonNames := by
    intro p r name target hregistry htarget hactual
    have htarget : Except.ok p.registry = Except.ok target := htarget
    rw [hactual, ← Except.ok.inj htarget, hregistry]
    exact hhelper
  refine ⟨fun d hd => ?_, fun p hp => ?_, fun p hp name r target hdeclares htarget => ?_,
    fun p hp name r hdeclares d hd hname c hc => ?_⟩
  · rcases List.mem_cons.mp hd with rfl | hd
    · exact haddon
    · rw [List.mem_singleton.mp hd]
      exact hframework
  · rcases answered_addonRequest hp with rfl | rfl | rfl | rfl
    · exact haddon
    · exact haddon
    · exact hhelper
    · exact hframework
  · rw [show addonRequest.overrides = ∅ from rfl, overrideRecord_empty] at hdeclares
    rcases answered_addonRequest hp with rfl | rfl | rfl | rfl
    · exact hhelped _ r name target rfl htarget (declares_addonRecord hdeclares)
    · exact hhelped _ r name target rfl htarget (declares_addonRecord hdeclares)
    · exact absurd hdeclares not_declares_bareRecord.1
    · exact absurd hdeclares not_declares_bareRecord.1
  · rw [show addonRequest.overrides = ∅ from rfl, overrideRecord_empty] at hdeclares
    rcases answered_addonRequest hp with rfl | rfl | rfl | rfl
    · obtain ⟨rfl, hactual⟩ := declaresPeer_addonRecord (by decide) hdeclares hd hname hc
      rw [hactual]
      exact hframework
    · obtain ⟨rfl, hactual⟩ := declaresPeer_addonRecord (by decide) hdeclares hd hname hc
      rw [hactual]
      exact hframework
    · exact absurd hdeclares not_declares_bareRecord.2
    · exact absurd hdeclares not_declares_bareRecord.2

/-- The preference is given up, and the second version of the addon is selected. -/
theorem resolveWithPreferences_terminates_addonRequest :
    ((∃ outcome, resolveWithPreferences addonRequest addonRoots addonPinned
        (lazyRounds addonRoots addonPinned addonNames) = some outcome ∧
          ∀ t, outcome = .ok t → t.resolution.isSome = true) ∧
      ∀ start, lazyStart addonRequest addonRoots addonPinned = .ok start → ∀ s s',
        Reaches (lazyStep addonRequest) start s → lazyStep addonRequest s = some (.ok s') →
          Progress addonRoots s s') ∧
      ((resolveWithPreferences addonRequest addonRoots addonPinned
        (lazyRounds addonRoots addonPinned addonNames)).bind Except.toOption).any fun t =>
          t.preferred.versions.isEmpty &&
            t.resolution.any fun r => ⟨npmSource, addonName, .stable 1 1 0⟩ ∈ r.selected := by
  refine ⟨resolveWithPreferences_terminates closed_addonRequest addonPinned, ?_⟩
  decide +kernel

end Termination

end Tapid
