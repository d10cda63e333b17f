/-
What the resolver metadata holds after any sequence of batches.

After a batch every registry should hold exactly the packages whose record
normalizes, each with the optional dependencies that some record satisfies.
Batches keep this as long as no record gets worse: a record that stops
normalizing is only taken out when the batch brings another package of its
registry, and an optional dependency is never taken back.

* `insertRecords_spec` — one batch, package by package;
* `indexed_insertRecords_iff` — exactly which batches keep the index;
* `indexed_run_iff` — the same for whole runs, and that without repeated
  records their order does not matter.
-/
import Tapid.MetadataIndex

namespace Tapid

open Text Fallible Loop

/-! ### Optional dependencies -/

/-- Whether an optional dependency is added. -/
def offered (route : Routing) (registry : PackageSource)
    (provides : PackageSource → PackageName → Requirement → Bool) (name : PackageName)
    (requirement : Requirement) : Bool :=
  match route registry (requirement.packageName name) with
  | .ok target => provides target (requirement.packageName name) requirement
  | .error _ => false

/-- Dependencies with the optional ones on offer. -/
def withOffered (offers : PackageName → Requirement → Bool)
    (optional dependencies : OrdMap PackageName Requirement) : OrdMap PackageName Requirement :=
  dependencies.insertAll (optional.filter offers).entries

theorem get?_withOffered (offers : PackageName → Requirement → Bool)
    (optional dependencies : OrdMap PackageName Requirement) (n : PackageName) :
    (withOffered offers optional dependencies).get? n =
      (optional.get? n).elim (dependencies.get? n) fun r => if offers n r then some r else dependencies.get? n := by
  rw [withOffered, OrdMap.get?_insertAll, OrdMap.insertAll_of_entries, OrdMap.get?_filter]
  cases optional.get? n with
  | none => rfl
  | some r =>
    by_cases hr : offers n r = true
    · simp [Option.filter, hr]
    · simp [Option.filter, hr]

/-- **Adding optional dependencies** puts those on offer in place of what is declared. -/
theorem addOptional_eq {route : Routing} {registry : PackageSource}
    {provides : PackageSource → PackageName → Requirement → Bool}
    {optional dependencies dependencies' : OrdMap PackageName Requirement}
    (h : addOptional route registry provides optional dependencies = .ok dependencies') :
    dependencies' = withOffered (offered route registry provides) optional dependencies := by
  have hstep : ∀ (s : OrdMap PackageName Requirement) (a : PackageName × Requirement) (s' : OrdMap PackageName Requirement),
      True → addProvided route registry provides s a = .ok s' →
      True ∧ (s'.get? a.1 = if offered route registry provides a.1 a.2 then some a.2 else s.get? a.1) ∧
        ∀ i, i ≠ a.1 → s'.get? i = s.get? i := by
    rintro s ⟨n, r⟩ s' - hs'
    rw [addProvided] at hs'
    obtain ⟨target, htarget, hs'⟩ := bind_eq_ok.mp hs'
    have hroute := mapError_eq_ok.mp htarget
    obtain rfl := pure_eq_ok.mp hs'
    have hoffered : offered route registry provides n r = provides target (r.packageName n) r := by
      rw [offered, hroute]
    refine ⟨trivial, ?_, fun i hi => ?_⟩
    · rw [hoffered]
      dsimp only
      split_ifs
      · exact OrdMap.get?_insert_self _ _ _
      · rfl
    · split_ifs
      · exact OrdMap.get?_insert_of_ne _ _ hi
      · rfl
  obtain ⟨-, hall, hrest⟩ := foldlM_keyed (I := fun _ => True)
    (v := fun (s : OrdMap PackageName Requirement) i => s.get? i)
    (R := fun a old new => new = if offered route registry provides a.1 a.2 then some a.2 else old)
    hstep trivial optional.nodup_keys h
  refine OrdMap.ext_get? fun n => ?_
  rw [get?_withOffered]
  cases hn : optional.get? n with
  | none => exact hrest n (OrdMap.not_mem_keys hn)
  | some r => exact hall (n, r) (OrdMap.mem_entries.mpr hn)

/-! ### Packages of one registry -/

namespace RegistryMetadata

theorem sortKey_injective {p q : PackageVersionMetadata} (h : sortKey p = sortKey q) :
    p.name = q.name ∧ p.version = q.version :=
  Prod.mk.inj (toLex.injective h)

/-- Sorted packages whose neighbours differ increase strictly. -/
theorem pairwise_of_checkAdjacent {registry : PackageSource} {l : List PackageVersionMetadata} {u : Unit}
    (hsorted : l.Pairwise fun a b => sortKey a ≤ sortKey b) (h : checkAdjacent registry l = .ok u) :
    l.Pairwise fun a b => sortKey a < sortKey b := by
  induction l with
  | nil => exact List.Pairwise.nil
  | cons a l ih =>
    obtain ⟨hle, hsorted⟩ := List.pairwise_cons.mp hsorted
    cases l with
    | nil => exact List.pairwise_singleton _ _
    | cons b l =>
      rw [checkAdjacent] at h
      obtain ⟨_, hne, h⟩ := bind_eq_ok.mp h
      have htail := ih hsorted h
      have hab : sortKey a < sortKey b := lt_of_le_of_ne (hle b List.mem_cons_self) fun heq =>
        rejectIf_eq_ok.mp hne (sortKey_injective heq)
      refine List.pairwise_cons.mpr ⟨fun c hc => ?_, htail⟩
      rcases List.mem_cons.mp hc with rfl | hc
      · exact hab
      · exact hab.trans ((List.pairwise_cons.mp htail).1 c hc)

/-- **A normalized registry** holds the given packages in strict order. -/
theorem of_normalize {registry : PackageSource} {packages : List PackageVersionMetadata}
    {r : RegistryMetadata} (h : normalize registry packages = .ok r) :
    r.packages.Perm packages ∧ r.packages.Pairwise fun a b => sortKey a < sortKey b := by
  rw [normalize] at h
  obtain ⟨_, _, h⟩ := bind_eq_ok.mp h
  obtain ⟨_, _, h⟩ := bind_eq_ok.mp h
  obtain ⟨_, hadjacent, h⟩ := bind_eq_ok.mp h
  obtain rfl := pure_eq_ok.mp h
  exact ⟨List.perm_insertionSort _ _,
    pairwise_of_checkAdjacent (List.pairwise_insertionSort _ _) hadjacent⟩

end RegistryMetadata

namespace MetadataIndex

/-! ### Replacing the packages of a batch -/

/-- The packages of one registry after those of the batch replaced theirs. -/
def Replaced (inserted : OrdSet PackageRecordKey) (addition : PackageSource × List PackageVersionMetadata)
    (old new : Option (List PackageVersionMetadata)) : Prop :=
  ∃ l, new = some l ∧ (l.Pairwise fun a b => RegistryMetadata.sortKey a < RegistryMetadata.sortKey b) ∧
    l.Perm ((old.getD []).filter (fun p => recordKey addition.1 p.name p.version ∉ inserted) ++ addition.2)

theorem knownPackages_eq {metadata : OrdMap PackageSource (List PackageVersionMetadata)}
    {registry : PackageSource} {known : List PackageVersionMetadata}
    (h : knownPackages metadata registry = .ok known) : known = (metadata.get? registry).getD [] := by
  unfold knownPackages at h
  split at h
  · next packages hget =>
    rw [hget]
    exact (Except.ok.inj h).symm
  · next hget =>
    obtain ⟨r, hr, rfl⟩ := map_eq_ok.mp (mapError_eq_ok.mp h)
    rw [hget]
    exact (RegistryMetadata.of_normalize hr).1.eq_nil

theorem replaceRegistry_spec {inserted : OrdSet PackageRecordKey}
    {metadata metadata' : OrdMap PackageSource (List PackageVersionMetadata)}
    {addition : PackageSource × List PackageVersionMetadata}
    (h : replaceRegistry inserted metadata addition = .ok metadata') :
    Replaced inserted addition (metadata.get? addition.1) (metadata'.get? addition.1) ∧
      ∀ registry, registry ≠ addition.1 → metadata'.get? registry = metadata.get? registry := by
  obtain ⟨registry, additions⟩ := addition
  rw [replaceRegistry] at h
  obtain ⟨known, hknown, h⟩ := bind_eq_ok.mp h
  obtain ⟨combined, hcombined, h⟩ := bind_eq_ok.mp h
  obtain rfl := pure_eq_ok.mp h
  obtain ⟨hperm, hsorted⟩ := RegistryMetadata.of_normalize (mapError_eq_ok.mp hcombined)
  refine ⟨⟨combined.packages, OrdMap.get?_insert_self _ _ _, hsorted, ?_⟩, fun other hother => ?_⟩
  · rw [← knownPackages_eq hknown]
    exact hperm
  · exact OrdMap.get?_insert_of_ne _ _ hother

/-- **Replacing** touches the registries of the batch only. -/
theorem foldlM_replaceRegistry {inserted : OrdSet PackageRecordKey}
    {metadata metadata' : OrdMap PackageSource (List PackageVersionMetadata)}
    {additions : OrdMap PackageSource (List PackageVersionMetadata)}
    (h : additions.entries.foldlM (replaceRegistry inserted) metadata = .ok metadata') (registry : PackageSource) :
    (additions.get? registry = none → metadata'.get? registry = metadata.get? registry) ∧
      ∀ l, additions.get? registry = some l →
        Replaced inserted (registry, l) (metadata.get? registry) (metadata'.get? registry) := by
  obtain ⟨-, hall, hrest⟩ := foldlM_keyed (I := fun _ => True)
    (v := fun (s : OrdMap PackageSource (List PackageVersionMetadata)) i => s.get? i) (R := Replaced inserted)
    (fun s a s' _ hs' => ⟨trivial, replaceRegistry_spec hs'⟩) trivial additions.nodup_keys h
  exact ⟨fun hnone => hrest registry (OrdMap.not_mem_keys hnone),
    fun l hl => hall (registry, l) (OrdMap.mem_entries.mpr hl)⟩

/-! ### Recording a batch -/

section Inserting

variable {host : HostPlatform} {overrides : OrdMap PackageName Requirement} {route : Routing}

/-- Records stand under their own key, next to what they normalize to. -/
structure WellKeyed (host : HostPlatform) (s : MetadataIndex) : Prop where
  key : ∀ k p, s.records.get? k = some p → p.key = k
  normalized : ∀ k, s.normalized.get? k = (s.records.get? k).map (normalizeRecord host)

@[simp] theorem overrideRecord_key (p : PackageRecord) : (overrideRecord overrides p).key = p.key := by
  unfold overrideRecord
  split_ifs <;> rfl

theorem WellKeyed.record {s : MetadataIndex} (h : WellKeyed host s) (p : PackageRecord) :
    WellKeyed host (s.record host overrides p) := by
  refine ⟨fun k q hq => ?_, fun k => ?_⟩
  · rw [MetadataIndex.record, OrdMap.get?_insert] at hq
    split_ifs at hq with hk
    · rw [← Option.some.inj hq, hk]
    · exact h.key k q hq
  · rw [MetadataIndex.record, OrdMap.get?_insert, OrdMap.get?_insert]
    split_ifs
    · rfl
    · exact h.normalized k

theorem WellKeyed.foldl_record {s : MetadataIndex} (h : WellKeyed host s) (l : List PackageRecord) :
    WellKeyed host (l.foldl (MetadataIndex.record host overrides) s) := by
  induction l generalizing s with
  | nil => exact h
  | cons p l ih => exact ih (h.record p)

theorem mem_insertedKeys {l : List PackageRecord} {k : PackageRecordKey} :
    k ∈ insertedKeys l ↔ ∃ p ∈ l, p.key = k := by
  rw [insertedKeys, OrdSet.mem_ofList, List.mem_map]

theorem mem_insertedNames {l : List PackageRecord} {registry : PackageSource} {name : PackageName} :
    packageKey registry name ∈ insertedNames l ↔ ∃ p ∈ l, p.registry = registry ∧ p.name = name := by
  rw [insertedNames, OrdSet.mem_ofList, List.mem_map]
  refine ⟨?_, ?_⟩
  · rintro ⟨p, hp, hkey⟩
    exact ⟨p, hp, Prod.mk.inj (toLex.injective hkey)⟩
  · rintro ⟨p, hp, rfl, rfl⟩
    exact ⟨p, hp, rfl⟩

/-- Records of other keys stay. -/
theorem records_foldl_record {s : MetadataIndex} {l : List PackageRecord} {k : PackageRecordKey}
    (hk : k ∉ insertedKeys l) :
    (l.foldl (record host overrides) s).records.get? k = s.records.get? k := by
  induction l generalizing s with
  | nil => rfl
  | cons p l ih =>
    have hne : k ≠ p.key := fun heq => hk (mem_insertedKeys.mpr ⟨p, List.mem_cons_self, heq.symm⟩)
    have hrest : k ∉ insertedKeys l := fun hmem => by
      obtain ⟨q, hq, hqk⟩ := mem_insertedKeys.mp hmem
      exact hk (mem_insertedKeys.mpr ⟨q, List.mem_cons_of_mem _ hq, hqk⟩)
    rw [List.foldl_cons, ih hrest, record]
    exact OrdMap.get?_insert_of_ne _ _ (by rwa [overrideRecord_key])

/-- A key of the batch has a record of the batch. -/
theorem exists_records_foldl_record {s : MetadataIndex} {l : List PackageRecord} {k : PackageRecordKey}
    (hk : k ∈ insertedKeys l) :
    ∃ p ∈ l, p.key = k ∧ (l.foldl (record host overrides) s).records.get? k = some (overrideRecord overrides p) := by
  induction l generalizing s with
  | nil => simp [insertedKeys] at hk
  | cons p l ih =>
    rw [List.foldl_cons]
    by_cases hrest : k ∈ insertedKeys l
    · obtain ⟨q, hq, hqk, hget⟩ := ih (s := s.record host overrides p) hrest
      exact ⟨q, List.mem_cons_of_mem _ hq, hqk, hget⟩
    · obtain ⟨q, hq, hqk⟩ := mem_insertedKeys.mp hk
      rcases List.mem_cons.mp hq with rfl | hq
      · refine ⟨q, List.mem_cons_self, hqk, ?_⟩
        have hkey : (overrideRecord overrides q).key = k := (overrideRecord_key q).trans hqk
        rw [records_foldl_record hrest, record, hkey]
        exact OrdMap.get?_insert_self _ _ _
      · exact absurd (mem_insertedKeys.mpr ⟨q, hq, hqk⟩) hrest

theorem WellKeyed.normalized_foldl_record {s : MetadataIndex} (h : WellKeyed host s) {l : List PackageRecord}
    {k : PackageRecordKey} (hk : k ∉ insertedKeys l) :
    (l.foldl (MetadataIndex.record host overrides) s).normalized.get? k = s.normalized.get? k := by
  rw [(h.foldl_record l).normalized, records_foldl_record hk, h.normalized]

/-- Recording leaves the metadata to the rest of the batch. -/
theorem metadata_foldl_record (s : MetadataIndex) (l : List PackageRecord) :
    (l.foldl (record host overrides) s).metadata = s.metadata := by
  induction l generalizing s with
  | nil => rfl
  | cons p l ih => exact ih _

/-! ### Candidates -/

/-- Normalizing keeps the name and the version. -/
theorem normalizeRecord_names {p : PackageRecord} {n : NormalizedRecord} (h : normalizeRecord host p = .ok n) :
    n.metadata.name = p.name ∧ n.metadata.version = p.version := by
  rw [normalizeRecord] at h
  obtain ⟨_, _, h⟩ := bind_eq_ok.mp h
  obtain ⟨_, _, h⟩ := bind_eq_ok.mp h
  obtain ⟨_, _, h⟩ := bind_eq_ok.mp h
  obtain ⟨_, _, h⟩ := bind_eq_ok.mp h
  obtain ⟨_, _, h⟩ := bind_eq_ok.mp h
  obtain ⟨_, _, h⟩ := bind_eq_ok.mp h
  obtain ⟨_, _, h⟩ := bind_eq_ok.mp h
  obtain rfl := pure_eq_ok.mp h
  exact ⟨rfl, rfl⟩

theorem WellKeyed.names {s : MetadataIndex} (h : WellKeyed host s) {registry : PackageSource}
    {name : PackageName} {version : PackageVersion} {n : NormalizedRecord}
    (hn : s.normalized.get? (recordKey registry name version) = some (.ok n)) :
    n.metadata.name = name ∧ n.metadata.version = version ∧
      ∃ p, s.records.get? (recordKey registry name version) = some p ∧ p.registry = registry := by
  rw [h.normalized] at hn
  obtain ⟨p, hp, hpn⟩ := Option.map_eq_some_iff.mp hn
  obtain ⟨hname, hversion⟩ := normalizeRecord_names hpn
  have hkey := toLex.injective (h.key _ _ hp)
  have hrest := toLex.injective (Prod.mk.inj hkey).2
  exact ⟨hname.trans (Prod.mk.inj hrest).1, hversion.trans (Prod.mk.inj hrest).2, p, hp, (Prod.mk.inj hkey).1⟩

/-- A requirement is matched by a record that normalizes and suits the host. -/
theorem candidateMatches_iff {s : MetadataIndex} {registry : PackageSource} {name : PackageName}
    {requirement : Requirement} :
    s.candidateMatches host registry name requirement = true ↔ ∃ k p n, s.records.get? k = some p ∧
      p.registry = registry ∧ p.name = name ∧ s.normalized.get? k = some (.ok n) ∧
        host.currentPlatformMatches p.platform = true ∧
          requirement.matchesTaggedVersion p.version p.distTags = true := by
  rw [candidateMatches, List.any_eq_true]
  constructor
  · rintro ⟨⟨k, p⟩, hmem, hp⟩
    simp only [Bool.and_eq_true, decide_eq_true_eq] at hp
    obtain ⟨⟨⟨⟨hregistry, hname⟩, hok⟩, hplatform⟩, hmatch⟩ := hp
    have hget := OrdMap.mem_entries.mp hmem
    cases hn : s.normalized.get? k with
    | none => simp [hn] at hok
    | some r =>
      cases r with
      | error e => simp [hn, Except.toOption] at hok
      | ok n => exact ⟨k, p, n, hget, hregistry, hname, hn, hplatform, hmatch⟩
  · rintro ⟨k, p, n, hget, hregistry, hname, hn, hplatform, hmatch⟩
    refine ⟨(k, p), OrdMap.mem_entries.mpr hget, ?_⟩
    simp [hregistry, hname, hn, hplatform, hmatch, Except.toOption]

/-- Whether an optional dependency of a registry's package is satisfied. -/
def offers (host : HostPlatform) (route : Routing) (s : MetadataIndex) (registry : PackageSource)
    (name : PackageName) (requirement : Requirement) : Bool :=
  offered route registry (s.candidateMatches host) name requirement

/-- The package a normalized record stands for: its dependencies, and the
optional ones that are satisfied. -/
def current (host : HostPlatform) (route : Routing) (s : MetadataIndex) (registry : PackageSource)
    (n : NormalizedRecord) : PackageVersionMetadata :=
  { n.metadata with
    dependencies := withOffered (s.offers host route registry) n.optionalDependencies n.metadata.dependencies }

/-! ### One batch -/

/-- A package that the metadata of a registry holds. -/
def Holds (s : MetadataIndex) (registry : PackageSource) (p : PackageVersionMetadata) : Prop :=
  ∃ l, s.metadata.get? registry = some l ∧ p ∈ l

/-- A package of the batch that normalizes. -/
def Added (host : HostPlatform) (route : Routing) (s : MetadataIndex) (inserted : OrdSet PackageRecordKey)
    (registry : PackageSource) (p : PackageVersionMetadata) : Prop :=
  recordKey registry p.name p.version ∈ inserted ∧ ∃ n,
    s.normalized.get? (recordKey registry p.name p.version) = some (.ok n) ∧ p = s.current host route registry n

/-- The batch brings a package of the registry. -/
def Renewed (s : MetadataIndex) (inserted : OrdSet PackageRecordKey) (registry : PackageSource) : Prop :=
  ∃ name version n, recordKey registry name version ∈ inserted ∧
    s.normalized.get? (recordKey registry name version) = some (.ok n)

theorem mem_additionOf {s : MetadataIndex} (h : WellKeyed host s) {k : PackageRecordKey}
    {l : List (PackageSource × PackageVersionMetadata)} (hl : additionOf host route s k = .ok l)
    {registry : PackageSource} {p : PackageVersionMetadata} :
    (registry, p) ∈ l ↔ k = recordKey registry p.name p.version ∧ ∃ n,
      s.normalized.get? k = some (.ok n) ∧ p = s.current host route registry n := by
  unfold additionOf at hl
  split at hl
  · next n package hn hpackage =>
    obtain ⟨dependencies, hdependencies, hl⟩ := bind_eq_ok.mp hl
    obtain rfl := pure_eq_ok.mp hl
    have hcurrent : { n.metadata with dependencies := dependencies } = s.current host route package.registry n := by
      rw [addOptional_eq hdependencies]
      rfl
    have hkey := h.key k package hpackage
    obtain ⟨hname, hversion, -⟩ := h.names (hkey ▸ hn)
    rw [List.mem_singleton, hcurrent]
    constructor
    · intro heq
      obtain ⟨rfl, rfl⟩ := Prod.mk.inj heq
      refine ⟨?_, n, hn, rfl⟩
      rw [← hkey, PackageRecord.key]
      exact congrArg₂ (recordKey package.registry) hname.symm hversion.symm
    · rintro ⟨hk, n', hn', rfl⟩
      obtain rfl := Except.ok.inj (Option.some.inj (hn.symm.trans hn'))
      have hregistry : package.registry = registry := (Prod.mk.inj (toLex.injective (hkey.trans hk))).1
      rw [hregistry]
  · next hnone =>
    obtain rfl := pure_eq_ok.mp hl
    simp only [List.not_mem_nil, false_iff, not_and, not_exists]
    intro _ n hn _
    rw [h.normalized] at hn
    obtain ⟨package, hpackage, hok⟩ := Option.map_eq_some_iff.mp hn
    refine hnone n package ?_ hpackage
    rw [h.normalized, hpackage, Option.map_some, hok]

theorem mem_additions {s : MetadataIndex} (h : WellKeyed host s) {inserted : OrdSet PackageRecordKey}
    {additions : List (List (PackageSource × PackageVersionMetadata))}
    (hadditions : inserted.elems.mapM (additionOf host route s) = .ok additions) {registry : PackageSource}
    {p : PackageVersionMetadata} : (registry, p) ∈ additions.flatten ↔ s.Added host route inserted registry p := by
  rw [List.mem_flatten]
  constructor
  · rintro ⟨l, hl, hp⟩
    obtain ⟨k, hk, hkl⟩ := of_mem_mapM_ok hadditions l hl
    obtain ⟨rfl, hn⟩ := (mem_additionOf h hkl).mp hp
    exact ⟨hk, hn⟩
  · rintro ⟨hk, hn⟩
    obtain ⟨l, hl, hkl⟩ := ok_of_mem_mapM hadditions _ hk
    exact ⟨l, hl, (mem_additionOf h hkl).mpr ⟨rfl, hn⟩⟩

/-- The optional dependencies a batch adds to a package that stays. -/
def patched (host : HostPlatform) (route : Routing) (s : MetadataIndex) (names : OrdSet PackageKey)
    (registry : PackageSource) (p : PackageVersionMetadata) : PackageVersionMetadata :=
  match s.normalized.get? (recordKey registry p.name p.version) with
  | some (.ok n) => { p with
      dependencies := withOffered (offered route registry fun target name requirement =>
        packageKey target name ∈ names && s.candidateMatches host target name requirement)
          n.optionalDependencies p.dependencies }
  | _ => p

theorem patched_of_ok {s : MetadataIndex} {names : OrdSet PackageKey} {registry : PackageSource}
    {p : PackageVersionMetadata} {n : NormalizedRecord}
    (h : s.normalized.get? (recordKey registry p.name p.version) = some (.ok n)) :
    patched host route s names registry p = { p with
      dependencies := withOffered (offered route registry fun target name requirement =>
        packageKey target name ∈ names && s.candidateMatches host target name requirement)
          n.optionalDependencies p.dependencies } := by
  rw [patched, h]

theorem patched_of_not_ok {s : MetadataIndex} {names : OrdSet PackageKey} {registry : PackageSource}
    {p : PackageVersionMetadata}
    (h : ∀ n, s.normalized.get? (recordKey registry p.name p.version) = some (.ok n) → False) :
    patched host route s names registry p = p := by
  unfold patched
  split
  · next n hn => exact absurd hn (h n)
  · rfl

theorem patchParent_eq {s : MetadataIndex} {names : OrdSet PackageKey} {registry : PackageSource}
    {p p' : PackageVersionMetadata} (h : patchParent host route s names registry p = .ok p') :
    p' = patched host route s names registry p := by
  unfold patchParent at h
  split at h
  · next n hn =>
    obtain ⟨dependencies, hdependencies, h⟩ := bind_eq_ok.mp h
    obtain rfl := pure_eq_ok.mp h
    rw [patched_of_ok hn, addOptional_eq hdependencies]
  · next hnone => rw [patched_of_not_ok hnone, pure_eq_ok.mp h]

@[simp] theorem patched_name (s : MetadataIndex) (names : OrdSet PackageKey) (registry : PackageSource)
    (p : PackageVersionMetadata) : (patched host route s names registry p).name = p.name := by
  unfold patched
  split <;> rfl

@[simp] theorem patched_version (s : MetadataIndex) (names : OrdSet PackageKey) (registry : PackageSource)
    (p : PackageVersionMetadata) : (patched host route s names registry p).version = p.version := by
  unfold patched
  split <;> rfl

theorem mapM_patchParent_eq {s : MetadataIndex} {names : OrdSet PackageKey} {registry : PackageSource}
    {l l' : List PackageVersionMetadata} (h : l.mapM (patchParent host route s names registry) = .ok l') :
    l' = l.map (patched host route s names registry) := by
  have hmap : l'.map id = l.map (patched host route s names registry) :=
    map_eq_of_mapM_ok h fun _ _ => patchParent_eq
  rw [← hmap, List.map_id]

/-- **One batch**, registry by registry. -/
theorem insertRecords_eq {s s' : MetadataIndex} {packages : List PackageRecord}
    (h : s.insertRecords host overrides route packages = .ok s') :
    ∃ t metadata additions, t = packages.foldl (record host overrides) s ∧
      s' = { t with metadata := metadata } ∧
      (insertedKeys packages).elems.mapM (additionOf host route t) = .ok additions ∧
      ∀ registry, ∃ replaced, metadata.get? registry =
          Option.map (List.map (patched host route t (insertedNames packages) registry)) replaced ∧
        ((OrdMap.group additions.flatten).get? registry = none → replaced = s.metadata.get? registry) ∧
        ∀ l, (OrdMap.group additions.flatten).get? registry = some l →
          Replaced (insertedKeys packages) (registry, l) (s.metadata.get? registry) replaced := by
  rw [insertRecords] at h
  obtain ⟨additions, hadditions, h⟩ := bind_eq_ok.mp h
  obtain ⟨replaced, hreplaced, h⟩ := bind_eq_ok.mp h
  obtain ⟨metadata, hmetadata, h⟩ := bind_eq_ok.mp h
  obtain rfl := pure_eq_ok.mp h
  refine ⟨_, metadata, additions, rfl, rfl, hadditions, fun registry => ⟨replaced.get? registry, ?_, ?_⟩⟩
  · rcases OrdMap.get?_mapValM hmetadata registry with ⟨hnone, hnone'⟩ | ⟨l, l', hl, hpatch, hl'⟩
    · rw [hnone, hnone']
      rfl
    · rw [hl, hl', mapM_patchParent_eq hpatch]
      rfl
  · rw [metadata_foldl_record] at hreplaced
    exact foldlM_replaceRegistry hreplaced registry

variable (route) in
theorem renewed_iff {s : MetadataIndex} (h : WellKeyed host s) {inserted : OrdSet PackageRecordKey}
    {registry : PackageSource} :
    s.Renewed inserted registry ↔ ∃ p, s.Added host route inserted registry p := by
  constructor
  · rintro ⟨name, version, n, hk, hn⟩
    obtain ⟨hname, hversion, -⟩ := h.names hn
    have hkey : recordKey registry (s.current host route registry n).name (s.current host route registry n).version =
        recordKey registry name version := congrArg₂ (recordKey registry) hname hversion
    exact ⟨s.current host route registry n, by rwa [hkey], n, by rwa [hkey], rfl⟩
  · rintro ⟨p, hk, n, hn, -⟩
    exact ⟨p.name, p.version, n, hk, hn⟩

/-- **One batch, package by package.**  The packages of the batch come in, the
packages they replace go out if the batch renews their registry, and the others
may gain optional dependencies. -/
theorem insertRecords_spec {s s' : MetadataIndex} (hs : WellKeyed host s) {packages : List PackageRecord}
    (h : s.insertRecords host overrides route packages = .ok s') :
    s'.records = (packages.foldl (record host overrides) s).records ∧
      s'.normalized = (packages.foldl (record host overrides) s).normalized ∧
      ∀ registry p', s'.Holds registry p' ↔
        ∃ p, p' = patched host route s' (insertedNames packages) registry p ∧
          (s'.Added host route (insertedKeys packages) registry p ∨
            s.Holds registry p ∧ (recordKey registry p.name p.version ∈ insertedKeys packages →
              ¬ s'.Renewed (insertedKeys packages) registry)) := by
  obtain ⟨t, metadata, additions, rfl, rfl, hadditions, hregistry⟩ := insertRecords_eq h
  refine ⟨rfl, rfl, fun registry p' => ?_⟩
  obtain ⟨replaced, hget, hnone, hsome⟩ := hregistry registry
  set t := packages.foldl (record host overrides) s with ht
  have ht' : WellKeyed host t := hs.foldl_record packages
  have hadded : ∀ p, p ∈ OrdMap.valuesAt additions.flatten registry ↔
      t.Added host route (insertedKeys packages) registry p := fun p =>
    OrdMap.mem_valuesAt.trans (mem_additions ht' hadditions)
  have hkept : ∀ p, (∃ l, replaced = some l ∧ p ∈ l) ↔
      t.Added host route (insertedKeys packages) registry p ∨
        s.Holds registry p ∧ (recordKey registry p.name p.version ∈ insertedKeys packages →
          ¬ t.Renewed (insertedKeys packages) registry) := by
    intro p
    rw [renewed_iff route ht']
    by_cases hvalues : OrdMap.valuesAt additions.flatten registry = []
    · -- the batch brings nothing for the registry
      have hno : ∀ q, ¬ t.Added host route (insertedKeys packages) registry q := fun q hq => by
        have hmem := (hadded q).mpr hq
        rw [hvalues] at hmem
        exact absurd hmem List.not_mem_nil
      rw [hnone (by rw [OrdMap.get?_group, if_pos hvalues])]
      constructor
      · exact fun hp => Or.inr ⟨hp, fun _ ⟨q, hq⟩ => hno q hq⟩
      · rintro (hp | ⟨hp, -⟩)
        · exact absurd hp (hno p)
        · exact hp
    · obtain ⟨l, hl, -, hperm⟩ := hsome _ (by rw [OrdMap.get?_group, if_neg hvalues])
      obtain ⟨q, hq⟩ := List.exists_mem_of_ne_nil _ hvalues
      have hrenewed : ∃ q, t.Added host route (insertedKeys packages) registry q := ⟨q, (hadded q).mp hq⟩
      have hmem : (∃ l, replaced = some l ∧ p ∈ l) ↔ p ∈ l := by
        rw [hl]
        exact ⟨fun ⟨_, hl', hp⟩ => Option.some.inj hl' ▸ hp, fun hp => ⟨l, rfl, hp⟩⟩
      have holds : s.Holds registry p ↔ p ∈ (s.metadata.get? registry).getD [] := by
        rw [Holds]
        cases s.metadata.get? registry <;> simp
      rw [hmem, hperm.mem_iff, List.mem_append, List.mem_filter, decide_eq_true_eq, hadded, holds]
      constructor
      · rintro (⟨hp, hk⟩ | hp)
        · exact Or.inr ⟨hp, fun hmem => absurd hmem hk⟩
        · exact Or.inl hp
      · rintro (hp | ⟨hp, hk⟩)
        · exact Or.inr hp
        · exact Or.inl ⟨hp, fun hmem => hk hmem hrenewed⟩
  constructor
  · rintro ⟨l, hl, hp'⟩
    rw [show ({ t with metadata := metadata } : MetadataIndex).metadata.get? registry = metadata.get? registry
      from rfl, hget] at hl
    obtain ⟨l₀, hl₀, rfl⟩ := Option.map_eq_some_iff.mp hl
    obtain ⟨p, hp, rfl⟩ := List.mem_map.mp hp'
    exact ⟨p, rfl, (hkept p).mp ⟨l₀, hl₀, hp⟩⟩
  · rintro ⟨p, rfl, hp⟩
    obtain ⟨l₀, hl₀, hp⟩ := (hkept p).mpr hp
    refine ⟨l₀.map (patched host route t (insertedNames packages) registry), ?_, List.mem_map_of_mem hp⟩
    exact hget.trans (by rw [hl₀]; rfl)

/-! ### The index -/

/-- **The index holds what it should**: in each registry exactly the packages
whose record normalizes, each with its dependencies and the optional ones that
are satisfied. -/
def Indexed (host : HostPlatform) (route : Routing) (s : MetadataIndex) : Prop :=
  ∀ registry p, s.Holds registry p ↔ ∃ n,
    s.normalized.get? (recordKey registry p.name p.version) = some (.ok n) ∧ p = s.current host route registry n

/-- No record of the batch makes the index worse: one that stops normalizing comes
with another package of its registry, and an optional dependency that was
satisfied stays so or is declared alike among the dependencies. -/
structure KeepsIndexed (host : HostPlatform) (overrides : OrdMap PackageName Requirement) (route : Routing)
    (s : MetadataIndex) (packages : List PackageRecord) : Prop where
  withdrawn : ∀ registry name version n e, recordKey registry name version ∈ insertedKeys packages →
    s.normalized.get? (recordKey registry name version) = some (.ok n) →
    (packages.foldl (record host overrides) s).normalized.get? (recordKey registry name version) =
      some (.error e) → (packages.foldl (record host overrides) s).Renewed (insertedKeys packages) registry
  provided : ∀ registry name version n, recordKey registry name version ∉ insertedKeys packages →
    s.normalized.get? (recordKey registry name version) = some (.ok n) →
    ∀ optional requirement, n.optionalDependencies.get? optional = some requirement →
      s.offers host route registry optional requirement = true →
        (packages.foldl (record host overrides) s).offers host route registry optional requirement = true ∨
          n.metadata.dependencies.get? optional = some requirement

/-- What a batch has come to satisfy was matched by a record of the batch, or
matched before. -/
theorem offers_of_not_inserted {s t : MetadataIndex} (hs : WellKeyed host s) {packages : List PackageRecord}
    (ht : t = packages.foldl (record host overrides) s) {registry : PackageSource} {name : PackageName}
    {requirement : Requirement} (h : t.offers host route registry name requirement = true) :
    (offered route registry fun target name requirement =>
        packageKey target name ∈ insertedNames packages && t.candidateMatches host target name requirement)
        name requirement = true ∨ s.offers host route registry name requirement = true := by
  subst ht
  unfold offers offered at *
  cases hroute : route registry (requirement.packageName name) with
  | error e => simp [hroute] at h
  | ok target =>
    simp only [hroute] at h ⊢
    by_cases hname : packageKey target (requirement.packageName name) ∈ insertedNames packages
    · exact Or.inl (by simp [hname, h])
    · refine Or.inr ?_
      obtain ⟨k, p, n, hp, hregistry, hpname, hn, hplatform, hmatch⟩ := candidateMatches_iff.mp h
      have hk : k ∉ insertedKeys packages := fun hk => by
        obtain ⟨q, hq, hqk⟩ := mem_insertedKeys.mp hk
        have hkey := toLex.injective (hqk.trans ((hs.foldl_record packages).key k p hp).symm)
        have hrest := toLex.injective (Prod.mk.inj hkey).2
        exact hname (mem_insertedNames.mpr ⟨q, hq, (Prod.mk.inj hkey).1.trans hregistry,
          (Prod.mk.inj hrest).1.trans hpname⟩)
      rw [records_foldl_record hk] at hp
      rw [hs.normalized_foldl_record hk] at hn
      exact candidateMatches_iff.mpr ⟨k, p, n, hp, hregistry, hpname, hn, hplatform, hmatch⟩

/-- What a batch adds is satisfied. -/
theorem offers_of_offered {t : MetadataIndex} {names : OrdSet PackageKey} {registry : PackageSource}
    {name : PackageName} {requirement : Requirement}
    (h : (offered route registry fun target name requirement =>
      packageKey target name ∈ names && t.candidateMatches host target name requirement)
        name requirement = true) : t.offers host route registry name requirement = true := by
  unfold offers offered at *
  cases hroute : route registry (requirement.packageName name) with
  | error e => simp [hroute] at h
  | ok target =>
    simp only [hroute, Bool.and_eq_true] at h ⊢
    exact h.2

variable (route) in
theorem WellKeyed.recordKey_current {s : MetadataIndex} (h : WellKeyed host s) (t : MetadataIndex) {registry : PackageSource}
    {name : PackageName} {version : PackageVersion} {n : NormalizedRecord}
    (hn : s.normalized.get? (recordKey registry name version) = some (.ok n)) :
    recordKey registry (t.current host route registry n).name (t.current host route registry n).version =
      recordKey registry name version :=
  congrArg₂ (recordKey registry) (h.names hn).1 (h.names hn).2.1

/-- A package of the batch already has the optional dependencies on offer. -/
theorem patched_current {t : MetadataIndex} {names : OrdSet PackageKey} {registry : PackageSource}
    {p : PackageVersionMetadata} {n : NormalizedRecord}
    (hn : t.normalized.get? (recordKey registry p.name p.version) = some (.ok n))
    (hp : p = t.current host route registry n) : patched host route t names registry p = p := by
  have hdependencies : withOffered (offered route registry fun target name requirement =>
      packageKey target name ∈ names && t.candidateMatches host target name requirement)
        n.optionalDependencies p.dependencies = p.dependencies := by
    refine OrdMap.ext_get? fun i => ?_
    rw [get?_withOffered]
    cases hi : n.optionalDependencies.get? i with
    | none => rfl
    | some r =>
      rw [Option.elim_some]
      split_ifs with hoffered
      · rw [hp, current, get?_withOffered, hi, Option.elim_some, if_pos (offers_of_offered hoffered)]
      · rfl
  rw [patched_of_ok hn, hdependencies]

/-- **A package that stays** becomes what it should be exactly when no optional
dependency is lost. -/
theorem patched_kept_iff {s t : MetadataIndex} (hs : WellKeyed host s) {packages : List PackageRecord}
    (ht : t = packages.foldl (record host overrides) s) {registry : PackageSource} {name : PackageName}
    {version : PackageVersion} {n : NormalizedRecord}
    (hk : recordKey registry name version ∉ insertedKeys packages)
    (hn : s.normalized.get? (recordKey registry name version) = some (.ok n)) :
    patched host route t (insertedNames packages) registry (s.current host route registry n) =
        t.current host route registry n ↔
      ∀ optional requirement, n.optionalDependencies.get? optional = some requirement →
        s.offers host route registry optional requirement = true →
          t.offers host route registry optional requirement = true ∨
            n.metadata.dependencies.get? optional = some requirement := by
  have hnt : t.normalized.get? (recordKey registry (s.current host route registry n).name
      (s.current host route registry n).version) = some (.ok n) := by
    rw [hs.recordKey_current route s hn, ht, hs.normalized_foldl_record hk, hn]
  rw [patched_of_ok hnt]
  constructor
  · intro heq optional requirement hoptional hoffers
    have hget := congrArg (fun p : PackageVersionMetadata => p.dependencies.get? optional) heq
    simp only [current, get?_withOffered, hoptional, Option.elim_some, if_pos hoffers, ite_self] at hget
    by_cases hoffers' : t.offers host route registry optional requirement = true
    · exact Or.inl hoffers'
    · rw [if_neg hoffers'] at hget
      exact Or.inr hget.symm
  · intro hprovided
    have hdependencies : withOffered (offered route registry fun target name requirement =>
        packageKey target name ∈ insertedNames packages && t.candidateMatches host target name requirement)
          n.optionalDependencies (s.current host route registry n).dependencies =
        (t.current host route registry n).dependencies := by
      refine OrdMap.ext_get? fun optional => ?_
      rw [get?_withOffered, current, current, get?_withOffered, get?_withOffered]
      cases hoptional : n.optionalDependencies.get? optional with
      | none => rfl
      | some requirement =>
        simp only [Option.elim_some]
        by_cases hoffers' : t.offers host route registry optional requirement = true
        · -- satisfied now: by the batch, or already before
          rw [if_pos hoffers']
          rcases offers_of_not_inserted hs ht hoffers' with hbatch | hbefore
          · rw [if_pos hbatch]
          · rw [if_pos hbefore, ite_self]
        · -- satisfied no longer
          rw [if_neg hoffers', if_neg fun hbatch => hoffers' (offers_of_offered hbatch)]
          split_ifs with hbefore
          · rcases hprovided optional requirement hoptional hbefore with hnow | hdeclared
            · exact absurd hnow hoffers'
            · exact hdeclared.symm
          · rfl
    rw [hdependencies]
    rfl

theorem candidateMatches_congr {s t : MetadataIndex} (hrecords : s.records = t.records)
    (hnormalized : s.normalized = t.normalized) :
    s.candidateMatches host = t.candidateMatches host := by
  funext registry name requirement
  rw [candidateMatches, candidateMatches, hrecords, hnormalized]

/-- **Exactly which batches keep the index.** -/
theorem indexed_insertRecords_iff {s s' : MetadataIndex} (hs : WellKeyed host s)
    (hindexed : s.Indexed host route) {packages : List PackageRecord}
    (h : s.insertRecords host overrides route packages = .ok s') :
    s'.Indexed host route ↔ s.KeepsIndexed host overrides route packages := by
  obtain ⟨hrecords, hnormalized, hspec⟩ := insertRecords_spec hs h
  set t := packages.foldl (record host overrides) s with ht
  have hwt : WellKeyed host t := hs.foldl_record packages
  have hcandidates : s'.candidateMatches host = t.candidateMatches host :=
    candidateMatches_congr hrecords hnormalized
  have hcurrent : ∀ registry n, s'.current host route registry n = t.current host route registry n :=
    fun registry n => by
      unfold current offers
      rw [hcandidates]
  have hpatched : ∀ registry p, patched host route s' (insertedNames packages) registry p =
      patched host route t (insertedNames packages) registry p := fun registry p => by
    unfold patched
    rw [hnormalized, hcandidates]
  have hadded : ∀ registry p, s'.Added host route (insertedKeys packages) registry p ↔
      t.Added host route (insertedKeys packages) registry p := fun registry p => by
    unfold Added
    simp only [hnormalized, hcurrent]
  have hrenewed : ∀ registry, s'.Renewed (insertedKeys packages) registry ↔
      t.Renewed (insertedKeys packages) registry := fun registry => by
    unfold Renewed
    rw [hnormalized]
  simp only [hpatched, hadded, hrenewed] at hspec
  constructor
  · intro hindexed'
    refine ⟨fun registry name version n e hk hn he => ?_, fun registry name version n hk hn => ?_⟩
    · -- otherwise the old package would stay
      by_contra hno
      have hkey := hs.recordKey_current route s hn
      have hholds : s.Holds registry (s.current host route registry n) :=
        (hindexed registry _).mpr ⟨n, by rw [hkey, hn], rfl⟩
      have hstays : s'.Holds registry (s.current host route registry n) := by
        refine (hspec registry _).mpr ⟨s.current host route registry n, ?_, Or.inr ⟨hholds, fun _ => hno⟩⟩
        refine (patched_of_not_ok fun n' hn' => ?_).symm
        rw [hkey, he] at hn'
        cases hn'
      obtain ⟨n', hn', -⟩ := (hindexed' registry _).mp hstays
      rw [hkey, hnormalized, he] at hn'
      cases hn'
    · rw [← patched_kept_iff hs ht hk hn]
      have hkey := hs.recordKey_current route s hn
      have hholds : s.Holds registry (s.current host route registry n) :=
        (hindexed registry _).mpr ⟨n, by rw [hkey, hn], rfl⟩
      have hstays := (hspec registry _).mpr ⟨s.current host route registry n, rfl,
        Or.inr ⟨hholds, fun hmem => absurd (hkey ▸ hmem) hk⟩⟩
      obtain ⟨n', hn', heq⟩ := (hindexed' registry _).mp hstays
      rw [patched_name, patched_version, hkey, hnormalized, hs.normalized_foldl_record hk, hn] at hn'
      rw [heq, hcurrent, Except.ok.inj (Option.some.inj hn')]
  · intro hkeeps registry p'
    rw [hspec]
    constructor
    · rintro ⟨p, rfl, ⟨hk, n, hn, hp⟩ | ⟨hholds, hrenew⟩⟩
      · rw [patched_current hn hp, hnormalized]
        exact ⟨n, hn, hp.trans (hcurrent registry n).symm⟩
      · obtain ⟨n, hn, hp⟩ := (hindexed registry p).mp hholds
        by_cases hk : recordKey registry p.name p.version ∈ insertedKeys packages
        · -- a replaced record that left its package would have to renew the registry
          obtain ⟨q, -, -, hq⟩ : ∃ q ∈ packages, q.key = recordKey registry p.name p.version ∧
            t.records.get? (recordKey registry p.name p.version) = some (overrideRecord overrides q) :=
            exists_records_foldl_record hk
          have hq' := hwt.normalized (recordKey registry p.name p.version)
          rw [hq, Option.map_some] at hq'
          cases hr : normalizeRecord host (overrideRecord overrides q) with
          | ok n' => exact absurd ⟨p.name, p.version, n', hk, hr ▸ hq'⟩ (hrenew hk)
          | error e => exact absurd (hkeeps.withdrawn registry p.name p.version n e hk hn (hr ▸ hq')) (hrenew hk)
        · have hkept : patched host route t (insertedNames packages) registry (s.current host route registry n) =
              t.current host route registry n :=
            (patched_kept_iff hs ht hk hn).mpr (hkeeps.provided registry p.name p.version n hk hn)
          rw [← hp] at hkept
          refine ⟨n, ?_, by rw [hkept, hcurrent]⟩
          rw [patched_name, patched_version, hnormalized, hs.normalized_foldl_record hk, hn]
    · rintro ⟨n, hn, hp'⟩
      rw [hnormalized] at hn
      rw [hcurrent] at hp'
      by_cases hk : recordKey registry p'.name p'.version ∈ insertedKeys packages
      · exact ⟨p', (patched_current hn hp').symm, Or.inl ⟨hk, n, hn, hp'⟩⟩
      · have hn₀ := hn
        rw [hs.normalized_foldl_record hk] at hn₀
        have hkey := hs.recordKey_current route s hn₀
        have hholds : s.Holds registry (s.current host route registry n) :=
          (hindexed registry _).mpr ⟨n, by rw [hkey, hn₀], rfl⟩
        refine ⟨s.current host route registry n, ?_, Or.inr ⟨hholds, fun hmem => absurd (hkey ▸ hmem) hk⟩⟩
        rw [hp']
        exact ((patched_kept_iff hs ht hk hn₀).mpr (hkeeps.provided registry _ _ n hk hn₀)).symm

/-! ### Runs -/

/-- A sequence of batches, from nothing. -/
def run (host : HostPlatform) (overrides : OrdMap PackageName Requirement) (route : Routing)
    (batches : List (List PackageRecord)) : Except IndexError MetadataIndex :=
  batches.foldlM (insertRecords host overrides route) {}

theorem run_concat {batches : List (List PackageRecord)} {packages : List PackageRecord} {t : MetadataIndex} :
    run host overrides route (batches ++ [packages]) = .ok t ↔
      ∃ s, run host overrides route batches = .ok s ∧ s.insertRecords host overrides route packages = .ok t := by
  simp only [run, List.foldlM_append, List.foldlM_cons, List.foldlM_nil, bind_pure, bind_eq_ok]

/-- A run that succeeds has succeeded up to every batch. -/
theorem exists_run_of_append {done rest : List (List PackageRecord)} {t : MetadataIndex}
    (h : run host overrides route (done ++ rest) = .ok t) : ∃ s, run host overrides route done = .ok s := by
  rw [run, List.foldlM_append] at h
  obtain ⟨s, hs, -⟩ := bind_eq_ok.mp h
  exact ⟨s, hs⟩

theorem wellKeyed_empty : WellKeyed host {} := ⟨fun _ _ h => by simp at h, fun _ => rfl⟩

theorem wellKeyed_insertRecords {s s' : MetadataIndex} (hs : WellKeyed host s) {packages : List PackageRecord}
    (h : s.insertRecords host overrides route packages = .ok s') : WellKeyed host s' := by
  obtain ⟨hrecords, hnormalized, -⟩ := insertRecords_spec hs h
  have ht : WellKeyed host (packages.foldl (record host overrides) s) := hs.foldl_record packages
  exact ⟨fun k p hp => ht.key k p (hrecords ▸ hp), fun k => by rw [hnormalized, hrecords, ht.normalized]⟩

theorem wellKeyed_run {batches : List (List PackageRecord)} {t : MetadataIndex}
    (h : run host overrides route batches = .ok t) : WellKeyed host t :=
  foldlM_inv (I := fun _ s => WellKeyed host s) (fun _ _ _ _ hs hstep => wellKeyed_insertRecords hs hstep)
    wellKeyed_empty h

theorem indexed_empty : Indexed host route {} := by
  intro registry p
  constructor
  · rintro ⟨l, hl, -⟩
    simp at hl
  · rintro ⟨n, hn, -⟩
    simp at hn

/-- **Every state of a run is indexed exactly when every batch keeps the index.** -/
theorem forall_indexed_iff {batches : List (List PackageRecord)} {t : MetadataIndex}
    (h : run host overrides route batches = .ok t) :
    (∀ done rest s, done ++ rest = batches → run host overrides route done = .ok s → s.Indexed host route) ↔
      ∀ done packages rest s, done ++ packages :: rest = batches → run host overrides route done = .ok s →
        s.KeepsIndexed host overrides route packages := by
  constructor
  · intro hall done packages rest s hsplit hs
    have hsplit' : (done ++ [packages]) ++ rest = batches := by rw [← hsplit, List.append_assoc]; rfl
    obtain ⟨s', hs'⟩ := exists_run_of_append (hsplit'.symm ▸ h)
    obtain ⟨s₀, hs₀, hstep⟩ := run_concat.mp hs'
    obtain rfl := Except.ok.inj (hs.symm.trans hs₀)
    exact (indexed_insertRecords_iff (wellKeyed_run hs) (hall done _ s hsplit hs) hstep).mp
      (hall _ rest s' hsplit' hs')
  · intro hkeeps done
    -- the batches done so far, the last one first
    induction done using List.reverseRecOn with
    | nil =>
      intro rest s _ hs
      obtain rfl := Except.ok.inj hs
      exact indexed_empty
    | append_singleton done packages ih =>
      intro rest s' hsplit hs'
      obtain ⟨s, hs, hstep⟩ := run_concat.mp hs'
      have hsplit' : done ++ packages :: rest = batches := by rw [← hsplit, List.append_assoc]; rfl
      exact (indexed_insertRecords_iff (wellKeyed_run hs) (ih _ s hsplit' hs) hstep).mpr
        (hkeeps done packages rest s hsplit' hs)

/-! ### Order -/

/-- Every registry known has packages, in strict order. -/
def Ordered (s : MetadataIndex) : Prop :=
  ∀ registry l, s.metadata.get? registry = some l → l ≠ [] ∧
    l.Pairwise fun a b => RegistryMetadata.sortKey a < RegistryMetadata.sortKey b

theorem ordered_insertRecords {s s' : MetadataIndex} (hs : s.Ordered) {packages : List PackageRecord}
    (h : s.insertRecords host overrides route packages = .ok s') : s'.Ordered := by
  obtain ⟨t, metadata, additions, -, rfl, -, hregistry⟩ := insertRecords_eq h
  intro registry l hl
  obtain ⟨replaced, hget, hnone, hsome⟩ := hregistry registry
  obtain ⟨l₀, hl₀, rfl⟩ := Option.map_eq_some_iff.mp (hget.symm.trans hl)
  have hordered : l₀ ≠ [] ∧
      l₀.Pairwise fun a b => RegistryMetadata.sortKey a < RegistryMetadata.sortKey b := by
    cases hgroup : (OrdMap.group additions.flatten).get? registry with
    | none => exact hs registry l₀ ((hnone hgroup).symm.trans hl₀)
    | some added =>
      obtain ⟨l₁, hl₁, hsorted, hperm⟩ := hsome added hgroup
      obtain rfl := Option.some.inj (hl₁.symm.trans hl₀)
      refine ⟨fun hnil => (OrdMap.mem_of_get?_group hgroup).2 ?_, hsorted⟩
      rw [hnil] at hperm
      exact (List.append_eq_nil_iff.mp hperm.nil_eq.symm).2
  refine ⟨fun hnil => hordered.1 (List.map_eq_nil_iff.mp hnil), List.pairwise_map.mpr (hordered.2.imp ?_)⟩
  intro a b hab
  simpa only [RegistryMetadata.sortKey, patched_name, patched_version] using hab

theorem ordered_run {batches : List (List PackageRecord)} {t : MetadataIndex}
    (h : run host overrides route batches = .ok t) : t.Ordered :=
  foldlM_inv (I := fun _ s => Ordered s) (fun _ _ _ _ hs hstep => ordered_insertRecords hs hstep)
    (fun _ _ hl => by simp at hl) h

/-- Indexes with the same packages are the same. -/
theorem metadata_eq_of_holds {s t : MetadataIndex} (hs : s.Ordered) (ht : t.Ordered)
    (h : ∀ registry p, s.Holds registry p ↔ t.Holds registry p) : s.metadata = t.metadata := by
  have hsub : ∀ {s t : MetadataIndex}, s.Ordered → t.Ordered →
      (∀ registry p, s.Holds registry p ↔ t.Holds registry p) → ∀ registry l,
        s.metadata.get? registry = some l → t.metadata.get? registry = some l := by
    intro s t hs ht h registry l hl
    obtain ⟨p, hp⟩ := List.exists_mem_of_ne_nil l (hs registry l hl).1
    obtain ⟨l', hl', -⟩ := (h registry p).mp ⟨l, hl, hp⟩
    have hmem : ∀ q, q ∈ l ↔ q ∈ l' := fun q => by
      have hq := h registry q
      simp only [Holds, hl, hl', Option.some.injEq, exists_eq_left'] at hq
      exact hq
    have hsorted := (hs registry l hl).2
    have hsorted' := (ht registry l' hl').2
    have hnodup : ∀ {l : List PackageVersionMetadata},
        (l.Pairwise fun a b => RegistryMetadata.sortKey a < RegistryMetadata.sortKey b) → l.Nodup :=
      fun hl => hl.imp fun {a b} (hab : RegistryMetadata.sortKey a < _) (heq : a = b) =>
        absurd (heq ▸ hab) (lt_irrefl _)
    have hperm : l.Perm l' := (List.perm_ext_iff_of_nodup (hnodup hsorted) (hnodup hsorted')).mpr hmem
    rw [hl', hperm.eq_of_pairwise (fun a b _ _ hab hba => absurd hab (lt_asymm hba)) hsorted hsorted']
  refine OrdMap.ext_get? fun registry => Option.ext fun l => ⟨hsub hs ht h registry l, ?_⟩
  exact hsub ht hs (fun registry p => (h registry p).symm) registry l

/-! ### Runs without repeated records -/

theorem records_foldl (s : MetadataIndex) (l : List PackageRecord) :
    (l.foldl (record host overrides) s).records =
      s.records.insertAll (l.map fun p => (p.key, overrideRecord overrides p)) := by
  induction l generalizing s with
  | nil => rfl
  | cons p l ih => rw [List.foldl_cons, ih, record, overrideRecord_key]; rfl

/-- The records of a run are those of its batches. -/
theorem records_run {batches : List (List PackageRecord)} {t : MetadataIndex}
    (h : run host overrides route batches = .ok t) :
    t.records = OrdMap.ofList (batches.flatten.map fun p => (p.key, overrideRecord overrides p)) := by
  refine (foldlM_inv_done (I := fun done s => WellKeyed host s ∧
    s.records = OrdMap.ofList (done.flatten.map fun p => (p.key, overrideRecord overrides p))) ?_
      ⟨wellKeyed_empty, rfl⟩ h).2
  rintro done packages s s' ⟨hkeyed, hrecords⟩ hstep
  refine ⟨wellKeyed_insertRecords hkeyed hstep, ?_⟩
  rw [(insertRecords_spec hkeyed hstep).1, records_foldl, hrecords, List.flatten_append, List.map_append,
    OrdMap.ofList, OrdMap.ofList, OrdMap.insertAll_append]
  simp only [List.flatten_cons, List.flatten_nil, List.append_nil]

/-- A batch of new records keeps the index. -/
theorem keepsIndexed_of_new {s : MetadataIndex} (hs : WellKeyed host s) {packages : List PackageRecord}
    (hnew : ∀ k ∈ insertedKeys packages, s.records.get? k = none) :
    s.KeepsIndexed host overrides route packages := by
  refine ⟨fun registry name version n e hk hn _ => ?_, fun registry _ _ _ _ _ name requirement _ hoffers => ?_⟩
  · rw [hs.normalized, hnew _ hk] at hn
    cases hn
  · refine Or.inl ?_
    unfold offers offered at hoffers ⊢
    cases hroute : route registry (requirement.packageName name) with
    | error e => simp [hroute] at hoffers
    | ok target =>
      simp only [hroute] at hoffers ⊢
      obtain ⟨k, p, n, hp, hrest⟩ := candidateMatches_iff.mp hoffers
      have hk : k ∉ insertedKeys packages := fun hk => by
        rw [hnew k hk] at hp
        cases hp
      refine candidateMatches_iff.mpr ⟨k, p, n, (records_foldl_record hk).trans hp, ?_⟩
      rw [hs.normalized_foldl_record hk]
      exact hrest

/-- **Without repeated records** the index holds what it should. -/
theorem indexed_of_nodup {batches : List (List PackageRecord)} {t : MetadataIndex}
    (h : run host overrides route batches = .ok t) (hnodup : (batches.flatten.map PackageRecord.key).Nodup) :
    t.Indexed host route := by
  refine (forall_indexed_iff h).mpr (fun done packages rest s hsplit hs => ?_) batches [] t
    (List.append_nil _) h
  refine keepsIndexed_of_new (wellKeyed_run hs) fun k hk => ?_
  obtain ⟨p, hp, rfl⟩ := mem_insertedKeys.mp hk
  rw [records_run hs]
  refine OrdMap.get?_insertAll_of_not_mem _ fun hmem => ?_
  -- the record would be in two batches
  rw [List.map_map] at hmem
  obtain ⟨q, hq, hqk⟩ := List.mem_map.mp hmem
  rw [← hsplit, List.flatten_append, List.map_append, List.flatten_cons, List.map_append] at hnodup
  have hdisjoint := (List.nodup_append.mp hnodup).2.2
  exact hdisjoint q.key (List.mem_map_of_mem hq) p.key
    (List.mem_append_left _ (List.mem_map_of_mem hp)) hqk

/-- **Without repeated records their order does not matter.** -/
theorem run_eq_of_perm {batches batches' : List (List PackageRecord)} {t t' : MetadataIndex}
    (h : run host overrides route batches = .ok t) (h' : run host overrides route batches' = .ok t')
    (hperm : batches.flatten.Perm batches'.flatten) (hnodup : (batches.flatten.map PackageRecord.key).Nodup) :
    t = t' := by
  have hrecords : t.records = t'.records := by
    rw [records_run h, records_run h']
    refine OrdMap.insertAll_perm _ (hperm.map _) ?_
    rwa [List.map_map]
  have hnormalized : t.normalized = t'.normalized := OrdMap.ext_get? fun k => by
    rw [(wellKeyed_run h).normalized, (wellKeyed_run h').normalized, hrecords]
  have hindexed := indexed_of_nodup h hnodup
  have hindexed' := indexed_of_nodup h' ((hperm.map PackageRecord.key).nodup_iff.mp hnodup)
  have hmetadata : t.metadata = t'.metadata := by
    refine metadata_eq_of_holds (ordered_run h) (ordered_run h') fun registry p => ?_
    rw [hindexed registry p, hindexed' registry p, hnormalized]
    unfold current offers
    rw [candidateMatches_congr hrecords hnormalized]
  cases t
  cases t'
  simp_all only

/-- **Which runs keep the index**: those in which no batch makes a record worse.
Without repeated records the order of the records does not matter. -/
theorem indexed_run_iff {batches : List (List PackageRecord)} {t : MetadataIndex}
    (h : run host overrides route batches = .ok t) :
    ((∀ done rest s, done ++ rest = batches → run host overrides route done = .ok s → s.Indexed host route) ↔
      ∀ done packages rest s, done ++ packages :: rest = batches → run host overrides route done = .ok s →
        s.KeepsIndexed host overrides route packages) ∧
      ((batches.flatten.map PackageRecord.key).Nodup → ∀ batches' t',
        batches.flatten.Perm batches'.flatten → run host overrides route batches' = .ok t' → t' = t) :=
  ⟨forall_indexed_iff h, fun hnodup _ _ hperm h' => (run_eq_of_perm h h' hperm hnodup).symm⟩

end Inserting

/-! ### A record that stops normalizing -/

namespace Refresh

def fresh : PackageRecord where
  distTags := ∅
  registry := npmSource
  name := addonName
  version := .stable 1 0 0
  artifact := ""
  dependencies := ∅
  peerDependencies := ∅
  optionalPeerDependencies := ∅
  optionalDependencies := ∅
  platform := ⟨[], [], []⟩
  fixture := false

/-- The same version, with an empty peer range. -/
def refreshed : PackageRecord :=
  { fresh with peerDependencies := (∅ : OrdMap String String).insert "peer" "" }

def ownRegistry : Routing := fun parent _ => .ok parent

def normal : NormalizedRecord := ⟨⟨addonName, .stable 1 0 0, ∅, ∅, ∅, ∅⟩, ∅⟩

def indexed : MetadataIndex where
  records := (∅ : OrdMap PackageRecordKey PackageRecord).insert fresh.key fresh
  normalized :=
    (∅ : OrdMap PackageRecordKey (Except CandidateRejection NormalizedRecord)).insert fresh.key (.ok normal)
  metadata := (∅ : OrdMap PackageSource (List PackageVersionMetadata)).insert npmSource [normal.metadata]

/-- The record is replaced, the package stays. -/
def stale : MetadataIndex :=
  { indexed with
    records := indexed.records.insert fresh.key refreshed
    normalized := indexed.normalized.insert fresh.key
      (.error ⟨.emptyDependencyRequirement, some .peerDependency⟩) }

theorem run_fresh : run glibcHost ∅ ownRegistry [[fresh]] = .ok indexed := rfl

theorem insertRecords_refreshed :
    indexed.insertRecords glibcHost ∅ ownRegistry [refreshed] = .ok stale := rfl

theorem run_refreshed : run glibcHost ∅ ownRegistry [[fresh], [refreshed]] = .ok stale :=
  show run glibcHost ∅ ownRegistry ([[fresh]] ++ [[refreshed]]) = _ from
    run_concat.mpr ⟨indexed, run_fresh, insertRecords_refreshed⟩

theorem not_indexed_stale : ¬ stale.Indexed glibcHost ownRegistry := by
  intro h
  obtain ⟨n, hn, -⟩ := (h npmSource normal.metadata).mp ⟨[normal.metadata], rfl, List.mem_singleton_self _⟩
  have herror : stale.normalized.get? (recordKey npmSource normal.metadata.name normal.metadata.version) =
      some (.error ⟨.emptyDependencyRequirement, some .peerDependency⟩) := OrdMap.get?_insert_self _ _ _
  rw [herror] at hn
  cases hn

theorem indexed_run_iff_refreshed :
    run glibcHost ∅ ownRegistry [[fresh], [refreshed]] = .ok stale ∧
      ((∀ done rest s, done ++ rest = [[fresh], [refreshed]] → run glibcHost ∅ ownRegistry done = .ok s →
          s.Indexed glibcHost ownRegistry) ↔
        ∀ done packages rest s, done ++ packages :: rest = [[fresh], [refreshed]] →
          run glibcHost ∅ ownRegistry done = .ok s → s.KeepsIndexed glibcHost ∅ ownRegistry packages) :=
  ⟨run_refreshed, (indexed_run_iff run_refreshed).1⟩

/-- A package outlives its record when the batch brings nothing else. -/
theorem not_forall_indexed : ¬ ∀ (host : HostPlatform) (overrides : OrdMap PackageName Requirement)
    (route : Routing) (batches : List (List PackageRecord)) (t : MetadataIndex),
    run host overrides route batches = .ok t → t.Indexed host route :=
  fun h => not_indexed_stale (h _ _ _ _ _ run_refreshed)

end Refresh

end MetadataIndex

end Tapid
