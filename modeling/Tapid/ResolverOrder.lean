/-
Resolution does not see the order of its input.

Records of a package are kept in metadata order, but the candidate that is
selected has the greatest key, and keys of different records differ.  The
constraints of the roots are sets in key order, so the worklist starts alike
and takes the same steps.  The limits are on totals; the one total that sees
how metadata is cut into list entries is the byte total, which counts the
registry of every entry.

* `checkRequest_eq` — the limits are on totals;
* `maxByKey_perm`, `selectGraph_perm` — selection and the worklist;
* `resolveGraph_order_independent` — the whole resolution.
-/
import Tapid.ResolverSound

namespace Tapid

open Text Fallible

/-! ### Limits count totals -/

/-- Roots and metadata are within the limits. -/
structure WithinLimits (ds : List Dependency) (metadata : List RegistryMetadata) : Prop where
  packages : (metadata.map fun r => r.packages.length).sum ≤ maxPackages
  relationships : (metadata.map fun r =>
    (r.packages.map PackageVersionMetadata.relationships).sum).sum ≤ maxRelationships
  bytes : (metadata.map fun r => byteLen r.registry.identity.toList +
      (r.packages.map PackageVersionMetadata.bytes).sum).sum +
    (ds.map fun d => byteLen d.registry.identity.toList + byteLen d.name.text.toList +
      d.requirement.retainedBytes).sum ≤ maxMetadataBytes
  roots : ds.length ≤ maxDependencies

/-- Totals a metadata check accepts. -/
def MetadataTotals.Within (t : MetadataTotals) : Prop :=
  t.packages ≤ maxPackages ∧ t.relationships ≤ maxRelationships ∧ t.bytes ≤ maxMetadataBytes

instance MetadataTotals.Within.instDecidable (t : MetadataTotals) : Decidable t.Within :=
  inferInstanceAs (Decidable (_ ∧ _ ∧ _))

namespace MetadataTotals

def addRecord (t : MetadataTotals) (p : PackageVersionMetadata) : MetadataTotals :=
  { t with relationships := t.relationships + p.relationships, bytes := t.bytes + p.bytes }

def addRegistry (t : MetadataTotals) (item : PackageSource × List PackageVersionMetadata) :
    MetadataTotals :=
  item.2.foldl addRecord { t with
    packages := t.packages + item.2.length
    bytes := t.bytes + byteLen item.1.identity.toList }

theorem foldl_addRecord (l : List PackageVersionMetadata) (t : MetadataTotals) :
    l.foldl addRecord t = ⟨t.packages, t.relationships + (l.map PackageVersionMetadata.relationships).sum,
      t.bytes + (l.map PackageVersionMetadata.bytes).sum⟩ := by
  induction l generalizing t with
  | nil => rfl
  | cons p l ih =>
    rw [List.foldl_cons, ih]
    simp [addRecord, Nat.add_assoc]

theorem foldl_addRegistry (metadata : List RegistryMetadata) (t : MetadataTotals) :
    (metadata.map fun item => (item.registry, item.packages)).foldl addRegistry t =
      ⟨t.packages + (metadata.map fun r => r.packages.length).sum,
        t.relationships + (metadata.map fun r =>
          (r.packages.map PackageVersionMetadata.relationships).sum).sum,
        t.bytes + (metadata.map fun r => byteLen r.registry.identity.toList +
          (r.packages.map PackageVersionMetadata.bytes).sum).sum⟩ := by
  induction metadata generalizing t with
  | nil => rfl
  | cons r metadata ih =>
    rw [List.map_cons, List.foldl_cons, ih, addRegistry, foldl_addRecord]
    simp [Nat.add_assoc]

end MetadataTotals

theorem checkRecord_eq {t : MetadataTotals} (ht : t.Within) (p : PackageVersionMetadata) :
    checkRecord t p =
      if (t.addRecord p).Within then .ok (t.addRecord p) else .error .metadataLimitExceeded := by
  obtain ⟨hp, hr, hb⟩ := ht
  by_cases h1 : maxRelationships < t.relationships + p.relationships
  · rw [if_neg (fun h => absurd h.2.1 (Nat.not_le.mpr h1))]
    simp [checkRecord, rejectIf, h1, bind, Except.bind]
  · by_cases h2 : maxMetadataBytes < t.bytes + p.bytes
    · rw [if_neg (fun h => absurd h.2.2 (Nat.not_le.mpr h2))]
      simp [checkRecord, rejectIf, h1, h2, bind, Except.bind]
    · rw [if_pos ⟨hp, Nat.not_lt.mp h1, Nat.not_lt.mp h2⟩]
      simp [checkRecord, rejectIf, h1, h2, bind, Except.bind, pure, Except.pure,
        MetadataTotals.addRecord]

theorem checkRegistry_eq {t : MetadataTotals} (ht : t.Within)
    (item : PackageSource × List PackageVersionMetadata) : checkRegistry t item.1 item.2 =
      if (t.addRegistry item).Within then .ok (t.addRegistry item)
      else .error .metadataLimitExceeded := by
  have hle : ∀ (l : List PackageVersionMetadata) (s : MetadataTotals),
      (l.foldl MetadataTotals.addRecord s).Within → s.Within := by
    intro l s h
    rw [MetadataTotals.foldl_addRecord] at h
    exact ⟨h.1, le_trans (Nat.le_add_right _ _) h.2.1, le_trans (Nat.le_add_right _ _) h.2.2⟩
  unfold checkRegistry
  by_cases hlimit : maxPackages < t.packages + item.2.length ∨
      maxMetadataBytes < t.bytes + byteLen item.1.identity.toList
  · rw [if_neg ?_]
    · simp [rejectIf, hlimit, bind, Except.bind]
    · intro h
      obtain ⟨hp, _, hb⟩ := hle _ _ h
      simp only at hp hb
      omega
  · have hstart : MetadataTotals.Within { t with
        packages := t.packages + item.2.length
        bytes := t.bytes + byteLen item.1.identity.toList } := by
      rw [not_or, Nat.not_lt, Nat.not_lt] at hlimit
      exact ⟨hlimit.1, ht.2.1, hlimit.2⟩
    simp only [rejectIf, hlimit, if_false, ok_bind]
    exact Loop.foldlM_budget (fun s p hs => checkRecord_eq hs p) (fun s p h => hle [p] s h) hstart

/-- Metadata is refused exactly when its totals exceed a limit. -/
theorem validateMetadata_eq (metadata : List RegistryMetadata) :
    validateMetadata (metadata.map fun item => (item.registry, item.packages)) =
      let t := (metadata.map fun item => (item.registry, item.packages)).foldl
        MetadataTotals.addRegistry ⟨0, 0, 0⟩
      if t.Within then .ok t.bytes else .error .metadataLimitExceeded := by
  have hmono : ∀ (s : MetadataTotals) (item : PackageSource × List PackageVersionMetadata),
      (s.addRegistry item).Within → s.Within := by
    intro s item h
    rw [MetadataTotals.addRegistry, MetadataTotals.foldl_addRecord] at h
    obtain ⟨hp, hr, hb⟩ := h
    simp only at hp hr hb
    exact ⟨by omega, by omega, by omega⟩
  have hfold := Loop.foldlM_budget (P := MetadataTotals.Within)
    (l := metadata.map fun item => (item.registry, item.packages))
    (fun s item hs => checkRegistry_eq hs item) hmono
    (show MetadataTotals.Within ⟨0, 0, 0⟩ from ⟨Nat.zero_le _, Nat.zero_le _, Nat.zero_le _⟩)
  unfold validateMetadata
  rw [hfold]
  simp only
  split_ifs
  · rfl
  · rfl

theorem foldlM_checkDependencyBytes (ds : List Dependency) {bytes : Nat}
    (h : bytes ≤ maxMetadataBytes) : ds.foldlM checkDependencyBytes bytes =
      let total := bytes + (ds.map fun d => byteLen d.registry.identity.toList +
        byteLen d.name.text.toList + d.requirement.retainedBytes).sum
      if total ≤ maxMetadataBytes then .ok total else .error .metadataLimitExceeded := by
  have hstep : ∀ (b : Nat) (d : Dependency), b ≤ maxMetadataBytes → checkDependencyBytes b d =
      if b + (byteLen d.registry.identity.toList + byteLen d.name.text.toList +
          d.requirement.retainedBytes) ≤ maxMetadataBytes
      then .ok (b + (byteLen d.registry.identity.toList + byteLen d.name.text.toList +
        d.requirement.retainedBytes)) else .error .metadataLimitExceeded := by
    intro b d _
    have hassoc : b + byteLen d.registry.identity.toList + byteLen d.name.text.toList +
        d.requirement.retainedBytes = b + (byteLen d.registry.identity.toList +
        byteLen d.name.text.toList + d.requirement.retainedBytes) := by omega
    simp only [checkDependencyBytes, hassoc]
    by_cases hb : maxMetadataBytes < b + (byteLen d.registry.identity.toList +
        byteLen d.name.text.toList + d.requirement.retainedBytes)
    · rw [if_neg (Nat.not_le.mpr hb)]
      simp [rejectIf, hb, bind, Except.bind]
    · rw [if_pos (Nat.not_lt.mp hb)]
      simp [rejectIf, hb, bind, Except.bind, pure, Except.pure]
  have hfoldl : ∀ (l : List Dependency) (b : Nat), l.foldl (fun b d => b +
      (byteLen d.registry.identity.toList + byteLen d.name.text.toList + d.requirement.retainedBytes)) b =
      b + (l.map fun d => byteLen d.registry.identity.toList + byteLen d.name.text.toList +
        d.requirement.retainedBytes).sum := by
    intro l
    induction l with
    | nil => exact fun b => rfl
    | cons d l ih =>
      intro b
      rw [List.foldl_cons, ih, List.map_cons, List.sum_cons, Nat.add_assoc]
  have hbudget := Loop.foldlM_budget hstep (fun b d hb => le_trans (Nat.le_add_right _ _) hb) h (l := ds)
  rw [hbudget, hfoldl]

instance WithinLimits.instDecidable (ds : List Dependency) (metadata : List RegistryMetadata) :
    Decidable (WithinLimits ds metadata) :=
  decidable_of_iff (_ ∧ _ ∧ _ ∧ _)
    ⟨fun h => ⟨h.1, h.2.1, h.2.2.1, h.2.2.2⟩, fun h => ⟨h.packages, h.relationships, h.bytes, h.roots⟩⟩

/-- **The checks made first** depend on totals only. -/
theorem checkRequest_eq (ds : List Dependency) (metadata : List RegistryMetadata)
    (options : ResolutionOptions) : checkRequest ds metadata options =
      if options.frozen then .error (.unsupportedMode "frozen resolution requires a lockfile replay input")
      else if options.offline ∧ metadata = [] then
        .error (.unsupportedMode "offline resolution requires a cached snapshot")
      else if WithinLimits ds metadata then .ok () else .error .metadataLimitExceeded := by
  unfold checkRequest
  rw [validateMetadata_eq, MetadataTotals.foldl_addRegistry]
  simp only [Nat.zero_add, MetadataTotals.Within]
  by_cases hf : options.frozen = true
  · simp [rejectIf, hf, bind, Except.bind]
  by_cases ho : options.offline = true ∧ metadata = []
  · simp [rejectIf, hf, ho, bind, Except.bind]
  rw [if_neg hf, if_neg ho]
  simp only [rejectIf, hf, ho, if_false, ok_bind, Bool.false_eq_true]
  by_cases hw : WithinLimits ds metadata
  · have hbytes := le_trans (Nat.le_add_right _ _) hw.bytes
    rw [if_pos hw, if_pos ⟨hw.packages, hw.relationships, hbytes⟩]
    simp only [ok_bind, if_neg (Nat.not_lt.mpr hw.roots), foldlM_checkDependencyBytes ds hbytes,
      if_pos hw.bytes]
    rfl
  · rw [if_neg hw]
    by_cases hm : (metadata.map fun r => r.packages.length).sum ≤ maxPackages ∧
        (metadata.map fun r =>
          (r.packages.map PackageVersionMetadata.relationships).sum).sum ≤ maxRelationships ∧
        (metadata.map fun r => byteLen r.registry.identity.toList +
          (r.packages.map PackageVersionMetadata.bytes).sum).sum ≤ maxMetadataBytes
    · rw [if_pos hm]
      by_cases hroots : maxDependencies < ds.length
      · simp [hroots, bind, Except.bind]
      · have hover : ¬ (metadata.map fun r => byteLen r.registry.identity.toList +
            (r.packages.map PackageVersionMetadata.bytes).sum).sum +
          (ds.map fun d => byteLen d.registry.identity.toList + byteLen d.name.text.toList +
            d.requirement.retainedBytes).sum ≤ maxMetadataBytes :=
          fun hb => hw ⟨hm.1, hm.2.1, hb, Nat.not_lt.mp hroots⟩
        simp only [ok_bind, if_neg hroots, foldlM_checkDependencyBytes ds hm.2.2, if_neg hover]
        rfl
    · rw [if_neg hm]
      rfl

/-! ### Selection does not see the order -/

/-- A step that keeps the better of its value and the element read. -/
def KeepsBest {α κ : Type} [LinearOrder κ] (key : α → κ) (f : Option α → α → Option α) : Prop :=
  ∀ best c, ∃ d, f best c = some d ∧ key c ≤ key d ∧ ∀ b ∈ best, key b ≤ key d

theorem KeepsBest.foldl {α κ : Type} [LinearOrder κ] {key : α → κ} {f : Option α → α → Option α}
    (hf : KeepsBest key f) (l : List α) (best : Option α) :
    (l = [] ∧ l.foldl f best = best) ∨
      ∃ a, l.foldl f best = some a ∧ (∀ b ∈ l, key b ≤ key a) ∧ ∀ b ∈ best, key b ≤ key a := by
  induction l generalizing best with
  | nil => exact Or.inl ⟨rfl, rfl⟩
  | cons c l ih =>
    right
    obtain ⟨d, hd, hcd, hold⟩ := hf best c
    rw [List.foldl_cons, hd]
    rcases ih (some d) with ⟨rfl, hfold⟩ | ⟨a, hfold, hl, hda⟩
    · exact ⟨d, hfold, by simpa using hcd, hold⟩
    · have hda := hda d rfl
      refine ⟨a, hfold, fun b hb => ?_, fun b hb => (hold b hb).trans hda⟩
      rcases List.mem_cons.mp hb with rfl | hb
      · exact hcd.trans hda
      · exact hl b hb

/-- An element of greatest key, if there is an element. -/
theorem maxByKey_cases {α κ : Type} [LinearOrder κ] (key : α → κ) (l : List α) :
    (l = [] ∧ maxByKey key l = none) ∨
      ∃ a ∈ l, maxByKey key l = some a ∧ ∀ b ∈ l, key b ≤ key a := by
  have hcases : (l = [] ∧ maxByKey key l = none) ∨ ∃ a, maxByKey key l = some a ∧
      (∀ b ∈ l, key b ≤ key a) ∧ ∀ b ∈ (none : Option α), key b ≤ key a := by
    unfold maxByKey
    refine KeepsBest.foldl ?_ l none
    intro best c
    cases best with
    | none => exact ⟨c, rfl, le_refl _, by simp⟩
    | some b =>
      by_cases hle : key b ≤ key c
      · exact ⟨c, if_pos hle, le_refl _, by simpa using hle⟩
      · exact ⟨b, if_neg hle, le_of_lt (not_le.mp hle), by simp⟩
  rcases hcases with hnil | ⟨a, hmax, hl, _⟩
  · exact Or.inl hnil
  · exact Or.inr ⟨a, mem_of_maxByKey hmax, hmax, hl⟩

/-- **The maximum of different keys does not depend on the order.** -/
theorem maxByKey_perm {α κ : Type} [LinearOrder κ] {key : α → κ} {l l' : List α} (h : l.Perm l')
    (hkey : ∀ a ∈ l, ∀ b ∈ l, key a = key b → a = b) : maxByKey key l = maxByKey key l' := by
  rcases maxByKey_cases key l with ⟨rfl, _⟩ | ⟨a, ha, hmax, hle⟩
  · rw [List.nil_perm.mp h]
  · rcases maxByKey_cases key l' with ⟨rfl, _⟩ | ⟨b, hb, hmax', hle'⟩
    · rw [List.perm_nil.mp h]
    · have hb' := h.mem_iff.mpr hb
      rw [hmax, hmax', hkey a ha b hb' (le_antisymm (hle' a (h.mem_iff.mp ha)) (hle b hb'))]

/-- Metadata with the same records of the same registries. -/
def SameRecords (metadata metadata' : List RegistryMetadata) : Prop :=
  (indexEntries metadata).Perm (indexEntries metadata')

theorem knownIds_eq (metadata : List RegistryMetadata) : knownIds metadata =
    (indexEntries metadata).map fun e => ⟨(ofLex e.1).1, (ofLex e.1).2, e.2.version⟩ := by
  simp [knownIds, indexEntries, List.map_flatMap, List.map_map, Function.comp_def, packageKey]

section Same

variable {metadata metadata' : List RegistryMetadata} (h : SameRecords metadata metadata')
include h

/-- Candidates of a package, in some order. -/
theorem SameRecords.candidates (key : PackageKey) :
    (((candidateIndex metadata).get? key).getD []).Perm
        (((candidateIndex metadata').get? key).getD []) ∧
      (candidateIndex metadata).contains key = (candidateIndex metadata').contains key := by
  have hperm : (OrdMap.valuesAt (indexEntries metadata) key).Perm
      (OrdMap.valuesAt (indexEntries metadata') key) := (h.filter _).map _
  have hnil : OrdMap.valuesAt (indexEntries metadata) key = [] ↔
      OrdMap.valuesAt (indexEntries metadata') key = [] := by
    constructor
    · intro hn
      rw [hn] at hperm
      exact List.nil_perm.mp hperm
    · intro hn
      rw [hn] at hperm
      exact List.perm_nil.mp hperm
  simp only [candidateIndex, OrdMap.contains, OrdMap.get?_group]
  by_cases hn : OrdMap.valuesAt (indexEntries metadata) key = []
  · rw [if_pos hn, if_pos (hnil.mp hn)]
    exact ⟨List.Perm.refl _, rfl⟩
  · rw [if_neg hn, if_neg fun hn' => hn (hnil.mpr hn')]
    exact ⟨hperm, rfl⟩

theorem SameRecords.selectPackage (hunique : (knownIds metadata).Nodup) (registry : PackageSource)
    (name : PackageName) (requirements : OrdSet Requirement) (preferred : ResolutionPreferences)
    (preferredRoot : Option PackageVersion) (origin : RequirementOrigin) :
    selectPackage registry name requirements (candidateIndex metadata) preferred preferredRoot origin =
      selectPackage registry name requirements (candidateIndex metadata') preferred preferredRoot
        origin := by
  obtain ⟨hperm, _⟩ := h.candidates (packageKey registry name)
  generalize hm : ((candidateIndex metadata).get? (packageKey registry name)).getD [] = l at hperm
  generalize hm' : ((candidateIndex metadata').get? (packageKey registry name)).getD [] = l' at hperm
  -- versions tell the candidates of one package apart
  have hversion : ∀ a ∈ l, ∀ b ∈ l, a.version = b.version → a = b := by
    intro a ha b hb hab
    have hentry : ∀ c ∈ l, (packageKey registry name, c) ∈ indexEntries metadata := by
      intro c hc
      rw [← hm, candidateIndex, OrdMap.get?_group] at hc
      split_ifs at hc
      · simp at hc
      · exact OrdMap.mem_valuesAt.mp hc
    rw [knownIds_eq] at hunique
    have heq := List.inj_on_of_nodup_map hunique (hentry a ha) (hentry b hb) (by simp [hab])
    exact (Prod.mk.inj heq).2
  have hmax : maxByKey (preferenceKey registry name preferred preferredRoot)
      (l.filter (satisfiesAll requirements)) =
      maxByKey (preferenceKey registry name preferred preferredRoot)
        (l'.filter (satisfiesAll requirements)) := by
    refine maxByKey_perm (hperm.filter _) fun a ha b hb hkey => ?_
    refine hversion a (List.mem_filter.mp ha).1 b (List.mem_filter.mp hb).1 ?_
    exact (Prod.mk.inj (toLex.injective (Prod.mk.inj (toLex.injective hkey)).2)).2
  have havail : available l = available l' := by
    rw [available, available]
    congr 2
    refine OrdSet.ext_mem fun v => ?_
    rw [OrdSet.mem_ofList, OrdSet.mem_ofList, (hperm.map _).mem_iff]
  simp only [Tapid.selectPackage, hm, hm', hmax, havail]

theorem SameRecords.selectKnown (hunique : (knownIds metadata).Nodup) :
    (fun registry name requirements => selectKnown registry name requirements (candidateIndex metadata)) =
      fun registry name requirements =>
        Tapid.selectKnown registry name requirements (candidateIndex metadata') := by
  funext registry name requirements preferred preferredRoot origin
  simp only [Tapid.selectKnown, h.selectPackage hunique, (h.candidates (packageKey registry name)).2]

theorem SameRecords.selectRoot (hunique : (knownIds metadata).Nodup) (preferred : ResolutionPreferences) :
    selectRoot (candidateIndex metadata) preferred = Tapid.selectRoot (candidateIndex metadata') preferred := by
  have hk := h.selectKnown hunique
  funext state constraint
  have hk' := congrFun (congrFun (congrFun hk (ofLex constraint.1).1)
    (ofLex (ofLex constraint.1).2).2) constraint.2
  simp only [Tapid.selectRoot]
  rw [show Tapid.selectKnown (ofLex constraint.1).1 (ofLex (ofLex constraint.1).2).2 constraint.2
    (candidateIndex metadata) = _ from hk']

theorem SameRecords.expandNext (hunique : (knownIds metadata).Nodup) (preferred : ResolutionPreferences)
    (route : Routing) : expandNext (candidateIndex metadata) preferred route =
      Tapid.expandNext (candidateIndex metadata') preferred route := by
  have hk := h.selectKnown hunique
  have hchild : resolveChild (candidateIndex metadata) preferred route =
      resolveChild (candidateIndex metadata') preferred route := by
    funext parent dependency requirement
    simp only [resolveChild]
    have hk' := fun registry => congrFun (congrFun (congrFun hk registry)
      (requirement.packageName dependency)) (OrdSet.ofList [requirement])
    simp only [fun registry => show Tapid.selectKnown registry (requirement.packageName dependency)
      (OrdSet.ofList [requirement]) (candidateIndex metadata) = _ from hk' registry]
  have hexpand : expandDependency (candidateIndex metadata) preferred route =
      expandDependency (candidateIndex metadata') preferred route := by
    funext parent state declared
    simp only [expandDependency, hchild]
  funext state
  simp only [Tapid.expandNext, hexpand]

end Same

/-- Constraints do not see the order of the roots. -/
theorem rootConstraints_perm {ds ds' : List Dependency} (h : ds.Perm ds') :
    rootConstraints ds = rootConstraints ds' := by
  refine OrdMap.ext_get? fun key => ?_
  have hperm : (OrdMap.valuesAt (rootConstraintEntries ds) key).Perm
      (OrdMap.valuesAt (rootConstraintEntries ds') key) := ((h.map _).filter _).map _
  have hset : OrdSet.ofList (OrdMap.valuesAt (rootConstraintEntries ds) key) =
      OrdSet.ofList (OrdMap.valuesAt (rootConstraintEntries ds') key) :=
    OrdSet.ext_mem fun r => by rw [OrdSet.mem_ofList, OrdSet.mem_ofList, hperm.mem_iff]
  rw [rootConstraints, rootConstraints, OrdMap.get?_mapVal, OrdMap.get?_mapVal, OrdMap.get?_group,
    OrdMap.get?_group]
  by_cases hn : OrdMap.valuesAt (rootConstraintEntries ds) key = []
  · rw [if_pos hn]
    rw [hn] at hperm
    rw [if_pos (List.nil_perm.mp hperm)]
  · rw [if_neg hn, if_neg ?_, Option.map_some, Option.map_some, hset]
    intro hn'
    rw [hn'] at hperm
    exact hn (List.perm_nil.mp hperm)

/-- **Roots and their transitive dependencies do not see the order.** -/
theorem selectGraph_perm {ds ds' : List Dependency} {metadata metadata' : List RegistryMetadata}
    (hds : ds.Perm ds') (h : SameRecords metadata metadata') (hunique : (knownIds metadata).Nodup)
    (route : Routing) (preferred : ResolutionPreferences) :
    selectGraph ds metadata route preferred = selectGraph ds' metadata' route preferred := by
  have hfuel : worklistFuel ds metadata = worklistFuel ds' metadata' := by
    rw [worklistFuel, worklistFuel, rootConstraints_perm hds, knownIds_eq, knownIds_eq,
      List.length_map, List.length_map, h.length_eq]
  rw [selectGraph, selectGraph, selectRoots, selectRoots, rootConstraints_perm hds,
    h.selectRoot hunique, h.expandNext hunique, hfuel]

/-! ### Rearranged input -/

/-- The same list entries and records in another order. -/
inductive Permuted : List RegistryMetadata → List RegistryMetadata → Prop
  | perm {m m' : List RegistryMetadata} : m.Perm m' → Permuted m m'
  | records (a b : List RegistryMetadata) (registry : PackageSource)
      {r r' : List PackageVersionMetadata} : r.Perm r' →
      Permuted (a ++ ⟨registry, r⟩ :: b) (a ++ ⟨registry, r'⟩ :: b)
  | trans {m m' m'' : List RegistryMetadata} : Permuted m m' → Permuted m' m'' → Permuted m m''

/-- The same records, with those of a registry also split over list entries or
joined. -/
inductive Rearranged : List RegistryMetadata → List RegistryMetadata → Prop
  | permuted {m m' : List RegistryMetadata} : Permuted m m' → Rearranged m m'
  | split (a b : List RegistryMetadata) (registry : PackageSource) (r r' : List PackageVersionMetadata) :
      Rearranged (a ++ ⟨registry, r ++ r'⟩ :: b) (a ++ ⟨registry, r⟩ :: ⟨registry, r'⟩ :: b)
  | symm {m m' : List RegistryMetadata} : Rearranged m m' → Rearranged m' m
  | trans {m m' m'' : List RegistryMetadata} : Rearranged m m' → Rearranged m' m'' → Rearranged m m''

theorem indexEntries_append (a b : List RegistryMetadata) :
    indexEntries (a ++ b) = indexEntries a ++ indexEntries b := List.flatMap_append

theorem indexEntries_cons (registry : PackageSource) (r : List PackageVersionMetadata)
    (b : List RegistryMetadata) : indexEntries (⟨registry, r⟩ :: b) =
      r.map (fun p => (packageKey registry p.name, p)) ++ indexEntries b := by
  rw [indexEntries, List.flatMap_cons]
  rfl

theorem Permuted.sameRecords {m m' : List RegistryMetadata} (h : Permuted m m') :
    SameRecords m m' := by
  induction h with
  | perm h => exact h.flatMap_right _
  | records a b registry h =>
    rw [SameRecords, indexEntries_append, indexEntries_append, indexEntries_cons, indexEntries_cons]
    exact List.Perm.append_left _ (List.Perm.append_right _ (h.map _))
  | trans _ _ ih ih' => exact ih.trans ih'

theorem Rearranged.sameRecords {m m' : List RegistryMetadata} (h : Rearranged m m') :
    SameRecords m m' := by
  induction h with
  | permuted h => exact h.sameRecords
  | split a b registry r r' =>
    rw [SameRecords, indexEntries_append, indexEntries_append, indexEntries_cons, indexEntries_cons,
      indexEntries_cons, List.map_append, List.append_assoc]
  | symm _ ih => exact ih.symm
  | trans _ _ ih ih' => exact ih.trans ih'

theorem Permuted.nil_iff {m m' : List RegistryMetadata} (h : Permuted m m') : m = [] ↔ m' = [] := by
  induction h with
  | perm h =>
    constructor
    · rintro rfl
      exact List.nil_perm.mp h
    · rintro rfl
      exact List.perm_nil.mp h
  | records a b registry h => simp
  | trans _ _ ih ih' => exact ih.trans ih'

theorem Rearranged.nil_iff {m m' : List RegistryMetadata} (h : Rearranged m m') :
    m = [] ↔ m' = [] := by
  induction h with
  | permuted h => exact h.nil_iff
  | split a b registry r r' => simp
  | symm _ ih => exact ih.symm
  | trans _ _ ih ih' => exact ih.trans ih'

/-- A total over list entries whose summand does not see the order of records. -/
theorem Permuted.sum_eq {m m' : List RegistryMetadata} (h : Permuted m m') (f : RegistryMetadata → Nat)
    (hf : ∀ registry r r', r.Perm r' → f ⟨registry, r⟩ = f ⟨registry, r'⟩) :
    (m.map f).sum = (m'.map f).sum := by
  induction h with
  | perm h => exact (h.map f).sum_eq
  | records a b registry h => simp [hf registry _ _ h]
  | trans _ _ ih ih' => exact ih.trans ih'

/-- Limits do not see the order. -/
theorem withinLimits_permuted {ds ds' : List Dependency} {m m' : List RegistryMetadata}
    (hds : ds.Perm ds') (h : Permuted m m') : WithinLimits ds m ↔ WithinLimits ds' m' := by
  have hp := h.sum_eq (fun r => r.packages.length) fun _ _ _ hr => hr.length_eq
  have hr := h.sum_eq (fun r => (r.packages.map PackageVersionMetadata.relationships).sum)
    fun _ _ _ hr => (hr.map _).sum_eq
  have hb := h.sum_eq (fun r => byteLen r.registry.identity.toList +
    (r.packages.map PackageVersionMetadata.bytes).sum) fun registry _ _ hr => by
      show _ + _ = _ + _
      rw [(hr.map PackageVersionMetadata.bytes).sum_eq]
  have hd := (hds.map fun d => byteLen d.registry.identity.toList + byteLen d.name.text.toList +
    d.requirement.retainedBytes).sum_eq
  constructor
  · intro hw
    exact ⟨hp ▸ hw.packages, hr ▸ hw.relationships, by rw [← hb, ← hd]; exact hw.bytes,
      hds.length_eq ▸ hw.roots⟩
  · intro hw
    exact ⟨hp ▸ hw.packages, hr ▸ hw.relationships, by rw [hb, hd]; exact hw.bytes,
      hds.length_eq ▸ hw.roots⟩

/-- Rearranged input within the same limits gives the same result. -/
theorem resolveGraph_eq_of_rearranged {ds ds' : List Dependency} {m m' : List RegistryMetadata}
    (hds : ds.Perm ds') (h : Rearranged m m') (hunique : (knownIds m).Nodup)
    (hlimits : WithinLimits ds m ↔ WithinLimits ds' m') (options : ResolutionOptions) (route : Routing)
    (preferred : ResolutionPreferences) :
    resolveGraphWithPreferences ds m options route preferred =
      resolveGraphWithPreferences ds' m' options route preferred := by
  have hcheck : checkRequest ds m options = checkRequest ds' m' options := by
    rw [checkRequest_eq, checkRequest_eq]
    simp only [h.nil_iff, hlimits]
  rw [resolveGraphWithPreferences, resolveGraphWithPreferences, hcheck,
    selectGraph_perm hds h.sameRecords hunique]

/-- **Input-order independence.**  Reordered roots, list entries and records give
the identical result; so do split or joined list entries, unless the limits
take one of the two only. -/
theorem resolveGraph_order_independent {ds ds' : List Dependency} {m m' : List RegistryMetadata}
    (hds : ds.Perm ds') (h : Rearranged m m') (hunique : (knownIds m).Nodup)
    (options : ResolutionOptions) (route : Routing) (preferred : ResolutionPreferences) :
    (Permuted m m' → resolveGraphWithPreferences ds m options route preferred =
      resolveGraphWithPreferences ds' m' options route preferred) ∧
    ((WithinLimits ds m ↔ WithinLimits ds' m') →
      resolveGraphWithPreferences ds m options route preferred =
        resolveGraphWithPreferences ds' m' options route preferred) :=
  ⟨fun hp => resolveGraph_eq_of_rearranged hds h hunique (withinLimits_permuted hds hp) options route
      preferred,
    fun hlimits => resolveGraph_eq_of_rearranged hds h hunique hlimits options route preferred⟩

/-! ### Split metadata beyond the byte limit -/

section Split

/-- A dist-tag of the given length. -/
def longTag (n : Nat) : String := String.ofList (List.replicate n 'a')

theorem byteLen_longTag (n : Nat) : byteLen (longTag n).toList = n := by
  rw [longTag, String.toList_ofList, byteLen, List.map_replicate, List.sum_replicate]
  exact Nat.mul_one n

def splitRegistry : PackageSource := ⟨"https://r.io", some ⟨"https://r.io"⟩⟩

def taggedRecord (n : Nat) : PackageVersionMetadata :=
  ⟨sampleA, .stable 1 0 0, .ofList [longTag n], ∅, ∅, ∅⟩

def plainRecord : PackageVersionMetadata := ⟨sampleB, .stable 1 0 0, ∅, ∅, ∅, ∅⟩

theorem bytes_taggedRecord (n : Nat) : (taggedRecord n).bytes = n + 1 := by
  have hname : byteLen sampleA.text.toList = 1 := by decide
  have hpre : byteLen (PackageVersion.preChars (PackageVersion.stable 1 0 0).pre) = 0 := by decide
  have htags : (OrdSet.ofList [longTag n]).elems = [longTag n] := rfl
  simp only [PackageVersionMetadata.bytes, taggedRecord, hname, hpre, htags, List.map_cons, List.map_nil,
    byteLen_longTag, List.sum_cons, List.sum_nil]
  show 1 + 0 + 0 + 0 + 0 + (n + 0) = n + 1
  omega

theorem bytes_plainRecord : plainRecord.bytes = 1 := by decide

theorem byteLen_splitRegistry : byteLen splitRegistry.identity.toList = 12 := by decide

theorem withinLimits_joined (n : Nat) (h : n + 14 ≤ maxMetadataBytes) :
    WithinLimits [] [⟨splitRegistry, [taggedRecord n, plainRecord]⟩] := by
  refine ⟨show 2 + 0 ≤ maxPackages by decide, show 1 + (0 + 0) + 0 ≤ maxRelationships by decide, ?_,
    show 0 ≤ maxDependencies by decide⟩
  simp only [List.map_cons, List.map_nil, List.sum_cons, List.sum_nil, bytes_taggedRecord,
    bytes_plainRecord, byteLen_splitRegistry]
  omega

theorem not_withinLimits_split (n : Nat) (h : maxMetadataBytes ≤ n + 14) :
    ¬ WithinLimits [] [⟨splitRegistry, [taggedRecord n]⟩, ⟨splitRegistry, [plainRecord]⟩] := by
  intro hw
  have hb := hw.bytes
  simp only [List.map_cons, List.map_nil, List.sum_cons, List.sum_nil, bytes_taggedRecord,
    bytes_plainRecord, byteLen_splitRegistry] at hb
  omega

/-- With a tag that fills the limit the joined metadata is taken and the split
one is not. -/
theorem checkRequest_split {n : Nat} (h : n + 14 = maxMetadataBytes) :
    checkRequest [] [⟨splitRegistry, [taggedRecord n, plainRecord]⟩] ⟨false, false⟩ = .ok () ∧
      checkRequest [] [⟨splitRegistry, [taggedRecord n]⟩, ⟨splitRegistry, [plainRecord]⟩]
        ⟨false, false⟩ = .error .metadataLimitExceeded := by
  constructor
  · rw [checkRequest_eq, if_neg Bool.false_ne_true, if_neg (by simp),
      if_pos (withinLimits_joined n (by omega))]
  · rw [checkRequest_eq, if_neg Bool.false_ne_true, if_neg (by simp),
      if_neg (not_withinLimits_split n (by omega))]

/-- Without roots the graph is empty. -/
theorem selectGraph_nil (metadata : List RegistryMetadata) (route : Routing)
    (preferred : ResolutionPreferences) :
    selectGraph [] metadata route preferred = .ok .initial := by
  rw [selectGraph, worklistFuel]
  rfl

/-- Splitting the records of a registry can exceed the byte limit. -/
theorem not_forall_resolveGraph_rearranged :
    ¬ ∀ (ds ds' : List Dependency) (m m' : List RegistryMetadata) (options : ResolutionOptions)
      (route : Routing) (preferred : ResolutionPreferences), ds.Perm ds' → Rearranged m m' →
      (knownIds m).Nodup → resolveGraphWithPreferences ds m options route preferred =
        resolveGraphWithPreferences ds' m' options route preferred := by
  intro hall
  obtain ⟨n, hn⟩ : ∃ n, n + 14 = maxMetadataBytes := ⟨maxMetadataBytes - 14, by decide⟩
  have hsplit := Rearranged.split [] [] splitRegistry [taggedRecord n] [plainRecord]
  have hunique : (knownIds [⟨splitRegistry, [taggedRecord n, plainRecord]⟩]).Nodup := by
    show ([⟨splitRegistry, sampleA, .stable 1 0 0⟩, ⟨splitRegistry, sampleB, .stable 1 0 0⟩] :
      List PackageInstanceId).Nodup
    decide
  have heq := hall [] [] _ _ ⟨false, false⟩ (fun registry _ => .ok registry) .none (List.Perm.refl _)
    hsplit hunique
  obtain ⟨hjoined, hover⟩ := checkRequest_split hn
  simp only [List.nil_append, List.singleton_append] at heq
  rw [resolveGraphWithPreferences, resolveGraphWithPreferences, hjoined, hover, selectGraph_nil] at heq
  have hok : (Except.ok ⟨[], [], ∅, [], ∅⟩ : Except ResolveError Resolution) =
      .error .metadataLimitExceeded := heq
  simp at hok

theorem resolveGraph_order_independent_sample :
    resolveGraphWithPreferences [⟨sampleRegistry, sampleA, anyStable⟩] sampleMetadata ⟨false, false⟩
        (fun registry _ => .ok registry) .none =
      resolveGraphWithPreferences [⟨sampleRegistry, sampleA, anyStable⟩]
        (sampleMetadata.map fun r => ⟨r.registry, r.packages.reverse⟩) ⟨false, false⟩
        (fun registry _ => .ok registry) .none := by
  have hperm : Permuted sampleMetadata (sampleMetadata.map fun r => ⟨r.registry, r.packages.reverse⟩) :=
    Permuted.records [] [] sampleRegistry (List.reverse_perm _).symm
  exact (resolveGraph_order_independent (List.Perm.refl _) (.permuted hperm) (by decide)
    ⟨false, false⟩ (fun registry _ => .ok registry) .none).1 hperm

end Split

end Tapid
