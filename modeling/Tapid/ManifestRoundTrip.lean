/-
Round trips of package manifests.

A manifest that was read, built or changed by the dependency operations keeps
what the checks on the way in established (`PackageManifest.WellFormed`), with
one exception: the path of a command is checked as it is written and kept
without its leading `./`, and what is left need not pass the check again.

* `Json.isStrict_merged`, `Json.IsStrict.merged_eq` — documents in memory;
* `PackageManifest.Reachable.wellFormed` — the invariant;
* `PackageManifest.parse_toJson_iff` — when a manifest is read back.
-/
import Tapid.Manifest
import Tapid.NpmImportRoundTrip

namespace Tapid

open Text Fallible
open Npm (ManifestError)

/-! ### Documents in memory -/

namespace Json

mutual

theorem isStrict_merged : ∀ j : Json, IsStrict (merged j)
  | null => by
    rw [merged]
    exact .null
  | bool b => by
    rw [merged]
    exact .bool b
  | int n => by
    rw [merged]
    exact .int n
  | float text => by
    rw [merged]
    exact .float text
  | str s => by
    rw [merged]
    exact .str s
  | arr items => by
    rw [merged]
    exact .arr (isStrict_mergedItems items)
  | obj fields => by
    rw [merged]
    exact .obj (mergedFields ∅ fields).sorted
      (isStrict_mergedFields fields ∅ fun e he => absurd he List.not_mem_nil)

theorem isStrict_mergedItems : ∀ (items : List Json), ∀ j ∈ mergedItems items, IsStrict j
  | [], j, hj => absurd hj (by rw [mergedItems]; exact List.not_mem_nil)
  | item :: items, j, hj => by
    rw [mergedItems] at hj
    rcases List.mem_cons.mp hj with rfl | hj
    · exact isStrict_merged item
    · exact isStrict_mergedItems items j hj

theorem isStrict_mergedFields : ∀ (fields : List (String × Json)) (values : JsonMap),
    (∀ e ∈ values.entries, IsStrict e.2) → ∀ e ∈ (mergedFields values fields).entries, IsStrict e.2
  | [], values, h, e, he => h e (by rwa [mergedFields] at he)
  | (key, value) :: fields, values, h, e, he => by
    rw [mergedFields] at he
    refine isStrict_mergedFields fields _ (fun x hx => ?_) e he
    rcases OrdMap.mem_insertEntry hx with rfl | hx
    · exact isStrict_merged value
    · exact h x hx

end

theorem mergedItems_eq {items : List Json} (h : ∀ j ∈ items, merged j = j) : mergedItems items = items := by
  induction items with
  | nil => rw [mergedItems]
  | cons item items ih =>
    rw [mergedItems, h item List.mem_cons_self, ih fun j hj => h j (List.mem_cons_of_mem _ hj)]

theorem mergedFields_eq {fields : List (String × Json)} {values : JsonMap}
    (h : ∀ e ∈ fields, merged e.2 = e.2) : mergedFields values fields = values.insertAll fields := by
  induction fields generalizing values with
  | nil => rw [mergedFields, OrdMap.insertAll, List.foldl_nil]
  | cons e fields ih =>
    obtain ⟨key, value⟩ := e
    rw [mergedFields, h (key, value) List.mem_cons_self, OrdMap.insertAll_cons,
      ih fun e he => h e (List.mem_cons_of_mem _ he)]

/-- A document with its fields in order is kept as it is. -/
theorem IsStrict.merged_eq {j : Json} (h : IsStrict j) : merged j = j := by
  induction h with
  | null => rw [merged]
  | bool b => rw [merged]
  | int n => rw [merged]
  | float text => rw [merged]
  | str s => rw [merged]
  | arr _ ih => rw [merged, mergedItems_eq ih]
  | @obj fields hsorted _ ih =>
    rw [merged, mergedFields_eq ih]
    exact congrArg Json.obj (OrdMap.entries_ofList hsorted)

theorem isStrict_writeMap (m : OrdMap String String) : IsStrict (writeMap .str m) := by
  refine .obj ?_ fun e he => ?_
  · exact (List.pairwise_map.mpr m.sorted)
  · obtain ⟨x, _, rfl⟩ := List.mem_map.mp he
    exact .str x.2

/-- The object a list of fields is read as. -/
theorem asObject_merged_obj {fields : List (String × Json)} (h : ∀ e ∈ fields, IsStrict e.2) :
    (obj fields).merged.asObject = some (OrdMap.ofList fields) := by
  rw [merged, mergedFields_eq fun e he => (h e he).merged_eq]
  exact congrArg some (OrdMap.insertAll_of_entries (OrdMap.ofList fields))

end Json

namespace PackageManifest

/-! ### Names -/

/-- No name has two markers, so the order in which they are tried is not seen. -/
theorem candidateName_eq_validationName (name : String) : candidateName name = validationName name := by
  rw [candidateName, validationName]
  cases hnpm : stripPrefix "npm:".toList name.toList with
  | none => rw [Option.or_none, Option.none_or]
  | some rest =>
    have hjsr : stripPrefix "jsr:".toList name.toList = none := by
      rw [eq_append_of_stripPrefix hnpm]
      rfl
    rw [hjsr, Option.none_or, Option.or_none]

/-- Local names that are accepted in a dependency section. -/
def NamesAccepted (declared : OrdMap String String) : Prop :=
  ∀ name ∈ declared.keys, checkName true name = .ok ()

theorem checkName_of_validationName {name : String} {n : PackageName}
    (h : PackageName.parse (validationName name) = .ok n) : checkName true name = .ok () := by
  show ((PackageName.parse (candidateName name)).mapError ManifestError.invalidDependencyName).map _ = _
  rw [candidateName_eq_validationName, h]
  rfl

theorem NamesAccepted.erase {declared : OrdMap String String} (h : NamesAccepted declared) (name : String) :
    NamesAccepted (declared.erase name) := by
  intro k hk
  obtain ⟨v, hv⟩ := OrdMap.mem_keys.mp hk
  rw [OrdMap.get?_erase] at hv
  split_ifs at hv
  exact h k (OrdMap.mem_keys.mpr ⟨v, hv⟩)

theorem NamesAccepted.insert {declared : OrdMap String String} (h : NamesAccepted declared) {name : String}
    (hname : checkName true name = .ok ()) (requirement : String) :
    NamesAccepted (declared.insert name requirement) := by
  intro k hk
  obtain ⟨v, hv⟩ := OrdMap.mem_keys.mp hk
  rw [OrdMap.get?_insert] at hv
  split_ifs at hv with heq
  · rw [heq]
    exact hname
  · exact h k (OrdMap.mem_keys.mpr ⟨v, hv⟩)

/-! ### Maps of texts -/

theorem readEntry_str {field : String} {validateNames : Bool} {e : String × String}
    (h : checkName validateNames e.1 = .ok ()) : readEntry field validateNames (e.1, .str e.2) = .ok e := by
  rw [readEntry, h]
  rfl

/-- A written map is read back if its names are accepted. -/
theorem parseStringMap_writeMap {m : OrdMap String String} (field : String) {validateNames : Bool}
    (h : ∀ name ∈ m.keys, checkName validateNames name = .ok ()) :
    parseStringMap (Json.writeMap .str m) field validateNames = .ok m := by
  have hobject : (Json.writeMap .str m).asObject = some (m.mapVal fun _ v => Json.str v) :=
    congrArg some (OrdMap.insertAll_of_entries (m.mapVal fun _ v => Json.str v))
  have hentries : (m.mapVal fun _ v => Json.str v).entries.mapM (readEntry field validateNames) =
      .ok m.entries := by
    refine mapM_map_eq_ok fun e he => readEntry_str (h e.1 ?_)
    exact List.mem_map_of_mem (f := Prod.fst) he
  rw [parseStringMap, hobject]
  show ((m.mapVal fun _ v => Json.str v).entries.mapM (readEntry field validateNames) >>= _) = _
  rw [hentries, ok_bind]
  exact congrArg Except.ok (OrdMap.insertAll_of_entries m)

/-- What is read as a map has accepted names. -/
theorem namesAccepted_of_parseStringMap {value : Json} {field : String} {m : OrdMap String String}
    (h : parseStringMap value field true = .ok m) : NamesAccepted m := by
  simp only [parseStringMap, bind_eq_ok, pure_eq_ok] at h
  obtain ⟨object, _, entries, hentries, rfl⟩ := h
  intro name hname
  obtain ⟨requirement, hget⟩ := OrdMap.mem_keys.mp hname
  obtain ⟨e, _, he⟩ := of_mem_mapM_ok hentries _ (OrdMap.mem_of_get?_ofList hget)
  simp only [readEntry, bind_eq_ok, pure_eq_ok] at he
  obtain ⟨_, hcheck, _, _, heq⟩ := he
  obtain ⟨rfl, _⟩ := Prod.mk.inj heq
  exact hcheck

theorem namesAccepted_of_optionalMap {object : JsonMap} {field : String} {m : OrdMap String String}
    (h : optionalMap object field true = .ok m) : NamesAccepted m := by
  rw [optionalMap] at h
  cases hget : object.get? field with
  | none =>
    rw [hget] at h
    obtain rfl := Except.ok.inj h
    exact fun name hname => absurd hname List.not_mem_nil
  | some value =>
    rw [hget] at h
    exact namesAccepted_of_parseStringMap h

/-! ### Command entries -/

/-- Command entries as they come out of the checks: in the order of the
commands, one or more, each with a valid command and a path without leading
current directories. -/
structure BinAccepted (bin : PackageBin) : Prop where
  nonempty : bin.targets ≠ []
  sorted : bin.targets.Pairwise fun a b => a.command < b.command
  command : ∀ t ∈ bin.targets, Npm.validCommand t.command.toList = true
  trimmed : ∀ t ∈ bin.targets, Npm.trimCurDir t.target.toList = t.target.toList

theorem trimCurDir_idem (path : List Char) : Npm.trimCurDir (Npm.trimCurDir path) = Npm.trimCurDir path := by
  fun_induction Npm.trimCurDir path with
  | case1 rest ih => exact ih
  | case2 s hs =>
    rw [Npm.trimCurDir]
    exact hs

theorem readBinTarget_eq_ok {e : String × String} {t : BinTarget} :
    readBinTarget e = .ok t ↔ Npm.validCommand e.1.toList = true ∧ Npm.validTarget e.2.toList = true ∧
      t = ⟨e.1, String.ofList (Npm.trimCurDir e.2.toList)⟩ := by
  simp only [readBinTarget, bind_eq_ok, rejectIf_eq_ok, pure_eq_ok, Bool.or_eq_true, Bool.not_eq_true',
    not_or, Bool.not_eq_false]
  constructor
  · rintro ⟨_, ⟨hcommand, htarget⟩, rfl⟩
    exact ⟨hcommand, htarget, rfl⟩
  · rintro ⟨hcommand, htarget, rfl⟩
    exact ⟨(), ⟨hcommand, htarget⟩, rfl⟩

/-- The entries of a `bin` field are in the order of their commands. -/
theorem sorted_binEntries {value : Json} {name : PackageName} {entries : List (String × String)}
    (h : Npm.binEntries value name = .ok entries) :
    entries ≠ [] ∧ entries.Pairwise fun a b => a.1 < b.1 := by
  unfold Npm.binEntries at h
  split at h
  · obtain rfl := Except.ok.inj h
    exact ⟨List.cons_ne_nil _ _, List.pairwise_singleton _ _⟩
  · cases h
  · next fields hne =>
    have hcommands : entries.map Prod.fst = (OrdMap.ofList fields).entries.map Prod.fst := by
      refine map_eq_of_mapM_ok h fun e x hx => ?_
      simp only [Npm.readBinEntry, bind_eq_ok, pure_eq_ok] at hx
      obtain ⟨_, _, rfl⟩ := hx
      rfl
    refine ⟨?_, ?_⟩
    · -- the first field of the object is an entry
      rintro rfl
      cases fields with
      | nil => exact hne rfl
      | cons field fields =>
        have hcontains : (OrdMap.ofList (field :: fields)).contains field.1 = true :=
          OrdMap.contains_insertAll.trans (by simp)
        obtain ⟨v, hv⟩ := OrdMap.contains_eq_true.mp hcontains
        have hmem := OrdMap.mem_entries.mpr hv
        rw [List.map_eq_nil_iff.mp hcommands.symm] at hmem
        exact absurd hmem List.not_mem_nil
    · rw [← List.pairwise_map (f := Prod.fst) (R := (· < ·)), hcommands, List.pairwise_map]
      exact (OrdMap.ofList fields).sorted
  · cases h

theorem binAccepted_of_parseBin {value : Json} {name : PackageName} {bin : PackageBin}
    (h : parseBin value name = .ok bin) : bin.packageName = name ∧ BinAccepted bin := by
  simp only [parseBin, bind_eq_ok, pure_eq_ok] at h
  obtain ⟨entries, hentries, targets, htargets, rfl⟩ := h
  obtain ⟨hne, hsorted⟩ := sorted_binEntries hentries
  have hcommands : targets.map BinTarget.command = entries.map Prod.fst :=
    map_eq_of_mapM_ok htargets fun e t ht => by rw [(readBinTarget_eq_ok.mp ht).2.2]
  have hpairwise : targets.Pairwise fun a b => a.command < b.command := by
    rw [← List.pairwise_map (f := BinTarget.command) (R := (· < ·)), hcommands, List.pairwise_map]
    exact hsorted
  have hsort : (targets.mergeSort fun a b => a.command ≤ b.command) = targets :=
    List.mergeSort_of_pairwise (hpairwise.imp fun hlt => by simpa using le_of_lt hlt)
  rw [hsort]
  refine ⟨rfl, ?_, hpairwise, fun t ht => ?_, fun t ht => ?_⟩
  · rintro rfl
    exact hne (List.map_eq_nil_iff.mp hcommands.symm)
  · obtain ⟨e, _, he⟩ := of_mem_mapM_ok htargets t ht
    obtain ⟨hcommand, _, rfl⟩ := readBinTarget_eq_ok.mp he
    exact hcommand
  · obtain ⟨e, _, he⟩ := of_mem_mapM_ok htargets t ht
    obtain ⟨_, _, rfl⟩ := readBinTarget_eq_ok.mp he
    rw [String.toList_ofList]
    exact trimCurDir_idem _

/-- **Written command entries** are read back if their paths are valid as they
are kept. -/
theorem parseBin_binValue_iff {bin : PackageBin} (h : BinAccepted bin) :
    parseBin (binValue bin) bin.packageName = .ok bin ↔
      ∀ t ∈ bin.targets, Npm.validTarget t.target.toList = true := by
  have hpairs : bin.pairs.Pairwise fun a b => a.1 < b.1 := List.pairwise_map.mpr h.sorted
  have hfields : (bin.pairs.map fun e => (e.1, Json.str e.2)).Pairwise fun a b => a.1 < b.1 :=
    List.pairwise_map.mpr hpairs
  have hread : (OrdMap.ofList (bin.pairs.map fun e => (e.1, Json.str e.2))).entries.mapM Npm.readBinEntry =
      .ok bin.pairs := by
    rw [OrdMap.entries_ofList hfields]
    exact mapM_map_eq_ok fun e _ => rfl
  have hentries : Npm.binEntries (binValue bin) bin.packageName = .ok bin.pairs := by
    rw [binValue, Json.writeMap, OrdMap.entries_ofList hpairs]
    unfold Npm.binEntries
    split
    · next heq => cases heq
    · next heq =>
      have hnil := List.map_eq_nil_iff.mp (List.map_eq_nil_iff.mp (Json.obj.inj heq))
      exact absurd hnil h.nonempty
    · next fields _ heq =>
      rw [← Json.obj.inj heq]
      exact hread
    · next hother => exact absurd rfl (hother _)
  rw [parseBin, hentries, ok_bind]
  constructor
  · intro hparse t ht
    obtain ⟨targets, htargets, _⟩ := bind_eq_ok.mp hparse
    obtain ⟨_, _, hread⟩ := ok_of_mem_mapM htargets _ (List.mem_map_of_mem ht)
    exact (readBinTarget_eq_ok.mp hread).2.1
  · intro hvalid
    have htargets : bin.pairs.mapM readBinTarget = .ok bin.targets := by
      refine mapM_map_eq_ok fun t ht => readBinTarget_eq_ok.mpr ⟨h.command t ht, hvalid t ht, ?_⟩
      rw [h.trimmed t ht, String.ofList_toList]
    have hsort : (bin.targets.mergeSort fun a b => a.command ≤ b.command) = bin.targets :=
      List.mergeSort_of_pairwise (h.sorted.imp fun hlt => by simpa using le_of_lt hlt)
    rw [htargets, ok_bind, hsort]
    rfl

/-- The commands a lockfile import compares are those of the manifest, with paths
by their components. -/
theorem npm_parseBin_eq (value : Json) (name : PackageName) :
    Npm.parseBin value name = (parseBin value name).map fun bin =>
      ⟨bin.packageName, bin.targets.map fun t => ⟨t.command, Npm.pathComponents t.target.toList⟩⟩ := by
  have hread : ∀ e : String × String, Npm.readBinTarget e =
      (readBinTarget e).map fun t => ⟨t.command, Npm.pathComponents t.target.toList⟩ := by
    intro e
    rw [Npm.readBinTarget, readBinTarget]
    cases rejectIf (!Npm.validCommand e.1.toList || !Npm.validTarget e.2.toList)
        (ManifestError.invalidBin e.1 e.2) with
    | error error => rfl
    | ok u =>
      show Except.ok _ = Except.ok (Npm.BinTarget.mk e.1 (Npm.pathComponents (String.ofList _).toList))
      rw [String.toList_ofList]
  have hmapM : ∀ entries : List (String × String), entries.mapM Npm.readBinTarget =
      (entries.mapM readBinTarget).map fun targets =>
        targets.map fun t => ⟨t.command, Npm.pathComponents t.target.toList⟩ := by
    intro entries
    induction entries with
    | nil => rfl
    | cons e entries ih =>
      rw [List.mapM_cons, List.mapM_cons, hread, ih]
      cases readBinTarget e with
      | error error => rfl
      | ok t => cases entries.mapM readBinTarget <;> rfl
  rw [Npm.parseBin, parseBin]
  cases Npm.binEntries value name with
  | error error => rfl
  | ok entries =>
    rw [ok_bind, ok_bind, hmapM]
    cases entries.mapM readBinTarget with
    | error error => rfl
    | ok targets =>
      exact congrArg (fun sorted => Except.ok (Npm.PackageBin.mk name sorted))
        (List.map_mergeSort (r := fun a b => a.command ≤ b.command) (s := fun a b => a.command ≤ b.command)
          (f := fun t : BinTarget => Npm.BinTarget.mk t.command (Npm.pathComponents t.target.toList))
          fun _ _ _ _ => rfl).symm

/-! ### The invariant -/

/-- What the checks on the way in establish. -/
structure WellFormed (m : PackageManifest) : Prop where
  names : ∀ kind, NamesAccepted (m.dependencySection kind)
  bin : ∀ bin, m.bin = some bin → bin.packageName = m.name ∧ BinAccepted bin
  extra : ∀ key value, m.extra.get? key = some value → key ∉ knownFields ∧ Json.IsStrict value

@[simp] theorem dependencySection_withSection (m : PackageManifest) (kind kind' : DependencyKind)
    (declared : OrdMap String String) :
    (m.withSection kind declared).dependencySection kind' =
      if kind' = kind then declared else m.dependencySection kind' := by
  cases kind <;> cases kind' <;> rfl

@[simp] theorem dependencySection_undeclare (m : PackageManifest) (name : String) (kind : DependencyKind) :
    (m.undeclare name).dependencySection kind = (m.dependencySection kind).erase name := by
  cases kind <;> rfl

/-- Sections are all that changes. -/
theorem withSection_others (m : PackageManifest) (kind : DependencyKind) (declared : OrdMap String String) :
    (m.withSection kind declared).name = m.name ∧ (m.withSection kind declared).bin = m.bin ∧
      (m.withSection kind declared).extra = m.extra := by
  cases kind <;> exact ⟨rfl, rfl, rfl⟩

theorem WellFormed.withSection {m : PackageManifest} (h : m.WellFormed) (kind : DependencyKind)
    {declared : OrdMap String String} (hdeclared : NamesAccepted declared) :
    (m.withSection kind declared).WellFormed := by
  obtain ⟨hname, hbin, hextra⟩ := m.withSection_others kind declared
  refine ⟨fun kind' => ?_, fun bin hb => ?_, fun key value hget => ?_⟩
  · rw [dependencySection_withSection]
    split_ifs
    · exact hdeclared
    · exact h.names kind'
  · rw [hname]
    exact h.bin bin (hbin ▸ hb)
  · exact h.extra key value (hextra ▸ hget)

theorem WellFormed.undeclare {m : PackageManifest} (h : m.WellFormed) (name : String) :
    (m.undeclare name).WellFormed := by
  refine ⟨fun kind => ?_, h.bin, h.extra⟩
  rw [dependencySection_undeclare]
  exact (h.names kind).erase name

theorem WellFormed.setDependency {m m' : PackageManifest} (h : m.WellFormed) {kind : DependencyKind}
    {name requirement : String} (hset : m.setDependency kind name requirement = .ok m') : m'.WellFormed := by
  simp only [PackageManifest.setDependency, bind_eq_ok, mapError_eq_ok, pure_eq_ok] at hset
  obtain ⟨n, hn, rfl⟩ := hset
  have hcleared := h.undeclare name
  exact hcleared.withSection kind ((hcleared.names kind).insert (checkName_of_validationName hn) _)

/-- **A dependency operation keeps the invariant.** -/
theorem WellFormed.run {m m' : PackageManifest} (h : m.WellFormed) (mutator : Mutator)
    (hrun : mutator.run m = .ok m') : m'.WellFormed := by
  cases mutator with
  | withDependency name requirement => exact h.setDependency hrun
  | withDependencyKind kind name requirement => exact h.setDependency hrun
  | updateDependencyKind kind name requirement =>
    simp only [Mutator.run, updateDependencyKind, bind_eq_ok, orError_eq_ok, pure_eq_ok] at hrun
    obtain ⟨declared, hdeclared, rfl⟩ := hrun
    -- the name was declared, so it was accepted before
    have hname := h.names kind name (OrdMap.mem_keys.mpr ⟨declared, hdeclared⟩)
    exact h.withSection kind ((h.names kind).insert hname _)
  | withoutDependency name =>
    simp only [Mutator.run, withoutDependency, bind_eq_ok, pure_eq_ok] at hrun
    obtain ⟨_, _, rfl⟩ := hrun
    exact h.undeclare name

theorem WellFormed.new {name version : String} {isPrivate : Bool} {m : PackageManifest}
    (h : PackageManifest.new name version isPrivate = .ok m) : m.WellFormed := by
  simp only [PackageManifest.new, bind_eq_ok, pure_eq_ok] at h
  obtain ⟨_, _, _, _, rfl⟩ := h
  refine ⟨fun kind => ?_, fun bin hb => ?_, fun key value hget => ?_⟩
  · cases kind <;> exact fun name hname => absurd hname List.not_mem_nil
  · cases hb
  · simp at hget

theorem binAccepted_of_optionalBin {object : JsonMap} {name : PackageName} {found : Option PackageBin}
    (h : optionalBin object name = .ok found) :
    ∀ bin, found = some bin → bin.packageName = name ∧ BinAccepted bin := by
  rintro bin rfl
  rw [optionalBin] at h
  cases hget : object.get? "bin" with
  | none =>
    rw [hget] at h
    cases h
  | some value =>
    rw [hget] at h
    obtain ⟨bin', hbin, heq⟩ := map_eq_ok.mp h
    obtain rfl := Option.some_inj.mp heq
    exact binAccepted_of_parseBin hbin

theorem WellFormed.ofObject {object : JsonMap} (hstrict : ∀ e ∈ object.entries, Json.IsStrict e.2)
    {m : PackageManifest} (h : PackageManifest.ofObject object = .ok m) : m.WellFormed := by
  simp only [PackageManifest.ofObject, bind_eq_ok, pure_eq_ok] at h
  obtain ⟨_, _, _, _, _, _, manifest, _, _, _, _, _, dependencies, hdependencies, dev, hdev, optional, hoptional,
    peer, hpeer, _, _, _, _, found, hfound, rfl⟩ := h
  refine ⟨fun kind => ?_, binAccepted_of_optionalBin hfound, fun key value hget => ?_⟩
  · cases kind with
    | dependencies => exact namesAccepted_of_optionalMap hdependencies
    | devDependencies => exact namesAccepted_of_optionalMap hdev
    | optionalDependencies => exact namesAccepted_of_optionalMap hoptional
    | peerDependencies => exact namesAccepted_of_optionalMap hpeer
  · rw [OrdMap.get?_filter] at hget
    obtain ⟨hfound, hkey⟩ := Option.filter_eq_some_iff.mp hget
    exact ⟨by simpa using hkey, hstrict (key, value) (OrdMap.mem_entries.mpr hfound)⟩

theorem isStrict_of_asObject {j : Json} (h : Json.IsStrict j) {object : JsonMap}
    (hobject : j.asObject = some object) : ∀ e ∈ object.entries, Json.IsStrict e.2 := by
  cases h with
  | @obj fields _ hfields =>
    obtain rfl := Option.some_inj.mp hobject
    intro e he
    exact hfields e (OrdMap.mem_of_get?_ofList (OrdMap.mem_entries.mp he))
  | _ => cases hobject

/-- **Every manifest that can be produced is well formed.** -/
theorem Reachable.wellFormed {codec : JsonCodec} {m : PackageManifest} (h : Reachable codec m) :
    m.WellFormed := by
  induction h with
  | new h => exact WellFormed.new h
  | parse h =>
    simp only [PackageManifest.parse, bind_eq_ok, orError_eq_ok] at h
    obtain ⟨value, _, object, hobject, h⟩ := h
    exact WellFormed.ofObject (isStrict_of_asObject (Json.isStrict_merged value) hobject) h
  | mutate mutator _ hrun ih => exact ih.run mutator hrun

/-! ### Written documents -/

/-- The object a written manifest is read as. -/
def document (m : PackageManifest) : JsonMap := OrdMap.ofList (Json.presentFields m.fields ++ m.extra.entries)

theorem nodup_fields (m : PackageManifest) : (m.fields.map Prod.fst).Nodup :=
  (by decide : knownFields.Nodup)

theorem isStrict_of_mem_fields {m : PackageManifest} {name : String} {j : Json}
    (h : (name, some j) ∈ m.fields) : Json.IsStrict j := by
  have hmap : ∀ {map : OrdMap String String}, some j = mapValue map → Json.IsStrict j := by
    intro map hj
    rw [Json.skipIf_eq_some hj.symm]
    exact Json.isStrict_writeMap map
  have htext : ∀ {text : Option String}, some j = text.map .str → Json.IsStrict j := by
    intro text hj
    obtain ⟨s, _, rfl⟩ := Option.map_eq_some_iff.mp hj.symm
    exact .str s
  simp only [fields, List.mem_cons, Prod.mk.injEq, List.not_mem_nil, or_false] at h
  obtain ⟨_, hj⟩ | ⟨_, hj⟩ | ⟨_, hj⟩ | ⟨_, hj⟩ | ⟨_, hj⟩ | ⟨_, hj⟩ | ⟨_, hj⟩ | ⟨_, hj⟩ | ⟨_, hj⟩ | ⟨_, hj⟩ |
    ⟨_, hj⟩ | ⟨_, hj⟩ := h
  · exact Option.some_inj.mp hj ▸ .str _
  · exact Option.some_inj.mp hj ▸ .str _
  · exact Option.some_inj.mp hj ▸ .bool _
  · exact htext hj
  · exact htext hj
  · exact hmap hj
  · exact hmap hj
  · exact hmap hj
  · exact hmap hj
  · exact hmap hj
  · exact hmap hj
  · obtain ⟨bin, _, rfl⟩ := Option.map_eq_some_iff.mp hj.symm
    exact Json.isStrict_writeMap _

section Document

variable {m : PackageManifest}

theorem asObject_toValue (h : m.WellFormed) : m.toValue.merged.asObject = some m.document := by
  refine Json.asObject_merged_obj fun e he => ?_
  rcases List.mem_append.mp he with he | he
  · exact isStrict_of_mem_fields (Json.mem_presentFields.mp he)
  · exact (h.extra e.1 e.2 (OrdMap.mem_entries.mp he)).2

theorem document_eq_insertAll (m : PackageManifest) :
    m.document = (OrdMap.ofList (Json.presentFields m.fields)).insertAll m.extra.entries :=
  List.foldl_append

/-- A known field is written by the manifest itself. -/
theorem get?_document (h : m.WellFormed) {name : String} {o : Option Json} (hmem : (name, o) ∈ m.fields) :
    m.document.get? name = o := by
  have hknown : name ∈ knownFields := List.mem_map_of_mem (f := Prod.fst) hmem
  rw [document_eq_insertAll, OrdMap.get?_insertAll_of_not_mem _ fun hextra => ?_,
    Json.get?_presentFields m.nodup_fields hmem]
  obtain ⟨e, he, rfl⟩ := List.mem_map.mp hextra
  exact (h.extra e.1 e.2 (OrdMap.mem_entries.mp he)).1 hknown

/-- The other fields are the extra ones. -/
theorem filter_document (h : m.WellFormed) :
    m.document.filter (fun key _ => !knownFields.elem key) = m.extra := by
  refine OrdMap.ext_get? fun key => ?_
  rw [OrdMap.get?_filter, document_eq_insertAll, OrdMap.get?_insertAll, OrdMap.insertAll_of_entries]
  by_cases hkey : key ∈ knownFields
  · have hextra : m.extra.get? key = none := by
      by_contra hne
      obtain ⟨value, hvalue⟩ := Option.ne_none_iff_exists'.mp hne
      exact (h.extra key value hvalue).1 hkey
    have helem : knownFields.elem key = true := by simpa using hkey
    rw [hextra, helem, Option.filter_eq_none_iff]
    exact fun _ _ => Bool.false_ne_true
  · have hfields : (OrdMap.ofList (Json.presentFields m.fields)).get? key = none := by
      refine OrdMap.get?_insertAll_of_not_mem _ fun hmem => ?_
      obtain ⟨e, he, rfl⟩ := List.mem_map.mp hmem
      exact hkey (List.mem_map_of_mem (f := Prod.fst) (Json.mem_presentFields.mp he))
    have helem : knownFields.elem key = false := by simpa using hkey
    rw [hfields, Option.or_none, helem]
    cases m.extra.get? key <;> rfl

theorem optionalString_document (h : m.WellFormed) {name : String} {s : Option String}
    (hmem : (name, s.map .str) ∈ m.fields) : optionalString m.document name = .ok s := by
  rw [optionalString, get?_document h hmem]
  cases s <;> rfl

theorem optionalMap_document (h : m.WellFormed) {name : String} {d : OrdMap String String}
    {validateNames : Bool} (hmem : (name, mapValue d) ∈ m.fields)
    (hnames : ∀ key ∈ d.keys, checkName validateNames key = .ok ()) :
    optionalMap m.document name validateNames = .ok d := by
  rw [optionalMap, get?_document h hmem, mapValue, Json.skipIf]
  split_ifs with hempty
  · rw [OrdMap.eq_empty_of_isEmpty hempty]
  · exact parseStringMap_writeMap name hnames

theorem optionalBin_document (h : m.WellFormed) :
    optionalBin m.document m.name = .ok m.bin ↔
      ∀ bin, m.bin = some bin → ∀ t ∈ bin.targets, Npm.validTarget t.target.toList = true := by
  have hget : m.document.get? "bin" = m.bin.map binValue := get?_document h (by simp [fields])
  rw [optionalBin, hget]
  cases hbin : m.bin with
  | none => simp
  | some bin =>
    obtain ⟨hname, haccepted⟩ := h.bin bin hbin
    rw [← hname]
    show (parseBin (binValue bin) bin.packageName).map some = .ok (some bin) ↔ _
    rw [map_eq_ok]
    simp only [Option.some_inj, exists_eq_right, forall_eq']
    exact parseBin_binValue_iff haccepted

/-- All that can change in a written manifest are its command entries. -/
theorem ofObject_document (h : m.WellFormed) :
    ofObject m.document = (optionalBin m.document m.name).map fun bin => { m with bin } := by
  have hname : requiredString m.document "name" = .ok m.name.text := by
    rw [requiredString, get?_document h (o := some (.str m.name.text)) (by simp [fields])]
    rfl
  have hversion : requiredString m.document "version" = .ok m.version.display := by
    rw [requiredString, get?_document h (o := some (.str m.version.display)) (by simp [fields])]
    rfl
  have hprivate : optionalBool m.document "private" = .ok m.isPrivate := by
    rw [optionalBool, get?_document h (o := some (.bool m.isPrivate)) (by simp [fields])]
    rfl
  have hnew : PackageManifest.new m.name.text m.version.display m.isPrivate =
      .ok { name := m.name, version := m.version, isPrivate := m.isPrivate } := by
    rw [PackageManifest.new, PackageName.parse_text, PackageVersion.fromStr_display]
    rfl
  have hfree : ∀ (map : OrdMap String String), ∀ key ∈ map.keys, checkName false key = .ok () :=
    fun _ _ _ => rfl
  rw [ofObject, hname, ok_bind, hversion, ok_bind, hprivate, ok_bind, hnew, ok_bind,
    optionalString_document h (s := m.description) (by simp [fields]), ok_bind,
    optionalString_document h (s := m.license) (by simp [fields]), ok_bind,
    optionalMap_document h (d := m.dependencies) (by simp [fields]) (h.names .dependencies), ok_bind,
    optionalMap_document h (d := m.devDependencies) (by simp [fields]) (h.names .devDependencies), ok_bind,
    optionalMap_document h (d := m.optionalDependencies) (by simp [fields]) (h.names .optionalDependencies),
    ok_bind, optionalMap_document h (d := m.peerDependencies) (by simp [fields]) (h.names .peerDependencies),
    ok_bind, optionalMap_document h (d := m.overrides) (by simp [fields]) (hfree _), ok_bind,
    optionalMap_document h (d := m.scripts) (by simp [fields]) (hfree _), ok_bind, filter_document h]
  cases optionalBin m.document m.name <;> rfl

theorem parse_toJson_of_wellFormed {codec : JsonCodec} (h : m.WellFormed)
    (hcodec : Lockfile.Faithful codec m.toValue) :
    parse codec (m.toJson codec) = .ok m ↔
      ∀ bin, m.bin = some bin → ∀ t ∈ bin.targets, Npm.validTarget t.target.toList = true := by
  have hdecode : codec.decode (m.toJson codec) = .ok m.toValue := hcodec
  have hparse : parse codec (m.toJson codec) = ofObject m.document := by
    have hmap : (Except.ok m.toValue : Except String Json).mapError ManifestError.invalidJson = .ok m.toValue := rfl
    rw [parse, hdecode, hmap, ok_bind, asObject_toValue h]
    rfl
  rw [← optionalBin_document h, hparse, ofObject_document h, map_eq_ok]
  constructor
  · rintro ⟨bin, hbin, heq⟩
    rw [hbin, ← congrArg PackageManifest.bin heq]
  · intro hbin
    exact ⟨m.bin, hbin, rfl⟩

/-- **Manifests are read back** as they were written exactly if the paths of
their commands are valid as they are kept. -/
theorem parse_toJson_iff {codec : JsonCodec} (h : Reachable codec m)
    (hcodec : Lockfile.Faithful codec m.toValue) :
    parse codec (m.toJson codec) = .ok m ↔
      ∀ bin, m.bin = some bin → ∀ t ∈ bin.targets, Npm.validTarget t.target.toList = true :=
  parse_toJson_of_wellFormed h.wellFormed hcodec

end Document

/-! ### A path that is refused after it was kept -/

/-- A manifest whose command runs an absolute path written below `./`. -/
def slippedDocument : Json :=
  .obj [("name", .str "tool"), ("version", .str "1.0.0"), ("bin", .str ".//etc/tool")]

def slippedManifest : PackageManifest where
  name := ⟨"tool", by decide⟩
  version := .stable 1 0 0
  isPrivate := false
  bin := some ⟨⟨"tool", by decide⟩, [⟨"tool", "/etc/tool"⟩]⟩

def slippedCodec : JsonCodec := Lockfile.libraryCodec [slippedDocument, slippedManifest.toValue]

theorem faithful_slippedCodec {j : Json} (hj : j ∈ [slippedDocument, slippedManifest.toValue]) :
    Lockfile.Faithful slippedCodec j :=
  Lockfile.faithful_libraryCodec (by decide) hj

/-- The path is valid as it is written. -/
theorem parse_slippedDocument :
    parse slippedCodec (slippedCodec.encode slippedDocument ++ "\n") = .ok slippedManifest := by
  have hdecode : slippedCodec.decode (slippedCodec.encode slippedDocument ++ "\n") = .ok slippedDocument :=
    faithful_slippedCodec List.mem_cons_self
  have hbin : parseBin (.str ".//etc/tool") ⟨"tool", by decide⟩ =
      .ok ⟨⟨"tool", by decide⟩, [⟨"tool", "/etc/tool"⟩]⟩ := by
    show Except.ok (PackageBin.mk _ (List.mergeSort [BinTarget.mk "tool" "/etc/tool"] _)) = _
    rw [List.mergeSort_singleton]
  simp only [parse, ofObject, bind_eq_ok, mapError_eq_ok, orError_eq_ok, pure_eq_ok]
  exact ⟨_, hdecode, _, rfl, _, rfl, _, rfl, _, rfl, _, rfl, _, rfl, _, rfl, _, rfl, _, rfl, _, rfl, _, rfl, _, rfl,
    _, rfl, _, congrArg (Except.map some) hbin, rfl⟩

theorem reachable_slippedManifest : Reachable slippedCodec slippedManifest := .parse parse_slippedDocument

theorem parse_toJson_slippedManifest :
    parse slippedCodec (slippedManifest.toJson slippedCodec) = .ok slippedManifest ↔
      ∀ bin, slippedManifest.bin = some bin → ∀ t ∈ bin.targets, Npm.validTarget t.target.toList = true :=
  parse_toJson_iff reachable_slippedManifest (faithful_slippedCodec (List.mem_cons_of_mem _ List.mem_cons_self))

/-- A manifest that is accepted and written, and refused when it is read again. -/
theorem not_forall_parse_toJson :
    ¬ ∀ (codec : JsonCodec) (m : PackageManifest), Reachable codec m →
      Lockfile.Faithful codec m.toValue → parse codec (m.toJson codec) = .ok m := by
  intro hall
  have hread := hall slippedCodec slippedManifest reachable_slippedManifest
    (faithful_slippedCodec (List.mem_cons_of_mem _ List.mem_cons_self))
  have hvalid := (parse_toJson_of_wellFormed reachable_slippedManifest.wellFormed
    (faithful_slippedCodec (List.mem_cons_of_mem _ List.mem_cons_self))).mp hread
  exact absurd (hvalid _ rfl _ List.mem_cons_self) (by decide)

end PackageManifest

end Tapid
