/-
The lockfile document.

Serialization and deserialization follow the derived `serde` implementations:
camel-case field names, empty optional fields left out, unknown fields ignored
unless they are denied, duplicate fields refused.  The JSON text codec itself
is a parameter.

* `Lockfile.ofValue_toValue` — a lockfile is read back from its JSON value;
* `Lockfile.toJson`, `Lockfile.fromJson` — the checks on both sides.
-/
import Tapid.Lockfile

namespace Tapid

open Text Fallible

/-- JSON values; object fields keep their order and their duplicates. -/
inductive Json where
  | null
  | bool (b : Bool)
  | int (n : Int)
  | float (text : String)
  | str (s : String)
  | arr (items : List Json)
  | obj (fields : List (String × Json))

/-- A JSON text codec. -/
structure JsonCodec where
  encode : Json → String
  decode : String → Except String Json

/-! ### Reading records -/

namespace Json

/-- Fields of a record; a record may also be written as an array in field
order. -/
def structFields (names : List String) : Json → Except String (List (String × Json))
  | obj fields => .ok fields
  | arr items => if items.length ≤ names.length then .ok (names.zip items) else .error "invalid length"
  | _ => .error "invalid type"

/-- Value of a field, if present; duplicates are refused. -/
def field (fields : List (String × Json)) (name : String) : Except String (Option Json) :=
  match fields.filter fun e => e.1 == name with
  | [] => .ok none
  | [e] => .ok (some e.2)
  | _ => .error "duplicate field"

/-- A field without default. -/
def required {α : Type} (read : Json → Except String α) (fields : List (String × Json))
    (name : String) : Except String α := do
  match ← field fields name with
  | some j => read j
  | none => .error "missing field"

/-- A field with a default. -/
def defaulted {α : Type} (default : α) (read : Json → Except String α)
    (fields : List (String × Json)) (name : String) : Except String α := do
  match ← field fields name with
  | some j => read j
  | none => .ok default

def readString : Json → Except String String
  | str s => .ok s
  | _ => .error "invalid type"

def readU32 : Json → Except String Nat
  | int n => if 0 ≤ n ∧ n < 2 ^ 32 then .ok n.toNat else .error "invalid value"
  | _ => .error "invalid type"

def readBool : Json → Except String Bool
  | bool b => .ok b
  | _ => .error "invalid type"

def readOption {α : Type} (read : Json → Except String α) : Json → Except String (Option α)
  | null => .ok none
  | j => (read j).map some

def readList {α : Type} (read : Json → Except String α) : Json → Except String (List α)
  | arr items => items.mapM read
  | _ => .error "invalid type"

/-- A map; a repeated key keeps its last value. -/
def readMap {α : Type} (read : Json → Except String α) : Json → Except String (OrdMap String α)
  | obj fields => do
    let entries ← fields.mapM fun e => do return (e.1, ← read e.2)
    return OrdMap.ofList entries
  | _ => .error "invalid type"

def writeMap {α : Type} (write : α → Json) (m : OrdMap String α) : Json :=
  obj (m.entries.map fun e => (e.1, write e.2))

/-- A record with some fields left out. -/
def record (fields : List (String × Option Json)) : Json :=
  obj (fields.filterMap fun e => e.2.map fun j => (e.1, j))

/-- `skip_serializing_if` on an empty collection. -/
def skipIf (isEmpty : Bool) (j : Json) : Option Json := if isEmpty then none else some j

/-! ### Reading back what was written -/

/-- The fields of a record that are present. -/
def presentFields (l : List (String × Option Json)) : List (String × Json) :=
  l.filterMap fun e => e.2.map fun j => (e.1, j)

theorem structFields_record (names : List String) (l : List (String × Option Json)) :
    structFields names (record l) = .ok (presentFields l) := rfl

theorem filter_presentFields_of_not_mem {l : List (String × Option Json)} {name : String}
    (h : name ∉ l.map Prod.fst) : (presentFields l).filter (fun e => e.1 == name) = [] := by
  rw [List.filter_eq_nil_iff]
  intro e he heq
  obtain ⟨x, hx, hxe⟩ := List.mem_filterMap.mp he
  obtain ⟨j, _, rfl⟩ := Option.map_eq_some_iff.mp hxe
  exact h (List.mem_map.mpr ⟨x, hx, by simpa using heq⟩)

theorem filter_presentFields {l : List (String × Option Json)} {name : String} {o : Option Json}
    (hnd : (l.map Prod.fst).Nodup) (h : (name, o) ∈ l) :
    (presentFields l).filter (fun e => e.1 == name) = (o.map fun j => (name, j)).toList := by
  induction l with
  | nil => simp at h
  | cons e tl ih =>
    obtain ⟨key, value⟩ := e
    rw [List.map_cons, List.nodup_cons] at hnd
    have hcons : presentFields ((key, value) :: tl) =
        (value.map fun j => (key, j)).toList ++ presentFields tl := by
      cases value <;> rfl
    rw [hcons, List.filter_append]
    rcases List.mem_cons.mp h with heq | h
    · obtain ⟨rfl, rfl⟩ := Prod.mk.inj heq
      rw [filter_presentFields_of_not_mem hnd.1]
      cases o <;> simp
    · have hne : key ≠ name := by
        rintro rfl
        exact hnd.1 (List.mem_map.mpr ⟨_, h, rfl⟩)
      rw [ih hnd.2 h]
      cases value <;> simp [hne]

theorem field_presentFields {l : List (String × Option Json)} {name : String} {o : Option Json}
    (hnd : (l.map Prod.fst).Nodup) (h : (name, o) ∈ l) : field (presentFields l) name = .ok o := by
  rw [field, filter_presentFields hnd h]
  cases o <;> rfl

theorem required_presentFields {α : Type} {read : Json → Except String α}
    {l : List (String × Option Json)} {name : String} {j : Json}
    (hnd : (l.map Prod.fst).Nodup) (h : (name, some j) ∈ l) :
    required read (presentFields l) name = read j := by
  rw [required, field_presentFields hnd h]
  rfl

/-- A field skipped exactly when it has its default is read back. -/
theorem defaulted_presentFields {α : Type} {default a : α} {read : Json → Except String α}
    {l : List (String × Option Json)} {name : String} {o : Option Json}
    (hnd : (l.map Prod.fst).Nodup) (h : (name, o) ∈ l)
    (hnone : o = none → a = default) (hsome : ∀ j, o = some j → read j = .ok a) :
    defaulted default read (presentFields l) name = .ok a := by
  rw [defaulted, field_presentFields hnd h]
  cases o with
  | none => rw [hnone rfl]; rfl
  | some j => exact hsome j rfl

theorem readString_str (s : String) : readString (str s) = .ok s := rfl

theorem readOption_str (s : String) : readOption readString (str s) = .ok (some s) := rfl

theorem readOption_bool (b : Bool) : readOption readBool (bool b) = .ok (some b) := rfl

theorem readList_arr {α : Type} {read : Json → Except String α} {write : α → Json} {l : List α}
    (h : ∀ a ∈ l, read (write a) = .ok a) : readList read (arr (l.map write)) = .ok l :=
  mapM_map_eq_ok h

theorem readMap_writeMap {α : Type} {read : Json → Except String α} {write : α → Json}
    {m : OrdMap String α} (h : ∀ a, read (write a) = .ok a) :
    readMap read (writeMap write m) = .ok m := by
  have hmap : (m.entries.map fun e => (e.1, write e.2)).mapM
      (fun e => do return (e.1, ← read e.2)) = .ok m.entries := by
    refine mapM_map_eq_ok fun e _ => ?_
    simp only [bind_eq_ok, pure_eq_ok]
    exact ⟨e.2, h e.2, rfl⟩
  simp only [readMap, writeMap, bind_eq_ok, pure_eq_ok]
  exact ⟨m.entries, hmap, OrdMap.insertAll_of_entries m⟩

theorem skipIf_eq_none {b : Bool} {j : Json} (h : skipIf b j = none) : b = true := by
  by_contra hb
  simp [skipIf, hb] at h

theorem skipIf_eq_some {b : Bool} {j j' : Json} (h : skipIf b j = some j') : j' = j := by
  rw [skipIf] at h
  split_ifs at h
  exact (Option.some_inj.mp h).symm

/-- A map skipped when empty is read back. -/
theorem defaulted_map {α : Type} {read : Json → Except String α} {write : α → Json}
    {l : List (String × Option Json)} {name : String} {m : OrdMap String α}
    (hnd : (l.map Prod.fst).Nodup) (hread : ∀ a, read (write a) = .ok a)
    (h : (name, skipIf m.isEmpty (writeMap write m)) ∈ l) :
    defaulted ∅ (readMap read) (presentFields l) name = .ok m :=
  defaulted_presentFields hnd h (fun hn => OrdMap.eq_empty_of_isEmpty (skipIf_eq_none hn))
    fun j hj => by
      rw [skipIf_eq_some hj]
      exact readMap_writeMap hread

/-- A list skipped when empty is read back. -/
theorem defaulted_list {α : Type} {read : Json → Except String α} {write : α → Json}
    {l : List (String × Option Json)} {name : String} {as : List α}
    (hnd : (l.map Prod.fst).Nodup) (hread : ∀ a, read (write a) = .ok a)
    (h : (name, skipIf as.isEmpty (arr (as.map write))) ∈ l) :
    defaulted [] (readList read) (presentFields l) name = .ok as :=
  defaulted_presentFields hnd h (fun hn => by simpa using skipIf_eq_none hn) fun j hj => by
    rw [skipIf_eq_some hj]
    exact readList_arr fun a _ => hread a

/-- An optional value skipped when absent is read back. -/
theorem defaulted_option {α : Type} {read : Json → Except String α} {write : α → Json}
    {l : List (String × Option Json)} {name : String} {o : Option α}
    (hnd : (l.map Prod.fst).Nodup) (hread : ∀ a, readOption read (write a) = .ok (some a))
    (h : (name, o.map write) ∈ l) :
    defaulted none (readOption read) (presentFields l) name = .ok o :=
  defaulted_presentFields hnd h (by simp) fun j hj => by
    obtain ⟨a, ha, rfl⟩ := Option.map_eq_some_iff.mp hj
    rw [ha, hread]

end Json

open Json

namespace DerivedHookOutput

def names : List String := ["attestation", "hook", "key", "treeDigest"]

/-- Fields in document order, `none` where skipped. -/
def fields (o : DerivedHookOutput) : List (String × Option Json) := [
  ("attestation", some (str o.attestation)),
  ("hook", some (str o.hook)),
  ("key", some (str o.key)),
  ("treeDigest", some (str o.treeDigest))]

def toValue (o : DerivedHookOutput) : Json := record o.fields

/-- Unknown fields are denied. -/
def ofValue (j : Json) : Except String DerivedHookOutput := do
  let fields ← structFields names j
  rejectIf (fields.any fun e => !names.elem e.1) "unknown field"
  return {
    attestation := ← required readString fields "attestation"
    hook := ← required readString fields "hook"
    key := ← required readString fields "key"
    treeDigest := ← required readString fields "treeDigest" }

theorem nodup_fields (o : DerivedHookOutput) : (o.fields.map Prod.fst).Nodup :=
  (by decide : names.Nodup)

theorem known_fields (o : DerivedHookOutput) :
    ¬ ((presentFields o.fields).any fun e => !names.elem e.1) = true := by
  simp [presentFields, fields, names]

@[simp] theorem ofValue_toValue (o : DerivedHookOutput) : ofValue o.toValue = .ok o := by
  have hstr : ∀ name s, (name, some (str s)) ∈ o.fields →
      required readString (presentFields o.fields) name = .ok s := fun name s h =>
    required_presentFields o.nodup_fields h
  simp only [ofValue, toValue, structFields_record, bind_eq_ok, pure_eq_ok, rejectIf_eq_ok]
  exact ⟨_, rfl, (), o.known_fields, _, hstr _ o.attestation (by simp [fields]), _,
    hstr _ o.hook (by simp [fields]), _, hstr _ o.key (by simp [fields]), _,
    hstr _ o.treeDigest (by simp [fields]), rfl⟩

end DerivedHookOutput

namespace LocalWorkspaceSource

/-- Fields in document order, `none` where skipped. -/
def fields (s : LocalWorkspaceSource) : List (String × Option Json) := [
  ("path", some (str s.path)),
  ("name", some (str s.name.text)),
  ("version", some (str s.version.display))]

def toValue (s : LocalWorkspaceSource) : Json := record s.fields

def ofValue (j : Json) : Except String LocalWorkspaceSource := do
  let fields ← structFields ["path", "name", "version"] j
  let path ← required readString fields "path"
  let name ← required readString fields "name"
  let version ← required readString fields "version"
  (new path name version).mapError fun _ => "invalid workspace source"

theorem nodup_fields (s : LocalWorkspaceSource) : (s.fields.map Prod.fst).Nodup :=
  (by decide : ["path", "name", "version"].Nodup)

@[simp] theorem ofValue_toValue (s : LocalWorkspaceSource) : ofValue s.toValue = .ok s := by
  have hstr : ∀ name t, (name, some (str t)) ∈ s.fields →
      required readString (presentFields s.fields) name = .ok t := fun name t h =>
    required_presentFields s.nodup_fields h
  simp only [ofValue, toValue, structFields_record, bind_eq_ok, mapError_eq_ok]
  exact ⟨_, rfl, _, hstr _ s.path (by simp [fields]), _, hstr _ s.name.text (by simp [fields]), _,
    hstr _ s.version.display (by simp [fields]), s.new_self⟩

end LocalWorkspaceSource

namespace LockedPackage

def names : List String := ["registry", "name", "version", "artifactIntegrity",
  "registryIntegrityDeclared", "unpackedDigest", "treeDigest", "derivedHooks", "artifactUrl",
  "peerContext", "platformContext", "dependencies", "dependencyAliases"]

/-- Fields in document order, `none` where skipped. -/
def fields (p : LockedPackage) : List (String × Option Json) := [
  ("registry", some (str p.registry)),
  ("name", some (str p.name)),
  ("version", some (str p.version)),
  ("artifactIntegrity", some (str p.artifactIntegrity)),
  ("registryIntegrityDeclared", p.registryIntegrityDeclared.map Json.bool),
  ("unpackedDigest", some (str p.unpackedDigest)),
  ("treeDigest", some (str p.treeDigest)),
  ("derivedHooks", skipIf p.derivedHooks.isEmpty (arr (p.derivedHooks.map DerivedHookOutput.toValue))),
  ("artifactUrl", p.artifactUrl.map str),
  ("peerContext", skipIf (p.peerContext == "") (str p.peerContext)),
  ("platformContext", skipIf (p.platformContext == "") (str p.platformContext)),
  ("dependencies", some (writeMap str p.dependencies)),
  ("dependencyAliases", skipIf p.dependencyAliases.isEmpty (writeMap str p.dependencyAliases))]

def toValue (p : LockedPackage) : Json := record p.fields

def ofValue (j : Json) : Except String LockedPackage := do
  let fields ← structFields names j
  return {
    registry := ← required readString fields "registry"
    name := ← required readString fields "name"
    version := ← required readString fields "version"
    artifactIntegrity := ← required readString fields "artifactIntegrity"
    registryIntegrityDeclared :=
      ← defaulted none (readOption readBool) fields "registryIntegrityDeclared"
    unpackedDigest := ← required readString fields "unpackedDigest"
    treeDigest := ← required readString fields "treeDigest"
    derivedHooks := ← defaulted [] (readList DerivedHookOutput.ofValue) fields "derivedHooks"
    artifactUrl := ← defaulted none (readOption readString) fields "artifactUrl"
    peerContext := ← defaulted "" readString fields "peerContext"
    platformContext := ← defaulted "" readString fields "platformContext"
    dependencies := ← required (readMap readString) fields "dependencies"
    dependencyAliases := ← defaulted ∅ (readMap readString) fields "dependencyAliases" }

theorem nodup_fields (p : LockedPackage) : (p.fields.map Prod.fst).Nodup :=
  (by decide : names.Nodup)

@[simp] theorem ofValue_toValue (p : LockedPackage) : ofValue p.toValue = .ok p := by
  have hstr : ∀ name s, (name, some (str s)) ∈ p.fields →
      required readString (presentFields p.fields) name = .ok s := fun name s h =>
    required_presentFields p.nodup_fields h
  have hctx : ∀ name (s : String), (name, skipIf (s == "") (str s)) ∈ p.fields →
      defaulted "" readString (presentFields p.fields) name = .ok s := fun name s h =>
    defaulted_presentFields p.nodup_fields h (fun hn => by simpa using skipIf_eq_none hn)
      fun j hj => by rw [skipIf_eq_some hj]; rfl
  have hdeps : required (readMap readString) (presentFields p.fields) "dependencies" =
      .ok p.dependencies :=
    (required_presentFields p.nodup_fields (j := writeMap str p.dependencies)
      (by simp [fields])).trans (readMap_writeMap readString_str)
  simp only [ofValue, toValue, structFields_record, bind_eq_ok, pure_eq_ok]
  exact ⟨_, rfl, _, hstr _ p.registry (by simp [fields]), _, hstr _ p.name (by simp [fields]), _,
    hstr _ p.version (by simp [fields]), _, hstr _ p.artifactIntegrity (by simp [fields]), _,
    defaulted_option p.nodup_fields readOption_bool (by simp [fields]), _,
    hstr _ p.unpackedDigest (by simp [fields]), _, hstr _ p.treeDigest (by simp [fields]), _,
    defaulted_list p.nodup_fields DerivedHookOutput.ofValue_toValue (by simp [fields]), _,
    defaulted_option p.nodup_fields readOption_str (by simp [fields]), _,
    hctx _ p.peerContext (by simp [fields]), _, hctx _ p.platformContext (by simp [fields]), _,
    hdeps, _, defaulted_map p.nodup_fields readString_str (by simp [fields]), rfl⟩

end LockedPackage

namespace LockedWorkspacePackage

def names : List String := ["source", "manifestDigest", "dependencies", "dependencyAliases"]

/-- Fields in document order, `none` where skipped. -/
def fields (p : LockedWorkspacePackage) : List (String × Option Json) := [
  ("source", some p.source.toValue),
  ("manifestDigest", some (str p.manifestDigest)),
  ("dependencies", skipIf p.dependencies.isEmpty (writeMap str p.dependencies)),
  ("dependencyAliases", skipIf p.dependencyAliases.isEmpty (writeMap str p.dependencyAliases))]

def toValue (p : LockedWorkspacePackage) : Json := record p.fields

def ofValue (j : Json) : Except String LockedWorkspacePackage := do
  let fields ← structFields names j
  return {
    source := ← required LocalWorkspaceSource.ofValue fields "source"
    manifestDigest := ← required readString fields "manifestDigest"
    dependencies := ← defaulted ∅ (readMap readString) fields "dependencies"
    dependencyAliases := ← defaulted ∅ (readMap readString) fields "dependencyAliases" }

theorem nodup_fields (p : LockedWorkspacePackage) : (p.fields.map Prod.fst).Nodup :=
  (by decide : names.Nodup)

@[simp] theorem ofValue_toValue (p : LockedWorkspacePackage) : ofValue p.toValue = .ok p := by
  have hsource : required LocalWorkspaceSource.ofValue (presentFields p.fields) "source" =
      .ok p.source :=
    (required_presentFields p.nodup_fields (by simp [fields])).trans p.source.ofValue_toValue
  have hdigest : required readString (presentFields p.fields) "manifestDigest" =
      .ok p.manifestDigest :=
    required_presentFields p.nodup_fields (j := str p.manifestDigest) (by simp [fields])
  simp only [ofValue, toValue, structFields_record, bind_eq_ok, pure_eq_ok]
  exact ⟨_, rfl, _, hsource, _, hdigest, _,
    defaulted_map p.nodup_fields readString_str (by simp [fields]), _,
    defaulted_map p.nodup_fields readString_str (by simp [fields]), rfl⟩

end LockedWorkspacePackage

namespace Lockfile

def names : List String := ["lockfileVersion", "rootManifestDigest", "resolverVersion",
  "linkerVersion", "roots", "rootBindings", "packages", "workspacePackages"]

/-- Fields in document order, `none` where skipped. -/
def fields (l : Lockfile) : List (String × Option Json) := [
  ("lockfileVersion", some (int l.lockfileVersion)),
  ("rootManifestDigest", some (str l.rootManifestDigest)),
  ("resolverVersion", some (str l.resolverVersion)),
  ("linkerVersion", some (str l.linkerVersion)),
  ("roots", skipIf l.roots.isEmpty (arr (l.roots.map str))),
  ("rootBindings", skipIf l.rootBindings.isEmpty (writeMap str l.rootBindings)),
  ("packages", some (writeMap LockedPackage.toValue l.packages)),
  ("workspacePackages",
    skipIf l.workspacePackages.isEmpty (writeMap LockedWorkspacePackage.toValue l.workspacePackages))]

def toValue (l : Lockfile) : Json := record l.fields

def ofValue (j : Json) : Except String Lockfile := do
  let fields ← structFields names j
  return {
    lockfileVersion := ← required readU32 fields "lockfileVersion"
    rootManifestDigest := ← required readString fields "rootManifestDigest"
    resolverVersion := ← required readString fields "resolverVersion"
    linkerVersion := ← required readString fields "linkerVersion"
    roots := ← defaulted [] (readList readString) fields "roots"
    rootBindings := ← defaulted ∅ (readMap readString) fields "rootBindings"
    packages := ← required (readMap LockedPackage.ofValue) fields "packages"
    workspacePackages :=
      ← defaulted ∅ (readMap LockedWorkspacePackage.ofValue) fields "workspacePackages" }

theorem nodup_fields (l : Lockfile) : (l.fields.map Prod.fst).Nodup := (by decide : names.Nodup)

/-- **A lockfile is read back from its JSON value.** -/
theorem ofValue_toValue {l : Lockfile} (h : l.lockfileVersion < 2 ^ 32) :
    ofValue l.toValue = .ok l := by
  have hstr : ∀ name s, (name, some (str s)) ∈ l.fields →
      required readString (presentFields l.fields) name = .ok s := fun name s hmem =>
    required_presentFields l.nodup_fields hmem
  have hversion : required readU32 (presentFields l.fields) "lockfileVersion" =
      .ok l.lockfileVersion := by
    rw [required_presentFields l.nodup_fields (j := int l.lockfileVersion) (by simp [fields]),
      readU32, if_pos ⟨Int.natCast_nonneg _, by exact_mod_cast h⟩, Int.toNat_natCast]
  have hpackages : required (readMap LockedPackage.ofValue) (presentFields l.fields) "packages" =
      .ok l.packages :=
    (required_presentFields l.nodup_fields (by simp [fields])).trans
      (readMap_writeMap LockedPackage.ofValue_toValue)
  simp only [ofValue, toValue, structFields_record, bind_eq_ok, pure_eq_ok]
  exact ⟨_, rfl, _, hversion, _, hstr _ l.rootManifestDigest (by simp [fields]), _,
    hstr _ l.resolverVersion (by simp [fields]), _, hstr _ l.linkerVersion (by simp [fields]), _,
    defaulted_list l.nodup_fields readString_str (by simp [fields]), _,
    defaulted_map l.nodup_fields readString_str (by simp [fields]), _, hpackages, _,
    defaulted_map l.nodup_fields LockedWorkspacePackage.ofValue_toValue (by simp [fields]), rfl⟩

/-! ### Writing and reading documents -/

section Documents

variable (url : UrlParser) (codec : JsonCodec)

def validateAliasSchema (l : Lockfile) : Except LockfileError Unit := do
  rejectIf (l.lockfileVersion < Schema.lifecycleLockfileVersion ∧
      l.packages.values.any fun p => !p.derivedHooks.isEmpty)
    (.invalidDerivedOutput "derived hooks require schema 9")
  rejectIf (l.lockfileVersion < Schema.copiedSourceLockfileVersion ∧
      l.packages.values.any (LockedPackage.isCopied url))
    (.unsupportedVersion l.lockfileVersion)
  checkAll (fun p => validateDerivedHooks p.derivedHooks) l.packages.values
  rejectIf (l.lockfileVersion < Schema.lockfileVersion ∧
      (¬ l.rootBindings.isEmpty ∨ l.packages.values.any fun p => !p.dependencyAliases.isEmpty))
    (.aliasMetadataInLegacySchema l.lockfileVersion)

/-- Whether there is any entry. -/
def hasPackages (l : Lockfile) : Bool := !l.packages.isEmpty || !l.workspacePackages.isEmpty

/-- The first registry package without recorded integrity provenance. -/
def missingProvenance (l : Lockfile) : Option (String × LockedPackage) :=
  l.packages.entries.find? fun e => e.2.isRegistry url && e.2.registryIntegrityDeclared.isNone

/-- Registry packages of schemas from `version` on record their provenance. -/
def checkProvenance (l : Lockfile) (version : Nat) : Except LockfileError Unit :=
  if version ≤ l.lockfileVersion then
    match l.missingProvenance url with
    | some e => .error (.missingRegistryIntegrityProvenance e.1)
    | none => .ok ()
  else .ok ()

def toJson (l : Lockfile) : Except LockfileError String := do
  l.validateAliasSchema url
  rejectIf (Schema.rootsLegacyLockfileVersion ≤ l.lockfileVersion ∧ l.hasPackages ∧ l.roots = [])
    .missingRoots
  l.checkProvenance url Schema.rootsLegacyLockfileVersion
  return codec.encode l.toValue ++ "\n"

/-- The versions a reader accepts. -/
def isSupportedVersion (version : Nat) : Bool :=
  version == Schema.copiedSourceLockfileVersion || version == Schema.lockfileVersion ||
    version == Schema.lifecycleLockfileVersion || version == Schema.legacyLockfileVersion ||
    version == Schema.provenanceLegacyLockfileVersion ||
    version == Schema.registryOnlyLockfileVersion

/-- A stored entry parses, validates and carries its own key. -/
def checkEntry {P : Type} (validate : P → Except LockfileError Unit) (key : P → String)
    (entry : String × P) : Except LockfileError Unit := do
  let _ ← LockfilePackageKey.parse url entry.1
  validate entry.2
  rejectIf (entry.1 ≠ key entry.2) (.packageKeyMismatch entry.1)

/-- Bindings that were read are set again, for the checks this makes. -/
def rewriteBindings (l : Lockfile) : Except LockfileError Unit :=
  if l.rootBindings.isEmpty then .ok ()
  else
    match setRootBindings url l.rootBindings l with
    | .ok _ _ => .ok ()
    | .error e _ => .error e

/-- The checks of `from_json` after its digest has been made canonical. -/
def checkDocument (l : Lockfile) : Except LockfileError Unit := do
  rejectIf (Schema.provenanceLegacyLockfileVersion ≤ l.lockfileVersion ∧ l.hasPackages ∧ l.roots = [])
    .missingRoots
  l.checkProvenance url Schema.registryOnlyLockfileVersion
  rejectIf (sortDedup l.roots ≠ l.roots) .nonCanonicalRoots
  rejectIf (l.lockfileVersion < Schema.lockfileVersion ∧ ¬ l.workspacePackages.isEmpty)
    .workspaceIdentityRequiresCurrentVersion
  checkAll (l.checkRoot url) l.roots
  l.validateAliasSchema url
  l.rewriteBindings url
  checkAll (checkEntry url (LockedPackage.validate url) (LockedPackage.key url)) l.packages.entries
  checkAll (checkEntry url (LockedWorkspacePackage.validate url) LockedWorkspacePackage.key)
    l.workspacePackages.entries
  checkEdges url LockedPackage.dependencies LockedPackage.dependencyAliases l.containsPackageKey
    l.packages.entries
  checkEdges url LockedWorkspacePackage.dependencies LockedWorkspacePackage.dependencyAliases
    l.containsPackageKey l.workspacePackages.entries

def fromJson (input : String) : Except LockfileError Lockfile := do
  let value ← (codec.decode input).mapError LockfileError.serialization
  let parsed ← (ofValue value).mapError LockfileError.serialization
  rejectIf (¬ isSupportedVersion parsed.lockfileVersion) (.unsupportedVersion parsed.lockfileVersion)
  let digest ← canonicalArtifactDigest parsed.rootManifestDigest
  let l := { parsed with rootManifestDigest := digest }
  l.checkDocument url
  return l

end Documents

end Lockfile

end Tapid
