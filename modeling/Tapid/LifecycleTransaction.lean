/-
The records a lifecycle transaction writes.

A transaction begins with a record of the manifest and the lockfile, adds the
member roots and the store root, and marks the record committed.  What it looks
at is one `Disk`, the same for every look: the manifest, the member directories
and the store stay what they are from the first record to recovery.  Names are
texts; paths that are not UTF-8 are not modelled.

* `beginRecord`, `setMemberRoots`, `setStoreRoot` — what is recorded;
* `acceptRecord` — what recovery asks of the bytes it reads;
* `Transaction` — the records in memory and on disk, over all runs;
* `Transaction.acceptRecord_eq_ok` — recovery accepts what is on disk.
-/
import Tapid.JsonText
import Tapid.LifecycleRecord
import Tapid.PathText
import Tapid.RelativePath

namespace Tapid

open FileSystem Interrupted Fallible Text LexicalPath

namespace LifecycleTransaction

/-! ### What is looked at -/

/-- Directories and files, by what the system says about paths. -/
structure Disk where
  /-- `fs::canonicalize` -/
  canonicalize : List Component → Except IoError AbsPath
  /-- `fs::symlink_metadata` -/
  kind : List Component → Except IoError Kind

/-- An absolute path, by components. -/
def ofNames (path : AbsPath) : List Component := .rootDir :: path.map fun name => .normal name.toList

/-- What is documented of canonical paths. -/
structure Disk.Lawful (disk : Disk) : Prop where
  proper : ∀ {path canonical}, disk.canonicalize path = .ok canonical → ∀ name ∈ canonical, ProperName name.toList
  idem : ∀ {path canonical}, disk.canonicalize path = .ok canonical → disk.canonicalize (ofNames canonical) = .ok canonical
  /-- So is the directory of a canonical path. -/
  parent : ∀ {path name}, disk.canonicalize (ofNames (path ++ [name])) = .ok (path ++ [name]) →
    disk.canonicalize (ofNames path) = .ok path
  /-- A file that is no link is the same file under its canonical path. -/
  file : ∀ {path canonical}, disk.canonicalize path = .ok canonical → disk.kind path = .ok .file →
    disk.kind (ofNames canonical) = .ok .file

/-- The snapshots are kept as text. -/
structure Base64 where
  encode : List UInt8 → String
  decode : String → Except String (List UInt8)

/-- Four characters for three bytes, and back. -/
def Base64.Keeps (base64 : Base64) (bytes : List UInt8) : Prop :=
  byteLen (base64.encode bytes).toList = (bytes.length + 2) / 3 * 4 ∧ base64.decode (base64.encode bytes) = .ok bytes

section Checks

variable (disk : Disk)

def exists? (path : List Component) : Except String Bool :=
  match disk.kind path with
  | .ok _ => .ok true
  | .error .notFound => .ok false
  | .error e => .error ("cannot inspect lifecycle state: " ++ e.text)

def relativePathText (names : List (List Char)) : String := String.ofList (relativeText names)

/-- `Path::strip_prefix` -/
def stripBase {α : Type} [DecidableEq α] : List α → List α → Option (List α)
  | [], path => some path
  | _ :: _, [] => none
  | c :: base, d :: path => if c = d then stripBase base path else none

def isNormal : Component → Bool
  | .normal _ => true
  | _ => false

/-- A canonical path consists of names. -/
def relativeManifestPath (project manifestPath : List Component) : Except String String := do
  let project ← (disk.canonicalize project).mapError fun e => "cannot resolve lifecycle project root: " ++ e.text
  let candidate := push (ofNames project) manifestPath
  let kind ← (disk.kind candidate).mapError fun e => "cannot inspect lifecycle manifest target: " ++ e.text
  rejectIf (kind ≠ .file) "lifecycle manifest target must be a regular, non-symlink file"
  let canonical ← (disk.canonicalize candidate).mapError fun e => "cannot resolve lifecycle manifest target: " ++ e.text
  let relative ← orError (stripBase project canonical) "lifecycle manifest target escapes the project root"
  rejectIf (relative = []) "lifecycle manifest target has an unsafe relative path"
  return relativePathText (relative.map String.toList)

def recoveryManifestPath (project : List Component) (relative : String) : Except String (List Component) := do
  let path := components .unix relative.toList
  rejectIf (relative = "" ∨ path.head? = some .rootDir ∨ path.any (fun c => !isNormal c))
    "refusing to recover lifecycle manifest through an unsafe path"
  let root ← (disk.canonicalize project).mapError fun e => "cannot resolve lifecycle project root: " ++ e.text
  let target := push (ofNames root) path
  let parent ← (disk.canonicalize target.dropLast).mapError fun e =>
    "cannot resolve lifecycle manifest parent: " ++ e.text
  rejectIf (¬ root <+: parent) "refusing to recover lifecycle manifest outside project root"
  match disk.kind target with
  | .ok .file => return target
  | .ok _ => throw "refusing to recover lifecycle manifest over a non-regular file"
  | .error .notFound => return target
  | .error e => throw ("cannot inspect lifecycle manifest during recovery: " ++ e.text)

def validateMemberRoot (project member : List Component) : Except String Unit := do
  let relative ← orError (stripBase project member) "member activation escapes project"
  rejectIf (relative = [] ∨ relative.any (fun c => !isNormal c || c == .normal "node_modules".toList))
    "refusing unsafe lifecycle member path"
  match disk.canonicalize member with
  | .error _ => throw "refusing noncanonical lifecycle member path"
  | .ok canonical =>
    rejectIf (ofNames canonical ≠ member) "refusing noncanonical lifecycle member path"
    let kind ← (disk.kind member).mapError IoError.text
    rejectIf (kind ≠ .directory) "lifecycle member must be a directory"

/-- Members come in the order of their paths, each of them once. -/
def memberPathsAfter (project : List Component) (previous : Option String) :
    List MemberActivation → Except String (List (List Component))
  | [] => .ok []
  | member :: members => do
    rejectIf ((components .unix member.path.toList).head? = some .rootDir ∨ previous.any (fun p => decide (member.path ≤ p)))
      "refusing unsafe or duplicate lifecycle member path"
    let path := push project (components .unix member.path.toList)
    validateMemberRoot disk project path
    return path :: (← memberPathsAfter project (some member.path) members)

def memberPaths (project : List Component) (members : List MemberActivation) : Except String (List (List Component)) :=
  memberPathsAfter disk project none members

end Checks

/-! ### What is recorded -/

section Records

variable (disk : Disk) (base64 : Base64) (project : List Component)

def journalFile : List Component := push project [.normal ".tapid-lifecycle-journal.json".toList]

def markerFile (root : List Component) : List Component := push root [.normal ".tapid-managed".toList]

def nodeModules (root : List Component) : List Component := push root [.normal "node_modules".toList]

/-- `LifecycleJournal::begin`, up to the write. -/
def beginRecord (manifestPath : List Component) (owner : String) (manifest : List UInt8) (lock : Option (List UInt8)) :
    Except String LifecycleRecord := do
  rejectIf (¬ validOwner owner = true) "refusing to create lifecycle journal with invalid owner"
  rejectIf (maxSnapshotBytes < manifest.length ∨ lock.any (fun bytes => decide (maxSnapshotBytes < bytes.length)))
    "lifecycle recovery state exceeds size limit"
  match disk.kind (journalFile project) with
  | .ok _ => throw "an unfinished lifecycle transaction requires recovery"
  | .error .notFound =>
    let markerExisted ← exists? disk (markerFile project)
    let nodeModulesExisted ← exists? disk (nodeModules project)
    let relative ← relativeManifestPath disk project manifestPath
    return {
      version := 2
      manifestPath := relative
      owner
      state := .prepared
      manifestExisted := true
      manifest := base64.encode manifest
      lockExisted := lock.isSome
      lock := (lock.map base64.encode).getD ""
      markerExisted
      nodeModulesExisted
      storeRoot := none
      members := [] }
  | .error e => throw ("cannot inspect lifecycle journal: " ++ e.text)

/-- The trees of the members are checked by the activation. -/
def memberActivation (managed : List Component → Except String Unit) (root : List Component) :
    Except String MemberActivation := do
  managed root
  let relative ← orError (stripBase project root) "member activation escapes project"
  let markerExisted ← exists? disk (markerFile root)
  let nodeModulesExisted ← exists? disk (nodeModules root)
  return {
    path := relativePathText (relative.map Links.asOsStr)
    markerExisted
    nodeModulesExisted }

/-- `set_member_roots`, up to the write; without members nothing is written. -/
def setMemberRoots (managed : List Component → Except String Unit) (record : LifecycleRecord)
    (roots : List (List Component)) : Except String (Option LifecycleRecord) := do
  rejectIf (record.members ≠ []) "member activation roots already recorded"
  let members ← roots.mapM (memberActivation disk project managed)
  let sorted := members.insertionSort fun a b => a.path ≤ b.path
  let _ ← memberPaths disk project sorted
  return if sorted = [] then none else some { record with version := 3, members := sorted }

/-- `set_store_root`, up to the write. -/
def setStoreRoot (record : LifecycleRecord) (storeRoot : List Component) : Except String LifecycleRecord := do
  let canonical ← (disk.canonicalize storeRoot).mapError fun e =>
    "cannot canonicalize store root for recovery: " ++ e.text
  return { record with storeRoot := some (String.ofList (absoluteText (canonical.map String.toList))) }

/-- `mark_committed`, up to the write. -/
def markCommitted (record : LifecycleRecord) : LifecycleRecord := { record with state := .committed }

/-- The bytes of a record that is written. -/
def encodeRecord (codec : JsonCodec) (record : LifecycleRecord) : Except String (List UInt8) := do
  rejectIf (maxJournalBytes < (toVec codec record.toValue).length) "lifecycle recovery state exceeds encoded size limit"
  return toVec codec record.toValue

/-! ### What recovery asks -/

/-- A store root is the canonical path of a directory. -/
def checkStoreRoot (storeRoot : Option String) : Except String Unit :=
  match storeRoot with
  | none => .ok ()
  | some text =>
    let path := components .unix text.toList
    if path.head? = some .rootDir ∧ (disk.canonicalize path).toOption.map ofNames = some path then .ok ()
    else .error "refusing to recover lifecycle journal with noncanonical store root"

/-- The snapshots are read only where the change is undone. -/
def checkSnapshots (record : LifecycleRecord) : Except String Unit := do
  let _ ← (base64.decode record.manifest).mapError fun e => "invalid manifest bytes in lifecycle journal: " ++ e
  if record.lockExisted then
    let _ ← (base64.decode record.lock).mapError fun e => "invalid lockfile bytes in lifecycle journal: " ++ e
  else return ()

def checkRecord (staleOwner : Option String) (record : LifecycleRecord) : Except String Unit := do
  rejectIf (record.version ∉ [1, 2, 3] ∨ (record.version = 1 ∧ record.manifestPath ≠ defaultManifestPath) ∨
      ¬ validOwner record.owner = true ∨ staleOwner.any (fun owner => decide (record.owner ≠ owner)))
    "refusing to recover a lifecycle journal with invalid ownership"
  rejectIf (record.version < 3 ∧ record.members ≠ []) "member activation requires lifecycle version 3"
  let _ ← memberPaths disk project record.members
  let _ ← recoveryManifestPath disk project record.manifestPath
  rejectIf (maxEncodedSnapshotBytes < byteLen record.manifest.toList ∨ maxEncodedSnapshotBytes < byteLen record.lock.toList)
    "refusing to recover oversized lifecycle state"
  checkStoreRoot disk record.storeRoot
  if record.state = .prepared then checkSnapshots base64 record else return ()

/-- `recover`, up to where it acts on the record. -/
def acceptRecord (codec : JsonCodec) (staleOwner : Option String) (bytes : List UInt8) :
    Except String LifecycleRecord := do
  rejectIf (maxJournalBytes < bytes.length) "refusing to recover an oversized lifecycle journal"
  let record ← (parseRecord codec bytes).mapError fun e => "refusing to recover a malformed lifecycle journal: " ++ e
  checkRecord disk base64 project staleOwner record
  return record

end Records

/-! ### Runs -/

section Runs

variable (disk : Disk) (base64 : Base64) (codec : JsonCodec) (project : List Component)

/-- The JSON library reads back what it wrote for the record. -/
def ReadsBack (record : LifecycleRecord) : Prop := codec.decode (codec.encode record.toValue) = .ok record.toValue

/-- What is on disk after an attempt to write a record: its bytes, or what was there. -/
def Write (record : LifecycleRecord) (onDisk onDisk' : List UInt8) : Prop :=
  (encodeRecord codec record = .ok onDisk' ∧ ReadsBack codec record) ∨ onDisk' = onDisk

/-- The record a transaction holds in memory, and the bytes on disk. -/
inductive Transaction : LifecycleRecord → List UInt8 → Prop where
  | begin {manifestPath : List Component} {owner : String} {manifest : List UInt8} {lock : Option (List UInt8)}
    {record : LifecycleRecord} {onDisk : List UInt8} :
    beginRecord disk base64 project manifestPath owner manifest lock = .ok record → base64.Keeps manifest →
    (∀ bytes, lock = some bytes → base64.Keeps bytes) → encodeRecord codec record = .ok onDisk →
    ReadsBack codec record → Transaction record onDisk
  | members {managed : List Component → Except String Unit} {roots : List (List Component)}
    {record record' : LifecycleRecord} {onDisk onDisk' : List UInt8} : Transaction record onDisk →
    setMemberRoots disk project managed record roots = .ok (some record') → Write codec record' onDisk onDisk' →
    Transaction record' onDisk'
  | storeRoot {storeRoot : List Component} {record record' : LifecycleRecord} {onDisk onDisk' : List UInt8} :
    Transaction record onDisk → setStoreRoot disk record storeRoot = .ok record' → Write codec record' onDisk onDisk' →
    Transaction record' onDisk'
  | committed {record : LifecycleRecord} {onDisk onDisk' : List UInt8} : Transaction record onDisk →
    Write codec (markCommitted record) onDisk onDisk' → Transaction (markCommitted record) onDisk'

/-- What is true of every record of a transaction. -/
structure Sound (owner : String) (record : LifecycleRecord) : Prop where
  version : record.version = 2 ∧ record.members = [] ∨ record.version = 3
  owner : record.owner = owner ∧ validOwner owner = true
  members : ∃ paths, memberPaths disk project record.members = .ok paths
  manifest : ∃ target, recoveryManifestPath disk project record.manifestPath = .ok target
  sizes : byteLen record.manifest.toList ≤ maxEncodedSnapshotBytes ∧ byteLen record.lock.toList ≤ maxEncodedSnapshotBytes
  snapshots : checkSnapshots base64 record = .ok ()
  storeRoot : checkStoreRoot disk record.storeRoot = .ok ()

end Runs

section Sound

variable {disk : Disk} {base64 : Base64} {codec : JsonCodec} {project : List Component} {record : LifecycleRecord}
  {owner : String} {onDisk : List UInt8}

theorem stripBase_eq_some {α : Type} [DecidableEq α] {base path rest : List α} (h : stripBase base path = some rest) :
    path = base ++ rest := by
  induction base generalizing path with
  | nil => exact Option.some_inj.mp h
  | cons c base ih =>
    cases path with
    | nil => cases h
    | cons d path =>
      rw [stripBase] at h
      split_ifs at h with heq
      rw [heq, ih h, List.cons_append]

theorem push_names {path : AbsPath} {names : List (List Char)} (hproper : ∀ name ∈ names, ProperName name) :
    push (ofNames path) (names.map .normal) = ofNames path ++ names.map .normal := by
  have hkeep : (names.map Component.normal).filter (· ≠ .curDir) = names.map .normal := by
    rw [List.filter_eq_self]
    intro c hc
    obtain ⟨name, _, rfl⟩ := List.mem_map.mp hc
    rfl
  have hne : ofNames path ≠ [] := List.cons_ne_nil _ _
  cases names with
  | nil =>
    show (if ofNames path = [] then [] else ofNames path ++ []) = _
    rw [if_neg hne]
    rfl
  | cons name names =>
    show (if ofNames path = [] then (name :: names).map Component.normal
      else ofNames path ++ ((name :: names).map Component.normal).filter (· ≠ .curDir)) = _
    rw [if_neg hne, hkeep]

theorem ofNames_append (path rest : AbsPath) :
    ofNames (path ++ rest) = ofNames path ++ (rest.map String.toList).map .normal := by
  simp [ofNames]

/-- **The manifest that is recorded is found again.** -/
theorem recoveryManifestPath_of_relativeManifestPath (hlawful : disk.Lawful) {manifestPath : List Component}
    {relative : String} (h : relativeManifestPath disk project manifestPath = .ok relative) :
    ∃ target, recoveryManifestPath disk project relative = .ok target := by
  simp only [relativeManifestPath, bind_eq_ok, pure_eq_ok, rejectIf_eq_ok, mapError_eq_ok, orError_eq_ok] at h
  obtain ⟨root, hroot, kind, hkind, _, hfile, canonical, hcanonical, names, hnames, _, hne, rfl⟩ := h
  obtain rfl : kind = .file := not_not.mp hfile
  have hsplit : canonical = root ++ names := stripBase_eq_some hnames
  have hproper : ∀ name ∈ names.map String.toList, ProperName name := by
    intro name hname
    obtain ⟨text, htext, rfl⟩ := List.mem_map.mp hname
    exact hlawful.proper hcanonical text (hsplit ▸ List.mem_append_right _ htext)
  have hne' : names.map String.toList ≠ [] := by simpa using hne
  have hcomponents : components .unix (relativePathText (names.map String.toList)).toList =
      (names.map String.toList).map .normal := by
    rw [relativePathText, String.toList_ofList]
    exact components_relativeText hne' hproper
  have htarget : push (ofNames root) ((names.map String.toList).map .normal) = ofNames canonical := by
    rw [push_names hproper, hsplit, ofNames_append]
  -- its directory is canonical too, and below the project
  obtain ⟨init, last, rfl⟩ : ∃ init last, names = init ++ [last] :=
    ⟨_, _, (List.dropLast_append_getLast hne).symm⟩
  have hdirectory : disk.canonicalize (ofNames canonical).dropLast = .ok (root ++ init) := by
    have hdrop : (ofNames canonical).dropLast = ofNames (root ++ init) := by
      rw [hsplit, ← List.append_assoc, ofNames_append]
      exact List.dropLast_concat
    have hcanon : disk.canonicalize (ofNames (root ++ init ++ [last])) = .ok (root ++ init ++ [last]) := by
      rw [List.append_assoc, ← hsplit]
      exact hlawful.idem hcanonical
    rw [hdrop]
    exact hlawful.parent hcanon
  have hsafe : ¬ (relativePathText ((init ++ [last]).map String.toList) = "" ∨
      (((init ++ [last]).map String.toList).map Component.normal).head? = some .rootDir ∨
      (((init ++ [last]).map String.toList).map Component.normal).any (fun c => !isNormal c) = true) := by
    rintro (hempty | hroot' | hany)
    · rw [hempty] at hcomponents
      cases init with
      | nil => cases hcomponents
      | cons name init => cases hcomponents
    · cases init with
      | nil => cases hroot'
      | cons name init => cases hroot'
    · rw [List.any_map] at hany
      obtain ⟨name, _, hname⟩ := List.any_eq_true.mp hany
      cases hname
  refine ⟨ofNames canonical, ?_⟩
  rw [recoveryManifestPath]
  simp only [hcomponents, bind_eq_ok, rejectIf_eq_ok, mapError_eq_ok]
  refine ⟨(), hsafe, root, hroot, root ++ init, ?_, (), not_not.mpr (List.prefix_append _ _), ?_⟩
  · rw [htarget, hdirectory]
  · rw [htarget, hlawful.file hcanonical hkind]
    rfl

/-! #### The steps -/

/-- What is encoded fits. -/
theorem encoded_fits {bytes : List UInt8} (h : bytes.length ≤ maxSnapshotBytes) (hkeeps : base64.Keeps bytes) :
    byteLen (base64.encode bytes).toList ≤ maxEncodedSnapshotBytes := by
  rw [hkeeps.1, maxEncodedSnapshotBytes]
  exact Nat.mul_le_mul_right 4 (Nat.div_le_div_right (Nat.add_le_add_right h 2))

theorem sound_begin (hlawful : disk.Lawful) {manifestPath : List Component} {manifest : List UInt8}
    {lock : Option (List UInt8)}
    (h : beginRecord disk base64 project manifestPath owner manifest lock = .ok record)
    (hmanifest : base64.Keeps manifest) (hlock : ∀ bytes, lock = some bytes → base64.Keeps bytes) :
    Sound disk base64 project owner record := by
  simp only [beginRecord, bind_eq_ok, rejectIf_eq_ok] at h
  obtain ⟨_, howner, _, hsizes, h⟩ := h
  rw [not_or] at hsizes
  have hfree : disk.kind (journalFile project) = .error .notFound := by
    cases hkind : disk.kind (journalFile project) with
    | ok kind =>
      rw [hkind] at h
      cases h
    | error e =>
      rw [hkind] at h
      cases e with
      | notFound => rfl
      | alreadyExists => cases h
      | other => cases h
  rw [hfree] at h
  simp only [bind_eq_ok, pure_eq_ok] at h
  obtain ⟨markerExisted, _, nodeModulesExisted, _, relative, hrelative, rfl⟩ := h
  refine ⟨.inl ⟨rfl, rfl⟩, ⟨rfl, not_not.mp howner⟩, ⟨[], rfl⟩,
    recoveryManifestPath_of_relativeManifestPath hlawful hrelative, ?_, ?_, rfl⟩
  · refine ⟨encoded_fits (Nat.not_lt.mp hsizes.1) hmanifest, ?_⟩
    cases lock with
    | none => exact Nat.zero_le _
    | some bytes =>
      have hsize : ¬ maxSnapshotBytes < bytes.length := by simpa using hsizes.2
      exact encoded_fits (Nat.not_lt.mp hsize) (hlock bytes rfl)
  · simp only [checkSnapshots, bind_eq_ok, mapError_eq_ok]
    refine ⟨manifest, hmanifest.2, ?_⟩
    cases lock with
    | none => rfl
    | some bytes =>
      rw [if_pos (by rfl)]
      simp only [bind_eq_ok, mapError_eq_ok]
      exact ⟨bytes, (hlock bytes rfl).2, rfl⟩

theorem Sound.setMemberRoots (h : Sound disk base64 project owner record) {managed : List Component → Except String Unit}
    {roots : List (List Component)} {record' : LifecycleRecord}
    (hset : LifecycleTransaction.setMemberRoots disk project managed record roots = .ok (some record')) :
    Sound disk base64 project owner record' := by
  simp only [LifecycleTransaction.setMemberRoots, bind_eq_ok, pure_eq_ok, rejectIf_eq_ok] at hset
  obtain ⟨_, _, members, _, paths, hpaths, hset⟩ := hset
  split_ifs at hset with hempty
  obtain rfl := Option.some_inj.mp hset
  exact ⟨.inr rfl, h.owner, ⟨paths, hpaths⟩, h.manifest, h.sizes, h.snapshots, h.storeRoot⟩

theorem Sound.setStoreRoot (hlawful : disk.Lawful) (h : Sound disk base64 project owner record)
    {storeRoot : List Component} {record' : LifecycleRecord}
    (hset : LifecycleTransaction.setStoreRoot disk record storeRoot = .ok record') :
    Sound disk base64 project owner record' := by
  simp only [LifecycleTransaction.setStoreRoot, bind_eq_ok, pure_eq_ok, mapError_eq_ok] at hset
  obtain ⟨canonical, hcanonical, rfl⟩ := hset
  refine ⟨h.version, h.owner, h.members, h.manifest, h.sizes, h.snapshots, ?_⟩
  have hcomponents : components .unix (absoluteText (canonical.map String.toList)) = ofNames canonical := by
    rw [components_absoluteText, ofNames, List.map_map]
    · rfl
    · intro name hname
      obtain ⟨text, htext, rfl⟩ := List.mem_map.mp hname
      exact hlawful.proper hcanonical text htext
  show (if (components .unix (String.ofList (absoluteText (canonical.map String.toList))).toList).head? = some .rootDir ∧ _
    then _ else _ : Except String Unit) = _
  rw [String.toList_ofList, hcomponents, hlawful.idem hcanonical]
  exact if_pos ⟨rfl, rfl⟩

theorem Sound.markCommitted (h : Sound disk base64 project owner record) :
    Sound disk base64 project owner (LifecycleTransaction.markCommitted record) :=
  ⟨h.version, h.owner, h.members, h.manifest, h.sizes, h.snapshots, h.storeRoot⟩

/-! #### The whole -/

/-- What is on disk: a record of the transaction that fits and reads back. -/
def OnDisk (disk : Disk) (base64 : Base64) (codec : JsonCodec) (project : List Component) (owner : String)
    (onDisk : List UInt8) : Prop :=
  ∃ written, Sound disk base64 project owner written ∧ onDisk = toVec codec written.toValue ∧
    onDisk.length ≤ maxJournalBytes ∧ ReadsBack codec written

theorem OnDisk.write {record' : LifecycleRecord} {onDisk' : List UInt8} (h : OnDisk disk base64 codec project owner onDisk)
    (hsound : Sound disk base64 project owner record') (hwrite : Write codec record' onDisk onDisk') :
    OnDisk disk base64 codec project owner onDisk' := by
  rcases hwrite with ⟨hencode, hback⟩ | rfl
  · simp only [encodeRecord, bind_eq_ok, pure_eq_ok, rejectIf_eq_ok] at hencode
    obtain ⟨_, hfits, rfl⟩ := hencode
    exact ⟨record', hsound, rfl, Nat.not_lt.mp hfits, hback⟩
  · exact h

/-- **Every record of a transaction is sound**, in memory and on disk. -/
theorem Transaction.sound (hlawful : disk.Lawful) (h : Transaction disk base64 codec project record onDisk) :
    Sound disk base64 project record.owner record ∧ OnDisk disk base64 codec project record.owner onDisk := by
  induction h with
  | @begin manifestPath owner manifest lock record onDisk hbegin hmanifest hlock hencode hback =>
    have hsound := sound_begin hlawful hbegin hmanifest hlock
    obtain rfl := hsound.owner.1
    simp only [encodeRecord, bind_eq_ok, pure_eq_ok, rejectIf_eq_ok] at hencode
    obtain ⟨_, hfits, rfl⟩ := hencode
    exact ⟨hsound, record, hsound, rfl, Nat.not_lt.mp hfits, hback⟩
  | @members managed roots record record' onDisk onDisk' _ hset hwrite ih =>
    have hsound := ih.1.setMemberRoots hset
    have howner := hsound.owner.1
    rw [howner]
    exact ⟨hsound, ih.2.write hsound hwrite⟩
  | @storeRoot storeRoot record record' onDisk onDisk' _ hset hwrite ih =>
    have hsound := ih.1.setStoreRoot hlawful hset
    have howner := hsound.owner.1
    rw [howner]
    exact ⟨hsound, ih.2.write hsound hwrite⟩
  | committed _ hwrite ih => exact ⟨ih.1.markCommitted, ih.2.write ih.1.markCommitted hwrite⟩

/-- What is sound passes. -/
theorem Sound.check (h : Sound disk base64 project owner record) {staleOwner : Option String}
    (hstale : ∀ stale, staleOwner = some stale → stale = owner) :
    checkRecord disk base64 project staleOwner record = .ok () := by
  obtain ⟨paths, hpaths⟩ := h.members
  obtain ⟨target, htarget⟩ := h.manifest
  have hversion : record.version ∈ [1, 2, 3] ∧ record.version ≠ 1 ∧ ¬ (record.version < 3 ∧ record.members ≠ []) := by
    rcases h.version with ⟨hversion, hmembers⟩ | hversion
    · rw [hversion, hmembers]
      simp
    · rw [hversion]
      simp
  have hidentity : ¬ (record.version ∉ [1, 2, 3] ∨ (record.version = 1 ∧ record.manifestPath ≠ defaultManifestPath) ∨
      ¬ validOwner record.owner = true ∨ staleOwner.any (fun owner => decide (record.owner ≠ owner)) = true) := by
    rintro (hunknown | ⟨hone, _⟩ | hinvalid | hother)
    · exact hunknown hversion.1
    · exact hversion.2.1 hone
    · exact hinvalid (h.owner.1 ▸ h.owner.2)
    · obtain ⟨stale, hsome, hne⟩ := (Option.any_eq_true _ _).mp hother
      exact of_decide_eq_true hne (h.owner.1.trans (hstale stale hsome).symm)
  have hsizes : ¬ (maxEncodedSnapshotBytes < byteLen record.manifest.toList ∨
      maxEncodedSnapshotBytes < byteLen record.lock.toList) :=
    not_or.mpr ⟨Nat.not_lt.mpr h.sizes.1, Nat.not_lt.mpr h.sizes.2⟩
  simp only [checkRecord, bind_eq_ok, rejectIf_eq_ok]
  refine ⟨(), hidentity, (), hversion.2.2, paths, hpaths, target, htarget, (), hsizes, (), h.storeRoot, ?_⟩
  split_ifs
  · exact h.snapshots
  · rfl

/-- **Recovery accepts what a transaction has written**, at every point of it. -/
theorem Transaction.acceptRecord_eq_ok (hlawful : disk.Lawful) (h : Transaction disk base64 codec project record onDisk)
    {staleOwner : Option String} (hstale : ∀ stale, staleOwner = some stale → stale = record.owner) :
    ∃ accepted, acceptRecord disk base64 project codec staleOwner onDisk = .ok accepted := by
  obtain ⟨_, written, hsound, rfl, hfits, hback⟩ := h.sound hlawful
  have hversion : written.version < 2 ^ 32 := by
    rcases hsound.version with ⟨hversion, _⟩ | hversion
    · rw [hversion]
      decide
    · rw [hversion]
      decide
  refine ⟨written, ?_⟩
  simp only [acceptRecord, bind_eq_ok, pure_eq_ok, rejectIf_eq_ok, mapError_eq_ok]
  exact ⟨(), Nat.not_lt.mpr hfits, written, parseRecord_toVec hback hversion, (), hsound.check hstale, rfl⟩

end Sound

/-! ### One project -/

section Example

/-- A project with two members, and a store; there are no links. -/
def projectFiles : List (AbsPath × Kind) := [
  ([], .directory), (["p"], .directory), (["p", "package.json"], .file), (["p", "packages"], .directory),
  (["p", "packages", "a"], .directory), (["p", "packages", "b"], .directory), (["s"], .directory)]

def oneProject : Disk where
  canonicalize path :=
    match projectFiles.find? fun e => ofNames e.1 = path with
    | some e => .ok e.1
    | none => .error .notFound
  kind path :=
    match projectFiles.find? fun e => ofNames e.1 = path with
    | some e => .ok e.2
    | none => .error .notFound

theorem oneProject_canonicalize {path : List Component} {canonical : AbsPath}
    (h : oneProject.canonicalize path = .ok canonical) :
    path = ofNames canonical ∧ canonical ∈ projectFiles.map Prod.fst := by
  rw [oneProject] at h
  dsimp only at h
  split at h
  · rename_i e hfind
    obtain rfl := Except.ok.inj h
    have hpath := List.find?_some hfind
    rw [decide_eq_true_eq] at hpath
    exact ⟨hpath.symm, List.mem_map_of_mem (List.mem_of_find?_eq_some hfind)⟩
  · cases h

theorem oneProject_lawful : oneProject.Lawful where
  proper := by
    intro path canonical h name hname
    obtain ⟨_, hmem⟩ := oneProject_canonicalize h
    have hnames : ∀ canonical ∈ projectFiles.map Prod.fst, ∀ name ∈ canonical,
        name.toList ≠ [] ∧ name.toList ≠ ['.'] ∧ name.toList ≠ ['.', '.'] ∧ '/' ∉ name.toList := by
      decide
    obtain ⟨hnil, hdot, hdots, hslash⟩ := hnames canonical hmem name hname
    exact ⟨hnil, hdot, hdots, hslash⟩
  idem := by
    intro path canonical h
    obtain ⟨rfl, _⟩ := oneProject_canonicalize h
    exact h
  parent := by
    intro path name h
    obtain ⟨_, hmem⟩ := oneProject_canonicalize h
    have hparents : ∀ canonical ∈ projectFiles.map Prod.fst,
        oneProject.canonicalize (ofNames canonical.dropLast) = .ok canonical.dropLast := by
      decide
    have hparent := hparents _ hmem
    rwa [List.dropLast_concat] at hparent
  file := by
    intro path canonical h hfile
    obtain ⟨rfl, _⟩ := oneProject_canonicalize h
    exact hfile

def withoutPadding (text : List Char) : List Char :=
  if text.drop (text.length - 2) = ['=', '='] then text.take (text.length - 2)
  else if text.getLast? = some '=' then text.dropLast
  else text

/-- The standard alphabet, with padding. -/
def standardBase64 : Base64 where
  encode bytes := String.ofList (base64Encode (bytes.map UInt8.toNat))
  decode text := do
    rejectIf (text.toList.length % 4 ≠ 0) "Invalid padding"
    let bytes ← orError (base64Decode (withoutPadding text.toList)) "Invalid symbol"
    return bytes.map UInt8.ofNat

def manifestBytes : List UInt8 := utf8Bytes "\x7b\"name\":\"p\",\"workspaces\":[\"packages/*\"]\x7d".toList

/-- The record of an install of `p` without a lockfile. -/
def installRecord : LifecycleRecord where
  version := 2
  manifestPath := "package.json"
  owner := "1-a\n"
  state := .prepared
  manifestExisted := true
  manifest := "eyJuYW1lIjoicCIsIndvcmtzcGFjZXMiOlsicGFja2FnZXMvKiJdfQ=="
  lockExisted := false
  lock := ""
  markerExisted := false
  nodeModulesExisted := false
  storeRoot := none
  members := []

/-- With the members, in the order of their paths. -/
def memberRecord : LifecycleRecord := { installRecord with
  version := 3
  members := [⟨"packages/a", false, false⟩, ⟨"packages/b", false, false⟩] }

def storedRecord : LifecycleRecord := { memberRecord with storeRoot := some "/s" }

/-- The bytes of a record. -/
def recordBytes (record : LifecycleRecord) : List UInt8 := record.toValue.compact.flatMap String.utf8EncodeChar

theorem toVec_compactCodec (decode : String → Except String Json) (record : LifecycleRecord) :
    toVec (compactCodec decode) record.toValue = recordBytes record := by
  rw [toVec, recordBytes]
  show (String.ofList record.toValue.compact).toList.flatMap _ = _
  rw [String.toList_ofList]

def installBytes : List UInt8 := recordBytes installRecord

/-- The records of the install, in the order they are written. -/
def installRecords : List LifecycleRecord := [installRecord, memberRecord, storedRecord, markCommitted storedRecord]

/-- A library that reads their texts. -/
def installRecordCodec : JsonCodec := compactCodec (readDocument (installRecords.map LifecycleRecord.toValue))

theorem readsBack_installRecords {record : LifecycleRecord} (h : record ∈ installRecords) :
    ReadsBack installRecordCodec record := by
  have hnodup : ((installRecords.map LifecycleRecord.toValue).map Json.compact).Nodup := by decide +kernel
  rw [ReadsBack, installRecordCodec, decode_compactCodec]
  exact readDocument_compact hnodup (List.mem_map_of_mem h)

theorem encodeRecord_installRecords {record : LifecycleRecord} (h : record ∈ installRecords) :
    encodeRecord installRecordCodec record = .ok (recordBytes record) := by
  have hbytes : toVec installRecordCodec record.toValue = recordBytes record := toVec_compactCodec _ record
  have hlengths : ∀ record ∈ installRecords, (recordBytes record).length ≤ 500 := by decide +kernel
  have hfits : ¬ maxJournalBytes < (recordBytes record).length :=
    Nat.not_lt.mpr ((hlengths record h).trans (by decide))
  simp only [encodeRecord, bind_eq_ok, pure_eq_ok, rejectIf_eq_ok, hbytes]
  exact ⟨(), hfits, trivial⟩

/-- The whole transaction: the record is begun, the members and the store root
are added, and it is committed. -/
theorem storedRecord_transaction :
    Transaction oneProject standardBase64 installRecordCodec (ofNames ["p"]) (markCommitted storedRecord)
      (recordBytes (markCommitted storedRecord)) := by
  have hkeeps : standardBase64.Keeps manifestBytes := ⟨by decide +kernel, by decide +kernel⟩
  have hbegin : beginRecord oneProject standardBase64 (ofNames ["p"]) [.normal "package.json".toList] "1-a\n"
      manifestBytes none = .ok installRecord := by decide +kernel
  have hmembers : setMemberRoots oneProject (ofNames ["p"]) (fun _ => .ok ()) installRecord
      [ofNames ["p", "packages", "b"], ofNames ["p", "packages", "a"]] = .ok (some memberRecord) := by decide +kernel
  have hstore : setStoreRoot oneProject memberRecord (ofNames ["s"]) = .ok storedRecord := by decide +kernel
  have hwrite : ∀ record ∈ installRecords, ∀ onDisk, Write installRecordCodec record onDisk (recordBytes record) :=
    fun record h _ => .inl ⟨encodeRecord_installRecords h, readsBack_installRecords h⟩
  have hbegun : Transaction oneProject standardBase64 installRecordCodec (ofNames ["p"]) installRecord
      (recordBytes installRecord) :=
    .begin hbegin hkeeps (fun _ h => by cases h) (encodeRecord_installRecords (by simp [installRecords]))
      (readsBack_installRecords (by simp [installRecords]))
  have hmember := hbegun.members hmembers (hwrite _ (by simp [installRecords]) _)
  have hstored := hmember.storeRoot hstore (hwrite _ (by simp [installRecords]) _)
  exact hstored.committed (hwrite _ (by simp [installRecords]) _)

theorem acceptRecord_storedRecord :
    ∃ accepted, acceptRecord oneProject standardBase64 (ofNames ["p"]) installRecordCodec (some "1-a\n")
      (recordBytes (markCommitted storedRecord)) = .ok accepted :=
  storedRecord_transaction.acceptRecord_eq_ok oneProject_lawful fun _ h => (Option.some_inj.mp h).symm

end Example

end LifecycleTransaction

end Tapid
