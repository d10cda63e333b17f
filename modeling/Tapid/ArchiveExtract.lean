/-
Extracting an archive.

Entries are written one after the other into an empty directory.  A file system
takes a name for an entry that is there by its own rule, exactly or up to ASCII
case; what is created keeps the spelling it was first created with.

* `createDirAll`, `createNew` — the two operations, on trees;
* `shownAt_createDirAll`, `shownAt_createNew` — what they do at every path, as
  long as the names in question are told apart;
* `extractInner` — validation, extraction and the executable manifest.
-/
import Tapid.ArchiveEntries
import Tapid.TreeDigestView

namespace Tapid

open Text Fallible Bytes

/-! ### Names -/

/-- How a file system compares names. -/
inductive CaseRule where
  | sensitive
  | insensitive
  deriving DecidableEq

def FileName.fold (n : FileName) : List UInt8 := n.bytes.map lowerByte

/-- Whether an entry is found under a name. -/
def CaseRule.same : CaseRule → FileName → FileName → Bool
  | .sensitive, n, m => n == m
  | .insensitive, n, m => n.fold == m.fold

@[simp] theorem CaseRule.same_self (rule : CaseRule) (n : FileName) : rule.same n n = true := by
  cases rule <;> simp [CaseRule.same]

theorem FileName.bytes_injective : Function.Injective FileName.bytes := by
  intro n m h
  cases n
  cases m
  simp only at h
  subst h
  rfl

/-! ### Trees -/

inductive IoFailure where
  | alreadyExists
  | notADirectory
  | notFound
  deriving DecidableEq

inductive ExtractError where
  | io (failure : IoFailure)
  | invalid (error : ValidationError)
  | invalidArchive (message : String)
  deriving DecidableEq

section Operations

variable (rule : CaseRule)

/-- Change the entry that is found under a name, or add one. -/
def updateEntry (name : FileName) (f : Option FileNode → Except ExtractError FileNode) :
    DirEntries → Except ExtractError DirEntries
  | [] => do
    let node ← f none
    return [(name, node)]
  | (n, node) :: rest =>
    if rule.same n name then do
      let node' ← f (some node)
      return (n, node') :: rest
    else do
      let rest' ← updateEntry name f rest
      return (n, node) :: rest'

/-- `create_dir_all` below a directory.  A node that is no directory is in the
way as the last part of the path or as one above it. -/
def createDirAll : List FileName → DirEntries → Except ExtractError DirEntries
  | [], entries => .ok entries
  | name :: rest, entries =>
    updateEntry rule name (fun found => match found with
      | none => (createDirAll rest []).map .dir
      | some (.dir sub) => (createDirAll rest sub).map .dir
      | some _ => .error (.io (if rest = [] then .alreadyExists else .notADirectory))) entries

/-- A new node below a directory: its parent has to be there, the node not. -/
def createNew (node : FileNode) : List FileName → DirEntries → Except ExtractError DirEntries
  | [], _ => .error (.io .alreadyExists)
  | [name], entries =>
    updateEntry rule name (fun found => match found with
      | none => .ok node
      | some _ => .error (.io .alreadyExists)) entries
  | name :: rest, entries =>
    updateEntry rule name (fun found => match found with
      | none => .error (.io .notFound)
      | some (.dir sub) => (createNew node rest sub).map .dir
      | some _ => .error (.io .notADirectory)) entries

end Operations

def FileNode.children : FileNode → DirEntries
  | .dir entries => entries
  | _ => []

/-- A directory with a property of the paths in it. -/
def Within (P : List FileName → Prop) (entries : DirEntries) : Prop :=
  ∀ p, p ≠ [] → shownAt entries p ≠ none → P p

/-- A rule that tells siblings with a property apart. -/
def CaseRule.Separates (rule : CaseRule) (P : List FileName → Prop) : Prop :=
  ∀ above n m, P (above ++ [n]) → P (above ++ [m]) → rule.same n m = true → n = m

theorem CaseRule.Separates.below {rule : CaseRule} {P : List FileName → Prop} (h : rule.Separates P)
    (name : FileName) : rule.Separates fun p => P (name :: p) :=
  fun above n m hn hm => h (name :: above) n m hn hm

theorem find_isSome_of_mem {entries : DirEntries} {e : FileName × FileNode} (he : e ∈ entries) :
    ∃ node, DirEntries.find entries e.1.bytes = some node := by
  have hsome : (entries.find? fun f => f.1.bytes == e.1.bytes).isSome = true :=
    List.find?_isSome.mpr ⟨e, he, by simp⟩
  obtain ⟨f, hf⟩ := Option.isSome_iff_exists.mp hsome
  exact ⟨f.2, by rw [DirEntries.find, hf]; rfl⟩

/-- Names of entries are paths of the tree. -/
theorem Within.of_mem {P : List FileName → Prop} {entries : DirEntries} (h : Within P entries)
    {e : FileName × FileNode} (he : e ∈ entries) : P [e.1] := by
  obtain ⟨node, hnode⟩ := find_isSome_of_mem he
  refine h [e.1] (by simp) ?_
  rw [shownAt_cons, hnode]
  simp

/-- **One entry is changed**, where the rule finds no other under its name. -/
theorem find_updateEntry {rule : CaseRule} {name : FileName}
    {f : Option FileNode → Except ExtractError FileNode} {entries : DirEntries} {node : FileNode}
    (hsame : ∀ e ∈ entries, rule.same e.1 name = true → e.1 = name)
    (hf : f (DirEntries.find entries name.bytes) = .ok node) :
    ∃ entries', updateEntry rule name f entries = .ok entries' ∧
      ∀ n : FileName, DirEntries.find entries' n.bytes =
        if n = name then some node else DirEntries.find entries n.bytes := by
  induction entries with
  | nil =>
    refine ⟨[(name, node)], ?_, fun n => ?_⟩
    · simp only [DirEntries.find, List.find?_nil, Option.map_none] at hf
      simp [updateEntry, hf]
    · by_cases hn : n = name
      · subst hn
        simp [DirEntries.find]
      · have hbytes : (name.bytes == n.bytes) = false :=
          beq_false_of_ne fun heq => hn (FileName.bytes_injective heq).symm
        simp [DirEntries.find, hn, hbytes]
  | cons e rest ih =>
    obtain ⟨n₀, node₀⟩ := e
    by_cases h₀ : n₀ = name
    · subst h₀
      have hfind : DirEntries.find ((n₀, node₀) :: rest) n₀.bytes = some node₀ := by simp [DirEntries.find]
      rw [hfind] at hf
      refine ⟨(n₀, node) :: rest, by simp [updateEntry, hf], fun n => ?_⟩
      by_cases hn : n = n₀
      · subst hn
        simp [DirEntries.find]
      · have hbytes : (n₀.bytes == n.bytes) = false :=
          beq_false_of_ne fun heq => hn (FileName.bytes_injective heq).symm
        simp [DirEntries.find, hn, hbytes]
    · -- the rule passes over an entry with another name
      have hother : rule.same n₀ name = false := by
        by_contra hsome
        exact h₀ (hsame _ List.mem_cons_self ((Bool.not_eq_false _).mp hsome))
      have hbytes : (n₀.bytes == name.bytes) = false :=
        beq_false_of_ne fun heq => h₀ (FileName.bytes_injective heq)
      have hfind : DirEntries.find ((n₀, node₀) :: rest) name.bytes = DirEntries.find rest name.bytes := by
        simp [DirEntries.find, hbytes]
      rw [hfind] at hf
      obtain ⟨rest', hrest, hall⟩ := ih (fun e he => hsame e (List.mem_cons_of_mem _ he)) hf
      refine ⟨(n₀, node₀) :: rest', by simp [updateEntry, hother, hrest], fun n => ?_⟩
      by_cases hn₀ : n = n₀
      · subst hn₀
        simp [DirEntries.find, h₀]
      · have hn : (n₀.bytes == n.bytes) = false :=
          beq_false_of_ne fun heq => hn₀ (FileName.bytes_injective heq).symm
        have hrest' := hall n
        simp only [DirEntries.find] at hrest' ⊢
        simp [hn, hrest']

/-- An entry found under a name is not made anew. -/
theorem updateEntry_error {rule : CaseRule} {name : FileName}
    {f : Option FileNode → Except ExtractError FileNode} {entries : DirEntries} {failure : ExtractError}
    (hf : ∀ node, f (some node) = .error failure) {e : FileName × FileNode} (he : e ∈ entries)
    (hsame : rule.same e.1 name = true) : updateEntry rule name f entries = .error failure := by
  induction entries with
  | nil => cases he
  | cons e₀ rest ih =>
    obtain ⟨n₀, node₀⟩ := e₀
    rw [updateEntry]
    by_cases h₀ : rule.same n₀ name = true
    · rw [if_pos h₀, hf]
      rfl
    · rw [if_neg h₀]
      rcases List.mem_cons.mp he with rfl | he
      · exact absurd hsame h₀
      · rw [ih he]
        rfl

/-- Changing one entry, seen from outside. -/
theorem shownAt_updateEntry {rule : CaseRule} {P : List FileName → Prop} {name : FileName}
    {f : Option FileNode → Except ExtractError FileNode} {entries : DirEntries} (node : FileNode)
    (hsep : rule.Separates P) (hwithin : Within P entries) (hname : P [name])
    (hf : f (DirEntries.find entries name.bytes) = .ok node) :
    ∃ entries', updateEntry rule name f entries = .ok entries' ∧
      ∀ n p, shownAt entries' (n :: p) =
        if n = name then (node.at p).map FileNode.view else shownAt entries (n :: p) := by
  obtain ⟨entries', hupdate, hfind⟩ := find_updateEntry
    (fun e he hsame => hsep [] e.1 name (hwithin.of_mem he) hname hsame) hf
  refine ⟨entries', hupdate, fun n p => ?_⟩
  rw [shownAt_cons, shownAt_cons, hfind]
  by_cases hn : n = name
  · rw [if_pos hn, if_pos hn]
    rfl
  · rw [if_neg hn, if_neg hn]

/-- What is below an entry that is a directory or missing. -/
theorem shownAt_children {entries : DirEntries} {name : FileName}
    (hdir : ∀ v, shownAt entries [name] = some v → v = some .directory) {p : List FileName} (hp : p ≠ []) :
    shownAt entries (name :: p) =
      shownAt ((DirEntries.find entries name.bytes).elim [] FileNode.children) p := by
  obtain ⟨n, p, rfl⟩ := List.exists_cons_of_ne_nil hp
  rw [shownAt_cons]
  cases hfind : DirEntries.find entries name.bytes with
  | none => rw [Option.elim_none, shownAt_empty_cons, Option.bind_none]
  | some node =>
    have hview := hdir node.view (by rw [shownAt_cons, hfind]; simp)
    cases node with
    | dir sub => rfl
    | file mode contents => simp [FileNode.view] at hview
    | symlink leadsTo => simp [FileNode.view] at hview
    | special => simp [FileNode.view] at hview

theorem Within.children {P : List FileName → Prop} {entries : DirEntries} (h : Within P entries)
    {name : FileName} (hdir : ∀ v, shownAt entries [name] = some v → v = some .directory) :
    Within (fun p => P (name :: p)) ((DirEntries.find entries name.bytes).elim [] FileNode.children) := by
  intro p hp hshown
  rw [← shownAt_children hdir hp] at hshown
  exact h (name :: p) (by simp) hshown

/-- **What `create_dir_all` does**: the directories on the way are there
afterwards, and nothing else changes. -/
theorem shownAt_createDirAll {rule : CaseRule} {P : List FileName → Prop} (path : List FileName)
    {entries : DirEntries} (hsep : rule.Separates P) (hwithin : Within P entries)
    (hpath : ∀ q, q ≠ [] → q <+: path → P q)
    (hdirs : ∀ q, q <+: path → ∀ v, shownAt entries q = some v → v = some .directory) :
    ∃ entries', createDirAll rule path entries = .ok entries' ∧
      ∀ p, shownAt entries' p = if p <+: path then some (some .directory) else shownAt entries p := by
  induction path generalizing P entries with
  | nil =>
    refine ⟨entries, rfl, fun p => ?_⟩
    by_cases hp : p <+: []
    · rw [if_pos hp, List.prefix_nil.mp hp, shownAt_nil]
    · rw [if_neg hp]
  | cons name rest ih =>
    have hname : ∀ v, shownAt entries [name] = some v → v = some .directory :=
      hdirs [name] (by simp)
    -- the directory below, or an empty one where there is none
    obtain ⟨sub, hsub, hshown⟩ := ih (hsep.below name) (hwithin.children hname)
      (fun q hq hpre => hpath (name :: q) (by simp) (List.cons_prefix_cons.mpr ⟨rfl, hpre⟩))
      (fun q hpre v hv => by
        by_cases hq : q = []
        · subst hq
          rw [shownAt_nil] at hv
          exact (Option.some_inj.mp hv).symm
        · rw [← shownAt_children hname hq] at hv
          exact hdirs (name :: q) (List.cons_prefix_cons.mpr ⟨rfl, hpre⟩) v hv)
    obtain ⟨entries', hupdate, hall⟩ := shownAt_updateEntry (.dir sub)
      (f := fun found => match found with
        | none => (createDirAll rule rest []).map .dir
        | some (.dir sub) => (createDirAll rule rest sub).map .dir
        | some _ => .error (.io (if rest = [] then .alreadyExists else .notADirectory)))
      hsep hwithin (hpath [name] (by simp) (by simp))
      (by
        cases hfind : DirEntries.find entries name.bytes with
        | none =>
          rw [hfind] at hsub
          exact map_eq_ok.mpr ⟨sub, hsub, rfl⟩
        | some node =>
          have hview := hname node.view (by rw [shownAt_cons, hfind]; simp)
          rw [hfind] at hsub
          cases node with
          | dir entries => exact map_eq_ok.mpr ⟨sub, hsub, rfl⟩
          | file mode contents => simp [FileNode.view] at hview
          | symlink leadsTo => simp [FileNode.view] at hview
          | special => simp [FileNode.view] at hview)
    refine ⟨entries', hupdate, fun p => ?_⟩
    cases p with
    | nil => simp
    | cons n p =>
      rw [hall]
      by_cases hn : n = name
      · subst hn
        have hbelow := hshown p
        rw [shownAt] at hbelow
        rw [if_pos rfl, hbelow]
        by_cases hp : p <+: rest
        · rw [if_pos hp, if_pos (List.cons_prefix_cons.mpr ⟨rfl, hp⟩)]
        · rw [if_neg hp, if_neg fun h => hp (List.cons_prefix_cons.mp h).2, shownAt_children hname]
          rintro rfl
          exact hp List.nil_prefix
      · rw [if_neg hn, if_neg]
        intro hpre
        exact hn (List.cons_prefix_cons.mp hpre).1

/-- **What `create_new` does**: the node is there afterwards, and nothing else
changes. -/
theorem shownAt_createNew {rule : CaseRule} {P : List FileName → Prop} (above : List FileName)
    (name : FileName) (mode : Nat) (contents : List UInt8) {entries : DirEntries}
    (hsep : rule.Separates P) (hwithin : Within P entries)
    (hpath : ∀ q, q ≠ [] → q <+: above ++ [name] → P q)
    (hdirs : ∀ q, q <+: above → shownAt entries q = some (some .directory))
    (hfree : shownAt entries (above ++ [name]) = none) :
    ∃ entries', createNew rule (.file mode contents) (above ++ [name]) entries = .ok entries' ∧
      ∀ p, shownAt entries' p = if p = above ++ [name]
        then some (some (.file (decide (mode &&& 0o111 ≠ 0)) contents)) else shownAt entries p := by
  induction above generalizing P entries with
  | nil =>
    rw [List.nil_append] at hfree ⊢
    have hfind : DirEntries.find entries name.bytes = none := by
      rw [shownAt_cons] at hfree
      cases hfind : DirEntries.find entries name.bytes with
      | none => rfl
      | some node =>
        rw [hfind] at hfree
        simp at hfree
    -- nothing is found under the name: the file becomes a new entry
    obtain ⟨entries', hupdate, hall⟩ := shownAt_updateEntry (.file mode contents)
      (f := fun found => match found with
        | none => .ok (.file mode contents)
        | some _ => .error (.io .alreadyExists)) hsep hwithin (hpath [name] (by simp) (by simp)) (by rw [hfind])
    refine ⟨entries', hupdate, fun p => ?_⟩
    cases p with
    | nil => simp
    | cons n p =>
      rw [hall]
      by_cases hn : n = name
      · subst hn
        cases p with
        | nil => simp [FileNode.view]
        | cons m p =>
          have hnone : shownAt entries (n :: m :: p) = none := by
            rw [shownAt_cons, hfind]
            rfl
          rw [if_pos rfl, hnone, if_neg (by simp)]
          rfl
      · rw [if_neg hn, if_neg]
        intro heq
        exact hn (List.cons.inj heq).1
  | cons first above ih =>
    rw [List.cons_append] at hfree hpath ⊢
    have hfirst : ∀ v, shownAt entries [first] = some v → v = some .directory := by
      intro v hv
      rw [hdirs [first] (by simp)] at hv
      exact (Option.some_inj.mp hv).symm
    have hne : above ++ [name] ≠ [] := by simp
    -- the first directory is there; the rest of the path is created in its entries
    obtain ⟨sub, hsub, hshown⟩ := ih (hsep.below first) (hwithin.children hfirst)
      (fun q hq hpre => hpath (first :: q) (by simp) (List.cons_prefix_cons.mpr ⟨rfl, hpre⟩))
      (fun q hpre => by
        by_cases hq : q = []
        · rw [hq, shownAt_nil]
        · rw [← shownAt_children hfirst hq]
          exact hdirs (first :: q) (List.cons_prefix_cons.mpr ⟨rfl, hpre⟩))
      (by rw [← shownAt_children hfirst hne]; exact hfree)
    obtain ⟨m, ms, hms⟩ := List.exists_cons_of_ne_nil hne
    obtain ⟨entries', hupdate, hall⟩ := shownAt_updateEntry (.dir sub)
      (f := fun found => match found with
        | none => .error (.io .notFound)
        | some (.dir sub) => (createNew rule (.file mode contents) (above ++ [name]) sub).map .dir
        | some _ => .error (.io .notADirectory)) hsep hwithin (hpath [first] (by simp) (by simp))
      (by
        have hshow := hdirs [first] (by simp)
        rw [shownAt_cons] at hshow
        cases hfind : DirEntries.find entries first.bytes with
        | none =>
          rw [hfind] at hshow
          cases hshow
        | some node =>
          rw [hfind] at hshow hsub
          cases node with
          | dir entries => exact map_eq_ok.mpr ⟨sub, hsub, rfl⟩
          | file mode contents => simp [FileNode.view] at hshow
          | symlink leadsTo => simp [FileNode.view] at hshow
          | special => simp [FileNode.view] at hshow)
    refine ⟨entries', ?_, fun p => ?_⟩
    · rw [hms] at hupdate ⊢
      rw [createNew]
      · exact hupdate
      · simp
    · cases p with
      | nil => simp
      | cons n p =>
        rw [hall]
        by_cases hn : n = first
        · subst hn
          have hbelow := hshown p
          rw [shownAt] at hbelow
          rw [if_pos rfl, hbelow]
          by_cases hp : p = above ++ [name]
          · rw [if_pos hp, if_pos (by rw [hp])]
          · rw [if_neg hp, if_neg fun h => hp (List.cons.inj h).2]
            by_cases hnil : p = []
            · rw [hnil, shownAt_nil, hdirs [n] (by simp)]
            · rw [shownAt_children hfirst hnil]
        · rw [if_neg hn, if_neg]
          intro heq
          exact hn (List.cons.inj heq).1

/-! ### Extraction -/

/-- The file name with a given text. -/
def fileName (part : List Char) : Option FileName :=
  if h : utf8Bytes part ≠ [] ∧ 0x2F ∉ utf8Bytes part ∧ 0 ∉ utf8Bytes part ∧ utf8Bytes part ≠ [0x2E] ∧
    utf8Bytes part ≠ [0x2E, 0x2E] then some ⟨utf8Bytes part, h⟩ else none

/-- An entry as the archive reader yields it, with its header mode and its
payload. -/
structure ArchiveItem where
  entry : ArchiveEntry
  mode : Nat
  contents : List UInt8
  length_eq : contents.length = entry.size.val

def ArchiveItem.executable (item : ArchiveItem) : Bool := decide (item.mode &&& 0o111 ≠ 0)

/-- `apply_portable_file_mode`. -/
def portableMode (archiveMode : Nat) : Nat := if archiveMode &&& 0o111 = 0 then 0o644 else 0o755

section Extraction

variable (rule : CaseRule)

/-- One entry: the tree so far and the executable paths so far. -/
def extractItem (state : DirEntries × List String) (item : ArchiveItem) :
    Except ExtractError (DirEntries × List String) := do
  let normalized ← (normalizedPath item.entry.path).mapError .invalid
  rejectIf (normalized = executableManifest) (.invalidArchive "archive uses a reserved Tapid metadata path")
  rejectIf (item.executable ∧ normalized.toList.any fun c => c == '\n' || c == '\r')
    (.invalidArchive "executable entry path contains a line break")
  -- parts of a normalized path are names, see `mapM_fileName`
  let target ← orError ((normalized.toList.splitOn '/').mapM fileName) (.io .notFound)
  match item.entry.kind with
  | .directory => do
    let tree ← createDirAll rule target state.1
    return (tree, state.2)
  | .file => do
    let tree ← createDirAll rule target.dropLast state.1
    let tree ← createNew rule (.file (portableMode item.mode) item.contents) target tree
    return (tree, if item.executable then state.2 ++ [normalized] else state.2)
  | _ => throw (.invalidArchive "non-regular entry after validation")

def extractEntries (items : List ArchiveItem) : Except ExtractError (DirEntries × List String) := do
  let (tree, executablePaths) ← items.foldlM (extractItem rule) ([], [])
  return (tree, executablePaths.insertionSort (· ≤ ·))

def manifestName : FileName := ⟨utf8Bytes executableManifest.toList, by decide⟩

/-- The lines of a manifest. -/
def manifestContents (executablePaths : List String) : List UInt8 :=
  executablePaths.flatMap fun path => utf8Bytes (path.toList ++ ['\n'])

def writeExecutableManifest (tree : DirEntries) (executablePaths : List String) : Except ExtractError DirEntries :=
  createNew rule (.file 0o644 (manifestContents executablePaths)) [manifestName] tree

/-- The entries one after the other; links are refused. -/
def validateArchive (items : List ArchiveItem) (limits : ValidationLimits) : Except ExtractError EntryValidator :=
  items.foldlM (fun v item => do
    let v ← (v.push item.entry).mapError .invalid
    rejectIf (item.entry.kind = .symlink) (.invalid (.specialFile item.entry.path))
    return v) (EntryValidator.new limits)

def extractInner (limits : ValidationLimits) (items : List ArchiveItem) : Except ExtractError DirEntries := do
  let _ ← validateArchive items limits
  let (tree, executablePaths) ← extractEntries rule items
  writeExecutableManifest rule tree executablePaths

end Extraction

/-! ### Names of entries -/

theorem utf8Bytes_injective : Function.Injective utf8Bytes := fun s t h => by
  rw [← fromUtf8Lossy_encode s, ← fromUtf8Lossy_encode t]
  exact congrArg fromUtf8Lossy h

theorem utf8Bytes_toAsciiLower (s : List Char) : utf8Bytes (toAsciiLower s) = (utf8Bytes s).map lowerByte :=
  flatMap_toLower s

/-- A part of a normalized path is a file name. -/
theorem fileName_of_part {part : List Char} (hne : part ≠ []) (hdot : part ≠ ['.']) (hdots : part ≠ ['.', '.'])
    (hslash : '/' ∉ part) (hzero : Char.ofNat 0 ∉ part) :
    ∃ name, fileName part = some name ∧ name.bytes = utf8Bytes part := by
  have hvalid : utf8Bytes part ≠ [] ∧ 0x2F ∉ utf8Bytes part ∧ 0 ∉ utf8Bytes part ∧ utf8Bytes part ≠ [0x2E] ∧
      utf8Bytes part ≠ [0x2E, 0x2E] := by
    refine ⟨fun h => hne (utf8Bytes_injective h), fun h => hslash (mem_of_ascii_mem (by decide) h),
      fun h => hzero (mem_of_ascii_mem (by decide) h), fun h => hdot (utf8Bytes_injective ?_),
      fun h => hdots (utf8Bytes_injective ?_)⟩
    · rw [h]
      decide
    · rw [h]
      decide
  exact ⟨⟨utf8Bytes part, hvalid⟩, dif_pos hvalid, rfl⟩

/-- The file names of an entry. -/
def ArchiveEntry.target (e : ArchiveEntry) : List FileName := e.parts.filterMap fileName

theorem mapM_fileName_of {parts : List (List Char)}
    (h : ∀ part ∈ parts, ∃ name, fileName part = some name ∧ name.bytes = utf8Bytes part) :
    parts.mapM fileName = some (parts.filterMap fileName) ∧
      (parts.filterMap fileName).map FileName.bytes = parts.map utf8Bytes := by
  induction parts with
  | nil => exact ⟨rfl, rfl⟩
  | cons part parts ih =>
    obtain ⟨name, hname, hbytes⟩ := h part (by simp)
    obtain ⟨hmap, hall⟩ := ih fun p hp => h p (by simp [hp])
    rw [List.mapM_cons, hname, hmap, List.filterMap_cons_some hname, List.map_cons, List.map_cons, hall, hbytes]
    exact ⟨rfl, rfl⟩

namespace ArchiveEntry

variable {e : ArchiveEntry} (h : normalizedPath e.path = .ok e.name)

include h

theorem part_isFileName {part : List Char} (hpart : part ∈ e.parts) :
    ∃ name, fileName part = some name ∧ name.bytes = utf8Bytes part := by
  have hform := normalForm_of_normalizedPath h
  obtain ⟨_, hne, hdot, hdots⟩ := hform.part_mem hpart
  exact fileName_of_part hne hdot hdots (not_mem_of_mem_splitOn hpart)
    fun hc => hform.not_mem_zero (mem_of_mem_splitOn hpart hc)

/-- The parts of a normalized path are file names. -/
theorem mapM_fileName : (e.name.toList.splitOn '/').mapM fileName = some e.target :=
  (mapM_fileName_of fun _ hpart => part_isFileName h hpart).1

theorem map_bytes_target : e.target.map FileName.bytes = e.parts.map utf8Bytes :=
  (mapM_fileName_of fun _ hpart => part_isFileName h hpart).2

theorem target_ne_nil : e.target ≠ [] := by
  intro hnil
  have hbytes := map_bytes_target h
  rw [hnil, List.map_nil, eq_comm, List.map_eq_nil_iff] at hbytes
  exact List.splitOn_ne_nil _ _ hbytes

/-- The text of a beginning of the target. -/
theorem exists_text {p : List FileName} (hp : p <+: e.target) :
    ∃ t, t <+: e.parts ∧ p.map FileName.bytes = t.map utf8Bytes ∧ (t = e.parts ↔ p = e.target) := by
  have hlength : e.target.length = e.parts.length := by
    rw [← List.length_map FileName.bytes, map_bytes_target h, List.length_map]
  have htake : p = e.target.take p.length := List.prefix_iff_eq_take.mp hp
  refine ⟨e.parts.take p.length, List.take_prefix _ _, ?_, ?_⟩
  · conv_lhs => rw [htake, List.map_take, map_bytes_target h, ← List.map_take]
  · constructor
    · intro ht
      have hle := congrArg List.length ht
      rw [List.length_take] at hle
      rw [htake, List.take_of_length_le (by omega)]
    · rintro rfl
      exact List.take_of_length_le (by omega)

end ArchiveEntry

theorem map_utf8Bytes_inj {t t' : List (List Char)} : t.map utf8Bytes = t'.map utf8Bytes ↔ t = t' :=
  (List.map_injective_iff.mpr utf8Bytes_injective).eq_iff

theorem map_bytes_inj {p q : List FileName} : p.map FileName.bytes = q.map FileName.bytes ↔ p = q :=
  (List.map_injective_iff.mpr FileName.bytes_injective).eq_iff

/-- Paths up to case, as names and as text. -/
theorem map_fold_eq {p : List FileName} {t : List (List Char)} (h : p.map FileName.bytes = t.map utf8Bytes) :
    p.map FileName.fold = (foldParts t).map utf8Bytes := by
  calc p.map FileName.fold = (p.map FileName.bytes).map (List.map lowerByte) := by
        rw [List.map_map]
        rfl
    _ = (t.map utf8Bytes).map (List.map lowerByte) := by rw [h]
    _ = (foldParts t).map utf8Bytes := by
        rw [foldParts, List.map_map, List.map_map]
        exact List.map_congr_left fun s _ => (utf8Bytes_toAsciiLower s).symm

end Tapid
