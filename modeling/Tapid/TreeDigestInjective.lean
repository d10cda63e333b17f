/-
When equal digest bytes mean equal trees.

The framing of records is injective, so equal bytes give equal records.  A
record only has the text of its path, and different paths can get the same
text: names are read as lossy UTF-8, and a backslash in a name becomes the
separator.  The digest is injective on trees exactly as far as texts tell paths
apart.

* `fits_manifestRecord` — the manifest record is not longer than its file;
* `sameView_of_treeBytes`, `textsDiffer_of_injective` — the two directions;
* `treeBytes_injective_iff` — the framing as a whole.
-/
import Tapid.TreeDigest

namespace Tapid

open Text Fallible Bytes

/-! ### The manifest is not longer than its file -/

/-- Bytes of a line with its newline. -/
def lineSize (line : String) : Nat := (utf8Bytes line.toList).length + 1

theorem utf8Bytes_append (a b : List Char) : utf8Bytes (a ++ b) = utf8Bytes a ++ utf8Bytes b :=
  List.flatMap_append

theorem length_manifestRecord (paths : OrdSet String) :
    (manifestRecord paths).payload.data.length = (paths.elems.map lineSize).sum := by
  have hnewline : (utf8Bytes ['\n']).length = 1 := rfl
  simp only [manifestRecord, TreePayload.data, List.length_flatMap, utf8Bytes_append,
    List.length_append, hnewline]
  rfl

/-- A set of members of a list weighs at most what the list does. -/
theorem sum_le_of_subset {s : OrdSet String} {l : List String} (h : ∀ x ∈ s, x ∈ l) :
    (s.elems.map lineSize).sum ≤ (l.map lineSize).sum := by
  obtain ⟨l', hperm, hsub⟩ := s.nodup.subperm h
  rw [← (hperm.map lineSize).sum_eq]
  exact (hsub.map lineSize).sum_le_sum (fun _ _ => Nat.zero_le _)

/-- Pieces between separators are not longer than the whole. -/
theorem sum_dropLast_le (pieces : List (List Char)) :
    (pieces.dropLast.map fun l => (utf8Bytes l).length + 1).sum ≤
      (utf8Bytes (['\n'].intercalate pieces)).length := by
  induction pieces with
  | nil => simp
  | cons a pieces ih =>
    cases pieces with
    | nil => simp
    | cons b pieces =>
      have hjoin : ['\n'].intercalate (a :: b :: pieces) =
          a ++ '\n' :: ['\n'].intercalate (b :: pieces) := by
        simp [List.intercalate]
      have hnewline : (utf8Bytes ('\n' :: ['\n'].intercalate (b :: pieces))).length =
          (utf8Bytes (['\n'].intercalate (b :: pieces))).length + 1 := by
        rw [utf8Bytes, List.flatMap_cons, List.length_append, Nat.add_comm]
        rfl
      rw [hjoin, utf8Bytes_append, List.length_append, hnewline, List.dropLast_cons_cons, List.map_cons,
        List.sum_cons]
      omega

theorem sum_lines_le (contents : List Char) :
    (((lines contents).map String.ofList).map lineSize).sum ≤ (utf8Bytes contents).length := by
  have hpieces := sum_dropLast_le (contents.splitOn '\n')
  rw [List.intercalate_splitOn] at hpieces
  refine le_trans ?_ hpieces
  rw [lines, List.map_map, List.map_map]
  refine List.sum_le_sum fun line _ => ?_
  have hline : utf8Bytes line = utf8Bytes line.dropLast ∨ (utf8Bytes line.dropLast).length ≤ (utf8Bytes line).length := by
    by_cases hne : line = []
    · left
      rw [hne]
      rfl
    · right
      conv_rhs => rw [← List.dropLast_append_getLast hne, utf8Bytes_append, List.length_append]
      omega
  show lineSize (String.ofList (if line.getLast? = some '\r' then line.dropLast else line)) ≤ _
  rw [lineSize, String.toList_ofList]
  split_ifs
  · rcases hline with hline | hline
    · rw [hline]
    · omega
  · exact Nat.le_refl _

theorem readManifestLine_mem {metadata : List (List UInt8) → Option FileNode} {state state' : OrdSet String × Option String}
    {value : List Char} (h : readManifestLine metadata state value = .ok state') :
    state'.1 = state.1.insert (String.ofList value) := by
  simp only [readManifestLine, bind_eq_ok, rejectIf_eq_ok] at h
  obtain ⟨_, _, _, _, target, _, h⟩ := h
  cases target with
  | file mode contents => rw [← pure_eq_ok.mp h]
  | dir entries => simp at h
  | symlink leadsTo => simp at h
  | special => simp at h

/-- A text is as long as the bytes it was read from. -/
theorem length_of_fromUTF8 {bytes : List UInt8} {text : String}
    (h : String.fromUTF8? bytes.toByteArray = some text) : (utf8Bytes text.toList).length = bytes.length := by
  rw [String.fromUTF8?] at h
  split_ifs at h with hvalid
  have hbytes : text.toByteArray = bytes.toByteArray := by
    rw [← Option.some_inj.mp h]
    rfl
  have hself : (utf8Bytes text.toList).toByteArray = text.toByteArray := by
    conv_rhs => rw [← @String.ofList_toList text]
    rfl
  have hsize := congrArg ByteArray.size (hself.trans hbytes)
  rwa [List.size_toByteArray, List.size_toByteArray] at hsize

/-- **A manifest fits its length.** -/
theorem fits_manifestRecord {tree : FileTree} {excluded : Option String} {paths : OrdSet String}
    (h : readExecutableManifest tree.entries = .ok (some paths)) :
    TreeRecord.Fits (manifestRecord (retainExecutable excluded paths)).shape := by
  rw [readExecutableManifest, readManifest] at h
  split at h
  · simp at h
  · rename_i mode contents hfind
    simp only [bind_eq_ok, rejectIf_eq_ok, orError_eq_ok, pure_eq_ok] at h
    obtain ⟨_, hsize, text, htext, _, _, ⟨set, last⟩, hfold, hset⟩ := h
    obtain rfl : set = paths := Option.some_inj.mp hset
    have hmem : ∀ x ∈ set, x ∈ (lines text.toList).map String.ofList :=
      (Loop.foldlM_inv (I := fun l st => (∀ x ∈ st.1, x ∈ (lines text.toList).map String.ofList) ∧
          ∀ y ∈ l, String.ofList y ∈ (lines text.toList).map String.ofList)
        (fun a l s s' hs hstep => by
          refine ⟨fun x hx => ?_, fun y hy => hs.2 y (List.mem_cons_of_mem _ hy)⟩
          rw [readManifestLine_mem hstep, OrdSet.mem_insert] at hx
          rcases hx with rfl | hx
          · exact hs.2 a (by simp)
          · exact hs.1 x hx)
        ⟨by simp, fun y hy => List.mem_map_of_mem hy⟩ hfold).1
    have hretain : ∀ x ∈ retainExecutable excluded set, x ∈ (lines text.toList).map String.ofList := by
      intro x hx
      unfold retainExecutable at hx
      split at hx
      · exact hmem x hx
      · exact hmem x (OrdSet.mem_filter.mp hx).1
    have hlength := length_of_fromUTF8 htext
    refine ⟨show (utf8Bytes executableManifest.toList).length < 256 ^ 8 by decide, ?_⟩
    show (manifestRecord _).payload.data.length < _
    rw [length_manifestRecord]
    have h1 := sum_le_of_subset hretain
    have h2 := sum_lines_le text.toList
    omega
  · simp at h

/-! ### Equal bytes mean equal views -/

/-- What the digest tells of a node. -/
inductive NodeView where
  | directory
  | file (executable : Bool) (contents : List UInt8)
  deriving DecidableEq

def FileNode.view : FileNode → Option NodeView
  | .dir _ => some .directory
  | .file mode contents => some (.file (decide (mode &&& 0o111 ≠ 0)) contents)
  | _ => none

/-- The directories and files of a tree. -/
def FileTree.view (tree : FileTree) (path : List FileName) : Option NodeView :=
  ((FileNode.dir tree.entries).at path).bind FileNode.view

/-- The same directories and files, entries that are left out aside. -/
def SameView (excluded : Option String) (t t' : FileTree) : Prop :=
  ∀ p, VisibleFrom excluded [] p → t.view p = t'.view p

/-- All names in the tree are of a kind. -/
def FileTree.NamesIn (N : FileName → Prop) (t : FileTree) : Prop :=
  ∀ p node, (FileNode.dir t.entries).at p = some node → ∀ n ∈ p, N n

/-- No two different paths made of such names get the same text. -/
def TextsDiffer (excluded : Option String) (N : FileName → Prop) : Prop :=
  ∀ p q : List FileName, (∀ n ∈ p, N n) → (∀ n ∈ q, N n) → p ≠ [] → q ≠ [] →
    VisibleFrom excluded [] p → VisibleFrom excluded [] q →
    (utf8Bytes (relText p).toList).length < 256 ^ 8 → relText p = relText q → p = q

theorem portableFileKind_ne (mode : Nat) : portableFileKind mode ≠ 1 ∧ portableFileKind mode ≠ 3 := by
  unfold portableFileKind
  split_ifs <;> decide

/-- Kind and contents of an entry tell its view. -/
theorem view_eq_of_entry {n n' : FileNode} {p p' : List FileName} {e e' : TreeEntry}
    (h : n.entry p = some e) (h' : n'.entry p' = some e') (hkind : e.kind = e'.kind)
    (hdata : e.payload.data = e'.payload.data) : n.view = n'.view := by
  have hport : ∀ mode mode' : Nat, portableFileKind mode = portableFileKind mode' →
      decide (mode &&& 0o111 ≠ 0) = decide (mode' &&& 0o111 ≠ 0) := by
    intro mode mode' heq
    unfold portableFileKind at heq
    split_ifs at heq <;> simp_all
  cases n with
  | file mode contents =>
    cases n' with
    | file mode' contents' =>
      obtain rfl := Option.some_inj.mp h
      obtain rfl := Option.some_inj.mp h'
      have hcontents : contents = contents' := hdata
      rw [FileNode.view, FileNode.view, hport _ _ hkind, hcontents]
    | dir entries' =>
      obtain rfl := Option.some_inj.mp h
      obtain rfl := Option.some_inj.mp h'
      exact absurd hkind (portableFileKind_ne mode).1
    | symlink leadsTo => simp [FileNode.entry] at h'
    | special => simp [FileNode.entry] at h'
  | dir entries =>
    cases n' with
    | file mode' contents' =>
      obtain rfl := Option.some_inj.mp h
      obtain rfl := Option.some_inj.mp h'
      exact absurd hkind.symm (portableFileKind_ne mode').1
    | dir entries' => rfl
    | symlink leadsTo => simp [FileNode.entry] at h'
    | special => simp [FileNode.entry] at h'
  | symlink leadsTo => simp [FileNode.entry] at h
  | special => simp [FileNode.entry] at h

theorem entry_spec {n : FileNode} {p : List FileName} {e : TreeEntry} (h : n.entry p = some e) :
    e.path = p ∧ e.kind ≠ 3 ∧ e.payload.data.length = match n with
      | .file _ contents => contents.length
      | _ => 0 := by
  cases n with
  | file mode contents =>
    obtain rfl := Option.some_inj.mp h
    exact ⟨rfl, (portableFileKind_ne mode).2, rfl⟩
  | dir entries =>
    obtain rfl := Option.some_inj.mp h
    exact ⟨rfl, show (1 : UInt8) ≠ 3 by decide, rfl⟩
  | symlink leadsTo => simp [FileNode.entry] at h
  | special => simp [FileNode.entry] at h

/-- Nodes with an entry have a view. -/
theorem entry_of_view {n : FileNode} {v : NodeView} (h : n.view = some v) (p : List FileName) :
    ∃ e, n.entry p = some e := by
  cases n with
  | file mode contents => exact ⟨_, rfl⟩
  | dir entries => exact ⟨_, rfl⟩
  | symlink leadsTo => simp [FileNode.view] at h
  | special => simp [FileNode.view] at h

section Records

variable {tree : FileTree} {excluded : Option String} {records : List TreeRecord}

/-- **The records of a tree** are those of its visible entries, and one of kind
three for a manifest. -/
theorem mem_treeRecords (h : treeRecords tree excluded = .ok records) (r : TreeRecord) :
    r ∈ records ↔ (∃ p n e, p ≠ [] ∧ (FileNode.dir tree.entries).at p = some n ∧
        n.entry p = some e ∧ VisibleFrom excluded [] p ∧ r = e.record) ∨
      ∃ paths, readExecutableManifest tree.entries = .ok (some paths) ∧
        r = manifestRecord (retainExecutable excluded paths) := by
  simp only [treeRecords, bind_eq_ok, pure_eq_ok] at h
  obtain ⟨manifest, hmanifest, entries, hentries, rfl⟩ := h
  rw [List.mem_append, List.mem_map]
  refine or_congr ?_ ?_
  · constructor
    · rintro ⟨e, he, rfl⟩
      obtain ⟨p, n, hne, hn, hent, hv⟩ :=
        (mem_collectEntries tree.entries [] entries hentries tree.distinct e).mp he
      exact ⟨p, n, e, hne, hn, hent, hv, rfl⟩
    · rintro ⟨p, n, e, hne, hn, hent, hv, rfl⟩
      exact ⟨e, (mem_collectEntries tree.entries [] entries hentries tree.distinct e).mpr
        ⟨p, n, hne, hn, hent, hv⟩, rfl⟩
  · rw [hmanifest]
    cases manifest with
    | none => simp
    | some paths => simp

theorem fits_of_mem_treeRecords (h : treeRecords tree excluded = .ok records) {r : TreeRecord}
    (hr : r ∈ records) : TreeRecord.Fits r.shape := by
  rcases (mem_treeRecords h r).mp hr with ⟨p, n, e, _, hn, hent, _, rfl⟩ | ⟨paths, hpaths, rfl⟩
  · obtain ⟨htext, hcontents⟩ := tree.fits p n hn
    obtain ⟨rfl, _, hlen⟩ := entry_spec hent
    refine ⟨htext, ?_⟩
    show e.payload.data.length < _
    rw [hlen]
    cases n with
    | file mode contents => exact hcontents mode contents rfl
    | dir entries => exact Nat.two_pow_pos 64
    | symlink leadsTo => exact Nat.two_pow_pos 64
    | special => exact Nat.two_pow_pos 64
  · exact fits_manifestRecord hpaths

end Records

/-- Equal bytes come from equal record shapes. -/
theorem mem_shapes_of_treeBytes {sizes : ReadSizes} {t t' : FileTree} {excluded : Option String}
    {bytes : List UInt8} {records records' : List TreeRecord}
    (h : treeBytes sizes t excluded = .ok bytes) (h' : treeBytes sizes t' excluded = .ok bytes)
    (hr : treeRecords t excluded = .ok records) (hr' : treeRecords t' excluded = .ok records')
    {r : TreeRecord} (hmem : r ∈ records) : ∃ r' ∈ records', r'.shape = r.shape := by
  obtain ⟨_, hrec, hbytes⟩ := treeBytes_eq_ok.mp h
  obtain ⟨_, hrec', hbytes'⟩ := treeBytes_eq_ok.mp h'
  obtain rfl := Except.ok.inj (hr.symm.trans hrec)
  obtain rfl := Except.ok.inj (hr'.symm.trans hrec')
  have hfits : ∀ {tree : FileTree} {l : List TreeRecord}, treeRecords tree excluded = .ok l →
      ∀ s ∈ (l.insertionSort fun a b => a.key ≤ b.key).map TreeRecord.shape, TreeRecord.Fits s := by
    intro tree l hl s hs
    obtain ⟨r, hr, rfl⟩ := List.mem_map.mp hs
    exact fits_of_mem_treeRecords hl (List.mem_insertionSort _ |>.mp hr)
  have hshapes := flatMap_injective_of_code TreeRecord.frame_ne_nil TreeRecord.append_inj
    (hfits hr) (hfits hr') (hbytes.symm.trans hbytes')
  have hin : r.shape ∈ (records'.insertionSort fun a b => a.key ≤ b.key).map TreeRecord.shape := by
    rw [← hshapes]
    exact List.mem_map_of_mem ((List.mem_insertionSort _).mpr hmem)
  obtain ⟨r', hr'mem, hshape⟩ := List.mem_map.mp hin
  exact ⟨r', (List.mem_insertionSort _).mp hr'mem, hshape⟩

/-- **With names whose paths keep different texts equal bytes mean equal
trees.** -/
theorem sameView_of_treeBytes {sizes : ReadSizes} {t t' : FileTree} {excluded : Option String}
    {N : FileName → Prop} {bytes : List UInt8} (hN : TextsDiffer excluded N) (ht : t.NamesIn N)
    (ht' : t'.NamesIn N) (h : treeBytes sizes t excluded = .ok bytes)
    (h' : treeBytes sizes t' excluded = .ok bytes) : SameView excluded t t' := by
  suffices hle : ∀ (t t' : FileTree), t.NamesIn N → t'.NamesIn N →
      treeBytes sizes t excluded = .ok bytes → treeBytes sizes t' excluded = .ok bytes →
      ∀ p v, p ≠ [] → VisibleFrom excluded [] p → t.view p = some v → t'.view p = some v by
    intro p hv
    by_cases hne : p = []
    · simp [hne, FileTree.view, FileNode.view]
    · refine Option.ext fun v => ?_
      exact ⟨hle t t' ht ht' h h' p v hne hv, hle t' t ht' ht h' h p v hne hv⟩
  clear h h' ht ht' t t'
  intro t t' ht ht' h h' p v hne hv hview
  obtain ⟨records, hr, _⟩ := treeBytes_eq_ok.mp h
  obtain ⟨records', hr', _⟩ := treeBytes_eq_ok.mp h'
  obtain ⟨n, hn, hnv⟩ := Option.bind_eq_some_iff.mp hview
  obtain ⟨e, he⟩ := entry_of_view hnv p
  have hmem : e.record ∈ records :=
    (mem_treeRecords hr _).mpr (Or.inl ⟨p, n, e, hne, hn, he, hv, rfl⟩)
  obtain ⟨hpath, hkind, _⟩ := entry_spec he
  obtain ⟨r', hr'mem, hshape⟩ := mem_shapes_of_treeBytes h h' hr hr' hmem
  simp only [TreeRecord.shape, Prod.mk.injEq] at hshape
  obtain ⟨htext, hkinds, hdata⟩ := hshape
  rcases (mem_treeRecords hr' r').mp hr'mem with ⟨q, n', e', hqne, hn', he', hqv, rfl⟩ |
      ⟨paths, _, rfl⟩
  · obtain ⟨hpath', _, _⟩ := entry_spec he'
    have hsame : relText p = relText q := by
      rw [← hpath, ← hpath']
      exact htext.symm
    obtain rfl := hN p q (ht p n hn) (ht' q n' hn') hne hqne hv hqv (t.fits p n hn).1 hsame
    show ((FileNode.dir t'.entries).at p).bind FileNode.view = some v
    rw [hn', Option.bind_some, ← hnv]
    exact view_eq_of_entry he' he hkinds hdata
  · exact absurd hkinds.symm hkind

/-! ### Texts of joined paths -/

/-- Joining two paths puts a slash between their texts. -/
theorem toList_relText_append {p q : List FileName} (hp : p ≠ []) (hq : q ≠ []) :
    (relText (p ++ q)).toList = (relText p).toList ++ '/' :: (relText q).toList := by
  have hjoin : ∀ (a b : List (List UInt8)), a ≠ [] → b ≠ [] →
      [(0x2F : UInt8)].intercalate (a ++ b) =
        [(0x2F : UInt8)].intercalate a ++ 0x2F :: [(0x2F : UInt8)].intercalate b := by
    intro a b ha hb
    induction a with
    | nil => exact absurd rfl ha
    | cons x a ih =>
      cases a with
      | nil =>
        obtain ⟨y, b, rfl⟩ := List.exists_cons_of_ne_nil hb
        simp [List.intercalate]
      | cons x' a =>
        have := ih (by simp)
        simp only [List.intercalate, List.cons_append, List.intersperse_cons_cons, List.flatten_cons] at this ⊢
        rw [this]
        simp
  have hslash : Char.ofNat (0x2F : UInt8).toNat = '/' := rfl
  rw [relText, relText, relText, String.toList_ofList, String.toList_ofList, String.toList_ofList,
    List.map_append, hjoin _ _ (by simpa using hp) (by simpa using hq),
    fromUtf8Lossy_append (show (0x2F : UInt8).toNat < 0x80 by decide), hslash, List.map_append,
    List.map_cons]
  rfl

/-- A path inside another has a shorter text. -/
theorem length_relText_lt {p q : List FileName} (hp : p ≠ []) (h : p <+: q) (hne : p ≠ q) :
    (utf8Bytes (relText p).toList).length < (utf8Bytes (relText q).toList).length := by
  obtain ⟨s, rfl⟩ := h
  have hs : s ≠ [] := by
    rintro rfl
    simp at hne
  have hslash : 1 ≤ (utf8Bytes ('/' :: (relText s).toList)).length := by
    rw [utf8Bytes, List.flatMap_cons, List.length_append]
    exact Nat.le_add_right 1 _
  rw [toList_relText_append hp hs, utf8Bytes_append, List.length_append]
  omega

theorem length_relText_le {p q : List FileName} (hp : p ≠ []) (h : p <+: q) :
    (utf8Bytes (relText p).toList).length ≤ (utf8Bytes (relText q).toList).length := by
  by_cases hne : p = q
  · rw [hne]
  · exact Nat.le_of_lt (length_relText_lt hp h hne)

/-- Different paths fork, unless one is inside the other. -/
theorem exists_fork {p q : List FileName} (hpq : ¬ p <+: q) (hqp : ¬ q <+: p) :
    ∃ r a p' b q', p = r ++ a :: p' ∧ q = r ++ b :: q' ∧ a ≠ b := by
  induction p generalizing q with
  | nil => exact absurd (List.nil_prefix) hpq
  | cons a p ih =>
    cases q with
    | nil => exact absurd (List.nil_prefix) hqp
    | cons b q =>
      by_cases hab : a = b
      · subst hab
        obtain ⟨r, c, p', d, q', rfl, rfl, hcd⟩ := @ih q (fun h => hpq (List.cons_prefix_cons.mpr ⟨rfl, h⟩))
          (fun h => hqp (List.cons_prefix_cons.mpr ⟨rfl, h⟩))
        exact ⟨a :: r, c, p', d, q', rfl, rfl, hcd⟩
      · exact ⟨[], a, p, b, q, rfl, rfl, hab⟩

/-! ### Trees with given paths -/

/-- Directories inside one another. -/
def nest : List FileName → DirEntries → DirEntries
  | [], entries => entries
  | name :: rest, entries => [(name, .dir (nest rest entries))]

/-- The directories above a path, with an empty file at it or without. -/
def branch (path : List FileName) (leaf : Bool) : DirEntries :=
  match path.getLast? with
  | none => []
  | some name => nest path.dropLast (if leaf then [(name, .file 0 [])] else [])

/-- The entries of nested directories. -/
def dirChain (current : List FileName) : List FileName → List TreeEntry
  | [] => []
  | name :: rest => ⟨current ++ [name], 1, .bytes []⟩ :: dirChain (current ++ [name]) rest

section Nest

variable {excluded : Option String}

theorem collectEntries_append (paths : Option (OrdSet String)) (current : List FileName)
    (a b : DirEntries) : collectEntries paths excluded current (a ++ b) = do
      let x ← collectEntries paths excluded current a
      let y ← collectEntries paths excluded current b
      return x ++ y := by
  induction a with
  | nil =>
    rw [List.nil_append, collectEntries]
    cases collectEntries paths excluded current b <;> rfl
  | cons e a ih =>
    obtain ⟨name, node⟩ := e
    rw [List.cons_append, collectEntries, collectEntries, ih]
    generalize (if isIgnored excluded (relText (current ++ [name])) then Except.ok []
      else collectNode paths excluded (current ++ [name]) node) = here
    cases here with
    | error e => rfl
    | ok here =>
      cases collectEntries paths excluded current a with
      | error e => rfl
      | ok x =>
        cases collectEntries paths excluded current b with
        | error e => rfl
        | ok y => simp [bind, Except.bind, pure, Except.pure]

theorem collectEntries_nest (current path : List FileName) (entries : DirEntries)
    (hv : VisibleFrom excluded current path) :
    collectEntries none excluded current (nest path entries) = do
      let below ← collectEntries none excluded (current ++ path) entries
      return dirChain current path ++ below := by
  induction path generalizing current with
  | nil =>
    rw [nest, List.append_nil]
    cases collectEntries none excluded current entries <;> rfl
  | cons name path ih =>
    obtain ⟨hname, hrest⟩ := visibleFrom_cons.mp hv
    rw [nest, collectEntries, hname, if_neg Bool.false_ne_true, collectNode, ih _ hrest,
      collectEntries, List.append_assoc, List.singleton_append]
    cases collectEntries none excluded (current ++ name :: path) entries with
    | error e => rfl
    | ok below => simp [bind, Except.bind, pure, Except.pure, dirChain]

theorem VisibleFrom.of_prefix {current p q : List FileName} (h : VisibleFrom excluded current q)
    (hp : p <+: q) : VisibleFrom excluded current p := fun s hne hs => h s hne (hs.trans hp)

theorem VisibleFrom.of_append {current p q : List FileName}
    (h : VisibleFrom excluded current (p ++ q)) : VisibleFrom excluded (current ++ p) q := by
  intro s hne hs
  rw [List.append_assoc]
  refine h (p ++ s) (by simp [hne]) ?_
  exact (List.prefix_append_right_inj p).mpr hs

/-- Entries of a branch. -/
theorem collectEntries_branch {current path : List FileName} (hne : path ≠ [])
    (hv : VisibleFrom excluded current path) (leaf : Bool) :
    collectEntries none excluded current (branch path leaf) =
      .ok (dirChain current path.dropLast ++
        if leaf then [⟨current ++ path, 0, .file []⟩] else []) := by
  have hsplit := List.dropLast_append_getLast hne
  rw [branch, List.getLast?_eq_some_getLast hne]
  simp only
  rw [collectEntries_nest _ _ _ (hv.of_prefix (List.dropLast_prefix path))]
  cases leaf with
  | false =>
    rw [if_neg Bool.false_ne_true, if_neg Bool.false_ne_true, collectEntries]
    rfl
  | true =>
    have hfull : current ++ path.dropLast ++ [path.getLast hne] = current ++ path := by
      rw [List.append_assoc, hsplit]
    have hshown : isIgnored excluded (relText (current ++ path)) = false :=
      hv path hne (List.prefix_refl _)
    rw [if_pos rfl, if_pos rfl, collectEntries, hfull, hshown, if_neg Bool.false_ne_true, collectNode,
      collectEntries]
    rfl

end Nest

/-- Nodes below nested directories. -/
theorem at_nest {path p : List FileName} {entries : DirEntries} {node : FileNode}
    (h : (FileNode.dir (nest path entries)).at p = some node) :
    (p <+: path ∧ ∃ s, path = p ++ s ∧ node = .dir (nest s entries)) ∨
      ∃ s, p = path ++ s ∧ (FileNode.dir entries).at s = some node := by
  induction path generalizing p with
  | nil => exact Or.inr ⟨p, rfl, h⟩
  | cons name path ih =>
    cases p with
    | nil =>
      rw [FileNode.at_nil] at h
      exact Or.inl ⟨List.nil_prefix, name :: path, rfl, (Option.some_inj.mp h).symm⟩
    | cons n p =>
      by_cases hn : n = name
      · subst hn
        rw [nest, FileNode.at_cons_self] at h
        rcases ih h with ⟨hp, s, rfl, hnode⟩ | ⟨s, rfl, hs⟩
        · exact Or.inl ⟨List.cons_prefix_cons.mpr ⟨rfl, hp⟩, s, rfl, hnode⟩
        · exact Or.inr ⟨s, rfl, hs⟩
      · rw [nest, FileNode.at_cons_of_ne _ _ _ hn] at h
        simp [FileNode.at_dir_cons, DirEntries.find] at h

theorem nodup_nest (path : List FileName) {entries : DirEntries}
    (h : (entries.map Prod.fst).Nodup) : ((nest path entries).map Prod.fst).Nodup := by
  cases path with
  | nil => exact h
  | cons name path => simp [nest]

/-- What is in a branch: prefixes of its path, directories without repeated
names and an empty file. -/
structure InBranch (path s : List FileName) (node : FileNode) : Prop where
  sub : s <+: path
  nodup : ∀ sub, node = .dir sub → (sub.map Prod.fst).Nodup
  empty : ∀ mode contents, node = .file mode contents → contents = []

theorem inBranch_of_at {path s : List FileName} {leaf : Bool} {node : FileNode}
    (h : (FileNode.dir (branch path leaf)).at s = some node) : InBranch path s node := by
  by_cases hne : path = []
  · subst hne
    cases s with
    | nil =>
      rw [FileNode.at_nil] at h
      obtain rfl := Option.some_inj.mp h
      exact ⟨List.nil_prefix, fun sub hsub => by simp [← FileNode.dir.inj hsub, branch], by simp⟩
    | cons n s => simp [branch, FileNode.at_dir_cons, DirEntries.find] at h
  · have hsplit := List.dropLast_append_getLast hne
    rw [branch, List.getLast?_eq_some_getLast hne] at h
    simp only at h
    have hleaf : ((if leaf then [(path.getLast hne, FileNode.file 0 [])] else []).map
        Prod.fst).Nodup := by
      split_ifs <;> simp
    rcases at_nest h with ⟨hs, s', _, rfl⟩ | ⟨s', rfl, hs'⟩
    · refine ⟨hs.trans (List.dropLast_prefix path), fun sub hsub => ?_, by simp⟩
      rw [← FileNode.dir.inj hsub]
      exact nodup_nest s' hleaf
    · cases s' with
      | nil =>
        rw [FileNode.at_nil] at hs'
        obtain rfl := Option.some_inj.mp hs'
        refine ⟨by simpa using List.dropLast_prefix path, fun sub hsub => ?_, by simp⟩
        rwa [← FileNode.dir.inj hsub]
      | cons n s' =>
        cases leaf with
        | false => simp [FileNode.at_dir_cons, DirEntries.find] at hs'
        | true =>
          rw [if_pos rfl] at hs'
          by_cases hn : n = path.getLast hne
          · subst hn
            rw [FileNode.at_cons_self] at hs'
            cases s' with
            | nil =>
              rw [FileNode.at_nil] at hs'
              obtain rfl := Option.some_inj.mp hs'
              exact ⟨by rw [hsplit], by simp, by simp⟩
            | cons m s' => simp [FileNode.at] at hs'
          · rw [FileNode.at_cons_of_ne _ _ _ hn] at hs'
            simp [FileNode.at_dir_cons, DirEntries.find] at hs'

/-- A branch starts with the first name of its path. -/
theorem branch_names (a : FileName) (p : List FileName) (leaf : Bool) :
    (branch (a :: p) leaf).map Prod.fst = [a] ∨ (branch (a :: p) leaf).map Prod.fst = [] := by
  cases p with
  | nil => cases leaf <;> simp [branch, nest]
  | cons b p =>
    left
    rw [branch, List.getLast?_eq_some_getLast (by simp)]
    rfl

theorem at_append {x y : DirEntries} {n : FileName} {s : List FileName} {node : FileNode}
    (h : (FileNode.dir (x ++ y)).at (n :: s) = some node) :
    (FileNode.dir x).at (n :: s) = some node ∨ (FileNode.dir y).at (n :: s) = some node := by
  rw [FileNode.at_dir_cons] at h ⊢
  rw [FileNode.at_dir_cons]
  simp only [DirEntries.find, List.find?_append] at h ⊢
  cases hx : x.find? fun e => e.1.bytes == n.bytes with
  | none =>
    rw [hx] at h
    exact Or.inr h
  | some e =>
    rw [hx] at h
    exact Or.inl h

section Fork

variable {r p' q' : List FileName} {a b : FileName}

/-- Two branches under common directories. -/
def forkEntries (r : List FileName) (a : FileName) (p' : List FileName) (b : FileName)
    (q' : List FileName) (leafP leafQ : Bool) : DirEntries :=
  nest r (branch (a :: p') leafP ++ branch (b :: q') leafQ)

theorem nodup_fork (hab : a ≠ b) (leafP leafQ : Bool) :
    ((branch (a :: p') leafP ++ branch (b :: q') leafQ).map Prod.fst).Nodup := by
  rw [List.map_append]
  rcases branch_names a p' leafP with hp | hp <;> rcases branch_names b q' leafQ with hq | hq <;>
    simp [hp, hq, hab]

/-- Everything in the tree is in one of the branches. -/
theorem inBranch_of_fork (hab : a ≠ b) {leafP leafQ : Bool} {s : List FileName} {node : FileNode}
    (h : (FileNode.dir (forkEntries r a p' b q' leafP leafQ)).at s = some node) :
    InBranch (r ++ a :: p') s node ∨ InBranch (r ++ b :: q') s node := by
  rcases at_nest h with ⟨hs, s', _, rfl⟩ | ⟨s', rfl, hs'⟩
  · refine Or.inl ⟨hs.trans (List.prefix_append _ _), fun sub hsub => ?_, by simp⟩
    rw [← FileNode.dir.inj hsub]
    exact nodup_nest s' (nodup_fork hab leafP leafQ)
  · cases s' with
    | nil =>
      rw [FileNode.at_nil] at hs'
      obtain rfl := Option.some_inj.mp hs'
      refine Or.inl ⟨by simp, fun sub hsub => ?_, by simp⟩
      rw [← FileNode.dir.inj hsub]
      exact nodup_fork hab leafP leafQ
    | cons n s' =>
      rcases at_append hs' with hs' | hs'
      · have hin := inBranch_of_at hs'
        exact Or.inl ⟨(List.prefix_append_right_inj r).mpr hin.sub, hin.nodup, hin.empty⟩
      · have hin := inBranch_of_at hs'
        exact Or.inr ⟨(List.prefix_append_right_inj r).mpr hin.sub, hin.nodup, hin.empty⟩

variable (hab : a ≠ b) (hp : (utf8Bytes (relText (r ++ a :: p')).toList).length < 256 ^ 8)
  (hq : (utf8Bytes (relText (r ++ b :: q')).toList).length < 256 ^ 8)

/-- The tree of two branches. -/
def forkTree (leafP leafQ : Bool) : FileTree where
  entries := forkEntries r a p' b q' leafP leafQ
  distinct := by
    intro s sub hs
    rcases inBranch_of_fork hab hs with hin | hin
    · exact hin.nodup sub rfl
    · exact hin.nodup sub rfl
  fits := by
    intro s node hs
    have hlen : ∀ {path : List FileName}, (utf8Bytes (relText path).toList).length < 256 ^ 8 →
        s <+: path → (utf8Bytes (relText s).toList).length < 256 ^ 8 := by
      intro path hpath hsub
      by_cases hne : s = []
      · subst hne
        exact Nat.two_pow_pos 64
      · exact lt_of_le_of_lt (length_relText_le hne hsub) hpath
    have hcontents : ∀ {path : List FileName}, InBranch path s node →
        ∀ mode contents, node = .file mode contents → contents.length < 256 ^ 8 := by
      intro path hin mode contents hnode
      rw [hin.empty mode contents hnode]
      exact Nat.two_pow_pos 64
    rcases inBranch_of_fork hab hs with hin | hin
    · exact ⟨hlen hp hin.sub, hcontents hin⟩
    · exact ⟨hlen hq hin.sub, hcontents hin⟩

variable {excluded : Option String}

/-- There is no manifest among visible entries. -/
theorem readExecutableManifest_fork (hvp : VisibleFrom excluded [] (r ++ a :: p'))
    (hvq : VisibleFrom excluded [] (r ++ b :: q')) (leafP leafQ : Bool) :
    readExecutableManifest (forkTree hab hp hq leafP leafQ).entries = .ok none := by
  have hnone : DirEntries.find (forkTree hab hp hq leafP leafQ).entries
      (utf8Bytes executableManifest.toList) = none := by
    by_contra hsome
    obtain ⟨node, hnode⟩ := Option.ne_none_iff_exists'.mp hsome
    obtain ⟨e, he, _⟩ := Option.map_eq_some_iff.mp hnode
    have hbytes : e.1.bytes = utf8Bytes executableManifest.toList := by
      simpa using List.find?_some he
    have hat : (FileNode.dir (forkEntries r a p' b q' leafP leafQ)).at [e.1] = some node := by
      rw [FileNode.at_dir_cons, hbytes]
      show (DirEntries.find (forkTree hab hp hq leafP leafQ).entries _).bind _ = _
      rw [hnode, Option.bind_some, FileNode.at_nil]
    have htext : relText [e.1] = executableManifest := by
      rw [relText, List.map_singleton, hbytes]
      show String.ofList ((fromUtf8Lossy ([0x2F].intercalate [utf8Bytes executableManifest.toList])).map _) = _
      decide
    have hign : isIgnored excluded (relText [e.1]) = false := by
      rcases inBranch_of_fork hab hat with hin | hin
      · exact hvp [e.1] (by simp) hin.sub
      · exact hvq [e.1] (by simp) hin.sub
    rw [htext] at hign
    simp [isIgnored] at hign
  rw [readExecutableManifest, readManifest, FileNode.metadataAt_singleton, hnone]

/-- Entries collected in a fork. -/
def forkOut (r : List FileName) (a : FileName) (p' : List FileName) (b : FileName)
    (q' : List FileName) (leafP leafQ : Bool) : List TreeEntry :=
  dirChain [] r ++ ((dirChain r (a :: p').dropLast ++
      if leafP then [⟨r ++ a :: p', 0, .file []⟩] else []) ++
    (dirChain r (b :: q').dropLast ++ if leafQ then [⟨r ++ b :: q', 0, .file []⟩] else []))

theorem collectEntries_fork (hvp : VisibleFrom excluded [] (r ++ a :: p'))
    (hvq : VisibleFrom excluded [] (r ++ b :: q')) (leafP leafQ : Bool) :
    collectEntries none excluded [] (forkEntries r a p' b q' leafP leafQ) =
      .ok (forkOut r a p' b q' leafP leafQ) := by
  rw [forkEntries, collectEntries_nest _ _ _ (hvp.of_prefix (List.prefix_append _ _)),
    collectEntries_append, collectEntries_branch (by simp) hvp.of_append,
    collectEntries_branch (by simp) hvq.of_append]
  rfl

theorem treeRecords_fork (hvp : VisibleFrom excluded [] (r ++ a :: p'))
    (hvq : VisibleFrom excluded [] (r ++ b :: q')) (leafP leafQ : Bool) :
    treeRecords (forkTree hab hp hq leafP leafQ) excluded =
      .ok ((forkOut r a p' b q' leafP leafQ).map TreeEntry.record) := by
  rw [treeRecords, readExecutableManifest_fork hab hp hq hvp hvq]
  have hout := collectEntries_fork hvp hvq leafP leafQ
  simp only [ok_bind, Option.map_none]
  show (collectEntries none excluded [] (forkEntries r a p' b q' leafP leafQ) >>= _) = _
  rw [hout]
  simp [pure, Except.pure]

end Fork

theorem of_mem_dirChain {current path : List FileName} {e : TreeEntry} (h : e ∈ dirChain current path) :
    e.kind = 1 ∧ e.payload = .bytes [] := by
  induction path generalizing current with
  | nil => simp [dirChain] at h
  | cons name path ih =>
    rw [dirChain, List.mem_cons] at h
    rcases h with rfl | h
    · exact ⟨rfl, rfl⟩
    · exact ih h

/-- An entry of a fork is a directory or one of the two files. -/
theorem of_mem_forkOut {r p' q' : List FileName} {a b : FileName} {leafP leafQ : Bool} {e : TreeEntry}
    (h : e ∈ forkOut r a p' b q' leafP leafQ) :
    (e.kind = 1 ∧ e.payload = .bytes []) ∨
      (leafP = true ∧ e = ⟨r ++ a :: p', 0, .file []⟩) ∨
      (leafQ = true ∧ e = ⟨r ++ b :: q', 0, .file []⟩) := by
  simp only [forkOut, List.mem_append] at h
  rcases h with h | (h | h) | (h | h)
  · exact Or.inl (of_mem_dirChain h)
  · exact Or.inl (of_mem_dirChain h)
  · cases leafP with
    | false => simp at h
    | true => exact Or.inr (Or.inl ⟨rfl, by simpa using h⟩)
  · exact Or.inl (of_mem_dirChain h)
  · cases leafQ with
    | false => simp at h
    | true => exact Or.inr (Or.inr ⟨rfl, by simpa using h⟩)

/-- Records with different keys are sorted in one way only. -/
theorem insertionSort_eq_of_key {l l' : List TreeRecord} (hperm : l.Perm l')
    (hl : ∀ r ∈ l, ∀ r' ∈ l, r.key = r'.key → r = r') :
    (l.insertionSort fun a b => a.key ≤ b.key) = l'.insertionSort fun a b => a.key ≤ b.key := by
  have hsorted : ∀ l : List TreeRecord,
      (l.insertionSort fun a b => a.key ≤ b.key).Pairwise fun a b => a.key ≤ b.key :=
    fun l => List.pairwise_insertionSort _ l
  have hp : (l.insertionSort fun a b => a.key ≤ b.key).Perm
      (l'.insertionSort fun a b => a.key ≤ b.key) :=
    ((List.perm_insertionSort _ l).trans hperm).trans (List.perm_insertionSort _ l').symm
  refine hp.eq_of_pairwise (fun x y hx hy hxy hyx => ?_) (hsorted l) (hsorted l')
  have hx := (List.mem_insertionSort _).mp hx
  have hy := hperm.mem_iff.mpr ((List.mem_insertionSort _).mp hy)
  exact hl x hx y hy (le_antisymm hxy hyx)

/-- Records whose kind tells their payload are sorted in one way only. -/
theorem insertionSort_eq_of_perm {l l' : List TreeRecord} (hperm : l.Perm l')
    (hl : ∀ r ∈ l, ∀ r' ∈ l, r.kind = r'.kind → r.payload = r'.payload) :
    (l.insertionSort fun a b => a.key ≤ b.key) = l'.insertionSort fun a b => a.key ≤ b.key := by
  refine insertionSort_eq_of_key hperm fun x hx y hy hkey => ?_
  obtain ⟨hpath, hnat⟩ := Prod.mk.inj (toLex.injective hkey)
  have hkind : x.kind = y.kind := UInt8.toNat_inj.mp hnat
  have hpayload := hl x hx y hy hkind
  obtain ⟨px, kx, dx⟩ := x
  obtain ⟨py, ky, dy⟩ := y
  simp only at hpath hkind hpayload
  subst hpath hkind hpayload
  rfl

/-- **Paths with the same text make different trees with the same bytes.** -/
theorem textsDiffer_of_injective {sizes : ReadSizes} {excluded : Option String} {N : FileName → Prop}
    (h : ∀ t t' : FileTree, t.NamesIn N → t'.NamesIn N → ∀ bytes,
      treeBytes sizes t excluded = .ok bytes → treeBytes sizes t' excluded = .ok bytes →
      SameView excluded t t') : TextsDiffer excluded N := by
  intro p q hpN hqN hpne hqne hvp hvq hlen htext
  by_contra hne
  have hlenq : (utf8Bytes (relText q).toList).length < 256 ^ 8 := by rwa [← htext]
  have hpq : ¬ p <+: q := fun hsub => by
    have := length_relText_lt hpne hsub hne
    rw [htext] at this
    omega
  have hqp : ¬ q <+: p := fun hsub => by
    have := length_relText_lt hqne hsub (Ne.symm hne)
    rw [htext] at this
    omega
  obtain ⟨r, a, p', b, q', rfl, rfl, hab⟩ := exists_fork hpq hqp
  have hnames : ∀ leafP leafQ, (forkTree hab hlen hlenq leafP leafQ).NamesIn N := by
    intro leafP leafQ s node hs n hn
    rcases inBranch_of_fork hab hs with hin | hin
    · exact hpN n (hin.sub.subset hn)
    · exact hqN n (hin.sub.subset hn)
  have hrec := treeRecords_fork hab hlen hlenq hvp hvq true false
  have hrec' := treeRecords_fork hab hlen hlenq hvp hvq false true
  have hfile : (⟨r ++ a :: p', 0, .file []⟩ : TreeEntry).record =
      (⟨r ++ b :: q', 0, .file []⟩ : TreeEntry).record := by
    rw [TreeEntry.record, TreeEntry.record, htext]
  have hperm : ((forkOut r a p' b q' true false).map TreeEntry.record).Perm
      ((forkOut r a p' b q' false true).map TreeEntry.record) := by
    simp only [forkOut, List.map_append, if_true, List.map_cons, List.map_nil, hfile,
      Bool.false_eq_true, if_false, List.append_nil, List.append_assoc]
    refine List.Perm.append_left _ (List.Perm.append_left _ ?_)
    exact List.perm_append_comm
  have hsort := insertionSort_eq_of_perm hperm (by
    intro x hx y hy hkind
    obtain ⟨e, he, rfl⟩ := List.mem_map.mp hx
    obtain ⟨e', he', rfl⟩ := List.mem_map.mp hy
    rcases of_mem_forkOut he with ⟨hk, hd⟩ | ⟨_, rfl⟩ | ⟨hfalse, _⟩
    · rcases of_mem_forkOut he' with ⟨_, hd'⟩ | ⟨_, rfl⟩ | ⟨hfalse, _⟩
      · exact hd.trans hd'.symm
      · exact absurd (hk.symm.trans hkind) (show (1 : UInt8) ≠ 0 by decide)
      · simp at hfalse
    · rcases of_mem_forkOut he' with ⟨hk', _⟩ | ⟨_, rfl⟩ | ⟨hfalse, _⟩
      · exact absurd (hkind.trans hk') (show (0 : UInt8) ≠ 1 by decide)
      · rfl
      · simp at hfalse
    · simp at hfalse)
  obtain ⟨bytes, hbytes⟩ : ∃ bytes, treeBytes sizes (forkTree hab hlen hlenq true false) excluded =
      .ok bytes := ⟨_, treeBytes_eq_ok.mpr ⟨_, hrec, rfl⟩⟩
  have hbytes' : treeBytes sizes (forkTree hab hlen hlenq false true) excluded = .ok bytes := by
    obtain ⟨_, hr, hb⟩ := treeBytes_eq_ok.mp hbytes
    obtain rfl := Except.ok.inj (hrec.symm.trans hr)
    exact treeBytes_eq_ok.mpr ⟨_, hrec', by rw [hb, hsort]⟩
  have hsame := h _ _ (hnames true false) (hnames false true) bytes hbytes hbytes'
  -- the file of the first tree would have to be the file of the second
  have hmem : (⟨r ++ a :: p', 0, .file []⟩ : TreeEntry) ∈ forkOut r a p' b q' true false := by
    simp [forkOut]
  obtain ⟨p₁, n, _, hn, hent, _⟩ := (mem_collectEntries _ [] _
    (collectEntries_fork hvp hvq true false) (forkTree hab hlen hlenq true false).distinct _).mp hmem
  obtain ⟨hpath, _, _⟩ := entry_spec hent
  obtain rfl : p₁ = r ++ a :: p' := by simpa using hpath.symm
  obtain ⟨mode, contents, rfl⟩ : ∃ mode contents, n = .file mode contents := by
    cases n with
    | file mode contents => exact ⟨mode, contents, rfl⟩
    | dir entries => exact absurd (congrArg TreeEntry.kind (Option.some_inj.mp hent)) (show (1 : UInt8) ≠ 0 by decide)
    | symlink leadsTo => simp [FileNode.entry] at hent
    | special => simp [FileNode.entry] at hent
  have hview : (forkTree hab hlen hlenq false true).view (r ++ a :: p') =
      some (.file (decide (mode &&& 0o111 ≠ 0)) contents) := by
    rw [← hsame _ hvp, FileTree.view]
    show ((FileNode.dir (forkEntries r a p' b q' true false)).at _).bind _ = _
    rw [hn]
    rfl
  obtain ⟨n', hn', hv'⟩ := Option.bind_eq_some_iff.mp hview
  obtain ⟨e', he'⟩ := entry_of_view hv' (r ++ a :: p')
  have hmem' : e' ∈ forkOut r a p' b q' false true :=
    (mem_collectEntries _ [] _ (collectEntries_fork hvp hvq false true)
      (forkTree hab hlen hlenq false true).distinct _).mpr
      ⟨_, n', by simp, hn', by simpa using he', hvp⟩
  rcases of_mem_forkOut hmem' with ⟨hk, _⟩ | ⟨hfalse, _⟩ | ⟨_, rfl⟩
  · cases n' with
    | file mode' contents' =>
      obtain rfl := Option.some_inj.mp he'
      exact absurd hk (portableFileKind_ne mode').1
    | dir entries => simp [FileNode.view] at hv'
    | symlink leadsTo => simp [FileNode.view] at hv'
    | special => simp [FileNode.view] at hv'
  · simp at hfalse
  · exact hne (entry_spec he').1.symm

/-! ### Names that are read as they stand -/

/-- Well-formed UTF-8 without a backslash. -/
def CleanName (n : FileName) : Prop := ∃ s : List Char, n.bytes = utf8Bytes s ∧ '\\' ∉ s

/-- The text of a clean name is its own. -/
theorem toList_relText_singleton {n : FileName} {s : List Char} (hs : n.bytes = utf8Bytes s)
    (hslash : '\\' ∉ s) : (relText [n]).toList = s := by
  have hjoin : [(0x2F : UInt8)].intercalate [n.bytes] = utf8Bytes s := by
    simp [List.intercalate, hs]
  rw [relText, String.toList_ofList, List.map_singleton, hjoin, utf8Bytes, fromUtf8Lossy_encode]
  conv_rhs => rw [← List.map_id s]
  refine List.map_congr_left fun c hc => if_neg ?_
  rintro rfl
  exact hslash hc

theorem slash_not_mem_of_bytes {n : FileName} {s : List Char} (hs : n.bytes = utf8Bytes s) :
    '/' ∉ s := by
  intro hmem
  refine n.valid.2.1 ?_
  rw [hs]
  exact List.mem_flatMap.mpr ⟨'/', hmem, by decide⟩

/-- The text of a path of clean names is split into them. -/
theorem splitOn_relText {p : List FileName} (hne : p ≠ []) (hp : ∀ n ∈ p, CleanName n) :
    ((relText p).toList.splitOn '/').map utf8Bytes = p.map FileName.bytes := by
  induction p with
  | nil => exact absurd rfl hne
  | cons n p ih =>
    obtain ⟨s, hs, hback⟩ := hp n (by simp)
    have hslash := slash_not_mem_of_bytes hs
    by_cases hnil : p = []
    · subst hnil
      rw [toList_relText_singleton hs hback, splitOn_eq_singleton hslash]
      simp [hs]
    · have hrest := ih hnil fun m hm => hp m (by simp [hm])
      have hcons : (relText (n :: p)).toList = s ++ '/' :: (relText p).toList := by
        rw [← List.singleton_append, toList_relText_append (by simp) hnil,
          toList_relText_singleton hs hback]
      have hsplit : (s ++ '/' :: (relText p).toList).splitOn '/' =
          s :: (relText p).toList.splitOn '/' := by
        have hparts := @splitOn_join '/' (s :: (relText p).toList.splitOn '/')
          (by
            intro part hpart
            rcases List.mem_cons.mp hpart with rfl | hpart
            · exact hslash
            · exact not_mem_of_mem_splitOn hpart) (by simp)
        have hjoin : ['/'].intercalate (s :: (relText p).toList.splitOn '/') = s ++ '/' :: (relText p).toList := by
          obtain ⟨x, xs, hx⟩ := List.exists_cons_of_ne_nil (List.splitOn_ne_nil '/' (relText p).toList)
          have hback := @List.intercalate_splitOn _ (relText p).toList _ _ '/'
          rw [hx] at hback ⊢
          rw [← hback]
          simp [List.intercalate]
        rwa [hjoin] at hparts
      rw [hcons, hsplit, List.map_cons, hrest, List.map_cons, hs]

/-- **Clean names keep different texts.** -/
theorem textsDiffer_cleanName (excluded : Option String) : TextsDiffer excluded CleanName := by
  intro p q hp hq hpne hqne _ _ _ htext
  have hbytes : p.map FileName.bytes = q.map FileName.bytes := by
    rw [← splitOn_relText hpne hp, ← splitOn_relText hqne hq, htext]
  refine List.map_injective_iff.mpr (fun n m hnm => ?_) hbytes
  cases n
  cases m
  simp only at hnm
  subst hnm
  rfl

/-- **When the digest framing is injective.**  For trees with names of a kind,
equal bytes mean equal trees exactly when no two different paths of such names
get the same text; well-formed UTF-8 names without a backslash are of that
kind. -/
theorem treeBytes_injective_iff (sizes : ReadSizes) (excluded : Option String) :
    (∀ N : FileName → Prop, (∀ t t' : FileTree, t.NamesIn N → t'.NamesIn N → ∀ bytes,
      treeBytes sizes t excluded = .ok bytes → treeBytes sizes t' excluded = .ok bytes →
      SameView excluded t t') ↔ TextsDiffer excluded N) ∧ TextsDiffer excluded CleanName :=
  ⟨fun _ => ⟨textsDiffer_of_injective, fun hN _ _ ht ht' _ h h' => sameView_of_treeBytes hN ht ht' h h'⟩,
    textsDiffer_cleanName excluded⟩

/-! ### Two trees with the same bytes -/

/-- Reads that return all they can. -/
def fullReads : ReadSizes := ⟨min, fun _ _ => Nat.le_refl _, fun _ _ ha hn => lt_min ha hn⟩

def nameA : FileName := ⟨[0x61], by decide⟩

def nameB : FileName := ⟨[0x62], by decide⟩

/-- One name with a backslash in it. -/
def nameAB : FileName := ⟨[0x61, 0x5C, 0x62], by decide⟩

/-- A file `b` in a directory `a`, and a file `a\b` beside an empty directory
`a`, are fed alike. -/
theorem not_forall_treeBytes_injective :
    ¬ ∀ (t t' : FileTree) (bytes : List UInt8), treeBytes fullReads t none = .ok bytes →
      treeBytes fullReads t' none = .ok bytes → SameView none t t' := by
  intro hall
  have hdiffer : TextsDiffer none fun _ => True :=
    textsDiffer_of_injective fun t t' _ _ bytes h h' => hall t t' bytes h h'
  have hvisible : ∀ p ∈ [[nameA, nameB], [nameAB]], VisibleFrom none [] p := by
    intro p hp q hne hq
    have hmem : q ∈ p.inits := (List.mem_inits q p).mpr hq
    have hcheck : (([[nameA, nameB], [nameAB]].flatMap List.inits).filter (· ≠ [])).all
        (fun q => !isIgnored none (relText q)) = true := by decide
    have hq' := List.all_eq_true.mp hcheck q
      (List.mem_filter.mpr ⟨List.mem_flatMap.mpr ⟨p, hp, hmem⟩, by simpa using hne⟩)
    simpa using hq'
  have htext : relText [nameA, nameB] = relText [nameAB] := by decide
  have heq := hdiffer [nameA, nameB] [nameAB] (fun _ _ => trivial) (fun _ _ => trivial) (by decide)
    (by decide) (hvisible _ (by simp)) (hvisible _ (by simp)) (by decide) htext
  exact absurd heq (by decide)

end Tapid
