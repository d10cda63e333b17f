/-
The digest of a tree without one root entry.

The entry is passed over on the walk, where names are compared as lossy text,
and its paths are dropped from the executable manifest after all of it has been
read.  Removing the entry from the disk and its paths from the manifest's file
comes to the same when the manifest was acceptable before, and when no other
root entry shows as the excluded one.

* `withoutEntries` — the tree with the entry removed;
* `readExecutableManifest_without` — an accepted manifest stays accepted;
* `collectEntries_without`, `collectEntries_more` — the walks;
* `excludedAgrees_iff` — when both digests are the same.
-/
import Tapid.ExecutableManifest

namespace Tapid

open Text Fallible Bytes

/-! ### The excluded entry -/

/-- What `canonical_tree_digest_without_root_entry` asks of the name. -/
def admitsRootEntry (entry : String) : Bool :=
  !(entry.toList.isEmpty || entry == "." || entry == ".." ||
    entry.toList.any fun c => c == Char.ofNat 0 || c == '/' || c == '\\' || c == ':')

/-- The name of an entry to leave out; the manifest is not left out. -/
structure RootEntry where
  name : String
  admitted : admitsRootEntry name = true
  notManifest : name ≠ executableManifest

namespace RootEntry

variable (e : RootEntry)

/-- A path of the entry or of something below it. -/
def owns (path : List Char) : Bool := path == e.name.toList || startsWith (e.name ++ "/").toList path

theorem not_mem {c : Char} (hc : c ∈ ['/', '\\']) : c ∉ e.name.toList := by
  intro hmem
  have hadmitted := e.admitted
  rw [admitsRootEntry, Bool.not_eq_true', Bool.or_eq_false_iff] at hadmitted
  have hall := List.any_eq_false.mp hadmitted.2 c hmem
  rcases List.mem_cons.mp hc with rfl | hc
  · exact hall rfl
  · rw [List.mem_singleton.mp hc] at hall
    exact hall rfl

/-- A path that the entry does not own begins with another name. -/
theorem head_ne {path first : List Char} {rest : List (List Char)} (h : e.owns path = false)
    (hsplit : path.splitOn '/' = first :: rest) : first ≠ e.name.toList := by
  rintro rfl
  have hjoin := @List.intercalate_splitOn _ path _ _ '/'
  rw [hsplit] at hjoin
  rw [owns, Bool.or_eq_false_iff] at h
  cases rest with
  | nil =>
    have hself : path = e.name.toList := by
      rw [← hjoin]
      simp [List.intercalate]
    exact absurd h.1 (by rw [hself]; simp)
  | cons next rest =>
    rw [List.intercalate_cons_of_ne_nil (List.cons_ne_nil _ _)] at hjoin
    have hstart : startsWith (e.name ++ "/").toList path = true := by
      rw [← hjoin, String.toList_append]
      exact startsWith_append _ _
    rw [hstart] at h
    cases h.2

end RootEntry

/-! ### The tree with the entry removed -/

/-- A line without its carriage return. -/
def lineText (line : List Char) : List Char := if line.getLast? = some '\r' then line.dropLast else line

theorem lines_eq (contents : List Char) : lines contents = (contents.splitOn '\n').dropLast.map lineText := rfl

section Removed

variable (e : RootEntry)

/-- The lines of a manifest that stay. -/
def keptLines (contents : List Char) : List (List Char) :=
  (contents.splitOn '\n').dropLast.filter fun line => !e.owns (lineText line)

/-- A manifest without the paths of the entry. -/
def dropPaths (contents : List Char) : List Char :=
  (keptLines e contents).flatMap (fun line => line ++ ['\n']) ++ ((contents.splitOn '\n').getLast?).getD []

def dropManifest : FileNode → FileNode
  | .file mode contents => .file mode (match String.fromUTF8? contents.toByteArray with
    | some text => utf8Bytes (dropPaths e text.toList)
    | none => contents)
  | node => node

/-- The entries without the excluded one, and the manifest without its paths. -/
def withoutEntries (entries : DirEntries) : DirEntries :=
  (entries.filter fun x => x.1.bytes != utf8Bytes e.name.toList).map fun x =>
    (x.1, if x.1 = manifestName then dropManifest e x.2 else x.2)

end Removed

section Find

variable {e : RootEntry} {entries : DirEntries}

theorem withoutEntries_cons (x : FileName × FileNode) (entries : DirEntries) :
    withoutEntries e (x :: entries) = if x.1.bytes = utf8Bytes e.name.toList then withoutEntries e entries
      else (x.1, if x.1 = manifestName then dropManifest e x.2 else x.2) :: withoutEntries e entries := by
  rw [withoutEntries, List.filter_cons]
  by_cases h : x.1.bytes = utf8Bytes e.name.toList
  · rw [if_pos h, if_neg (by simp [h])]
    rfl
  · rw [if_neg h, if_pos (by simp [h])]
    rfl

theorem names_withoutEntries :
    ((withoutEntries e entries).map Prod.fst).Sublist (entries.map Prod.fst) := by
  rw [withoutEntries, List.map_map]
  exact List.filter_sublist.map _

/-- Looking a name up after the removal. -/
theorem find_withoutEntries (name : List UInt8) : DirEntries.find (withoutEntries e entries) name =
    if name = utf8Bytes e.name.toList then none
    else (DirEntries.find entries name).map fun node =>
      if name = manifestName.bytes then dropManifest e node else node := by
  induction entries with
  | nil => simp [withoutEntries, DirEntries.find]
  | cons x entries ih =>
    rw [withoutEntries_cons]
    by_cases hx : x.1.bytes = name
    · subst hx
      by_cases he : x.1.bytes = utf8Bytes e.name.toList
      · rw [if_pos he, ih]
        simp only [if_pos he]
      · have hname : x.1 = manifestName ↔ x.1.bytes = manifestName.bytes :=
          ⟨congrArg FileName.bytes, fun h => FileName.bytes_injective h⟩
        rw [if_neg he, if_neg he]
        simp [DirEntries.find, hname]
    · have hskip : ∀ node, DirEntries.find ((x.1, node) :: withoutEntries e entries) name =
          DirEntries.find (withoutEntries e entries) name := fun node => by simp [DirEntries.find, hx]
      have hfind : DirEntries.find (x :: entries) name = DirEntries.find entries name := by
        simp [DirEntries.find, hx]
      rw [hfind, ← ih]
      split_ifs
      · rfl
      · exact hskip _
      · exact hskip _

end Find

/-! ### Manifests that are accepted -/

/-- What the reader asks of the lines. -/
structure AcceptedLines (metadata : List (List UInt8) → Option FileNode) (paths : List String) : Prop where
  sorted : paths.Pairwise (· < ·)
  normal : ∀ path ∈ paths, normalizedPath path = .ok path
  files : ∀ path ∈ paths, FileAt metadata path

theorem foldlM_readManifestLine_eq_ok {metadata : List (List UInt8) → Option FileNode} {paths : List String}
    {set : OrdSet String} :
    (∃ last, paths.foldlM (fun state path => readManifestLine metadata state path.toList) (∅, none) =
      .ok (set, last)) ↔ AcceptedLines metadata paths ∧ ∀ path, path ∈ set ↔ path ∈ paths := by
  constructor
  · rintro ⟨last, hrun⟩
    obtain ⟨hlines, hmem, _⟩ := Loop.foldlM_inv_done
      (I := fun done (state : OrdSet String × Option String) => AcceptedLines metadata done ∧
        (∀ path, path ∈ state.1 ↔ path ∈ done) ∧ state.2 = done.getLast?)
      (fun done path state state' hstate hstep => by
        obtain ⟨hlines, hmem, hlast⟩ := hstate
        obtain ⟨hnormal, hprevious, hfile, rfl⟩ := readManifestLine_eq_ok.mp hstep
        -- the last of a sorted list is above the others
        have hbelow : ∀ p ∈ done, p < path := by
          intro p hp
          rcases List.eq_nil_or_concat done with rfl | ⟨front, previous, rfl⟩
          · cases hp
          · rw [List.concat_eq_append] at hp hlast hlines
            rw [List.getLast?_concat] at hlast
            have hlt := hprevious previous hlast
            rcases List.mem_append.mp hp with hp | hp
            · exact (List.pairwise_append.mp hlines.sorted).2.2 p hp previous (List.mem_singleton_self _)
                |>.trans hlt
            · rwa [List.mem_singleton.mp hp]
        refine ⟨⟨?_, fun p hp => ?_, fun p hp => ?_⟩, fun p => ?_, by rw [List.getLast?_concat]⟩
        · exact List.pairwise_append.mpr ⟨hlines.sorted, List.pairwise_singleton _ _, fun p hp q hq =>
            List.mem_singleton.mp hq ▸ hbelow p hp⟩
        · rcases List.mem_append.mp hp with hp | hp
          · exact hlines.normal p hp
          · rwa [List.mem_singleton.mp hp]
        · rcases List.mem_append.mp hp with hp | hp
          · exact hlines.files p hp
          · rwa [List.mem_singleton.mp hp]
        · rw [OrdSet.mem_insert, hmem, List.mem_append, List.mem_singleton]
          exact or_comm)
      ⟨⟨List.Pairwise.nil, by simp, by simp⟩, by simp, rfl⟩ hrun
    exact ⟨hlines, hmem⟩
  · rintro ⟨hlines, hmem⟩
    obtain ⟨state, hrun, hstate⟩ := (foldlM_readManifestLine hlines.sorted hlines.files).mpr hlines.normal
    obtain ⟨found, last⟩ := state
    obtain rfl : found = set := OrdSet.ext_mem fun path => (hstate path).trans (hmem path).symm
    exact ⟨last, hrun⟩

/-- The paths of a manifest. -/
def manifestPaths (contents : List Char) : List String := (lines contents).map String.ofList

/-- **An accepted manifest.** -/
theorem readExecutableManifest_eq_ok {tree : DirEntries} {mode : Nat} {contents : List UInt8}
    (hfind : DirEntries.find tree (utf8Bytes executableManifest.toList) = some (.file mode contents))
    {set : OrdSet String} : readExecutableManifest tree = .ok (some set) ↔
      contents.length ≤ 4 * 1024 * 1024 ∧ ∃ text, String.fromUTF8? contents.toByteArray = some text ∧
        ¬ (text.toList ≠ [] ∧ text.toList.getLast? ≠ some '\n') ∧
        AcceptedLines (FileNode.dir tree).metadataAt (manifestPaths text.toList) ∧
        ∀ path, path ∈ set ↔ path ∈ manifestPaths text.toList := by
  have hlines : ∀ (text : String) (state : OrdSet String × Option String),
      (lines text.toList).foldlM (readManifestLine (FileNode.dir tree).metadataAt) (∅, none) = .ok state ↔
        (manifestPaths text.toList).foldlM
          (fun state path => readManifestLine (FileNode.dir tree).metadataAt state path.toList)
          (∅, none) = .ok state := by
    intro text state
    rw [manifestPaths, List.foldlM_map]
    simp only [String.toList_ofList]
  rw [readExecutableManifest, readManifest, FileNode.metadataAt_singleton, hfind]
  simp only [bind_eq_ok, rejectIf_eq_ok, orError_eq_ok, pure_eq_ok, not_lt]
  constructor
  · rintro ⟨_, hsize, text, htext, _, hend, ⟨found, last⟩, hrun, hset⟩
    obtain rfl : found = set := Option.some_inj.mp hset
    exact ⟨hsize, text, htext, hend,
      foldlM_readManifestLine_eq_ok.mp ⟨last, (hlines text _).mp hrun⟩⟩
  · rintro ⟨hsize, text, htext, hend, haccepted⟩
    obtain ⟨last, hrun⟩ := foldlM_readManifestLine_eq_ok.mpr haccepted
    exact ⟨(), hsize, text, htext, (), hend, _, (hlines text _).mpr hrun, rfl⟩

/-- The document the reader accepts: no manifest, or a file of at most four
mebibytes of UTF-8 text whose lines end and are accepted. -/
def ManifestAccepted (tree : DirEntries) : Prop :=
  match DirEntries.find tree (utf8Bytes executableManifest.toList) with
  | none => True
  | some (.file _ contents) => contents.length ≤ 4 * 1024 * 1024 ∧
      ∃ text, String.fromUTF8? contents.toByteArray = some text ∧
        ¬ (text.toList ≠ [] ∧ text.toList.getLast? ≠ some '\n') ∧
        AcceptedLines (FileNode.dir tree).metadataAt (manifestPaths text.toList)
  | some _ => False

theorem manifestAccepted_iff {tree : DirEntries} :
    ManifestAccepted tree ↔ ∃ paths, readExecutableManifest tree = .ok paths := by
  rw [ManifestAccepted]
  cases hfind : DirEntries.find tree (utf8Bytes executableManifest.toList) with
  | none => simp [readExecutableManifest, readManifest, hfind]
  | some node =>
    cases node with
    | file mode contents =>
      constructor
      · rintro ⟨hsize, text, htext, hend, hlines⟩
        refine ⟨some (.ofList (manifestPaths text.toList)), (readExecutableManifest_eq_ok hfind).mpr ?_⟩
        exact ⟨hsize, text, htext, hend, hlines, fun path => OrdSet.mem_ofList⟩
      · rintro ⟨paths, h⟩
        have hsome : ∃ set, paths = some set := by
          rw [readExecutableManifest, readManifest, FileNode.metadataAt_singleton, hfind] at h
          simp only [bind_eq_ok, pure_eq_ok] at h
          obtain ⟨_, _, _, _, _, _, state, _, rfl⟩ := h
          exact ⟨_, rfl⟩
        obtain ⟨set, rfl⟩ := hsome
        obtain ⟨hsize, text, htext, hend, hlines, _⟩ := (readExecutableManifest_eq_ok hfind).mp h
        exact ⟨hsize, text, htext, hend, hlines⟩
    | dir sub => simp [readExecutableManifest, readManifest, hfind]
    | symlink leadsTo => simp [readExecutableManifest, readManifest, hfind]
    | special => simp [readExecutableManifest, readManifest, hfind]

/-! ### The manifest after the removal -/

section Dropped

variable {e : RootEntry}

theorem not_mem_keptLines {contents : List Char} {line : List Char} (h : line ∈ keptLines e contents) :
    '\n' ∉ line :=
  not_mem_of_mem_splitOn (List.dropLast_subset _ (List.mem_of_mem_filter h))

/-- Lines with their ends, and what follows the last of them. -/
theorem splitOn_flatMap {front : List (List Char)} {last : List Char} (hfront : ∀ line ∈ front, '\n' ∉ line)
    (hlast : '\n' ∉ last) :
    (front.flatMap (fun line => line ++ ['\n']) ++ last).splitOn '\n' = front ++ [last] := by
  induction front with
  | nil =>
    rw [List.flatMap_nil, List.nil_append, List.nil_append]
    exact splitOn_eq_singleton hlast
  | cons line front ih =>
    rw [List.flatMap_cons, List.append_assoc, List.append_assoc, List.singleton_append,
      List.splitOn_append_cons_self_of_not_mem (hfront line (by simp)),
      ih fun l hl => hfront l (by simp [hl])]
    rfl

theorem flatMap_splitOn (contents : List Char) :
    (contents.splitOn '\n').dropLast.flatMap (fun line => line ++ ['\n']) ++
      ((contents.splitOn '\n').getLast?).getD [] = contents := by
  have hne := List.splitOn_ne_nil '\n' contents
  have hsplit := (List.dropLast_append_getLast hne).symm
  have hlines : ∀ line ∈ contents.splitOn '\n', '\n' ∉ line := fun line hline => not_mem_of_mem_splitOn hline
  have hself := splitOn_flatMap (fun line hline => hlines line (List.dropLast_subset _ hline))
    (hlines _ (List.getLast_mem hne))
  rw [List.getLast?_eq_some_getLast hne, Option.getD_some]
  rw [List.dropLast_append_getLast hne] at hself
  have hjoin := congrArg (['\n'].intercalate) hself
  rwa [List.intercalate_splitOn, List.intercalate_splitOn] at hjoin

theorem last_splitOn (contents : List Char) : '\n' ∉ ((contents.splitOn '\n').getLast?).getD [] := by
  have hne := List.splitOn_ne_nil '\n' contents
  rw [List.getLast?_eq_some_getLast hne, Option.getD_some]
  exact not_mem_of_mem_splitOn (List.getLast_mem hne)

theorem splitOn_dropPaths (contents : List Char) :
    (dropPaths e contents).splitOn '\n' =
      keptLines e contents ++ [((contents.splitOn '\n').getLast?).getD []] :=
  splitOn_flatMap (fun _ hline => not_mem_keptLines hline) (last_splitOn contents)

/-- The paths that stay. -/
theorem manifestPaths_dropPaths (contents : List Char) : manifestPaths (dropPaths e contents) =
    (manifestPaths contents).filter fun path => !e.owns path.toList := by
  rw [manifestPaths, manifestPaths, lines_eq, lines_eq, splitOn_dropPaths, List.dropLast_concat, keptLines,
    List.filter_map, List.filter_map]
  simp only [Function.comp_def, String.toList_ofList]

/-- A text is terminated when nothing follows its last newline. -/
theorem terminated_iff {front : List (List Char)} {last : List Char} (hlast : '\n' ∉ last) :
    ¬ (front.flatMap (fun line => line ++ ['\n']) ++ last ≠ [] ∧
      (front.flatMap (fun line => line ++ ['\n']) ++ last).getLast? ≠ some '\n') ↔ last = [] := by
  constructor
  · intro h
    by_contra hne
    refine h ⟨by simp [hne], ?_⟩
    rw [List.getLast?_append_of_ne_nil _ hne]
    exact fun heq => hlast (List.mem_of_getLast? heq)
  · rintro rfl ⟨hne, hend⟩
    rw [List.append_nil] at hne hend
    rcases List.eq_nil_or_concat front with rfl | ⟨init, line, rfl⟩
    · exact hne rfl
    · refine hend ?_
      rw [List.concat_eq_append, List.flatMap_append, List.flatMap_singleton, ← List.append_assoc,
        List.getLast?_concat]

theorem terminated_dropPaths {contents : List Char}
    (h : ¬ (contents ≠ [] ∧ contents.getLast? ≠ some '\n')) :
    ¬ (dropPaths e contents ≠ [] ∧ (dropPaths e contents).getLast? ≠ some '\n') := by
  rw [← flatMap_splitOn contents, terminated_iff (last_splitOn contents)] at h
  rw [dropPaths, terminated_iff (last_splitOn contents)]
  exact h

theorem length_dropPaths_le (contents : List Char) :
    (utf8Bytes (dropPaths e contents)).length ≤ (utf8Bytes contents).length := by
  have hsub : (dropPaths e contents).Sublist contents := by
    conv_rhs => rw [← flatMap_splitOn contents]
    exact (List.filter_sublist.flatMap _).append_right _
  exact (hsub.flatMap _).length_le

end Dropped

/-! ### Reading after the removal -/

section Reading

variable {e : RootEntry} {entries : DirEntries}

theorem manifest_ne (e : RootEntry) : utf8Bytes executableManifest.toList ≠ utf8Bytes e.name.toList := fun h =>
  e.notManifest (String.toList_injective (utf8Bytes_injective h)).symm

/-- Files of other entries are found as before. -/
theorem FileAt.without {path : String} (h : FileAt (FileNode.dir entries).metadataAt path)
    (howns : e.owns path.toList = false) :
    FileAt (FileNode.dir (withoutEntries e entries)).metadataAt path := by
  obtain ⟨mode, contents, hmeta⟩ := h
  cases hsplit : path.toList.splitOn '/' with
  | nil => exact absurd hsplit (List.splitOn_ne_nil _ _)
  | cons first rest =>
    have hfirst : utf8Bytes first ≠ utf8Bytes e.name.toList := fun heq =>
      e.head_ne howns hsplit (utf8Bytes_injective heq)
    rw [hsplit, List.map_cons, FileNode.metadataAt] at hmeta
    obtain ⟨node, hfind, hnode⟩ := Option.bind_eq_some_iff.mp hmeta
    have hgoal : ∀ found, DirEntries.find (withoutEntries e entries) (utf8Bytes first) = some found →
        (∃ mode contents, found.metadataAt (rest.map utf8Bytes) = some (.file mode contents)) →
        FileAt (FileNode.dir (withoutEntries e entries)).metadataAt path := by
      rintro found hfound ⟨mode, contents, hrest⟩
      refine ⟨mode, contents, ?_⟩
      rw [hsplit, List.map_cons, FileNode.metadataAt, hfound]
      exact hrest
    have hfound := @find_withoutEntries e entries (utf8Bytes first)
    rw [if_neg hfirst, hfind, Option.map_some] at hfound
    refine hgoal _ hfound ?_
    split_ifs
    · -- the manifest stays a file
      cases node with
      | file m data =>
        cases rest with
        | nil => exact ⟨m, _, rfl⟩
        | cons next rest => cases hnode
      | dir sub => exact ⟨mode, contents, hnode⟩
      | symlink leadsTo => exact ⟨mode, contents, hnode⟩
      | special => exact ⟨mode, contents, hnode⟩
    · exact ⟨mode, contents, hnode⟩

theorem AcceptedLines.without {paths : List String} (h : AcceptedLines (FileNode.dir entries).metadataAt paths) :
    AcceptedLines (FileNode.dir (withoutEntries e entries)).metadataAt
      (paths.filter fun path => !e.owns path.toList) where
  sorted := h.sorted.filter _
  normal path hpath := h.normal path (List.mem_of_mem_filter hpath)
  files path hpath := by
    obtain ⟨hmem, howns⟩ := List.mem_filter.mp hpath
    exact (h.files path hmem).without ((Bool.not_eq_true' _).mp howns)

theorem mem_retainExecutable {paths : OrdSet String} {path : String} :
    path ∈ retainExecutable (some e.name) paths ↔ path ∈ paths ∧ e.owns path.toList = false := by
  have howns : (path != e.name && !startsWith (e.name ++ "/").toList path.toList) = !e.owns path.toList := by
    have hname : (path.toList == e.name.toList) = (path == e.name) := by
      rw [Bool.eq_iff_iff, beq_iff_eq, beq_iff_eq, String.toList_inj]
    rw [RootEntry.owns, Bool.not_or, hname]
    rfl
  rw [retainExecutable, OrdSet.mem_filter, howns, Bool.not_eq_true']

/-- **An accepted manifest stays accepted**, and its other paths are the ones
that were kept. -/
theorem readExecutableManifest_without {paths : Option (OrdSet String)}
    (h : readExecutableManifest entries = .ok paths) :
    readExecutableManifest (withoutEntries e entries) =
      .ok (paths.map (retainExecutable (some e.name))) := by
  have hfound := @find_withoutEntries e entries (utf8Bytes executableManifest.toList)
  rw [if_neg (manifest_ne e)] at hfound
  cases hfind : DirEntries.find entries (utf8Bytes executableManifest.toList) with
  | none =>
    rw [readExecutableManifest, readManifest, FileNode.metadataAt_singleton, hfind] at h
    rw [hfind] at hfound
    rw [readExecutableManifest, readManifest, FileNode.metadataAt_singleton, hfound, ← Except.ok.inj h]
    rfl
  | some node =>
    cases node with
    | file mode contents =>
      have hsome : ∃ set, paths = some set := by
        rw [readExecutableManifest, readManifest, FileNode.metadataAt_singleton, hfind] at h
        simp only [bind_eq_ok, pure_eq_ok] at h
        obtain ⟨_, _, _, _, _, _, state, _, rfl⟩ := h
        exact ⟨_, rfl⟩
      obtain ⟨set, rfl⟩ := hsome
      obtain ⟨hsize, text, htext, hend, hlines, hmem⟩ := (readExecutableManifest_eq_ok hfind).mp h
      have hnode : dropManifest e (.file mode contents) = .file mode (utf8Bytes (dropPaths e text.toList)) := by
        rw [dropManifest, htext]
      rw [hfind, Option.map_some, if_pos (show utf8Bytes executableManifest.toList = manifestName.bytes from rfl),
        hnode] at hfound
      refine (readExecutableManifest_eq_ok hfound).mpr ⟨?_, _, fromUTF8_utf8Bytes _, ?_, ?_, fun path => ?_⟩
      · have hle := length_dropPaths_le (e := e) text.toList
        rw [length_of_fromUTF8 htext] at hle
        omega
      · rw [String.toList_ofList]
        exact terminated_dropPaths hend
      · rw [String.toList_ofList, manifestPaths_dropPaths]
        exact hlines.without
      · rw [String.toList_ofList, manifestPaths_dropPaths, mem_retainExecutable, hmem, List.mem_filter,
          Bool.not_eq_true']
    | dir sub =>
      rw [readExecutableManifest, readManifest, FileNode.metadataAt_singleton, hfind] at h
      cases h
    | symlink leadsTo =>
      rw [readExecutableManifest, readManifest, FileNode.metadataAt_singleton, hfind] at h
      cases h
    | special =>
      rw [readExecutableManifest, readManifest, FileNode.metadataAt_singleton, hfind] at h
      cases h

end Reading

/-! ### The walks -/

section Walks

variable {e : RootEntry} {paths : Option (OrdSet String)}

theorem relText_ne (e : RootEntry) {current : List FileName} (hne : current ≠ []) (name : FileName) :
    relText (current ++ [name]) ≠ e.name := by
  intro heq
  refine e.not_mem (c := '/') (by simp) ?_
  rw [← heq, toList_relText_append hne (List.cons_ne_nil _ _)]
  simp

theorem isIgnored_of_ne {rel : String} (h : rel ≠ e.name) : isIgnored (some e.name) rel = isIgnored none rel := by
  simp [isIgnored, Ne.symm h]

mutual

/-- Below the root nothing more is left out. -/
theorem collectNode_excluded (node : FileNode) (path : List FileName) (hne : path ≠ []) :
    collectNode paths (some e.name) path node = collectNode paths none path node := by
  match node with
  | .symlink _ => rw [collectNode, collectNode]
  | .special => rw [collectNode, collectNode]
  | .file _ _ => rw [collectNode, collectNode]
  | .dir entries => rw [collectNode, collectNode, collectEntries_excluded entries path hne]

theorem collectEntries_excluded (entries : DirEntries) (current : List FileName) (hne : current ≠ []) :
    collectEntries paths (some e.name) current entries = collectEntries paths none current entries := by
  match entries with
  | [] => rw [collectEntries, collectEntries]
  | (name, node) :: rest =>
    rw [collectEntries, collectEntries, collectEntries_excluded rest current hne,
      collectNode_excluded node (current ++ [name]) (by simp), isIgnored_of_ne (relText_ne e hne name)]

end

/-- No other root entry shows as the excluded one. -/
def OnlyEntryShown (e : RootEntry) (entries : DirEntries) : Prop :=
  e.name = ".tapid-tree" ∨ ∀ x ∈ entries, relText [x.1] = e.name → x.1.bytes = utf8Bytes e.name.toList

theorem onlyEntryShown_cons {x : FileName × FileNode} {entries : DirEntries} :
    OnlyEntryShown e (x :: entries) ↔ OnlyEntryShown e entries ∧
      (e.name = ".tapid-tree" ∨ (relText [x.1] = e.name → x.1.bytes = utf8Bytes e.name.toList)) := by
  simp only [OnlyEntryShown, List.forall_mem_cons]
  tauto

theorem relText_of_bytes {name : FileName} (h : name.bytes = utf8Bytes e.name.toList) : relText [name] = e.name :=
  String.toList_injective (toList_relText_singleton h (e.not_mem (by simp)))

theorem isIgnored_self (e : RootEntry) : isIgnored (some e.name) e.name = true := by
  simp [isIgnored]

theorem isIgnored_of_none {excluded : Option String} {rel : String} (h : isIgnored none rel = true) :
    isIgnored excluded rel = true := by
  have hnone : ((none : Option String) == some rel) = false := rfl
  rw [isIgnored, hnone, Bool.or_false] at h
  rw [isIgnored, h, Bool.true_or]

/-- The manifest is ignored anyway. -/
theorem ne_manifestName {name : FileName} (h : isIgnored none (relText [name]) = false) : name ≠ manifestName := by
  rintro rfl
  exact absurd h (by decide)

/-- An ignored name that shows as the entry is the marker of a tree. -/
theorem eq_marker_of_isIgnored {rel : String} (h : isIgnored none rel = true) (hrel : rel = e.name) :
    e.name = ".tapid-tree" := by
  rw [hrel] at h
  have hmanifest : (e.name == executableManifest) = false := beq_false_of_ne e.notManifest
  simpa [isIgnored, hmanifest] using h

theorem collectEntries_cons_of_ignored {excluded : Option String} {current : List FileName} {name : FileName}
    {node : FileNode} {rest : DirEntries} (h : isIgnored excluded (relText (current ++ [name])) = true) :
    collectEntries paths excluded current ((name, node) :: rest) = collectEntries paths excluded current rest := by
  rw [collectEntries, if_pos h]
  cases collectEntries paths excluded current rest <;> rfl

theorem collectEntries_cons_of_shown {excluded : Option String} {current : List FileName} {name : FileName}
    {node : FileNode} {rest : DirEntries} {out : List TreeEntry}
    (h : isIgnored excluded (relText (current ++ [name])) = false) :
    collectEntries paths excluded current ((name, node) :: rest) = .ok out ↔
      ∃ here, collectNode paths excluded (current ++ [name]) node = .ok here ∧
        ∃ others, collectEntries paths excluded current rest = .ok others ∧ here ++ others = out := by
  rw [collectEntries, if_neg (by rw [h]; exact Bool.false_ne_true)]
  simp only [bind_eq_ok, pure_eq_ok]

/-- **The walks find the same** where only the entry itself shows as it. -/
theorem collectEntries_without {entries : DirEntries} (h : OnlyEntryShown e entries) :
    collectEntries paths (some e.name) [] entries = collectEntries paths none [] (withoutEntries e entries) := by
  induction entries with
  | nil => rw [withoutEntries, List.filter_nil, List.map_nil, collectEntries, collectEntries]
  | cons x entries ih =>
    obtain ⟨name, node⟩ := x
    obtain ⟨hrest, hname⟩ := onlyEntryShown_cons.mp h
    rw [withoutEntries_cons]
    by_cases he : name.bytes = utf8Bytes e.name.toList
    · rw [if_pos he, ← ih hrest]
      refine collectEntries_cons_of_ignored ?_
      rw [List.nil_append, relText_of_bytes he]
      exact isIgnored_self e
    · rw [if_neg he]
      cases hign : isIgnored none (relText [name]) with
      | true =>
        have hroot : isIgnored none (relText ([] ++ [name])) = true := hign
        rw [collectEntries_cons_of_ignored (isIgnored_of_none hroot), collectEntries_cons_of_ignored hroot,
          ih hrest]
      | false =>
        have hrel : relText [name] ≠ e.name := by
          intro hrel
          rcases hname with hmarker | hname
          · rw [hrel, hmarker] at hign
            exact absurd hign (by decide)
          · exact he (hname hrel)
        rw [if_neg (ne_manifestName hign), collectEntries, collectEntries, ih hrest, List.nil_append,
          isIgnored_of_ne hrel, collectNode_excluded node [name] (List.cons_ne_nil _ _)]

theorem collectNode_ne_nil {excluded : Option String} {path : List FileName} {node : FileNode}
    {out : List TreeEntry} (h : collectNode paths excluded path node = .ok out) : out ≠ [] := by
  rintro rfl
  cases node with
  | file mode contents =>
    rw [collectNode] at h
    obtain ⟨kind, _, hout⟩ := bind_eq_ok.mp h
    cases hout
  | dir entries =>
    rw [collectNode] at h
    obtain ⟨below, _, hout⟩ := bind_eq_ok.mp h
    cases hout
  | symlink leadsTo =>
    rw [collectNode] at h
    cases h
  | special =>
    rw [collectNode] at h
    cases h

/-- **The walk after the removal finds more** where another entry shows as the
excluded one. -/
theorem collectEntries_more {entries : DirEntries} {out' : List TreeEntry}
    (h : collectEntries paths none [] (withoutEntries e entries) = .ok out') :
    ∃ out, collectEntries paths (some e.name) [] entries = .ok out ∧ out.Sublist out' ∧
      (¬ OnlyEntryShown e entries → out.length < out'.length) := by
  induction entries generalizing out' with
  | nil =>
    rw [withoutEntries, List.filter_nil, List.map_nil] at h
    refine ⟨out', ?_, List.Sublist.refl _, fun hnot => absurd (Or.inr (by simp)) hnot⟩
    rw [collectEntries] at h ⊢
    exact h
  | cons x entries ih =>
    obtain ⟨name, node⟩ := x
    rw [withoutEntries_cons] at h
    by_cases he : name.bytes = utf8Bytes e.name.toList
    · rw [if_pos he] at h
      obtain ⟨out, hout, hsub, hlt⟩ := ih h
      refine ⟨out, ?_, hsub, fun hnot => hlt fun honly => hnot ?_⟩
      · rw [collectEntries_cons_of_ignored, hout]
        rw [List.nil_append, relText_of_bytes he]
        exact isIgnored_self e
      · exact onlyEntryShown_cons.mpr ⟨honly, Or.inr fun _ => he⟩
    rw [if_neg he] at h
    cases hign : isIgnored none (relText [name]) with
    | true =>
      have hroot : isIgnored none (relText ([] ++ [name])) = true := hign
      rw [collectEntries_cons_of_ignored hroot] at h
      obtain ⟨out, hout, hsub, hlt⟩ := ih h
      refine ⟨out, ?_, hsub, fun hnot => hlt fun honly => hnot ?_⟩
      · rw [collectEntries_cons_of_ignored (isIgnored_of_none hroot), hout]
      by_cases hrel : relText [name] = e.name
      · exact onlyEntryShown_cons.mpr ⟨honly, Or.inl (eq_marker_of_isIgnored hign hrel)⟩
      · exact onlyEntryShown_cons.mpr ⟨honly, Or.inr fun h => absurd h hrel⟩
    | false =>
      rw [if_neg (ne_manifestName hign)] at h
      have hroot : isIgnored none (relText ([] ++ [name])) = false := hign
      obtain ⟨here, hhere, others', hothers', rfl⟩ := (collectEntries_cons_of_shown hroot).mp h
      obtain ⟨others, hothers, hsub, hlt⟩ := ih hothers'
      have hne := collectNode_ne_nil hhere
      by_cases hrel : relText [name] = e.name
      · -- the walk passes over the entry that shows as the excluded one
        refine ⟨others, ?_, hsub.trans (List.sublist_append_right _ _), fun _ => ?_⟩
        · rw [collectEntries_cons_of_ignored, hothers]
          rw [List.nil_append, hrel]
          exact isIgnored_self e
        · have hle := hsub.length_le
          have hpos := List.length_pos_iff.mpr hne
          rw [List.length_append]
          omega
      · refine ⟨here ++ others, ?_, hsub.append_left _, fun hnot => ?_⟩
        · refine (collectEntries_cons_of_shown ?_).mpr ⟨here, ?_, others, hothers, rfl⟩
          · rw [List.nil_append, isIgnored_of_ne hrel, hign]
          · rw [collectNode_excluded node _ (by simp), hhere]
        · have hstrict := hlt fun honly =>
            hnot (onlyEntryShown_cons.mpr ⟨honly, Or.inr fun h => absurd h hrel⟩)
          rw [List.length_append, List.length_append]
          omega

end Walks

/-! ### The tree after the removal -/

section Tree

variable {e : RootEntry} {entries : DirEntries}

/-- Everything in the tree was there before, but for the manifest's text. -/
theorem at_withoutEntries {n : FileName} {p : List FileName} {node : FileNode}
    (h : (FileNode.dir (withoutEntries e entries)).at (n :: p) = some node) :
    ∃ old, (FileNode.dir entries).at (n :: p) = some old ∧ (node = old ∨ node = dropManifest e old) := by
  rw [FileNode.at_dir_cons, find_withoutEntries] at h
  obtain ⟨found, hfound, hnode⟩ := Option.bind_eq_some_iff.mp h
  split_ifs at hfound
  · obtain ⟨old, hold, rfl⟩ := Option.map_eq_some_iff.mp hfound
    have hat : ∀ q, (FileNode.dir entries).at (n :: q) = old.at q := fun q => by
      rw [FileNode.at_dir_cons, hold]
      rfl
    cases old with
    | file mode contents =>
      cases p with
      | nil =>
        rw [FileNode.at_nil] at hnode
        exact ⟨_, (hat []).trans (FileNode.at_nil _), Or.inr (Option.some_inj.mp hnode).symm⟩
      | cons m p =>
        rw [dropManifest] at hnode
        simp [FileNode.at] at hnode
    | dir sub => exact ⟨node, (hat p).trans hnode, Or.inl rfl⟩
    | symlink leadsTo => exact ⟨node, (hat p).trans hnode, Or.inl rfl⟩
    | special => exact ⟨node, (hat p).trans hnode, Or.inl rfl⟩
  · obtain ⟨old, hold, rfl⟩ := Option.map_eq_some_iff.mp hfound
    refine ⟨node, ?_, Or.inl rfl⟩
    rw [FileNode.at_dir_cons, hold]
    exact hnode

theorem dir_of_dropManifest {old : FileNode} {sub : DirEntries} (h : dropManifest e old = .dir sub) :
    old = .dir sub := by
  cases old with
  | file mode contents => cases h
  | dir entries => exact h
  | symlink leadsTo => exact h
  | special => exact h

theorem length_of_dropManifest {old : FileNode} {mode : Nat} {contents : List UInt8}
    (h : dropManifest e old = .file mode contents) :
    ∃ before, old = .file mode before ∧ contents.length ≤ before.length := by
  cases old with
  | file m before =>
    rw [dropManifest] at h
    obtain ⟨rfl, rfl⟩ := FileNode.file.inj h
    refine ⟨before, rfl, ?_⟩
    cases htext : String.fromUTF8? before.toByteArray with
    | none => exact Nat.le_refl _
    | some text =>
      have hle := length_dropPaths_le (e := e) text.toList
      rwa [length_of_fromUTF8 htext] at hle
  | dir entries => cases h
  | symlink leadsTo => cases h
  | special => cases h

/-- The tree with the entry removed. -/
def FileTree.without (t : FileTree) (e : RootEntry) : FileTree where
  entries := withoutEntries e t.entries
  distinct p sub hp := by
    cases p with
    | nil =>
      rw [FileNode.at_nil] at hp
      rw [← FileNode.dir.inj (Option.some_inj.mp hp)]
      exact names_withoutEntries.nodup (t.distinct [] _ (FileNode.at_nil _))
    | cons n p =>
      obtain ⟨old, hold, rfl | hnode⟩ := at_withoutEntries hp
      · exact t.distinct (n :: p) sub hold
      · rw [dir_of_dropManifest hnode.symm] at hold
        exact t.distinct (n :: p) sub hold
  fits p node hp := by
    cases p with
    | nil =>
      refine ⟨(t.fits [] _ (FileNode.at_nil _)).1, fun mode contents hnode => ?_⟩
      rw [FileNode.at_nil, hnode] at hp
      cases hp
    | cons n p =>
      obtain ⟨old, hold, hnode⟩ := at_withoutEntries hp
      refine ⟨(t.fits _ _ hold).1, fun mode contents hfile => ?_⟩
      rcases hnode with rfl | rfl
      · exact (t.fits _ _ hold).2 mode contents hfile
      · obtain ⟨before, rfl, hle⟩ := length_of_dropManifest hfile
        exact Nat.lt_of_le_of_lt hle ((t.fits _ _ hold).2 mode before rfl)

end Tree

/-! ### Both digests -/

/-- A tree that a digest can be taken of: its manifest is accepted, and what the
walk looks at are directories and files with the modes it expects. -/
def Digestible (t : FileTree) (excluded : Option String) : Prop :=
  ∃ paths, readExecutableManifest t.entries = .ok paths ∧ ∀ p node, p ≠ [] →
    (FileNode.dir t.entries).at p = some node → VisibleFrom excluded [] p →
      Collectable (paths.map (retainExecutable excluded)) p node

theorem digestible_iff {t : FileTree} {excluded : Option String} :
    Digestible t excluded ↔ ∃ records, treeRecords t excluded = .ok records := by
  simp only [treeRecords, bind_eq_ok, pure_eq_ok]
  constructor
  · rintro ⟨paths, hpaths, hall⟩
    obtain ⟨out, hout⟩ := (collectEntries_isOk t.entries [] t.distinct).mpr hall
    exact ⟨_, paths, hpaths, out, hout, rfl⟩
  · rintro ⟨_, paths, hpaths, out, hout, _⟩
    exact ⟨paths, hpaths, (collectEntries_isOk t.entries [] t.distinct).mp ⟨out, hout⟩⟩

/-- The digest without the entry is the digest after its removal. -/
def ExcludedAgrees (t : FileTree) (e : RootEntry) : Prop :=
  ∀ (sizes : ReadSizes) (sha256Hex : List UInt8 → String) (digest : String),
    treeDigest sizes sha256Hex t (some e.name) = .ok digest ↔
      treeDigest sizes sha256Hex (t.without e) none = .ok digest

theorem treeDigest_eq_ok {sizes : ReadSizes} {sha256Hex : List UInt8 → String} {t : FileTree}
    {excluded : Option String} {digest : String} : treeDigest sizes sha256Hex t excluded = .ok digest ↔
      ∃ records, treeRecords t excluded = .ok records ∧
        digest = "sha256-" ++ sha256Hex (((records.insertionSort fun a b => a.key ≤ b.key).map
          TreeRecord.shape).flatMap TreeRecord.frame) := by
  simp only [treeDigest, bind_eq_ok, pure_eq_ok, treeBytes_eq_ok]
  constructor
  · rintro ⟨_, ⟨records, hrecords, rfl⟩, rfl⟩
    exact ⟨records, hrecords, rfl⟩
  · rintro ⟨records, hrecords, rfl⟩
    exact ⟨_, ⟨records, hrecords, rfl⟩, rfl⟩

/-- Bytes of the frames of some records. -/
def framedSize (records : List TreeRecord) : Nat := (records.map fun r => (TreeRecord.frame r.shape).length).sum

theorem length_frames (records : List TreeRecord) :
    (((records.insertionSort fun a b => a.key ≤ b.key).map TreeRecord.shape).flatMap
      TreeRecord.frame).length = framedSize records := by
  rw [List.length_flatMap, List.map_map, framedSize]
  exact ((List.perm_insertionSort (fun a b : TreeRecord => a.key ≤ b.key) records).map _).sum_eq

theorem sum_lt_of_sublist {α : Type} {w : α → Nat} (hpos : ∀ x, 0 < w x) {l l' : List α} (h : l.Sublist l')
    (hlt : l.length < l'.length) : (l.map w).sum < (l'.map w).sum := by
  induction h with
  | slnil => exact absurd hlt (Nat.lt_irrefl _)
  | cons a hsub ih =>
    have hle := (hsub.map w).sum_le_sum fun _ _ => Nat.zero_le _
    have ha := hpos a
    rw [List.map_cons, List.sum_cons]
    omega
  | cons_cons a hsub ih =>
    have hrest := ih (by simpa using hlt)
    rw [List.map_cons, List.map_cons, List.sum_cons, List.sum_cons]
    omega

/-- Fewer records give another digest, by some hash. -/
theorem not_excludedAgrees_of_size {t : FileTree} {e : RootEntry} {records records' : List TreeRecord}
    (h : treeRecords t (some e.name) = .ok records) (h' : treeRecords (t.without e) none = .ok records')
    (hlt : framedSize records < framedSize records') : ¬ ExcludedAgrees t e := by
  intro hagrees
  let unary : List UInt8 → String := fun bytes => String.ofList (List.replicate bytes.length '0')
  have hdigest := (hagrees fullReads unary _).mp (treeDigest_eq_ok.mpr ⟨records, h, rfl⟩)
  obtain ⟨found, hfound, heq⟩ := treeDigest_eq_ok.mp hdigest
  obtain rfl : found = records' := Except.ok.inj (hfound.symm.trans h')
  have hlength := congrArg (fun s : String => s.toList.length) heq
  simp only [unary, String.toList_append, String.toList_ofList, List.length_append, List.length_replicate,
    length_frames] at hlength
  omega

section Excluded

variable {t : FileTree} {e : RootEntry}

theorem map_retain_none (paths : Option (OrdSet String)) : paths.map (retainExecutable none) = paths := by
  cases paths <;> rfl

theorem treeRecords_without (hmanifest : ManifestAccepted t.entries) (honly : OnlyEntryShown e t.entries) : treeRecords (t.without e) none = treeRecords t (some e.name) := by
  obtain ⟨paths, hpaths⟩ := manifestAccepted_iff.mp hmanifest
  have hwithout : readExecutableManifest (t.without e).entries =
      .ok (paths.map (retainExecutable (some e.name))) := readExecutableManifest_without hpaths
  rw [treeRecords, treeRecords, hwithout, hpaths, ok_bind, ok_bind, map_retain_none]
  simp only [collectEntries_without honly]
  rfl

/-- **More is digested after the removal** where another entry shows as the
excluded one. -/
theorem framedSize_lt {records records' : List TreeRecord} (h : treeRecords t (some e.name) = .ok records)
    (h' : treeRecords (t.without e) none = .ok records') (honly : ¬ OnlyEntryShown e t.entries) :
    framedSize records < framedSize records' := by
  simp only [treeRecords, bind_eq_ok, pure_eq_ok] at h h'
  obtain ⟨paths, hpaths, out, hout, rfl⟩ := h
  obtain ⟨paths', hpaths', out', hout', rfl⟩ := h'
  obtain rfl : paths.map (retainExecutable (some e.name)) = paths' :=
    Except.ok.inj ((readExecutableManifest_without hpaths).symm.trans hpaths')
  rw [map_retain_none] at hout' ⊢
  obtain ⟨found, hfound, hsub, hlt⟩ := collectEntries_more hout'
  obtain rfl : found = out := Except.ok.inj (hfound.symm.trans hout)
  refine sum_lt_of_sublist (fun r => List.length_pos_iff.mpr (TreeRecord.frame_ne_nil _))
    ((hsub.map TreeEntry.record).append_right _) ?_
  have hlength := hlt honly
  simp only [List.length_append, List.length_map]
  omega

theorem not_excludedAgrees (h : Digestible t (some e.name)) (honly : ¬ OnlyEntryShown e t.entries) :
    ¬ ExcludedAgrees t e := by
  intro hagrees
  obtain ⟨records, hrecords⟩ := digestible_iff.mp h
  obtain ⟨records', hrecords', _⟩ := treeDigest_eq_ok.mp
    ((hagrees fullReads (fun _ => "") _).mp (treeDigest_eq_ok.mpr ⟨records, hrecords, rfl⟩))
  exact not_excludedAgrees_of_size hrecords hrecords' (framedSize_lt hrecords hrecords' honly) hagrees

/-- **When leaving the entry out is removing it**: unless neither digest can be
taken, the manifest has to be accepted as it stands, and no other root entry may
show as the excluded one. -/
theorem excludedAgrees_iff (t : FileTree) (e : RootEntry) : ExcludedAgrees t e ↔
    (Digestible t (some e.name) ∨ Digestible (t.without e) none →
      ManifestAccepted t.entries ∧ OnlyEntryShown e t.entries) := by
  constructor
  · intro hagrees hsome
    have hexcluded : Digestible t (some e.name) := by
      rcases hsome with h | h
      · exact h
      · obtain ⟨records, hrecords⟩ := digestible_iff.mp h
        obtain ⟨found, hfound, _⟩ := treeDigest_eq_ok.mp
          ((hagrees fullReads (fun _ => "") _).mpr (treeDigest_eq_ok.mpr ⟨records, hrecords, rfl⟩))
        exact digestible_iff.mpr ⟨found, hfound⟩
    constructor
    · obtain ⟨paths, hpaths, _⟩ := hexcluded
      exact manifestAccepted_iff.mpr ⟨paths, hpaths⟩
    · by_contra honly
      exact not_excludedAgrees hexcluded honly hagrees
  · intro hcond sizes sha256Hex digest
    rw [treeDigest_eq_ok, treeDigest_eq_ok]
    have hsame : Digestible t (some e.name) ∨ Digestible (t.without e) none →
        treeRecords (t.without e) none = treeRecords t (some e.name) := fun hsome =>
      treeRecords_without (hcond hsome).1 (hcond hsome).2
    constructor
    · rintro ⟨records, hrecords, hdigest⟩
      exact ⟨records, (hsame (Or.inl (digestible_iff.mpr ⟨records, hrecords⟩))).trans hrecords, hdigest⟩
    · rintro ⟨records, hrecords, hdigest⟩
      exact ⟨records, (hsame (Or.inr (digestible_iff.mpr ⟨records, hrecords⟩))).symm.trans hrecords, hdigest⟩

end Excluded

/-! ### A name that only shows as the excluded one -/

/-- The replacement character as a name. -/
def replacementEntry : RootEntry := ⟨String.ofList [Char.ofNat 0xFFFD], by decide, by decide⟩

/-- A name that is no UTF-8. -/
def invalidName : FileName := ⟨[0xFF], by decide⟩

def invalidNameTree : FileTree where
  entries := [(invalidName, .file 0o644 [])]
  distinct p sub hp := by
    match p with
    | [] =>
      rw [FileNode.at_nil] at hp
      rw [← FileNode.dir.inj (Option.some_inj.mp hp)]
      exact List.nodup_singleton _
    | [n] =>
      rw [FileNode.at_dir_cons] at hp
      obtain ⟨found, hfound, hsub⟩ := Option.bind_eq_some_iff.mp hp
      obtain ⟨x, hx, rfl⟩ := Option.map_eq_some_iff.mp hfound
      rw [List.mem_singleton.mp (List.mem_of_find?_eq_some hx), FileNode.at_nil] at hsub
      cases hsub
    | n :: m :: q =>
      rw [FileNode.at_dir_cons] at hp
      obtain ⟨found, hfound, hsub⟩ := Option.bind_eq_some_iff.mp hp
      obtain ⟨x, hx, rfl⟩ := Option.map_eq_some_iff.mp hfound
      rw [List.mem_singleton.mp (List.mem_of_find?_eq_some hx)] at hsub
      cases hsub
  fits p node hp := by
    match p with
    | [] =>
      rw [FileNode.at_nil] at hp
      refine ⟨by decide, fun mode contents hnode => ?_⟩
      rw [hnode] at hp
      cases hp
    | n :: q =>
      rw [FileNode.at_dir_cons] at hp
      obtain ⟨found, hfound, hnode⟩ := Option.bind_eq_some_iff.mp hp
      obtain ⟨x, hx, rfl⟩ := Option.map_eq_some_iff.mp hfound
      have hbytes : x.1.bytes = n.bytes := eq_of_beq
        (List.find?_some (p := fun x : FileName × FileNode => x.1.bytes == n.bytes) hx)
      obtain rfl := List.mem_singleton.mp (List.mem_of_find?_eq_some hx)
      obtain rfl : invalidName = n := FileName.bytes_injective hbytes
      cases q with
      | nil =>
        rw [FileNode.at_nil] at hnode
        refine ⟨by decide, fun mode contents hfile => ?_⟩
        rw [hfile] at hnode
        obtain ⟨_, hcontents⟩ := FileNode.file.inj (Option.some_inj.mp hnode)
        rw [← hcontents]
        exact Nat.two_pow_pos 64
      | cons m q => cases hnode

/-- The walk passes over the file of another name, which removal leaves there. -/
theorem not_forall_excludedAgrees : ¬ ∀ (t : FileTree) (e : RootEntry), ExcludedAgrees t e := by
  intro hall
  refine not_excludedAgrees (t := invalidNameTree) (e := replacementEntry) ⟨none, by decide, ?_⟩ ?_ (hall _ _)
  · intro p node hne hnode hvisible
    obtain ⟨n, q, rfl⟩ := List.exists_cons_of_ne_nil hne
    have hn := FileNode.mem_of_at hnode
    obtain rfl := List.mem_singleton.mp hn
    have hignored := hvisible [invalidName] (List.cons_ne_nil _ _) (by simp)
    exact absurd hignored (by decide)
  · rintro (hmarker | honly)
    · exact absurd hmarker (by decide)
    · exact absurd (honly _ (List.mem_singleton_self _) (by decide)) (by decide)

end Tapid
