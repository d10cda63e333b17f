/-
The executable manifest of an extracted archive.

Extraction lists the executable files, one path a line, and the digest of a tree
reads the list back.  The writer lists whatever it has extracted, under the
entries' own names.  The reader takes at most four mebibytes and normalizes every
line once more, which a path that begins like a drive does not survive, and the
digest looks for the names the file system keeps.

* `left_of_extractInner` — what a successful extraction leaves;
* `readManifest_manifest` — when the list is read back;
* `manifestAgrees_iff` — when the list, the tree and its digest agree.
-/
import Tapid.StoredPaths

namespace Tapid

open Text Fallible Bytes

/-! ### Operations that went through -/

theorem separates_sensitive (P : List FileName → Prop) : CaseRule.sensitive.Separates P :=
  fun _ _ _ _ _ hsame => eq_of_beq hsame

theorem within_true (entries : DirEntries) : Within (fun _ => True) entries := fun _ _ _ => trivial

theorem updateEntry_ok {name : FileName} {f : Option FileNode → Except ExtractError FileNode}
    {entries entries' : DirEntries} (h : updateEntry .sensitive name f entries = .ok entries') :
    ∃ node, f (DirEntries.find entries name.bytes) = .ok node := by
  induction entries generalizing entries' with
  | nil =>
    obtain ⟨node, hnode, _⟩ := bind_eq_ok.mp h
    exact ⟨node, hnode⟩
  | cons e rest ih =>
    obtain ⟨n, node⟩ := e
    rw [updateEntry] at h
    by_cases hsame : CaseRule.sensitive.same n name = true
    · rw [if_pos hsame] at h
      obtain ⟨node', hnode', _⟩ := bind_eq_ok.mp h
      obtain rfl : n = name := eq_of_beq hsame
      exact ⟨node', by rw [DirEntries.find, List.find?_cons_of_pos (by simp)]; exact hnode'⟩
    · rw [if_neg hsame] at h
      obtain ⟨rest', hrest, _⟩ := bind_eq_ok.mp h
      have hother : (n.bytes == name.bytes) = false := beq_false_of_ne fun heq =>
        hsame (beq_iff_eq.mpr (FileName.bytes_injective heq))
      have hfind : DirEntries.find ((n, node) :: rest) name.bytes = DirEntries.find rest name.bytes := by
        simp [DirEntries.find, hother]
      rw [hfind]
      exact ih hrest

/-- A directory was created below directories. -/
theorem directory_of_createDirAll {path : List FileName} {entries entries' : DirEntries}
    (h : createDirAll .sensitive path entries = .ok entries') {q : List FileName} (hq : q <+: path)
    {v : Option NodeView} (hv : shownAt entries q = some v) : v = some .directory := by
  induction path generalizing entries entries' q with
  | nil =>
    rw [List.prefix_nil.mp hq, shownAt_nil] at hv
    exact (Option.some_inj.mp hv).symm
  | cons name rest ih =>
    cases q with
    | nil =>
      rw [shownAt_nil] at hv
      exact (Option.some_inj.mp hv).symm
    | cons n q =>
      obtain ⟨rfl, hbelow⟩ := List.cons_prefix_cons.mp hq
      obtain ⟨node, hnode⟩ := updateEntry_ok h
      rw [shownAt_cons] at hv
      cases hfind : DirEntries.find entries n.bytes with
      | none =>
        rw [hfind] at hv
        cases hv
      | some found =>
        rw [hfind] at hnode hv
        cases found with
        | dir sub =>
          obtain ⟨sub', hsub, _⟩ := map_eq_ok.mp hnode
          exact ih hsub hbelow hv
        | file mode contents => cases hnode
        | symlink leadsTo => cases hnode
        | special => cases hnode

/-- A new node was created where nothing was. -/
theorem free_of_createNew {node : FileNode} {path : List FileName} {entries entries' : DirEntries}
    (hne : path ≠ []) (h : createNew .sensitive node path entries = .ok entries') :
    shownAt entries path = none := by
  induction path generalizing entries entries' with
  | nil => exact absurd rfl hne
  | cons name rest ih =>
    rw [shownAt_cons]
    cases rest with
    | nil =>
      obtain ⟨_, hnode⟩ := updateEntry_ok h
      cases hfind : DirEntries.find entries name.bytes with
      | none => rfl
      | some found =>
        rw [hfind] at hnode
        cases hnode
    | cons next rest =>
      rw [createNew] at h
      · obtain ⟨_, hnode⟩ := updateEntry_ok h
        cases hfind : DirEntries.find entries name.bytes with
        | none => rfl
        | some found =>
          rw [hfind] at hnode
          cases found with
          | dir sub =>
            obtain ⟨sub', hsub, _⟩ := map_eq_ok.mp hnode
            exact ih (List.cons_ne_nil _ _) hsub
          | file mode contents => cases hnode
          | symlink leadsTo => cases hnode
          | special => cases hnode
      · simp

/-! ### What a successful extraction leaves -/

/-- What a tree shows of the entries extracted so far, at the paths they are
stored at. -/
structure Stores (rule : CaseRule) (items done : List ArchiveItem) (tree : DirEntries) : Prop where
  file : ∀ i ∈ done, i.entry.kind = .file →
    shownAt tree (storedPath rule items i.entry.target) = some (some (.file i.executable i.contents))
  directory : ∀ i ∈ done, ∀ p, p <+: i.entry.target → (p ≠ i.entry.target ∨ i.entry.kind = .directory) →
    shownAt tree (storedPath rule items p) = some (some .directory)
  only : ∀ s, s ≠ [] → shownAt tree s ≠ none → ∃ q ∈ comesBy done, s = storedPath rule items q

section Extracted

variable {rule : CaseRule} {items done rest : List ArchiveItem} {item : ArchiveItem} {tree tree' : DirEntries}

theorem stores_nil : Stores rule items [] [] := by
  refine ⟨by simp, by simp, fun s hs hshown => ?_⟩
  obtain ⟨n, p, rfl⟩ := List.exists_cons_of_ne_nil hs
  exact absurd (shownAt_empty_cons n p) hshown

theorem Stores.shown_of_le (h : Stores rule items done tree) {i : ArchiveItem} (hi : i ∈ done)
    (htaken : ¬ i.Refused) {p : List FileName} (hp : p <+: i.entry.target) :
    shownAt tree (storedPath rule items p) =
      some (some (if p = i.entry.target ∧ i.entry.kind = .file then .file i.executable i.contents
        else .directory)) := by
  by_cases hfile : p = i.entry.target ∧ i.entry.kind = .file
  · rw [if_pos hfile, hfile.1]
    exact h.file i hi hfile.2
  · rw [if_neg hfile]
    refine h.directory i hi p hp ?_
    by_contra hdir
    rw [not_or, not_not] at hdir
    exact htaken (Or.inr (Or.inr ⟨fun hkind => hfile ⟨hdir.1, hkind⟩, hdir.2⟩))

theorem Stores.shown (h : Stores rule items done tree) (htaken : ∀ i ∈ done, ¬ i.Refused)
    {q : List FileName} (hq : q ∈ comesBy done) : shownAt tree (storedPath rule items q) ≠ none := by
  obtain ⟨i, hi, hpre⟩ := mem_comesBy.mp hq
  rw [h.shown_of_le hi (htaken i hi) hpre]
  exact Option.some_ne_none _

theorem mem_comesBy_of_done (hl : done ++ item :: rest = items) {q : List FileName} (hq : q ∈ comesBy done) :
    q ∈ comesBy items := by
  obtain ⟨i, hi, hpre⟩ := mem_comesBy.mp hq
  exact mem_comesBy.mpr ⟨i, by rw [← hl]; simp [hi], hpre⟩

/-- **The next entry's paths are spelled as they are stored**, in a tree that
shows the entries before it and the directories above it. -/
theorem spelled_of_shown (hl : done ++ item :: rest = items) {above : List FileName}
    (habove : above <+: item.entry.target)
    (hshown : ∀ q, q ∈ comesBy done ∨ q <+: above → shownAt tree (storedPath rule items q) ≠ none)
    (honly : ∀ s, s ≠ [] → shownAt tree s ≠ none →
      ∃ q, (q ∈ comesBy done ∨ q <+: above) ∧ s = storedPath rule items q)
    {p : List FileName} (hp : p <+: item.entry.target) :
    spelled rule tree p = storedPath rule items p := by
  refine spelled_storedPath (R := fun q => q ∈ comesBy done ∨ q <+: above) (fun q hq => ?_) hshown
    (fun q n k _ _ hk => honly _ (by simp) hk) (fun q n hpre => ?_)
  · rcases hq with hq | hq
    · exact mem_comesBy_of_done hl hq
    · exact mem_comesBy.mpr ⟨item, by rw [← hl]; simp, hq.trans habove⟩
  · by_cases hnew : ∀ q' ∈ comesBy done, rule.keys q' ≠ rule.keys (q ++ [n])
    · exact Or.inr (firstSpelling_of_new hl (hpre.trans hp) hnew)
    · rw [not_forall₂] at hnew
      obtain ⟨q', hq', hkeys⟩ := hnew
      exact Or.inl ⟨q', Or.inl hq', not_not.mp hkeys⟩

/-- Directories were created on the way to an entry. -/
theorem Stores.created (h : Stores rule items done tree) (hl : done ++ item :: rest = items)
    (htaken : ∀ i ∈ done, ¬ i.Refused) {above : List FileName} (habove : above <+: item.entry.target)
    (hcreate : createDirAll rule above tree = .ok tree') :
    (∀ q, q <+: storedPath rule items above → ∀ v, shownAt tree q = some v → v = some .directory) ∧
      ∀ s, shownAt tree' s =
        if s <+: storedPath rule items above then some (some .directory) else shownAt tree s := by
  have hspelled : spelled rule tree above = storedPath rule items above :=
    spelled_of_shown hl List.nil_prefix
      (fun q hq => by
        rcases hq with hq | hq
        · exact h.shown htaken hq
        · rw [List.prefix_nil.mp hq, storedPath_nil, shownAt_nil]
          exact Option.some_ne_none _)
      (fun s hs hshown => by
        obtain ⟨q, hq, heq⟩ := h.only s hs hshown
        exact ⟨q, Or.inl hq, heq⟩) habove
  rw [createDirAll_spelled, hspelled] at hcreate
  have hway := fun q hq v hv => directory_of_createDirAll hcreate (q := q) hq (v := v) hv
  refine ⟨hway, ?_⟩
  obtain ⟨created, hcreated, hshown⟩ := shownAt_createDirAll (storedPath rule items above)
    (separates_sensitive _) (within_true tree) (fun _ _ _ => trivial) hway
  obtain rfl : created = tree' := Except.ok.inj (hcreated.symm.trans hcreate)
  exact hshown

theorem Stores.shown_directory (h : Stores rule items done tree) (hl : done ++ item :: rest = items)
    (htaken : ∀ i ∈ done, ¬ i.Refused) (hcreate : createDirAll rule item.entry.target tree = .ok tree')
    (hkind : item.entry.kind = .directory) : Stores rule items (done ++ [item]) tree' := by
  obtain ⟨hway, hshown⟩ := h.created hl htaken List.prefix_rfl hcreate
  refine ⟨fun i hi hfile => ?_, fun i hi p hp hdir => ?_, fun s hs hsome => ?_⟩
  · rcases List.mem_append.mp hi with hi | hi
    · rw [hshown, if_neg, h.file i hi hfile]
      intro hpre
      cases hway _ hpre _ (h.file i hi hfile)
    · rw [List.mem_singleton.mp hi, hkind] at hfile
      cases hfile
  · rcases List.mem_append.mp hi with hi | hi
    · rw [hshown, h.directory i hi p hp hdir, ite_self]
    · rw [List.mem_singleton.mp hi] at hp
      rw [hshown, if_pos (storedPath_isPrefix_of hp)]
  · rw [hshown] at hsome
    by_cases hpre : s <+: storedPath rule items item.entry.target
    · obtain ⟨q, hq, rfl⟩ := exists_of_prefix_storedPath hpre
      exact ⟨q, mem_comesBy.mpr ⟨item, by simp, hq⟩, rfl⟩
    · rw [if_neg hpre] at hsome
      obtain ⟨q, hq, rfl⟩ := h.only s hs hsome
      obtain ⟨i, hi, hq⟩ := mem_comesBy.mp hq
      exact ⟨q, mem_comesBy.mpr ⟨i, List.mem_append_left _ hi, hq⟩, rfl⟩

theorem Stores.shown_file (h : Stores rule items done tree) (hl : done ++ item :: rest = items)
    (htaken : ∀ i ∈ done, ¬ i.Refused) {tree₁ : DirEntries}
    (hcreate : createDirAll rule item.entry.target.dropLast tree = .ok tree₁)
    (hnew : createNew rule (.file (portableMode item.mode) item.contents) item.entry.target tree₁ =
      .ok tree') (hne : item.entry.target ≠ []) (hkind : item.entry.kind = .file) :
    Stores rule items (done ++ [item]) tree' := by
  obtain ⟨above, name, htarget⟩ : ∃ above name, item.entry.target = above ++ [name] :=
    ⟨_, _, (List.dropLast_append_getLast hne).symm⟩
  have habove : above <+: item.entry.target := by
    rw [htarget]
    exact List.prefix_append _ _
  rw [htarget, List.dropLast_concat] at hcreate
  obtain ⟨hway, hshown₁⟩ := h.created hl htaken habove hcreate
  have hspelled : spelled rule tree₁ item.entry.target = storedPath rule items item.entry.target := by
    refine spelled_of_shown hl habove (fun q hq => ?_) (fun s hs hsome => ?_) List.prefix_rfl
    · rw [hshown₁]
      split_ifs with hpre
      · exact Option.some_ne_none _
      · exact h.shown htaken (hq.resolve_right fun hq => hpre (storedPath_isPrefix_of hq))
    · rw [hshown₁] at hsome
      by_cases hpre : s <+: storedPath rule items above
      · obtain ⟨q, hq, rfl⟩ := exists_of_prefix_storedPath hpre
        exact ⟨q, Or.inr hq, rfl⟩
      · rw [if_neg hpre] at hsome
        obtain ⟨q, hq, rfl⟩ := h.only s hs hsome
        exact ⟨q, Or.inl hq, rfl⟩
  rw [createNew_spelled, hspelled] at hnew
  have hfree := free_of_createNew (storedPath_ne_nil hne) hnew
  obtain ⟨_, m, _, _, hstored⟩ := @storedPath_concat rule items above name
  rw [← htarget] at hstored
  rw [hstored] at hnew
  obtain ⟨written, hwritten, hshown₂⟩ := shownAt_createNew (storedPath rule items above) m
    (portableMode item.mode) item.contents (separates_sensitive _) (within_true tree₁) (fun _ _ _ => trivial)
    (fun q hpre => by rw [hshown₁, if_pos hpre]) (hstored ▸ hfree)
  obtain rfl : written = tree' := Except.ok.inj (hwritten.symm.trans hnew)
  rw [← hstored] at hshown₂
  -- what was there is not at the target, and stays
  have hkeep : ∀ p v, shownAt tree₁ p = some v → shownAt written p = some v := by
    intro p v hv
    rw [hshown₂, if_neg, hv]
    rintro rfl
    rw [hfree] at hv
    cases hv
  refine ⟨fun i hi hfile => ?_, fun i hi p hp hdir => ?_, fun s hs hsome => ?_⟩
  · rcases List.mem_append.mp hi with hi | hi
    · refine hkeep _ _ ?_
      rw [hshown₁, if_neg, h.file i hi hfile]
      intro hpre
      cases hway _ hpre _ (h.file i hi hfile)
    · rw [List.mem_singleton.mp hi, hshown₂, if_pos rfl, portableMode_executable]
  · rcases List.mem_append.mp hi with hi | hi
    · refine hkeep _ _ ?_
      rw [hshown₁, h.directory i hi p hp hdir, ite_self]
    · rw [List.mem_singleton.mp hi] at hp hdir
      have hproper : p ≠ item.entry.target := hdir.resolve_right (by rw [hkind]; simp)
      have hpre : p <+: above := by
        rw [htarget] at hp hproper
        exact (List.prefix_concat_iff.mp hp).resolve_left hproper
      exact hkeep _ _ (by rw [hshown₁, if_pos (storedPath_isPrefix_of hpre)])
  · rw [hshown₂] at hsome
    by_cases heq : s = storedPath rule items item.entry.target
    · exact ⟨_, mem_comesBy.mpr ⟨item, by simp, List.prefix_rfl⟩, heq⟩
    · rw [if_neg heq, hshown₁] at hsome
      by_cases hpre : s <+: storedPath rule items above
      · obtain ⟨q, hq, rfl⟩ := exists_of_prefix_storedPath hpre
        exact ⟨q, mem_comesBy.mpr ⟨item, by simp, hq.trans habove⟩, rfl⟩
      · rw [if_neg hpre] at hsome
        obtain ⟨q, hq, rfl⟩ := h.only s hs hsome
        obtain ⟨i, hi, hq⟩ := mem_comesBy.mp hq
        exact ⟨q, mem_comesBy.mpr ⟨i, List.mem_append_left _ hi, hq⟩, rfl⟩

/-- **One entry that was extracted.** -/
theorem Stores.extractItem (h : Stores rule items done tree) (hl : done ++ item :: rest = items)
    (htaken : ∀ i ∈ items, ¬ i.Refused) {state : DirEntries × List String}
    (hrun : extractItem rule (tree, executablePaths done) item = .ok state) :
    Stores rule items (done ++ [item]) state.1 ∧ state.2 = executablePaths (done ++ [item]) := by
  have hdone : ∀ i ∈ done, ¬ i.Refused := fun i hi => htaken i (by rw [← hl]; simp [hi])
  have hitem : ¬ item.Refused := htaken item (by rw [← hl]; simp)
  simp only [Tapid.extractItem, bind_eq_ok, mapError_eq_ok, rejectIf_eq_ok, orError_eq_ok] at hrun
  obtain ⟨normalized, hnormal, _, _, _, _, target, htarget, hrun⟩ := hrun
  obtain rfl := ArchiveEntry.name_eq hnormal
  obtain rfl : item.entry.target = target :=
    Option.some_inj.mp ((ArchiveEntry.mapM_fileName hnormal).symm.trans htarget)
  rw [executablePaths_append]
  cases hkind : item.entry.kind with
  | file =>
    simp only [hkind, bind_eq_ok, pure_eq_ok] at hrun
    obtain ⟨tree₁, hcreate, tree₂, hnew, rfl⟩ := hrun
    refine ⟨h.shown_file hl hdone hcreate hnew (ArchiveEntry.target_ne_nil hnormal) hkind, ?_⟩
    by_cases hexec : item.executable = true
    · simp [hexec]
    · simp [hexec]
  | directory =>
    simp only [hkind, bind_eq_ok, pure_eq_ok] at hrun
    obtain ⟨tree₁, hcreate, rfl⟩ := hrun
    exact ⟨h.shown_directory hl hdone hcreate hkind, by simp⟩
  | symlink => exact absurd (Or.inr (Or.inr (by rw [hkind]; simp))) hitem
  | hardlink => exact absurd (Or.inr (Or.inr (by rw [hkind]; simp))) hitem
  | other => exact absurd (Or.inr (Or.inr (by rw [hkind]; simp))) hitem

end Extracted

/-- What an extraction leaves: the entries, and the manifest where no name of an
entry was in its way. -/
def LeftStored (rule : CaseRule) (items : List ArchiveItem) (tree : DirEntries) : Prop :=
  ∃ extracted, Stores rule items items extracted ∧
    (∀ k, shownAt extracted [k] ≠ none → ¬ rule.same k manifestName = true) ∧
    ∀ p, shownAt tree p = if p = [manifestName]
      then some (some (.file false (manifestContents ((executablePaths items).insertionSort (· ≤ ·)))))
      else shownAt extracted p

/-- **What a successful extraction leaves**: the entries and the manifest. -/
theorem left_of_extractInner {rule : CaseRule} {limits : ValidationLimits} {items : List ArchiveItem}
    {tree : DirEntries} (h : extractInner rule limits items = .ok tree) :
    LeftStored rule items tree ∧ Admitted limits (items.map ArchiveItem.entry) ∧ ∀ i ∈ items, ¬ i.Refused := by
  obtain ⟨hvalid, extracted, paths, hrun, hwrite⟩ := extractInner_eq_ok.mp h
  have htaken := not_refused_of_foldlM hrun
  obtain ⟨done, hdone, hstores, hpaths⟩ := Loop.foldlM_inv
    (I := fun rest (state : DirEntries × List String) => ∃ done, done ++ rest = items ∧
      Stores rule items done state.1 ∧ state.2 = executablePaths done)
    (fun item rest state state' hstate hstep => by
      obtain ⟨tree, paths⟩ := state
      obtain ⟨done, hl, hstores, rfl⟩ := hstate
      exact ⟨done ++ [item], by simp [← hl], hstores.extractItem hl htaken hstep⟩)
    ⟨[], rfl, stores_nil, rfl⟩ hrun
  rw [List.append_nil] at hdone
  subst hdone
  simp only at hstores hpaths
  subst hpaths
  refine ⟨⟨extracted, hstores, ?_⟩, (validateArchive_iff.mp hvalid).1, htaken⟩
  rw [writeExecutableManifest, createNew_spelled, spelled, spelled] at hwrite
  have hfree := free_of_createNew (List.cons_ne_nil _ _) hwrite
  -- the manifest has its own spelling, or it would not be new
  have hnone : ∀ k, shownAt extracted [k] ≠ none → ¬ rule.same k manifestName = true := by
    intro k hk hsame
    obtain ⟨e, he, rfl⟩ := exists_entry_of_shownAt hk
    rw [spelledName] at hfree
    cases hfind : extracted.find? fun e => rule.same e.1 manifestName with
    | none => exact List.find?_eq_none.mp hfind e he hsame
    | some found =>
      rw [hfind] at hfree
      exact shownAt_of_mem (List.mem_of_find?_eq_some hfind) hfree
  have hspelled : spelledName rule extracted manifestName = manifestName :=
    spelledName_eq (Or.inr rfl) (CaseRule.same_self _ _) fun k hk hsame => absurd hsame (hnone k hk)
  rw [hspelled] at hwrite hfree
  refine ⟨hnone, ?_⟩
  obtain ⟨written, hwritten, hshown⟩ := shownAt_createNew [] manifestName 0o644
    (manifestContents ((executablePaths done).insertionSort (· ≤ ·)))
    (separates_sensitive _) (within_true extracted) (fun _ _ _ => trivial)
    (fun q hpre => by rw [List.prefix_nil.mp hpre, shownAt_nil]) hfree
  obtain rfl : written = tree := Except.ok.inj (hwritten.symm.trans hwrite)
  exact hshown

/-! ### The list as it is written and read -/

/-- Text of the list. -/
def manifestText (paths : List String) : List Char := paths.flatMap fun path => path.toList ++ ['\n']

theorem manifestText_cons (path : String) (paths : List String) :
    manifestText (path :: paths) = path.toList ++ '\n' :: manifestText paths := by
  rw [manifestText, List.flatMap_cons, List.append_assoc]
  rfl

theorem manifestContents_eq (paths : List String) : manifestContents paths = utf8Bytes (manifestText paths) := by
  rw [manifestContents, manifestText, utf8Bytes, List.flatMap_assoc]
  rfl

theorem fromUTF8_utf8Bytes (s : List Char) :
    String.fromUTF8? (utf8Bytes s).toByteArray = some (String.ofList s) := by
  have hvalid : (utf8Bytes s).toByteArray.IsValidUTF8 := .intro s rfl
  rw [String.fromUTF8?, dif_pos hvalid]
  rfl

theorem splitOn_manifestText {paths : List String} (h : ∀ path ∈ paths, '\n' ∉ path.toList) :
    (manifestText paths).splitOn '\n' = paths.map String.toList ++ [[]] := by
  induction paths with
  | nil => rfl
  | cons path paths ih =>
    rw [manifestText_cons, List.splitOn_append_cons_self_of_not_mem (h path (by simp)),
      ih fun p hp => h p (by simp [hp])]
    rfl

/-- Paths without line breaks are the lines. -/
theorem lines_manifestText {paths : List String}
    (h : ∀ path ∈ paths, '\n' ∉ path.toList ∧ '\r' ∉ path.toList) :
    lines (manifestText paths) = paths.map String.toList := by
  rw [lines, splitOn_manifestText fun path hpath => (h path hpath).1, List.dropLast_concat, List.map_map]
  refine List.map_congr_left fun path hpath => if_neg fun hlast => ?_
  exact (h path hpath).2 (List.mem_of_getLast? hlast)

theorem terminated_manifestText (paths : List String) :
    ¬ (manifestText paths ≠ [] ∧ (manifestText paths).getLast? ≠ some '\n') := by
  rintro ⟨hne, hlast⟩
  rcases List.eq_nil_or_concat paths with rfl | ⟨front, path, rfl⟩
  · exact hne rfl
  · refine hlast ?_
    rw [List.concat_eq_append, manifestText, List.flatMap_append, List.flatMap_singleton, ← List.append_assoc,
      List.getLast?_concat]

section Read

variable {metadata : List (List UInt8) → Option FileNode} {paths : List String}

/-- A file at the path of a line. -/
def FileAt (metadata : List (List UInt8) → Option FileNode) (path : String) : Prop :=
  ∃ mode contents, metadata ((path.toList.splitOn '/').map utf8Bytes) = some (.file mode contents)

theorem readManifestLine_eq_ok {state state' : OrdSet String × Option String} {path : String} :
    readManifestLine metadata state path.toList = .ok state' ↔
      normalizedPath path = .ok path ∧ (∀ previous, state.2 = some previous → previous < path) ∧
        FileAt metadata path ∧ state' = (state.1.insert path, some path) := by
  simp only [readManifestLine, bind_eq_ok, mapError_eq_ok, rejectIf_eq_ok, orError_eq_ok,
    String.ofList_toList, not_or, not_not]
  constructor
  · rintro ⟨_, hnormal, _, ⟨rfl, hprevious⟩, target, htarget, h⟩
    cases target with
    | file mode contents =>
      refine ⟨hnormal, fun previous hp => ?_, ⟨mode, contents, htarget⟩, (pure_eq_ok.mp h).symm⟩
      rw [hp, Option.any_some, decide_eq_true_eq, not_le] at hprevious
      exact hprevious
    | dir entries => cases h
    | symlink leadsTo => cases h
    | special => cases h
  · rintro ⟨hnormal, hprevious, ⟨mode, contents, htarget⟩, rfl⟩
    refine ⟨path, hnormal, (), ⟨rfl, ?_⟩, _, htarget, rfl⟩
    cases hp : state.2 with
    | none => simp
    | some previous => simpa using hprevious previous hp

/-- **Lines read back**: a sorted list of files is accepted exactly when every
path is its own normal form. -/
theorem foldlM_readManifestLine (hsorted : paths.Pairwise (· < ·)) (hfiles : ∀ path ∈ paths, FileAt metadata path) :
    (∃ state, paths.foldlM (fun state path => readManifestLine metadata state path.toList) (∅, none) = .ok state ∧
      ∀ path, path ∈ state.1 ↔ path ∈ paths) ↔ ∀ path ∈ paths, normalizedPath path = .ok path := by
  constructor
  · rintro ⟨state, hrun, _⟩
    exact Loop.foldlM_inv_done (I := fun done _ => ∀ path ∈ done, normalizedPath path = .ok path)
      (fun done path state state' hdone hstep p hp => by
        rcases List.mem_append.mp hp with hp | hp
        · exact hdone p hp
        · rw [List.mem_singleton.mp hp]
          exact (readManifestLine_eq_ok.mp hstep).1) (by simp) hrun
  · intro hnormal
    obtain ⟨state, hrun, hmem, _⟩ := Loop.foldlM_succeeds (l := paths)
      (f := fun state path => readManifestLine metadata state path.toList)
      (I := fun done state => (∀ path, path ∈ state.1 ↔ path ∈ done) ∧ state.2 = done.getLast?)
      (fun done path rest state hl hstate => by
        have hpath : path ∈ paths := by
          rw [← hl]
          simp
        refine ⟨_, readManifestLine_eq_ok.mpr ⟨hnormal path hpath, fun previous hp => ?_, hfiles path hpath,
          rfl⟩, fun p => ?_, ?_⟩
        · rw [hstate.2] at hp
          rw [← hl, List.pairwise_append] at hsorted
          exact hsorted.2.2 previous (List.mem_of_getLast? hp) path List.mem_cons_self
        · rw [OrdSet.mem_insert, hstate.1, List.mem_append, List.mem_singleton]
          exact or_comm
        · rw [List.getLast?_concat])
      (s := (∅, none)) ⟨by simp, rfl⟩
    exact ⟨state, hrun, hmem⟩

/-- **The manifest read back.** -/
theorem readManifest_manifest {mode : Nat}
    (hfind : metadata [utf8Bytes executableManifest.toList] = some (.file mode (manifestContents paths)))
    (hbreaks : ∀ path ∈ paths, '\n' ∉ path.toList ∧ '\r' ∉ path.toList)
    (hsorted : paths.Pairwise (· < ·)) (hfiles : ∀ path ∈ paths, FileAt metadata path) :
    (∃ set, readManifest metadata = .ok (some set) ∧ ∀ path, path ∈ set ↔ path ∈ paths) ↔
      (manifestContents paths).length ≤ 4 * 1024 * 1024 ∧ ∀ path ∈ paths, normalizedPath path = .ok path := by
  have htext : String.fromUTF8? (manifestContents paths).toByteArray = some (String.ofList (manifestText paths)) := by
    rw [manifestContents_eq, fromUTF8_utf8Bytes]
  have hend : ¬ ((String.ofList (manifestText paths)).toList ≠ [] ∧
      (String.ofList (manifestText paths)).toList.getLast? ≠ some '\n') := by
    rw [String.toList_ofList]
    exact terminated_manifestText paths
  have hread : ∀ set, readManifest metadata = .ok (some set) ↔
      (manifestContents paths).length ≤ 4 * 1024 * 1024 ∧ ∃ state,
        paths.foldlM (fun state path => readManifestLine metadata state path.toList) (∅, none) = .ok state ∧
          state.1 = set := by
    intro set
    rw [readManifest, hfind]
    simp only [bind_eq_ok, rejectIf_eq_ok, orError_eq_ok, pure_eq_ok, not_lt]
    constructor
    · rintro ⟨_, hsize, contents, hcontents, _, _, state, hrun, hset⟩
      obtain rfl := Option.some_inj.mp (htext.symm.trans hcontents)
      rw [String.toList_ofList, lines_manifestText hbreaks, List.foldlM_map] at hrun
      exact ⟨hsize, state, hrun, Option.some_inj.mp hset⟩
    · rintro ⟨hsize, state, hrun, rfl⟩
      refine ⟨(), hsize, _, htext, (), hend, state, ?_, rfl⟩
      rw [String.toList_ofList, lines_manifestText hbreaks, List.foldlM_map]
      exact hrun
  rw [← foldlM_readManifestLine hsorted hfiles]
  constructor
  · rintro ⟨set, hset, hmem⟩
    obtain ⟨hsize, state, hrun, rfl⟩ := (hread set).mp hset
    exact ⟨hsize, state, hrun, hmem⟩
  · rintro ⟨hsize, state, hrun, hmem⟩
    exact ⟨state.1, (hread state.1).mpr ⟨hsize, state, hrun, rfl⟩, hmem⟩

end Read

/-! ### Trees of different names -/

theorem distinct_dir {entries : DirEntries} : (FileNode.dir entries).Distinct ↔
    (entries.map Prod.fst).Nodup ∧
      ∀ (n : FileName) (node : FileNode), DirEntries.find entries n.bytes = some node → node.Distinct := by
  constructor
  · intro h
    refine ⟨h [] entries (FileNode.at_nil _), fun n node hfind p sub hp => h (n :: p) sub ?_⟩
    rw [FileNode.at_dir_cons, hfind]
    exact hp
  · rintro ⟨hnodup, hall⟩ p sub hp
    cases p with
    | nil =>
      rw [FileNode.at_nil] at hp
      rw [← FileNode.dir.inj (Option.some_inj.mp hp)]
      exact hnodup
    | cons n p =>
      rw [FileNode.at_dir_cons] at hp
      obtain ⟨node, hfind, hp⟩ := Option.bind_eq_some_iff.mp hp
      exact hall n node hfind p sub hp

theorem distinct_empty : (FileNode.dir []).Distinct :=
  distinct_dir.mpr ⟨List.nodup_nil, fun _ _ hfind => by cases hfind⟩

theorem distinct_file (mode : Nat) (contents : List UInt8) : (FileNode.file mode contents).Distinct := by
  intro p sub hp
  cases p <;> simp [FileNode.at] at hp

/-- The changed entry keeps its name, or is a new one at the end. -/
theorem names_updateEntry {name : FileName} {f : Option FileNode → Except ExtractError FileNode}
    {entries entries' : DirEntries} (h : updateEntry .sensitive name f entries = .ok entries') :
    entries'.map Prod.fst = if name ∈ entries.map Prod.fst then entries.map Prod.fst
      else entries.map Prod.fst ++ [name] := by
  induction entries generalizing entries' with
  | nil =>
    obtain ⟨node, _, hnode⟩ := bind_eq_ok.mp h
    rw [← pure_eq_ok.mp hnode]
    rfl
  | cons e rest ih =>
    obtain ⟨n, node⟩ := e
    rw [updateEntry] at h
    by_cases hsame : CaseRule.sensitive.same n name = true
    · rw [if_pos hsame] at h
      obtain ⟨node', _, hnode'⟩ := bind_eq_ok.mp h
      obtain rfl : n = name := eq_of_beq hsame
      rw [← pure_eq_ok.mp hnode', if_pos (by simp)]
      rfl
    · rw [if_neg hsame] at h
      obtain ⟨rest', hrest, hall⟩ := bind_eq_ok.mp h
      have hne : name ≠ n := fun heq => hsame (beq_iff_eq.mpr heq.symm)
      rw [← pure_eq_ok.mp hall, List.map_cons, ih hrest, List.map_cons]
      simp only [List.mem_cons, hne, false_or]
      split_ifs <;> rfl

theorem distinct_updateEntry {name : FileName} {f : Option FileNode → Except ExtractError FileNode}
    {entries entries' : DirEntries} (h : updateEntry .sensitive name f entries = .ok entries')
    (hd : (FileNode.dir entries).Distinct)
    (hf : ∀ found node, (∀ old, found = some old → old.Distinct) → f found = .ok node → node.Distinct) :
    (FileNode.dir entries').Distinct := by
  obtain ⟨hnodup, hall⟩ := distinct_dir.mp hd
  refine distinct_dir.mpr ⟨?_, fun n node hfind => ?_⟩
  · rw [names_updateEntry h]
    split_ifs with hmem
    · exact hnodup
    · exact List.nodup_append.mpr ⟨hnodup, List.nodup_singleton _, fun a ha b hb heq =>
        hmem (List.mem_singleton.mp hb ▸ heq ▸ ha)⟩
  · obtain ⟨node', hnode'⟩ := updateEntry_ok h
    have hsame : ∀ e ∈ entries, CaseRule.sensitive.same e.1 name = true → e.1 = name :=
      fun e _ hsame => eq_of_beq hsame
    obtain ⟨entries'', hupdate, hfound⟩ := find_updateEntry hsame hnode'
    obtain rfl : entries'' = entries' := Except.ok.inj (hupdate.symm.trans h)
    rw [hfound] at hfind
    split_ifs at hfind with hn
    · rw [← Option.some_inj.mp hfind]
      exact hf _ node' (fun old hold => hall name old hold) hnode'
    · exact hall n node hfind

theorem distinct_createDirAll {path : List FileName} {entries entries' : DirEntries}
    (h : createDirAll .sensitive path entries = .ok entries') (hd : (FileNode.dir entries).Distinct) :
    (FileNode.dir entries').Distinct := by
  induction path generalizing entries entries' with
  | nil => rwa [← Except.ok.inj h]
  | cons name rest ih =>
    refine distinct_updateEntry h hd fun found node hold hnode => ?_
    cases found with
    | none =>
      obtain ⟨sub, hsub, rfl⟩ := map_eq_ok.mp hnode
      exact ih hsub distinct_empty
    | some old =>
      cases old with
      | dir entries =>
        obtain ⟨sub, hsub, rfl⟩ := map_eq_ok.mp hnode
        exact ih hsub (hold _ rfl)
      | file mode contents => cases hnode
      | symlink leadsTo => cases hnode
      | special => cases hnode

theorem distinct_createNew {mode : Nat} {contents : List UInt8} {path : List FileName}
    {entries entries' : DirEntries} (h : createNew .sensitive (.file mode contents) path entries = .ok entries')
    (hd : (FileNode.dir entries).Distinct) : (FileNode.dir entries').Distinct := by
  induction path generalizing entries entries' with
  | nil => cases h
  | cons name rest ih =>
    cases rest with
    | nil =>
      refine distinct_updateEntry h hd fun found node _ hnode => ?_
      cases found with
      | none =>
        rw [← Except.ok.inj hnode]
        exact distinct_file mode contents
      | some old => cases hnode
    | cons next rest =>
      rw [createNew] at h
      · refine distinct_updateEntry h hd fun found node hold hnode => ?_
        cases found with
        | none => cases hnode
        | some old =>
          cases old with
          | dir entries =>
            obtain ⟨sub, hsub, rfl⟩ := map_eq_ok.mp hnode
            exact ih hsub (hold _ rfl)
          | file mode contents => cases hnode
          | symlink leadsTo => cases hnode
          | special => cases hnode
      · simp

theorem distinct_extractItem {rule : CaseRule} {state state' : DirEntries × List String} {item : ArchiveItem}
    (h : extractItem rule state item = .ok state') (hd : (FileNode.dir state.1).Distinct) :
    (FileNode.dir state'.1).Distinct := by
  simp only [extractItem, bind_eq_ok, mapError_eq_ok, rejectIf_eq_ok, orError_eq_ok] at h
  obtain ⟨_, _, _, _, _, _, target, _, h⟩ := h
  cases hkind : item.entry.kind with
  | file =>
    simp only [hkind, bind_eq_ok, pure_eq_ok] at h
    obtain ⟨tree₁, hcreate, tree₂, hnew, rfl⟩ := h
    rw [createDirAll_spelled] at hcreate
    rw [createNew_spelled] at hnew
    exact distinct_createNew hnew (distinct_createDirAll hcreate hd)
  | directory =>
    simp only [hkind, bind_eq_ok, pure_eq_ok] at h
    obtain ⟨tree₁, hcreate, rfl⟩ := h
    rw [createDirAll_spelled] at hcreate
    exact distinct_createDirAll hcreate hd
  | symlink => simp [hkind] at h
  | hardlink => simp [hkind] at h
  | other => simp [hkind] at h

/-- Extraction never makes two entries of one name. -/
theorem distinct_extractInner {rule : CaseRule} {limits : ValidationLimits} {items : List ArchiveItem}
    {tree : DirEntries} (h : extractInner rule limits items = .ok tree) : (FileNode.dir tree).Distinct := by
  obtain ⟨_, extracted, paths, hrun, hwrite⟩ := extractInner_eq_ok.mp h
  have hextracted := Loop.foldlM_inv (I := fun _ (state : DirEntries × List String) =>
    (FileNode.dir state.1).Distinct) (fun _ _ _ _ hd hstep => distinct_extractItem hstep hd)
    distinct_empty hrun
  rw [writeExecutableManifest, createNew_spelled] at hwrite
  exact distinct_createNew hwrite hextracted

/-! ### Lengths of paths -/

theorem length_utf8Bytes (s : List Char) : (utf8Bytes s).length = byteLen s := by
  induction s with
  | nil => rfl
  | cons c s ih =>
    rw [utf8Bytes, List.flatMap_cons, List.length_append, String.length_utf8EncodeChar, byteLen,
      List.map_cons, List.sum_cons, ← byteLen, ← ih, utf8Bytes]

theorem byteLen_slashed (s : List Char) : byteLen (slashed s) = byteLen s := by
  rw [byteLen, byteLen, slashed, List.map_map]
  refine congrArg List.sum (List.map_congr_left fun c _ => ?_)
  rw [Function.comp_apply]
  split_ifs with hc
  · rw [hc]
    rfl
  · rfl

/-- A joined path and its parts. -/
theorem length_intercalate {parts : List (List Char)} (hne : parts ≠ []) :
    (utf8Bytes (['/'].intercalate parts)).length + 1 = (parts.map fun p => (utf8Bytes p).length + 1).sum := by
  induction parts with
  | nil => exact absurd rfl hne
  | cons a parts ih =>
    by_cases hnil : parts = []
    · subst hnil
      simp [List.intercalate]
    · have hslash : (utf8Bytes ['/']).length = 1 := rfl
      have hrest := ih hnil
      rw [List.intercalate_cons_of_ne_nil hnil, utf8Bytes_append, utf8Bytes_append, List.length_append,
        List.length_append, hslash, List.map_cons, List.sum_cons]
      omega

/-- Normalizing a path does not make it longer. -/
theorem length_normalizedPath_le {value n : String} (h : normalizedPath value = .ok n) :
    (utf8Bytes n.toList).length ≤ byteLen value.toList := by
  have hform := normalForm_of_normalizedPath h
  have hparts := length_intercalate hform.nonempty
  have hall := length_intercalate (List.splitOn_ne_nil '/' (slashed value.toList))
  rw [List.intercalate_splitOn, length_utf8Bytes, byteLen_slashed] at hall
  rw [← hform.text] at hparts
  have hsub : ((pathComponents (slashed value.toList)).map fun p => (utf8Bytes p).length + 1).sum ≤
      (((slashed value.toList).splitOn '/').map fun p => (utf8Bytes p).length + 1).sum :=
    (List.filter_sublist.map _).sum_le_sum fun _ _ => Nat.zero_le _
  omega

/-- Names of targets are read as they stand. -/
theorem cleanName_of_mem_target {e : ArchiveEntry} (h : normalizedPath e.path = .ok e.name) {n : FileName}
    (hn : n ∈ e.target) : CleanName n := by
  have hbytes : n.bytes ∈ e.parts.map utf8Bytes := by
    rw [← ArchiveEntry.map_bytes_target h]
    exact List.mem_map_of_mem hn
  obtain ⟨part, hpart, hbytes⟩ := List.mem_map.mp hbytes
  exact ⟨part, hbytes.symm, fun hback =>
    (normalForm_of_normalizedPath h).not_mem_backslash (mem_of_mem_splitOn hpart hback)⟩

/-- The text of a target is the normalized path. -/
theorem relText_target {e : ArchiveEntry} (h : normalizedPath e.path = .ok e.name) :
    relText e.target = e.name := by
  have hsplit := splitOn_relText (ArchiveEntry.target_ne_nil h) fun n hn => cleanName_of_mem_target h hn
  rw [ArchiveEntry.map_bytes_target h, map_utf8Bytes_inj] at hsplit
  have hjoin := congrArg (['/'].intercalate) hsplit
  rw [List.intercalate_splitOn, ArchiveEntry.parts, List.intercalate_splitOn] at hjoin
  exact String.toList_injective hjoin

/-- The length of a path's text. -/
theorem length_relText {p : List FileName} (hne : p ≠ []) (hclean : ∀ n ∈ p, CleanName n) :
    (utf8Bytes (relText p).toList).length + 1 = (p.map fun n => n.bytes.length + 1).sum := by
  have hsplit := splitOn_relText hne hclean
  have hlength := length_intercalate (List.splitOn_ne_nil '/' (relText p).toList)
  rw [List.intercalate_splitOn] at hlength
  have hmaps : ((relText p).toList.splitOn '/').map (fun part => (utf8Bytes part).length + 1) =
      (((relText p).toList.splitOn '/').map utf8Bytes).map fun bytes => bytes.length + 1 := by
    rw [List.map_map]
    rfl
  rw [hlength, hmaps, hsplit, List.map_map]
  rfl

section Stored

variable {rule : CaseRule} {items : List ArchiveItem}

/-- Names of stored paths are names of entries. -/
theorem exists_of_mem_storedPath {p : List FileName} (hp : p ∈ comesBy items) {n : FileName}
    (hn : n ∈ storedPath rule items p) : ∃ i ∈ items, n ∈ i.entry.target := by
  induction p using List.reverseRecOn with
  | nil =>
    rw [storedPath_nil] at hn
    cases hn
  | append_singleton p k ih =>
    obtain ⟨q, m, hfirst, _, hstored⟩ := @storedPath_concat rule items p k
    obtain ⟨i, hi, hpre⟩ := mem_comesBy.mp hp
    rw [hstored] at hn
    rcases List.mem_append.mp hn with hn | hn
    · exact ih (mem_comesBy.mpr ⟨i, hi, (List.prefix_append _ _).trans hpre⟩) hn
    · obtain rfl := List.mem_singleton.mp hn
      have hmem : firstSpelling rule items (p ++ [k]) ∈ comesBy items := by
        rw [firstSpelling]
        cases hfind : (comesBy items).find? fun r => rule.keys r == rule.keys (p ++ [k]) with
        | none => exact hp
        | some r => exact List.mem_of_find?_eq_some hfind
      rw [hfirst] at hmem
      obtain ⟨j, hj, hpre⟩ := mem_comesBy.mp hmem
      exact ⟨j, hj, hpre.subset (by simp)⟩

variable (hnormal : ∀ i ∈ items, normalizedPath i.entry.path = .ok i.entry.name)
include hnormal

theorem cleanName_of_mem_storedPath {p : List FileName} (hp : p ∈ comesBy items) {n : FileName}
    (hn : n ∈ storedPath rule items p) : CleanName n := by
  obtain ⟨i, hi, hn⟩ := exists_of_mem_storedPath hp hn
  exact cleanName_of_mem_target (hnormal i hi) hn

/-- A path takes the same space in every spelling. -/
theorem length_relText_storedPath {p : List FileName} (hne : p ≠ []) (hp : p ∈ comesBy items) :
    (utf8Bytes (relText (storedPath rule items p)).toList).length = (utf8Bytes (relText p).toList).length := by
  have hstored := length_relText (storedPath_ne_nil hne)
    fun n hn => @cleanName_of_mem_storedPath rule items hnormal p hp n hn
  obtain ⟨i, hi, hpre⟩ := mem_comesBy.mp hp
  have hself := length_relText hne fun n hn => cleanName_of_mem_target (hnormal i hi) (hpre.subset hn)
  have hkeys := congrArg (List.map fun key => key.length + 1) (@keys_storedPath rule items p)
  simp only [CaseRule.keys, List.map_map, Function.comp_def, CaseRule.length_key] at hkeys
  rw [hkeys] at hstored
  omega

/-- Names of entries are told apart by the texts of their paths. -/
theorem target_eq_of_relText {p : List FileName} (hne : p ≠ []) (hp : p ∈ comesBy items) {i : ArchiveItem}
    (hi : i ∈ items) (h : i.entry.name = relText (storedPath rule items p)) :
    i.entry.target = storedPath rule items p := by
  rw [← relText_target (hnormal i hi)] at h
  have htarget := splitOn_relText (ArchiveEntry.target_ne_nil (hnormal i hi))
    fun n hn => cleanName_of_mem_target (hnormal i hi) hn
  rw [h, splitOn_relText (storedPath_ne_nil hne)
    fun n hn => @cleanName_of_mem_storedPath rule items hnormal p hp n hn] at htarget
  exact (List.map_injective_iff.mpr FileName.bytes_injective htarget).symm

end Stored

/-- A normal form is kept unless it begins like a drive. -/
theorem normalizedPath_self_iff {value n : String} (h : normalizedPath value = .ok n) :
    normalizedPath n = .ok n ↔ hasDrivePrefix n.toList = false := by
  have hform := normalForm_of_normalizedPath h
  constructor
  · intro hself
    simp only [normalizedPath, bind_eq_ok, rejectIf_eq_ok] at hself
    obtain ⟨_, _, _, hroot, _⟩ := hself
    rw [not_or, ← slashed, slashed_of_not_mem hform.not_mem_backslash] at hroot
    exact (Bool.not_eq_true _).mp hroot.2
  · exact hform.normalizedPath_eq

/-! ### List, tree and digest -/

/-- `canonical_tree_digest` on a file system with its rule for names. -/
def canonicalTreeDigest (rule : CaseRule) (sizes : ReadSizes) (sha256Hex : List UInt8 → String) (tree : FileTree) :
    Except TreeError String := do
  let executablePaths ← readManifest ((FileNode.dir tree.entries).metadataBy rule)
  let entries ← collectEntries executablePaths none [] tree.entries
  let records := entries.map TreeEntry.record ++ (executablePaths.map manifestRecord).toList
  let frames ← (records.insertionSort fun a b => a.key ≤ b.key).mapM (frameRecord sizes)
  return "sha256-" ++ sha256Hex frames.flatten

/-- An exact file system takes the digest as it is defined on trees. -/
theorem canonicalTreeDigest_sensitive (sizes : ReadSizes) (sha256Hex : List UInt8 → String) (tree : FileTree) :
    canonicalTreeDigest .sensitive sizes sha256Hex tree = treeDigest sizes sha256Hex tree none := by
  have hread : readManifest ((FileNode.dir tree.entries).metadataBy .sensitive) =
      readExecutableManifest tree.entries :=
    congrArg readManifest (funext fun p => metadataBy_sensitive _ p)
  rw [canonicalTreeDigest, treeDigest, treeBytes, treeRecords, hread]
  cases readExecutableManifest tree.entries with
  | error e => rfl
  | ok paths =>
    have hkeep : paths.map (retainExecutable none) = paths := by cases paths <;> rfl
    simp only [ok_bind, hkeep, bind_assoc, pure_bind]

/-- The list is accepted and names the executable files, and the tree has a
digest. -/
structure ManifestAgrees (rule : CaseRule) (items : List ArchiveItem) (tree : DirEntries) : Prop where
  accepted : ∃ set, readManifest ((FileNode.dir tree).metadataBy rule) = .ok (some set) ∧ ∀ path, path ∈ set ↔
    ∃ i ∈ items, i.entry.kind = .file ∧ i.executable = true ∧ i.entry.name = path
  digest : ∃ t : FileTree, t.entries = tree ∧ ∀ (sizes : ReadSizes) (sha256Hex : List UInt8 → String),
    ∃ digest, canonicalTreeDigest rule sizes sha256Hex t = .ok digest

/-- Every executable file the digest meets is stored under the entry's own
names. -/
def KeepsSpelling (rule : CaseRule) (items : List ArchiveItem) : Prop :=
  ∀ i ∈ items, i.entry.kind = .file → i.executable = true →
    VisibleFrom none [] (storedPath rule items i.entry.target) →
      storedPath rule items i.entry.target = i.entry.target

/-- So it is wherever names are exact. -/
theorem keepsSpelling_sensitive (items : List ArchiveItem) : KeepsSpelling .sensitive items :=
  fun _ _ _ _ _ => storedPath_sensitive _

theorem mem_executablePaths {items : List ArchiveItem} {path : String} : path ∈ executablePaths items ↔
    ∃ i ∈ items, i.entry.kind = .file ∧ i.executable = true ∧ i.entry.name = path := by
  simp only [executablePaths, List.mem_map, List.mem_filter, decide_eq_true_eq, and_assoc]

theorem file_of_view {node : FileNode} {executable : Bool} {contents : List UInt8}
    (h : node.view = some (.file executable contents)) :
    ∃ mode, node = .file mode contents ∧ decide (mode &&& 0o111 ≠ 0) = executable := by
  cases node with
  | file mode data =>
    obtain ⟨hexec, rfl⟩ := NodeView.file.inj (Option.some_inj.mp h)
    exact ⟨mode, rfl, hexec⟩
  | dir entries => cases h
  | symlink leadsTo => cases h
  | special => cases h

theorem length_manifestContents (paths : List String) :
    (manifestContents (paths.insertionSort (· ≤ ·))).length = (paths.map lineSize).sum := by
  have hperm := (List.perm_insertionSort (· ≤ ·) paths).map lineSize
  rw [← hperm.sum_eq, manifestContents, List.length_flatMap]
  refine congrArg List.sum (List.map_congr_left fun path _ => ?_)
  rw [utf8Bytes_append, List.length_append]
  rfl

section Agreement

variable {rule : CaseRule} {limits : ValidationLimits} {items : List ArchiveItem} {tree : DirEntries}

/-- Entries are told apart by their names. -/
theorem Admitted.eq_of_foldedName (h : Admitted limits (items.map ArchiveItem.entry)) {i j : ArchiveItem}
    (hi : i ∈ items) (hj : j ∈ items) (hname : i.entry.foldedName = j.entry.foldedName) : i = j := by
  have hnames := h.names
  rw [List.pairwise_map] at hnames
  have hnodup : (items.map fun i => i.entry.foldedName).Nodup := List.pairwise_map.mpr hnames
  exact List.inj_on_of_nodup_map hnodup hi hj hname

/-- And by their targets, up to any rule. -/
theorem Admitted.eq_of_keys (h : Admitted limits (items.map ArchiveItem.entry)) {i j : ArchiveItem}
    (hi : i ∈ items) (hj : j ∈ items) (hkeys : rule.keys i.entry.target = rule.keys j.entry.target) : i = j := by
  have hnormal : ∀ i ∈ items, normalizedPath i.entry.path = .ok i.entry.name := fun i hi =>
    (h.entry _ (List.mem_map_of_mem hi)).normalized
  have hfold : i.entry.target.map FileName.fold = j.entry.target.map FileName.fold := by
    cases rule with
    | sensitive => rw [CaseRule.keys_sensitive hkeys]
    | insensitive => exact hkeys
  rw [map_fold_eq (ArchiveEntry.map_bytes_target (hnormal i hi)),
    map_fold_eq (ArchiveEntry.map_bytes_target (hnormal j hj)), map_utf8Bytes_inj] at hfold
  exact h.eq_of_foldedName hi hj (foldedName_eq_iff.mpr hfold)

theorem Admitted.sorted (h : Admitted limits (items.map ArchiveItem.entry)) :
    ((executablePaths items).insertionSort (· ≤ ·)).Pairwise (· < ·) := by
  have hnodup : (executablePaths items).Nodup := by
    refine List.pairwise_map.mpr (((List.pairwise_map.mp h.names).sublist List.filter_sublist).imp ?_)
    intro i j hne hname
    exact hne (congrArg EntryValidator.asciiLowercase hname)
  have hsorted := ((List.perm_insertionSort (· ≤ ·) _).nodup_iff.mpr hnodup)
  exact ((List.pairwise_insertionSort (· ≤ ·) _).and hsorted).imp fun hboth =>
    lt_of_le_of_ne hboth.1 hboth.2

theorem no_breaks (htaken : ∀ i ∈ items, ¬ i.Refused) {path : String} (hpath : path ∈ executablePaths items) :
    '\n' ∉ path.toList ∧ '\r' ∉ path.toList := by
  obtain ⟨i, hi, _, hexec, rfl⟩ := mem_executablePaths.mp hpath
  have hany : ¬ (i.entry.name.toList.any fun c => c == '\n' || c == '\r') = true := fun hany =>
    htaken i hi (Or.inr (Or.inl ⟨hexec, hany⟩))
  rw [List.any_eq_true] at hany
  exact ⟨fun hc => hany ⟨_, hc, rfl⟩, fun hc => hany ⟨_, hc, rfl⟩⟩

/-- The manifest has its name for itself. -/
theorem LeftStored.eq_manifest (h : LeftStored rule items tree) {k : FileName} (hk : shownAt tree [k] ≠ none)
    (hsame : rule.same k manifestName = true) : k = manifestName := by
  obtain ⟨extracted, _, hnone, hshown⟩ := h
  by_contra hne
  rw [hshown, if_neg fun heq => hne (List.singleton_inj.mp heq)] at hk
  exact hnone k hk hsame

theorem LeftStored.find_manifest (h : LeftStored rule items tree) : ∃ mode,
    (FileNode.dir tree).metadataBy rule [utf8Bytes executableManifest.toList] =
      some (.file mode (manifestContents ((executablePaths items).insertionSort (· ≤ ·)))) := by
  have hspelled : Tapid.spelled rule tree [manifestName] = [manifestName] := by
    rw [Tapid.spelled, Tapid.spelled, spelledName_eq (Or.inr rfl) (CaseRule.same_self _ _)
      fun k hk hsame => h.eq_manifest hk hsame]
  obtain ⟨extracted, _, _, hshown⟩ := h
  have hmanifest := hshown [manifestName]
  rw [if_pos rfl] at hmanifest
  obtain ⟨node, hnode, hview⟩ := shownAt_eq_some.mp hmanifest
  obtain ⟨mode, rfl, _⟩ := file_of_view hview
  exact ⟨mode, metadataBy_of_at (p := [manifestName]) (by rw [hspelled]; exact hnode)⟩

/-- No stored path is in the manifest's place. -/
theorem LeftStored.shown_of_mem (h : LeftStored rule items tree) (htaken : ∀ i ∈ items, ¬ i.Refused)
    {i : ArchiveItem} (hi : i ∈ items) {q : List FileName} (hq : q <+: i.entry.target) :
    shownAt tree (storedPath rule items q) = some (some (if q = i.entry.target ∧ i.entry.kind = .file
      then .file i.executable i.contents else .directory)) := by
  obtain ⟨extracted, hstores, hnone, hshown⟩ := h
  rw [hshown, if_neg, hstores.shown_of_le hi (htaken i hi) hq]
  intro hmanifest
  refine hnone manifestName ?_ (CaseRule.same_self _ _)
  rw [← hmanifest]
  exact hstores.shown htaken (mem_comesBy.mpr ⟨i, hi, hq⟩)

/-- The tree spells an entry's path as it is stored. -/
theorem LeftStored.spelled (h : LeftStored rule items tree) (htaken : ∀ i ∈ items, ¬ i.Refused)
    {i : ArchiveItem} (hi : i ∈ items) :
    Tapid.spelled rule tree i.entry.target = storedPath rule items i.entry.target := by
  have hmem := @LeftStored.shown_of_mem _ _ _ h htaken
  obtain ⟨extracted, hstores, hnone, hshown⟩ := h
  refine spelled_storedPath (R := fun q => q ∈ comesBy items) (fun q hq => hq) (fun q hq => ?_)
    (fun q n k hpre hsame hk => ?_)
    (fun q n hpre => Or.inl ⟨q ++ [n], mem_comesBy.mpr ⟨i, hi, hpre⟩, rfl⟩)
  · obtain ⟨j, hj, hpre⟩ := mem_comesBy.mp hq
    rw [hmem hj hpre]
    exact Option.some_ne_none _
  · rw [hshown] at hk
    by_cases hmanifest : storedPath rule items q ++ [k] = [manifestName]
    · -- the name on the way would be the manifest's
      obtain ⟨r, m, hfirst, hm, hstored⟩ := @storedPath_concat rule items q n
      have hnil : storedPath rule items q = [] := by
        cases hsq : storedPath rule items q with
        | nil => rfl
        | cons a s => rw [hsq] at hmanifest; simp at hmanifest
      rw [hnil, List.nil_append] at hmanifest hstored
      rw [List.singleton_inj.mp hmanifest] at hsame
      refine absurd (CaseRule.same_iff.mpr ((CaseRule.same_iff.mp hm).trans (CaseRule.same_iff.mp hsame).symm))
        (hnone m ?_)
      rw [← hstored]
      exact hstores.shown htaken (mem_comesBy.mpr ⟨i, hi, hpre⟩)
    · rw [if_neg hmanifest] at hk
      exact hstores.only _ (by simp) hk

/-- A file shown where it is stored. -/
theorem LeftStored.shown_file (h : LeftStored rule items tree) (htaken : ∀ i ∈ items, ¬ i.Refused)
    {i : ArchiveItem} (hi : i ∈ items) (hfile : i.entry.kind = .file) : ∃ mode,
      (FileNode.dir tree).at (storedPath rule items i.entry.target) = some (.file mode i.contents) ∧
        decide (mode &&& 0o111 ≠ 0) = i.executable := by
  have hshown := h.shown_of_mem htaken hi List.prefix_rfl
  rw [if_pos ⟨rfl, hfile⟩] at hshown
  obtain ⟨node, hat, hview⟩ := shownAt_eq_some.mp hshown
  obtain ⟨mode, rfl, hmode⟩ := file_of_view hview
  exact ⟨mode, hat, hmode⟩

/-- A file is found under the name of its entry. -/
theorem LeftStored.fileAt (h : LeftStored rule items tree) (htaken : ∀ i ∈ items, ¬ i.Refused)
    (hnormal : ∀ i ∈ items, normalizedPath i.entry.path = .ok i.entry.name) {i : ArchiveItem} (hi : i ∈ items)
    (hfile : i.entry.kind = .file) : FileAt ((FileNode.dir tree).metadataBy rule) i.entry.name := by
  obtain ⟨mode, hat, _⟩ := h.shown_file htaken hi hfile
  rw [← h.spelled htaken hi] at hat
  have hfound := metadataBy_of_at hat
  rw [ArchiveEntry.map_bytes_target (hnormal i hi)] at hfound
  exact ⟨mode, _, hfound⟩

/-- **When the list is accepted.** -/
theorem accepted_iff (h : extractInner rule limits items = .ok tree) :
    (∃ set, readManifest ((FileNode.dir tree).metadataBy rule) = .ok (some set) ∧ ∀ path, path ∈ set ↔
      ∃ i ∈ items, i.entry.kind = .file ∧ i.executable = true ∧ i.entry.name = path) ↔
      ((executablePaths items).map lineSize).sum ≤ 4 * 1024 * 1024 ∧
        ∀ path ∈ executablePaths items, hasDrivePrefix path.toList = false := by
  obtain ⟨hleft, hadmitted, htaken⟩ := left_of_extractInner h
  have hnormal : ∀ i ∈ items, normalizedPath i.entry.path = .ok i.entry.name := fun i hi =>
    (hadmitted.entry _ (List.mem_map_of_mem hi)).normalized
  have hsort : ∀ path, path ∈ (executablePaths items).insertionSort (· ≤ ·) ↔ path ∈ executablePaths items :=
    fun path => (List.perm_insertionSort _ _).mem_iff
  obtain ⟨mode, hfind⟩ := hleft.find_manifest
  have hread := readManifest_manifest hfind
    (fun path hpath => no_breaks htaken ((hsort path).mp hpath)) hadmitted.sorted
    (fun path hpath => by
      obtain ⟨i, hi, hfile, _, rfl⟩ := mem_executablePaths.mp ((hsort path).mp hpath)
      exact hleft.fileAt htaken hnormal hi hfile)
  simp only [hsort, mem_executablePaths, length_manifestContents] at hread
  rw [hread]
  refine and_congr_right fun _ => ⟨fun hall path hpath => ?_, fun hall path hpath => ?_⟩
  · have hself := hall path (mem_executablePaths.mp hpath)
    exact (normalizedPath_self_iff hself).mp hself
  · have hlisted := mem_executablePaths.mpr hpath
    obtain ⟨i, hi, _, _, rfl⟩ := hpath
    exact (normalizedPath_self_iff (hnormal i hi)).mpr (hall _ hlisted)

/-- What the tree shows besides the manifest. -/
theorem LeftStored.shown_cases (h : LeftStored rule items tree) (htaken : ∀ i ∈ items, ¬ i.Refused)
    {p : List FileName} {v : Option NodeView} (hne : p ≠ []) (hmanifest : p ≠ [manifestName])
    (hv : shownAt tree p = some v) : ∃ i ∈ items, ∃ q, q <+: i.entry.target ∧ p = storedPath rule items q ∧
      v = some (if q = i.entry.target ∧ i.entry.kind = .file then .file i.executable i.contents
        else .directory) := by
  obtain ⟨extracted, hstores, _, hshown⟩ := h
  rw [hshown, if_neg hmanifest] at hv
  obtain ⟨q, hq, rfl⟩ := hstores.only p hne (by rw [hv]; exact Option.some_ne_none _)
  obtain ⟨i, hi, hpre⟩ := mem_comesBy.mp hq
  refine ⟨i, hi, q, hpre, rfl, ?_⟩
  rw [hstores.shown_of_le hi (htaken i hi) hpre] at hv
  exact (Option.some_inj.mp hv).symm

/-- The extracted tree as one the digest is taken of. -/
theorem exists_fileTree (h : extractInner rule limits items = .ok tree)
    (hsize : ((executablePaths items).map lineSize).sum ≤ 4 * 1024 * 1024) :
    ∃ t : FileTree, t.entries = tree := by
  obtain ⟨hleft, hadmitted, htaken⟩ := left_of_extractInner h
  have hnormal : ∀ i ∈ items, normalizedPath i.entry.path = .ok i.entry.name := fun i hi =>
    (hadmitted.entry _ (List.mem_map_of_mem hi)).normalized
  refine ⟨⟨tree, distinct_extractInner h, fun p node hnode => ?_⟩, rfl⟩
  have hview : shownAt tree p = some node.view := shownAt_eq_some.mpr ⟨node, hnode, rfl⟩
  by_cases hmanifest : p = [manifestName]
  · obtain ⟨extracted, _, _, hshown⟩ := hleft
    rw [hshown, if_pos hmanifest] at hview
    refine ⟨by rw [hmanifest]; decide, fun mode contents hfile => ?_⟩
    rw [hfile] at hview
    obtain ⟨_, hcontents⟩ := NodeView.file.inj (Option.some_inj.mp (Option.some_inj.mp hview))
    rw [← hcontents, length_manifestContents]
    omega
  by_cases hnil : p = []
  · rw [hnil, shownAt_nil] at hview
    refine ⟨by rw [hnil]; decide, fun mode contents hfile => ?_⟩
    rw [hfile] at hview
    cases hview
  · obtain ⟨i, hi, q, hpre, rfl, hshown⟩ := hleft.shown_cases htaken hnil hmanifest hview
    have hentry := hadmitted.entry _ (List.mem_map_of_mem hi)
    have hq : q ≠ [] := by
      rintro rfl
      exact hnil storedPath_nil
    have hpath : (utf8Bytes (relText (storedPath rule items q)).toList).length < 256 ^ 8 := by
      have hle := length_relText_le hq hpre
      rw [relText_target hentry.normalized] at hle
      have hname := length_normalizedPath_le hentry.normalized
      have hstored := @length_relText_storedPath rule items hnormal _ hq (mem_comesBy.mpr ⟨i, hi, hpre⟩)
      have hlimit := hentry.path
      have hbound := limits.maxPathBytes.isLt
      omega
    refine ⟨hpath, fun mode contents hfile => ?_⟩
    rw [hfile] at hshown
    split_ifs at hshown
    · obtain ⟨_, hcontents⟩ := NodeView.file.inj (Option.some_inj.mp hshown)
      have hbound := i.entry.size.isLt
      rw [hcontents, i.length_eq]
      omega
    · cases hshown

/-- **When the walk finds every mode as the list has it.** -/
theorem collects_iff (h : extractInner rule limits items = .ok tree) {set : OrdSet String}
    (hset : ∀ path, path ∈ set ↔ path ∈ executablePaths items) :
    (∃ out, collectEntries (some set) none [] tree = .ok out) ↔ KeepsSpelling rule items := by
  obtain ⟨hleft, hadmitted, htaken⟩ := left_of_extractInner h
  have hnormal : ∀ i ∈ items, normalizedPath i.entry.path = .ok i.entry.name := fun i hi =>
    (hadmitted.entry _ (List.mem_map_of_mem hi)).normalized
  -- a stored path that is listed is that of the listed entry
  have hlisted : ∀ i ∈ items, relText (storedPath rule items i.entry.target) ∈ set →
      i.executable = true ∧ storedPath rule items i.entry.target = i.entry.target := by
    intro i hi hmem
    obtain ⟨j, hj, hkind, hexec, hname⟩ := mem_executablePaths.mp ((hset _).mp hmem)
    have htarget := target_eq_of_relText hnormal (ArchiveEntry.target_ne_nil (hnormal i hi))
      (mem_comesBy.mpr ⟨i, hi, List.prefix_rfl⟩) hj hname
    obtain rfl : j = i := @Admitted.eq_of_keys rule limits items hadmitted j i hj hi (by rw [htarget, keys_storedPath])
    exact ⟨hexec, htarget.symm⟩
  rw [collectEntries_isOk tree [] (distinct_extractInner h)]
  constructor
  · intro hall i hi hkind hexec hvisible
    obtain ⟨mode, hat, hmode⟩ := hleft.shown_file htaken hi hkind
    obtain ⟨kind, hcollect⟩ := hall _ _
      (storedPath_ne_nil (ArchiveEntry.target_ne_nil (hnormal i hi))) hat hvisible
    rw [List.nil_append, fileKind] at hcollect
    simp only [bind_eq_ok, rejectIf_eq_ok, pure_eq_ok, not_not] at hcollect
    obtain ⟨_, hagree, _⟩ := hcollect
    refine (hlisted i hi ?_).2
    by_contra hnot
    rw [if_neg hnot, portableFileKind, if_pos (of_decide_eq_true (hmode.trans hexec))] at hagree
    exact absurd hagree (by decide)
  · intro hkeeps p node hne hnode hvisible
    have hshown : shownAt tree p = some node.view := shownAt_eq_some.mpr ⟨node, hnode, rfl⟩
    by_cases hmanifest : p = [manifestName]
    · -- the list itself is not walked
      have hignored := hvisible p hne List.prefix_rfl
      rw [hmanifest] at hignored
      exact absurd hignored (by decide)
    obtain ⟨i, hi, q, hpre, rfl, hview⟩ := hleft.shown_cases htaken hne hmanifest hshown
    split_ifs at hview with hfile
    · obtain ⟨mode, rfl, hmode⟩ := file_of_view hview
      obtain ⟨rfl, hkind⟩ := hfile
      have hmem : relText (storedPath rule items i.entry.target) ∈ set ↔ mode &&& 0o111 ≠ 0 := by
        rw [← decide_eq_true_eq (p := mode &&& 0o111 ≠ 0), hmode]
        refine ⟨fun hmem => (hlisted i hi hmem).1, fun hexec => ?_⟩
        rw [hkeeps i hi hkind hexec hvisible, relText_target (hnormal i hi), hset, mem_executablePaths]
        exact ⟨i, hi, hkind, hexec, rfl⟩
      refine ⟨portableFileKind mode, ?_⟩
      rw [List.nil_append, fileKind]
      simp only [bind_eq_ok, rejectIf_eq_ok, pure_eq_ok, not_not, portableFileKind, hmem]
      exact ⟨(), trivial, trivial⟩
    · cases node with
      | dir entries => trivial
      | file mode contents => cases hview
      | symlink leadsTo => cases hview
      | special => cases hview

/-- The digest of a tree with a list that was accepted needs the walk only. -/
theorem canonicalTreeDigest_isOk {t : FileTree} {set : OrdSet String}
    (hread : readManifest ((FileNode.dir t.entries).metadataBy rule) = .ok (some set)) (sizes : ReadSizes)
    (sha256Hex : List UInt8 → String) : (∃ digest, canonicalTreeDigest rule sizes sha256Hex t = .ok digest) ↔
      ∃ out, collectEntries (some set) none [] t.entries = .ok out := by
  simp only [canonicalTreeDigest, hread, ok_bind, bind_eq_ok, TreeRecord.mapM_frameRecord, pure_eq_ok]
  constructor
  · rintro ⟨_, out, hout, _⟩
    exact ⟨out, hout⟩
  · rintro ⟨out, hout⟩
    exact ⟨_, out, hout, rfl⟩

/-- **When list, tree and digest agree**: the list fits into four mebibytes, no
executable path begins like a drive, and executable files are stored under the
names of their entries. -/
theorem manifestAgrees_iff (h : extractInner rule limits items = .ok tree) :
    ManifestAgrees rule items tree ↔
      ((executablePaths items).map lineSize).sum ≤ 4 * 1024 * 1024 ∧
        (∀ path ∈ executablePaths items, hasDrivePrefix path.toList = false) ∧
        KeepsSpelling rule items := by
  have hcollects : ∀ set : OrdSet String, (∀ path, path ∈ set ↔
      ∃ i ∈ items, i.entry.kind = .file ∧ i.executable = true ∧ i.entry.name = path) →
      ((∃ out, collectEntries (some set) none [] tree = .ok out) ↔ KeepsSpelling rule items) :=
    fun set hmem => collects_iff h fun path => (hmem path).trans mem_executablePaths.symm
  constructor
  · rintro ⟨⟨set, hread, hmem⟩, t, rfl, hdigest⟩
    obtain ⟨hsize, hdrive⟩ := (accepted_iff h).mp ⟨set, hread, hmem⟩
    refine ⟨hsize, hdrive, (hcollects set hmem).mp ?_⟩
    exact (canonicalTreeDigest_isOk hread ⟨min, fun _ _ => le_rfl, fun _ _ hl hr => lt_min hl hr⟩ fun _ => "").mp
      (hdigest _ _)
  · rintro ⟨hsize, hdrive, hkeeps⟩
    obtain ⟨set, hread, hmem⟩ := (accepted_iff h).mpr ⟨hsize, hdrive⟩
    obtain ⟨t, rfl⟩ := exists_fileTree h hsize
    exact ⟨⟨set, hread, hmem⟩, t, rfl, fun sizes sha256Hex =>
      (canonicalTreeDigest_isOk hread sizes sha256Hex).mpr ((hcollects set hmem).mpr hkeeps)⟩

end Agreement

/-- An empty executable file. -/
def executableFile (path : String) : ArchiveItem := ⟨plainFile path, 0o755, [], rfl⟩

/-- Two executable files below directories whose names differ in case. -/
def spelledItems : List ArchiveItem := [executableFile "A/x", executableFile "a/y"]

theorem extractInner_spelledItems (rule : CaseRule) :
    ∃ tree, extractInner rule defaultLimits spelledItems = .ok tree := by
  have hok : (extractInner rule defaultLimits spelledItems).toBool = true := by
    cases rule <;> decide +kernel
  cases h : extractInner rule defaultLimits spelledItems with
  | ok tree => exact ⟨tree, rfl⟩
  | error e => rw [h] at hok; cases hok

/-- `A/x` and `a/y` are below two directories or one, and in the one `y` is not
where the list says. -/
theorem manifestAgrees_iff_spelled :
    (∃ tree, extractInner .sensitive defaultLimits spelledItems = .ok tree ∧
      ManifestAgrees .sensitive spelledItems tree) ∧
    ∃ tree, extractInner .insensitive defaultLimits spelledItems = .ok tree ∧
      ¬ ManifestAgrees .insensitive spelledItems tree := by
  obtain ⟨tree, htree⟩ := extractInner_spelledItems .sensitive
  obtain ⟨tree', htree'⟩ := extractInner_spelledItems .insensitive
  refine ⟨⟨tree, htree, (manifestAgrees_iff htree).mpr
    ⟨by decide, by decide, keepsSpelling_sensitive _⟩⟩, tree', htree', fun hagrees => ?_⟩
  obtain ⟨_, _, hkeeps⟩ := (manifestAgrees_iff htree').mp hagrees
  have hvisible : ∀ q ∈ (storedPath .insensitive spelledItems (executableFile "a/y").entry.target).inits,
      q ≠ [] → isIgnored none (relText q) = false := by decide +kernel
  have hkept := hkeeps (executableFile "a/y") (by simp [spelledItems]) rfl rfl
    fun q hq hpre => hvisible q ((List.mem_inits _ _).mpr hpre) hq
  revert hkept
  decide +kernel

/-- `./C:x` is extracted as `C:x` and listed so, which the reader refuses. -/
theorem not_forall_manifestAgrees :
    ¬ ∀ (rule : CaseRule) (limits : ValidationLimits) (items : List ArchiveItem) (tree : DirEntries),
      extractInner rule limits items = .ok tree → ManifestAgrees rule items tree := by
  intro hall
  obtain ⟨tree, htree⟩ : ∃ tree,
      extractInner .sensitive defaultLimits [executableFile "./C:x"] = .ok tree := ⟨_, rfl⟩
  obtain ⟨_, hdrive⟩ := (accepted_iff htree).mp (hall _ _ _ tree htree).accepted
  exact absurd (hdrive "C:x" (by decide)) (by decide)

end Tapid
