/-
The digest of a tree depends on what the tree shows.

Two trees that show the same directories and files at every path have the same
digest, in whichever order their directories are read, as long as their names
keep different texts and there are no links.

* `collectEntries_isOk`, `nodup_collectEntries` — when a walk goes through, and
  that it meets every path once;
* `readExecutableManifest_congr` — the manifest is read off what is shown;
* `treeBytes_of_shownAt` — equal views have equal bytes.
-/
import Tapid.TreeDigestInjective

namespace Tapid

open Text Fallible Bytes

/-- What is at a path of a directory; links show as nothing. -/
def shownAt (entries : DirEntries) (p : List FileName) : Option (Option NodeView) :=
  ((FileNode.dir entries).at p).map FileNode.view

@[simp] theorem shownAt_nil (entries : DirEntries) : shownAt entries [] = some (some .directory) := by
  simp [shownAt, FileNode.view]

theorem shownAt_cons (entries : DirEntries) (name : FileName) (p : List FileName) :
    shownAt entries (name :: p) =
      (DirEntries.find entries name.bytes).bind fun node => (node.at p).map FileNode.view := by
  rw [shownAt, FileNode.at_dir_cons]
  cases DirEntries.find entries name.bytes <;> rfl

@[simp] theorem shownAt_empty_cons (name : FileName) (p : List FileName) : shownAt [] (name :: p) = none := by
  rw [shownAt_cons]
  rfl

/-! ### Walks that go through -/

section Walk

variable {executablePaths : Option (OrdSet String)} {excluded : Option String}

/-- What the walk accepts at a path. -/
def Collectable (executablePaths : Option (OrdSet String)) (path : List FileName) : FileNode → Prop
  | .dir _ => True
  | .file mode _ => ∃ kind, fileKind executablePaths path mode = .ok kind
  | _ => False

mutual

theorem collectNode_isOk (node : FileNode) (path : List FileName) (hd : node.Distinct) :
    (∃ out, collectNode executablePaths excluded path node = .ok out) ↔
      ∀ p n, node.at p = some n → VisibleFrom excluded path p → Collectable executablePaths (path ++ p) n := by
  match node with
  | .symlink _ =>
    refine iff_of_false (by simp [collectNode]) fun h => ?_
    exact h [] _ (FileNode.at_nil _) (visibleFrom_nil _ _)
  | .special =>
    refine iff_of_false (by simp [collectNode]) fun h => ?_
    exact h [] _ (FileNode.at_nil _) (visibleFrom_nil _ _)
  | .file mode contents =>
    simp only [collectNode, bind_eq_ok, pure_eq_ok]
    constructor
    · rintro ⟨_, kind, hkind, _⟩ p n hn _
      cases p with
      | nil =>
        rw [FileNode.at_nil] at hn
        rw [← Option.some_inj.mp hn, List.append_nil]
        exact ⟨kind, hkind⟩
      | cons name p => simp [FileNode.at] at hn
    · intro h
      obtain ⟨kind, hkind⟩ := h [] _ (FileNode.at_nil _) (visibleFrom_nil _ _)
      rw [List.append_nil] at hkind
      exact ⟨_, kind, hkind, rfl⟩
  | .dir entries =>
    have hbelow := collectEntries_isOk entries path hd
    simp only [collectNode, bind_eq_ok, pure_eq_ok]
    constructor
    · rintro ⟨_, below, hok, _⟩ p n hn hv
      cases p with
      | nil =>
        rw [FileNode.at_nil] at hn
        rw [← Option.some_inj.mp hn]
        trivial
      | cons name p => exact hbelow.mp ⟨below, hok⟩ (name :: p) n (by simp) hn hv
    · intro h
      obtain ⟨below, hok⟩ := hbelow.mpr fun p n _ hn hv => h p n hn hv
      exact ⟨_, below, hok, rfl⟩

/-- **When a walk goes through**: everything visible is collectable. -/
theorem collectEntries_isOk (entries : DirEntries) (current : List FileName)
    (hd : (FileNode.dir entries).Distinct) :
    (∃ out, collectEntries executablePaths excluded current entries = .ok out) ↔
      ∀ p n, p ≠ [] → (FileNode.dir entries).at p = some n → VisibleFrom excluded current p →
        Collectable executablePaths (current ++ p) n := by
  match entries with
  | [] =>
    refine iff_of_true ⟨[], by rw [collectEntries]⟩ fun p n hne hn => ?_
    cases p with
    | nil => exact absurd rfl hne
    | cons name p => simp [FileNode.at_dir_cons, DirEntries.find] at hn
  | (name, node) :: rest =>
    have hnode := collectNode_isOk node (current ++ [name]) hd.head
    have hrest := collectEntries_isOk rest current hd.tail
    simp only [collectEntries, bind_eq_ok, pure_eq_ok]
    constructor
    · rintro ⟨_, here, hhere, others, hothers, _⟩ p n hne hn hv
      cases p with
      | nil => exact absurd rfl hne
      | cons m p =>
        by_cases hm : m = name
        · subst hm
          obtain ⟨hvisible, hv⟩ := visibleFrom_cons.mp hv
          rw [if_neg (by rw [hvisible]; exact Bool.false_ne_true)] at hhere
          rw [FileNode.at_cons_self] at hn
          have hcollect := hnode.mp ⟨here, hhere⟩ p n hn hv
          rwa [List.append_assoc] at hcollect
        · rw [FileNode.at_cons_of_ne _ _ _ hm] at hn
          exact hrest.mp ⟨others, hothers⟩ (m :: p) n (by simp) hn hv
    · intro h
      obtain ⟨others, hothers⟩ := hrest.mpr fun p n hne hn hv => by
        refine h p n hne ?_ hv
        cases p with
        | nil => exact absurd rfl hne
        | cons m p =>
          rw [FileNode.at_cons_of_ne _ _ _ ?_, hn]
          rintro rfl
          exact hd.not_mem (FileNode.mem_of_at hn)
      by_cases hign : isIgnored excluded (relText (current ++ [name])) = true
      · exact ⟨_, [], by rw [if_pos hign], others, hothers, rfl⟩
      · obtain ⟨here, hhere⟩ := hnode.mpr fun p n hn hv => by
          have hcollect := h (name :: p) n (by simp) (by rw [FileNode.at_cons_self, hn])
            (visibleFrom_cons.mpr ⟨(Bool.not_eq_true _).mp hign, hv⟩)
          rwa [List.append_assoc]
        exact ⟨_, here, by rw [if_neg hign, hhere], others, hothers, rfl⟩

end

mutual

theorem nodup_collectNode (node : FileNode) (path : List FileName) (out : List TreeEntry)
    (h : collectNode executablePaths excluded path node = .ok out) (hd : node.Distinct) :
    (out.map TreeEntry.path).Nodup := by
  match node with
  | .symlink _ => simp [collectNode] at h
  | .special => simp [collectNode] at h
  | .file mode contents =>
    simp only [collectNode, bind_eq_ok, pure_eq_ok] at h
    obtain ⟨kind, _, rfl⟩ := h
    simp
  | .dir entries =>
    simp only [collectNode, bind_eq_ok, pure_eq_ok] at h
    obtain ⟨below, hbelow, rfl⟩ := h
    rw [List.map_cons, List.nodup_cons]
    refine ⟨fun hmem => ?_, nodup_collectEntries entries path below hbelow hd⟩
    obtain ⟨e, he, hpath⟩ := List.mem_map.mp hmem
    obtain ⟨p, n, hne, _, hentry, _⟩ := (mem_collectEntries entries path below hbelow hd e).mp he
    rw [(entry_spec hentry).1] at hpath
    exact hne (List.append_cancel_left (hpath.trans (List.append_nil path).symm))

/-- **A walk meets every path once.** -/
theorem nodup_collectEntries (entries : DirEntries) (current : List FileName) (out : List TreeEntry)
    (h : collectEntries executablePaths excluded current entries = .ok out)
    (hd : (FileNode.dir entries).Distinct) : (out.map TreeEntry.path).Nodup := by
  match entries with
  | [] =>
    rw [collectEntries] at h
    rw [← Except.ok.inj h]
    simp
  | (name, node) :: rest =>
    simp only [collectEntries, bind_eq_ok, pure_eq_ok] at h
    obtain ⟨here, hhere, others, hothers, rfl⟩ := h
    rw [List.map_append, List.nodup_append]
    have hrest := nodup_collectEntries rest current others hothers hd.tail
    by_cases hign : isIgnored excluded (relText (current ++ [name])) = true
    · rw [if_pos hign] at hhere
      rw [← Except.ok.inj hhere]
      exact ⟨by simp, hrest, by simp⟩
    · rw [if_neg hign] at hhere
      refine ⟨nodup_collectNode node _ here hhere hd.head, hrest, ?_⟩
      -- paths of this entry go on with its name, those of the others do not
      intro a ha b hb heq
      obtain ⟨e, he, rfl⟩ := List.mem_map.mp ha
      obtain ⟨f, hf, rfl⟩ := List.mem_map.mp hb
      obtain ⟨p, n, _, hentry, _⟩ := (mem_collectNode node _ here hhere hd.head e).mp he
      obtain ⟨q, m, hne, hm, hentry', _⟩ := (mem_collectEntries rest current others hothers hd.tail f).mp hf
      rw [(entry_spec hentry).1, (entry_spec hentry').1, List.append_assoc] at heq
      have hq := List.append_cancel_left heq
      rw [← hq] at hm
      exact hd.not_mem (FileNode.mem_of_at hm)

end

end Walk

/-! ### What is shown -/

/-- A directory without links and special files. -/
def Plain (entries : DirEntries) : Prop := ∀ p, shownAt entries p ≠ some none

theorem shownAt_eq_some {entries : DirEntries} {p : List FileName} {v : Option NodeView} :
    shownAt entries p = some v ↔ ∃ n, (FileNode.dir entries).at p = some n ∧ n.view = v :=
  Option.map_eq_some_iff

/-- Following a path by its bytes finds the same, where there are no links. -/
theorem metadataAt_eq_some {node : FileNode} (hplain : ∀ p n, node.at p = some n → n.view ≠ none)
    {path : List (List UInt8)} {found : FileNode} :
    node.metadataAt path = some found ↔ ∃ p, p.map FileName.bytes = path ∧ node.at p = some found := by
  induction path generalizing node with
  | nil =>
    rw [FileNode.metadataAt]
    constructor
    · intro h
      exact ⟨[], rfl, (FileNode.at_nil node).trans h⟩
    · rintro ⟨p, hp, hfound⟩
      rw [List.map_eq_nil_iff.mp hp, FileNode.at_nil] at hfound
      exact hfound
  | cons b path ih =>
    cases node with
    | dir entries =>
      rw [FileNode.metadataAt]
      constructor
      · intro h
        obtain ⟨sub, hsub, hnode⟩ := Option.bind_eq_some_iff.mp h
        obtain ⟨e, he, rfl⟩ := Option.map_eq_some_iff.mp hsub
        have hfound := List.find?_some (p := fun e : FileName × FileNode => e.1.bytes == b) he
        have hbytes : e.1.bytes = b := eq_of_beq hfound
        subst hbytes
        have hat : ∀ p, (FileNode.dir entries).at (e.1 :: p) = e.2.at p := fun p => by
          rw [FileNode.at_dir_cons, hsub]
          rfl
        obtain ⟨p, hp, hfound⟩ := (ih fun p n hn => hplain (e.1 :: p) n ((hat p).trans hn)).mp hnode
        exact ⟨e.1 :: p, by rw [List.map_cons, hp], (hat p).trans hfound⟩
      · rintro ⟨p, hp, hfound⟩
        cases p with
        | nil => cases hp
        | cons name p =>
          obtain ⟨rfl, hrest⟩ := List.cons.inj hp
          rw [FileNode.at_dir_cons] at hfound
          obtain ⟨sub, hsub, hfound⟩ := Option.bind_eq_some_iff.mp hfound
          refine Option.bind_eq_some_iff.mpr ⟨sub, hsub, (ih fun q n hn => ?_).mpr ⟨p, hrest, hfound⟩⟩
          exact hplain (name :: q) n (by rw [FileNode.at_dir_cons, hsub]; exact hn)
    | file mode contents =>
      refine iff_of_false (by simp [FileNode.metadataAt]) ?_
      rintro ⟨p, hp, hfound⟩
      cases p with
      | nil => cases hp
      | cons name p => simp [FileNode.at] at hfound
    | symlink leadsTo => exact absurd rfl (hplain [] _ (FileNode.at_nil _))
    | special => exact absurd rfl (hplain [] _ (FileNode.at_nil _))

theorem Plain.view_ne {entries : DirEntries} (h : Plain entries) (p : List FileName) (n : FileNode)
    (hn : (FileNode.dir entries).at p = some n) : n.view ≠ none := fun hview =>
  h p (shownAt_eq_some.mpr ⟨n, hn, hview⟩)

section Shown

variable {entries entries' : DirEntries} (hshown : ∀ p, shownAt entries p = shownAt entries' p)

include hshown

theorem Plain.congr (h : Plain entries) : Plain entries' := fun p => by
  rw [← hshown p]
  exact h p

/-- The same view is found at the same path. -/
theorem exists_same_view {p : List FileName} {n : FileNode} (hn : (FileNode.dir entries).at p = some n) :
    ∃ n', (FileNode.dir entries').at p = some n' ∧ n'.view = n.view := by
  have hsome : shownAt entries p = some n.view := shownAt_eq_some.mpr ⟨n, hn, rfl⟩
  rw [hshown p] at hsome
  exact shownAt_eq_some.mp hsome

theorem metadataAt_congr (hplain : Plain entries) (path : List (List UInt8)) :
    ((FileNode.dir entries).metadataAt path).map FileNode.view =
      ((FileNode.dir entries').metadataAt path).map FileNode.view := by
  have hplain' := hplain.congr hshown
  cases hfound : (FileNode.dir entries).metadataAt path with
  | some n =>
    obtain ⟨p, hp, hn⟩ := (metadataAt_eq_some hplain.view_ne).mp hfound
    obtain ⟨n', hn', hview⟩ := exists_same_view hshown hn
    rw [(metadataAt_eq_some hplain'.view_ne).mpr ⟨p, hp, hn'⟩, Option.map_some, Option.map_some, hview]
  | none =>
    cases hfound' : (FileNode.dir entries').metadataAt path with
    | none => rfl
    | some n' =>
      obtain ⟨p, hp, hn'⟩ := (metadataAt_eq_some hplain'.view_ne).mp hfound'
      obtain ⟨n, hn, _⟩ := exists_same_view (fun p => (hshown p).symm) hn'
      rw [(metadataAt_eq_some hplain.view_ne).mpr ⟨p, hp, hn⟩] at hfound
      cases hfound

theorem readManifestLine_congr (hplain : Plain entries) (state : OrdSet String × Option String)
    (value : List Char) : readManifestLine (FileNode.dir entries).metadataAt state value =
      readManifestLine (FileNode.dir entries').metadataAt state value := by
  have hmeta := metadataAt_congr hshown hplain
    (((String.ofList value).toList.splitOn '/').map utf8Bytes)
  have hplain' := hplain.congr hshown
  simp only [readManifestLine]
  congr 1
  funext normalized
  congr 1
  funext _
  cases hfound : (FileNode.dir entries).metadataAt
      (((String.ofList value).toList.splitOn '/').map utf8Bytes) with
  | none =>
    rw [hfound] at hmeta
    rw [Option.map_eq_none_iff.mp hmeta.symm]
  | some n =>
    rw [hfound] at hmeta
    obtain ⟨n', hn', hview⟩ := Option.map_eq_some_iff.mp hmeta.symm
    obtain ⟨p, _, hn⟩ := (metadataAt_eq_some hplain.view_ne).mp hfound
    have hne := hplain.view_ne p n hn
    rw [hn']
    -- both are files, or neither is
    cases n with
    | file mode contents => cases n' <;> first | rfl | simp [FileNode.view] at hview
    | dir sub => cases n' <;> first | rfl | simp [FileNode.view] at hview
    | symlink leadsTo => exact absurd rfl hne
    | special => exact absurd rfl hne

/-- **The manifest is read off what is shown.** -/
theorem readExecutableManifest_congr (hplain : Plain entries) :
    readExecutableManifest entries = readExecutableManifest entries' := by
  have hline : readManifestLine (FileNode.dir entries).metadataAt =
      readManifestLine (FileNode.dir entries').metadataAt := by
    funext state value
    exact readManifestLine_congr hshown hplain state value
  have hmeta := metadataAt_congr hshown hplain [utf8Bytes executableManifest.toList]
  have hplainAt : ∀ n, DirEntries.find entries (utf8Bytes executableManifest.toList) = some n → n.view ≠ none := by
    intro n hn
    rw [← FileNode.metadataAt_singleton] at hn
    obtain ⟨p, _, hn⟩ := (metadataAt_eq_some hplain.view_ne).mp hn
    exact hplain.view_ne p n hn
  rw [FileNode.metadataAt_singleton, FileNode.metadataAt_singleton] at hmeta
  rw [readExecutableManifest, readExecutableManifest, readManifest, readManifest,
    FileNode.metadataAt_singleton, FileNode.metadataAt_singleton]
  cases hfound : DirEntries.find entries (utf8Bytes executableManifest.toList) with
  | none =>
    rw [hfound] at hmeta
    rw [Option.map_eq_none_iff.mp hmeta.symm]
  | some n =>
    have hne := hplainAt n hfound
    rw [hfound] at hmeta
    obtain ⟨n', hn', hview⟩ := Option.map_eq_some_iff.mp hmeta.symm
    rw [hn']
    cases n with
    | file mode contents =>
      cases n' with
      | file mode' contents' =>
        obtain ⟨_, rfl⟩ := NodeView.file.inj (Option.some_inj.mp hview)
        simp only [hline]
      | dir sub => simp [FileNode.view] at hview
      | symlink leadsTo => simp [FileNode.view] at hview
      | special => simp [FileNode.view] at hview
    | dir sub => cases n' <;> simp [FileNode.view] at hview ⊢
    | symlink leadsTo => exact absurd rfl hne
    | special => exact absurd rfl hne

end Shown

theorem portableFileKind_eq {mode mode' : Nat}
    (h : decide (mode &&& 0o111 ≠ 0) = decide (mode' &&& 0o111 ≠ 0)) :
    portableFileKind mode = portableFileKind mode' := by
  rw [decide_eq_decide] at h
  by_cases hmode : mode &&& 0o111 ≠ 0
  · rw [portableFileKind, portableFileKind, if_pos hmode, if_pos (h.mp hmode)]
  · rw [portableFileKind, portableFileKind, if_neg hmode, if_neg fun hmode' => hmode (h.mpr hmode')]

/-- The entry of a node depends on its view. -/
theorem entry_congr {n n' : FileNode} (hview : n'.view = n.view) (hne : n.view ≠ none) (p : List FileName) :
    n'.entry p = n.entry p := by
  cases n with
  | file mode contents =>
    cases n' with
    | file mode' contents' =>
      obtain ⟨hmode, rfl⟩ := NodeView.file.inj (Option.some_inj.mp hview)
      rw [FileNode.entry, FileNode.entry, portableFileKind_eq hmode]
    | dir sub => simp [FileNode.view] at hview
    | symlink leadsTo => simp [FileNode.view] at hview
    | special => simp [FileNode.view] at hview
  | dir sub =>
    cases n' with
    | dir sub' => rfl
    | file mode contents => simp [FileNode.view] at hview
    | symlink leadsTo => simp [FileNode.view] at hview
    | special => simp [FileNode.view] at hview
  | symlink leadsTo => exact absurd rfl hne
  | special => exact absurd rfl hne

theorem collectable_congr {executablePaths : Option (OrdSet String)} {n n' : FileNode}
    (hview : n'.view = n.view) {p : List FileName} (h : Collectable executablePaths p n') :
    Collectable executablePaths p n := by
  cases n with
  | file mode contents =>
    cases n' with
    | file mode' contents' =>
      obtain ⟨hmode, _⟩ := NodeView.file.inj (Option.some_inj.mp hview)
      obtain ⟨kind, hkind⟩ := h
      refine ⟨kind, ?_⟩
      unfold fileKind at hkind ⊢
      rw [portableFileKind_eq hmode] at hkind
      exact hkind
    | dir sub => simp [FileNode.view] at hview
    | symlink leadsTo => simp [FileNode.view] at hview
    | special => simp [FileNode.view] at hview
  | dir sub => trivial
  | symlink leadsTo => cases n' <;> simp [FileNode.view] at hview <;> exact h
  | special => cases n' <;> simp [FileNode.view] at hview <;> exact h

/-- The records of trees that show the same are the same up to order. -/
theorem treeRecords_of_shownAt {t t' : FileTree} {excluded : Option String} {records : List TreeRecord}
    (hshown : ∀ p, shownAt t.entries p = shownAt t'.entries p) (hplain : Plain t.entries)
    (h : treeRecords t excluded = .ok records) :
    ∃ records', treeRecords t' excluded = .ok records' ∧ records.Perm records' := by
  simp only [treeRecords, bind_eq_ok, pure_eq_ok] at h
  obtain ⟨manifest, hmanifest, out, hout, rfl⟩ := h
  have hback : ∀ p, shownAt t'.entries p = shownAt t.entries p := fun p => (hshown p).symm
  have hplain' := hplain.congr hshown
  have hmanifest' : readExecutableManifest t'.entries = .ok manifest :=
    (readExecutableManifest_congr hshown hplain).symm.trans hmanifest
  obtain ⟨out', hout'⟩ := (collectEntries_isOk t'.entries [] t'.distinct).mpr fun p n hne hn hv => by
    obtain ⟨n', hn', hview⟩ := exists_same_view hback hn
    exact collectable_congr hview
      ((collectEntries_isOk t.entries [] t.distinct).mp ⟨out, hout⟩ p n' hne hn' hv)
  have hperm : out.Perm out' := by
    refine (List.perm_ext_iff_of_nodup (List.Nodup.of_map _ (nodup_collectEntries _ _ _ hout t.distinct))
      (List.Nodup.of_map _ (nodup_collectEntries _ _ _ hout' t'.distinct))).mpr fun e => ?_
    rw [mem_collectEntries _ _ _ hout t.distinct, mem_collectEntries _ _ _ hout' t'.distinct]
    constructor
    · rintro ⟨p, n, hne, hn, hentry, hv⟩
      obtain ⟨n', hn', hview⟩ := exists_same_view hshown hn
      exact ⟨p, n', hne, hn', by rw [entry_congr hview (hplain.view_ne p n hn)]; exact hentry, hv⟩
    · rintro ⟨p, n, hne, hn, hentry, hv⟩
      obtain ⟨n', hn', hview⟩ := exists_same_view hback hn
      exact ⟨p, n', hne, hn', by rw [entry_congr hview (hplain'.view_ne p n hn)]; exact hentry, hv⟩
  refine ⟨_, ?_, (hperm.map TreeEntry.record).append_right _⟩
  simp only [treeRecords, bind_eq_ok, pure_eq_ok]
  exact ⟨manifest, hmanifest', out', hout', rfl⟩

/-- **The digest depends on what is shown**: trees with clean names that show
the same are fed to SHA-256 as the same bytes. -/
theorem treeBytes_of_shownAt {sizes : ReadSizes} {t t' : FileTree} {excluded : Option String}
    {bytes : List UInt8} (hshown : ∀ p, shownAt t.entries p = shownAt t'.entries p)
    (hplain : Plain t.entries) (hclean : t.NamesIn CleanName) (h : treeBytes sizes t excluded = .ok bytes) :
    treeBytes sizes t' excluded = .ok bytes := by
  obtain ⟨records, hrecords, rfl⟩ := treeBytes_eq_ok.mp h
  obtain ⟨records', hrecords', hperm⟩ := treeRecords_of_shownAt hshown hplain hrecords
  refine treeBytes_eq_ok.mpr ⟨records', hrecords', ?_⟩
  rw [insertionSort_eq_of_key hperm]
  intro r hr r' hr' hkey
  obtain ⟨hpath, hnat⟩ := Prod.mk.inj (toLex.injective hkey)
  have hkind : r.kind = r'.kind := UInt8.toNat_inj.mp hnat
  rcases (mem_treeRecords hrecords r).mp hr with ⟨p, n, e, hne, hn, hentry, hv, rfl⟩ | ⟨paths, hpaths, rfl⟩
  · rcases (mem_treeRecords hrecords r').mp hr' with ⟨p', n', e', hne', hn', hentry', hv', rfl⟩ | ⟨_, _, rfl⟩
    · obtain ⟨he, _⟩ := entry_spec hentry
      obtain ⟨he', _⟩ := entry_spec hentry'
      have htext : relText p = relText p' := by
        rw [← he, ← he']
        exact hpath
      obtain rfl := textsDiffer_cleanName excluded p p' (hclean p n hn) (hclean p' n' hn') hne hne' hv hv'
        (t.fits p n hn).1 htext
      obtain rfl := Option.some_inj.mp (hn.symm.trans hn')
      rw [Option.some_inj.mp (hentry.symm.trans hentry')]
    · exact absurd hkind (entry_spec hentry).2.1
  · rcases (mem_treeRecords hrecords r').mp hr' with ⟨p', n', e', _, _, hentry', _, rfl⟩ | ⟨paths', hpaths', rfl⟩
    · exact absurd hkind.symm (entry_spec hentry').2.1
    · rw [hpaths] at hpaths'
      obtain rfl := Option.some_inj.mp (Except.ok.inj hpaths')
      rfl

end Tapid
