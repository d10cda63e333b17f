/-
One tree for an archive.

What an archive leaves behind is the same on every file system and in every
order of its entries, as long as the directories that entries imply agree: none
has a second spelling, and none is a file.  The validator does not look at these
directories.  The executable manifest is one more name to keep apart.

* `extractItem_holds` — one entry, on top of those before it;
* `foldlM_extractItem` — all of them;
* `extractInner_cases` — when extraction goes through, and what it leaves;
* `oneTree_iff` — which accepted archives have one tree.
-/
import Tapid.ArchiveExtract

namespace Tapid

open Text Fallible Bytes

/-! ### Paths of an archive -/

/-- The paths extraction creates, as file names. -/
def Reached (entries : List ArchiveEntry) (p : List FileName) : Prop := p ≠ [] ∧ ∃ e ∈ entries, p <+: e.target

/-- What a file system must keep apart. -/
def Named (entries : List ArchiveEntry) (p : List FileName) : Prop := p = [manifestName] ∨ Reached entries p

/-- No entry begins with another spelling of the manifest's name. -/
def ManifestSpelling (entries : List ArchiveEntry) : Prop :=
  ∀ e ∈ entries, ∀ part, e.parts.head? = some part → toAsciiLower part = executableManifest.toList →
    part = executableManifest.toList

theorem toAsciiLower_executableManifest : toAsciiLower executableManifest.toList = executableManifest.toList := by
  decide

section Paths

variable {entries : List ArchiveEntry} (hnormal : ∀ e ∈ entries, normalizedPath e.path = .ok e.name)

include hnormal

/-- A path that is reached, as text. -/
theorem Reached.exists_text {p : List FileName} (h : Reached entries p) :
    ∃ t ∈ extractedPaths entries, p.map FileName.bytes = t.map utf8Bytes := by
  obtain ⟨hne, e, he, hp⟩ := h
  obtain ⟨t, ht, hbytes, _⟩ := ArchiveEntry.exists_text (hnormal e he) hp
  refine ⟨t, mem_extractedPaths.mpr ⟨?_, e, he, ht⟩, hbytes⟩
  rintro rfl
  exact hne (List.map_eq_nil_iff.mp hbytes)

/-- Paths that differ at all differ up to case. -/
theorem fold_injective (hagree : PathsAgree entries) {p q : List FileName} (hp : Reached entries p)
    (hq : Reached entries q) (h : p.map FileName.fold = q.map FileName.fold) : p = q := by
  obtain ⟨t, ht, hpt⟩ := hp.exists_text hnormal
  obtain ⟨u, hu, hqu⟩ := hq.exists_text hnormal
  rw [map_fold_eq hpt, map_fold_eq hqu, map_utf8Bytes_inj] at h
  rw [← map_bytes_inj, hpt, hqu, hagree.distinct t ht u hu h]

/-- A path with the manifest's name up to case is the manifest. -/
theorem eq_manifest_of_fold (hspelling : ManifestSpelling entries) {n : FileName}
    (hn : Reached entries [n]) (h : n.fold = manifestName.fold) : n = manifestName := by
  obtain ⟨_, e, he, hp⟩ := hn
  obtain ⟨t, ht, hbytes, _⟩ := ArchiveEntry.exists_text (hnormal e he) hp
  obtain ⟨part, rfl⟩ : ∃ part, t = [part] := by
    have hlength := congrArg List.length hbytes
    rw [List.length_map, List.length_map] at hlength
    exact List.length_eq_one_iff.mp hlength.symm
  have hpart : n.bytes = utf8Bytes part := List.singleton_inj.mp hbytes
  have hhead : e.parts.head? = some part := by
    obtain ⟨rest, hrest⟩ := ht
    rw [← hrest]
    rfl
  have hlower : toAsciiLower part = executableManifest.toList := by
    refine utf8Bytes_injective ?_
    rw [utf8Bytes_toAsciiLower, ← hpart, ← toAsciiLower_executableManifest, utf8Bytes_toAsciiLower]
    exact h
  refine FileName.bytes_injective ?_
  rw [hpart, hspelling e he part hhead hlower]
  rfl

/-- **Any file system keeps agreeing paths apart.** -/
theorem separates_reached (rule : CaseRule) (hagree : PathsAgree entries) :
    rule.Separates (Reached entries) := by
  intro above n m hn hm hsame
  cases rule with
  | sensitive => exact eq_of_beq hsame
  | insensitive =>
    have hfold : n.fold = m.fold := eq_of_beq hsame
    have hlast : above ++ [n] = above ++ [m] :=
      fold_injective hnormal hagree hn hm (by rw [List.map_append, List.map_append]; simp [hfold])
    exact List.singleton_inj.mp (List.append_cancel_left hlast)

/-- The manifest's name is kept apart as well, if it is spelled in one way. -/
theorem separates_named (rule : CaseRule) (hagree : PathsAgree entries)
    (hmanifest : rule = .insensitive → ManifestSpelling entries) : rule.Separates (Named entries) := by
  intro above n m hn hm hsame
  cases rule with
  | sensitive => exact eq_of_beq hsame
  | insensitive =>
    have hfold : n.fold = m.fold := eq_of_beq hsame
    have hspelling := hmanifest rfl
    have hsingle : ∀ {a : FileName} {above : List FileName}, above ++ [a] = [manifestName] →
        above = [] ∧ a = manifestName := fun {a above} h => by
      cases above with
      | nil => exact ⟨rfl, List.singleton_inj.mp h⟩
      | cons b above => simp at h
    rcases hn with hn | hn
    · obtain ⟨rfl, rfl⟩ := hsingle hn
      rcases hm with hm | hm
      · exact (hsingle hm).2.symm
      · exact (eq_manifest_of_fold hnormal hspelling hm hfold.symm).symm
    · rcases hm with hm | hm
      · obtain ⟨rfl, rfl⟩ := hsingle hm
        exact eq_manifest_of_fold hnormal hspelling hn hfold
      · exact separates_reached hnormal .insensitive hagree above n m hn hm hsame

/-- A file is above no other entry. -/
theorem target_eq_of_le (hagree : PathsAgree entries) {e f : ArchiveEntry} (he : e ∈ entries)
    (hf : f ∈ entries) (hfile : e.kind = .file) (h : e.target <+: f.target) : e.target = f.target := by
  obtain ⟨t, ht, hbytes, heq⟩ := ArchiveEntry.exists_text (hnormal f hf) h
  rw [ArchiveEntry.map_bytes_target (hnormal e he), map_utf8Bytes_inj] at hbytes
  subst hbytes
  exact heq.mp (hagree.files e he hfile f hf ht)

/-- Entries with one target have one name. -/
theorem foldedName_eq_of_target {e f : ArchiveEntry} (he : e ∈ entries) (hf : f ∈ entries)
    (h : e.target = f.target) : e.foldedName = f.foldedName := by
  have hparts := congrArg (List.map FileName.bytes) h
  rw [ArchiveEntry.map_bytes_target (hnormal e he), ArchiveEntry.map_bytes_target (hnormal f hf),
    map_utf8Bytes_inj] at hparts
  rw [foldedName_eq_iff, hparts]

end Paths

/-! ### The entries one after the other -/

/-- What extraction refuses an entry for. -/
def ArchiveItem.Refused (item : ArchiveItem) : Prop :=
  item.entry.name = executableManifest ∨
    (item.executable ∧ item.entry.name.toList.any fun c => c == '\n' || c == '\r') ∨
    (item.entry.kind ≠ .file ∧ item.entry.kind ≠ .directory)

/-- What a tree shows of the entries extracted so far. -/
structure Holds (items : List ArchiveItem) (tree : DirEntries) : Prop where
  file : ∀ i ∈ items, i.entry.kind = .file →
    shownAt tree i.entry.target = some (some (.file i.executable i.contents))
  directory : ∀ i ∈ items, ∀ p, p <+: i.entry.target → (p ≠ i.entry.target ∨ i.entry.kind = .directory) →
    shownAt tree p = some (some .directory)
  only : ∀ p, p ≠ [] → shownAt tree p ≠ none → ∃ i ∈ items, p <+: i.entry.target

/-- The executable paths of some entries, in their order. -/
def executablePaths (items : List ArchiveItem) : List String :=
  (items.filter fun i => i.entry.kind = .file ∧ i.executable).map fun i => i.entry.name

theorem holds_nil : Holds [] [] := by
  refine ⟨by simp, by simp, fun p hp hshown => ?_⟩
  obtain ⟨n, p, rfl⟩ := List.exists_cons_of_ne_nil hp
  exact absurd (shownAt_empty_cons n p) hshown

theorem portableMode_executable (item : ArchiveItem) :
    decide (portableMode item.mode &&& 0o111 ≠ 0) = item.executable := by
  rw [ArchiveItem.executable, portableMode]
  by_cases h : item.mode &&& 0o111 = 0
  · rw [if_pos h, decide_eq_decide]
    exact iff_of_false (by decide) (not_not.mpr h)
  · rw [if_neg h, decide_eq_decide]
    exact iff_of_true (by decide) h

/-- Entries that are not refused and whose paths agree. -/
structure Agreeable (rule : CaseRule) (items : List ArchiveItem) : Prop where
  normal : ∀ e ∈ items.map ArchiveItem.entry, normalizedPath e.path = .ok e.name
  paths : PathsAgree (items.map ArchiveItem.entry)
  names : (items.map ArchiveItem.entry).Pairwise fun e f => e.foldedName ≠ f.foldedName
  separates : rule.Separates (Reached (items.map ArchiveItem.entry))
  taken : ∀ i ∈ items, ¬ i.Refused

section Step

variable {rule : CaseRule} {items done rest : List ArchiveItem} {item : ArchiveItem}
  {tree : DirEntries}

theorem entry_mem (hl : done ++ item :: rest = items) :
    item.entry ∈ items.map ArchiveItem.entry ∧ ∀ i ∈ done, i.entry ∈ items.map ArchiveItem.entry := by
  subst hl
  refine ⟨List.mem_map_of_mem (by simp), fun i hi => List.mem_map_of_mem (by simp [hi])⟩

/-- No entry extracted before has the same path. -/
theorem Agreeable.target_ne (h : Agreeable rule items) (hl : done ++ item :: rest = items) {i : ArchiveItem}
    (hi : i ∈ done) : i.entry.target ≠ item.entry.target := fun heq => by
  obtain ⟨hitem, hdone⟩ := entry_mem hl
  have hnames := h.names
  rw [← hl, List.map_append, List.pairwise_append] at hnames
  exact hnames.2.2 i.entry (List.mem_map_of_mem hi) item.entry (by simp)
    (foldedName_eq_of_target h.normal (hdone i hi) hitem heq)

theorem Holds.within (hl : done ++ item :: rest = items) (hholds : Holds done tree) :
    Within (Reached (items.map ArchiveItem.entry)) tree := by
  intro p hp hshown
  obtain ⟨i, hi, hpre⟩ := hholds.only p hp hshown
  exact ⟨hp, i.entry, (entry_mem hl).2 i hi, hpre⟩

/-- What is there on the way to an entry are directories. -/
theorem Agreeable.directory_on_way (h : Agreeable rule items) (hl : done ++ item :: rest = items)
    (hholds : Holds done tree) {q : List FileName} (hq : q <+: item.entry.target) {v : Option NodeView}
    (hv : shownAt tree q = some v) : v = some .directory := by
  by_cases hnil : q = []
  · rw [hnil, shownAt_nil] at hv
    exact (Option.some_inj.mp hv).symm
  obtain ⟨i, hi, hpre⟩ := hholds.only q hnil (by rw [hv]; simp)
  obtain ⟨hitem, hdone⟩ := entry_mem hl
  by_cases hdir : q ≠ i.entry.target ∨ i.entry.kind = .directory
  · rw [hholds.directory i hi q hpre hdir] at hv
    exact (Option.some_inj.mp hv).symm
  · rw [not_or, not_not] at hdir
    obtain ⟨rfl, hkind⟩ := hdir
    have hfile : i.entry.kind = .file := by
      have hi' := h.taken i (by rw [← hl]; simp [hi])
      by_contra hother
      exact hi' (Or.inr (Or.inr ⟨hother, hkind⟩))
    exact absurd (target_eq_of_le h.normal h.paths (hdone i hi) hitem hfile hq) (h.target_ne hl hi)

/-- One directory more. -/
theorem Agreeable.holds_directory (h : Agreeable rule items) (hl : done ++ item :: rest = items)
    (hholds : Holds done tree) (hkind : item.entry.kind = .directory) :
    ∃ tree', createDirAll rule item.entry.target tree = .ok tree' ∧ Holds (done ++ [item]) tree' := by
  obtain ⟨hitem, hdone⟩ := entry_mem hl
  obtain ⟨tree', hcreate, hshown⟩ := shownAt_createDirAll item.entry.target h.separates (hholds.within hl)
    (fun q hq hpre => ⟨hq, item.entry, hitem, hpre⟩)
    (fun q hpre v hv => h.directory_on_way hl hholds hpre hv)
  refine ⟨tree', hcreate, ⟨fun i hi hfile => ?_, fun i hi p hp hdir => ?_, fun p hp hsome => ?_⟩⟩
  · rcases List.mem_append.mp hi with hi | hi
    · rw [hshown, if_neg, hholds.file i hi hfile]
      intro hpre
      exact h.target_ne hl hi (target_eq_of_le h.normal h.paths (hdone i hi) hitem hfile hpre)
    · rw [List.mem_singleton.mp hi, hkind] at hfile
      cases hfile
  · rcases List.mem_append.mp hi with hi | hi
    · rw [hshown, hholds.directory i hi p hp hdir, ite_self]
    · rw [List.mem_singleton.mp hi] at hp
      rw [hshown, if_pos hp]
  · rw [hshown] at hsome
    by_cases hpre : p <+: item.entry.target
    · exact ⟨item, by simp, hpre⟩
    · rw [if_neg hpre] at hsome
      obtain ⟨i, hi, hpre⟩ := hholds.only p hp hsome
      exact ⟨i, List.mem_append_left _ hi, hpre⟩

/-- One file more: its directories first, then the file. -/
theorem Agreeable.holds_file (h : Agreeable rule items) (hl : done ++ item :: rest = items)
    (hholds : Holds done tree) (hkind : item.entry.kind = .file) :
    ∃ tree₁ tree₂, createDirAll rule item.entry.target.dropLast tree = .ok tree₁ ∧
      createNew rule (.file (portableMode item.mode) item.contents) item.entry.target tree₁ = .ok tree₂ ∧
      Holds (done ++ [item]) tree₂ := by
  obtain ⟨hitem, hdone⟩ := entry_mem hl
  have hne : item.entry.target ≠ [] := ArchiveEntry.target_ne_nil (h.normal _ hitem)
  obtain ⟨above, name, htarget⟩ : ∃ above name, item.entry.target = above ++ [name] :=
    ⟨_, _, (List.dropLast_append_getLast hne).symm⟩
  have habove : ∀ q, q <+: above → q <+: item.entry.target := fun q hq => by
    rw [htarget]
    exact hq.trans (List.prefix_append _ _)
  have hreached : ∀ q, q ≠ [] → q <+: item.entry.target → Reached (items.map ArchiveItem.entry) q :=
    fun q hq hpre => ⟨hq, item.entry, hitem, hpre⟩
  -- no entry so far is at the target or has it above
  have hclear : ∀ i ∈ done, ¬ item.entry.target <+: i.entry.target := fun i hi hpre =>
    h.target_ne hl hi (target_eq_of_le h.normal h.paths hitem (hdone i hi) hkind hpre).symm
  have hfree : shownAt tree item.entry.target = none := by
    by_contra hsome
    obtain ⟨i, hi, hpre⟩ := hholds.only _ hne hsome
    exact hclear i hi hpre
  have hnot : ¬ above ++ [name] <+: above := fun hpre => by
    have hlength := hpre.length_le
    rw [List.length_append, List.length_singleton] at hlength
    omega
  obtain ⟨tree₁, hdirs, hshown₁⟩ := shownAt_createDirAll above h.separates (hholds.within hl)
    (fun q hq hpre => hreached q hq (habove q hpre))
    (fun q hpre v hv => h.directory_on_way hl hholds (habove q hpre) hv)
  have hwithin₁ : Within (Reached (items.map ArchiveItem.entry)) tree₁ := by
    intro p hp hsome
    rw [hshown₁] at hsome
    by_cases hpre : p <+: above
    · exact hreached p hp (habove p hpre)
    · rw [if_neg hpre] at hsome
      exact hholds.within hl p hp hsome
  obtain ⟨tree₂, hfile, hshown₂⟩ := shownAt_createNew above name (portableMode item.mode) item.contents
    h.separates hwithin₁
    (fun q hq hpre => hreached q hq (by rw [htarget]; exact hpre))
    (fun q hpre => by rw [hshown₁, if_pos hpre])
    (by rw [hshown₁, if_neg hnot, ← htarget]; exact hfree)
  rw [← htarget] at hfile hshown₂
  refine ⟨tree₁, tree₂, by rw [htarget, List.dropLast_concat]; exact hdirs, hfile,
    ⟨fun i hi hkind' => ?_, fun i hi p hp hdir => ?_, fun p hp hsome => ?_⟩⟩
  · rcases List.mem_append.mp hi with hi | hi
    · rw [hshown₂, if_neg (h.target_ne hl hi), hshown₁, if_neg, hholds.file i hi hkind']
      intro hpre
      exact h.target_ne hl hi
        (target_eq_of_le h.normal h.paths (hdone i hi) hitem hkind' (habove _ hpre))
    · rw [List.mem_singleton.mp hi, hshown₂, if_pos rfl, portableMode_executable]
  · rcases List.mem_append.mp hi with hi | hi
    · have hother : p ≠ item.entry.target := fun heq => hclear i hi (heq ▸ hp)
      rw [hshown₂, if_neg hother, hshown₁, hholds.directory i hi p hp hdir, ite_self]
    · rw [List.mem_singleton.mp hi] at hp hdir
      have hproper : p ≠ item.entry.target := hdir.resolve_right (by rw [hkind]; simp)
      have hpre : p <+: above := by
        rw [htarget] at hp hproper
        rcases List.prefix_concat_iff.mp hp with heq | hpre
        · exact absurd heq hproper
        · exact hpre
      rw [hshown₂, if_neg hproper, hshown₁, if_pos hpre]
  · rw [hshown₂] at hsome
    by_cases heq : p = item.entry.target
    · exact ⟨item, by simp, heq ▸ List.prefix_rfl⟩
    · rw [if_neg heq, hshown₁] at hsome
      by_cases hpre : p <+: above
      · exact ⟨item, by simp, habove p hpre⟩
      · rw [if_neg hpre] at hsome
        obtain ⟨i, hi, hpre⟩ := hholds.only p hp hsome
        exact ⟨i, List.mem_append_left _ hi, hpre⟩

theorem executablePaths_append (done : List ArchiveItem) (item : ArchiveItem) :
    executablePaths (done ++ [item]) = executablePaths done ++
      if item.entry.kind = .file ∧ item.executable then [item.entry.name] else [] := by
  rw [executablePaths, List.filter_append, List.map_append, ← executablePaths]
  by_cases hexec : item.entry.kind = .file ∧ item.executable = true
  · rw [if_pos hexec, List.filter_cons_of_pos (by simpa using hexec)]
    rfl
  · rw [if_neg hexec, List.filter_cons_of_neg (by simpa using hexec)]
    rfl

/-- **One entry, on top of those before it.** -/
theorem Agreeable.extractItem_holds (h : Agreeable rule items) (hl : done ++ item :: rest = items)
    (hholds : Holds done tree) :
    ∃ state, extractItem rule (tree, executablePaths done) item = .ok state ∧
      Holds (done ++ [item]) state.1 ∧ state.2 = executablePaths (done ++ [item]) := by
  obtain ⟨hitem, _⟩ := entry_mem hl
  have htaken := h.taken item (by rw [← hl]; simp)
  rw [ArchiveItem.Refused, not_or, not_or] at htaken
  obtain ⟨hname, hbreak, hkind⟩ := htaken
  have hnormal := h.normal _ hitem
  have hmap := ArchiveEntry.mapM_fileName hnormal
  rw [executablePaths_append]
  by_cases hfile : item.entry.kind = .file
  · obtain ⟨tree₁, tree₂, hdirs, hnew, hnext⟩ := h.holds_file hl hholds hfile
    refine ⟨(tree₂, if item.executable then executablePaths done ++ [item.entry.name]
      else executablePaths done), ?_, hnext, ?_⟩
    · rw [extractItem, hnormal]
      simp only [Except.mapError, ok_bind, rejectIf, if_neg hname, if_neg hbreak, hmap, orError, hfile,
        hdirs, hnew]
      rfl
    · by_cases hexec : item.executable = true
      · simp [hfile, hexec]
      · simp [hexec]
  · have hdirectory : item.entry.kind = .directory := by
      by_contra hother
      exact hkind ⟨hfile, hother⟩
    obtain ⟨tree', hcreate, hnext⟩ := h.holds_directory hl hholds hdirectory
    refine ⟨(tree', executablePaths done), ?_, hnext, ?_⟩
    · rw [extractItem, hnormal]
      simp only [Except.mapError, ok_bind, rejectIf, if_neg hname, if_neg hbreak, hmap, orError, hdirectory,
        hcreate]
      rfl
    · rw [if_neg fun hboth => hfile hboth.1, List.append_nil]

end Step

/-- **All entries**, none of which is refused. -/
theorem Agreeable.foldlM_extractItem {rule : CaseRule} {items : List ArchiveItem} (h : Agreeable rule items) :
    ∃ tree, items.foldlM (extractItem rule) ([], []) = .ok (tree, executablePaths items) ∧ Holds items tree := by
  obtain ⟨⟨tree, paths⟩, hrun, hholds, hpaths⟩ := Loop.foldlM_succeeds (f := extractItem rule) (l := items)
    (I := fun done state => Holds done state.1 ∧ state.2 = executablePaths done)
    (fun done item rest state hl hstate => by
      obtain ⟨tree, paths⟩ := state
      obtain ⟨hholds, rfl⟩ := hstate
      exact h.extractItem_holds hl hholds)
    (s := ([], [])) ⟨holds_nil, rfl⟩
  exact ⟨tree, by rw [hrun, ← hpaths], hholds⟩

/-- An entry that is extracted was not refused. -/
theorem not_refused_of_extractItem {rule : CaseRule} {state state' : DirEntries × List String}
    {item : ArchiveItem} (h : extractItem rule state item = .ok state') : ¬ item.Refused := by
  simp only [extractItem, bind_eq_ok, mapError_eq_ok, rejectIf_eq_ok, orError_eq_ok] at h
  obtain ⟨normalized, hnormal, _, hname, _, hbreak, _, _, h⟩ := h
  obtain rfl := ArchiveEntry.name_eq hnormal
  rintro (hrefused | hrefused | ⟨hfile, hdirectory⟩)
  · exact hname hrefused
  · exact hbreak hrefused
  · cases hkind : item.entry.kind with
    | file => exact hfile hkind
    | directory => exact hdirectory hkind
    | symlink => simp [hkind] at h
    | hardlink => simp [hkind] at h
    | other => simp [hkind] at h

theorem not_refused_of_foldlM {rule : CaseRule} {items : List ArchiveItem} {state : DirEntries × List String}
    (h : items.foldlM (extractItem rule) ([], []) = .ok state) : ∀ i ∈ items, ¬ i.Refused :=
  Loop.foldlM_inv_done (I := fun done (_ : DirEntries × List String) => ∀ i ∈ done, ¬ i.Refused)
    (fun done item state state' hdone hstep i hi => by
      rcases List.mem_append.mp hi with hi | hi
      · exact hdone i hi
      · rw [List.mem_singleton.mp hi]
        exact not_refused_of_extractItem hstep) (by simp) h

/-! ### Validation and the manifest -/

/-- What the first pass accepts. -/
theorem validateArchive_iff {items : List ArchiveItem} {limits : ValidationLimits} :
    (∃ v, validateArchive items limits = .ok v) ↔
      Admitted limits (items.map ArchiveItem.entry) ∧ ∀ i ∈ items, i.entry.kind ≠ .symlink := by
  constructor
  · rintro ⟨v, hv⟩
    have htracks := Loop.foldlM_inv_done
      (I := fun done (v : EntryValidator) =>
        v.Tracks limits (done.map ArchiveItem.entry) ∧ ∀ i ∈ done, i.entry.kind ≠ .symlink)
      (fun done item v v' hdone hstep => by
        simp only [bind_eq_ok, mapError_eq_ok, rejectIf_eq_ok, pure_eq_ok] at hstep
        obtain ⟨_, hpush, _, hlink, rfl⟩ := hstep
        rw [List.map_append]
        refine ⟨hdone.1.push hpush, fun i hi => ?_⟩
        rcases List.mem_append.mp hi with hi | hi
        · exact hdone.2 i hi
        · rw [List.mem_singleton.mp hi]
          exact hlink) ⟨EntryValidator.tracks_new limits, by simp⟩ hv
    exact ⟨htracks.1.admitted, htracks.2⟩
  · rintro ⟨hadmitted, hlinks⟩
    obtain ⟨v, hv, _⟩ := Loop.foldlM_succeeds (ε := ExtractError) (l := items)
      (f := fun (v : EntryValidator) (item : ArchiveItem) => do
        let v ← (v.push item.entry).mapError .invalid
        rejectIf (item.entry.kind = .symlink) (.invalid (.specialFile item.entry.path))
        return v)
      (I := fun done (v : EntryValidator) => v.Tracks limits (done.map ArchiveItem.entry))
      (fun done item rest v hl htracks => by
        have hnext := hadmitted
        rw [← hl, List.map_append, List.map_cons, ← List.singleton_append, ← List.append_assoc] at hnext
        obtain ⟨v', hpush⟩ := htracks.push_of_admitted hnext.of_append
        refine ⟨v', ?_, by rw [List.map_append]; exact htracks.push hpush⟩
        simp only [bind_eq_ok, mapError_eq_ok, rejectIf_eq_ok, pure_eq_ok]
        exact ⟨v', hpush, (), hlinks item (by rw [← hl]; simp), rfl⟩)
      (EntryValidator.tracks_new limits)
    exact ⟨v, hv⟩

/-- An entry that is shown is there under the name. -/
theorem exists_entry_of_shownAt {tree : DirEntries} {n : FileName} (h : shownAt tree [n] ≠ none) :
    ∃ e ∈ tree, e.1 = n := by
  rw [shownAt_cons] at h
  cases hfind : DirEntries.find tree n.bytes with
  | none =>
    rw [hfind] at h
    exact absurd rfl h
  | some node =>
    obtain ⟨e, he, _⟩ := Option.map_eq_some_iff.mp hfind
    have hfound := List.find?_some (p := fun e : FileName × FileNode => e.1.bytes == n.bytes) he
    exact ⟨e, List.mem_of_find?_eq_some he, FileName.bytes_injective (eq_of_beq hfound)⟩

/-- The manifest is not written where its name is taken. -/
theorem writeExecutableManifest_taken {rule : CaseRule} {tree : DirEntries} {n : FileName}
    (hshown : shownAt tree [n] ≠ none) (hsame : rule.same n manifestName = true) (paths : List String) :
    writeExecutableManifest rule tree paths = .error (.io .alreadyExists) := by
  obtain ⟨e, he, rfl⟩ := exists_entry_of_shownAt hshown
  rw [writeExecutableManifest, createNew]
  exact updateEntry_error (fun _ => rfl) he hsame

theorem Holds.shown_of_le {items : List ArchiveItem} {tree : DirEntries} (h : Holds items tree)
    (htaken : ∀ i ∈ items, ¬ i.Refused) {i : ArchiveItem} (hi : i ∈ items) {p : List FileName}
    (hp : p <+: i.entry.target) : shownAt tree p =
      some (some (if p = i.entry.target ∧ i.entry.kind = .file then .file i.executable i.contents
        else .directory)) := by
  by_cases hfile : p = i.entry.target ∧ i.entry.kind = .file
  · rw [if_pos hfile, hfile.1]
    exact h.file i hi hfile.2
  · rw [if_neg hfile]
    refine h.directory i hi p hp ?_
    by_contra hdir
    rw [not_or, not_not] at hdir
    exact htaken i hi (Or.inr (Or.inr ⟨fun hkind => hfile ⟨hdir.1, hkind⟩, hdir.2⟩))

/-- What is shown is told by the entries, whatever their order. -/
theorem Holds.determined {items items' : List ArchiveItem} {tree tree' : DirEntries} (h : Holds items tree)
    (h' : Holds items' tree') (htaken : ∀ i ∈ items, ¬ i.Refused) (hmem : ∀ i, i ∈ items ↔ i ∈ items')
    (p : List FileName) : shownAt tree p = shownAt tree' p := by
  by_cases hp : ∃ i ∈ items, p <+: i.entry.target
  · obtain ⟨i, hi, hpre⟩ := hp
    have htaken' : ∀ i ∈ items', ¬ i.Refused := fun i hi => htaken i ((hmem i).mpr hi)
    rw [h.shown_of_le htaken hi hpre, h'.shown_of_le htaken' ((hmem i).mp hi) hpre]
  · by_cases hnil : p = []
    · rw [hnil, shownAt_nil, shownAt_nil]
    · have hnone : shownAt tree p = none := by
        by_contra hsome
        exact hp (h.only p hnil hsome)
      have hnone' : shownAt tree' p = none := by
        by_contra hsome
        obtain ⟨i, hi, hpre⟩ := h'.only p hnil hsome
        exact hp ⟨i, (hmem i).mpr hi, hpre⟩
      rw [hnone, hnone']

theorem insertionSort_eq_of_perm_string {l l' : List String} (h : l.Perm l') :
    l.insertionSort (· ≤ ·) = l'.insertionSort (· ≤ ·) := by
  have hp : (l.insertionSort (· ≤ ·)).Perm (l'.insertionSort (· ≤ ·)) :=
    ((List.perm_insertionSort _ l).trans h).trans (List.perm_insertionSort _ l').symm
  exact hp.eq_of_pairwise (fun x y _ _ hxy hyx => le_antisymm hxy hyx) (List.pairwise_insertionSort _ l)
    (List.pairwise_insertionSort _ l')

/-- What is on the disk in the end. -/
def Left (items : List ArchiveItem) (tree : DirEntries) : Prop :=
  ∃ extracted, Holds items extracted ∧ ∀ p, shownAt tree p = if p = [manifestName]
    then some (some (.file false (manifestContents ((executablePaths items).insertionSort (· ≤ ·)))))
    else shownAt extracted p

/-- What keeps an archive from being extracted. -/
def Blocked (items : List ArchiveItem) : Prop :=
  (∃ i ∈ items, i.Refused) ∨ ∃ i ∈ items, [manifestName] <+: i.entry.target

section Outcome

variable {rule : CaseRule} {limits : ValidationLimits} {items : List ArchiveItem}

theorem extractInner_eq_ok {tree : DirEntries} : extractInner rule limits items = .ok tree ↔
    (∃ v, validateArchive items limits = .ok v) ∧ ∃ extracted paths,
      items.foldlM (extractItem rule) ([], []) = .ok (extracted, paths) ∧
      writeExecutableManifest rule extracted (paths.insertionSort (· ≤ ·)) = .ok tree := by
  simp only [extractInner, extractEntries, bind_eq_ok, pure_eq_ok]
  constructor
  · rintro ⟨v, hv, _, ⟨⟨extracted, paths⟩, hrun, rfl⟩, hwrite⟩
    exact ⟨⟨v, hv⟩, extracted, paths, hrun, hwrite⟩
  · rintro ⟨⟨v, hv⟩, extracted, paths, hrun, hwrite⟩
    exact ⟨v, hv, _, ⟨(extracted, paths), hrun, rfl⟩, hwrite⟩

/-- A refused entry stops extraction, in whatever order and on any system. -/
theorem extractInner_of_refused {i : ArchiveItem} (hi : i ∈ items) (hrefused : i.Refused) (tree : DirEntries) :
    extractInner rule limits items ≠ .ok tree := by
  intro hok
  obtain ⟨_, _, _, hrun, _⟩ := extractInner_eq_ok.mp hok
  exact not_refused_of_foldlM hrun i hi hrefused

/-- An archive is agreeable on a system that keeps its paths apart. -/
theorem agreeable_of (rule : CaseRule) (hadmitted : Admitted limits (items.map ArchiveItem.entry))
    (hpaths : PathsAgree (items.map ArchiveItem.entry)) (htaken : ∀ i ∈ items, ¬ i.Refused) :
    Agreeable rule items := by
  have hnormal : ∀ e ∈ items.map ArchiveItem.entry, normalizedPath e.path = .ok e.name :=
    fun e he => (hadmitted.entry e he).normalized
  exact ⟨hnormal, hpaths, hadmitted.names, separates_reached hnormal rule hpaths, htaken⟩

/-- Extraction up to the manifest. -/
theorem extractInner_start (rule : CaseRule) (hadmitted : Admitted limits (items.map ArchiveItem.entry))
    (hpaths : PathsAgree (items.map ArchiveItem.entry)) (htaken : ∀ i ∈ items, ¬ i.Refused) :
    ∃ extracted, Holds items extracted ∧ extractInner rule limits items =
      writeExecutableManifest rule extracted ((executablePaths items).insertionSort (· ≤ ·)) := by
  obtain ⟨extracted, hrun, hholds⟩ :=
    (agreeable_of rule hadmitted hpaths htaken).foldlM_extractItem
  have hlinks : ∀ i ∈ items, i.entry.kind ≠ .symlink := fun i hi hlink =>
    htaken i hi (Or.inr (Or.inr (by rw [hlink]; simp)))
  obtain ⟨v, hv⟩ := validateArchive_iff.mpr ⟨hadmitted, hlinks⟩
  refine ⟨extracted, hholds, ?_⟩
  rw [extractInner, extractEntries, hv, hrun]
  rfl

/-- **When extraction goes through, and what it leaves.** -/
theorem extractInner_cases (rule : CaseRule) (hadmitted : Admitted limits (items.map ArchiveItem.entry))
    (hpaths : PathsAgree (items.map ArchiveItem.entry))
    (hmanifest : rule = .insensitive → ManifestSpelling (items.map ArchiveItem.entry)) :
    (Blocked items ∧ ∀ tree, extractInner rule limits items ≠ .ok tree) ∨
      (¬ Blocked items ∧ ∃ tree, extractInner rule limits items = .ok tree ∧ Left items tree) := by
  by_cases hrefused : ∃ i ∈ items, i.Refused
  · obtain ⟨i, hi, hrefused⟩ := hrefused
    exact Or.inl ⟨Or.inl ⟨i, hi, hrefused⟩, extractInner_of_refused hi hrefused⟩
  have htaken : ∀ i ∈ items, ¬ i.Refused := fun i hi h => hrefused ⟨i, hi, h⟩
  obtain ⟨extracted, hholds, hinner⟩ := extractInner_start rule hadmitted hpaths htaken
  by_cases hname : ∃ i ∈ items, [manifestName] <+: i.entry.target
  · obtain ⟨i, hi, hpre⟩ := hname
    refine Or.inl ⟨Or.inr ⟨i, hi, hpre⟩, fun tree hok => ?_⟩
    rw [hinner, writeExecutableManifest_taken (n := manifestName) ?_ (CaseRule.same_self _ _)] at hok
    · cases hok
    · rw [hholds.shown_of_le htaken hi hpre]
      simp
  · refine Or.inr ⟨not_or.mpr ⟨hrefused, hname⟩, ?_⟩
    have hnormal : ∀ e ∈ items.map ArchiveItem.entry, normalizedPath e.path = .ok e.name :=
      fun e he => (hadmitted.entry e he).normalized
    have hfree : shownAt extracted [manifestName] = none := by
      by_contra hsome
      exact hname (hholds.only [manifestName] (by simp) hsome)
    obtain ⟨tree, hwrite, hshown⟩ := shownAt_createNew [] manifestName 0o644
      (manifestContents ((executablePaths items).insertionSort (· ≤ ·)))
      (separates_named hnormal rule hpaths hmanifest)
      (fun p hp hsome => by
        obtain ⟨i, hi, hpre⟩ := hholds.only p hp hsome
        exact Or.inr ⟨hp, i.entry, List.mem_map_of_mem hi, hpre⟩)
      (fun q hq hpre => by
        rw [List.nil_append] at hpre
        obtain ⟨n, q, rfl⟩ := List.exists_cons_of_ne_nil hq
        obtain ⟨rfl, hrest⟩ := List.cons_prefix_cons.mp hpre
        obtain rfl := List.prefix_nil.mp hrest
        exact Or.inl rfl)
      (fun q hpre => by rw [List.prefix_nil.mp hpre, shownAt_nil]) hfree
    exact ⟨tree, by rw [hinner]; exact hwrite, extracted, hholds, hshown⟩

end Outcome

/-! ### One tree -/

/-- Both fail, or both leave trees that show the same and have the same digest. -/
def SameOutcome : Except ExtractError DirEntries → Except ExtractError DirEntries → Prop
  | .ok tree, .ok tree' => (∀ p, shownAt tree p = shownAt tree' p) ∧
    ∀ t t' : FileTree, t.entries = tree → t'.entries = tree' → ∀ sizes bytes,
      treeBytes sizes t none = .ok bytes ↔ treeBytes sizes t' none = .ok bytes
  | .error _, .error _ => True
  | _, _ => False

/-- An archive with one tree: its paths are told apart up to ASCII case, no file
is above another entry, and extraction ends in the same way on every file system
and in every order of the entries. -/
structure OneTree (limits : ValidationLimits) (entries : List ArchiveEntry) : Prop where
  paths : PathsAgree entries
  outcome : ∀ items : List ArchiveItem, items.map ArchiveItem.entry = entries →
    ∀ items', items.Perm items' → ∀ rule,
      SameOutcome (extractInner .sensitive limits items) (extractInner rule limits items')

/-- The implied directories agree, and so does the manifest's name, unless the
archive is refused for a link or for naming the manifest. -/
structure ImpliedNamesAgree (entries : List ArchiveEntry) : Prop where
  parents : ParentsAgree entries
  manifest : (∃ e ∈ entries, e.kind = .symlink ∨ e.name = executableManifest) ∨ ManifestSpelling entries

theorem PathsAgree.perm {entries entries' : List ArchiveEntry} (h : PathsAgree entries)
    (hperm : entries.Perm entries') : PathsAgree entries' := by
  have hmem : ∀ p, p ∈ extractedPaths entries' → p ∈ extractedPaths entries := fun p hp => by
    obtain ⟨hne, e, he, hpre⟩ := mem_extractedPaths.mp hp
    exact mem_extractedPaths.mpr ⟨hne, e, hperm.mem_iff.mpr he, hpre⟩
  exact ⟨fun p hp q hq => h.distinct p (hmem p hp) q (hmem q hq), fun e he hfile f hf =>
    h.files e (hperm.mem_iff.mpr he) hfile f (hperm.mem_iff.mpr hf)⟩

section Left

variable {items items' : List ArchiveItem} {tree tree' : DirEntries}

theorem Left.shownAt_eq (h : Left items tree) (h' : Left items' tree') (hperm : items.Perm items')
    (htaken : ∀ i ∈ items, ¬ i.Refused) (p : List FileName) : shownAt tree p = shownAt tree' p := by
  obtain ⟨extracted, hholds, hshown⟩ := h
  obtain ⟨extracted', hholds', hshown'⟩ := h'
  have hpaths : (executablePaths items).Perm (executablePaths items') := (hperm.filter _).map _
  rw [hshown, hshown', insertionSort_eq_of_perm_string hpaths,
    hholds.determined hholds' htaken (fun _ => hperm.mem_iff) p]

theorem Left.plain (h : Left items tree) (htaken : ∀ i ∈ items, ¬ i.Refused) : Plain tree := by
  obtain ⟨extracted, hholds, hshown⟩ := h
  intro p hnone
  rw [hshown] at hnone
  by_cases hmanifest : p = [manifestName]
  · rw [if_pos hmanifest] at hnone
    cases hnone
  rw [if_neg hmanifest] at hnone
  by_cases hnil : p = []
  · rw [hnil, shownAt_nil] at hnone
    cases hnone
  · obtain ⟨i, hi, hpre⟩ := hholds.only p hnil (by rw [hnone]; simp)
    rw [hholds.shown_of_le htaken hi hpre] at hnone
    cases hnone

/-- Names in the tree are those of entries and the manifest. -/
theorem Left.namesIn (h : Left items tree)
    (hnormal : ∀ i ∈ items, normalizedPath i.entry.path = .ok i.entry.name) {t : FileTree}
    (ht : t.entries = tree) : t.NamesIn CleanName := by
  obtain ⟨extracted, hholds, hshown⟩ := h
  intro p node hnode n hn
  have hne : p ≠ [] := by
    rintro rfl
    cases hn
  have hsome : shownAt tree p ≠ none := by
    rw [← ht, shownAt_eq_some.mpr ⟨node, hnode, rfl⟩]
    simp
  rw [hshown] at hsome
  by_cases hmanifest : p = [manifestName]
  · rw [hmanifest, List.mem_singleton] at hn
    exact ⟨executableManifest.toList, by rw [hn]; rfl, by decide⟩
  · rw [if_neg hmanifest] at hsome
    obtain ⟨i, hi, hpre⟩ := hholds.only p hne hsome
    have hbytes : n.bytes ∈ i.entry.parts.map utf8Bytes := by
      rw [← ArchiveEntry.map_bytes_target (hnormal i hi)]
      exact List.mem_map_of_mem (hpre.subset hn)
    obtain ⟨part, hpart, hbytes⟩ := List.mem_map.mp hbytes
    exact ⟨part, hbytes.symm, fun hback =>
      (normalForm_of_normalizedPath (hnormal i hi)).not_mem_backslash (mem_of_mem_splitOn hpart hback)⟩

/-- Trees left by the same entries, whatever their order. -/
theorem Left.sameOutcome (h : Left items tree) (h' : Left items' tree') (hperm : items.Perm items')
    (htaken : ∀ i ∈ items, ¬ i.Refused)
    (hnormal : ∀ i ∈ items, normalizedPath i.entry.path = .ok i.entry.name) :
    SameOutcome (.ok tree) (.ok tree') := by
  have htaken' : ∀ i ∈ items', ¬ i.Refused := fun i hi => htaken i (hperm.mem_iff.mpr hi)
  have hnormal' : ∀ i ∈ items', normalizedPath i.entry.path = .ok i.entry.name :=
    fun i hi => hnormal i (hperm.mem_iff.mpr hi)
  have hshown := h.shownAt_eq h' hperm htaken
  refine ⟨hshown, fun t t' ht ht' sizes bytes => ⟨fun hbytes => ?_, fun hbytes => ?_⟩⟩
  · refine treeBytes_of_shownAt (fun p => ?_) (ht ▸ h.plain htaken) (h.namesIn hnormal ht) hbytes
    rw [ht, ht', hshown p]
  · refine treeBytes_of_shownAt (fun p => ?_) (ht' ▸ h'.plain htaken') (h'.namesIn hnormal' ht') hbytes
    rw [ht, ht', hshown p]

end Left

theorem Blocked.perm {items items' : List ArchiveItem} (h : Blocked items) (hperm : items.Perm items') :
    Blocked items' := by
  rcases h with ⟨i, hi, h⟩ | ⟨i, hi, h⟩
  · exact Or.inl ⟨i, hperm.mem_iff.mp hi, h⟩
  · exact Or.inr ⟨i, hperm.mem_iff.mp hi, h⟩

theorem sameOutcome_of_not_ok {x y : Except ExtractError DirEntries} (hx : ∀ tree, x ≠ .ok tree)
    (hy : ∀ tree, y ≠ .ok tree) : SameOutcome x y := by
  cases x with
  | ok tree => exact absurd rfl (hx tree)
  | error e =>
    cases y with
    | ok tree => exact absurd rfl (hy tree)
    | error e' => trivial

/-- Extraction does not depend on the order or the file system. -/
theorem sameOutcome_of_agree {limits : ValidationLimits} {items items' : List ArchiveItem} (rule : CaseRule)
    (hadmitted : Admitted limits (items.map ArchiveItem.entry))
    (hagree : ImpliedNamesAgree (items.map ArchiveItem.entry)) (hperm : items.Perm items') :
    SameOutcome (extractInner .sensitive limits items) (extractInner rule limits items') := by
  rcases hagree.manifest with ⟨e, he, hrefused⟩ | hspelling
  · -- a link or the manifest's name stops both
    obtain ⟨i, hi, rfl⟩ := List.mem_map.mp he
    have hrefused : i.Refused := by
      rcases hrefused with hlink | hname
      · exact Or.inr (Or.inr (by rw [hlink]; simp))
      · exact Or.inl hname
    exact sameOutcome_of_not_ok (extractInner_of_refused hi hrefused)
      (extractInner_of_refused (hperm.mem_iff.mp hi) hrefused)
  · have hpaths := hadmitted.pathsAgree_iff.mpr hagree.parents
    have hentries := hperm.map ArchiveItem.entry
    have hspelling' : ManifestSpelling (items'.map ArchiveItem.entry) :=
      fun e he => hspelling e (hentries.mem_iff.mpr he)
    rcases extractInner_cases .sensitive hadmitted hpaths (fun _ => hspelling) with
      ⟨hblocked, hfail⟩ | ⟨hfree, tree, hok, hleft⟩
    · rcases extractInner_cases rule (hadmitted.perm hentries) (hpaths.perm hentries)
        (fun _ => hspelling') with ⟨_, hfail'⟩ | ⟨hfree', _⟩
      · exact sameOutcome_of_not_ok hfail hfail'
      · exact absurd (hblocked.perm hperm) hfree'
    · rcases extractInner_cases rule (hadmitted.perm hentries) (hpaths.perm hentries)
        (fun _ => hspelling') with ⟨hblocked', _⟩ | ⟨_, tree', hok', hleft'⟩
      · exact absurd (hblocked'.perm hperm.symm) hfree
      · rw [hok, hok']
        exact hleft.sameOutcome hleft' hperm (fun i hi hrefused => hfree (Or.inl ⟨i, hi, hrefused⟩))
          fun i hi => (hadmitted.entry _ (List.mem_map_of_mem hi)).normalized

/-- Payloads of nothing but zeros, for whatever entries. -/
def blankItem (e : ArchiveEntry) : ArchiveItem := ⟨e, 0, List.replicate e.size.val 0, List.length_replicate⟩

/-- Two spellings of the manifest's name are one on some systems. -/
theorem manifest_of_outcome {limits : ValidationLimits} {entries : List ArchiveEntry}
    (hadmitted : Admitted limits entries) (h : OneTree limits entries) :
    (∃ e ∈ entries, e.kind = .symlink ∨ e.name = executableManifest) ∨ ManifestSpelling entries := by
  by_contra hnot
  rw [not_or] at hnot
  obtain ⟨hplain, hspelling⟩ := hnot
  have hitems : (entries.map blankItem).map ArchiveItem.entry = entries := by
    rw [List.map_map]
    exact List.map_id entries
  have htaken : ∀ i ∈ entries.map blankItem, ¬ i.Refused := by
    intro i hi hrefused
    obtain ⟨e, he, rfl⟩ := List.mem_map.mp hi
    rcases hrefused with hname | ⟨hexec, _⟩ | ⟨hfile, hdirectory⟩
    · exact hplain ⟨e, he, Or.inr hname⟩
    · have hmode : (blankItem e).executable = false := by simp [blankItem, ArchiveItem.executable]
      rw [hmode] at hexec
      cases hexec
    · have hregular := (hadmitted.entry e he).regular
      refine hplain ⟨e, he, Or.inl ?_⟩
      change e.kind ≠ .file at hfile
      change e.kind ≠ .directory at hdirectory
      cases hkind : e.kind with
      | symlink => rfl
      | file => exact absurd hkind hfile
      | directory => exact absurd hkind hdirectory
      | hardlink => exact absurd hkind hregular.1
      | other => exact absurd hkind hregular.2
  -- another spelling of the manifest's name, in some entry
  unfold ManifestSpelling at hspelling
  push Not at hspelling
  obtain ⟨e, he, part, hhead, hlower, hother⟩ := hspelling
  have hnormal : ∀ e ∈ entries, normalizedPath e.path = .ok e.name := fun e he => (hadmitted.entry e he).normalized
  have hpart : part ∈ e.parts := List.mem_of_mem_head? hhead
  obtain ⟨name, hname, hbytes⟩ := ArchiveEntry.part_isFileName (hnormal e he) hpart
  have hpre : [part] <+: e.parts := by
    cases hparts : e.parts with
    | nil =>
      rw [hparts] at hpart
      cases hpart
    | cons first rest =>
      rw [hparts] at hhead
      rw [← Option.some_inj.mp hhead]
      exact ⟨rest, rfl⟩
  have htarget : [name] <+: e.target := by
    have hmap := hpre.filterMap fileName
    rwa [List.filterMap_cons_some hname, List.filterMap_nil] at hmap
  have hadmitted' : Admitted limits ((entries.map blankItem).map ArchiveItem.entry) := by rwa [hitems]
  have hpaths' : PathsAgree ((entries.map blankItem).map ArchiveItem.entry) := by
    rw [hitems]
    exact h.paths
  have hsame := h.outcome _ hitems _ (List.Perm.refl _) .insensitive
  have hmem : blankItem e ∈ entries.map blankItem := List.mem_map_of_mem he
  -- where case counts, the manifest is written beside it
  have hok : ∃ tree, extractInner .sensitive limits (entries.map blankItem) = .ok tree := by
    rcases extractInner_cases .sensitive hadmitted' hpaths' (fun h => by cases h) with
      ⟨hblocked, _⟩ | ⟨_, tree, hok, _⟩
    · rcases hblocked with ⟨i, hi, hrefused⟩ | ⟨i, hi, hmanifest⟩
      · exact absurd hrefused (htaken i hi)
      · obtain ⟨f, hf, rfl⟩ := List.mem_map.mp hi
        obtain ⟨t, ht, htbytes⟩ := Reached.exists_text hnormal ⟨by simp, f, hf, hmanifest⟩
        have htext : t = [executableManifest.toList] := by
          rw [← map_utf8Bytes_inj, ← htbytes]
          rfl
        subst htext
        have hfold : foldParts [part] = foldParts [executableManifest.toList] := by
          rw [foldParts, foldParts, List.map_singleton, List.map_singleton, hlower,
            toAsciiLower_executableManifest]
        have heq := h.paths.distinct [part] (mem_extractedPaths.mpr ⟨by simp, e, he, hpre⟩) _ ht hfold
        exact absurd (List.singleton_inj.mp heq) hother
    · exact ⟨tree, hok⟩
  -- where it does not, the name is taken
  obtain ⟨extracted, hholds, hinner⟩ := extractInner_start .insensitive hadmitted' hpaths' htaken
  have hfail : extractInner .insensitive limits (entries.map blankItem) = .error (.io .alreadyExists) := by
    rw [hinner]
    refine writeExecutableManifest_taken (n := name) ?_ ?_ _
    · rw [hholds.shown_of_le htaken hmem htarget]
      simp
    · refine beq_iff_eq.mpr ?_
      rw [FileName.fold, hbytes, ← utf8Bytes_toAsciiLower, hlower, FileName.fold, manifestName,
        ← utf8Bytes_toAsciiLower, toAsciiLower_executableManifest]
  obtain ⟨tree, hok⟩ := hok
  rw [hok, hfail] at hsame
  exact hsame

/-- **Which accepted archives have one tree**: those whose implied directories
agree with everything else that is extracted, the manifest included. -/
theorem oneTree_iff {entries : List ArchiveEntry} {limits : ValidationLimits} {v : EntryValidator}
    (h : validateEntries entries limits = .ok v) : OneTree limits entries ↔ ImpliedNamesAgree entries := by
  have hadmitted := validateEntries_iff.mp ⟨v, h⟩
  constructor
  · intro hone
    exact ⟨hadmitted.pathsAgree_iff.mp hone.paths, manifest_of_outcome hadmitted hone⟩
  · intro hagree
    refine ⟨hadmitted.pathsAgree_iff.mpr hagree.parents, fun items hitems items' hperm rule => ?_⟩
    subst hitems
    exact sameOutcome_of_agree rule hadmitted hagree hperm

def plainFile (path : String) : ArchiveEntry := ⟨path, .file, 0, none⟩

def defaultLimits : ValidationLimits where
  maxEntries := 100000
  maxEntrySize := 512 * 1024 * 1024
  maxTotalSize := 2 * 1024 * 1024 * 1024
  maxPathBytes := 4096

theorem oneTree_iff_ab : ∃ v, validateEntries [plainFile "a/x", plainFile "b"] defaultLimits = .ok v ∧
    (OneTree defaultLimits [plainFile "a/x", plainFile "b"] ↔
      ImpliedNamesAgree [plainFile "a/x", plainFile "b"]) :=
  ⟨_, rfl, oneTree_iff (v := _) rfl⟩

/-- Two entries imply one directory in two spellings. -/
theorem not_forall_oneTree : ¬ ∀ (entries : List ArchiveEntry) (limits : ValidationLimits) (v : EntryValidator),
    validateEntries entries limits = .ok v → OneTree limits entries := by
  intro h
  have hone := h [plainFile "A/x", plainFile "a/y"] defaultLimits _ rfl
  have heq := hone.paths.distinct [['A']] (by decide) [['a']] (by decide) (by decide)
  exact absurd heq (by decide)

end Tapid
