/-
Paths of archive entries.

An entry path is normalized before anything is extracted: separators of both
systems count, absolute paths and paths that climb are refused, dots disappear.
The drive test reads the beginning of the whole path only, so a drive can stand
in a later part, or come to the front when the dots before it disappear.

* `components_of_relative` — `normalizedPath` reads components as both systems do;
* `NormalForm` — what is known of a normalized path;
* `safeEntryPath_iff` — when a normalized path is safe to join.
-/
import Tapid.LexicalPath
import Tapid.TreeDigest

namespace Tapid

open Text Fallible

/-- Both separators as slashes. -/
def slashed (value : List Char) : List Char := value.map fun c => if c = '\\' then '/' else c

/-- Where `extract_entries` puts an entry: the parts are collected into a path,
which is joined to the destination. -/
def entryTarget (rules : LexicalPath.Rules) (destination : List LexicalPath.Component) (normalized : String) :
    List LexicalPath.Component :=
  LexicalPath.push destination (LexicalPath.pushAll rules [] (normalized.toList.splitOn '/'))

/-- A path that is safe to join to any directory, under the rules of both
systems. -/
structure SafeEntryPath (n : String) : Prop where
  nonempty : n ≠ ""
  relative : ∀ rules, ∃ names : List (List Char),
    LexicalPath.components rules n.toList = names.map .normal
  parts : ∀ part ∈ n.toList.splitOn '/', part ≠ [] ∧ part ≠ ['.'] ∧ part ≠ ['.', '.']
  noDrive : ∀ part ∈ n.toList.splitOn '/', ∀ drive,
    LexicalPath.Component.volume drive ∉ LexicalPath.components .windows part
  fixed : normalizedPath n = .ok n
  below : ∀ rules destination,
    LexicalPath.Below destination (LexicalPath.pushAll rules destination (n.toList.splitOn '/'))
  target : ∀ rules destination, LexicalPath.Below destination (entryTarget rules destination n)

/-! ### Components -/

theorem not_mem_slashed (value : List Char) : '\\' ∉ slashed value := by
  intro h
  obtain ⟨c, _, hc⟩ := List.mem_map.mp h
  split_ifs at hc with heq
  · exact absurd hc (by decide)
  · exact heq hc

theorem slashed_of_not_mem {s : List Char} (h : '\\' ∉ s) : slashed s = s := by
  conv_rhs => rw [← List.map_id s]
  refine List.map_congr_left fun c hc => if_neg ?_
  rintro rfl
  exact h hc

/-- The drive test of the code is that of Windows. -/
theorem splitVolume_of_hasDrivePrefix {s : List Char} (h : hasDrivePrefix s = false) :
    LexicalPath.Rules.windows.splitVolume s = ([], s) := by
  unfold LexicalPath.Rules.splitVolume
  split
  · next d rest =>
    rw [hasDrivePrefix] at h
    rw [if_neg (by rw [h]; exact Bool.false_ne_true)]
  · rfl

theorem volume_mem_of_hasDrivePrefix {s : List Char} (h : hasDrivePrefix s = true) :
    ∃ drive, LexicalPath.Component.volume drive ∈ LexicalPath.components .windows s := by
  unfold hasDrivePrefix at h
  split at h
  · next d rest =>
    refine ⟨[d, ':'], ?_⟩
    simp [LexicalPath.components, LexicalPath.Rules.splitVolume, h]
  · cases h

theorem isSeparator_of_ne {rules : LexicalPath.Rules} {c : Char} (h : c ≠ '\\') :
    rules.isSeparator c = (c == '/') := by
  have hback : (c == '\\') = false := beq_false_of_ne h
  cases rules with
  | unix => rfl
  | windows => rw [LexicalPath.Rules.isSeparator, hback, Bool.or_false]

/-- Without backslashes both systems split at slashes. -/
theorem splitOnP_isSeparator {rules : LexicalPath.Rules} {s : List Char} (h : '\\' ∉ s) :
    s.splitOnP rules.isSeparator = s.splitOn '/' := by
  induction s with
  | nil => rfl
  | cons c s ih =>
    rw [List.mem_cons, not_or] at h
    rw [List.splitOn, List.splitOnP_cons_eq_if_modifyHead, List.splitOnP_cons_eq_if_modifyHead, ih h.2,
      isSeparator_of_ne (Ne.symm h.1), List.splitOn]

/-- **What is left after the tests has the same components on both systems**, a
leading dot aside, and they are what `pathComponents` keeps. -/
theorem components_of_relative (rules : LexicalPath.Rules) {s : List Char} (hback : '\\' ∉ s)
    (hroot : s.head? ≠ some '/') (hdrive : hasDrivePrefix s = false) :
    (LexicalPath.components rules s).filter (· ≠ .curDir) =
      (pathComponents s).map fun part => if part = ['.', '.'] then .parentDir else .normal part := by
  have hvolume : rules.splitVolume s = ([], s) := by
    cases rules with
    | unix => exact LexicalPath.splitVolume_unix s
    | windows => exact splitVolume_of_hasDrivePrefix hdrive
  have hhead : ¬ s.head?.any rules.isSeparator = true := by
    intro hany
    obtain ⟨c, hc, hsep⟩ := (Option.any_eq_true _ _).mp hany
    have hmem : c ∈ s := List.mem_of_mem_head? hc
    rw [isSeparator_of_ne (fun heq => hback (heq ▸ hmem))] at hsep
    exact hroot (by rw [hc, eq_of_beq hsep])
  have hparts : ∀ parts : List (List Char),
      (parts.filterMap LexicalPath.partComponent).filter (· ≠ .curDir) =
        (parts.filter fun part => !part.isEmpty && part != ['.']).map fun part =>
          if part = ['.', '.'] then .parentDir else .normal part := by
    intro parts
    induction parts with
    | nil => rfl
    | cons part parts ih =>
      by_cases hdrop : part = [] ∨ part = ['.']
      · rw [List.filterMap_cons_none (by simp [LexicalPath.partComponent, hdrop]), ih,
          List.filter_cons_of_neg (by rcases hdrop with rfl | rfl <;> simp)]
      · have hkeep := hdrop
        rw [not_or] at hkeep
        have hcomponent : LexicalPath.partComponent part =
            some (if part = ['.', '.'] then .parentDir else .normal part) := by
          rw [LexicalPath.partComponent, if_neg hdrop]
          split_ifs <;> rfl
        rw [List.filterMap_cons_some hcomponent,
          List.filter_cons_of_pos (by split_ifs <;> simp), ih,
          List.filter_cons_of_pos (by simp [hkeep.1, hkeep.2]), List.map_cons]
  rw [LexicalPath.components, hvolume]
  simp only [hhead, Bool.false_eq_true, if_false, splitOnP_isSeparator hback, List.nil_append,
    List.filter_append, hparts, pathComponents]
  have hstart : ((if (s.splitOn '/').head? = some ['.'] then [LexicalPath.Component.curDir] else []).filter
      (· ≠ .curDir)) = [] := by
    split_ifs <;> simp
  rw [hstart, List.nil_append]

/-! ### Normalized paths -/

/-- A normalized path and the text it was made of. -/
structure NormalForm (value n : String) : Prop where
  text : n.toList = ['/'].intercalate (pathComponents (slashed value.toList))
  nonempty : pathComponents (slashed value.toList) ≠ []
  noParent : ['.', '.'] ∉ pathComponents (slashed value.toList)
  noZero : Char.ofNat 0 ∉ value.toList

theorem normalForm_of_normalizedPath {value n : String} (h : normalizedPath value = .ok n) :
    NormalForm value n := by
  simp only [normalizedPath, bind_eq_ok, rejectIf_eq_ok, pure_eq_ok] at h
  obtain ⟨_, hvalue, _, _, _, hparent, _, hnil, rfl⟩ := h
  rw [not_or] at hvalue
  exact ⟨String.toList_ofList, hnil, hparent, hvalue.2⟩

namespace NormalForm

variable {value n : String} (h : NormalForm value n)

include h

/-- The parts of a normalized path. -/
theorem splitOn_eq : n.toList.splitOn '/' = pathComponents (slashed value.toList) := by
  rw [h.text]
  exact splitOn_join (fun part hpart => not_mem_of_mem_splitOn (List.mem_of_mem_filter hpart)) h.nonempty

theorem part_mem {part : List Char} (hpart : part ∈ n.toList.splitOn '/') :
    part ∈ (slashed value.toList).splitOn '/' ∧ part ≠ [] ∧ part ≠ ['.'] ∧ part ≠ ['.', '.'] := by
  rw [h.splitOn_eq] at hpart
  obtain ⟨hmem, hkeep⟩ := List.mem_filter.mp hpart
  rw [Bool.and_eq_true] at hkeep
  refine ⟨hmem, ?_, by simpa using hkeep.2, ?_⟩
  · rintro rfl
    exact absurd hkeep.1 (by decide)
  · rintro rfl
    exact h.noParent hpart

theorem mem_slashed {c : Char} (hc : c ∈ n.toList) : c ∈ slashed value.toList ∨ c = '/' := by
  rw [h.text] at hc
  rcases mem_intercalate hc with rfl | ⟨part, hpart, hc⟩
  · exact Or.inr rfl
  · exact Or.inl (mem_of_mem_splitOn (List.mem_of_mem_filter hpart) hc)

theorem not_mem_backslash : '\\' ∉ n.toList := fun hc => by
  rcases h.mem_slashed hc with hc | hc
  · exact not_mem_slashed _ hc
  · exact absurd hc (by decide)

theorem not_mem_zero : Char.ofNat 0 ∉ n.toList := fun hc => by
  rcases h.mem_slashed hc with hc | hc
  · obtain ⟨c, hmem, heq⟩ := List.mem_map.mp hc
    split_ifs at heq
    · exact absurd heq (by decide)
    · exact h.noZero (heq ▸ hmem)
  · exact absurd hc (by decide)

/-- The first part stands at the front. -/
theorem exists_front : ∃ part rest, part ∈ n.toList.splitOn '/' ∧
    (n.toList = part ∨ n.toList = part ++ '/' :: rest) := by
  obtain ⟨part, parts, hparts⟩ := List.exists_cons_of_ne_nil h.nonempty
  have hmem : part ∈ n.toList.splitOn '/' := by
    rw [h.splitOn_eq, hparts]
    exact List.mem_cons_self
  refine ⟨part, ['/'].intercalate parts, hmem, ?_⟩
  rw [h.text, hparts]
  by_cases hnil : parts = []
  · subst hnil
    exact Or.inl (by simp [List.intercalate])
  · refine Or.inr ?_
    rw [List.intercalate_cons_of_ne_nil hnil]
    simp

theorem head_ne : n.toList.head? ≠ some '/' := by
  obtain ⟨part, rest, hmem, hfront⟩ := h.exists_front
  obtain ⟨c, cs, rfl⟩ := List.exists_cons_of_ne_nil (h.part_mem hmem).2.1
  have hc : c ≠ '/' := fun heq => not_mem_of_mem_splitOn hmem (by simp [heq])
  rcases hfront with hfront | hfront <;> rw [hfront] <;> simpa using hc

/-- A drive at the front of the path is one at the front of its first part. -/
theorem hasDrivePrefix_eq_false (hparts : ∀ part ∈ n.toList.splitOn '/', hasDrivePrefix part = false) :
    hasDrivePrefix n.toList = false := by
  obtain ⟨part, rest, hmem, hfront⟩ := h.exists_front
  have hpart := hparts part hmem
  rcases hfront with hfront | hfront <;> rw [hfront]
  · exact hpart
  · match part, (h.part_mem hmem).2.1, hpart with
    | [], hne, _ => exact absurd rfl hne
    | [d], _, _ => rfl
    | d :: c :: cs, _, hpart =>
      by_cases hc : c = ':'
      · subst hc
        exact hpart
      · simp [hasDrivePrefix, hc]

theorem pathComponents_eq : pathComponents n.toList = n.toList.splitOn '/' := by
  refine List.filter_eq_self.mpr fun part hpart => ?_
  obtain ⟨_, hne, hdot, _⟩ := h.part_mem hpart
  simp [hne, hdot]

/-- A normalized path without a drive is left as it stands. -/
theorem normalizedPath_eq (hdrive : hasDrivePrefix n.toList = false) : normalizedPath n = .ok n := by
  have hne : n.toList ≠ [] := by
    obtain ⟨part, rest, hmem, hfront⟩ := h.exists_front
    have hpart := (h.part_mem hmem).2.1
    rcases hfront with hfront | hfront <;> rw [hfront] <;> simp [hpart]
  have hmap : (n.toList.map fun c => if c = '\\' then '/' else c) = n.toList :=
    slashed_of_not_mem h.not_mem_backslash
  have hroot : ¬ (n.toList.head? = some '/' ∨ hasDrivePrefix n.toList = true) := by
    rw [not_or, hdrive]
    exact ⟨h.head_ne, Bool.false_ne_true⟩
  have hparent : ['.', '.'] ∉ n.toList.splitOn '/' := fun hmem => (h.part_mem hmem).2.2.2 rfl
  have hnil : n.toList.splitOn '/' ≠ [] := List.splitOn_ne_nil _ _
  simp only [normalizedPath, bind_eq_ok, rejectIf_eq_ok, pure_eq_ok, hmap, h.pathComponents_eq]
  refine ⟨(), not_or.mpr ⟨hne, h.not_mem_zero⟩, (), hroot, (), hparent, (), hnil, ?_⟩
  rw [List.intercalate_splitOn, String.ofList_toList]

theorem plainName (hdrive : ∀ part ∈ n.toList.splitOn '/', hasDrivePrefix part = false)
    {part : List Char} (hpart : part ∈ n.toList.splitOn '/') : LexicalPath.PlainName part where
  ne_nil := (h.part_mem hpart).2.1
  ne_dot := (h.part_mem hpart).2.2.1
  ne_dots := (h.part_mem hpart).2.2.2
  noSeparator := ⟨not_mem_of_mem_splitOn hpart, fun hc => h.not_mem_backslash (mem_of_mem_splitOn hpart hc)⟩
  noVolume := splitVolume_of_hasDrivePrefix (hdrive part hpart)

/-- Both systems read a normalized path without drives as its parts. -/
theorem components_eq (rules : LexicalPath.Rules)
    (hdrive : ∀ part ∈ n.toList.splitOn '/', hasDrivePrefix part = false) :
    LexicalPath.components rules n.toList = (n.toList.splitOn '/').map .normal := by
  have hfiltered := components_of_relative rules h.not_mem_backslash h.head_ne
    (h.hasDrivePrefix_eq_false hdrive)
  have hmap : ((n.toList.splitOn '/').map fun part =>
      if part = ['.', '.'] then LexicalPath.Component.parentDir else .normal part) =
        (n.toList.splitOn '/').map .normal :=
    List.map_congr_left fun part hpart => if_neg (h.part_mem hpart).2.2.2
  rw [h.pathComponents_eq, hmap] at hfiltered
  rw [← hfiltered, List.filter_eq_self.mpr]
  -- no leading dot is left
  intro c hc
  have hfirst : (n.toList.splitOn '/').head? ≠ some ['.'] := fun hdot =>
    (h.part_mem (List.mem_of_mem_head? hdot)).2.2.1 rfl
  have hvolume : rules.splitVolume n.toList = ([], n.toList) := by
    cases rules with
    | unix => exact LexicalPath.splitVolume_unix _
    | windows => exact splitVolume_of_hasDrivePrefix (h.hasDrivePrefix_eq_false hdrive)
  rw [LexicalPath.components, hvolume] at hc
  simp only [splitOnP_isSeparator h.not_mem_backslash, hfirst, if_false, List.nil_append, List.mem_append,
    List.mem_filterMap] at hc
  rcases hc with hc | ⟨part, _, hc⟩
  · split_ifs at hc
    · obtain rfl := List.mem_singleton.mp hc
      simp
    · cases hc
  · rw [LexicalPath.partComponent] at hc
    split_ifs at hc <;> obtain rfl := Option.some_inj.mp hc <;> simp

/-- The parts of the text that disappear are no drives. -/
theorem hasDrivePrefix_splitOn (hdrive : ∀ part ∈ n.toList.splitOn '/', hasDrivePrefix part = false)
    {part : List Char} (hpart : part ∈ (slashed value.toList).splitOn '/') : hasDrivePrefix part = false := by
  by_cases hkeep : part ∈ n.toList.splitOn '/'
  · exact hdrive part hkeep
  · rw [h.splitOn_eq, pathComponents, List.mem_filter, not_and_or] at hkeep
    rcases hkeep with hkeep | hkeep
    · exact absurd hpart hkeep
    · match part, hkeep with
      | [], _ => rfl
      | [c], _ => rfl
      | c :: d :: cs, hkeep => exact absurd (by simp) hkeep

end NormalForm

/-- **When a normalized path is safe to join**: no part of the text is a drive,
wherever it stands. -/
theorem safeEntryPath_iff {value n : String} (h : normalizedPath value = .ok n) :
    SafeEntryPath n ↔ ∀ part ∈ (slashed value.toList).splitOn '/', hasDrivePrefix part = false := by
  have hform := normalForm_of_normalizedPath h
  constructor
  · intro hsafe part hpart
    refine hform.hasDrivePrefix_splitOn (fun part hpart => ?_) hpart
    by_contra hdrive
    obtain ⟨drive, hmem⟩ := volume_mem_of_hasDrivePrefix ((Bool.not_eq_false _).mp hdrive)
    exact hsafe.noDrive part hpart drive hmem
  · intro hdrive
    have hparts : ∀ part ∈ n.toList.splitOn '/', hasDrivePrefix part = false :=
      fun part hpart => hdrive part (hform.part_mem hpart).1
    have hplain : ∀ part ∈ n.toList.splitOn '/', LexicalPath.PlainName part :=
      fun part hpart => hform.plainName hparts hpart
    have hne : n.toList.splitOn '/' ≠ [] := List.splitOn_ne_nil _ _
    refine ⟨?_, fun rules => ?_, fun part hpart => (hform.part_mem hpart).2, fun part hpart drive => ?_,
      hform.normalizedPath_eq (hform.hasDrivePrefix_eq_false hparts), fun rules destination => ?_,
      fun rules destination => ?_⟩
    · rintro rfl
      exact (hplain [] (by decide)).ne_nil rfl
    · exact ⟨_, hform.components_eq rules hparts⟩
    · rw [(hplain part hpart).components_eq]
      simp
    · exact ⟨_, hne, LexicalPath.pushAll_plain rules destination hplain⟩
    · refine ⟨_, hne, ?_⟩
      rw [entryTarget, LexicalPath.pushAll_plain rules [] hplain, List.nil_append,
        LexicalPath.push_names destination hne]

theorem safeEntryPath_iff_ab :
    SafeEntryPath "a/b" ↔ ∀ part ∈ (slashed "./a\\b".toList).splitOn '/', hasDrivePrefix part = false :=
  @safeEntryPath_iff "./a\\b" "a/b" (by decide)

/-- The dot in front hides the drive from the test, and is then dropped. -/
theorem not_forall_safeEntryPath : ¬ ∀ value n, normalizedPath value = .ok n → SafeEntryPath n := by
  intro h
  have hsafe := h "./C:/x" "C:/x" (by decide)
  have hmem : LexicalPath.Component.volume ['C', ':'] ∈ LexicalPath.components .windows ['C', ':'] := by decide
  exact hsafe.noDrive ['C', ':'] (by decide) _ hmem

end Tapid
