/-
The environment block of a Windows process.

A block is a sequence of NUL-terminated strings `name=value`, sorted by name
without regard to case, with one more NUL at the end.  The length is checked
before the block is written.

* `assemble_eq_ok` — what is assembled, and when;
* `represents_environmentBlock` — the block reads back as the entries;
* `readBlock_appContainer` — the variables of the host are there once;
* `environmentBlock_roundTrip` — all of it.
-/
import Tapid.Execution
import Tapid.WindowsArguments
import Tapid.Text
import Mathlib.Data.List.Lex
import Mathlib.Data.List.Sort

namespace Tapid

open Fallible WindowsArguments

/-! ### Names -/

abbrev WindowsEnvironmentEntry := List CodeUnit × List CodeUnit

def equalsSign : CodeUnit := 61

def foldAsciiCase (u : CodeUnit) : CodeUnit := if 65 ≤ u ∧ u ≤ 90 then u + 32 else u

/-- A name as names are compared. -/
def foldedName (name : List CodeUnit) : List Nat := name.map fun u => (foldAsciiCase u).toNat

def windowsEnvironmentNamesEqual (left right : List CodeUnit) : Bool :=
  left.length == right.length && (left.zip right).all fun u => foldAsciiCase u.1 == foldAsciiCase u.2

/-! ### Assembling -/

def checkEnvironmentEntry (entry : WindowsEnvironmentEntry) : Except ExecutionError Unit := do
  rejectIf (entry.1 = [] ∨ ∃ u ∈ entry.1, u = 0 ∨ u = equalsSign)
    (invalidRequest "invalid Windows environment variable name")
  rejectIf (0 ∈ entry.2) (invalidRequest "Windows environment value contains an embedded NUL")

/-- Neighbours with one name. -/
def hasDuplicateNames : List WindowsEnvironmentEntry → Bool
  | left :: right :: rest =>
    foldedName left.1 == foldedName right.1 || hasDuplicateNames (right :: rest)
  | _ => false

def addEntryUnits (units : Nat) (entry : WindowsEnvironmentEntry) : Option Nat := do
  let named ← Usize.checkedAdd units entry.1.length
  let separated ← Usize.checkedAdd named 1
  let valued ← Usize.checkedAdd separated entry.2.length
  Usize.checkedAdd valued 1

def environmentBlockTooLarge : ExecutionError :=
  invalidRequest ("execution environment exceeds " ++ toString maxEnvironmentBlockUnits ++
    " bytes/code units")

/-- An entry with its separator, without its NUL. -/
def entryString (entry : WindowsEnvironmentEntry) : List CodeUnit := entry.1 ++ equalsSign :: entry.2

def assembleWindowsEnvironmentBlock (entries : List WindowsEnvironmentEntry) :
    Except ExecutionError (List CodeUnit) := do
  checkAll checkEnvironmentEntry entries
  let sorted := entries.insertionSort fun left right => foldedName left.1 ≤ foldedName right.1
  rejectIf (hasDuplicateNames sorted = true)
    (invalidRequest "Windows environment contains case-insensitive duplicate names")
  let units ← orError (sorted.foldlM addEntryUnits (if sorted.isEmpty then 2 else 1)) environmentBlockTooLarge
  rejectIf (maxEnvironmentBlockUnits < units) environmentBlockTooLarge
  if sorted.isEmpty then return [0, 0]
  else return sorted.flatMap (fun entry => entryString entry ++ [0]) ++ [0]

/-! ### Variables of the host -/

/-- `LOCALAPPDATA`. -/
def localAppDataName : List CodeUnit := [76, 79, 67, 65, 76, 65, 80, 80, 68, 65, 84, 65]

/-- `SYSTEMROOT`. -/
def systemRootName : List CodeUnit := [83, 89, 83, 84, 69, 77, 82, 79, 79, 84]

/-- One variable with the value of the host. -/
def pinEntry (entries : List WindowsEnvironmentEntry) (name value : List CodeUnit) :
    List WindowsEnvironmentEntry :=
  entries.filter (fun entry => !windowsEnvironmentNamesEqual entry.1 name) ++ [(name, value)]

def windowsAppcontainerEnvironmentEntries (entries : List WindowsEnvironmentEntry)
    (hostLocalAppData hostSystemRoot : List CodeUnit) : List WindowsEnvironmentEntry :=
  pinEntry (pinEntry entries localAppDataName hostLocalAppData) systemRootName hostSystemRoot

/-! ### Reading a block -/

/-- A string at its first equals sign. -/
def readEntry (text : List CodeUnit) : WindowsEnvironmentEntry :=
  (text.takeWhile (· ≠ equalsSign), (text.dropWhile (· ≠ equalsSign)).tail)

/-- The strings of a block end with the first empty one. -/
def readBlock (block : List CodeUnit) : List WindowsEnvironmentEntry :=
  ((block.splitOn 0).takeWhile (· ≠ [])).map readEntry

/-! ### What is checked -/

/-- Length of the block of some entries. -/
def environmentBlockUnits (entries : List WindowsEnvironmentEntry) : Nat :=
  (if entries = [] then 2 else 1) + (entries.map fun entry => entry.1.length + entry.2.length + 2).sum

/-- Entries that a block can hold. -/
structure ValidEntries (entries : List WindowsEnvironmentEntry) : Prop where
  names : ∀ entry ∈ entries, entry.1 ≠ [] ∧ 0 ∉ entry.1 ∧ equalsSign ∉ entry.1
  values : ∀ entry ∈ entries, 0 ∉ entry.2
  distinct : (entries.map fun entry => foldedName entry.1).Nodup
  fits : environmentBlockUnits entries ≤ maxEnvironmentBlockUnits

theorem foldAsciiCase_toNat_inj {u v : CodeUnit} :
    (foldAsciiCase u).toNat = (foldAsciiCase v).toNat ↔ foldAsciiCase u = foldAsciiCase v :=
  UInt16.toNat_inj

/-- The two comparisons of names agree. -/
theorem windowsEnvironmentNamesEqual_iff {left right : List CodeUnit} :
    windowsEnvironmentNamesEqual left right = true ↔ foldedName left = foldedName right := by
  induction left generalizing right with
  | nil => cases right <;> simp [windowsEnvironmentNamesEqual, foldedName]
  | cons u left ih =>
    cases right with
    | nil => simp [windowsEnvironmentNamesEqual, foldedName]
    | cons v right =>
      have hrest := @ih right
      simp only [windowsEnvironmentNamesEqual, foldedName, Bool.and_eq_true, beq_iff_eq] at hrest
      simp only [windowsEnvironmentNamesEqual, foldedName, List.length_cons, List.zip_cons_cons, List.all_cons,
        List.map_cons, List.cons.injEq, Bool.and_eq_true, beq_iff_eq, add_left_inj, foldAsciiCase_toNat_inj,
        ← hrest]
      tauto

theorem checkEnvironmentEntry_eq_ok {entry : WindowsEnvironmentEntry} {u : Unit} :
    checkEnvironmentEntry entry = .ok u ↔
      (entry.1 ≠ [] ∧ 0 ∉ entry.1 ∧ equalsSign ∉ entry.1) ∧ 0 ∉ entry.2 := by
  have hunits : (¬ ∃ u ∈ entry.1, u = 0 ∨ u = equalsSign) ↔ 0 ∉ entry.1 ∧ equalsSign ∉ entry.1 := by
    constructor
    · intro h
      exact ⟨fun hmem => h ⟨0, hmem, Or.inl rfl⟩, fun hmem => h ⟨_, hmem, Or.inr rfl⟩⟩
    · rintro ⟨hzero, hequals⟩ ⟨u, hu, rfl | rfl⟩
      · exact hzero hu
      · exact hequals hu
  simp only [checkEnvironmentEntry, bind_eq_ok, rejectIf_eq_ok, not_or, hunits, exists_const, ne_eq]

/-- Sorted names without equal neighbours are strictly sorted. -/
theorem hasDuplicateNames_eq_false {entries : List WindowsEnvironmentEntry}
    (h : entries.Pairwise fun left right => foldedName left.1 ≤ foldedName right.1) :
    hasDuplicateNames entries = false ↔
      entries.Pairwise fun left right => foldedName left.1 < foldedName right.1 := by
  induction entries with
  | nil => simp [hasDuplicateNames]
  | cons left entries ih =>
    cases entries with
    | nil => simp [hasDuplicateNames]
    | cons right rest =>
      rw [List.pairwise_cons] at h
      rw [hasDuplicateNames, Bool.or_eq_false_iff, beq_eq_false_iff_ne, ih h.2]
      constructor
      · rintro ⟨hne, hrest⟩
        have hlt : foldedName left.1 < foldedName right.1 := lt_of_le_of_ne (h.1 right List.mem_cons_self) hne
        refine List.pairwise_cons.mpr ⟨fun entry hentry => ?_, hrest⟩
        rcases List.mem_cons.mp hentry with rfl | hentry
        · exact hlt
        · exact hlt.trans ((List.pairwise_cons.mp hrest).1 entry hentry)
      · intro hall
        obtain ⟨hlt, hrest⟩ := List.pairwise_cons.mp hall
        exact ⟨(hlt right List.mem_cons_self).ne, hrest⟩

theorem nodup_iff_pairwise_lt {entries : List WindowsEnvironmentEntry}
    (h : entries.Pairwise fun left right => foldedName left.1 ≤ foldedName right.1) :
    (entries.map fun entry => foldedName entry.1).Nodup ↔
      entries.Pairwise fun left right => foldedName left.1 < foldedName right.1 := by
  rw [List.Nodup, List.pairwise_map]
  constructor
  · intro hne
    exact (List.pairwise_and_iff.mpr ⟨h, hne⟩).imp fun hboth => lt_of_le_of_ne hboth.1 hboth.2
  · intro hlt
    exact hlt.imp fun hboth => hboth.ne

theorem addEntryUnits_eq (units : Nat) (entry : WindowsEnvironmentEntry) :
    addEntryUnits units entry =
      if units + (entry.1.length + entry.2.length + 2) < 2 ^ 64 then
        some (units + (entry.1.length + entry.2.length + 2)) else none := by
  ext total
  simp only [addEntryUnits, Option.bind_eq_bind, Option.bind_eq_some_iff, Usize.checkedAdd_eq_some,
    Option.ite_none_right_eq_some, Option.some_inj]
  constructor
  · rintro ⟨_, ⟨-, rfl⟩, _, ⟨-, rfl⟩, _, ⟨-, rfl⟩, hfits, rfl⟩
    exact ⟨by omega, by omega⟩
  · rintro ⟨hfits, rfl⟩
    refine ⟨_, ⟨?_, rfl⟩, _, ⟨?_, rfl⟩, _, ⟨?_, rfl⟩, ?_, ?_⟩ <;> omega

/-- The count of a block that is not too large does not overflow. -/
theorem foldlM_addEntryUnits {entries : List WindowsEnvironmentEntry} {start limit : Nat}
    (hlimit : limit < 2 ^ 64) :
    (∃ units, entries.foldlM addEntryUnits start = some units ∧ units ≤ limit) ↔
      start + (entries.map fun entry => entry.1.length + entry.2.length + 2).sum ≤ limit := by
  induction entries generalizing start with
  | nil => simp
  | cons entry entries ih =>
    rw [List.foldlM_cons, addEntryUnits_eq, List.map_cons, List.sum_cons]
    by_cases hfits : start + (entry.1.length + entry.2.length + 2) < 2 ^ 64
    · rw [if_pos hfits, ← Nat.add_assoc start (entry.1.length + entry.2.length + 2) _]
      exact ih
    · rw [if_neg hfits]
      constructor
      · rintro ⟨units, hunits, -⟩
        cases hunits
      · intro hle
        omega

/-- Entries in the order of the block. -/
def sortedEntries (entries : List WindowsEnvironmentEntry) : List WindowsEnvironmentEntry :=
  entries.insertionSort fun left right => foldedName left.1 ≤ foldedName right.1

/-- What a block consists of. -/
def environmentBlock (entries : List WindowsEnvironmentEntry) : List CodeUnit :=
  if entries = [] then [0, 0] else entries.flatMap (fun entry => entryString entry ++ [0]) ++ [0]

theorem sortedEntries_perm (entries : List WindowsEnvironmentEntry) : (sortedEntries entries).Perm entries :=
  List.perm_insertionSort _ _

theorem pairwise_sortedEntries (entries : List WindowsEnvironmentEntry) :
    (sortedEntries entries).Pairwise fun left right => foldedName left.1 ≤ foldedName right.1 := by
  let order : WindowsEnvironmentEntry → WindowsEnvironmentEntry → Prop :=
    fun left right => foldedName left.1 ≤ foldedName right.1
  have : Std.Total order := ⟨fun left right => le_total _ _⟩
  have : IsTrans WindowsEnvironmentEntry order := ⟨fun _ _ _ h h' => le_trans h h'⟩
  exact List.pairwise_insertionSort order entries

theorem environmentBlockUnits_of_perm {entries entries' : List WindowsEnvironmentEntry}
    (h : entries.Perm entries') : environmentBlockUnits entries = environmentBlockUnits entries' := by
  have hnil : entries = [] ↔ entries' = [] := ⟨fun hnil => (hnil ▸ h).nil_eq.symm, fun hnil => (hnil ▸ h).eq_nil⟩
  rw [environmentBlockUnits, environmentBlockUnits, (h.map _).sum_eq]
  simp only [hnil]

/-- **What is assembled, and when.** -/
theorem assemble_eq_ok {entries : List WindowsEnvironmentEntry} {block : List CodeUnit} :
    assembleWindowsEnvironmentBlock entries = .ok block ↔
      ValidEntries entries ∧ block = environmentBlock (sortedEntries entries) := by
  have hsorted := pairwise_sortedEntries entries
  have hdistinct : hasDuplicateNames (sortedEntries entries) = false ↔
      (entries.map fun entry => foldedName entry.1).Nodup := by
    rw [hasDuplicateNames_eq_false hsorted, ← nodup_iff_pairwise_lt hsorted]
    exact ((sortedEntries_perm entries).map _).nodup_iff
  have hempty : (if (sortedEntries entries).isEmpty = true then (2 : Nat) else 1) =
      if sortedEntries entries = [] then 2 else 1 := by
    simp only [List.isEmpty_iff]
  have hfits : (∃ units, (sortedEntries entries).foldlM addEntryUnits
      (if (sortedEntries entries).isEmpty = true then 2 else 1) = some units ∧
        ¬ maxEnvironmentBlockUnits < units) ↔ environmentBlockUnits entries ≤ maxEnvironmentBlockUnits := by
    simp only [not_lt]
    rw [foldlM_addEntryUnits (by decide), ← environmentBlockUnits_of_perm (sortedEntries_perm entries),
      environmentBlockUnits, hempty]
  have hblock : (if (sortedEntries entries).isEmpty = true then (pure [0, 0] : Except ExecutionError _)
      else pure ((sortedEntries entries).flatMap (fun entry => entryString entry ++ [0]) ++ [0])) = .ok block ↔
        block = environmentBlock (sortedEntries entries) := by
    rw [environmentBlock]
    simp only [List.isEmpty_iff]
    split_ifs with hnil
    · rw [pure_eq_ok, eq_comm]
    · rw [pure_eq_ok, eq_comm]
  simp only [assembleWindowsEnvironmentBlock, bind_eq_ok, checkAll_eq_ok, checkEnvironmentEntry_eq_ok,
    rejectIf_eq_ok, orError_eq_ok, Bool.not_eq_true]
  constructor
  · rintro ⟨_, hentries, _, hduplicates, units, hunits, _, hlimit, h⟩
    exact ⟨⟨fun entry he => (hentries entry he).1, fun entry he => (hentries entry he).2,
      hdistinct.mp hduplicates, hfits.mp ⟨units, hunits, hlimit⟩⟩, hblock.mp h⟩
  · rintro ⟨hvalid, rfl⟩
    obtain ⟨units, hunits, hlimit⟩ := hfits.mpr hvalid.fits
    exact ⟨(), fun entry he => ⟨hvalid.names entry he, hvalid.values entry he⟩, (),
      hdistinct.mpr hvalid.distinct, units, hunits, (), hlimit, hblock.mpr rfl⟩

/-! ### Reading what was assembled -/

/-- NUL-terminated strings are split at their NULs. -/
theorem splitOn_terminated {texts : List (List CodeUnit)} (h : ∀ text ∈ texts, 0 ∉ text) (rest : List CodeUnit) :
    (texts.flatMap (fun text => text ++ [0]) ++ rest).splitOn 0 = texts ++ rest.splitOn 0 := by
  induction texts with
  | nil => rfl
  | cons text texts ih =>
    rw [List.flatMap_cons, List.append_assoc, List.append_assoc, List.singleton_append,
      List.splitOn_append_cons_self, List.splitOn_eq_singleton (h text List.mem_cons_self),
      ih fun text' htext => h text' (List.mem_cons_of_mem _ htext)]
    rfl

theorem readEntry_entryString {entry : WindowsEnvironmentEntry} (h : equalsSign ∉ entry.1) :
    readEntry (entryString entry) = entry := by
  have hname : ∀ u ∈ entry.1, decide (u ≠ equalsSign) = true := by
    intro u hu
    simpa using fun heq : u = equalsSign => h (heq ▸ hu)
  rw [readEntry, entryString, List.takeWhile_append_of_pos hname, List.dropWhile_append_of_pos hname]
  simp

variable {entries : List WindowsEnvironmentEntry}

theorem ValidEntries.of_perm {entries' : List WindowsEnvironmentEntry} (h : ValidEntries entries)
    (hperm : entries'.Perm entries) : ValidEntries entries' where
  names := fun entry he => h.names entry (hperm.subset he)
  values := fun entry he => h.values entry (hperm.subset he)
  distinct := (hperm.map _).nodup_iff.mpr h.distinct
  fits := environmentBlockUnits_of_perm hperm ▸ h.fits

theorem ValidEntries.not_mem_entryString (h : ValidEntries entries) :
    ∀ text ∈ entries.map entryString, 0 ∉ text := by
  intro text htext
  obtain ⟨entry, hentry, rfl⟩ := List.mem_map.mp htext
  rw [entryString, List.mem_append, List.mem_cons, not_or, not_or]
  exact ⟨(h.names entry hentry).2.1, by decide, h.values entry hentry⟩

theorem flatMap_entryString (entries : List WindowsEnvironmentEntry) :
    entries.flatMap (fun entry => entryString entry ++ [0]) =
      (entries.map entryString).flatMap fun text => text ++ [0] := by
  rw [List.flatMap_map]

theorem entryString_ne_nil (entry : WindowsEnvironmentEntry) : entryString entry ≠ [] := by
  simp [entryString]

/-- **The entries are read back.** -/
theorem readBlock_environmentBlock (h : ValidEntries entries) : readBlock (environmentBlock entries) = entries := by
  rw [environmentBlock]
  split_ifs with hnil
  · rw [hnil]
    rfl
  · rw [readBlock, flatMap_entryString, splitOn_terminated h.not_mem_entryString,
      List.takeWhile_append_of_pos]
    · have hread : ((entries.map entryString).map readEntry) = entries := by
        rw [List.map_map]
        conv_rhs => rw [← List.map_id entries]
        exact List.map_congr_left fun entry he => readEntry_entryString (h.names entry he).2.2
      have hend : (List.splitOn 0 [(0 : CodeUnit)]).takeWhile (fun text => text ≠ []) = [] := rfl
      rw [hend, List.append_nil, hread]
    · intro text htext
      obtain ⟨entry, -, rfl⟩ := List.mem_map.mp htext
      simpa using entryString_ne_nil entry

theorem length_environmentBlock (entries : List WindowsEnvironmentEntry) :
    (environmentBlock entries).length = environmentBlockUnits entries := by
  rw [environmentBlock, environmentBlockUnits]
  split_ifs with hnil
  · rw [hnil]
    rfl
  · have hentry : ∀ entry : WindowsEnvironmentEntry,
        (entryString entry ++ [0]).length = entry.1.length + entry.2.length + 2 := by
      intro entry
      simp only [entryString, List.length_append, List.length_cons, List.length_nil]
      omega
    rw [List.length_append, List.length_flatMap]
    simp only [hentry, List.length_cons, List.length_nil]
    omega

/-- The last string and the block end with NULs. -/
theorem suffix_environmentBlock (entries : List WindowsEnvironmentEntry) : [0, 0] <:+ environmentBlock entries := by
  rw [environmentBlock]
  split_ifs with hnil
  · exact List.suffix_rfl
  · rw [← List.dropLast_append_getLast hnil, List.flatMap_append, List.flatMap_singleton]
    exact ⟨(entries.dropLast.flatMap fun entry => entryString entry ++ [0]) ++ entryString (entries.getLast hnil),
      by simp [List.append_assoc]⟩

/-- Strings that are not empty have no two NULs behind each other. -/
theorem not_infix_terminated {texts : List (List CodeUnit)} (h : ∀ text ∈ texts, 0 ∉ text)
    (hne : [] ∉ texts) : ¬ [0, 0] <:+: texts.flatMap fun text => text ++ [0] := by
  rintro ⟨before, after, hblock⟩
  have hsplit := splitOn_terminated h []
  rw [List.append_nil, ← hblock, List.append_assoc, List.cons_append, List.cons_append, List.nil_append,
    List.splitOn_append_cons_self, ← List.nil_append (0 :: after), List.splitOn_append_cons_self,
    List.splitOn_nil, ← List.append_assoc] at hsplit
  -- the string between the two NULs is empty, and it is not the last one
  have hlast := congrArg List.dropLast hsplit
  rw [List.dropLast_append_of_ne_nil (List.splitOn_ne_nil 0 after), List.dropLast_concat] at hlast
  exact hne (hlast ▸ by simp)

theorem not_infix_dropLast_environmentBlock (h : ValidEntries entries) :
    ¬ [0, 0] <:+: (environmentBlock entries).dropLast := by
  rw [environmentBlock]
  split_ifs with hnil
  · decide
  · rw [List.dropLast_concat, flatMap_entryString]
    refine not_infix_terminated h.not_mem_entryString fun hmem => ?_
    obtain ⟨entry, -, hentry⟩ := List.mem_map.mp hmem
    exact entryString_ne_nil entry hentry

/-- A block that stands for some entries. -/
structure Represents (block : List CodeUnit) (entries : List WindowsEnvironmentEntry) : Prop where
  reads : (readBlock block).Perm entries
  sorted : (readBlock block).Pairwise fun left right => foldedName left.1 < foldedName right.1
  ends : [0, 0] <:+ block
  once : ¬ [0, 0] <:+: block.dropLast
  length : block.length = environmentBlockUnits entries

theorem represents_environmentBlock (h : ValidEntries entries) :
    Represents (environmentBlock (sortedEntries entries)) entries := by
  have hvalid := h.of_perm (sortedEntries_perm entries)
  have hread := readBlock_environmentBlock hvalid
  refine ⟨hread.symm ▸ sortedEntries_perm entries, hread.symm ▸ ?_, suffix_environmentBlock _,
    not_infix_dropLast_environmentBlock hvalid,
    (length_environmentBlock _).trans (environmentBlockUnits_of_perm (sortedEntries_perm entries))⟩
  exact (nodup_iff_pairwise_lt (pairwise_sortedEntries entries)).mp hvalid.distinct

/-! ### Variables of the host -/

/-- A pinned variable is there once, with its value. -/
theorem filter_pinEntry (entries : List WindowsEnvironmentEntry) (name value : List CodeUnit) :
    (pinEntry entries name value).filter (fun entry => windowsEnvironmentNamesEqual entry.1 name) =
      [(name, value)] := by
  rw [pinEntry, List.filter_append, List.filter_filter]
  have hnone : entries.filter (fun entry => windowsEnvironmentNamesEqual entry.1 name &&
      !windowsEnvironmentNamesEqual entry.1 name) = [] := by
    simp
  rw [hnone, List.nil_append, List.filter_singleton, windowsEnvironmentNamesEqual_iff.mpr rfl]
  rfl

/-- Pinning another variable leaves it alone. -/
theorem filter_pinEntry_of_ne (entries : List WindowsEnvironmentEntry) {name other value : List CodeUnit}
    (h : foldedName other ≠ foldedName name) :
    (pinEntry entries other value).filter (fun entry => windowsEnvironmentNamesEqual entry.1 name) =
      entries.filter fun entry => windowsEnvironmentNamesEqual entry.1 name := by
  have hother : windowsEnvironmentNamesEqual other name = false :=
    Bool.eq_false_iff.mpr fun heq => h (windowsEnvironmentNamesEqual_iff.mp heq)
  rw [pinEntry, List.filter_append, List.filter_filter, List.filter_singleton, hother]
  rw [cond_false, List.append_nil]
  refine List.filter_congr fun entry _ => ?_
  by_cases hentry : windowsEnvironmentNamesEqual entry.1 name = true
  · have hfolded := windowsEnvironmentNamesEqual_iff.mp hentry
    have hne : windowsEnvironmentNamesEqual entry.1 other = false :=
      Bool.eq_false_iff.mpr fun heq => h ((windowsEnvironmentNamesEqual_iff.mp heq).symm.trans hfolded)
    rw [hentry, hne]
    rfl
  · rw [Bool.not_eq_true] at hentry
    rw [hentry, Bool.false_and]

/-- **The variables of the host are in the block once**, with the host's values. -/
theorem readBlock_appContainer {hostLocalAppData hostSystemRoot block : List CodeUnit}
    (h : assembleWindowsEnvironmentBlock
      (windowsAppcontainerEnvironmentEntries entries hostLocalAppData hostSystemRoot) = .ok block) :
    (readBlock block).filter (fun entry => windowsEnvironmentNamesEqual entry.1 localAppDataName) =
        [(localAppDataName, hostLocalAppData)] ∧
      (readBlock block).filter (fun entry => windowsEnvironmentNamesEqual entry.1 systemRootName) =
        [(systemRootName, hostSystemRoot)] := by
  obtain ⟨hvalid, rfl⟩ := assemble_eq_ok.mp h
  have hperm := (represents_environmentBlock hvalid).reads
  constructor
  · have hfilter := hperm.filter fun entry => windowsEnvironmentNamesEqual entry.1 localAppDataName
    rw [windowsAppcontainerEnvironmentEntries, filter_pinEntry_of_ne _ (by decide), filter_pinEntry] at hfilter
    exact List.perm_singleton.mp hfilter
  · have hfilter := hperm.filter fun entry => windowsEnvironmentNamesEqual entry.1 systemRootName
    rw [windowsAppcontainerEnvironmentEntries, filter_pinEntry] at hfilter
    exact List.perm_singleton.mp hfilter

/-- **Environment blocks round trip.** -/
theorem environmentBlock_roundTrip :
    (∀ entries, (∃ block, assembleWindowsEnvironmentBlock entries = .ok block) ↔ ValidEntries entries) ∧
      (∀ entries block, assembleWindowsEnvironmentBlock entries = .ok block → Represents block entries) ∧
      ∀ entries hostLocalAppData hostSystemRoot block, assembleWindowsEnvironmentBlock
        (windowsAppcontainerEnvironmentEntries entries hostLocalAppData hostSystemRoot) = .ok block →
          (readBlock block).filter (fun entry => windowsEnvironmentNamesEqual entry.1 localAppDataName) =
              [(localAppDataName, hostLocalAppData)] ∧
            (readBlock block).filter (fun entry => windowsEnvironmentNamesEqual entry.1 systemRootName) =
              [(systemRootName, hostSystemRoot)] := by
  refine ⟨fun entries => ⟨?_, fun h => ⟨_, assemble_eq_ok.mpr ⟨h, rfl⟩⟩⟩, fun entries block h => ?_,
    fun entries hostLocalAppData hostSystemRoot block => readBlock_appContainer⟩
  · rintro ⟨block, h⟩
    exact (assemble_eq_ok.mp h).1
  · obtain ⟨hvalid, rfl⟩ := assemble_eq_ok.mp h
    exact represents_environmentBlock hvalid

end Tapid
