/-
The entries of an archive.

Entries are validated one after the other, against limits and against what was
seen before.  A sequence is accepted exactly when every entry is admissible, the
limits hold for all of them together, and no two normalized paths agree up to
ASCII case; none of this depends on the order.

* `EntryValidator.push` — one entry;
* `Admitted` — what acceptance comes to;
* `validateEntries_iff` — the two agree.
-/
import Tapid.ArchivePath

namespace Tapid

open Text Fallible

inductive EntryKind where
  | file
  | directory
  | symlink
  | hardlink
  | other
  deriving DecidableEq

structure ArchiveEntry where
  path : String
  kind : EntryKind
  size : U64
  linkTarget : Option String
  deriving DecidableEq

structure ValidationLimits where
  maxEntries : U64
  maxEntrySize : U64
  maxTotalSize : U64
  maxPathBytes : U64
  deriving DecidableEq

def U64.checkedAdd (n m : U64) : Option U64 := if h : n.val + m.val < 2 ^ 64 then some ⟨n.val + m.val, h⟩ else none

/-- Whether the parts of a target climb above the root from a depth. -/
def climbs : Nat → List (List Char) → Bool
  | _, [] => false
  | depth, part :: parts =>
    if part = [] ∨ part = ['.'] then climbs depth parts
    else if part = ['.', '.'] then
      match depth with
      | 0 => true
      | depth + 1 => climbs depth parts
    else climbs (depth + 1) parts

def symlinkTargetEscapes (link target : String) : Bool :=
  let link := slashed link.toList
  let target := slashed target.toList
  if target = [] ∨ Char.ofNat 0 ∈ target then true
  else if target.head? = some '/' ∨ hasDrivePrefix target then true
  else climbs (((link.splitOn '/').filter fun s => !s.isEmpty).length - 1) (target.splitOn '/')

structure EntryValidator where
  limits : ValidationLimits
  count : U64
  total : U64
  exact : Finset String
  folded : Finset String

namespace EntryValidator

def new (limits : ValidationLimits) : EntryValidator := ⟨limits, 0, 0, ∅, ∅⟩

def asciiLowercase (s : String) : String := String.ofList (toAsciiLower s.toList)

/-- Checks of the kind of an entry; returns the new total size. -/
def checkKind (v : EntryValidator) (normalized : String) (entry : ArchiveEntry) : Except ValidationError U64 :=
  match entry.kind with
  | .file => do
    rejectIf (v.limits.maxEntrySize < entry.size) (.entryTooLarge entry.path entry.size)
    let total ← orError (v.total.checkedAdd entry.size) .totalSizeExceeded
    rejectIf (v.limits.maxTotalSize < total) .totalSizeExceeded
    return total
  | .directory => do
    rejectIf (entry.size ≠ 0) (.entryTooLarge entry.path entry.size)
    return v.total
  | .symlink => do
    let target ← orError entry.linkTarget (.invalidPath entry.path)
    rejectIf (symlinkTargetEscapes normalized target) (.symlinkEscape entry.path)
    return v.total
  | .hardlink | .other => throw (.specialFile entry.path)

def push (v : EntryValidator) (entry : ArchiveEntry) : Except ValidationError EntryValidator := do
  let count ← orError v.count.checkedSucc .tooManyEntries
  rejectIf (v.limits.maxEntries < count) .tooManyEntries
  rejectIf (v.limits.maxPathBytes.val < byteLen entry.path.toList) .pathTooLong
  let normalized ← normalizedPath entry.path
  rejectIf (normalized ∈ v.exact) (.duplicatePath entry.path)
  rejectIf (asciiLowercase normalized ∈ v.folded) (.caseCollision entry.path)
  let total ← v.checkKind normalized entry
  return ⟨v.limits, count, total, insert normalized v.exact, insert (asciiLowercase normalized) v.folded⟩

end EntryValidator

def validateEntries (entries : List ArchiveEntry) (limits : ValidationLimits) :
    Except ValidationError EntryValidator :=
  entries.foldlM EntryValidator.push (EntryValidator.new limits)

/-! ### What is accepted -/

/-- The normalized path of an entry that has one. -/
def ArchiveEntry.name (e : ArchiveEntry) : String := ((normalizedPath e.path).toOption).getD ""

def ArchiveEntry.foldedName (e : ArchiveEntry) : String := EntryValidator.asciiLowercase e.name

/-- What an entry adds to the total size. -/
def ArchiveEntry.fileSize (e : ArchiveEntry) : Nat := if e.kind = .file then e.size.val else 0

def totalSize (entries : List ArchiveEntry) : Nat := (entries.map ArchiveEntry.fileSize).sum

/-- What is asked of an entry by itself. -/
structure AdmittedEntry (limits : ValidationLimits) (e : ArchiveEntry) : Prop where
  path : byteLen e.path.toList ≤ limits.maxPathBytes.val
  normalized : normalizedPath e.path = .ok e.name
  regular : e.kind ≠ .hardlink ∧ e.kind ≠ .other
  file : e.kind = .file → e.size ≤ limits.maxEntrySize
  directory : e.kind = .directory → e.size = 0
  symlink : e.kind = .symlink → ∃ target, e.linkTarget = some target ∧ symlinkTargetEscapes e.name target = false

/-- What is asked of a sequence of entries, in whatever order. -/
structure Admitted (limits : ValidationLimits) (entries : List ArchiveEntry) : Prop where
  count : entries.length ≤ limits.maxEntries.val
  total : totalSize entries ≤ limits.maxTotalSize.val
  entry : ∀ e ∈ entries, AdmittedEntry limits e
  names : entries.Pairwise fun e f => e.foldedName ≠ f.foldedName

theorem Admitted.perm {limits : ValidationLimits} {entries entries' : List ArchiveEntry}
    (h : Admitted limits entries) (hperm : entries.Perm entries') : Admitted limits entries' where
  count := hperm.length_eq ▸ h.count
  total := by
    have htotal : totalSize entries = totalSize entries' := (hperm.map _).sum_eq
    exact htotal ▸ h.total
  entry e he := h.entry e (hperm.mem_iff.mpr he)
  names := (hperm.pairwise_iff fun hne => Ne.symm hne).mp h.names

/-- What a validator knows of the entries it has seen. -/
structure EntryValidator.Tracks (limits : ValidationLimits) (entries : List ArchiveEntry) (v : EntryValidator) :
    Prop where
  limits_eq : v.limits = limits
  count : v.count.val = entries.length
  total : v.total.val = totalSize entries
  exact : ∀ n, n ∈ v.exact ↔ ∃ e ∈ entries, e.name = n
  folded : ∀ n, n ∈ v.folded ↔ ∃ e ∈ entries, e.foldedName = n
  admitted : Admitted limits entries

theorem ArchiveEntry.name_eq {e : ArchiveEntry} {n : String} (h : normalizedPath e.path = .ok n) : e.name = n := by
  rw [ArchiveEntry.name, h]
  rfl

theorem U64.checkedSucc_eq_some {n m : U64} : n.checkedSucc = some m ↔ m.val = n.val + 1 := by
  have hm := m.isLt
  unfold U64.checkedSucc
  split_ifs with h
  · rw [Option.some_inj, Fin.ext_iff]
    exact eq_comm
  · refine iff_of_false (by simp) ?_
    omega

theorem U64.checkedAdd_eq_some {n m k : U64} : n.checkedAdd m = some k ↔ k.val = n.val + m.val := by
  have hk := k.isLt
  unfold U64.checkedAdd
  split_ifs with h
  · rw [Option.some_inj, Fin.ext_iff]
    exact eq_comm
  · refine iff_of_false (by simp) ?_
    omega

namespace EntryValidator

/-- The checks of a kind, read as conditions. -/
theorem checkKind_eq_ok {v : EntryValidator} {n : String} {e : ArchiveEntry} {total : U64}
    (hv : v.total ≤ v.limits.maxTotalSize) : v.checkKind n e = .ok total ↔
      (e.kind ≠ .hardlink ∧ e.kind ≠ .other) ∧ (e.kind = .file → e.size ≤ v.limits.maxEntrySize) ∧
      (e.kind = .directory → e.size = 0) ∧
      (e.kind = .symlink → ∃ target, e.linkTarget = some target ∧ symlinkTargetEscapes n target = false) ∧
      total.val = v.total.val + e.fileSize ∧ total.val ≤ v.limits.maxTotalSize.val := by
  have hkeep : ∀ t : U64, v.total = t ↔ t.val = v.total.val + 0 ∧ t.val ≤ v.limits.maxTotalSize.val := by
    intro t
    rw [Nat.add_zero]
    constructor
    · rintro rfl
      exact ⟨rfl, hv⟩
    · rintro ⟨ht, _⟩
      exact Fin.ext ht.symm
  unfold checkKind ArchiveEntry.fileSize
  cases hkind : e.kind with
  | file =>
    simp only [bind_eq_ok, rejectIf_eq_ok, orError_eq_ok, pure_eq_ok, U64.checkedAdd_eq_some, if_true]
    constructor
    · rintro ⟨_, hsize, t, ht, _, hmax, rfl⟩
      exact ⟨by simp, fun _ => not_lt.mp hsize, by simp, by simp, ht, not_lt.mp hmax⟩
    · rintro ⟨_, hsize, _, _, ht, hmax⟩
      exact ⟨(), not_lt.mpr (hsize trivial), total, ht, (), not_lt.mpr hmax, rfl⟩
  | directory =>
    simp only [bind_eq_ok, rejectIf_eq_ok, pure_eq_ok, hkeep]
    simp
  | symlink =>
    simp only [bind_eq_ok, rejectIf_eq_ok, orError_eq_ok, pure_eq_ok, hkeep]
    constructor
    · rintro ⟨target, htarget, _, hsafe, ht, hmax⟩
      exact ⟨by simp, by simp, by simp, fun _ => ⟨target, htarget, (Bool.not_eq_true _).mp hsafe⟩, ht, hmax⟩
    · rintro ⟨_, _, _, hlink, ht, hmax⟩
      obtain ⟨target, htarget, hsafe⟩ := hlink trivial
      exact ⟨target, htarget, (), by rw [hsafe]; exact Bool.false_ne_true, ht, hmax⟩
  | hardlink => simp
  | other => simp

theorem tracks_new (limits : ValidationLimits) : (new limits).Tracks limits [] where
  limits_eq := rfl
  count := rfl
  total := rfl
  exact := by simp [new]
  folded := by simp [new]
  admitted := ⟨Nat.zero_le _, Nat.zero_le _, by simp, List.Pairwise.nil⟩

variable {limits : ValidationLimits} {entries : List ArchiveEntry} {e : ArchiveEntry} {v : EntryValidator}

theorem totalSize_append_singleton (entries : List ArchiveEntry) (e : ArchiveEntry) :
    totalSize (entries ++ [e]) = totalSize entries + e.fileSize := by
  simp [totalSize]

theorem Tracks.total_le (h : v.Tracks limits entries) : v.total ≤ v.limits.maxTotalSize := by
  have htotal := h.admitted.total
  rw [← h.total, ← h.limits_eq] at htotal
  exact htotal

/-- An accepted entry is tracked. -/
theorem Tracks.push (h : v.Tracks limits entries) {v' : EntryValidator} (hpush : v.push e = .ok v') :
    v'.Tracks limits (entries ++ [e]) := by
  simp only [EntryValidator.push, bind_eq_ok, orError_eq_ok, rejectIf_eq_ok, pure_eq_ok,
    U64.checkedSucc_eq_some, checkKind_eq_ok h.total_le] at hpush
  obtain ⟨count, hcount, _, hmax, _, hpath, n, hn, _, hexact, _, hfolded, total,
    ⟨hregular, hfile, hdirectory, hsymlink, htotal, hmaxTotal⟩, rfl⟩ := hpush
  obtain rfl := ArchiveEntry.name_eq hn
  rw [h.limits_eq] at hmax hpath hfile hmaxTotal
  have hnew : e.foldedName ∉ v.folded := hfolded
  have hentry : AdmittedEntry limits e := ⟨not_lt.mp hpath, hn, hregular, hfile, hdirectory, hsymlink⟩
  have hadmitted : Admitted limits (entries ++ [e]) := by
    refine ⟨?_, ?_, ?_, ?_⟩
    · rw [List.length_append, List.length_singleton, ← h.count, ← hcount]
      exact not_lt.mp hmax
    · rw [totalSize_append_singleton, ← h.total, ← htotal]
      exact hmaxTotal
    · intro f hf
      rcases List.mem_append.mp hf with hf | hf
      · exact h.admitted.entry f hf
      · rw [List.mem_singleton.mp hf]
        exact hentry
    · refine List.pairwise_append.mpr ⟨h.admitted.names, List.pairwise_singleton _ _, ?_⟩
      intro f hf g hg heq
      rw [List.mem_singleton.mp hg] at heq
      exact hnew ((h.folded _).mpr ⟨f, hf, heq⟩)
  refine ⟨h.limits_eq, ?_, ?_, fun n => ?_, fun n => ?_, hadmitted⟩
  · rw [List.length_append, List.length_singleton, ← h.count]
    exact hcount
  · rw [totalSize_append_singleton, ← h.total]
    exact htotal
  · rw [Finset.mem_insert, h.exact]
    simp [or_and_right, exists_or, or_comm, eq_comm]
  · rw [Finset.mem_insert, h.folded]
    simp [or_and_right, exists_or, or_comm, eq_comm, ArchiveEntry.foldedName]

/-- What may come next is accepted. -/
theorem Tracks.push_of_admitted (h : v.Tracks limits entries) (hnext : Admitted limits (entries ++ [e])) :
    ∃ v', v.push e = .ok v' := by
  have hentry : AdmittedEntry limits e := hnext.entry e (by simp)
  have hcount := hnext.count
  have htotal := hnext.total
  rw [List.length_append, List.length_singleton, ← h.count] at hcount
  rw [totalSize_append_singleton, ← h.total] at htotal
  have hmax := limits.maxEntries.isLt
  have hmaxTotal := limits.maxTotalSize.isLt
  have hfresh : ∀ f ∈ entries, f.foldedName ≠ e.foldedName := fun f hf =>
    (List.pairwise_append.mp hnext.names).2.2 f hf e (by simp)
  have hfolded : asciiLowercase e.name ∉ v.folded := fun hmem => by
    obtain ⟨f, hf, heq⟩ := (h.folded _).mp hmem
    exact hfresh f hf heq
  have hexact : e.name ∉ v.exact := fun hmem => by
    obtain ⟨f, hf, heq⟩ := (h.exact _).mp hmem
    exact hfresh f hf (congrArg asciiLowercase heq)
  refine ⟨⟨v.limits, ⟨v.count.val + 1, by omega⟩, ⟨v.total.val + e.fileSize, by omega⟩,
    insert e.name v.exact, insert (asciiLowercase e.name) v.folded⟩, ?_⟩
  simp only [EntryValidator.push, bind_eq_ok, orError_eq_ok, rejectIf_eq_ok, pure_eq_ok,
    U64.checkedSucc_eq_some, checkKind_eq_ok h.total_le]
  rw [h.limits_eq]
  exact ⟨_, rfl, (), not_lt.mpr hcount, (), not_lt.mpr hentry.path, e.name, hentry.normalized, (), hexact, (),
    hfolded, _, ⟨hentry.regular, hentry.file, hentry.directory, hentry.symlink, rfl, htotal⟩, rfl⟩

end EntryValidator

/-- A beginning of an admitted sequence is admitted. -/
theorem Admitted.of_append {limits : ValidationLimits} {entries rest : List ArchiveEntry}
    (h : Admitted limits (entries ++ rest)) : Admitted limits entries where
  count := by
    have hcount := h.count
    rw [List.length_append] at hcount
    omega
  total := by
    have htotal := h.total
    rw [totalSize, List.map_append, List.sum_append] at htotal
    exact le_trans (Nat.le_add_right _ _) htotal
  entry e he := h.entry e (List.mem_append_left _ he)
  names := (List.pairwise_append.mp h.names).1

/-- **What the validator accepts** is told without an order. -/
theorem validateEntries_iff {entries : List ArchiveEntry} {limits : ValidationLimits} :
    (∃ v, validateEntries entries limits = .ok v) ↔ Admitted limits entries := by
  constructor
  · rintro ⟨v, hv⟩
    have htracks : v.Tracks limits entries :=
      Loop.foldlM_inv_done (I := fun entries (v : EntryValidator) => v.Tracks limits entries)
        (fun done e v v' h hpush => h.push hpush) (EntryValidator.tracks_new limits) hv
    exact htracks.admitted
  · intro h
    obtain ⟨v, hv, _⟩ := Loop.foldlM_succeeds (f := EntryValidator.push) (l := entries)
      (I := fun entries (v : EntryValidator) => v.Tracks limits entries)
      (fun done e rest v hl htracks => by
        rw [← hl, ← List.singleton_append, ← List.append_assoc] at h
        obtain ⟨v', hpush⟩ := htracks.push_of_admitted h.of_append
        exact ⟨v', hpush, htracks.push hpush⟩) (EntryValidator.tracks_new limits)
    exact ⟨v, hv⟩

/-! ### Paths of entries -/

def ArchiveEntry.parts (e : ArchiveEntry) : List (List Char) := e.name.toList.splitOn '/'

/-- A path up to ASCII case. -/
def foldParts (parts : List (List Char)) : List (List Char) := parts.map toAsciiLower

/-- The paths that extraction creates: those of the entries, and the directories
above them. -/
def extractedPaths (entries : List ArchiveEntry) : List (List (List Char)) :=
  entries.flatMap fun e => e.parts.inits.filter (· ≠ [])

/-- The directories that entries imply. -/
def impliedParents (entries : List ArchiveEntry) : List (List (List Char)) :=
  entries.flatMap fun e => e.parts.inits.filter fun d => d ≠ [] ∧ d ≠ e.parts

theorem mem_extractedPaths {entries : List ArchiveEntry} {p : List (List Char)} :
    p ∈ extractedPaths entries ↔ p ≠ [] ∧ ∃ e ∈ entries, p <+: e.parts := by
  simp only [extractedPaths, List.mem_flatMap, List.mem_filter, List.mem_inits, decide_eq_true_eq]
  constructor
  · rintro ⟨e, he, hp, hne⟩
    exact ⟨hne, e, he, hp⟩
  · rintro ⟨hne, e, he, hp⟩
    exact ⟨e, he, hp, hne⟩

theorem mem_impliedParents {entries : List ArchiveEntry} {d : List (List Char)} :
    d ∈ impliedParents entries ↔ d ≠ [] ∧ ∃ e ∈ entries, d <+: e.parts ∧ d ≠ e.parts := by
  simp only [impliedParents, List.mem_flatMap, List.mem_filter, List.mem_inits, decide_eq_true_eq]
  constructor
  · rintro ⟨e, he, hp, hne, hproper⟩
    exact ⟨hne, e, he, hp, hproper⟩
  · rintro ⟨hne, e, he, hp, hproper⟩
    exact ⟨e, he, hp, hne, hproper⟩

theorem toLower_eq_slash {c : Char} : (c.toLower == '/') = (c == '/') := by
  rw [Bool.eq_iff_iff, beq_iff_eq, beq_iff_eq]
  constructor
  · intro h
    rw [← h, toLower_eq_of_not_isAlpha (by rw [h]; decide)]
  · rintro rfl
    decide

/-- Lower-casing keeps the parts apart. -/
theorem splitOn_toAsciiLower (s : List Char) :
    (toAsciiLower s).splitOn '/' = (s.splitOn '/').map toAsciiLower := by
  induction s with
  | nil => rfl
  | cons c s ih =>
    rw [toAsciiLower, List.map_cons, List.splitOn_cons_eq_if_modifyHead, List.splitOn_cons_eq_if_modifyHead,
      toLower_eq_slash]
    rw [toAsciiLower] at ih
    rw [ih]
    by_cases hc : (c == '/') = true
    · rw [if_pos hc, if_pos hc, List.map_cons]
      rfl
    · rw [if_neg hc, if_neg hc]
      cases hsplit : s.splitOn '/' with
      | nil => rfl
      | cons part parts => rfl

theorem foldedName_eq_iff {e f : ArchiveEntry} :
    e.foldedName = f.foldedName ↔ foldParts e.parts = foldParts f.parts := by
  rw [foldParts, foldParts, ArchiveEntry.parts, ArchiveEntry.parts, ← splitOn_toAsciiLower,
    ← splitOn_toAsciiLower]
  constructor
  · intro h
    rw [ArchiveEntry.foldedName, ArchiveEntry.foldedName, EntryValidator.asciiLowercase,
      EntryValidator.asciiLowercase, String.ofList_inj] at h
    rw [h]
  · intro h
    have hjoin := congrArg (['/'].intercalate ·) h
    simp only [List.intercalate_splitOn] at hjoin
    rw [ArchiveEntry.foldedName, ArchiveEntry.foldedName, EntryValidator.asciiLowercase,
      EntryValidator.asciiLowercase, hjoin]

/-- No implied directory has a second spelling, and none is a file. -/
structure ParentsAgree (entries : List ArchiveEntry) : Prop where
  spelling : ∀ d ∈ impliedParents entries, ∀ p ∈ extractedPaths entries, foldParts d = foldParts p → d = p
  files : ∀ d ∈ impliedParents entries, ∀ e ∈ entries, e.kind = .file → e.parts ≠ d

/-- Different extracted paths differ up to ASCII case, and no file is above
another entry. -/
structure PathsAgree (entries : List ArchiveEntry) : Prop where
  distinct : ∀ p ∈ extractedPaths entries, ∀ q ∈ extractedPaths entries, foldParts p = foldParts q → p = q
  files : ∀ e ∈ entries, e.kind = .file → ∀ f ∈ entries, e.parts <+: f.parts → e.parts = f.parts

/-- The validator keeps the entries themselves apart, so that only the
directories they imply can collide. -/
theorem Admitted.pathsAgree_iff {limits : ValidationLimits} {entries : List ArchiveEntry}
    (h : Admitted limits entries) : PathsAgree entries ↔ ParentsAgree entries := by
  have hentry : ∀ e ∈ entries, ∀ f ∈ entries, foldParts e.parts = foldParts f.parts → e = f := by
    intro e he f hf heq
    by_contra hne
    have hsymm : Std.Symm fun e f : ArchiveEntry => e.foldedName ≠ f.foldedName := ⟨fun _ _ h => Ne.symm h⟩
    exact h.names.forall he hf hne (foldedName_eq_iff.mpr heq)
  constructor
  · intro hagree
    refine ⟨fun d hd p hp heq => ?_, fun d hd e he hfile heq => ?_⟩
    · obtain ⟨hne, e, he, hpre, _⟩ := mem_impliedParents.mp hd
      exact hagree.distinct d (mem_extractedPaths.mpr ⟨hne, e, he, hpre⟩) p hp heq
    · obtain ⟨hne, f, hf, hpre, hproper⟩ := mem_impliedParents.mp hd
      rw [← heq] at hpre hproper
      exact hproper (hagree.files e he hfile f hf hpre)
  · intro hparents
    refine ⟨fun p hp q hq heq => ?_, fun e he hfile f hf hpre => ?_⟩
    · obtain ⟨hpne, e, he, hpe⟩ := mem_extractedPaths.mp hp
      obtain ⟨hqne, f, hf, hqf⟩ := mem_extractedPaths.mp hq
      by_cases hpeq : p = e.parts
      · by_cases hqeq : q = f.parts
        · rw [hpeq, hqeq] at heq
          rw [hpeq, hqeq, hentry e he f hf heq]
        · exact (hparents.spelling q (mem_impliedParents.mpr ⟨hqne, f, hf, hqf, hqeq⟩) p hp heq.symm).symm
      · exact hparents.spelling p (mem_impliedParents.mpr ⟨hpne, e, he, hpe, hpeq⟩) q hq heq
    · by_contra hne
      have hsplit : e.parts ≠ [] := List.splitOn_ne_nil _ _
      exact hparents.files e.parts (mem_impliedParents.mpr ⟨hsplit, f, hf, hpre, hne⟩) e he hfile rfl

end Tapid
