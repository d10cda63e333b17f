/-
Names as a file system keeps them.

A file system that ignores case finds an entry under every spelling of its name
and keeps the spelling the entry was created with.  What it does at a path is
what an exact one does at the path as the tree spells it.

* `spelled` — a path in the spelling of a tree;
* `createDirAll_spelled`, `createNew_spelled` — the operations, at such a path;
* `storedPath` — the spelling that the entries of an archive leave;
* `spelled_storedPath` — the tree spells a path so.
-/
import Tapid.ArchiveOneTree

namespace Tapid

open Text Fallible Bytes

/-! ### Names up to a rule -/

/-- What a rule compares of a name. -/
def CaseRule.key : CaseRule → List UInt8 → List UInt8
  | .sensitive, name => name
  | .insensitive, name => name.map lowerByte

def CaseRule.keys (rule : CaseRule) (p : List FileName) : List (List UInt8) :=
  p.map fun n => rule.key n.bytes

section Keys

variable {rule : CaseRule}

theorem CaseRule.same_iff {n m : FileName} : rule.same n m = true ↔ rule.key n.bytes = rule.key m.bytes := by
  cases rule with
  | sensitive => exact beq_iff_eq.trans ⟨fun h => by rw [h], fun h => FileName.bytes_injective h⟩
  | insensitive => exact beq_iff_eq

@[simp] theorem CaseRule.keys_append (p q : List FileName) : rule.keys (p ++ q) = rule.keys p ++ rule.keys q :=
  List.map_append

@[simp] theorem CaseRule.length_keys (p : List FileName) : (rule.keys p).length = p.length := List.length_map _

theorem CaseRule.length_key (name : List UInt8) : (rule.key name).length = name.length := by
  cases rule with
  | sensitive => rfl
  | insensitive => exact List.length_map _

theorem CaseRule.keys_sensitive {p q : List FileName} (h : CaseRule.sensitive.keys p = CaseRule.sensitive.keys q) :
    p = q :=
  List.map_injective_iff.mpr FileName.bytes_injective h

end Keys

/-! ### The spelling of a tree -/

/-- What is below an entry. -/
def DirEntries.below (entries : DirEntries) (name : FileName) : DirEntries :=
  (DirEntries.find entries name.bytes).elim [] FileNode.children

/-- The name of the entry that is found under a name, or the name itself. -/
def spelledName (rule : CaseRule) (entries : DirEntries) (name : FileName) : FileName :=
  ((entries.find? fun e => rule.same e.1 name).map Prod.fst).getD name

def spelled (rule : CaseRule) : DirEntries → List FileName → List FileName
  | _, [] => []
  | entries, name :: rest =>
    spelledName rule entries name ::
      spelled rule (DirEntries.below entries (spelledName rule entries name)) rest

section Spelled

variable {rule : CaseRule} {entries : DirEntries} {name : FileName}

theorem spelledName_cons (n : FileName) (node : FileNode) : spelledName rule ((n, node) :: entries) name =
    if rule.same n name then n else spelledName rule entries name := by
  rw [spelledName, List.find?_cons]
  split_ifs with hsame
  · rw [hsame]
    rfl
  · rw [(Bool.not_eq_true _).mp hsame]
    rfl

/-- The name of an entry or the name itself, and the same for the rule. -/
theorem same_spelledName : rule.same (spelledName rule entries name) name = true := by
  induction entries with
  | nil => exact CaseRule.same_self rule name
  | cons e rest ih =>
    rw [spelledName_cons]
    split_ifs with hsame
    · exact hsame
    · exact ih

/-- An entry with another name is not the spelling. -/
theorem ne_spelledName {n : FileName} (h : ¬ rule.same n name = true) : n ≠ spelledName rule entries name :=
  fun heq => h (heq ▸ same_spelledName)

/-- **One entry is changed under the name it has.** -/
theorem updateEntry_spelled {f g : Option FileNode → Except ExtractError FileNode}
    (h : f (DirEntries.find entries (spelledName rule entries name).bytes) =
      g (DirEntries.find entries (spelledName rule entries name).bytes)) :
    updateEntry rule name f entries = updateEntry .sensitive (spelledName rule entries name) g entries := by
  induction entries with
  | nil =>
    rw [updateEntry, updateEntry]
    exact congrArg (· >>= fun node => pure [(name, node)]) h
  | cons e rest ih =>
    obtain ⟨n, node⟩ := e
    rw [updateEntry, updateEntry]
    by_cases hsame : rule.same n name = true
    · have hspelled : spelledName rule ((n, node) :: rest) name = n := by rw [spelledName_cons, if_pos hsame]
      have hfound : DirEntries.find ((n, node) :: rest) n.bytes = some node := by simp [DirEntries.find]
      rw [hspelled, hfound] at h
      rw [hspelled, if_pos hsame, if_pos (CaseRule.same_self _ n), h]
    · have hspelled : spelledName rule ((n, node) :: rest) name = spelledName rule rest name := by
        rw [spelledName_cons, if_neg hsame]
      have hne : n ≠ spelledName rule rest name := ne_spelledName hsame
      have hfound : DirEntries.find ((n, node) :: rest) (spelledName rule rest name).bytes =
          DirEntries.find rest (spelledName rule rest name).bytes := by
        have hbytes : (n.bytes == (spelledName rule rest name).bytes) = false :=
          beq_false_of_ne fun heq => hne (FileName.bytes_injective heq)
        simp [DirEntries.find, hbytes]
      rw [hspelled, hfound] at h
      have hexact : ¬ CaseRule.sensitive.same n (spelledName rule rest name) = true := fun heq => hne (eq_of_beq heq)
      rw [hspelled, if_neg hsame, if_neg hexact, ih h]

/-- **`create_dir_all` at a path is the exact one at the path as it is spelled.** -/
theorem createDirAll_spelled (path : List FileName) : ∀ entries : DirEntries,
    createDirAll rule path entries = createDirAll .sensitive (spelled rule entries path) entries := by
  induction path with
  | nil => exact fun _ => rfl
  | cons name rest ih =>
    intro entries
    rw [createDirAll, spelled, createDirAll]
    refine updateEntry_spelled ?_
    rw [DirEntries.below]
    cases DirEntries.find entries (spelledName rule entries name).bytes with
    | none => exact congrArg (Except.map FileNode.dir) (ih [])
    | some node =>
      cases node with
      | dir sub => exact congrArg (Except.map FileNode.dir) (ih sub)
      | file mode contents => cases rest <;> rfl
      | symlink leadsTo => cases rest <;> rfl
      | special => cases rest <;> rfl

/-- **And `create_new`.** -/
theorem createNew_spelled (node : FileNode) (path : List FileName) : ∀ entries : DirEntries,
    createNew rule node path entries = createNew .sensitive node (spelled rule entries path) entries := by
  induction path with
  | nil => exact fun _ => rfl
  | cons name rest ih =>
    intro entries
    cases rest with
    | nil =>
      rw [createNew, spelled, spelled, createNew]
      exact updateEntry_spelled rfl
    | cons next rest =>
      rw [spelled, spelled, createNew, createNew]
      · refine updateEntry_spelled ?_
        rw [DirEntries.below]
        cases DirEntries.find entries (spelledName rule entries name).bytes with
        | none => rfl
        | some node =>
          cases node with
          | dir sub => exact congrArg (Except.map FileNode.dir) (ih sub)
          | file mode contents => rfl
          | symlink leadsTo => rfl
          | special => rfl
      · exact fun h => List.cons_ne_nil _ _ h
      · exact fun h => List.cons_ne_nil _ _ h

end Spelled

/-! ### Spelled paths, seen from outside -/

section Shown

variable {rule : CaseRule} {entries : DirEntries}

/-- What is below an entry, whatever it is. -/
theorem shownAt_below (name : FileName) {p : List FileName} (hp : p ≠ []) :
    shownAt entries (name :: p) = shownAt (DirEntries.below entries name) p := by
  obtain ⟨n, p, rfl⟩ := List.exists_cons_of_ne_nil hp
  rw [shownAt_cons, DirEntries.below]
  cases DirEntries.find entries name.bytes with
  | none => rw [Option.elim_none, shownAt_empty_cons, Option.bind_none]
  | some node =>
    cases node with
    | dir sub => rfl
    | file mode contents =>
      show _ = shownAt [] (n :: p)
      rw [shownAt_empty_cons]
      rfl
    | symlink leadsTo =>
      show _ = shownAt [] (n :: p)
      rw [shownAt_empty_cons]
      rfl
    | special =>
      show _ = shownAt [] (n :: p)
      rw [shownAt_empty_cons]
      rfl

/-- An entry is shown. -/
theorem shownAt_of_mem {e : FileName × FileNode} (he : e ∈ entries) : shownAt entries [e.1] ≠ none := by
  obtain ⟨node, hnode⟩ := find_isSome_of_mem he
  rw [shownAt_cons, hnode]
  simp

/-- The spelling is that of the one entry that is the same, or the name itself
where there is none. -/
theorem spelledName_eq {name m : FileName} (hm : shownAt entries [m] ≠ none ∨ m = name)
    (hsame : rule.same m name = true)
    (hunique : ∀ k, shownAt entries [k] ≠ none → rule.same k name = true → k = m) :
    spelledName rule entries name = m := by
  rw [spelledName]
  cases hfind : entries.find? fun e => rule.same e.1 name with
  | some e =>
    rw [Option.map_some, Option.getD_some]
    exact hunique _ (shownAt_of_mem (List.mem_of_find?_eq_some hfind))
      (List.find?_some (p := fun e : FileName × FileNode => rule.same e.1 name) hfind)
  | none =>
    rw [Option.map_none, Option.getD_none]
    rcases hm with hm | rfl
    · obtain ⟨e, he, rfl⟩ := exists_entry_of_shownAt hm
      exact absurd hsame (List.find?_eq_none.mp hfind e he)
    · rfl

/-- **How a tree spells a path.** -/
theorem spelled_eq {p s : List FileName} (hlength : s.length = p.length)
    (h : ∀ s₁ m s₂ p₁ n p₂, s = s₁ ++ m :: s₂ → p = p₁ ++ n :: p₂ → s₁.length = p₁.length →
      (shownAt entries (s₁ ++ [m]) ≠ none ∨ m = n) ∧ rule.same m n = true ∧
        ∀ k, shownAt entries (s₁ ++ [k]) ≠ none → rule.same k n = true → k = m) :
    spelled rule entries p = s := by
  induction p generalizing s entries with
  | nil => exact (List.length_eq_zero_iff.mp hlength).symm
  | cons n p ih =>
    obtain ⟨m, s, rfl⟩ := List.exists_cons_of_length_eq_add_one hlength
    obtain ⟨hm, hsame, hunique⟩ := h [] m s [] n p rfl rfl rfl
    rw [spelled, spelledName_eq hm hsame hunique]
    refine congrArg (m :: ·) (ih (Nat.succ.inj hlength) fun s₁ m' s₂ p₁ n' p₂ hs hp hlen => ?_)
    have hbelow := h (m :: s₁) m' s₂ (n :: p₁) n' p₂ (by rw [hs]; rfl) (by rw [hp]; rfl)
      (congrArg Nat.succ hlen)
    rw [List.cons_append, shownAt_below m (by simp)] at hbelow
    refine ⟨hbelow.1, hbelow.2.1, fun k hk => hbelow.2.2 k ?_⟩
    rw [List.cons_append, shownAt_below m (by simp)]
    exact hk

end Shown

/-! ### The spelling entries leave -/

/-- The paths entries come by, in their order. -/
def comesBy (items : List ArchiveItem) : List (List FileName) := items.flatMap fun i => i.entry.target.inits

/-- A path as the first entry spells it that comes by. -/
def firstSpelling (rule : CaseRule) (items : List ArchiveItem) (p : List FileName) : List FileName :=
  ((comesBy items).find? fun q => rule.keys q == rule.keys p).getD p

/-- A path as it is stored: each of its directories, and the last name, in the
spelling of the first entry that comes by it. -/
def storedPath (rule : CaseRule) (items : List ArchiveItem) (p : List FileName) : List FileName :=
  p.inits.filterMap fun q => (firstSpelling rule items q).getLast?

section Stored

variable {rule : CaseRule} {items : List ArchiveItem}

theorem mem_comesBy {p : List FileName} : p ∈ comesBy items ↔ ∃ i ∈ items, p <+: i.entry.target := by
  simp only [comesBy, List.mem_flatMap, List.mem_inits]

@[simp] theorem keys_firstSpelling (p : List FileName) :
    rule.keys (firstSpelling rule items p) = rule.keys p := by
  rw [firstSpelling]
  cases hfind : (comesBy items).find? fun q => rule.keys q == rule.keys p with
  | none => rfl
  | some q => exact eq_of_beq (List.find?_some (p := fun q => rule.keys q == rule.keys p) hfind)

theorem storedPath_nil : storedPath rule items [] = [] := by
  have hnil : firstSpelling rule items [] = [] :=
    List.eq_nil_of_length_eq_zero (by rw [← rule.length_keys, keys_firstSpelling]; rfl)
  rw [storedPath, List.inits, List.filterMap_cons_none (by rw [hnil]; rfl)]
  rfl

/-- One name more. -/
theorem storedPath_concat (p : List FileName) (n : FileName) : ∃ q m,
    firstSpelling rule items (p ++ [n]) = q ++ [m] ∧ rule.same m n = true ∧
      storedPath rule items (p ++ [n]) = storedPath rule items p ++ [m] := by
  have hkeys : rule.keys (firstSpelling rule items (p ++ [n])) = rule.keys (p ++ [n]) := keys_firstSpelling _
  have hne : firstSpelling rule items (p ++ [n]) ≠ [] := by
    intro hnil
    rw [hnil, rule.keys_append] at hkeys
    simp [CaseRule.keys] at hkeys
  obtain ⟨q, m, hqm⟩ : ∃ q m, firstSpelling rule items (p ++ [n]) = q ++ [m] :=
    ⟨_, _, (List.dropLast_append_getLast hne).symm⟩
  refine ⟨q, m, hqm, ?_, ?_⟩
  · rw [hqm, rule.keys_append, rule.keys_append] at hkeys
    exact CaseRule.same_iff.mpr (List.singleton_inj.mp (List.append_inj_right' hkeys rfl))
  · have hinits : (p ++ [n]).inits = p.inits ++ [p ++ [n]] := by simp [List.inits_append]
    rw [storedPath, hinits, List.filterMap_append, ← storedPath, List.filterMap_cons_some (b := m)]
    · rfl
    · rw [hqm, List.getLast?_concat]

@[simp] theorem keys_storedPath (p : List FileName) : rule.keys (storedPath rule items p) = rule.keys p := by
  induction p using List.reverseRecOn with
  | nil => rw [storedPath_nil]
  | append_singleton p n ih =>
    obtain ⟨q, m, _, hsame, hstored⟩ := @storedPath_concat rule items p n
    rw [hstored, rule.keys_append, rule.keys_append, ih]
    exact congrArg (rule.keys p ++ [·]) (CaseRule.same_iff.mp hsame)

@[simp] theorem length_storedPath (p : List FileName) : (storedPath rule items p).length = p.length := by
  rw [← rule.length_keys, keys_storedPath, rule.length_keys]

theorem storedPath_ne_nil {p : List FileName} (h : p ≠ []) : storedPath rule items p ≠ [] := by
  rw [← List.length_pos_iff, length_storedPath]
  exact List.length_pos_iff.mpr h

theorem storedPath_isPrefix_of {p q : List FileName} (h : q <+: p) :
    storedPath rule items q <+: storedPath rule items p := by
  induction p using List.reverseRecOn with
  | nil => rw [List.prefix_nil.mp h]
  | append_singleton p n ih =>
    obtain ⟨_, m, _, _, hstored⟩ := @storedPath_concat rule items p n
    rcases List.prefix_concat_iff.mp h with rfl | h
    · exact List.prefix_rfl
    · rw [hstored]
      exact (ih h).trans (List.prefix_append _ _)

/-- What is above a stored path is stored. -/
theorem exists_of_prefix_storedPath {p s : List FileName} (h : s <+: storedPath rule items p) :
    ∃ q, q <+: p ∧ s = storedPath rule items q := by
  refine ⟨p.take s.length, List.take_prefix _ _, ?_⟩
  have hle := h.length_le
  rw [length_storedPath] at hle
  have hprefix := @storedPath_isPrefix_of rule items _ _ (List.take_prefix s.length p)
  refine (List.prefix_of_prefix_length_le h hprefix ?_).eq_of_length ?_
  · rw [length_storedPath, List.length_take]
    omega
  · rw [length_storedPath, List.length_take]
    omega

/-- Paths that come by and are the same for the rule are stored at one place. -/
theorem storedPath_congr {p q : List FileName} (hp : p ∈ comesBy items) (h : rule.keys p = rule.keys q) :
    storedPath rule items p = storedPath rule items q := by
  induction p using List.reverseRecOn generalizing q with
  | nil =>
    obtain rfl : q = [] := List.eq_nil_of_length_eq_zero (by rw [← rule.length_keys, ← h]; rfl)
    rfl
  | append_singleton p n ih =>
    have hne : q ≠ [] := by
      rintro rfl
      simp [CaseRule.keys] at h
    obtain ⟨q, k, rfl⟩ : ∃ q₀ k, q = q₀ ++ [k] := ⟨_, _, (List.dropLast_append_getLast hne).symm⟩
    obtain ⟨i, hi, hpre⟩ := mem_comesBy.mp hp
    have habove := ih (mem_comesBy.mpr ⟨i, hi, (List.prefix_append _ _).trans hpre⟩)
      (q := q) (by rw [rule.keys_append, rule.keys_append] at h; exact List.append_inj_left' h rfl)
    -- the search finds one spelling for both
    have hfirst : firstSpelling rule items (p ++ [n]) = firstSpelling rule items (q ++ [k]) := by
      rw [firstSpelling, firstSpelling, ← h]
      cases hfind : (comesBy items).find? fun r => rule.keys r == rule.keys (p ++ [n]) with
      | some r => rfl
      | none => exact absurd (beq_iff_eq.mpr rfl) (List.find?_eq_none.mp hfind _ hp)
    obtain ⟨_, m, hm, _, hstored⟩ := @storedPath_concat rule items p n
    obtain ⟨_, m', hm', _, hstored'⟩ := @storedPath_concat rule items q k
    rw [hstored, hstored', habove]
    rw [hfirst, hm'] at hm
    rw [List.singleton_inj.mp (List.append_inj_right' hm rfl)]

/-- An exact file system keeps every path as it is. -/
theorem storedPath_sensitive (p : List FileName) : storedPath .sensitive items p = p :=
  CaseRule.keys_sensitive (keys_storedPath p)

/-- Where no entry came by before, the spelling is one's own. -/
theorem firstSpelling_of_new {done rest : List ArchiveItem} {item : ArchiveItem}
    (hl : done ++ item :: rest = items) {p : List FileName} (hp : p <+: item.entry.target)
    (hnew : ∀ q ∈ comesBy done, rule.keys q ≠ rule.keys p) : firstSpelling rule items p = p := by
  have hdone : (comesBy done).find? (fun q => rule.keys q == rule.keys p) = none :=
    List.find?_eq_none.mpr fun q hq hbeq => hnew q hq (eq_of_beq hbeq)
  have hitem : item.entry.target.inits.find? (fun q => rule.keys q == rule.keys p) = some p := by
    cases hfind : item.entry.target.inits.find? fun q => rule.keys q == rule.keys p with
    | none =>
      exact absurd (beq_iff_eq.mpr rfl) (List.find?_eq_none.mp hfind p ((List.mem_inits _ _).mpr hp))
    | some q =>
      have hq := (List.mem_inits _ _).mp (List.mem_of_find?_eq_some hfind)
      have hkeys : rule.keys q = rule.keys p :=
        eq_of_beq (List.find?_some (p := fun q => rule.keys q == rule.keys p) hfind)
      have hlength : q.length = p.length := by rw [← rule.length_keys, hkeys, rule.length_keys]
      rw [(List.prefix_of_prefix_length_le hq hp hlength.le).eq_of_length hlength]
  rw [firstSpelling, comesBy, ← hl, List.flatMap_append, List.flatMap_cons, List.find?_append,
    List.find?_append, ← comesBy, hdone, hitem]
  rfl

/-- **How a tree spells a path that is being created**, if it shows what came by
so far and nothing else. -/
theorem spelled_storedPath {tree : DirEntries} {p : List FileName} {R : List FileName → Prop}
    (hcomes : ∀ q, R q → q ∈ comesBy items)
    (hshown : ∀ q, R q → shownAt tree (storedPath rule items q) ≠ none)
    (honly : ∀ q n k, q ++ [n] <+: p → rule.same k n = true →
      shownAt tree (storedPath rule items q ++ [k]) ≠ none →
        ∃ q', R q' ∧ storedPath rule items q ++ [k] = storedPath rule items q')
    (hfirst : ∀ q n, q ++ [n] <+: p → (∃ q', R q' ∧ rule.keys q' = rule.keys (q ++ [n])) ∨
      firstSpelling rule items (q ++ [n]) = q ++ [n]) :
    spelled rule tree p = storedPath rule items p := by
  refine spelled_eq (length_storedPath p) fun s₁ m s₂ p₁ n p₂ hs hp hlen => ?_
  have hpre : p₁ ++ [n] <+: p := ⟨p₂, by rw [hp, List.append_assoc]; rfl⟩
  have hstored₁ : s₁ = storedPath rule items p₁ := by
    have hs₁ : s₁ <+: storedPath rule items p := ⟨m :: s₂, hs.symm⟩
    refine (List.prefix_of_prefix_length_le hs₁
      (storedPath_isPrefix_of ((List.prefix_append _ _).trans hpre)) ?_).eq_of_length ?_
    · rw [length_storedPath, hlen]
    · rw [length_storedPath, hlen]
  have hstored : s₁ ++ [m] = storedPath rule items (p₁ ++ [n]) := by
    have hsm : s₁ ++ [m] <+: storedPath rule items p := ⟨s₂, by rw [hs, List.append_assoc]; rfl⟩
    refine (List.prefix_of_prefix_length_le hsm (storedPath_isPrefix_of hpre) ?_).eq_of_length ?_ <;>
      simp [hlen]
  obtain ⟨q, m', hfirst', hsame, hconcat⟩ := @storedPath_concat rule items p₁ n
  obtain rfl : m = m' := by
    rw [hconcat, hstored₁] at hstored
    exact List.singleton_inj.mp (List.append_cancel_left hstored)
  refine ⟨?_, hsame, fun k hk hkn => ?_⟩
  · rcases hfirst p₁ n hpre with ⟨q', hq', hkeys⟩ | hnew
    · left
      rw [hstored, ← storedPath_congr (hcomes q' hq') hkeys]
      exact hshown q' hq'
    · right
      rw [hfirst'] at hnew
      exact List.singleton_inj.mp (List.append_inj_right' hnew rfl)
  · rw [hstored₁] at hk
    obtain ⟨q', hq', hkq⟩ := honly p₁ n k hpre hkn hk
    have hkeys : rule.keys q' = rule.keys (p₁ ++ [n]) := by
      rw [← @keys_storedPath rule items q', ← hkq, rule.keys_append, rule.keys_append, keys_storedPath]
      exact congrArg (rule.keys p₁ ++ [·]) (CaseRule.same_iff.mp hkn)
    have hsame' := storedPath_congr (hcomes q' hq') hkeys
    rw [← hkq, hconcat] at hsame'
    exact List.singleton_inj.mp (List.append_cancel_left hsame')

end Stored

/-! ### Look-ups -/

/-- The entry a file system finds under a name. -/
def DirEntries.lookup (rule : CaseRule) (entries : DirEntries) (name : List UInt8) : Option FileNode :=
  (entries.find? fun e => rule.key e.1.bytes == rule.key name).map Prod.snd

/-- What `symlink_metadata` finds at a path. -/
def FileNode.metadataBy (rule : CaseRule) : FileNode → List (List UInt8) → Option FileNode
  | node, [] => some node
  | .dir entries, name :: rest =>
    (DirEntries.lookup rule entries name).bind fun node => node.metadataBy rule rest
  | .symlink (some (.dir entries)), name :: rest =>
    (DirEntries.lookup rule entries name).bind fun node => node.metadataBy rule rest
  | _, _ :: _ => none

/-- An exact file system finds what is there under the very name. -/
theorem metadataBy_sensitive (node : FileNode) (p : List (List UInt8)) :
    node.metadataBy .sensitive p = node.metadataAt p := by
  induction p generalizing node with
  | nil => cases node <;> simp [FileNode.metadataBy, FileNode.metadataAt]
  | cons name p ih =>
    have hstep : ∀ entries : DirEntries,
        ((DirEntries.lookup .sensitive entries name).bind fun node => node.metadataBy .sensitive p) =
          (DirEntries.find entries name).bind fun node => node.metadataAt p := fun entries =>
      congrArg _ (funext ih)
    unfold FileNode.metadataBy FileNode.metadataAt
    split <;> simp_all

section Lookup

variable {rule : CaseRule} {entries : DirEntries}

/-- A look-up finds the entry with the name as it is spelled. -/
theorem lookup_eq_find (name : FileName) : DirEntries.lookup rule entries name.bytes =
    DirEntries.find entries (spelledName rule entries name).bytes := by
  induction entries with
  | nil => rfl
  | cons e rest ih =>
    obtain ⟨n, node⟩ := e
    rw [spelledName_cons, DirEntries.lookup, DirEntries.find, List.find?_cons]
    by_cases hsame : rule.same n name = true
    · rw [if_pos hsame, beq_iff_eq.mpr (CaseRule.same_iff.mp hsame), List.find?_cons_of_pos (by simp)]
    · have hkey : (rule.key n.bytes == rule.key name.bytes) = false :=
        beq_false_of_ne fun heq => hsame (CaseRule.same_iff.mpr heq)
      have hbytes : (n.bytes == (spelledName rule rest name).bytes) = false :=
        beq_false_of_ne fun heq => ne_spelledName hsame (FileName.bytes_injective heq)
      rw [if_neg hsame, hkey, List.find?_cons, hbytes]
      exact ih

/-- **A file is found under every name it goes by.** -/
theorem metadataBy_of_at {mode : Nat} {contents : List UInt8} {p : List FileName}
    (h : (FileNode.dir entries).at (spelled rule entries p) = some (.file mode contents)) :
    (FileNode.dir entries).metadataBy rule (p.map FileName.bytes) = some (.file mode contents) := by
  induction p generalizing entries with
  | nil => exact h
  | cons n p ih =>
    rw [spelled, FileNode.at_dir_cons] at h
    obtain ⟨node, hfind, hat⟩ := Option.bind_eq_some_iff.mp h
    rw [List.map_cons, FileNode.metadataBy, lookup_eq_find, hfind, Option.bind_some]
    rw [DirEntries.below, hfind] at hat
    cases p with
    | nil =>
      rw [spelled, FileNode.at_nil] at hat
      rw [Option.some_inj.mp hat]
      rfl
    | cons next p =>
      cases node with
      | dir sub => exact ih hat
      | file mode contents => rw [spelled] at hat; cases hat
      | symlink leadsTo => rw [spelled] at hat; cases hat
      | special => rw [spelled] at hat; cases hat

end Lookup

end Tapid
