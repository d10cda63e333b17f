/-
The files of a package source.

What is collected of a directory is the lists of its entries, one after the
others; only the limit on their number looks at how many there are already.
So another order of the entries gives another order of the files, which are
sorted afterwards.

* `Gathers`, `collectFiles_eq_ok` — the files of a directory, however many;
* `Included`, `Gathers.mem_iff` — the files that are collected;
* `SameUpToOrder`, `Gathers.perm` — directories read in another order;
* `normalizedSourcePaths_eq_ok` — the files of a source.
-/
import Tapid.Loop
import Tapid.Publish
import Tapid.Sorting

namespace Tapid

open Fallible

namespace Publish

section Gather

variable (system : LexicalPath.Rules) (source : PackageSource)

/-- The path in the package of what is in a directory under a name. -/
structure RelName (dir : List OsName) (name : OsName) (rel : String) : Prop where
  path : normalizePath system (lossyText (dir ++ [name])) = .ok rel
  short : byteLength rel ≤ 4096

/-- What becomes of an entry, given what becomes of the directories below. -/
inductive EntryFiles (below : List OsName → List SourcePath → Prop) (dir : List OsName) :
    Option OsName → List SourcePath → Prop
  | skipped {name : OsName} {rel : String} : RelName system dir name rel →
      source.exclusions.skips rel = true → EntryFiles below dir (some name) []
  | file {name : OsName} {rel : String} : RelName system dir name rel →
      source.exclusions.skips rel = false → source.tree.kind (dir ++ [name]) = some .file →
      EntryFiles below dir (some name) [⟨rel, dir ++ [name]⟩]
  | directory {name : OsName} {rel : String} {files : List SourcePath} : RelName system dir name rel →
      source.exclusions.skips rel = false → source.tree.kind (dir ++ [name]) = some .directory →
      below (dir ++ [name]) files → EntryFiles below dir (some name) files

/-- The files of a directory, with the depth that is left. -/
def Gathers : Nat → List OsName → List SourcePath → Prop
  | 0, _, _ => False
  | left + 1, dir, files => ∃ entries parts, source.tree.readDir dir = some entries ∧
      List.Forall₂ (EntryFiles system source (Gathers left) dir) entries parts ∧ files = parts.flatten

/-- There is room for so many files more. -/
def Room (out files : List SourcePath) : Prop := files = [] ∨ out.length + files.length ≤ source.limits.maxFiles

variable {system source}

theorem room_append {out a b : List SourcePath} :
    Room source out a ∧ Room source (out ++ a) b ↔ Room source out (a ++ b) := by
  unfold Room
  rw [List.append_eq_nil_iff, List.length_append, List.length_append]
  constructor
  · rintro ⟨rfl | ha, rfl | hb⟩
    · exact .inl ⟨rfl, rfl⟩
    · exact .inr (by rw [List.length_nil] at hb ⊢; omega)
    · exact .inr (by rw [List.length_nil]; omega)
    · exact .inr (by omega)
  · rintro (⟨rfl, rfl⟩ | h)
    · exact ⟨.inl rfl, .inl rfl⟩
    · exact ⟨.inr (by omega), .inr (by omega)⟩

/-- One entry. -/
theorem collectEntry_eq_ok {descend : List OsName → List SourcePath → Except PublishError (List SourcePath)}
    {below : List OsName → List SourcePath → Prop} (hdescend : ∀ dir out state, descend dir out = .ok state ↔
      ∃ files, below dir files ∧ Room source out files ∧ state = out ++ files)
    {dir : List OsName} {out state : List SourcePath} {entry : Option OsName} :
    collectEntry system source descend dir out entry = .ok state ↔
      ∃ files, EntryFiles system source below dir entry files ∧ Room source out files ∧ state = out ++ files := by
  unfold collectEntry
  constructor
  · intro hstart
    obtain ⟨name, hname, h⟩ := bind_eq_ok.mp hstart
    obtain rfl := orError_eq_ok.mp hname
    obtain ⟨rel, hrel, h⟩ := bind_eq_ok.mp h
    obtain ⟨_, hshort, h⟩ := bind_eq_ok.mp h
    rw [rejectIf_eq_ok, Nat.not_lt] at hshort
    have hname : RelName system dir name rel := ⟨hrel, hshort⟩
    by_cases hskips : source.exclusions.skips rel = true
    · rw [if_pos hskips] at h
      obtain rfl := Except.ok.inj h
      exact ⟨[], .skipped hname hskips, .inl rfl, (List.append_nil _).symm⟩
    · rw [if_neg hskips] at h
      rw [Bool.not_eq_true] at hskips
      split at h
      · cases h
      · cases h
      · rename_i hkind
        obtain ⟨files, hfiles, hroom, rfl⟩ := (hdescend _ _ _).mp h
        exact ⟨files, .directory hname hskips hkind hfiles, hroom, rfl⟩
      · rename_i hkind
        split_ifs at h with hcount
        obtain rfl := Except.ok.inj h
        exact ⟨_, .file hname hskips hkind, .inr (by rw [List.length_singleton]; omega), rfl⟩
  · rintro ⟨files, hfiles, hroom, rfl⟩
    cases hfiles with
    | skipped hrel hskips =>
      refine bind_eq_ok.mpr ⟨_, rfl, bind_eq_ok.mpr ⟨_, hrel.path, ?_⟩⟩
      refine bind_eq_ok.mpr ⟨(), rejectIf_eq_ok.mpr (Nat.not_lt.mpr hrel.short), ?_⟩
      rw [if_pos hskips, List.append_nil]
      rfl
    | file hrel hskips hkind =>
      refine bind_eq_ok.mpr ⟨_, rfl, bind_eq_ok.mpr ⟨_, hrel.path, ?_⟩⟩
      refine bind_eq_ok.mpr ⟨(), rejectIf_eq_ok.mpr (Nat.not_lt.mpr hrel.short), ?_⟩
      have hcount : ¬ source.limits.maxFiles ≤ out.length := by
        rcases hroom with hnil | hroom
        · cases hnil
        · rw [List.length_singleton] at hroom
          omega
      rw [if_neg (by rw [hskips]; decide), hkind]
      exact if_neg hcount
    | directory hrel hskips hkind hbelow =>
      refine bind_eq_ok.mpr ⟨_, rfl, bind_eq_ok.mpr ⟨_, hrel.path, ?_⟩⟩
      refine bind_eq_ok.mpr ⟨(), rejectIf_eq_ok.mpr (Nat.not_lt.mpr hrel.short), ?_⟩
      rw [if_neg (by rw [hskips]; decide), hkind]
      exact (hdescend _ _ _).mpr ⟨files, hbelow, hroom, rfl⟩

/-- **The files of a directory are collected** when there is room for them. -/
theorem collectFiles_eq_ok {left : Nat} : ∀ (dir : List OsName) (out state : List SourcePath),
    collectFiles system source left dir out = .ok state ↔
      ∃ files, Gathers system source left dir files ∧ Room source out files ∧ state = out ++ files := by
  induction left with
  | zero =>
    refine fun dir out state => ⟨fun h => ?_, fun h => ?_⟩
    · cases h
    · obtain ⟨_, h, _⟩ := h
      cases h
  | succ left ih =>
    have hloop : ∀ (dir : List OsName) (entries : List (Option OsName)) (out state : List SourcePath),
        entries.foldlM (collectEntry system source (collectFiles system source left) dir) out = .ok state ↔
          ∃ parts, List.Forall₂ (EntryFiles system source (Gathers system source left) dir) entries parts ∧
            Room source out parts.flatten ∧ state = out ++ parts.flatten := by
      intro dir entries
      induction entries with
      | nil =>
        refine fun out state => ⟨fun h => ?_, ?_⟩
        · obtain rfl := pure_eq_ok.mp h
          exact ⟨[], .nil, .inl rfl, (List.append_nil _).symm⟩
        · rintro ⟨parts, hparts, _, rfl⟩
          cases hparts
          exact pure_eq_ok.mpr (List.append_nil _).symm
      | cons entry entries ihl =>
        refine fun out state => ⟨fun h => ?_, ?_⟩
        · obtain ⟨mid, hmid, h⟩ := Loop.foldlM_cons_eq_ok.mp h
          obtain ⟨files, hfiles, hroom, rfl⟩ := (collectEntry_eq_ok ih).mp hmid
          obtain ⟨parts, hparts, hrest, rfl⟩ := (ihl _ _).mp h
          exact ⟨files :: parts, .cons hfiles hparts, room_append.mp ⟨hroom, hrest⟩, List.append_assoc _ _ _⟩
        · rintro ⟨parts, hparts, hroom, rfl⟩
          cases hparts with
          | @cons _ files _ parts hfiles hparts =>
            obtain ⟨hroom, hrest⟩ := room_append.mpr hroom
            refine Loop.foldlM_cons_eq_ok.mpr ⟨_, (collectEntry_eq_ok ih).mpr ⟨files, hfiles, hroom, rfl⟩, ?_⟩
            exact (ihl _ _).mpr ⟨parts, hparts, hrest, (List.append_assoc _ _ _).symm⟩
    intro dir out state
    rw [collectFiles]
    cases hread : source.tree.readDir dir with
    | none =>
      refine ⟨fun h => ?_, fun h => ?_⟩
      · cases h
      · obtain ⟨_, ⟨_, _, hread', _⟩, _⟩ := h
        rw [hread] at hread'
        cases hread'
    | some entries =>
      refine (hloop dir entries out state).trans ⟨?_, ?_⟩
      · rintro ⟨parts, hparts, hroom, rfl⟩
        exact ⟨_, ⟨entries, parts, hread, hparts, rfl⟩, hroom, rfl⟩
      · rintro ⟨_, ⟨entries', parts, hread', hparts, rfl⟩, hroom, rfl⟩
        rw [hread] at hread'
        obtain rfl := Option.some_inj.mp hread'
        exact ⟨parts, hparts, hroom, rfl⟩

end Gather

/-! ### The files that are collected -/

section Included

variable (system : LexicalPath.Rules) (source : PackageSource)

/-- What a directory has that is not left out. -/
structure Lists (dir : List OsName) (name : OsName) (rel : String) : Prop where
  listed : ∃ entries, source.tree.readDir dir = some entries ∧ some name ∈ entries
  path : normalizePath system (lossyText (dir ++ [name])) = .ok rel
  kept : source.exclusions.skips rel = false

/-- A directory of a directory. -/
def Enters (dir sub : List OsName) : Prop :=
  ∃ name rel, Lists system source dir name rel ∧ source.tree.kind (dir ++ [name]) = some .directory ∧
    sub = dir ++ [name]

/-- A file of a directory. -/
def Holds (dir : List OsName) (found : SourcePath) : Prop :=
  ∃ name rel, Lists system source dir name rel ∧ source.tree.kind (dir ++ [name]) = some .file ∧
    found = ⟨rel, dir ++ [name]⟩

/-- A file of a directory that is entered from the root. -/
def Included (found : SourcePath) : Prop :=
  ∃ dir, Relation.ReflTransGen (Enters system source) [] dir ∧ Holds system source dir found

variable {system source}

/-- **What is collected are the files that are included.** -/
theorem Gathers.mem_iff {left : Nat} {dir : List OsName} {files : List SourcePath}
    (h : Gathers system source left dir files) {found : SourcePath} : found ∈ files ↔
      ∃ sub, Relation.ReflTransGen (Enters system source) dir sub ∧ Holds system source sub found := by
  induction left generalizing dir files with
  | zero => cases h
  | succ left ih =>
    obtain ⟨entries, parts, hread, hparts, rfl⟩ := h
    rw [List.mem_flatten]
    constructor
    · rintro ⟨part, hpart, hfound⟩
      obtain ⟨entry, hentry, hfiles⟩ := exists_left hparts hpart
      cases hfiles with
      | skipped => cases hfound
      | @file name rel hrel hkept hkind =>
        obtain rfl := List.mem_singleton.mp hfound
        exact ⟨dir, .refl, name, rel, ⟨⟨entries, hread, hentry⟩, hrel.path, hkept⟩, hkind, rfl⟩
      | @directory name rel files hrel hkept hkind hbelow =>
        obtain ⟨sub, hsub, hholds⟩ := (ih hbelow).mp hfound
        refine ⟨sub, .head ⟨name, rel, ⟨⟨entries, hread, hentry⟩, hrel.path, hkept⟩, hkind, rfl⟩ hsub, hholds⟩
    · rintro ⟨sub, hsub, hholds⟩
      rcases Relation.ReflTransGen.cases_head hsub with rfl | ⟨mid, ⟨name, rel, hlists, hkind, rfl⟩, hsub⟩
      · obtain ⟨name, rel, hlists, hkind, rfl⟩ := hholds
        obtain ⟨part, hpart, hfiles⟩ := of_lists hread hparts hlists
        cases hfiles with
        | skipped hrel hskips =>
          obtain rfl := Except.ok.inj (hrel.path.symm.trans hlists.path)
          rw [hlists.kept] at hskips
          cases hskips
        | file hrel hkept hkind' =>
          obtain rfl := Except.ok.inj (hrel.path.symm.trans hlists.path)
          exact ⟨_, hpart, List.mem_singleton_self _⟩
        | directory hrel hkept hkind' hbelow =>
          rw [hkind] at hkind'
          cases hkind'
      · obtain ⟨part, hpart, hfiles⟩ := of_lists hread hparts hlists
        cases hfiles with
        | skipped hrel hskips =>
          obtain rfl := Except.ok.inj (hrel.path.symm.trans hlists.path)
          rw [hlists.kept] at hskips
          cases hskips
        | file hrel hkept hkind' =>
          rw [hkind] at hkind'
          cases hkind'
        | directory hrel hkept hkind' hbelow => exact ⟨_, hpart, (ih hbelow).mpr ⟨sub, hsub, hholds⟩⟩
where
  exists_left {α β : Type} {R : α → β → Prop} {l : List α} {r : List β} {b : β} (h : List.Forall₂ R l r)
      (hb : b ∈ r) : ∃ a ∈ l, R a b := by
    induction h with
    | nil => cases hb
    | cons hab _ ih =>
      rcases List.mem_cons.mp hb with rfl | hb
      · exact ⟨_, List.mem_cons_self, hab⟩
      · obtain ⟨a, ha, hab⟩ := ih hb
        exact ⟨a, List.mem_cons_of_mem _ ha, hab⟩
  of_lists {below : List OsName → List SourcePath → Prop} {dir : List OsName} {entries : List (Option OsName)}
      {parts : List (List SourcePath)} {name : OsName} {rel : String} (hread : source.tree.readDir dir = some entries)
      (hparts : List.Forall₂ (EntryFiles system source below dir) entries parts)
      (hlists : Lists system source dir name rel) :
      ∃ part ∈ parts, EntryFiles system source below dir (some name) part := by
    obtain ⟨entries', hread', hentry⟩ := hlists.listed
    rw [hread] at hread'
    obtain rfl := Option.some_inj.mp hread'
    exact exists_left hparts.flip hentry

end Included

/-! ### The order of the entries -/

/-- Trees that differ in the order their directories are read in. -/
structure SameUpToOrder (a b : SourceTree) : Prop where
  isDir : a.isDir = b.isDir
  kind : a.kind = b.kind
  file : a.file = b.file
  readDir : ∀ dir, Option.Rel List.Perm (a.readDir dir) (b.readDir dir)

theorem SameUpToOrder.symm {a b : SourceTree} (h : SameUpToOrder a b) : SameUpToOrder b a := by
  refine ⟨h.isDir.symm, h.kind.symm, h.file.symm, fun dir => ?_⟩
  have hdir := h.readDir dir
  revert hdir
  cases a.readDir dir <;> cases b.readDir dir <;> intro hdir
  · exact .none
  · cases hdir
  · cases hdir
  · cases hdir with
    | some hperm => exact .some hperm.symm

variable {system : LexicalPath.Rules} {source : PackageSource} {tree : SourceTree}

/-- **Another order of the entries gives another order of the files.** -/
theorem Gathers.perm (htree : SameUpToOrder source.tree tree) {left : Nat} {dir : List OsName}
    {files : List SourcePath} (h : Gathers system source left dir files) :
    ∃ files', Gathers system { source with tree } left dir files' ∧ files.Perm files' := by
  induction left generalizing dir files with
  | zero => cases h
  | succ left ih =>
    obtain ⟨entries, parts, hread, hparts, rfl⟩ := h
    -- each entry in the other tree
    have hentry : ∀ entry part, EntryFiles system source (Gathers system source left) dir entry part →
        ∃ part', part.Perm part' ∧
          EntryFiles system { source with tree } (Gathers system { source with tree } left) dir entry part' := by
      intro entry part hpart
      cases hpart with
      | skipped hrel hskips => exact ⟨_, .refl _, .skipped hrel hskips⟩
      | @file name rel hrel hkept hkind =>
        rw [htree.kind] at hkind
        exact ⟨_, .refl _, .file hrel hkept hkind⟩
      | directory hrel hkept hkind hbelow =>
        obtain ⟨files', hfiles', hperm⟩ := ih hbelow
        rw [htree.kind] at hkind
        exact ⟨files', hperm, .directory hrel hkept hkind hfiles'⟩
    have hall : ∀ {entries parts}, List.Forall₂ (EntryFiles system source (Gathers system source left) dir) entries
        parts → ∃ parts', parts.flatten.Perm parts'.flatten ∧
          List.Forall₂ (EntryFiles system { source with tree } (Gathers system { source with tree } left) dir) entries
            parts' := by
      intro entries parts hparts
      induction hparts with
      | nil => exact ⟨[], .refl _, .nil⟩
      | cons hpart _ ihp =>
        obtain ⟨part', hperm, hpart'⟩ := hentry _ _ hpart
        obtain ⟨parts', hperms, hparts'⟩ := ihp
        refine ⟨part' :: parts', ?_, .cons hpart' hparts'⟩
        rw [List.flatten_cons, List.flatten_cons]
        exact hperm.append hperms
    obtain ⟨parts', hflat, hparts'⟩ := hall hparts
    -- the entries in the other order
    have hdir := htree.readDir dir
    rw [hread] at hdir
    generalize hread' : tree.readDir dir = listing at hdir
    cases hdir with
    | @some _ entries' hperm =>
      obtain ⟨parts'', hparts'', hperm''⟩ := List.perm_comp_forall₂ hperm.symm hparts'
      exact ⟨_, ⟨entries', parts'', hread', hparts'', rfl⟩, hflat.trans hperm''.symm.flatten⟩

/-! ### The files of a source -/

section Paths

variable {collisionKey : String → String}

/-- The check for collisions passes when all keys are different. -/
theorem checkCollisions_eq_ok {files : List SourcePath} {seen : OrdSet String} :
    (∃ after, files.foldlM (checkCollision collisionKey) seen = .ok after) ↔
      (∀ found ∈ files, collisionKey found.path ∉ seen) ∧
        (files.map fun found => collisionKey found.path).Nodup := by
  induction files generalizing seen with
  | nil => exact ⟨fun _ => ⟨fun _ h => absurd h List.not_mem_nil, List.nodup_nil⟩, fun _ => ⟨seen, rfl⟩⟩
  | cons found files ih =>
    have hone : ∀ after, checkCollision collisionKey seen found = .ok after ↔
        collisionKey found.path ∉ seen ∧ after = seen.insert (collisionKey found.path) := by
      intro after
      unfold checkCollision
      split_ifs with h
      · refine ⟨fun heq => ?_, fun heq => absurd h heq.1⟩
        cases heq
      · exact ⟨fun heq => ⟨h, (Except.ok.inj heq).symm⟩, fun heq => congrArg Except.ok heq.2.symm⟩
    rw [List.map_cons, List.nodup_cons, List.mem_map, List.forall_mem_cons]
    constructor
    · rintro ⟨after, h⟩
      obtain ⟨mid, hmid, h⟩ := Loop.foldlM_cons_eq_ok.mp h
      obtain ⟨hnew, rfl⟩ := (hone mid).mp hmid
      obtain ⟨hseen, hnodup⟩ := ih.mp ⟨after, h⟩
      refine ⟨⟨hnew, fun f hf h => hseen f hf (OrdSet.mem_insert.mpr (.inr h))⟩, ?_, hnodup⟩
      rintro ⟨f, hf, heq⟩
      exact hseen f hf (OrdSet.mem_insert.mpr (.inl heq))
    · rintro ⟨⟨hnew, hseen⟩, hout, hnodup⟩
      have hrest : ∀ f ∈ files, collisionKey f.path ∉ seen.insert (collisionKey found.path) := by
        intro f hf hmem
        rcases OrdSet.mem_insert.mp hmem with heq | hmem
        · exact hout ⟨f, hf, heq⟩
        · exact hseen f hf hmem
      obtain ⟨after, h⟩ := ih.mpr ⟨hrest, hnodup⟩
      exact ⟨after, Loop.foldlM_cons_eq_ok.mpr ⟨_, (hone _).mpr ⟨hnew, rfl⟩, h⟩⟩

/-- **The files of a source**, in the order of their paths. -/
theorem normalizedSourcePaths_eq_ok {paths : List SourcePath} :
    normalizedSourcePaths system source collisionKey = .ok paths ↔ source.tree.isDir = true ∧
      ∃ files, Gathers system source maxDepth [] files ∧ Room source [] files ∧
        (files.map fun found => collisionKey found.path).Nodup ∧
        paths = files.insertionSort fun a b => a.key ≤ b.key := by
  have hkeys : ∀ files : List SourcePath,
      (∃ after, (files.insertionSort fun a b => a.key ≤ b.key).foldlM (checkCollision collisionKey) ∅ = .ok after) ↔
        (files.map fun found => collisionKey found.path).Nodup := by
    intro files
    rw [checkCollisions_eq_ok, ((List.perm_insertionSort _ files).map _).nodup_iff]
    exact ⟨And.right, fun h => ⟨fun _ _ => OrdSet.not_mem_empty _, h⟩⟩
  unfold normalizedSourcePaths
  constructor
  · intro h
    obtain ⟨_, hdir, h⟩ := bind_eq_ok.mp h
    obtain ⟨files, hfiles, h⟩ := bind_eq_ok.mp h
    obtain ⟨after, hafter, h⟩ := bind_eq_ok.mp h
    rw [rejectIf_eq_ok, Bool.not_eq_false] at hdir
    obtain ⟨files, hgathers, hroom, rfl⟩ := (collectFiles_eq_ok _ _ _).mp hfiles
    exact ⟨hdir, files, hgathers, hroom, (hkeys files).mp ⟨after, hafter⟩, (Except.ok.inj h).symm⟩
  · rintro ⟨hdir, files, hgathers, hroom, hnodup, rfl⟩
    obtain ⟨after, hafter⟩ := (hkeys files).mpr hnodup
    refine bind_eq_ok.mpr ⟨(), rejectIf_eq_ok.mpr (by rw [hdir]; decide), ?_⟩
    refine bind_eq_ok.mpr ⟨files, (collectFiles_eq_ok _ _ _).mpr ⟨files, hgathers, hroom, rfl⟩, ?_⟩
    exact bind_eq_ok.mpr ⟨after, hafter, rfl⟩

theorem SourcePath.key_injective : Function.Injective SourcePath.key := by
  intro a b h
  have hpair : (a.path, a.full) = (b.path, b.full) := toLex.injective h
  obtain ⟨hpath, hfull⟩ := Prod.mk.inj hpair
  cases a
  cases b
  cases hpath
  cases hfull
  rfl

/-- **The files of a source do not depend on the order its directories are read in.** -/
theorem normalizedSourcePaths_of_sameUpToOrder (htree : SameUpToOrder source.tree tree) {paths : List SourcePath}
    (h : normalizedSourcePaths system source collisionKey = .ok paths) :
    normalizedSourcePaths system { source with tree } collisionKey = .ok paths := by
  obtain ⟨hdir, files, hgathers, hroom, hnodup, rfl⟩ := normalizedSourcePaths_eq_ok.mp h
  obtain ⟨files', hgathers', hperm⟩ := hgathers.perm htree
  refine normalizedSourcePaths_eq_ok.mpr ⟨htree.isDir ▸ hdir, files', hgathers', ?_, ?_, ?_⟩
  · rcases hroom with rfl | hroom
    · exact .inl hperm.symm.eq_nil
    · exact .inr (hperm.length_eq ▸ hroom)
  · exact (hperm.map _).nodup_iff.mp hnodup
  · exact Sorting.insertionSort_eq_of_perm hperm fun a _ b _ heq => SourcePath.key_injective heq

/-- **The paths of a source increase.** -/
theorem normalizedSourcePaths_pairwise {paths : List SourcePath}
    (h : normalizedSourcePaths system source collisionKey = .ok paths) :
    paths.Pairwise fun a b => a.path < b.path := by
  obtain ⟨_, files, _, _, hnodup, rfl⟩ := normalizedSourcePaths_eq_ok.mp h
  have hsorted : (files.insertionSort fun a b => a.key ≤ b.key).Pairwise fun a b => a.key ≤ b.key :=
    Sorting.insertionSort_eq_of_perm.pairwise files
  have hne : (files.insertionSort fun a b => a.key ≤ b.key).Pairwise fun a b =>
      collisionKey a.path ≠ collisionKey b.path :=
    List.pairwise_map.mp (((List.perm_insertionSort _ files).map _).nodup_iff.mpr hnodup)
  refine (hsorted.and hne).imp fun hab => ?_
  rcases Prod.Lex.le_iff.mp hab.1 with hlt | ⟨heq, _⟩
  · exact hlt
  · exact absurd (congrArg collisionKey heq) hab.2

/-- **The files of a source are those that are included.** -/
theorem mem_normalizedSourcePaths {paths : List SourcePath}
    (h : normalizedSourcePaths system source collisionKey = .ok paths) {found : SourcePath} :
    found ∈ paths ↔ Included system source found := by
  obtain ⟨_, files, hgathers, _, _, rfl⟩ := normalizedSourcePaths_eq_ok.mp h
  rw [List.mem_insertionSort]
  exact hgathers.mem_iff

end Paths

end Publish

end Tapid
