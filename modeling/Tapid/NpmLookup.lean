/-
Lookups over whole lockfiles of npm.

The paths of an npm lockfile are project directories and the packages installed
below them.  Over any such set of paths a lookup is the search of the module
loader from the declaring directory, and for a peer from the directory the
declaring package is installed in; the name of a chain of installed packages is
that of its last one.

* `placementName_installed` — names of placements;
* `lookup_wellPlaced` — lookups and names.
-/
import Tapid.NpmPlacement

namespace Tapid

open Text

namespace Npm

/-! ### Names of placements -/

/-- A name is read up to the next separator. -/
theorem splitName_name (name : PackageName) {tail : List Char} (htail : tail = [] ∨ tail.head? = some '/') :
    splitName (name.text.toList ++ tail) = some (name.text.toList, tail) := by
  have hstops : tail.takeWhile (· ≠ '/') = [] ∧ tail.dropWhile (· ≠ '/') = tail := by
    rcases htail with rfl | hhead
    · exact ⟨rfl, rfl⟩
    · obtain ⟨rest, rfl⟩ := List.head?_eq_some_iff.mp hhead
      exact ⟨List.takeWhile_cons_of_neg (by simp), List.dropWhile_cons_of_neg (by simp)⟩
  have hreads : ∀ part : List Char, '/' ∉ part → (part ++ tail).takeWhile (· ≠ '/') = part ∧
      (part ++ tail).dropWhile (· ≠ '/') = tail := by
    intro part hpart
    have hall : ∀ c ∈ part, decide (c ≠ '/') = true := fun c hc =>
      decide_eq_true fun heq => hpart (heq ▸ hc)
    rw [List.takeWhile_append_of_pos hall, List.dropWhile_append_of_pos hall, hstops.1, hstops.2,
      List.append_nil]
    exact ⟨rfl, rfl⟩
  rcases nameParts_cases name with ⟨part, hname, hscope⟩ | ⟨scope, part, hname, hscope⟩
  · have htext : name.text.toList = part := by rw [← joinPath_nameParts, hname, joinPath_singleton]
    obtain ⟨hne, hslash⟩ := isPart_of_mem_nameParts (by rw [hname]; exact List.mem_singleton_self part)
    have hhead : (part ++ tail).head? ≠ some '@' := by
      rw [List.head?_append_of_ne_nil _ hne]
      intro hat
      rw [startsScope, hat] at hscope
      exact absurd hscope (by decide)
    rw [htext, splitName, if_neg hhead, (hreads part hslash).1, (hreads part hslash).2]
  · have htext : name.text.toList = scope ++ '/' :: part := by
      rw [← joinPath_nameParts, hname, joinPath_pair]
    obtain ⟨hne, hslash⟩ := isPart_of_mem_nameParts (by rw [hname]; exact List.mem_cons_self : scope ∈ nameParts name)
    obtain ⟨_, hpart⟩ := isPart_of_mem_nameParts (by rw [hname]; simp : part ∈ nameParts name)
    have hhead : (scope ++ '/' :: (part ++ tail)).head? = some '@' := by
      rw [List.head?_append_of_ne_nil _ hne]
      simpa [startsScope] using hscope
    rw [htext, List.append_assoc, List.cons_append, splitName, if_pos hhead, splitOnce_append hslash]
    show some (scope ++ '/' :: (part ++ tail).takeWhile (· ≠ '/'), (part ++ tail).dropWhile (· ≠ '/')) = _
    rw [(hreads part hpart).1, (hreads part hpart).2]

/-- A chain of packages is read to its end. -/
theorem placementNameFrom_chain (names : List PackageName) (first last : PackageName) (fuel : Nat)
    (hfuel : names.length < fuel) (hlast : (first :: names).getLast? = some last) :
    placementNameFrom fuel (joinPath (nameParts first ++ installedParts names)) = some last := by
  induction names generalizing first fuel with
  | nil =>
    obtain ⟨fuel, rfl⟩ := Nat.exists_eq_succ_of_ne_zero (Nat.ne_of_gt hfuel)
    obtain rfl : first = last := by simpa using hlast
    have hsplit := splitName_name first (Or.inl rfl)
    rw [List.append_nil] at hsplit
    rw [show installedParts [] = [] from rfl, List.append_nil, joinPath_nameParts, placementNameFrom, hsplit]
    simp only [Option.bind_eq_bind, Option.bind_some, String.ofList_toList, PackageName.parse_text,
      Except.toOption, if_pos]
  | cons second names ih =>
    obtain ⟨fuel, rfl⟩ := Nat.exists_eq_succ_of_ne_zero (by omega : fuel ≠ 0)
    have hne : nameParts second ++ installedParts names ≠ [] := by
      simp [nameParts_ne_nil]
    have htext : joinPath (nameParts first ++ installedParts (second :: names)) =
        first.text.toList ++ ("/node_modules/".toList ++ joinPath (nameParts second ++ installedParts names)) := by
      rw [installedParts_cons, joinPath_append (nameParts_ne_nil first) (List.cons_ne_nil _ _),
        joinPath_nameParts, joinPath_nodeModules _ hne]
      rfl
    have hsplit := splitName_name first
      (Or.inr rfl : _ ∨ ("/node_modules/".toList ++ joinPath (nameParts second ++ installedParts names)).head? = _)
    have hmore : "/node_modules/".toList ++ joinPath (nameParts second ++ installedParts names) ≠ [] :=
      List.cons_ne_nil _ _
    rw [htext, placementNameFrom, hsplit]
    have hrest := ih second fuel (by rw [List.length_cons] at hfuel; omega) (by
      rw [List.getLast?_cons_cons] at hlast
      exact hlast)
    simp only [Option.bind_eq_bind, Option.bind_some, String.ofList_toList, PackageName.parse_text,
      Except.toOption, if_neg hmore, stripPrefix_append, hrest]

theorem length_le_installedParts (names : List PackageName) : names.length ≤ (installedParts names).length := by
  induction names with
  | nil => exact Nat.le_refl 0
  | cons name names ih =>
    rw [installedParts_cons, List.length_cons, List.length_cons, List.length_append]
    omega

/-- A path is at least as long as it has components. -/
theorem length_le_joinPath {parts : List (List Char)} (h : ∀ part ∈ parts, IsPart part) :
    parts.length ≤ (joinPath parts).length := by
  induction parts with
  | nil => exact Nat.zero_le _
  | cons part parts ih =>
    have hpart := List.length_pos_iff.mpr (h part List.mem_cons_self).1
    have hrest := ih fun p hp => h p (List.mem_cons_of_mem _ hp)
    by_cases hne : parts = []
    · subst hne
      rw [joinPath_singleton]
      exact hpart
    · have hjoin := joinPath_append (List.cons_ne_nil part []) hne
      rw [List.singleton_append, joinPath_singleton] at hjoin
      rw [hjoin, List.length_cons, List.length_append, List.length_cons]
      omega

/-- **The name of a placement is that of its last package.** -/
theorem placementName_installed (names : List PackageName) (name : PackageName) :
    placementName (joinPath (installedParts (names ++ [name]))) = some name := by
  obtain ⟨first, rest, hchain⟩ := List.exists_cons_of_ne_nil
    (List.append_ne_nil_of_right_ne_nil names (List.cons_ne_nil name []))
  have hlast : (first :: rest).getLast? = some name := by rw [← hchain, List.getLast?_concat]
  have hroot : SearchDir [] := SearchDir.folder (List.forall_mem_nil _)
  have hparts := (hroot.append_installedParts (first :: rest)).isPart
  rw [List.nil_append, installedParts_cons] at hparts
  have hlength := length_le_joinPath fun part hp => hparts part (List.mem_cons_of_mem _ hp)
  have hnames := length_le_installedParts rest
  rw [List.length_append] at hlength
  have hne : nameParts first ++ installedParts rest ≠ [] :=
    List.append_ne_nil_of_left_ne_nil (nameParts_ne_nil first) _
  have hstrip : stripPrefix "node_modules/".toList (joinPath (nodeModules :: (nameParts first ++ installedParts rest))) =
      some (joinPath (nameParts first ++ installedParts rest)) := by
    rw [joinPath_nodeModules _ hne]
    exact stripPrefix_append "node_modules/".toList _
  rw [hchain, installedParts_cons, placementName, hstrip]
  exact placementNameFrom_chain rest first name _ (by omega) hlast

/-! ### Lookups -/

/-- A round of a lookup that goes on does so with a shorter text. -/
theorem length_ancestor_lt {base : List Char} (h : base ≠ []) : (ancestor base).length < base.length := by
  have hpos := List.length_pos_iff.mpr h
  unfold ancestor
  split
  · rename_i p hp
    rw [eq_append_of_rsplitOncePat hp, List.length_append, List.length_append]
    have hpat : "/node_modules/".toList.length = 14 := rfl
    omega
  · split_ifs
    · exact hpos
    · cases hr : rsplitOnce '/' base with
      | none => exact hpos
      | some p =>
        obtain ⟨hbase, _⟩ := eq_append_of_rsplitOnce (a := p.1) (b := p.2) hr
        show p.1.length < base.length
        rw [hbase, List.length_append, List.length_cons]
        omega

/-- A lockfile whose paths are project directories and packages installed below them. -/
def WellPlaced {T : Type} (packages : OrdMap String T) : Prop :=
  ∀ path, packages.contains path = true → SearchDir (components path.toList)

theorem WellPlaced.scopesEmpty {T : Type} {packages : OrdMap String T} (hp : WellPlaced packages) :
    ScopesEmpty packages := by
  intro dir scope name hdir hpart hscope
  have hassoc : dir ++ [nodeModules] ++ [scope] ++ nodeModules :: nameParts name =
      dir ++ nodeModules :: scope :: nodeModules :: nameParts name := by simp
  rw [installPath, hassoc, ← Bool.not_eq_true]
  intro hcontains
  have hplaced := hp _ hcontains
  rw [String.toList_ofList, components_joinPath (isPart_of_mem_scope hdir hpart name)] at hplaced
  generalize hpath : dir ++ nodeModules :: scope :: nodeModules :: nameParts name = path at hplaced
  cases hplaced with
  | folder hfolder =>
    have hmem : nodeModules ∈ path := by
      rw [← hpath]
      exact List.mem_append_right _ List.mem_cons_self
    exact (hfolder nodeModules hmem).2.2 rfl
  | @installed below hbelow other => exact not_isPlacement_scope hdir hscope name ⟨below, other, hbelow, hpath⟩

/-- A directory whose text has an installation folder only where one of its components is one; so has every
installed package. -/
def PlainFolder (dir : List (List Char)) : Prop :=
  (∀ part ∈ dir, IsFolder part) → ∀ y, y ++ nodeModules ∉ dir.dropLast

/-- **Lookups of a whole lockfile.**  Each goes on with shorter and shorter texts; a regular one is the search
of the module loader from the declaring directory, one of a peer that from the directory the declaring package
is installed in; and the name of a chain of packages is that of its last one. -/
theorem lookup_wellPlaced {T : Type} {packages : OrdMap String T} (hp : WellPlaced packages) :
    (∀ base : List Char, base ≠ [] → (ancestor base).length < base.length) ∧
    (∀ (path : String) (name : PackageName), SearchDir (components path.toList) →
      lookup packages path name.text false = nodeSearch packages (components path.toList) name) ∧
    (∀ (path : String) (name : PackageName), SearchDir (components path.toList) →
      PlainFolder (components path.toList) →
      lookup packages path name.text true = nodeSearch packages (installedIn (components path.toList)) name) ∧
    ∀ (path : String) (names : List PackageName) (name : PackageName),
      components path.toList = installedParts (names ++ [name]) → placementName path.toList = some name := by
  have htext : ∀ path : String, path = String.ofList (joinPath (components path.toList)) := by
    intro path
    rw [joinPath_components, String.ofList_toList]
  refine ⟨fun base => length_ancestor_lt, fun path name hdir => ?_, fun path name hdir hplain => ?_,
    fun path names name hpath => ?_⟩
  · conv_lhs => rw [htext path]
    exact lookup_eq_nodeSearch hp.scopesEmpty hdir name
  · conv_lhs => rw [htext path]
    generalize components path.toList = dir at hdir hplain
    cases hdir with
    | folder hfolder =>
      rw [installedIn_folder hfolder]
      exact lookup_peer_folder hp.scopesEmpty hfolder (hplain hfolder) name
    | installed hdir self =>
      rw [installedIn_installed hdir self]
      exact lookup_peer_eq_nodeSearch hp.scopesEmpty hdir self name
  · have hroundtrip := joinPath_components path.toList
    rw [hpath] at hroundtrip
    rw [← hroundtrip]
    exact placementName_installed names name

/-- A package by its name alone. -/
def minimist : PackageName := ⟨"minimist", by decide⟩

theorem isFolder_member : ∀ part ∈ ["packages".toList, "a".toList], IsFolder part := by
  unfold IsFolder
  decide

theorem searchDir_member : SearchDir (components "packages/a/node_modules/minimist".toList) :=
  SearchDir.installed (SearchDir.folder isFolder_member) minimist

/-- The name of a package installed below a workspace member is not read from its whole path. -/
theorem placementName_of_member : IsPlacement (components "packages/a/node_modules/minimist".toList) ∧
    placementName "packages/a/node_modules/minimist".toList ≠ some minimist := by
  refine ⟨⟨["packages".toList, "a".toList], minimist, SearchDir.folder isFolder_member, ?_⟩, ?_⟩ <;> decide

/-- A workspace member and a package installed below it. -/
def memberPlacements : OrdMap String Unit :=
  OrdMap.ofList [("packages/a", ()), ("packages/a/node_modules/minimist", ())]

theorem lookup_wellPlaced_sample :
    lookup memberPlacements "packages/a/node_modules/minimist" "minimist" true =
      nodeSearch memberPlacements (installedIn (components "packages/a/node_modules/minimist".toList)) minimist := by
  have hplaced : WellPlaced memberPlacements := by
    intro path hpath
    have hmem : path = "packages/a" ∨ path = "packages/a/node_modules/minimist" := by
      rw [memberPlacements, OrdMap.ofList, OrdMap.contains_insertAll] at hpath
      simpa using hpath
    rcases hmem with rfl | rfl
    · exact SearchDir.folder isFolder_member
    · exact searchDir_member
  have hplain : PlainFolder (components "packages/a/node_modules/minimist".toList) := fun hfolder =>
    absurd (hfolder nodeModules (by decide)).2.2 (by decide)
  exact (lookup_wellPlaced hplaced).2.2.1 "packages/a/node_modules/minimist" minimist searchDir_member hplain

end Npm

end Tapid
