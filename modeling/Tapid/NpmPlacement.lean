/-
Placements of an npm lockfile.

An npm lockfile names every package by the path it is installed at, and leaves
it to the module loader which of them a dependency means: the nearest one, in
the `node_modules` of the declaring directory or of a directory above it.  What
is searched here are texts; the loader searches directories.

* `isPlacement_of_placementName` — accepted paths are chains of packages;
* `lookup_eq_nodeSearch` — a regular lookup is the search of the loader;
* `lookup_peer_eq_nodeSearch` — for a peer, from one level up;
* `lookup_peer_folder` — for a project directory, from itself, as long as the
  text of its path does not contain `node_modules/`.
-/
import Tapid.Layout

namespace Tapid

open Text

namespace Npm

/-! ### Paths of the lockfile -/

/-- The folder packages are installed in. -/
def nodeModules : List Char := "node_modules".toList

/-- Components of a path. -/
def components (path : List Char) : List (List Char) := if path = [] then [] else path.splitOn '/'

def joinPath (parts : List (List Char)) : List Char := ['/'].intercalate parts

/-- Components of a package name. -/
def nameParts (name : PackageName) : List (List Char) := name.text.toList.splitOn '/'

/-- Whether a component begins a scoped name. -/
def startsScope (part : List Char) : Bool := part.head? == some '@'

/-- A directory name of a workspace member path. -/
def IsFolder (part : List Char) : Prop := part ≠ [] ∧ '/' ∉ part ∧ part ≠ nodeModules

/-- Directories that dependencies are declared in: project directories, and
packages installed below one. -/
inductive SearchDir : List (List Char) → Prop
  | folder {dir : List (List Char)} (h : ∀ part ∈ dir, IsFolder part) : SearchDir dir
  | installed {dir : List (List Char)} (hdir : SearchDir dir) (name : PackageName) :
      SearchDir (dir ++ nodeModules :: nameParts name)

/-- Places where a package or a link is installed. -/
def IsPlacement (path : List (List Char)) : Prop :=
  ∃ dir name, SearchDir dir ∧ path = dir ++ nodeModules :: nameParts name

theorem slash_not_mem_nodeModules : '/' ∉ nodeModules := by decide

theorem nodeModules_ne_nil : nodeModules ≠ [] := by decide

theorem startsScope_nodeModules : startsScope nodeModules = false := by decide

theorem joinPath_nameParts (name : PackageName) : joinPath (nameParts name) = name.text.toList :=
  List.intercalate_splitOn '/'

theorem nameParts_ne_nil (name : PackageName) : nameParts name ≠ [] := List.splitOn_ne_nil _ _

theorem map_nameParts (name : PackageName) : (nameParts name).map String.ofList = packageNamePath name :=
  rfl

/-- A scoped name has two components and any other one. -/
theorem nameParts_cases (name : PackageName) :
    (∃ part, nameParts name = [part] ∧ startsScope part = false) ∨
      ∃ scope part, nameParts name = [scope, part] ∧ startsScope scope = true := by
  rcases packageNamePath_cases name with ⟨part, hpath, hscope⟩ | ⟨scope, part, hpath, hscope⟩
  · left
    refine ⟨part.toList, ?_, hscope⟩
    rw [← map_nameParts] at hpath
    obtain ⟨p, hp, rfl⟩ := List.map_eq_singleton_iff.mp hpath
    rw [hp, String.toList_ofList]
  · right
    refine ⟨scope.toList, part.toList, ?_, hscope⟩
    rw [← map_nameParts] at hpath
    obtain ⟨p, hp, h, rfl, hq⟩ := List.map_eq_cons_iff.mp hpath
    obtain ⟨q, rfl, rfl⟩ := List.map_eq_singleton_iff.mp hq
    rw [h, String.toList_ofList, String.toList_ofList]

theorem nameParts_append {a b : PackageName} {p q : List (List Char)}
    (h : nameParts a ++ p = nameParts b ++ q) : a = b ∧ p = q := by
  have hmap := congrArg (List.map String.ofList) h
  rw [List.map_append, List.map_append, map_nameParts, map_nameParts] at hmap
  obtain ⟨rfl, _⟩ := packageNamePath_append hmap
  exact ⟨rfl, List.append_cancel_left h⟩

/-! ### Reading a placement -/

/-- Components of a chain of installed packages. -/
def installedParts (names : List PackageName) : List (List Char) :=
  names.flatMap fun name => nodeModules :: nameParts name

theorem installedParts_append_singleton (names : List PackageName) (name : PackageName) :
    installedParts (names ++ [name]) = installedParts names ++ nodeModules :: nameParts name := by
  simp [installedParts]

theorem installedParts_cons (name : PackageName) (names : List PackageName) :
    installedParts (name :: names) = nodeModules :: (nameParts name ++ installedParts names) := by
  simp [installedParts]

/-- A directory is a project directory followed by a chain of packages. -/
theorem SearchDir.exists_chain {dir : List (List Char)} (h : SearchDir dir) :
    ∃ base names, (∀ part ∈ base, IsFolder part) ∧ dir = base ++ installedParts names := by
  induction h with
  | @folder dir h => exact ⟨dir, [], h, by simp [installedParts]⟩
  | installed _ name ih =>
    obtain ⟨base, names, hbase, rfl⟩ := ih
    refine ⟨base, names ++ [name], hbase, ?_⟩
    rw [installedParts_append_singleton, List.append_assoc]

/-- The project directory ends at the first `node_modules`. -/
theorem folder_append_inj {a b : List (List Char)} {p q : List (List Char)}
    (ha : ∀ part ∈ a, IsFolder part) (hb : ∀ part ∈ b, IsFolder part)
    (h : a ++ nodeModules :: p = b ++ nodeModules :: q) : a = b ∧ p = q := by
  induction a generalizing b with
  | nil =>
    cases b with
    | nil => exact ⟨rfl, (List.cons.inj h).2⟩
    | cons y b => exact absurd (List.cons.inj h).1.symm (hb y List.mem_cons_self).2.2
  | cons x a ih =>
    cases b with
    | nil => exact absurd (List.cons.inj h).1 (ha x List.mem_cons_self).2.2
    | cons y b =>
      obtain ⟨rfl, htl⟩ := List.cons.inj h
      obtain ⟨rfl, hpq⟩ := ih (fun part hp => ha part (List.mem_cons_of_mem _ hp))
        (fun part hp => hb part (List.mem_cons_of_mem _ hp)) htl
      exact ⟨rfl, hpq⟩

/-- Below a scope directory the chain is read with `node_modules` as the name
of a package, and nothing is left for another. -/
theorem installedParts_ne_scope (names names' : List PackageName) {scope : List Char}
    (hscope : startsScope scope = true) (name : PackageName) :
    installedParts names ++ nodeModules :: scope :: nodeModules :: nameParts name ≠
      installedParts names' := by
  induction names generalizing names' with
  | nil =>
    intro h
    cases names' with
    | nil => simp [installedParts] at h
    | cons x names' =>
      rw [installedParts_cons] at h
      have h := (List.cons.inj h).2
      -- the scope takes the `node_modules` after it as its package
      have hrest : nameParts name = installedParts names' := by
        rcases nameParts_cases x with ⟨part, hx, hpart⟩ | ⟨s, part, hx, _⟩
        · rw [hx] at h
          rw [← (List.cons.inj h).1, hscope] at hpart
          exact absurd hpart (by decide)
        · rw [hx] at h
          exact (List.cons.inj (List.cons.inj h).2).2
      cases names' with
      | nil => exact nameParts_ne_nil name (by simpa [installedParts] using hrest)
      | cons y names' =>
        rw [installedParts_cons] at hrest
        rcases nameParts_cases name with ⟨part, hname, _⟩ | ⟨s, part, hname, hs⟩
        · rw [hname] at hrest
          have hnil := (List.cons.inj hrest).2
          exact nameParts_ne_nil y (List.append_eq_nil_iff.mp hnil.symm).1
        · rw [hname] at hrest
          rw [(List.cons.inj hrest).1, startsScope_nodeModules] at hs
          exact absurd hs (by decide)
  | cons a names ih =>
    intro h
    cases names' with
    | nil => simp [installedParts] at h
    | cons x names' =>
      rw [installedParts_cons, installedParts_cons, List.cons_append, List.append_assoc] at h
      obtain ⟨rfl, hrest⟩ := nameParts_append (List.cons.inj h).2
      exact ih names' hrest

/-- Nothing is installed directly below a scope directory. -/
theorem not_isPlacement_scope {dir : List (List Char)} (hdir : SearchDir dir) {scope : List Char}
    (hscope : startsScope scope = true) (name : PackageName) :
    ¬ IsPlacement (dir ++ nodeModules :: scope :: nodeModules :: nameParts name) := by
  rintro ⟨dir', name', hdir', heq⟩
  obtain ⟨base, names, hbase, rfl⟩ := hdir.exists_chain
  obtain ⟨base', names', hbase', rfl⟩ := hdir'.exists_chain
  have hchain : ∀ (names : List PackageName) (rest : List (List Char)), ∃ tail,
      installedParts names ++ nodeModules :: rest = nodeModules :: tail := by
    intro names rest
    cases names with
    | nil => exact ⟨rest, rfl⟩
    | cons x names => exact ⟨_, by rw [installedParts_cons, List.cons_append]⟩
  obtain ⟨tail, htail⟩ := hchain names (scope :: nodeModules :: nameParts name)
  obtain ⟨tail', htail'⟩ := hchain names' (nameParts name')
  rw [List.append_assoc, List.append_assoc, htail, htail'] at heq
  obtain ⟨_, rfl⟩ := folder_append_inj hbase hbase' heq
  rw [← htail', ← installedParts_append_singleton] at htail
  exact installedParts_ne_scope names _ hscope name htail

/-! ### Texts of paths -/

theorem joinPath_append {a b : List (List Char)} (ha : a ≠ []) (hb : b ≠ []) :
    joinPath (a ++ b) = joinPath a ++ '/' :: joinPath b := by
  induction a with
  | nil => exact absurd rfl ha
  | cons x a ih =>
    cases a with
    | nil => simp [joinPath, List.intercalate_cons_of_ne_nil hb]
    | cons y a =>
      have hne : y :: a ++ b ≠ [] := by simp
      rw [List.cons_append, joinPath, List.intercalate_cons_of_ne_nil hne, ← joinPath,
        ih (by simp), joinPath, joinPath, joinPath,
        List.intercalate_cons_of_ne_nil (by simp : y :: a ≠ [])]
      simp

theorem joinPath_singleton (part : List Char) : joinPath [part] = part := by simp [joinPath]

theorem joinPath_pair (a b : List Char) : joinPath [a, b] = a ++ '/' :: b := by
  have h := joinPath_append (by simp : [a] ≠ []) (by simp : [b] ≠ [])
  rwa [joinPath_singleton, joinPath_singleton] at h

/-- A component of a path. -/
def IsPart (part : List Char) : Prop := part ≠ [] ∧ '/' ∉ part

theorem joinPath_ne_nil {parts : List (List Char)} (h : ∀ part ∈ parts, IsPart part)
    (hne : parts ≠ []) : joinPath parts ≠ [] := by
  cases parts with
  | nil => exact absurd rfl hne
  | cons x parts =>
    have hx : x ≠ [] := (h x List.mem_cons_self).1
    cases parts with
    | nil => simpa [joinPath] using hx
    | cons y parts => simp [joinPath, List.intercalate_cons_of_ne_nil, hx]

theorem components_joinPath {parts : List (List Char)} (h : ∀ part ∈ parts, IsPart part) :
    components (joinPath parts) = parts := by
  by_cases hne : parts = []
  · rw [hne]
    rfl
  · rw [components, if_neg (joinPath_ne_nil h hne), joinPath,
      splitOn_join (fun part hp => (h part hp).2) hne]

theorem joinPath_components (path : List Char) : joinPath (components path) = path := by
  rw [components]
  split_ifs with hnil
  · rw [hnil]
    rfl
  · exact List.intercalate_splitOn '/'

theorem isPart_nodeModules : IsPart nodeModules := ⟨nodeModules_ne_nil, slash_not_mem_nodeModules⟩

theorem isPart_of_mem_nameParts {name : PackageName} {part : List Char}
    (h : part ∈ nameParts name) : IsPart part := by
  refine ⟨?_, not_mem_of_mem_splitOn h⟩
  have hv := name.valid
  rw [PackageName.isValid, Bool.and_eq_true, PackageName.isScopedOrPlain] at hv
  obtain ⟨hv, hrule⟩ := hv
  split_ifs at hrule with hat
  · split at hrule
    · rename_i scope base hsplit
      rw [nameParts, hsplit] at h
      simp only [Bool.and_eq_true, decide_eq_true_eq, Bool.not_eq_true', List.isEmpty_eq_false_iff]
        at hrule
      rintro rfl
      rcases List.mem_cons.mp h with h | h
      · rw [← h] at hrule
        exact absurd hrule.1.1.1 (by simp)
      · exact hrule.1.1.2 (List.mem_singleton.mp h).symm
    · simp at hrule
  · have hslash : '/' ∉ name.text.toList := fun hmem =>
      absurd (List.all_eq_true.mp hrule '/' hmem) (by decide)
    rw [nameParts, splitOn_eq_singleton hslash, List.mem_singleton] at h
    rw [h]
    simp only [Bool.and_eq_true, Bool.not_eq_true', List.isEmpty_eq_false_iff] at hv
    exact hv.1.1.1.1.1.1

theorem SearchDir.isPart {dir : List (List Char)} (h : SearchDir dir) :
    ∀ part ∈ dir, IsPart part := by
  induction h with
  | folder h => exact fun part hp => ⟨(h part hp).1, (h part hp).2.1⟩
  | installed _ name ih =>
    intro part hp
    rcases List.mem_append.mp hp with hp | hp
    · exact ih part hp
    · rcases List.mem_cons.mp hp with rfl | hp
      · exact isPart_nodeModules
      · exact isPart_of_mem_nameParts hp

theorem joinPath_nodeModules (rest : List (List Char)) (h : rest ≠ []) :
    joinPath (nodeModules :: rest) = nodeModules ++ '/' :: joinPath rest :=
  joinPath_append (by simp : [nodeModules] ≠ []) h

/-- The path of a folder inside the `node_modules` of a directory. -/
def candidate (base name : List Char) : List Char :=
  if base = [] then "node_modules/".toList ++ name
  else base ++ "/node_modules/".toList ++ name

theorem candidate_joinPath {dir rest : List (List Char)} (hdir : ∀ part ∈ dir, IsPart part)
    (hrest : rest ≠ []) :
    candidate (joinPath dir) (joinPath rest) = joinPath (dir ++ nodeModules :: rest) := by
  rw [candidate]
  by_cases hne : dir = []
  · subst hne
    rw [if_pos (show joinPath [] = [] from rfl), List.nil_append, joinPath_nodeModules rest hrest]
    rfl
  · rw [if_neg (joinPath_ne_nil hdir hne), joinPath_append hne (by simp),
      joinPath_nodeModules rest hrest, List.append_assoc]
    rfl

/-! ### Placement names -/

/-- The package name a text begins with, and what follows it. -/
def splitName (rest : List Char) : Option (List Char × List Char) :=
  if rest.head? = some '@' then
    (splitOnce '/' rest).map fun p =>
      (p.1 ++ '/' :: p.2.takeWhile (· ≠ '/'), p.2.dropWhile (· ≠ '/'))
  else some (rest.takeWhile (· ≠ '/'), rest.dropWhile (· ≠ '/'))

def placementNameFrom : Nat → List Char → Option PackageName
  | 0, _ => none
  | fuel + 1, rest => do
    let (name, remaining) ← splitName rest
    let name ← (PackageName.parse (String.ofList name)).toOption
    if remaining = [] then some name
    else placementNameFrom fuel (← stripPrefix "/node_modules/".toList remaining)

/-- The name of the package installed at a path. -/
def placementName (path : List Char) : Option PackageName := do
  let rest ← stripPrefix "node_modules/".toList path
  placementNameFrom (rest.length + 1) rest

theorem splitName_append {rest name remaining : List Char}
    (h : splitName rest = some (name, remaining)) : rest = name ++ remaining := by
  rw [splitName] at h
  split_ifs at h
  · obtain ⟨⟨scope, tail⟩, hsplit, heq⟩ := Option.map_eq_some_iff.mp h
    obtain ⟨rfl, rfl⟩ := Prod.mk.inj heq
    rw [(eq_append_of_splitOnce hsplit).1, List.append_assoc, List.cons_append,
      List.takeWhile_append_dropWhile]
  · obtain ⟨rfl, rfl⟩ := Prod.mk.inj (Option.some_inj.mp h)
    exact List.takeWhile_append_dropWhile.symm

theorem eq_of_parse_toOption {s : String} {name : PackageName}
    (h : (PackageName.parse s).toOption = some name) : name.text = s := by
  cases hp : PackageName.parse s with
  | error e =>
    rw [hp] at h
    simp [Except.toOption] at h
  | ok n =>
    rw [hp] at h
    obtain rfl := Option.some_inj.mp h
    exact PackageName.text_of_parse hp

/-- A path with a placement name is a chain of installed packages. -/
theorem exists_chain_of_placementNameFrom {fuel : Nat} {rest : List Char} {name : PackageName}
    (h : placementNameFrom fuel rest = some name) : ∃ names,
      nodeModules ++ '/' :: rest = joinPath (installedParts (names ++ [name])) := by
  induction fuel generalizing rest with
  | zero => simp [placementNameFrom] at h
  | succ fuel ih =>
    rw [placementNameFrom] at h
    simp only [Option.bind_eq_bind, Option.bind_eq_some_iff, Prod.exists] at h
    obtain ⟨text, remaining, hsplit, first, hparse, h⟩ := h
    have htext : first.text.toList = text := by
      rw [eq_of_parse_toOption hparse, String.toList_ofList]
    rw [splitName_append hsplit, ← htext]
    split_ifs at h with hnil
    · obtain rfl := Option.some_inj.mp h
      refine ⟨[], ?_⟩
      rw [hnil, List.append_nil, List.nil_append, installedParts_cons]
      show _ = joinPath (nodeModules :: (nameParts first ++ []))
      rw [List.append_nil, joinPath_nodeModules _ (nameParts_ne_nil _), joinPath_nameParts]
    · obtain ⟨tail, htail, h⟩ := Option.bind_eq_some_iff.mp h
      obtain ⟨names, hnames⟩ := ih h
      refine ⟨first :: names, ?_⟩
      have hne : installedParts (names ++ [name]) ≠ [] := by
        rw [installedParts_append_singleton]
        simp
      rw [eq_append_of_stripPrefix htail, List.cons_append, installedParts_cons,
        joinPath_nodeModules _ (by simp [nameParts_ne_nil]),
        joinPath_append (nameParts_ne_nil _) hne, joinPath_nameParts, ← hnames]
      rfl

theorem SearchDir.append_installedParts {dir : List (List Char)} (hdir : SearchDir dir)
    (names : List PackageName) : SearchDir (dir ++ installedParts names) := by
  induction names using List.reverseRecOn with
  | nil => simpa [installedParts] using hdir
  | append_singleton names name ih =>
    rw [installedParts_append_singleton, ← List.append_assoc]
    exact ih.installed name

/-- What is read as a placement is one, in any project directory. -/
theorem isPlacement_of_placementName {path : List Char} {name : PackageName}
    (h : placementName path = some name) {base : List (List Char)}
    (hbase : ∀ part ∈ base, IsFolder part) :
    IsPlacement (base ++ components path) := by
  rw [placementName] at h
  simp only [Option.bind_eq_bind, Option.bind_eq_some_iff] at h
  obtain ⟨rest, hstrip, h⟩ := h
  obtain ⟨names, hnames⟩ := exists_chain_of_placementNameFrom h
  have hpath : path = joinPath (installedParts (names ++ [name])) := by
    rw [eq_append_of_stripPrefix hstrip, ← hnames]
    rfl
  have hroot : SearchDir [] := SearchDir.folder (by simp)
  have hparts := (hroot.append_installedParts (names ++ [name])).isPart
  rw [List.nil_append] at hparts
  rw [hpath, components_joinPath hparts, installedParts_append_singleton]
  refine ⟨base ++ installedParts names, name, ?_, by simp⟩
  exact (SearchDir.folder hbase).append_installedParts names

/-! ### Lookup -/

/-- The directory searched after a given one. -/
def ancestor (base : List Char) : List Char :=
  match rsplitOncePat "/node_modules/".toList base with
  | some p => p.1
  | none =>
    if startsWith "node_modules/".toList base then []
    else ((rsplitOnce '/' base).map Prod.fst).getD []

def lookupFrom {T : Type} (packages : OrdMap String T) (name : String) : Nat → List Char → Option String
  | 0, _ => none
  | fuel + 1, base =>
    let candidate := String.ofList (candidate base name.toList)
    if packages.contains candidate then some candidate
    else if base = [] then none
    else lookupFrom packages name fuel (ancestor base)

/-- The directory a search starts in; the text before the last `node_modules/`
for a peer. -/
def searchBase (parent : List Char) (peer : Bool) : List Char :=
  if peer then
    match rsplitOncePat "node_modules/".toList parent with
    | some p => trimEnd '/' p.1
    | none => parent
  else parent

def lookup {T : Type} (packages : OrdMap String T) (parent name : String) (peer : Bool) : Option String :=
  let base := searchBase parent.toList peer
  lookupFrom packages name (base.length + 1) base

/-! ### The search of the module loader -/

/-- What the last component of a path stands for. -/
inductive Reading where
  | project
  | modules
  | scope
  | package
  deriving DecidableEq

/-- A `node_modules` component is an installation folder, unless it stands
where a package has its name. -/
def Reading.next : Reading → List Char → Reading
  | .project, part => if part = nodeModules then .modules else .project
  | .modules, part => if startsScope part then .scope else .package
  | .scope, _ => .package
  | .package, part => if part = nodeModules then .modules else .package

def reading (dir : List (List Char)) : Reading := dir.foldl Reading.next .project

/-- Directories whose `node_modules` is searched from a directory: itself and
its ancestors, installation folders left out. -/
def searchPath (dir : List (List Char)) : List (List (List Char)) :=
  dir.inits.reverse.filter fun d => reading d ≠ .modules

/-- Where a name is installed for a directory. -/
def installPath (dir : List (List Char)) (name : PackageName) : String :=
  String.ofList (joinPath (dir ++ nodeModules :: nameParts name))

/-- The nearest placement of a name. -/
def nodeSearch {T : Type} (packages : OrdMap String T) (dir : List (List Char)) (name : PackageName) :
    Option String :=
  ((searchPath dir).map fun d => installPath d name).find? packages.contains

theorem reading_concat (dir : List (List Char)) (part : List Char) :
    reading (dir ++ [part]) = (reading dir).next part := by
  rw [reading, List.foldl_append]
  rfl

theorem SearchDir.reading {dir : List (List Char)} (h : SearchDir dir) :
    reading dir = .project ∨ reading dir = .package := by
  induction h with
  | @folder dir h =>
    left
    induction dir using List.reverseRecOn with
    | nil => rfl
    | append_singleton dir part ih =>
      rw [reading_concat, ih fun p hp => h p (List.mem_append_left _ hp), Reading.next,
        if_neg (h part (by simp)).2.2]
  | @installed dir _ name ih =>
    right
    have hmodules : Npm.reading (dir ++ [nodeModules]) = .modules := by
      rw [reading_concat]
      rcases ih with ih | ih <;> rw [ih] <;> rfl
    rcases nameParts_cases name with ⟨part, hname, hscope⟩ | ⟨scope, part, hname, hscope⟩
    · rw [hname, show dir ++ [nodeModules, part] = dir ++ [nodeModules] ++ [part] by simp,
        reading_concat, hmodules, Reading.next, if_neg (by simp [hscope])]
    · rw [hname,
        show dir ++ [nodeModules, scope, part] = dir ++ [nodeModules] ++ [scope] ++ [part] by simp,
        reading_concat, reading_concat, hmodules, Reading.next, if_pos hscope]
      rfl

theorem SearchDir.reading_modules {dir : List (List Char)} (h : SearchDir dir) :
    Npm.reading (dir ++ [nodeModules]) = .modules := by
  rw [reading_concat]
  rcases h.reading with ih | ih <;> rw [ih] <;> rfl

theorem inits_reverse_concat (dir : List (List Char)) (part : List Char) :
    (dir ++ [part]).inits.reverse = (dir ++ [part]) :: dir.inits.reverse := by
  rw [List.inits_append]
  simp

theorem searchPath_concat (dir : List (List Char)) (part : List Char) :
    searchPath (dir ++ [part]) =
      if reading (dir ++ [part]) = .modules then searchPath dir
      else (dir ++ [part]) :: searchPath dir := by
  rw [searchPath, inits_reverse_concat, List.filter_cons, searchPath]
  split_ifs <;> simp_all

/-- Every path of the map is a placement, unless it has an empty component and
no search gets there. -/
def PlacedIn {T : Type} (packages : OrdMap String T) : Prop :=
  ∀ path, packages.contains path = true → [] ∉ components path.toList →
    IsPlacement (components path.toList)

section Search

variable {T : Type} {packages : OrdMap String T}

/-- A directory is searched before its ancestors. -/
theorem nodeSearch_concat {dir : List (List Char)} {part : List Char}
    (hpart : reading (dir ++ [part]) ≠ .modules) (name : PackageName) :
    nodeSearch packages (dir ++ [part]) name =
      if packages.contains (installPath (dir ++ [part]) name) then
        some (installPath (dir ++ [part]) name)
      else nodeSearch packages dir name := by
  rw [nodeSearch, searchPath_concat, if_neg hpart, List.map_cons, List.find?_cons]
  split <;> simp_all [nodeSearch]

/-- An installation folder is not searched. -/
theorem nodeSearch_modules {dir : List (List Char)} (hdir : SearchDir dir) (name : PackageName) :
    nodeSearch packages (dir ++ [nodeModules]) name = nodeSearch packages dir name := by
  rw [nodeSearch, searchPath_concat, if_pos hdir.reading_modules, nodeSearch]

theorem nodeSearch_nil (name : PackageName) :
    nodeSearch packages [] name =
      if packages.contains (installPath [] name) then some (installPath [] name) else none := by
  show List.find? packages.contains [installPath [] name] = _
  rw [List.find?_cons]
  split <;> simp_all

/-- Components of a path below a scope directory. -/
theorem isPart_of_mem_scope {dir : List (List Char)} (hdir : SearchDir dir) {scope : List Char}
    (hpart : IsPart scope) (name : PackageName) :
    ∀ part ∈ dir ++ nodeModules :: scope :: nodeModules :: nameParts name, IsPart part := by
  intro part hmem
  rw [List.mem_append, List.mem_cons, List.mem_cons, List.mem_cons] at hmem
  rcases hmem with hmem | rfl | rfl | rfl | hmem
  · exact hdir.isPart part hmem
  · exact isPart_nodeModules
  · exact hpart
  · exact isPart_nodeModules
  · exact isPart_of_mem_nameParts hmem

/-- Nothing is found in a scope directory. -/
def ScopesEmpty {T : Type} (packages : OrdMap String T) : Prop :=
  ∀ (dir : List (List Char)) (scope : List Char) (name : PackageName), SearchDir dir → IsPart scope →
    startsScope scope = true →
    packages.contains (installPath (dir ++ [nodeModules] ++ [scope]) name) = false

/-- Nothing is found in a scope directory where only placements are. -/
theorem PlacedIn.scopesEmpty (hp : PlacedIn packages) : ScopesEmpty packages := by
  intro dir scope name hdir hpart hscope
  have hassoc : dir ++ [nodeModules] ++ [scope] ++ nodeModules :: nameParts name =
      dir ++ nodeModules :: scope :: nodeModules :: nameParts name := by simp
  rw [installPath, hassoc, ← Bool.not_eq_true]
  intro hcontains
  have hparts := isPart_of_mem_scope hdir hpart name
  have hplaced := hp _ hcontains
  rw [String.toList_ofList, components_joinPath hparts] at hplaced
  exact not_isPlacement_scope hdir hscope name (hplaced fun hnil => (hparts [] hnil).1 rfl)

theorem SearchDir.reading_ne {dir : List (List Char)} (h : SearchDir dir) :
    Npm.reading dir ≠ .modules := by
  rcases h.reading with h | h <;> rw [h] <;> decide

/-- The search from an installed package goes on from the directory it is
installed in. -/
theorem nodeSearch_installed (hp : ScopesEmpty packages) {dir : List (List Char)} (hdir : SearchDir dir)
    (self name : PackageName) :
    nodeSearch packages (dir ++ nodeModules :: nameParts self) name =
      if packages.contains (installPath (dir ++ nodeModules :: nameParts self) name) then
        some (installPath (dir ++ nodeModules :: nameParts self) name)
      else nodeSearch packages dir name := by
  have hread := (hdir.installed self).reading_ne
  rcases nameParts_cases self with ⟨part, hself, _⟩ | ⟨scope, part, hself, hscope⟩
  · have hassoc : dir ++ nodeModules :: nameParts self = dir ++ [nodeModules] ++ [part] := by
      simp [hself]
    rw [hassoc] at hread ⊢
    rw [nodeSearch_concat hread, nodeSearch_modules hdir]
  · have hassoc : dir ++ nodeModules :: nameParts self = dir ++ [nodeModules] ++ [scope] ++ [part] := by
      simp [hself]
    have hpart : IsPart scope := isPart_of_mem_nameParts (by rw [hself]; exact List.mem_cons_self)
    have hscoped : Npm.reading (dir ++ [nodeModules] ++ [scope]) ≠ .modules := by
      rw [reading_concat, hdir.reading_modules, Reading.next, if_pos hscope]
      decide
    rw [hassoc] at hread ⊢
    rw [nodeSearch_concat hread, nodeSearch_concat hscoped, nodeSearch_modules hdir,
      hp dir scope name hdir hpart hscope, if_neg Bool.false_ne_true]

/-! ### Lookup is the search of the module loader -/

theorem splitOn_slash_nodeModules (a b : List Char) :
    (a ++ "/node_modules/".toList ++ b).splitOn '/' =
      a.splitOn '/' ++ nodeModules :: b.splitOn '/' := by
  have hassoc : a ++ "/node_modules/".toList ++ b = a ++ '/' :: (nodeModules ++ '/' :: b) := by
    rw [List.append_assoc]
    rfl
  rw [hassoc, List.splitOn_append_cons_self, List.splitOn_append_cons_self_of_not_mem
    slash_not_mem_nodeModules]

/-- An inner `node_modules` component shows in the list of components. -/
theorem mem_dropLast_of_splitOn {first : List Char} {rest : List (List Char)} {a b : List Char}
    (h : first :: rest = a.splitOn '/' ++ nodeModules :: b.splitOn '/') :
    nodeModules ∈ rest.dropLast := by
  cases ha : a.splitOn '/' with
  | nil => exact absurd ha (List.splitOn_ne_nil _ _)
  | cons x xs =>
    rw [ha, List.cons_append] at h
    rw [(List.cons.inj h).2, List.dropLast_append_of_ne_nil (by simp),
      List.dropLast_cons_of_ne_nil (List.splitOn_ne_nil _ _)]
    simp

theorem splitOn_joinPath {parts : List (List Char)} (h : ∀ part ∈ parts, IsPart part)
    (hne : parts ≠ []) : (joinPath parts).splitOn '/' = parts :=
  splitOn_join (fun part hp => (h part hp).2) hne

/-- The directory after an installed package or a scope is the one it is
installed in. -/
theorem ancestor_nodeModules {dir rest : List (List Char)} (hdir : ∀ part ∈ dir, IsPart part)
    (hrest : ∀ part ∈ rest, IsPart part) (hne : rest ≠ []) (hinner : nodeModules ∉ rest.dropLast) :
    ancestor (joinPath (dir ++ nodeModules :: rest)) = joinPath dir := by
  have hparts : ∀ part ∈ nodeModules :: rest, IsPart part := by
    intro part hp
    rcases List.mem_cons.mp hp with rfl | hp
    · exact isPart_nodeModules
    · exact hrest part hp
  have hlast : ∀ a b, joinPath (nodeModules :: rest) ≠ a ++ "/node_modules/".toList ++ b := by
    intro a b hab
    have hsplit := congrArg (List.splitOn '/') hab
    rw [splitOn_joinPath hparts (by simp), splitOn_slash_nodeModules] at hsplit
    exact hinner (mem_dropLast_of_splitOn hsplit)
  rw [ancestor]
  by_cases hnil : dir = []
  · subst hnil
    rw [List.nil_append, rsplitOncePat_eq_none hlast, joinPath_nodeModules rest hne]
    have hstart : startsWith "node_modules/".toList (nodeModules ++ '/' :: joinPath rest) = true := by
      show startsWith "node_modules/".toList ("node_modules/".toList ++ joinPath rest) = true
      exact startsWith_append _ _
    show (if startsWith "node_modules/".toList (nodeModules ++ '/' :: joinPath rest) = true then _ else _) = _
    rw [if_pos hstart]
    rfl
  · have htext : joinPath (dir ++ nodeModules :: rest) =
        joinPath dir ++ ('/' :: "node_modules/".toList) ++ joinPath rest := by
      rw [joinPath_append hnil (by simp), joinPath_nodeModules rest hne, List.append_assoc]
      rfl
    have hsplit : rsplitOncePat ('/' :: "node_modules/".toList) (joinPath (dir ++ nodeModules :: rest)) =
        some (joinPath dir, joinPath rest) := by
      rw [htext]
      refine rsplitOncePat_append _ fun a b hab => hlast a b ?_
      rw [joinPath_nodeModules rest hne]
      exact hab
    rw [show "/node_modules/".toList = '/' :: "node_modules/".toList from rfl, hsplit]

/-- The directory after one in a project directory is its parent. -/
theorem ancestor_folder {dir : List (List Char)} {part : List Char} (h : ∀ p ∈ dir, IsFolder p)
    (hpart : IsPart part) : ancestor (joinPath (dir ++ [part])) = joinPath dir := by
  have hparts : ∀ p ∈ dir ++ [part], IsPart p := by
    intro p hp
    rcases List.mem_append.mp hp with hp | hp
    · exact ⟨(h p hp).1, (h p hp).2.1⟩
    · exact List.mem_singleton.mp hp ▸ hpart
  have hsplit := congrArg List.dropLast (splitOn_joinPath hparts (by simp))
  rw [List.dropLast_concat] at hsplit
  have hnone : rsplitOncePat "/node_modules/".toList (joinPath (dir ++ [part])) = none := by
    refine rsplitOncePat_eq_none fun a b hab => ?_
    rw [hab, splitOn_slash_nodeModules, List.dropLast_append_of_ne_nil (by simp),
      List.dropLast_cons_of_ne_nil (List.splitOn_ne_nil _ _)] at hsplit
    exact (h nodeModules (by rw [← hsplit]; simp)).2.2 rfl
  have hstart : startsWith "node_modules/".toList (joinPath (dir ++ [part])) = false := by
    rw [← Bool.not_eq_true]
    intro hstart
    obtain ⟨rest, hrest⟩ := Option.isSome_iff_exists.mp hstart
    rw [eq_append_of_stripPrefix hrest,
      show "node_modules/".toList ++ rest = nodeModules ++ '/' :: rest from rfl,
      List.splitOn_append_cons_self_of_not_mem slash_not_mem_nodeModules,
      List.dropLast_cons_of_ne_nil (List.splitOn_ne_nil _ _)] at hsplit
    exact (h nodeModules (by rw [← hsplit]; simp)).2.2 rfl
  rw [ancestor, hnone, hstart]
  show ((rsplitOnce '/' (joinPath (dir ++ [part]))).map Prod.fst).getD [] = joinPath dir
  have hslash : '/' ∉ part := hpart.2
  by_cases hnil : dir = []
  · subst hnil
    rw [List.nil_append, joinPath_singleton, rsplitOnce_eq_none hslash]
    rfl
  · rw [joinPath_append hnil (by simp), joinPath_singleton,
      rsplitOnce_append _ hslash]
    rfl

theorem nodeModules_not_mem_dropLast (name : PackageName) : nodeModules ∉ (nameParts name).dropLast := by
  rcases nameParts_cases name with ⟨part, hname, _⟩ | ⟨scope, part, hname, hscope⟩
  · simp [hname]
  · rw [hname]
    intro hmem
    rw [← List.mem_singleton.mp hmem, startsScope_nodeModules] at hscope
    exact absurd hscope (by decide)

theorem candidate_text {dir : List (List Char)} (hdir : ∀ part ∈ dir, IsPart part)
    (name : PackageName) :
    String.ofList (candidate (joinPath dir) name.text.toList) = installPath dir name := by
  rw [installPath, ← candidate_joinPath hdir (nameParts_ne_nil name), joinPath_nameParts]

theorem length_joinPath_lt {dir rest : List (List Char)} (hrest : ∀ part ∈ rest, IsPart part)
    (hne : rest ≠ []) : (joinPath dir).length < (joinPath (dir ++ rest)).length := by
  have hpos := List.length_pos_iff.mpr (joinPath_ne_nil hrest hne)
  by_cases hnil : dir = []
  · subst hnil
    exact hpos
  · rw [joinPath_append hnil hne, List.length_append, List.length_cons]
    omega

/-- One round of the lookup. -/
theorem lookupFrom_succ {dir : List (List Char)} (hdir : ∀ part ∈ dir, IsPart part)
    (name : PackageName) (fuel : Nat) :
    lookupFrom packages name.text (fuel + 1) (joinPath dir) =
      if packages.contains (installPath dir name) then some (installPath dir name)
      else if dir = [] then none
      else lookupFrom packages name.text fuel (ancestor (joinPath dir)) := by
  rw [lookupFrom]
  simp only [candidate_text hdir]
  by_cases hnil : dir = []
  · rw [if_pos (show joinPath dir = [] by rw [hnil]; rfl), if_pos hnil]
  · rw [if_neg (joinPath_ne_nil hdir hnil), if_neg hnil]

/-- With fuel for every directory above, the lookup is the search. -/
theorem lookupFrom_eq_nodeSearch (hp : ScopesEmpty packages) {dir : List (List Char)}
    (hdir : SearchDir dir) (name : PackageName) {fuel : Nat} (hfuel : (joinPath dir).length < fuel) :
    lookupFrom packages name.text fuel (joinPath dir) = nodeSearch packages dir name := by
  induction hdir generalizing fuel with
  | @folder dir h =>
    induction dir using List.reverseRecOn generalizing fuel with
    | nil =>
      obtain ⟨fuel, rfl⟩ := Nat.exists_eq_succ_of_ne_zero (by omega : fuel ≠ 0)
      rw [Nat.succ_eq_add_one, lookupFrom_succ (by simp), if_pos rfl, nodeSearch_nil]
    | append_singleton dir part ih =>
      obtain ⟨fuel, rfl⟩ := Nat.exists_eq_succ_of_ne_zero (by omega : fuel ≠ 0)
      have hparts : ∀ p ∈ dir ++ [part], IsPart p := fun p hp => ⟨(h p hp).1, (h p hp).2.1⟩
      have hlt : (joinPath dir).length < (joinPath (dir ++ [part])).length :=
        length_joinPath_lt (fun p hp => hparts p (List.mem_append_right _ hp)) (by simp)
      rw [Nat.succ_eq_add_one, lookupFrom_succ hparts, if_neg (by simp : dir ++ [part] ≠ []),
        ancestor_folder (fun p hp => h p (List.mem_append_left _ hp)) (hparts part (by simp)),
        nodeSearch_concat (SearchDir.folder h).reading_ne,
        ih (fun p hp => h p (List.mem_append_left _ hp)) (by omega)]
  | @installed dir hdir self ih =>
    obtain ⟨fuel, rfl⟩ := Nat.exists_eq_succ_of_ne_zero (by omega : fuel ≠ 0)
    have hself : ∀ part ∈ nameParts self, IsPart part := fun part hp => isPart_of_mem_nameParts hp
    have hlt : (joinPath dir).length < (joinPath (dir ++ nodeModules :: nameParts self)).length :=
      length_joinPath_lt
        (fun part hp => (List.mem_cons.mp hp).elim (fun h => h ▸ isPart_nodeModules) (hself part))
        (by simp)
    rw [Nat.succ_eq_add_one, lookupFrom_succ (hdir.installed self).isPart,
      if_neg (by simp : dir ++ nodeModules :: nameParts self ≠ []),
      ancestor_nodeModules hdir.isPart hself (nameParts_ne_nil self)
        (nodeModules_not_mem_dropLast self),
      nodeSearch_installed hp hdir, ih (by omega)]

/-- **Regular lookups** are the search from the declaring directory. -/
theorem lookup_eq_nodeSearch (hp : ScopesEmpty packages) {dir : List (List Char)} (hdir : SearchDir dir)
    (name : PackageName) :
    lookup packages (String.ofList (joinPath dir)) name.text false = nodeSearch packages dir name := by
  rw [lookup]
  simp only [searchBase, String.toList_ofList, Bool.false_eq_true, if_false]
  exact lookupFrom_eq_nodeSearch hp hdir name (by omega)

/-! ### Peers -/

/-- The last component of a text ends like the text. -/
theorem exists_splitOn_append (a : List Char) {w : List Char} (hw : '/' ∉ w) :
    ∃ parts y, (a ++ w).splitOn '/' = parts ++ [y ++ w] := by
  induction a with
  | nil => exact ⟨[], [], by simp [Text.splitOn_eq_singleton hw]⟩
  | cons c a ih =>
    obtain ⟨parts, y, hsplit⟩ := ih
    rw [List.cons_append, List.splitOn_cons_eq_if_modifyHead, hsplit]
    split_ifs with hc
    · exact ⟨[] :: parts, y, by simp⟩
    · cases parts with
      | nil => exact ⟨[], c :: y, by simp⟩
      | cons p parts => exact ⟨(c :: p) :: parts, y, by simp⟩

/-- Where a folder text occurs, an inner component ends in it. -/
theorem exists_mem_dropLast_of_folder {parts : List (List Char)} (hparts : ∀ part ∈ parts, IsPart part)
    (hne : parts ≠ []) {a b : List Char} (h : joinPath parts = a ++ "node_modules/".toList ++ b) :
    ∃ y, y ++ nodeModules ∈ parts.dropLast := by
  have hassoc : a ++ "node_modules/".toList ++ b = (a ++ nodeModules) ++ '/' :: b := by
    rw [List.append_assoc, List.append_assoc]
    rfl
  have hsplit := splitOn_joinPath hparts hne
  obtain ⟨front, y, hfront⟩ := exists_splitOn_append a slash_not_mem_nodeModules
  rw [h, hassoc, List.splitOn_append_cons_self, hfront] at hsplit
  refine ⟨y, ?_⟩
  rw [← hsplit, List.dropLast_append_of_ne_nil (List.splitOn_ne_nil _ _)]
  simp

theorem getLast?_joinPath_ne {dir : List (List Char)} (hdir : ∀ part ∈ dir, IsPart part) :
    (joinPath dir).getLast? ≠ some '/' := by
  induction dir using List.reverseRecOn with
  | nil => simp [joinPath]
  | append_singleton dir part ih =>
    obtain ⟨hpart, hslash⟩ := hdir part (by simp)
    have hlast : part.getLast? ≠ some '/' := fun h => hslash (List.mem_of_getLast? h)
    by_cases hnil : dir = []
    · subst hnil
      simpa [joinPath] using hlast
    · rw [joinPath_append hnil (by simp), joinPath_singleton,
        List.getLast?_append, List.getLast?_cons]
      cases hp : part.getLast? with
      | none => exact absurd (List.getLast?_eq_none_iff.mp hp) hpart
      | some c =>
        rw [hp] at hlast
        simpa using hlast

/-- The text in front of a `node_modules/` belonging to a directory. -/
def folderStart (dir : List (List Char)) : List Char := if dir = [] then [] else joinPath dir ++ ['/']

theorem trimEnd_folderStart {dir : List (List Char)} (hdir : ∀ part ∈ dir, IsPart part) :
    trimEnd '/' (folderStart dir) = joinPath dir := by
  rw [folderStart]
  split_ifs with hnil
  · subst hnil
    rfl
  · exact trimEnd_append_self (getLast?_joinPath_ne hdir)

theorem joinPath_folderStart (dir : List (List Char)) {rest : List (List Char)} (hne : rest ≠ []) :
    joinPath (dir ++ nodeModules :: rest) =
      folderStart dir ++ ('n' :: "ode_modules/".toList) ++ joinPath rest := by
  rw [folderStart]
  split_ifs with hnil
  · subst hnil
    rw [List.nil_append, joinPath_nodeModules rest hne]
    rfl
  · rw [joinPath_append hnil (by simp), joinPath_nodeModules rest hne, List.append_assoc,
      List.append_assoc]
    rfl

/-- No package name contains the folder text, unless its scope ends in it. -/
theorem folder_not_in_name {rest : List (List Char)} (hrest : ∀ part ∈ rest, IsPart part)
    (hne : rest ≠ []) (hscope : ∀ y, y ++ nodeModules ∉ rest.dropLast) (a b : List Char) :
    "ode_modules/".toList ++ joinPath rest ≠ a ++ ('n' :: "ode_modules/".toList) ++ b := by
  intro h
  have hjoin : "ode_modules/".toList ++ joinPath rest = joinPath ("ode_modules".toList :: rest) :=
    (joinPath_append (a := ["ode_modules".toList]) (by simp) hne).symm
  have hparts : ∀ part ∈ "ode_modules".toList :: rest, IsPart part := by
    intro part hp
    rcases List.mem_cons.mp hp with rfl | hp
    · exact ⟨by decide, by decide⟩
    · exact hrest part hp
  obtain ⟨y, hy⟩ := exists_mem_dropLast_of_folder hparts (by simp) (hjoin ▸ h)
  rw [List.dropLast_cons_of_ne_nil hne, List.mem_cons] at hy
  rcases hy with hy | hy
  · have hlen := congrArg List.length hy
    rw [List.length_append, show nodeModules.length = 12 from rfl,
      show "ode_modules".toList.length = 11 from rfl] at hlen
    omega
  · exact hscope y hy

/-- **Peer lookups** are the search from the directory the package is installed
in. -/
theorem lookup_peer_eq_nodeSearch (hp : ScopesEmpty packages) {dir : List (List Char)}
    (hdir : SearchDir dir) (self name : PackageName) :
    lookup packages (String.ofList (joinPath (dir ++ nodeModules :: nameParts self))) name.text true =
      nodeSearch packages dir name := by
  have hself : ∀ part ∈ nameParts self, IsPart part := fun part hp => isPart_of_mem_nameParts hp
  rw [lookup]
  simp only [searchBase, String.toList_ofList, if_true,
    show "node_modules/".toList = 'n' :: "ode_modules/".toList from rfl]
  by_cases hscope : ∃ y, y ++ nodeModules ∈ (nameParts self).dropLast
  · -- the last occurrence is in the scope, and the search goes through it once
    obtain ⟨y, hy⟩ := hscope
    rcases nameParts_cases self with ⟨part, hname, _⟩ | ⟨scope, part, hname, hat⟩
    · simp [hname] at hy
    rw [hname] at hy hself
    have hscope : y ++ nodeModules = scope := List.mem_singleton.mp hy
    have hpart := hself part (by simp)
    have hy : IsPart y ∧ startsScope y = true := by
      cases y with
      | nil =>
        rw [← hscope, List.nil_append, startsScope_nodeModules] at hat
        exact absurd hat (by decide)
      | cons c y =>
        have hslash := (hself scope (by simp)).2
        rw [← hscope, List.mem_append, not_or] at hslash
        exact ⟨⟨by simp, hslash.1⟩, by rw [← hscope] at hat; exact hat⟩
    have htext : joinPath (dir ++ nodeModules :: nameParts self) =
        joinPath (dir ++ nodeModules :: [y]) ++ ('n' :: "ode_modules/".toList) ++ joinPath [part] := by
      have hjoin : joinPath [scope, part] =
          joinPath [y] ++ ('n' :: "ode_modules/".toList) ++ joinPath [part] := by
        rw [joinPath_pair, ← hscope, joinPath_singleton, joinPath_singleton, List.append_assoc,
          List.append_assoc]
        rfl
      rw [joinPath_folderStart dir (nameParts_ne_nil self), hname, hjoin,
        @joinPath_folderStart dir [y] (by simp)]
      simp only [List.append_assoc]
    have hdirs : ∀ p ∈ dir ++ nodeModules :: [y], IsPart p := by
      intro p hmem
      rw [List.mem_append, List.mem_cons, List.mem_singleton] at hmem
      rcases hmem with hmem | rfl | rfl
      · exact hdir.isPart p hmem
      · exact isPart_nodeModules
      · exact hy.1
    have hlast := @folder_not_in_name [part] (by simpa using hpart) (by simp) (by simp)
    rw [htext, rsplitOncePat_append _ hlast]
    show lookupFrom packages name.text
      ((trimEnd '/' (joinPath (dir ++ nodeModules :: [y]))).length + 1)
      (trimEnd '/' (joinPath (dir ++ nodeModules :: [y]))) = _
    have hlt : (joinPath dir).length < (joinPath (dir ++ nodeModules :: [y])).length :=
      length_joinPath_lt (fun p hmem => hdirs p (List.mem_append_right _ hmem)) (by simp)
    have hnone := hp dir y name hdir hy.1 hy.2
    rw [trimEnd_of_getLast?_ne (getLast?_joinPath_ne hdirs), lookupFrom_succ hdirs,
      show dir ++ nodeModules :: [y] = dir ++ [nodeModules] ++ [y] by simp, hnone,
      if_neg Bool.false_ne_true, if_neg (by simp),
      show dir ++ [nodeModules] ++ [y] = dir ++ nodeModules :: [y] by simp,
      ancestor_nodeModules hdir.isPart (by simpa using hy.1) (by simp) (by simp),
      lookupFrom_eq_nodeSearch hp hdir name hlt]
  · have hlast := folder_not_in_name hself (nameParts_ne_nil self) (not_exists.mp hscope)
    rw [joinPath_folderStart dir (nameParts_ne_nil self), rsplitOncePat_append _ hlast]
    show lookupFrom packages name.text ((trimEnd '/' (folderStart dir)).length + 1)
      (trimEnd '/' (folderStart dir)) = _
    rw [trimEnd_folderStart hdir.isPart]
    exact lookupFrom_eq_nodeSearch hp hdir name (by omega)

/-- Peers of a project directory are searched from it, unless the text of its
path contains that of an installation folder. -/
theorem lookup_peer_folder (hp : ScopesEmpty packages) {dir : List (List Char)}
    (hdir : ∀ part ∈ dir, IsFolder part) (hinner : ∀ y, y ++ nodeModules ∉ dir.dropLast)
    (name : PackageName) :
    lookup packages (String.ofList (joinPath dir)) name.text true = nodeSearch packages dir name := by
  have hparts := (SearchDir.folder hdir).isPart
  have hnone : rsplitOncePat "node_modules/".toList (joinPath dir) = none := by
    refine rsplitOncePat_eq_none fun a b hab => ?_
    have hne : dir ≠ [] := by
      rintro rfl
      simp [joinPath] at hab
    obtain ⟨y, hy⟩ := exists_mem_dropLast_of_folder hparts hne hab
    exact hinner y hy
  rw [lookup]
  simp only [searchBase, String.toList_ofList, if_true, hnone]
  exact lookupFrom_eq_nodeSearch hp (SearchDir.folder hdir) name (by omega)

end Search

/-! ### Peers of a project directory -/

/-- What is in front of `node_modules` in a component that ends in it. -/
def folderStem (part : List Char) : Option (List Char) := stripSuffix nodeModules part

/-- The directory that is left of a path before its last text `node_modules/`:
the last component but one that ends in it is cut there. -/
def cutDirectory (path : List (List Char)) : List (List Char) :=
  match path.dropLast.reverse.dropWhile fun part => (folderStem part).isNone with
  | [] => path
  | part :: above => above.reverse ++ [(folderStem part).getD part]

theorem eq_append_of_stripSuffix {suffix s start : List Char} (h : stripSuffix suffix s = some start) :
    s = start ++ suffix := by
  obtain ⟨r, hr, rfl⟩ := Option.map_eq_some_iff.mp h
  have := congrArg List.reverse (eq_append_of_stripPrefix hr)
  rwa [List.reverse_reverse, List.reverse_append, List.reverse_reverse] at this

theorem stripSuffix_append (s suffix : List Char) : stripSuffix suffix (s ++ suffix) = some s := by
  rw [stripSuffix, List.reverse_append, stripPrefix_append, Option.map_some, List.reverse_reverse]

theorem folderStem_eq_some {part stem : List Char} : folderStem part = some stem ↔ part = stem ++ nodeModules := by
  constructor
  · exact eq_append_of_stripSuffix
  · rintro rfl
    exact stripSuffix_append _ _

theorem folderStem_eq_none {part : List Char} : folderStem part = none ↔ ∀ stem, part ≠ stem ++ nodeModules := by
  rw [Option.eq_none_iff_forall_ne_some]
  exact forall_congr' fun stem => not_congr folderStem_eq_some

/-- A path without such a component is not cut. -/
theorem cutDirectory_of_plain {path : List (List Char)} (h : ∀ y, y ++ nodeModules ∉ path.dropLast) :
    cutDirectory path = path := by
  have hnil : path.dropLast.reverse.dropWhile (fun part => (folderStem part).isNone) = [] := by
    refine List.dropWhile_eq_nil_iff.mpr fun part hpart => ?_
    rw [Option.isNone_iff_eq_none, folderStem_eq_none]
    rintro stem rfl
    exact h stem (List.mem_reverse.mp hpart)
  rw [cutDirectory, hnil]

/-- **A path is cut at one of its components**, or at none. -/
theorem cutDirectory_cases (path : List (List Char)) :
    ((∀ y, y ++ nodeModules ∉ path.dropLast) ∧ cutDirectory path = path) ∨
      ∃ above stem rest, rest ≠ [] ∧ path = above ++ (stem ++ nodeModules) :: rest ∧
        (∀ y, y ++ nodeModules ∉ rest.dropLast) ∧ cutDirectory path = above ++ [stem] := by
  cases hdrop : path.dropLast.reverse.dropWhile fun part => (folderStem part).isNone with
  | nil =>
    refine Or.inl ?_
    have hall := List.dropWhile_eq_nil_iff.mp hdrop
    have hplain : ∀ y, y ++ nodeModules ∉ path.dropLast := by
      intro y hy
      have hnone := hall _ (List.mem_reverse.mpr hy)
      rw [folderStem_eq_some.mpr rfl] at hnone
      exact absurd hnone (by simp)
    exact ⟨hplain, cutDirectory_of_plain hplain⟩
  | cons part above =>
    refine Or.inr ?_
    have hpart : folderStem part ≠ none := by
      have hhead := List.head_dropWhile_not (fun part => (folderStem part).isNone)
        (l := path.dropLast.reverse) (by rw [hdrop]; simp)
      simp only [hdrop, List.head_cons] at hhead
      rintro hnone
      rw [hnone] at hhead
      exact absurd hhead (by decide)
    obtain ⟨stem, hstem⟩ := Option.ne_none_iff_exists'.mp hpart
    have hsplit := @List.takeWhile_append_dropWhile _ (fun part => (folderStem part).isNone)
      path.dropLast.reverse
    rw [hdrop] at hsplit
    have hinner : path.dropLast = above.reverse ++
        part :: (path.dropLast.reverse.takeWhile fun part => (folderStem part).isNone).reverse := by
      have hback := congrArg List.reverse hsplit
      rw [List.reverse_append, List.reverse_cons, List.reverse_reverse, List.append_assoc] at hback
      exact hback.symm
    have hne : path ≠ [] := by
      rintro rfl
      simp at hdrop
    refine ⟨above.reverse, stem, (path.dropLast.reverse.takeWhile fun part => (folderStem part).isNone).reverse ++
      [path.getLast hne], by simp, ?_, fun y hy => ?_, ?_⟩
    · rw [← folderStem_eq_some.mp hstem, ← List.cons_append, ← List.append_assoc, ← hinner,
        List.dropLast_append_getLast]
    · rw [List.dropLast_concat, List.mem_reverse] at hy
      have hnone := List.mem_takeWhile_imp hy
      rw [folderStem_eq_some.mpr rfl] at hnone
      exact absurd hnone (by simp)
    · rw [cutDirectory, hdrop]
      show above.reverse ++ [(folderStem part).getD part] = _
      rw [hstem]
      rfl

section Cut

variable {T : Type} {packages : OrdMap String T}

/-- Nothing is installed where an installation folder would be a package. -/
theorem not_isPlacement_modules {dir : List (List Char)} (hdir : SearchDir dir) (name : PackageName) :
    ¬ IsPlacement (dir ++ nodeModules :: nodeModules :: nameParts name) := by
  rintro ⟨dir', name', hdir', heq⟩
  have hmodules : ∀ {scope : List Char}, startsScope scope = true → scope ≠ nodeModules := by
    rintro scope hscope rfl
    rw [startsScope_nodeModules] at hscope
    exact absurd hscope (by decide)
  rcases nameParts_cases name with ⟨part, hname, _⟩ | ⟨scope, part, hname, hscope⟩
  · rcases nameParts_cases name' with ⟨part', hname', _⟩ | ⟨scope', part', hname', hscope'⟩
    · -- the folder would be read as a project directory or a package
      rw [hname, hname', show dir ++ [nodeModules, nodeModules, part] = dir ++ [nodeModules] ++ [nodeModules, part]
        by simp] at heq
      have hsame := List.append_inj_left' heq rfl
      exact hdir'.reading_ne (hsame ▸ hdir.reading_modules)
    · rw [hname, hname'] at heq
      have hlast := List.append_inj_right' heq rfl
      exact hmodules hscope' (List.cons.inj (List.cons.inj hlast).2).1.symm
  · rcases nameParts_cases name' with ⟨part', hname', _⟩ | ⟨scope', part', hname', hscope'⟩
    · rw [hname, hname', show dir ++ [nodeModules, nodeModules, scope, part] =
        dir ++ [nodeModules, nodeModules] ++ [scope, part] by simp] at heq
      have hlast := List.append_inj_right' heq rfl
      exact hmodules hscope (List.cons.inj hlast).1
    · rw [hname, hname', show dir ++ [nodeModules, nodeModules, scope, part] =
        dir ++ [nodeModules] ++ [nodeModules, scope, part] by simp] at heq
      have hsame := List.append_inj_left' heq rfl
      exact hdir'.reading_ne (hsame ▸ hdir.reading_modules)

/-- **Peers of a project directory** are searched from what is left of its path. -/
theorem lookup_peer_project (hp : PlacedIn packages) {dir : List (List Char)}
    (hdir : ∀ part ∈ dir, IsFolder part) (name : PackageName) :
    lookup packages (String.ofList (joinPath dir)) name.text true = nodeSearch packages (cutDirectory dir) name := by
  rcases cutDirectory_cases dir with ⟨hplain, hcut⟩ | ⟨above, stem, rest, hne, hsplit, hplain, hcut⟩
  · rw [hcut]
    exact lookup_peer_folder hp.scopesEmpty hdir hplain name
  rw [hcut]
  have habove : ∀ part ∈ above, IsFolder part := fun part hpart => hdir part (by rw [hsplit]; simp [hpart])
  have hrest : ∀ part ∈ rest, IsPart part := fun part hpart => by
    have hfolder := hdir part (by rw [hsplit]; simp [hpart])
    exact ⟨hfolder.1, hfolder.2.1⟩
  have hfolder := hdir (stem ++ nodeModules) (by rw [hsplit]; simp)
  have hstem : IsPart stem := by
    refine ⟨?_, fun hslash => hfolder.2.1 (List.mem_append_left _ hslash)⟩
    rintro rfl
    exact hfolder.2.2 rfl
  have hparts : ∀ part ∈ above ++ [stem], IsPart part := by
    intro part hpart
    rcases List.mem_append.mp hpart with hpart | hpart
    · exact ⟨(habove part hpart).1, (habove part hpart).2.1⟩
    · exact List.mem_singleton.mp hpart ▸ hstem
  have htext : joinPath dir = joinPath (above ++ [stem]) ++ ('n' :: "ode_modules/".toList) ++ joinPath rest := by
    have hfirst : joinPath (above ++ [stem ++ nodeModules]) = joinPath (above ++ [stem]) ++ nodeModules := by
      by_cases hnil : above = []
      · rw [hnil, List.nil_append, List.nil_append, joinPath_singleton, joinPath_singleton]
      · rw [joinPath_append hnil (by simp), joinPath_append hnil (by simp), joinPath_singleton,
          joinPath_singleton, List.append_assoc]
        rfl
    rw [hsplit, show above ++ (stem ++ nodeModules) :: rest = (above ++ [stem ++ nodeModules]) ++ rest by simp,
      joinPath_append (by simp) hne, hfirst, List.append_assoc, List.append_assoc]
    rfl
  rw [lookup]
  have hbase : searchBase (String.ofList (joinPath dir)).toList true = joinPath (above ++ [stem]) := by
    rw [String.toList_ofList, searchBase, if_pos rfl, htext]
    show (match rsplitOncePat ('n' :: "ode_modules/".toList) _ with | some p => trimEnd '/' p.1 | none => _) = _
    rw [rsplitOncePat_append _ (folder_not_in_name hrest hne hplain)]
    exact trimEnd_of_getLast?_ne (getLast?_joinPath_ne hparts)
  simp only [hbase]
  by_cases hmodules : stem = nodeModules
  · -- the directory left is an installation folder of its own name
    subst hmodules
    have hdir' : SearchDir above := SearchDir.folder habove
    have hnone : packages.contains (installPath (above ++ [nodeModules]) name) = false := by
      rw [← Bool.not_eq_true]
      intro hcontains
      have hassoc : above ++ [nodeModules] ++ nodeModules :: nameParts name =
          above ++ nodeModules :: nodeModules :: nameParts name := by simp
      have hall : ∀ part ∈ above ++ [nodeModules] ++ nodeModules :: nameParts name, IsPart part := by
        intro part hpart
        rcases List.mem_append.mp hpart with hpart | hpart
        · exact hparts part hpart
        · rcases List.mem_cons.mp hpart with rfl | hpart
          · exact isPart_nodeModules
          · exact isPart_of_mem_nameParts hpart
      have hplaced := hp _ hcontains
      rw [installPath, String.toList_ofList, components_joinPath hall] at hplaced
      have hplaced := hplaced fun hnil => (hall [] hnil).1 rfl
      rw [hassoc] at hplaced
      exact not_isPlacement_modules hdir' name hplaced
    have hlt : (joinPath above).length < (joinPath (above ++ [nodeModules])).length :=
      length_joinPath_lt (fun part hpart => List.mem_singleton.mp hpart ▸ isPart_nodeModules) (by simp)
    rw [lookupFrom_succ hparts, hnone, if_neg Bool.false_ne_true, if_neg (by simp),
      ancestor_folder habove isPart_nodeModules, nodeSearch_modules hdir']
    exact lookupFrom_eq_nodeSearch hp.scopesEmpty hdir' name hlt
  · refine lookupFrom_eq_nodeSearch hp.scopesEmpty (SearchDir.folder fun part hpart => ?_) name (by omega)
    rcases List.mem_append.mp hpart with hpart | hpart
    · exact habove part hpart
    · rw [List.mem_singleton.mp hpart]
      exact ⟨hstem.1, hstem.2, hmodules⟩

end Cut

/-! ### One level up -/

/-- The directory a package is installed in; a project directory is its own. -/
def installedIn (dir : List (List Char)) : List (List Char) :=
  ((dir.inits.reverse.find? fun d => reading d = .modules).map List.dropLast).getD dir

theorem find?_modules_concat {dir : List (List Char)} {part : List Char}
    (h : reading (dir ++ [part]) ≠ .modules) :
    ((dir ++ [part]).inits.reverse.find? fun d => reading d = .modules) =
      dir.inits.reverse.find? fun d => reading d = .modules := by
  rw [inits_reverse_concat, List.find?_cons_of_neg (by simpa using h)]

theorem installedIn_installed {dir : List (List Char)} (hdir : SearchDir dir) (self : PackageName) :
    installedIn (dir ++ nodeModules :: nameParts self) = dir := by
  have hread := (hdir.installed self).reading_ne
  have hmodules := hdir.reading_modules
  have hfolder : ((dir ++ [nodeModules]).inits.reverse.find? fun d => reading d = .modules) =
      some (dir ++ [nodeModules]) := by
    rw [inits_reverse_concat, List.find?_cons_of_pos (by simpa using hmodules)]
  have hfound : ((dir ++ nodeModules :: nameParts self).inits.reverse.find? fun d =>
      reading d = .modules) = some (dir ++ [nodeModules]) := by
    rcases nameParts_cases self with ⟨part, hself, _⟩ | ⟨scope, part, hself, hscope⟩
    · have hassoc : dir ++ nodeModules :: nameParts self = dir ++ [nodeModules] ++ [part] := by
        simp [hself]
      rw [hassoc] at hread ⊢
      rw [find?_modules_concat hread, hfolder]
    · have hassoc : dir ++ nodeModules :: nameParts self = dir ++ [nodeModules] ++ [scope] ++ [part] := by
        simp [hself]
      have hscoped : reading (dir ++ [nodeModules] ++ [scope]) ≠ .modules := by
        rw [reading_concat, hmodules, Reading.next, if_pos hscope]
        decide
      rw [hassoc] at hread ⊢
      rw [find?_modules_concat hread, find?_modules_concat hscoped, hfolder]
  rw [installedIn, hfound]
  simp

theorem installedIn_folder {dir : List (List Char)} (h : ∀ part ∈ dir, IsFolder part) :
    installedIn dir = dir := by
  have hnone : (dir.inits.reverse.find? fun d => reading d = .modules) = none := by
    induction dir using List.reverseRecOn with
    | nil => decide
    | append_singleton dir part ih =>
      rw [find?_modules_concat (SearchDir.folder h).reading_ne,
        ih fun p hp => h p (List.mem_append_left _ hp)]
  rw [installedIn, hnone]
  rfl

/-- Lookups of a placement, regular or peer. -/
theorem lookup_placement {T : Type} {packages : OrdMap String T} (hp : PlacedIn packages) {path : String}
    (hpath : IsPlacement (components path.toList)) (name : PackageName) (peer : Bool) :
    lookup packages path name.text peer =
      nodeSearch packages (if peer then installedIn (components path.toList)
        else components path.toList) name := by
  obtain ⟨dir, self, hdir, heq⟩ := hpath
  have htext : path = String.ofList (joinPath (dir ++ nodeModules :: nameParts self)) := by
    rw [← heq, joinPath_components, String.ofList_toList]
  rw [heq]
  cases peer with
  | false =>
    rw [htext, lookup_eq_nodeSearch hp.scopesEmpty (hdir.installed self)]
    rfl
  | true =>
    rw [htext, lookup_peer_eq_nodeSearch hp.scopesEmpty hdir, if_pos rfl, installedIn_installed hdir]

/-- A regular lookup of a project directory. -/
theorem lookup_folder {T : Type} {packages : OrdMap String T} (hp : PlacedIn packages) {path : String}
    (hpath : ∀ part ∈ components path.toList, IsFolder part) (name : PackageName) :
    lookup packages path name.text false = nodeSearch packages (components path.toList) name := by
  have htext : path = String.ofList (joinPath (components path.toList)) := by
    rw [joinPath_components, String.ofList_toList]
  conv_lhs => rw [htext]
  exact lookup_eq_nodeSearch hp.scopesEmpty (SearchDir.folder hpath) name

/-- Lookups in a part of a map agree with those in the map, where these end in
the part. -/
theorem lookupFrom_of_subset {S T : Type} {part : OrdMap String S} {all : OrdMap String T}
    (hsub : ∀ k, part.contains k = true → all.contains k = true) {name : String} {fuel : Nat}
    {base : List Char} (h : ∀ target, lookupFrom all name fuel base = some target →
      part.contains target = true) :
    lookupFrom part name fuel base = lookupFrom all name fuel base := by
  induction fuel generalizing base with
  | zero => rfl
  | succ fuel ih =>
    rw [lookupFrom] at h
    rw [lookupFrom, lookupFrom]
    by_cases hall : all.contains (String.ofList (candidate base name.toList)) = true
    · rw [if_pos hall] at h ⊢
      rw [if_pos (h _ rfl)]
    · have hsome : ¬ part.contains (String.ofList (candidate base name.toList)) = true :=
        fun hc => hall (hsub _ hc)
      rw [if_neg hall] at h ⊢
      rw [if_neg hsome]
      split_ifs at h ⊢
      · rfl
      · exact ih h

end Npm

end Tapid
