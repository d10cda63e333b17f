/-
Soundness of the imported npm graph.

Every edge and entry point of the graph is the nearest placement from where it
is declared and meets its requirement; registry edges do not lead to links;
every placement is reached; placements of one instance agree.  All of this
holds of every accepted document but for one thing: peers of a workspace
member are searched from the text of its path before the last `node_modules/`,
which is the member itself only when no directory name on the way ends in it.

* `IsMember`, `IsLink`, `isPlacement_of_readPackages` — the entries;
* `isBound_of_bindPackages`, `members_of_addMember` — edges and entry points;
* `ImportedNpmGraph.validateRepresentable_eq_ok` — reached and alike;
* `ImportedNpmGraph.sound_iff_peersNearest`.
-/
import Tapid.LockfileInvariant
import Tapid.NpmSections

namespace Tapid

open Text Fallible Loop

namespace Npm

/-! ### Members -/

/-- Directories of a project: the root and its members. -/
def IsProject (path : String) : Prop := ∀ part ∈ components path.toList, IsFolder part

/-- A member with its directory and its name. -/
structure IsMember (path : String) (member : JsonMap) : Prop where
  nonempty : path ≠ ""
  project : IsProject path
  named : ∃ name : PackageName, member.get? "name" = some (.str name.text)

theorem isProject_root : IsProject "" := by
  intro part hpart
  simp [components] at hpart

theorem isProject_of_source {target : String} {source : LocalWorkspaceSource}
    (hpath : source.path = target)
    (hfolder : ¬ (target.toList.splitOn '/').any (· == nodeModules) = true) :
    target ≠ "" ∧ IsProject target := by
  obtain ⟨parts, hne, hjoin, hparts⟩ := canonicalWorkspacePath_eq_ok source.canonical
  rw [hpath] at hjoin
  have hcomponents : components target.toList = parts := by
    rw [hjoin]
    exact components_joinPath fun part hp => ⟨(hparts part hp).1, (hparts part hp).2.2.2.2.1⟩
  have hsplit : target.toList.splitOn '/' = parts := by
    rw [hjoin]
    exact splitOn_join (fun part hp => (hparts part hp).2.2.2.2.1) hne
  refine ⟨?_, fun part hpart => ?_⟩
  · rintro rfl
    rw [show components "".toList = [] from rfl] at hcomponents
    exact hne hcomponents.symm
  rw [hcomponents] at hpart
  refine ⟨(hparts part hpart).1, (hparts part hpart).2.2.2.2.1, ?_⟩
  rintro rfl
  exact hfolder (List.any_eq_true.mpr ⟨nodeModules, hsplit ▸ hpart, by simp⟩)

theorem name_of_source {target name version : String} {source : LocalWorkspaceSource}
    (h : LocalWorkspaceSource.new target name version = .ok source) :
    ∃ parsed : PackageName, parsed.text = name := by
  unfold LocalWorkspaceSource.new at h
  split at h
  · simp at h
  · simp only [bind_eq_ok, mapError_eq_ok] at h
    obtain ⟨parsed, hname, _⟩ := h
    exact ⟨parsed, PackageName.text_of_parse hname⟩

/-- An entry of the document. -/
def entryOf (entries : JsonMap) (path : String) : JsonMap :=
  ((entries.get? path).bind Json.asObject).getD ∅

/-- The directory a link names. -/
def linkTarget (entry : JsonMap) : Option String := (entry.get? "resolved").bind Json.asStr

/-- The directories of the members: those that the links of a document name. -/
def linkTargets (entries : JsonMap) : List String := (linkEntries entries).filterMap fun e => linkTarget e.2

/-- A member is the entry of its directory, with its name filled in. -/
def IsNamed (entries : JsonMap) (path : String) (member : JsonMap) : Prop :=
  ∃ name, member = (entryOf entries path).insert "name" (.str name)

theorem readMember_eq_ok {entries : JsonMap} {state state' : MemberState} {path : String}
    {entry : JsonMap} (h : readMember entries state path entry = .ok state') :
    ∃ target member, linkTarget entry = some target ∧ IsMember target member ∧ IsNamed entries target member ∧
      state'.workspaces = state.workspaces.insert target member := by
  simp only [readMember, bind_eq_ok, mapError_eq_ok, rejectIf_eq_ok, pure_eq_ok, not_or, not_not] at h
  obtain ⟨_, _, _, _, _, _, _, _, target, htarget, value, hvalue, member, hmember, name, _, version, _, source,
    hsource, _, ⟨hpath, hfolder⟩, _, _, _, _, _, _, rfl⟩ := h
  obtain ⟨parsed, rfl⟩ := name_of_source hsource
  obtain ⟨hne, hproject⟩ := isProject_of_source hpath hfolder
  refine ⟨target, _, orError_eq_ok.mp htarget, ⟨hne, hproject, parsed, OrdMap.get?_insert_self _ _ _⟩,
    ⟨parsed.text, ?_⟩, rfl⟩
  rw [entryOf, orError_eq_ok.mp hvalue, Option.bind_some, orError_eq_ok.mp hmember]
  rfl

/-- What the pass over the links makes of a document's members. -/
structure AreMembers (entries : JsonMap) (workspaces : OrdMap String JsonMap) : Prop where
  member : ∀ path member, workspaces.get? path = some member → IsMember path member
  named : ∀ path member, workspaces.get? path = some member → IsNamed entries path member
  contains : ∀ path, workspaces.contains path = true ↔ path ∈ linkTargets entries

theorem areMembers_of_members {entries : JsonMap} {workspaces : OrdMap String JsonMap}
    (h : members entries = .ok workspaces) : AreMembers entries workspaces := by
  simp only [members, bind_eq_ok, pure_eq_ok] at h
  obtain ⟨state, hstate, rfl⟩ := h
  obtain ⟨hmember, hcontains⟩ := foldlM_inv_done (I := fun done (s : MemberState) =>
      (∀ path member, s.workspaces.get? path = some member → IsMember path member ∧ IsNamed entries path member) ∧
        ∀ path, s.workspaces.contains path = true ↔ path ∈ done.filterMap fun e => linkTarget e.2)
    (fun done e s s' hs hstep => by
      obtain ⟨target, member, htarget, hmember, hnamed, hinsert⟩ := readMember_eq_ok hstep
      refine ⟨fun path found hget => ?_, fun path => ?_⟩
      · rw [hinsert, OrdMap.get?_insert] at hget
        split_ifs at hget with heq
        · rw [heq, ← Option.some_inj.mp hget]
          exact ⟨hmember, hnamed⟩
        · exact hs.1 path found hget
      · have hlast : ([e].filterMap fun e => linkTarget e.2) = [target] := by simp [htarget]
        rw [hinsert, OrdMap.contains_insert, Bool.or_eq_true, beq_iff_eq, hs.2, List.filterMap_append,
          List.mem_append, hlast, List.mem_singleton]
        exact or_comm)
    ⟨fun path member hget => by simp at hget, fun path => by simp [OrdMap.contains]⟩ hstate
  exact ⟨fun path member hget => (hmember path member hget).1, fun path member hget => (hmember path member hget).2,
    hcontains⟩

/-! ### Links -/

/-- A link parent holds the link in its `node_modules`; the root may be written
with a slash in front. -/
theorem eq_candidate_of_linkParent {path name parent : List Char}
    (h : linkParent path name = some parent) :
    path = candidate parent name ∨ path = '/' :: candidate [] name := by
  obtain ⟨start, hstart, hparent⟩ := Option.bind_eq_some_iff.mp h
  rw [eq_append_of_stripSuffix hstart]
  by_cases hnil : start = []
  · rw [if_pos hnil] at hparent
    obtain rfl := Option.some_inj.mp hparent
    left
    rw [hnil, List.nil_append, candidate, if_pos rfl]
  · rw [if_neg hnil] at hparent
    rw [eq_append_of_stripSuffix hparent]
    by_cases hp : parent = []
    · right
      rw [hp, candidate, if_pos rfl]
      rfl
    · left
      rw [candidate, if_neg hp, List.append_assoc, List.append_assoc]
      rfl

/-- A package in the `node_modules` of a project directory is a placement. -/
theorem isPlacement_candidate {parent : String} (hparent : IsProject parent) (name : PackageName) :
    IsPlacement (components (candidate parent.toList name.text.toList)) := by
  have hdir : SearchDir (components parent.toList) := SearchDir.folder hparent
  have htext : candidate parent.toList name.text.toList =
      joinPath (components parent.toList ++ nodeModules :: nameParts name) := by
    rw [← candidate_joinPath hdir.isPart (nameParts_ne_nil name), joinPath_components,
      joinPath_nameParts]
  rw [htext, components_joinPath (hdir.installed name).isPart]
  exact ⟨_, name, hdir, rfl⟩

theorem nil_mem_components_slash (path : List Char) : [] ∈ components ('/' :: path) := by
  rw [components, if_neg (by simp)]
  have h := @List.splitOn_append_cons_self _ _ _ '/' [] path
  rw [List.nil_append] at h
  rw [h]
  simp

/-- A link points to a member, and stands where a package could. -/
structure IsLink (workspaces : OrdMap String JsonMap) (path target : String) : Prop where
  member : workspaces.contains target = true
  placed : [] ∉ components path.toList → IsPlacement (components path.toList)

theorem readLink_eq_ok {workspaces : OrdMap String JsonMap}
    (hmembers : ∀ path member, workspaces.get? path = some member → IsMember path member)
    {links links' : OrdMap String String} {path : String} {entry : JsonMap}
    (h : readLink workspaces links path entry = .ok links') :
    ∃ target, IsLink workspaces path target ∧ links' = links.insert path target := by
  simp only [readLink, expect, bind_eq_ok, orError_eq_ok, rejectIf_eq_ok, pure_eq_ok, not_not] at h
  obtain ⟨target, _, member, hmember, name, hname, _, hparent, rfl⟩ := h
  refine ⟨target, ⟨OrdMap.contains_eq_true.mpr ⟨member, hmember⟩, fun hne => ?_⟩, rfl⟩
  obtain ⟨parsed, hparsed⟩ := (hmembers target member hmember).named
  obtain rfl : parsed.text = name := by simpa [hparsed, Json.asStr] using hname
  cases hl : linkParent path.toList parsed.text.toList with
  | none => simp [hl] at hparent
  | some parent =>
    have hproject : IsProject (String.ofList parent) := by
      rw [hl, Option.any_some, Bool.or_eq_true, decide_eq_true_eq] at hparent
      rcases hparent with hnil | hcontains
      · rw [hnil]
        exact isProject_root
      · obtain ⟨entry, hentry⟩ := OrdMap.contains_eq_true.mp hcontains
        exact (hmembers _ _ hentry).project
    rcases eq_candidate_of_linkParent hl with heq | heq
    · have := isPlacement_candidate hproject parsed
      rw [heq]
      rwa [String.toList_ofList] at this
    · rw [heq] at hne
      exact absurd (nil_mem_components_slash _) hne

theorem isLink_of_readLinks {entries : JsonMap} {workspaces : OrdMap String JsonMap}
    (hmembers : ∀ path member, workspaces.get? path = some member → IsMember path member)
    {links : OrdMap String String}
    (h : (linkEntries entries).foldlM (fun links e => readLink workspaces links e.1 e.2) ∅ = .ok links)
    {path target : String} (hget : links.get? path = some target) : IsLink workspaces path target := by
  refine foldlM_inv (I := fun _ s => ∀ path target, OrdMap.get? s path = some target →
    IsLink workspaces path target) (fun e _ s s' hs hstep path target hget => ?_)
    (fun path target hget => ?_) h path target hget
  · obtain ⟨target', hlink, rfl⟩ := readLink_eq_ok hmembers hstep
    rw [OrdMap.get?_insert] at hget
    split_ifs at hget with heq
    · rw [heq, ← Option.some_inj.mp hget]
      exact hlink
    · exact hs path target hget
  · simp at hget

/-- An entry with a `link` field. -/
def isLinkEntry (entries : JsonMap) (path : String) : Bool := (entryOf entries path).contains "link"

theorem mem_linkEntries {entries : JsonMap} {path : String} :
    path ∈ (linkEntries entries).map Prod.fst ↔ isLinkEntry entries path = true := by
  rw [isLinkEntry, entryOf]
  constructor
  · intro h
    obtain ⟨e, he, rfl⟩ := List.mem_map.mp h
    obtain ⟨x, hx, hlink⟩ := List.mem_filterMap.mp he
    obtain ⟨entry, hentry, hcond⟩ := Option.bind_eq_some_iff.mp hlink
    split_ifs at hcond with hc
    obtain rfl := Option.some_inj.mp hcond
    rw [OrdMap.mem_entries.mp hx, Option.bind_some, hentry]
    exact hc
  · intro h
    cases hget : (entries.get? path).bind Json.asObject with
    | none =>
      rw [hget] at h
      exact absurd h (by simp [OrdMap.contains])
    | some entry =>
      rw [hget] at h
      obtain ⟨value, hvalue, hentry⟩ := Option.bind_eq_some_iff.mp hget
      refine List.mem_map.mpr ⟨(path, entry), List.mem_filterMap.mpr ⟨(path, value), ?_, ?_⟩, rfl⟩
      · exact OrdMap.mem_entries.mpr hvalue
      · show (value.asObject.bind fun entry => if entry.contains "link" then some (path, entry) else none) = _
        rw [hentry, Option.bind_some]
        exact if_pos h

/-- Links are read from entries with a `link` field. -/
theorem contains_readLinks {entries : JsonMap} {workspaces : OrdMap String JsonMap}
    {links : OrdMap String String}
    (h : (linkEntries entries).foldlM (fun links e => readLink workspaces links e.1 e.2) ∅ = .ok links)
    (path : String) : links.contains path = true ↔ isLinkEntry entries path = true := by
  rw [← mem_linkEntries]
  refine foldlM_inv_done (I := fun done (s : OrdMap String String) =>
      ∀ path, s.contains path = true ↔ path ∈ done.map Prod.fst)
    (fun done e s s' hs hstep path => ?_) (fun path => by simp [OrdMap.contains]) h path
  simp only [readLink, bind_eq_ok, pure_eq_ok] at hstep
  obtain ⟨_, _, _, _, _, _, _, _, rfl⟩ := hstep
  rw [OrdMap.contains_insert, Bool.or_eq_true, beq_iff_eq, hs, List.map_append, List.mem_append,
    List.map_singleton, List.mem_singleton]
  exact or_comm

/-! ### Packages -/

section Packages

variable {url : UrlParser} {workspaces : OrdMap String JsonMap}

theorem isPlacement_member
    (hmembers : ∀ path member, workspaces.get? path = some member → IsMember path member)
    {path : List Char} {name : PackageName}
    (h : placementName ((memberPlacement workspaces path).getD path) = some name) :
    IsPlacement (components path) := by
  cases hm : memberPlacement workspaces path with
  | none =>
    rw [hm] at h
    exact @isPlacement_of_placementName _ _ h [] (by simp)
  | some placement =>
    rw [hm, Option.getD_some] at h
    obtain ⟨member, hmem, hstrip⟩ := List.exists_of_findSome?_eq_some hm
    obtain ⟨rest, hrest, rfl⟩ := Option.map_eq_some_iff.mp hstrip
    obtain ⟨entry, hentry⟩ := OrdMap.mem_keys.mp hmem
    have hmember := hmembers member entry hentry
    have hne : member.toList ≠ [] := fun hnil => hmember.nonempty (String.toList_eq_nil_iff.mp hnil)
    have hplaced := isPlacement_of_placementName h hmember.project
    rw [eq_append_of_stripPrefix hrest]
    have hsplit : components (member.toList ++ "/node_modules/".toList ++ rest) =
        components member.toList ++ components ("node_modules/".toList ++ rest) := by
      have hrest : components ("node_modules/".toList ++ rest) = nodeModules :: rest.splitOn '/' := by
        rw [components, if_neg (by simp),
          show "node_modules/".toList ++ rest = nodeModules ++ '/' :: rest from rfl,
          List.splitOn_append_cons_self_of_not_mem slash_not_mem_nodeModules]
      rw [hrest, components, if_neg (by simp), splitOn_slash_nodeModules, components, if_neg hne]
    rw [hsplit]
    exact hplaced

theorem readPackage_eq_ok
    (hmembers : ∀ path member, workspaces.get? path = some member → IsMember path member)
    {path : String} {entry : JsonMap} {package : ImportedNpmPackage}
    (h : readPackage url workspaces path entry = .ok package) : IsPlacement (components path.toList) := by
  simp only [readPackage, bind_eq_ok, orError_eq_ok, pure_eq_ok] at h
  obtain ⟨name, hname, _, _, _, _, _, _, _, _, _, _, _, _, _, _, _, _, _, _, _, _, _, _, _, _, _, _, _, _,
    _, _, _, _, _, _, _, _, rfl⟩ := h
  exact isPlacement_member hmembers hname

/-- A path that a registry package is installed at: one of no link, no member and
not the root. -/
def IsRegistry (entries : JsonMap) (path : String) : Prop :=
  path ≠ "" ∧ entries.contains path = true ∧ path ∉ linkTargets entries ∧ isLinkEntry entries path = false

/-- Packages are read from entries that are neither links nor members. -/
theorem contains_readPackages {entries : JsonMap} (hmembers : AreMembers entries workspaces)
    {packages : OrdMap String ImportedNpmPackage} (h : readPackages url entries workspaces = .ok packages)
    (path : String) : (packages.contains path = true ↔ IsRegistry entries path) ∧
      (packages.contains path = true → IsPlacement (components path.toList)) := by
  have hlinked : ∀ e ∈ entries.entries, ∀ entry, e.2.asObject = some entry →
      isLinkEntry entries e.1 = entry.contains "link" := by
    intro e he entry hentry
    rw [isLinkEntry, entryOf, OrdMap.mem_entries.mp he, Option.bind_some, hentry]
    rfl
  -- what has been read so far, of the entries that are gone through
  have hdone := foldlM_inv_done (I := fun done (s : OrdMap String ImportedNpmPackage) => done ⊆ entries.entries →
      ∀ path, (s.contains path = true ↔ path ∈ done.map Prod.fst ∧ path ∉ linkTargets entries ∧
        isLinkEntry entries path = false) ∧ (s.contains path = true → IsPlacement (components path.toList)))
    (fun done e s s' hs hstep hsub path => by
      have hin : e ∈ entries.entries := hsub (by simp)
      have hs := hs (fun x hx => hsub (List.mem_append_left _ hx)) path
      simp only [addPackage, bind_eq_ok, object, orError_eq_ok] at hstep
      obtain ⟨entry, hentry, hstep⟩ := hstep
      have hlink := hlinked e hin entry hentry
      rw [List.map_append, List.mem_append, List.map_singleton, List.mem_singleton]
      split_ifs at hstep with hskip
      · obtain rfl := pure_eq_ok.mp hstep
        refine ⟨?_, hs.2⟩
        rw [hs.1]
        constructor
        · rintro ⟨hp, hrest⟩
          exact ⟨Or.inl hp, hrest⟩
        · rintro ⟨hp, hrest⟩
          refine ⟨hp.resolve_right ?_, hrest⟩
          rintro rfl
          rw [Bool.or_eq_true, hmembers.contains, ← hlink, hrest.2] at hskip
          exact hrest.1 (hskip.resolve_right Bool.false_ne_true)
      · simp only [bind_eq_ok, pure_eq_ok] at hstep
        obtain ⟨read, hread, rfl⟩ := hstep
        rw [Bool.or_eq_true, not_or, hmembers.contains, Bool.not_eq_true, ← hlink] at hskip
        rw [OrdMap.contains_insert, Bool.or_eq_true, beq_iff_eq, hs.1]
        refine ⟨⟨?_, ?_⟩, ?_⟩
        · rintro (rfl | ⟨hp, hrest⟩)
          · exact ⟨Or.inr rfl, hskip⟩
          · exact ⟨Or.inl hp, hrest⟩
        · rintro ⟨hp | rfl, hrest⟩
          · exact Or.inr ⟨hp, hrest⟩
          · exact Or.inl rfl
        · rintro (rfl | hp)
          · exact readPackage_eq_ok hmembers.member hread
          · exact hs.2 (hs.1.mpr hp))
    (fun _ path => by simp [OrdMap.contains]) h (fun e he => List.mem_of_mem_filter he) path
  refine ⟨hdone.1.trans ?_, hdone.2⟩
  have hpaths : path ∈ (entries.entries.filter fun e => e.1 ≠ "").map Prod.fst ↔
      path ≠ "" ∧ entries.contains path = true := by
    rw [List.mem_map, OrdMap.contains_eq_true]
    constructor
    · rintro ⟨e, he, rfl⟩
      obtain ⟨he, hne⟩ := List.mem_filter.mp he
      exact ⟨of_decide_eq_true hne, e.2, OrdMap.mem_entries.mp he⟩
    · rintro ⟨hne, value, hvalue⟩
      exact ⟨(path, value), List.mem_filter.mpr ⟨OrdMap.mem_entries.mpr hvalue, decide_eq_true hne⟩, rfl⟩
  rw [hpaths, and_assoc, IsRegistry]

end Packages

/-! ### Edges of packages -/

/-- The requirement the regular sections of a package declare for a name. -/
def packageRequirement (entry : JsonMap) (name : String) : Option Requirement :=
  (declared entry "optionalDependencies" name).or (declared entry "dependencies" name)

/-- Maps that select alike: same paths, names and versions. -/
def SameSelection (packages packages' : OrdMap String ImportedNpmPackage) : Prop :=
  ∀ path, (packages.get? path).map (fun p => (p.name, p.version)) =
    (packages'.get? path).map (fun p => (p.name, p.version))

theorem SameSelection.contains {packages packages' : OrdMap String ImportedNpmPackage}
    (h : SameSelection packages packages') (path : String) :
    packages.contains path = packages'.contains path := by
  have := congrArg Option.isSome (h path)
  rwa [Option.isSome_map, Option.isSome_map] at this

theorem lookupFrom_congr {S T : Type} {a : OrdMap String S} {b : OrdMap String T}
    (h : ∀ k, a.contains k = b.contains k) (name : String) (fuel : Nat) (base : List Char) :
    lookupFrom a name fuel base = lookupFrom b name fuel base := by
  induction fuel generalizing base with
  | zero => rfl
  | succ fuel ih => rw [lookupFrom, lookupFrom, h, ih]

theorem SameSelection.lookup {packages packages' : OrdMap String ImportedNpmPackage}
    (h : SameSelection packages packages') (parent name : String) (peer : Bool) :
    lookup packages parent name peer = lookup packages' parent name peer :=
  lookupFrom_congr h.contains name _ _

theorem SameSelection.chosen {packages packages' : OrdMap String ImportedNpmPackage}
    (h : SameSelection packages packages') {parent name : String} {requirement : Requirement}
    {peer : Bool} {target : String} (hc : Chosen packages parent name requirement peer target) :
    Chosen packages' parent name requirement peer target := by
  obtain ⟨declared, selected, hname, hget, hmeets⟩ := hc.meets
  refine ⟨h.lookup parent name peer ▸ hc.found, ?_⟩
  have hsame := h target
  rw [hget] at hsame
  obtain ⟨selected', hget', heq⟩ := Option.map_eq_some_iff.mp hsame.symm
  obtain ⟨hn, hv⟩ := Prod.mk.inj heq
  refine ⟨declared, selected', hname, hget', ?_⟩
  rw [satisfies] at hmeets ⊢
  rw [hn, hv]
  exact hmeets

theorem SameSelection.selectedBy {packages packages' : OrdMap String ImportedNpmPackage}
    (h : SameSelection packages packages') {parent name : String} {requirement : Option Requirement}
    {peer : Bool} {selected : Option String}
    (hs : SelectedBy packages parent name requirement peer selected) :
    SelectedBy packages' parent name requirement peer selected := by
  rcases hs with ⟨hnone, hlookup⟩ | ⟨req, target, hreq, hsel, hchosen⟩
  · exact Or.inl ⟨hnone, fun hne => h.lookup parent name peer ▸ hlookup hne⟩
  · exact Or.inr ⟨req, target, hreq, hsel, h.chosen hchosen⟩

theorem SameSelection.symm {packages packages' : OrdMap String ImportedNpmPackage}
    (h : SameSelection packages packages') : SameSelection packages' packages := fun path => (h path).symm

/-- A package whose edges were selected from its declarations, none of which
selects a link. -/
structure IsBound (entries : JsonMap) (placed : OrdMap String Unit) (links : OrdMap String String)
    (packages : OrdMap String ImportedNpmPackage) (path : String) (package : ImportedNpmPackage) :
    Prop where
  regular : ∀ name, SelectedBy packages path name (packageRequirement (entryOf entries path) name) false
    (package.dependencies.get? name)
  peers : ∀ name, SelectedBy packages path name (declared (entryOf entries path) "peerDependencies" name)
    true (package.peers.get? name)
  noLink : ∀ field ∈ ["dependencies", "optionalDependencies", "peerDependencies"], ∀ name,
    (declared (entryOf entries path) field name).isSome = true → ∀ target,
      lookup placed path name (field == "peerDependencies") = some target → links.contains target = false

theorem checkNoLink_eq_ok {placed : OrdMap String Unit} {links : OrdMap String String} {path : String}
    {entry : JsonMap} {field : String} {u : Unit}
    (h : checkNoLink placed links path entry field = .ok u) {name : String}
    (hname : (declared entry field name).isSome = true) {target : String}
    (htarget : lookup placed path name (field == "peerDependencies") = some target) :
    links.contains target = false := by
  simp only [checkNoLink, bind_eq_ok, checkAll_eq_ok, rejectIf_eq_ok] at h
  obtain ⟨m, hm, hall⟩ := h
  obtain ⟨req, hreq⟩ := Option.isSome_iff_exists.mp hname
  have hmem : name ∈ m.keys := OrdMap.mem_keys.mpr ⟨req, by rw [(get?_of_requirements hm).1, hreq]⟩
  have := hall name hmem
  rw [htarget, Option.any_some, Bool.not_eq_true] at this
  exact this

theorem bindPackage_eq_ok {entries : JsonMap} {placed : OrdMap String Unit}
    {links : OrdMap String String} {packages packages' : OrdMap String ImportedNpmPackage} {path : String}
    (h : bindPackage entries placed links packages path = .ok packages')
    {package : ImportedNpmPackage} (hget : packages.get? path = some package) :
    ∃ package', packages' = packages.insert path package' ∧ package'.name = package.name ∧
      package'.version = package.version ∧ IsBound entries placed links packages path package' := by
  simp only [bindPackage, bind_eq_ok, pure_eq_ok, hget] at h
  obtain ⟨_, hlinks, deps, hdeps, optional, hoptional, edges, hedges, peers, hpeers, optionalPeers, _,
    peerEdges, hpeerEdges, rfl⟩ := h
  refine ⟨_, rfl, rfl, rfl, ?_, ?_, ?_⟩
  · intro name
    have := SelectedBy.of_collectTargets hedges (fun _ _ _ ho => SelectedBy.of_edge ho) name
    rwa [OrdMap.get?_insertAll, OrdMap.insertAll_of_entries, (get?_of_requirements hdeps).1,
      (get?_of_requirements hoptional).1] at this
  · intro name
    have hselected : SelectedBy packages path name (peers.get? name) true (peerEdges.get? name) :=
      SelectedBy.of_collectTargets hpeerEdges (fun _ _ o ho => by
        simp only [bind_eq_ok, pure_eq_ok] at ho
        obtain ⟨o', ho', _, _, rfl⟩ := ho
        exact SelectedBy.of_edge ho') name
    rwa [(get?_of_requirements hpeers).1] at hselected
  · intro field hfield name hname target htarget
    exact checkNoLink_eq_ok (checkAll_eq_ok.mp hlinks field hfield) hname htarget

theorem SameSelection.refl (packages : OrdMap String ImportedNpmPackage) :
    SameSelection packages packages := fun _ => rfl

theorem SameSelection.insert {packages packages' : OrdMap String ImportedNpmPackage}
    (h : SameSelection packages packages') {path : String} {package package' : ImportedNpmPackage}
    (hget : packages'.get? path = some package) (hname : package'.name = package.name)
    (hversion : package'.version = package.version) :
    SameSelection packages (packages'.insert path package') := by
  intro i
  rw [h i, OrdMap.get?_insert]
  split_ifs with hi
  · rw [hi, hget, Option.map_some, Option.map_some, hname, hversion]
  · rfl

theorem IsBound.of_sameSelection {entries : JsonMap} {placed : OrdMap String Unit}
    {links : OrdMap String String} {packages packages' : OrdMap String ImportedNpmPackage} {path : String}
    {package : ImportedNpmPackage} (h : SameSelection packages packages')
    (hb : IsBound entries placed links packages path package) :
    IsBound entries placed links packages' path package :=
  ⟨fun name => h.selectedBy (hb.regular name), fun name => h.selectedBy (hb.peers name), hb.noLink⟩

/-- After the pass over the packages each of them is bound. -/
theorem isBound_of_bindPackages {entries : JsonMap} {placed : OrdMap String Unit}
    {links : OrdMap String String} {read packages : OrdMap String ImportedNpmPackage}
    (h : read.keys.foldlM (bindPackage entries placed links) read = .ok packages) :
    SameSelection read packages ∧ ∀ path package, packages.get? path = some package →
      IsBound entries placed links packages path package := by
  have hnd : (read.keys.map id).Nodup := by
    rw [List.map_id]
    exact read.nodup_keys
  obtain ⟨hsame, hall, hrest⟩ := foldlM_keyed (I := fun s => SameSelection read s) (k := id)
    (v := fun (s : OrdMap String ImportedNpmPackage) path => s.get? path)
    (R := fun path before after => before.isSome = true → ∃ package, after = some package ∧
      IsBound entries placed links read path package)
    (fun s path s' hs hstep => by
      cases hget : s.get? path with
      | none =>
        simp only [bindPackage, bind_eq_ok, pure_eq_ok, hget] at hstep
        obtain ⟨_, _, _, _, _, _, _, _, _, _, _, _, _, _, rfl⟩ := hstep
        exact ⟨hs, by simp [hget], fun _ _ => rfl⟩
      | some package =>
        obtain ⟨package', rfl, hname, hversion, hbound⟩ := bindPackage_eq_ok hstep hget
        refine ⟨hs.insert hget hname hversion, fun _ => ⟨package', OrdMap.get?_insert_self _ _ _,
          hbound.of_sameSelection hs.symm⟩, fun i hi => OrdMap.get?_insert_of_ne _ _ hi⟩)
    (SameSelection.refl read) hnd h
  refine ⟨hsame, fun path package hget => ?_⟩
  have hread : read.contains path = true := by
    rw [hsame.contains]
    exact OrdMap.contains_eq_true.mpr ⟨package, hget⟩
  obtain ⟨before, hbefore⟩ := OrdMap.contains_eq_true.mp hread
  obtain ⟨package', hget', hbound⟩ := hall path (OrdMap.mem_keys.mpr ⟨before, hbefore⟩)
    (by simp [hbefore])
  obtain rfl : package' = package := Option.some_inj.mp (hget'.symm.trans hget)
  exact hbound.of_sameSelection hsame

/-! ### Entry points of all manifests -/

theorem hoistRoot_dependencies (points roots : ImportedNpmEntryPoints) (e : String × String) :
    (hoistRoot points roots e).dependencies =
      if e.2 = "node_modules/" ++ e.1 then
        if roots.dependencies.contains e.1 then roots.dependencies
        else roots.dependencies.insert e.1 e.2
      else roots.dependencies := by
  unfold hoistRoot
  by_cases h : e.2 = "node_modules/" ++ e.1
  · rw [if_pos h, if_pos h]
  · rw [if_neg h, if_neg h]

/-- Entry points of the root stay, and what is added are entry points of a
member that are installed at the root. -/
theorem get?_of_hoistRoots {points roots : ImportedNpmEntryPoints} {l : List (String × String)} {name : String} :
    (∀ target, roots.dependencies.get? name = some target →
      (l.foldl (hoistRoot points) roots).dependencies.get? name = some target) ∧
    ∀ target, (l.foldl (hoistRoot points) roots).dependencies.get? name = some target →
      roots.dependencies.get? name = some target ∨
        roots.dependencies.get? name = none ∧ (name, target) ∈ l ∧ target = "node_modules/" ++ name := by
  induction l generalizing roots with
  | nil => exact ⟨fun _ h => h, fun _ h => Or.inl h⟩
  | cons e l ih =>
    -- one entry point, before the others
    have hone : (∀ target, roots.dependencies.get? name = some target →
        (hoistRoot points roots e).dependencies.get? name = some target) ∧
        ∀ target, (hoistRoot points roots e).dependencies.get? name = some target →
          roots.dependencies.get? name = some target ∨
            roots.dependencies.get? name = none ∧ (name, target) = e ∧ target = "node_modules/" ++ name := by
      rw [hoistRoot_dependencies]
      split_ifs with hplace hin
      · exact ⟨fun _ h => h, fun _ h => Or.inl h⟩
      · rw [Bool.not_eq_true, OrdMap.contains_eq_false] at hin
        refine ⟨fun target h => ?_, fun target h => ?_⟩
        · rw [OrdMap.get?_insert_of_ne _ _ ?_, h]
          rintro rfl
          rw [hin] at h
          cases h
        · rw [OrdMap.get?_insert] at h
          split_ifs at h with heq
          · subst heq
            obtain rfl := Option.some_inj.mp h
            exact Or.inr ⟨hin, rfl, hplace⟩
          · exact Or.inl h
      · exact ⟨fun _ h => h, fun _ h => Or.inl h⟩
    refine ⟨fun target h => ih.1 target (hone.1 target h), fun target h => ?_⟩
    rcases ih.2 target h with h | ⟨hnone, hmem, hplace⟩
    · rcases hone.2 target h with h | ⟨hnone, rfl, hplace⟩
      · exact Or.inl h
      · exact Or.inr ⟨hnone, List.mem_cons_self, hplace⟩
    · refine Or.inr ⟨?_, List.mem_cons_of_mem _ hmem, hplace⟩
      by_contra hne
      obtain ⟨t, ht⟩ := Option.ne_none_iff_exists'.mp hne
      rw [hone.1 t ht] at hnone
      cases hnone

/-- The entry points of the members, and those of the root among its own and
theirs. -/
theorem members_of_addMember {packages : OrdMap String ImportedNpmPackage}
    {workspaces : OrdMap String JsonMap} {links : OrdMap String String} {rootPoints : ImportedNpmEntryPoints}
    {state : RootState}
    (h : workspaces.entries.foldlM (addMember packages workspaces links) { root := rootPoints } = .ok state) :
    (∀ path points, state.memberRoots.get? path = some points → ∃ member,
      workspaces.get? path = some member ∧
      entryRoots member path packages workspaces links = .ok points) ∧
    (∀ path member, workspaces.get? path = some member → ∃ points,
      state.memberRoots.get? path = some points) ∧
    (∀ name target, rootPoints.dependencies.get? name = some target →
      state.root.dependencies.get? name = some target) ∧
    ∀ name target, state.root.dependencies.get? name = some target →
      rootPoints.dependencies.get? name = some target ∨
        rootPoints.dependencies.get? name = none ∧ target = "node_modules/" ++ name ∧ ∃ path points,
          state.memberRoots.get? path = some points ∧ points.dependencies.get? name = some target := by
  -- every member is inserted once, under its own path
  obtain ⟨-, hall, hrest⟩ := foldlM_keyed (I := fun _ => True) (k := Prod.fst)
    (v := fun (s : RootState) path => s.memberRoots.get? path)
    (R := fun e _ after => ∃ points, after = some points ∧
      entryRoots e.2 e.1 packages workspaces links = .ok points)
    (fun s e s' _ hstep => by
      simp only [addMember, bind_eq_ok, pure_eq_ok] at hstep
      obtain ⟨points, hpoints, rfl⟩ := hstep
      exact ⟨trivial, ⟨points, OrdMap.get?_insert_self _ _ _, hpoints⟩, fun i hi =>
        OrdMap.get?_insert_of_ne _ _ hi⟩)
    trivial workspaces.nodup_keys h
  have hmember : ∀ path member, workspaces.get? path = some member → ∃ points,
      state.memberRoots.get? path = some points ∧
      entryRoots member path packages workspaces links = .ok points := fun path member hget =>
    hall (path, member) (OrdMap.mem_entries.mpr hget)
  refine ⟨fun path points hget => ?_, fun path member hget => ?_, ?_⟩
  · cases hw : workspaces.get? path with
    | none =>
      have := hrest path (OrdMap.not_mem_keys hw)
      rw [hget] at this
      simp at this
    | some member =>
      obtain ⟨points', hget', hpoints⟩ := hmember path member hw
      obtain rfl : points' = points := Option.some_inj.mp (hget'.symm.trans hget)
      exact ⟨member, rfl, hpoints⟩
  · obtain ⟨points, hget', _⟩ := hmember path member hget
    exact ⟨points, hget'⟩
  · -- a round hoists entry points of the member it inserts, which later rounds keep
    obtain ⟨hkeep, hroots⟩ := foldlM_inv_done (I := fun done (s : RootState) =>
        (∀ name target, rootPoints.dependencies.get? name = some target →
          s.root.dependencies.get? name = some target) ∧
        ∀ name target, s.root.dependencies.get? name = some target →
          rootPoints.dependencies.get? name = some target ∨
            rootPoints.dependencies.get? name = none ∧ target = "node_modules/" ++ name ∧ ∃ e ∈ done, ∃ points,
              entryRoots e.2 e.1 packages workspaces links = .ok points ∧
              points.dependencies.get? name = some target)
      (fun done e s s' hs hstep => by
        simp only [addMember, bind_eq_ok, pure_eq_ok] at hstep
        obtain ⟨points, hpoints, rfl⟩ := hstep
        refine ⟨fun name target hget => get?_of_hoistRoots.1 target (hs.1 name target hget), fun name target hget => ?_⟩
        rcases get?_of_hoistRoots.2 target hget with hget | ⟨hnone, hmem, hplace⟩
        · rcases hs.2 name target hget with hs | ⟨hnone, hplace, e', he', hs⟩
          · exact Or.inl hs
          · exact Or.inr ⟨hnone, hplace, e', List.mem_append_left _ he', hs⟩
        · refine Or.inr ⟨?_, hplace, e, by simp, points, hpoints, OrdMap.mem_entries.mp hmem⟩
          by_contra hne
          obtain ⟨t, ht⟩ := Option.ne_none_iff_exists'.mp hne
          rw [hs.1 name t ht] at hnone
          cases hnone)
      ⟨fun name target hget => hget, fun name target hget => Or.inl hget⟩ h
    refine ⟨hkeep, fun name target hget => ?_⟩
    rcases hroots name target hget with hroot | ⟨hnone, hplace, e, he, points, hpoints, htarget⟩
    · exact Or.inl hroot
    · obtain ⟨points', hget', hpoints'⟩ := hall e he
      obtain rfl : points' = points := Except.ok.inj (hpoints'.symm.trans hpoints)
      exact Or.inr ⟨hnone, hplace, e.1, points', hget', htarget⟩

/-! ### Representable graphs -/

namespace ImportedNpmGraph

variable {g : ImportedNpmGraph}

/-- Placements an entry point leads to. -/
inductive Reached (g : ImportedNpmGraph) : String → Prop
  | entry {path : String} (h : path ∈ g.entryPaths) : Reached g path
  | edge {path target : String} {package : ImportedNpmPackage} (hpath : Reached g path)
      (hget : g.packages.get? path = some package) (h : target ∈ targets package) : Reached g target

theorem traverseStep_eq {t t' : Traversal} (h : g.traverseStep t = some (.ok t')) :
    ∃ path, t.pending = t.pending.dropLast ++ [path] ∧
      ((path ∈ t.reachable ∧ t' = { t with pending := t.pending.dropLast }) ∨
        path ∉ t.reachable ∧
          t' = { reachable := t.reachable.insert path,
                 pending := t.pending.dropLast ++ ((g.packages.get? path).map targets).getD [] }) := by
  rw [traverseStep] at h
  cases hlast : t.pending.getLast? with
  | none => simp [hlast] at h
  | some path =>
    rw [hlast] at h
    refine ⟨path, (List.dropLast_append_getLast? path hlast).symm, ?_⟩
    simp only at h
    split_ifs at h with hmem
    · exact Or.inl ⟨hmem, (Except.ok.inj (Option.some_inj.mp h)).symm⟩
    · exact Or.inr ⟨hmem, (Except.ok.inj (Option.some_inj.mp h)).symm⟩

/-- Edges of the placements not seen yet. -/
def openEdges (seen : OrdSet String) (l : List (String × ImportedNpmPackage)) : Nat :=
  ((l.filter fun e => e.1 ∉ seen).map fun e => (targets e.2).length).sum

theorem openEdges_cons (seen : OrdSet String) (e : String × ImportedNpmPackage)
    (l : List (String × ImportedNpmPackage)) :
    openEdges seen (e :: l) = (if e.1 ∈ seen then 0 else (targets e.2).length) + openEdges seen l := by
  rw [openEdges, List.filter_cons, openEdges]
  by_cases h : e.1 ∈ seen <;> simp [h]

theorem openEdges_insert_of_not_mem (seen : OrdSet String) {path : String}
    {l : List (String × ImportedNpmPackage)} (h : path ∉ l.map Prod.fst) :
    openEdges (seen.insert path) l = openEdges seen l := by
  induction l with
  | nil => rfl
  | cons e l ih =>
    rw [List.map_cons, List.mem_cons, not_or] at h
    rw [openEdges_cons, openEdges_cons, ih h.2]
    simp [Ne.symm h.1]

/-- Visiting a placement takes its edges off the open ones. -/
theorem openEdges_insert {seen : OrdSet String} {path : String} {package : ImportedNpmPackage}
    {l : List (String × ImportedNpmPackage)} (hnd : (l.map Prod.fst).Nodup) (hmem : (path, package) ∈ l)
    (hnew : path ∉ seen) :
    openEdges (seen.insert path) l + (targets package).length = openEdges seen l := by
  induction l with
  | nil => simp at hmem
  | cons e l ih =>
    rw [List.map_cons, List.nodup_cons] at hnd
    rw [openEdges_cons, openEdges_cons]
    rcases List.mem_cons.mp hmem with rfl | hmem
    · rw [openEdges_insert_of_not_mem seen hnd.1, if_pos (by simp), if_neg hnew]
      show 0 + openEdges seen l + (targets package).length =
        (targets package).length + openEdges seen l
      omega
    · have hne : e.1 ≠ path := by
        rintro rfl
        exact hnd.1 (List.mem_map.mpr ⟨_, hmem, rfl⟩)
      have := ih hnd.2 hmem
      simp only [OrdSet.mem_insert, hne, false_or]
      omega

theorem foldl_targets (l : List ImportedNpmPackage) (n : Nat) :
    l.foldl (fun n package => n + (targets package).length) n =
      n + (l.map fun package => (targets package).length).sum := by
  induction l generalizing n with
  | nil => rfl
  | cons package l ih =>
    rw [List.foldl_cons, ih, List.map_cons, List.sum_cons]
    omega

/-- The traversal ends with nothing left to visit. -/
theorem traverse_stops {t : Traversal}
    (h : Loop.run g.traverseStep g.traverseFuel { pending := g.entryPaths } = .ok t) :
    t.pending = [] := by
  have hstop := Loop.run_stops (I := fun _ => True)
    (fun t : Traversal => t.pending.length + openEdges t.reachable g.packages.entries)
    (fun t t' _ hstep => by
      refine ⟨trivial, ?_⟩
      obtain ⟨path, hpending, hcases⟩ := traverseStep_eq hstep
      have hlen : t.pending.length = t.pending.dropLast.length + 1 := by
        conv_lhs => rw [hpending]
        simp
      rcases hcases with ⟨_, rfl⟩ | ⟨hnew, rfl⟩
      · simp only
        omega
      · cases hget : g.packages.get? path with
        | none =>
          have hnot : path ∉ g.packages.entries.map Prod.fst := OrdMap.not_mem_keys hget
          simp only [openEdges_insert_of_not_mem _ hnot, Option.map_none, Option.getD_none,
            List.append_nil]
          omega
        | some package =>
          have := openEdges_insert g.packages.nodup_keys (OrdMap.mem_entries.mpr hget) hnew
          simp only [Option.map_some, Option.getD_some, List.length_append]
          omega)
    trivial (by
      have hall : openEdges ∅ g.packages.entries =
          (g.packages.values.map fun package => (targets package).length).sum := by
        rw [openEdges, List.filter_eq_self.mpr fun e _ => by simp [OrdSet.not_mem_empty], OrdMap.values,
          List.map_map]
        rfl
      show g.entryPaths.length + openEdges ∅ g.packages.entries < g.traverseFuel
      rw [traverseFuel, foldl_targets, hall]
      omega) h
  rw [traverseStep] at hstop
  cases hlast : t.pending.getLast? with
  | none => exact List.getLast?_eq_none_iff.mp hlast
  | some path =>
    rw [hlast] at hstop
    simp only at hstop
    split_ifs at hstop

/-- Whatever the traversal has seen or is about to see is reached. -/
theorem reached_of_reachable {seen : OrdSet String} (h : g.reachable = .ok seen) {path : String}
    (hpath : path ∈ seen) : Reached g path := by
  simp only [reachable, bind_eq_ok, pure_eq_ok] at h
  obtain ⟨t, ht, rfl⟩ := h
  have hinv := Loop.run_inv (I := fun t : Traversal => (∀ p ∈ t.reachable, Reached g p) ∧
      ∀ p ∈ t.pending, Reached g p)
    (fun t t' hI hstep => by
      obtain ⟨path, hpending, hcases⟩ := traverseStep_eq hstep
      have hlast : Reached g path := hI.2 path (by rw [hpending]; simp)
      have hfront : ∀ p ∈ t.pending.dropLast, Reached g p := fun p hp =>
        hI.2 p (List.dropLast_subset _ hp)
      rcases hcases with ⟨_, rfl⟩ | ⟨_, rfl⟩
      · exact ⟨hI.1, hfront⟩
      · refine ⟨fun p hp => ?_, fun p hp => ?_⟩
        · rcases OrdSet.mem_insert.mp hp with rfl | hp
          · exact hlast
          · exact hI.1 p hp
        · rcases List.mem_append.mp hp with hp | hp
          · exact hfront p hp
          · cases hget : g.packages.get? path with
            | none => simp [hget] at hp
            | some package =>
              rw [hget] at hp
              exact Reached.edge hlast hget hp)
    ⟨fun p hp => absurd hp (by exact List.not_mem_nil), fun p hp => Reached.entry hp⟩ ht
  exact hinv.1 path hpath

theorem checkPlacement_eq_ok {seen seen' : Seen} {e : String × ImportedNpmPackage}
    (h : g.checkPlacement seen e = .ok seen') :
    (∀ s, seen.identities.get? (g.key e.2) = some s → s = g.signature e.2) ∧
      seen'.identities = seen.identities.insert (g.key e.2) (g.signature e.2) := by
  simp only [checkPlacement, bind_eq_ok, rejectIf_eq_ok, pure_eq_ok] at h
  obtain ⟨_, _, _, _, _, _, _, hsame, rfl⟩ := h
  refine ⟨fun s hs => ?_, rfl⟩
  simpa [hs] using hsame

/-- Placements of one instance agree. -/
theorem signature_of_checkPlacements {seen : Seen}
    (h : g.packages.entries.foldlM g.checkPlacement {} = .ok seen) {path path' : String}
    {package package' : ImportedNpmPackage} (hget : g.packages.get? path = some package)
    (hget' : g.packages.get? path' = some package') (hkey : g.key package = g.key package') :
    g.signature package = g.signature package' := by
  have hdone := foldlM_inv_done (I := fun done (s : Seen) => ∀ e ∈ done,
      s.identities.get? (g.key e.2) = some (g.signature e.2))
    (fun done e s s' hs hstep e' he' => by
      obtain ⟨hsame, hinsert⟩ := checkPlacement_eq_ok hstep
      rw [hinsert, OrdMap.get?_insert]
      split_ifs with hk
      · rcases List.mem_append.mp he' with he' | he'
        · have hprev := hs e' he'
          rw [hk] at hprev
          rw [hsame _ hprev]
        · rw [List.mem_singleton.mp he']
      · rcases List.mem_append.mp he' with he' | he'
        · exact hs e' he'
        · exact absurd (by rw [List.mem_singleton.mp he']) hk)
    (fun e he => absurd he List.not_mem_nil) h
  have h1 := hdone (path, package) (OrdMap.mem_entries.mpr hget)
  have h2 := hdone (path', package') (OrdMap.mem_entries.mpr hget')
  simp only [hkey] at h1
  exact Option.some_inj.mp (h1.symm.trans h2)

theorem validateRepresentable_eq_ok {u : Unit} (h : g.validateRepresentable = .ok u) :
    (∀ path, g.packages.contains path = true → Reached g path) ∧
      ∀ path path' package package', g.packages.get? path = some package →
        g.packages.get? path' = some package' → g.key package = g.key package' →
        g.signature package = g.signature package' := by
  simp only [validateRepresentable, bind_eq_ok, checkAll_eq_ok, rejectIf_eq_ok, not_not] at h
  obtain ⟨seen, hseen, _, hall, _, hplaced, _⟩ := h
  refine ⟨fun path hc => ?_, fun path path' package package' hget hget' hkey =>
    signature_of_checkPlacements hplaced hget hget' hkey⟩
  exact reached_of_reachable hseen (hall path (OrdMap.mem_keys.mpr (OrdMap.contains_eq_true.mp hc)))

end ImportedNpmGraph

/-! ### Lookups among packages and links -/

theorem contains_placements (packages : OrdMap String ImportedNpmPackage) (links : OrdMap String String)
    (path : String) :
    (placements packages links).contains path = (packages.contains path || links.contains path) := by
  rw [placements, OrdMap.ofList, OrdMap.contains_insertAll, Bool.eq_iff_iff]
  simp [OrdMap.mem_keys, OrdMap.contains, Option.isSome_iff_exists]

theorem contains_of_lookupFrom {T : Type} {packages : OrdMap String T} {name : String} {fuel : Nat}
    {base : List Char} {target : String} (h : lookupFrom packages name fuel base = some target) :
    packages.contains target = true := by
  induction fuel generalizing base with
  | zero => simp [lookupFrom] at h
  | succ fuel ih =>
    rw [lookupFrom] at h
    split_ifs at h with hc
    · rw [← Option.some_inj.mp h]
      exact hc
    · exact ih h

/-- Where no link is found, the packages are searched as everything is. -/
theorem lookup_of_not_link {packages : OrdMap String ImportedNpmPackage} {links : OrdMap String String}
    {parent name : String} {peer : Bool}
    (h : ∀ target, lookup (placements packages links) parent name peer = some target →
      links.contains target = false) :
    lookup packages parent name peer = lookup (placements packages links) parent name peer := by
  refine lookupFrom_of_subset (fun k hk => ?_) fun target htarget => ?_
  · rw [contains_placements, hk]
    rfl
  · have hc := contains_of_lookupFrom htarget
    rw [contains_placements, h target htarget, Bool.or_false] at hc
    exact hc

theorem lookup_placements_congr {packages packages' : OrdMap String ImportedNpmPackage}
    (h : SameSelection packages packages') (links : OrdMap String String) (parent name : String)
    (peer : Bool) :
    lookup (placements packages links) parent name peer =
      lookup (placements packages' links) parent name peer := by
  refine lookupFrom_congr (fun k => ?_) name _ _
  rw [contains_placements, contains_placements, h.contains]

/-- A declaration without link selects no link. -/
theorem not_link_of_not_linked {placed : OrdMap String Unit} {workspaces : OrdMap String JsonMap}
    {links : OrdMap String String}
    (hlinks : ∀ path target, links.get? path = some target → IsLink workspaces path target)
    {parent name field : String} (h : ¬ Linked placed workspaces links parent name field) {target : String}
    (htarget : lookup placed parent name (field == "peerDependencies") = some target) :
    links.contains target = false := by
  rw [OrdMap.contains_eq_false]
  by_contra hne
  obtain ⟨directory, hget⟩ := Option.ne_none_iff_exists'.mp hne
  obtain ⟨member, hmember⟩ := OrdMap.contains_eq_true.mp (hlinks target directory hget).member
  refine h ?_
  rw [Linked, linkedMember, htarget, Option.bind_some, hget, Option.bind_some, hmember]
  rfl

/-! ### Soundness -/

/-- The entries of a document. -/
def documentEntries (input : Json) : JsonMap := ((input.get "packages").bind Json.asObject).getD ∅

/-- What a document says is installed: its links and its registry packages. -/
def documentPlacements (entries : JsonMap) : OrdMap String Unit :=
  OrdMap.ofList ((entries.keys.filter fun path => isLinkEntry entries path ||
    (path ≠ "" && path ∉ linkTargets entries)).map fun path => (path, ()))

theorem contains_documentPlacements (entries : JsonMap) (path : String) :
    (documentPlacements entries).contains path = true ↔
      isLinkEntry entries path = true ∨ IsRegistry entries path := by
  have hlink : isLinkEntry entries path = true → entries.contains path = true := by
    intro h
    by_contra hnot
    rw [isLinkEntry, entryOf, OrdMap.contains_eq_false.mp ((Bool.not_eq_true _).mp hnot)] at h
    exact absurd h (by simp [OrdMap.contains])
  rw [documentPlacements, OrdMap.ofList, OrdMap.contains_insertAll, IsRegistry]
  have hempty : (OrdMap.empty : OrdMap String Unit).contains path = false := rfl
  simp only [hempty, Bool.false_or, List.map_map, Function.comp_def, List.map_id', List.contains_iff_mem,
    List.mem_filter, OrdMap.mem_keys, Bool.or_eq_true, Bool.and_eq_true, decide_eq_true_eq, ← OrdMap.contains_eq_true]
  cases hpath : isLinkEntry entries path with
  | true => simp [hlink hpath]
  | false => simp [and_comm, and_assoc]

/-- A manifest that declares what an entry of the document does. -/
def DeclaresAs (entries : JsonMap) (path : String) (manifest : JsonMap) : Prop :=
  ∀ field name, field ≠ "name" → declared manifest field name = declared (entryOf entries path) field name

theorem IsNamed.declaresAs {entries : JsonMap} {path : String} {member : JsonMap}
    (h : IsNamed entries path member) : DeclaresAs entries path member := by
  obtain ⟨given, rfl⟩ := h
  intro field name hfield
  rw [declared, declared, sectionOf, sectionOf, OrdMap.get?_insert_of_ne _ _ hfield]

theorem DeclaresAs.regularRequirement {entries : JsonMap} {path : String} {manifest : JsonMap}
    (h : DeclaresAs entries path manifest) (name : String) :
    regularRequirement manifest name = regularRequirement (entryOf entries path) name := by
  rw [Npm.regularRequirement, Npm.regularRequirement, h _ _ (by decide), h _ _ (by decide), h _ _ (by decide)]

/-- A registry package that the search for a peer finds from what is left of a
member's path is the nearest one, or gives way to a regular dependency. -/
def PeersNearest (entries : JsonMap) (path : String) : Prop :=
  ∀ (name : PackageName) (target : String),
    (declared (entryOf entries path) "peerDependencies" name.text).isSome = true →
    nodeSearch (documentPlacements entries) (cutDirectory (components path.toList)) name = some target →
    IsRegistry entries target →
    nodeSearch (documentPlacements entries) (components path.toList) name = some target ∨
      (regularRequirement (entryOf entries path) name.text).isSome = true ∧ ∃ nearest,
        nodeSearch (documentPlacements entries) (components path.toList) name = some nearest ∧
          IsRegistry entries nearest

/-- Peers of a directory are found nearest when no directory name on the way to
it ends in `node_modules`. -/
theorem peersNearest_of_plain {entries : JsonMap} {path : String}
    (hplain : ∀ start, start ++ nodeModules ∉ (components path.toList).dropLast) : PeersNearest entries path := by
  intro name target _ hfound _
  rw [cutDirectory_of_plain hplain] at hfound
  exact Or.inl hfound

namespace ImportedNpmGraph

/-- Everything that is installed. -/
def installed (g : ImportedNpmGraph) : OrdMap String Unit := placements g.packages g.workspaceLinks

/-- The nearest placement of a name from a directory, where the package is the
one the requirement asks for. -/
def Selects (g : ImportedNpmGraph) (input : Json) (dir : List (List Char)) (name : String)
    (requirement : Requirement) (target : String) : Prop :=
  ∃ declared selected, PackageName.parse name = .ok declared ∧
    nodeSearch (documentPlacements (documentEntries input)) dir declared = some target ∧
    g.packages.get? target = some selected ∧ requirement.packageName declared = selected.name ∧
    requirement.matchesVersion selected.version = true

/-- An entry point that the manifest of a directory declares. -/
def EntryPoint (g : ImportedNpmGraph) (input : Json) (path name target : String) : Prop :=
  ∃ requirement, (regularRequirement (entryOf (documentEntries input) path) name).or
      (declared (entryOf (documentEntries input) path) "peerDependencies" name) = some requirement ∧
    g.Selects input (components path.toList) name requirement target

/-- What an imported graph promises about the document it was read from.  A name
that the root has no entry point for may be one of a member's, installed at the
root. -/
structure Sound (g : ImportedNpmGraph) (input : Json) : Prop where
  regular : ∀ path package name target, g.packages.get? path = some package →
    package.dependencies.get? name = some target → ∃ requirement,
      packageRequirement (entryOf (documentEntries input) path) name = some requirement ∧
      g.Selects input (components path.toList) name requirement target
  peers : ∀ path package name target, g.packages.get? path = some package →
    package.peers.get? name = some target → ∃ requirement,
      declared (entryOf (documentEntries input) path) "peerDependencies" name = some requirement ∧
      g.Selects input (installedIn (components path.toList)) name requirement target
  notLinked : ∀ path package target, g.packages.get? path = some package →
    target ∈ targets package → isLinkEntry (documentEntries input) target = false
  ownRoots : ∀ name target, g.EntryPoint input "" name target → g.roots.get? name = some target
  roots : ∀ name target, g.roots.get? name = some target → g.EntryPoint input "" name target ∨
    (∀ own, ¬ g.EntryPoint input "" name own) ∧ target = "node_modules/" ++ name ∧
      ∃ path ∈ linkTargets (documentEntries input), g.EntryPoint input path name target
  memberRoots : ∀ path points name target, g.memberRoots.get? path = some points →
    points.dependencies.get? name = some target →
      path ∈ linkTargets (documentEntries input) ∧ g.EntryPoint input path name target
  reached : ∀ path, IsRegistry (documentEntries input) path → Reached g path
  alike : ∀ path path' package package', g.packages.get? path = some package →
    g.packages.get? path' = some package' → g.key package = g.key package' →
    g.signature package = g.signature package'

/-- What the passes over a document establish. -/
structure IsParsed (g : ImportedNpmGraph) (input : Json) : Prop where
  members : AreMembers (documentEntries input) g.workspaces
  links : ∀ path target, g.workspaceLinks.get? path = some target → IsLink g.workspaces path target
  linked : ∀ path, g.workspaceLinks.contains path = true ↔ isLinkEntry (documentEntries input) path = true
  registry : ∀ path, g.packages.contains path = true ↔ IsRegistry (documentEntries input) path
  placed : ∀ path, g.packages.contains path = true → IsPlacement (components path.toList)
  bound : ∀ path package, g.packages.get? path = some package →
    IsBound (documentEntries input) g.installed g.workspaceLinks g.packages path package
  rootPoints : ∃ points,
    entryRoots (entryOf (documentEntries input) "") "" g.packages g.workspaces g.workspaceLinks =
      .ok points ∧
    (∀ name target, points.dependencies.get? name = some target → g.roots.get? name = some target) ∧
    ∀ name target, g.roots.get? name = some target → points.dependencies.get? name = some target ∨
      points.dependencies.get? name = none ∧ target = "node_modules/" ++ name ∧ ∃ path points,
        g.memberRoots.get? path = some points ∧ points.dependencies.get? name = some target
  memberPoints : ∀ path points, g.memberRoots.get? path = some points → ∃ member,
    g.workspaces.get? path = some member ∧
    entryRoots member path g.packages g.workspaces g.workspaceLinks = .ok points
  memberEntries : ∀ path member, g.workspaces.get? path = some member → ∃ points,
    g.memberRoots.get? path = some points

theorem isParsed_of_graph {url : UrlParser} {input : Json} {g : ImportedNpmGraph}
    (h : graph url input = .ok g) : g.IsParsed input ∧ g.validateRepresentable = .ok () := by
  simp only [graph, bind_eq_ok, object, orError_eq_ok, rejectIf_eq_ok, pure_eq_ok] at h
  obtain ⟨top, htop, _, _, _, _, packagesValue, hpackages, entries, hentries, rootValue, hrootValue, root,
    hroot, _, _, workspaces, hworkspaces, links, hlinks, read, hread, packages, hbind, rootPoints,
    hrootPoints, state, hstate, _, hvalid, rfl⟩ := h
  have hdocument : documentEntries input = entries := by
    rw [documentEntries, Json.get, htop, Option.bind_some, hpackages, Option.bind_some, hentries]
    rfl
  have hrootEntry : entryOf entries "" = root := by
    rw [entryOf, hrootValue, Option.bind_some, hroot]
    rfl
  have hmembers : AreMembers entries workspaces := areMembers_of_members hworkspaces
  obtain ⟨hsame, hbound⟩ := isBound_of_bindPackages hbind
  obtain ⟨hmemberPoints, hmemberEntries, hroots⟩ := members_of_addMember hstate
  have hpackages : ∀ path, (packages.contains path = true ↔ IsRegistry entries path) ∧
      (packages.contains path = true → IsPlacement (components path.toList)) := by
    intro path
    rw [← hsame.contains]
    exact contains_readPackages hmembers hread path
  refine ⟨?_, hvalid⟩
  rw [← hrootEntry, ← hdocument] at hrootPoints
  rw [← hdocument] at hmembers hpackages
  refine ⟨hmembers, fun path target hget => isLink_of_readLinks hmembers.member hlinks hget, fun path => ?_,
    fun path => (hpackages path).1, fun path => (hpackages path).2, fun path package hget => ?_,
    ⟨rootPoints, hrootPoints, hroots⟩, hmemberPoints, hmemberEntries⟩
  · rw [hdocument]
    exact contains_readLinks hlinks path
  · obtain ⟨hregular, hpeers, hnoLink⟩ := hbound path package hget
    rw [hdocument]
    refine ⟨hregular, hpeers, fun field hfield name hname target htarget => ?_⟩
    refine hnoLink field hfield name hname target ?_
    rw [lookup_placements_congr hsame]
    exact htarget

section Soundness

variable {g : ImportedNpmGraph} {input : Json}

theorem IsParsed.disjoint (h : g.IsParsed input) {path : String} (hc : g.packages.contains path = true) :
    g.workspaceLinks.contains path = false := by
  rw [← Bool.not_eq_true, h.linked, ((h.registry path).mp hc).2.2.2]
  exact Bool.false_ne_true

theorem IsParsed.placedIn (h : g.IsParsed input) : PlacedIn g.installed := by
  intro path hc hne
  rw [installed, contains_placements, Bool.or_eq_true] at hc
  rcases hc with hc | hc
  · exact h.placed path hc
  · obtain ⟨target, hget⟩ := OrdMap.contains_eq_true.mp hc
    exact (h.links path target hget).placed hne

/-- What is installed is what the document says. -/
theorem IsParsed.nodeSearch_installed (h : g.IsParsed input) (dir : List (List Char)) (name : PackageName) :
    nodeSearch g.installed dir name = nodeSearch (documentPlacements (documentEntries input)) dir name := by
  have hcontains : g.installed.contains = (documentPlacements (documentEntries input)).contains := by
    funext path
    rw [Bool.eq_iff_iff, contains_documentPlacements, installed, contains_placements, Bool.or_eq_true, h.linked,
      h.registry]
    exact or_comm
  rw [nodeSearch, nodeSearch, hcontains]

/-- A chosen package that no link hides is selected. -/
theorem IsParsed.selects (h : g.IsParsed input) {dir : List (List Char)} {parent name target : String}
    {requirement : Requirement} {peer : Bool}
    (hsearch : ∀ declared : PackageName, lookup g.installed parent declared.text peer =
      nodeSearch g.installed dir declared)
    (hlink : ∀ target, lookup g.installed parent name peer = some target →
      g.workspaceLinks.contains target = false)
    (hchosen : Chosen g.packages parent name requirement peer target) :
    g.Selects input dir name requirement target := by
  obtain ⟨declared, selected, hname, hget, hmeets⟩ := hchosen.meets
  rw [satisfies, Bool.and_eq_true, beq_iff_eq] at hmeets
  refine ⟨declared, selected, hname, ?_, hget, hmeets.2, hmeets.1⟩
  rw [← h.nodeSearch_installed, ← hsearch, PackageName.text_of_parse hname]
  exact (lookup_of_not_link hlink).symm.trans hchosen.found

/-- Edges of packages. -/
theorem IsParsed.regular (h : g.IsParsed input) {path name target : String} {package : ImportedNpmPackage}
    (hget : g.packages.get? path = some package) (htarget : package.dependencies.get? name = some target) :
    ∃ requirement, packageRequirement (entryOf (documentEntries input) path) name = some requirement ∧
      g.Selects input (components path.toList) name requirement target := by
  have hb := h.bound path package hget
  have hsel := hb.regular name
  rw [htarget] at hsel
  obtain ⟨requirement, hreq, hchosen⟩ := hsel.of_some
  refine ⟨requirement, hreq, h.selects (fun declared => ?_) (fun t ht => ?_) hchosen⟩
  · have hc : g.packages.contains path = true := OrdMap.contains_eq_true.mpr ⟨package, hget⟩
    exact lookup_placement h.placedIn (h.placed path hc) declared false
  · rw [packageRequirement] at hreq
    cases hopt : declared (entryOf (documentEntries input) path) "optionalDependencies" name with
    | some r => exact hb.noLink "optionalDependencies" (by simp) name (by rw [hopt]; rfl) t ht
    | none =>
      rw [hopt, Option.none_or] at hreq
      exact hb.noLink "dependencies" (by simp) name (by rw [hreq]; rfl) t ht

theorem IsParsed.peers (h : g.IsParsed input) {path name target : String} {package : ImportedNpmPackage}
    (hget : g.packages.get? path = some package) (htarget : package.peers.get? name = some target) :
    ∃ requirement, declared (entryOf (documentEntries input) path) "peerDependencies" name =
        some requirement ∧
      g.Selects input (installedIn (components path.toList)) name requirement target := by
  have hb := h.bound path package hget
  have hsel := hb.peers name
  rw [htarget] at hsel
  obtain ⟨requirement, hreq, hchosen⟩ := hsel.of_some
  refine ⟨requirement, hreq, h.selects (fun declared => ?_) (fun t ht => ?_) hchosen⟩
  · have hc : g.packages.contains path = true := OrdMap.contains_eq_true.mpr ⟨package, hget⟩
    exact lookup_placement h.placedIn (h.placed path hc) declared true
  · exact hb.noLink "peerDependencies" (by simp) name (by rw [hreq]; rfl) t ht

theorem Selects.not_link (h : g.IsParsed input) {dir : List (List Char)} {name target : String}
    {requirement : Requirement} (hs : g.Selects input dir name requirement target) :
    isLinkEntry (documentEntries input) target = false := by
  obtain ⟨_, selected, _, _, hget, _⟩ := hs
  exact ((h.registry target).mp (OrdMap.contains_eq_true.mpr ⟨selected, hget⟩)).2.2.2

/-- Regular lookups of a project. -/
theorem IsParsed.lookup_project (h : g.IsParsed input) {path : String} (hpath : IsProject path)
    (declared : PackageName) : lookup g.installed path declared.text false =
      nodeSearch (documentPlacements (documentEntries input)) (components path.toList) declared := by
  rw [← h.nodeSearch_installed]
  exact lookup_folder h.placedIn hpath declared

/-- And those for its peers. -/
theorem IsParsed.lookup_peer (h : g.IsParsed input) {path : String} (hpath : IsProject path)
    (declared : PackageName) : lookup g.installed path declared.text true =
      nodeSearch (documentPlacements (documentEntries input)) (cutDirectory (components path.toList)) declared := by
  have htext : path = String.ofList (joinPath (components path.toList)) := by
    rw [joinPath_components, String.ofList_toList]
  rw [← h.nodeSearch_installed, htext, lookup_peer_project h.placedIn hpath]
  rw [String.toList_ofList, joinPath_components]

/-- What ends at a package is not linked. -/
theorem IsParsed.not_linked (h : g.IsParsed input) {path name field target : String}
    (hfound : lookup g.installed path name (field == "peerDependencies") = some target)
    (hcontains : g.packages.contains target = true) :
    ¬ Linked g.installed g.workspaces g.workspaceLinks path name field := by
  intro hl
  rw [Linked, linkedMember, hfound, Option.bind_some,
    OrdMap.contains_eq_false.mp (h.disjoint hcontains)] at hl
  simp at hl

/-- What is not linked is searched among the packages. -/
theorem IsParsed.lookup_packages (h : g.IsParsed input) {path name field : String}
    (hl : ¬ Linked g.installed g.workspaces g.workspaceLinks path name field) :
    lookup g.packages path name (field == "peerDependencies") =
      lookup g.installed path name (field == "peerDependencies") :=
  lookup_of_not_link fun _ ht => not_link_of_not_linked h.links hl ht

theorem unlinked_of_not {path name field : String} {requirement : Option Requirement}
    (hl : ¬ Linked g.installed g.workspaces g.workspaceLinks path name field) :
    unlinked g.packages g.workspaces g.workspaceLinks path name field requirement = requirement :=
  if_neg hl

theorem not_linked_of_unlinked {path name field : String} {requirement : Option Requirement}
    {req : Requirement}
    (h : unlinked g.packages g.workspaces g.workspaceLinks path name field requirement = some req) :
    ¬ Linked g.installed g.workspaces g.workspaceLinks path name field ∧ requirement = some req := by
  rw [unlinked] at h
  split_ifs at h with hl
  exact ⟨hl, h⟩

section EntryPoints

variable {path : String} (hpath : IsProject path) {manifest : JsonMap}
  (hmanifest : DeclaresAs (documentEntries input) path manifest) {points : ImportedNpmEntryPoints}
  (hpoints : entryRoots manifest path g.packages g.workspaces g.workspaceLinks = .ok points)

include hpath hmanifest hpoints

/-- Sound entry points need peers that are found nearest. -/
theorem IsParsed.peersNearest (h : g.IsParsed input)
    (hall : ∀ name target, points.dependencies.get? name = some target → g.EntryPoint input path name target) :
    PeersNearest (documentEntries input) path := by
  intro name target hdeclared hfound hcontains
  rw [← hmanifest _ _ (by decide)] at hdeclared
  rw [← h.lookup_peer hpath] at hfound
  rw [← h.registry] at hcontains
  obtain ⟨regular, peer, hget, hregular, hpeer⟩ := entryRoots_eq_ok hpoints name.text
  -- the peer is not linked, so it is searched among the packages and found there
  have hnl : ¬ Linked g.installed g.workspaces g.workspaceLinks path name.text "peerDependencies" :=
    h.not_linked hfound hcontains
  have hlookup : lookup g.packages path name.text true = some target := (h.lookup_packages hnl).trans hfound
  have hpeerTarget : peer = some target := by
    rw [unlinked_of_not hnl] at hpeer
    rcases hpeer with ⟨_, hnone⟩ | ⟨_, t, _, rfl, hchosen⟩
    · rw [hnone (Option.isSome_iff_ne_none.mp hdeclared)] at hlookup
      simp at hlookup
    · rw [← hchosen.found]
      exact hlookup
  cases hr : regular with
  | none =>
    rw [hr, hpeerTarget, Option.none_or] at hget
    obtain ⟨_, _, declared, _, hname, hsearch, _⟩ := hall name.text target hget
    rw [PackageName.text_injective (PackageName.text_of_parse hname)] at hsearch
    exact Or.inl hsearch
  | some t =>
    rw [hr] at hregular
    obtain ⟨req, hreq, hchosen⟩ := hregular.of_some
    obtain ⟨hl, hreq⟩ := not_linked_of_unlinked hreq
    obtain ⟨_, selected, _, hselected, _⟩ := hchosen.meets
    refine Or.inr ⟨by rw [← hmanifest.regularRequirement, hreq]; rfl, t, ?_,
      (h.registry t).mp (OrdMap.contains_eq_true.mpr ⟨selected, hselected⟩)⟩
    rw [← h.lookup_project hpath]
    exact (h.lookup_packages hl).symm.trans hchosen.found

omit hpath hmanifest hpoints in
/-- Where a regular section has no entry point for a name, it does not declare
the name or the search from the directory does not end at a package. -/
theorem IsParsed.regular_none (h : g.IsParsed input) {name : String}
    (hregular : SelectedBy g.packages path name (unlinked g.packages g.workspaces g.workspaceLinks path
      name "dependencies" (regularRequirement manifest name)) false none) {target : String}
    (hfound : lookup g.installed path name false = some target)
    (hcontains : g.packages.contains target = true) : regularRequirement manifest name = none := by
  have hnl : ¬ Linked g.installed g.workspaces g.workspaceLinks path name "dependencies" :=
    h.not_linked hfound hcontains
  rw [unlinked_of_not hnl] at hregular
  by_contra hne
  rcases hregular with ⟨_, hnone⟩ | ⟨_, _, _, habsurd, _⟩
  · have hlookup : lookup g.packages path name false = some target :=
      (h.lookup_packages hnl).trans hfound
    rw [hnone hne] at hlookup
    simp at hlookup
  · simp at habsurd

/-- Peers that are found nearest make sound entry points. -/
theorem IsParsed.entryPoint (h : g.IsParsed input) (hnearest : PeersNearest (documentEntries input) path)
    {name target : String} (hget : points.dependencies.get? name = some target) :
    g.EntryPoint input path name target := by
  obtain ⟨regular, peer, hgets, hregular, hpeer⟩ := entryRoots_eq_ok hpoints name
  rw [hget] at hgets
  have hsearches : ∀ d : PackageName, lookup g.installed path d.text false =
      nodeSearch g.installed (components path.toList) d := fun d => by
    rw [h.lookup_project hpath, h.nodeSearch_installed]
  cases hr : regular with
  | some t =>
    -- what the entry depends on comes before its peers
    rw [hr, Option.some_or] at hgets
    obtain rfl := Option.some_inj.mp hgets
    rw [hr] at hregular
    obtain ⟨req, hreq, hchosen⟩ := hregular.of_some
    obtain ⟨hl, hreq⟩ := not_linked_of_unlinked hreq
    refine ⟨req, ?_, h.selects hsearches (fun _ ht => not_link_of_not_linked h.links hl ht) hchosen⟩
    rw [← hmanifest.regularRequirement, hreq]
    rfl
  | none =>
    rw [hr] at hgets hregular
    rw [← Option.none_or (o := peer), ← hgets] at hpeer
    obtain ⟨req, hreq, hchosen⟩ := hpeer.of_some
    obtain ⟨hl, hreq⟩ := not_linked_of_unlinked hreq
    have hfound : lookup g.installed path name true = some target :=
      (h.lookup_packages hl).symm.trans hchosen.found
    obtain ⟨declared, selected, hname, hselected, hmeets⟩ := hchosen.meets
    obtain rfl : declared.text = name := PackageName.text_of_parse hname
    have hcontains : g.packages.contains target = true :=
      OrdMap.contains_eq_true.mpr ⟨selected, hselected⟩
    have hpeerDeclared : Npm.declared (entryOf (documentEntries input) path) "peerDependencies" declared.text =
        some req := by rw [← hmanifest _ _ (by decide), hreq]
    -- the look-up of peers may pass a nearer placement over; here it does not
    have hsearch : nodeSearch (documentPlacements (documentEntries input)) (components path.toList) declared =
        some target := by
      rw [h.lookup_peer hpath] at hfound
      rcases hnearest declared target (by rw [hpeerDeclared]; rfl) hfound ((h.registry target).mp hcontains) with
        hsame | ⟨hsome, t, ht, hc⟩
      · exact hsame
      · rw [← h.lookup_project hpath] at ht
        rw [← hmanifest.regularRequirement, h.regular_none hregular ht ((h.registry t).mpr hc)] at hsome
        simp at hsome
    rw [satisfies, Bool.and_eq_true, beq_iff_eq] at hmeets
    refine ⟨req, ?_, declared, selected, hname, hsearch, hselected, hmeets.2, hmeets.1⟩
    rw [← h.lookup_project hpath] at hsearch
    rw [← hmanifest.regularRequirement, h.regular_none hregular hsearch hcontains, Option.none_or, hpeerDeclared]

end EntryPoints

theorem declaresAs_root : DeclaresAs (documentEntries input) "" (entryOf (documentEntries input) "") :=
  fun _ _ _ => rfl

/-- The root searches its peers from itself. -/
theorem peersNearest_root (entries : JsonMap) : PeersNearest entries "" :=
  peersNearest_of_plain fun _ hmem => by cases hmem

/-- **What the root declares is its entry point.** -/
theorem IsParsed.rootPoint (h : g.IsParsed input) {points : ImportedNpmEntryPoints}
    (hpoints : entryRoots (entryOf (documentEntries input) "") "" g.packages g.workspaces g.workspaceLinks =
      .ok points) {name target : String} (hentry : g.EntryPoint input "" name target) :
    points.dependencies.get? name = some target := by
  obtain ⟨req, hreq, declared, selected, hname, hsearch, hselected, _⟩ := hentry
  obtain rfl : declared.text = name := PackageName.text_of_parse hname
  have hcontains : g.packages.contains target = true := OrdMap.contains_eq_true.mpr ⟨selected, hselected⟩
  have hfound : lookup g.installed "" declared.text false = some target := by
    rw [h.lookup_project isProject_root]
    exact hsearch
  obtain ⟨regular, peer, hget, hregular, hpeer⟩ := entryRoots_eq_ok hpoints declared.text
  have hnl : ¬ Linked g.installed g.workspaces g.workspaceLinks "" declared.text "dependencies" :=
    h.not_linked hfound hcontains
  have hnp : ¬ Linked g.installed g.workspaces g.workspaceLinks "" declared.text "peerDependencies" :=
    h.not_linked hfound hcontains
  have hlookup : lookup g.packages "" declared.text false = some target := (h.lookup_packages hnl).trans hfound
  rw [unlinked_of_not hnl] at hregular
  rw [unlinked_of_not hnp] at hpeer
  -- a requirement that is searched is found where the search ends
  have hselect : ∀ {requirement : Option Requirement} {peer : Bool} {selected : Option String},
      requirement ≠ none → lookup g.packages "" declared.text peer = some target →
        SelectedBy g.packages "" declared.text requirement peer selected → selected = some target := by
    rintro requirement peer selected hne hlookup (⟨_, hnone⟩ | ⟨_, t, _, rfl, hchosen⟩)
    · rw [hnone hne] at hlookup
      cases hlookup
    · rw [← hchosen.found]
      exact hlookup
  cases hr : regularRequirement (entryOf (documentEntries input) "") declared.text with
  | some r =>
    rw [hr] at hregular
    rw [hget, hselect (Option.some_ne_none r) hlookup hregular, Option.some_or]
  | none =>
    rw [hr, Option.none_or] at hreq
    have hnone : regular = none := by
      rcases hregular with ⟨hnone, _⟩ | ⟨_, _, hsome, _⟩
      · exact hnone
      · rw [hr] at hsome
        cases hsome
    rw [hget, hnone, Option.none_or]
    -- nothing is cut from the root's own path
    have hroot : lookup g.packages "" declared.text true = lookup g.packages "" declared.text false := rfl
    refine hselect ?_ (hroot.trans hlookup) hpeer
    rw [hreq]
    exact Option.some_ne_none _

/-- Sound graphs have peers that are found nearest. -/
theorem Sound.peersNearest {url : UrlParser} (h : graph url input = .ok g) (hsound : g.Sound input)
    {path : String} (hpath : path ∈ linkTargets (documentEntries input)) :
    PeersNearest (documentEntries input) path := by
  obtain ⟨hp, _⟩ := isParsed_of_graph h
  obtain ⟨manifest, hget⟩ := OrdMap.contains_eq_true.mp ((hp.members.contains path).mpr hpath)
  obtain ⟨points, hpoints⟩ := hp.memberEntries path manifest hget
  obtain ⟨member, hmember, hentry⟩ := hp.memberPoints path points hpoints
  obtain rfl : member = manifest := Option.some_inj.mp (hmember.symm.trans hget)
  exact hp.peersNearest (hp.members.member path member hget).project (hp.members.named path member hget).declaresAs
    hentry fun name target htarget => (hsound.memberRoots path points name target hpoints htarget).2

/-- Peers that are found nearest make the graph sound. -/
theorem sound_of_peersNearest {url : UrlParser} (h : graph url input = .ok g)
    (hnearest : ∀ path ∈ linkTargets (documentEntries input), PeersNearest (documentEntries input) path) :
    g.Sound input := by
  obtain ⟨hp, hvalid⟩ := isParsed_of_graph h
  obtain ⟨hreached, halike⟩ := validateRepresentable_eq_ok hvalid
  obtain ⟨rootPoints, hrootPoints, hown, hroots⟩ := hp.rootPoints
  have hmemberPoint : ∀ path points name target, g.memberRoots.get? path = some points →
      points.dependencies.get? name = some target →
        path ∈ linkTargets (documentEntries input) ∧ g.EntryPoint input path name target := by
    intro path points name target hpoints htarget
    obtain ⟨member, hmember, hentry⟩ := hp.memberPoints path points hpoints
    have hpath := (hp.members.contains path).mp (OrdMap.contains_eq_true.mpr ⟨member, hmember⟩)
    exact ⟨hpath, hp.entryPoint (hp.members.member path member hmember).project
      (hp.members.named path member hmember).declaresAs hentry (hnearest path hpath) htarget⟩
  refine ⟨fun path package name target hget htarget => hp.regular hget htarget,
    fun path package name target hget htarget => hp.peers hget htarget,
    fun path package target hget htarget => ?_,
    fun name target hentry => hown name target (hp.rootPoint hrootPoints hentry),
    fun name target hget => ?_, hmemberPoint, fun path hpath => hreached path ((hp.registry path).mpr hpath), halike⟩
  · rw [targets, List.mem_append] at htarget
    rcases htarget with htarget | htarget
    · obtain ⟨name, hname⟩ := OrdMap.mem_values.mp htarget
      obtain ⟨_, _, hselects⟩ := hp.regular hget hname
      exact hselects.not_link hp
    · obtain ⟨name, hname⟩ := OrdMap.mem_values.mp htarget
      obtain ⟨_, _, hselects⟩ := hp.peers hget hname
      exact hselects.not_link hp
  · -- an entry point of the root is its own, or a member's where it has none
    rcases hroots name target hget with hroot | ⟨hnone, hplace, path, points, hpoints, htarget⟩
    · exact Or.inl (hp.entryPoint isProject_root declaresAs_root hrootPoints (peersNearest_root _) hroot)
    · obtain ⟨hpath, hpoint⟩ := hmemberPoint path points name target hpoints htarget
      refine Or.inr ⟨fun own hentry => ?_, hplace, path, hpath, hpoint⟩
      rw [hp.rootPoint hrootPoints hentry] at hnone
      cases hnone

/-- **Soundness of the imported graph.**  The graph of an accepted document is
sound exactly when every member finds its peers nearest. -/
theorem sound_iff_peersNearest {url : UrlParser} (h : graph url input = .ok g) :
    g.Sound input ↔
      ∀ path ∈ linkTargets (documentEntries input), PeersNearest (documentEntries input) path :=
  ⟨fun hsound _ hpath => hsound.peersNearest h hpath, sound_of_peersNearest h⟩

end Soundness

/-! ### A member that finds its peer nearest, and one that does not -/

/-- A URL parser that knows the plain addresses of one registry. -/
def registryUrl : UrlParser := fun s =>
  (stripPrefix "https://registry.npmjs.org".toList s.toList).map fun path =>
    let path := if path = [] then ['/'] else path
    ⟨"https", "", none, some "registry.npmjs.org", none, String.ofList path, none, none,
      "https://registry.npmjs.org" ++ String.ofList path⟩

def registryEntry (name version : String) (fields : List (String × Json)) : Json := .obj ([
  ("integrity", .str Lockfile.sampleIntegrity),
  ("resolved", .str ("https://registry.npmjs.org/" ++ name ++ "/-/" ++ name ++ "-" ++ version ++ ".tgz")),
  ("version", .str version)] ++ fields)

def linkEntryTo (target : String) : Json := .obj [("link", .bool true), ("resolved", .str target)]

def peerMember (fields : List (String × Json)) : Json := .obj ([
  ("peerDependencies", .obj [("left-pad", .str "^1.0.0")]), ("version", .str "1.0.0")] ++ fields)

/-- A document with one member that declares a peer, and a package with a copy of
its own. -/
def peerDocument : Json := .obj [
  ("lockfileVersion", .int 3),
  ("packages", .obj [
    ("", .obj [("dependencies", .obj [("left-pad", .str "1.2.0")])]),
    ("apps/web", peerMember [("dependencies", .obj [("box", .str "^1.0.0")])]),
    ("node_modules/box", registryEntry "box" "1.0.0" [("dependencies", .obj [("left-pad", .str "^1.3.0")])]),
    ("node_modules/box/node_modules/left-pad", registryEntry "left-pad" "1.3.0" []),
    ("node_modules/left-pad", registryEntry "left-pad" "1.2.0" []),
    ("node_modules/web", linkEntryTo "apps/web")])]

theorem sound_peerDocument : ∃ g, graph registryUrl peerDocument = .ok g ∧ g.Sound peerDocument := by
  have hrun : (graph registryUrl peerDocument).toOption.isSome = true := by decide +kernel
  obtain ⟨g, hg⟩ := Option.isSome_iff_exists.mp hrun
  have hg := toOption_eq_some.mp hg
  refine ⟨g, hg, (sound_iff_peersNearest hg).mpr fun path hpath => peersNearest_of_plain fun start hmem => ?_⟩
  have htargets : linkTargets (documentEntries peerDocument) = ["apps/web"] := by decide +kernel
  rw [htargets, List.mem_singleton] at hpath
  rw [hpath, show (components "apps/web".toList).dropLast = ["apps".toList] by decide,
    List.mem_singleton] at hmem
  have hlen := congrArg List.length hmem
  rw [List.length_append, show nodeModules.length = 12 from rfl,
    show "apps".toList.length = 4 from rfl] at hlen
  omega

/-- A member in a directory whose name ends in `node_modules`, beside another
member with a copy of its own. -/
def cutDocument : Json := .obj [
  ("lockfileVersion", .int 3),
  ("packages", .obj [
    ("", .obj [("dependencies", .obj [("left-pad", .str "1.2.0")])]),
    ("lib", .obj [("dependencies", .obj [("left-pad", .str "1.3.0")]), ("version", .str "1.0.0")]),
    ("lib/node_modules/left-pad", registryEntry "left-pad" "1.3.0" []),
    ("libnode_modules/web", peerMember []),
    ("node_modules/left-pad", registryEntry "left-pad" "1.2.0" []),
    ("node_modules/lib", linkEntryTo "lib"),
    ("node_modules/web", linkEntryTo "libnode_modules/web")])]

/-- The peer of the second member is taken from the first: the search begins at
`lib`, the text before `node_modules/`. -/
theorem not_forall_sound :
    ¬ ∀ (url : UrlParser) (input : Json) (g : ImportedNpmGraph), graph url input = .ok g →
      g.Sound input := by
  intro hall
  have hrun : (graph registryUrl cutDocument).toOption.isSome = true := by decide +kernel
  obtain ⟨g, hg⟩ := Option.isSome_iff_exists.mp hrun
  have hg := toOption_eq_some.mp hg
  have hfacts : (PackageName.parse "left-pad").toOption.map (fun name =>
      let entries := documentEntries cutDocument
      let member := entryOf entries "libnode_modules/web"
      let path := components "libnode_modules/web".toList
      ((declared member "peerDependencies" name.text).isSome, (regularRequirement member name.text).isSome,
        nodeSearch (documentPlacements entries) (cutDirectory path) name,
        nodeSearch (documentPlacements entries) path name)) =
      some (true, false, some "lib/node_modules/left-pad", some "node_modules/left-pad") := by decide +kernel
  obtain ⟨name, _, hfacts⟩ := Option.map_eq_some_iff.mp hfacts
  simp only [Prod.mk.injEq] at hfacts
  obtain ⟨hpeer, hregular, hcut, hown⟩ := hfacts
  have hmember : "libnode_modules/web" ∈ linkTargets (documentEntries cutDocument) := by decide +kernel
  have hregistry : IsRegistry (documentEntries cutDocument) "lib/node_modules/left-pad" := by
    refine ⟨by decide, ?_, ?_, ?_⟩
    all_goals decide +kernel
  rcases (hall _ _ g hg).peersNearest hg hmember name _ hpeer hcut hregistry with hsame | ⟨hsome, _⟩
  · rw [hown] at hsame
    simp at hsame
  · rw [hregular] at hsome
    simp at hsome

end ImportedNpmGraph

end Npm

end Tapid
