/-
Placements of an imported npm graph for one host.

The selection walks the graph from the entry points of the root and of the
members.  A placement the host does not admit is passed over when it was met on
an optional edge and refused on a required one; its own edges are not followed.
What counts are therefore the edges of selected placements: an edge of a
placement that is only reached through a refused one is never looked at.

* `ImportedNpmGraph.selectedPaths` — the walk;
* `ImportedNpmGraph.contains_of_met` — edges end at placements;
* `ImportedNpmGraph.selectedPaths_eq_ok` — when it goes through and with what,
  in any order and without a missing placement.
-/
import Tapid.GuardedSearch
import Tapid.NpmGraphSound
import Tapid.Platform

namespace Tapid

open Text Fallible

namespace Npm

/-- Why nothing is selected: an index of the placements panics, or a required
placement is refused. -/
inductive SelectFailure where
  | missing (path : String)
  | refused (e : ImportError)
  deriving DecidableEq

def ImportedNpmPackage.platform (package : ImportedNpmPackage) : PackagePlatform :=
  ⟨package.os, package.cpu, package.libc⟩

namespace ImportedNpmGraph

variable (g : ImportedNpmGraph)

/-- Targets with whether they are optional. -/
def optionalPaths (paths : OrdMap String String) (optional : OrdSet String) : List (String × Bool) :=
  paths.entries.map fun e => (e.2, decide (e.1 ∈ optional))

/-- Entry points of the root and of the members. -/
def seeds : List (String × Bool) :=
  optionalPaths g.roots g.optionalRoots ++
    g.memberRoots.values.flatMap fun member => optionalPaths member.dependencies member.optionalDependencies

/-- Dependencies and peers of a placement. -/
def edgesAt (path : String) : List (String × Bool) :=
  ((g.packages.get? path).map fun package =>
    optionalPaths package.dependencies package.optionalDependencies ++
      optionalPaths package.peers package.optionalPeers).getD []

def incompatible (path : String) (package : ImportedNpmPackage) : ImportError :=
  error ("/packages/" ++ String.ofList (path.toList.flatMap fun c => if c = '/' then ['~', '1'] else [c]))
    (package.name.text ++ "@" ++ package.version.display) "os/cpu/libc"
    "required selected package is incompatible with this platform"

def refuse (path : String) : SelectFailure :=
  match g.packages.get? path with
  | none => .missing path
  | some package => .refused (incompatible path package)

section Host

variable (os cpu : String) (libc : Option String)

/-- Whether the host admits a placement. -/
def inspect (path : String) : Except SelectFailure Bool := do
  let package ← orError (g.packages.get? path) (.missing path)
  return package.platform.admits os cpu libc

/-- The walk from given entry points along given edges. -/
def selectFrom (seeds : List (String × Bool)) (edges : String → List (String × Bool)) :
    Except SelectFailure (OrdSet String) :=
  GuardedSearch.search (g.inspect os cpu libc) edges g.refuse seeds
    (seeds.length + 2 * (g.packages.keys.map fun path => (edges path).length).sum + 1)

def selectedPaths : Except SelectFailure (OrdSet String) := g.selectFrom os cpu libc g.seeds g.edgesAt

def Compatible (path : String) : Prop :=
  ∃ package, g.packages.get? path = some package ∧ package.platform.admits os cpu libc = true

def Incompatible (path : String) : Prop :=
  ∃ package, g.packages.get? path = some package ∧ package.platform.admits os cpu libc = false

/-- Compatible placements reached through compatible placements. -/
inductive Selected : String → Prop
  | entry {path : String} {optional : Bool} (h : (path, optional) ∈ g.seeds)
      (hpath : g.Compatible os cpu libc path) : Selected path
  | edge {parent path : String} {optional : Bool} (hparent : Selected parent)
      (h : (path, optional) ∈ g.edgesAt parent) (hpath : g.Compatible os cpu libc path) : Selected path

/-- Targets of the required entry points and of the required edges of selected
placements. -/
def Required (path : String) : Prop :=
  (path, false) ∈ g.seeds ∨ ∃ parent, g.Selected os cpu libc parent ∧ (path, false) ∈ g.edgesAt parent

end Host

variable {g : ImportedNpmGraph} {os cpu : String} {libc : Option String}

/-! ### The guard of the walk -/

theorem inspect_eq_ok {path : String} {admitted : Bool} :
    g.inspect os cpu libc path = .ok admitted ↔
      ∃ package, g.packages.get? path = some package ∧ package.platform.admits os cpu libc = admitted := by
  simp only [inspect, bind_eq_ok, orError_eq_ok, pure_eq_ok]

theorem inspect_eq_error {path : String} {e : SelectFailure} (h : g.inspect os cpu libc path = .error e) :
    g.packages.contains path = false := by
  rw [inspect] at h
  cases hget : g.packages.get? path with
  | none => rw [OrdMap.contains, hget]; rfl
  | some package =>
    rw [hget] at h
    cases h

theorem selects_iff {path : String} :
    GuardedSearch.Selects (g.inspect os cpu libc) g.edgesAt g.seeds path ↔ g.Selected os cpu libc path := by
  constructor
  · intro h
    induction h with
    | seed h hopen => exact Selected.entry h (inspect_eq_ok.mp hopen)
    | child _ h hopen ih => exact Selected.edge ih h (inspect_eq_ok.mp hopen)
  · intro h
    induction h with
    | entry h hpath => exact GuardedSearch.Selects.seed h (inspect_eq_ok.mpr hpath)
    | edge _ h hpath ih => exact GuardedSearch.Selects.child ih h (inspect_eq_ok.mpr hpath)

theorem met_false_iff {path : String} :
    GuardedSearch.Met (g.inspect os cpu libc) g.edgesAt g.seeds path false ↔ g.Required os cpu libc path := by
  simp only [GuardedSearch.Met, Required, selects_iff]

theorem mem_optionalPaths {paths : OrdMap String String} {optional : OrdSet String} {v : String × Bool}
    (h : v ∈ optionalPaths paths optional) : ∃ name, paths.get? name = some v.1 := by
  obtain ⟨e, he, rfl⟩ := List.mem_map.mp h
  exact ⟨e.1, OrdMap.mem_entries.mp he⟩

/-! ### Edges end at placements -/

theorem contains_of_selectedBy {packages : OrdMap String ImportedNpmPackage} {parent name target : String}
    {requirement : Option Requirement} {peer : Bool}
    (h : SelectedBy packages parent name requirement peer (some target)) : packages.contains target = true := by
  obtain ⟨_, _, hchosen⟩ := h.of_some
  obtain ⟨_, selected, _, hselected, _⟩ := hchosen.meets
  exact OrdMap.contains_eq_true.mpr ⟨selected, hselected⟩

theorem contains_of_entryRoots {entry : JsonMap} {parent : String}
    {packages : OrdMap String ImportedNpmPackage} {workspaces : OrdMap String JsonMap}
    {links : OrdMap String String} {points : ImportedNpmEntryPoints}
    (h : entryRoots entry parent packages workspaces links = .ok points) {name target : String}
    (hget : points.dependencies.get? name = some target) : packages.contains target = true := by
  obtain ⟨regular, peer, hgets, hregular, hpeer⟩ := entryRoots_eq_ok h name
  rw [hget] at hgets
  cases hr : regular with
  | some t =>
    rw [hr, Option.some_or] at hgets
    rw [hr, ← hgets] at hregular
    exact contains_of_selectedBy hregular
  | none =>
    rw [hr, Option.none_or] at hgets
    rw [← hgets] at hpeer
    exact contains_of_selectedBy hpeer

variable {input : Json}

theorem IsParsed.contains_of_seeds (h : g.IsParsed input) {v : String × Bool} (hv : v ∈ g.seeds) :
    g.packages.contains v.1 = true := by
  have hmember : ∀ path points name, g.memberRoots.get? path = some points →
      points.dependencies.get? name = some v.1 → g.packages.contains v.1 = true := by
    intro path points name hpoints hget
    obtain ⟨_, _, hentry⟩ := h.memberPoints path points hpoints
    exact contains_of_entryRoots hentry hget
  rcases List.mem_append.mp hv with hv | hv
  · obtain ⟨name, hget⟩ := mem_optionalPaths hv
    obtain ⟨rootPoints, hentry, hroots⟩ := h.rootPoints
    rcases hroots.2 name v.1 hget with hroot | ⟨_, _, path, points, hpoints, htarget⟩
    · exact contains_of_entryRoots hentry hroot
    · exact hmember path points name hpoints htarget
  · obtain ⟨points, hpoints, hv⟩ := List.mem_flatMap.mp hv
    obtain ⟨path, hpoints⟩ := OrdMap.mem_values.mp hpoints
    obtain ⟨name, hget⟩ := mem_optionalPaths hv
    exact hmember path points name hpoints hget

theorem IsParsed.contains_of_edgesAt (h : g.IsParsed input) {path : String} {v : String × Bool}
    (hv : v ∈ g.edgesAt path) : g.packages.contains v.1 = true := by
  rw [edgesAt] at hv
  cases hget : g.packages.get? path with
  | none => simp [hget] at hv
  | some package =>
    rw [hget, Option.map_some, Option.getD_some] at hv
    obtain ⟨hregular, hpeers, _⟩ := h.bound path package hget
    rcases List.mem_append.mp hv with hv | hv
    · obtain ⟨name, htarget⟩ := mem_optionalPaths hv
      exact contains_of_selectedBy (htarget ▸ hregular name)
    · obtain ⟨name, htarget⟩ := mem_optionalPaths hv
      exact contains_of_selectedBy (htarget ▸ hpeers name)

/-- Whatever the walk meets is a placement. -/
theorem IsParsed.contains_of_met (h : g.IsParsed input) {path : String} {optional : Bool}
    (hmet : GuardedSearch.Met (g.inspect os cpu libc) g.edgesAt g.seeds path optional) :
    g.packages.contains path = true := by
  rcases hmet with hmet | ⟨parent, _, hmet⟩
  · exact h.contains_of_seeds hmet
  · exact h.contains_of_edgesAt hmet

/-- What the walk meets passes, unless it is required and incompatible. -/
theorem IsParsed.passes_iff (h : g.IsParsed input) :
    (∀ path optional, GuardedSearch.Met (g.inspect os cpu libc) g.edgesAt g.seeds path optional →
        GuardedSearch.Passes (g.inspect os cpu libc) path optional) ↔
      ∀ path, g.Required os cpu libc path → ¬ g.Incompatible os cpu libc path := by
  constructor
  · intro hpass path hrequired hincompatible
    have hclosed : g.inspect os cpu libc path = .ok false := inspect_eq_ok.mpr hincompatible
    rcases hpass path false (met_false_iff.mpr hrequired) with hopen | ⟨_, habsurd⟩
    · rw [hopen] at hclosed
      cases hclosed
    · cases habsurd
  · intro hall path optional hmet
    obtain ⟨package, hget⟩ := OrdMap.contains_eq_true.mp (h.contains_of_met hmet)
    cases hadmits : package.platform.admits os cpu libc with
    | true => exact Or.inl (inspect_eq_ok.mpr ⟨package, hget, hadmits⟩)
    | false =>
      refine Or.inr ⟨inspect_eq_ok.mpr ⟨package, hget, hadmits⟩, ?_⟩
      cases optional with
      | true => rfl
      | false => exact absurd ⟨package, hget, hadmits⟩ (hall path (met_false_iff.mp hmet))

/-! ### The selection -/

theorem mem_keys_of_inspect {path : String} (h : g.inspect os cpu libc path = .ok true) :
    path ∈ g.packages.keys := by
  obtain ⟨package, hget, _⟩ := inspect_eq_ok.mp h
  exact OrdMap.mem_keys.mpr ⟨package, hget⟩

/-- No walk along the edges of the graph looks for a placement it lacks. -/
theorem IsParsed.selectFrom_ne_missing (h : g.IsParsed input) {seeds : List (String × Bool)}
    {edges : String → List (String × Bool)} (hseeds : ∀ v, v ∈ seeds → v ∈ g.seeds)
    (hedges : ∀ path v, v ∈ edges path → v ∈ g.edgesAt path) (missing : String) :
    g.selectFrom os cpu libc seeds edges ≠ .error (.missing missing) := by
  intro hfail
  obtain ⟨path, optional, hmet, hreason⟩ := GuardedSearch.search_error hfail
  have hcontains := h.contains_of_met (hmet.congr hseeds hedges)
  rcases hreason with herror | ⟨_, _, hrefuse⟩
  · rw [inspect_eq_error herror] at hcontains
    cases hcontains
  · obtain ⟨package, hget⟩ := OrdMap.contains_eq_true.mp hcontains
    rw [refuse, hget] at hrefuse
    cases hrefuse

/-- **Selection for a host.**  The walk goes through exactly when no required
entry point and no required edge of a selected placement leads to an
incompatible one, and it then selects the compatible placements reached through
compatible ones.  The order of entry points and edges does not matter, and no
placement is missing. -/
theorem selectedPaths_eq_ok {url : UrlParser} (h : graph url input = .ok g) (os cpu : String)
    (libc : Option String) :
    (∀ selected, g.selectedPaths os cpu libc = .ok selected ↔
      (∀ path, g.Required os cpu libc path → ¬ g.Incompatible os cpu libc path) ∧
        ∀ path, path ∈ selected ↔ g.Selected os cpu libc path) ∧
    ∀ seeds edges, seeds.Perm g.seeds → (∀ path, (edges path).Perm (g.edgesAt path)) →
      (∀ selected, g.selectFrom os cpu libc seeds edges = .ok selected ↔
        g.selectedPaths os cpu libc = .ok selected) ∧
      ∀ path, g.selectFrom os cpu libc seeds edges ≠ .error (.missing path) := by
  obtain ⟨hparsed, _⟩ := isParsed_of_graph h
  refine ⟨fun selected => ?_, fun seeds edges hseeds hedges => ⟨fun selected => ?_, fun path => ?_⟩⟩
  · rw [selectedPaths, selectFrom, GuardedSearch.search_eq_ok (fun _ => mem_keys_of_inspect) (Nat.lt_succ_self _),
      hparsed.passes_iff]
    simp only [selects_iff]
  · exact GuardedSearch.search_congr (fun _ => mem_keys_of_inspect) (Nat.lt_succ_self _) (Nat.lt_succ_self _)
      (fun v => hseeds.mem_iff) (fun path v => (hedges path).mem_iff)
  · exact hparsed.selectFrom_ne_missing (fun v => hseeds.mem_iff.mp) (fun path v => (hedges path).mem_iff.mp)
      path

/-! ### Edges that are not looked at -/

/-- A registry entry with a version 1.0.0 and further fields. -/
def plainEntry (name : String) (fields : List (String × Json)) : Json := .obj ([
  ("integrity", .str Lockfile.sampleIntegrity),
  ("resolved", .str ("https://registry.npmjs.org/" ++ name ++ "/-/" ++ name ++ "-1.0.0.tgz")),
  ("version", .str "1.0.0")] ++ fields)

/-- An optional package for Windows whose dependency requires another one. -/
def windowsDocument : Json := .obj [
  ("lockfileVersion", .int 3),
  ("packages", .obj [
    ("", .obj [("optionalDependencies", .obj [("shell", .str "1.0.0")])]),
    ("node_modules/addon", plainEntry "addon" [("os", .arr [.str "win32"])]),
    ("node_modules/core", plainEntry "core" [("dependencies", .obj [("addon", .str "1.0.0")])]),
    ("node_modules/shell", plainEntry "shell" [("dependencies", .obj [("core", .str "1.0.0")]),
      ("os", .arr [.str "win32"])])])]

theorem selectedPaths_windowsDocument : ∃ g, graph registryUrl windowsDocument = .ok g ∧
    ∀ selected, g.selectedPaths "linux" "x86_64" none = .ok selected ↔
      (∀ path, g.Required "linux" "x86_64" none path → ¬ g.Incompatible "linux" "x86_64" none path) ∧
        ∀ path, path ∈ selected ↔ g.Selected "linux" "x86_64" none path := by
  have hok : (graph registryUrl windowsDocument).toOption.isSome = true := by decide +kernel
  obtain ⟨g, hg⟩ := Option.isSome_iff_exists.mp hok
  have hg := toOption_eq_some.mp hg
  exact ⟨g, hg, (selectedPaths_eq_ok hg "linux" "x86_64" none).1⟩

set_option synthInstance.maxSize 256 in
/-- A required edge from a compatible placement to an incompatible one does not
stop the walk when the placement is only reached through an incompatible one. -/
theorem not_forall_required_edge :
    ¬ ∀ (url : UrlParser) (input : Json) (g : ImportedNpmGraph), graph url input = .ok g →
      ∀ (os cpu : String) (libc : Option String),
        (∃ selected, g.selectedPaths os cpu libc = .ok selected) ↔
          (∀ path, (path, false) ∈ g.seeds → ¬ g.Incompatible os cpu libc path) ∧
            ∀ parent path, Reached g parent → g.Compatible os cpu libc parent →
              (path, false) ∈ g.edgesAt parent → ¬ g.Incompatible os cpu libc path := by
  intro hall
  have hrun : (graph registryUrl windowsDocument).toOption.map (fun g =>
      ((g.entryPaths, (g.packages.get? "node_modules/shell").map targets, g.edgesAt "node_modules/core"),
        (g.selectedPaths "linux" "x86_64" none).toOption.isSome,
        (g.packages.get? "node_modules/core").map (fun p => p.platform.admits "linux" "x86_64" none),
        (g.packages.get? "node_modules/addon").map fun p => p.platform.admits "linux" "x86_64" none)) =
      some ((["node_modules/shell"], some ["node_modules/core"], [("node_modules/addon", false)]),
        true, some true, some false) := by
    decide +kernel
  obtain ⟨g, hg, hrun⟩ := Option.map_eq_some_iff.mp hrun
  have hg := toOption_eq_some.mp hg
  simp only [Prod.mk.injEq] at hrun
  obtain ⟨⟨hentry, hshell, hedge⟩, hselected, hcore, haddon⟩ := hrun
  obtain ⟨selected, hselected⟩ := Option.isSome_iff_exists.mp hselected
  obtain ⟨_, hedges⟩ := (hall _ _ g hg "linux" "x86_64" none).mp ⟨selected, toOption_eq_some.mp hselected⟩
  obtain ⟨shell, hgetShell, htargets⟩ := Option.map_eq_some_iff.mp hshell
  obtain ⟨core, hgetCore, hcore⟩ := Option.map_eq_some_iff.mp hcore
  obtain ⟨addon, hgetAddon, haddon⟩ := Option.map_eq_some_iff.mp haddon
  have hreached : Reached g "node_modules/core" :=
    Reached.edge (Reached.entry (hentry ▸ List.mem_singleton_self _)) hgetShell
      (htargets ▸ List.mem_singleton_self _)
  exact hedges "node_modules/core" "node_modules/addon" hreached ⟨core, hgetCore, hcore⟩
    (hedge ▸ List.mem_singleton_self _) ⟨addon, hgetAddon, haddon⟩

end ImportedNpmGraph

end Npm

end Tapid
