/-
Planning of the `node_modules` layout.

Packages are placed under the names their dependents import them by.  A
location is the list of import names from the innermost directory outwards, so
`n :: base` is the package `n` in the `node_modules` directory `base`, and the
directories a package searches are the tails of its location.  The planner
places the roots, then works off a queue of dependency edges: an edge that
resolves already is dropped, any other is placed in the outermost directory
inside the one that shadows it.

* `search`, `placeNext` — one edge;
* `planNamedLayoutInner`, `planNamedLayout`, `planWorkspaceLayout` — the plans;
* `Location.path_injective` — different locations are different paths.
-/
import Tapid.LockKey
import Tapid.Loop

namespace Tapid

open Text Fallible

/-! ### Paths -/

/-- Components of an absolute path. -/
abbrev Path := List String

/-- `package_name_path`. -/
def packageNamePath (name : PackageName) : Path := (name.text.toList.splitOn '/').map String.ofList

/-- A directory that is managed; it has no parent components. -/
structure ManagedRoot where
  path : Path
  valid : ".." ∉ path

namespace ManagedRoot

def ownershipMarker (root : ManagedRoot) : Path := root.path ++ [".tapid-managed"]

def contains (root : ManagedRoot) (candidate : Path) : Bool :=
  !candidate.elem ".." && root.path.isPrefixOf candidate

end ManagedRoot

/-- Import names from the innermost directory outwards. -/
abbrev Location := List PackageName

/-- Path of a location. -/
def Location.path (root : ManagedRoot) (loc : Location) : Path :=
  root.path ++ loc.reverse.flatMap fun name => "node_modules" :: packageNamePath name

/-- Whether a path component begins a scoped name. -/
def isScope (part : String) : Bool := part.toList.head? == some '@'

/-- A scoped name has two components and any other one. -/
theorem packageNamePath_cases (name : PackageName) :
    (∃ part, packageNamePath name = [part] ∧ isScope part = false) ∨
      ∃ scope part, packageNamePath name = [scope, part] ∧ isScope scope = true := by
  have hv := name.valid
  rw [PackageName.isValid, Bool.and_eq_true, PackageName.isScopedOrPlain] at hv
  have hv := hv.2
  split_ifs at hv with hat
  · right
    split at hv
    · rename_i scope part hsplit
      have hjoin : name.text.toList = scope ++ '/' :: part := by
        rw [← @List.intercalate_splitOn _ name.text.toList _ _ '/', hsplit]
        simp [List.intercalate]
      refine ⟨String.ofList scope, String.ofList part, by simp [packageNamePath, hsplit], ?_⟩
      cases scope with
      | nil => simp at hv
      | cons c cs =>
        rw [hjoin] at hat
        simpa [isScope] using hat
    · simp at hv
  · left
    have hslash : '/' ∉ name.text.toList := fun hmem =>
      absurd (List.all_eq_true.mp hv '/' hmem) (by decide)
    refine ⟨name.text, ?_, ?_⟩
    · rw [packageNamePath, splitOn_eq_singleton hslash]
      simp
    · simpa [isScope] using hat

theorem packageNamePath_injective : Function.Injective packageNamePath := by
  intro a b h
  have hparts : a.text.toList.splitOn '/' = b.text.toList.splitOn '/' :=
    List.map_injective_iff.mpr (fun _ _ hab => String.ofList_injective hab) h
  refine PackageName.text_injective (String.toList_injective ?_)
  rw [← @List.intercalate_splitOn _ a.text.toList _ _ '/', hparts, List.intercalate_splitOn]

/-- Components of names are read off a path one name at a time. -/
theorem packageNamePath_append {a b : PackageName} {p q : Path}
    (h : packageNamePath a ++ p = packageNamePath b ++ q) : a = b ∧ p = q := by
  have hparts : packageNamePath a = packageNamePath b ∧ p = q := by
    rcases packageNamePath_cases a with ⟨s, hs, hscope⟩ | ⟨s, t, hs, hscope⟩ <;>
      rcases packageNamePath_cases b with ⟨s', hs', hscope'⟩ | ⟨s', t', hs', hscope'⟩ <;>
      rw [hs, hs'] at h ⊢
    · simpa using h
    · obtain rfl : s = s' := (List.cons.inj h).1
      rw [hscope] at hscope'
      simp at hscope'
    · obtain rfl : s = s' := (List.cons.inj h).1
      rw [hscope] at hscope'
      simp at hscope'
    · simpa [and_assoc] using h
  exact ⟨packageNamePath_injective hparts.1, hparts.2⟩

/-- **Different locations are different paths.** -/
theorem Location.path_injective (root : ManagedRoot) : Function.Injective (Location.path root) := by
  have hnames : ∀ l l' : List PackageName,
      (l.flatMap fun name => "node_modules" :: packageNamePath name) =
        (l'.flatMap fun name => "node_modules" :: packageNamePath name) → l = l' := by
    intro l
    induction l with
    | nil =>
      intro l' h
      cases l' with
      | nil => rfl
      | cons b l' => simp at h
    | cons a l ih =>
      intro l' h
      cases l' with
      | nil => simp at h
      | cons b l' =>
        rw [List.flatMap_cons, List.flatMap_cons, List.cons_append, List.cons_append] at h
        obtain ⟨rfl, hrest⟩ := packageNamePath_append (List.cons.inj h).2
        rw [ih l' hrest]
  intro l l' h
  exact List.reverse_injective (hnames _ _ (List.append_cancel_left h))

/-! ### Instances -/

/-- Identity of an instance: the package and the contexts it was resolved in. -/
structure InstanceKey where
  id : PackageInstanceId
  peerContext : PeerContext
  platformContext : PlatformContext
  deriving DecidableEq

namespace InstanceKey

def lexKey (k : InstanceKey) : PackageInstanceId ×ₗ List (PackageName ×ₗ PackageVersion) ×ₗ
    WithBot String ×ₗ WithBot String ×ₗ WithBot String :=
  toLex (k.id, toLex (k.peerContext.entries.map toLex, toLex (k.platformContext.os,
    toLex (k.platformContext.cpu, k.platformContext.libc))))

theorem lexKey_injective : Function.Injective lexKey := by
  rintro ⟨a, ⟨b, hb⟩, c, d, e⟩ ⟨a', ⟨b', hb'⟩, c', d', e'⟩ h
  obtain ⟨rfl, h⟩ := Prod.mk.inj (toLex.injective h)
  obtain ⟨hpeer, h⟩ := Prod.mk.inj (toLex.injective h)
  obtain ⟨rfl, h⟩ := Prod.mk.inj (toLex.injective h)
  obtain ⟨rfl, rfl⟩ := Prod.mk.inj (toLex.injective h)
  have heq : b = b' := List.map_injective_iff.mpr toLex.injective hpeer
  subst heq
  rfl

instance : LinearOrder InstanceKey := LinearOrder.lift' lexKey lexKey_injective

end InstanceKey

/-- A package with its verified tree. -/
structure PackageInstance where
  key : InstanceKey
  treeRoot : Path
  deriving DecidableEq

/-- An import name bound to an instance. -/
structure NamedDependency where
  name : PackageName
  child : InstanceKey
  deriving DecidableEq

namespace NamedDependency

def lexKey (d : NamedDependency) : PackageName ×ₗ InstanceKey := toLex (d.name, d.child)

theorem lexKey_injective : Function.Injective lexKey := by
  rintro ⟨a, b⟩ ⟨a', b'⟩ h
  obtain ⟨rfl, rfl⟩ := Prod.mk.inj (toLex.injective h)
  rfl

instance : LinearOrder NamedDependency := LinearOrder.lift' lexKey lexKey_injective

end NamedDependency

structure NamedDependencyEdge where
  parent : InstanceKey
  dependency : NamedDependency
  deriving DecidableEq

/-- Order in which edges are read. -/
def NamedDependencyEdge.sortKey (e : NamedDependencyEdge) : InstanceKey ×ₗ NamedDependency :=
  toLex (e.parent, e.dependency)

structure NamedLayoutInput where
  instances : List PackageInstance
  rootDependencies : List NamedDependency
  dependencyEdges : List NamedDependencyEdge
  deriving DecidableEq

inductive Platform where
  | unix
  | windows
  | other
  deriving DecidableEq

inductive LinkKind where
  | symlink
  | junction
  deriving DecidableEq

/-- Failures of planning. -/
inductive PlanError where
  | pathOutsideManagedRoot (path : Path)
  | duplicateInstance (id : PackageInstanceId)
  | unknownInstance (id : PackageInstanceId)
  | unknownParent (id : PackageInstanceId)
  | conflictingTarget (path : Path)
  | unsupportedPlatform (platform : Platform)
  deriving DecidableEq

structure ActivationStep where
  kind : LinkKind
  source : Path
  target : Path
  deriving DecidableEq

structure MaterializationEntry where
  inst : PackageInstanceId
  peerContext : String
  platformContext : String
  source : Path
  target : Path
  deriving DecidableEq

structure MaterializationPlan where
  managedRoot : Path
  ownershipMarker : Path
  entries : List MaterializationEntry
  activation : List ActivationStep
  deriving DecidableEq

/-! ### Storage targets -/

/-- `Display` of a peer context. -/
def PeerContext.display (context : PeerContext) : String :=
  ",".intercalate (context.entries.map fun e => e.1.text ++ "@" ++ e.2.display)

/-- `Display` of a platform context. -/
def PlatformContext.display (context : PlatformContext) : String :=
  if context.os.isNone ∧ context.cpu.isNone ∧ context.libc.isNone then ""
  else "-".intercalate [context.os.getD "", context.cpu.getD "", context.libc.getD ""]

def safeComponent (value : String) : String :=
  String.ofList (value.toList.map fun c =>
    if isAsciiAlphanumeric c || c == '-' || c == '_' || c == '.' || c == '@' then c else '_')

/-- One byte of an encoded path component. -/
def encodePathByte (b : UInt8) : List Char :=
  let c := Char.ofNat b.toNat
  if b.toNat < 128 ∧ (isAsciiAlphanumeric c || c == '_' || c == '.' || c == '@') then [c]
  else ['%', hexUpper (b.toNat / 16), hexUpper (b.toNat % 16)]

def encodePathComponent (value : String) : String :=
  String.ofList ((utf8Bytes value.toList).flatMap encodePathByte)

def platformComponentKey (platform : PlatformContext) : String :=
  "os-" ++ encodePathComponent (platform.os.getD "") ++
    "--cpu-" ++ encodePathComponent (platform.cpu.getD "") ++
    "--libc-" ++ encodePathComponent (platform.libc.getD "")

def contextSuffix (peer : PeerContext) (platform : PlatformContext) : String :=
  let peerText := PeerContext.display peer
  let platformText := if platform.display = "" then "no-platform" else platformComponentKey platform
  "peer=" ++ (if peerText = "" then "no-peer" else safeComponent peerText) ++
    "__platform=" ++ platformText

section Planner

-- hexadecimal SHA-256 of a text
variable (sha256Hex : String → String)

def registryComponent (registry : PackageSource) : String :=
  "registry-" ++ sha256Hex registry.identity

/-- Where the tree of an instance is stored. -/
def storageTarget (root : ManagedRoot) (key : InstanceKey) : Path :=
  root.path ++ [".tapid", "instances"] ++ packageNamePath key.id.name ++
    [key.id.version.display, registryComponent sha256Hex key.id.registry,
      contextSuffix key.peerContext key.platformContext]

/-! ### Instances and edges -/

/-- Instances by key; a repeated key is refused. -/
def collectInstance (byKey : OrdMap InstanceKey PackageInstance) (inst : PackageInstance) :
    Except PlanError (OrdMap InstanceKey PackageInstance) := do
  rejectIf (byKey.contains inst.key) (.duplicateInstance inst.key.id)
  return byKey.insert inst.key inst

def planEntry (root : ManagedRoot) (inst : PackageInstance) : Except PlanError MaterializationEntry := do
  let path := storageTarget sha256Hex root inst.key
  rejectIf (¬ root.contains path) (.pathOutsideManagedRoot path)
  return {
    inst := inst.key.id
    peerContext := PeerContext.display inst.key.peerContext
    platformContext := inst.key.platformContext.display
    source := inst.treeRoot
    target := path }

/-- Both ends of an edge must be instances. -/
def checkEdge (byKey : OrdMap InstanceKey PackageInstance) (e : NamedDependencyEdge) :
    Except PlanError Unit := do
  rejectIf (¬ byKey.contains e.parent) (.unknownInstance e.parent.id)
  rejectIf (¬ byKey.contains e.dependency.child) (.unknownInstance e.dependency.child.id)

/-- Dependencies of each instance, sorted and without repetition. -/
abbrev Children := OrdMap InstanceKey (OrdSet NamedDependency)

def childrenOf (edges : List NamedDependencyEdge) : Children :=
  (OrdMap.group (edges.map fun e => (e.parent, e.dependency))).mapVal fun _ selected =>
    .ofList selected

/-- Dependencies of one instance. -/
def Children.at (children : Children) (key : InstanceKey) : List NamedDependency :=
  ((children.get? key).map OrdSet.elems).getD []

/-- All names that are imported. -/
def lookupNames (children : Children) : OrdSet PackageName :=
  .ofList (children.values.flatMap fun selected => selected.elems.map NamedDependency.name)

/-! ### Placement -/

/-- An instance together with what every imported name resolves to from it. -/
abbrev LookupState := InstanceKey × List (Option InstanceKey)

instance : LawfulBEq LookupState := inferInstanceAs (LawfulBEq (InstanceKey × List (Option InstanceKey)))

/-- An edge still to be placed, with the directories it may be placed in,
outermost first, and the lookup states above it. -/
structure PendingEdge where
  dependency : NamedDependency
  bases : List Location
  lineage : List LookupState
  deriving DecidableEq

structure LayoutState where
  placements : OrdMap Location InstanceKey
  activation : List ActivationStep
  reachable : OrdSet InstanceKey
  pending : List PendingEdge
  deriving DecidableEq

/-- What stands at a target. -/
inductive Occupant where
  | link
  | package (key : InstanceKey)
  deriving DecidableEq

variable (reserved : OrdSet Location)

def occupant (placements : OrdMap Location InstanceKey) (target : Location) : Option Occupant :=
  if target ∈ reserved then some .link else (placements.get? target).map .package

/-- How an import resolves from a list of directories. -/
inductive SearchResult where
  | resolves
  | shadowed (index : Nat)
  | free
  deriving DecidableEq

variable (root : ManagedRoot)

/-- Look a dependency up, innermost directory first. -/
def search (placements : OrdMap Location InstanceKey) (dependency : NamedDependency) :
    List (Location × Nat) → Except PlanError SearchResult
  | [] => .ok .free
  | (base, index) :: outer =>
    let target := dependency.name :: base
    if ¬ root.contains (Location.path root target) then
      .error (.pathOutsideManagedRoot (Location.path root target))
    else
      match occupant reserved placements target with
      | some .link => .ok (.shadowed index)
      | some (.package existing) =>
        .ok (if existing = dependency.child then .resolves else .shadowed index)
      | none => search placements dependency outer

/-- First directory that may be used. -/
def SearchResult.firstCandidate : SearchResult → Nat
  | .shadowed index => index + 1
  | _ => 0

/-- The outermost unoccupied directory from `first` on. -/
def selectBase (placements : OrdMap Location InstanceKey) (name : PackageName)
    (bases : List Location) (first : Nat) : Option (Location × Nat) :=
  (bases.zipIdx.drop first).find? fun b => (occupant reserved placements (name :: b.1)).isNone

/-- The instance a name resolves to among the placements. -/
def lookup (placements : OrdMap Location InstanceKey) (bases : List Location) (name : PackageName) :
    Option InstanceKey :=
  bases.reverse.findSome? fun base => placements.get? (name :: base)

variable (kind : LinkKind) (children : Children) (names : OrdSet PackageName)

/-- Record a placement. -/
def LayoutState.place (state : LayoutState) (target : Location) (child : InstanceKey) : LayoutState :=
  { state with
    placements := state.placements.insert target child
    activation := state.activation ++
      [⟨kind, storageTarget sha256Hex root child, Location.path root target⟩]
    reachable := state.reachable.insert child }

/-- Queue the dependencies of a placed instance. -/
def LayoutState.enqueue (state : LayoutState) (child : InstanceKey) (bases : List Location)
    (lineage : List LookupState) : LayoutState :=
  { state with pending := state.pending ++
      (children.at child).map fun dependency => ⟨dependency, bases, lineage⟩ }

/-- Place one root dependency. -/
def placeRoot (byKey : OrdMap InstanceKey PackageInstance) (state : LayoutState)
    (dependency : NamedDependency) : Except PlanError LayoutState := do
  let child := dependency.child
  rejectIf (¬ byKey.contains child) (.unknownInstance child.id)
  let target : Location := [dependency.name]
  rejectIf (target ∈ reserved) (.conflictingTarget (Location.path root target))
  match state.placements.get? target with
  | some existing =>
    rejectIf (existing ≠ child) (.conflictingTarget (Location.path root target))
    return state
  | none =>
    return (state.place sha256Hex root kind target child).enqueue children child [[], target] []

/-- Place an edge in a directory and queue what it needs.  A repeated lookup
state is only accepted when everything it needs resolves. -/
def placeAt (state : LayoutState) (edge : PendingEdge) (base : Location) (index : Nat) :
    Except PlanError LayoutState :=
  let child := edge.dependency.child
  let target := edge.dependency.name :: base
  let placed := state.place sha256Hex root kind target child
  let bases := edge.bases.take (index + 1) ++ [target]
  let lookupState : LookupState := (child, names.elems.map (lookup placed.placements bases))
  if lookupState ∈ edge.lineage then
    if (children.at child).any fun d => lookup placed.placements bases d.name ≠ some d.child then
      .error (.conflictingTarget (Location.path root target))
    else .ok placed
  else .ok (placed.enqueue children child bases (lookupState :: edge.lineage))

/-- Where the last directory of an edge would put it. -/
def lastTarget (edge : PendingEdge) : Location := edge.dependency.name :: edge.bases.getLastD []

/-- One iteration of the placement loop. -/
def placeNext (state : LayoutState) : Option (Except PlanError LayoutState) :=
  match state.pending with
  | [] => none
  | edge :: rest =>
    let state := { state with pending := rest }
    match search reserved root state.placements edge.dependency edge.bases.zipIdx.reverse with
    | .error e => some (.error e)
    | .ok .resolves => some (.ok { state with reachable := state.reachable.insert edge.dependency.child })
    | .ok result =>
      match selectBase reserved state.placements edge.dependency.name edge.bases
          result.firstCandidate with
      | some (base, index) =>
        some (placeAt sha256Hex root kind children names state edge base index)
      | none => some (.error (.conflictingTarget (Location.path root (lastTarget edge))))

end Planner

/-! ### Plans -/

def Platform.linkKind : Platform → Except PlanError LinkKind
  | .unix => .ok .symlink
  | .windows => .ok .junction
  | .other => .error (.unsupportedPlatform .other)

section Plan

variable (sha256Hex : String → String) (root : ManagedRoot)

/-- What the placement loop starts from. -/
structure PreparedLayout where
  kind : LinkKind
  entries : List MaterializationEntry
  children : Children
  start : LayoutState

/-- Everything before the placement loop. -/
def prepareLayout (input : NamedLayoutInput) (platform : Platform) (reserved : OrdSet Location) :
    Except PlanError PreparedLayout := do
  let kind ← platform.linkKind
  let instances := input.instances.insertionSort fun a b => a.key ≤ b.key
  let byKey ← instances.foldlM collectInstance ∅
  let entries ← instances.mapM (planEntry sha256Hex root)
  let edges := input.dependencyEdges.insertionSort fun a b => a.sortKey ≤ b.sortKey
  checkAll (checkEdge byKey) edges
  let children := childrenOf edges
  let start ← (OrdSet.ofList input.rootDependencies).elems.foldlM
    (placeRoot sha256Hex reserved root kind children byKey) ⟨∅, [], ∅, []⟩
  return ⟨kind, entries, children, start⟩

/-- Everything after it. -/
def finishLayout (prepared : PreparedLayout) (state : LayoutState) :
    Except PlanError MaterializationPlan := do
  match prepared.children.keys.find? fun parent => parent ∉ state.reachable with
  | some parent => throw (.unknownParent parent.id)
  | none =>
    return {
      managedRoot := root.path
      ownershipMarker := root.ownershipMarker
      entries := prepared.entries
      activation := state.activation.insertionSort fun a b => a.target ≤ b.target }

/-- The placement loop of a prepared layout. -/
def placementStep (reserved : OrdSet Location) (prepared : PreparedLayout) :
    LayoutState → Option (Except PlanError LayoutState) :=
  placeNext sha256Hex reserved root prepared.kind prepared.children (lookupNames prepared.children)

/-- Plan with at most `fuel` iterations of the placement loop; `none` while the
loop is still running. -/
def planNamedLayoutInner (fuel : Nat) (input : NamedLayoutInput) (platform : Platform)
    (reserved : OrdSet Location) : Option (Except PlanError MaterializationPlan) :=
  match prepareLayout sha256Hex root input platform reserved with
  | .error e => some (.error e)
  | .ok prepared =>
    (Loop.runTo (placementStep sha256Hex root reserved prepared) fuel prepared.start).map fun result =>
      result.bind (finishLayout root prepared)

def planNamedLayout (fuel : Nat) (input : NamedLayoutInput) (platform : Platform) :
    Option (Except PlanError MaterializationPlan) :=
  planNamedLayoutInner sha256Hex root fuel input platform ∅

/-- A link to a workspace package. -/
structure WorkspaceLink where
  name : PackageName
  target : Path
  deriving DecidableEq

/-- Reserve the name of a workspace link. -/
def reserveLink (reserved : OrdSet Location) (link : WorkspaceLink) :
    Except PlanError (OrdSet Location) := do
  let expected : Location := [link.name]
  rejectIf (link.target ≠ Location.path root expected ∨ ¬ root.contains link.target)
    (.pathOutsideManagedRoot link.target)
  rejectIf (expected ∈ reserved) (.conflictingTarget (Location.path root expected))
  return reserved.insert expected

def planWorkspaceLayout (fuel : Nat) (input : NamedLayoutInput) (links : List WorkspaceLink)
    (platform : Platform) : Option (Except PlanError MaterializationPlan) :=
  match links.foldlM (reserveLink root) ∅ with
  | .error e => some (.error e)
  | .ok reserved => planNamedLayoutInner sha256Hex root fuel input platform reserved

end Plan

end Tapid
