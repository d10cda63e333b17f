/-
Why a package is in a lockfile.

`why` searches the graph of a lockfile, depth first, for the packages of a name,
and reports the paths it gets there on.  The graph has an edge for every
recorded dependency and, for every peer in the context of a package, one to
each package that provides it.  Visits, depth and reported paths are limited, and
the report is marked when a limit is met.

* `graph` — the graph of a lockfile;
* `searchPaths` — the search from a package; what is visited and the path to it
  are given back as they were;
* `explain` — the report over all roots.
-/
import Tapid.Lockfile

namespace Tapid

open Fallible

namespace Why

def maxPaths : Nat := 50

def maxDepth : Nat := 128

def maxVisits : Nat := 10000

structure Edge where
  name : String
  target : String
  kind : String
  deriving DecidableEq

structure Root where
  key : String
  name : String
  kind : String
  deriving DecidableEq

structure WhyStep where
  key : String
  via : Option String
  edgeKind : Option String
  sourceKind : String
  deriving DecidableEq

/-- The packages of a lockfile and their edges, by key. -/
structure WhyGraph where
  edges : OrdMap String (List Edge)
  nodes : OrdMap String LockfilePackageKey

/-! ### The graph of a lockfile -/

section Graph

variable (url : UrlParser)

def packagesTyped {P : Type} (packages : OrdMap String P) : Except LockfileError (List (LockfilePackageKey × P)) :=
  packages.entries.mapM fun entry => do
    let key ← LockfilePackageKey.parse url entry.1
    return (key, entry.2)

def dependencyEdges (dependencies : OrdMap String String) : List Edge :=
  dependencies.entries.map fun entry => ⟨entry.1, entry.2, "dependency"⟩

/-- Packages of a source, a name and a version. -/
def providers (nodes : OrdMap String LockfilePackageKey) (source : LockfilePackageSource) (name : PackageName)
    (version : PackageVersion) : List LockfilePackageKey :=
  nodes.values.filter fun key => key.source = source ∧ key.name = name ∧ key.version = version

def peerEdges (nodes : OrdMap String LockfilePackageKey) (source : LockfilePackageSource) (context : PeerContext) :
    List Edge :=
  context.entries.flatMap fun entry =>
    (providers nodes source entry.1 entry.2).map fun target => ⟨entry.1.text, target.display, "peer"⟩

/-- The edges of one package after its peers are found. -/
def addPeers (nodes : OrdMap String LockfilePackageKey) (edges : OrdMap String (List Edge))
    (node : String × LockfilePackageKey) : Except LockfileError (OrdMap String (List Edge)) := do
  let context ← decodePeerContext node.2.peerContext node.2.display
  return edges.insert node.1 ((edges.get? node.1).getD [] ++ peerEdges nodes node.2.source context)

def graph (lock : Lockfile) : Except LockfileError WhyGraph := do
  let packages ← packagesTyped url lock.packages
  let workspaces ← packagesTyped url lock.workspacePackages
  let all := packages.map (fun p => (p.1, p.2.dependencies)) ++ workspaces.map fun p => (p.1, p.2.dependencies)
  let nodes := OrdMap.ofList (all.map fun p => (p.1.display, p.1))
  let edges := OrdMap.ofList (all.map fun p => (p.1.display, dependencyEdges p.2))
  let edges ← nodes.entries.foldlM (addPeers nodes) edges
  return ⟨edges, nodes⟩

end Graph

def sourceKind (key : LockfilePackageKey) : String :=
  match key.source with
  | .workspace _ => "workspace"
  | .copied _ => "copied"
  | .registry _ => "registry"

/-! ### The search -/

structure SearchState where
  paths : List (List WhyStep)
  truncated : Bool
  visits : Nat
  deriving DecidableEq

/-- All that the search changes: the packages on the path, the path, and what is found. -/
structure Walk where
  visited : OrdSet String
  path : List WhyStep
  state : SearchState

namespace Walk

def truncate (w : Walk) : Walk := { w with state := { w.state with truncated := true } }

def countVisit (w : Walk) : Walk := { w with state := { w.state with visits := w.state.visits + 1 } }

/-- The path is reported, unless there are as many as there may be. -/
def report (w : Walk) : Walk :=
  if w.state.paths.length = maxPaths then w.truncate
  else { w with state := { w.state with paths := w.state.paths ++ [w.path] } }

def enter (w : Walk) (step : WhyStep) : Walk :=
  { w with visited := w.visited.insert step.key, path := w.path ++ [step] }

def leave (w : Walk) (key : String) : Walk :=
  { w with visited := w.visited.filter fun k => k ≠ key, path := w.path.dropLast }

end Walk

section Search

variable (graph : WhyGraph) (requested : PackageName)

def WhyGraph.edgesOf (key : String) : List Edge := (graph.edges.get? key).getD []

def edgeStep (edge : Edge) (key : LockfilePackageKey) : WhyStep :=
  ⟨edge.target, some edge.name, some edge.kind, sourceKind key⟩

/-- What is done at a package before its edges are followed, and whether they are. -/
def visit (current : String) (w : Walk) : Walk × Bool :=
  if maxVisits ≤ w.state.visits then (w.truncate, false)
  else
    match graph.nodes.get? current with
    | none => (w.countVisit, false)
    | some key => (if key.name = requested then w.countVisit.report else w.countVisit, true)

/-- One edge: nothing once the search is truncated, nor to a package on the path
or to an unknown one. -/
def followEdge (search : String → Walk → Walk) (w : Walk) (edge : Edge) : Walk :=
  if w.state.truncated then w
  else if edge.target ∈ w.visited then w
  else
    match graph.nodes.get? edge.target with
    | none => { w with visited := (w.visited.insert edge.target).filter fun k => k ≠ edge.target }
    | some key => (search edge.target (w.enter (edgeStep edge key))).leave edge.target

/-- The search from a package, with the depth that is left. -/
def searchPaths : Nat → String → Walk → Walk
  | 0, current, w =>
    let (w, known) := visit graph requested current w
    if known ∧ graph.edgesOf current ≠ [] then w.truncate else w
  | left + 1, current, w =>
    let (w, known) := visit graph requested current w
    if known then
      (graph.edgesOf current).foldl (fun w edge => followEdge graph (searchPaths left) w edge) w
    else w

def rootStep (root : Root) (key : LockfilePackageKey) : WhyStep :=
  ⟨root.key, some root.name, some root.kind, sourceKind key⟩

/-- One root; none after the report is truncated. -/
def searchRoot (state : SearchState) (root : Root) : SearchState :=
  if state.truncated then state
  else
    match graph.nodes.get? root.key with
    | none => state
    | some key =>
      (searchPaths graph requested maxDepth root.key
        ⟨OrdSet.ofList [root.key], [rootStep root key], state⟩).state

end Search

/-! ### The report -/

structure WhyReport where
  schemaVersion : Nat
  operation : String
  outcome : String
  effectiveProject : String
  changes : List String
  warnings : List String
  package : String
  paths : List (List WhyStep)
  truncated : Bool
  deriving DecidableEq

def outcome (state : SearchState) : String :=
  if state.truncated then "partial" else if state.paths = [] then "not_found" else "success"

def warnings (state : SearchState) : List String :=
  if state.paths.any fun path => (path.drop 1).any fun step => step.edgeKind = some "dependency" then
    ["transitive dependency edge kinds are not recorded in the lockfile; those edges are labeled dependency"]
  else []

def explain (graph : WhyGraph) (effectiveProject : String) (roots : List Root) (requested : PackageName) :
    WhyReport :=
  let state := roots.foldl (searchRoot graph requested) ⟨[], false, 0⟩
  { schemaVersion := 1
    operation := "why"
    outcome := outcome state
    effectiveProject := effectiveProject
    changes := []
    warnings := warnings state
    package := requested.text
    paths := state.paths
    truncated := state.truncated }

end Why

end Tapid
