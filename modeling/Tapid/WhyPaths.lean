/-
`why` reports every path, or says that it does not.

What the search finds below a path are the simple paths that go on from it, in
the order of a depth-first enumeration; a limit that is met is still seen in the
flag when the search is over.

* `searched_searchPaths` — the search from a package;
* `nodup_edgesOf` — the graph of a lockfile has no edge twice;
* `explain_complete` — the report.
-/
import Tapid.LockKeyCodec
import Tapid.SimplePaths
import Tapid.Why

namespace Tapid

open Fallible

namespace Why

open SimplePaths

/-! ### Paths of the graph -/

section Paths

variable (graph : WhyGraph) (requested : PackageName)

/-- Steps to the packages the edges of a package lead to. -/
def next (s : WhyStep) : List WhyStep :=
  (graph.edgesOf s.key).filterMap fun edge => (graph.nodes.get? edge.target).map (edgeStep edge)

/-- A path that ends at a package with the requested name. -/
def Wanted (path : List WhyStep) : Bool :=
  path.getLast?.any fun s => (graph.nodes.get? s.key).any fun key => key.name = requested

/-- A simple path from a root to a package with the requested name. -/
structure RootPath (root : Root) (path : List WhyStep) : Prop where
  start : ∃ key, graph.nodes.get? root.key = some key ∧ path.head? = some (rootStep root key)
  simple : Simple (next graph) WhyStep.key path
  wanted : Wanted graph requested path = true

end Paths

/-! ### The search from a package -/

section Search

variable {graph : WhyGraph} {requested : PackageName} {left : Nat} {w w' : Walk}

/-- What is visited is what is on the path. -/
def Walk.OnPath (w : Walk) : Prop := ∀ key, key ∈ w.visited ↔ key ∈ w.path.map WhyStep.key

/-- Paths found, in their order. -/
def found (graph : WhyGraph) (requested : PackageName) (left : Nat) (path : List WhyStep) (s : WhyStep) :
    List (List WhyStep) := (below (next graph) WhyStep.key left path s).filter (Wanted graph requested)

/-- What a part of the search does to a walk: paths are added, and nothing is hidden unless the flag says so. -/
structure Adds (w w' : Walk) (paths : List (List WhyStep)) (exhausted : Prop) : Prop where
  path : w'.path = w.path
  visited : w'.visited = w.visited
  flag : w.state.truncated = true → w'.state.truncated = true
  paths : w'.state.truncated = false → w'.state.paths = w.state.paths ++ paths ∧ exhausted

theorem Adds.refl (w : Walk) {exhausted : Prop} (h : exhausted) : Adds w w [] exhausted :=
  ⟨rfl, rfl, id, fun _ => ⟨(List.append_nil _).symm, h⟩⟩

theorem Adds.trans {w₁ w₂ w₃ : Walk} {paths paths' : List (List WhyStep)} {exhausted exhausted' : Prop}
    (h : Adds w₁ w₂ paths exhausted) (h' : Adds w₂ w₃ paths' exhausted') :
    Adds w₁ w₃ (paths ++ paths') (exhausted ∧ exhausted') := by
  refine ⟨h'.path.trans h.path, h'.visited.trans h.visited, fun ht => h'.flag (h.flag ht), fun ht => ?_⟩
  have hbefore : w₂.state.truncated = false := by
    by_contra hne
    rw [h'.flag (Bool.not_eq_false _ ▸ hne)] at ht
    cases ht
  obtain ⟨hpaths, hexhausted⟩ := h.paths hbefore
  obtain ⟨hpaths', hexhausted'⟩ := h'.paths ht
  exact ⟨by rw [hpaths', hpaths, List.append_assoc], hexhausted, hexhausted'⟩

theorem Adds.imp {paths : List (List WhyStep)} {exhausted exhausted' : Prop} (h : Adds w w' paths exhausted)
    (himp : exhausted → exhausted') : Adds w w' paths exhausted' :=
  ⟨h.path, h.visited, h.flag, fun ht => ⟨(h.paths ht).1, himp (h.paths ht).2⟩⟩

/-- A truncated walk promises nothing. -/
theorem adds_truncate (w : Walk) (paths : List (List WhyStep)) (exhausted : Prop) :
    Adds w w.truncate paths exhausted :=
  ⟨rfl, rfl, fun _ => rfl, fun h => Bool.noConfusion h⟩

theorem adds_countVisit (w : Walk) : Adds w w.countVisit [] True :=
  ⟨rfl, rfl, id, fun _ => ⟨(List.append_nil _).symm, trivial⟩⟩

theorem adds_report (w : Walk) : Adds w w.report [w.path] True := by
  unfold Walk.report
  split_ifs
  · exact adds_truncate w _ _
  · exact ⟨rfl, rfl, id, fun _ => ⟨rfl, trivial⟩⟩

/-- **A visit** reports the path when the package is wanted. -/
theorem adds_visit (current : String) (w : Walk) :
    Adds w (visit graph requested current w).1
      (if (graph.nodes.get? current).any fun key => key.name = requested then [w.path] else [])
      ((visit graph requested current w).2 = (graph.nodes.get? current).isSome) := by
  by_cases hvisits : maxVisits ≤ w.state.visits
  · rw [visit, if_pos hvisits]
    exact adds_truncate w _ _
  · rw [visit, if_neg hvisits]
    cases hkey : graph.nodes.get? current with
    | none => exact (adds_countVisit w).imp fun _ => rfl
    | some key =>
      by_cases hname : key.name = requested
      · simp only [hname, if_true, Option.any_some, decide_true, Option.isSome_some]
        exact ((adds_countVisit w).trans (adds_report w.countVisit)).imp fun _ => trivial
      · simp only [hname, if_false, Option.any_some, decide_false, Bool.false_eq_true, Option.isSome_some]
        exact adds_countVisit w

theorem Walk.OnPath.enter (h : w.OnPath) (step : WhyStep) : (w.enter step).OnPath := by
  intro key
  show key ∈ w.visited.insert step.key ↔ key ∈ (w.path ++ [step]).map WhyStep.key
  rw [OrdSet.mem_insert, List.map_append, List.mem_append, h key, List.map_cons, List.map_nil, List.mem_singleton]
  exact or_comm

/-- What is entered and left again is as it was. -/
theorem erase_insert {visited : OrdSet String} {target : String} (h : target ∉ visited) :
    (visited.insert target).filter (fun k => k ≠ target) = visited := by
  refine OrdSet.ext_mem fun k => ?_
  rw [OrdSet.mem_filter, OrdSet.mem_insert, decide_eq_true_eq]
  constructor
  · rintro ⟨rfl | hk, hne⟩
    · exact absurd rfl hne
    · exact hk
  · intro hk
    exact ⟨Or.inr hk, fun heq => h (heq ▸ hk)⟩

/-- A package that is entered and left. -/
theorem adds_enter_leave {search : Walk → Walk} {step : WhyStep} {paths : List (List WhyStep)} {exhausted : Prop}
    (hfresh : step.key ∉ w.visited) (hsearch : Adds (w.enter step) (search (w.enter step)) paths exhausted) :
    Adds w ((search (w.enter step)).leave step.key) paths exhausted := by
  refine ⟨?_, ?_, hsearch.flag, hsearch.paths⟩
  · show (search (w.enter step)).path.dropLast = w.path
    rw [hsearch.path]
    exact List.dropLast_concat
  · show (search (w.enter step)).visited.filter (fun k => k ≠ step.key) = w.visited
    rw [hsearch.visited]
    exact erase_insert hfresh

/-- The step of an edge, when its target is known. -/
def stepOf (graph : WhyGraph) (edge : Edge) : Option WhyStep := (graph.nodes.get? edge.target).map (edgeStep edge)

/-- Steps that do not come back to a path. -/
def freshSteps (path : List WhyStep) (steps : List WhyStep) : List WhyStep :=
  steps.filter fun t => t.key ∉ path.map WhyStep.key

/-- What is found after the steps. -/
def foundAfter (graph : WhyGraph) (requested : PackageName) (left : Nat) (path : List WhyStep)
    (steps : List WhyStep) : List (List WhyStep) :=
  (freshSteps path steps).flatMap fun t => found graph requested left (path ++ [t]) t

def ExhaustedAfter (graph : WhyGraph) (left : Nat) (path : List WhyStep) (steps : List WhyStep) : Prop :=
  ∀ t ∈ freshSteps path steps, Exhausted (next graph) WhyStep.key left (path ++ [t]) t

/-- A search of one package below a path does what the enumeration says. -/
def SearchesBelow (graph : WhyGraph) (requested : PackageName) (left : Nat) (search : String → Walk → Walk) : Prop :=
  ∀ (w : Walk) (s : WhyStep) (key : LockfilePackageKey), graph.nodes.get? s.key = some key → w.OnPath →
    w.path.getLast? = some s → Adds w (search s.key w) (found graph requested left w.path s)
      (Exhausted (next graph) WhyStep.key left w.path s)

/-- **One edge.** -/
theorem adds_followEdge {search : String → Walk → Walk} (hsearch : SearchesBelow graph requested left search)
    (edge : Edge) (hon : w.OnPath) :
    Adds w (followEdge graph search w edge) (foundAfter graph requested left w.path (stepOf graph edge).toList)
      (ExhaustedAfter graph left w.path (stepOf graph edge).toList) := by
  unfold followEdge
  split_ifs with htruncated hvisited
  · refine ⟨rfl, rfl, id, fun h => ?_⟩
    rw [htruncated] at h
    cases h
  · -- the target is on the path, so that its step is not fresh
    have hnone : freshSteps w.path (stepOf graph edge).toList = [] := by
      refine List.filter_eq_nil_iff.mpr fun t ht => ?_
      rw [Option.mem_toList] at ht
      obtain ⟨key, _, rfl⟩ := Option.map_eq_some_iff.mp ht
      rw [decide_eq_true_eq, not_not]
      exact (hon edge.target).mp hvisited
    rw [foundAfter, ExhaustedAfter, hnone]
    exact Adds.refl w (List.forall_mem_nil _)
  · cases hkey : graph.nodes.get? edge.target with
    | none =>
      have hnone : (stepOf graph edge).toList = [] := by
        rw [stepOf, hkey]
        rfl
      rw [hnone]
      refine ⟨rfl, erase_insert hvisited, id, fun _ => ⟨(List.append_nil _).symm, List.forall_mem_nil _⟩⟩
    | some key =>
      have hstep : freshSteps w.path (stepOf graph edge).toList = [edgeStep edge key] := by
        have hfresh : edge.target ∉ w.path.map WhyStep.key := fun h => hvisited ((hon edge.target).mpr h)
        rw [stepOf, hkey, Option.map_some, Option.toList_some, freshSteps]
        exact List.filter_cons_of_pos (decide_eq_true hfresh)
      have hbelow := hsearch (w.enter (edgeStep edge key)) (edgeStep edge key) key hkey (hon.enter _)
        List.getLast?_concat
      have hadds := adds_enter_leave hvisited hbelow
      rw [foundAfter, ExhaustedAfter, hstep, List.flatMap_singleton]
      exact hadds.imp fun h t ht => List.mem_singleton.mp ht ▸ h

/-- **The edges of a package**, one after the other. -/
theorem adds_edges {search : String → Walk → Walk} (hsearch : SearchesBelow graph requested left search)
    (edges : List Edge) (hon : w.OnPath) :
    Adds w (edges.foldl (followEdge graph search) w)
      (foundAfter graph requested left w.path (edges.filterMap (stepOf graph)))
      (ExhaustedAfter graph left w.path (edges.filterMap (stepOf graph))) := by
  induction edges generalizing w with
  | nil => exact Adds.refl w (List.forall_mem_nil _)
  | cons edge edges ih =>
    have hedge := adds_followEdge hsearch edge hon
    have hrest := @ih (followEdge graph search w edge) (by
      intro key
      rw [hedge.visited, hedge.path]
      exact hon key)
    rw [hedge.path] at hrest
    have hsteps : (edge :: edges).filterMap (stepOf graph) =
        (stepOf graph edge).toList ++ edges.filterMap (stepOf graph) := by
      rw [List.filterMap_cons]
      cases stepOf graph edge <;> rfl
    have hfresh : freshSteps w.path ((edge :: edges).filterMap (stepOf graph)) =
        freshSteps w.path (stepOf graph edge).toList ++ freshSteps w.path (edges.filterMap (stepOf graph)) := by
      rw [hsteps, freshSteps, List.filter_append]
      rfl
    have hall := hedge.trans hrest
    rw [List.foldl_cons, foundAfter, hfresh, List.flatMap_append, ExhaustedAfter, hfresh]
    exact hall.imp fun h t ht => (List.mem_append.mp ht).elim (h.1 t) (h.2 t)

/-- What is found at a package itself. -/
def foundHere (graph : WhyGraph) (requested : PackageName) (path : List WhyStep) (s : WhyStep) :
    List (List WhyStep) :=
  if (graph.nodes.get? s.key).any fun key => key.name = requested then [path] else []

theorem filter_wanted {path : List WhyStep} {s : WhyStep} (hlast : path.getLast? = some s)
    (paths : List (List WhyStep)) : (path :: paths).filter (Wanted graph requested) =
      foundHere graph requested path s ++ paths.filter (Wanted graph requested) := by
  have hwanted : Wanted graph requested path = (graph.nodes.get? s.key).any fun key => key.name = requested := by
    rw [Wanted, hlast, Option.any_some]
  rw [List.filter_cons, hwanted, foundHere]
  split_ifs <;> rfl

theorem found_succ {path : List WhyStep} {s : WhyStep} (hlast : path.getLast? = some s) :
    found graph requested (left + 1) path s =
      foundHere graph requested path s ++ foundAfter graph requested left path (next graph s) := by
  rw [found, below, filter_wanted hlast, List.filter_flatMap]
  rfl

/-- A visit of a known package goes on to its edges, unless the flag says that it does not. -/
theorem adds_visit_known {s : WhyStep} {key : LockfilePackageKey} (hkey : graph.nodes.get? s.key = some key)
    (w : Walk) : Adds w (visit graph requested s.key w).1 (foundHere graph requested w.path s)
      ((visit graph requested s.key w).2 = true) := by
  have hvisit := @adds_visit graph requested s.key w
  refine Adds.imp hvisit fun hknown => ?_
  rw [hknown, hkey]
  rfl

/-- **The search below a package finds what the enumeration says**, and its walk is back where it was. -/
theorem searchesBelow_searchPaths (left : Nat) :
    SearchesBelow graph requested left (searchPaths graph requested left) := by
  induction left with
  | zero =>
    intro w s key hkey hon hlast
    have hvisit := @adds_visit_known graph requested s key hkey w
    have hfound : found graph requested 0 w.path s = foundHere graph requested w.path s := by
      rw [found, below, filter_wanted hlast, List.filter_nil, List.append_nil]
    rw [hfound]
    dsimp only [searchPaths]
    split_ifs with hmore
    · have hall := hvisit.trans (adds_truncate (visit graph requested s.key w).1 []
        (Exhausted (next graph) WhyStep.key 0 w.path s))
      rw [List.append_nil] at hall
      exact hall.imp And.right
    · refine hvisit.imp fun hknown => ?_
      have hnone : graph.edgesOf s.key = [] := by
        by_contra hne
        exact hmore ⟨hknown, hne⟩
      show (graph.edgesOf s.key).filterMap (stepOf graph) = []
      rw [hnone]
      rfl
  | succ left ih =>
    intro w s key hkey hon hlast
    have hvisit := @adds_visit_known graph requested s key hkey w
    rw [found_succ hlast]
    dsimp only [searchPaths]
    split_ifs with hknown
    · have hedges := @adds_edges graph requested left (visit graph requested s.key w).1 _ ih (graph.edgesOf s.key) (by
        intro k
        rw [hvisit.visited, hvisit.path]
        exact hon k)
      rw [hvisit.path] at hedges
      exact (hvisit.trans hedges).imp And.right
    · -- a known package is left without its edges when the visits are used up
      refine ⟨hvisit.path, hvisit.visited, hvisit.flag, fun ht => ?_⟩
      exact absurd (hvisit.paths ht).2 hknown

/-! ### All roots -/

/-- Simple paths from a root to packages with the requested name, in the order in which they are found. -/
def rootPaths (graph : WhyGraph) (requested : PackageName) (root : Root) : List (List WhyStep) :=
  match graph.nodes.get? root.key with
  | none => []
  | some key => found graph requested maxDepth [rootStep root key] (rootStep root key)

/-- The search from a root is exhausted. -/
def RootExhausted (graph : WhyGraph) (root : Root) : Prop :=
  ∀ key, graph.nodes.get? root.key = some key →
    Exhausted (next graph) WhyStep.key maxDepth [rootStep root key] (rootStep root key)

theorem searchRoot_spec (state : SearchState) (root : Root)
    (h : (searchRoot graph requested state root).truncated = false) :
    state.truncated = false ∧
      (searchRoot graph requested state root).paths = state.paths ++ rootPaths graph requested root ∧
      RootExhausted graph root := by
  unfold searchRoot at h ⊢
  split_ifs at h ⊢ with htruncated
  · rw [htruncated] at h
    cases h
  · refine ⟨Bool.not_eq_true _ ▸ htruncated, ?_⟩
    unfold rootPaths RootExhausted
    cases hkey : graph.nodes.get? root.key with
    | none => exact ⟨(List.append_nil _).symm, fun key hsome => absurd hsome (by simp)⟩
    | some key =>
      rw [hkey] at h
      have hon : Walk.OnPath ⟨OrdSet.ofList [root.key], [rootStep root key], state⟩ := by
        intro k
        show k ∈ OrdSet.ofList [root.key] ↔ k ∈ [root.key]
        exact OrdSet.mem_ofList
      have hadds := @searchesBelow_searchPaths graph requested maxDepth _ (rootStep root key) key hkey hon rfl
      obtain ⟨hpaths, hexhausted⟩ := hadds.paths h
      refine ⟨hpaths, fun key' hsome => ?_⟩
      obtain rfl := Option.some_inj.mp hsome
      exact hexhausted

/-- **All roots**: what is found is found from each in turn. -/
theorem searchRoots_spec (roots : List Root) (state : SearchState)
    (h : (roots.foldl (searchRoot graph requested) state).truncated = false) :
    state.truncated = false ∧
      (roots.foldl (searchRoot graph requested) state).paths =
        state.paths ++ roots.flatMap (rootPaths graph requested) ∧
      ∀ root ∈ roots, RootExhausted graph root := by
  induction roots generalizing state with
  | nil => exact ⟨h, (List.append_nil _).symm, List.forall_mem_nil _⟩
  | cons root roots ih =>
    obtain ⟨hafter, hpaths, hexhausted⟩ := ih (searchRoot graph requested state root) h
    obtain ⟨hbefore, hroot, hrootExhausted⟩ := searchRoot_spec state root hafter
    refine ⟨hbefore, ?_, List.forall_mem_cons.mpr ⟨hrootExhausted, hexhausted⟩⟩
    rw [List.foldl_cons, hpaths, hroot, List.append_assoc, List.flatMap_cons]

/-- **The paths of a root**, when its search is exhausted. -/
theorem mem_rootPaths {root : Root} (h : RootExhausted graph root) {path : List WhyStep} :
    path ∈ rootPaths graph requested root ↔ RootPath graph requested root path := by
  unfold rootPaths
  cases hkey : graph.nodes.get? root.key with
  | none =>
    refine iff_of_false List.not_mem_nil fun hpath => ?_
    obtain ⟨key, hsome, _⟩ := hpath.start
    rw [hkey] at hsome
    cases hsome
  | some key =>
    show path ∈ (below _ _ _ _ _).filter _ ↔ _
    rw [List.mem_filter, mem_below_of_exhausted (h key hkey)]
    constructor
    · rintro ⟨⟨rest, rfl, hsimple⟩, hwanted⟩
      exact ⟨⟨key, hkey, rfl⟩, hsimple, hwanted⟩
    · intro hpath
      obtain ⟨key', hsome, hhead⟩ := hpath.start
      obtain rfl := Option.some_inj.mp (hkey.symm.trans hsome)
      obtain ⟨rest, hrest⟩ := List.head?_eq_some_iff.mp hhead
      exact ⟨⟨rest, hrest, hpath.simple⟩, hpath.wanted⟩

end Search

/-! ### No edge twice -/

section Graph

variable {graph : WhyGraph} {requested : PackageName}

/-- A graph that offers no edge twice. -/
def NoEdgeTwice (graph : WhyGraph) : Prop := ∀ key, (graph.edgesOf key).Nodup

theorem nodup_next (h : NoEdgeTwice graph) (s : WhyStep) : (next graph s).Nodup := by
  refine (h s.key).filterMap fun a b t ha hb => ?_
  obtain ⟨key, _, rfl⟩ := Option.map_eq_some_iff.mp ha
  obtain ⟨key', _, heq⟩ := Option.map_eq_some_iff.mp hb
  cases a
  cases b
  simp only [edgeStep, WhyStep.mk.injEq, Option.some_inj] at heq
  obtain ⟨rfl, rfl, rfl, _⟩ := heq
  rfl

theorem nodup_rootPaths (h : NoEdgeTwice graph) (root : Root) : (rootPaths graph requested root).Nodup := by
  unfold rootPaths
  split
  · exact List.nodup_nil
  · exact (nodup_below (nodup_next h)).filter _

/-- A path begins with its root. -/
theorem rootStep_of_mem {root : Root} {path : List WhyStep} (h : path ∈ rootPaths graph requested root) :
    ∃ key, path.head? = some (rootStep root key) := by
  unfold rootPaths at h
  split at h
  · exact absurd h List.not_mem_nil
  · rename_i key _
    obtain ⟨rest, hrest⟩ := isPrefix_of_mem_below (List.mem_filter.mp h).1
    exact ⟨key, by rw [← hrest]; rfl⟩

theorem nodup_flatMap_rootPaths (h : NoEdgeTwice graph) {roots : List Root} (hroots : roots.Nodup) :
    (roots.flatMap (rootPaths graph requested)).Nodup := by
  refine List.nodup_flatMap.mpr ⟨fun root _ => nodup_rootPaths h root, hroots.imp fun {a b} hne path ha hb => ?_⟩
  obtain ⟨key, hkey⟩ := rootStep_of_mem ha
  obtain ⟨key', hkey'⟩ := rootStep_of_mem hb
  rw [hkey] at hkey'
  refine hne ?_
  cases a
  cases b
  simp only [rootStep, Option.some_inj, WhyStep.mk.injEq] at hkey'
  obtain ⟨rfl, rfl, rfl, _⟩ := hkey'
  rfl

/-! The graph of a lockfile is such a graph. -/

/-- Keys of a graph's packages are how the packages are displayed. -/
def Displayed (nodes : OrdMap String LockfilePackageKey) : Prop :=
  ∀ encoded key, nodes.get? encoded = some key → key.display = encoded

theorem nodup_displays {nodes : OrdMap String LockfilePackageKey} (h : Displayed nodes) :
    (nodes.values.map LockfilePackageKey.display).Nodup := by
  have hkeys : nodes.values.map LockfilePackageKey.display = nodes.keys := by
    rw [OrdMap.values, OrdMap.keys, List.map_map]
    refine List.map_congr_left fun entry hentry => ?_
    exact h entry.1 entry.2 (OrdMap.mem_entries.mp hentry)
  rw [hkeys]
  exact OrdMap.nodup_keys nodes

theorem nodup_dependencyEdges (dependencies : OrdMap String String) : (dependencyEdges dependencies).Nodup := by
  have hentries : dependencies.entries.Nodup := (OrdMap.nodup_keys dependencies).of_map Prod.fst
  refine hentries.map fun a b heq => ?_
  simp only [Edge.mk.injEq] at heq
  exact Prod.ext heq.1 heq.2.1

/-- Peers of one name have different providers, and different names. -/
theorem nodup_peerEdges {nodes : OrdMap String LockfilePackageKey} (h : Displayed nodes)
    (source : LockfilePackageSource) (context : PeerContext) : (peerEdges nodes source context).Nodup := by
  refine List.nodup_flatMap.mpr ⟨fun entry _ => ?_, ?_⟩
  · have hdisplays : ((providers nodes source entry.1 entry.2).map LockfilePackageKey.display).Nodup :=
      (nodup_displays h).sublist (List.filter_sublist.map _)
    have hmap := hdisplays.map (f := fun target => (⟨entry.1.text, target, "peer"⟩ : Edge)) fun a b heq =>
      (Edge.mk.inj heq).2.1
    rw [List.map_map] at hmap
    exact hmap
  · refine context.sorted.imp fun {a b} hlt edge ha hb => ?_
    obtain ⟨_, _, rfl⟩ := List.mem_map.mp ha
    obtain ⟨_, _, heq⟩ := List.mem_map.mp hb
    exact (ne_of_lt hlt) (PackageName.text_injective (Edge.mk.inj heq).1.symm)

theorem kind_of_mem_peerEdges {nodes : OrdMap String LockfilePackageKey} {source : LockfilePackageSource}
    {context : PeerContext} {edge : Edge} (h : edge ∈ peerEdges nodes source context) : edge.kind = "peer" := by
  obtain ⟨entry, _, hmap⟩ := List.mem_flatMap.mp h
  obtain ⟨_, _, rfl⟩ := List.mem_map.mp hmap
  rfl

/-- Edges before the peers of some packages are added. -/
structure BeforePeers (edges : OrdMap String (List Edge)) (rest : List (String × LockfilePackageKey)) : Prop where
  nodup : ∀ key, ((edges.get? key).getD []).Nodup
  plain : ∀ node ∈ rest, ∀ edge ∈ (edges.get? node.1).getD [], edge.kind = "dependency"

/-- **Peers are added once to each package.** -/
theorem BeforePeers.addPeers {nodes : OrdMap String LockfilePackageKey} (hnodes : Displayed nodes)
    {edges edges' : OrdMap String (List Edge)} {rest : List (String × LockfilePackageKey)}
    (hrest : (rest.map Prod.fst).Nodup) (h : BeforePeers edges rest)
    (hfold : rest.foldlM (addPeers nodes) edges = .ok edges') : ∀ key, ((edges'.get? key).getD []).Nodup := by
  induction rest generalizing edges with
  | nil =>
    obtain rfl := Except.ok.inj hfold
    exact h.nodup
  | cons node rest ih =>
    rw [List.map_cons, List.nodup_cons] at hrest
    rw [List.foldlM_cons] at hfold
    obtain ⟨edges₁, hstep, hfold⟩ := bind_eq_ok.mp hfold
    obtain ⟨context, _, heq⟩ := bind_eq_ok.mp hstep
    obtain rfl := Except.ok.inj heq
    refine ih hrest.2 ⟨fun key => ?_, fun other hother edge hedge => ?_⟩ hfold
    · rw [OrdMap.get?_insert]
      split_ifs with hkey
      · rw [Option.getD_some, List.nodup_append]
        refine ⟨h.nodup node.1, nodup_peerEdges hnodes _ _, fun a ha b hb heq => ?_⟩
        -- an edge is of one kind
        have hdependency := h.plain node List.mem_cons_self a ha
        have hpeer := kind_of_mem_peerEdges hb
        rw [← heq, hdependency] at hpeer
        exact absurd hpeer (by decide)
      · exact h.nodup key
    · have hne : other.1 ≠ node.1 := fun heq => hrest.1 (heq ▸ List.mem_map_of_mem hother)
      rw [OrdMap.get?_insert_of_ne _ _ hne] at hedge
      exact h.plain other (List.mem_cons_of_mem _ hother) edge hedge

/-- **The graph of a lockfile has no edge twice.** -/
theorem noEdgeTwice_of_graph {url : UrlParser} {lock : Lockfile} (h : Why.graph url lock = .ok graph) :
    NoEdgeTwice graph := by
  unfold Why.graph at h
  obtain ⟨packages, _, h⟩ := bind_eq_ok.mp h
  obtain ⟨workspaces, _, h⟩ := bind_eq_ok.mp h
  obtain ⟨edges, hedges, heq⟩ := bind_eq_ok.mp h
  obtain rfl := Except.ok.inj heq
  have hnodes : ∀ all : List (LockfilePackageKey × OrdMap String String),
      Displayed (OrdMap.ofList (all.map fun p => (p.1.display, p.1))) := by
    intro all encoded key hget
    obtain ⟨p, _, hp⟩ := List.mem_map.mp (OrdMap.mem_of_get?_ofList hget)
    obtain ⟨rfl, rfl⟩ := Prod.mk.inj hp
    rfl
  have hplain : ∀ (all : List (LockfilePackageKey × OrdMap String String)) (key : String),
      ∃ dependencies, ((OrdMap.ofList (all.map fun p => (p.1.display, dependencyEdges p.2))).get? key).getD [] =
        dependencyEdges dependencies := by
    intro all key
    cases hget : (OrdMap.ofList (all.map fun p => (p.1.display, dependencyEdges p.2))).get? key with
    | none => exact ⟨∅, rfl⟩
    | some found =>
      obtain ⟨p, _, hp⟩ := List.mem_map.mp (OrdMap.mem_of_get?_ofList hget)
      exact ⟨p.2, (Prod.mk.inj hp).2.symm⟩
  refine BeforePeers.addPeers (hnodes _) (OrdMap.nodup_keys _) ⟨fun key => ?_, fun node _ edge hedge => ?_⟩ hedges
  · obtain ⟨dependencies, heq⟩ := hplain _ key
    rw [heq]
    exact nodup_dependencyEdges dependencies
  · obtain ⟨dependencies, heq⟩ := hplain _ node.1
    rw [heq] at hedge
    obtain ⟨entry, _, rfl⟩ := List.mem_map.mp hedge
    rfl

/-! ### The report -/

/-- **`why` is complete unless it says otherwise.**  A report that is not truncated lists, root by root, the simple
paths from the root to packages with the requested name, each of them once; so a package that is not found is at
the end of no such path. -/
theorem explain_complete {url : UrlParser} {lock : Lockfile} (hgraph : Why.graph url lock = .ok graph)
    (effectiveProject : String) (roots : List Root) (requested : PackageName) :
    let report := explain graph effectiveProject roots requested
    (report.truncated = false → ∃ paths : Root → List (List WhyStep),
      report.paths = roots.flatMap paths ∧
        (∀ root ∈ roots, (paths root).Nodup ∧ ∀ path, path ∈ paths root ↔ RootPath graph requested root path) ∧
        (roots.Nodup → report.paths.Nodup)) ∧
      (report.outcome = "not_found" → ∀ root ∈ roots, ∀ path, ¬ RootPath graph requested root path) := by
  intro report
  have hedges := noEdgeTwice_of_graph hgraph
  have hspec : report.truncated = false → report.paths = roots.flatMap (rootPaths graph requested) ∧
      ∀ root ∈ roots, RootExhausted graph root := by
    intro htruncated
    obtain ⟨_, hpaths, hexhausted⟩ := searchRoots_spec roots ⟨[], false, 0⟩ htruncated
    exact ⟨hpaths, hexhausted⟩
  refine ⟨fun htruncated => ?_, fun houtcome root hroot path hpath => ?_⟩
  · obtain ⟨hpaths, hexhausted⟩ := hspec htruncated
    refine ⟨rootPaths graph requested, hpaths, fun root hroot => ?_, fun hroots => ?_⟩
    · exact ⟨nodup_rootPaths hedges root, fun path => mem_rootPaths (hexhausted root hroot)⟩
    · rw [hpaths]
      exact nodup_flatMap_rootPaths hedges hroots
  · have hnone : report.truncated = false ∧ report.paths = [] := by
      change outcome _ = _ at houtcome
      unfold outcome at houtcome
      split_ifs at houtcome with htruncated hnil
      · exact absurd houtcome (by decide)
      · exact ⟨Bool.not_eq_true _ ▸ htruncated, hnil⟩
      · exact absurd houtcome (by decide)
    obtain ⟨hpaths, hexhausted⟩ := hspec hnone.1
    rw [hnone.2] at hpaths
    have hmem : path ∈ roots.flatMap (rootPaths graph requested) :=
      List.mem_flatMap.mpr ⟨root, hroot, (mem_rootPaths (hexhausted root hroot)).mpr hpath⟩
    rw [← hpaths] at hmem
    exact List.not_mem_nil hmem

/-! ### A lockfile with a cycle -/

/-- It depends on the shared package under two names, and has it as a peer. -/
def hostPackage : LockedPackage :=
  { Lockfile.appPackage with
    peerContext := canonicalPeerContext ((∅ : PeerContext).insert PackageIdentity.leftPad (.stable 1 3 0))
    dependencies := Lockfile.appPackage.dependencies.insert "left-pad"
      (Lockfile.samplePackage.key Lockfile.npmRegistry) }

/-- The shared package leads back to the one that depends on it. -/
def backPackage : LockedPackage :=
  { Lockfile.samplePackage with
    dependencies := (∅ : OrdMap String String).insert "app" (hostPackage.key Lockfile.npmRegistry) }

def cyclicLockfile : Lockfile :=
  Lockfile.emptyLockfile.withGraph Lockfile.npmRegistry [hostPackage, backPackage] []

def hostRoot : Root := ⟨hostPackage.key Lockfile.npmRegistry, "app", "dependencies"⟩

/-- The report of the lockfile, when it has a graph. -/
def cyclicReport (graph : WhyGraph) : WhyReport := explain graph "/project" [hostRoot] PackageIdentity.leftPad

/-- Three paths, one of them over the peer, and no others. -/
theorem explain_complete_cyclic :
    ∃ graph, Why.graph Lockfile.npmRegistry cyclicLockfile = .ok graph ∧ (cyclicReport graph).paths.length = 3 ∧
      ∀ path, path ∈ (cyclicReport graph).paths ↔ RootPath graph PackageIdentity.leftPad hostRoot path := by
  have hcheck : ((Why.graph Lockfile.npmRegistry cyclicLockfile).toOption.any fun graph =>
      (cyclicReport graph).truncated = false ∧ (cyclicReport graph).paths.length = 3) = true := by decide +kernel
  obtain ⟨graph, hgraph, hcheck⟩ := (Option.any_eq_true _ _).mp hcheck
  obtain ⟨htruncated, hlength⟩ := of_decide_eq_true hcheck
  have hok : Why.graph Lockfile.npmRegistry cyclicLockfile = .ok graph := by
    cases hresult : Why.graph Lockfile.npmRegistry cyclicLockfile with
    | error e =>
      rw [hresult] at hgraph
      cases hgraph
    | ok result =>
      rw [hresult] at hgraph
      rw [Option.some_inj.mp hgraph]
  obtain ⟨paths, hpaths, hroot, _⟩ := (explain_complete hok "/project" [hostRoot] PackageIdentity.leftPad).1 htruncated
  refine ⟨graph, hok, hlength, fun path => ?_⟩
  rw [← (hroot hostRoot List.mem_cons_self).2 path]
  change path ∈ (explain _ _ _ _).paths ↔ _
  rw [hpaths, List.flatMap_singleton]

end Graph

end Why

end Tapid
