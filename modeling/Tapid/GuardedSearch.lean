/-
Searches past a guard.

A graph is searched from a list of seeds.  Seeds and edges are optional or
required, and a node is open, closed, or cannot be inspected at all.  Open
nodes are selected and their edges followed; an optional edge to a closed node
is passed over, a required one ends the search.  Nodes are visited once as
optional and once as required, so a node that is first met on an optional edge
is still refused when a required one turns up.

* `step`, `search` — the work list;
* `Selects`, `Met` — what the search is about, whatever its order;
* `search_eq_ok`, `search_error` — when it goes through, and why not;
* `search_congr` — the order of seeds and edges does not matter.
-/
import Tapid.Loop
import Tapid.OrdMap

namespace GuardedSearch

open Fallible

variable {α ε : Type}

/-! ### What a search is about -/

section Selects

variable (inspect : α → Except ε Bool) (children : α → List (α × Bool))

/-- Open nodes on a way of open nodes from a seed. -/
inductive Selects (seeds : List (α × Bool)) : α → Prop
  | seed {node : α} {optional : Bool} (h : (node, optional) ∈ seeds) (hopen : inspect node = .ok true) :
      Selects seeds node
  | child {parent node : α} {optional : Bool} (hparent : Selects seeds parent)
      (h : (node, optional) ∈ children parent) (hopen : inspect node = .ok true) : Selects seeds node

/-- Seeds and edges of selected nodes. -/
def Met (seeds : List (α × Bool)) (node : α) (optional : Bool) : Prop :=
  (node, optional) ∈ seeds ∨
    ∃ parent, Selects inspect children seeds parent ∧ (node, optional) ∈ children parent

/-- A met node does not end the search. -/
def Passes (node : α) (optional : Bool) : Prop :=
  inspect node = .ok true ∨ inspect node = .ok false ∧ optional = true

end Selects

section Order

variable {inspect : α → Except ε Bool} {children children' : α → List (α × Bool)}
  {seeds seeds' : List (α × Bool)}

theorem Met.selects {node : α} {optional : Bool}
    (h : Met inspect children seeds node optional) (hopen : inspect node = .ok true) :
    Selects inspect children seeds node := by
  rcases h with h | ⟨parent, hparent, h⟩
  · exact Selects.seed h hopen
  · exact Selects.child hparent h hopen

theorem Selects.congr (hseeds : ∀ v, v ∈ seeds → v ∈ seeds') (hchildren : ∀ p v, v ∈ children p → v ∈ children' p)
    {node : α} (h : Selects inspect children seeds node) : Selects inspect children' seeds' node := by
  induction h with
  | seed h hopen => exact Selects.seed (hseeds _ h) hopen
  | child _ h hopen ih => exact Selects.child ih (hchildren _ _ h) hopen

theorem Met.congr (hseeds : ∀ v, v ∈ seeds → v ∈ seeds') (hchildren : ∀ p v, v ∈ children p → v ∈ children' p)
    {node : α} {optional : Bool} (h : Met inspect children seeds node optional) :
    Met inspect children' seeds' node optional := by
  rcases h with h | ⟨parent, hparent, h⟩
  · exact Or.inl (hseeds _ h)
  · exact Or.inr ⟨parent, hparent.congr hseeds hchildren, hchildren _ _ h⟩

end Order

/-! ### The work list -/

variable [LinearOrder α]

structure State (α : Type) [LinearOrder α] where
  selected : OrdSet α := ∅
  visited : OrdSet (α ×ₗ Bool) := ∅
  pending : List (α × Bool)

section Search

variable (inspect : α → Except ε Bool) (children : α → List (α × Bool)) (refuse : α → ε)

/-- Visit the last of the pending nodes. -/
def step (s : State α) : Option (Except ε (State α)) :=
  match s.pending.getLast? with
  | none => none
  | some (node, optional) =>
    let rest := s.pending.dropLast
    if toLex (node, optional) ∈ s.visited then some (.ok { s with pending := rest })
    else
      let visited := s.visited.insert (toLex (node, optional))
      some (match inspect node with
        | .error e => .error e
        | .ok true => .ok {
            selected := s.selected.insert node
            visited := visited
            pending := rest ++ children node }
        | .ok false =>
          if optional then .ok { s with visited := visited, pending := rest }
          else .error (refuse node))

def search (seeds : List (α × Bool)) (fuel : Nat) : Except ε (OrdSet α) := do
  let s ← Loop.run (step inspect children refuse) fuel { pending := seeds }
  return s.selected

end Search

variable {inspect : α → Except ε Bool} {children : α → List (α × Bool)} {refuse : α → ε}

/-! ### One visit -/

theorem step_ok {s s' : State α} (h : step inspect children refuse s = some (.ok s')) :
    ∃ node optional, s.pending = s.pending.dropLast ++ [(node, optional)] ∧
      ((toLex (node, optional) ∈ s.visited ∧ s' = { s with pending := s.pending.dropLast }) ∨
        toLex (node, optional) ∉ s.visited ∧ inspect node = .ok true ∧
          s' = { selected := s.selected.insert node
                 visited := s.visited.insert (toLex (node, optional))
                 pending := s.pending.dropLast ++ children node } ∨
        toLex (node, optional) ∉ s.visited ∧ inspect node = .ok false ∧ optional = true ∧
          s' = { s with visited := s.visited.insert (toLex (node, optional))
                        pending := s.pending.dropLast }) := by
  rw [step] at h
  cases hlast : s.pending.getLast? with
  | none => simp [hlast] at h
  | some v =>
    obtain ⟨node, optional⟩ := v
    rw [hlast] at h
    refine ⟨node, optional, (List.dropLast_append_getLast? _ hlast).symm, ?_⟩
    simp only at h
    by_cases hvisited : toLex (node, optional) ∈ s.visited
    · rw [if_pos hvisited] at h
      exact Or.inl ⟨hvisited, (Except.ok.inj (Option.some_inj.mp h)).symm⟩
    · rw [if_neg hvisited] at h
      have h := Option.some_inj.mp h
      right
      cases hnode : inspect node with
      | error e =>
        rw [hnode] at h
        cases h
      | ok isOpen =>
        rw [hnode] at h
        cases isOpen with
        | true => exact Or.inl ⟨hvisited, rfl, (Except.ok.inj h).symm⟩
        | false =>
          simp only at h
          split_ifs at h with hoptional
          exact Or.inr ⟨hvisited, rfl, hoptional, (Except.ok.inj h).symm⟩

theorem step_error {s : State α} {e : ε} (h : step inspect children refuse s = some (.error e)) :
    ∃ node optional, (node, optional) ∈ s.pending ∧
      (inspect node = .error e ∨ inspect node = .ok false ∧ optional = false ∧ e = refuse node) := by
  rw [step] at h
  cases hlast : s.pending.getLast? with
  | none => simp [hlast] at h
  | some v =>
    obtain ⟨node, optional⟩ := v
    rw [hlast] at h
    refine ⟨node, optional, List.mem_of_getLast? hlast, ?_⟩
    simp only at h
    by_cases hvisited : toLex (node, optional) ∈ s.visited
    · rw [if_pos hvisited] at h
      cases h
    rw [if_neg hvisited] at h
    have h := Option.some_inj.mp h
    cases hnode : inspect node with
    | error e' =>
      rw [hnode] at h
      exact Or.inl (congrArg Except.error (Except.error.inj h))
    | ok isOpen =>
      rw [hnode] at h
      cases isOpen with
      | true => cases h
      | false =>
        simp only at h
        split_ifs at h with hoptional
        exact Or.inr ⟨rfl, Bool.eq_false_iff.mpr hoptional, (Except.error.inj h).symm⟩

theorem step_eq_none {s : State α} (h : step inspect children refuse s = none) : s.pending = [] := by
  rw [step] at h
  cases hlast : s.pending.getLast? with
  | none => exact List.getLast?_eq_none_iff.mp hlast
  | some v =>
    rw [hlast] at h
    simp only at h
    split_ifs at h

/-! ### Termination -/

/-- Total weight of the elements not seen yet. -/
def openWeight {β : Type} [LinearOrder β] (w : β → Nat) (seen : OrdSet β) (l : List β) : Nat :=
  ((l.filter fun x => x ∉ seen).map w).sum

theorem openWeight_cons {β : Type} [LinearOrder β] (w : β → Nat) (seen : OrdSet β) (x : β) (l : List β) :
    openWeight w seen (x :: l) = (if x ∈ seen then 0 else w x) + openWeight w seen l := by
  rw [openWeight, List.filter_cons, openWeight]
  by_cases h : x ∈ seen <;> simp [h]

theorem openWeight_insert_le {β : Type} [LinearOrder β] (w : β → Nat) (seen : OrdSet β) (x : β) (l : List β) :
    openWeight w (seen.insert x) l ≤ openWeight w seen l := by
  induction l with
  | nil => exact Nat.le_refl _
  | cons y l ih =>
    rw [openWeight_cons, openWeight_cons]
    by_cases hy : y ∈ seen
    · rw [if_pos hy, if_pos (OrdSet.mem_insert.mpr (Or.inr hy))]
      omega
    · rw [if_neg hy]
      split_ifs <;> omega

/-- Seeing an element takes its weight off the open ones. -/
theorem openWeight_insert {β : Type} [LinearOrder β] (w : β → Nat) {seen : OrdSet β} {x : β} {l : List β}
    (hmem : x ∈ l) (hnew : x ∉ seen) : openWeight w (seen.insert x) l + w x ≤ openWeight w seen l := by
  induction l with
  | nil => cases hmem
  | cons y l ih =>
    rw [openWeight_cons, openWeight_cons]
    by_cases hxy : x = y
    · subst hxy
      have hle := openWeight_insert_le w seen x l
      rw [if_pos (OrdSet.mem_insert.mpr (Or.inl rfl)), if_neg hnew]
      omega
    · have hrest := ih ((List.mem_cons.mp hmem).resolve_left hxy)
      by_cases hy : y ∈ seen
      · rw [if_pos hy, if_pos (OrdSet.mem_insert.mpr (Or.inr hy))]
        omega
      · rw [if_neg hy, if_neg fun h => (OrdSet.mem_insert.mp h).elim (fun h => hxy h.symm) hy]
        omega

/-- Visits of the nodes. -/
def visits (nodes : List α) : List (α ×ₗ Bool) :=
  nodes.flatMap fun node => [toLex (node, false), toLex (node, true)]

omit [LinearOrder α] in
theorem mem_visits {nodes : List α} {node : α} (h : node ∈ nodes) (optional : Bool) :
    toLex (node, optional) ∈ visits nodes := by
  refine List.mem_flatMap.mpr ⟨node, h, ?_⟩
  cases optional
  · exact List.mem_cons_self
  · exact List.mem_cons_of_mem _ List.mem_cons_self

/-- Edges the search can still meet. -/
def openEdges (children : α → List (α × Bool)) (nodes : List α) (visited : OrdSet (α ×ₗ Bool)) : Nat :=
  openWeight (fun v => (children (ofLex v).1).length) visited (visits nodes)

theorem openEdges_empty (children : α → List (α × Bool)) (nodes : List α) :
    openEdges children nodes ∅ = 2 * (nodes.map fun node => (children node).length).sum := by
  induction nodes with
  | nil => rfl
  | cons node nodes ih =>
    have hunseen : ∀ v : α ×ₗ Bool, v ∉ (∅ : OrdSet (α ×ₗ Bool)) := fun v => OrdSet.not_mem_empty v
    rw [openEdges] at ih
    rw [openEdges, visits, List.flatMap_cons, List.cons_append, List.cons_append, List.nil_append,
      openWeight_cons, openWeight_cons, if_neg (hunseen _), if_neg (hunseen _)]
    rw [visits] at ih
    rw [ih, List.map_cons, List.sum_cons]
    show (children node).length + ((children node).length + _) = _
    omega

/-- Every visit leaves less to do. -/
theorem step_decreases {nodes : List α} (hnodes : ∀ node, inspect node = .ok true → node ∈ nodes)
    {s s' : State α} (h : step inspect children refuse s = some (.ok s')) :
    s'.pending.length + openEdges children nodes s'.visited <
      s.pending.length + openEdges children nodes s.visited := by
  obtain ⟨node, optional, hpending, hcases⟩ := step_ok h
  have hlen : s.pending.length = s.pending.dropLast.length + 1 := by
    conv_lhs => rw [hpending]
    rw [List.length_append, List.length_singleton]
  rcases hcases with ⟨_, rfl⟩ | ⟨hnew, hopen, rfl⟩ | ⟨_, _, _, rfl⟩
  · simp only
    omega
  · have hfall : openEdges children nodes (s.visited.insert (toLex (node, optional))) +
        (children node).length ≤ openEdges children nodes s.visited :=
      openWeight_insert _ (mem_visits (hnodes node hopen) optional) hnew
    simp only [List.length_append]
    omega
  · have hle : openEdges children nodes (s.visited.insert (toLex (node, optional))) ≤
        openEdges children nodes s.visited := openWeight_insert_le _ _ _ _
    simp only
    omega

/-! ### What the search has done -/

/-- Seeds and edges of selected nodes are visited or pending, and nothing
visited ends the search. -/
structure Invariant (inspect : α → Except ε Bool) (children : α → List (α × Bool))
    (seeds : List (α × Bool)) (s : State α) : Prop where
  seeded : ∀ v ∈ seeds, toLex v ∈ s.visited ∨ v ∈ s.pending
  met : ∀ v ∈ s.pending, Met inspect children seeds v.1 v.2
  sound : ∀ node ∈ s.selected, Selects inspect children seeds node
  closed : ∀ node ∈ s.selected, ∀ v ∈ children node, toLex v ∈ s.visited ∨ v ∈ s.pending
  passed : ∀ node optional, toLex (node, optional) ∈ s.visited →
    Passes inspect node optional ∧ (inspect node = .ok true → node ∈ s.selected)

theorem Invariant.start (seeds : List (α × Bool)) :
    Invariant inspect children seeds { pending := seeds } where
  seeded _ hv := Or.inr hv
  met _ hv := Or.inl hv
  sound _ h := absurd h (OrdSet.not_mem_empty _)
  closed _ h := absurd h (OrdSet.not_mem_empty _)
  passed _ _ h := absurd h (OrdSet.not_mem_empty _)

theorem Invariant.step {seeds : List (α × Bool)} {s s' : State α} (hs : Invariant inspect children seeds s)
    (h : step inspect children refuse s = some (.ok s')) : Invariant inspect children seeds s' := by
  obtain ⟨node, optional, hpending, hcases⟩ := step_ok h
  have hnode : Met inspect children seeds node optional :=
    hs.met (node, optional) (by rw [hpending]; exact List.mem_append_right _ (List.mem_singleton_self _))
  have hfront : ∀ v ∈ s.pending.dropLast, Met inspect children seeds v.1 v.2 := fun v hv =>
    hs.met v (List.dropLast_subset _ hv)
  -- what was visited or pending is so after the visit
  have hkeep : ∀ v : α × Bool, toLex v ∈ s.visited ∨ v ∈ s.pending →
      toLex v ∈ s.visited.insert (toLex (node, optional)) ∨ v ∈ s.pending.dropLast := by
    rintro v (hv | hv)
    · exact Or.inl (OrdSet.mem_insert.mpr (Or.inr hv))
    · rw [hpending] at hv
      rcases List.mem_append.mp hv with hv | hv
      · exact Or.inr hv
      · obtain rfl := List.mem_singleton.mp hv
        exact Or.inl (OrdSet.mem_insert.mpr (Or.inl rfl))
  rcases hcases with ⟨hvisited, rfl⟩ | ⟨_, hopen, rfl⟩ | ⟨_, hclosed, hoptional, rfl⟩
  · have hsame : s.visited.insert (toLex (node, optional)) = s.visited :=
      OrdSet.ext_mem fun v => ⟨fun hv => (OrdSet.mem_insert.mp hv).elim (fun h => h ▸ hvisited) id,
        fun hv => OrdSet.mem_insert.mpr (Or.inr hv)⟩
    rw [hsame] at hkeep
    exact ⟨fun v hv => hkeep v (hs.seeded v hv), hfront, hs.sound,
      fun p hp v hv => hkeep v (hs.closed p hp v hv), hs.passed⟩
  · have hselects := hnode.selects hopen
    have hgrow : ∀ v : α × Bool, toLex v ∈ s.visited ∨ v ∈ s.pending →
        toLex v ∈ s.visited.insert (toLex (node, optional)) ∨
          v ∈ s.pending.dropLast ++ children node := fun v hv =>
      (hkeep v hv).imp_right (List.mem_append_left _)
    refine ⟨fun v hv => hgrow v (hs.seeded v hv), fun v hv => ?_, fun p hp => ?_, fun p hp v hv => ?_,
      fun p b hv => ?_⟩
    · rcases List.mem_append.mp hv with hv | hv
      · exact hfront v hv
      · exact Or.inr ⟨node, hselects, hv⟩
    · rcases OrdSet.mem_insert.mp hp with rfl | hp
      · exact hselects
      · exact hs.sound p hp
    · rcases OrdSet.mem_insert.mp hp with rfl | hp
      · exact Or.inr (List.mem_append_right _ hv)
      · exact hgrow v (hs.closed p hp v hv)
    · rcases OrdSet.mem_insert.mp hv with heq | hv
      · obtain ⟨rfl, rfl⟩ := Prod.mk.inj (toLex.injective heq)
        exact ⟨Or.inl hopen, fun _ => OrdSet.mem_insert.mpr (Or.inl rfl)⟩
      · obtain ⟨hpasses, hselected⟩ := hs.passed p b hv
        exact ⟨hpasses, fun h => OrdSet.mem_insert.mpr (Or.inr (hselected h))⟩
  · refine ⟨fun v hv => hkeep v (hs.seeded v hv), hfront, hs.sound,
      fun p hp v hv => hkeep v (hs.closed p hp v hv), fun p b hv => ?_⟩
    rcases OrdSet.mem_insert.mp hv with heq | hv
    · obtain ⟨rfl, rfl⟩ := Prod.mk.inj (toLex.injective heq)
      refine ⟨Or.inr ⟨hclosed, hoptional⟩, fun hopen => ?_⟩
      rw [hclosed] at hopen
      cases hopen
    · exact hs.passed p b hv

/-- At the end every open node on the way is selected, and nothing met was
refused. -/
theorem Invariant.done {seeds : List (α × Bool)} {s : State α} (hs : Invariant inspect children seeds s)
    (hend : s.pending = []) :
    (∀ node optional, Met inspect children seeds node optional → Passes inspect node optional) ∧
      ∀ node, node ∈ s.selected ↔ Selects inspect children seeds node := by
  have hvisited : ∀ v : α × Bool, toLex v ∈ s.visited ∨ v ∈ s.pending → toLex v ∈ s.visited := by
    rintro v (hv | hv)
    · exact hv
    · rw [hend] at hv
      cases hv
  have hall : ∀ node, Selects inspect children seeds node → node ∈ s.selected := by
    intro node hnode
    induction hnode with
    | seed h hopen =>
      obtain ⟨_, hselected⟩ := hs.passed _ _ (hvisited _ (hs.seeded _ h))
      exact hselected hopen
    | child _ h hopen ih =>
      obtain ⟨_, hselected⟩ := hs.passed _ _ (hvisited _ (hs.closed _ ih _ h))
      exact hselected hopen
  refine ⟨?_, fun node => ⟨hs.sound node, hall node⟩⟩
  rintro node optional (h | ⟨parent, hparent, h⟩)
  · exact (hs.passed _ _ (hvisited _ (hs.seeded _ h))).1
  · exact (hs.passed _ _ (hvisited _ (hs.closed _ (hall parent hparent) _ h))).1

/-! ### The search -/

section Correct

variable {seeds : List (α × Bool)} {fuel : Nat}

/-- A search that fails met what it fails with. -/
theorem search_error {e : ε} (h : search inspect children refuse seeds fuel = .error e) :
    ∃ node optional, Met inspect children seeds node optional ∧
      (inspect node = .error e ∨ inspect node = .ok false ∧ optional = false ∧ e = refuse node) := by
  rw [search] at h
  rcases bind_eq_error.mp h with h | ⟨s, _, h⟩
  · obtain ⟨s, hs, hstep⟩ := Loop.run_error (I := Invariant inspect children seeds)
      (fun _ _ hs hstep => hs.step hstep) (Invariant.start seeds) h
    obtain ⟨node, optional, hpending, hreason⟩ := step_error hstep
    exact ⟨node, optional, hs.met _ hpending, hreason⟩
  · cases h

/-- What a failed search met does not pass. -/
theorem not_passes_of_search {e : ε} (h : search inspect children refuse seeds fuel = .error e) :
    ∃ node optional, Met inspect children seeds node optional ∧ ¬ Passes inspect node optional := by
  obtain ⟨node, optional, hmet, hreason⟩ := search_error h
  refine ⟨node, optional, hmet, ?_⟩
  rintro (hopen | ⟨hclosed, hoptional⟩)
  · rcases hreason with herror | ⟨hclosed, _, _⟩
    · rw [hopen] at herror
      cases herror
    · rw [hopen] at hclosed
      cases hclosed
  · rcases hreason with herror | ⟨_, hrequired, _⟩
    · rw [hclosed] at herror
      cases herror
    · rw [hoptional] at hrequired
      cases hrequired

/-- **The search** goes through exactly when everything it can meet lets it
pass, and then it has selected the open nodes on a way of open nodes. -/
theorem search_eq_ok {nodes : List α} (hnodes : ∀ node, inspect node = .ok true → node ∈ nodes)
    (hfuel : seeds.length + 2 * (nodes.map fun node => (children node).length).sum < fuel)
    {selected : OrdSet α} :
    search inspect children refuse seeds fuel = .ok selected ↔
      (∀ node optional, Met inspect children seeds node optional → Passes inspect node optional) ∧
        ∀ node, node ∈ selected ↔ Selects inspect children seeds node := by
  have hdone : ∀ found, search inspect children refuse seeds fuel = .ok found →
      (∀ node optional, Met inspect children seeds node optional → Passes inspect node optional) ∧
        ∀ node, node ∈ found ↔ Selects inspect children seeds node := by
    intro found h
    simp only [search, bind_eq_ok, pure_eq_ok] at h
    obtain ⟨s, hrun, rfl⟩ := h
    have hs : Invariant inspect children seeds s :=
      Loop.run_inv (fun _ _ hs hstep => hs.step hstep) (Invariant.start seeds) hrun
    have hstop := Loop.run_stops (I := fun _ => True)
      (fun s : State α => s.pending.length + openEdges children nodes s.visited)
      (fun _ _ _ hstep => ⟨trivial, step_decreases hnodes hstep⟩) trivial
      (by rw [openEdges_empty]; exact hfuel) hrun
    exact hs.done (step_eq_none hstop)
  constructor
  · exact hdone selected
  · rintro ⟨hpass, hselected⟩
    cases h : search inspect children refuse seeds fuel with
    | error e =>
      obtain ⟨node, optional, hmet, hnot⟩ := not_passes_of_search h
      exact absurd (hpass node optional hmet) hnot
    | ok found =>
      obtain ⟨_, hfound⟩ := hdone found h
      exact congrArg Except.ok (OrdSet.ext_mem fun node => (hfound node).trans (hselected node).symm)

end Correct

/-! ### Order -/

section Order

variable {seeds seeds' : List (α × Bool)} {children' : α → List (α × Bool)}

/-- **Order independence.**  Only the members of the seeds and edges matter. -/
theorem search_congr {nodes : List α} (hnodes : ∀ node, inspect node = .ok true → node ∈ nodes)
    {fuel fuel' : Nat}
    (hfuel : seeds.length + 2 * (nodes.map fun node => (children node).length).sum < fuel)
    (hfuel' : seeds'.length + 2 * (nodes.map fun node => (children' node).length).sum < fuel')
    (hseeds : ∀ v, v ∈ seeds ↔ v ∈ seeds') (hchildren : ∀ p v, v ∈ children p ↔ v ∈ children' p)
    {selected : OrdSet α} :
    search inspect children refuse seeds fuel = .ok selected ↔
      search inspect children' refuse seeds' fuel' = .ok selected := by
  rw [search_eq_ok hnodes hfuel, search_eq_ok hnodes hfuel']
  have hmet : ∀ node optional, Met inspect children seeds node optional ↔
      Met inspect children' seeds' node optional := fun node optional =>
    ⟨Met.congr (fun v => (hseeds v).mp) (fun p v => (hchildren p v).mp),
      Met.congr (fun v => (hseeds v).mpr) (fun p v => (hchildren p v).mpr)⟩
  have hselects : ∀ node, Selects inspect children seeds node ↔ Selects inspect children' seeds' node :=
    fun node => ⟨Selects.congr (fun v => (hseeds v).mp) (fun p v => (hchildren p v).mp),
      Selects.congr (fun v => (hseeds v).mpr) (fun p v => (hchildren p v).mpr)⟩
  simp only [hmet, hselects]

end Order

end GuardedSearch
