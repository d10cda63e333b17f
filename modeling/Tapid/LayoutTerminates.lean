/-
The placement loop of the layout planner ends.

An edge carries the lookup states of the packages it is nested in, and a package
whose state occurs among them queues nothing.  There are finitely many lookup
states, so an edge has a rank, the number of states that are still missing from
its lineage, and what it queues has a smaller one.

* `lookupStates` — the lookup states a run can meet;
* `Bounded.step` — one iteration makes the work list lighter;
* `planNamedLayoutInner_terminates` — every input is planned or refused.
-/
import Mathlib.Data.List.Sections
import Tapid.LayoutSound

namespace Tapid

open Fallible

section Ranks

/-- The lookup states of some instances. -/
def lookupStates (keys : List InstanceKey) (names : Nat) : Finset LookupState :=
  (keys ×ˢ (List.replicate names (none :: keys.map some)).sections).toFinset

theorem mem_lookupStates {keys : List InstanceKey} {names : List PackageName} {child : InstanceKey}
    {found : PackageName → Option InstanceKey} (hchild : child ∈ keys)
    (hfound : ∀ name key, found name = some key → key ∈ keys) :
    (child, names.map found) ∈ lookupStates keys names.length := by
  rw [lookupStates, List.mem_toFinset]
  have hvector : names.map found ∈ (List.replicate names.length (none :: keys.map some)).sections := by
    rw [List.mem_sections]
    induction names with
    | nil => exact List.Forall₂.nil
    | cons name names ih =>
      rw [List.map_cons, List.length_cons, List.replicate_succ]
      refine List.Forall₂.cons ?_ ih
      cases hname : found name with
      | none => exact List.mem_cons_self
      | some key => exact List.mem_cons_of_mem _ (List.mem_map_of_mem (hfound name key hname))
  exact List.mem_product.mpr ⟨hchild, hvector⟩

/-- The lookup states that are missing from the lineage of an edge. -/
def missing (states : Finset LookupState) (edge : PendingEdge) : Nat :=
  (states.filter fun s => s ∉ edge.lineage).card

/-- A longer lineage misses less. -/
theorem missing_cons_lt {states : Finset LookupState} {lineage : List LookupState} {s : LookupState}
    (hs : s ∈ states) (hnew : s ∉ lineage) {d d' : NamedDependency} {bases bases' : List Location} :
    missing states ⟨d', bases', s :: lineage⟩ < missing states ⟨d, bases, lineage⟩ := by
  refine Finset.card_lt_card (Finset.ssubset_iff_of_subset ?_ |>.mpr ⟨s, ?_, ?_⟩)
  · intro t ht
    rw [Finset.mem_filter] at ht ⊢
    exact ⟨ht.1, fun hmem => ht.2 (List.mem_cons_of_mem _ hmem)⟩
  · exact Finset.mem_filter.mpr ⟨hs, hnew⟩
  · intro h
    exact (Finset.mem_filter.mp h).2 List.mem_cons_self

end Ranks

section Loop

variable {sha256Hex : String → String} {reserved : OrdSet Location} {root : ManagedRoot}
  {kind : LinkKind} {children : Children} {names : OrdSet PackageName} {state state' : LayoutState}
  {keys : List InstanceKey}

/-- All instances a state speaks of are among some keys. -/
structure Bounded (keys : List InstanceKey) (state : LayoutState) : Prop where
  placements : ∀ target key, state.placements.get? target = some key → key ∈ keys
  pending : ∀ edge ∈ state.pending, edge.dependency.child ∈ keys

/-- The keys are closed under dependencies. -/
def Closed (children : Children) (keys : List InstanceKey) : Prop :=
  ∀ key, ∀ d ∈ children.at key, d.child ∈ keys

/-- Number of dependencies over all instances. -/
def Children.count (children : Children) : Nat := (children.values.map fun s => s.elems.length).sum

theorem length_at_le (children : Children) (key : InstanceKey) :
    (children.at key).length ≤ children.count := by
  rw [Children.at]
  cases hget : children.get? key with
  | none => exact Nat.zero_le _
  | some selected =>
    have hmem : selected.elems.length ∈ children.values.map fun s => s.elems.length :=
      List.mem_map_of_mem (f := fun s : OrdSet NamedDependency => s.elems.length)
        (OrdMap.mem_values.mpr ⟨key, hget⟩)
    exact List.single_le_sum (fun _ _ => Nat.zero_le _) _ hmem

theorem lookup_mem {placements : OrdMap Location InstanceKey}
    (h : ∀ target key, placements.get? target = some key → key ∈ keys) {bases : List Location}
    {name : PackageName} {key : InstanceKey} (hlookup : lookup placements bases name = some key) : key ∈ keys := by
  obtain ⟨base, _, hbase⟩ := List.exists_of_findSome?_eq_some hlookup
  exact h _ key hbase

/-- What an iteration leaves in the work list. -/
theorem placeNext_pending (h : placeNext sha256Hex reserved root kind children names state = some (.ok state')) :
    ∃ edge rest, state.pending = edge :: rest ∧
      ((state'.placements = state.placements ∧ state'.pending = rest) ∨
      ∃ target bases, state'.placements = state.placements.insert target edge.dependency.child ∧
        (state'.pending = rest ∨
        (edge.dependency.child, names.elems.map (lookup state'.placements bases)) ∉ edge.lineage ∧
          state'.pending = rest ++ (children.at edge.dependency.child).map fun d => ⟨d, bases,
            (edge.dependency.child, names.elems.map (lookup state'.placements bases)) :: edge.lineage⟩)) := by
  rw [placeNext] at h
  split at h
  · simp at h
  · rename_i edge rest hpending
    refine ⟨edge, rest, hpending, ?_⟩
    simp only at h
    split at h
    · simp at h
    · obtain rfl := Except.ok.inj (Option.some_inj.mp h)
      exact Or.inl ⟨rfl, rfl⟩
    · split at h
      · rename_i base index _
        refine Or.inr ⟨edge.dependency.name :: base,
          edge.bases.take (index + 1) ++ [edge.dependency.name :: base], ?_⟩
        have h := Option.some_inj.mp h
        rw [placeAt] at h
        split_ifs at h with hrepeated hmissing
        · -- a repeated state queues nothing
          obtain rfl := Except.ok.inj h
          exact ⟨rfl, Or.inl rfl⟩
        · obtain rfl := Except.ok.inj h
          exact ⟨rfl, Or.inr ⟨hrepeated, rfl⟩⟩
      · simp at h

/-- **One iteration** keeps the instances bounded and makes the work list
lighter. -/
theorem Bounded.step (hclosed : Closed children keys) (hb : Bounded keys state)
    (h : placeNext sha256Hex reserved root kind children names state = some (.ok state')) :
    Bounded keys state' ∧
      Loop.weight children.count (missing (lookupStates keys names.elems.length)) state'.pending <
        Loop.weight children.count (missing (lookupStates keys names.elems.length)) state.pending := by
  obtain ⟨edge, rest, hpending, ⟨hplacements, hrest⟩ | ⟨target, bases, hplacements, hcase⟩⟩ := placeNext_pending h
  · rw [hrest, hpending]
    refine ⟨⟨?_, fun e he => hb.pending e ?_⟩, Loop.weight_lt_cons⟩
    · rw [hplacements]
      exact hb.placements
    · rw [hpending]
      exact List.mem_cons_of_mem _ (hrest ▸ he)
  · have hchild : edge.dependency.child ∈ keys := hb.pending edge (by rw [hpending]; exact List.mem_cons_self)
    have hplaced : ∀ target key, state'.placements.get? target = some key → key ∈ keys := by
      intro t key hget
      rw [hplacements, OrdMap.get?_insert] at hget
      split_ifs at hget
      · rwa [← Option.some_inj.mp hget]
      · exact hb.placements t key hget
    have hold : ∀ e ∈ rest, e.dependency.child ∈ keys := fun e he =>
      hb.pending e (by rw [hpending]; exact List.mem_cons_of_mem _ he)
    rcases hcase with hrest | ⟨hnew, hqueued⟩
    · rw [hrest, hpending]
      exact ⟨⟨hplaced, fun e he => hold e (hrest ▸ he)⟩, Loop.weight_lt_cons⟩
    · have hstate : (edge.dependency.child, names.elems.map (lookup state'.placements bases)) ∈
          lookupStates keys names.elems.length := mem_lookupStates hchild fun _ _ => lookup_mem hplaced
      refine ⟨⟨hplaced, fun e he => ?_⟩, ?_⟩
      · rw [hqueued, List.mem_append] at he
        rcases he with he | he
        · exact hold e he
        · obtain ⟨d, hd, rfl⟩ := List.mem_map.mp he
          exact hclosed _ d hd
      · rw [hqueued, hpending]
        refine Loop.weight_append_lt ?_ fun e he => ?_
        · rw [List.length_map]
          exact length_at_le children _
        · obtain ⟨d, _, rfl⟩ := List.mem_map.mp he
          exact missing_cons_lt hstate hnew

variable (children) in
/-- The instances a state can come to speak of. -/
def keysOf (state : LayoutState) : List InstanceKey :=
  state.placements.values ++ state.pending.map (fun e => e.dependency.child) ++
    children.values.flatMap fun s => s.elems.map NamedDependency.child

theorem closed_keysOf (state : LayoutState) : Closed children (keysOf children state) := by
  intro key d hd
  rw [Children.at] at hd
  cases hget : children.get? key with
  | none =>
    rw [hget] at hd
    exact absurd hd List.not_mem_nil
  | some selected =>
    rw [hget] at hd
    exact List.mem_append_right _ (List.mem_flatMap.mpr
      ⟨selected, OrdMap.mem_values.mpr ⟨key, hget⟩, List.mem_map_of_mem hd⟩)

theorem bounded_keysOf (state : LayoutState) : Bounded (keysOf children state) state where
  placements target _ h :=
    List.mem_append_left _ (List.mem_append_left _ (OrdMap.mem_values.mpr ⟨target, h⟩))
  pending _ he := List.mem_append_left _ (List.mem_append_right _ (List.mem_map_of_mem he))

variable (sha256Hex reserved root kind children names) in
/-- **The placement loop ends from every state.** -/
theorem exists_runTo_placeNext (state : LayoutState) :
    ∃ n r, Loop.runTo (placeNext sha256Hex reserved root kind children names) n state = some r := by
  obtain ⟨r, hr⟩ := Loop.exists_runTo
    (fun s => Loop.weight children.count
      (missing (lookupStates (keysOf children state) names.elems.length)) s.pending)
    (fun _ _ => Bounded.step (closed_keysOf state)) (bounded_keysOf state) (Nat.lt_succ_self _)
  exact ⟨_, r, hr⟩

end Loop

/-! ### Planning -/

/-- Where a placement loop ends: with an empty work list or a failing
iteration. -/
def PlacementEnds (step : LayoutState → Option (Except PlanError LayoutState)) (start : LayoutState)
    (finish : LayoutState → Except PlanError MaterializationPlan)
    (result : Except PlanError MaterializationPlan) : Prop :=
  (∃ final, Loop.Reaches step start final ∧ final.pending = [] ∧ result = finish final) ∨
    ∃ last e, Loop.Reaches step start last ∧ step last = some (.error e) ∧ result = .error e

/-- **Planning terminates.** -/
theorem planNamedLayoutInner_terminates (sha256Hex : String → String) (root : ManagedRoot)
    (input : NamedLayoutInput) (platform : Platform) (reserved : OrdSet Location) :
    ∃ n result, (∀ fuel, n ≤ fuel →
        planNamedLayoutInner sha256Hex root fuel input platform reserved = some result) ∧
      ∀ prepared, prepareLayout sha256Hex root input platform reserved = .ok prepared →
        PlacementEnds (placementStep sha256Hex root reserved prepared) prepared.start
          (finishLayout root prepared) result := by
  cases hprepared : prepareLayout sha256Hex root input platform reserved with
  | error e =>
    refine ⟨0, .error e, fun fuel _ => ?_, fun _ h => ?_⟩
    · rw [planNamedLayoutInner, hprepared]
    · cases h
  | ok prepared =>
    obtain ⟨n, r, hr⟩ := exists_runTo_placeNext sha256Hex reserved root prepared.kind prepared.children
      (lookupNames prepared.children) prepared.start
    refine ⟨n, r.bind (finishLayout root prepared), fun fuel hfuel => ?_, fun _ h => ?_⟩
    · rw [planNamedLayoutInner, hprepared]
      show (Loop.runTo (placementStep sha256Hex root reserved prepared) fuel prepared.start).map _ = _
      rw [placementStep, Loop.runTo_mono hr hfuel]
      rfl
    · obtain rfl := Except.ok.inj h
      cases r with
      | error e =>
        obtain ⟨last, hreach, herror⟩ := Loop.runTo_reaches_error hr
        exact Or.inr ⟨last, e, hreach, herror, rfl⟩
      | ok final =>
        obtain ⟨hreach, hnone⟩ := Loop.runTo_reaches hr
        exact Or.inl ⟨final, hreach, pending_of_placementStep hnone, rfl⟩

end Tapid
