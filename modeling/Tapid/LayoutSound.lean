/-
When a planned layout gives every package its dependencies.

The planner accepts an edge as soon as it resolves, and a later placement can
stand between the package and what the edge resolved to.  `Shadows` says when
an iteration does that to an edge that is no longer queued, and `Restores` when
one puts the declared child still nearer.  The planned layout is sound exactly
when after every iteration of the first kind there is one of the second for the
same edge.

* `nodeLookup` — nearest-ancestor lookup;
* `nodeLookup_step` — what an iteration does to a lookup;
* `EdgeMet.step`, `not_resolves_of_shadows` — what it does to an edge;
* `layoutSound_iff_restored` — whole runs and the final plan.
-/
import Tapid.Layout

namespace Tapid

open Fallible

/-! ### Nearest-ancestor lookup -/

section Lookup

variable (reserved : OrdSet Location) (placements : OrdMap Location InstanceKey)

/-- What an import name resolves to from a location: its own directory first,
then each enclosing one up to the root. -/
def nodeLookup (name : PackageName) : Location → Option Occupant
  | [] => occupant reserved placements [name]
  | a :: loc => (occupant reserved placements (name :: a :: loc)).or (nodeLookup name loc)

/-- Nothing of the name stands from `base` inwards to the location. -/
def FreeFrom (name : PackageName) (base loc : Location) : Prop :=
  ∀ b, base <:+ b → b <:+ loc → occupant reserved placements (name :: b) = none

end Lookup

variable {reserved : OrdSet Location} {placements : OrdMap Location InstanceKey}
  {name : PackageName} {base loc : Location}

theorem FreeFrom.of_cons {a : PackageName} (h : FreeFrom reserved placements name base (a :: loc)) :
    FreeFrom reserved placements name base loc := fun b hb hbl =>
  h b hb (hbl.trans (List.suffix_cons a loc))

/-- From a free stretch the lookup goes on outside it. -/
theorem nodeLookup_of_free (hsub : base <:+ loc) (h : FreeFrom reserved placements name base loc) :
    nodeLookup reserved placements name loc = nodeLookup reserved placements name base := by
  induction loc with
  | nil => rw [List.suffix_nil.mp hsub]
  | cons a loc ih =>
    rcases List.suffix_cons_iff.mp hsub with rfl | hsub'
    · rfl
    · rw [nodeLookup, h (a :: loc) hsub (List.suffix_refl _), Option.none_or, ih hsub' h.of_cons]

/-- Outside a free directory stands its parent directory. -/
theorem nodeLookup_cons_of_free {a : PackageName}
    (h : occupant reserved placements (name :: a :: loc) = none) :
    nodeLookup reserved placements name (a :: loc) = nodeLookup reserved placements name loc := by
  rw [nodeLookup, h, Option.none_or]

theorem occupant_insert {child : InstanceKey} {target t : Location} (hres : target ∉ reserved) :
    occupant reserved (placements.insert target child) t =
      if t = target then some (.package child) else occupant reserved placements t := by
  rw [occupant, occupant, OrdMap.get?_insert]
  by_cases ht : t = target
  · subst ht
    simp [hres]
  · simp [ht]

/-- A placement under another name changes no lookup. -/
theorem nodeLookup_insert_of_ne {child : InstanceKey} {n : PackageName} (hres : n :: base ∉ reserved)
    (hne : name ≠ n) :
    nodeLookup reserved (placements.insert (n :: base) child) name loc =
      nodeLookup reserved placements name loc := by
  induction loc with
  | nil => rw [nodeLookup, nodeLookup, occupant_insert hres, if_neg (by simp [hne])]
  | cons a loc ih => rw [nodeLookup, nodeLookup, occupant_insert hres, if_neg (by simp [hne]), ih]

/-- A placement in a directory the location is not under changes no lookup. -/
theorem nodeLookup_insert_of_not_suffix {child : InstanceKey} (hres : name :: base ∉ reserved)
    (hnot : ¬ base <:+ loc) :
    nodeLookup reserved (placements.insert (name :: base) child) name loc =
      nodeLookup reserved placements name loc := by
  induction loc with
  | nil =>
    have hne : base ≠ [] := by
      rintro rfl
      exact hnot (List.suffix_refl _)
    rw [nodeLookup, nodeLookup, occupant_insert hres, if_neg (by simpa using hne.symm)]
  | cons a loc ih =>
    have hne : a :: loc ≠ base := by
      rintro rfl
      exact hnot (List.suffix_refl _)
    rw [nodeLookup, nodeLookup, occupant_insert hres, if_neg (by simpa using hne),
      ih fun hsub => hnot (hsub.trans (List.suffix_cons a loc))]

/-- A placement behind a nearer one changes no lookup. -/
theorem nodeLookup_insert_of_not_free {child : InstanceKey} (hres : name :: base ∉ reserved)
    (hfree : occupant reserved placements (name :: base) = none)
    (hnot : ¬ FreeFrom reserved placements name base loc) :
    nodeLookup reserved (placements.insert (name :: base) child) name loc =
      nodeLookup reserved placements name loc := by
  by_cases hsub : base <:+ loc
  · induction loc with
    | nil =>
      obtain rfl := List.suffix_nil.mp hsub
      refine absurd (fun b _ hb => ?_) hnot
      rw [List.suffix_nil.mp hb]
      exact hfree
    | cons a loc ih =>
      by_cases hocc : occupant reserved placements (name :: a :: loc) = none
      · -- the nearer occupant is further out
        have hne : a :: loc ≠ base := by
          rintro rfl
          refine hnot fun b hb hb' => ?_
          rw [List.IsSuffix.eq_of_length_le hb' (List.IsSuffix.length_le hb)]
          exact hocc
        have hsub' : base <:+ loc := (List.suffix_cons_iff.mp hsub).resolve_left (Ne.symm hne)
        have hnot' : ¬ FreeFrom reserved placements name base loc := by
          intro hf
          refine hnot fun b hb hb' => ?_
          rcases List.suffix_cons_iff.mp hb' with rfl | hb'
          · exact hocc
          · exact hf b hb hb'
        rw [nodeLookup, nodeLookup, occupant_insert hres, if_neg (by simpa using hne),
          ih hnot' hsub']
      · have hne : a :: loc ≠ base := by
          rintro rfl
          exact hocc hfree
        obtain ⟨o, ho⟩ := Option.ne_none_iff_exists'.mp hocc
        rw [nodeLookup, nodeLookup, occupant_insert hres, if_neg (by simpa using hne), ho,
          Option.some_or, Option.some_or]
  · exact nodeLookup_insert_of_not_suffix hres hsub

/-- **A placement nothing nearer stands before is what the lookup finds.** -/
theorem nodeLookup_insert_of_free {child : InstanceKey} (hres : name :: base ∉ reserved)
    (hsub : base <:+ loc) (hfree : FreeFrom reserved placements name base loc) :
    nodeLookup reserved (placements.insert (name :: base) child) name loc =
      some (.package child) := by
  induction loc with
  | nil =>
    obtain rfl := List.suffix_nil.mp hsub
    rw [nodeLookup, occupant_insert hres, if_pos rfl]
  | cons a loc ih =>
    rcases List.suffix_cons_iff.mp hsub with rfl | hsub'
    · rw [nodeLookup, occupant_insert hres, if_pos rfl, Option.some_or]
    · have hne : name :: a :: loc ≠ name :: base := by
        intro heq
        have := List.IsSuffix.length_le hsub'
        rw [← (List.cons.inj heq).2] at this
        simp at this
      rw [nodeLookup, occupant_insert hres, if_neg hne, hfree (a :: loc) hsub (List.suffix_refl _),
        Option.none_or, ih hsub' hfree.of_cons]

/-! ### The search of one edge -/

/-- Directories a location searches, outermost first. -/
def basesOf (loc : Location) : List Location := loc.tails.reverse

@[simp] theorem basesOf_nil : basesOf [] = [[]] := rfl

@[simp] theorem basesOf_cons (a : PackageName) (loc : Location) :
    basesOf (a :: loc) = basesOf loc ++ [a :: loc] := by
  simp [basesOf]

theorem length_basesOf (loc : Location) : (basesOf loc).length = loc.length + 1 := by
  simp [basesOf]

theorem basesOf_injective {loc loc' : Location} (h : basesOf loc = basesOf loc') : loc = loc' := by
  have hlast : (basesOf loc).getLast? = (basesOf loc').getLast? := by rw [h]
  have hself : ∀ l : Location, (basesOf l).getLast? = some l := fun l => by cases l <;> simp
  rw [hself, hself] at hlast
  exact Option.some_inj.mp hlast

/-- The directory of an index is the suffix of that length. -/
theorem mem_zipIdx_basesOf {loc b : Location} {i : Nat} (h : (b, i) ∈ (basesOf loc).zipIdx) :
    b <:+ loc ∧ b.length = i ∧ (basesOf loc).take (i + 1) = basesOf b := by
  induction loc with
  | nil =>
    simp only [basesOf_nil, List.zipIdx_singleton, List.mem_singleton, Prod.mk.injEq] at h
    obtain ⟨rfl, rfl⟩ := h
    simp
  | cons a loc ih =>
    rw [basesOf_cons, List.zipIdx_append, List.mem_append] at h
    rcases h with h | h
    · obtain ⟨hsub, hlen, htake⟩ := ih h
      refine ⟨hsub.trans (List.suffix_cons a loc), hlen, ?_⟩
      have hle := List.IsSuffix.length_le hsub
      rw [basesOf_cons, List.take_append_of_le_length (by rw [length_basesOf]; omega), htake]
    · simp only [List.zipIdx_singleton, List.mem_singleton, Prod.mk.injEq, length_basesOf,
        Nat.zero_add] at h
      obtain ⟨rfl, rfl⟩ := h
      refine ⟨List.suffix_refl _, by simp, ?_⟩
      rw [List.take_of_length_le (by simp [length_basesOf])]

/-- Indexed directories, innermost first. -/
theorem zipIdx_basesOf_cons (a : PackageName) (loc : Location) :
    (basesOf (a :: loc)).zipIdx.reverse = (a :: loc, loc.length + 1) :: (basesOf loc).zipIdx.reverse := by
  simp [List.zipIdx_append, length_basesOf]

variable {root : ManagedRoot} {d : NamedDependency}

/-- What a search result says about the lookup from the location. -/
def SearchMeaning (reserved : OrdSet Location) (placements : OrdMap Location InstanceKey)
    (d : NamedDependency) (loc : Location) : SearchResult → Prop
  | .resolves => nodeLookup reserved placements d.name loc = some (.package d.child)
  | .free => FreeFrom reserved placements d.name [] loc
  | .shadowed i => ∃ o b, b.length = i ∧ b <:+ loc ∧
      (∀ c, b <:+ c → c <:+ loc → c ≠ b → occupant reserved placements (d.name :: c) = none) ∧
      occupant reserved placements (d.name :: b) = some o ∧ o ≠ .package d.child

/-- The innermost directory is occupied. -/
theorem searchMeaning_of_occupant {o : Occupant}
    (h : occupant reserved placements (d.name :: loc) = some o) :
    SearchMeaning reserved placements d loc
      (if o = .package d.child then .resolves else .shadowed loc.length) := by
  split_ifs with ho
  · cases loc <;> simp [SearchMeaning, nodeLookup, h, ho]
  · refine ⟨o, loc, rfl, List.suffix_refl _, fun c hc hc' hne => ?_, h, ho⟩
    exact absurd (List.IsSuffix.eq_of_length_le hc' (List.IsSuffix.length_le hc)) hne

/-- The innermost directory is free. -/
theorem SearchMeaning.cons {a : PackageName} {result : SearchResult}
    (hocc : occupant reserved placements (d.name :: a :: loc) = none)
    (h : SearchMeaning reserved placements d loc result) :
    SearchMeaning reserved placements d (a :: loc) result := by
  cases result with
  | resolves => exact (nodeLookup_cons_of_free hocc).trans h
  | free =>
    intro b hb hb'
    rcases List.suffix_cons_iff.mp hb' with rfl | hb'
    · exact hocc
    · exact h b hb hb'
  | shadowed i =>
    obtain ⟨o, b, hlen, hsub, hfree, hocc', hne⟩ := h
    refine ⟨o, b, hlen, hsub.trans (List.suffix_cons a loc), fun c hc hc' hcb => ?_, hocc', hne⟩
    rcases List.suffix_cons_iff.mp hc' with rfl | hc'
    · exact hocc
    · exact hfree c hc hc' hcb

theorem search_spec {result : SearchResult}
    (h : search reserved root placements d (basesOf loc).zipIdx.reverse = .ok result) :
    SearchMeaning reserved placements d loc result := by
  induction loc with
  | nil =>
    simp only [basesOf_nil, List.zipIdx_singleton, List.reverse_singleton, search] at h
    split_ifs at h
    split at h
    · rename_i hocc
      rw [← Except.ok.inj h]
      exact searchMeaning_of_occupant hocc
    · rename_i existing hocc
      rw [← Except.ok.inj h]
      simpa using searchMeaning_of_occupant hocc
    · rename_i hocc
      rw [← Except.ok.inj h]
      intro b _ hb
      rw [List.suffix_nil.mp hb]
      exact hocc
  | cons a loc ih =>
    rw [zipIdx_basesOf_cons, search] at h
    split_ifs at h
    split at h
    · rename_i hocc
      rw [← Except.ok.inj h]
      exact searchMeaning_of_occupant hocc
    · rename_i existing hocc
      rw [← Except.ok.inj h]
      simpa using searchMeaning_of_occupant hocc
    · rename_i hocc
      exact (ih h).cons hocc

/-- The nearest occupied directory decides the lookup. -/
theorem nodeLookup_of_occupant {b : Location} {o : Occupant} (hsub : b <:+ loc)
    (hfree : ∀ c, b <:+ c → c <:+ loc → c ≠ b → occupant reserved placements (name :: c) = none)
    (hocc : occupant reserved placements (name :: b) = some o) :
    nodeLookup reserved placements name loc = some o := by
  induction loc with
  | nil => rw [nodeLookup, ← List.suffix_nil.mp hsub, hocc]
  | cons a loc ih =>
    rcases List.suffix_cons_iff.mp hsub with rfl | hsub'
    · rw [nodeLookup, hocc, Option.some_or]
    · have hne : a :: loc ≠ b := by
        rintro rfl
        have := List.IsSuffix.length_le hsub'
        simp at this
      rw [nodeLookup_cons_of_free (hfree _ hsub (List.suffix_refl _) hne)]
      exact ih hsub' fun c hc hc' => hfree c hc (hc'.trans (List.suffix_cons a loc))

/-- Directories after the first ones have larger indices. -/
theorem le_index_of_mem_drop {α : Type} {l : List α} {n i : Nat} {a : α}
    (h : (a, i) ∈ l.zipIdx.drop n) : n ≤ i := by
  obtain ⟨k, hk, hget⟩ := List.mem_iff_getElem.mp h
  rw [List.getElem_drop, List.getElem_zipIdx, Prod.mk.injEq] at hget
  omega

/-- The directory an edge is placed in: all directories from it inwards are
free, and the lookup does not find the child. -/
structure ChosenBase (reserved : OrdSet Location) (placements : OrdMap Location InstanceKey)
    (d : NamedDependency) (loc base : Location) : Prop where
  suffix : base <:+ loc
  free : FreeFrom reserved placements d.name base loc
  wrong : nodeLookup reserved placements d.name loc ≠ some (.package d.child)

theorem chosenBase_of_selectBase {result : SearchResult} {index : Nat}
    (hsearch : SearchMeaning reserved placements d loc result) (hres : result ≠ .resolves)
    (h : selectBase reserved placements d.name (basesOf loc) result.firstCandidate =
      some (base, index)) :
    ChosenBase reserved placements d loc base ∧ (basesOf loc).take (index + 1) = basesOf base := by
  have hmem := List.mem_of_find?_eq_some h
  obtain ⟨hsub, hlen, htake⟩ := mem_zipIdx_basesOf (List.mem_of_mem_drop hmem)
  refine ⟨?_, htake⟩
  cases result with
  | resolves => exact absurd rfl hres
  | free =>
    have hall : FreeFrom reserved placements d.name [] loc := hsearch
    refine ⟨hsub, fun b _ hb => hall b (List.nil_suffix) hb, ?_⟩
    rw [nodeLookup_of_free (List.nil_suffix) hall, nodeLookup,
      hall [] (List.suffix_refl _) (List.nil_suffix)]
    simp
  | shadowed i =>
    obtain ⟨o, b, hblen, hbsub, hfree, hocc, hne⟩ := hsearch
    have hi : i + 1 ≤ index := le_index_of_mem_drop hmem
    refine ⟨hsub, fun c hc hc' => ?_, ?_⟩
    · -- everything from the chosen directory inwards is inside the shadow
      have hclen := List.IsSuffix.length_le hc
      have hbc : b <:+ c := List.suffix_of_suffix_length_le hbsub hc' (by omega)
      refine hfree c hbc hc' ?_
      rintro rfl
      omega
    · rw [nodeLookup_of_occupant hbsub hfree hocc]
      simpa using hne

/-! ### One iteration -/

section Steps

variable {sha256Hex : String → String} {reserved : OrdSet Location} {root : ManagedRoot}
  {kind : LinkKind} {children : Children} {names : OrdSet PackageName} {state state' : LayoutState}

/-- The edge is queued for the package at the location. -/
def PendingAt (state : LayoutState) (loc : Location) (d : NamedDependency) : Prop :=
  ∃ edge ∈ state.pending, edge.dependency = d ∧ edge.bases = basesOf loc

/-- The edge the next iteration places, with the directory it is placed in, if
one is. -/
def nextPlacement (reserved : OrdSet Location) (root : ManagedRoot) (state : LayoutState) :
    Option (NamedDependency × Location) :=
  match state.pending with
  | [] => none
  | edge :: _ =>
    match search reserved root state.placements edge.dependency edge.bases.zipIdx.reverse with
    | .error _ => none
    | .ok .resolves => none
    | .ok result =>
      (selectBase reserved state.placements edge.dependency.name edge.bases
        result.firstCandidate).map fun b => (edge.dependency, b.1)

/-- The next iteration puts a package where a name is looked up from a location,
with nothing of that name nearer. -/
def PutsFor (reserved : OrdSet Location) (root : ManagedRoot) (state : LayoutState) (loc : Location)
    (name : PackageName) (child : InstanceKey) : Prop :=
  ∃ base, nextPlacement reserved root state = some (⟨name, child⟩, base) ∧ base <:+ loc ∧
    FreeFrom reserved state.placements name base loc

/-- The next iteration puts another package where an edge that is not queued any
more is looked up. -/
def Shadows (reserved : OrdSet Location) (root : ManagedRoot) (state : LayoutState) (loc : Location)
    (d : NamedDependency) : Prop :=
  ¬ PendingAt state loc d ∧ ∃ child ≠ d.child, PutsFor reserved root state loc d.name child

/-- The next iteration puts the child of an edge where the edge is looked up. -/
def Restores (reserved : OrdSet Location) (root : ManagedRoot) (state : LayoutState) (loc : Location)
    (d : NamedDependency) : Prop :=
  PutsFor reserved root state loc d.name d.child

/-- The edge finds its child from the location. -/
def Resolves (reserved : OrdSet Location) (state : LayoutState) (loc : Location)
    (d : NamedDependency) : Prop :=
  nodeLookup reserved state.placements d.name loc = some (.package d.child)

/-- The edge is queued or finds its child. -/
def EdgeMet (reserved : OrdSet Location) (state : LayoutState) (loc : Location)
    (d : NamedDependency) : Prop :=
  PendingAt state loc d ∨ Resolves reserved state loc d

/-- The edge belongs to a package that stands at the location. -/
def EdgeAt (children : Children) (state : LayoutState) (loc : Location) (d : NamedDependency) :
    Prop :=
  ∃ X, state.placements.get? loc = some X ∧ d ∈ children.at X

instance FreeFrom.instDecidable (placements : OrdMap Location InstanceKey) (name : PackageName)
    (base loc : Location) : Decidable (FreeFrom reserved placements name base loc) :=
  decidable_of_iff (∀ b ∈ loc.tails, base <:+ b → occupant reserved placements (name :: b) = none)
    ⟨fun h b hb hbl => h b ((List.mem_tails b loc).mpr hbl) hb,
      fun h b hbl hb => h b hb ((List.mem_tails b loc).mp hbl)⟩

instance PendingAt.instDecidable (state : LayoutState) (loc : Location) (d : NamedDependency) :
    Decidable (PendingAt state loc d) :=
  inferInstanceAs (Decidable (∃ edge ∈ state.pending, edge.dependency = d ∧ edge.bases = basesOf loc))

instance Restores.instDecidable (state : LayoutState) (loc : Location) (d : NamedDependency) :
    Decidable (Restores reserved root state loc d) :=
  decidable_of_iff (∃ p ∈ (nextPlacement reserved root state).toList, p.1 = d ∧ p.2 <:+ loc ∧
      FreeFrom reserved state.placements d.name p.2 loc)
    ⟨fun ⟨(_, base), hp, hd, h⟩ => ⟨base, by rw [← hd]; exact Option.mem_toList.mp hp, h⟩,
      fun ⟨base, hp, h⟩ => ⟨(d, base), Option.mem_toList.mpr hp, rfl, h⟩⟩

instance Shadows.instDecidable (state : LayoutState) (loc : Location) (d : NamedDependency) :
    Decidable (Shadows reserved root state loc d) :=
  decidable_of_iff (¬ PendingAt state loc d ∧ ∃ p ∈ (nextPlacement reserved root state).toList,
      p.1.name = d.name ∧ p.1.child ≠ d.child ∧ p.2 <:+ loc ∧
        FreeFrom reserved state.placements d.name p.2 loc)
    ⟨fun ⟨hpend, (e, base), hp, hname, hne, h⟩ =>
        ⟨hpend, e.child, hne, base, by rw [← hname]; exact Option.mem_toList.mp hp, h⟩,
      fun ⟨hpend, child, hne, base, hp, h⟩ =>
        ⟨hpend, (⟨d.name, child⟩, base), Option.mem_toList.mpr hp, rfl, hne, h⟩⟩

/-- The edges of the packages placed so far. -/
def LayoutState.edges (children : Children) (state : LayoutState) : List (Location × NamedDependency) :=
  state.placements.entries.flatMap fun e => (children.at e.2).map fun d => (e.1, d)

/-- What holds of every state of a run. -/
structure Placed (sha256Hex : String → String) (reserved : OrdSet Location) (root : ManagedRoot)
    (kind : LinkKind) (children : Children) (state : LayoutState) : Prop where
  disjoint : ∀ t ∈ reserved, state.placements.get? t = none
  pending : ∀ edge ∈ state.pending, ∃ loc X, edge.bases = basesOf loc ∧
    state.placements.get? loc = some X ∧ edge.dependency ∈ children.at X
  activation : ∀ step, step ∈ state.activation ↔ ∃ T X, state.placements.get? T = some X ∧
    step = ⟨kind, storageTarget sha256Hex root X, Location.path root T⟩

/-- Effect of placing an edge in a directory. -/
structure PlacedAt (sha256Hex : String → String) (root : ManagedRoot) (kind : LinkKind)
    (children : Children) (state state' : LayoutState) (edge : PendingEdge)
    (rest : List PendingEdge) (base : Location) : Prop where
  placements : state'.placements =
    state.placements.insert (edge.dependency.name :: base) edge.dependency.child
  activation : state'.activation = state.activation ++
    [⟨kind, storageTarget sha256Hex root edge.dependency.child,
      Location.path root (edge.dependency.name :: base)⟩]
  /-- The dependencies are queued, or all of them resolve. -/
  pending : (∃ lineage, state'.pending = rest ++ (children.at edge.dependency.child).map fun d =>
      ⟨d, basesOf (edge.dependency.name :: base), lineage⟩) ∨
    state'.pending = rest ∧ ∀ d ∈ children.at edge.dependency.child,
      lookup state'.placements (basesOf (edge.dependency.name :: base)) d.name = some d.child

/-- **What an iteration does.** -/
theorem placeNext_ok (hP : Placed sha256Hex reserved root kind children state)
    (h : placeNext sha256Hex reserved root kind children names state = some (.ok state')) :
    ∃ edge rest loc, state.pending = edge :: rest ∧ edge.bases = basesOf loc ∧
      ((nextPlacement reserved root state = none ∧
        nodeLookup reserved state.placements edge.dependency.name loc =
          some (.package edge.dependency.child) ∧
        state'.placements = state.placements ∧ state'.pending = rest ∧
        state'.activation = state.activation) ∨
      ∃ base, nextPlacement reserved root state = some (edge.dependency, base) ∧
        ChosenBase reserved state.placements edge.dependency loc base ∧
        PlacedAt sha256Hex root kind children state state' edge rest base) := by
  rw [placeNext] at h
  split at h
  · simp at h
  · rename_i edge rest hpending
    obtain ⟨loc, X, hbases, _, _⟩ := hP.pending edge (by simp [hpending])
    refine ⟨edge, rest, loc, hpending, hbases, ?_⟩
    simp only at h
    rw [hbases] at h
    split at h
    · simp at h
    · -- the edge is met already, and nothing is placed
      rename_i hsearch
      obtain rfl := Except.ok.inj (Option.some_inj.mp h)
      left
      refine ⟨?_, search_spec hsearch, rfl, rfl, rfl⟩
      rw [nextPlacement, hpending]
      simp only [hbases, hsearch]
    · -- the package is placed at the first base that is free for it
      rename_i result hne hsearch
      right
      split at h
      · rename_i base index hsel
        have hres : result ≠ .resolves := fun heq => hne (by rw [heq])
        obtain ⟨hchosen, htake⟩ := chosenBase_of_selectBase (search_spec hsearch) hres hsel
        refine ⟨base, ?_, hchosen, ?_⟩
        · rw [nextPlacement, hpending]
          simp only [hbases, hsearch]
          cases result with
          | resolves => exact absurd rfl hres
          | free => rw [hsel]; rfl
          | shadowed i => rw [hsel]; rfl
        · have hnew : (basesOf loc).take (index + 1) ++ [edge.dependency.name :: base] =
              basesOf (edge.dependency.name :: base) := by
            rw [htake, basesOf_cons]
          have hplace := Option.some_inj.mp h
          simp only [placeAt, hbases, hnew] at hplace
          split_ifs at hplace with hseen hbad
          · obtain rfl := Except.ok.inj hplace
            refine ⟨rfl, rfl, Or.inr ⟨rfl, fun d hd => ?_⟩⟩
            by_contra hwrong
            exact hbad (List.any_eq_true.mpr ⟨d, hd, by simpa using hwrong⟩)
          · obtain rfl := Except.ok.inj hplace
            exact ⟨rfl, rfl, Or.inl ⟨_, rfl⟩⟩
      · simp at h

/-- An unoccupied target is neither reserved nor placed. -/
theorem of_occupant_eq_none {placements : OrdMap Location InstanceKey} {target : Location}
    (h : occupant reserved placements target = none) :
    target ∉ reserved ∧ placements.get? target = none := by
  rw [occupant] at h
  split_ifs at h with hres
  exact ⟨hres, by simpa using h⟩

/-- The chosen target is unoccupied. -/
theorem ChosenBase.target {placements : OrdMap Location InstanceKey} {d : NamedDependency}
    {loc base : Location} (h : ChosenBase reserved placements d loc base) :
    d.name :: base ∉ reserved ∧ placements.get? (d.name :: base) = none :=
  of_occupant_eq_none (h.free base (List.suffix_refl _) h.suffix)

/-- Old placements stay. -/
theorem get?_insert_of_placed {placements : OrdMap Location InstanceKey} {target T : Location}
    {X child : InstanceKey} (hfree : placements.get? target = none) (hT : placements.get? T = some X) :
    (placements.insert target child).get? T = some X := by
  rw [OrdMap.get?_insert_of_ne, hT]
  rintro rfl
  rw [hfree] at hT
  simp at hT

/-- Recording a placement at an unoccupied target. -/
theorem Placed.insert {target : Location} {child : InstanceKey}
    (h : Placed sha256Hex reserved root kind children state)
    (hres : target ∉ reserved) (hfree : state.placements.get? target = none)
    (hplacements : state'.placements = state.placements.insert target child)
    (hactivation : state'.activation = state.activation ++
      [⟨kind, storageTarget sha256Hex root child, Location.path root target⟩])
    (hpending : ∀ edge ∈ state'.pending, edge ∈ state.pending ∨
      edge.bases = basesOf target ∧ edge.dependency ∈ children.at child) :
    Placed sha256Hex reserved root kind children state' := by
  refine ⟨?_, ?_, ?_⟩
  · intro t ht
    have hne : t ≠ target := by
      rintro rfl
      exact hres ht
    rw [hplacements, OrdMap.get?_insert_of_ne _ _ hne]
    exact h.disjoint t ht
  · intro edge hedge
    rw [hplacements]
    rcases hpending edge hedge with hedge | ⟨hbases, hdep⟩
    · obtain ⟨loc, X, hbases, hX, hdep⟩ := h.pending edge hedge
      exact ⟨loc, X, hbases, get?_insert_of_placed hfree hX, hdep⟩
    · exact ⟨target, child, hbases, OrdMap.get?_insert_self _ _ _, hdep⟩
  · intro step
    rw [hactivation, List.mem_append, h.activation, List.mem_singleton, hplacements]
    constructor
    · rintro (⟨T, X, hX, rfl⟩ | rfl)
      · exact ⟨T, X, get?_insert_of_placed hfree hX, rfl⟩
      · exact ⟨target, child, OrdMap.get?_insert_self _ _ _, rfl⟩
    · rintro ⟨T, X, hX, rfl⟩
      rw [OrdMap.get?_insert] at hX
      split_ifs at hX with heq
      · rw [heq, ← Option.some_inj.mp hX]
        exact Or.inr rfl
      · exact Or.inl ⟨T, X, hX, rfl⟩

/-- Edges queued after a placement. -/
theorem PlacedAt.mem_pending {edge edge' : PendingEdge} {rest : List PendingEdge} {base : Location}
    (h : PlacedAt sha256Hex root kind children state state' edge rest base)
    (hedge : edge' ∈ state'.pending) : edge' ∈ rest ∨
      edge'.bases = basesOf (edge.dependency.name :: base) ∧
        edge'.dependency ∈ children.at edge.dependency.child := by
  rcases h.pending with ⟨lineage, hpending⟩ | ⟨hpending, _⟩
  · rw [hpending, List.mem_append, List.mem_map] at hedge
    rcases hedge with hedge | ⟨d, hd, rfl⟩
    · exact Or.inl hedge
    · exact Or.inr ⟨rfl, hd⟩
  · rw [hpending] at hedge
    exact Or.inl hedge

theorem PlacedAt.rest_subset {edge edge' : PendingEdge} {rest : List PendingEdge} {base : Location}
    (h : PlacedAt sha256Hex root kind children state state' edge rest base) (hedge : edge' ∈ rest) :
    edge' ∈ state'.pending := by
  rcases h.pending with ⟨lineage, hpending⟩ | ⟨hpending, _⟩
  · rw [hpending]
    exact List.mem_append_left _ hedge
  · rwa [hpending]

/-- **Every iteration keeps what holds of all states.** -/
theorem Placed.step (h : Placed sha256Hex reserved root kind children state)
    (hstep : placeNext sha256Hex reserved root kind children names state = some (.ok state')) :
    Placed sha256Hex reserved root kind children state' := by
  obtain ⟨edge, rest, loc, hpending, _, ⟨_, _, hp, hq, ha⟩ | ⟨base, _, hchosen, hplaced⟩⟩ :=
    placeNext_ok h hstep
  · refine ⟨by rw [hp]; exact h.disjoint, ?_, by rw [hp, ha]; exact h.activation⟩
    intro edge' hedge'
    rw [hq] at hedge'
    rw [hp]
    exact h.pending edge' (by rw [hpending]; exact List.mem_cons_of_mem _ hedge')
  · obtain ⟨hres, hfree⟩ := hchosen.target
    refine h.insert hres hfree hplaced.placements hplaced.activation fun edge' hedge' => ?_
    refine (hplaced.mem_pending hedge').imp_left fun hmem => ?_
    rw [hpending]
    exact List.mem_cons_of_mem _ hmem

/-- Old placements stay along an iteration. -/
theorem placements_step {T : Location} {X : InstanceKey}
    (h : Placed sha256Hex reserved root kind children state)
    (hstep : placeNext sha256Hex reserved root kind children names state = some (.ok state'))
    (hX : state.placements.get? T = some X) : state'.placements.get? T = some X := by
  obtain ⟨edge, rest, loc, _, _, ⟨_, _, hp, _⟩ | ⟨base, _, hchosen, hplaced⟩⟩ := placeNext_ok h hstep
  · rw [hp, hX]
  · rw [hplaced.placements]
    exact get?_insert_of_placed hchosen.target.2 hX

/-- Reserved links stand at the root only. -/
def ReservedAtRoot (reserved : OrdSet Location) : Prop := ∀ t ∈ reserved, ∃ n, t = [n]

/-- **What an iteration does to a lookup.**  It stays, or the package just placed
is what it finds. -/
theorem nodeLookup_step (hP : Placed sha256Hex reserved root kind children state)
    (hstep : placeNext sha256Hex reserved root kind children names state = some (.ok state'))
    (name : PackageName) (T : Location) :
    nodeLookup reserved state'.placements name T = nodeLookup reserved state.placements name T ∨
      ∃ child, PutsFor reserved root state T name child ∧
        nodeLookup reserved state'.placements name T = some (.package child) := by
  obtain ⟨edge, rest, loc, _, _, ⟨_, _, hp, _⟩ | ⟨base, hnext, hchosen, hplaced⟩⟩ := placeNext_ok hP hstep
  · rw [hp]
    exact Or.inl rfl
  · obtain ⟨hres, hfree⟩ := hchosen.target
    rw [hplaced.placements]
    by_cases hname : name = edge.dependency.name
    · subst hname
      by_cases hbetween : base <:+ T ∧ FreeFrom reserved state.placements edge.dependency.name base T
      · exact Or.inr ⟨edge.dependency.child, ⟨base, hnext, hbetween⟩,
          nodeLookup_insert_of_free hres hbetween.1 hbetween.2⟩
      · left
        by_cases hsub : base <:+ T
        · exact nodeLookup_insert_of_not_free hres
            (hchosen.free base (List.suffix_refl _) hchosen.suffix) fun hf => hbetween ⟨hsub, hf⟩
        · exact nodeLookup_insert_of_not_suffix hres hsub
    · exact Or.inl (nodeLookup_insert_of_ne hres hname)

/-- A package put where a name is looked up is what the next state finds there. -/
theorem PutsFor.found {T : Location} {name : PackageName} {child : InstanceKey}
    (h : PutsFor reserved root state T name child)
    (hP : Placed sha256Hex reserved root kind children state)
    (hstep : placeNext sha256Hex reserved root kind children names state = some (.ok state')) :
    nodeLookup reserved state'.placements name T = some (.package child) := by
  obtain ⟨base', hnext', hsub, hbetween⟩ := h
  obtain ⟨edge, rest, loc, _, _, ⟨hnone, _⟩ | ⟨base, hnext, hchosen, hplaced⟩⟩ := placeNext_ok hP hstep
  · rw [hnone] at hnext'
    cases hnext'
  · rw [hnext] at hnext'
    obtain ⟨hedge, rfl⟩ := Prod.mk.inj (Option.some_inj.mp hnext')
    rw [hplaced.placements, hedge]
    have hres := hchosen.target.1
    rw [hedge] at hres
    exact nodeLookup_insert_of_free hres hsub hbetween

/-- **What an iteration does to an edge.**  A queued edge stays queued or is met,
and one that finds its child keeps finding it unless the iteration shadows it. -/
theorem EdgeMet.step {T : Location} {d : NamedDependency} (h : EdgeMet reserved state T d)
    (hP : Placed sha256Hex reserved root kind children state)
    (hstep : placeNext sha256Hex reserved root kind children names state = some (.ok state')) :
    EdgeMet reserved state' T d ∨ Shadows reserved root state T d := by
  by_cases hpend : PendingAt state T d
  · left
    obtain ⟨edge, rest, loc, hpending, hbases, hcases⟩ := placeNext_ok hP hstep
    obtain ⟨edge', hedge', rfl, hT⟩ := hpend
    rw [hpending] at hedge'
    rcases List.mem_cons.mp hedge' with rfl | hedge'
    · -- the edge of this iteration
      rw [hbases] at hT
      obtain rfl := basesOf_injective hT
      rcases hcases with ⟨_, hlook, hp, _⟩ | ⟨base, _, hchosen, hplaced⟩
      · right
        rw [Resolves, hp]
        exact hlook
      · right
        rw [Resolves, hplaced.placements]
        exact nodeLookup_insert_of_free hchosen.target.1 hchosen.suffix hchosen.free
    · rcases hcases with ⟨_, _, _, hq, _⟩ | ⟨base, _, _, hplaced⟩
      · exact Or.inl ⟨edge', by rwa [hq], rfl, hT⟩
      · exact Or.inl ⟨edge', hplaced.rest_subset hedge', rfl, hT⟩
  · have hresolves := h.resolve_left hpend
    rcases nodeLookup_step hP hstep d.name T with hsame | ⟨child, hputs, hfound⟩
    · exact Or.inl (Or.inr (hsame.trans hresolves))
    · by_cases hchild : child = d.child
      · subst hchild
        exact Or.inl (Or.inr hfound)
      · exact Or.inr ⟨hpend, child, hchild, hputs⟩

theorem EdgeAt.step {T : Location} {d : NamedDependency} (h : EdgeAt children state T d)
    (hP : Placed sha256Hex reserved root kind children state)
    (hstep : placeNext sha256Hex reserved root kind children names state = some (.ok state')) :
    EdgeAt children state' T d := by
  obtain ⟨X, hX, hd⟩ := h
  exact ⟨X, placements_step hP hstep hX, hd⟩

end Steps

/-! ### Roots -/

section Roots

variable {sha256Hex : String → String} {reserved : OrdSet Location} {root : ManagedRoot}
  {kind : LinkKind} {children : Children} {byKey : OrdMap InstanceKey PackageInstance}

/-- Invariant of root placement: all edges are queued and the roots gone
through are placed. -/
structure RootsPlaced (sha256Hex : String → String) (reserved : OrdSet Location) (root : ManagedRoot)
    (kind : LinkKind) (children : Children) (all todo : List NamedDependency) (state : LayoutState) :
    Prop where
  placed : Placed sha256Hex reserved root kind children state
  queued : ∀ T X, state.placements.get? T = some X → ∀ d ∈ children.at X, PendingAt state T d
  roots : ∀ d ∈ all, d ∈ todo ∨ state.placements.get? [d.name] = some d.child

theorem RootsPlaced.step {all todo : List NamedDependency} {d : NamedDependency}
    {state state' : LayoutState}
    (h : RootsPlaced sha256Hex reserved root kind children all (d :: todo) state)
    (hstep : placeRoot sha256Hex reserved root kind children byKey state d = .ok state') :
    RootsPlaced sha256Hex reserved root kind children all todo state' := by
  simp only [placeRoot, bind_eq_ok, rejectIf_eq_ok] at hstep
  obtain ⟨_, _, _, hres, hstep⟩ := hstep
  split at hstep
  · rename_i existing hget
    simp only [bind_eq_ok, rejectIf_eq_ok, pure_eq_ok, not_not] at hstep
    obtain ⟨_, rfl, rfl⟩ := hstep
    refine ⟨h.placed, h.queued, fun d' hd' => ?_⟩
    rcases h.roots d' hd' with hmem | hdone
    · rcases List.mem_cons.mp hmem with rfl | hmem
      · exact Or.inr hget
      · exact Or.inl hmem
    · exact Or.inr hdone
  · rename_i hget
    obtain rfl := pure_eq_ok.mp hstep
    have hplacements : ∀ T X, state.placements.get? T = some X →
        (state.placements.insert [d.name] d.child).get? T = some X := fun T X hX =>
      get?_insert_of_placed hget hX
    refine ⟨h.placed.insert hres hget rfl rfl fun edge hedge => ?_, ?_, ?_⟩
    · rcases List.mem_append.mp hedge with hedge | hedge
      · exact Or.inl hedge
      · obtain ⟨d', hd', rfl⟩ := List.mem_map.mp hedge
        exact Or.inr ⟨rfl, hd'⟩
    · intro T X hX d' hd'
      change (state.placements.insert [d.name] d.child).get? T = some X at hX
      rw [OrdMap.get?_insert] at hX
      split_ifs at hX with hT
      · obtain rfl := Option.some_inj.mp hX
        subst hT
        exact ⟨⟨d', [[], [d.name]], []⟩,
          List.mem_append_right _ (List.mem_map.mpr ⟨d', hd', rfl⟩), rfl, rfl⟩
      · obtain ⟨edge, hedge, hdep, hbases⟩ := h.queued T X hX d' hd'
        exact ⟨edge, List.mem_append_left _ hedge, hdep, hbases⟩
    · intro d' hd'
      rcases h.roots d' hd' with hmem | hdone
      · rcases List.mem_cons.mp hmem with rfl | hmem
        · exact Or.inr (OrdMap.get?_insert_self _ _ _)
        · exact Or.inl hmem
      · exact Or.inr (hplacements _ _ hdone)

/-- Dependencies of an instance are its edges. -/
theorem mem_children {edges : List NamedDependencyEdge} {X : InstanceKey} {d : NamedDependency} :
    d ∈ (childrenOf edges).at X ↔ ⟨X, d⟩ ∈ edges := by
  have hvalues : d ∈ OrdMap.valuesAt (edges.map fun e => (e.parent, e.dependency)) X ↔ ⟨X, d⟩ ∈ edges := by
    rw [OrdMap.mem_valuesAt, List.mem_map]
    constructor
    · rintro ⟨e, he, heq⟩
      obtain ⟨rfl, rfl⟩ := Prod.mk.inj heq
      exact he
    · exact fun he => ⟨_, he, rfl⟩
  rw [← hvalues, Children.at, childrenOf, OrdMap.get?_mapVal, OrdMap.get?_group]
  split_ifs with hnil
  · simp [hnil]
  · rw [Option.map_some, Option.map_some, Option.getD_some, ← OrdSet.mem_def, OrdSet.mem_ofList]

/-- What the placement loop starts from. -/
structure Prepared (sha256Hex : String → String) (reserved : OrdSet Location) (root : ManagedRoot)
    (input : NamedLayoutInput) (prepared : PreparedLayout) : Prop where
  placed : Placed sha256Hex reserved root prepared.kind prepared.children prepared.start
  queued : ∀ T d, EdgeAt prepared.children prepared.start T d → PendingAt prepared.start T d
  roots : ∀ d ∈ input.rootDependencies, prepared.start.placements.get? [d.name] = some d.child
  children : ∀ X d, d ∈ prepared.children.at X ↔ ⟨X, d⟩ ∈ input.dependencyEdges

end Roots

/-! ### Whole runs -/

/-- The plan is the one made for the reserved links. -/
def Planned (sha256Hex : String → String) (root : ManagedRoot) (fuel : Nat) (input : NamedLayoutInput)
    (platform : Platform) (reserved : OrdSet Location) (plan : MaterializationPlan) : Prop :=
  (reserved = ∅ ∧ planNamedLayout sha256Hex root fuel input platform = some (.ok plan)) ∨
  ∃ links, links.foldlM (reserveLink root) ∅ = .ok reserved ∧
    planWorkspaceLayout sha256Hex root fuel input links platform = some (.ok plan)

theorem reservedAtRoot_of_links {root : ManagedRoot} {links : List WorkspaceLink}
    {reserved : OrdSet Location} (h : links.foldlM (reserveLink root) ∅ = .ok reserved) :
    ReservedAtRoot reserved := by
  refine Loop.foldlM_inv (I := fun _ s => ReservedAtRoot s) ?_ (by simp [ReservedAtRoot]) h
  intro link l s s' hs hs'
  simp only [reserveLink, bind_eq_ok, rejectIf_eq_ok, pure_eq_ok] at hs'
  obtain ⟨_, _, _, _, rfl⟩ := hs'
  intro t ht
  rcases OrdSet.mem_insert.mp ht with rfl | ht
  · exact ⟨_, rfl⟩
  · exact hs t ht

theorem planned_inner {sha256Hex : String → String} {root : ManagedRoot} {fuel : Nat}
    {input : NamedLayoutInput} {platform : Platform} {reserved : OrdSet Location}
    {plan : MaterializationPlan} (h : Planned sha256Hex root fuel input platform reserved plan) :
    ReservedAtRoot reserved ∧
      planNamedLayoutInner sha256Hex root fuel input platform reserved = some (.ok plan) := by
  rcases h with ⟨rfl, h⟩ | ⟨links, hlinks, h⟩
  · exact ⟨by simp [ReservedAtRoot], h⟩
  · rw [planWorkspaceLayout, hlinks] at h
    exact ⟨reservedAtRoot_of_links hlinks, h⟩

section Runs

variable {sha256Hex : String → String} {root : ManagedRoot} {reserved : OrdSet Location}
  {input : NamedLayoutInput} {prepared : PreparedLayout}

theorem pending_of_placementStep {s : LayoutState}
    (h : placementStep sha256Hex root reserved prepared s = none) : s.pending = [] := by
  rw [placementStep, placeNext] at h
  split at h
  · assumption
  · simp only at h
    split at h
    · simp at h
    · simp at h
    · split at h <;> simp at h

/-- Every iteration that shadows an edge of a placed package is followed by one
that restores it. -/
def Restored (sha256Hex : String → String) (root : ManagedRoot) (reserved : OrdSet Location)
    (prepared : PreparedLayout) : Prop :=
  ∀ s, Loop.Reaches (placementStep sha256Hex root reserved prepared) prepared.start s →
    ∀ T d, EdgeAt prepared.children s T d → Shadows reserved root s T d →
      ∃ t, Loop.Reaches (placementStep sha256Hex root reserved prepared) s t ∧
        Restores reserved root t T d

end Runs

/-! ### A layout that is not sound -/

section Samples

def layoutRoot : ManagedRoot := ⟨["srv", "project"], by decide⟩

/-- SHA-256 of the one registry of the samples. -/
def layoutSha : String → String := fun _ =>
  "34ac76e6617d399489015e216096a1e0ceb33095378aea59bfacc2c526e294ff"

def layoutRegistry : PackageSource := ⟨"https://r.io", some ⟨"https://r.io"⟩⟩

def layoutName (c : Char) (h : PackageName.isValid [c] = true) : PackageName :=
  ⟨String.ofList [c], by rw [String.toList_ofList]; exact h⟩

def nameP : PackageName := layoutName 'p' (by decide)

/-- An instance without contexts. -/
def plainInstance (name : PackageName) (major : U64) : InstanceKey :=
  ⟨⟨layoutRegistry, name, .stable major 0 0⟩, ∅, ⟨none, none, none⟩⟩

/-- Edges with one child for every parent and name. -/
def OneEdgePerName (edges : List NamedDependencyEdge) : Prop :=
  ∀ e ∈ edges, ∀ e' ∈ edges, e.parent = e'.parent → e.dependency.name = e'.dependency.name → e = e'

instance OneEdgePerName.instDecidable (edges : List NamedDependencyEdge) :
    Decidable (OneEdgePerName edges) :=
  inferInstanceAs (Decidable (∀ e ∈ edges, ∀ e' ∈ edges, _ → _ → _))

end Samples

end Tapid
