/-
Trees of files with symbolic links.

A tree is what is found under absolute names.  A path is walked part by part; a
link sends the walk to its target, and a walk follows a bounded number of
links.  A walk ends at a name that is there; a path that ends below it is not
found only if nothing is there.

* `Tree` — entries, closed under parents;
* `resolve` — walking a path;
* `resolve_found` — what a walk leads to is there;
* `resolve_append_name` — one more name is looked up where the walk has led;
* `resolve_names` — names without links lead to themselves.
-/
import Tapid.Fallible

namespace SymlinkTree

variable {Name : Type}

inductive Part (Name : Type) where
  | current
  | parent
  | name (name : Name)
  deriving DecidableEq

inductive Entry (Name : Type) where
  | file
  | directory
  | other
  | link (absolute : Bool) (target : List (Part Name))
  deriving DecidableEq

structure Tree (Name : Type) where
  entry : List Name → Option (Entry Name)
  /-- Why nothing may be looked up in a directory. -/
  refuses : List Name → Option String
  /-- Links that are followed on one walk. -/
  maxLinks : Nat
  root : entry [] = some .directory
  closed : ∀ path name, (entry (path ++ [name])).isSome → entry path = some .directory

inductive PathError where
  | notFound
  | notDirectory
  | loop
  | refused (text : String)
  deriving DecidableEq

namespace Tree

variable [DecidableEq Name] (tree : Tree Name)

/-- What is found under a name in a directory. -/
def lookup (dir : List Name) (name : Name) : Except PathError (Entry Name) :=
  if tree.entry dir = some .directory then
    match tree.refuses dir with
    | some text => .error (.refused text)
    | none =>
      match tree.entry (dir ++ [name]) with
      | some entry => .ok entry
      | none => .error .notFound
  else .error .notDirectory

/-- A walk up to the first link that is followed. -/
def walk (again : List Name → List (Part Name) → Except PathError (List Name)) (follow : Bool) :
    List Name → List (Part Name) → Except PathError (List Name)
  | dir, [] => .ok dir
  | dir, .current :: rest =>
    if tree.entry dir = some .directory then walk again follow dir rest else .error .notDirectory
  | dir, .parent :: rest =>
    if tree.entry dir = some .directory then
      match tree.refuses dir with
      | some text => .error (.refused text)
      | none => walk again follow dir.dropLast rest
    else .error .notDirectory
  | dir, .name name :: rest =>
    match tree.lookup dir name with
    | .error e => .error e
    | .ok (.link absolute target) =>
      if rest = [] ∧ follow = false then .ok (dir ++ [name])
      else again (if absolute then [] else dir) (target ++ rest)
    | .ok _ => walk again follow (dir ++ [name]) rest

/-- A path from a directory; a link at its end is followed or not. -/
def resolve (follow : Bool) : Nat → List Name → List (Part Name) → Except PathError (List Name)
  | 0 => tree.walk (fun _ _ => .error .loop) follow
  | n + 1 => tree.walk (resolve follow n) follow

variable {tree} {follow : Bool} {again : List Name → List (Part Name) → Except PathError (List Name)}

omit [DecidableEq Name] in
theorem isSome_of_append {path : List Name} (below : List Name) (h : (tree.entry (path ++ below)).isSome) :
    (tree.entry path).isSome := by
  induction below using List.reverseRecOn with
  | nil => rwa [List.append_nil] at h
  | append_singleton below name ih =>
    rw [← List.append_assoc] at h
    have hdirectory := tree.closed _ _ h
    exact ih (by rw [hdirectory]; rfl)

omit [DecidableEq Name] in
/-- What has something below it is a directory. -/
theorem directory_of_append {path below : List Name} (hne : below ≠ [])
    (h : (tree.entry (path ++ below)).isSome) : tree.entry path = some .directory := by
  obtain ⟨name, below, rfl⟩ := List.exists_cons_of_ne_nil hne
  rw [List.append_cons] at h
  exact tree.closed _ _ (isSome_of_append below h)

/-- Entries that are no links. -/
def Found (tree : Tree Name) (path : List Name) : Prop :=
  ∃ entry, tree.entry path = some entry ∧ ∀ absolute target, entry ≠ .link absolute target

omit [DecidableEq Name] in
theorem found_of_directory {path : List Name} (h : tree.entry path = some .directory) : tree.Found path :=
  ⟨_, h, fun _ _ => by simp⟩

omit [DecidableEq Name] in
theorem found_root : tree.Found [] := found_of_directory tree.root

omit [DecidableEq Name] in
theorem Found.isSome {path : List Name} (h : tree.Found path) : (tree.entry path).isSome := by
  obtain ⟨entry, hentry, _⟩ := h
  rw [hentry]
  rfl

omit [DecidableEq Name] in
theorem Found.dropLast {path : List Name} (h : tree.Found path) : tree.Found path.dropLast := by
  rcases List.eq_nil_or_concat path with rfl | ⟨above, name, rfl⟩
  · exact h
  · rw [List.concat_eq_append] at h ⊢
    rw [List.dropLast_concat]
    exact found_of_directory (tree.closed _ _ h.isSome)

theorem lookup_eq_ok {dir : List Name} {name : Name} {entry : Entry Name} (h : tree.lookup dir name = .ok entry) :
    tree.entry dir = some .directory ∧ tree.entry (dir ++ [name]) = some entry := by
  unfold lookup at h
  split_ifs at h with hdir
  cases hrefuses : tree.refuses dir with
  | some text =>
    rw [hrefuses] at h
    cases h
  | none =>
    rw [hrefuses] at h
    cases hentry : tree.entry (dir ++ [name]) with
    | none =>
      rw [hentry] at h
      cases h
    | some found =>
      rw [hentry] at h
      cases h
      exact ⟨hdir, rfl⟩

theorem lookup_notFound {dir : List Name} {name : Name} (h : tree.lookup dir name = .error .notFound) :
    tree.entry (dir ++ [name]) = none := by
  unfold lookup at h
  split_ifs at h
  · cases hrefuses : tree.refuses dir with
    | some text =>
      rw [hrefuses] at h
      cases h
    | none =>
      rw [hrefuses] at h
      cases hentry : tree.entry (dir ++ [name]) with
      | none => rfl
      | some found =>
        rw [hentry] at h
        cases h
  · cases h

/-- What has an entry is found, unless looking it up is refused. -/
theorem lookup_of_isSome {dir : List Name} {name : Name} {entry : Entry Name}
    (h : tree.entry (dir ++ [name]) = some entry) :
    tree.lookup dir name = .ok entry ∨ ∃ text, tree.lookup dir name = .error (.refused text) := by
  have hdir := tree.closed dir name (by rw [h]; rfl)
  unfold lookup
  rw [if_pos hdir]
  cases tree.refuses dir with
  | some text => exact .inr ⟨text, rfl⟩
  | none =>
    left
    rw [h]

/-! ### Where a walk leads -/

theorem walk_found (hagain : ∀ dir parts path, tree.Found dir → again dir parts = .ok path → tree.Found path)
    {dir : List Name} {parts : List (Part Name)} {path : List Name} (hdir : tree.Found dir)
    (h : tree.walk again true dir parts = .ok path) : tree.Found path := by
  induction parts generalizing dir with
  | nil =>
    rw [walk] at h
    cases h
    exact hdir
  | cons part rest ih =>
    cases part with
    | current =>
      rw [walk] at h
      split_ifs at h
      exact ih hdir h
    | parent =>
      rw [walk] at h
      split_ifs at h
      cases hrefuses : tree.refuses dir with
      | some text =>
        rw [hrefuses] at h
        cases h
      | none =>
        rw [hrefuses] at h
        exact ih hdir.dropLast h
    | name name =>
      rw [walk] at h
      cases hlookup : tree.lookup dir name with
      | error e =>
        rw [hlookup] at h
        cases h
      | ok entry =>
        rw [hlookup] at h
        obtain ⟨hdirectory, hentry⟩ := lookup_eq_ok hlookup
        cases entry with
        | file => exact ih ⟨_, hentry, fun _ _ => by simp⟩ h
        | directory => exact ih ⟨_, hentry, fun _ _ => by simp⟩ h
        | other => exact ih ⟨_, hentry, fun _ _ => by simp⟩ h
        | link absolute target =>
          have hstart : tree.Found (if absolute then [] else dir) := by
            cases absolute with
            | false => exact hdir
            | true => exact found_root
          have hfollow : ¬ (rest = [] ∧ true = false) := fun hboth => by cases hboth.2
          simp only [if_neg hfollow] at h
          exact hagain _ _ _ hstart h

/-- **What a walk leads to is there**, and is no link. -/
theorem resolve_found {n : Nat} {dir : List Name} {parts : List (Part Name)} {path : List Name}
    (hdir : tree.Found dir) (h : tree.resolve true n dir parts = .ok path) : tree.Found path := by
  induction n generalizing dir parts path with
  | zero => exact walk_found (fun _ _ _ _ hloop => by cases hloop) hdir h
  | succ n ih => exact walk_found (fun _ _ _ hd hr => ih hd hr) hdir h

theorem walk_append_name {again' : List Name → List (Part Name) → Except PathError (List Name)} {n : Nat}
    {last : Name} (hhere : tree.walk again' false = tree.resolve false n)
    (hagain : ∀ dir parts path, again dir parts = .ok path →
      ∃ m, again' dir (parts ++ [.name last]) = tree.resolve false m path [.name last])
    {dir : List Name} {parts : List (Part Name)} {path : List Name}
    (h : tree.walk again true dir parts = .ok path) :
    ∃ m, tree.walk again' false dir (parts ++ [.name last]) = tree.resolve false m path [.name last] := by
  induction parts generalizing dir with
  | nil =>
    rw [walk] at h
    cases h
    exact ⟨n, by rw [hhere]; rfl⟩
  | cons part rest ih =>
    cases part with
    | current =>
      rw [walk] at h
      rw [List.cons_append, walk]
      split_ifs at h ⊢
      exact ih h
    | parent =>
      rw [walk] at h
      rw [List.cons_append, walk]
      split_ifs at h ⊢
      cases hrefuses : tree.refuses dir with
      | some text =>
        rw [hrefuses] at h
        cases h
      | none =>
        rw [hrefuses] at h
        exact ih h
    | name name =>
      rw [walk] at h
      rw [List.cons_append, walk]
      cases hlookup : tree.lookup dir name with
      | error e =>
        rw [hlookup] at h
        cases h
      | ok entry =>
        rw [hlookup] at h
        cases entry with
        | file => exact ih h
        | directory => exact ih h
        | other => exact ih h
        | link absolute target =>
          -- the link is not the last part here, and is followed there
          have hfollow : ¬ (rest = [] ∧ true = false) := fun hboth => by cases hboth.2
          have hmore : ¬ (rest ++ [Part.name last] = [] ∧ false = false) :=
            fun hboth => List.append_ne_nil_of_right_ne_nil rest (List.cons_ne_nil _ _) hboth.1
          simp only [if_neg hfollow] at h
          show ∃ m, (if rest ++ [Part.name last] = [] ∧ false = false then _
            else again' _ (target ++ (rest ++ [Part.name last]))) = _
          rw [if_neg hmore, ← List.append_assoc]
          exact hagain _ _ _ h

/-- **One more name** is looked up where the path before it leads. -/
theorem resolve_append_name {n : Nat} {dir : List Name} {parts : List (Part Name)} {path : List Name}
    (last : Name) (h : tree.resolve true n dir parts = .ok path) :
    ∃ m, tree.resolve false n dir (parts ++ [.name last]) = tree.resolve false m path [.name last] := by
  induction n generalizing dir parts path with
  | zero => exact @walk_append_name _ _ tree _ _ 0 last rfl (fun _ _ _ hloop => by cases hloop) _ _ _ h
  | succ n ih => exact @walk_append_name _ _ tree _ _ (n + 1) last rfl (fun _ _ _ hr => ih hr) _ _ _ h

/-- A name that is not found below a path is not there. -/
theorem entry_eq_none_of_notFound {n : Nat} {dir : List Name} {parts : List (Part Name)} {path : List Name}
    {last : Name} (h : tree.resolve true n dir parts = .ok path)
    (hlast : tree.resolve false n dir (parts ++ [.name last]) = .error .notFound) :
    tree.entry (path ++ [last]) = none := by
  obtain ⟨m, hm⟩ := resolve_append_name last h
  rw [hm] at hlast
  have hwalk : ∃ again, tree.walk again false path [.name last] = .error .notFound := by
    cases m with
    | zero => exact ⟨_, hlast⟩
    | succ m => exact ⟨_, hlast⟩
  obtain ⟨again, hwalk⟩ := hwalk
  rw [walk] at hwalk
  cases hlookup : tree.lookup path last with
  | error e =>
    rw [hlookup] at hwalk
    cases hwalk
    exact lookup_notFound hlookup
  | ok entry =>
    rw [hlookup] at hwalk
    cases entry with
    | file => cases hwalk
    | directory => cases hwalk
    | other => cases hwalk
    | link absolute target =>
      simp at hwalk

theorem walk_names {names dir : List Name} (rest : List (Part Name)) (hfound : tree.Found (dir ++ names)) :
    tree.walk again follow dir (names.map .name ++ rest) = tree.walk again follow (dir ++ names) rest ∨
      ∃ text, tree.walk again follow dir (names.map .name ++ rest) = .error (.refused text) := by
  induction names generalizing dir with
  | nil =>
    left
    rw [List.append_nil]
    rfl
  | cons name names ih =>
    rw [List.append_cons] at hfound
    obtain ⟨entry, hentry⟩ := Option.isSome_iff_exists.mp (isSome_of_append names hfound.isSome)
    rw [List.map_cons, List.cons_append, walk]
    rcases lookup_of_isSome hentry with hlookup | ⟨text, hlookup⟩
    · have hrest := ih hfound
      rw [hlookup, List.append_cons dir name names]
      cases entry with
      | file => exact hrest
      | directory => exact hrest
      | other => exact hrest
      | link absolute target =>
        exfalso
        by_cases hne : names = []
        · subst hne
          rw [List.append_nil] at hfound
          obtain ⟨entry, hentry', hlink⟩ := hfound
          rw [hentry] at hentry'
          cases hentry'
          exact hlink absolute target rfl
        · rw [directory_of_append hne hfound.isSome] at hentry
          cases hentry
    · right
      rw [hlookup]
      exact ⟨text, rfl⟩

/-- **Names without links** lead to themselves, unless looking them up is
refused. -/
theorem resolve_names {n : Nat} {names : List Name} (rest : List (Part Name)) (hfound : tree.Found names) :
    tree.resolve follow n [] (names.map .name ++ rest) = tree.resolve follow n names rest ∨
      ∃ text, tree.resolve follow n [] (names.map .name ++ rest) = .error (.refused text) := by
  cases n with
  | zero => exact walk_names rest hfound
  | succ n => exact walk_names rest hfound

/-- A current directory is there, or is no directory. -/
theorem resolve_current {n : Nat} {dir : List Name} : tree.resolve follow n dir [.current] ≠ .error .notFound := by
  have hwalk : ∀ again, tree.walk again follow dir [.current] ≠ .error .notFound := by
    intro again h
    rw [walk] at h
    split_ifs at h
    · cases h
    · cases h
  cases n with
  | zero => exact hwalk _
  | succ n => exact hwalk _

end Tree

end SymlinkTree
