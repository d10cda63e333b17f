/-
Bounded workspace discovery.

Both budgets are drawn on one after the other: `expandOnBudgets` takes every
candidate from a budget of its own, and the code's subtractions compute exactly
what remains of it.  Hence they never go below zero, a larger budget gives the
same result, and the order of listings and patterns only reorders what is
found before it is sorted.

* `discoverBounded_eq` — discovery on two budgets;
* `discoverOnBudgets_add` — larger budgets;
* `Reordered` — other listings, other orders of patterns;
* `discoverBounded_agrees` — the result does not depend on any of these.
-/
import Mathlib.Algebra.Order.Monoid.Prod
import Mathlib.Algebra.Order.Sub.Prod
import Tapid.JsonText
import Tapid.WorkspaceDiscovery

namespace Tapid

open Fallible
open Metered (Lawful Simulates Pushes collect)

/-! ### Two budgets -/

section Budgets

variable (codec : JsonCodec) (tree : DirectoryTree)

/-- A charged probe for the manifest of a directory. -/
def chargedProbe (path : OsPath) : Expansion Bool := do
  expansionStep
  Metered.lift (probeManifest tree (path ++ [OsName.packageJson]))

def takeManifest (path : OsPath) : Metered (ℕ × ℕ) WorkspaceError (List OsPath) :=
  Metered.second (chargedProbe tree path) >>= fun present =>
    if present then
      Metered.spend .discoveryLimitExceeded (1, 0) >>= fun _ => pure [path ++ [OsName.packageJson]]
    else pure []

/-- A pattern, its candidates taken from the first budget. -/
def expandOnBudgets (root : CanonicalPath) (pattern : String) :
    Metered (ℕ × ℕ) WorkspaceError (List OsPath) :=
  Metered.second (patternDirectories tree root pattern) >>= fun paths =>
    collect (takeManifest tree) paths >>= fun manifests => pure (sortPaths manifests)

/-- Discovery as it is without the limit on candidates in the loops. -/
def discoverOnBudgets (projectDir : OsPath) (budgets : ℕ × ℕ) : Except WorkspaceError Workspace := do
  let root ← readRoot codec tree projectDir
  let patterns ← (workspacePatterns (root.root.extra.get? "workspaces")).mapError discoveryError
  let paths ← (collect (expandOnBudgets tree root.projectDir) patterns budgets).map Prod.fst
  readMembers codec tree root paths

variable {codec tree}

theorem expansionStep_eq_spend : expansionStep = Metered.spend .discoveryLimitExceeded 1 := by
  funext remaining
  cases remaining with
  | zero => rfl
  | succ n =>
    rw [Metered.spend, if_pos (Nat.le_add_left 1 n)]
    rfl

theorem pushManifest_eq (maxCandidates : ℕ) (manifests : List OsPath) (path : OsPath) :
    pushManifest tree maxCandidates manifests path = (chargedProbe tree path >>= fun present =>
      if present then
        if manifests.length = maxCandidates then Metered.fail .discoveryLimitExceeded
        else pure (manifests ++ [path ++ [OsName.packageJson]])
      else pure manifests) := by
  rw [pushManifest, chargedProbe, bind_assoc]

theorem pushes_pushManifest {maxCandidates room : ℕ} {pushed : List OsPath} (path : OsPath) (steps : ℕ)
    (h : pushed.length + room = maxCandidates) :
    Pushes pushed room (pushManifest tree maxCandidates pushed path steps)
      (takeManifest tree path (room, steps)) := by
  rw [pushManifest_eq, takeManifest]
  refine Pushes.second_bind fun present steps' => ?_
  cases present with
  | false => exact Pushes.none
  | true => exact Pushes.one WorkspaceError.discoveryLimitExceeded (path ++ [OsName.packageJson]) h

/-- What the limit on a pattern's candidates leaves is what remains of the
budget. -/
theorem pushes_expandPatternBounded (root : CanonicalPath) (pattern : String) (room steps : ℕ) :
    Pushes [] room (expandPatternBounded tree root pattern room steps)
      (expandOnBudgets tree root pattern (room, steps)) := by
  rw [expandPatternBounded, expandOnBudgets]
  refine Pushes.second_bind fun paths steps' => ?_
  have hloop : Pushes [] room (paths.foldlM (pushManifest tree room) [] steps')
      (collect (takeManifest tree) paths (room, steps')) :=
    Pushes.foldlM (fun path pushed room steps h => pushes_pushManifest path steps h) paths (Nat.zero_add room)
  refine hloop.bind fun more room' steps'' hroom => ?_
  refine Pushes.pushed (sortPaths more) room' steps'' ?_
  rw [sortPaths, List.length_insertionSort]
  exact hroom

theorem pushes_extendPaths {root : CanonicalPath} {maxCandidates room : ℕ} {pushed : List OsPath}
    (pattern : String) (steps : ℕ) (h : pushed.length + room = maxCandidates) :
    Pushes pushed room (extendPaths tree root maxCandidates pushed pattern steps)
      (Metered.mapFailure .refused (expandOnBudgets tree root pattern) (room, steps)) := by
  -- the subtraction computes what remains of the budget
  have hroom : checkedRoom maxCandidates pushed.length = .ok room := by
    rw [checkedRoom, if_pos (by omega)]
    exact congrArg Except.ok (by omega)
  have hpattern : Pushes [] room ((expandPatternBounded tree root pattern room steps).mapError DiscoveryFailure.refused)
      ((expandOnBudgets tree root pattern (room, steps)).mapError DiscoveryFailure.refused) :=
    (pushes_expandPatternBounded root pattern room steps).mapFailure DiscoveryFailure.refused
  rw [extendPaths, hroom]
  show Pushes pushed room
    ((expandPatternBounded tree root pattern room steps).mapError DiscoveryFailure.refused >>= _) _
  rw [Metered.mapFailure]
  generalize (expandPatternBounded tree root pattern room steps).mapError DiscoveryFailure.refused = r
    at hpattern ⊢
  generalize (expandOnBudgets tree root pattern (room, steps)).mapError DiscoveryFailure.refused = r'
    at hpattern ⊢
  cases hpattern with
  | failed e => exact .failed e
  | pushed more room' steps' hroom' => exact .pushed more room' steps' hroom'

/-- The expansion of all patterns takes its candidates from one budget. -/
theorem discoverPaths_eq (root : CanonicalPath) (patterns : List String) (maxCandidates maxExpansionSteps : ℕ) :
    discoverPaths tree root patterns maxCandidates maxExpansionSteps =
      ((collect (expandOnBudgets tree root) patterns (maxCandidates, maxExpansionSteps)).map
        Prod.fst).mapError .refused := by
  have hloop : Pushes [] maxCandidates
      (patterns.foldlM (extendPaths tree root maxCandidates) [] maxExpansionSteps)
      (collect (fun pattern => Metered.mapFailure .refused (expandOnBudgets tree root pattern)) patterns
        (maxCandidates, maxExpansionSteps)) :=
    Pushes.foldlM (fun pattern pushed room steps h => pushes_extendPaths pattern steps h) patterns
      (Nat.zero_add maxCandidates)
  rw [Metered.collect_mapFailure] at hloop
  rw [discoverPaths]
  generalize patterns.foldlM (extendPaths tree root maxCandidates) [] maxExpansionSteps = r at hloop ⊢
  generalize collect (expandOnBudgets tree root) patterns (maxCandidates, maxExpansionSteps) = r' at hloop ⊢
  cases r' with
  | error e =>
    cases hloop
    rfl
  | ok r' =>
    obtain ⟨more, room', steps'⟩ := r'
    cases hloop
    rfl

/-- **Discovery on two budgets**: no subtraction goes below zero. -/
theorem discoverBounded_eq (projectDir : OsPath) (maxCandidates maxExpansionSteps : ℕ) :
    discoverBounded codec tree projectDir maxCandidates maxExpansionSteps =
      (discoverOnBudgets codec tree projectDir (maxCandidates, maxExpansionSteps)).mapError .refused := by
  rw [discoverBounded, discoverOnBudgets]
  cases readRoot codec tree projectDir with
  | error e => rfl
  | ok root =>
    rw [ok_bind]
    show (((workspacePatterns _).mapError _) >>= _ : Except DiscoveryFailure Workspace) = _
    cases workspacePatterns (root.root.extra.get? "workspaces") with
    | error message => rfl
    | ok patterns =>
      show (discoverPaths tree root.projectDir patterns maxCandidates maxExpansionSteps >>= _
        : Except DiscoveryFailure Workspace) =
          ((collect _ patterns (maxCandidates, maxExpansionSteps)).map Prod.fst >>= fun paths =>
            readMembers codec tree root paths : Except WorkspaceError Workspace).mapError _
      rw [discoverPaths_eq]
      generalize (collect _ _ _).map Prod.fst = r
      cases r with
      | error e => rfl
      | ok paths => rfl

/-! ### Larger budgets -/

theorem lawful_expansionStep : Lawful .discoveryLimitExceeded expansionStep := by
  rw [expansionStep_eq_spend]
  exact Lawful.spend 1

theorem lawful_expandEntry (root dir : CanonicalPath) (entry : Except OsError ListedEntry) :
    Lawful .discoveryLimitExceeded (expandEntry tree root dir entry) := by
  refine lawful_expansionStep.bind fun _ => (Lawful.lift _).bind fun entry => ?_
  refine (Lawful.lift _).bind fun fileType => ?_
  have htake : ∀ x : Except WorkspaceError CanonicalPath, Lawful .discoveryLimitExceeded
      (Metered.lift x >>= fun contained => pure [contained.names] : Expansion (List OsPath)) :=
    fun x => (Lawful.lift x).bind fun contained => Lawful.pure _
  cases fileType with
  | file => exact Lawful.pure _
  | directory => exact htake _
  | symlink =>
    refine (Lawful.lift _).bind fun target => ?_
    cases target with
    | file => exact Lawful.pure _
    | directory => exact htake _
    | symlink => exact Lawful.fail _
    | other => exact Lawful.fail _
  | other => exact Lawful.pure _

theorem lawful_expandDirectory (root : CanonicalPath) (path : OsPath) :
    Lawful .discoveryLimitExceeded (expandDirectory tree root path) :=
  (Lawful.lift _).bind fun dir => (Lawful.lift _).bind fun entries =>
    Lawful.collect (lawful_expandEntry root dir) entries

theorem lawful_pushName (name : OsName) (path : OsPath) :
    Lawful .discoveryLimitExceeded (pushName name path) :=
  lawful_expansionStep.bind fun _ => Lawful.pure _

theorem lawful_expandComponent (root : CanonicalPath) (paths : List OsPath) (component : LexicalPath.Component) :
    Lawful .discoveryLimitExceeded (expandComponent tree root paths component) := by
  refine lawful_expansionStep.bind fun _ => ?_
  split_ifs
  · exact Lawful.collect (lawful_expandDirectory root) paths
  · exact Lawful.collect (lawful_pushName _) paths

theorem lawful_patternDirectories (root : CanonicalPath) (pattern : String) :
    Lawful .discoveryLimitExceeded (patternDirectories tree root pattern) :=
  lawful_expansionStep.bind fun _ => (Lawful.lift _).bind fun _ => (Lawful.lift _).bind fun _ =>
    Lawful.foldlM (lawful_expandComponent root) _ _

theorem lawful_takeManifest (path : OsPath) : Lawful .discoveryLimitExceeded (takeManifest tree path) := by
  have hprobe : Lawful .discoveryLimitExceeded (chargedProbe tree path) :=
    lawful_expansionStep.bind fun _ => Lawful.lift _
  refine hprobe.second.bind fun present => ?_
  cases present with
  | false => exact Lawful.pure _
  | true => exact (Lawful.spend (1, 0)).bind fun _ => Lawful.pure _

theorem lawful_expandOnBudgets (root : CanonicalPath) (pattern : String) :
    Lawful .discoveryLimitExceeded (expandOnBudgets tree root pattern) :=
  (lawful_patternDirectories root pattern).second.bind fun paths =>
    (Lawful.collect lawful_takeManifest paths).bind fun _ => Lawful.pure _

/-- **Larger budgets** give the same result, unless a budget was exhausted. -/
theorem discoverOnBudgets_add (projectDir : OsPath) (b d : ℕ × ℕ) :
    discoverOnBudgets codec tree projectDir b = .error .discoveryLimitExceeded ∨
      discoverOnBudgets codec tree projectDir b = discoverOnBudgets codec tree projectDir (b + d) := by
  rw [discoverOnBudgets, discoverOnBudgets]
  cases readRoot codec tree projectDir with
  | error e => exact .inr rfl
  | ok root =>
    rw [ok_bind, ok_bind]
    cases workspacePatterns (root.root.extra.get? "workspaces") with
    | error message => exact .inr rfl
    | ok patterns =>
      have hlawful : Lawful .discoveryLimitExceeded (collect (expandOnBudgets tree root.projectDir) patterns) :=
        Lawful.collect (lawful_expandOnBudgets root.projectDir) patterns
      have hrun := hlawful.run_add b d
      show (((collect _ _ b).map Prod.fst >>= _) : Except WorkspaceError Workspace) = _ ∨
        (((collect _ _ b).map Prod.fst >>= _) : Except WorkspaceError Workspace) =
          (((collect _ _ (b + d)).map Prod.fst >>= _) : Except WorkspaceError Workspace)
      rcases hrun with hspent | hsame
      · left
        rw [hspent]
        rfl
      · right
        rw [hsame]

end Budgets

/-! ### Other orders -/

/-- The same listing in another order. -/
inductive SameListing : Except OsError (List (Except OsError ListedEntry)) →
    Except OsError (List (Except OsError ListedEntry)) → Prop
  | failed (error : OsError) : SameListing (.error error) (.error error)
  | listed {entries entries' : List (Except OsError ListedEntry)} (h : entries.Perm entries') :
      SameListing (.ok entries) (.ok entries')

/-- The same tree, its directories listed in other orders. -/
structure Relisted (tree tree' : DirectoryTree) : Prop where
  canonicalize : tree'.canonicalize = tree.canonicalize
  isDir : tree'.isDir = tree.isDir
  symlinkMetadata : tree'.symlinkMetadata = tree.symlinkMetadata
  metadata : tree'.metadata = tree.metadata
  readDir : ∀ path, SameListing (tree.readDir path) (tree'.readDir path)

/-- The same project: its directories are listed, and the patterns in its root
manifest written, in other orders. -/
structure Reordered (codec : JsonCodec) (tree tree' : DirectoryTree) (projectDir : OsPath) : Prop
    extends Relisted tree tree' where
  openFile : ∀ root, readRoot codec tree projectDir = .ok root →
    ∀ path, path ≠ root.rootPath.names → tree'.openFile path = tree.openFile path
  patterns : ∀ root, readRoot codec tree projectDir = .ok root →
    ∃ root', readRoot codec tree' projectDir = .ok root' ∧ root'.root.name = root.root.name ∧
      ∀ patterns, workspacePatterns (root.root.extra.get? "workspaces") = .ok patterns →
        ∃ patterns', workspacePatterns (root'.root.extra.get? "workspaces") = .ok patterns' ∧
          patterns.Perm patterns'

section Orders

variable {codec : JsonCodec} {tree tree' : DirectoryTree} {projectDir : OsPath}

namespace Relisted

variable (h : Relisted tree tree')

include h

theorem containedPath_eq (root : CanonicalPath) (path : OsPath) :
    containedPath tree' root path = containedPath tree root path := by
  rw [containedPath, containedPath, h.canonicalize]

theorem expandEntry_eq (root dir : CanonicalPath) (entry : Except OsError ListedEntry) :
    expandEntry tree' root dir entry = expandEntry tree root dir entry := by
  unfold expandEntry
  simp only [h.containedPath_eq, h.metadata]

theorem simulates_expandDirectory (root : CanonicalPath) (path : OsPath) :
    Simulates List.Perm (expandDirectory tree root path) (expandDirectory tree' root path) := by
  unfold expandDirectory
  rw [h.containedPath_eq]
  refine (Simulates.refl (fun _ => rfl) _ : Simulates Eq _ _).bind fun dir dir' hdir => ?_
  subst hdir
  have hentry : expandEntry tree' root dir = expandEntry tree root dir :=
    funext fun entry => h.expandEntry_eq root dir entry
  rw [hentry]
  have hlisting := h.readDir dir.names
  generalize tree.readDir dir.names = listing at hlisting ⊢
  generalize tree'.readDir dir.names = listing' at hlisting ⊢
  cases hlisting with
  | failed error => exact Simulates.refl List.Perm.refl _
  | listed hperm => exact Simulates.collect_reorder (lawful_expandEntry root dir) hperm

theorem simulates_expandComponent (root : CanonicalPath) {paths paths' : List OsPath} (hpaths : paths.Perm paths')
    (component : LexicalPath.Component) :
    Simulates List.Perm (expandComponent tree root paths component)
      (expandComponent tree' root paths' component) := by
  refine (Simulates.refl (fun _ => rfl) _ : Simulates Eq _ _).bind fun _ _ _ => ?_
  split_ifs
  · exact Simulates.collect_perm (h.simulates_expandDirectory root) (lawful_expandDirectory root) hpaths
  · exact Simulates.collect_reorder (lawful_pushName _) hpaths

theorem simulates_patternDirectories (root : CanonicalPath) (pattern : String) :
    Simulates List.Perm (patternDirectories tree root pattern) (patternDirectories tree' root pattern) := by
  refine (Simulates.refl (fun _ => rfl) _ : Simulates Eq _ _).bind fun _ _ _ => ?_
  refine (Simulates.refl (fun _ => rfl) _ : Simulates Eq _ _).bind fun _ _ _ => ?_
  refine (Simulates.refl (fun _ => rfl) _ : Simulates Eq _ _).bind fun _ _ _ => ?_
  exact Simulates.foldlM (fun component paths paths' hpaths => h.simulates_expandComponent root hpaths component)
    _ (List.Perm.refl _)

theorem takeManifest_eq : takeManifest tree' = takeManifest tree := by
  funext path
  unfold takeManifest chargedProbe probeManifest
  rw [h.symlinkMetadata]

theorem simulates_expandOnBudgets (root : CanonicalPath) (pattern : String) :
    Simulates List.Perm (expandOnBudgets tree root pattern) (expandOnBudgets tree' root pattern) := by
  refine (h.simulates_patternDirectories root pattern).second.bind fun paths paths' hpaths => ?_
  rw [h.takeManifest_eq]
  refine (Simulates.collect_reorder lawful_takeManifest hpaths).bind fun manifests manifests' hmanifests => ?_
  refine Simulates.pure ?_
  exact ((List.perm_insertionSort _ _).trans hmanifests).trans (List.perm_insertionSort _ _).symm

theorem declaredManifest_eq (root : CanonicalPath) :
    declaredManifest tree' root = declaredManifest tree root := by
  funext path
  rw [declaredManifest, declaredManifest, h.symlinkMetadata, h.containedPath_eq]

end Relisted

/-- Reordered elements that are all taken give the same, reordered. -/
theorem mapM_perm {ε α β : Type} {f : α → Except ε β} {l l' : List α} (hl : l.Perm l') {r : List β}
    (h : l.mapM f = .ok r) : ∃ r', l'.mapM f = .ok r' ∧ r.Perm r' := by
  induction hl generalizing r with
  | nil => exact ⟨r, h, .refl r⟩
  | cons a _ ih =>
    rw [List.mapM_cons] at h
    obtain ⟨b, hb, h⟩ := bind_eq_ok.mp h
    obtain ⟨bs, hbs, h⟩ := bind_eq_ok.mp h
    obtain rfl := pure_eq_ok.mp h
    obtain ⟨bs', hbs', hperm⟩ := ih hbs
    refine ⟨b :: bs', ?_, hperm.cons b⟩
    rw [List.mapM_cons, hb, ok_bind, hbs', ok_bind]
    rfl
  | swap a a' l =>
    rw [List.mapM_cons] at h
    obtain ⟨b, hb, h⟩ := bind_eq_ok.mp h
    obtain ⟨bs, hbs, h⟩ := bind_eq_ok.mp h
    rw [List.mapM_cons] at hbs
    obtain ⟨b', hb', hbs⟩ := bind_eq_ok.mp hbs
    obtain ⟨bs', hbs', hbs⟩ := bind_eq_ok.mp hbs
    obtain rfl := pure_eq_ok.mp hbs
    obtain rfl := pure_eq_ok.mp h
    refine ⟨b' :: b :: bs', ?_, List.Perm.swap b' b bs'⟩
    rw [List.mapM_cons, hb', ok_bind, List.mapM_cons, hb, ok_bind, hbs']
    rfl
  | trans _ _ ih ih' =>
    obtain ⟨r', hr', hperm⟩ := ih h
    obtain ⟨r'', hr'', hperm'⟩ := ih' hr'
    exact ⟨r'', hr'', hperm.trans hperm'⟩

theorem insertionSort_eq_of_perm_path {l l' : List CanonicalPath} (h : l.Perm l') :
    l.insertionSort (· ≤ ·) = l'.insertionSort (· ≤ ·) := by
  have hp : (l.insertionSort (· ≤ ·)).Perm (l'.insertionSort (· ≤ ·)) :=
    ((List.perm_insertionSort _ l).trans h).trans (List.perm_insertionSort _ l').symm
  exact hp.eq_of_pairwise (fun x y _ _ hxy hyx => le_antisymm hxy hyx) (List.pairwise_insertionSort _ l)
    (List.pairwise_insertionSort _ l')

theorem canonicalize_of_containedPath {root canonical : CanonicalPath} {path : OsPath}
    (h : containedPath tree root path = .ok canonical) : tree.canonicalize path = .ok canonical := by
  rw [containedPath] at h
  simp only [bind_eq_ok, mapError_eq_ok, rejectIf_eq_ok] at h
  obtain ⟨canonical', hcanonical, _, _, h⟩ := h
  rw [hcanonical, pure_eq_ok.mp h]

/-- A root that is read from a tree. -/
theorem readRoot_eq_ok {root : WorkspaceRoot} (h : readRoot codec tree projectDir = .ok root) :
    tree.canonicalize projectDir = .ok root.projectDir ∧
      containedPath tree root.projectDir (root.projectDir.names ++ [OsName.packageJson]) = .ok root.rootPath ∧
      ∃ text, readWorkspaceFile tree root.rootPath.names = .ok text ∧
        PackageManifest.parse codec text = .ok root.root := by
  rw [readRoot] at h
  simp only [bind_eq_ok, mapError_eq_ok, rejectIf_eq_ok, parseManifest] at h
  obtain ⟨canonical, hcanonical, _, _, kind, _, _, _, rootPath, hpath, text, htext, manifest, hparse, h⟩ := h
  obtain rfl := pure_eq_ok.mp h
  exact ⟨hcanonical, hpath, text, htext, hparse⟩

/-- The root manifest is no member: its name is taken. -/
theorem readMember_reordered (h : Reordered codec tree tree' projectDir) {root : WorkspaceRoot}
    (hroot : readRoot codec tree projectDir = .ok root)
    {state state' : OrdSet String × List WorkspaceMember} {path : CanonicalPath}
    (hname : root.root.name.text ∈ state.1)
    (hread : readMember codec tree root.projectDir state path = .ok state') :
    readMember codec tree' root.projectDir state path = .ok state' ∧ root.root.name.text ∈ state'.1 := by
  obtain ⟨_, _, rootText, hrootText, hrootParse⟩ := readRoot_eq_ok hroot
  rw [readMember] at hread
  simp only [bind_eq_ok, mapError_eq_ok, rejectIf_eq_ok, parseManifest] at hread
  obtain ⟨canonical, hcanonical, u, hin, u', hparent, u'', hbelow, u''', hmodules, text, htext, manifest, hparse,
    u'''', hnew, hstate⟩ := hread
  have hne : canonical.names ≠ root.rootPath.names := by
    intro heq
    rw [heq, hrootText] at htext
    cases htext
    rw [hrootParse] at hparse
    cases hparse
    exact hnew hname
  have htext' : readWorkspaceFile tree' canonical.names = .ok text := by
    rw [← htext, readWorkspaceFile, readWorkspaceFile, h.openFile root hroot _ hne]
  refine ⟨?_, ?_⟩
  · rw [readMember, h.canonicalize]
    simp only [bind_eq_ok, mapError_eq_ok, rejectIf_eq_ok, parseManifest]
    exact ⟨canonical, hcanonical, u, hin, u', hparent, u'', hbelow, u''', hmodules, text, htext', manifest, hparse,
      u'''', hnew, hstate⟩
  · obtain rfl := pure_eq_ok.mp hstate
    exact OrdSet.mem_insert.mpr (.inr hname)

theorem readMembers_reordered (h : Reordered codec tree tree' projectDir) {root root' : WorkspaceRoot}
    (hroot : readRoot codec tree projectDir = .ok root) (hdir : root'.projectDir = root.projectDir)
    (hname : root'.root.name = root.root.name) {paths paths' : List OsPath} (hpaths : paths.Perm paths')
    {w : Workspace} (hread : readMembers codec tree root paths = .ok w) :
    ∃ w', readMembers codec tree' root' paths' = .ok w' ∧ w'.members = w.members := by
  rw [readMembers] at hread
  obtain ⟨declared, hdeclared, hread⟩ := bind_eq_ok.mp hread
  obtain ⟨⟨names, members⟩, hloop, hread⟩ := bind_eq_ok.mp hread
  obtain rfl := pure_eq_ok.mp hread
  obtain ⟨declared', hdeclared', hperm⟩ := mapM_perm hpaths hdeclared
  have hmembers : ∀ (l : List CanonicalPath) (state state' : OrdSet String × List WorkspaceMember),
      root.root.name.text ∈ state.1 → l.foldlM (readMember codec tree root.projectDir) state = .ok state' →
      l.foldlM (readMember codec tree' root.projectDir) state = .ok state' := by
    intro l
    induction l with
    | nil => exact fun _ _ _ hrun => hrun
    | cons path l ih =>
      intro state state' hmem hrun
      obtain ⟨next, hnext, hrun⟩ := Loop.foldlM_cons_eq_ok.mp hrun
      obtain ⟨hnext', hmem'⟩ := readMember_reordered h hroot hmem hnext
      exact Loop.foldlM_cons_eq_ok.mpr ⟨next, hnext', ih next state' hmem' hrun⟩
  refine ⟨⟨root'.root, root'.rootPath, members.insertionSort WorkspaceMember.le⟩, ?_, rfl⟩
  rw [readMembers, hdir, hname, h.toRelisted.declaredManifest_eq, hdeclared', ok_bind,
    ← insertionSort_eq_of_perm_path hperm]
  have hloop' := hmembers _ _ _ (OrdSet.mem_insert.mpr (.inl rfl)) hloop
  exact bind_eq_ok.mpr ⟨(names, members), hloop', rfl⟩

/-- **Other orders** of listings and patterns give the same members. -/
theorem discoverOnBudgets_reordered (h : Reordered codec tree tree' projectDir) {budgets : ℕ × ℕ} {w : Workspace}
    (hrun : discoverOnBudgets codec tree projectDir budgets = .ok w) :
    ∃ w', discoverOnBudgets codec tree' projectDir budgets = .ok w' ∧ w'.members = w.members := by
  rw [discoverOnBudgets] at hrun
  obtain ⟨root, hroot, hrun⟩ := bind_eq_ok.mp hrun
  obtain ⟨patterns, hpatterns, hrun⟩ := bind_eq_ok.mp hrun
  obtain ⟨paths, hpaths, hrun⟩ := bind_eq_ok.mp hrun
  obtain ⟨⟨found, left⟩, hcollect, rfl⟩ := map_eq_ok.mp hpaths
  obtain ⟨root', hroot', hname, hall⟩ := h.patterns root hroot
  obtain ⟨patterns', hpatterns', hperm⟩ := hall patterns (mapError_eq_ok.mp hpatterns)
  have hdir : root'.projectDir = root.projectDir := by
    have hcanonical := (readRoot_eq_ok hroot').1
    rw [h.canonicalize, (readRoot_eq_ok hroot).1] at hcanonical
    exact (Except.ok.inj hcanonical).symm
  have hsimulates : Simulates List.Perm (collect (expandOnBudgets tree root.projectDir) patterns)
      (collect (expandOnBudgets tree' root.projectDir) patterns') :=
    Simulates.collect_perm (h.toRelisted.simulates_expandOnBudgets root.projectDir)
      (lawful_expandOnBudgets root.projectDir) hperm
  obtain ⟨found', hcollect', hfound⟩ := hsimulates _ _ _ hcollect
  obtain ⟨w', hw', hmembers⟩ := readMembers_reordered h hroot hdir hname hfound hrun
  refine ⟨w', ?_, hmembers⟩
  rw [discoverOnBudgets, hroot', ok_bind, hpatterns']
  show ((collect _ patterns' budgets).map Prod.fst >>= _ : Except WorkspaceError Workspace) = _
  rw [hdir, hcollect']
  exact hw'

end Orders

/-! ### The result -/

/-- **Bounded discovery agrees with unbounded discovery**: on any tree, with any
limits, it ends with an exhausted limit or as discovery without limits ends; no
budget goes below zero; and the members do not depend on the order in which
directories are listed or patterns are written. -/
theorem discoverBounded_agrees (codec : JsonCodec) (tree : DirectoryTree) (projectDir : OsPath)
    {maxCandidates maxExpansionSteps : ℕ} (hcandidates : maxCandidates ≤ usizeMax)
    (hsteps : maxExpansionSteps ≤ usizeMax) :
    (discoverBounded codec tree projectDir maxCandidates maxExpansionSteps =
        .error (.refused .discoveryLimitExceeded) ∨
      discoverBounded codec tree projectDir maxCandidates maxExpansionSteps =
        discoverTyped codec tree projectDir) ∧
    discoverBounded codec tree projectDir maxCandidates maxExpansionSteps ≠ .error .overflow ∧
    ∀ tree', Reordered codec tree tree' projectDir → ∀ w,
      discoverBounded codec tree projectDir maxCandidates maxExpansionSteps = .ok w →
      ∃ w', discoverBounded codec tree' projectDir maxCandidates maxExpansionSteps = .ok w' ∧
        w'.members = w.members := by
  refine ⟨?_, ?_, fun tree' h w hrun => ?_⟩
  · have hmax : (maxCandidates, maxExpansionSteps) +
        (usizeMax - maxCandidates, usizeMax - maxExpansionSteps) = (usizeMax, usizeMax) :=
      Prod.ext (Nat.add_sub_cancel' hcandidates) (Nat.add_sub_cancel' hsteps)
    have hadd := @discoverOnBudgets_add codec tree projectDir (maxCandidates, maxExpansionSteps)
      (usizeMax - maxCandidates, usizeMax - maxExpansionSteps)
    rw [hmax] at hadd
    rw [discoverTyped, discoverBounded_eq, discoverBounded_eq]
    rcases hadd with hspent | hsame
    · left
      rw [hspent]
      rfl
    · right
      rw [hsame]
  · rw [discoverBounded_eq]
    intro hoverflow
    obtain ⟨e, _, he⟩ := mapError_eq_error.mp hoverflow
    cases he
  · rw [discoverBounded_eq] at hrun ⊢
    obtain ⟨w', hw', hmembers⟩ := discoverOnBudgets_reordered h (mapError_eq_ok.mp hrun)
    exact ⟨w', mapError_eq_ok.mpr hw', hmembers⟩

/-- A root manifest with patterns. -/
def patternsManifest (patterns : List String) : Json :=
  .obj [("name", .str "root"), ("version", .str "1.0.0"), ("workspaces", .arr (patterns.map .str))]

def memberManifest (name : String) : Json := .obj [("name", .str name), ("version", .str "1.0.0")]

/-- A JSON library that reads the texts of four manifests. -/
def patternsCodec : JsonCodec := compactCodec (readDocument [
  patternsManifest ["packages/*", "packages/b"], patternsManifest ["packages/b", "packages/*"],
  memberManifest "a", memberManifest "b"])

def pathOf (names : List String) : OsPath := names.map fun name => OsName.ofText name.toList

/-- The manifests of a project with two packages. -/
def projectManifests (patterns : List String) : List (OsPath × Json) := [
  (pathOf ["project", "package.json"], patternsManifest patterns),
  (pathOf ["project", "packages", "a", "package.json"], memberManifest "a"),
  (pathOf ["project", "packages", "b", "package.json"], memberManifest "b")]

/-- The project, whose packages are listed in some order. -/
def packagesTree (patterns packages : List String) : DirectoryTree where
  canonicalize path :=
    if h : OsName.dot ∉ path then .ok ⟨path, h⟩ else .error ⟨true, "No such file or directory (os error 2)"⟩
  isDir path := path.getLast? ≠ some OsName.packageJson
  symlinkMetadata path := .ok (if path.getLast? = some OsName.packageJson then .file else .directory)
  metadata path := .ok (if path.getLast? = some OsName.packageJson then .file else .directory)
  readDir _ := .ok (packages.map fun name => .ok ⟨OsName.ofText name.toList, .ok .directory⟩)
  openFile path :=
    match (projectManifests patterns).lookup path with
    | some manifest => .ok {
        metadata := .ok (.file, (utf8Bytes manifest.compact).length)
        take := fun _ => .ok (utf8Bytes manifest.compact) }
    | none => .error ⟨true, "No such file or directory (os error 2)"⟩

def listedTree : DirectoryTree := packagesTree ["packages/*", "packages/b"] ["b", "a"]

/-- Patterns and packages in the other order. -/
def turnedTree : DirectoryTree := packagesTree ["packages/b", "packages/*"] ["a", "b"]

/-- What the root manifest of such a project is read as. -/
def rootSummary (tree : DirectoryTree) : Option (String × Option (List String)) :=
  (readRoot patternsCodec tree (pathOf ["project"])).toOption.map fun root =>
    (root.root.name.text, (workspacePatterns (root.root.extra.get? "workspaces")).toOption)

theorem reordered_turnedTree : Reordered patternsCodec listedTree turnedTree (pathOf ["project"]) where
  canonicalize := rfl
  isDir := rfl
  symlinkMetadata := rfl
  metadata := rfl
  readDir _ := .listed (List.Perm.swap _ _ [])
  openFile root hroot path hne := by
    obtain ⟨hdir, hpath, _⟩ := readRoot_eq_ok hroot
    have hproject : root.projectDir.names = pathOf ["project"] :=
      congrArg CanonicalPath.names (Except.ok.inj hdir).symm
    have hpath' := canonicalize_of_containedPath hpath
    rw [hproject] at hpath'
    have hne' : path ≠ pathOf ["project", "package.json"] :=
      fun heq => hne (heq.trans (congrArg CanonicalPath.names (Except.ok.inj hpath')))
    have hroot' : (path == pathOf ["project", "package.json"]) = false := beq_eq_false_iff_ne.mpr hne'
    simp only [listedTree, turnedTree, packagesTree, projectManifests, List.lookup_cons, hroot']
  patterns root hroot := by
    have hleft : rootSummary listedTree = some ("root", some ["packages/*", "packages/b"]) := by decide +kernel
    have hright : rootSummary turnedTree = some ("root", some ["packages/b", "packages/*"]) := by decide +kernel
    rw [rootSummary, hroot] at hleft
    obtain ⟨hname, hpatterns⟩ := Prod.mk.inj (Option.some.inj hleft)
    rw [rootSummary] at hright
    cases hroot' : readRoot patternsCodec turnedTree (pathOf ["project"]) with
    | error e =>
      rw [hroot'] at hright
      cases hright
    | ok root' =>
      rw [hroot'] at hright
      obtain ⟨hname', hpatterns'⟩ := Prod.mk.inj (Option.some.inj hright)
      refine ⟨root', rfl, PackageName.text_injective (hname'.trans hname.symm), fun patterns hread => ?_⟩
      rw [hread] at hpatterns
      cases hpatterns
      refine ⟨["packages/b", "packages/*"], ?_, List.Perm.swap _ _ []⟩
      cases hread' : workspacePatterns (root'.root.extra.get? "workspaces") with
      | error e =>
        rw [hread'] at hpatterns'
        cases hpatterns'
      | ok patterns' =>
        rw [hread'] at hpatterns'
        exact congrArg Except.ok (Option.some.inj hpatterns')

/-- Two overlapping patterns: three candidates, two members, in either order. -/
theorem discoverBounded_agrees_packages :
    Reordered patternsCodec listedTree turnedTree (pathOf ["project"]) ∧
    (discoverBounded patternsCodec listedTree (pathOf ["project"]) 3 20).toOption.map
      (fun w => w.members.map (·.name)) = some ["a", "b"] ∧
    ∃ w', discoverBounded patternsCodec turnedTree (pathOf ["project"]) 3 20 = .ok w' ∧
      w'.members.map (·.name) = ["a", "b"] := by
  have hrun : (discoverBounded patternsCodec listedTree (pathOf ["project"]) 3 20).toOption.map
      (fun w => w.members.map (·.name)) = some ["a", "b"] := by decide +kernel
  refine ⟨reordered_turnedTree, hrun, ?_⟩
  cases hw : discoverBounded patternsCodec listedTree (pathOf ["project"]) 3 20 with
  | error e =>
    rw [hw] at hrun
    cases hrun
  | ok w =>
    rw [hw] at hrun
    obtain ⟨w', hw', hmembers⟩ := (discoverBounded_agrees patternsCodec listedTree (pathOf ["project"]) (by decide)
      (by decide)).2.2 _ reordered_turnedTree w hw
    exact ⟨w', hw', by rw [hmembers]; exact Option.some.inj hrun⟩

end Tapid
