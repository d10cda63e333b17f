/-
What an activation leaves wherever it stops.

Marker and tree are still where they were, or in their backups, or there were
none.  That is kept by every step forward and by everything that puts them back.

* `Recoverable`, `Safe` — what is true wherever a process stops;
* `wp_failRestored`, `wp_failBothRestored`, `wp_putBackFail` — putting back;
* `MarkerAside`, `TreeAside`, `TreeMoved` — the stages of an activation;
* `wp_activateNodeModules` — the activation keeps what is safe.
-/
import Tapid.Activation

namespace Tapid

open FileSystem FileProg Interrupted Text

namespace Activation

/-! ### Names -/

section Names

variable (project : AbsPath) (owner : String)

theorem entry_ne {a b : String} (h : a ≠ b) : project ++ [a] ≠ project ++ [b] := fun heq =>
  h (List.singleton_inj.mp (List.append_cancel_left heq))

theorem marker_ne_markerBackup : markerPath project ≠ markerBackup project owner := by
  refine entry_ne project fun h => ?_
  have hlength := congrArg String.length h
  rw [String.length_append] at hlength
  have hshort : ".tapid-managed".length = 14 := by decide
  have hlong : ".tapid-managed-old-".length = 19 := by decide
  omega

theorem chars_ne {a b : String} (h : a.toList ≠ b.toList) : a ≠ b := fun heq => h (congrArg String.toList heq)

theorem marker_ne_nodeModules : markerPath project ≠ nodeModulesPath project := entry_ne project (by decide)

theorem marker_ne_nodeModulesBackup : markerPath project ≠ nodeModulesBackup project owner := by
  refine entry_ne project (chars_ne ?_)
  rw [String.toList_append]
  intro h
  cases h

theorem nodeModules_ne_nodeModulesBackup : nodeModulesPath project ≠ nodeModulesBackup project owner := by
  refine entry_ne project (chars_ne ?_)
  rw [String.toList_append]
  intro h
  cases h

theorem markerBackup_ne_nodeModules : markerBackup project owner ≠ nodeModulesPath project := by
  refine entry_ne project (chars_ne ?_)
  rw [String.toList_append]
  intro h
  cases h

theorem markerBackup_ne_nodeModulesBackup : markerBackup project owner ≠ nodeModulesBackup project owner := by
  refine entry_ne project (chars_ne ?_)
  rw [String.toList_append, String.toList_append]
  intro h
  cases h

/-- What the rollback looks at. -/
def cells : List AbsPath :=
  [markerPath project, markerBackup project owner, nodeModulesPath project, nodeModulesBackup project owner]

theorem stagePath_not_mem (ordinal : Nat) : stagePath project owner ordinal ∉ cells project owner := by
  have hname : ∀ rest : List Char, ".tapid-install-stage-".toList ++ rest ≠ ".tapid-managed".toList ∧
      (∀ more, ".tapid-install-stage-".toList ++ rest ≠ ".tapid-managed-old-".toList ++ more) ∧
      ".tapid-install-stage-".toList ++ rest ≠ "node_modules".toList ∧
      ∀ more, ".tapid-install-stage-".toList ++ rest ≠ ".tapid-node-modules-old-".toList ++ more := by
    refine fun rest => ⟨fun h => ?_, fun more h => ?_, fun h => ?_, fun more h => ?_⟩ <;> cases h
  obtain ⟨hmarker, hbackup, htree, htreeBackup⟩ := hname (owner ++ "-" ++ String.ofList (numeral ordinal)).toList
  have hstage : (".tapid-install-stage-" ++ owner ++ "-" ++ String.ofList (numeral ordinal)).toList =
      ".tapid-install-stage-".toList ++ (owner ++ "-" ++ String.ofList (numeral ordinal)).toList := by
    simp only [String.toList_append, List.append_assoc]
  simp only [cells, List.mem_cons, List.not_mem_nil, or_false, not_or]
  refine ⟨entry_ne project (chars_ne ?_), entry_ne project (chars_ne ?_), entry_ne project (chars_ne ?_),
    entry_ne project (chars_ne ?_)⟩
  · rwa [hstage]
  · rw [hstage]
    exact fun h => hbackup _ (h.trans String.toList_append)
  · rwa [hstage]
  · rw [hstage]
    exact fun h => htreeBackup _ (h.trans String.toList_append)

theorem stagedPath_not_mem (ordinal : Nat) : stagedPath project owner ordinal ∉ cells project owner := by
  have hlength : (stagedPath project owner ordinal).length = project.length + 2 := by
    simp [stagedPath, stagePath]
  intro h
  simp only [cells, List.mem_cons, List.not_mem_nil, or_false] at h
  have hother : (stagedPath project owner ordinal).length = project.length + 1 := by
    rcases h with h | h | h | h <;>
      simp [h, markerPath, markerBackup, nodeModulesPath, nodeModulesBackup]
  omega

theorem markerTemporary_not_mem (pid nonce : Nat) : markerTemporary project pid nonce ∉ cells project owner := by
  obtain ⟨d, ds, hpid⟩ := List.exists_cons_of_ne_nil (numeral_ne_nil pid)
  have hdigit : d.isDigit = true := digit_mem_numeral (hpid ▸ List.mem_cons_self)
  have hname : (".tapid-managed-" ++ String.ofList (numeral pid ++ '-' :: numeral nonce) ++ ".tmp").toList =
      ".tapid-managed-".toList ++ d :: (ds ++ '-' :: numeral nonce ++ ".tmp".toList) := by
    simp [String.toList_append, hpid]
  simp only [cells, List.mem_cons, List.not_mem_nil, or_false, not_or]
  refine ⟨entry_ne project (chars_ne ?_), entry_ne project (chars_ne ?_), entry_ne project (chars_ne ?_),
    entry_ne project (chars_ne ?_)⟩
  · rw [hname]
    intro h
    cases h
  · -- a process id begins with a digit
    have hold : ".tapid-managed-old-".toList = ".tapid-managed-".toList ++ 'o' :: "ld-".toList := by decide
    rw [hname, String.toList_append, hold, List.append_assoc]
    intro h
    have hcons := List.append_cancel_left h
    obtain ⟨rfl, _⟩ := List.cons_eq_cons.mp hcons
    exact absurd hdigit (by decide)
  · rw [hname]
    intro h
    cases h
  · rw [hname, String.toList_append]
    intro h
    cases h

end Names

/-! ### What can be brought back -/

/-- What was there is in its backup, or there was nothing. -/
def Aside (fits : Node → Prop) (path backup : AbsPath) (s₀ s : Files) : Prop :=
  (∃ node, s₀ path = some node ∧ fits node ∧ s backup = some node) ∨ (s₀ path = none ∧ s backup = none)

/-- What was there is still there, or it is aside and nothing of another kind has
taken its place. -/
def Recoverable (fits : Node → Prop) (path backup : AbsPath) (s₀ s : Files) : Prop :=
  (s backup = none ∧ s path = s₀ path) ∨
    (Aside fits path backup s₀ s ∧ ∀ node, s path = some node → fits node)

section Recoverable

variable {fits : Node → Prop} {path backup : AbsPath} {s₀ s t : Files}

theorem Aside.of_same (h : Aside fits path backup s₀ s) (hbackup : t backup = s backup) :
    Aside fits path backup s₀ t := by
  rw [Aside, hbackup]
  exact h

theorem Recoverable.of_same (h : Recoverable fits path backup s₀ s) (hpath : t path = s path)
    (hbackup : t backup = s backup) : Recoverable fits path backup s₀ t := by
  rw [Recoverable, Aside, hpath, hbackup]
  exact h

/-- **Moving the backup back** is safe, whatever it comes to. -/
theorem Recoverable.moveBack (hne : path ≠ backup) (h : Recoverable fits path backup s₀ s) :
    Recoverable fits path backup s₀ (exec (.rename backup path) s).2 := by
  rw [exec]
  split
  · exact h
  · rename_i node hnode
    split_ifs
    · refine .inl ?_
      show s.move backup path node backup = none ∧ s.move backup path node path = s₀ path
      rw [Files.move, if_neg (Ne.symm hne), Function.update_self, Function.update_of_ne hne, Function.update_self]
      refine ⟨rfl, ?_⟩
      rcases h with ⟨hnone, _⟩ | ⟨⟨node', hold, _, hbackup⟩ | ⟨_, hnone⟩, _⟩
      · cases hnone.symm.trans hnode
      · rw [hold, ← hbackup, hnode]
      · cases hnone.symm.trans hnode
    · exact h

end Recoverable

def IsFile (node : Node) : Prop := ∃ bytes, node = .file bytes

def IsDirectory (node : Node) : Prop := ∃ entries, node = .directory entries

section Safe

variable (project : AbsPath) (owner : String) (s₀ : Files)

def MarkerSafe (s : Files) : Prop := Recoverable IsFile (markerPath project) (markerBackup project owner) s₀ s

def TreeSafe (s : Files) : Prop := Recoverable IsDirectory (nodeModulesPath project) (nodeModulesBackup project owner) s₀ s

/-- What `Path::is_dir` finds a directory at. -/
def LeadsToDirectory (node : Option Node) : Prop := (∃ entries, node = some (.directory entries)) ∨ node = some (.symlink true)

/-- True wherever a process stops. -/
structure Safe (s : Files) : Prop where
  marker : MarkerSafe project owner s₀ s
  tree : TreeSafe project owner s₀ s

end Safe

section Frames

variable {project : AbsPath} {owner : String} {s₀ s t : Files}

/-- What happens outside the four paths is safe. -/
theorem Safe.of_apart (h : Safe project owner s₀ s) {ps : List AbsPath} (hps : ∀ p ∈ ps, p ∉ cells project owner)
    (hsame : SameExcept ps s t) : Safe project owner s₀ t := by
  have hcell : ∀ p ∈ cells project owner, t p = s p := fun p hp => hsame p fun hmem => hps p hmem hp
  exact ⟨h.marker.of_same (hcell _ (by simp [cells])) (hcell _ (by simp [cells])),
    h.tree.of_same (hcell _ (by simp [cells])) (hcell _ (by simp [cells]))⟩

/-- What happens to the marker does not concern the tree. -/
theorem Safe.of_marker (h : Safe project owner s₀ s)
    (hsame : SameExcept [markerPath project, markerBackup project owner] s t)
    (hmarker : MarkerSafe project owner s₀ t) : Safe project owner s₀ t := by
  refine ⟨hmarker, h.tree.of_same (hsame _ ?_) (hsame _ ?_)⟩
  · simp only [List.mem_cons, List.not_mem_nil, or_false, not_or]
    exact ⟨Ne.symm (marker_ne_nodeModules project), Ne.symm (markerBackup_ne_nodeModules project owner)⟩
  · simp only [List.mem_cons, List.not_mem_nil, or_false, not_or]
    exact ⟨Ne.symm (marker_ne_nodeModulesBackup project owner),
      Ne.symm (markerBackup_ne_nodeModulesBackup project owner)⟩

/-- What happens to the tree does not concern the marker. -/
theorem Safe.of_tree (h : Safe project owner s₀ s)
    (hsame : SameExcept [nodeModulesPath project, nodeModulesBackup project owner] s t)
    (htree : TreeSafe project owner s₀ t) : Safe project owner s₀ t := by
  refine ⟨h.marker.of_same (hsame _ ?_) (hsame _ ?_), htree⟩
  · simp only [List.mem_cons, List.not_mem_nil, or_false, not_or]
    exact ⟨marker_ne_nodeModules project, marker_ne_nodeModulesBackup project owner⟩
  · simp only [List.mem_cons, List.not_mem_nil, or_false, not_or]
    exact ⟨markerBackup_ne_nodeModules project owner, markerBackup_ne_nodeModulesBackup project owner⟩

theorem Safe.moveMarkerBack (h : Safe project owner s₀ s) :
    Safe project owner s₀ (exec (.rename (markerBackup project owner) (markerPath project)) s).2 :=
  h.of_marker ((exec_sameExcept (.rename (markerBackup project owner) (markerPath project)) s).mono (by simp [FileOp.touched]))
    (h.marker.moveBack (marker_ne_markerBackup project owner))

theorem Safe.moveTreeBack (h : Safe project owner s₀ s) :
    Safe project owner s₀ (exec (.rename (nodeModulesBackup project owner) (nodeModulesPath project)) s).2 :=
  h.of_tree ((exec_sameExcept (.rename (nodeModulesBackup project owner) (nodeModulesPath project)) s).mono
      (by simp [FileOp.touched]))
    (h.tree.moveBack (nodeModules_ne_nodeModulesBackup project owner))

end Frames

/-! ### Calls -/

section Calls

variable {project : AbsPath} {owner : String} {s₀ s : Files} {budget : Nat} {log : List (Event FileOp)} {ε ε' α : Type}
  {I : List (Event FileOp) → Files → Prop}

theorem wp_attempt_perform {o : FileOp} {f : IoError → ε} {Q : Except ε o.Reply → List (Event FileOp) → Files → Prop} :
    wp fileCalls budget I (attempt o f).run Q log s =
      wp fileCalls budget I (perform o) (fun r => Q (r.mapError f)) log s := by
  show wp fileCalls budget I (perform o >>= fun r => pure (r.mapError f)) Q log s = _
  rw [wp_bind]
  rfl

theorem wp_ignore_perform {o : FileOp} {Q : Unit → List (Event FileOp) → Files → Prop} :
    wp fileCalls budget I (ignore o) Q log s = wp fileCalls budget I (perform o) (fun _ => Q ()) log s := by
  show wp fileCalls budget I (perform o >>= fun _ => pure ()) Q log s = _
  rw [wp_bind]
  rfl

theorem wp_tried {part : ExceptT ε' FileProg α} {Q : Except ε (Except ε' α) → List (Event FileOp) → Files → Prop} :
    wp fileCalls budget I (tried part).run Q log s = wp fileCalls budget I part.run (fun r => Q (.ok r)) log s :=
  wp_lift part.run Q log s

/-- A call that concerns neither marker nor tree. -/
theorem wp_apart {o : FileOp} (ho : ∀ p ∈ o.touched, p ∉ cells project owner) (h : Safe project owner s₀ s)
    {Q : Except IoError o.Reply → List (Event FileOp) → Files → Prop}
    (hdone : Safe project owner s₀ (exec o s).2 → SameExcept o.touched s (exec o s).2 →
      Q (exec o s).1 (.done o :: log) (exec o s).2)
    (hfailed : ∀ log t, Safe project owner s₀ t → SameExcept o.touched s t → Q (.error .other) log t) :
    wp fileCalls budget (fun _ t => Safe project owner s₀ t) (perform o) Q log s := by
  have hcut : ∀ c, Safe project owner s₀ (cut o c s) := fun c => h.of_apart ho (cut_sameExcept o c s)
  exact (wp_perform (Prod.mk.eta (p := exec o s)).symm).mpr
    ⟨hcut, hdone (h.of_apart ho (exec_sameExcept o s)) (exec_sameExcept o s),
      fun _ c => hfailed _ _ (hcut c) (cut_sameExcept o c s)⟩

/-- A call that is carried out or not. -/
theorem wp_whole {o : FileOp} (hcut : ∀ c, cut o c s = s) (h : Safe project owner s₀ s)
    {Q : Except IoError o.Reply → List (Event FileOp) → Files → Prop}
    (hdone : Q (exec o s).1 (.done o :: log) (exec o s).2)
    (hfailed : 0 < budget → Q (.error .other) (.failed o :: log) s) :
    wp fileCalls budget (fun _ t => Safe project owner s₀ t) (perform o) Q log s := by
  refine (wp_perform (Prod.mk.eta (p := exec o s)).symm).mpr ⟨fun c => ?_, hdone, fun hbudget c => ?_⟩
  · rw [hcut]
    exact h
  · rw [hcut]
    exact hfailed (Nat.zero_lt_of_lt hbudget)

/-- A look at a path. -/
theorem wp_metadata {p : AbsPath} (h : Safe project owner s₀ s)
    {Q : Except IoError Metadata → List (Event FileOp) → Files → Prop}
    (hfound : ∀ node log, s p = some node → Q (.ok node.metadata) log s)
    (hnone : ∀ log, s p = none → Q (.error .notFound) log s)
    (hfailed : ∀ log, 0 < budget → Q (.error .other) log s) :
    wp fileCalls budget (fun _ t => Safe project owner s₀ t) (perform (.metadata p)) Q log s := by
  refine wp_whole (fun _ => rfl) h ?_ (hfailed _)
  cases hp : s p with
  | none =>
    rw [exec_metadata_none hp]
    exact hnone _ hp
  | some node =>
    rw [exec_metadata hp]
    exact hfound _ _ hp

theorem wp_exists? {p : AbsPath} (h : Safe project owner s₀ s) {Q : Bool → List (Event FileOp) → Files → Prop}
    (hQ : ∀ found log, (found = true → (s p).any Node.resolves = true) → Q found log s) :
    wp fileCalls budget (fun _ t => Safe project owner s₀ t) (exists? p) Q log s := by
  rw [exists?, wp_bind]
  refine wp_whole (fun _ => rfl) h ?_ fun _ => hQ _ _ fun h => by cases h
  rw [exec_present]
  exact hQ _ _ fun hfound => hfound

theorem kind_eq_file {node : Node} : node.metadata.kind = .file ↔ IsFile node := by
  cases node <;> simp [Node.metadata, IsFile]

theorem kind_eq_directory {node : Node} : node.metadata.kind = .directory ↔ IsDirectory node := by
  cases node <;> simp [Node.metadata, IsDirectory]

theorem kind_eq_symlink {node : Node} : node.metadata.kind = .symlink ↔ ∃ r, node = .symlink r := by
  cases node <;> simp [Node.metadata]

theorem wp_isDirectory {p : AbsPath} (h : Safe project owner s₀ s) {Q : Bool → List (Event FileOp) → Files → Prop}
    (hQ : ∀ found log, (found = true → ∃ entries, s p = some (.directory entries)) → Q found log s) :
    wp fileCalls budget (fun _ t => Safe project owner s₀ t) (isDirectory p) Q log s := by
  rw [isDirectory, wp_bind]
  refine wp_metadata h (fun node log hnode => hQ _ _ fun hfound => ?_) (fun log _ => hQ _ _ fun hfound => ?_)
    fun log _ => hQ _ _ fun hfound => ?_
  · obtain ⟨entries, rfl⟩ := kind_eq_directory.mp (of_decide_eq_true hfound)
    exact ⟨entries, hnode⟩
  · cases hfound
  · cases hfound

theorem wp_leadsToDirectory {p : AbsPath} (h : Safe project owner s₀ s)
    {Q : Bool → List (Event FileOp) → Files → Prop}
    (hQ : ∀ found log, (found = true → LeadsToDirectory (s p)) → Q found log s) :
    wp fileCalls budget (fun _ t => Safe project owner s₀ t) (leadsToDirectory p) Q log s := by
  rw [leadsToDirectory, wp_bind]
  refine wp_metadata h (fun node log hnode => ?_) (fun log _ => hQ _ _ fun hfound => ?_)
    fun log _ => hQ _ _ fun hfound => ?_
  · show wp _ _ _ (if node.metadata.kind = .symlink then _ else _) Q log s
    split_ifs with hlink
    · refine wp_exists? h fun found log hfound => hQ _ _ fun htrue => .inr ?_
      obtain ⟨r, rfl⟩ := kind_eq_symlink.mp hlink
      have hresolves := hfound htrue
      rw [hnode] at hresolves
      obtain rfl : r = true := hresolves
      exact hnode
    · refine hQ _ _ fun hfound => .inl ?_
      obtain ⟨entries, rfl⟩ := kind_eq_directory.mp (of_decide_eq_true hfound)
      exact ⟨entries, hnode⟩
  · cases hfound
  · cases hfound

theorem wp_syncDirectory (h : Safe project owner s₀ s) {Q : Except String Unit → List (Event FileOp) → Files → Prop}
    (hQ : ∀ r log, Q r log s) :
    wp fileCalls budget (fun _ t => Safe project owner s₀ t) (syncDirectory project).run Q log s := by
  rw [syncDirectory, wp_attempt_perform]
  obtain ⟨r, hr⟩ := exec_sync_same project s
  refine wp_whole (fun _ => rfl) h ?_ fun _ => hQ _ _
  rw [hr]
  exact hQ _ _

end Calls

/-! ### Putting back -/

section Restore

variable {project : AbsPath} {owner : String} {s₀ s : Files} {budget : Nat} {log : List (Event FileOp)} {α : Type}

theorem wp_moveMarkerBack (h : Safe project owner s₀ s)
    {Q : Except IoError Unit → List (Event FileOp) → Files → Prop}
    (hQ : ∀ r log t, Safe project owner s₀ t → Q r log t) :
    wp fileCalls budget (fun _ t => Safe project owner s₀ t)
      (perform (.rename (markerBackup project owner) (markerPath project))) Q log s :=
  wp_whole (fun _ => rfl) h (hQ _ _ _ h.moveMarkerBack) fun _ => hQ _ _ _ h

theorem wp_moveTreeBack (h : Safe project owner s₀ s)
    {Q : Except IoError Unit → List (Event FileOp) → Files → Prop}
    (hQ : ∀ r log t, Safe project owner s₀ t → Q r log t) :
    wp fileCalls budget (fun _ t => Safe project owner s₀ t)
      (perform (.rename (nodeModulesBackup project owner) (nodeModulesPath project))) Q log s :=
  wp_whole (fun _ => rfl) h (hQ _ _ _ h.moveTreeBack) fun _ => hQ _ _ _ h

/-- What stands in for the marker is a file. -/
theorem Safe.file_of_markerBackup (h : Safe project owner s₀ s) {node : Node}
    (hnode : s (markerBackup project owner) = some node) : IsFile node := by
  rcases h.marker with ⟨hnone, _⟩ | ⟨⟨node', _, hfile, hbackup⟩ | ⟨_, hnone⟩, _⟩
  · cases hnone.symm.trans hnode
  · obtain rfl := Option.some_inj.mp (hbackup.symm.trans hnode)
    exact hfile
  · cases hnone.symm.trans hnode

theorem wp_restoreMarker {markerExists : Bool} (h : Safe project owner s₀ s)
    {Q : Except String Unit → List (Event FileOp) → Files → Prop}
    (hQ : ∀ r log t, Safe project owner s₀ t → Q r log t) :
    wp fileCalls budget (fun _ t => Safe project owner s₀ t) (restoreMarker project owner markerExists).run Q log s := by
  cases markerExists with
  | false => exact hQ _ _ _ h
  | true =>
    show wp _ _ _ (liftM (perform _) >>= _ : ExceptT _ _ _).run Q log s
    rw [wp_tryBind, wp_lift]
    refine wp_metadata h (fun node log hnode => ?_) (fun log _ => hQ _ _ _ h) fun log _ => hQ _ _ _ h
    show wp _ _ _ (if node.metadata.kind = .file then _ else _ : ExceptT _ _ _).run Q log s
    rw [if_pos (kind_eq_file.mpr (h.file_of_markerBackup hnode)), wp_attempt_perform]
    exact wp_moveMarkerBack h fun r log t ht => hQ _ _ _ ht

theorem wp_restoreNodeModulesBackup (h : Safe project owner s₀ s)
    {Q : Except String Unit → List (Event FileOp) → Files → Prop}
    (hQ : ∀ r log t, Safe project owner s₀ t → Q r log t) :
    wp fileCalls budget (fun _ t => Safe project owner s₀ t) (restoreNodeModulesBackup project owner).run Q log s := by
  rw [restoreNodeModulesBackup, wp_tryBind, wp_lift]
  refine wp_exists? h fun found log _ => ?_
  cases found with
  | false => exact hQ _ _ _ h
  | true =>
    show wp _ _ _ (attempt (.rename (nodeModulesBackup project owner) (nodeModulesPath project)) _).run Q log s
    rw [wp_attempt_perform]
    exact wp_moveTreeBack h fun r log t ht => hQ _ _ _ ht

theorem wp_putBackNodeModules (h : Safe project owner s₀ s) {Q : Unit → List (Event FileOp) → Files → Prop}
    (hQ : ∀ r log t, Safe project owner s₀ t → Q r log t) :
    wp fileCalls budget (fun _ t => Safe project owner s₀ t) (putBackNodeModules project owner) Q log s := by
  rw [putBackNodeModules, wp_bind]
  refine wp_exists? h fun found log _ => ?_
  cases found with
  | false => exact hQ _ _ _ h
  | true =>
    show wp _ _ _ (ignore (.rename (nodeModulesBackup project owner) (nodeModulesPath project))) Q log s
    rw [wp_ignore_perform]
    exact wp_moveTreeBack h fun r log t ht => hQ _ _ _ ht

theorem wp_failRestored {markerExists : Bool} {reason : String} (h : Safe project owner s₀ s)
    {Q : Except String α → List (Event FileOp) → Files → Prop}
    (hQ : ∀ e log t, Safe project owner s₀ t → Q (.error e) log t) :
    wp fileCalls budget (fun _ t => Safe project owner s₀ t) (failRestored project owner markerExists reason).run Q log
      s := by
  rw [failRestored, wp_tryBind, wp_tried]
  exact wp_restoreMarker h fun r log t ht => hQ _ _ _ ht

theorem wp_failBothRestored {markerExists : Bool} {reason : String} (h : Safe project owner s₀ s)
    {Q : Except String α → List (Event FileOp) → Files → Prop}
    (hQ : ∀ e log t, Safe project owner s₀ t → Q (.error e) log t) :
    wp fileCalls budget (fun _ t => Safe project owner s₀ t)
      (failBothRestored project owner markerExists reason).run Q log s := by
  rw [failBothRestored, wp_tryBind, wp_tried]
  refine wp_restoreNodeModulesBackup h fun r log t ht => ?_
  show wp _ _ _ (tried _ >>= _ : ExceptT _ _ _).run Q log t
  rw [wp_tryBind, wp_tried]
  exact wp_restoreMarker ht fun r log t ht => hQ _ _ _ ht

/-- The tree is put back, and then the marker. -/
theorem wp_putBackFail {markerExists : Bool} {reason : String} (h : Safe project owner s₀ s)
    {Q : Except String α → List (Event FileOp) → Files → Prop}
    (hQ : ∀ e log t, Safe project owner s₀ t → Q (.error e) log t) :
    wp fileCalls budget (fun _ t => Safe project owner s₀ t)
      (liftM (putBackNodeModules project owner) >>= fun _ => failRestored project owner markerExists reason :
        ExceptT String FileProg α).run Q log s := by
  rw [wp_tryBind, wp_lift]
  exact wp_putBackNodeModules h fun r log t ht => wp_failRestored ht hQ

end Restore

/-! ### Stages of an activation -/

section Stages

variable (project : AbsPath) (owner : String) (s₀ : Files)

/-- The marker that was there, once it is in its backup. -/
structure MarkerAside (markerExists : Bool) (s : Files) : Prop where
  contents : s₀ (markerPath project) = if markerExists then some (.file managedMarker) else none
  backup : s (markerBackup project owner) = s₀ (markerPath project)

/-- The tree that was there is in its backup, or it was not seen. -/
def TreeAside (s : Files) : Prop :=
  (Aside IsDirectory (nodeModulesPath project) (nodeModulesBackup project owner) s₀ s ∧
      s (nodeModulesPath project) = none) ∨
    (s (nodeModulesBackup project owner) = none ∧ s (nodeModulesPath project) = s₀ (nodeModulesPath project))

/-- The new tree is in the place of the one that was there. -/
structure TreeMoved (s : Files) : Prop where
  aside : Aside IsDirectory (nodeModulesPath project) (nodeModulesBackup project owner) s₀ s
  moved : ∃ entries, s (nodeModulesPath project) = some (.directory entries)

variable {project owner s₀} {markerExists : Bool} {s t : Files}

theorem MarkerAside.safe (h : MarkerAside project owner s₀ markerExists s)
    (hfile : ∀ node, s (markerPath project) = some node → IsFile node) : MarkerSafe project owner s₀ s := by
  refine .inr ⟨?_, hfile⟩
  cases hme : markerExists with
  | true =>
    have hcontents := h.contents
    rw [hme, if_pos rfl] at hcontents
    exact .inl ⟨_, hcontents, ⟨_, rfl⟩, h.backup.trans hcontents⟩
  | false =>
    have hcontents := h.contents
    rw [hme, if_neg Bool.false_ne_true] at hcontents
    exact .inr ⟨hcontents, h.backup.trans hcontents⟩

theorem MarkerAside.of_same (h : MarkerAside project owner s₀ markerExists s)
    (hbackup : t (markerBackup project owner) = s (markerBackup project owner)) :
    MarkerAside project owner s₀ markerExists t :=
  ⟨h.contents, hbackup.trans h.backup⟩

theorem TreeAside.safe (h : TreeAside project owner s₀ s) : TreeSafe project owner s₀ s := by
  rcases h with ⟨haside, hnone⟩ | hkept
  · refine .inr ⟨haside, fun node hnode => ?_⟩
    cases hnone.symm.trans hnode
  · exact .inl hkept

theorem TreeMoved.of_same (h : TreeMoved project owner s₀ s)
    (hpath : t (nodeModulesPath project) = s (nodeModulesPath project))
    (hbackup : t (nodeModulesBackup project owner) = s (nodeModulesBackup project owner)) :
    TreeMoved project owner s₀ t :=
  ⟨h.aside.of_same hbackup, h.moved.imp fun _ hmoved => hpath.trans hmoved⟩

theorem TreeMoved.safe (h : TreeMoved project owner s₀ s) : TreeSafe project owner s₀ s := by
  refine .inr ⟨h.aside, fun node hnode => ?_⟩
  obtain ⟨entries, hmoved⟩ := h.moved
  exact ⟨entries, Option.some_inj.mp (hnode.symm.trans hmoved)⟩

end Stages

/-! ### The activation -/

section Activate

variable {project : AbsPath} {owner : String} {s₀ s : Files} {budget : Nat} {log : List (Event FileOp)}
  {markerExists : Bool}

/-- A node moves to where nothing is. -/
theorem exec_rename_none {p q : AbsPath} {node : Node} (h : s p = some node) (hq : s q = none) (hpq : p ≠ q) :
    exec (.rename p q) s = (.ok (), Function.update (Function.update s q (some node)) p none) := by
  have hreplaceable : Files.replaceable node (s q) = true := by
    rw [hq]
    cases node <;> rfl
  rw [exec, h]
  show (if Files.replaceable node (s q) then _ else _) = _
  rw [hreplaceable, if_pos rfl, Files.move, if_neg hpq]

theorem wp_inspectMarker (h : Safe project owner s₀ s) {Q : Except String Bool → List (Event FileOp) → Files → Prop}
    (hfound : ∀ log bytes, s (markerPath project) = some (.file bytes) → Q (.ok true) log s)
    (hnone : ∀ log, s (markerPath project) = none → Q (.ok false) log s) (herror : ∀ e log, Q (.error e) log s) :
    wp fileCalls budget (fun _ t => Safe project owner s₀ t) (inspectMarker project).run Q log s := by
  show wp _ _ _ (liftM (perform _) >>= _ : ExceptT _ _ _).run Q log s
  rw [wp_tryBind, wp_lift]
  refine wp_metadata h (fun node log hnode => ?_) (fun log hnode => hnone _ hnode) fun log _ => herror _ _
  show wp _ _ _ (if node.metadata.kind = .file then _ else _ : ExceptT _ _ _).run Q log s
  split_ifs with hkind
  · obtain ⟨bytes, rfl⟩ := kind_eq_file.mp hkind
    exact hfound _ bytes hnode
  · exact herror _ _

theorem wp_checkMarked (h : Safe project owner s₀ s) {Q : Except String Unit → List (Event FileOp) → Files → Prop}
    (hQ : ∀ r log, Q r log s) :
    wp fileCalls budget (fun _ t => Safe project owner s₀ t) (checkMarked project markerExists).run Q log s := by
  rw [checkMarked, wp_tryBind, wp_lift]
  refine wp_exists? h fun found log _ => ?_
  cases found with
  | false => exact hQ _ _
  | true =>
    cases markerExists with
    | false => exact hQ _ _
    | true => exact hQ _ _

theorem wp_syncStaged (h : Safe project owner s₀ s) {Q : Except String Unit → List (Event FileOp) → Files → Prop}
    (hQ : ∀ r log, Q r log s) :
    wp fileCalls budget (fun _ t => Safe project owner s₀ t) (syncStaged project owner).run Q log s := by
  rw [syncStaged, wp_tryBind, wp_lift]
  refine wp_exists? h fun found log _ => ?_
  cases found with
  | false => exact hQ _ _
  | true => exact wp_syncDirectory h hQ

/-- The bytes that are read are those of the file. -/
theorem wp_readMarkerBackup {p : AbsPath} {bytes : List UInt8} (h : Safe project owner s₀ s) (hp : s p = some (.file bytes))
    {Q : Except String (List UInt8) → List (Event FileOp) → Files → Prop} (hok : ∀ log, Q (.ok bytes) log s)
    (herror : ∀ e log, Q (.error e) log s) :
    wp fileCalls budget (fun _ t => Safe project owner s₀ t) (readMarkerBackup p).run Q log s := by
  rw [readMarkerBackup, wp_tryBind, wp_attempt_perform]
  refine wp_whole (fun _ => rfl) h ?_ fun _ => herror _ _
  rw [exec_read hp]
  show wp _ _ _ (if 128 < bytes.length then _ else _ : ExceptT _ _ _).run Q _ s
  split_ifs
  · exact herror _ _
  · exact hok _

/-- **The marker is moved aside** and is what it should be, or all is safe. -/
theorem wp_stageMarker (hmarker : s₀ (markerBackup project owner) = none)
    (htree : s₀ (nodeModulesBackup project owner) = none)
    (hfound : if markerExists then ∃ bytes, s₀ (markerPath project) = some (.file bytes) else s₀ (markerPath project) = none)
    {Q : Except String Unit → List (Event FileOp) → Files → Prop}
    (hok : ∀ log t, MarkerAside project owner s₀ markerExists t → t (markerPath project) = none →
      Safe project owner s₀ t → SameExcept [markerPath project, markerBackup project owner] s₀ t → Q (.ok ()) log t)
    (herror : ∀ e log t, Safe project owner s₀ t → Q (.error e) log t) :
    wp fileCalls budget (fun _ t => Safe project owner s₀ t) (stageMarker project owner markerExists).run Q log s₀ := by
  have h₀ : Safe project owner s₀ s₀ := ⟨.inl ⟨hmarker, rfl⟩, .inl ⟨htree, rfl⟩⟩
  cases hme : markerExists with
  | false =>
    rw [hme] at hfound hok
    exact hok _ _ ⟨hfound, hmarker.trans hfound.symm⟩ hfound h₀ (SameExcept.refl _ _)
  | true =>
    obtain ⟨bytes, hbytes⟩ := hme ▸ hfound
    have hne := marker_ne_markerBackup project owner
    obtain ⟨t, ht⟩ : ∃ t, t = Function.update (Function.update s₀ (markerBackup project owner) (some (.file bytes)))
      (markerPath project) none := ⟨_, rfl⟩
    have hgone : t (markerPath project) = none := by
      rw [ht, Function.update_self]
    have hbackup : t (markerBackup project owner) = some (.file bytes) := by
      rw [ht, Function.update_of_ne (Ne.symm hne), Function.update_self]
    have hsame : SameExcept [markerPath project, markerBackup project owner] s₀ t := by
      rw [ht]
      exact ((SameExcept.refl _ _).update (by simp) _).update (by simp) _
    have hsafe : Safe project owner s₀ t := by
      refine h₀.of_marker hsame (.inr ⟨.inl ⟨_, hbytes, ⟨bytes, rfl⟩, hbackup⟩, fun node hnode => ?_⟩)
      cases hgone.symm.trans hnode
    have hfail : ∀ (reason : String) (log : List (Event FileOp)),
        wp fileCalls budget (fun _ t => Safe project owner s₀ t) (failRestored project owner true reason).run Q log t :=
      fun reason log => wp_failRestored hsafe herror
    show wp _ _ _ (attempt (.rename (markerPath project) (markerBackup project owner)) _ >>= _ : ExceptT _ _ _).run Q log s₀
    rw [wp_tryBind, wp_attempt_perform]
    refine wp_whole (fun _ => rfl) h₀ ?_ fun _ => herror _ _ _ h₀
    rw [exec_rename_none hbytes hmarker hne, ← ht]
    show wp _ _ _ (syncDirectory project >>= _ : ExceptT _ _ _).run Q _ t
    rw [wp_tryBind]
    refine wp_syncDirectory hsafe fun r log => ?_
    cases r with
    | error e => exact herror _ _ _ hsafe
    | ok _ =>
      show wp _ _ _ (tried _ >>= _ : ExceptT _ _ _).run Q log t
      rw [wp_tryBind, wp_tried]
      refine wp_readMarkerBackup hsafe hbackup (fun log => ?_) fun e log => hfail _ _
      show wp _ _ _ (liftM (perform _) >>= _ : ExceptT _ _ _).run Q log t
      rw [wp_tryBind, wp_lift]
      refine wp_metadata hsafe (fun node log hnode => ?_) (fun log _ => hfail _ _) fun log _ => hfail _ _
      obtain rfl := Option.some_inj.mp (hbackup.symm.trans hnode)
      show wp _ _ _ (if bytes = managedMarker then _ else _ : ExceptT _ _ _).run Q log t
      split_ifs with hcontents
      · rw [hme] at hok
        exact hok _ _ ⟨hcontents ▸ hbytes, hbackup.trans hbytes.symm⟩ hgone hsafe hsame
      · exact hfail _ _

/-- **A tree that is seen is moved aside.** -/
theorem wp_stageNodeModules (h : Safe project owner s₀ s)
    (htree : s (nodeModulesPath project) = s₀ (nodeModulesPath project))
    (hbackup : s (nodeModulesBackup project owner) = none)
    (hfits : ∀ node, s₀ (nodeModulesPath project) = some node → node.resolves = true → IsDirectory node)
    {Q : Except String Unit → List (Event FileOp) → Files → Prop}
    (hok : ∀ log t, TreeAside project owner s₀ t → Safe project owner s₀ t →
      SameExcept [nodeModulesPath project, nodeModulesBackup project owner] s t → Q (.ok ()) log t)
    (herror : ∀ e log t, Safe project owner s₀ t → Q (.error e) log t) :
    wp fileCalls budget (fun _ t => Safe project owner s₀ t) (stageNodeModules project owner markerExists).run Q log s := by
  rw [stageNodeModules, wp_tryBind, wp_lift]
  refine wp_exists? h fun found log hfound => ?_
  cases found with
  | false => exact hok _ _ (.inr ⟨hbackup, htree⟩) h (SameExcept.refl _ _)
  | true =>
    have hne := nodeModules_ne_nodeModulesBackup project owner
    obtain ⟨node, hnode, hresolves⟩ := (Option.any_eq_true _ _).mp (hfound rfl)
    have hold := htree.symm.trans hnode
    obtain ⟨t, ht⟩ : ∃ t, t = Function.update (Function.update s (nodeModulesBackup project owner) (some node))
      (nodeModulesPath project) none := ⟨_, rfl⟩
    have haside : TreeAside project owner s₀ t := by
      refine .inl ⟨.inl ⟨node, hold, hfits node hold hresolves, ?_⟩, ?_⟩
      · rw [ht, Function.update_of_ne (Ne.symm hne), Function.update_self]
      · rw [ht, Function.update_self]
    have hsame : SameExcept [nodeModulesPath project, nodeModulesBackup project owner] s t := by
      rw [ht]
      exact ((SameExcept.refl _ _).update (by simp) _).update (by simp) _
    show wp _ _ _ (liftM (perform _) >>= _ : ExceptT _ _ _).run Q log s
    rw [wp_tryBind, wp_lift]
    refine wp_whole (fun _ => rfl) h ?_ fun _ => wp_failRestored h herror
    rw [exec_rename_none hnode hbackup hne, ← ht]
    exact hok _ _ haside (h.of_tree hsame haside.safe) hsame

/-- What is moved in is a directory whose links were validated. -/
theorem wp_checkStaged {ordinal : Nat} {injected : Bool} {preflight : Except String Unit} (h : Safe project owner s₀ s)
    {Q : Except String Unit → List (Event FileOp) → Files → Prop}
    (hok : ∀ log entries, injected = false → preflight = .ok () →
      s (stagedPath project owner ordinal) = some (.directory entries) → Q (.ok ()) log s)
    (herror : ∀ e log t, Safe project owner s₀ t → Q (.error e) log t) :
    wp fileCalls budget (fun _ t => Safe project owner s₀ t)
      (checkStaged project owner ordinal injected preflight markerExists).run Q log s := by
  cases injected with
  | true => exact wp_putBackFail h herror
  | false =>
    show wp _ _ _ (liftM (isDirectory _) >>= _ : ExceptT _ _ _).run Q log s
    rw [wp_tryBind, wp_lift]
    refine wp_isDirectory h fun found log hfound => ?_
    cases found with
    | false => exact wp_failBothRestored h herror
    | true =>
      obtain ⟨entries, hentries⟩ := hfound rfl
      cases preflight with
      | error e => exact wp_failBothRestored h herror
      | ok _ => exact hok _ _ rfl rfl hentries

/-- **The new tree is moved in** where nothing is. -/
theorem wp_moveStaged {ordinal : Nat} {entries : List (String × Node)} (h : Safe project owner s₀ s)
    (haside : TreeAside project owner s₀ s) (hstaged : s (stagedPath project owner ordinal) = some (.directory entries))
    (hfits : Files.replaceable (.directory entries) (s₀ (nodeModulesPath project)) = true →
      s₀ (nodeModulesPath project) = none)
    {Q : Except String Unit → List (Event FileOp) → Files → Prop}
    (hok : ∀ log t, TreeMoved project owner s₀ t → Safe project owner s₀ t →
      SameExcept [stagedPath project owner ordinal, nodeModulesPath project] s t → Q (.ok ()) log t)
    (herror : ∀ e log t, Safe project owner s₀ t → Q (.error e) log t) :
    wp fileCalls budget (fun _ t => Safe project owner s₀ t) (moveStaged project owner ordinal markerExists).run Q log
      s := by
  have hstage : ∀ {p}, p ∈ cells project owner → p ≠ stagedPath project owner ordinal := fun hp heq =>
    stagedPath_not_mem project owner ordinal (heq ▸ hp)
  have hnode : nodeModulesPath project ∈ cells project owner := by simp [cells]
  have hbackup : nodeModulesBackup project owner ∈ cells project owner := by simp [cells]
  have hne := nodeModules_ne_nodeModulesBackup project owner
  show wp _ _ _ (liftM (perform _) >>= _ : ExceptT _ _ _).run Q log s
  rw [wp_tryBind, wp_lift]
  refine wp_whole (fun _ => rfl) h ?_ fun _ => wp_putBackFail h herror
  by_cases hreplaceable : Files.replaceable (.directory entries) (s (nodeModulesPath project)) = true
  · -- nothing is there, also if what was there has not been seen
    have hclear : s (nodeModulesPath project) = none ∧
        Aside IsDirectory (nodeModulesPath project) (nodeModulesBackup project owner) s₀ s := by
      rcases haside with ⟨haside, hnone⟩ | ⟨hnone, hkept⟩
      · exact ⟨hnone, haside⟩
      · have hold := hfits (hkept ▸ hreplaceable)
        exact ⟨hkept.trans hold, .inr ⟨hold, hnone⟩⟩
    obtain ⟨t, ht⟩ : ∃ t, t = Function.update (Function.update s (nodeModulesPath project) (some (.directory entries)))
      (stagedPath project owner ordinal) none := ⟨_, rfl⟩
    have hmoved : TreeMoved project owner s₀ t := by
      refine ⟨hclear.2.of_same ?_, entries, ?_⟩
      · rw [ht, Function.update_of_ne (hstage hbackup), Function.update_of_ne (Ne.symm hne)]
      · rw [ht, Function.update_of_ne (hstage hnode), Function.update_self]
    have hsame : SameExcept [stagedPath project owner ordinal, nodeModulesPath project] s t := by
      rw [ht]
      exact ((SameExcept.refl _ _).update (by simp) _).update (by simp) _
    have hsafe : Safe project owner s₀ t := by
      refine ⟨h.marker.of_same (hsame _ ?_) (hsame _ ?_), hmoved.safe⟩
      · simp [hstage (by simp [cells] : markerPath project ∈ cells project owner), marker_ne_nodeModules]
      · simp [hstage (by simp [cells] : markerBackup project owner ∈ cells project owner), markerBackup_ne_nodeModules]
    rw [exec_rename_none hstaged hclear.1 (Ne.symm (hstage hnode)), ← ht]
    refine wp_syncDirectory hsafe fun r log => ?_
    cases r with
    | error e => exact herror _ _ _ hsafe
    | ok _ => exact hok _ _ hmoved hsafe hsame
  · have hrefused : exec (.rename (stagedPath project owner ordinal) (nodeModulesPath project)) s = (.error .other, s) := by
      rw [exec, hstaged]
      exact if_neg hreplaceable
    rw [hrefused]
    exact wp_putBackFail h herror

/-- Removing the new tree, or a part of it, leaves the one that was there aside. -/
theorem wp_removeUncommitted (h : Safe project owner s₀ s) (hmoved : TreeMoved project owner s₀ s)
    {Q : Except IoError Unit → List (Event FileOp) → Files → Prop}
    (hok : ∀ log t, Safe project owner s₀ t → t (nodeModulesPath project) = none →
      SameExcept [nodeModulesPath project] s t → Q (.ok ()) log t)
    (hfailed : ∀ log t, 0 < budget → Safe project owner s₀ t → SameExcept [nodeModulesPath project] s t →
      Q (.error .other) log t) :
    wp fileCalls budget (fun _ t => Safe project owner s₀ t) (perform (.removeDirAll (nodeModulesPath project))) Q log
      s := by
  obtain ⟨entries, hentries⟩ := hmoved.moved
  have hne := nodeModules_ne_nodeModulesBackup project owner
  have hsafe : ∀ node, (∀ n, node = some n → IsDirectory n) →
      Safe project owner s₀ (Function.update s (nodeModulesPath project) node) ∧
        SameExcept [nodeModulesPath project] s (Function.update s (nodeModulesPath project) node) := by
    intro node hnode
    have hsame : SameExcept [nodeModulesPath project] s (Function.update s (nodeModulesPath project) node) :=
      (SameExcept.refl _ _).update List.mem_cons_self _
    refine ⟨h.of_tree (hsame.mono (by simp)) (.inr ⟨hmoved.aside.of_same ?_, fun n hn => hnode n ?_⟩), hsame⟩
    · rw [Function.update_of_ne (Ne.symm hne)]
    · rwa [Function.update_self] at hn
  have hcut : ∀ c, Safe project owner s₀ (cut (.removeDirAll (nodeModulesPath project)) c s) ∧
      SameExcept [nodeModulesPath project] s (cut (.removeDirAll (nodeModulesPath project)) c s) := by
    intro c
    rw [cut, hentries]
    refine hsafe _ fun n hn => ?_
    obtain rfl := Option.some_inj.mp hn
    exact ⟨_, by rw [Node.prune]⟩
  have hdone : exec (.removeDirAll (nodeModulesPath project)) s =
      (.ok (), Function.update s (nodeModulesPath project) none) := by
    rw [exec, hentries]
  obtain ⟨hsafeDone, hsameDone⟩ := hsafe none fun n hn => by cases hn
  refine (wp_perform hdone).mpr ⟨fun c => (hcut c).1, hok _ _ hsafeDone ?_ hsameDone, fun hbudget c => ?_⟩
  · rw [Function.update_self]
  · exact hfailed _ _ (Nat.zero_lt_of_lt hbudget) (hcut c).1 (hcut c).2

theorem wp_removeNew (h : Safe project owner s₀ s) (hmoved : TreeMoved project owner s₀ s)
    {Q : Except IoError Unit → List (Event FileOp) → Files → Prop}
    (hQ : ∀ r log t, Safe project owner s₀ t → SameExcept [nodeModulesPath project] s t → Q r log t) :
    wp fileCalls budget (fun _ t => Safe project owner s₀ t) (perform (.removeDirAll (nodeModulesPath project))) Q log
      s :=
  wp_removeUncommitted h hmoved (fun _ _ ht _ hsame => hQ _ _ _ ht hsame) fun _ _ _ ht hsame => hQ _ _ _ ht hsame

/-- Removing the new tree as if it were a file does nothing. -/
theorem wp_removeNewFile (h : Safe project owner s₀ s) (hmoved : TreeMoved project owner s₀ s)
    {Q : Except IoError Unit → List (Event FileOp) → Files → Prop} (hQ : ∀ r log, Q r log s) :
    wp fileCalls budget (fun _ t => Safe project owner s₀ t) (perform (.removeFile (nodeModulesPath project))) Q log
      s := by
  obtain ⟨entries, hentries⟩ := hmoved.moved
  refine wp_whole (fun _ => rfl) h ?_ fun _ => hQ _ _
  rw [exec, hentries]
  exact hQ _ _

theorem wp_checkMoved (h : Safe project owner s₀ s) (hmoved : TreeMoved project owner s₀ s)
    {Q : Except String Unit → List (Event FileOp) → Files → Prop} (hok : ∀ log, Q (.ok ()) log s)
    (herror : ∀ e log t, Safe project owner s₀ t → Q (.error e) log t) :
    wp fileCalls budget (fun _ t => Safe project owner s₀ t) (checkMoved project owner markerExists).run Q log s := by
  show wp _ _ _ (liftM (isDirectory _) >>= _ : ExceptT _ _ _).run Q log s
  rw [wp_tryBind, wp_lift]
  refine wp_isDirectory h fun found log _ => ?_
  cases found with
  | true => exact hok _
  | false =>
    show wp _ _ _ (liftM (ignore (.removeFile (nodeModulesPath project))) >>= _ : ExceptT _ _ _).run Q log s
    rw [wp_tryBind, wp_lift, wp_ignore_perform]
    refine wp_removeNewFile h hmoved fun r log => ?_
    show wp _ _ _ (liftM (ignore (.removeDirAll (nodeModulesPath project))) >>= _ : ExceptT _ _ _).run Q log s
    rw [wp_tryBind, wp_lift, wp_ignore_perform]
    exact wp_removeNew h hmoved fun r log t ht _ => wp_putBackFail ht herror

/-- **A new marker is written** where none is. -/
theorem wp_createMarker {temp : AbsPath} (htemp : temp ∉ cells project owner) (h : Safe project owner s₀ s)
    (haside : MarkerAside project owner s₀ markerExists s) (hgone : s (markerPath project) = none)
    {Q : Except IoError Unit → List (Event FileOp) → Files → Prop}
    (hok : ∀ log t, Safe project owner s₀ t → t (markerPath project) = some (.file managedMarker) →
      SameExcept [temp, markerPath project] s t → Q (.ok ()) log t)
    (herror : ∀ e log t, Safe project owner s₀ t → SameExcept [temp] s t → Q (.error e) log t) :
    wp fileCalls budget (fun _ t => Safe project owner s₀ t) (createMarker project temp).run Q log s := by
  have hcell : ∀ {p}, p ∈ cells project owner → p ≠ temp := fun hp heq => htemp (heq ▸ hp)
  have hmarker : markerPath project ∈ cells project owner := by simp [cells]
  have hbackup : markerBackup project owner ∈ cells project owner := by simp [cells]
  have htouched : ∀ p ∈ [temp], p ∉ cells project owner := by
    intro p hp
    rwa [List.mem_singleton.mp hp]
  rw [createMarker, wp_tryBind, wp_attempt_perform]
  refine wp_apart (o := .createNew temp) htouched h (fun ht hsame => ?_) fun log t ht hsame => herror _ _ _ ht hsame
  generalize exec (.createNew temp) s = created at ht hsame ⊢
  obtain ⟨r, t⟩ := created
  cases r with
  | error e => exact herror _ _ _ ht hsame
  | ok _ =>
    show wp _ _ _ (attempt (.writeAll temp managedMarker) _ >>= _ : ExceptT _ _ _).run Q _ t
    rw [wp_tryBind, wp_attempt_perform]
    refine wp_apart (o := .writeAll temp managedMarker) htouched ht (fun hu hsameU => ?_) fun log u hu hsameU => herror _ _ _ hu (hsame.trans hsameU)
    rw [exec_writeAll] at hu hsameU ⊢
    obtain ⟨u, hu'⟩ : ∃ u, u = Function.update t temp (some (.file managedMarker)) := ⟨_, rfl⟩
    rw [← hu'] at hu hsameU ⊢
    have hwritten : u temp = some (.file managedMarker) := by
      rw [hu', Function.update_self]
    have hsameSU : SameExcept [temp] s u := hsame.trans hsameU
    have hgoneU : u (markerPath project) = none := by
      rw [hsameSU _ (by simpa using hcell hmarker), hgone]
    show wp _ _ _ (attempt (.sync temp) _ >>= _ : ExceptT _ _ _).run Q _ u
    rw [wp_tryBind, wp_attempt_perform]
    refine wp_whole (fun _ => rfl) hu ?_ fun _ => herror _ _ _ hu hsameSU
    rw [exec_sync hwritten]
    show wp _ _ _ (attempt (.rename temp (markerPath project)) _).run Q _ u
    rw [wp_attempt_perform]
    refine wp_whole (fun _ => rfl) hu ?_ fun _ => herror _ _ _ hu hsameSU
    rw [exec_rename_none hwritten hgoneU (Ne.symm (hcell hmarker))]
    obtain ⟨v, hv⟩ : ∃ v, v = Function.update (Function.update u (markerPath project) (some (.file managedMarker)))
      temp none := ⟨_, rfl⟩
    have hmarkerV : v (markerPath project) = some (.file managedMarker) := by
      rw [hv, Function.update_of_ne (hcell hmarker), Function.update_self]
    have hsameV : SameExcept [temp, markerPath project] u v := by
      rw [hv]
      exact ((SameExcept.refl _ _).update (by simp) _).update (by simp) _
    have hsameSV : SameExcept [temp, markerPath project] s v := (hsameSU.mono (by simp)).trans hsameV
    rw [← hv]
    refine hok _ _ ⟨?_, ?_⟩ hmarkerV hsameSV
    · refine (haside.of_same (hsameSV _ ?_)).safe fun node hnode => ⟨managedMarker, ?_⟩
      · simp [hcell hbackup, Ne.symm (marker_ne_markerBackup project owner)]
      · exact Option.some_inj.mp (hnode.symm.trans hmarkerV)
    · refine h.tree.of_same (hsameSV _ ?_) (hsameSV _ ?_)
      · simp [hcell (by simp [cells] : nodeModulesPath project ∈ cells project owner), Ne.symm (marker_ne_nodeModules project)]
      · simp [hcell (by simp [cells] : nodeModulesBackup project owner ∈ cells project owner),
          Ne.symm (marker_ne_nodeModulesBackup project owner)]

/-- A marker where there was none can be removed. -/
theorem wp_removeMarker (h : Safe project owner s₀ s) (hnone : s₀ (markerPath project) = none)
    {Q : Except IoError Unit → List (Event FileOp) → Files → Prop}
    (hQ : ∀ r log t, Safe project owner s₀ t → Q r log t) :
    wp fileCalls budget (fun _ t => Safe project owner s₀ t) (perform (.removeFile (markerPath project))) Q log s := by
  refine wp_whole (fun _ => rfl) h (hQ _ _ _ ?_) fun _ => hQ _ _ _ h
  rcases exec_removeFile_cases (markerPath project) s with hdone | ⟨e, herror⟩
  · rw [hdone]
    have hne := marker_ne_markerBackup project owner
    refine h.of_marker ((SameExcept.refl _ _).update (by simp) _) (.inl ⟨?_, ?_⟩)
    · show Function.update s (markerPath project) none (markerBackup project owner) = none
      rw [Function.update_of_ne (Ne.symm hne)]
      rcases h.marker with ⟨hbackup, _⟩ | ⟨⟨node, hold, _⟩ | ⟨_, hbackup⟩, _⟩
      · exact hbackup
      · cases hnone.symm.trans hold
      · exact hbackup
    · show Function.update s (markerPath project) none (markerPath project) = s₀ (markerPath project)
      rw [Function.update_self, hnone]
  · rw [herror]
    exact h

theorem wp_writeMarker {temp : AbsPath} (htemp : temp ∉ cells project owner) (h : Safe project owner s₀ s)
    (haside : MarkerAside project owner s₀ markerExists s) (hgone : s (markerPath project) = none)
    (hmoved : TreeMoved project owner s₀ s) {Q : Except String Unit → List (Event FileOp) → Files → Prop}
    (hok : ∀ log t, Safe project owner s₀ t → t (markerPath project) = some (.file managedMarker) →
      SameExcept [temp, markerPath project] s t → Q (.ok ()) log t)
    (herror : ∀ e log t, Safe project owner s₀ t → Q (.error e) log t) :
    wp fileCalls budget (fun _ t => Safe project owner s₀ t) (writeMarker project owner temp markerExists).run Q log s := by
  have hcell : ∀ {p}, p ∈ cells project owner → p ∉ [temp] := fun hp hmem => htemp (List.mem_singleton.mp hmem ▸ hp)
  have hnode : nodeModulesPath project ∈ cells project owner := by simp [cells]
  have hbackup : nodeModulesBackup project owner ∈ cells project owner := by simp [cells]
  show wp _ _ _ (tried _ >>= _ : ExceptT _ _ _).run Q log s
  rw [wp_tryBind, wp_tried]
  refine wp_createMarker htemp h haside hgone (fun log t ht hmarker hsame => ?_) fun e log t ht hsame => ?_
  · refine wp_syncDirectory ht fun r log => ?_
    cases r with
    | error e => exact herror _ _ _ ht
    | ok _ => exact hok _ _ ht hmarker hsame
  · -- temporary file and new tree go, and what was there comes back
    have hafter : ∀ log u, Safe project owner s₀ u → SameExcept [temp] t u →
        wp fileCalls budget (fun _ v => Safe project owner s₀ v)
          (liftM (ignore (.removeDirAll (nodeModulesPath project))) >>= fun _ =>
            liftM (putBackNodeModules project owner) >>= fun _ => do
            let restore ← tried (restoreMarker project owner markerExists)
            if markerExists then throw (context "cannot write .tapid-managed: " e ++ restoration restore)
            else
              ignore (.removeFile (markerPath project))
              throw (context "cannot write .tapid-managed: " e ++ restoration restore) :
            ExceptT String FileProg Unit).run Q log u := by
      intro log u hu hsameU
      have hmovedU : TreeMoved project owner s₀ u := by
        refine hmoved.of_same ?_ ?_
        · rw [hsameU _ (hcell hnode), hsame _ (hcell hnode)]
        · rw [hsameU _ (hcell hbackup), hsame _ (hcell hbackup)]
      rw [wp_tryBind, wp_lift, wp_ignore_perform]
      refine wp_removeNew hu hmovedU fun _ log v hv _ => ?_
      show wp _ _ _ (liftM (putBackNodeModules project owner) >>= _ : ExceptT _ _ _).run Q log v
      rw [wp_tryBind, wp_lift]
      refine wp_putBackNodeModules hv fun _ log w hw => ?_
      show wp _ _ _ (tried _ >>= _ : ExceptT _ _ _).run Q log w
      rw [wp_tryBind, wp_tried]
      refine wp_restoreMarker hw fun _ log x hx => ?_
      cases hme : markerExists with
      | true => exact herror _ _ _ hx
      | false =>
        have hcontents := haside.contents
        rw [hme, if_neg Bool.false_ne_true] at hcontents
        show wp _ _ _ (liftM (ignore (.removeFile (markerPath project))) >>= _ : ExceptT _ _ _).run Q log x
        rw [wp_tryBind, wp_lift, wp_ignore_perform]
        exact wp_removeMarker hx hcontents fun _ log y hy => herror _ _ _ hy
    show wp _ _ _ (liftM (ignore (.removeFile temp)) >>= _ : ExceptT _ _ _).run Q log t
    rw [wp_tryBind, wp_lift, wp_ignore_perform]
    refine wp_apart (o := .removeFile temp) ?_ ht (hafter _ _) fun log u hu hsameU => hafter log u hu hsameU
    intro p hp
    rwa [List.mem_singleton.mp hp]

/-- What is thrown away is not needed any more. -/
theorem wp_cleanUp {ordinal : Nat} {preservePrevious : Bool} (h : Safe project owner s₀ s)
    (haside : MarkerAside project owner s₀ markerExists s)
    (hmarker : s (markerPath project) = some (.file managedMarker)) (hmoved : TreeMoved project owner s₀ s)
    (hpreserved : preservePrevious = true ∨ ∀ entries, s₀ (nodeModulesPath project) ≠ some (.directory entries))
    {Q : Unit → List (Event FileOp) → Files → Prop} (hQ : ∀ r log t, Safe project owner s₀ t → Q r log t) :
    wp fileCalls budget (fun _ t => Safe project owner s₀ t)
      (cleanUp project owner ordinal preservePrevious markerExists) Q log s := by
  have hstage : ∀ log t, Safe project owner s₀ t → wp fileCalls budget (fun _ t => Safe project owner s₀ t)
      (ignore (.removeDirAll (stagePath project owner ordinal))) Q log t := by
    intro log t ht
    rw [wp_ignore_perform]
    refine wp_apart (o := .removeDirAll (stagePath project owner ordinal)) ?_ ht (fun hu _ => hQ _ _ _ hu)
      fun log u hu _ => hQ _ _ _ hu
    intro p hp
    rw [List.mem_singleton.mp hp]
    exact stagePath_not_mem project owner ordinal
  cases hpreserve : preservePrevious with
  | true => exact hstage _ _ h
  | false =>
    -- then there was no tree, and its backup is empty
    have hnone : s (nodeModulesBackup project owner) = none := by
      rcases hmoved.aside with ⟨node, hold, ⟨entries, rfl⟩, _⟩ | ⟨_, hnone⟩
      · rcases hpreserved with htrue | hno
        · cases htrue.symm.trans hpreserve
        · exact absurd hold (hno entries)
      · exact hnone
    have htree : ∀ log t, Safe project owner s₀ t → t (nodeModulesBackup project owner) = none →
        wp fileCalls budget (fun _ t => Safe project owner s₀ t)
          (ignore (.removeDirAll (nodeModulesBackup project owner)) >>= fun _ =>
            ignore (.removeDirAll (stagePath project owner ordinal))) Q log t := by
      intro log t ht hbackup
      rw [wp_bind, wp_ignore_perform]
      refine wp_whole (fun c => ?_) ht ?_ fun _ => hstage _ _ ht
      · rw [cut, hbackup]
      · rw [exec, hbackup]
        exact hstage _ _ ht
    cases hme : markerExists with
    | false => exact htree _ _ h hnone
    | true =>
      have hcontents := haside.contents
      rw [hme, if_pos rfl] at hcontents
      show wp _ _ _ (ignore (.removeFile (markerBackup project owner)) >>= _) Q log s
      rw [wp_bind, wp_ignore_perform]
      refine wp_whole (fun _ => rfl) h ?_ fun _ => htree _ _ h hnone
      rw [exec_removeFile (haside.backup.trans hcontents)]
      obtain ⟨t, ht⟩ : ∃ t, t = Function.update s (markerBackup project owner) none := ⟨_, rfl⟩
      have hbackup : t (markerBackup project owner) = none := by
        rw [ht, Function.update_self]
      have hsame : SameExcept [markerPath project, markerBackup project owner] s t := by
        rw [ht]
        exact (SameExcept.refl _ _).update (by simp) _
      have hkept : t (markerPath project) = s₀ (markerPath project) := by
        rw [ht, Function.update_of_ne (marker_ne_markerBackup project owner), hmarker, hcontents]
      have hnoneT : t (nodeModulesBackup project owner) = none := by
        rw [ht, Function.update_of_ne (Ne.symm (markerBackup_ne_nodeModulesBackup project owner)), hnone]
      rw [← ht]
      exact htree _ _ (h.of_marker hsame (.inl ⟨hbackup, hkept⟩)) hnoneT

end Activate

section Condition

variable (project : AbsPath) (owner : String) (ordinal : Nat) (preservePrevious injected : Bool)
  (preflight : Except String Unit) (s₀ : Files)

/-- There is no staged tree, or the marker is of no use: `node_modules` is not touched. -/
def Refused : Prop :=
  ¬LeadsToDirectory (s₀ (stagedPath project owner ordinal)) ∨
    (s₀ (markerPath project) ≠ none ∧ s₀ (markerPath project) ≠ some (.file managedMarker))

/-- The activation may get as far as moving the staged tree in. -/
def MovesIn : Prop :=
  injected = false ∧ preflight = .ok () ∧ ∃ entries, s₀ (stagedPath project owner ordinal) = some (.directory entries)

/-- What is at `node_modules` can be moved aside and back: nothing, a link that
leads nowhere, or a directory.  An empty one would be replaced by the staged tree
if it was not seen, and the backup is not to be thrown away. -/
structure Restorable : Prop where
  seen : ∀ node, s₀ (nodeModulesPath project) = some node → node.resolves = true → IsDirectory node
  kept : MovesIn project owner ordinal injected preflight s₀ → s₀ (nodeModulesPath project) ≠ some (.directory [])
  preserved : MovesIn project owner ordinal injected preflight s₀ →
    preservePrevious = true ∨ ∀ entries, s₀ (nodeModulesPath project) ≠ some (.directory entries)

end Condition

section Whole

variable {project : AbsPath} {owner : String} {ordinal pid nonce : Nat} {preservePrevious injected : Bool}
  {preflight : Except String Unit} {s₀ : Files} {budget : Nat} {log : List (Event FileOp)}

/-- From where both are out of the way. -/
theorem wp_moveIn {markerExists : Bool} {s : Files} (h : Safe project owner s₀ s)
    (haside : MarkerAside project owner s₀ markerExists s) (hgone : s (markerPath project) = none)
    (htree : TreeAside project owner s₀ s)
    (hstaged : s (stagedPath project owner ordinal) = s₀ (stagedPath project owner ordinal))
    (hcondition : Restorable project owner ordinal preservePrevious injected preflight s₀) :
    wp fileCalls budget (fun _ t => Safe project owner s₀ t)
      (do
        syncStaged project owner
        checkStaged project owner ordinal injected preflight markerExists
        moveStaged project owner ordinal markerExists
        checkMoved project owner markerExists
        writeMarker project owner (markerTemporary project pid nonce) markerExists
        cleanUp project owner ordinal preservePrevious markerExists : ExceptT String FileProg Unit).run
      (fun _ _ t => Safe project owner s₀ t) log s := by
  have hmarkerCell : markerPath project ∈ cells project owner := by simp [cells]
  have hbackupCell : markerBackup project owner ∈ cells project owner := by simp [cells]
  have hnodeCell : nodeModulesPath project ∈ cells project owner := by simp [cells]
  have htreeCell : nodeModulesBackup project owner ∈ cells project owner := by simp [cells]
  have hstage : ∀ {p}, p ∈ cells project owner → p ≠ stagedPath project owner ordinal := fun hp heq =>
    stagedPath_not_mem project owner ordinal (heq ▸ hp)
  have htemp : ∀ {p}, p ∈ cells project owner → p ≠ markerTemporary project pid nonce := fun hp heq =>
    markerTemporary_not_mem project owner pid nonce (heq ▸ hp)
  rw [wp_tryBind]
  refine wp_syncStaged h fun r log => ?_
  cases r with
  | error e => exact h
  | ok _ =>
    show wp _ _ _ (checkStaged project owner ordinal injected preflight markerExists >>= _ : ExceptT _ _ _).run _ log s
    rw [wp_tryBind]
    refine wp_checkStaged h (fun log entries hinjected hpreflight hdirectory => ?_) fun _ _ _ ht => ht
    have hmovesIn : MovesIn project owner ordinal injected preflight s₀ :=
      ⟨hinjected, hpreflight, entries, hstaged.symm.trans hdirectory⟩
    have hfits : Files.replaceable (.directory entries) (s₀ (nodeModulesPath project)) = true →
        s₀ (nodeModulesPath project) = none := by
      intro hreplaceable
      match hold : s₀ (nodeModulesPath project) with
      | none => rfl
      | some (.file bytes) => rw [hold] at hreplaceable; cases hreplaceable
      | some (.symlink r) => rw [hold] at hreplaceable; cases hreplaceable
      | some (.directory []) => exact absurd hold (hcondition.kept hmovesIn)
      | some (.directory (entry :: rest)) => rw [hold] at hreplaceable; cases hreplaceable
    show wp _ _ _ (moveStaged project owner ordinal markerExists >>= _ : ExceptT _ _ _).run _ log s
    rw [wp_tryBind]
    refine wp_moveStaged h htree hdirectory hfits (fun log t hmoved ht hsame => ?_) fun _ _ _ ht => ht
    have hasideT : MarkerAside project owner s₀ markerExists t :=
      haside.of_same (hsame _ (by simp [hstage hbackupCell, markerBackup_ne_nodeModules]))
    have hgoneT : t (markerPath project) = none := by
      rw [hsame _ (by simp [hstage hmarkerCell, marker_ne_nodeModules]), hgone]
    show wp _ _ _ (checkMoved project owner markerExists >>= _ : ExceptT _ _ _).run _ log t
    rw [wp_tryBind]
    refine wp_checkMoved ht hmoved (fun log => ?_) fun _ _ _ hu => hu
    show wp _ _ _ (writeMarker project owner (markerTemporary project pid nonce) markerExists >>= _ : ExceptT _ _ _).run
      _ log t
    rw [wp_tryBind]
    refine wp_writeMarker (markerTemporary_not_mem project owner pid nonce) ht hasideT hgoneT hmoved
      (fun log u hu hmarkerU hsameU => ?_) fun _ _ _ hu => hu
    have hmovedU : TreeMoved project owner s₀ u := by
      refine hmoved.of_same (hsameU _ ?_) (hsameU _ ?_)
      · simp [htemp hnodeCell, Ne.symm (marker_ne_nodeModules project)]
      · simp [htemp htreeCell, Ne.symm (marker_ne_nodeModulesBackup project owner)]
    have hasideU : MarkerAside project owner s₀ markerExists u := by
      refine hasideT.of_same (hsameU _ ?_)
      simp [htemp hbackupCell, Ne.symm (marker_ne_markerBackup project owner)]
    show wp _ _ _ (liftM (cleanUp project owner ordinal preservePrevious markerExists) : ExceptT _ _ _).run _ log u
    rw [wp_lift]
    exact wp_cleanUp hu hasideU hmarkerU hmovedU (hcondition.preserved hmovesIn) fun _ _ _ hv => hv

/-- **Wherever an activation stops**, what was there is still there, or in its backup. -/
theorem wp_activateNodeModules (hmarker : s₀ (markerBackup project owner) = none)
    (htree : s₀ (nodeModulesBackup project owner) = none)
    (hcondition : Refused project owner ordinal s₀ ∨
      Restorable project owner ordinal preservePrevious injected preflight s₀) :
    wp fileCalls budget (fun _ t => Safe project owner s₀ t)
      (activateNodeModules project owner ordinal pid nonce preservePrevious injected preflight).run
      (fun _ _ t => Safe project owner s₀ t) log s₀ := by
  have h₀ : Safe project owner s₀ s₀ := ⟨.inl ⟨hmarker, rfl⟩, .inl ⟨htree, rfl⟩⟩
  rw [activateNodeModules, wp_tryBind, wp_lift]
  refine wp_leadsToDirectory h₀ fun found log hleads => ?_
  cases found with
  | false => exact h₀
  | true =>
    have hstart : ∀ markerExists log, (if markerExists then ∃ bytes, s₀ (markerPath project) = some (.file bytes)
        else s₀ (markerPath project) = none) →
        wp fileCalls budget (fun _ t => Safe project owner s₀ t)
          (do
            checkMarked project markerExists
            stageMarker project owner markerExists
            stageNodeModules project owner markerExists
            syncStaged project owner
            checkStaged project owner ordinal injected preflight markerExists
            moveStaged project owner ordinal markerExists
            checkMoved project owner markerExists
            writeMarker project owner (markerTemporary project pid nonce) markerExists
            cleanUp project owner ordinal preservePrevious markerExists : ExceptT String FileProg Unit).run
          (fun _ _ t => Safe project owner s₀ t) log s₀ := by
      intro markerExists log hfound
      rw [wp_tryBind]
      refine wp_checkMarked h₀ fun r log => ?_
      cases r with
      | error e => exact h₀
      | ok _ =>
        show wp _ _ _ (stageMarker project owner markerExists >>= _ : ExceptT _ _ _).run _ log s₀
        rw [wp_tryBind]
        refine wp_stageMarker hmarker htree hfound (fun log t haside hgone ht hsame => ?_) fun _ _ _ ht => ht
        -- the marker is what it should be
        have hrestorable : Restorable project owner ordinal preservePrevious injected preflight s₀ := by
          refine hcondition.resolve_left ?_
          rintro (hnowhere | ⟨hsome, hother⟩)
          · exact hnowhere (hleads rfl)
          · have hcontents := haside.contents
            split at hcontents
            · exact hother hcontents
            · exact hsome hcontents
        have hcells : ∀ p, p ≠ markerPath project → p ≠ markerBackup project owner → t p = s₀ p := by
          intro p hp hbackup
          exact hsame p (by simp [hp, hbackup])
        have hnode := hcells _ (Ne.symm (marker_ne_nodeModules project)) (Ne.symm (markerBackup_ne_nodeModules project owner))
        have hbackup := hcells _ (Ne.symm (marker_ne_nodeModulesBackup project owner))
          (Ne.symm (markerBackup_ne_nodeModulesBackup project owner))
        have hstage : ∀ {p}, p ∈ cells project owner → stagedPath project owner ordinal ≠ p := fun hp heq =>
          stagedPath_not_mem project owner ordinal (heq ▸ hp)
        show wp _ _ _ (stageNodeModules project owner markerExists >>= _ : ExceptT _ _ _).run _ log t
        rw [wp_tryBind]
        refine wp_stageNodeModules ht hnode (hbackup.trans htree) hrestorable.seen
          (fun log u hasideTree hu hsameU => ?_) fun _ _ _ hu => hu
        have hasideU : MarkerAside project owner s₀ markerExists u := by
          refine haside.of_same (hsameU _ ?_)
          simp [markerBackup_ne_nodeModules, markerBackup_ne_nodeModulesBackup]
        have hgoneU : u (markerPath project) = none := by
          rw [hsameU _ (by simp [marker_ne_nodeModules, marker_ne_nodeModulesBackup]), hgone]
        have hstagedU : u (stagedPath project owner ordinal) = s₀ (stagedPath project owner ordinal) := by
          rw [hsameU _ (by simp [hstage (by simp [cells] : nodeModulesPath project ∈ cells project owner),
            hstage (by simp [cells] : nodeModulesBackup project owner ∈ cells project owner)])]
          exact hcells _ (hstage (by simp [cells])) (hstage (by simp [cells]))
        exact wp_moveIn hu hasideU hgoneU hasideTree hstagedU hrestorable
    show wp _ _ _ (inspectMarker project >>= _ : ExceptT _ _ _).run _ log s₀
    rw [wp_tryBind]
    exact wp_inspectMarker h₀ (fun log bytes hbytes => hstart true log ⟨bytes, hbytes⟩)
      (fun log hnone => hstart false log hnone) fun _ _ => h₀

end Whole

end Activation

end Tapid
