/-
Where planned launchers lead.

A declared path is joined onto the directory of its package, so it stays there
unless it is rooted: joining a rooted path starts over, and what the planners
check of the result is that it lies in the managed root.  Commands are single
names, so a launcher lies directly in its `.bin` directory, and outputs are
reserved before they are planned.

* `below_join`, `join_command` — the two joins;
* `Tracks.planTarget`, `Tracks.planWorkspaceTarget` — what one target adds;
* `contained_iff` — when the launchers of a plan stay with their packages.
-/
import Tapid.Loop
import Tapid.ManifestRoundTrip
import Tapid.Shims

namespace Tapid

open Text Fallible Loop

namespace Shims

open LexicalPath

/-! ### Joining -/

/-- A path with a volume or a root does not go on from where it is joined. -/
def rooted (rules : Rules) (target : List Char) : Bool :=
  match pathComponents rules target with
  | .volume _ :: _ => true
  | .rootDir :: _ => true
  | _ => false

/-- Any other path stays below the directory it is joined to. -/
theorem below_join {rules : Rules} (base : LexPath) {target : List Char} (h : rooted rules target = false) :
    base <+: join rules base target := by
  rw [rooted] at h
  rw [join]
  unfold push
  split
  · next heq => simp [heq] at h
  · next heq => simp [heq] at h
  · split_ifs with hbase
    · rw [hbase]
      exact List.nil_prefix
    · exact List.prefix_append _ _

theorem upperVolume_eq_rootDir {c : Component} : upperVolume c = .rootDir ↔ c = .rootDir := by
  cases c <;> simp [upperVolume]

/-- A text without separators names no share. -/
theorem splitShare_of_name (rules : Rules) {part : List Char} (hslash : '/' ∉ part) (hback : '\\' ∉ part) :
    splitShare rules part = none := by
  unfold splitShare
  split
  · next c d rest =>
    have hc : rules.isSeparator c = false :=
      not_isSeparator (fun h => hslash (by simp [h])) fun h => hback (by simp [h])
    rw [if_neg (by simp [hc])]
  · rfl

/-- A command is one name, or it names a volume and no root. -/
theorem pathComponents_command (rules : Rules) {command : List Char} (h : Npm.validCommand command = true) :
    pathComponents rules command = [.normal command] ∨
      ∃ text rest, pathComponents rules command = .volume text :: rest ∧ .rootDir ∉ rest := by
  simp only [Npm.validCommand, Bool.and_eq_true, decide_eq_true_eq, Bool.not_eq_true', List.any_eq_false,
    Bool.or_eq_true, beq_iff_eq, not_or] at h
  obtain ⟨⟨⟨hne, hdot⟩, hdots⟩, hchars⟩ := h
  have hslash : '/' ∉ command := fun hmem => (hchars _ hmem).1.1.1 rfl
  have hback : '\\' ∉ command := fun hmem => (hchars _ hmem).1.1.2 rfl
  rw [pathComponents, splitShare_of_name rules hslash hback]
  by_cases hvolume : rules.splitVolume command = ([], command)
  · rw [components_of_name hne hdot hdots hslash hback hvolume]
    exact Or.inl rfl
  · -- a letter and a colon in front of the command
    right
    obtain ⟨d, rest, rfl, hsplit⟩ : ∃ d rest, command = d :: ':' :: rest ∧
        rules.splitVolume (d :: ':' :: rest) = ([.volume [d, ':']], rest) := by
      unfold Rules.splitVolume at hvolume ⊢
      split at hvolume
      · next d rest =>
        split_ifs at hvolume with halpha
        · exact ⟨d, rest, rfl, by simp [halpha]⟩
        · exact absurd rfl hvolume
      · exact absurd rfl hvolume
    obtain ⟨below, hbelow, hroot⟩ := exists_components_of_volume hsplit
      (fun hmem => hslash (List.mem_cons_of_mem _ (List.mem_cons_of_mem _ hmem)))
      fun hmem => hback (List.mem_cons_of_mem _ (List.mem_cons_of_mem _ hmem))
    refine ⟨[d, ':'].map Char.toUpper, below.map upperVolume, ?_, fun hmem => ?_⟩
    · rw [hbelow]
      rfl
    · obtain ⟨c, hc, heq⟩ := List.mem_map.mp hmem
      exact hroot (upperVolume_eq_rootDir.mp heq ▸ hc)

/-- **A launcher lies directly in its directory** if it lies in a managed root. -/
theorem join_command {rules : Rules} {root : ManagedRoot rules} {binDir : LexPath} {command : List Char}
    (h : Npm.validCommand command = true)
    (hcontains : root.contains (join rules (join rules binDir ".bin".toList) command) = true) :
    join rules (join rules binDir ".bin".toList) command = binDir ++ [.normal ".bin".toList, .normal command] := by
  have hbin : join rules binDir ".bin".toList = binDir ++ [.normal ".bin".toList] := by
    have hdir : pathComponents rules ".bin".toList = [.normal ".bin".toList] := by
      cases rules <;> decide
    rw [join, hdir, push_normal]
  rw [hbin] at hcontains ⊢
  rcases pathComponents_command rules h with hname | ⟨text, rest, hvolume, hroot⟩
  · rw [join, hname, push_normal, List.append_assoc]
    rfl
  · -- joining a volume starts over, and the result has no root
    rw [join, hvolume] at hcontains
    simp only [ManagedRoot.contains, Bool.and_eq_true] at hcontains
    have habsolute : isAbsolute rules (push (binDir ++ [.normal ".bin".toList]) (.volume text :: rest)) = false := by
      show isAbsolute rules (.volume text :: rest) = false
      unfold isAbsolute
      split
      · next heq => cases heq
      · next heq =>
        obtain ⟨_, rfl⟩ := List.cons.inj heq
        exact absurd List.mem_cons_self hroot
      · rfl
    rw [habsolute] at hcontains
    exact absurd hcontains.1.1 Bool.false_ne_true

/-! ### What is declared -/

/-- A command of a package, with the directories its launcher connects. -/
structure Declared where
  root : LexPath
  binDir : LexPath
  target : BinTarget

namespace Declared

variable (rules : Rules) (d : Declared)

def source : LexPath := join rules d.root d.target.target.toList

def output : LexPath := join rules (join rules d.binDir ".bin".toList) d.target.command.toList

/-- The launcher runs a file of the package. -/
def Inside : Prop := d.root <+: d.source rules ∧ .parentDir ∉ d.source rules

/-- The launcher lies directly in the `.bin` directory. -/
def Direct : Prop :=
  d.output rules = d.binDir ++ [.normal ".bin".toList, .normal d.target.command.toList]

/-- The declared path is rooted only if it leads into the package. -/
def StaysIn : Prop := rooted rules d.target.target.toList = true → d.root <+: d.source rules

/-- What a plan says of a launcher. -/
def place : String × LexPath × LexPath := (d.target.command, d.source rules, d.output rules)

end Declared

def ShimEntry.place (e : ShimEntry) : String × LexPath × LexPath := (e.command, e.source, e.target)

section Planning

variable (codec : JsonCodec) (files : Files) (rules : Rules)

/-- The targets of an accepted manifest. -/
def binTargets (packageJson : String) : List BinTarget :=
  match PackageManifest.parse codec packageJson with
  | .ok manifest => (manifest.bin.map PackageBin.targets).getD []
  | .error _ => []

/-- Targets without a file are passed over. -/
def present (root : LexPath) (targets : List BinTarget) : List BinTarget :=
  targets.filter fun t => files.status (join rules root t.target.toList) ≠ .missing

def declaredOf (package : ShimPackage) (targets : List BinTarget) : List Declared :=
  (present files rules package.treeRoot targets).map fun t => ⟨package.treeRoot, package.binDir, t⟩

/-- The launchers of a workspace package go through its link. -/
def declaredThrough (package : WorkspaceShimPackage) (targets : List BinTarget) : List Declared :=
  (present files rules package.treeRoot targets).map fun t => ⟨package.linkRoot, package.binDir, t⟩

def declaredBy (package : ShimPackage) : List Declared :=
  declaredOf files rules package (binTargets codec package.packageJson)

def declaredByWorkspace (package : WorkspaceShimPackage) : List Declared :=
  declaredThrough files rules package (binTargets codec package.packageJson)

theorem validCommand_of_mem_binTargets {packageJson : String} {t : BinTarget}
    (h : t ∈ binTargets codec packageJson) : Npm.validCommand t.command.toList = true := by
  rw [binTargets] at h
  cases hparse : PackageManifest.parse codec packageJson with
  | error e =>
    rw [hparse] at h
    exact absurd h List.not_mem_nil
  | ok manifest =>
    rw [hparse] at h
    cases hbin : manifest.bin with
    | none => simp [hbin] at h
    | some bin =>
      simp only [hbin, Option.map_some, Option.getD_some] at h
      have hwell := (PackageManifest.Reachable.parse hparse).wellFormed
      exact (hwell.bin bin hbin).2.command t h

end Planning

/-! ### What planning keeps -/

section Tracks

variable (toUppercase : Char → List Char) {rules : Rules} (root : ManagedRoot rules)

/-- Entries are what was declared, inside the managed root, with their outputs
reserved. -/
structure Tracks (strategy : ShimStrategy) (declared : List Declared) (state : ShimState) : Prop where
  places : (state.entries.map ShimEntry.place).Perm (declared.map (Declared.place rules))
  strategies : ∀ e ∈ state.entries, e.strategy = strategy
  outputs : state.outputs.Perm
    (state.entries.flatMap fun e => shimOutputKeys toUppercase rules e.target e.strategy)
  nodup : state.outputs.Nodup
  contained : ∀ d ∈ declared, root.contains (d.source rules) = true ∧ root.contains (d.output rules) = true

theorem reserveKeys_eq_ok {target : LexPath} {keys outputs outputs' : List ShimKey} (hnodup : outputs.Nodup)
    (h : reserveKeys target keys outputs = .ok outputs') :
    outputs'.Perm (outputs ++ keys) ∧ outputs'.Nodup := by
  induction keys generalizing outputs with
  | nil =>
    obtain rfl := Except.ok.inj h
    rw [List.append_nil]
    exact ⟨List.Perm.refl _, hnodup⟩
  | cons key keys ih =>
    simp only [reserveKeys, bind_eq_ok, rejectIf_eq_ok] at h
    obtain ⟨_, hfresh, h⟩ := h
    obtain ⟨hperm, hnodup'⟩ := ih (List.nodup_cons.mpr ⟨hfresh, hnodup⟩) h
    refine ⟨hperm.trans ?_, hnodup'⟩
    rw [List.cons_append]
    exact List.perm_middle.symm

variable {toUppercase root}

theorem Tracks.addEntry {strategy : ShimStrategy} {declared : List Declared} {state state' : ShimState}
    (h : Tracks toUppercase root strategy declared state) {files : Files} {platform : Platform} {d : Declared}
    {inspected : LexPath} (hsource : root.contains (d.source rules) = true)
    (houtput : root.contains (d.output rules) = true)
    (hadd : Shims.addEntry toUppercase files platform rules strategy state d.target.command
      (d.source rules) (d.output rules) inspected = .ok state') :
    Tracks toUppercase root strategy (declared ++ [d]) state' := by
  simp only [Shims.addEntry, reserveShimOutputs, bind_eq_ok, pure_eq_ok] at hadd
  obtain ⟨outputs, hreserve, interpreter, _, rfl⟩ := hadd
  obtain ⟨hperm, hnodup⟩ := reserveKeys_eq_ok h.nodup hreserve
  refine ⟨?_, fun e he => ?_, ?_, hnodup, fun d' hd' => ?_⟩
  · rw [List.map_append, List.map_append]
    exact h.places.append (List.Perm.refl _)
  · rcases List.mem_append.mp he with he | he
    · exact h.strategies e he
    · rw [List.mem_singleton.mp he]
  · rw [List.flatMap_append, List.flatMap_singleton]
    exact hperm.trans (h.outputs.append (List.Perm.refl _))
  · rcases List.mem_append.mp hd' with hd' | hd'
    · exact h.contained d' hd'
    · rw [List.mem_singleton.mp hd']
      exact ⟨hsource, houtput⟩

/-- **A target of an installed package** adds its launcher or has no file. -/
theorem Tracks.planTarget {strategy : ShimStrategy} {declared : List Declared} {state state' : ShimState}
    (h : Tracks toUppercase root strategy declared state) {files : Files} {platform : Platform}
    {package : ShimPackage} {t : BinTarget}
    (hplan : Shims.planTarget toUppercase files root platform strategy package state t = .ok state') :
    Tracks toUppercase root strategy (declared ++ declaredOf files rules package [t]) state' := by
  simp only [Shims.planTarget, bind_eq_ok, rejectIf_eq_ok, Bool.not_eq_true', Bool.not_eq_false] at hplan
  obtain ⟨_, hsource, hplan⟩ := hplan
  rw [declaredOf, present]
  cases hstatus : files.status (join rules package.treeRoot t.target.toList) with
  | missing =>
    rw [hstatus] at hplan
    obtain rfl := pure_eq_ok.mp hplan
    simpa [hstatus] using h
  | unreadable =>
    rw [hstatus] at hplan
    cases hplan
  | symlink =>
    rw [hstatus] at hplan
    cases hplan
  | other =>
    rw [hstatus] at hplan
    cases hplan
  | regular mode =>
    rw [hstatus] at hplan
    simp only [bind_eq_ok, rejectIf_eq_ok, Bool.not_eq_false] at hplan
    obtain ⟨_, houtput, hadd⟩ := hplan
    have hpresent : [t].filter (fun t => files.status (join rules package.treeRoot t.target.toList) ≠ .missing) =
        [t] := by
      simp [hstatus]
    rw [hpresent]
    exact h.addEntry (d := ⟨package.treeRoot, package.binDir, t⟩) hsource houtput hadd

/-- **A target of a workspace package** adds its launcher or has no file. -/
theorem Tracks.planWorkspaceTarget {strategy : ShimStrategy} {declared : List Declared} {state state' : ShimState}
    (h : Tracks toUppercase root strategy declared state) {files : Files} {platform : Platform}
    {workspaceRoot : LexPath} {package : WorkspaceShimPackage} {t : BinTarget}
    (hplan : Shims.planWorkspaceTarget toUppercase files root platform workspaceRoot strategy package state t =
      .ok state') :
    Tracks toUppercase root strategy (declared ++ declaredThrough files rules package [t]) state' := by
  simp only [Shims.planWorkspaceTarget, bind_eq_ok, rejectIf_eq_ok] at hplan
  obtain ⟨_, _, hplan⟩ := hplan
  rw [declaredThrough, present]
  cases hstatus : files.status (join rules package.treeRoot t.target.toList) with
  | missing =>
    rw [hstatus] at hplan
    obtain rfl := pure_eq_ok.mp hplan
    simpa [hstatus] using h
  | unreadable =>
    rw [hstatus] at hplan
    cases hplan
  | symlink =>
    rw [hstatus] at hplan
    cases hplan
  | other =>
    rw [hstatus] at hplan
    cases hplan
  | regular mode =>
    rw [hstatus] at hplan
    simp only [bind_eq_ok, rejectIf_eq_ok, Bool.or_eq_true, Bool.not_eq_true', not_or, Bool.not_eq_false] at hplan
    obtain ⟨_, _, _, _, _, _, _, ⟨hsource, houtput⟩, hadd⟩ := hplan
    have hpresent : [t].filter (fun t => files.status (join rules package.treeRoot t.target.toList) ≠ .missing) =
        [t] := by
      simp [hstatus]
    rw [hpresent]
    exact h.addEntry (d := ⟨package.linkRoot, package.binDir, t⟩) hsource houtput hadd

theorem Tracks.planPackage {strategy : ShimStrategy} {declared : List Declared} {state state' : ShimState}
    (h : Tracks toUppercase root strategy declared state) {codec : JsonCodec} {files : Files}
    {platform : Platform} {package : ShimPackage}
    (hplan : Shims.planPackage toUppercase codec files root platform strategy state package = .ok state') :
    Tracks toUppercase root strategy (declared ++ declaredBy codec files rules package) state' := by
  simp only [Shims.planPackage, bind_eq_ok, mapError_eq_ok] at hplan
  obtain ⟨_, _, _, _, manifest, hparse, hplan⟩ := hplan
  rw [declaredBy, binTargets, hparse]
  cases hbin : manifest.bin with
  | none =>
    rw [hbin] at hplan
    obtain rfl := pure_eq_ok.mp hplan
    simpa [hbin, declaredOf, present] using h
  | some bin =>
    rw [hbin] at hplan
    simp only [hbin, Option.map_some, Option.getD_some]
    refine foldlM_inv_done (I := fun done state =>
      Tracks toUppercase root strategy (declared ++ declaredOf files rules package done) state)
      (fun done t s s' hs hstep => ?_) ?_ hplan
    · have hsplit : declaredOf files rules package (done ++ [t]) =
          declaredOf files rules package done ++ declaredOf files rules package [t] := by
        rw [declaredOf, present, List.filter_append, List.map_append]
        rfl
      rw [hsplit, ← List.append_assoc]
      exact hs.planTarget hstep
    · rw [declaredOf, present, List.filter_nil, List.map_nil, List.append_nil]
      exact h

theorem Tracks.planWorkspacePackage {strategy : ShimStrategy} {declared : List Declared}
    {state state' : ShimState} (h : Tracks toUppercase root strategy declared state) {codec : JsonCodec}
    {files : Files} {platform : Platform} {workspaceRoot : LexPath} {package : WorkspaceShimPackage}
    (hplan : Shims.planWorkspacePackage toUppercase codec files root platform workspaceRoot strategy state package =
      .ok state') :
    Tracks toUppercase root strategy (declared ++ declaredByWorkspace codec files rules package) state' := by
  simp only [Shims.planWorkspacePackage, bind_eq_ok, mapError_eq_ok] at hplan
  obtain ⟨_, _, _, _, manifest, hparse, hplan⟩ := hplan
  rw [declaredByWorkspace, binTargets, hparse]
  cases hbin : manifest.bin with
  | none =>
    rw [hbin] at hplan
    obtain rfl := pure_eq_ok.mp hplan
    simpa [hbin, declaredThrough, present] using h
  | some bin =>
    rw [hbin] at hplan
    simp only [hbin, Option.map_some, Option.getD_some]
    refine foldlM_inv_done (I := fun done state =>
      Tracks toUppercase root strategy (declared ++ declaredThrough files rules package done) state)
      (fun done t s s' hs hstep => ?_) ?_ hplan
    · have hsplit : declaredThrough files rules package (done ++ [t]) =
          declaredThrough files rules package done ++ declaredThrough files rules package [t] := by
        rw [declaredThrough, present, List.filter_append, List.map_append]
        rfl
      rw [hsplit, ← List.append_assoc]
      exact hs.planWorkspaceTarget hstep
    · rw [declaredThrough, present, List.filter_nil, List.map_nil, List.append_nil]
      exact h

end Tracks

/-! ### Plans -/

section Plans

variable {toUppercase : Char → List Char} {rules : Rules} {codec : JsonCodec} {files : Files}
  {root : ManagedRoot rules} {platform : Platform}

theorem sortEntries_perm (entries : List ShimEntry) : (sortEntries entries).Perm entries :=
  List.mergeSort_perm _ _

/-- Sorted entries are tracked, with their outputs in the order of the entries. -/
theorem Tracks.sorted {strategy : ShimStrategy} {declared : List Declared} {state : ShimState}
    (h : Tracks toUppercase root strategy declared state) :
    Tracks toUppercase root strategy declared ⟨sortEntries state.entries,
      (sortEntries state.entries).flatMap fun e => shimOutputKeys toUppercase rules e.target strategy⟩ := by
  have hsorted := sortEntries_perm state.entries
  have hstrategies : ∀ e ∈ sortEntries state.entries, e.strategy = strategy :=
    fun e he => h.strategies e (hsorted.mem_iff.mp he)
  have hkeys : ((sortEntries state.entries).flatMap fun e => shimOutputKeys toUppercase rules e.target strategy) =
      (sortEntries state.entries).flatMap fun e => shimOutputKeys toUppercase rules e.target e.strategy := by
    refine List.flatMap_congr fun e he => ?_
    rw [hstrategies e he]
  refine ⟨(hsorted.map _).trans h.places, hstrategies, List.Perm.of_eq hkeys, ?_, h.contained⟩
  rw [hkeys]
  exact ((hsorted.flatMap_right _).symm.nodup_iff).mp ((h.outputs.nodup_iff).mp h.nodup)

theorem tracks_planShims {packages : List ShimPackage} {plan : ShimPlan rules}
    (h : planShims toUppercase codec files root platform packages = .ok plan) :
    plan.managedRoot = root ∧ ∃ strategy, strategyOf platform = .ok strategy ∧
      Tracks toUppercase root strategy (packages.flatMap (declaredBy codec files rules)) ⟨plan.entries,
        plan.entries.flatMap fun e => shimOutputKeys toUppercase rules e.target strategy⟩ := by
  simp only [planShims, bind_eq_ok, pure_eq_ok] at h
  obtain ⟨strategy, hstrategy, state, hloop, rfl⟩ := h
  have hstart : Tracks toUppercase root strategy [] ⟨[], []⟩ :=
    ⟨List.Perm.refl _, fun e he => absurd he List.not_mem_nil, List.Perm.refl _, List.nodup_nil,
      fun d hd => absurd hd List.not_mem_nil⟩
  refine ⟨rfl, strategy, hstrategy, Tracks.sorted ?_⟩
  refine foldlM_inv_done (I := fun done state =>
    Tracks toUppercase root strategy (done.flatMap (declaredBy codec files rules)) state)
    (fun done package s s' hs hstep => ?_) hstart hloop
  rw [List.flatMap_append, List.flatMap_singleton]
  exact hs.planPackage hstep

theorem tracks_planShimsWithWorkspacePackages {packages : List ShimPackage} {workspaceRoot : LexPath}
    {workspacePackages : List WorkspaceShimPackage} {plan : ShimPlan rules}
    (h : planShimsWithWorkspacePackages toUppercase codec files root platform packages workspaceRoot
      workspacePackages = .ok plan) :
    ∃ strategy outputs, Tracks toUppercase root strategy (packages.flatMap (declaredBy codec files rules) ++
      workspacePackages.flatMap (declaredByWorkspace codec files rules)) ⟨plan.entries, outputs⟩ := by
  simp only [planShimsWithWorkspacePackages, bind_eq_ok, pure_eq_ok] at h
  obtain ⟨first, hfirst, _, _, strategy, hstrategy, state, hloop, rfl⟩ := h
  obtain ⟨_, strategy', hstrategy', htracks⟩ := tracks_planShims hfirst
  obtain rfl := Except.ok.inj (hstrategy.symm.trans hstrategy')
  refine ⟨strategy, _, Tracks.sorted ?_⟩
  refine foldlM_inv_done (I := fun done state =>
    Tracks toUppercase root strategy (packages.flatMap (declaredBy codec files rules) ++
      done.flatMap (declaredByWorkspace codec files rules)) state)
    (fun done package s s' hs hstep => ?_) ?_ hloop
  · rw [List.flatMap_append, List.flatMap_singleton, ← List.append_assoc]
    exact hs.planWorkspacePackage hstep
  · rw [List.flatMap_nil, List.append_nil]
    exact htracks

/-! ### Requests -/

/-- The two planners. -/
inductive Request where
  | registry
  | workspace (workspaceRoot : LexPath) (workspacePackages : List WorkspaceShimPackage)

namespace Request

variable (toUppercase codec files root platform) in
def plan (packages : List ShimPackage) : Request → Except PlanError (ShimPlan rules)
  | registry => planShims toUppercase codec files root platform packages
  | workspace workspaceRoot workspacePackages =>
    planShimsWithWorkspacePackages toUppercase codec files root platform packages workspaceRoot workspacePackages

variable (codec files rules) in
/-- The commands a plan is made for. -/
def declared (packages : List ShimPackage) : Request → List Declared
  | registry => packages.flatMap (declaredBy codec files rules)
  | workspace _ workspacePackages => packages.flatMap (declaredBy codec files rules) ++
      workspacePackages.flatMap (declaredByWorkspace codec files rules)

theorem tracks_plan {request : Request} {packages : List ShimPackage} {plan : ShimPlan rules}
    (h : request.plan toUppercase codec files root platform packages = .ok plan) :
    ∃ strategy outputs, Tracks toUppercase root strategy (request.declared rules codec files packages)
      ⟨plan.entries, outputs⟩ := by
  cases request with
  | registry =>
    obtain ⟨_, strategy, _, htracks⟩ := tracks_planShims h
    exact ⟨strategy, _, htracks⟩
  | workspace workspaceRoot workspacePackages => exact tracks_planShimsWithWorkspacePackages h

theorem validCommand_of_mem_declared {request : Request} {packages : List ShimPackage} {d : Declared}
    (h : d ∈ request.declared rules codec files packages) :
    Npm.validCommand d.target.command.toList = true := by
  have hpackages : d ∈ packages.flatMap (declaredBy codec files rules) →
      Npm.validCommand d.target.command.toList = true := by
    intro hd
    obtain ⟨package, _, hd⟩ := List.mem_flatMap.mp hd
    obtain ⟨t, ht, rfl⟩ := List.mem_map.mp hd
    exact validCommand_of_mem_binTargets codec (List.mem_filter.mp ht).1
  cases request with
  | registry => exact hpackages h
  | workspace workspaceRoot workspacePackages =>
    rcases List.mem_append.mp h with h | h
    · exact hpackages h
    · obtain ⟨package, _, hd⟩ := List.mem_flatMap.mp h
      obtain ⟨t, ht, rfl⟩ := List.mem_map.mp hd
      exact validCommand_of_mem_binTargets codec (List.mem_filter.mp ht).1

end Request

/-- The launchers of a plan are those of the declared commands; each runs a file
of its package and lies in the `.bin` directory, and no two write one file. -/
structure Contained (plan : ShimPlan rules) (declared : List Declared) : Prop where
  places : (plan.entries.map ShimEntry.place).Perm (declared.map (Declared.place rules))
  inside : ∀ d ∈ declared, d.Inside rules
  direct : ∀ d ∈ declared, d.Direct rules
  distinct : (plan.entries.flatMap fun e => shimOutputs e.target e.strategy).Nodup

/-- Outputs with different keys are different. -/
theorem nodup_shimOutputs {entries : List ShimEntry} {strategy : ShimStrategy}
    (hstrategies : ∀ e ∈ entries, e.strategy = strategy)
    (h : (entries.flatMap fun e => shimOutputKeys toUppercase rules e.target e.strategy).Nodup) :
    (entries.flatMap fun e => shimOutputs e.target e.strategy).Nodup := by
  have hkeys : (entries.flatMap fun e => shimOutputKeys toUppercase rules e.target e.strategy) =
      (entries.flatMap fun e => shimOutputs e.target e.strategy).map fun output =>
        shimTargetKey toUppercase rules output strategy := by
    rw [List.map_flatMap]
    refine List.flatMap_congr fun e he => ?_
    rw [shimOutputKeys, hstrategies e he]
  rw [hkeys] at h
  exact h.of_map _

/-- **Planned launchers stay with their packages** exactly if the rooted paths
among the declared ones do. -/
theorem contained_iff {request : Request} {packages : List ShimPackage} {plan : ShimPlan rules}
    (h : request.plan toUppercase codec files root platform packages = .ok plan) :
    Contained plan (request.declared rules codec files packages) ↔
      ∀ d ∈ request.declared rules codec files packages, d.StaysIn rules := by
  obtain ⟨strategy, outputs, htracks⟩ := Request.tracks_plan h
  constructor
  · intro hcontained d hd _
    exact (hcontained.inside d hd).1
  · intro hstays
    refine ⟨htracks.places, fun d hd => ⟨?_, ?_⟩, fun d hd => ?_, ?_⟩
    · by_cases hrooted : rooted rules d.target.target.toList = true
      · exact hstays d hd hrooted
      · exact below_join d.root (Bool.eq_false_iff.mpr hrooted)
    · have hsource := (htracks.contained d hd).1
      simp only [ManagedRoot.contains, Bool.and_eq_true, Bool.not_eq_true', List.elem_eq_mem,
        decide_eq_false_iff_not] at hsource
      exact hsource.1.2
    · exact join_command (Request.validCommand_of_mem_declared hd) (htracks.contained d hd).2
    · exact nodup_shimOutputs htracks.strategies (htracks.outputs.nodup_iff.mp htracks.nodup)

end Plans

/-! ### A command of one package that runs a file of another -/

/-- A path below the managed directory `/m`. -/
def managedPath (names : List String) : LexPath := .rootDir :: ("m" :: names).map fun name => .normal name.toList

def managedDirectory : ManagedRoot .unix := ⟨managedPath [], rfl, by decide⟩

def escapingDocument : Json :=
  .obj [("name", .str "a"), ("version", .str "1.0.0"), ("bin", .str ".//m/b/cli.js")]

def escapingCodec : JsonCodec := Lockfile.libraryCodec [escapingDocument]

def escapingPackage : ShimPackage where
  treeRoot := managedPath ["a"]
  packageJson := escapingCodec.encode escapingDocument ++ "\n"
  binDir := managedPath []

/-- The only file is one of the other package. -/
def otherFiles : Files where
  status path := if path = managedPath ["b", "cli.js"] then .regular 0o755 else .missing
  canonicalize path := some path
  firstBytes _ := none

def escapingEntry : ShimEntry where
  command := "a"
  source := managedPath ["b", "cli.js"]
  target := managedPath [".bin", "a"]
  strategy := .unixSymlink
  interpreter := .direct

def escapingPlan : ShimPlan .unix := ⟨managedDirectory, [escapingEntry]⟩

theorem parse_escapingDocument : PackageManifest.parse escapingCodec escapingPackage.packageJson = .ok
    { name := ⟨"a", by decide⟩
      version := .stable 1 0 0
      isPrivate := false
      bin := some ⟨⟨"a", by decide⟩, [⟨"a", "/m/b/cli.js"⟩]⟩ } := by
  have hdecode : escapingCodec.decode escapingPackage.packageJson = .ok escapingDocument :=
    @Lockfile.faithful_libraryCodec [escapingDocument] (List.nodup_singleton _) _ List.mem_cons_self
  have hbin : PackageManifest.parseBin (.str ".//m/b/cli.js") ⟨"a", by decide⟩ =
      .ok ⟨⟨"a", by decide⟩, [⟨"a", "/m/b/cli.js"⟩]⟩ := by
    show Except.ok (PackageBin.mk _ (List.mergeSort [BinTarget.mk "a" "/m/b/cli.js"] _)) = _
    rw [List.mergeSort_singleton]
  simp only [PackageManifest.parse, PackageManifest.ofObject, bind_eq_ok, mapError_eq_ok, orError_eq_ok, pure_eq_ok]
  exact ⟨_, hdecode, _, rfl, _, rfl, _, rfl, _, rfl, _, rfl, _, rfl, _, rfl, _, rfl, _, rfl, _, rfl, _, rfl, _, rfl,
    _, rfl, _, congrArg (Except.map some) hbin, rfl⟩

theorem planShims_escapingPackage (toUppercase : Char → List Char) :
    planShims toUppercase escapingCodec otherFiles managedDirectory .unix [escapingPackage] = .ok escapingPlan := by
  have hpackage : planPackage toUppercase escapingCodec otherFiles managedDirectory .unix .unixSymlink ⟨[], []⟩
      escapingPackage = .ok ⟨[escapingEntry], [.bytes (utf8Bytes (render .unix escapingEntry.target))]⟩ := by
    rw [planPackage, parse_escapingDocument]
    rfl
  have hstrategy : strategyOf .unix = .ok .unixSymlink := rfl
  rw [planShims, hstrategy, ok_bind, List.foldlM_cons, hpackage]
  show Except.ok (ShimPlan.mk managedDirectory (sortEntries [escapingEntry])) = _
  rw [sortEntries, List.mergeSort_singleton]
  rfl

theorem mem_declared_escapingPackage :
    ⟨managedPath ["a"], managedPath [], ⟨"a", "/m/b/cli.js"⟩⟩ ∈
      Request.registry.declared .unix escapingCodec otherFiles [escapingPackage] := by
  rw [Request.declared, List.flatMap_singleton, declaredBy, binTargets, parse_escapingDocument]
  exact List.mem_cons_self

theorem contained_iff_escapingPlan :
    Contained escapingPlan (Request.registry.declared .unix escapingCodec otherFiles [escapingPackage]) ↔
      ∀ d ∈ Request.registry.declared .unix escapingCodec otherFiles [escapingPackage], d.StaysIn .unix :=
  @contained_iff (fun c => [c]) .unix escapingCodec otherFiles managedDirectory .unix .registry [escapingPackage]
    escapingPlan (planShims_escapingPackage _)

/-- A package `a` may declare `.//m/b/cli.js`: its launcher runs a file of `b`. -/
theorem not_forall_contained :
    ¬ ∀ (rules : Rules) (toUppercase : Char → List Char) (codec : JsonCodec) (files : Files)
      (root : ManagedRoot rules) (platform : Platform) (request : Request) (packages : List ShimPackage)
      (plan : ShimPlan rules), request.plan toUppercase codec files root platform packages = .ok plan →
        Contained plan (request.declared rules codec files packages) := by
  intro hall
  have hcontained := hall .unix (fun c => [c]) escapingCodec otherFiles managedDirectory .unix .registry
    [escapingPackage] escapingPlan (planShims_escapingPackage _)
  have hinside := (hcontained.inside _ mem_declared_escapingPackage).1
  exact absurd hinside (by decide)

end Shims

end Tapid
