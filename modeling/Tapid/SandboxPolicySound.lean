/-
Sandbox policies stay below their bounds.

A grant that is resolved is settled (`GrantSettled`): its kind is the kind of what is
there, or nothing is there and it stands for a directory to be made.  Either
way the path decides the kind as far as coverage is concerned, so that a grant
at the path of a configured one covers no more than that one does.

* `resolveProjectGrant_settled` — one grant: below the root, and settled;
* `GrantSettled.covers` — comparing paths compares coverage;
* `resolvePolicy_confined` — the whole policy.
-/
import Tapid.SandboxPolicy

namespace Tapid

open Fallible
open SymlinkTree (Entry PathError)
open SymlinkTree.Tree (Found)

section Grants

variable {debug : List Char → String} {host : Host}

/-- What a path leads to, as a name without links. -/
theorem canonicalPath_eq_ok {path : HostPath} {kind : String} {canonical : OsPath} :
    canonicalPath host path kind = .ok canonical ↔ host.resolve true path = .ok canonical :=
  mapError_eq_ok

theorem Host.found_resolve {path : HostPath} {canonical : OsPath} (h : host.resolve true path = .ok canonical) :
    Found host.tree canonical := by
  refine SymlinkTree.Tree.resolve_found ?_ h
  cases path.absolute with
  | true => exact SymlinkTree.Tree.found_root
  | false => exact SymlinkTree.Tree.found_of_directory host.currentDir_eq

theorem symlinkMetadata_notFound {path : HostPath} :
    host.symlinkMetadata path = .error .notFound ↔ host.resolve false path = .error .notFound := by
  rw [Host.symlinkMetadata]
  cases host.resolve false path with
  | error e =>
    constructor
    · intro h
      cases h
      rfl
    · intro h
      cases h
      rfl
  | ok path =>
    constructor
    · intro h
      cases h
    · intro h
      cases h

/-- Climbing stops above a name that was not found. -/
theorem climb_eq_ok {configured : ProjectGrant} {target : HostPath} {parts ancestor : List (SymlinkTree.Part OsName)}
    {missing found : List OsName}
    (hmissing : host.resolve false ⟨true, parts.reverse⟩ = .error .notFound)
    (h : climb debug host configured target parts missing = .ok (ancestor, found)) :
    ∃ name rest, found.reverse = name :: rest ∧
      host.resolve false ⟨true, ancestor ++ [.name name]⟩ = .error .notFound := by
  induction parts generalizing missing with
  | nil =>
    rw [climb] at h
    · cases h
    · exact fun _ _ heq => by cases heq
  | cons part above ih =>
    cases part with
    | current =>
      rw [climb] at h
      · cases h
      · exact fun _ _ heq => by cases heq
    | parent =>
      rw [climb] at h
      · cases h
      · exact fun _ _ heq => by cases heq
    | name name =>
      rw [climb] at h
      cases hinspect : host.symlinkMetadata ⟨true, above.reverse⟩ with
      | ok entry =>
        rw [hinspect] at h
        cases h
        refine ⟨name, missing.reverse, List.reverse_concat, ?_⟩
        rwa [List.reverse_cons] at hmissing
      | error error =>
        rw [hinspect] at h
        cases error with
        | notFound => exact ih (symlinkMetadata_notFound.mp hinspect) h
        | notDirectory => cases h
        | loop => cases h
        | refused text => cases h

/-- A target that is not found has names only. -/
theorem grantTarget_notFound {root : OsPath} {configured : ProjectGrant} (hroot : Found host.tree root)
    (h : host.resolve false (grantTarget root configured) = .error .notFound) :
    (grantTarget root configured).normalized = (grantTarget root configured).parts := by
  by_cases hdot : configured.text = ['.']
  · -- the project root itself is there
    exfalso
    rw [grantTarget, if_pos hdot] at h
    have hresolve : ∀ n, host.tree.resolve false n [] (root.map .name ++ [.current]) ≠ .error .notFound := by
      intro n hmissing
      rcases SymlinkTree.Tree.resolve_names [.current] hroot with hwalk | ⟨text, hwalk⟩
      · exact SymlinkTree.Tree.resolve_current (hwalk.symm.trans hmissing)
      · cases hwalk.symm.trans hmissing
    exact hresolve _ h
  · rw [HostPath.normalized, List.filter_eq_self]
    intro part hpart
    rw [grantTarget, if_neg hdot] at hpart
    rcases List.mem_append.mp hpart with hpart | hpart
    · obtain ⟨name, _, rfl⟩ := List.mem_map.mp hpart
      rfl
    · obtain ⟨text, _, rfl⟩ := List.mem_map.mp hpart
      rfl

theorem existingAncestor_eq_ok {root : OsPath} {configured : ProjectGrant} {access : FilesystemAccess}
    {ancestor : List (SymlinkTree.Part OsName)} {missing : List OsName} (hroot : Found host.tree root)
    (h : existingAncestor debug host configured (grantTarget root configured) access = .ok (ancestor, missing)) :
    missing = [] ∨ ∃ name rest, missing.reverse = name :: rest ∧
      host.resolve false ⟨true, ancestor ++ [.name name]⟩ = .error .notFound := by
  rw [existingAncestor] at h
  cases hinspect : host.symlinkMetadata (grantTarget root configured) with
  | ok entry =>
    rw [hinspect] at h
    cases h
    exact .inl rfl
  | error error =>
    rw [hinspect] at h
    cases error with
    | notDirectory => cases h
    | loop => cases h
    | refused text => cases h
    | notFound =>
      have hmissing := symlinkMetadata_notFound.mp hinspect
      simp only at h
      split_ifs at h
      refine .inr (climb_eq_ok ?_ h)
      rw [List.reverse_reverse, grantTarget_notFound hroot hmissing]
      exact hmissing

/-- What a resolved grant says of the files. -/
inductive GrantSettled (host : Host) (grant : ResolvedGrant) : Prop
  | existing (hkind : filesystemKind host grant.path = .ok grant.kind) (hfound : Found host.tree grant.path)
  | missing (hkind : grant.kind = .directorySubtree) (above below : OsPath) (name : OsName)
      (hpath : grant.path = above ++ name :: below) (hnone : host.tree.entry (above ++ [name]) = none)

/-- **A grant that is resolved** is below the root, and settled. -/
theorem resolveProjectGrant_settled {root : OsPath} {access : FilesystemAccess} {configured : ProjectGrant}
    {grant : ResolvedGrant} (hroot : Found host.tree root)
    (h : resolveProjectGrant debug host root access configured = .ok grant) :
    root <+: grant.path ∧ GrantSettled host grant := by
  rw [resolveProjectGrant] at h
  obtain ⟨⟨ancestor, missing⟩, hancestor, h⟩ := bind_eq_ok.mp h
  obtain ⟨canonical, hcanonical, h⟩ := bind_eq_ok.mp h
  obtain ⟨_, hbelow, h⟩ := bind_eq_ok.mp h
  have hunder : root <+: canonical := not_not.mp (rejectIf_eq_ok.mp hbelow)
  rw [canonicalPath_eq_ok] at hcanonical
  by_cases hnil : missing = []
  · rw [if_pos hnil] at h
    obtain ⟨kind, hkind, h⟩ := bind_eq_ok.mp h
    obtain rfl := pure_eq_ok.mp h
    exact ⟨hunder, .existing hkind (Host.found_resolve hcanonical)⟩
  · rw [if_neg hnil] at h
    obtain rfl := pure_eq_ok.mp h
    refine ⟨hunder.trans (List.prefix_append _ _), ?_⟩
    obtain ⟨name, below, hreverse, hnotFound⟩ := (existingAncestor_eq_ok hroot hancestor).resolve_left hnil
    refine .missing rfl canonical below name (congrArg (canonical ++ ·) hreverse) ?_
    exact SymlinkTree.Tree.entry_eq_none_of_notFound hcanonical hnotFound

/-- Paths a grant gives access to. -/
def Covers (grant : ResolvedGrant) (path : OsPath) : Prop :=
  path = grant.path ∨ grant.kind = .directorySubtree ∧ grant.path <+: path

/-- The path of a settled grant decides whether it stands for a subtree. -/
theorem GrantSettled.kind_eq {grant cap : ResolvedGrant} (hgrant : GrantSettled host grant) (hcap : GrantSettled host cap)
    (hpath : grant.path = cap.path) (hkind : grant.kind = .directorySubtree) : cap.kind = .directorySubtree := by
  cases hcap with
  | missing hcapKind above below name hcapPath hnone => exact hcapKind
  | existing hcapKind hfound =>
    cases hgrant with
    | existing hgrantKind _ =>
      rw [hpath, hcapKind] at hgrantKind
      exact (Except.ok.inj hgrantKind).trans hkind
    | missing _ above below name hgrantPath hnone =>
      -- what is there has everything above it there
      exfalso
      have hsome := hfound.isSome
      rw [← hpath, hgrantPath, List.append_cons] at hsome
      have habove := SymlinkTree.Tree.isSome_of_append below hsome
      rw [hnone] at habove
      cases habove

/-- **Comparing paths compares coverage.** -/
theorem GrantSettled.covers {grant cap : ResolvedGrant} {path : OsPath} (hgrant : GrantSettled host grant)
    (hcap : GrantSettled host cap)
    (hbelow : grant.path = cap.path ∨ cap.kind = .directorySubtree ∧ cap.path <+: grant.path)
    (hpath : Covers grant path) : Covers cap path := by
  rcases hbelow with heq | ⟨hkind, hunder⟩
  · rcases hpath with rfl | ⟨hsubtree, hunder⟩
    · exact .inl heq
    · exact .inr ⟨hgrant.kind_eq hcap heq hsubtree, heq ▸ hunder⟩
  · rcases hpath with rfl | ⟨_, hmore⟩
    · exact .inr ⟨hkind, hunder⟩
    · exact .inr ⟨hkind, hunder.trans hmore⟩

theorem mapM_resolveProjectGrant {root : OsPath} {access : FilesystemAccess} {configured : List ProjectGrant}
    {grants : List ResolvedGrant} (hroot : Found host.tree root)
    (h : configured.mapM (resolveProjectGrant debug host root access) = .ok grants) :
    ∀ grant ∈ grants, root <+: grant.path ∧ GrantSettled host grant := by
  intro grant hgrant
  obtain ⟨text, _, hresolve⟩ := of_mem_mapM_ok h grant hgrant
  exact resolveProjectGrant_settled hroot hresolve

theorem validateGrants_eq_ok {root : OsPath} {access : FilesystemAccess} {dimension : String}
    {requested : List ResolvedGrant} {configured : List ProjectGrant} {u : Unit} (hroot : Found host.tree root)
    (hrequested : ∀ grant ∈ requested, GrantSettled host grant)
    (h : validateGrants debug host root access dimension requested configured = .ok u) :
    ∃ allowed, configured.mapM (resolveProjectGrant debug host root access) = .ok allowed ∧
      ∀ grant ∈ requested, ∀ path, Covers grant path → ∃ cap ∈ allowed, Covers cap path := by
  rw [validateGrants] at h
  obtain ⟨allowed, hallowed, h⟩ := bind_eq_ok.mp h
  refine ⟨allowed, hallowed, fun grant hgrant path hpath => ?_⟩
  have hany := rejectIf_eq_ok.mp (checkAll_eq_ok.mp h grant hgrant)
  rw [not_not, List.any_eq_true] at hany
  obtain ⟨cap, hcap, hbelow⟩ := hany
  have hsettled := (mapM_resolveProjectGrant hroot hallowed cap hcap).2
  exact ⟨cap, hcap, (hrequested grant hgrant).covers hsettled (of_decide_eq_true hbelow) hpath⟩

end Grants

/-! ### The whole policy -/

/-- A limit that is set bounds what is requested. -/
def AtMost (requested ceiling : Option Nat) : Prop :=
  ∀ limit, ceiling = some limit → ∃ value, requested = some value ∧ value ≤ limit

theorem atMost_of_bounded {requested ceiling : Option Nat} (h : bounded requested ceiling = true) :
    AtMost requested ceiling := by
  rintro limit rfl
  rw [bounded] at h
  obtain ⟨value, hvalue, hle⟩ := (Option.any_eq_true _ _).mp h
  exact ⟨value, hvalue, of_decide_eq_true hle⟩

/-- Nothing but the grants goes beyond a policy. -/
structure WithinCeiling (policy ceiling : SandboxPolicy) : Prop where
  mode : ceiling.mode = .required → policy.mode = .required
  assurance : ceiling.assurance = .managedTree → policy.assurance = .managedTree
  network : policy.network = true → ceiling.network = true
  subprocess : policy.subprocess = true → ceiling.subprocess = true
  environment : ∀ name ∈ policy.environment, name ∈ ceiling.environment
  timeoutSeconds : AtMost policy.limits.timeoutSeconds ceiling.limits.timeoutSeconds
  maxOutputBytes : AtMost policy.limits.maxOutputBytes ceiling.limits.maxOutputBytes
  maxProcesses : AtMost policy.limits.maxProcesses ceiling.limits.maxProcesses
  maxMemoryBytes : AtMost policy.limits.maxMemoryBytes ceiling.limits.maxMemoryBytes

section Policy

variable {debug : List Char → String} {host : Host}

theorem validateCeiling_eq_ok {request : ExecutionRequest} {ceiling : SandboxPolicy} {root : OsPath}
    {read write : List ResolvedGrant} {u : Unit} (hceiling : request.policyCeiling = some ceiling)
    (h : validateCeiling debug host request root read write = .ok u) :
    WithinCeiling request.policy ceiling ∧
      (∃ v, validateGrants debug host root .read "read" read ceiling.filesystem.read = .ok v) ∧
      ∃ v, validateGrants debug host root .write "write" write ceiling.filesystem.write = .ok v := by
  rw [validateCeiling, hceiling] at h
  obtain ⟨_, hmode, h⟩ := bind_eq_ok.mp h
  obtain ⟨_, hassurance, h⟩ := bind_eq_ok.mp h
  obtain ⟨_, hnetwork, h⟩ := bind_eq_ok.mp h
  obtain ⟨_, hsubprocess, h⟩ := bind_eq_ok.mp h
  obtain ⟨_, henvironment, h⟩ := bind_eq_ok.mp h
  obtain ⟨_, hlimits, h⟩ := bind_eq_ok.mp h
  obtain ⟨_, hread, hwrite⟩ := bind_eq_ok.mp h
  rw [rejectIf_eq_ok] at hmode hassurance hnetwork hsubprocess henvironment hlimits
  simp only [Bool.or_eq_true, not_or, Bool.not_eq_true', Bool.not_eq_false] at hlimits
  obtain ⟨⟨⟨htime, houtput⟩, hprocesses⟩, hmemory⟩ := hlimits
  refine ⟨{
    mode := fun hrequired => by_contra fun hne => hmode ⟨hrequired, hne⟩
    assurance := fun hmanaged => by_contra fun hne => hassurance ⟨hmanaged, hne⟩
    network := fun hpolicy => by_contra fun hne => hnetwork ⟨hpolicy, Bool.eq_false_of_not_eq_true hne⟩
    subprocess := fun hpolicy => by_contra fun hne => hsubprocess ⟨hpolicy, Bool.eq_false_of_not_eq_true hne⟩
    environment := fun name hname => ?_
    timeoutSeconds := atMost_of_bounded htime
    maxOutputBytes := atMost_of_bounded houtput
    maxProcesses := atMost_of_bounded hprocesses
    maxMemoryBytes := atMost_of_bounded hmemory }, ⟨_, hread⟩, ⟨_, hwrite⟩⟩
  by_contra hne
  refine henvironment (List.any_eq_true.mpr ⟨name, hname, ?_⟩)
  rw [Bool.not_eq_true', ← Bool.not_eq_true, List.contains_iff_mem]
  exact hne

/-- **Confinement and ceiling**: the grants of a policy that is resolved are
below the project root; under a configured policy they cover nothing that its
grants do not, and nothing else goes beyond it. -/
theorem resolvePolicy_confined (debug : List Char → String) (host : Host) (request : ExecutionRequest)
    (additions : RuntimeFilesystemAdditions) (resolved : ResolvedSandboxPolicy)
    (h : resolvePolicy debug host request additions = .ok resolved) :
    ∃ read write searched,
      host.resolve true request.projectRoot = .ok resolved.projectRoot ∧
      request.policy.filesystem.read.mapM
        (resolveProjectGrant debug host resolved.projectRoot .read) = .ok read ∧
      request.policy.filesystem.write.mapM
        (resolveProjectGrant debug host resolved.projectRoot .write) = .ok write ∧
      resolved.read = read ++ searched ++ additions.read ∧ resolved.write = write ++ additions.write ∧
      (∀ grant ∈ read ++ write, resolved.projectRoot <+: grant.path) ∧
      ∀ ceiling, request.policyCeiling = some ceiling →
        WithinCeiling request.policy ceiling ∧
        ∃ allowedRead allowedWrite,
          ceiling.filesystem.read.mapM
            (resolveProjectGrant debug host resolved.projectRoot .read) = .ok allowedRead ∧
          ceiling.filesystem.write.mapM
            (resolveProjectGrant debug host resolved.projectRoot .write) = .ok allowedWrite ∧
          (∀ grant ∈ read, ∀ path, Covers grant path → ∃ cap ∈ allowedRead, Covers cap path) ∧
          ∀ grant ∈ write, ∀ path, Covers grant path → ∃ cap ∈ allowedWrite, Covers cap path := by
  rw [resolvePolicy] at h
  obtain ⟨root, hroot, h⟩ := bind_eq_ok.mp h
  obtain ⟨read, hread, h⟩ := bind_eq_ok.mp h
  obtain ⟨write, hwrite, h⟩ := bind_eq_ok.mp h
  obtain ⟨_, hvalidate, h⟩ := bind_eq_ok.mp h
  obtain ⟨searched, hsearched, h⟩ := bind_eq_ok.mp h
  obtain ⟨_, _, h⟩ := bind_eq_ok.mp h
  obtain rfl := pure_eq_ok.mp h
  rw [canonicalPath_eq_ok] at hroot
  have hfound := Host.found_resolve hroot
  have hreads := mapM_resolveProjectGrant hfound hread
  have hwrites := mapM_resolveProjectGrant hfound hwrite
  refine ⟨read, write, searched, hroot, hread, hwrite, rfl, rfl, ?_, fun ceiling hceiling => ?_⟩
  · intro grant hgrant
    rcases List.mem_append.mp hgrant with hgrant | hgrant
    · exact (hreads grant hgrant).1
    · exact (hwrites grant hgrant).1
  · obtain ⟨hwithin, ⟨_, hvalidRead⟩, ⟨_, hvalidWrite⟩⟩ := validateCeiling_eq_ok hceiling hvalidate
    obtain ⟨allowedRead, hallowedRead, hcoversRead⟩ :=
      validateGrants_eq_ok hfound (fun grant hgrant => (hreads grant hgrant).2) hvalidRead
    obtain ⟨allowedWrite, hallowedWrite, hcoversWrite⟩ :=
      validateGrants_eq_ok hfound (fun grant hgrant => (hwrites grant hgrant).2) hvalidWrite
    exact ⟨hwithin, allowedRead, allowedWrite, hallowedRead, hallowedWrite, hcoversRead, hcoversWrite⟩

end Policy

/-! ### A project with a link -/

def nameOf (text : String) : OsName := OsName.ofText text.toList

/-- `/p/src/a`, and a link `/p/link` to `src`. -/
def linkedEntry (path : OsPath) : Option (Entry OsName) :=
  if path = [] ∨ path = [nameOf "p"] ∨ path = [nameOf "p", nameOf "src"] then some .directory
  else if path = [nameOf "p", nameOf "src", nameOf "a"] then some .file
  else if path = [nameOf "p", nameOf "link"] then some (.link false [.name (nameOf "src")])
  else none

theorem linkedEntry_closed (path : OsPath) (name : OsName) (h : (linkedEntry (path ++ [name])).isSome) :
    linkedEntry path = some .directory := by
  have habove : ∀ {full : OsPath}, path ++ [name] = full → path = full.dropLast := by
    rintro full rfl
    exact List.dropLast_concat.symm
  have hdirectory : path = [] ∨ path = [nameOf "p"] ∨ path = [nameOf "p", nameOf "src"] := by
    unfold linkedEntry at h
    split_ifs at h with hdir hfile hlink
    · rcases hdir with hnil | hp | hsrc
      · cases List.append_ne_nil_of_right_ne_nil path (List.cons_ne_nil name []) hnil
      · exact .inl (habove hp)
      · exact .inr (.inl (habove hsrc))
    · exact .inr (.inr (habove hfile))
    · exact .inr (.inl (habove hlink))
    · cases h
  rw [linkedEntry, if_pos hdirectory]

def linkedHost : Host where
  tree := {
    entry := linkedEntry
    refuses := fun _ => none
    maxLinks := 40
    root := by decide
    closed := linkedEntry_closed }
  currentDir := [nameOf "p"]
  currentDir_eq := by decide

def grantsPolicy (read write : List ProjectGrant) : SandboxPolicy where
  mode := .required
  assurance := .managedTree
  filesystem := ⟨read, write⟩
  network := false
  environment := []
  subprocess := true
  limits := {}

/-- A file that is read and a directory that is to be made, both through the
link, under a configured policy that names the directory itself. -/
def linkedRequest : ExecutionRequest where
  projectRoot := ⟨false, [.current]⟩
  policy := grantsPolicy [⟨"link/a".toList, by decide⟩] [⟨"link/new/out".toList, by decide⟩]
  policyCeiling := some (grantsPolicy [⟨"src".toList, by decide⟩] [⟨"src/new".toList, by decide⟩])
  executableSearchPaths := []

theorem resolvePolicy_confined_linked : ∃ resolved,
    resolvePolicy String.ofList linkedHost linkedRequest ⟨[], []⟩ = .ok resolved ∧
    resolved.read.map (·.path) = [[nameOf "p", nameOf "src", nameOf "a"]] ∧
    resolved.write.map (·.path) = [[nameOf "p", nameOf "src", nameOf "new", nameOf "out"]] ∧
    ∃ read write searched, resolved.read = read ++ searched ++ [] ∧ resolved.write = write ++ [] ∧
      ∀ grant ∈ read ++ write, resolved.projectRoot <+: grant.path := by
  have hrun : (resolvePolicy String.ofList linkedHost linkedRequest ⟨[], []⟩).toOption.map
      (fun resolved => (resolved.read.map (·.path), resolved.write.map (·.path))) =
      some ([[nameOf "p", nameOf "src", nameOf "a"]],
        [[nameOf "p", nameOf "src", nameOf "new", nameOf "out"]]) := by
    decide +kernel
  cases hresolve : resolvePolicy String.ofList linkedHost linkedRequest ⟨[], []⟩ with
  | error e =>
    rw [hresolve] at hrun
    cases hrun
  | ok resolved =>
    rw [hresolve] at hrun
    obtain ⟨hread, hwrite⟩ := Prod.mk.inj (Option.some.inj hrun)
    obtain ⟨read, write, searched, _, _, _, hreads, hwrites, hbelow, _⟩ :=
      resolvePolicy_confined String.ofList linkedHost linkedRequest ⟨[], []⟩ resolved hresolve
    exact ⟨resolved, rfl, hread, hwrite, read, write, searched, hreads, hwrites, hbelow⟩

end Tapid
