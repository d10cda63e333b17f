/-
Writing a lockfile and reading it back.

A reader checks more than a writer: it refuses hook outputs on copied packages,
entries without roots from schema 5 on and workspace entries before schema 7,
none of which every mutating operation rules out.  Up to these three the
checks of a reachable lockfile and of its document agree.

* `LockedPackage.Valid.parse_fields` — the key of a validated entry parses to its
  own fields;
* `Lockfile.Stored.accepted_iff` — when a reader accepts what was written;
* `Lockfile.fromJson_toJson_iff` — the round trip holds exactly then.
-/
import Tapid.LockfileInvariant

namespace Tapid

open Text Fallible

namespace LockedPackage

variable {url : UrlParser}

/-- The key of a validated entry is made of its own fields. -/
theorem Valid.key_eq {p : LockedPackage} {source : PackageSource} (h : p.Valid url source)
    {n : PackageName} (hn : PackageName.parse p.name = .ok n) {v : PackageVersion}
    (hv : PackageVersion.fromStr p.version = .ok v) :
    p.key url = LockfilePackageKey.renderFields (LockfilePackageSource.ofPackageSource source).text
      n.text v.display p.peerContext p.platformContext := by
  rw [key, h.source_eq, hn, hv]
  simp only [h.canonical, (LockfilePackageKey.parseSource_of_packageSource h.source_eq h.canonical).2]

/-- **The key of a validated entry parses to its own fields.** -/
theorem Valid.parse_fields (hurl : HostsHaveNoBar url) {p : LockedPackage} {source : PackageSource}
    (h : p.Valid url source) : ∃ n v, n.text = p.name ∧ v.display = p.version ∧
      LockfilePackageKey.parse url (p.key url) =
        .ok ⟨LockfilePackageSource.ofPackageSource source, n, v, p.peerContext, p.platformContext⟩ := by
  obtain ⟨n, hn⟩ := h.name
  obtain ⟨v, hv⟩ := h.version
  obtain ⟨c, hc⟩ := h.peer
  obtain ⟨q, hq⟩ := h.platform
  obtain ⟨hsource, htext⟩ :=
    LockfilePackageKey.parseSource_of_packageSource h.source_eq h.canonical
  have hbar : '|' ∉ (LockfilePackageSource.ofPackageSource source).text.toList := by
    rw [htext, ← h.canonical]
    exact PackageSource.not_mem_identity hurl h.source_eq
  have hmismatch : LockfilePackageKey.workspaceMismatch
      ⟨LockfilePackageSource.ofPackageSource source, n, v, p.peerContext, p.platformContext⟩ =
      false := by
    rw [LockfilePackageKey.workspaceMismatch, LockfilePackageSource.ofPackageSource]
    cases source.registry <;> rfl
  refine ⟨n, v, PackageName.text_of_parse hn, PackageVersion.display_of_fromStr hv, ?_⟩
  rw [h.key_eq hn hv]
  exact LockfilePackageKey.parse_renderFields hbar (htext ▸ hsource) hc hq hmismatch

/-- The key of a validated entry is accepted. -/
theorem Valid.parse_key (hurl : HostsHaveNoBar url) {p : LockedPackage} {source : PackageSource}
    (h : p.Valid url source) : ∃ k, LockfilePackageKey.parse url (p.key url) = .ok k := by
  obtain ⟨n, v, -, -, hparse⟩ := h.parse_fields hurl
  exact ⟨_, hparse⟩

/-- The kind of source in the key of a validated entry. -/
theorem isWorkspace_ofPackageSource (source : PackageSource) :
    (LockfilePackageSource.ofPackageSource source).isWorkspace = false := by
  rw [LockfilePackageSource.ofPackageSource]
  cases source.registry <;> rfl

/-- Validated entries under one key come from one source, with one name,
version and context. -/
theorem Valid.eq_of_key_eq (hurl : HostsHaveNoBar url) {p q : LockedPackage} {source source' : PackageSource}
    (hp : p.Valid url source) (hq : q.Valid url source') (hkey : p.key url = q.key url) :
    p.registry = q.registry ∧ p.name = q.name ∧ p.version = q.version ∧
      p.peerContext = q.peerContext ∧ p.platformContext = q.platformContext := by
  obtain ⟨n, v, hn, hv, hparse⟩ := hp.parse_fields hurl
  obtain ⟨n', v', hn', hv', hparse'⟩ := hq.parse_fields hurl
  rw [hkey, hparse', Except.ok.injEq, LockfilePackageKey.mk.injEq] at hparse
  obtain ⟨hsource, rfl, rfl, hpeer, hplatform⟩ := hparse
  have hregistry : p.registry = q.registry := by
    rw [← (LockfilePackageKey.parseSource_of_packageSource hp.source_eq hp.canonical).2, ← hsource]
    exact (LockfilePackageKey.parseSource_of_packageSource hq.source_eq hq.canonical).2
  exact ⟨hregistry, hn.symm.trans hn', hv.symm.trans hv', hpeer.symm, hplatform.symm⟩

end LockedPackage

namespace Lockfile

variable {url : UrlParser} {codec : JsonCodec}

/-- What a reader demands beyond the checks of the operations and of the
writer. -/
structure Rereadable (url : UrlParser) (l : Lockfile) : Prop where
  noCopiedHooks : ∀ k p, l.packages.get? k = some p → p.isCopied url = true → p.derivedHooks = []
  rooted : l.lockfileVersion = Schema.provenanceLegacyLockfileVersion →
    l.hasPackages = false ∨ l.roots ≠ []
  workspaceVersion : l.lockfileVersion < Schema.lockfileVersion → l.workspacePackages.isEmpty = true

/-- The checks of the writer, as facts. -/
theorem toJson_eq_ok {l : Lockfile} {s : String} (h : l.toJson url codec = .ok s) :
    l.validateAliasSchema url = .ok () ∧
      ¬ (Schema.rootsLegacyLockfileVersion ≤ l.lockfileVersion ∧ l.hasPackages = true ∧ l.roots = []) ∧
      l.checkProvenance url Schema.rootsLegacyLockfileVersion = .ok () ∧
      s = codec.encode l.toValue ++ "\n" := by
  simp only [toJson, bind_eq_ok, rejectIf_eq_ok, pure_eq_ok] at h
  obtain ⟨_, hschema, _, hroots, _, hprov, rfl⟩ := h
  exact ⟨hschema, hroots, hprov, rfl⟩

/-- A lockfile with roots and provenance is written. -/
theorem exists_toJson {l : Lockfile} (codec : JsonCodec) (hschema : l.validateAliasSchema url = .ok ())
    (hroots : l.roots ≠ []) (hprov : l.checkProvenance url Schema.rootsLegacyLockfileVersion = .ok ()) :
    ∃ s, l.toJson url codec = .ok s := by
  simp only [toJson, bind_eq_ok, rejectIf_eq_ok, pure_eq_ok]
  exact ⟨_, (), hschema, (), fun h => hroots h.2.2, (), hprov, rfl⟩

/-- **When a reader accepts what was written.** -/
theorem Stored.accepted_iff (hurl : HostsHaveNoBar url) {l : Lockfile} (hl : Stored url l) {s : String}
    (hs : l.toJson url codec = .ok s) : Accepted url l ↔ Rereadable url l := by
  obtain ⟨hschema, hroots, hprov, _⟩ := toJson_eq_ok hs
  constructor
  · intro h
    refine ⟨fun k p hp hcopied => ?_, fun hversion => ?_, fun hversion => ?_⟩
    · obtain ⟨_, hvalid, _⟩ := checkEntry_eq_ok.mp (h.packages (k, p) (OrdMap.mem_entries.mpr hp))
      exact (LockedPackage.validate_iff_withoutHooks.mp hvalid).2 hcopied
    · by_contra hne
      rw [not_or, Bool.not_eq_false, not_not] at hne
      exact h.rooted ⟨le_of_eq hversion.symm, hne⟩
    · by_contra hne
      exact h.workspaceVersion ⟨hversion, hne⟩
  · intro h
    refine {
      rooted := fun hbad => ?_
      provenance := hprov
      rootsCanonical := hl.rootsCanonical
      workspaceVersion := fun hbad => hbad.2 (h.workspaceVersion hbad.1)
      roots := hl.roots
      schema := hschema
      bindings := hl.bindings
      packages := ?_
      workspacePackages := ?_
      packageEdges := checkEdges_eq_ok.mpr fun k p hp => (hl.package k p (OrdMap.mem_entries.mp hp)).2.2
      workspaceEdges := checkEdges_eq_ok.mpr fun k p hp =>
        (hl.workspacePackage k p (OrdMap.mem_entries.mp hp)).2.2 }
    · -- from schema 6 on the writer made the same check
      rcases eq_or_lt_of_le hbad.1 with heq | hlt
      · rcases h.rooted heq.symm with hempty | hne
        · rw [hempty] at hbad
          exact absurd hbad.2.1 Bool.false_ne_true
        · exact hne hbad.2.2
      · exact hroots ⟨hlt, hbad.2⟩
    · rintro ⟨k, p⟩ hmem
      have hp := OrdMap.mem_entries.mp hmem
      obtain ⟨rfl, hvalid, _⟩ := hl.package k p hp
      obtain ⟨source, hv⟩ := LockedPackage.validate_eq_ok.mp hvalid
      have hkey : ∃ k, LockfilePackageKey.parse url (p.withoutHooks.key url) = .ok k :=
        hv.parse_key hurl
      exact checkEntry_eq_ok.mpr ⟨hkey,
        LockedPackage.validate_iff_withoutHooks.mpr ⟨hvalid, h.noCopiedHooks _ p hp⟩, rfl⟩
    · rintro ⟨k, p⟩ hmem
      obtain ⟨rfl, hvalid, _⟩ := hl.workspacePackage k p (OrdMap.mem_entries.mp hmem)
      exact checkEntry_eq_ok.mpr
        ⟨⟨_, LockfilePackageKey.parse_workspace p.source⟩, hvalid, rfl⟩

theorem Stored.version_lt {l : Lockfile} (hl : Stored url l) : l.lockfileVersion < 2 ^ 32 := by
  have hv := hl.version
  simp only [isSupportedVersion, Schema.copiedSourceLockfileVersion, Schema.lockfileVersion,
    Schema.lifecycleLockfileVersion, Schema.legacyLockfileVersion,
    Schema.provenanceLegacyLockfileVersion, Schema.registryOnlyLockfileVersion,
    Schema.rootsLegacyLockfileVersion, Bool.or_eq_true, beq_iff_eq] at hv
  omega

/-- The codec reads a written document back. -/
def Faithful (codec : JsonCodec) (j : Json) : Prop := codec.decode (codec.encode j ++ "\n") = .ok j

/-- Reading back what was written is a matter of the checks on documents. -/
theorem Stored.fromJson_iff_accepted {l : Lockfile} (hl : Stored url l)
    (hcodec : Faithful codec l.toValue) {s : String} (hs : l.toJson url codec = .ok s) :
    Lockfile.fromJson url codec s = .ok l ↔ Accepted url l := by
  have hdecode : codec.decode s = .ok l.toValue := by
    rw [(toJson_eq_ok hs).2.2.2]
    exact hcodec
  rw [← checkDocument_eq_ok, Lockfile.fromJson, hdecode]
  simp only [Except.mapError, ok_bind, ofValue_toValue hl.version_lt, hl.digest, hl.version,
    bind_eq_ok, rejectIf_eq_ok, not_true, not_false_eq_true, pure_eq_ok]
  constructor
  · rintro ⟨_, _, _, hcheck, _⟩
    exact hcheck
  · intro hcheck
    exact ⟨(), trivial, (), hcheck, trivial⟩

/-- Nothing else is read back than what was written. -/
theorem Stored.eq_of_fromJson {l l' : Lockfile} (hl : Stored url l) (hcodec : Faithful codec l.toValue)
    {s : String} (hs : l.toJson url codec = .ok s) (h : Lockfile.fromJson url codec s = .ok l') : l' = l := by
  have hdecode : codec.decode s = .ok l.toValue := by
    rw [(toJson_eq_ok hs).2.2.2]
    exact hcodec
  rw [Lockfile.fromJson, hdecode] at h
  simp only [Except.mapError, ok_bind, ofValue_toValue hl.version_lt, hl.digest, bind_eq_ok, pure_eq_ok] at h
  obtain ⟨_, _, _, _, rfl⟩ := h
  rfl

/-- **Lockfile round trip.**  What a reachable lockfile writes is read back as
the same lockfile exactly when no copied package carries hook outputs, a
schema 5 lockfile with entries has roots, and there are workspace entries only
from schema 7 on. -/
theorem fromJson_toJson_iff (hurl : HostsHaveNoBar url) {l : Lockfile} (hl : Reachable url codec l)
    (hcodec : Faithful codec l.toValue) {s : String} (hs : l.toJson url codec = .ok s) :
    fromJson url codec s = .ok l ↔ Rereadable url l := by
  rw [hl.stored.fromJson_iff_accepted hcodec hs, hl.stored.accepted_iff hurl hs]

/-! ### Sample documents -/

/-- Escaped characters of a JSON string. -/
def escapeChar (c : Char) : List Char :=
  if c = '"' then ['\\', '"'] else if c = '\\' then ['\\', '\\'] else [c]

mutual

/-- Two-space indented rendering of texts without control characters. -/
def prettyJson (indent : String) : Json → String
  | .null => "null"
  | .bool b => if b then "true" else "false"
  | .int n => toString n
  | .float text => text
  | .str s => "\"" ++ String.ofList (s.toList.flatMap escapeChar) ++ "\""
  | .arr [] => "[]"
  | .arr (x :: xs) => "[\n" ++ prettyItems (indent ++ "  ") (x :: xs) ++ "\n" ++ indent ++ "]"
  | .obj [] => "\x7b\x7d"
  | .obj (x :: xs) =>
    "\x7b\n" ++ prettyFields (indent ++ "  ") (x :: xs) ++ "\n" ++ indent ++ "\x7d"

def prettyItems (indent : String) : List Json → String
  | [] => ""
  | [x] => indent ++ prettyJson indent x
  | x :: xs => indent ++ prettyJson indent x ++ ",\n" ++ prettyItems indent xs

def prettyFields (indent : String) : List (String × Json) → String
  | [] => ""
  | [(k, x)] => indent ++ "\"" ++ k ++ "\": " ++ prettyJson indent x
  | (k, x) :: xs =>
    indent ++ "\"" ++ k ++ "\": " ++ prettyJson indent x ++ ",\n" ++ prettyFields indent xs

end

/-- A codec that prints every value and knows how to read one document. -/
def documentCodec (j : Json) : JsonCodec where
  encode := prettyJson ""
  decode text := if text = prettyJson "" j ++ "\n" then .ok j else .error "unknown document"

theorem faithful_documentCodec (j : Json) : Faithful (documentCodec j) j := if_pos rfl

/-- A codec that prints every value and knows how to read some documents. -/
def libraryCodec (documents : List Json) : JsonCodec where
  encode := prettyJson ""
  decode text := match documents.find? fun j => prettyJson "" j ++ "\n" == text with
    | some j => .ok j
    | none => .error "unknown document"

theorem faithful_libraryCodec {documents : List Json}
    (hnodup : (documents.map (prettyJson "")).Nodup) {j : Json} (hj : j ∈ documents) :
    Faithful (libraryCodec documents) j := by
  have hfind : documents.find? (fun x => prettyJson "" x ++ "\n" == prettyJson "" j ++ "\n") =
      some j := by
    induction documents with
    | nil => exact absurd hj List.not_mem_nil
    | cons x documents ih =>
      rw [List.map_cons, List.nodup_cons] at hnodup
      rcases List.mem_cons.mp hj with rfl | hj
      · exact List.find?_cons_of_pos (beq_self_eq_true _)
      · have hne : (prettyJson "" x ++ "\n" == prettyJson "" j ++ "\n") = false := by
          rw [beq_eq_false_iff_ne]
          intro heq
          refine hnodup.1 (List.mem_map.mpr ⟨j, hj, ?_⟩)
          have hlist := congrArg String.toList heq
          rw [String.toList_append, String.toList_append] at hlist
          exact (String.toList_inj.mp (List.append_cancel_right hlist)).symm
        rw [List.find?_cons, hne]
        exact ih hnodup.2 hj
  show (match documents.find? (fun x => prettyJson "" x ++ "\n" ==
      prettyJson "" j ++ "\n") with
    | some j => Except.ok j
    | none => .error "unknown document") = Except.ok j
  rw [hfind]

theorem hostsHaveNoBar_npmRegistry : HostsHaveNoBar npmRegistry := by
  intro s u host hu hhost
  rw [npmRegistry] at hu
  split_ifs at hu
  obtain rfl := Option.some_inj.mp hu
  obtain rfl := Option.some_inj.mp hhost
  decide

/-- The sample lockfile with its package as root. -/
def rootedLockfile : Lockfile :=
  { sampleLockfile with roots := [samplePackage.key npmRegistry], rootBindings := ∅ }

theorem reachable_rootedLockfile (codec : JsonCodec) : Reachable npmRegistry codec rootedLockfile := by
  have hnew : Reachable npmRegistry codec emptyLockfile := Reachable.new new_sampleDigest
  have h := hnew.mutate (.insertPackage samplePackage)
  rw [insert_samplePackage] at h
  have h := h.mutate (.setRoots [samplePackage.key npmRegistry])
  have hcheck : checkAll (sampleLockfile.checkRoot npmRegistry)
      (sortDedup [samplePackage.key npmRegistry]) = .ok () := by decide
  rw [Mutation.run_eq, Mutation.checked, leftover, hcheck] at h
  exact h

theorem rereadable_rootedLockfile : Rereadable npmRegistry rootedLockfile := by
  refine ⟨fun k p hp hcopied => ?_, fun h => ?_, fun h => absurd h (by decide)⟩
  · have hmem := OrdMap.mem_values.mpr ⟨k, hp⟩
    have hall : ∀ p ∈ rootedLockfile.packages.values, p.derivedHooks = [] := by decide
    exact hall p hmem
  · exact Or.inr (by simp [rootedLockfile])

theorem fromJson_toJson_rootedLockfile :
    ∃ s, rootedLockfile.toJson npmRegistry (documentCodec rootedLockfile.toValue) = .ok s ∧
      fromJson npmRegistry (documentCodec rootedLockfile.toValue) s = .ok rootedLockfile := by
  have hschema : rootedLockfile.validateAliasSchema npmRegistry = .ok () := by decide
  obtain ⟨s, hs⟩ := exists_toJson (documentCodec rootedLockfile.toValue) hschema
    (by decide) (by decide)
  exact ⟨s, hs, (fromJson_toJson_iff hostsHaveNoBar_npmRegistry (reachable_rootedLockfile _)
    (faithful_documentCodec _) hs).mpr rereadable_rootedLockfile⟩

/-! ### Hook outputs on a copied package -/

/-- A package copied from a local archive. -/
def copiedPackage : LockedPackage :=
  { samplePackage with
    registry := "file:vendor/left-pad.tgz#" ++ sampleDigest
    registryIntegrityDeclared := none }

def sampleHook : DerivedHookOutput where
  attestation := "hmac-sha256-aaaaaaaaaaaaaaaaaaaaaaaaaaaaaaaaaaaaaaaaaaaaaaaaaaaaaaaaaaaaaaaa"
  hook := "postinstall"
  key := sampleDigest
  treeDigest := sampleDigest

def copiedKey : String :=
  "file:vendor/left-pad.tgz#" ++ sampleDigest ++ "|left-pad@1.3.0|peer=-|platform=os=;cpu=;libc="

theorem key_copiedPackage : copiedPackage.key npmRegistry = copiedKey := by decide

theorem isCopied_copiedPackage : copiedPackage.isCopied npmRegistry = true := by decide

/-- The lockfile after inserting the copied package. -/
def copiedInserted : Lockfile :=
  { emptyLockfile with
    lockfileVersion := Schema.copiedSourceLockfileVersion
    packages := OrdMap.ofList [(copiedKey, copiedPackage)] }

/-- The lockfile after making it the root and recording a hook output. -/
def copiedLockfile : Lockfile :=
  { copiedInserted with
    roots := [copiedKey]
    packages := OrdMap.ofList [(copiedKey, { copiedPackage with derivedHooks := [sampleHook] })] }

theorem Reachable.checked {l l' : Lockfile} (h : Reachable url codec l) (m : Mutation)
    (hm : m.checked url l = .ok l') : Reachable url codec l' := by
  have := h.mutate m
  rw [Mutation.run_eq, hm] at this
  exact this

theorem reachable_copiedLockfile (codec : JsonCodec) :
    Reachable npmRegistry codec copiedLockfile := by
  have hgraph : checkGraph npmRegistry emptyLockfile [copiedPackage] [] = .ok () := by
    decide
  have hinsert : emptyLockfile.withGraph npmRegistry [copiedPackage] [] = copiedInserted := by
    simp only [withGraph, List.any_cons, isCopied_copiedPackage, List.map_cons, key_copiedPackage]
    rfl
  have hroots : checkAll (copiedInserted.checkRoot npmRegistry) [copiedKey] = .ok () := by
    decide +kernel
  have hhooks : validateDerivedHooks [sampleHook] = .ok () := by decide
  have hget : copiedInserted.packages.get? copiedKey = some copiedPackage :=
    OrdMap.get?_insert_self _ _ _
  have hnew : Reachable npmRegistry codec emptyLockfile := Reachable.new new_sampleDigest
  have h : Reachable npmRegistry codec copiedInserted := hnew.checked (.insertPackage copiedPackage)
    (by rw [Mutation.checked, hgraph, hinsert]; rfl)
  have h : Reachable npmRegistry codec { copiedInserted with roots := [copiedKey] } :=
    h.checked (.setRoots [copiedKey])
      (by rw [Mutation.checked, show sortDedup [copiedKey] = [copiedKey] from rfl, hroots]; rfl)
  refine h.checked (.setDerivedHooks copiedKey [sampleHook]) ?_
  have hreplace : copiedInserted.packages.insert copiedKey
      { copiedPackage with derivedHooks := [sampleHook] } = copiedLockfile.packages :=
    OrdMap.insert_ofList_singleton _ _ _
  simp only [Mutation.checked, hhooks, hget, orError, ok_bind, withDerivedHooks, hreplace]
  rfl

theorem not_accepted_copiedLockfile : ¬ Accepted npmRegistry copiedLockfile := by
  intro h
  have hget : copiedLockfile.packages.get? copiedKey =
      some { copiedPackage with derivedHooks := [sampleHook] } := OrdMap.get?_insert_self _ _ _
  obtain ⟨_, hvalid, _⟩ := checkEntry_eq_ok.mp (h.packages _ (OrdMap.mem_entries.mpr hget))
  have hnil := (LockedPackage.validate_iff_withoutHooks.mp hvalid).2 isCopied_copiedPackage
  simp at hnil

/-- A written lockfile that is refused on reading: hook outputs may be recorded
for a copied package, but not read. -/
theorem not_forall_fromJson_toJson :
    ¬ ∀ (url : UrlParser) (codec : JsonCodec) (l : Lockfile) (s : String), HostsHaveNoBar url →
      Reachable url codec l → Faithful codec l.toValue → l.toJson url codec = .ok s →
      fromJson url codec s = .ok l := by
  intro hall
  have hreach := reachable_copiedLockfile (documentCodec copiedLockfile.toValue)
  have hcodec := faithful_documentCodec copiedLockfile.toValue
  have hschema : copiedLockfile.validateAliasSchema npmRegistry = .ok () := by decide
  obtain ⟨s, hs⟩ := exists_toJson (documentCodec copiedLockfile.toValue) hschema
    (by decide) (by decide)
  have hread := hall _ _ copiedLockfile s hostsHaveNoBar_npmRegistry hreach hcodec hs
  exact not_accepted_copiedLockfile ((hreach.stored.fromJson_iff_accepted hcodec hs).mp hread)

end Lockfile

end Tapid
