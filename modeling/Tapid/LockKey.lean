/-
Package keys of the lockfile.

A key names one package with its source, version and contexts.  Its text has
four fields separated by `|`; the contexts are percent-encoded canonical
renderings, and parsing accepts a text only if rendering the parsed key gives
the same text back.

* `LockfilePackageKey.parse_eq_ok` — what an accepted key text looks like;
* `LockfilePackageKey.parse_join` — four well-formed fields make an accepted
  key;
* `LockfilePackageKey.parse_workspace` — the key of a workspace member parses.
-/
import Tapid.Core

namespace Tapid

open Text Fallible

/-- Failures of lockfile operations. -/
inductive LockfileError where
  | serialization (message : String)
  | domain (error : DomainError)
  | invalidUrl (value : String)
  | invalidSha512 (value : String)
  | invalidCopiedArtifactEvidence
  | invalidWorkspaceSource (value : String)
  | unsupportedVersion (version : Nat)
  | aliasMetadataInLegacySchema (version : Nat)
  | invalidDerivedOutput (reason : String)
  | regenerationRequired (version : Nat)
  | duplicatePackage (key : String)
  | packageKeyMismatch (key : String)
  | nonCanonicalRegistryIdentity
  | invalidPackageKey (key : String)
  | danglingDependency (package dependency : String)
  | danglingRoot (root : String)
  | missingRoots
  | workspaceIdentityRequiresCurrentVersion
  | missingRegistryIntegrityProvenance (package : String)
  | unverifiedRegistryArtifact (package : String)
  | nonCanonicalRoots
  | dependencyNameMismatch (package dependency target : String)
  | selfDependency (key : String)
  | rootManifestDigestMismatch (expected actual : String)
  deriving DecidableEq

/-! ### Percent encoding -/

/-- UTF-8 bytes of a text. -/
def utf8Bytes (s : List Char) : List UInt8 := s.flatMap String.utf8EncodeChar

/-- Upper-case hexadecimal digit. -/
def hexUpper (n : Nat) : Char := if n < 10 then Char.ofNat (48 + n) else Char.ofNat (55 + n)

/-- Bytes outside the unreserved set become `%XX`. -/
def encodeByte (b : UInt8) : List Char :=
  let c := Char.ofNat b.toNat
  if isAsciiAlphanumeric c || c == '_' || c == '.' || c == '@' then [c]
  else ['%', hexUpper (b.toNat / 16), hexUpper (b.toNat % 16)]

def encode (s : List Char) : List Char := (utf8Bytes s).flatMap encodeByte

/-- Bytes with their escapes resolved. -/
def percentDecodeBytes : List UInt8 → Option (List UInt8)
  | [] => some []
  | 0x25 :: high :: low :: rest => do
    let h ← hexValue (Char.ofNat high.toNat)
    let l ← hexValue (Char.ofNat low.toNat)
    return UInt8.ofNat (h * 16 + l) :: (← percentDecodeBytes rest)
  | 0x25 :: _ => none
  | b :: rest => do return b :: (← percentDecodeBytes rest)

/-- Escapes resolved and read as UTF-8. -/
def percentDecode (value : List Char) (original : String) : Except LockfileError String :=
  orError ((percentDecodeBytes (utf8Bytes value)).bind fun bytes =>
    String.fromUTF8? bytes.toByteArray) (.invalidPackageKey original)

/-! ### Contexts -/

def canonicalPeerContext (context : PeerContext) : String :=
  String.ofList ([','].intercalate (context.entries.map fun (name, version) =>
    "name=".toList ++ encode name.text.toList ++ ";version=".toList ++ encode version.chars))

/-- Encoded dimension of a platform, empty when unrestricted. -/
def encodeDimension (v : Option String) : List Char := (v.map fun s => encode s.toList).getD []

def canonicalPlatformContext (context : PlatformContext) : String :=
  String.ofList ("os=".toList ++ encodeDimension context.os ++ ";cpu=".toList ++
    encodeDimension context.cpu ++ ";libc=".toList ++ encodeDimension context.libc)

theorem toList_canonicalPeerContext (context : PeerContext) :
    (canonicalPeerContext context).toList =
      [','].intercalate (context.entries.map fun (name, version) =>
        "name=".toList ++ encode name.text.toList ++ ";version=".toList ++ encode version.chars) :=
  String.toList_ofList

theorem toList_canonicalPlatformContext (context : PlatformContext) :
    (canonicalPlatformContext context).toList = "os=".toList ++ encodeDimension context.os ++
      ";cpu=".toList ++ encodeDimension context.cpu ++ ";libc=".toList ++
      encodeDimension context.libc :=
  String.toList_ofList

/-- An empty context is written as a dash. -/
def contextOrDash (context : String) : String := if context = "" then "-" else context

def parseContext (field : List Char) (start : String) (original : String) :
    Except LockfileError String := do
  let value ← orError (stripPrefix start.toList field) (.invalidPackageKey original)
  if value.isEmpty || value == ['-'] then
    return ""
  rejectIf (value.any isWhitespace) (.invalidPackageKey original)
  return String.ofList value

/-- One `name=…;version=…` item. -/
def decodePeerItem (item : List Char) (original : String) :
    Except LockfileError (PackageName × PackageVersion) := do
  let (name, version) ← orError (do
    let (name, version) ← splitOncePat ";version=".toList item
    let name ← stripPrefix "name=".toList name
    return (name, version)) (.invalidPackageKey original)
  let name ← (PackageName.parse (← percentDecode name original)).mapError .domain
  let version ← (PackageVersion.fromStr (← percentDecode version original)).mapError .domain
  return (name, version)

def decodePeerContext (value original : String) : Except LockfileError PeerContext :=
  if value = "" then .ok ∅
  else do
    let items ← (value.toList.splitOn ',').mapM fun item => decodePeerItem item original
    let context := OrdMap.ofList items
    rejectIf (canonicalPeerContext context ≠ value) (.invalidPackageKey original)
    return context

/-- One dimension; empty means unrestricted. -/
def decodeDimension (field : List Char) (original : String) :
    Except LockfileError (Option String) :=
  if field.isEmpty then .ok none else (percentDecode field original).map some

def decodePlatformContext (value original : String) : Except LockfileError PlatformContext :=
  if value = "" then (PlatformContext.new none none none).mapError .domain
  else do
    let (os, rest) ← orError ((stripPrefix "os=".toList value.toList).bind
      (splitOncePat ";cpu=".toList)) (.invalidPackageKey original)
    let (cpu, libc) ← orError (splitOncePat ";libc=".toList rest) (.invalidPackageKey original)
    let os ← decodeDimension os original
    let cpu ← decodeDimension cpu original
    let libc ← decodeDimension libc original
    let context ← (PlatformContext.new os cpu libc).mapError .domain
    rejectIf (canonicalPlatformContext context ≠ value) (.invalidPackageKey original)
    return context

/-! ### Workspace sources -/

/-- Components of a relative path; `.` and empty parts disappear. -/
def workspaceComponents (value : String) : List (List Char) → Except LockfileError (List (List Char))
  | [] => .ok []
  | part :: rest =>
    if part.isEmpty || part == ['.'] then workspaceComponents value rest
    else do
      rejectIf (part = ['.', '.'] ∨ ':' ∈ part) (.invalidWorkspaceSource value)
      return part :: (← workspaceComponents value rest)

def canonicalWorkspacePath (value : String) : Except LockfileError String := do
  rejectIf (value = "" ∨ '\\' ∈ value.toList ∨ '|' ∈ value.toList ∨ value.toList.any isControl)
    (.invalidWorkspaceSource value)
  rejectIf (value.toList.head? = some '/') (.invalidWorkspaceSource value)
  let components ← workspaceComponents value (value.toList.splitOn '/')
  rejectIf (components = []) (.invalidWorkspaceSource value)
  return String.ofList (['/'].intercalate components)

/-- What the component scan keeps: plain parts of the text it was given. -/
theorem workspaceComponents_eq_ok {value : String} {parts components : List (List Char)}
    (h : workspaceComponents value parts = .ok components) :
    ∀ part ∈ components, part ∈ parts ∧ part ≠ [] ∧ part ≠ ['.'] ∧ part ≠ ['.', '.'] ∧ ':' ∉ part := by
  induction parts generalizing components with
  | nil =>
    obtain rfl := Except.ok.inj h
    simp
  | cons hd tl ih =>
    rw [workspaceComponents] at h
    split_ifs at h with hskip
    · exact fun part hpart => (ih h part hpart).imp_left (List.mem_cons_of_mem _)
    · simp only [bind_eq_ok, rejectIf_eq_ok, pure_eq_ok, not_or] at h
      obtain ⟨_, hhd, rest, hrest, rfl⟩ := h
      simp only [Bool.or_eq_true, List.isEmpty_iff, beq_iff_eq, not_or] at hskip
      intro part hpart
      rcases List.mem_cons.mp hpart with rfl | hpart
      · exact ⟨List.mem_cons_self, hskip.1, hskip.2, hhd⟩
      · exact (ih hrest part hpart).imp_left (List.mem_cons_of_mem _)

theorem workspaceComponents_of_plain {value : String} {parts : List (List Char)}
    (h : ∀ part ∈ parts, part ≠ [] ∧ part ≠ ['.'] ∧ part ≠ ['.', '.'] ∧ ':' ∉ part) :
    workspaceComponents value parts = .ok parts := by
  induction parts with
  | nil => rfl
  | cons hd tl ih =>
    obtain ⟨h1, h2, h3, h4⟩ := h hd List.mem_cons_self
    have hskip : ¬ (hd.isEmpty || hd == ['.']) = true := by simp [h1, h2]
    rw [workspaceComponents, if_neg hskip, ih fun part hpart => h part (List.mem_cons_of_mem _ hpart)]
    simp [rejectIf, h3, h4, bind, Except.bind, pure, Except.pure]

theorem canonicalWorkspacePath_eq_ok {value p : String} (h : canonicalWorkspacePath value = .ok p) :
    ∃ components : List (List Char), components ≠ [] ∧ p.toList = ['/'].intercalate components ∧
      ∀ part ∈ components, part ≠ [] ∧ part ≠ ['.'] ∧ part ≠ ['.', '.'] ∧ ':' ∉ part ∧ '/' ∉ part ∧
        '\\' ∉ part ∧ '|' ∉ part ∧ part.any isControl = false := by
  simp only [canonicalWorkspacePath, bind_eq_ok, rejectIf_eq_ok, pure_eq_ok, not_or] at h
  obtain ⟨_, hvalue, _, _, components, hcomp, _, hne, rfl⟩ := h
  refine ⟨components, hne, String.toList_ofList, fun part hpart => ?_⟩
  obtain ⟨hmem, h1, h2, h3, h4⟩ := workspaceComponents_eq_ok hcomp part hpart
  have hsub : ∀ c ∈ part, c ∈ value.toList := fun c hc => mem_of_mem_splitOn hmem hc
  refine ⟨h1, h2, h3, h4, not_mem_of_mem_splitOn hmem, fun hc => hvalue.2.1 (hsub _ hc),
    fun hc => hvalue.2.2.1 (hsub _ hc), ?_⟩
  rw [List.any_eq_false]
  intro c hc hcontrol
  exact hvalue.2.2.2 (List.any_eq_true.mpr ⟨c, hsub c hc, hcontrol⟩)

/-- **Canonical paths are fixed points.** -/
theorem canonicalWorkspacePath_idem {value p : String} (h : canonicalWorkspacePath value = .ok p) :
    canonicalWorkspacePath p = .ok p := by
  obtain ⟨components, hne, hp, hparts⟩ := canonicalWorkspacePath_eq_ok h
  have hsplit : p.toList.splitOn '/' = components := by
    rw [hp]
    exact splitOn_join (fun part hpart => (hparts part hpart).2.2.2.2.1) hne
  have hmem : ∀ c ∈ p.toList, c = '/' ∨ ∃ part ∈ components, c ∈ part := fun c hc =>
    mem_intercalate (hp ▸ hc)
  have hscan : workspaceComponents p components = .ok components :=
    workspaceComponents_of_plain fun part hpart => by
      obtain ⟨h1, h2, h3, h4, _⟩ := hparts part hpart
      exact ⟨h1, h2, h3, h4⟩
  have hhead : ∃ c cs, p.toList = c :: cs ∧ c ≠ '/' := by
    cases components with
    | nil => exact absurd rfl hne
    | cons first rest =>
      obtain ⟨h1, _, _, _, h5, _⟩ := hparts first List.mem_cons_self
      cases hfirst : first with
      | nil => exact absurd hfirst h1
      | cons c cs =>
        have hc : c ≠ '/' := by
          rintro rfl
          simp [hfirst] at h5
        cases rest with
        | nil => exact ⟨c, cs, by simp [hp, hfirst, List.intercalate], hc⟩
        | cons second rest =>
          exact ⟨c, _, by rw [hp, hfirst, List.intercalate_cons_cons]; rfl, hc⟩
  obtain ⟨c, cs, hcons, hc⟩ := hhead
  have hempty : p ≠ "" := by
    rintro rfl
    simp at hcons
  have hclean : ¬ (p = "" ∨ '\\' ∈ p.toList ∨ '|' ∈ p.toList ∨ p.toList.any isControl = true) := by
    rintro (hbad | hbad | hbad | hbad)
    · exact hempty hbad
    · rcases hmem _ hbad with hbad | ⟨part, hpart, hbad⟩
      · exact absurd hbad (by decide)
      · exact (hparts part hpart).2.2.2.2.2.1 hbad
    · rcases hmem _ hbad with hbad | ⟨part, hpart, hbad⟩
      · exact absurd hbad (by decide)
      · exact (hparts part hpart).2.2.2.2.2.2.1 hbad
    · obtain ⟨d, hd, hcontrol⟩ := List.any_eq_true.mp hbad
      rcases hmem _ hd with rfl | ⟨part, hpart, hd⟩
      · exact absurd hcontrol (by decide)
      · have := (hparts part hpart).2.2.2.2.2.2.2
        rw [List.any_eq_false] at this
        exact this d hd hcontrol
  simp only [canonicalWorkspacePath, bind_eq_ok, rejectIf_eq_ok, pure_eq_ok]
  refine ⟨(), hclean, (), by simpa [hcons] using hc, components, by rw [hsplit, hscan], (), hne, ?_⟩
  rw [← hp, String.ofList_toList]

/-- A package provided by a workspace member, with a canonical path. -/
structure LocalWorkspaceSource where
  path : String
  name : PackageName
  version : PackageVersion
  canonical : canonicalWorkspacePath path = .ok path
  deriving DecidableEq

namespace LocalWorkspaceSource

def new (path name version : String) : Except LockfileError LocalWorkspaceSource :=
  match h : canonicalWorkspacePath path with
  | .error e => .error e
  | .ok p => do
    let name ← (PackageName.parse name).mapError .domain
    let version ← (PackageVersion.fromStr version).mapError .domain
    return ⟨p, name, version, canonicalWorkspacePath_idem h⟩

/-- `workspace:path:name@version`. -/
def identity (s : LocalWorkspaceSource) : String :=
  "workspace:" ++ s.path ++ ":" ++ s.name.text ++ "@" ++ s.version.display

def parse (value : String) : Except LockfileError LocalWorkspaceSource := do
  let rest ← orError (stripPrefix "workspace:".toList value.toList) (.invalidWorkspaceSource value)
  let (path, package) ← orError (rsplitOnce ':' rest) (.invalidWorkspaceSource value)
  let (name, version) ← orError (rsplitOnce '@' package) (.invalidWorkspaceSource value)
  let source ← new (String.ofList path) (String.ofList name) (String.ofList version)
  rejectIf (source.identity ≠ value) (.invalidWorkspaceSource value)
  return source

end LocalWorkspaceSource

/-! ### Keys -/

/-- Source of a persisted package identity. -/
inductive LockfilePackageSource where
  | registry (origin : RegistryOrigin)
  | copied (source : PackageSource)
  | workspace (source : LocalWorkspaceSource)
  deriving DecidableEq

namespace LockfilePackageSource

def text : LockfilePackageSource → String
  | registry origin => origin.text
  | copied source => source.identity
  | workspace source => source.identity

def packageSource : LockfilePackageSource → Option PackageSource
  | registry origin => some (PackageSource.ofOrigin origin)
  | copied source => some source
  | workspace _ => none

/-- A registry source by its origin, any other as a copied one. -/
def ofPackageSource (source : PackageSource) : LockfilePackageSource :=
  match source.registry with
  | some origin => registry origin
  | none => copied source

def isWorkspace : LockfilePackageSource → Bool
  | workspace _ => true
  | _ => false

end LockfilePackageSource

/-- Exact persisted package identity. -/
structure LockfilePackageKey where
  source : LockfilePackageSource
  name : PackageName
  version : PackageVersion
  peerContext : String
  platformContext : String
  deriving DecidableEq

namespace LockfilePackageKey

/-- `source|name@version|peer=…|platform=…`. -/
def renderFields (source name version peer platform : String) : String :=
  source ++ "|" ++ name ++ "@" ++ version ++ "|peer=" ++ contextOrDash peer ++ "|platform=" ++
    contextOrDash platform

def display (k : LockfilePackageKey) : String :=
  renderFields k.source.text k.name.text k.version.display k.peerContext k.platformContext

def withSource (source : LockfilePackageSource) (name : PackageName) (version : PackageVersion)
    (peer : PeerContext) (platform : PlatformContext) : LockfilePackageKey :=
  ⟨source, name, version, canonicalPeerContext peer, canonicalPlatformContext platform⟩

def fromSource (source : PackageSource) (name : PackageName) (version : PackageVersion)
    (peer : PeerContext) (platform : PlatformContext) : LockfilePackageKey :=
  withSource (.ofPackageSource source) name version peer platform

/-- The key of a workspace member. -/
def workspace (source : LocalWorkspaceSource) : LockfilePackageKey :=
  ⟨.workspace source, source.name, source.version, "",
    canonicalPlatformContext PlatformContext.unrestricted⟩

variable (url : UrlParser)

/-- The source field decides by its start which kind of source it is. -/
def parseSource (field : List Char) : Except LockfileError LockfilePackageSource :=
  if startsWith "workspace:".toList field then
    (LocalWorkspaceSource.parse (String.ofList field)).map .workspace
  else if startsWith "file:".toList field || startsWith "git+".toList field then
    ((PackageSource.parse url (String.ofList field)).mapError .domain).map .copied
  else do
    let origin ← (RegistryOrigin.parse url (String.ofList field)).mapError .domain
    rejectIf (origin.text ≠ String.ofList field) .nonCanonicalRegistryIdentity
    return .registry origin

/-- A workspace source must agree with the name and version of its key. -/
def workspaceMismatch (k : LockfilePackageKey) : Bool :=
  match k.source with
  | .workspace source => source.name != k.name || source.version != k.version
  | _ => false

def parse (value : String) : Except LockfileError LockfilePackageKey :=
  match value.toList.splitOn '|' with
  | [p0, p1, p2, p3] => do
    rejectIf (¬ startsWith "peer=".toList p2 ∨ ¬ startsWith "platform=".toList p3)
      (.invalidPackageKey value)
    let (name, version) ← orError (rsplitOnce '@' p1) (.invalidPackageKey value)
    let source ← parseSource url p0
    let name ← (PackageName.parse (String.ofList name)).mapError .domain
    let version ← (PackageVersion.fromStr (String.ofList version)).mapError .domain
    let peer ← parseContext p2 "peer=" value
    let platform ← parseContext p3 "platform=" value
    let key : LockfilePackageKey := ⟨source, name, version, peer, platform⟩
    let _ ← decodePeerContext peer value
    let _ ← decodePlatformContext platform value
    rejectIf (key.display ≠ value) (.invalidPackageKey value)
    rejectIf (key.workspaceMismatch) (.invalidPackageKey value)
    return key
  | _ => .error (.invalidPackageKey value)

end LockfilePackageKey

/-! ### Characters of canonical contexts -/

/-- The characters a canonical context is made of. -/
def isContextChar (c : Char) : Bool :=
  isAsciiAlphanumeric c || c == '_' || c == '.' || c == '@' || c == '%' || c == '=' || c == ';' ||
    c == ','

theorem not_isWhitespace_of_isContextChar {c : Char} (h : isContextChar c = true) :
    isWhitespace c = false := by
  have hlt : c.toNat < 128 := by
    simp only [isContextChar, Bool.or_eq_true, beq_iff_eq] at h
    rcases h with ((((((h | rfl) | rfl) | rfl) | rfl) | rfl) | rfl) | rfl
    · exact toNat_lt_of_isAsciiAlphanumeric h
    all_goals decide
  exact of_ascii (P := fun c => isContextChar c = true → isWhitespace c = false) (by decide) hlt h

theorem isContextChar_of_mem_encode {s : List Char} {c : Char} (h : c ∈ encode s) :
    isContextChar c = true := by
  obtain ⟨b, _, hb⟩ := List.mem_flatMap.mp h
  rw [encodeByte] at hb
  have hhex : ∀ n < 16, isContextChar (hexUpper n) = true := by decide
  have hlt : b.toNat < 256 := b.toNat_lt
  split_ifs at hb with hkeep
  · rw [List.mem_singleton.mp hb]
    simp only [Bool.or_eq_true] at hkeep
    simp only [isContextChar, Bool.or_eq_true]
    tauto
  · simp only [List.mem_cons, List.not_mem_nil, or_false] at hb
    rcases hb with rfl | rfl | rfl
    · decide
    · exact hhex _ (by omega)
    · exact hhex _ (by omega)

theorem isContextChar_of_mem_peer {context : PeerContext} {c : Char}
    (h : c ∈ (canonicalPeerContext context).toList) : isContextChar c = true := by
  rw [toList_canonicalPeerContext] at h
  rcases mem_intercalate h with rfl | ⟨part, hpart, hc⟩
  · decide
  · obtain ⟨e, _, rfl⟩ := List.mem_map.mp hpart
    have hname : "name=".toList.all isContextChar = true := by decide
    have hver : ";version=".toList.all isContextChar = true := by decide
    simp only [List.mem_append] at hc
    rcases hc with ((hc | hc) | hc) | hc
    · exact List.all_eq_true.mp hname c hc
    · exact isContextChar_of_mem_encode hc
    · exact List.all_eq_true.mp hver c hc
    · exact isContextChar_of_mem_encode hc

theorem isContextChar_of_mem_dimension {v : Option String} {c : Char}
    (h : c ∈ encodeDimension v) : isContextChar c = true := by
  cases v with
  | none => simp [encodeDimension] at h
  | some s => exact isContextChar_of_mem_encode h

theorem isContextChar_of_mem_platform {context : PlatformContext} {c : Char}
    (h : c ∈ (canonicalPlatformContext context).toList) : isContextChar c = true := by
  rw [toList_canonicalPlatformContext] at h
  have hos : "os=".toList.all isContextChar = true := by decide
  have hcpu : ";cpu=".toList.all isContextChar = true := by decide
  have hlibc : ";libc=".toList.all isContextChar = true := by decide
  simp only [List.mem_append] at h
  rcases h with ((((h | h) | h) | h) | h) | h
  · exact List.all_eq_true.mp hos c h
  · exact isContextChar_of_mem_dimension h
  · exact List.all_eq_true.mp hcpu c h
  · exact isContextChar_of_mem_dimension h
  · exact List.all_eq_true.mp hlibc c h
  · exact isContextChar_of_mem_dimension h

/-- A context text that decodes is canonical, hence made of context characters. -/
theorem isContextChar_of_decodePeer {value original : String} {context : PeerContext}
    (h : decodePeerContext value original = .ok context) :
    ∀ c ∈ value.toList, isContextChar c = true := by
  rw [decodePeerContext] at h
  split_ifs at h with hempty
  · simp [hempty]
  · simp only [bind_eq_ok, rejectIf_eq_ok, pure_eq_ok, not_not] at h
    obtain ⟨_, _, _, hcanon, rfl⟩ := h
    intro c hc
    exact isContextChar_of_mem_peer (hcanon ▸ hc)

theorem isContextChar_of_decodePlatform {value original : String} {context : PlatformContext}
    (h : decodePlatformContext value original = .ok context) :
    ∀ c ∈ value.toList, isContextChar c = true := by
  rw [decodePlatformContext] at h
  split_ifs at h with hempty
  · simp [hempty]
  · simp only [bind_eq_ok, rejectIf_eq_ok, pure_eq_ok, not_not] at h
    obtain ⟨_, _, _, _, _, _, _, _, _, _, _, _, _, hcanon, rfl⟩ := h
    intro c hc
    exact isContextChar_of_mem_platform (hcanon ▸ hc)

/-! ### The original text only matters for errors -/

theorem percentDecode_ok_irrel {value : List Char} {o o' t : String}
    (h : percentDecode value o = .ok t) : percentDecode value o' = .ok t := by
  rw [percentDecode, orError_eq_ok] at h ⊢
  exact h

theorem decodePeerItem_ok_irrel {item : List Char} {o o' : String} {r : PackageName × PackageVersion}
    (h : decodePeerItem item o = .ok r) : decodePeerItem item o' = .ok r := by
  simp only [decodePeerItem, bind_eq_ok, orError_eq_ok, mapError_eq_ok, pure_eq_ok] at h ⊢
  obtain ⟨p, hp, t, ht, name, hname, t', ht', version, hversion, rfl⟩ := h
  exact ⟨p, hp, t, percentDecode_ok_irrel ht, name, hname, t', percentDecode_ok_irrel ht', version,
    hversion, rfl⟩

theorem decodePeerContext_ok_irrel {value o o' : String} {context : PeerContext}
    (h : decodePeerContext value o = .ok context) : decodePeerContext value o' = .ok context := by
  rw [decodePeerContext] at h ⊢
  split_ifs at h ⊢ with hempty
  · exact h
  · simp only [bind_eq_ok, rejectIf_eq_ok, pure_eq_ok] at h ⊢
    obtain ⟨items, hitems, _, hcanon, rfl⟩ := h
    refine ⟨items, ?_, (), hcanon, rfl⟩
    clear hcanon
    revert items
    induction value.toList.splitOn ',' with
    | nil => exact fun items hitems => hitems
    | cons hd tl ih =>
      intro items hitems
      simp only [List.mapM_cons, bind_eq_ok, pure_eq_ok] at hitems ⊢
      obtain ⟨r, hr, rs, hrs, rfl⟩ := hitems
      exact ⟨r, decodePeerItem_ok_irrel hr, rs, ih rs hrs, rfl⟩

theorem decodeDimension_ok_irrel {field : List Char} {o o' : String} {r : Option String}
    (h : decodeDimension field o = .ok r) : decodeDimension field o' = .ok r := by
  rw [decodeDimension] at h ⊢
  split_ifs at h ⊢ with hempty
  · exact h
  · rw [map_eq_ok] at h ⊢
    obtain ⟨t, ht, hr⟩ := h
    exact ⟨t, percentDecode_ok_irrel ht, hr⟩

theorem decodePlatformContext_ok_irrel {value o o' : String} {context : PlatformContext}
    (h : decodePlatformContext value o = .ok context) :
    decodePlatformContext value o' = .ok context := by
  rw [decodePlatformContext] at h ⊢
  split_ifs at h ⊢ with hempty
  · exact h
  · simp only [bind_eq_ok, orError_eq_ok, mapError_eq_ok, rejectIf_eq_ok, pure_eq_ok] at h ⊢
    obtain ⟨p, hp, q, hq, os, hos, cpu, hcpu, libc, hlibc, ctx, hctx, _, hcanon, rfl⟩ := h
    exact ⟨p, hp, q, hq, os, decodeDimension_ok_irrel hos, cpu, decodeDimension_ok_irrel hcpu, libc,
      decodeDimension_ok_irrel hlibc, ctx, hctx, (), hcanon, rfl⟩

/-! ### Keys from their fields -/

theorem toList_contextOrDash (context : String) :
    (contextOrDash context).toList = if context.toList = [] then ['-'] else context.toList := by
  by_cases h : context = ""
  · simp [contextOrDash, h]
  · have h' : context.toList ≠ [] := by simpa [String.toList_eq_nil_iff] using h
    rw [contextOrDash, if_neg h, if_neg h']

/-- A context survives its rendering in a key. -/
theorem parseContext_contextOrDash {start context original : String}
    (h : ∀ c ∈ context.toList, isContextChar c = true) :
    parseContext (start.toList ++ (contextOrDash context).toList) start original = .ok context := by
  rw [parseContext, stripPrefix_append, toList_contextOrDash]
  by_cases hempty : context.toList = []
  · have : context = "" := String.toList_eq_nil_iff.mp hempty
    simp [this, orError, bind, Except.bind, pure, Except.pure]
  · have hdash : context.toList ≠ ['-'] := fun hd => by
      have := h '-' (by simp [hd])
      exact absurd this (by decide)
    have hws : ¬ context.toList.any isWhitespace = true := by
      rw [List.any_eq_true]
      rintro ⟨c, hc, hw⟩
      rw [not_isWhitespace_of_isContextChar (h c hc)] at hw
      simp at hw
    simp only [orError, bind, Except.bind, if_neg hempty]
    rw [if_neg (by simp [hempty, hdash]), rejectIf, if_neg hws]
    simp [pure, Except.pure]

theorem not_mem_contextOrDash {context : String} (h : ∀ c ∈ context.toList, isContextChar c = true) :
    '|' ∉ (contextOrDash context).toList := by
  rw [toList_contextOrDash]
  split_ifs
  · decide
  · intro hmem
    exact absurd (h _ hmem) (by decide)

namespace LockfilePackageKey

variable {url : UrlParser}

theorem toList_renderFields (source name version peer platform : String) :
    (renderFields source name version peer platform).toList = ['|'].intercalate [source.toList,
      name.toList ++ '@' :: version.toList, "peer=".toList ++ (contextOrDash peer).toList,
      "platform=".toList ++ (contextOrDash platform).toList] := by
  simp [renderFields, String.toList_append, List.intercalate]

/-- **Well-formed fields make an accepted key.** -/
theorem parse_renderFields {source : LockfilePackageSource} {name : PackageName}
    {version : PackageVersion} {peer platform original : String} {peers : PeerContext}
    {platforms : PlatformContext} (hbar : '|' ∉ source.text.toList)
    (hsource : parseSource url source.text.toList = .ok source)
    (hpeer : decodePeerContext peer original = .ok peers)
    (hplatform : decodePlatformContext platform original = .ok platforms)
    (hworkspace : workspaceMismatch ⟨source, name, version, peer, platform⟩ = false) :
    parse url (renderFields source.text name.text version.display peer platform) =
      .ok ⟨source, name, version, peer, platform⟩ := by
  have hpc := isContextChar_of_decodePeer hpeer
  have hqc := isContextChar_of_decodePlatform hplatform
  have hversion : version.display.toList = version.chars := String.toList_ofList
  have hname : '|' ∉ name.text.toList := fun hmem => by
    rcases PackageName.mem_text hmem with hm | hm | hm <;> exact absurd hm (by decide)
  have hnv : '|' ∉ name.text.toList ++ '@' :: version.display.toList := by
    rw [List.mem_append, List.mem_cons, hversion]
    rintro (hm | hm | hm)
    · exact hname hm
    · exact absurd hm (by decide)
    · exact PackageVersion.not_mem_chars (by decide) (by decide) hm
  have hsplit : (renderFields source.text name.text version.display peer platform).toList.splitOn '|'
      = [source.text.toList, name.text.toList ++ '@' :: version.display.toList,
        "peer=".toList ++ (contextOrDash peer).toList,
        "platform=".toList ++ (contextOrDash platform).toList] := by
    rw [toList_renderFields]
    refine splitOn_join (fun part hpart => ?_) (by simp)
    simp only [List.mem_cons, List.not_mem_nil, or_false] at hpart
    rcases hpart with rfl | rfl | rfl | rfl
    · exact hbar
    · exact hnv
    · rw [List.mem_append]
      exact fun hm => hm.elim (fun hm => absurd hm (by decide)) (not_mem_contextOrDash hpc)
    · rw [List.mem_append]
      exact fun hm => hm.elim (fun hm => absurd hm (by decide)) (not_mem_contextOrDash hqc)
  have hat : rsplitOnce '@' (name.text.toList ++ '@' :: version.display.toList) =
      some (name.text.toList, version.display.toList) := by
    refine rsplitOnce_append _ ?_
    rw [hversion]
    exact PackageVersion.not_mem_chars (by decide) (by decide)
  rw [parse, hsplit]
  simp only [bind_eq_ok, rejectIf_eq_ok, orError_eq_ok, mapError_eq_ok, pure_eq_ok, hat,
    startsWith_append, not_true, or_self, not_false_eq_true]
  refine ⟨(), trivial, _, rfl, source, hsource, name, ?_, version, ?_, peer,
    parseContext_contextOrDash hpc, platform, parseContext_contextOrDash hqc, peers,
    decodePeerContext_ok_irrel hpeer, platforms, decodePlatformContext_ok_irrel hplatform, (),
    fun h => h rfl, (), by simp [hworkspace], rfl⟩
  · rw [String.ofList_toList, PackageName.parse_text]
  · rw [String.ofList_toList, PackageVersion.fromStr_display]

/-- An accepted text is the rendering of its key. -/
theorem display_of_parse {value : String} {key : LockfilePackageKey}
    (h : parse url value = .ok key) : key.display = value := by
  rw [parse] at h
  split at h
  · simp only [bind_eq_ok, rejectIf_eq_ok, pure_eq_ok, not_not] at h
    obtain ⟨_, _, _, _, _, _, _, _, _, _, _, _, _, _, _, _, _, _, _, hdisplay, _, _, rfl⟩ := h
    exact hdisplay
  · simp at h

/-- The start of a source field tells the kinds of sources apart. -/
theorem parseSource_copied {s : String} {src : PackageSource} {start rest : List Char}
    (hs : s.toList = start ++ rest) (hstart : start = "file:".toList ∨ start = "git+".toList)
    (h : PackageSource.parse url s = .ok src) :
    parseSource url s.toList = .ok (.copied src) := by
  have hws : startsWith "workspace:".toList s.toList = false := by
    rw [hs]
    rcases hstart with rfl | rfl
    · exact startsWith_cons_of_ne (by decide) _ _
    · exact startsWith_cons_of_ne (by decide) _ _
  have hcopied : (startsWith "file:".toList s.toList || startsWith "git+".toList s.toList) = true := by
    rw [hs]
    rcases hstart with rfl | rfl
    · rw [startsWith_append, Bool.true_or]
    · rw [startsWith_append, Bool.or_true]
  rw [parseSource, hws, hcopied, if_neg Bool.false_ne_true, if_pos rfl, String.ofList_toList, h]
  rfl

/-- A canonical package source is read back from its field. -/
theorem parseSource_of_packageSource {s : String} {src : PackageSource}
    (h : PackageSource.parse url s = .ok src) (hcanon : src.identity = s) :
    parseSource url s.toList = .ok (.ofPackageSource src) ∧
      (LockfilePackageSource.ofPackageSource src).text = s := by
  have hparse := h
  rw [PackageSource.parse] at h
  split at h
  · rename_i rest hrest
    obtain ⟨_, rfl⟩ := PackageSource.not_mem_of_parseFile h
    exact ⟨parseSource_copied (eq_append_of_stripPrefix hrest) (Or.inl rfl) hparse, rfl⟩
  · rename_i hfile
    split at h
    · rename_i rest hrest
      obtain ⟨_, rfl⟩ := PackageSource.not_mem_of_parseGit h
      exact ⟨parseSource_copied (eq_append_of_stripPrefix hrest) (Or.inr rfl) hparse, rfl⟩
    · rename_i hgit
      obtain ⟨o, ho, rfl⟩ := map_eq_ok.mp h
      have htext : o.text = s := hcanon
      -- origins start with `https`, so the field cannot be taken for a workspace
      have hws : startsWith "workspace:".toList s.toList = false := by
        have ho' := ho
        rw [RegistryOrigin.parse] at ho'
        split at ho'
        · simp at ho'
        · split_ifs at ho'
          rename_i u _ _
          have hs : s.toList = "https://".toList ++ RegistryOrigin.authority u := by
            rw [← htext, ← Except.ok.inj ho']
            exact String.toList_ofList
          rw [hs]
          exact startsWith_cons_of_ne (by decide) _ _
      have hcopied : (startsWith "file:".toList s.toList || startsWith "git+".toList s.toList) =
          false := by
        rw [startsWith, startsWith, hfile, hgit]
        rfl
      refine ⟨?_, htext⟩
      rw [parseSource, hws, hcopied, if_neg Bool.false_ne_true, if_neg Bool.false_ne_true,
        String.ofList_toList, ho]
      simp [Except.mapError, bind, Except.bind, rejectIf, htext, pure, Except.pure,
        LockfilePackageSource.ofPackageSource, PackageSource.ofOrigin]

end LockfilePackageKey

namespace LocalWorkspaceSource

theorem new_self (s : LocalWorkspaceSource) :
    new s.path s.name.text s.version.display = .ok s := by
  unfold new
  split
  · rename_i e he
    rw [s.canonical] at he
    simp at he
  · rename_i p hp
    rw [s.canonical] at hp
    obtain rfl := Except.ok.inj hp
    simp [Except.mapError, bind, Except.bind, pure, Except.pure]

theorem toList_identity (s : LocalWorkspaceSource) :
    s.identity.toList = "workspace:".toList ++ (s.path.toList ++ ':' ::
      (s.name.text.toList ++ '@' :: s.version.chars)) := by
  have hversion : s.version.display.toList = s.version.chars := String.toList_ofList
  simp [identity, String.toList_append, hversion]

theorem parse_identity (s : LocalWorkspaceSource) : parse s.identity = .ok s := by
  have hcolon : ':' ∉ s.name.text.toList ++ '@' :: s.version.chars := by
    rw [List.mem_append, List.mem_cons]
    rintro (hm | hm | hm)
    · rcases PackageName.mem_text hm with hm | hm | hm <;> exact absurd hm (by decide)
    · exact absurd hm (by decide)
    · exact PackageVersion.not_mem_chars (by decide) (by decide) hm
  have hat : '@' ∉ s.version.chars := PackageVersion.not_mem_chars (by decide) (by decide)
  have hnew : new (String.ofList s.path.toList) (String.ofList s.name.text.toList)
      (String.ofList s.version.chars) = .ok s := by
    rw [String.ofList_toList, String.ofList_toList]
    exact s.new_self
  simp only [parse, bind_eq_ok, orError_eq_ok, rejectIf_eq_ok, pure_eq_ok]
  refine ⟨s.path.toList ++ ':' :: (s.name.text.toList ++ '@' :: s.version.chars),
    by rw [toList_identity, stripPrefix_append], (s.path.toList, _), rsplitOnce_append _ hcolon,
    (s.name.text.toList, s.version.chars), rsplitOnce_append _ hat, s, hnew, (), fun h => h rfl, rfl⟩

theorem not_mem_identity (s : LocalWorkspaceSource) : '|' ∉ s.identity.toList := by
  rw [toList_identity]
  simp only [List.mem_append, List.mem_cons]
  rintro (hm | hm | hm | hm | hm | hm)
  · exact absurd hm (by decide)
  · obtain ⟨components, _, hp, hparts⟩ := canonicalWorkspacePath_eq_ok s.canonical
    rcases mem_intercalate (hp ▸ hm) with hm | ⟨part, hpart, hm⟩
    · exact absurd hm (by decide)
    · exact (hparts part hpart).2.2.2.2.2.2.1 hm
  · exact absurd hm (by decide)
  · rcases PackageName.mem_text hm with hm | hm | hm <;> exact absurd hm (by decide)
  · exact absurd hm (by decide)
  · exact PackageVersion.not_mem_chars (by decide) (by decide) hm

end LocalWorkspaceSource

namespace LockfilePackageKey

variable {url : UrlParser}

/-- **The key of a workspace member parses.** -/
theorem parse_workspace (source : LocalWorkspaceSource) :
    parse url (workspace source).display = .ok (workspace source) := by
  have hsource : parseSource url source.identity.toList = .ok (.workspace source) := by
    have hws : startsWith "workspace:".toList source.identity.toList = true := by
      rw [LocalWorkspaceSource.toList_identity, startsWith_append]
    rw [parseSource, hws, if_pos rfl, String.ofList_toList, LocalWorkspaceSource.parse_identity]
    rfl
  have hplatform : decodePlatformContext (canonicalPlatformContext PlatformContext.unrestricted) "" =
      .ok PlatformContext.unrestricted := by decide
  have hbar : '|' ∉ (LockfilePackageSource.workspace source).text.toList := source.not_mem_identity
  exact parse_renderFields hbar hsource
    (show decodePeerContext "" "" = .ok ∅ from rfl) hplatform (by simp [workspaceMismatch, workspace])

end LockfilePackageKey

end Tapid
