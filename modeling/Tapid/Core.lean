/-
The domain types every crate shares: package names, artifact digests, registry
origins, package sources, integrities, peer and platform contexts, and the
identity of a package instance.

Texts are `String`s; parsing works on their characters.  The `url` crate is a
parameter: `UrlParser` gives what the code reads of a parsed URL.

* `PackageName.parse_text` — a name is accepted as it stands;
* `ArtifactDigest.parse_text` — an accepted digest is lower case already when
  it is parsed again;
* `PackageSource.not_mem_identity` — no source contains the key separator.
-/
import Mathlib.Data.Prod.Lex
import Mathlib.Order.WithBot
import Tapid.Fallible
import Tapid.OrdMap
import Tapid.Semver

namespace Tapid

open Text Fallible

/-- Failures of domain parsing. -/
inductive DomainError where
  | invalidPackageName (value : String)
  | invalidPackageVersion (value : String)
  | invalidArtifactDigest (value : String)
  | invalidRegistryOrigin (value : String)
  | invalidPackageIntegrity (value : String)
  | invalidPlatformContext
  | invalidPackageSource
  | invalidArtifactUrl
  deriving DecidableEq

/-! ### Package names -/

def isNameCharacter (c : Char) : Bool := isAsciiAlphanumeric c || c == '-' || c == '_' || c == '.'

namespace PackageName

/-- The two-part rule for scoped names and the one-part rule for the others. -/
def isScopedOrPlain (s : List Char) : Bool :=
  if s.head? = some '@' then
    match s.splitOn '/' with
    | [scope, name] =>
      2 ≤ scope.length && !name.isEmpty && scope.tail.all isNameCharacter &&
        name.all isNameCharacter
    | _ => false
  else s.all isNameCharacter

/-- Acceptance of a package name. -/
def isValid (s : List Char) : Bool :=
  !s.isEmpty && byteLen s ≤ 214 &&
    s.head? != some '.' && s.head? != some '_' && s.getLast? != some '.' &&
    s.getLast? != some '_' && !s.any isWhitespace && isScopedOrPlain s

end PackageName

/-- A validated package name. -/
structure PackageName where
  text : String
  valid : PackageName.isValid text.toList = true
  deriving DecidableEq

namespace PackageName

theorem text_injective : Function.Injective text := by
  rintro ⟨a, _⟩ ⟨b, _⟩ rfl
  rfl

instance : LinearOrder PackageName := LinearOrder.lift' text text_injective

def parse (s : String) : Except DomainError PackageName :=
  if h : isValid s.toList = true then .ok ⟨s, h⟩ else .error (.invalidPackageName s)

@[simp] theorem parse_text (n : PackageName) : parse n.text = .ok n := dif_pos n.valid

theorem text_of_parse {s : String} {n : PackageName} (h : parse s = .ok n) : n.text = s := by
  rw [parse] at h
  split_ifs at h with hs
  rw [← Except.ok.inj h]

/-- A name consists of name characters, an at sign and a slash at most. -/
theorem mem_text {n : PackageName} {c : Char} (h : c ∈ n.text.toList) :
    isNameCharacter c = true ∨ c = '@' ∨ c = '/' := by
  have hv := n.valid
  rw [isValid, Bool.and_eq_true] at hv
  have hv := hv.2
  rw [isScopedOrPlain] at hv
  split_ifs at hv with hat
  · split at hv
    · rename_i scope name hsplit
      simp only [Bool.and_eq_true, List.all_eq_true] at hv
      have hjoin : n.text.toList = scope ++ '/' :: name := by
        rw [← @List.intercalate_splitOn _ n.text.toList _ _ '/', hsplit]
        simp [List.intercalate]
      cases hscope : scope with
      | nil => simp [hscope] at hv
      | cons d ds =>
        have hd : d = '@' := by
          rw [hjoin, hscope] at hat
          simpa using hat
        rw [hjoin, hscope, List.cons_append, List.mem_cons, List.mem_append, List.mem_cons] at h
        rcases h with rfl | h | rfl | h
        · exact Or.inr (Or.inl hd)
        · exact Or.inl (hv.1.2 c (by simpa [hscope] using h))
        · exact Or.inr (Or.inr rfl)
        · exact Or.inl (hv.2 c h)
    · simp at hv
  · exact Or.inl (List.all_eq_true.mp hv c h)

end PackageName

/-! ### Versions as texts -/

namespace PackageVersion

/-- `FromStr` with its error. -/
def fromStr (s : String) : Except DomainError PackageVersion :=
  match parse s.toList with
  | some v => .ok v
  | none => .error (.invalidPackageVersion s)

@[simp] theorem fromStr_display (v : PackageVersion) : fromStr v.display = .ok v := by
  rw [fromStr, display, String.toList_ofList, parse_chars]

theorem display_of_fromStr {s : String} {v : PackageVersion} (h : fromStr s = .ok v) :
    v.display = s := by
  rw [fromStr] at h
  split at h
  · rename_i w hw
    obtain rfl := Except.ok.inj h
    rw [display, chars_of_parse hw, String.ofList_toList]
  · simp at h

end PackageVersion

/-! ### Artifact digests -/

/-- A lower-case `sha256-` digest. -/
structure ArtifactDigest where
  text : String
  deriving DecidableEq

namespace ArtifactDigest

def parse (s : String) : Except DomainError ArtifactDigest :=
  match stripPrefix "sha256-".toList s.toList with
  | none => .error (.invalidArtifactDigest s)
  | some hex =>
    if byteLen hex ≠ 64 ∨ hex.any (fun c => !isHexDigit c) then .error (.invalidArtifactDigest s)
    else .ok ⟨String.ofList (toAsciiLower s.toList)⟩

/-- The hexadecimal part of an accepted digest. -/
theorem exists_hex_of_parse {s : String} {d : ArtifactDigest} (h : parse s = .ok d) :
    ∃ hex : List Char, d.text.toList = "sha256-".toList ++ hex ∧ byteLen hex = 64 ∧
      ∀ c ∈ hex, isLowerHexDigit c = true := by
  rw [parse] at h
  split at h
  · simp at h
  · rename_i hex hstrip
    split_ifs at h with hbad
    obtain rfl := Except.ok.inj h
    rw [not_or, not_not, List.any_eq_true] at hbad
    have hhex : ∀ c ∈ hex, isHexDigit c = true := fun c hc => by
      by_contra hne
      exact hbad.2 ⟨c, hc, by simpa using hne⟩
    refine ⟨toAsciiLower hex, ?_, ?_, ?_⟩
    · rw [String.toList_ofList, eq_append_of_stripPrefix hstrip, toAsciiLower, List.map_append]
      rfl
    · rw [← hbad.1, byteLen, byteLen, toAsciiLower, List.map_map]
      exact congrArg List.sum (List.map_congr_left fun c hc => (toLower_isHexDigit (hhex c hc)).2)
    · intro c hc
      obtain ⟨b, hb, rfl⟩ := List.mem_map.mp hc
      exact (toLower_isHexDigit (hhex b hb)).1

/-- Lower-case digits are kept as they are. -/
theorem parse_lowerHex {d : ArtifactDigest} {hex : List Char} (htext : d.text.toList = "sha256-".toList ++ hex)
    (hlen : byteLen hex = 64) (hhex : ∀ c ∈ hex, isLowerHexDigit c = true) : parse d.text = .ok d := by
  have hlower : toAsciiLower d.text.toList = d.text.toList := by
    rw [htext, toAsciiLower, List.map_append]
    refine congrArg₂ _ (by decide) ?_
    calc hex.map Char.toLower = hex.map id :=
          List.map_congr_left fun c hc => toLower_of_isLowerHexDigit (hhex c hc)
      _ = hex := List.map_id hex
  have hany : ¬ (hex.any fun c => !isHexDigit c) = true := by
    rw [List.any_eq_true]
    rintro ⟨c, hc, hne⟩
    simp [isHexDigit_of_isLowerHexDigit (hhex c hc)] at hne
  rw [parse, hlower, htext, stripPrefix_append]
  simp only [hlen, ne_eq, not_true, false_or, if_neg hany, ← htext, String.ofList_toList]

/-- **Digests are canonical once parsed.** -/
theorem parse_text_of_parse {s : String} {d : ArtifactDigest} (h : parse s = .ok d) :
    parse d.text = .ok d := by
  obtain ⟨hex, htext, hlen, hhex⟩ := exists_hex_of_parse h
  exact parse_lowerHex htext hlen hhex

end ArtifactDigest

/-! ### URLs, registry origins and package sources -/

/-- The parts of a parsed URL the code reads. -/
structure Url where
  scheme : String
  username : String
  password : Option String
  host : Option String
  port : Option Nat
  path : String
  query : Option String
  fragment : Option String
  text : String
  deriving DecidableEq

/-- `url::Url::parse`. -/
abbrev UrlParser := String → Option Url

/-- A canonical, credential-free HTTPS origin. -/
structure RegistryOrigin where
  text : String
  deriving DecidableEq

theorem RegistryOrigin.text_injective : Function.Injective RegistryOrigin.text := by
  rintro ⟨a⟩ ⟨b⟩ rfl
  rfl

instance : LinearOrder RegistryOrigin :=
  LinearOrder.lift' RegistryOrigin.text RegistryOrigin.text_injective

/-- Where a package comes from; only registry sources carry an origin. -/
structure PackageSource where
  identity : String
  registry : Option RegistryOrigin
  deriving DecidableEq

namespace PackageSource

def lexKey (s : PackageSource) : String ×ₗ WithBot RegistryOrigin :=
  toLex (s.identity, s.registry)

theorem lexKey_injective : Function.Injective lexKey := by
  rintro ⟨a, b⟩ ⟨a', b'⟩ h
  obtain ⟨rfl, rfl⟩ := Prod.mk.inj (toLex.injective h)
  rfl

instance : LinearOrder PackageSource := LinearOrder.lift' lexKey lexKey_injective

/-- `From<RegistryOrigin>`. -/
def ofOrigin (o : RegistryOrigin) : PackageSource := ⟨o.text, some o⟩

def fileParts (s : PackageSource) : Option (List Char × List Char) :=
  (stripPrefix "file:".toList s.identity.toList).bind (rsplitOnce '#')

def gitParts (s : PackageSource) : Option (List Char × List Char × List Char) := do
  let (repository, pin) ← (stripPrefix "git+".toList s.identity.toList).bind (rsplitOnce '#')
  let (commit, digest) ← splitOnce '!' pin
  some (repository, commit, digest)

end PackageSource

section Parsing

variable (url : UrlParser)

namespace RegistryOrigin

/-- The host in brackets when it is a bare IPv6 address. -/
def bracketHost (host : List Char) : List Char :=
  if ':' ∈ host ∧ host.head? ≠ some '[' then '[' :: host ++ [']'] else host

/-- Origin text of an accepted URL; the default port is left out. -/
def authority (u : Url) : List Char :=
  let host := bracketHost (toAsciiLower (u.host.getD "").toList)
  match u.port.filter (· ≠ 443) with
  | some port => host ++ ':' :: numeral port
  | none => host

def parse (s : String) : Except DomainError RegistryOrigin :=
  match url s with
  | none => .error (.invalidRegistryOrigin s)
  | some u =>
    if u.scheme ≠ "https" ∨ u.username ≠ "" ∨ '@' ∈ s.toList ∨ u.password.isSome ∨
        u.query.isSome ∨ u.fragment.isSome ∨ u.host.isNone ∨
        ¬ u.path.toList.all (· == '/') then
      .error (.invalidRegistryOrigin s)
    else .ok ⟨String.ofList ("https://".toList ++ authority u)⟩

end RegistryOrigin

/-- A canonical HTTPS repository address. -/
def gitRepositoryParse (s : String) : Except DomainError String :=
  match url s with
  | none => .error .invalidPackageSource
  | some u =>
    let authority := match splitOncePat "://".toList s.toList with
      | some (_, rest) => (rest.splitOn '/').headD []
      | none => []
    if u.scheme ≠ "https" ∨ u.host.isNone ∨ u.path = "/" ∨ u.username ≠ "" ∨
        u.password.isSome ∨ '@' ∈ authority ∨ u.query.isSome ∨ u.fragment.isSome ∨
        s.toList.any (fun c => c == '|' || c == '#' || c == '!') ∨ s.toList.any isControl then
      .error .invalidPackageSource
    else .ok u.text

namespace PackageSource

/-- A digest in a source text must be canonical. -/
def checkDigest (digest : List Char) : Except DomainError Unit :=
  match ArtifactDigest.parse (String.ofList digest) with
  | .error _ => .error .invalidPackageSource
  | .ok parsed => if parsed.text ≠ String.ofList digest then .error .invalidPackageSource else .ok ()

/-- Relative paths without empty, dot or special parts. -/
def isCopiedPath (path : List Char) : Bool :=
  !path.isEmpty && path.head? != some '/' &&
    !path.any (fun c => c == '\\' || c == ':' || c == '|' || c == '#') &&
    !path.any isControl &&
    !(path.splitOn '/').any (fun part => part.isEmpty || part == ['.'] || part == ['.', '.'])

def parseFile (value : String) (rest : List Char) : Except DomainError PackageSource :=
  do
    let (path, digest) ← orError (rsplitOnce '#' rest) .invalidPackageSource
    rejectIf (¬ isCopiedPath path) .invalidPackageSource
    checkDigest digest
    return ⟨value, none⟩

def parseGit (value : String) (rest : List Char) : Except DomainError PackageSource :=
  do
    let (repository, pin) ← orError (rsplitOnce '#' rest) .invalidPackageSource
    let (commit, digest) ← orError (splitOnce '!' pin) .invalidPackageSource
    let parsed ← gitRepositoryParse url (String.ofList repository)
    rejectIf (parsed ≠ String.ofList repository ∨ ¬ (byteLen commit = 40 ∨ byteLen commit = 64) ∨
      ¬ commit.all isLowerHexDigit) .invalidPackageSource
    checkDigest digest
    return ⟨value, none⟩

def parse (value : String) : Except DomainError PackageSource :=
  match stripPrefix "file:".toList value.toList with
  | some rest => parseFile value rest
  | none =>
    match stripPrefix "git+".toList value.toList with
    | some rest => parseGit url value rest
    | none => (RegistryOrigin.parse url value).map ofOrigin

end PackageSource

/-- The `url` crate never reports a host with a `|`, a forbidden host code
point. -/
def HostsHaveNoBar : Prop :=
  ∀ s u host, url s = some u → u.host = some host → '|' ∉ host.toList

end Parsing

section Separator

variable {url : UrlParser}

theorem RegistryOrigin.not_mem_authority {u : Url}
    (h : ∀ host, u.host = some host → '|' ∉ host.toList) : '|' ∉ authority u := by
  have hhost : '|' ∉ bracketHost (toAsciiLower (u.host.getD "").toList) := by
    have hlower : '|' ∉ toAsciiLower (u.host.getD "").toList := fun hmem => by
      have hmem := mem_of_mem_toAsciiLower (by decide) hmem
      cases hu : u.host with
      | none => simp [hu] at hmem
      | some host => exact h host hu (by simpa [hu] using hmem)
    rw [bracketHost]
    split_ifs
    · simpa using hlower
    · exact hlower
  rw [authority]
  split
  · rename_i port _
    intro hmem
    rcases List.mem_append.mp hmem with hmem | hmem
    · exact hhost hmem
    · rcases List.mem_cons.mp hmem with hmem | hmem
      · exact absurd hmem (by decide)
      · exact absurd (digit_mem_numeral hmem) (by decide)
  · exact hhost

theorem RegistryOrigin.not_mem_text (hurl : HostsHaveNoBar url) {s : String}
    {o : RegistryOrigin} (h : RegistryOrigin.parse url s = .ok o) : '|' ∉ o.text.toList := by
  rw [RegistryOrigin.parse] at h
  split at h
  · simp at h
  · rename_i u hu
    split_ifs at h
    rw [← Except.ok.inj h, String.toList_ofList, List.mem_append]
    rintro (hmem | hmem)
    · exact absurd hmem (by decide)
    · exact not_mem_authority (fun host => hurl s u host hu) hmem

namespace PackageSource

theorem not_mem_of_checkDigest {digest : List Char} (h : checkDigest digest = .ok ()) :
    '|' ∉ digest := by
  rw [checkDigest] at h
  split at h
  · simp at h
  · rename_i parsed hparsed
    split_ifs at h with heq
    obtain ⟨hex, htext, _, hhex⟩ := ArtifactDigest.exists_hex_of_parse hparsed
    rw [not_not] at heq
    rw [heq, String.toList_ofList] at htext
    rw [htext, List.mem_append]
    rintro (hmem | hmem)
    · exact absurd hmem (by decide)
    · exact absurd (hhex _ hmem) (by decide)

theorem not_mem_of_parseFile {value : String} {rest : List Char} {src : PackageSource}
    (h : parseFile value rest = .ok src) : '|' ∉ rest ∧ src = ⟨value, none⟩ := by
  simp only [parseFile, bind_eq_ok, orError_eq_ok, rejectIf_eq_ok, pure_eq_ok, not_not] at h
  obtain ⟨⟨path, digest⟩, hsplit, _, hpath, _, hdig, rfl⟩ := h
  refine ⟨?_, rfl⟩
  rw [(eq_append_of_rsplitOnce hsplit).1, List.mem_append, List.mem_cons]
  rintro (hmem | hmem | hmem)
  · simp only [isCopiedPath, Bool.and_eq_true, Bool.not_eq_true', List.any_eq_false] at hpath
    exact absurd (hpath.1.1.2 _ hmem) (by decide)
  · exact absurd hmem (by decide)
  · exact not_mem_of_checkDigest hdig hmem

theorem not_mem_of_gitRepositoryParse {s t : String} (h : gitRepositoryParse url s = .ok t) :
    '|' ∉ s.toList := by
  rw [gitRepositoryParse] at h
  split at h
  · simp at h
  · simp only at h
    split_ifs at h with hbad
    intro hmem
    refine hbad (Or.inr (Or.inr (Or.inr (Or.inr (Or.inr (Or.inr (Or.inr (Or.inr (Or.inl ?_)))))))))
    exact List.any_eq_true.mpr ⟨_, hmem, by decide⟩

theorem not_mem_of_parseGit {value : String} {rest : List Char} {src : PackageSource}
    (h : parseGit url value rest = .ok src) : '|' ∉ rest ∧ src = ⟨value, none⟩ := by
  simp only [parseGit, bind_eq_ok, orError_eq_ok, rejectIf_eq_ok, pure_eq_ok, not_or, not_not] at h
  obtain ⟨⟨repository, pin⟩, hsplit, ⟨commit, digest⟩, hpin, parsed, hrepo, _, hok, _, hdig, rfl⟩ := h
  simp only at hpin hrepo hok hdig
  refine ⟨?_, rfl⟩
  have hrepo' := not_mem_of_gitRepositoryParse hrepo
  rw [String.toList_ofList] at hrepo'
  rw [(eq_append_of_rsplitOnce hsplit).1, (eq_append_of_splitOnce hpin).1]
  simp only [List.mem_append, List.mem_cons]
  rintro (hmem | hmem | hmem | hmem | hmem)
  · exact hrepo' hmem
  · exact absurd hmem (by decide)
  · exact absurd (List.all_eq_true.mp hok.2.2 _ hmem) (by decide)
  · exact absurd hmem (by decide)
  · exact not_mem_of_checkDigest hdig hmem

/-- **No accepted source contains the key separator.** -/
theorem not_mem_identity (hurl : HostsHaveNoBar url) {s : String} {src : PackageSource}
    (h : parse url s = .ok src) : '|' ∉ src.identity.toList := by
  rw [parse] at h
  split at h
  · rename_i rest hrest
    obtain ⟨hbar, rfl⟩ := not_mem_of_parseFile h
    rw [eq_append_of_stripPrefix hrest, List.mem_append]
    rintro (hmem | hmem)
    · exact absurd hmem (by decide)
    · exact hbar hmem
  · split at h
    · rename_i rest hrest
      obtain ⟨hbar, rfl⟩ := not_mem_of_parseGit h
      rw [eq_append_of_stripPrefix hrest, List.mem_append]
      rintro (hmem | hmem)
      · exact absurd hmem (by decide)
      · exact hbar hmem
    · obtain ⟨o, ho, rfl⟩ := map_eq_ok.mp h
      exact RegistryOrigin.not_mem_text hurl ho

end PackageSource

end Separator

/-! ### Package integrity -/

/-- Value of a character of the standard Base64 alphabet. -/
def base64Value (c : Char) : Option Nat :=
  if 'A' ≤ c ∧ c ≤ 'Z' then some (c.toNat - 'A'.toNat)
  else if 'a' ≤ c ∧ c ≤ 'z' then some (c.toNat - 'a'.toNat + 26)
  else if c.isDigit then some (c.toNat - '0'.toNat + 52)
  else if c = '+' then some 62
  else if c = '/' then some 63
  else none

/-- Character of a six-bit value. -/
def base64Char (n : Nat) : Char :=
  if n < 26 then Char.ofNat (n + 'A'.toNat)
  else if n < 52 then Char.ofNat (n - 26 + 'a'.toNat)
  else if n < 62 then Char.ofNat (n - 52 + '0'.toNat)
  else if n = 62 then '+' else '/'

/-- Unpadded Base64; the unused bits of the last character must be zero. -/
def base64Decode : List Char → Option (List Nat)
  | [] => some []
  | [_] => none
  | [a, b] => do
    let n := (← base64Value a) * 64 + (← base64Value b)
    if n % 16 = 0 then some [n / 16] else none
  | [a, b, c] => do
    let n := ((← base64Value a) * 64 + (← base64Value b)) * 64 + (← base64Value c)
    if n % 4 = 0 then some [n / 1024, n / 4 % 256] else none
  | a :: b :: c :: d :: rest => do
    let n := (((← base64Value a) * 64 + (← base64Value b)) * 64 + (← base64Value c)) * 64 +
      (← base64Value d)
    return n / 65536 :: n / 256 % 256 :: n % 256 :: (← base64Decode rest)

/-- Padded Base64. -/
def base64Encode : List Nat → List Char
  | [] => []
  | [x] => [base64Char (x / 4), base64Char (x % 4 * 16), '=', '=']
  | [x, y] =>
    [base64Char (x / 4), base64Char (x % 4 * 16 + y / 16), base64Char (y % 16 * 4), '=']
  | x :: y :: z :: rest =>
    base64Char (x / 4) :: base64Char (x % 4 * 16 + y / 16) ::
      base64Char (y % 16 * 4 + z / 64) :: base64Char (z % 64) :: base64Encode rest

/-- A canonical padded `sha512-` integrity. -/
structure PackageIntegrity where
  text : String
  deriving DecidableEq

/-- The digest bytes of an integrity text, padded or not. -/
def PackageIntegrity.decode (encoded : List Char) : Option (List Nat) :=
  if byteLen encoded = 86 ∧ '=' ∉ encoded then base64Decode encoded
  else if byteLen encoded = 88 ∧ encoded.drop 86 = ['=', '='] then base64Decode (encoded.take 86)
  else none

def PackageIntegrity.parse (s : String) : Except DomainError PackageIntegrity :=
  match stripPrefix "sha512-".toList s.toList with
  | none => .error (.invalidPackageIntegrity s)
  | some encoded =>
    match PackageIntegrity.decode encoded with
    | none => .error (.invalidPackageIntegrity s)
    | some digest =>
      if digest.length ≠ 64 then .error (.invalidPackageIntegrity s)
      else .ok ⟨String.ofList ("sha512-".toList ++ base64Encode digest)⟩

/-! ### Artifact URLs -/

/-- Value of a hexadecimal digit. -/
def hexValue (c : Char) : Option Nat :=
  if c.isDigit then some (c.toNat - '0'.toNat)
  else if 'a' ≤ c ∧ c ≤ 'f' then some (c.toNat - 'a'.toNat + 10)
  else if 'A' ≤ c ∧ c ≤ 'F' then some (c.toNat - 'A'.toNat + 10)
  else none

/-- Percent escapes that are lower case, malformed or encode a byte that needs
no escape.  The path is ASCII when this is asked. -/
def pathHasNoncanonicalPercentEncoding : List Char → Bool
  | [] => false
  | '%' :: a :: b :: rest =>
    if ('a' ≤ a ∧ a ≤ 'f') ∨ ('a' ≤ b ∧ b ≤ 'f') then true
    else
      match hexValue a, hexValue b with
      | some high, some low =>
        let decoded := Char.ofNat (high * 16 + low)
        decoded.toNat < 0x20 || decoded.toNat = 0x7F || isAsciiAlphanumeric decoded ||
          decoded == '-' || decoded == '.' || decoded == '_' || decoded == '~' ||
          pathHasNoncanonicalPercentEncoding rest
      | _, _ => true
  | '%' :: _ => true
  | _ :: rest => pathHasNoncanonicalPercentEncoding rest

def canonicalUrl (raw : String) (u : Url) : Bool :=
  raw.toList.all (fun c => c.toNat < 128) &&
  match stripPrefix "https://".toList raw.toList with
  | none => false
  | some remainder =>
    let authority := remainder.takeWhile fun c => c != '/' && c != '?' && c != '#'
    !authority.isEmpty && !authority.elem '@' && u.text == raw &&
      !raw.toList.any (fun c => c.toNat < 0x20 || c.toNat == 0x7F || c == ' ') &&
      !raw.toList.elem '\\' && !pathHasNoncanonicalPercentEncoding u.path.toList &&
      u.scheme == "https" && u.host.isSome && u.username == "" && u.password.isNone &&
      u.query.isNone && u.fragment.isNone

/-- `FromStr` of an artifact URL, which keeps its text. -/
def artifactUrlParse (url : UrlParser) (s : String) : Except DomainError String :=
  match url s with
  | none => .error .invalidArtifactUrl
  | some u => if canonicalUrl s u then .ok s else .error .invalidArtifactUrl

/-! ### Contexts and instances -/

/-- Versions of the peers a package was resolved against. -/
abbrev PeerContext := OrdMap PackageName PackageVersion

/-- Platform dimensions a package is restricted to. -/
structure PlatformContext where
  os : Option String
  cpu : Option String
  libc : Option String
  deriving DecidableEq

namespace PlatformContext

/-- A value that would be ambiguous in a rendered context. -/
def isInvalidValue (v : String) : Bool :=
  v.toList.isEmpty || v.toList.any isWhitespace || v.toList.any isControl || v == "-" ||
    v.toList.elem '|'

def new (os cpu libc : Option String) : Except DomainError PlatformContext :=
  if [os, cpu, libc].any (fun v => v.any isInvalidValue) then .error .invalidPlatformContext
  else .ok ⟨os, cpu, libc⟩

/-- The context without restrictions. -/
def unrestricted : PlatformContext := ⟨none, none, none⟩

end PlatformContext

/-- Identity of one package version from one source. -/
structure PackageInstanceId where
  registry : PackageSource
  name : PackageName
  version : PackageVersion
  deriving DecidableEq

namespace PackageInstanceId

def lexKey (i : PackageInstanceId) : PackageSource ×ₗ PackageName ×ₗ PackageVersion :=
  toLex (i.registry, toLex (i.name, i.version))

theorem lexKey_injective : Function.Injective lexKey := by
  rintro ⟨a, b, c⟩ ⟨a', b', c'⟩ h
  simp only [lexKey, EmbeddingLike.apply_eq_iff_eq, Prod.mk.injEq] at h
  obtain ⟨rfl, rfl, rfl⟩ := h
  rfl

instance : LinearOrder PackageInstanceId := LinearOrder.lift' lexKey lexKey_injective

/-- `registry:name@version`. -/
def display (i : PackageInstanceId) : String :=
  i.registry.identity ++ ":" ++ i.name.text ++ "@" ++ i.version.display

end PackageInstanceId

end Tapid
