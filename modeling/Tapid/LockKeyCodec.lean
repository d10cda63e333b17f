/-
The key codec.

A key text nests percent-escaped components in `;`, `,`, `|` and `@` separated
layers.  Decoding undoes encoding at every layer, so a key built from its
components is read back.  In the other direction an unrestricted platform has
two accepted texts, a dash and three empty dimensions, and that is the only
freedom.

* `percentDecode_encode`, `decodePeerContext_canonical`,
  `decodePlatformContext_canonical` — the layers;
* `PackageIdentity.parse_key_iff` — which components are read back;
* `PackageIdentity.codec` — the codec as a whole.
-/
import Tapid.LockfileInvariant

namespace Tapid

open Text Fallible

/-! ### Percent encoding is undone -/

/-- What one byte becomes: itself, or a percent sign with its two digits. -/
theorem utf8Bytes_encodeByte (b : UInt8) :
    (utf8Bytes (encodeByte b) = [b] ∧ b ≠ 0x25) ∨
      ∃ high low : UInt8, utf8Bytes (encodeByte b) = [0x25, high, low] ∧
        hexValue (Char.ofNat high.toNat) = some (b.toNat / 16) ∧
        hexValue (Char.ofNat low.toNat) = some (b.toNat % 16) := by
  have hall : ∀ n < 256, (utf8Bytes (encodeByte (UInt8.ofNat n)) = [UInt8.ofNat n] ∧
      UInt8.ofNat n ≠ 0x25) ∨
      (utf8Bytes (encodeByte (UInt8.ofNat n)) = [0x25, UInt8.ofNat (hexUpper (n / 16)).toNat,
          UInt8.ofNat (hexUpper (n % 16)).toNat] ∧
        hexValue (Char.ofNat (UInt8.ofNat (hexUpper (n / 16)).toNat).toNat) = some (n / 16) ∧
        hexValue (Char.ofNat (UInt8.ofNat (hexUpper (n % 16)).toNat).toNat) = some (n % 16)) := by
    decide +kernel
  have hb := hall b.toNat b.toNat_lt
  rw [UInt8.ofNat_toNat] at hb
  rcases hb with hb | hb
  · exact Or.inl hb
  · exact Or.inr ⟨_, _, hb⟩

theorem percentDecodeBytes_cons {b : UInt8} (h : b ≠ 0x25) (rest : List UInt8) :
    percentDecodeBytes (b :: rest) = (percentDecodeBytes rest).map (b :: ·) := by
  rw [percentDecodeBytes]
  · cases percentDecodeBytes rest <;> rfl
  · rintro _ _ _ rfl
    exact absurd rfl h
  · rintro rfl
    exact absurd rfl h

/-- One encoded byte is read back, whatever follows. -/
theorem percentDecodeBytes_encodeByte (b : UInt8) (rest : List UInt8) :
    percentDecodeBytes (utf8Bytes (encodeByte b) ++ rest) =
      (percentDecodeBytes rest).map (b :: ·) := by
  rcases utf8Bytes_encodeByte b with ⟨hb, hne⟩ | ⟨high, low, hb, hhigh, hlow⟩
  · rw [hb]
    exact percentDecodeBytes_cons hne rest
  · have hbyte : UInt8.ofNat (b.toNat / 16 * 16 + b.toNat % 16) = b := by
      rw [Nat.div_add_mod', UInt8.ofNat_toNat]
    rw [hb]
    show percentDecodeBytes (0x25 :: high :: low :: rest) = _
    rw [percentDecodeBytes, hhigh, hlow]
    cases percentDecodeBytes rest with
    | none => rfl
    | some bytes =>
      show some (UInt8.ofNat (b.toNat / 16 * 16 + b.toNat % 16) :: bytes) = _
      rw [hbyte]
      rfl

theorem percentDecodeBytes_encode (s : List Char) :
    percentDecodeBytes (utf8Bytes (encode s)) = some (utf8Bytes s) := by
  rw [encode]
  induction utf8Bytes s with
  | nil => rfl
  | cons b bytes ih =>
    rw [List.flatMap_cons, utf8Bytes, List.flatMap_append]
    exact (percentDecodeBytes_encodeByte b _).trans (by rw [← utf8Bytes, ih]; rfl)

/-- **An encoded text decodes to itself.** -/
theorem percentDecode_encode (s : List Char) (original : String) :
    percentDecode (encode s) original = .ok (String.ofList s) := by
  have hvalid : (utf8Bytes s).toByteArray.IsValidUTF8 := .intro s rfl
  rw [percentDecode, percentDecodeBytes_encode, orError_eq_ok, Option.bind_some,
    String.fromUTF8?, dif_pos hvalid]
  rfl

/-- Encoded texts have no separators. -/
theorem not_mem_encode {s : List Char} {c : Char} (hc : c ∈ [';', '=', ',', '|', '-']) :
    c ∉ encode s := by
  intro hmem
  obtain ⟨b, _, hb⟩ := List.mem_flatMap.mp hmem
  have hall : ∀ n < 256, ((encodeByte (UInt8.ofNat n)).all fun c => !(c ∈ [';', '=', ',', '|', '-'])) = true := by
    decide +kernel
  have hb' := hall b.toNat b.toNat_lt
  rw [UInt8.ofNat_toNat] at hb'
  have := List.all_eq_true.mp hb' c hb
  simp only [hc, decide_true, Bool.not_true, Bool.false_eq_true] at this

/-! ### Contexts are read back -/

theorem splitOncePat_append {x : Char} {pat a : List Char} (h : x ∉ a) (b : List Char) :
    splitOncePat (x :: pat) (a ++ (x :: pat) ++ b) = some (a, b) := by
  induction a with
  | nil =>
    rw [List.nil_append, List.cons_append, splitOncePat, ← List.cons_append, stripPrefix_append]
  | cons c a ih =>
    rw [List.mem_cons, not_or] at h
    have hstrip : stripPrefix (x :: pat) (c :: (a ++ (x :: pat) ++ b)) = none := by
      rw [stripPrefix, if_neg h.1]
    rw [List.cons_append, List.cons_append, splitOncePat, hstrip]
    simp only [ih h.2, Option.map_some]

theorem decodePeerItem_encode (name : PackageName) (version : PackageVersion) (original : String) :
    decodePeerItem ("name=".toList ++ encode name.text.toList ++ ";version=".toList ++
      encode version.chars) original = .ok (name, version) := by
  have hsep : ';' ∉ "name=".toList ++ encode name.text.toList := by
    rw [List.mem_append]
    rintro (hm | hm)
    · exact absurd hm (by decide)
    · exact not_mem_encode (by decide) hm
  have hversion : PackageVersion.fromStr (String.ofList version.chars) = .ok version :=
    PackageVersion.fromStr_display version
  simp only [decodePeerItem, bind_eq_ok, orError_eq_ok, mapError_eq_ok, pure_eq_ok]
  refine ⟨(encode name.text.toList, encode version.chars), ?_, _, percentDecode_encode _ _, name,
    ?_, _, percentDecode_encode _ _, version, hversion, rfl⟩
  · rw [show ";version=".toList = ';' :: "version=".toList from rfl, splitOncePat_append hsep]
    simp only [Option.bind_eq_bind, Option.bind_some, stripPrefix_append]
    rfl
  · rw [String.ofList_toList, PackageName.parse_text]

/-- Encoded items are not empty and have no comma. -/
theorem not_mem_peerItem (e : PackageName × PackageVersion) :
    ',' ∉ "name=".toList ++ encode e.1.text.toList ++ ";version=".toList ++ encode e.2.chars := by
  simp only [List.mem_append, not_or]
  exact ⟨⟨⟨by decide, not_mem_encode (by decide)⟩, by decide⟩, not_mem_encode (by decide)⟩

/-- **A peer context is read back from its canonical text.** -/
theorem decodePeerContext_canonical (context : PeerContext) (original : String) :
    decodePeerContext (canonicalPeerContext context) original = .ok context := by
  by_cases hnil : context.entries = []
  · obtain ⟨entries, hsorted⟩ := context
    obtain rfl : entries = [] := hnil
    rfl
  · have hne : canonicalPeerContext context ≠ "" := by
      intro h
      have hlist := congrArg String.toList h
      rw [toList_canonicalPeerContext] at hlist
      obtain ⟨e, rest, hentries⟩ := List.exists_cons_of_ne_nil hnil
      rw [hentries] at hlist
      cases rest <;> simp [List.intercalate] at hlist
    have hmapM : ∀ l : List (PackageName × PackageVersion),
        (l.map fun e => "name=".toList ++ encode e.1.text.toList ++ ";version=".toList ++
          encode e.2.chars).mapM (fun item => decodePeerItem item original) = .ok l := by
      intro l
      induction l with
      | nil => rfl
      | cons e l ih =>
        rw [List.map_cons, List.mapM_cons, decodePeerItem_encode, ih]
        rfl
    rw [decodePeerContext, if_neg hne]
    simp only [bind_eq_ok, rejectIf_eq_ok, pure_eq_ok]
    refine ⟨context.entries, ?_, (), ?_, OrdMap.insertAll_of_entries context⟩
    · rw [toList_canonicalPeerContext, splitOn_join]
      · exact hmapM context.entries
      · intro part hpart
        obtain ⟨e, _, rfl⟩ := List.mem_map.mp hpart
        exact not_mem_peerItem e
      · simpa using hnil
    · rw [OrdMap.insertAll_of_entries]
      exact fun h => h rfl

/-- A peer context text is canonical. -/
theorem canonical_of_decodePeerContext {value original : String} {context : PeerContext}
    (h : decodePeerContext value original = .ok context) : value = canonicalPeerContext context := by
  rw [decodePeerContext] at h
  split_ifs at h with hempty
  · rw [hempty, ← Except.ok.inj h]
    rfl
  · simp only [bind_eq_ok, rejectIf_eq_ok, pure_eq_ok, not_not] at h
    obtain ⟨_, _, _, hcanon, rfl⟩ := h
    exact hcanon.symm

/-- The platform dimensions are ones `PlatformContext::new` takes. -/
def PlatformContext.Accepted (context : PlatformContext) : Prop :=
  PlatformContext.new context.os context.cpu context.libc = .ok context

instance PlatformContext.Accepted.instDecidable (context : PlatformContext) :
    Decidable context.Accepted :=
  inferInstanceAs (Decidable (_ = _))

theorem PlatformContext.accepted_of_new {os cpu libc : Option String} {context : PlatformContext}
    (h : PlatformContext.new os cpu libc = .ok context) : context.Accepted := by
  have h' := h
  rw [PlatformContext.new] at h'
  split_ifs at h'
  obtain rfl := Except.ok.inj h'
  exact h

/-- An accepted dimension is not the empty text. -/
theorem PlatformContext.Accepted.ne_empty {context : PlatformContext} (h : context.Accepted)
    {v : Option String} (hv : v ∈ [context.os, context.cpu, context.libc]) : v ≠ some "" := by
  rintro rfl
  rw [PlatformContext.Accepted, PlatformContext.new] at h
  split_ifs at h with hany
  exact hany (List.any_eq_true.mpr ⟨_, hv, by decide⟩)

theorem decodeDimension_encode {v : Option String} (h : v ≠ some "") (original : String) :
    decodeDimension (encodeDimension v) original = .ok v := by
  cases v with
  | none => rfl
  | some s =>
    have hne : encode s.toList ≠ [] := by
      intro hnil
      have hdec := percentDecode_encode s.toList original
      rw [hnil, String.ofList_toList] at hdec
      have : s = "" := (Except.ok.inj hdec).symm
      exact h (by rw [this])
    rw [decodeDimension, encodeDimension, Option.map_some, Option.getD_some,
      if_neg (by simpa using hne), percentDecode_encode, String.ofList_toList]
    rfl

theorem not_mem_encodeDimension {v : Option String} : ';' ∉ encodeDimension v := by
  cases v with
  | none => simp [encodeDimension]
  | some s => exact not_mem_encode (by decide)

/-- **A platform context is read back from its canonical text.** -/
theorem decodePlatformContext_canonical {context : PlatformContext} (h : context.Accepted)
    (original : String) :
    decodePlatformContext (canonicalPlatformContext context) original = .ok context := by
  have hne : canonicalPlatformContext context ≠ "" := by
    intro hempty
    have hlist := congrArg String.toList hempty
    rw [toList_canonicalPlatformContext] at hlist
    simp at hlist
  have hos : splitOncePat ";cpu=".toList (encodeDimension context.os ++ ";cpu=".toList ++
      (encodeDimension context.cpu ++ ";libc=".toList ++ encodeDimension context.libc)) =
      some (encodeDimension context.os, encodeDimension context.cpu ++ ";libc=".toList ++
        encodeDimension context.libc) :=
    splitOncePat_append not_mem_encodeDimension _
  have hcpu : splitOncePat ";libc=".toList (encodeDimension context.cpu ++ ";libc=".toList ++
      encodeDimension context.libc) = some (encodeDimension context.cpu, encodeDimension context.libc) :=
    splitOncePat_append not_mem_encodeDimension _
  rw [decodePlatformContext, if_neg hne]
  simp only [bind_eq_ok, orError_eq_ok, mapError_eq_ok, rejectIf_eq_ok, pure_eq_ok]
  refine ⟨(encodeDimension context.os, _), ?_, (encodeDimension context.cpu, _), hcpu, context.os,
    decodeDimension_encode (h.ne_empty (by simp)) _, context.cpu,
    decodeDimension_encode (h.ne_empty (by simp)) _, context.libc,
    decodeDimension_encode (h.ne_empty (by simp)) _, context, h, (), fun hc => hc rfl, rfl⟩
  rw [toList_canonicalPlatformContext]
  simp only [List.append_assoc] at hos ⊢
  rw [stripPrefix_append, Option.bind_some, hos]

/-- A platform context text is canonical, or empty for the unrestricted one. -/
theorem canonical_of_decodePlatformContext {value original : String} {context : PlatformContext}
    (h : decodePlatformContext value original = .ok context) :
    context.Accepted ∧ ((value = "" ∧ context = .unrestricted) ∨
      value = canonicalPlatformContext context) := by
  rw [decodePlatformContext] at h
  split_ifs at h with hempty
  · have hcontext : context = .unrestricted := (Except.ok.inj h).symm
    subst hcontext
    exact ⟨rfl, Or.inl ⟨hempty, rfl⟩⟩
  · simp only [bind_eq_ok, mapError_eq_ok, rejectIf_eq_ok, pure_eq_ok, not_not] at h
    obtain ⟨_, _, _, _, _, _, _, _, _, _, _, hnew, _, hcanon, rfl⟩ := h
    exact ⟨PlatformContext.accepted_of_new hnew, Or.inr hcanon.symm⟩

/-! ### Identities -/

/-- What a key is made of. -/
structure PackageIdentity where
  source : LockfilePackageSource
  name : PackageName
  version : PackageVersion
  peer : PeerContext
  platform : PlatformContext

namespace PackageIdentity

/-- The key built from the components. -/
def key (i : PackageIdentity) : LockfilePackageKey :=
  .withSource i.source i.name i.version i.peer i.platform

/-- The key text `s` is accepted and decodes to the components. -/
def DecodesTo (url : UrlParser) (s : String) (i : PackageIdentity) : Prop :=
  ∃ k, LockfilePackageKey.parse url s = .ok k ∧ k.source = i.source ∧ k.name = i.name ∧
    k.version = i.version ∧ decodePeerContext k.peerContext k.display = .ok i.peer ∧
    decodePlatformContext k.platformContext k.display = .ok i.platform

end PackageIdentity

namespace LockfilePackageSource

/-- A source the parsers of `url` made: a registry origin, a copied file or git
source, or a workspace member. -/
def Parsed (url : UrlParser) : LockfilePackageSource → Prop
  | registry origin => ∃ s, RegistryOrigin.parse url s = .ok origin
  | copied source => source.registry = none ∧ ∃ s, PackageSource.parse url s = .ok source
  | workspace _ => True

end LockfilePackageSource

/-- Canonical origins parse to themselves. -/
def OriginsReparse (url : UrlParser) : Prop :=
  ∀ s o, RegistryOrigin.parse url s = .ok o → RegistryOrigin.parse url o.text = .ok o

namespace LockfilePackageSource

variable {url : UrlParser}

/-- A parsed source has no separator and is read back from its text. -/
theorem Parsed.parseSource (hbar : HostsHaveNoBar url) (hurl : OriginsReparse url)
    {source : LockfilePackageSource} (h : source.Parsed url) :
    '|' ∉ source.text.toList ∧ LockfilePackageKey.parseSource url source.text.toList = .ok source := by
  cases source with
  | registry origin =>
    obtain ⟨s, hs⟩ := h
    have hagain := hurl s origin hs
    have hsource : PackageSource.parse url origin.text = .ok (.ofOrigin origin) := by
      have hhead : origin.text.toList.head? = some 'h' := by
        rw [RegistryOrigin.parse] at hs
        split at hs
        · simp at hs
        · split_ifs at hs
          rw [← Except.ok.inj hs, String.toList_ofList]
          rfl
      have hstrip : ∀ p : List Char, p.head? ≠ some 'h' → p ≠ [] →
          stripPrefix p origin.text.toList = none := by
        intro p hp hne
        by_contra hsome
        obtain ⟨r, hr⟩ := Option.ne_none_iff_exists'.mp hsome
        rw [eq_append_of_stripPrefix hr, List.head?_append_of_ne_nil _ hne] at hhead
        exact hp hhead
      rw [PackageSource.parse, hstrip _ (by decide) (by decide), hstrip _ (by decide) (by decide)]
      exact map_eq_ok.mpr ⟨origin, hagain, rfl⟩
    exact ⟨RegistryOrigin.not_mem_text hbar hs,
      (LockfilePackageKey.parseSource_of_packageSource hsource rfl).1⟩
  | copied source =>
    obtain ⟨hnone, s, hs⟩ := h
    have hident : source.identity = s := by
      rw [PackageSource.parse] at hs
      split at hs
      · rw [(PackageSource.not_mem_of_parseFile hs).2]
      · split at hs
        · rw [(PackageSource.not_mem_of_parseGit hs).2]
        · obtain ⟨o, _, rfl⟩ := map_eq_ok.mp hs
          simp [PackageSource.ofOrigin] at hnone
    have hparse := (LockfilePackageKey.parseSource_of_packageSource hs hident).1
    rw [ofPackageSource, hnone] at hparse
    refine ⟨?_, by rwa [text, hident]⟩
    rw [text]
    exact PackageSource.not_mem_identity hbar hs
  | workspace source =>
    refine ⟨source.not_mem_identity, ?_⟩
    have hws : startsWith "workspace:".toList source.identity.toList = true := by
      rw [LocalWorkspaceSource.toList_identity, startsWith_append]
    rw [text, LockfilePackageKey.parseSource, hws, if_pos rfl, String.ofList_toList,
      LocalWorkspaceSource.parse_identity]
    rfl

end LockfilePackageSource

/-! ### Keys are read back -/

namespace LockfilePackageKey

variable {url : UrlParser}

/-- What an accepted key satisfies. -/
theorem of_parse {value : String} {k : LockfilePackageKey} (h : parse url value = .ok k) :
    (∃ peer, decodePeerContext k.peerContext value = .ok peer) ∧
      (∃ platform, decodePlatformContext k.platformContext value = .ok platform) ∧
      k.workspaceMismatch = false := by
  rw [parse] at h
  split at h
  · simp only [bind_eq_ok, rejectIf_eq_ok, pure_eq_ok] at h
    obtain ⟨_, _, _, _, _, _, _, _, _, _, _, _, _, _, peer, hpeer, platform, hplatform, _, _, _,
      hmismatch, rfl⟩ := h
    exact ⟨⟨peer, hpeer⟩, ⟨platform, hplatform⟩, by simpa using hmismatch⟩
  · simp at h

/-- The text ends in a platform field without dimensions. -/
def WritesDash (s : String) : Prop := "|platform=-".toList <:+ s.toList

theorem writesDash_display {k : LockfilePackageKey} {original : String} {platform : PlatformContext}
    (h : decodePlatformContext k.platformContext original = .ok platform) :
    WritesDash k.display ↔ k.platformContext = "" := by
  have hdisplay : k.display.toList = (k.source.text ++ "|" ++ k.name.text ++ "@" ++ k.version.display ++
      "|peer=" ++ contextOrDash k.peerContext).toList ++ ("|platform=".toList ++
        (contextOrDash k.platformContext).toList) := by
    simp [display, renderFields, String.toList_append]
  rw [WritesDash, hdisplay]
  constructor
  · intro hsuffix
    by_contra hne
    have hne' : k.platformContext.toList ≠ [] := by simpa [String.toList_eq_nil_iff] using hne
    rw [toList_contextOrDash, if_neg hne', ← List.append_assoc] at hsuffix
    -- the last character would be a dash, and no context has one
    have hlast := hsuffix.getLast (by decide : "|platform=-".toList ≠ [])
    rw [List.getLast_append_of_ne_nil _ hne'] at hlast
    have hmem := List.getLast_mem hne'
    rw [← hlast] at hmem
    exact absurd (isContextChar_of_decodePlatform h _ hmem) (by decide)
  · intro hempty
    rw [hempty]
    exact List.suffix_append _ _

end LockfilePackageKey

namespace PackageIdentity

open LockfilePackageKey

variable {url : UrlParser} {i j : PackageIdentity} {s t : String}

/-- Components that can be read back: a workspace source carries the name and the
version of its key, though `with_source` takes any others, and the platform is an
accepted one. -/
def Constructible (i : PackageIdentity) : Prop :=
  i.key.workspaceMismatch = false ∧ i.platform.Accepted

/-- The keys of workspace members are built from components. -/
theorem key_workspace (source : LocalWorkspaceSource) :
    (⟨.workspace source, source.name, source.version, ∅, .unrestricted⟩ : PackageIdentity).key =
      LockfilePackageKey.workspace source := rfl

/-- So are the keys of registry and copied packages. -/
theorem key_fromSource (source : PackageSource) (name : PackageName) (version : PackageVersion)
    (peer : PeerContext) (platform : PlatformContext) :
    (⟨.ofPackageSource source, name, version, peer, platform⟩ : PackageIdentity).key =
      LockfilePackageKey.fromSource source name version peer platform := rfl

theorem DecodesTo.unique (hi : DecodesTo url s i) (hj : DecodesTo url s j) : i = j := by
  obtain ⟨k, hk, hsource, hname, hversion, hpeer, hplatform⟩ := hi
  obtain ⟨k', hk', hsource', hname', hversion', hpeer', hplatform'⟩ := hj
  obtain rfl : k = k' := Except.ok.inj (hk.symm.trans hk')
  obtain ⟨source, name, version, peer, platform⟩ := i
  obtain ⟨source', name', version', peer', platform'⟩ := j
  simp only at hsource hname hversion hpeer hplatform hsource' hname' hversion' hpeer' hplatform'
  obtain rfl : source = source' := hsource.symm.trans hsource'
  obtain rfl : name = name' := hname.symm.trans hname'
  obtain rfl : version = version' := hversion.symm.trans hversion'
  obtain rfl : peer = peer' := Except.ok.inj (hpeer.symm.trans hpeer')
  obtain rfl : platform = platform' := Except.ok.inj (hplatform.symm.trans hplatform')
  rfl

/-- **A constructed key parses to itself and decodes to its components**, and
only the keys of constructible components do. -/
theorem parse_key_iff (hbar : HostsHaveNoBar url) (hurl : OriginsReparse url)
    (hsource : i.source.Parsed url) :
    (parse url i.key.display = .ok i.key ∧ DecodesTo url i.key.display i) ↔ i.Constructible := by
  constructor
  · rintro ⟨hparse, k, hk, _, _, _, _, hplatform⟩
    exact ⟨(of_parse hparse).2.2, (canonical_of_decodePlatformContext hplatform).1⟩
  · rintro ⟨hworkspace, hplatform⟩
    obtain ⟨hfree, hparse⟩ := hsource.parseSource hbar hurl
    have hkey : parse url i.key.display = .ok i.key :=
      parse_renderFields hfree hparse (decodePeerContext_canonical i.peer "")
        (decodePlatformContext_canonical hplatform "") hworkspace
    exact ⟨hkey, i.key, hkey, rfl, rfl, rfl, decodePeerContext_canonical i.peer _,
      decodePlatformContext_canonical hplatform _⟩

/-- **Texts of one identity** differ in how they write an empty platform at
most. -/
theorem DecodesTo.eq_iff (hs : DecodesTo url s i) (ht : DecodesTo url t i) :
    s = t ↔ (WritesDash s ↔ WritesDash t) := by
  obtain ⟨k, hk, hsource, hname, hversion, hpeer, hplatform⟩ := hs
  obtain ⟨k', hk', hsource', hname', hversion', hpeer', hplatform'⟩ := ht
  obtain rfl := display_of_parse hk
  obtain rfl := display_of_parse hk'
  rw [writesDash_display hplatform, writesDash_display hplatform']
  constructor
  · intro heq
    rw [heq] at hk
    rw [Except.ok.inj (hk.symm.trans hk')]
  · intro hdash
    have hpeers : k.peerContext = k'.peerContext :=
      (canonical_of_decodePeerContext hpeer).trans (canonical_of_decodePeerContext hpeer').symm
    have hplatforms : k.platformContext = k'.platformContext := by
      rcases (canonical_of_decodePlatformContext hplatform).2 with ⟨hempty, _⟩ | hcanon
      · rw [hempty, hdash.mp hempty]
      · rcases (canonical_of_decodePlatformContext hplatform').2 with ⟨hempty', _⟩ | hcanon'
        · rw [hempty', hdash.mpr hempty']
        · rw [hcanon, hcanon']
    rw [display, display, hsource, hsource', hname, hname', hversion, hversion', hpeers, hplatforms]

/-- **The key codec.**  Keys of constructible components are read back, different
components have different texts, and two texts of the same components are equal
exactly when they agree on writing the platform as a dash. -/
theorem codec (hbar : HostsHaveNoBar url) (hurl : OriginsReparse url) :
    (∀ i : PackageIdentity, i.source.Parsed url →
      ((parse url i.key.display = .ok i.key ∧ DecodesTo url i.key.display i) ↔ i.Constructible)) ∧
    (∀ i j : PackageIdentity, i.source.Parsed url → j.source.Parsed url → i.Constructible →
      j.Constructible → i ≠ j → i.key.display ≠ j.key.display) ∧
    ∀ s t i, DecodesTo url s i → DecodesTo url t i → (s = t ↔ (WritesDash s ↔ WritesDash t)) := by
  refine ⟨fun i hi => parse_key_iff hbar hurl hi, ?_, fun s t i hs ht => hs.eq_iff ht⟩
  intro i j hi hj hic hjc hne heq
  have hdi := ((parse_key_iff hbar hurl hi).mpr hic).2
  have hdj := ((parse_key_iff hbar hurl hj).mpr hjc).2
  rw [heq] at hdi
  exact hne (hdi.unique hdj)

end PackageIdentity

/-! ### Two texts of one identity -/

namespace PackageIdentity

open LockfilePackageKey

def leftPad : PackageName := ⟨"left-pad", by decide⟩

def leftPadIdentity : PackageIdentity :=
  ⟨.registry ⟨"https://registry.npmjs.org"⟩, leftPad, .stable 1 3 0, ∅, .unrestricted⟩

theorem npmRegistry_eq_some {s : String} {u : Url} (h : Lockfile.npmRegistry s = some u) :
    s = "https://registry.npmjs.org" ∧ u.host = some "registry.npmjs.org" := by
  rw [Lockfile.npmRegistry] at h
  split_ifs at h with hs
  rw [← Option.some_inj.mp h]
  exact ⟨hs, rfl⟩

theorem hostsHaveNoBar_npmRegistry : HostsHaveNoBar Lockfile.npmRegistry := by
  intro s u host hu hhost
  rw [(npmRegistry_eq_some hu).2] at hhost
  rw [← Option.some_inj.mp hhost]
  decide

theorem originsReparse_npmRegistry : OriginsReparse Lockfile.npmRegistry := by
  intro s o ho
  have hself : RegistryOrigin.parse Lockfile.npmRegistry "https://registry.npmjs.org" =
      .ok ⟨"https://registry.npmjs.org"⟩ := by decide
  have hs : s = "https://registry.npmjs.org" := by
    rw [RegistryOrigin.parse] at ho
    split at ho
    · simp at ho
    · rename_i u hu
      exact (npmRegistry_eq_some hu).1
  rw [hs, hself] at ho
  rw [← Except.ok.inj ho]
  exact hself

/-- The key of the sample package with a dash for its platform. -/
def dashKey : String := "https://registry.npmjs.org|left-pad@1.3.0|peer=-|platform=-"

/-- The same with empty dimensions. -/
def emptyKey : String := "https://registry.npmjs.org|left-pad@1.3.0|peer=-|platform=os=;cpu=;libc="

theorem decodesTo_dashKey : DecodesTo Lockfile.npmRegistry dashKey leftPadIdentity :=
  ⟨⟨.registry ⟨"https://registry.npmjs.org"⟩, leftPad, .stable 1 3 0, "", ""⟩,
    by decide, rfl, rfl, rfl, rfl, rfl⟩

theorem decodesTo_emptyKey : DecodesTo Lockfile.npmRegistry emptyKey leftPadIdentity :=
  ⟨⟨.registry ⟨"https://registry.npmjs.org"⟩, leftPad, .stable 1 3 0, "", "os=;cpu=;libc="⟩,
    by decide, rfl, rfl, rfl, rfl, by decide⟩

/-- The sample package with a dash for its platform. -/
def dashPackage : LockedPackage := { Lockfile.samplePackage with platformContext := "" }

/-- A lockfile with both entries. -/
def twiceLockfile : Lockfile :=
  Lockfile.sampleLockfile.withGraph Lockfile.npmRegistry [dashPackage] []

theorem reachable_twiceLockfile :
    Lockfile.Reachable Lockfile.npmRegistry Lockfile.noCodec twiceLockfile := by
  have hnew : Lockfile.Reachable Lockfile.npmRegistry Lockfile.noCodec Lockfile.emptyLockfile :=
    Lockfile.Reachable.new Lockfile.new_sampleDigest
  have hfirst : Lockfile.Reachable Lockfile.npmRegistry Lockfile.noCodec Lockfile.sampleLockfile := by
    have h := hnew.mutate (.insertPackage Lockfile.samplePackage)
    rwa [Lockfile.insert_samplePackage] at h
  have hcheck : Lockfile.checkGraph Lockfile.npmRegistry Lockfile.sampleLockfile [dashPackage] [] =
      .ok () := by decide
  have hinsert : (Lockfile.Mutation.insertPackage dashPackage).run Lockfile.npmRegistry
      Lockfile.sampleLockfile = .ok () twiceLockfile := by
    rw [Lockfile.Mutation.run_eq, Lockfile.Mutation.checked, hcheck]
    rfl
  have hsecond := hfirst.mutate (.insertPackage dashPackage)
  rwa [hinsert] at hsecond

/-- One identity in two texts, and a lockfile that holds both. -/
theorem not_forall_decodesTo_unique :
    (¬ ∀ (url : UrlParser), HostsHaveNoBar url → OriginsReparse url →
      ∀ s t i, DecodesTo url s i → DecodesTo url t i → s = t) ∧
    ∃ l, Lockfile.Reachable Lockfile.npmRegistry Lockfile.noCodec l ∧
      l.containsPackageKey dashKey = true ∧ l.containsPackageKey emptyKey = true := by
  constructor
  · intro hall
    exact absurd (hall _ hostsHaveNoBar_npmRegistry originsReparse_npmRegistry _ _ _
      decodesTo_dashKey decodesTo_emptyKey) (by decide)
  · exact ⟨twiceLockfile, reachable_twiceLockfile, by decide, by decide⟩

theorem codec_leftPadIdentity :
    leftPadIdentity.Constructible ∧
      parse Lockfile.npmRegistry leftPadIdentity.key.display = .ok leftPadIdentity.key := by
  have hc : leftPadIdentity.Constructible := ⟨rfl, rfl⟩
  have hp : leftPadIdentity.source.Parsed Lockfile.npmRegistry :=
    ⟨"https://registry.npmjs.org", by decide⟩
  have h := codec hostsHaveNoBar_npmRegistry originsReparse_npmRegistry
  exact ⟨hc, ((h.1 leftPadIdentity hp).mpr hc).1⟩

end PackageIdentity

end Tapid
