/-
Where the instances of a plan are stored.

A storage path is made of the name, the version, a hash of the source and the
two contexts of an instance.  All parts but one are told apart; the peer context
is sanitized, which blurs every character outside `A-Z a-z 0-9 - . @` into `_`.
So two instances share a path exactly when they differ in blurred characters of
their peers, or in platform fields that are absent in one and empty in the
other.

* `contextSuffix_eq_iff` — the contexts that are not told apart;
* `storageTarget_prefix_iff` — a path is above another one only if it is the
  same;
* `storageSeparate_iff` — when a plan stores different instances apart.
-/
import Mathlib.Data.List.Perm.Basic
import Tapid.LayoutSound
import Tapid.LockKeyCodec

namespace Tapid

open Text Fallible

/-! ### Sources -/

/-- A source as it is built: from a text or from an origin. -/
def PackageSource.Built (url : UrlParser) (source : PackageSource) : Prop :=
  (∃ s, PackageSource.parse url s = .ok source) ∨
    ∃ s origin, RegistryOrigin.parse url s = .ok origin ∧ source = .ofOrigin origin

namespace PackageSource

variable {url : UrlParser}

/-- A built source is an origin, or its text says that it is a copy. -/
theorem Built.cases {source : PackageSource} (h : source.Built url) :
    (∃ origin : RegistryOrigin, source = .ofOrigin origin ∧ startsWith "https://".toList origin.text.toList = true) ∨
      source.registry = none ∧ (startsWith "file:".toList source.identity.toList = true ∨
        startsWith "git+".toList source.identity.toList = true) := by
  have horigin : ∀ {s : String} {origin : RegistryOrigin}, RegistryOrigin.parse url s = .ok origin →
      startsWith "https://".toList origin.text.toList = true := by
    intro s origin ho
    have htext : ∀ l, startsWith "https://".toList (String.ofList ("https://".toList ++ l)).toList = true := by
      intro l
      have hlist : (String.ofList ("https://".toList ++ l)).toList = "https://".toList ++ l := String.toList_ofList
      rw [hlist]
      exact startsWith_append _ _
    rw [RegistryOrigin.parse] at ho
    split at ho
    · simp at ho
    · split_ifs at ho
      rw [← Except.ok.inj ho]
      exact htext _
  rcases h with ⟨s, h⟩ | ⟨s, origin, ho, rfl⟩
  · rw [parse] at h
    split at h
    · rename_i rest hrest
      obtain ⟨_, rfl⟩ := not_mem_of_parseFile h
      refine Or.inr ⟨rfl, Or.inl ?_⟩
      rw [eq_append_of_stripPrefix hrest]
      exact startsWith_append _ _
    · split at h
      · rename_i rest hrest
        obtain ⟨_, rfl⟩ := not_mem_of_parseGit h
        refine Or.inr ⟨rfl, Or.inr ?_⟩
        rw [eq_append_of_stripPrefix hrest]
        exact startsWith_append _ _
      · obtain ⟨o, ho, rfl⟩ := map_eq_ok.mp h
        exact Or.inl ⟨o, rfl, horigin ho⟩
  · exact Or.inl ⟨origin, rfl, horigin ho⟩

/-- **Built sources are told apart by their texts.** -/
theorem Built.eq_of_identity {a b : PackageSource} (ha : a.Built url) (hb : b.Built url)
    (h : a.identity = b.identity) : a = b := by
  have hclash : ∀ {l : List Char}, startsWith "https://".toList l = true →
      ¬ (startsWith "file:".toList l = true ∨ startsWith "git+".toList l = true) := by
    intro l hl hcopy
    cases l with
    | nil => cases hl
    | cons c l =>
      have hc : c = 'h' := by
        by_contra hne
        rw [show "https://".toList = 'h' :: "ttps://".toList from rfl, startsWith_cons_of_ne (Ne.symm hne)] at hl
        cases hl
      subst hc
      rcases hcopy with hcopy | hcopy
      · rw [show "file:".toList = 'f' :: "ile:".toList from rfl, startsWith_cons_of_ne (by decide)] at hcopy
        cases hcopy
      · rw [show "git+".toList = 'g' :: "it+".toList from rfl, startsWith_cons_of_ne (by decide)] at hcopy
        cases hcopy
  rcases ha.cases with ⟨o, rfl, ho⟩ | ⟨hna, hta⟩ <;> rcases hb.cases with ⟨o', rfl, ho'⟩ | ⟨hnb, htb⟩
  · obtain rfl : o = o' := RegistryOrigin.text_injective h
    rfl
  · rw [show (ofOrigin o).identity = o.text from rfl] at h
    rw [← h] at htb
    exact absurd htb (hclash ho)
  · rw [show (ofOrigin o').identity = o'.text from rfl] at h
    rw [h] at hta
    exact absurd hta (hclash ho')
  · cases a
    cases b
    obtain rfl := h
    obtain rfl := hna
    obtain rfl := hnb
    rfl

end PackageSource

theorem PackageVersion.display_injective : Function.Injective PackageVersion.display := by
  intro v w h
  have hv := PackageVersion.fromStr_display v
  rw [h, PackageVersion.fromStr_display] at hv
  exact (Except.ok.inj hv).symm

/-! ### Contexts -/

/-- A character that `safeComponent` leaves alone and puts in place of no other
one. -/
def isDistinct (c : Char) : Bool := isAsciiAlphanumeric c || c == '-' || c == '.' || c == '@'

/-- Texts that differ at most where both have blurred characters. -/
def Blurred (s t : String) : Prop :=
  List.Forall₂ (fun c d => c = d ∨ isDistinct c = false ∧ isDistinct d = false) s.toList t.toList

/-- One character of a safe component. -/
def safeChar (c : Char) : Char :=
  if isAsciiAlphanumeric c || c == '-' || c == '_' || c == '.' || c == '@' then c else '_'

theorem safeChar_of_isDistinct {c : Char} (h : isDistinct c = true) : safeChar c = c := by
  rw [safeChar, if_pos]
  simp only [isDistinct, Bool.or_eq_true] at h ⊢
  tauto

theorem safeChar_of_not_isDistinct {c : Char} (h : isDistinct c = false) : safeChar c = '_' := by
  rw [safeChar]
  split_ifs with hsafe
  · simp only [isDistinct, Bool.or_eq_false_iff] at h
    simp only [h.1.1.1, h.1.1.2, h.1.2, h.2, Bool.false_or, Bool.or_false] at hsafe
    exact beq_iff_eq.mp hsafe
  · rfl

theorem safeChar_eq_iff {c d : Char} :
    safeChar c = safeChar d ↔ c = d ∨ isDistinct c = false ∧ isDistinct d = false := by
  have hblank : isDistinct '_' = false := by decide
  cases hc : isDistinct c with
  | true =>
    rw [safeChar_of_isDistinct hc]
    cases hd : isDistinct d with
    | true => rw [safeChar_of_isDistinct hd]; simp
    | false =>
      rw [safeChar_of_not_isDistinct hd]
      constructor
      · rintro rfl
        rw [hblank] at hc
        cases hc
      · rintro (rfl | ⟨h, _⟩)
        · rw [hd] at hc
          cases hc
        · cases h
  | false =>
    rw [safeChar_of_not_isDistinct hc]
    cases hd : isDistinct d with
    | true =>
      rw [safeChar_of_isDistinct hd]
      constructor
      · rintro rfl
        rw [hblank] at hd
        cases hd
      · rintro (rfl | ⟨_, h⟩)
        · rw [hd] at hc
          cases hc
        · cases h
    | false => rw [safeChar_of_not_isDistinct hd]; simp

theorem toList_safeComponent (s : String) : (safeComponent s).toList = s.toList.map safeChar :=
  String.toList_ofList

/-- **What sanitizing blurs.** -/
theorem safeComponent_eq_iff {s t : String} : safeComponent s = safeComponent t ↔ Blurred s t := by
  rw [← String.toList_inj, toList_safeComponent, toList_safeComponent, Blurred]
  generalize s.toList = l
  generalize t.toList = l'
  induction l generalizing l' with
  | nil => cases l' <;> simp
  | cons c l ih =>
    cases l' with
    | nil => simp
    | cons d l' =>
      rw [List.map_cons, List.map_cons, List.cons.injEq, safeChar_eq_iff, ih, List.forall₂_cons]

theorem not_mem_safeComponent (s : String) : '=' ∉ (safeComponent s).toList := by
  rw [toList_safeComponent, List.mem_map]
  rintro ⟨c, _, hc⟩
  rw [safeChar] at hc
  split_ifs at hc with hsafe
  · rw [hc] at hsafe
    exact absurd hsafe (by decide)
  · exact absurd hc (by decide)

/-- A peer context that is not empty shows an at sign. -/
theorem PeerContext.mem_display {context : PeerContext} (h : PeerContext.display context ≠ "") :
    '@' ∈ (PeerContext.display context).toList := by
  rw [PeerContext.display, String.toList_intercalate]
  cases hentries : context.entries with
  | nil =>
    rw [PeerContext.display, hentries] at h
    exact absurd rfl h
  | cons e entries =>
    have hfirst : '@' ∈ (e.1.text ++ "@" ++ e.2.display).toList := by
      rw [String.toList_append, String.toList_append]
      exact List.mem_append_left _ (List.mem_append_right _ List.mem_cons_self)
    rw [List.map_cons, List.map_cons]
    cases entries with
    | nil => simp [List.intercalate]
    | cons e' entries =>
      rw [List.map_cons, List.map_cons, List.intercalate_cons_of_ne_nil (List.cons_ne_nil _ _)]
      exact List.mem_append_left _ (List.mem_append_left _ hfirst)

/-- The peer part of a suffix. -/
def peerPart (peer : PeerContext) : String :=
  if PeerContext.display peer = "" then "no-peer" else safeComponent (PeerContext.display peer)

theorem not_mem_peerPart (peer : PeerContext) : '=' ∉ (peerPart peer).toList := by
  rw [peerPart]
  split_ifs
  · decide
  · exact not_mem_safeComponent _

/-- Peer parts are equal when the contexts are blurred. -/
theorem peerPart_eq_iff {peer peer' : PeerContext} :
    peerPart peer = peerPart peer' ↔ Blurred (PeerContext.display peer) (PeerContext.display peer') := by
  have hempty : ∀ {p : PeerContext}, PeerContext.display p ≠ "" →
      "no-peer" ≠ safeComponent (PeerContext.display p) := by
    intro p hp heq
    have hat : '@' ∈ (safeComponent (PeerContext.display p)).toList := by
      rw [toList_safeComponent]
      exact List.mem_map.mpr ⟨'@', PeerContext.mem_display hp, by decide⟩
    rw [← heq] at hat
    exact absurd hat (by decide)
  rw [peerPart, peerPart, ← safeComponent_eq_iff]
  have hnone : safeComponent "" = "" := by decide
  have hsome : ∀ {s : String}, safeComponent s = "" → s = "" := by
    intro s hs
    have hlist := congrArg String.toList hs
    rw [toList_safeComponent, String.toList_empty, List.map_eq_nil_iff] at hlist
    exact String.toList_inj.mp (hlist.trans String.toList_empty.symm)
  split_ifs with hp hp' hp'
  · rw [hp, hp']
    simp
  · rw [hp, hnone]
    exact ⟨fun h => absurd h (hempty hp'), fun h => absurd (hsome h.symm) hp'⟩
  · rw [hp', hnone]
    exact ⟨fun h => absurd h.symm (hempty hp), fun h => absurd (hsome h) hp⟩
  · rfl

/-- The path encoding is the one of lockfile keys. -/
theorem toList_encodePathComponent (s : String) :
    (encodePathComponent s).toList = encode s.toList := by
  have hall : ∀ n < 256, encodePathByte (UInt8.ofNat n) = encodeByte (UInt8.ofNat n) := by
    decide +kernel
  rw [encodePathComponent, String.toList_ofList, encode]
  refine List.flatMap_congr fun b _ => ?_
  have hb := hall b.toNat b.toNat_lt
  rwa [UInt8.ofNat_toNat] at hb

theorem encodePathComponent_injective : Function.Injective encodePathComponent := by
  intro s t h
  have hlist := congrArg String.toList h
  rw [toList_encodePathComponent, toList_encodePathComponent] at hlist
  have hs := percentDecode_encode s.toList ""
  rw [hlist, percentDecode_encode, String.ofList_toList, String.ofList_toList] at hs
  exact (Except.ok.inj hs).symm

theorem not_mem_encodePathComponent {s : String} {c : Char} (hc : c ∈ [';', '=', ',', '|', '-']) :
    c ∉ (encodePathComponent s).toList := by
  rw [toList_encodePathComponent]
  exact not_mem_encode hc

/-- Platform contexts with the same path component. -/
def PlatformContext.SameComponent (p q : PlatformContext) : Prop :=
  (p = .unrestricted ↔ q = .unrestricted) ∧ p.os.getD "" = q.os.getD "" ∧ p.cpu.getD "" = q.cpu.getD "" ∧
    p.libc.getD "" = q.libc.getD ""

theorem PlatformContext.display_eq_empty_iff {p : PlatformContext} : p.display = "" ↔ p = .unrestricted := by
  rw [PlatformContext.display]
  split_ifs with hnone
  · simp only [Option.isNone_iff_eq_none] at hnone
    obtain ⟨hos, hcpu, hlibc⟩ := hnone
    cases p
    obtain rfl := hos
    obtain rfl := hcpu
    obtain rfl := hlibc
    exact ⟨fun _ => rfl, fun _ => rfl⟩
  · constructor
    · intro h
      have hlist := congrArg String.toList h
      rw [String.toList_intercalate, List.map_cons, List.map_cons,
        List.intercalate_cons_of_ne_nil (List.cons_ne_nil _ _)] at hlist
      simp at hlist
    · rintro rfl
      exact absurd ⟨rfl, rfl, rfl⟩ hnone

/-- The platform key names the three fields. -/
theorem platformComponentKey_eq_iff {p q : PlatformContext} :
    platformComponentKey p = platformComponentKey q ↔ p.os.getD "" = q.os.getD "" ∧
      p.cpu.getD "" = q.cpu.getD "" ∧ p.libc.getD "" = q.libc.getD "" := by
  have htext : ∀ p, (platformComponentKey p).toList = "os-".toList ++
      ((encodePathComponent (p.os.getD "")).toList ++ '-' :: ("-cpu-".toList ++
        ((encodePathComponent (p.cpu.getD "")).toList ++ '-' :: ("-libc-".toList ++
          (encodePathComponent (p.libc.getD "")).toList)))) := by
    intro p
    simp only [platformComponentKey, String.toList_append, List.append_assoc]
    rfl
  have hdash : ∀ s, '-' ∉ (encodePathComponent s).toList := fun s => not_mem_encodePathComponent (by decide)
  -- a field ends at the first dash
  have hfield : ∀ {s t : String} {a b : List Char},
      (encodePathComponent s).toList ++ '-' :: a = (encodePathComponent t).toList ++ '-' :: b → s = t ∧ a = b := by
    intro s t a b h
    have hsplit := splitOnce_append (hdash s) a
    rw [h, splitOnce_append (hdash t) b] at hsplit
    obtain ⟨hst, rfl⟩ := Prod.mk.inj (Option.some_inj.mp hsplit)
    exact ⟨(encodePathComponent_injective (String.toList_inj.mp hst)).symm, rfl⟩
  constructor
  · intro h
    have hlist := congrArg String.toList h
    rw [htext, htext] at hlist
    obtain ⟨hos, hlist⟩ := hfield (List.append_cancel_left hlist)
    obtain ⟨hcpu, hlist⟩ := hfield (List.append_cancel_left hlist)
    exact ⟨hos, hcpu, encodePathComponent_injective (String.toList_inj.mp (List.append_cancel_left hlist))⟩
  · rintro ⟨hos, hcpu, hlibc⟩
    rw [platformComponentKey, platformComponentKey, hos, hcpu, hlibc]

/-- The platform part of a suffix. -/
def platformPart (platform : PlatformContext) : String :=
  if platform.display = "" then "no-platform" else platformComponentKey platform

theorem platformPart_eq_iff {p q : PlatformContext} : platformPart p = platformPart q ↔ p.SameComponent q := by
  have hkey : ∀ p, "no-platform" ≠ platformComponentKey p := by
    intro p h
    have hlist := congrArg String.toList h
    simp only [platformComponentKey, String.toList_append, List.append_assoc] at hlist
    exact absurd (List.cons.inj hlist).1 (by decide)
  simp only [platformPart, PlatformContext.SameComponent, PlatformContext.display_eq_empty_iff]
  split_ifs with hp hq hq
  · rw [hp, hq]
    simp
  · exact ⟨fun h => absurd h (hkey q), fun h => absurd (h.1.mp hp) hq⟩
  · exact ⟨fun h => absurd h.symm (hkey p), fun h => absurd (h.1.mpr hq) hp⟩
  · rw [platformComponentKey_eq_iff]
    exact ⟨fun h => ⟨⟨fun h => absurd h hp, fun h => absurd h hq⟩, h⟩, fun h => h.2⟩

/-- **The contexts that are not told apart.** -/
theorem contextSuffix_eq_iff {peer peer' : PeerContext} {platform platform' : PlatformContext} :
    contextSuffix peer platform = contextSuffix peer' platform' ↔
      Blurred (PeerContext.display peer) (PeerContext.display peer') ∧ platform.SameComponent platform' := by
  have htext : ∀ peer platform, (contextSuffix peer platform).toList = "peer=".toList ++
      (((peerPart peer).toList ++ "__platform".toList) ++ '=' :: (platformPart platform).toList) := by
    intro peer platform
    show ("peer=" ++ peerPart peer ++ "__platform=" ++ platformPart platform).toList = _
    simp only [String.toList_append, List.append_assoc]
    rfl
  have heq : ∀ peer, '=' ∉ (peerPart peer).toList ++ "__platform".toList := by
    intro peer hmem
    rcases List.mem_append.mp hmem with hmem | hmem
    · exact not_mem_peerPart peer hmem
    · exact absurd hmem (by decide)
  rw [← peerPart_eq_iff, ← platformPart_eq_iff]
  constructor
  · intro h
    have hlist := congrArg String.toList h
    rw [htext, htext] at hlist
    have hsplit := splitOnce_append (heq peer) (platformPart platform).toList
    rw [List.append_cancel_left hlist, splitOnce_append (heq peer')] at hsplit
    obtain ⟨hpeer, hplatform⟩ := Prod.mk.inj (Option.some_inj.mp hsplit)
    exact ⟨String.toList_inj.mp (List.append_cancel_right hpeer).symm, String.toList_inj.mp hplatform.symm⟩
  · rintro ⟨hpeer, hplatform⟩
    show "peer=" ++ peerPart peer ++ "__platform=" ++ platformPart platform = _
    rw [hpeer, hplatform]
    rfl

/-! ### Storage targets -/

section Targets

variable {sha256Hex : String → String} {root : ManagedRoot} {url : UrlParser}

/-- The hash tells the sources of some instances apart. -/
def CollisionFree (sha256Hex : String → String) (instances : List PackageInstance) : Prop :=
  ∀ a ∈ instances, ∀ b ∈ instances, sha256Hex a.key.id.registry.identity = sha256Hex b.key.id.registry.identity →
    a.key.id.registry.identity = b.key.id.registry.identity

/-- Instances of one package whose contexts are not told apart. -/
def SharesStorage (a b : InstanceKey) : Prop :=
  a.id = b.id ∧ Blurred (PeerContext.display a.peerContext) (PeerContext.display b.peerContext) ∧
    a.platformContext.SameComponent b.platformContext

/-- Neither path is the other one or above it. -/
def Apart (p q : Path) : Prop := ¬ p <+: q ∧ ¬ q <+: p

/-- **A storage path is above another one only if they are the same**, and
then the instances share it. -/
theorem storageTarget_prefix_iff {a b : InstanceKey} (ha : a.id.registry.Built url) (hb : b.id.registry.Built url)
    (hsha : sha256Hex a.id.registry.identity = sha256Hex b.id.registry.identity →
      a.id.registry.identity = b.id.registry.identity) :
    storageTarget sha256Hex root a <+: storageTarget sha256Hex root b ↔ SharesStorage a b := by
  constructor
  · rintro ⟨rest, h⟩
    rw [storageTarget, storageTarget, List.append_assoc, List.append_assoc, List.append_assoc, List.append_assoc] at h
    have h := List.append_cancel_left (List.append_cancel_left (by simpa only [List.append_assoc] using h))
    obtain ⟨hname, h⟩ := packageNamePath_append h
    simp only [List.cons_append, List.nil_append, List.cons.injEq] at h
    obtain ⟨hversion, hregistry, hcontext, _⟩ := h
    have hsource := ha.eq_of_identity hb (hsha (by
      have hlist := congrArg String.toList hregistry
      rw [registryComponent, registryComponent, String.toList_append, String.toList_append] at hlist
      exact String.toList_inj.mp (List.append_cancel_left hlist)))
    refine ⟨?_, contextSuffix_eq_iff.mp hcontext⟩
    exact PackageInstanceId.lexKey_injective (by
      rw [PackageInstanceId.lexKey, PackageInstanceId.lexKey, hsource, hname,
        PackageVersion.display_injective hversion])
  · rintro ⟨hid, hcontext⟩
    rw [storageTarget, storageTarget, hid, contextSuffix_eq_iff.mpr hcontext]

/-- Different instances are stored apart. -/
def StorageSeparate (sha256Hex : String → String) (root : ManagedRoot) (instances : List PackageInstance) : Prop :=
  ∀ a ∈ instances, ∀ b ∈ instances, a.key ≠ b.key →
    Apart (storageTarget sha256Hex root a.key) (storageTarget sha256Hex root b.key)

/-- When different instances are stored apart. -/
theorem storageSeparate_of_built {instances : List PackageInstance}
    (hbuilt : ∀ a ∈ instances, a.key.id.registry.Built url) (hsha : CollisionFree sha256Hex instances) :
    StorageSeparate sha256Hex root instances ↔
      ∀ a ∈ instances, ∀ b ∈ instances, a.key ≠ b.key → ¬ SharesStorage a.key b.key := by
  have hsegments : ∀ a ∈ instances, ∀ b ∈ instances,
      (storageTarget sha256Hex root a.key <+: storageTarget sha256Hex root b.key ↔ SharesStorage a.key b.key) :=
    fun a ha b hb => storageTarget_prefix_iff (hbuilt a ha) (hbuilt b hb) (hsha a ha b hb)
  constructor
  · intro h a ha b hb hne hshared
    exact (h a ha b hb hne).1 ((hsegments a ha b hb).mpr hshared)
  · intro h a ha b hb hne
    exact ⟨fun hpre => h a ha b hb hne ((hsegments a ha b hb).mp hpre),
      fun hpre => h b hb a ha hne.symm ((hsegments b hb a ha).mp hpre)⟩

end Targets

/-! ### Plain materialization -/

section Materialization

variable (sha256Hex : String → String) (root : ManagedRoot)

structure MaterializationInput where
  instances : List PackageInstance
  deriving DecidableEq

/-- Order in which instances are materialized. -/
def PackageInstance.sortKey (inst : PackageInstance) : PackageInstanceId ×ₗ String ×ₗ String :=
  toLex (inst.key.id, toLex (PeerContext.display inst.key.peerContext,
    platformComponentKey inst.key.platformContext))

/-- Equal neighbours are refused. -/
def checkNeighbours (pair : PackageInstance × PackageInstance) : Except PlanError Unit :=
  rejectIf (pair.1.key = pair.2.key) (.duplicateInstance pair.1.key.id)

/-- Store one instance and link it under its own name. -/
def materializeInstance (done : List MaterializationEntry × List ActivationStep) (inst : PackageInstance) :
    Except PlanError (List MaterializationEntry × List ActivationStep) := do
  let entry ← planEntry sha256Hex root inst
  let activationTarget := Location.path root [inst.key.id.name]
  rejectIf (¬ root.contains activationTarget) (.pathOutsideManagedRoot activationTarget)
  rejectIf (done.2.any fun step => step.target == activationTarget) (.conflictingTarget activationTarget)
  return (done.1 ++ [entry], done.2 ++ [⟨.symlink, entry.target, activationTarget⟩])

def planMaterialization (input : MaterializationInput) : Except PlanError MaterializationPlan := do
  let instances := input.instances.insertionSort fun a b => a.sortKey ≤ b.sortKey
  checkAll checkNeighbours (instances.zip instances.tail)
  let done ← instances.foldlM (materializeInstance sha256Hex root) ([], [])
  return {
    managedRoot := root.path
    ownershipMarker := root.ownershipMarker
    entries := done.1
    activation := done.2 }

end Materialization

/-! ### Plans -/

section Plans

variable {sha256Hex : String → String} {root : ManagedRoot} {url : UrlParser}
  {instances : List PackageInstance} {plan : MaterializationPlan}

theorem planEntry_eq_ok {inst : PackageInstance} {entry : MaterializationEntry}
    (h : planEntry sha256Hex root inst = .ok entry) : entry.target = storageTarget sha256Hex root inst.key := by
  simp only [planEntry, bind_eq_ok, rejectIf_eq_ok, pure_eq_ok] at h
  obtain ⟨_, _, rfl⟩ := h
  rfl

theorem mapM_planEntry {entries : List MaterializationEntry}
    (h : instances.mapM (planEntry sha256Hex root) = .ok entries) :
    entries.map MaterializationEntry.target = instances.map fun inst => storageTarget sha256Hex root inst.key := by
  induction instances generalizing entries with
  | nil =>
    rw [List.mapM_nil] at h
    rw [← pure_eq_ok.mp h]
    rfl
  | cons inst instances ih =>
    simp only [List.mapM_cons, bind_eq_ok, pure_eq_ok] at h
    obtain ⟨entry, hentry, entries, hentries, rfl⟩ := h
    rw [List.map_cons, List.map_cons, planEntry_eq_ok hentry, ih hentries]

theorem foldlM_materializeInstance {done done' : List MaterializationEntry × List ActivationStep}
    (h : instances.foldlM (materializeInstance sha256Hex root) done = .ok done') :
    done'.1.map MaterializationEntry.target = done.1.map MaterializationEntry.target ++
      instances.map fun inst => storageTarget sha256Hex root inst.key := by
  induction instances generalizing done with
  | nil =>
    rw [List.foldlM_nil] at h
    rw [← pure_eq_ok.mp h, List.map_nil, List.append_nil]
  | cons inst instances ih =>
    obtain ⟨next, hnext, h⟩ := Loop.foldlM_cons_eq_ok.mp h
    simp only [materializeInstance, bind_eq_ok, rejectIf_eq_ok, pure_eq_ok] at hnext
    obtain ⟨entry, hentry, _, _, _, _, rfl⟩ := hnext
    rw [ih h, List.map_append, List.map_singleton, planEntry_eq_ok hentry, List.map_cons, List.append_assoc,
      List.singleton_append]

/-- The plan of some instances, with links of any kind. -/
def PlansInstances (sha256Hex : String → String) (root : ManagedRoot) (instances : List PackageInstance)
    (plan : MaterializationPlan) : Prop :=
  (∃ fuel input platform reserved, input.instances = instances ∧
    Planned sha256Hex root fuel input platform reserved plan) ∨
  planMaterialization sha256Hex root ⟨instances⟩ = .ok plan

/-- **Every instance is stored at its storage target.** -/
theorem PlansInstances.targets (h : PlansInstances sha256Hex root instances plan) :
    (plan.entries.map MaterializationEntry.target).Perm
      (instances.map fun inst => storageTarget sha256Hex root inst.key) := by
  rcases h with ⟨fuel, input, platform, reserved, rfl, h⟩ | h
  · obtain ⟨_, h⟩ := planned_inner h
    rw [planNamedLayoutInner] at h
    cases hprepared : prepareLayout sha256Hex root input platform reserved with
    | error e =>
      rw [hprepared] at h
      cases Option.some_inj.mp h
    | ok prepared =>
      rw [hprepared] at h
      obtain ⟨result, _, hresult⟩ := Option.map_eq_some_iff.mp h
      obtain ⟨final, _, hfinish⟩ := bind_eq_ok.mp hresult
      have hentries : plan.entries = prepared.entries := by
        rw [finishLayout] at hfinish
        split at hfinish
        · cases hfinish
        · rw [← Except.ok.inj hfinish]
      simp only [prepareLayout, bind_eq_ok, pure_eq_ok] at hprepared
      obtain ⟨_, _, _, _, entries, hmap, _, _, _, _, rfl⟩ := hprepared
      rw [hentries, mapM_planEntry hmap]
      exact (List.perm_insertionSort _ _).map _
  · simp only [planMaterialization, bind_eq_ok, pure_eq_ok] at h
    obtain ⟨_, _, done, hdone, rfl⟩ := h
    rw [foldlM_materializeInstance hdone, List.map_nil, List.nil_append]
    exact (List.perm_insertionSort _ _).map _

/-- **When a plan stores different instances apart**: exactly when no two of
them differ only in what their storage path blurs. -/
theorem storageSeparate_iff (hbuilt : ∀ a ∈ instances, a.key.id.registry.Built url)
    (hsha : CollisionFree sha256Hex instances) (h : PlansInstances sha256Hex root instances plan) :
    (plan.entries.map MaterializationEntry.target).Perm
        (instances.map fun inst => storageTarget sha256Hex root inst.key) ∧
      (StorageSeparate sha256Hex root instances ↔
        ∀ a ∈ instances, ∀ b ∈ instances, a.key ≠ b.key → ¬ SharesStorage a.key b.key) :=
  ⟨h.targets, storageSeparate_of_built hbuilt hsha⟩

end Plans

/-! ### A plan with a shared path -/

/-- A URL parser that knows the registry of the samples. -/
def layoutUrl : UrlParser := fun s =>
  if s = "https://r.io" then some ⟨"https", "", none, some "r.io", none, "/", none, none, "https://r.io/"⟩ else none

/-- An instance resolved against one peer. -/
def peerInstance (peer : PackageName) : PackageInstance :=
  ⟨{ plainInstance nameP 1 with peerContext := OrdMap.ofList [(peer, .stable 1 0 0)] }, ["srv", "store", "p"]⟩

/-- A package resolved against two peers whose names differ in where the scope
ends. -/
def blurredInstances : List PackageInstance :=
  [peerInstance ⟨"@a/b_c", by decide⟩, peerInstance ⟨"@a_b/c", by decide⟩]

theorem built_blurredInstances : ∀ a ∈ blurredInstances, a.key.id.registry.Built layoutUrl := by
  intro a ha
  have hsource : PackageSource.parse layoutUrl "https://r.io" = .ok layoutRegistry := by decide
  rcases List.mem_cons.mp ha with rfl | ha
  · exact Or.inl ⟨_, hsource⟩
  · rw [List.mem_singleton.mp ha]
    exact Or.inl ⟨_, hsource⟩

theorem collisionFree_blurredInstances : CollisionFree layoutSha blurredInstances := by
  have hsource : ∀ a ∈ blurredInstances, a.key.id.registry = layoutRegistry := by
    intro a ha
    rcases List.mem_cons.mp ha with rfl | ha
    · rfl
    · rw [List.mem_singleton.mp ha]
      rfl
  intro a ha b hb _
  rw [hsource a ha, hsource b hb]

theorem exists_plansInstances_blurredInstances :
    ∃ plan, PlansInstances layoutSha layoutRoot blurredInstances plan := by
  have hsome : ((planNamedLayout layoutSha layoutRoot 1 ⟨blurredInstances, [], []⟩ .unix).bind
      Except.toOption).isSome = true := by decide
  obtain ⟨plan, hplan⟩ := Option.isSome_iff_exists.mp hsome
  obtain ⟨result, hresult, hok⟩ := Option.bind_eq_some_iff.mp hplan
  cases result with
  | error e => cases hok
  | ok plan' => exact ⟨plan', Or.inl ⟨1, ⟨blurredInstances, [], []⟩, .unix, ∅, rfl, Or.inl ⟨rfl, hresult⟩⟩⟩

theorem storageSeparate_iff_blurredInstances :
    ∃ plan : MaterializationPlan, (plan.entries.map MaterializationEntry.target).Perm
        (blurredInstances.map fun inst => storageTarget layoutSha layoutRoot inst.key) ∧
      (StorageSeparate layoutSha layoutRoot blurredInstances ↔
        ∀ a ∈ blurredInstances, ∀ b ∈ blurredInstances, a.key ≠ b.key → ¬ SharesStorage a.key b.key) := by
  obtain ⟨plan, hplan⟩ := exists_plansInstances_blurredInstances
  exact ⟨plan, storageSeparate_iff built_blurredInstances collisionFree_blurredInstances hplan⟩

/-- **Storage paths are not injective**: two peer contexts can have one path. -/
theorem not_forall_storageSeparate :
    ¬ ∀ (url : UrlParser) (sha256Hex : String → String) (root : ManagedRoot) (instances : List PackageInstance)
      (plan : MaterializationPlan), (∀ a ∈ instances, a.key.id.registry.Built url) →
      CollisionFree sha256Hex instances → PlansInstances sha256Hex root instances plan →
      StorageSeparate sha256Hex root instances := by
  intro hall
  obtain ⟨plan, hplan⟩ := exists_plansInstances_blurredInstances
  have hseparate := hall _ _ _ _ plan built_blurredInstances collisionFree_blurredInstances hplan
  have hne : (peerInstance ⟨"@a/b_c", by decide⟩).key ≠ (peerInstance ⟨"@a_b/c", by decide⟩).key := by
    decide
  have hsame : storageTarget layoutSha layoutRoot (peerInstance ⟨"@a/b_c", by decide⟩).key =
      storageTarget layoutSha layoutRoot (peerInstance ⟨"@a_b/c", by decide⟩).key := by
    decide
  have hapart := hseparate _ List.mem_cons_self _ (List.mem_cons_of_mem _ List.mem_cons_self) hne
  exact hapart.1 (by rw [hsame])

end Tapid
