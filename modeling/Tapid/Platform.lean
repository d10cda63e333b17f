/-
Platform selection.

A package may list the systems, processors and C libraries it supports, or the
ones it does not support.  The lockfile does not keep these lists: it records a
context, the facts of the writing host in the dimensions the package
constrains, and another host is checked against the context.  The C library is
only a fact of Linux hosts, so a context written elsewhere has none.

* `valueMatches_eq_true` — what a constraint list admits;
* `lockedPlatformMatches_fromSource` — the check of a recorded context;
* `platformContext_sound_iff` — when the context stands for the lists.
-/
import Tapid.LockKeyCodec

namespace Tapid

open Text Fallible

/-- The text of an error. -/
def DomainError.display : DomainError → String
  | invalidPackageName value => "invalid package name: " ++ value
  | invalidPackageVersion value => "invalid package version: " ++ value
  | invalidArtifactDigest value => "invalid artifact digest: " ++ value
  | invalidRegistryOrigin value => "invalid registry origin: " ++ value
  | invalidPackageIntegrity value => "invalid package integrity: " ++ value
  | invalidPlatformContext => "invalid platform context"
  | invalidPackageSource => "invalid copied package source"
  | invalidArtifactUrl => "invalid artifact URL"

/-- npm constraints on the platform of a package. -/
structure PackagePlatform where
  os : List String
  cpu : List String
  libc : List String
  deriving DecidableEq

def npmOs : String → String
  | "macos" => "darwin"
  | "windows" => "win32"
  | value => value

def npmCpu : String → String
  | "aarch64" => "arm64"
  | "x86_64" => "x64"
  | "x86" => "ia32"
  | value => value

namespace PackagePlatform

/-! ### Constraint lists -/

/-- The value an exclusion names. -/
def excluded (value : String) : Option String := (stripPrefix ['!'] value.toList).map String.ofList

/-- The list only excludes values. -/
def exclusionsOnly (values : List String) : Bool := values.all fun value => startsWith ['!'] value.toList

/-- The loop of `value_matches`. -/
def matchLoop (current : String) : List String → Bool → Bool → Bool
  | [], hasPositive, positiveMatch => !hasPositive || positiveMatch
  | value :: rest, hasPositive, positiveMatch =>
    match excluded value with
    | some name => if name = current then false else matchLoop current rest hasPositive positiveMatch
    | none => matchLoop current rest true (positiveMatch || value == current)

def valueMatches (values : List String) (current : Option String) : Bool :=
  if values.isEmpty then true
  else
    match current with
    | none => false
    | some current => matchLoop current values false false

/-- npm compares C libraries on Linux only, and an unknown one against
exclusions not at all. -/
def libcMatches (p : PackagePlatform) (os : String) (libc : Option String) : Bool :=
  if npmOs os ≠ "linux" ∨ (libc.isNone ∧ exclusionsOnly p.libc) then true else valueMatches p.libc libc

def admits (p : PackagePlatform) (os cpu : String) (libc : Option String) : Bool :=
  valueMatches p.os (some (npmOs os)) && valueMatches p.cpu (some (npmCpu cpu)) && p.libcMatches os libc

/-- The C library that is recorded. -/
def libcContext (p : PackagePlatform) (os : String) (libc : Option String) : Except String (Option String) :=
  if p.libc.isEmpty ∨ npmOs os ≠ "linux" ∨ (exclusionsOnly p.libc ∧ libc.isNone) then .ok none
  else (orError libc "selected package requires a libc platform context").map some

def selectedContext (p : PackagePlatform) (os cpu : String) (libc : Option String) :
    Except String PlatformContext := do
  let libc ← p.libcContext os libc
  (PlatformContext.new (if p.os.isEmpty then none else some (npmOs os))
    (if p.cpu.isEmpty then none else some (npmCpu cpu)) libc).mapError DomainError.display

end PackagePlatform

namespace PackagePlatform

/-! ### What a list admits -/

theorem isSome_excluded (value : String) : (excluded value).isSome = startsWith ['!'] value.toList := by
  rw [excluded, Option.isSome_map, startsWith]

/-- The loop remembers whether it has seen a supported value and the current one
among them; an exclusion of the current value ends it. -/
theorem matchLoop_eq_true {current : String} {values : List String} {hasPositive positiveMatch : Bool} :
    matchLoop current values hasPositive positiveMatch = true ↔
      (∀ value ∈ values, excluded value ≠ some current) ∧
        ((hasPositive = false ∧ exclusionsOnly values = true) ∨ positiveMatch = true ∨
          (current ∈ values ∧ excluded current = none)) := by
  induction values generalizing hasPositive positiveMatch with
  | nil => cases hasPositive <;> cases positiveMatch <;> simp [matchLoop, exclusionsOnly]
  | cons value rest ih =>
    rw [matchLoop]
    have hstart := isSome_excluded value
    cases hvalue : excluded value with
    | some name =>
      rw [hvalue, Option.isSome_some] at hstart
      by_cases hname : name = current
      · subst hname
        simp [hvalue]
      · have hne : excluded value ≠ some current := fun h => hname (Option.some_inj.mp (hvalue.symm.trans h))
        -- the current value is no exclusion if it is to match
        have hcurrent : excluded current = none → current ≠ value := by
          rintro h rfl
          rw [h] at hvalue
          cases hvalue
        rw [List.forall_mem_cons]
        simp only [if_neg hname, ih, exclusionsOnly, List.all_cons, ← hstart, Bool.true_and, List.mem_cons]
        tauto
    | none =>
      rw [hvalue, Option.isSome_none] at hstart
      rw [List.forall_mem_cons]
      simp only [ih, hvalue, exclusionsOnly, List.all_cons, ← hstart, Bool.false_and, List.mem_cons,
        Bool.or_eq_true, beq_iff_eq]
      constructor
      · rintro ⟨hrest, ⟨h, _⟩ | (h | rfl) | h⟩
        · cases h
        · exact ⟨⟨by simp, hrest⟩, Or.inr (Or.inl h)⟩
        · exact ⟨⟨by simp, hrest⟩, Or.inr (Or.inr ⟨Or.inl rfl, hvalue⟩)⟩
        · exact ⟨⟨by simp, hrest⟩, Or.inr (Or.inr ⟨Or.inr h.1, h.2⟩)⟩
      · rintro ⟨⟨_, hrest⟩, ⟨_, h⟩ | h | ⟨rfl | h, hcurrent⟩⟩
        · cases h
        · exact ⟨hrest, Or.inr (Or.inl (Or.inl h))⟩
        · exact ⟨hrest, Or.inr (Or.inl (Or.inr rfl))⟩
        · exact ⟨hrest, Or.inr (Or.inr ⟨h, hcurrent⟩)⟩

/-- **A list admits a known value** if it does not exclude it, and names it
unless it names only exclusions. -/
theorem valueMatches_eq_true {values : List String} {current : String} :
    valueMatches values (some current) = true ↔
      (∀ value ∈ values, excluded value ≠ some current) ∧
        (exclusionsOnly values = true ∨ (current ∈ values ∧ excluded current = none)) := by
  cases values with
  | nil => simp [valueMatches, exclusionsOnly]
  | cons value rest =>
    show matchLoop current (value :: rest) false false = true ↔ _
    rw [matchLoop_eq_true]
    simp

/-- A recorded fact admits itself only. -/
theorem valueMatches_singleton {value current : String} (h : excluded value = none) :
    valueMatches [value] (some current) = true ↔ value = current := by
  have hstart := isSome_excluded value
  rw [h, Option.isSome_none] at hstart
  rw [valueMatches_eq_true, exclusionsOnly, List.all_cons, ← hstart]
  constructor
  · rintro ⟨_, h | ⟨hmem, _⟩⟩
    · simp at h
    · exact (List.mem_singleton.mp hmem).symm
  · rintro rfl
    exact ⟨by simp [h], Or.inr ⟨by simp, h⟩⟩

/-- A list whose dimension is recorded admits what the recorded fact admits. -/
theorem valueMatches_recorded {values : List String} {fact current : String}
    (hfact : excluded fact = none) (h : valueMatches values (some fact) = true)
    (hcurrent : valueMatches (if values.isEmpty then none else some fact).toList (some current) = true) :
    valueMatches values (some current) = true := by
  cases values with
  | nil => rfl
  | cons value rest =>
    obtain rfl := (valueMatches_singleton hfact).mp hcurrent
    exact h

theorem valueMatches_recorded_self {values : List String} {fact : String} (hfact : excluded fact = none) :
    valueMatches (if values.isEmpty then none else some fact).toList (some fact) = true := by
  split_ifs
  · rfl
  · exact (valueMatches_singleton hfact).mpr rfl

end PackagePlatform

/-! ### Hosts -/

open PackagePlatform

/-- The facts of the host a build runs on.  No system or processor is spelt like
an exclusion, and only Linux builds know a C library. -/
structure HostPlatform where
  os : String
  cpu : String
  libc : Option String
  os_plain : excluded os = none
  cpu_plain : excluded cpu = none
  libc_known : libc = none ∨ libc = some "glibc" ∨ libc = some "musl"
  libc_linux : libc ≠ none → os = "linux"

namespace HostPlatform

def currentPlatformMatches (host : HostPlatform) (p : PackagePlatform) : Bool :=
  p.admits host.os host.cpu host.libc

def lockedPlatformMatches (host : HostPlatform) (key : LockfilePackageKey) : Except LockfileError Bool := do
  let context ← decodePlatformContext key.platformContext key.display
  return host.currentPlatformMatches ⟨context.os.toList, context.cpu.toList, context.libc.toList⟩

theorem excluded_npmOs (host : HostPlatform) : excluded (npmOs host.os) = none := by
  have h := host.os_plain
  unfold npmOs
  split
  · rfl
  · rfl
  · exact h

theorem excluded_npmCpu (host : HostPlatform) : excluded (npmCpu host.cpu) = none := by
  have h := host.cpu_plain
  unfold npmCpu
  split
  · rfl
  · rfl
  · rfl
  · exact h

theorem excluded_libc (host : HostPlatform) {libc : String} (h : host.libc = some libc) :
    excluded libc = none := by
  rcases host.libc_known with hlibc | hlibc | hlibc
  · rw [h] at hlibc
    cases hlibc
  · rw [h] at hlibc
    cases hlibc
    rfl
  · rw [h] at hlibc
    cases hlibc
    rfl

/-- A Linux host. -/
def linux (cpu : String) (hcpu : excluded cpu = none) (libc : Option String)
    (hlibc : libc = none ∨ libc = some "glibc" ∨ libc = some "musl") : HostPlatform :=
  ⟨"linux", cpu, libc, rfl, hcpu, hlibc, fun _ => rfl⟩

end HostPlatform

namespace PackagePlatform

/-- The list admits every C library of a Linux host, the unknown one too. -/
def AdmitsEveryLibc (p : PackagePlatform) : Prop :=
  ∀ libc, libc = none ∨ libc = some "glibc" ∨ libc = some "musl" → p.libcMatches "linux" libc = true

/-- The systems and processors a package admits. -/
def AdmitsSystem (p : PackagePlatform) (host : HostPlatform) : Prop :=
  valueMatches p.os (some (npmOs host.os)) = true ∧ valueMatches p.cpu (some (npmCpu host.cpu)) = true

theorem admits_iff {p : PackagePlatform} {host : HostPlatform} :
    host.currentPlatformMatches p = true ↔ p.AdmitsSystem host ∧ p.libcMatches host.os host.libc = true := by
  rw [HostPlatform.currentPlatformMatches, admits, Bool.and_eq_true, Bool.and_eq_true]
  exact Iff.rfl

/-! ### Recorded contexts -/

theorem eq_of_new {os cpu libc : Option String} {c : PlatformContext}
    (h : PlatformContext.new os cpu libc = .ok c) : c = ⟨os, cpu, libc⟩ := by
  rw [PlatformContext.new] at h
  split_ifs at h
  exact (Except.ok.inj h).symm

/-- The context a matching host records. -/
structure Recorded (p : PackagePlatform) (a : HostPlatform) (c : PlatformContext) : Prop where
  os : c.os = if p.os.isEmpty then none else some (npmOs a.os)
  cpu : c.cpu = if p.cpu.isEmpty then none else some (npmCpu a.cpu)
  libc : c.libc = if p.libc.isEmpty ∨ npmOs a.os ≠ "linux" then none else a.libc
  accepted : c.Accepted

theorem recorded_of_selectedContext {p : PackagePlatform} {a : HostPlatform} {c : PlatformContext}
    (h : p.selectedContext a.os a.cpu a.libc = .ok c) : p.Recorded a c := by
  simp only [selectedContext, bind_eq_ok, mapError_eq_ok] at h
  obtain ⟨libc, hlibc, hnew⟩ := h
  have haccepted := PlatformContext.accepted_of_new hnew
  have hlibc : libc = if p.libc.isEmpty ∨ npmOs a.os ≠ "linux" then none else a.libc := by
    rw [libcContext] at hlibc
    by_cases hfree : p.libc.isEmpty ∨ npmOs a.os ≠ "linux"
    · rw [if_pos (hfree.imp_right Or.inl)] at hlibc
      rw [if_pos hfree]
      exact (Except.ok.inj hlibc).symm
    · rw [if_neg hfree]
      split_ifs at hlibc with hunknown
      · have hnone : a.libc.isNone = true := by tauto
        rw [Option.isNone_iff_eq_none.mp hnone]
        exact (Except.ok.inj hlibc).symm
      · obtain ⟨l, hl, rfl⟩ := map_eq_ok.mp hlibc
        exact (orError_eq_ok.mp hl).symm
  obtain rfl := eq_of_new hnew
  exact ⟨rfl, rfl, hlibc, haccepted⟩

/-- The check of a recorded context, dimension by dimension. -/
theorem lockedPlatformMatches_fromSource {p : PackagePlatform} {a : HostPlatform} {c : PlatformContext}
    (h : p.Recorded a c) (source : PackageSource) (name : PackageName) (version : PackageVersion)
    (peer : PeerContext) (b : HostPlatform) :
    b.lockedPlatformMatches (.fromSource source name version peer c) = .ok true ↔
      valueMatches c.os.toList (some (npmOs b.os)) = true ∧
        valueMatches c.cpu.toList (some (npmCpu b.cpu)) = true ∧
        (npmOs b.os = "linux" → c.libc = none ∨ c.libc = b.libc) := by
  have hdecode := decodePlatformContext_canonical h.accepted
    (LockfilePackageKey.fromSource source name version peer c).display
  rw [HostPlatform.lockedPlatformMatches]
  show ((decodePlatformContext (canonicalPlatformContext c) _ >>= _) = _) ↔ _
  rw [hdecode, ok_bind]
  show Except.ok _ = Except.ok true ↔ _
  rw [Except.ok.injEq, HostPlatform.currentPlatformMatches, admits, Bool.and_eq_true, Bool.and_eq_true, and_assoc,
    libcMatches]
  refine and_congr_right fun _ => and_congr_right fun _ => ?_
  by_cases hos : npmOs b.os = "linux"
  · rw [forall_prop_of_true hos]
    cases hlibc : c.libc with
    | none => simp [exclusionsOnly, valueMatches]
    | some libc =>
      -- a recorded C library is a fact of a host, not an exclusion
      have hplain : excluded libc = none := by
        have hrecorded := h.libc
        rw [hlibc] at hrecorded
        split_ifs at hrecorded
        exact a.excluded_libc hrecorded.symm
      have hstart := isSome_excluded libc
      rw [hplain, Option.isSome_none] at hstart
      have hpositive : exclusionsOnly [libc] = false := by
        rw [exclusionsOnly, List.all_cons, ← hstart, Bool.false_and]
      rw [Option.toList_some, hpositive, if_neg (by simp [hos])]
      cases hb : b.libc with
      | none => simp [valueMatches]
      | some current =>
        rw [valueMatches_singleton hplain, Option.some_inj]
        simp
  · rw [if_pos (Or.inl hos)]
    exact iff_of_true rfl fun h => absurd h hos

/-- The recorded context keeps the C library apart from other ones: it is a fact
of a Linux host, or the package is not for Linux hosts. -/
def ContextStands (p : PackagePlatform) (a : HostPlatform) : Prop :=
  p.AdmitsEveryLibc ∨ (npmOs a.os = "linux" ∧ a.libc ≠ none) ∨ (npmOs a.os ≠ "linux" ∧ p.os ≠ [])

theorem libcMatches_of_not_linux {p : PackagePlatform} {os : String} {libc : Option String}
    (h : npmOs os ≠ "linux") : p.libcMatches os libc = true := if_pos (Or.inl h)

theorem libcMatches_linux {p : PackagePlatform} {os : String} (h : npmOs os = "linux") (libc : Option String) :
    p.libcMatches os libc = p.libcMatches "linux" libc := by
  rw [libcMatches, libcMatches, h]
  rfl

section Sound

variable {p : PackagePlatform} {a : HostPlatform} {c : PlatformContext}

/-- Where the context stands for the lists, a host that passes its check is
admitted by the C library list. -/
theorem Recorded.libcMatches (h : p.Recorded a c) (hmatch : a.currentPlatformMatches p = true)
    (hstands : p.ContextStands a) {b : HostPlatform}
    (hos : valueMatches c.os.toList (some (npmOs b.os)) = true)
    (hlibc : npmOs b.os = "linux" → c.libc = none ∨ c.libc = b.libc) :
    p.libcMatches b.os b.libc = true := by
  by_cases hb : npmOs b.os = "linux"
  · rw [libcMatches_linux hb]
    rcases hstands with hevery | ⟨ha, hknown⟩ | ⟨ha, hconstrained⟩
    · exact hevery b.libc b.libc_known
    · have hfree : p.libc = [] → p.libcMatches "linux" b.libc = true := by
        intro hnil
        rw [PackagePlatform.libcMatches, hnil]
        exact ite_self _
      have hrecorded := h.libc
      by_cases hnil : p.libc = []
      · exact hfree hnil
      · rw [if_neg (by simp [hnil, ha])] at hrecorded
        rcases hlibc hb with hnone | hsame
        · exact absurd (hrecorded.symm.trans hnone) hknown
        · rw [← hsame, hrecorded, ← libcMatches_linux ha]
          exact (admits_iff.mp hmatch).2
    · -- the recorded system is not Linux, so `b` is not Linux either
      have hrecorded := h.os
      rw [if_neg (by simpa using hconstrained)] at hrecorded
      rw [hrecorded, Option.toList_some, valueMatches_singleton a.excluded_npmOs] at hos
      exact absurd (hos.trans hb) ha
  · exact libcMatches_of_not_linux hb

/-- Where it does not stand for them, nothing of the C library is recorded and
Linux hosts are not excluded. -/
theorem Recorded.of_not_contextStands (h : p.Recorded a c)
    (hstands : ¬ p.ContextStands a) :
    c.libc = none ∧ valueMatches c.os.toList (some "linux") = true ∧ ¬ p.AdmitsEveryLibc := by
  rw [ContextStands, not_or, not_or, not_and, not_and, not_not, not_not] at hstands
  obtain ⟨hevery, hlinux, hother⟩ := hstands
  by_cases ha : npmOs a.os = "linux"
  · refine ⟨?_, ?_, hevery⟩
    · rw [h.libc, hlinux ha]
      exact ite_self _
    · rw [h.os, ← ha]
      exact valueMatches_recorded_self a.excluded_npmOs
  · refine ⟨?_, ?_, hevery⟩
    · rw [h.libc, if_pos (Or.inr ha)]
    · rw [h.os, hother ha]
      rfl

/-- **Recorded platform contexts.**  The writing host passes the check of its own
context; every host that passes it runs a system and a processor the package
admits; and every such host is admitted by the package exactly if the context
stands for the C library list. -/
theorem platformContext_sound_iff (hmatch : a.currentPlatformMatches p = true)
    (hcontext : p.selectedContext a.os a.cpu a.libc = .ok c) (source : PackageSource) (name : PackageName)
    (version : PackageVersion) (peer : PeerContext) :
    a.lockedPlatformMatches (.fromSource source name version peer c) = .ok true ∧
      (∀ b : HostPlatform, b.lockedPlatformMatches (.fromSource source name version peer c) = .ok true →
        p.AdmitsSystem b) ∧
      ((∀ b : HostPlatform, b.lockedPlatformMatches (.fromSource source name version peer c) = .ok true →
        b.currentPlatformMatches p = true) ↔ p.ContextStands a) := by
  have h := recorded_of_selectedContext hcontext
  have hsystem := (admits_iff.mp hmatch).1
  have hlocked := lockedPlatformMatches_fromSource h source name version peer
  have hadmits : ∀ b : HostPlatform,
      b.lockedPlatformMatches (.fromSource source name version peer c) = .ok true → p.AdmitsSystem b := by
    intro b hb
    obtain ⟨hos, hcpu, _⟩ := (hlocked b).mp hb
    rw [h.os] at hos
    rw [h.cpu] at hcpu
    exact ⟨valueMatches_recorded a.excluded_npmOs hsystem.1 hos,
      valueMatches_recorded a.excluded_npmCpu hsystem.2 hcpu⟩
  refine ⟨(hlocked a).mpr ⟨?_, ?_, fun ha => ?_⟩, hadmits, ?_, ?_⟩
  · rw [h.os]
    exact valueMatches_recorded_self a.excluded_npmOs
  · rw [h.cpu]
    exact valueMatches_recorded_self a.excluded_npmCpu
  · rw [h.libc]
    split_ifs
    · exact Or.inl rfl
    · exact Or.inr rfl
  · -- a Linux host with the processor of `a` and a C library the list refuses
    intro hall
    by_contra hstands
    obtain ⟨hnone, hos, hevery⟩ := h.of_not_contextStands hstands
    refine hevery fun libc hlibc => ?_
    have hb := hall (.linux a.cpu a.cpu_plain libc hlibc) ((hlocked _).mpr ⟨hos, ?_, fun _ => Or.inl hnone⟩)
    · exact (admits_iff.mp hb).2
    · rw [h.cpu]
      exact valueMatches_recorded_self a.excluded_npmCpu
  · intro hstands b hb
    obtain ⟨hos, _, hlibc⟩ := (hlocked b).mp hb
    exact admits_iff.mpr ⟨hadmits b hb, h.libcMatches hmatch hstands hos hlibc⟩

end Sound

end PackagePlatform

/-! ### A context written on another system -/

/-- A package for musl. -/
def muslPackage : PackagePlatform := ⟨[], [], ["musl"]⟩

def macosHost : HostPlatform := ⟨"macos", "aarch64", none, rfl, rfl, Or.inl rfl, fun h => absurd rfl h⟩

def glibcHost : HostPlatform := .linux "x86_64" rfl (some "glibc") (Or.inr (Or.inl rfl))

def npmSource : PackageSource := .ofOrigin ⟨"https://registry.npmjs.org"⟩

def addonName : PackageName := ⟨"addon", by decide⟩

namespace PackagePlatform

theorem selectedContext_muslPackage :
    muslPackage.selectedContext macosHost.os macosHost.cpu macosHost.libc = .ok .unrestricted := rfl

theorem platformContext_sound_macosHost :
    macosHost.lockedPlatformMatches (.fromSource npmSource addonName (.stable 1 0 0) ∅ .unrestricted) = .ok true ∧
      (∀ b : HostPlatform, b.lockedPlatformMatches
          (.fromSource npmSource addonName (.stable 1 0 0) ∅ .unrestricted) = .ok true →
        muslPackage.AdmitsSystem b) ∧
      ((∀ b : HostPlatform, b.lockedPlatformMatches
          (.fromSource npmSource addonName (.stable 1 0 0) ∅ .unrestricted) = .ok true →
        b.currentPlatformMatches muslPackage = true) ↔ muslPackage.ContextStands macosHost) :=
  platformContext_sound_iff rfl selectedContext_muslPackage npmSource addonName (.stable 1 0 0) ∅

/-- A lockfile written on macOS admits a package for musl on a host with glibc. -/
theorem not_forall_platformContext_sound :
    ¬ ∀ (p : PackagePlatform) (a b : HostPlatform) (c : PlatformContext) (source : PackageSource)
      (name : PackageName) (version : PackageVersion) (peer : PeerContext),
      a.currentPlatformMatches p = true → p.selectedContext a.os a.cpu a.libc = .ok c →
        a.lockedPlatformMatches (.fromSource source name version peer c) = .ok true ∧
          (b.lockedPlatformMatches (.fromSource source name version peer c) = .ok true →
            b.currentPlatformMatches p = true) := by
  intro hall
  have hrecorded := recorded_of_selectedContext selectedContext_muslPackage
  have hlocked : glibcHost.lockedPlatformMatches
      (.fromSource npmSource addonName (.stable 1 0 0) ∅ .unrestricted) = .ok true :=
    (lockedPlatformMatches_fromSource hrecorded npmSource addonName (.stable 1 0 0) ∅ glibcHost).mpr
      ⟨rfl, rfl, fun _ => Or.inl rfl⟩
  have hmatch := (hall muslPackage macosHost glibcHost .unrestricted npmSource addonName (.stable 1 0 0) ∅ rfl
    selectedContext_muslPackage).2 hlocked
  exact absurd hmatch (by decide)

end PackagePlatform

end Tapid
