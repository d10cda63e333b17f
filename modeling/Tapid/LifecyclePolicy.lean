/-
Authorization of dependency hooks.

A hook of a dependency runs only under an approval for its package, version,
archive and exact script.  The output of a hook is bound to a recipe, a digest
of everything it was derived from, and the store authenticates the pair of
recipe and output with a key of its own.

* `DependencyLifecyclePolicy.approvalFor`, `DependencyLifecyclePolicy.derivedKey`;
* `dependencyLifecyclePlan` — the hooks of a manifest in execution order;
* `outputMac`, `attestation`, `verifyAttestation` — authentication of outputs.
-/
import Tapid.Bytes
import Tapid.NpmGraph

namespace Tapid

open Text Fallible

/-! ### Hashed texts -/

/-- The UTF-8 bytes of a text. -/
def textBytes (s : String) : List UInt8 := utf8Bytes s.toList

/-- A text preceded by its length, least significant byte first. -/
def framed (s : String) : List UInt8 := (Bytes.beBytes 8 (textBytes s).length).reverse ++ textBytes s

/-- A sequence of texts as it is hashed. -/
def framedAll (texts : List String) : List UInt8 := texts.flatMap framed

/-! ### The policy -/

/-- An executable pinned by an approval. -/
structure LifecycleTool where
  name : String
  path : String
  digest : String
  deriving DecidableEq

structure DependencyLifecycleApproval where
  package : String
  version : String
  archiveDigest : String
  scriptDigest : String
  hook : String
  tools : List LifecycleTool
  dependencies : Bool
  deriving DecidableEq

structure DependencyLifecyclePolicy where
  digest : String
  approvals : List DependencyLifecycleApproval
  deriving DecidableEq

namespace DependencyLifecyclePolicy

variable (sha256Hex : List UInt8 → String)

def sha256 (bytes : List UInt8) : String := "sha256-" ++ sha256Hex bytes

def mismatchMessage (package version hook : String) : String :=
  "dependency lifecycle approval does not match version/archive for " ++ package ++ "@" ++ version ++
    " " ++ hook

/-- Approvals for a hook of a package, of whatever version. -/
def candidates (policy : DependencyLifecyclePolicy) (package hook : String) :
    List DependencyLifecycleApproval :=
  policy.approvals.filter fun a => a.package == package && a.hook == hook

/-- The approval for a hook, if the policy speaks about it; an approval for
another version, archive or script is an error. -/
def approvalFor (policy : DependencyLifecyclePolicy)
    (package version archiveDigest hook script : String) :
    Except String (Option DependencyLifecycleApproval) :=
  if (policy.candidates package hook).isEmpty then .ok none
  else do
    let approval ← orError ((policy.candidates package hook).find? fun a => a.version == version)
      (mismatchMessage package version hook)
    rejectIf (approval.version ≠ version ∨ approval.archiveDigest ≠ archiveDigest)
      (mismatchMessage package version hook)
    rejectIf (approval.scriptDigest ≠ sha256 sha256Hex (textBytes script))
      "dependency lifecycle script digest does not match approval"
    return some approval

/-- The texts a recipe is made of. -/
def recipeTexts (policy : DependencyLifecyclePolicy) (approval : DependencyLifecycleApproval)
    (toolchain graph : String) : List String :=
  ["tapid-derived-lifecycle-v1", approval.package, approval.version, approval.archiveDigest,
    policy.digest, approval.hook, approval.scriptDigest, toolchain, graph]

/-- The recipe of an output. -/
def derivedKey (policy : DependencyLifecyclePolicy) (approval : DependencyLifecycleApproval)
    (toolchain graph : String) : String :=
  sha256 sha256Hex (framedAll (policy.recipeTexts approval toolchain graph))

/-- An approval for exactly this archive and script. -/
structure Approves (policy : DependencyLifecyclePolicy) (package : LockedPackage) (hook script : String)
    (approval : DependencyLifecycleApproval) : Prop where
  mem : approval ∈ policy.approvals
  nameEq : approval.package = package.name
  versionEq : approval.version = package.version
  archiveEq : approval.archiveDigest = package.artifactIntegrity
  hookEq : approval.hook = hook
  scriptEq : approval.scriptDigest = sha256 sha256Hex (textBytes script)

/-- **An approval that is found is exact.** -/
theorem approves_of_approvalFor {policy : DependencyLifecyclePolicy} {package : LockedPackage}
    {hook script : String} {approval : DependencyLifecycleApproval}
    (h : policy.approvalFor sha256Hex package.name package.version package.artifactIntegrity hook script =
      .ok (some approval)) : policy.Approves sha256Hex package hook script approval := by
  rw [approvalFor] at h
  by_cases hempty : (policy.candidates package.name hook).isEmpty = true
  · rw [if_pos hempty] at h
    simp at h
  rw [if_neg hempty] at h
  simp only [bind_eq_ok, orError_eq_ok, rejectIf_eq_ok, pure_eq_ok, not_or, not_not] at h
  obtain ⟨found, hfind, _, ⟨hversion, harchive⟩, _, hscript, heq⟩ := h
  obtain rfl := Option.some_inj.mp heq
  obtain ⟨hmem, hfilter⟩ := List.mem_filter.mp (List.mem_of_find?_eq_some hfind)
  rw [Bool.and_eq_true, beq_iff_eq, beq_iff_eq] at hfilter
  exact ⟨hmem, hfilter.1, hversion, harchive, hfilter.2, hscript⟩

/-- A policy without approvals approves nothing. -/
theorem approvalFor_of_isEmpty {policy : DependencyLifecyclePolicy} (h : policy.approvals = [])
    (package version archiveDigest hook script : String) :
    policy.approvalFor sha256Hex package version archiveDigest hook script = .ok none := by
  rw [approvalFor, candidates, h]
  rfl

end DependencyLifecyclePolicy

/-! ### Hooks of a manifest -/

/-- Hooks in execution order with their scripts, and whether the native build
of npm was added to them. -/
structure DependencyLifecyclePlan where
  commands : List (String × String) := []
  implicitInstall : Bool := false
  deriving DecidableEq

/-- Hooks that are looked for. -/
def lifecycleHooks : List String := ["preinstall", "install", "postinstall", "prepublish", "preprepare",
  "prepare", "postprepare"]

inductive ScriptError where
  | text (message : String)
  | lockfile (error : LockfileError)
  | domain (error : DomainError)
  | manifest (message : String)
  | host (message : String)
  deriving DecidableEq

/-- The script of a hook, unless it is blank. -/
def scriptCommand (scripts : JsonMap) (hook : String) : Option (String × String) :=
  (((scripts.get? hook).bind Json.asStr).filter fun command => trim command.toList ≠ []).map
    fun command => (hook, command)

def dependencyLifecyclePlan (codec : JsonCodec) (input : String) (bindingGyp : Bool) :
    Except ScriptError DependencyLifecyclePlan := do
  let value ← (codec.decode input).mapError fun e => .manifest ("invalid package.json: " ++ e)
  let object ← orError value.asObject (.manifest "package.json root must be an object")
  let scripts ← orError (((object.get? "scripts").getD (.obj [])).asObject)
    (.manifest "package.json field 'scripts' must be an object")
  checkAll (fun e => rejectIf (e.2.asStr = none)
    (.manifest ("package.json field 'scripts' entry '" ++ e.1 ++ "' must be a string"))) scripts.entries
  let commands := lifecycleHooks.filterMap (scriptCommand scripts)
  let implicitInstall := bindingGyp && !scripts.contains "install" && !scripts.contains "preinstall"
  return {
    commands := if implicitInstall then ("install", "node-gyp rebuild") :: commands else commands
    implicitInstall }

/-! ### Authentication of outputs -/

def hexDigit (n : Nat) : Char := if n < 10 then Char.ofNat (48 + n) else Char.ofNat (87 + n)

def hexEncode (bytes : List UInt8) : List Char :=
  bytes.flatMap fun b => [hexDigit (b.toNat / 16), hexDigit (b.toNat % 16)]

def hexDecode : List Char → Option (List UInt8)
  | [] => some []
  | [_] => none
  | a :: b :: rest => do
    let high ← hexValue a
    let low ← hexValue b
    let bytes ← hexDecode rest
    return UInt8.ofNat (high * 16 + low) :: bytes

theorem hexDecode_hexEncode (bytes : List UInt8) : hexDecode (hexEncode bytes) = some bytes := by
  have hdigit : ∀ n < 16, hexValue (hexDigit n) = some n := by decide
  induction bytes with
  | nil => rfl
  | cons b bytes ih =>
    have hlt := b.toNat_lt
    have hcons : hexEncode (b :: bytes) =
        hexDigit (b.toNat / 16) :: hexDigit (b.toNat % 16) :: hexEncode bytes := rfl
    rw [hcons, hexDecode, hdigit _ (by omega), hdigit _ (by omega), ih]
    show some (UInt8.ofNat (b.toNat / 16 * 16 + b.toNat % 16) :: bytes) = _
    rw [Nat.div_add_mod']
    simp

/-- The digits of a byte string are lower-case and two for each byte. -/
theorem hexEncode_digits (bytes : List UInt8) :
    (hexEncode bytes).all isLowerHexDigit = true ∧ byteLen (hexEncode bytes) = 2 * bytes.length := by
  have hdigit : ∀ n < 16, isLowerHexDigit (hexDigit n) = true ∧ (hexDigit n).utf8Size = 1 := by decide
  induction bytes with
  | nil => exact ⟨rfl, rfl⟩
  | cons b bytes ih =>
    have hlt := b.toNat_lt
    obtain ⟨hall, hlen⟩ := ih
    obtain ⟨hhigh, hhighSize⟩ := hdigit (b.toNat / 16) (by omega)
    obtain ⟨hlow, hlowSize⟩ := hdigit (b.toNat % 16) (by omega)
    have hcons : hexEncode (b :: bytes) =
        hexDigit (b.toNat / 16) :: hexDigit (b.toNat % 16) :: hexEncode bytes := rfl
    rw [hcons]
    constructor
    · rw [List.all_cons, List.all_cons, hhigh, hlow, hall]
      rfl
    · simp only [byteLen, List.map_cons, List.sum_cons, hhighSize, hlowSize] at hlen ⊢
      rw [hlen, List.length_cons]
      omega

variable (hmac : List UInt8 → List UInt8 → List UInt8)

def outputMac (key : List UInt8) (recipe output : String) : List UInt8 :=
  hmac key (framedAll ["tapid-lifecycle-output-v1", recipe, output])

/-- The text a store hands out for an output. -/
def attestation (key : List UInt8) (recipe output : String) : String :=
  "hmac-sha256-" ++ String.ofList (hexEncode (outputMac hmac key recipe output))

/-- Whether a text authenticates an output under a recipe. -/
def verifyAttestation (key : List UInt8) (recipe output text : String) : Except ScriptError Unit := do
  let tag ← orError ((stripPrefix "hmac-sha256-".toList text.toList).bind hexDecode)
    (.host "invalid lifecycle output attestation")
  rejectIf (tag ≠ outputMac hmac key recipe output)
    (.host "lifecycle output attestation does not match recipe/tree")

/-- **What a store hands out it accepts.** -/
theorem verifyAttestation_attestation (key : List UInt8) (recipe output : String) :
    verifyAttestation hmac key recipe output (attestation hmac key recipe output) = .ok () := by
  have htag : (stripPrefix "hmac-sha256-".toList (attestation hmac key recipe output).toList).bind hexDecode =
      some (outputMac hmac key recipe output) := by
    rw [attestation, String.toList_append, stripPrefix_append, Option.bind_some, String.toList_ofList]
    exact hexDecode_hexEncode _
  rw [verifyAttestation, htag]
  exact (bind_eq_ok.mpr ⟨_, rfl, rejectIf_eq_ok.mpr (not_not.mpr rfl)⟩)

end Tapid
