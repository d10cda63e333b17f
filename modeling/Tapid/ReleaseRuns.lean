/-
Runs of the release policy.

A run accepts releases one after another, with writes and re-reads of the state
in between.  From a state whose floor is its recorded version, everything
recorded during the run stays below what is accepted later.  A state with a lower
floor is read without complaint; the first release a client accepts from it may
be below the recorded one, or the recorded version with another digest.

* `acceptRelease_eq_ok` — when a release is accepted;
* `Recorded.accept` — what one accepted release preserves;
* `noRollback_iff` — the states no run rolls back from.
-/
import Tapid.JsonText
import Tapid.ReleaseState

namespace Tapid

open Text Fallible Json

/-! ### Versions -/

/-- A stable version is written from its numbers. -/
theorem versionNumbers_eq_ok {value : String} {a : U64 ×ₗ U64 ×ₗ U64} (h : versionNumbers value = .ok a) :
    value.toList = ['.'].intercalate
      [numeral (ofLex a).1, numeral (ofLex (ofLex a).2).1, numeral (ofLex (ofLex a).2).2] := by
  have hnumeral : ∀ {s : List Char} {n : U64}, parseU64 s = some n → numeral n = s := by
    intro s n hs
    obtain ⟨m, hm, hfit⟩ := Option.bind_eq_some_iff.mp hs
    split_ifs at hfit with hlt
    rw [← Option.some_inj.mp hfit]
    exact numeral_parseNat hm
  obtain ⟨_, _, h⟩ := bind_eq_ok.mp h
  split at h
  · rename_i major minor patch hparts
    rw [List.map_eq_cons_iff] at hparts
    obtain ⟨p, ps, hsplit, hp, hps⟩ := hparts
    obtain ⟨q, qs, rfl, hq, hqs⟩ := List.map_eq_cons_iff.mp hps
    obtain ⟨r, rs, rfl, hr, hrs⟩ := List.map_eq_cons_iff.mp hqs
    obtain rfl := List.map_eq_nil_iff.mp hrs
    rw [← pure_eq_ok.mp h]
    show value.toList = ['.'].intercalate [numeral major, numeral minor, numeral patch]
    rw [hnumeral hp, hnumeral hq, hnumeral hr, ← hsplit, List.intercalate_splitOn]
  · cases h

/-- Stable versions with the same numbers are the same text. -/
theorem eq_of_versionNumbers {v w : String} {a : U64 ×ₗ U64 ×ₗ U64} (hv : versionNumbers v = .ok a)
    (hw : versionNumbers w = .ok a) : v = w :=
  String.toList_inj.mp ((versionNumbers_eq_ok hv).trans (versionNumbers_eq_ok hw).symm)

theorem stable_of_versionNumbers {value : String} {a : U64 ×ₗ U64 ×ₗ U64} (h : versionNumbers value = .ok a) :
    stableStateVersion value = true := by
  obtain ⟨_, hstable, _⟩ := bind_eq_ok.mp h
  exact not_not.mp (rejectIf_eq_ok.mp hstable)

theorem compareVersion_eq_ok {left right : String} {order : Ordering} :
    compareVersion left right = .ok order ↔
      ∃ a b, versionNumbers left = .ok a ∧ versionNumbers right = .ok b ∧ compare a b = order := by
  simp only [compareVersion, bind_eq_ok, pure_eq_ok]
  constructor
  · rintro ⟨a, ha, b, hb, h⟩
    exact ⟨a, b, ha, hb, h⟩
  · rintro ⟨a, b, ha, hb, h⟩
    exact ⟨a, ha, b, hb, h⟩

/-- The version is stable and not below the bound. -/
def NotBelow (version bound : String) : Prop :=
  ∃ a b, versionNumbers version = .ok a ∧ versionNumbers bound = .ok b ∧ b ≤ a

theorem NotBelow.trans {u v w : String} (huv : NotBelow u v) (hvw : NotBelow v w) : NotBelow u w := by
  obtain ⟨a, b, ha, hb, hab⟩ := huv
  obtain ⟨b', c, hb', hc, hbc⟩ := hvw
  obtain rfl := Except.ok.inj (hb.symm.trans hb')
  exact ⟨a, c, ha, hc, hbc.trans hab⟩

theorem NotBelow.antisymm {v w : String} (hvw : NotBelow v w) (hwv : NotBelow w v) : v = w := by
  obtain ⟨a, b, ha, hb, hab⟩ := hvw
  obtain ⟨b', a', hb', ha', hba⟩ := hwv
  obtain rfl := Except.ok.inj (ha.symm.trans ha')
  obtain rfl := Except.ok.inj (hb.symm.trans hb')
  obtain rfl : a = b := le_antisymm hba hab
  exact eq_of_versionNumbers ha hb

/-! ### One release -/

/-- What a valid state is. -/
theorem validateState_eq_ok {s : ReleaseState} : validateState s = .ok () ↔
    s.schema = "tapid-release-state-v2" ∧ s.verification ∈ ["signature", "checksum", "unknown"] ∧
      hex64 s.lastKnownGood.artifactSha256 = true ∧ NotBelow s.lastKnownGood.version s.releaseFloor := by
  simp only [validateState, validateLkg, bind_eq_ok, rejectIf_eq_ok, not_or, not_not]
  constructor
  · rintro ⟨_, ⟨hschema, _⟩, _, hverification, _, ⟨_, hhex⟩, order, horder, hlt⟩
    obtain ⟨a, b, ha, hb, rfl⟩ := compareVersion_eq_ok.mp horder
    exact ⟨hschema, hverification, hhex, a, b, ha, hb, not_lt.mp fun h => hlt (compare_lt_iff_lt.mpr h)⟩
  · rintro ⟨hschema, hverification, hhex, a, b, ha, hb, hab⟩
    refine ⟨(), ⟨hschema, stable_of_versionNumbers hb⟩, (), hverification, (), ⟨stable_of_versionNumbers ha, hhex⟩, _,
      compareVersion_eq_ok.mpr ⟨a, b, ha, hb, rfl⟩, fun h => ?_⟩
    exact absurd hab (not_le.mpr (compare_lt_iff_lt.mp h))

/-- The state an accepted release leaves. -/
def ReleaseState.accepted (s : ReleaseState) (version : String) (sequence : U64) (artifactSha256 : String) :
    ReleaseState where
  schema := "tapid-release-state-v2"
  releaseFloor := version
  releaseSequence := sequence
  lastKnownGood := ⟨version, artifactSha256⟩
  verification := s.verification

theorem validateState_accepted {s : ReleaseState} {version digest : String} {sequence : U64}
    {a : U64 ×ₗ U64 ×ₗ U64} (ha : versionNumbers version = .ok a) (hhex : hex64 digest = true) {verification : String}
    (hverification : verification ∈ ["signature", "checksum", "unknown"]) :
    validateState { s.accepted version sequence digest with verification := verification } = .ok () :=
  validateState_eq_ok.mpr ⟨rfl, hverification, hhex, a, a, ha, ha, le_rfl⟩

/-- A version is at the floor or above it. -/
theorem checkFloor_eq_ok {s : ReleaseState} {version digest : String} :
    checkFloor s version digest = .ok () ↔ NotBelow version s.releaseFloor ∧
      (version = s.releaseFloor → digest = s.lastKnownGood.artifactSha256) := by
  rw [checkFloor, bind_eq_ok]
  constructor
  · rintro ⟨order, horder, h⟩
    obtain ⟨a, b, ha, hb, rfl⟩ := compareVersion_eq_ok.mp horder
    rcases lt_trichotomy a b with hlt | rfl | hgt
    · rw [compare_lt_iff_lt.mpr hlt] at h
      cases h
    · rw [compare_eq_iff_eq.mpr rfl] at h
      exact ⟨⟨a, a, ha, hb, le_rfl⟩, fun _ => not_not.mp (rejectIf_eq_ok.mp h)⟩
    · refine ⟨⟨a, b, ha, hb, hgt.le⟩, fun heq => ?_⟩
      rw [heq, hb] at ha
      exact absurd (Except.ok.inj ha) (ne_of_lt hgt)
  · rintro ⟨⟨a, b, ha, hb, hab⟩, hdigest⟩
    refine ⟨_, compareVersion_eq_ok.mpr ⟨a, b, ha, hb, rfl⟩, ?_⟩
    rcases hab.lt_or_eq with hlt | rfl
    · rw [compare_gt_iff_gt.mpr hlt]
      rfl
    · rw [compare_eq_iff_eq.mpr rfl]
      exact rejectIf_eq_ok.mpr (not_not.mpr (hdigest (eq_of_versionNumbers ha hb)))

/-- **When a release is accepted.** -/
theorem acceptRelease_eq_ok {s t : ReleaseState} {version digest : String} {sequence : U64} :
    acceptRelease s version sequence digest = .ok t ↔ validateState s = .ok () ∧ s.releaseSequence < sequence ∧
      NotBelow version s.releaseFloor ∧ (version = s.releaseFloor → digest = s.lastKnownGood.artifactSha256) ∧
      hex64 digest = true ∧ t = s.accepted version sequence digest := by
  simp only [acceptRelease, ReleaseState.new, bind_eq_ok, rejectIf_eq_ok, pure_eq_ok, not_le]
  constructor
  · rintro ⟨_, hvalid, _, hsequence, _, hfloor, next, ⟨_, hnext, rfl⟩, _, _, rfl⟩
    obtain ⟨hbelow, hdigest⟩ := checkFloor_eq_ok.mp hfloor
    exact ⟨hvalid, hsequence, hbelow, hdigest, (validateState_eq_ok.mp hnext).2.2.1, rfl⟩
  · rintro ⟨hvalid, hsequence, hbelow, hdigest, hhex, rfl⟩
    obtain ⟨a, _, ha, _⟩ := id hbelow
    have hverification := (validateState_eq_ok.mp hvalid).2.1
    have hunknown : unknownVerification ∈ ["signature", "checksum", "unknown"] := by decide
    exact ⟨(), hvalid, (), hsequence, (), checkFloor_eq_ok.mpr ⟨hbelow, hdigest⟩, _,
      ⟨(), @validateState_accepted s _ _ sequence _ ha hhex _ hunknown, rfl⟩, (),
      @validateState_accepted s _ _ sequence _ ha hhex _ hverification, rfl⟩

/-! ### Runs -/

/-- One accepted release with the state it was accepted in. -/
structure Acceptance where
  before : ReleaseState
  version : String
  sequence : U64
  artifactSha256 : String

/-- A run of the client from a state, with the releases it accepted. -/
inductive PolicyRun (codec : JsonCodec) (start : ReleaseState) : List Acceptance → ReleaseState → Prop where
  | start : PolicyRun codec start [] start
  | accept {log : List Acceptance} {s t : ReleaseState} {version digest : String} {sequence : U64} :
    PolicyRun codec start log s → acceptRelease s version sequence digest = .ok t →
    PolicyRun codec start (log ++ [⟨s, version, sequence, digest⟩]) t
  /-- The state is written and read again by a JSON library that reads back what
  it wrote. -/
  | reread {log : List Acceptance} {s t : ReleaseState} {text : String} :
    PolicyRun codec start log s → codec.decode (codec.encode s.toValue) = .ok s.toValue →
    releaseStateText codec s = .ok text → parseReleaseState codec text = .ok t → PolicyRun codec start log t

/-- No rollback and no equivocation among the accepted releases. -/
structure NoRollback (log : List Acceptance) : Prop where
  sequences : log.Pairwise fun a b => a.sequence < b.sequence
  newer : ∀ a ∈ log, a.before.releaseSequence < a.sequence
  floor : ∀ a ∈ log, NotBelow a.version a.before.releaseFloor
  lastKnownGood : ∀ a ∈ log, NotBelow a.version a.before.lastKnownGood.version
  /-- What was recorded before a release is not accepted with another digest. -/
  digest : ∀ a ∈ log, a.before.lastKnownGood.version = a.version →
    a.before.lastKnownGood.artifactSha256 = a.artifactSha256
  digests : log.Pairwise fun a b => a.before.lastKnownGood.version = b.version →
    a.before.lastKnownGood.artifactSha256 = b.artifactSha256

/-- The state is past everything that was accepted. -/
structure Recorded (log : List Acceptance) (s : ReleaseState) : Prop where
  agrees : s.releaseFloor = s.lastKnownGood.version
  sequence : ∀ a ∈ log, a.sequence ≤ s.releaseSequence
  version : ∀ a ∈ log, NotBelow s.lastKnownGood.version a.before.lastKnownGood.version
  digest : ∀ a ∈ log, a.before.lastKnownGood.version = s.lastKnownGood.version →
    a.before.lastKnownGood.artifactSha256 = s.lastKnownGood.artifactSha256
  noRollback : NoRollback log

theorem Recorded.nil {s : ReleaseState} (h : s.releaseFloor = s.lastKnownGood.version) : Recorded [] s where
  agrees := h
  sequence _ ha := absurd ha List.not_mem_nil
  version _ ha := absurd ha List.not_mem_nil
  digest _ ha := absurd ha List.not_mem_nil
  noRollback := {
    sequences := List.Pairwise.nil
    newer := fun _ ha => absurd ha List.not_mem_nil
    floor := fun _ ha => absurd ha List.not_mem_nil
    lastKnownGood := fun _ ha => absurd ha List.not_mem_nil
    digest := fun _ ha => absurd ha List.not_mem_nil
    digests := List.Pairwise.nil }

/-- **What one accepted release preserves.** -/
theorem Recorded.accept {log : List Acceptance} {s t : ReleaseState} {version digest : String} {sequence : U64}
    (h : Recorded log s) (haccept : acceptRelease s version sequence digest = .ok t) :
    Recorded (log ++ [⟨s, version, sequence, digest⟩]) t := by
  obtain ⟨_, hsequence, hbelow, hdigest, _, rfl⟩ := acceptRelease_eq_ok.mp haccept
  rw [h.agrees] at hbelow hdigest
  -- a version recorded earlier is accepted again only while it is still the recorded one
  have hearlier : ∀ a ∈ log, a.before.lastKnownGood.version = version →
      a.before.lastKnownGood.artifactSha256 = digest := by
    intro a ha heq
    have hback := h.version a ha
    rw [heq] at hback
    have hsame : version = s.lastKnownGood.version := hbelow.antisymm hback
    rw [h.digest a ha (heq.trans hsame), hdigest hsame]
  have hall : ∀ P : Acceptance → Prop, (∀ a ∈ log, P a) → P ⟨s, version, sequence, digest⟩ →
      ∀ a ∈ log ++ [⟨s, version, sequence, digest⟩], P a := by
    intro P hold hnew a ha
    rcases List.mem_append.mp ha with ha | ha
    · exact hold a ha
    · rw [List.mem_singleton.mp ha]
      exact hnew
  have hpair : ∀ R : Acceptance → Acceptance → Prop, log.Pairwise R →
      (∀ a ∈ log, R a ⟨s, version, sequence, digest⟩) →
      List.Pairwise R (log ++ [⟨s, version, sequence, digest⟩]) := by
    intro R hold hnew
    refine List.pairwise_append.mpr ⟨hold, List.pairwise_singleton _ _, fun a ha b hb => ?_⟩
    rw [List.mem_singleton.mp hb]
    exact hnew a ha
  exact {
    agrees := rfl
    sequence := hall _ (fun a ha => (h.sequence a ha).trans hsequence.le) le_rfl
    version := hall _ (fun a ha => hbelow.trans (h.version a ha)) hbelow
    digest := hall _ hearlier fun heq => (hdigest heq.symm).symm
    noRollback := {
      sequences := hpair _ h.noRollback.sequences fun a ha => (h.sequence a ha).trans_lt hsequence
      newer := hall _ h.noRollback.newer hsequence
      floor := hall _ h.noRollback.floor (by rw [h.agrees]; exact hbelow)
      lastKnownGood := hall _ h.noRollback.lastKnownGood hbelow
      digest := hall _ h.noRollback.digest fun heq => (hdigest heq.symm).symm
      digests := hpair _ h.noRollback.digests hearlier } }

variable {codec : JsonCodec} {s t : ReleaseState} {log : List Acceptance}

/-- **Runs from a state whose floor is its recorded version.** -/
theorem PolicyRun.recorded (h : PolicyRun codec s log t) (hs : s.releaseFloor = s.lastKnownGood.version) :
    Recorded log t := by
  induction h with
  | start => exact Recorded.nil hs
  | accept _ haccept ih => exact ih.accept haccept
  | reread _ hcodec htext hparse ih =>
    obtain rfl := Except.ok.inj ((parseReleaseState_text hcodec htext).symm.trans hparse)
    exact ih

/-- After the last sequence number nothing is accepted. -/
theorem PolicyRun.eq_nil (h : PolicyRun codec s log t) (hs : s.releaseSequence = Fin.last _) :
    log = [] ∧ t = s := by
  induction h with
  | start => exact ⟨rfl, rfl⟩
  | accept _ haccept ih =>
    obtain ⟨_, rfl⟩ := ih
    have hlt := (acceptRelease_eq_ok.mp haccept).2.1
    rw [hs] at hlt
    exact absurd (Fin.le_last _) (not_le.mpr hlt)
  | reread _ hcodec htext hparse ih =>
    obtain rfl := Except.ok.inj ((parseReleaseState_text hcodec htext).symm.trans hparse)
    exact ih

/-- A digest that is not a given one. -/
def otherDigest (digest : String) : String :=
  if digest = String.ofList (List.replicate 64 'a') then String.ofList (List.replicate 64 'b')
  else String.ofList (List.replicate 64 'a')

theorem otherDigest_ne (digest : String) : otherDigest digest ≠ digest := by
  rw [otherDigest]
  split_ifs with h
  · rw [h]
    decide
  · exact Ne.symm h

theorem hex64_otherDigest (digest : String) : hex64 (otherDigest digest) = true := by
  rw [otherDigest]
  split_ifs
  · decide
  · decide

/-- **The states no run rolls back from**: those whose floor is the recorded
version, and those that accept nothing any more. -/
theorem noRollback_iff {text : String} (hread : parseReleaseState codec text = .ok s) :
    (∀ log t, PolicyRun codec s log t → NoRollback log) ↔
      s.releaseFloor = s.lastKnownGood.version ∨ s.releaseSequence = Fin.last _ := by
  have hvalid : validateState s = .ok () := by
    obtain ⟨_, _, h⟩ := bind_eq_ok.mp hread
    obtain ⟨_, _, h⟩ := bind_eq_ok.mp h
    obtain ⟨_, hvalid, h⟩ := bind_eq_ok.mp h
    rwa [← pure_eq_ok.mp h]
  constructor
  · intro hall
    by_contra hcond
    obtain ⟨hfloor, hlast⟩ := not_or.mp hcond
    -- the recorded version again, with another digest
    have haccept : acceptRelease s s.lastKnownGood.version (Fin.last _)
        (otherDigest s.lastKnownGood.artifactSha256) = .ok (s.accepted s.lastKnownGood.version (Fin.last _)
          (otherDigest s.lastKnownGood.artifactSha256)) :=
      acceptRelease_eq_ok.mpr ⟨hvalid, Fin.lt_last_iff_ne_last.mpr hlast, (validateState_eq_ok.mp hvalid).2.2.2,
        fun heq => absurd heq.symm hfloor, hex64_otherDigest _, rfl⟩
    have hrun := hall _ _ (PolicyRun.accept PolicyRun.start haccept)
    exact otherDigest_ne _ (hrun.digest _ List.mem_cons_self rfl).symm
  · rintro (hfloor | hlast) log t h
    · exact (h.recorded hfloor).noRollback
    · rw [(h.eq_nil hlast).1]
      exact (@Recorded.nil (s.accepted s.releaseFloor 0 "") rfl).noRollback

/-! ### A state with a lower floor -/

/-- A state that records a release and a floor. -/
def recordedState (floor version : String) : ReleaseState where
  schema := "tapid-release-state-v2"
  releaseFloor := floor
  releaseSequence := 1
  lastKnownGood := ⟨version, String.ofList (List.replicate 64 'a')⟩
  verification := "signature"

/-- Its text. -/
def recordedText (floor version : String) : String :=
  "\x7b\"schema\":\"tapid-release-state-v2\",\"release_floor\":\"" ++ floor ++
    "\",\"release_sequence\":1,\"last_known_good\":\x7b\"version\":\"" ++ version ++
    "\",\"artifact_sha256\":\"aaaaaaaaaaaaaaaaaaaaaaaaaaaaaaaaaaaaaaaaaaaaaaaaaaaaaaaaaaaaaaaa\"\x7d," ++
    "\"verification\":\"signature\"\x7d"

/-- A JSON library that writes as `serde_json` does, and reads the texts of two
states. -/
def stateCodec : JsonCodec := compactCodec (readDocument
  [(recordedState "2.0.0" "2.0.0").toValue, (recordedState "1.0.0" "2.0.0").toValue])

theorem parseReleaseState_recordedText {floor : String} (h : floor = "2.0.0" ∨ floor = "1.0.0") :
    parseReleaseState stateCodec (recordedText floor "2.0.0") = .ok (recordedState floor "2.0.0") := by
  have hnodup : ([(recordedState "2.0.0" "2.0.0").toValue, (recordedState "1.0.0" "2.0.0").toValue].map
      Json.compact).Nodup := by decide +kernel
  have hback : stateCodec.decode (stateCodec.encode (recordedState floor "2.0.0").toValue) =
      .ok (recordedState floor "2.0.0").toValue := by
    rw [stateCodec, decode_compactCodec]
    refine readDocument_compact hnodup ?_
    rcases h with rfl | rfl
    · exact List.mem_cons_self
    · exact List.mem_cons_of_mem _ List.mem_cons_self
  have htext : releaseStateText stateCodec (recordedState floor "2.0.0") = .ok (recordedText floor "2.0.0") := by
    rcases h with rfl | rfl <;> decide +kernel
  exact parseReleaseState_text hback htext

/-- The floor is the recorded version. -/
theorem noRollback_iff_recorded :
    parseReleaseState stateCodec (recordedText "2.0.0" "2.0.0") = .ok (recordedState "2.0.0" "2.0.0") ∧
    ((∀ log t, PolicyRun stateCodec (recordedState "2.0.0" "2.0.0") log t → NoRollback log) ↔
      (recordedState "2.0.0" "2.0.0").releaseFloor = (recordedState "2.0.0" "2.0.0").lastKnownGood.version ∨
        (recordedState "2.0.0" "2.0.0").releaseSequence = Fin.last _) := by
  have hread := parseReleaseState_recordedText (Or.inl (@rfl _ "2.0.0"))
  exact ⟨hread, noRollback_iff hread⟩

/-- The recorded version is accepted with another digest when the floor is
lower. -/
theorem not_forall_noRollback : ¬ ∀ (codec : JsonCodec) (text : String) (s : ReleaseState),
    parseReleaseState codec text = .ok s → ∀ log t, PolicyRun codec s log t → NoRollback log := by
  intro hall
  have hread := parseReleaseState_recordedText (Or.inr (@rfl _ "1.0.0"))
  have haccept : acceptRelease (recordedState "1.0.0" "2.0.0") "2.0.0" 2 (String.ofList (List.replicate 64 'b')) =
      .ok ((recordedState "1.0.0" "2.0.0").accepted "2.0.0" 2 (String.ofList (List.replicate 64 'b'))) := by decide
  have hrun := hall _ _ _ hread _ _ (PolicyRun.accept PolicyRun.start haccept)
  have hdigest : String.ofList (List.replicate 64 'a') = String.ofList (List.replicate 64 'b') :=
    hrun.digest _ List.mem_cons_self rfl
  exact absurd hdigest (by decide)

end Tapid
