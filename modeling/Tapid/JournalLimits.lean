/-
What the writer of the store's journal writes and its reader accepts.

The journal has an entry for each new tree.  Its reader has a limit; its writer has
none.

* `readsStoreJournal_afterWrite_iff` — when the journal that was written is accepted.
-/
import Tapid.LifecyclePolicy
import Tapid.LifecycleTransaction
import Tapid.StoreJournal

namespace Tapid

open FileSystem FileProg Interrupted Fallible Text LexicalPath

namespace StoreJournal

section Limits

/-- The owner that the coordinator names. -/
def coordinatorOwner (codec : JsonCodec) (coordinator : Option Node) : Option String :=
  match coordinator with
  | some (.file contents) => (fromSlice codec contents).toOption.bind fun record => getStr record "owner"
  | _ => none

/-- A write of the journal from some state, cut short or not. -/
def afterWrite (codec : JsonCodec) (root coordinator : AbsPath) (pid nonce : Nat) (created : List ArtifactDigest)
    (createdTreesDir : Bool) (plan : List (Fate Cut)) (s : Files) : Files :=
  ((writeStoreJournal codec root coordinator pid nonce created createdTreesDir).run.execute fileCalls plan [] s).final

theorem noted_afterWrite {codec : JsonCodec} {root coordinator : AbsPath} {pid nonce : Nat}
    {created : List ArtifactDigest} {createdTreesDir : Bool} {plan : List (Fate Cut)} {s : Files}
    (hnone : s (storeJournalPath root) = none) :
    Noted codec root coordinator created createdTreesDir s
      (afterWrite codec root coordinator pid nonce created createdTreesDir plan s) := by
  have hwp : wp fileCalls (planned plan) (fun _ t => Noted codec root coordinator created createdTreesDir s t)
      (writeStoreJournal codec root coordinator pid nonce created createdTreesDir).run
      (fun _ _ t => Noted codec root coordinator created createdTreesDir s t) [] s := wp_writeStoreJournal hnone
  have hsat := execute_of_wp plan hwp (by rw [failures_nil]; omega)
  rw [afterWrite]
  generalize (writeStoreJournal codec root coordinator pid nonce created createdTreesDir).run.execute fileCalls plan [] s =
    outcome at hsat ⊢
  cases outcome with
  | returned r log t => exact hsat
  | stopped log t => exact hsat

/-- The record that is noted, and the owner in it. -/
theorem Notes.eq {codec : JsonCodec} {coordinator : AbsPath} {created : List ArtifactDigest} {createdTreesDir : Bool}
    {s : Files} {journal : StoreRecord} (h : Notes codec coordinator created createdTreesDir s journal) :
    coordinatorOwner codec (s coordinator) = some journal.owner ∧
      journal = ⟨pathText coordinator, journal.owner, created.map ArtifactDigest.text, createdTreesDir⟩ := by
  obtain ⟨contents, record, hfile, hrecord, hjournal⟩ := h
  simp only [storeRecord, bind_eq_ok, pure_eq_ok, rejectIf_eq_ok, orError_eq_ok] at hjournal
  obtain ⟨_, _, owner, howner, rfl⟩ := hjournal
  refine ⟨?_, rfl⟩
  rw [hfile, coordinatorOwner, hrecord]
  exact howner

end Limits

/-- **When the reader accepts what was written.**  The write of the store's journal
may have been cut short or have failed after the journal was there; the JSON library
reads back what it wrote, and paths are what they are documented to be. -/
theorem readsStoreJournal_afterWrite_iff (decode : String → Except String Json) (root coordinator : AbsPath) (pid nonce : Nat)
    (created : List ArtifactDigest) (createdTreesDir : Bool) (plan : List (Fate Cut)) (s : Files)
    (hpath : FilePath coordinator) (hdigests : ∀ d ∈ created, ArtifactDigest.parse d.text = .ok d)
    (hnone : s (storeJournalPath root) = none)
    (hback : ∀ journal, Notes (compactCodec decode) coordinator created createdTreesDir s journal →
      decode (String.ofList journal.toValue.compact) = .ok journal.toValue)
    (hwritten : afterWrite (compactCodec decode) root coordinator pid nonce created createdTreesDir plan s
      (storeJournalPath root) ≠ none) :
    ReadsStoreJournal (compactCodec decode) root
        (afterWrite (compactCodec decode) root coordinator pid nonce created createdTreesDir plan s) ↔
      ∃ owner, coordinatorOwner (compactCodec decode) (s coordinator) = some owner ∧
        storeRecordSize (pathText coordinator) owner created.length createdTreesDir ≤ storeJournalMax := by
  obtain ⟨journal, hnotes, hfile⟩ := (noted_afterWrite hnone).resolve_left hwritten
  obtain ⟨howner, hjournal⟩ := hnotes.eq
  rw [readsStoreJournal_iff hfile, readBytes_iff hpath hdigests hjournal (hback journal hnotes), howner]
  refine ⟨fun hsize => ⟨journal.owner, rfl, hsize⟩, fun ⟨owner, heq, hsize⟩ => ?_⟩
  rwa [Option.some_inj.mp heq]

/-! ### One project -/

section Example

open LifecycleTransaction (installRecord installBytes)

def installCoordinator : AbsPath := ["p", ".tapid-lifecycle-journal.json"]

def installJournal (created : List ArtifactDigest) : StoreRecord :=
  ⟨pathText installCoordinator, "1-a\n", created.map ArtifactDigest.text, true⟩

/-- A library that knows the two documents of the install. -/
def installDecode (created : List ArtifactDigest) : String → Except String Json :=
  readDocument [installRecord.toValue, (installJournal created).toValue]

def installCodec (created : List ArtifactDigest) : JsonCodec := compactCodec (installDecode created)

theorem toVec_installCodec (created : List ArtifactDigest) :
    toVec (installCodec created) installRecord.toValue = installBytes :=
  LifecycleTransaction.toVec_compactCodec _ _

/-- The project's record is written, and the store is empty. -/
def beforeInstall : Files := fun p =>
  if p = installCoordinator then some (.file installBytes)
  else if p = ["store"] then some (.directory [])
  else none

theorem installCoordinator_filePath : FilePath installCoordinator where
  ne_nil := by decide
  proper := by
    have hnames : ∀ name ∈ installCoordinator,
        name.toList ≠ [] ∧ name.toList ≠ ['.'] ∧ name.toList ≠ ['.', '.'] ∧ '/' ∉ name.toList := by
      decide
    intro name hname
    obtain ⟨hnil, hdot, hdots, hslash⟩ := hnames name hname
    exact ⟨hnil, hdot, hdots, hslash⟩

/-- The documents begin differently. -/
theorem nodup_installDocuments (created : List ArtifactDigest) :
    ([installRecord.toValue, (installJournal created).toValue].map Json.compact).Nodup := by
  have hrecord : installRecord.toValue.compact.take 3 = ['\x7b', '"', 'v'] := by decide +kernel
  have hjournal : (installJournal created).toValue.compact.take 3 = ['\x7b', '"', 'c'] := by
    have hname : "coordinator".toList = 'c' :: "oordinator".toList := by decide
    have hplain : Json.Plain "coordinator".toList := Json.plain_of_all (by decide)
    rw [StoreRecord.toValue, Json.compact_obj, List.map_cons, List.map_cons, List.intercalate_cons_cons,
      Json.quote_plain hplain, hname]
    rfl
  refine List.nodup_cons.mpr ⟨fun hmem => ?_, List.nodup_singleton _⟩
  have htake := congrArg (List.take 3) (List.mem_singleton.mp hmem)
  rw [hrecord, hjournal] at htake
  exact absurd htake (by decide)

theorem installDecode_record (created : List ArtifactDigest) :
    installDecode created (String.ofList installRecord.toValue.compact) = .ok installRecord.toValue :=
  readDocument_compact (nodup_installDocuments created) List.mem_cons_self

theorem readsBack_compact {decode : String → Except String Json} {r : LifecycleRecord}
    (h : decode (String.ofList r.toValue.compact) = .ok r.toValue) :
    LifecycleTransaction.ReadsBack (compactCodec decode) r := h

theorem readsBack_record (created : List ArtifactDigest) :
    LifecycleTransaction.ReadsBack (installCodec created) installRecord :=
  readsBack_compact (installDecode_record created)

theorem installDecode_journal (created : List ArtifactDigest) :
    installDecode created (String.ofList (installJournal created).toValue.compact) =
      .ok (installJournal created).toValue :=
  readDocument_compact (nodup_installDocuments created) (List.mem_cons_of_mem _ List.mem_cons_self)

theorem coordinatorOwner_beforeInstall (created : List ArtifactDigest) :
    coordinatorOwner (installCodec created) (beforeInstall installCoordinator) = some "1-a\n" := by
  have hfile : beforeInstall installCoordinator = some (.file (toVec (installCodec created) installRecord.toValue)) := by
    rw [toVec_installCodec, beforeInstall, if_pos rfl]
  have hslice : fromSlice (installCodec created) (toVec (installCodec created) installRecord.toValue) =
      .ok installRecord.toValue := fromSlice_toVec (readsBack_record created)
  rw [hfile, coordinatorOwner, hslice]
  rfl

theorem installDecode_notes {created : List ArtifactDigest} {journal : StoreRecord}
    (h : Notes (installCodec created) installCoordinator created true beforeInstall journal) :
    installDecode created (String.ofList journal.toValue.compact) = .ok journal.toValue := by
  obtain ⟨howner, hjournal⟩ := h.eq
  have heq : journal = installJournal created := by
    rw [hjournal, installJournal, ← Option.some_inj.mp ((coordinatorOwner_beforeInstall created).symm.trans howner)]
  rw [heq]
  exact installDecode_journal created

/-- The digest of tree number `n`. -/
def treeDigest (n : Nat) : ArtifactDigest :=
  ⟨"sha256-" ++ String.ofList (hexEncode (List.replicate 30 0 ++ [UInt8.ofNat (n / 256), UInt8.ofNat n]))⟩

theorem parse_treeDigest (n : Nat) : ArtifactDigest.parse (treeDigest n).text = .ok (treeDigest n) := by
  obtain ⟨hall, hlen⟩ := hexEncode_digits (List.replicate 30 0 ++ [UInt8.ofNat (n / 256), UInt8.ofNat n])
  refine ArtifactDigest.parse_lowerHex ?_ hlen (List.all_eq_true.mp hall)
  show ("sha256-" ++ String.ofList _).toList = _
  rw [String.toList_append]
  exact congrArg _ String.toList_ofList

/-- The digests of so many trees. -/
def treeDigests (trees : Nat) : List ArtifactDigest := (List.range trees).map treeDigest

theorem parse_treeDigests (trees : Nat) : ∀ d ∈ treeDigests trees, ArtifactDigest.parse d.text = .ok d := by
  intro d hd
  obtain ⟨n, _, rfl⟩ := List.mem_map.mp hd
  exact parse_treeDigest n

/-- The journal has been renamed into its place when the sync of the store fails. -/
def syncFails : List (Fate Cut) := List.replicate 6 .done ++ [.failed ⟨none, []⟩]

/-- The process stops when it has renamed the journal. -/
def stopsRenamed : List (Fate Cut) := List.replicate 6 .done ++ [.stopped ⟨none, []⟩]

/-- Two trees are noted, and the note is read although the sync behind it has failed;
that of 14500 trees is there after a crash, and too large to be read. -/
theorem readsStoreJournal_afterWrite_install :
    ReadsStoreJournal (installCodec (treeDigests 2)) ["store"]
      (afterWrite (installCodec (treeDigests 2)) ["store"] installCoordinator 1 2 (treeDigests 2) true syncFails
        beforeInstall) ∧
    ¬ReadsStoreJournal (installCodec (treeDigests 14500)) ["store"]
      (afterWrite (installCodec (treeDigests 14500)) ["store"] installCoordinator 1 2 (treeDigests 14500) true
        stopsRenamed beforeInstall) := by
  have hiff : ∀ trees plan, afterWrite (installCodec (treeDigests trees)) ["store"] installCoordinator 1 2
      (treeDigests trees) true plan beforeInstall (storeJournalPath ["store"]) ≠ none → _ := fun trees plan hwritten =>
    readsStoreJournal_afterWrite_iff (installDecode (treeDigests trees)) ["store"] installCoordinator 1 2
      (treeDigests trees) true plan beforeInstall installCoordinator_filePath (parse_treeDigests trees) rfl
      (fun _ h => installDecode_notes h) hwritten
  have howner := fun trees => coordinatorOwner_beforeInstall (treeDigests trees)
  refine ⟨(hiff 2 syncFails ?_).mpr ⟨"1-a\n", howner 2, ?_⟩, fun h => ?_⟩
  · refine Option.isSome_iff_ne_none.mp ?_
    decide +kernel
  · decide +kernel
  · have hwritten : afterWrite (installCodec (treeDigests 14500)) ["store"] installCoordinator 1 2
        (treeDigests 14500) true stopsRenamed beforeInstall (storeJournalPath ["store"]) ≠ none := by
      refine Option.isSome_iff_ne_none.mp ?_
      decide +kernel
    obtain ⟨owner, heq, hsize⟩ := (hiff 14500 stopsRenamed hwritten).mp h
    obtain rfl := Option.some_inj.mp ((howner 14500).symm.trans heq)
    rw [treeDigests, List.length_map, List.length_range] at hsize
    exact absurd hsize (by decide +kernel)

end Example

end StoreJournal

end Tapid
