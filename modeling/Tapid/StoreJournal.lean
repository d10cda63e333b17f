/-
The journal of a publication in the shared store.

A publication notes the trees it is about to create, and the record of the
lifecycle transaction that decides about them, before it moves anything.  Whoever
locks the store next reads the note.

* `writeStoreJournal`, `readStoreJournal` — the writer and the reader;
* `wp_writeStoreJournal` — what is in the file after a write, wherever it stops;
* `readStoreJournal_iff` — the reader accepts it when it is not too large.
-/
import Tapid.ActivationSafe
import Tapid.JsonText
import Tapid.PathText

namespace Tapid

open FileSystem FileProg Interrupted Fallible Text LexicalPath
open Activation (tried wp_tried wp_attempt_perform wp_ignore_perform)

namespace StoreJournal

def storeJournalMax : Nat := 1024 * 1024

/-- Must match the limit of lifecycle records. -/
def coordinatorMax : Nat := 96 * 1024 * 1024

def storeJournalPath (root : AbsPath) : AbsPath := root ++ [".tapid-transaction.json"]

/-- Process id and nonce. -/
def storeJournalTemporary (root : AbsPath) (pid nonce : Nat) : AbsPath :=
  root ++ [".tapid-transaction.json." ++ String.ofList (numeral pid ++ '-' :: numeral nonce) ++ ".tmp"]

/-- A canonical path, as text. -/
def pathText (path : AbsPath) : String := String.ofList (absoluteText (path.map String.toList))

/-! ### The record -/

structure StoreRecord where
  coordinator : String
  owner : String
  created : List String
  createdTreesDir : Bool
  deriving DecidableEq

/-- `serde_json::json!`; its maps are sorted. -/
def StoreRecord.toValue (r : StoreRecord) : Json := .obj [
  ("coordinator", .str r.coordinator),
  ("created", .arr (r.created.map .str)),
  ("created_trees_dir", .bool r.createdTreesDir),
  ("owner", .str r.owner),
  ("version", .int 1)]

/-- `Value::get`; of several fields the last counts. -/
def get (j : Json) (name : String) : Option Json :=
  match j with
  | .obj fields => (fields.reverse.find? fun e => e.1 == name).map Prod.snd
  | _ => none

def asU64 : Json → Option Nat
  | .int n => if 0 ≤ n ∧ n < 2 ^ 64 then some n.toNat else none
  | _ => none

def asStr : Json → Option String
  | .str s => some s
  | _ => none

def asBool : Json → Option Bool
  | .bool b => some b
  | _ => none

def asArray : Json → Option (List Json)
  | .arr items => some items
  | _ => none

def getU64 (j : Json) (name : String) : Option Nat := (get j name).bind asU64

def getStr (j : Json) (name : String) : Option String := (get j name).bind asStr

/-! ### Writing -/

section Write

variable (codec : JsonCodec)

/-- The decision the trees depend on. -/
def readCoordinator (coordinator : AbsPath) : ExceptT String FileProg Json := do
  let m ← attempt (.metadata coordinator) IoError.text
  if m.kind ≠ .file ∨ coordinatorMax < m.len then throw "invalid lifecycle coordinator"
  else
    let bytes ← attempt (.read coordinator) IoError.text
    match fromSlice codec bytes with
    | .ok record => return record
    | .error e => throw ("invalid lifecycle coordinator: " ++ e)

/-- What is noted about a publication, if the decision is open. -/
def storeRecord (coordinator : AbsPath) (created : List ArtifactDigest) (createdTreesDir : Bool) (record : Json) :
    Except String StoreRecord := do
  rejectIf (getU64 record "version" ∉ [some 1, some 2, some 3] ∨ getStr record "state" ≠ some "Prepared")
    "lifecycle coordinator is not prepared"
  let owner ← orError (getStr record "owner") "lifecycle coordinator lacks owner"
  return { coordinator := pathText coordinator, owner, created := created.map ArtifactDigest.text, createdTreesDir }

def createStoreJournal (root temp : AbsPath) (bytes : List UInt8) : ExceptT String FileProg Unit := do
  attempt (.createNew temp) IoError.text
  attempt (.writeAll temp bytes) IoError.text
  attempt (.sync temp) IoError.text
  attempt (.rename temp (storeJournalPath root)) IoError.text
  attempt (.sync root) fun e => "cannot sync store directory " ++ pathText root ++ ": " ++ e.text

/-- The coordinator is a canonical path. -/
def writeStoreJournal (root coordinator : AbsPath) (pid nonce : Nat) (created : List ArtifactDigest)
    (createdTreesDir : Bool) : ExceptT String FileProg Unit := do
  let record ← readCoordinator codec coordinator
  match storeRecord coordinator created createdTreesDir record with
  | .error e => throw e
  | .ok journal =>
    match ← tried (createStoreJournal root (storeJournalTemporary root pid nonce) (toVec codec journal.toValue)) with
    | .ok _ => return ()
    | .error e =>
      ignore (.removeFile (storeJournalTemporary root pid nonce))
      throw e

end Write

/-! ### Reading -/

def digestOf (j : Json) : Except String String := do
  let text ← orError (asStr j) "invalid tree digest in store journal"
  match ArtifactDigest.parse text with
  | .ok digest => return digest.text
  | .error _ => throw "invalid artifact digest"

/-- What recovery asks of a record before it acts on it. -/
def acceptStoreRecord (record : Json) : Except String StoreRecord := do
  rejectIf (getU64 record "version" ≠ some 1) "unsupported store transaction journal version"
  let coordinator ← orError (getStr record "coordinator") "store transaction journal lacks coordinator"
  rejectIf ((components .unix coordinator.toList).head? ≠ some .rootDir) "store coordinator path is not absolute"
  let owner ← orError (getStr record "owner") "store transaction journal lacks owner"
  rejectIf ((components .unix coordinator.toList).length ≤ 1) "store coordinator path has no project directory"
  let createdTreesDir ← orError ((get record "created_trees_dir").bind asBool)
    "store transaction journal lacks trees-directory baseline"
  let items ← orError ((get record "created").bind asArray) "store journal lacks created tree list"
  let created ← items.mapM digestOf
  return { coordinator, owner, created, createdTreesDir }

/-- The part of recovery that reads the journal. -/
def readStoreJournal (codec : JsonCodec) (root : AbsPath) : ExceptT String FileProg (Option StoreRecord) := do
  match ← perform (.metadata (storeJournalPath root)) with
  | .error .notFound => return none
  | .error e => throw e.text
  | .ok m =>
    if m.kind ≠ .file then throw "store transaction journal is not a regular file"
    else if storeJournalMax < m.len then throw "store transaction journal is oversized"
    else
      let bytes ← attempt (.read (storeJournalPath root)) IoError.text
      match fromSlice codec bytes with
      | .error e => throw ("malformed store transaction journal: " ++ e)
      | .ok record =>
        match acceptStoreRecord record with
        | .error e => throw e
        | .ok journal => return some journal

/-! ### Sizes -/

/-- A string with its quotes and escapes. -/
def quotedSize (s : String) : Nat := byteLen (Json.quote s.toList)

/-- The size of a record, from the texts in it and the number of trees. -/
def storeRecordSize (coordinator owner : String) (trees : Nat) (createdTreesDir : Bool) : Nat :=
  69 + quotedSize coordinator + quotedSize owner + (if trees = 0 then 2 else 74 * trees + 1) +
    (if createdTreesDir then 4 else 5)

/-- A digest has nothing in it that is escaped. -/
theorem plain_text {d : ArtifactDigest} (h : ArtifactDigest.parse d.text = .ok d) : Json.Plain d.text.toList := by
  obtain ⟨hex, htext, _, hhex⟩ := ArtifactDigest.exists_hex_of_parse h
  intro c hc
  rw [htext, List.mem_append] at hc
  rcases hc with hc | hc
  · have hname : Json.Plain "sha256-".toList := Json.plain_of_all (by decide)
    exact hname c hc
  · have hdigit := hhex c hc
    refine ⟨fun heq => ?_, fun heq => ?_, ?_⟩
    · rw [heq] at hdigit
      exact absurd hdigit (by decide)
    · rw [heq] at hdigit
      exact absurd hdigit (by decide)
    · have hrange : (48 ≤ c.toNat ∧ c.toNat ≤ 57) ∨ (97 ≤ c.toNat ∧ c.toNat ≤ 102) := by
        simpa [isLowerHexDigit, Char.isDigit, Char.le_def, UInt32.le_iff_toNat_le] using hdigit
      omega

theorem byteLen_text {d : ArtifactDigest} (h : ArtifactDigest.parse d.text = .ok d) : byteLen d.text.toList = 71 := by
  obtain ⟨hex, htext, hlen, _⟩ := ArtifactDigest.exists_hex_of_parse h
  have hname : byteLen "sha256-".toList = 7 := by decide
  rw [htext, Json.byteLen_append, hname, hlen]

/-- **The size of a record.** -/
theorem length_storeRecord {decode : String → Except String Json} {created : List ArtifactDigest}
    (h : ∀ d ∈ created, ArtifactDigest.parse d.text = .ok d) (coordinator owner : String) (createdTreesDir : Bool) :
    (toVec (compactCodec decode)
      (StoreRecord.toValue ⟨coordinator, owner, created.map ArtifactDigest.text, createdTreesDir⟩)).length =
      storeRecordSize coordinator owner created.length createdTreesDir := by
  have hdigests : byteLen (Json.compact (.arr ((created.map ArtifactDigest.text).map .str))) =
      if created.length = 0 then 2 else 74 * created.length + 1 := by
    by_cases hne : created = []
    · subst hne
      rfl
    · have heach : ∀ d ∈ created,
          (((fun j => byteLen (Json.compact j) + 1) ∘ Json.str) ∘ ArtifactDigest.text) d = 74 := by
        intro d hd
        show byteLen (Json.compact (.str d.text)) + 1 = 74
        rw [Json.compact, Json.byteLen_quote_plain (plain_text (h d hd)), byteLen_text (h d hd)]
      rw [Json.byteLen_arr (by simpa using hne), List.map_map, List.map_map, List.map_congr_left heach,
        List.map_const', List.sum_replicate, smul_eq_mul, if_neg (by simpa using hne), Nat.mul_comm, Nat.add_comm]
  have hstr : ∀ s : String, byteLen (Json.compact (.str s)) = quotedSize s := fun s => by rw [Json.compact, quotedSize]
  have hbool : byteLen (Json.compact (.bool createdTreesDir)) = if createdTreesDir then 4 else 5 := by
    cases createdTreesDir <;> rfl
  have hversion : byteLen (Json.compact (.int 1)) = 1 := by decide
  have hnames : byteLen (Json.quote "coordinator".toList) = 13 ∧ byteLen (Json.quote "created".toList) = 9 ∧
      byteLen (Json.quote "created_trees_dir".toList) = 19 ∧ byteLen (Json.quote "owner".toList) = 7 ∧
      byteLen (Json.quote "version".toList) = 9 := by
    decide
  obtain ⟨hcoordinator, hcreated, hdir, howner, hnumber⟩ := hnames
  rw [length_toVec]
  show byteLen (String.ofList (Json.compact (StoreRecord.toValue _))).toList = _
  rw [String.toList_ofList, StoreRecord.toValue, Json.byteLen_obj (List.cons_ne_nil _ _), storeRecordSize]
  simp only [List.map_cons, List.map_nil, List.sum_cons, List.sum_nil, hstr, hbool, hversion, hdigests, hcoordinator,
    hcreated, hdir, howner, hnumber]
  omega

/-! ### What a write leaves -/

section Runs

variable {codec : JsonCodec} {root coordinator : AbsPath} {pid nonce : Nat} {created : List ArtifactDigest}
  {createdTreesDir : Bool} {budget : Nat} {log : List (Event FileOp)} {s : Files}

theorem temporary_ne_storeJournal : storeJournalTemporary root pid nonce ≠ storeJournalPath root := by
  intro h
  have hname := congrArg String.length (List.singleton_inj.mp (List.append_cancel_left h))
  rw [String.length_append, String.length_append] at hname
  have hjson : ".tapid-transaction.json".length = 23 := by decide
  have hdot : ".tapid-transaction.json.".length = 24 := by decide
  omega

/-- A call that does not concern the journal. -/
theorem wp_elsewhere {I : List (Event FileOp) → Files → Prop} {o : FileOp} {p : AbsPath} (ho : p ∉ o.touched)
    (hI : ∀ log t, t p = s p → I log t) {Q : Except IoError o.Reply → List (Event FileOp) → Files → Prop}
    (hdone : (exec o s).2 p = s p → Q (exec o s).1 (.done o :: log) (exec o s).2)
    (hfailed : ∀ log t, t p = s p → Q (.error .other) log t) : wp fileCalls budget I (perform o) Q log s :=
  (wp_perform (Prod.mk.eta (p := exec o s)).symm).mpr ⟨fun c => hI _ _ (cut_sameExcept o c s p ho),
    hdone (exec_sameExcept o s p ho), fun _ c => hfailed _ _ (cut_sameExcept o c s p ho)⟩

/-- No journal, or the whole of this one. -/
def NoneOr (root : AbsPath) (bytes : List UInt8) (t : Files) : Prop :=
  t (storeJournalPath root) = none ∨ t (storeJournalPath root) = some (.file bytes)

theorem wp_createStoreJournal {bytes : List UInt8} (hnone : s (storeJournalPath root) = none)
    {Q : Except String Unit → List (Event FileOp) → Files → Prop} (hQ : ∀ r log t, NoneOr root bytes t → Q r log t) :
    wp fileCalls budget (fun _ t => NoneOr root bytes t)
      (createStoreJournal root (storeJournalTemporary root pid nonce) bytes).run Q log s := by
  have htemp : storeJournalPath root ∉ [storeJournalTemporary root pid nonce] := by
    simpa using Ne.symm temporary_ne_storeJournal
  have hI : ∀ {u : Files}, u (storeJournalPath root) = none → ∀ (_ : List (Event FileOp)) (t : Files),
      t (storeJournalPath root) = u (storeJournalPath root) → NoneOr root bytes t := fun hu _ t ht => .inl (ht.trans hu)
  rw [createStoreJournal, wp_tryBind, wp_attempt_perform]
  refine wp_elsewhere (o := .createNew (storeJournalTemporary root pid nonce)) htemp (hI hnone) (fun ht => ?_)
    fun log t ht => hQ _ _ _ (.inl (ht.trans hnone))
  generalize exec (.createNew (storeJournalTemporary root pid nonce)) s = outcome at ht ⊢
  obtain ⟨r, t⟩ := outcome
  have hnoneT : t (storeJournalPath root) = none := ht.trans hnone
  cases r with
  | error e => exact hQ _ _ _ (.inl hnoneT)
  | ok _ =>
    show wp _ _ _ (attempt (.writeAll (storeJournalTemporary root pid nonce) bytes) _ >>= _ : ExceptT _ _ _).run Q _ t
    rw [wp_tryBind, wp_attempt_perform]
    refine wp_elsewhere (o := .writeAll (storeJournalTemporary root pid nonce) bytes) htemp (hI hnoneT) (fun hu => ?_)
      fun log u hu => hQ _ _ _ (.inl (hu.trans hnoneT))
    rw [exec_writeAll] at hu ⊢
    obtain ⟨u, hu'⟩ : ∃ u, u = Function.update t (storeJournalTemporary root pid nonce) (some (.file bytes)) := ⟨_, rfl⟩
    rw [← hu'] at hu ⊢
    have hnoneU : u (storeJournalPath root) = none := hu.trans hnoneT
    have hwritten : u (storeJournalTemporary root pid nonce) = some (.file bytes) := by
      rw [hu', Function.update_self]
    show wp _ _ _ (attempt (.sync (storeJournalTemporary root pid nonce)) _ >>= _ : ExceptT _ _ _).run Q _ u
    rw [wp_tryBind, wp_attempt_perform]
    refine wp_elsewhere (o := .sync (storeJournalTemporary root pid nonce)) List.not_mem_nil (hI hnoneU) (fun _ => ?_)
      fun log v hv => hQ _ _ _ (.inl (hv.trans hnoneU))
    rw [exec_sync hwritten]
    show wp _ _ _ (attempt (.rename (storeJournalTemporary root pid nonce) (storeJournalPath root)) _ >>= _ :
      ExceptT _ _ _).run Q _ u
    rw [wp_tryBind, wp_attempt_perform]
    have hrename := exec_rename hwritten (q := storeJournalPath root)
      (fun entries hdirectory => by cases hnoneU.symm.trans hdirectory) temporary_ne_storeJournal
    refine (wp_perform hrename).mpr ⟨fun _ => .inl hnoneU, ?_, fun _ _ => hQ _ _ _ (.inl hnoneU)⟩
    obtain ⟨v, hv⟩ : ∃ v, v = Function.update (Function.update u (storeJournalPath root) (some (.file bytes)))
      (storeJournalTemporary root pid nonce) none := ⟨_, rfl⟩
    have hjournal : v (storeJournalPath root) = some (.file bytes) := by
      rw [hv, Function.update_of_ne (Ne.symm temporary_ne_storeJournal), Function.update_self]
    rw [← hv]
    show wp _ _ _ (attempt (.sync root) _).run Q _ v
    rw [wp_attempt_perform]
    exact wp_elsewhere (o := .sync root) (p := storeJournalPath root) List.not_mem_nil
      (fun _ t ht => .inr (ht.trans hjournal)) (fun hw => hQ _ _ _ (.inr (hw.trans hjournal)))
      fun log w hw => hQ _ _ _ (.inr (hw.trans hjournal))

/-- The record that a publication notes, from what its coordinator holds. -/
def Notes (codec : JsonCodec) (coordinator : AbsPath) (created : List ArtifactDigest) (createdTreesDir : Bool)
    (s : Files) (journal : StoreRecord) : Prop :=
  ∃ contents record, s coordinator = some (.file contents) ∧ fromSlice codec contents = .ok record ∧
    storeRecord coordinator created createdTreesDir record = .ok journal

/-- No journal, or the whole record of the publication. -/
def Noted (codec : JsonCodec) (root coordinator : AbsPath) (created : List ArtifactDigest) (createdTreesDir : Bool)
    (s t : Files) : Prop :=
  t (storeJournalPath root) = none ∨ ∃ journal, Notes codec coordinator created createdTreesDir s journal ∧
    t (storeJournalPath root) = some (.file (toVec codec journal.toValue))

/-- **Wherever a write stops**, there is no journal or the whole of the record. -/
theorem wp_writeStoreJournal (hnone : s (storeJournalPath root) = none) :
    wp fileCalls budget (fun _ t => Noted codec root coordinator created createdTreesDir s t)
      (writeStoreJournal codec root coordinator pid nonce created createdTreesDir).run
      (fun _ _ t => Noted codec root coordinator created createdTreesDir s t) log s := by
  have hI : ∀ (_ : List (Event FileOp)) (t : Files), t (storeJournalPath root) = s (storeJournalPath root) →
      Noted codec root coordinator created createdTreesDir s t := fun _ t ht => .inl (ht.trans hnone)
  rw [writeStoreJournal, wp_tryBind, readCoordinator, wp_tryBind, wp_attempt_perform]
  refine wp_elsewhere (o := .metadata coordinator) List.not_mem_nil hI (fun _ => ?_) fun log t ht => hI log t ht
  have hmetadata : (exec (.metadata coordinator) s).2 = s := by
    rw [exec]
    split <;> rfl
  rw [hmetadata]
  cases (exec (.metadata coordinator) s).1 with
  | error e => exact .inl hnone
  | ok m =>
    show wp _ _ _ (if m.kind ≠ .file ∨ coordinatorMax < m.len then _ else _ : ExceptT _ _ _).run _ _ s
    split_ifs
    · exact .inl hnone
    · rw [wp_tryBind, wp_attempt_perform]
      refine wp_elsewhere (o := .read coordinator) List.not_mem_nil hI (fun _ => ?_) fun log t ht => hI log t ht
      rcases hfile : s coordinator with _ | contents | entries | target
      · rw [exec, hfile]
        exact .inl hnone
      · -- The coordinator is a file.
        rw [exec_read hfile]
        show wp _ _ _ (match fromSlice codec contents with | .ok _ => _ | .error _ => _ : ExceptT _ _ _).run _ _ s
        cases hrecord : fromSlice codec contents with
        | error e => exact .inl hnone
        | ok record =>
          show wp _ _ _ (match storeRecord coordinator created createdTreesDir record with
            | .error _ => _ | .ok _ => _ : ExceptT _ _ _).run _ _ s
          cases hjournal : storeRecord coordinator created createdTreesDir record with
          | error e => exact .inl hnone
          | ok journal =>
            have hnoted : ∀ {t : Files}, NoneOr root (toVec codec journal.toValue) t →
                Noted codec root coordinator created createdTreesDir s t := fun ht =>
              ht.imp_right fun hfound => ⟨journal, ⟨contents, record, hfile, hrecord, hjournal⟩, hfound⟩
            have hwrite : wp fileCalls budget (fun _ t => NoneOr root (toVec codec journal.toValue) t)
                (createStoreJournal root (storeJournalTemporary root pid nonce) (toVec codec journal.toValue)).run
                (fun _ _ t => NoneOr root (toVec codec journal.toValue) t) (.done (.read coordinator) ::
                  .done (.metadata coordinator) :: log) s :=
              wp_createStoreJournal hnone fun _ _ _ ht => ht
            show wp _ _ _ (tried _ >>= _ : ExceptT _ _ _).run _ _ s
            rw [wp_tryBind, wp_tried]
            refine wp_mono (fun r log t ht => ?_) (fun _ _ ht => hnoted ht) hwrite
            cases r with
            | ok _ => exact hnoted ht
            | error e =>
              have htemp : storeJournalPath root ∉ [storeJournalTemporary root pid nonce] := by
                simpa using Ne.symm temporary_ne_storeJournal
              have hsame : ∀ {u : Files}, u (storeJournalPath root) = t (storeJournalPath root) →
                  Noted codec root coordinator created createdTreesDir s u := fun hu =>
                hnoted (ht.imp hu.trans hu.trans)
              show wp _ _ _ (liftM (ignore (.removeFile (storeJournalTemporary root pid nonce))) >>= _ :
                ExceptT _ _ _).run _ log t
              rw [wp_tryBind, wp_lift, wp_ignore_perform]
              exact wp_elsewhere (o := .removeFile (storeJournalTemporary root pid nonce)) htemp
                (fun _ _ hu => hsame hu) (fun hu => hsame hu) fun _ _ hu => hsame hu
      · rw [exec, hfile]
        exact .inl hnone
      · rw [exec, hfile]
        exact .inl hnone

end Runs

/-! ### What the reader makes of it -/

section Read

/-- A path to a file: there is something in it, and its names mean themselves. -/
structure FilePath (path : AbsPath) : Prop where
  ne_nil : path ≠ []
  proper : ∀ name ∈ path, ProperName name.toList

theorem FilePath.components {path : AbsPath} (h : FilePath path) :
    components .unix (pathText path).toList = .rootDir :: (path.map String.toList).map .normal := by
  rw [pathText, String.toList_ofList]
  refine components_absoluteText fun name hname => ?_
  obtain ⟨text, htext, rfl⟩ := List.mem_map.mp hname
  exact h.proper text htext

theorem digestOf_text {d : ArtifactDigest} (h : ArtifactDigest.parse d.text = .ok d) :
    digestOf (.str d.text) = .ok d.text := by
  show (match ArtifactDigest.parse d.text with | .ok digest => _ | .error _ => _ : Except String String) = _
  rw [h]
  rfl

/-- **The reader accepts the record** whatever is in it. -/
theorem acceptStoreRecord_toValue {coordinator : AbsPath} {owner : String} {created : List ArtifactDigest}
    {createdTreesDir : Bool} (hpath : FilePath coordinator)
    (hdigests : ∀ d ∈ created, ArtifactDigest.parse d.text = .ok d) :
    acceptStoreRecord
      (StoreRecord.toValue ⟨pathText coordinator, owner, created.map ArtifactDigest.text, createdTreesDir⟩) =
      .ok ⟨pathText coordinator, owner, created.map ArtifactDigest.text, createdTreesDir⟩ := by
  have hcomponents := hpath.components
  have habsolute : ¬ (components .unix (pathText coordinator).toList).head? ≠ some .rootDir := by
    rw [hcomponents]
    simp
  have hparent : ¬ (components .unix (pathText coordinator).toList).length ≤ 1 := by
    rw [hcomponents]
    simpa using hpath.ne_nil
  have hcreated : ((created.map ArtifactDigest.text).map Json.str).mapM digestOf =
      .ok (created.map ArtifactDigest.text) := by
    clear hcomponents habsolute hparent
    induction created with
    | nil => rfl
    | cons d created ih =>
      rw [List.map_cons, List.map_cons, List.mapM_cons, digestOf_text (hdigests d List.mem_cons_self),
        ih fun d' hd => hdigests d' (List.mem_cons_of_mem _ hd)]
      rfl
  simp only [acceptStoreRecord, bind_eq_ok, pure_eq_ok, rejectIf_eq_ok]
  exact ⟨(), fun hversion => hversion rfl, _, rfl, (), habsolute, owner, rfl, (), hparent, _, rfl, _, rfl, _, hcreated,
    rfl⟩

/-- What reading a journal with these bytes comes to. -/
def readBytes (codec : JsonCodec) (bytes : List UInt8) : Except String (Option StoreRecord) :=
  if storeJournalMax < bytes.length then .error "store transaction journal is oversized"
  else
    match fromSlice codec bytes with
    | .error e => .error ("malformed store transaction journal: " ++ e)
    | .ok record => (acceptStoreRecord record).map some

variable {codec : JsonCodec} {root : AbsPath} {bytes : List UInt8} {log : List (Event FileOp)} {t : Files}

theorem wp_readStoreJournal (hfile : t (storeJournalPath root) = some (.file bytes)) :
    wp fileCalls 0 (fun _ _ => True) (readStoreJournal codec root).run (fun r _ _ => r = readBytes codec bytes) log t := by
  show wp _ _ _ (liftM (perform _) >>= _ : ExceptT _ _ _).run _ log t
  rw [wp_tryBind, wp_lift]
  refine wp_perform_zero (exec_metadata hfile) (fun _ => trivial) ?_
  show wp _ _ _ (if storeJournalMax < bytes.length then _ else _ : ExceptT _ _ _).run _ _ t
  rw [readBytes]
  split_ifs
  · rfl
  · rw [wp_tryBind]
    refine wp_attempt_zero (exec_read hfile) (fun _ => trivial) ?_
    show wp _ _ _ (match fromSlice codec bytes with | .error _ => _ | .ok _ => _ : ExceptT _ _ _).run _ _ t
    cases fromSlice codec bytes with
    | error e => rfl
    | ok record =>
      show wp _ _ _ (match acceptStoreRecord record with | .error _ => _ | .ok _ => _ : ExceptT _ _ _).run
        (fun r _ _ => r = (acceptStoreRecord record).map some) _ t
      cases acceptStoreRecord record with
      | error e => exact rfl
      | ok journal => exact rfl

/-- Reading the journal, left alone. -/
def ReadsStoreJournal (codec : JsonCodec) (root : AbsPath) (t : Files) : Prop :=
  ∃ journal log u, (readStoreJournal codec root).run.execute fileCalls [] [] t = .returned (.ok (some journal)) log u

theorem readsStoreJournal_iff (hfile : t (storeJournalPath root) = some (.file bytes)) :
    ReadsStoreJournal codec root t ↔ ∃ journal, readBytes codec bytes = .ok (some journal) := by
  have hleft : ∀ c : Cut, Fate.stopped c ∉ ([] : List (Fate Cut)) := fun c => List.not_mem_nil
  obtain ⟨r, log, u, hrun⟩ := execute_returned fileCalls (readStoreJournal codec root).run hleft [] t
  have hwp : wp fileCalls 0 (fun _ _ => True) (readStoreJournal codec root).run (fun r _ _ => r = readBytes codec bytes)
      [] t := wp_readStoreJournal hfile
  have hsat := execute_of_wp [] hwp (Nat.le_refl _)
  rw [hrun] at hsat
  obtain rfl : r = readBytes codec bytes := hsat
  rw [ReadsStoreJournal, hrun]
  refine ⟨fun ⟨journal, log', u', heq⟩ => ?_, fun ⟨journal, hread⟩ => ⟨journal, log, u, ?_⟩⟩
  · obtain ⟨hread, _, _⟩ := Outcome.returned.inj heq
    exact ⟨journal, hread⟩
  · rw [hread]

/-- **The reader accepts what was written when it fits**, and only then. -/
theorem readBytes_iff {decode : String → Except String Json} {coordinator : AbsPath} {owner : String}
    {created : List ArtifactDigest} {createdTreesDir : Bool} (hpath : FilePath coordinator)
    (hdigests : ∀ d ∈ created, ArtifactDigest.parse d.text = .ok d) {journal : StoreRecord}
    (hjournal : journal = ⟨pathText coordinator, owner, created.map ArtifactDigest.text, createdTreesDir⟩)
    (hback : decode (String.ofList journal.toValue.compact) = .ok journal.toValue) :
    (∃ j, readBytes (compactCodec decode) (toVec (compactCodec decode) journal.toValue) = .ok (some j)) ↔
      storeRecordSize (pathText coordinator) owner created.length createdTreesDir ≤ storeJournalMax := by
  have hsize : _ = storeRecordSize _ _ _ _ :=
    @length_storeRecord decode created hdigests (pathText coordinator) owner createdTreesDir
  have hslice : fromSlice (compactCodec decode) (toVec (compactCodec decode) journal.toValue) = .ok journal.toValue :=
    fromSlice_toVec hback
  have haccept : acceptStoreRecord journal.toValue = .ok journal := by
    rw [hjournal]
    exact acceptStoreRecord_toValue hpath hdigests
  rw [← hjournal] at hsize
  rw [← hsize, readBytes]
  by_cases hlarge : storeJournalMax < (toVec (compactCodec decode) journal.toValue).length
  · rw [if_pos hlarge]
    refine ⟨fun ⟨j, hj⟩ => ?_, fun hfits => absurd hfits (Nat.not_le.mpr hlarge)⟩
    cases hj
  · rw [if_neg hlarge, hslice]
    refine ⟨fun _ => Nat.not_lt.mp hlarge, fun _ => ⟨journal, ?_⟩⟩
    show (acceptStoreRecord journal.toValue).map some = .ok (some journal)
    rw [haccept]
    rfl

end Read

end StoreJournal

end Tapid
