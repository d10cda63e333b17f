/-
Calls to a file system, one at a time.

A state maps paths to nodes: a regular file with its bytes, a directory with
everything below it, or a symbolic link.  Paths are looked up as they are; what
is below a directory moves and disappears with it.  A call that fails or is
interrupted may have written a prefix of its bytes, or may have removed a part of
a tree; the other calls are carried out or not.

* `exec`, `cut` — what a call does, and what a part of it does;
* `fileCalls` — the calls as the calls of a program.
-/
import Tapid.Interrupted

namespace FileSystem

open Interrupted

abbrev AbsPath := List String

inductive Node where
  | file (bytes : List UInt8)
  | directory (entries : List (String × Node))
  | symlink (resolves : Bool)

inductive Kind where
  | file
  | directory
  | symlink
  deriving DecidableEq

structure Metadata where
  kind : Kind
  len : Nat
  deriving DecidableEq

namespace Node

def metadata : Node → Metadata
  | file bytes => ⟨.file, bytes.length⟩
  | directory _ => ⟨.directory, 0⟩
  | symlink _ => ⟨.symlink, 0⟩

/-- What following the links finds something at. -/
def resolves : Node → Bool
  | symlink r => r
  | _ => true

mutual

/-- The tree with the entries that are kept. -/
def prune (kept : AbsPath → Bool) : Node → Node
  | directory entries => directory (pruneEntries kept entries)
  | file bytes => file bytes
  | symlink r => symlink r

def pruneEntries (kept : AbsPath → Bool) : List (String × Node) → List (String × Node)
  | [] => []
  | (name, node) :: entries =>
    if kept [name] then (name, prune (fun p => kept (name :: p)) node) :: pruneEntries kept entries
    else pruneEntries kept entries

end

end Node

inductive IoError where
  | notFound
  | alreadyExists
  | other
  deriving DecidableEq

def IoError.text : IoError → String
  | notFound => "No such file or directory (os error 2)"
  | alreadyExists => "File exists (os error 17)"
  | other => "Input/output error (os error 5)"

inductive FileOp where
  /-- `fs::symlink_metadata` -/
  | metadata (p : AbsPath)
  /-- `Path::exists` -/
  | present (p : AbsPath)
  | read (p : AbsPath)
  /-- `OpenOptions::create_new` -/
  | createNew (p : AbsPath)
  | setPermissions (p : AbsPath)
  /-- `Write::write_all` on the file that was just created -/
  | writeAll (p : AbsPath) (bytes : List UInt8)
  | sync (p : AbsPath)
  /-- `fs::write` -/
  | write (p : AbsPath) (bytes : List UInt8)
  | rename (source target : AbsPath)
  | removeFile (p : AbsPath)
  | removeDirAll (p : AbsPath)
  | createDir (p : AbsPath)
  /-- A replacement that is carried out as a whole. -/
  | replace (p : AbsPath) (bytes : List UInt8)
  deriving DecidableEq

abbrev FileOp.Reply : FileOp → Type
  | metadata _ => Metadata
  | present _ => Bool
  | read _ => List UInt8
  | createNew _ | setPermissions _ | writeAll _ _ | sync _ | write _ _ | rename _ _ | removeFile _ | removeDirAll _
  | createDir _ | replace _ _ => Unit

/-- Where a write or the removal of a tree was cut off. -/
structure Cut where
  written : Option Nat
  kept : List AbsPath
  deriving DecidableEq

abbrev Files := AbsPath → Option Node

namespace Files

/-- The file at a path. -/
def file? (s : Files) (p : AbsPath) : Option (List UInt8) :=
  match s p with
  | some (.file bytes) => some bytes
  | _ => none

/-- Whether a node may be put at a path that is in use. -/
def replaceable : Node → Option Node → Bool
  | _, none => true
  | .directory _, some (.directory entries) => entries.isEmpty
  | .directory _, some _ => false
  | _, some (.directory _) => false
  | _, some _ => true

def move (s : Files) (source target : AbsPath) (node : Node) : Files :=
  if source = target then s else Function.update (Function.update s target (some node)) source none

end Files

open Files

/-- A call that is carried out. -/
def exec : (o : FileOp) → Files → Except IoError o.Reply × Files
  | .metadata p, s =>
    match s p with
    | some node => (.ok node.metadata, s)
    | none => (.error .notFound, s)
  | .present p, s => (.ok ((s p).any Node.resolves), s)
  | .read p, s =>
    match s p with
    | some (.file bytes) => (.ok bytes, s)
    | some _ => (.error .other, s)
    | none => (.error .notFound, s)
  | .createNew p, s =>
    match s p with
    | some _ => (.error .alreadyExists, s)
    | none => (.ok (), Function.update s p (some (.file [])))
  | .setPermissions _, s => (.ok (), s)
  | .writeAll p bytes, s => (.ok (), Function.update s p (some (.file bytes)))
  | .sync p, s =>
    match s p with
    | some _ => (.ok (), s)
    | none => (.error .notFound, s)
  | .write p bytes, s =>
    match s p with
    | some (.directory _) => (.error .other, s)
    | _ => (.ok (), Function.update s p (some (.file bytes)))
  | .rename source target, s =>
    match s source with
    | none => (.error .notFound, s)
    | some node => if replaceable node (s target) then (.ok (), s.move source target node) else (.error .other, s)
  | .removeFile p, s =>
    match s p with
    | none => (.error .notFound, s)
    | some (.directory _) => (.error .other, s)
    | some _ => (.ok (), Function.update s p none)
  | .removeDirAll p, s =>
    match s p with
    | none => (.error .notFound, s)
    | some (.file _) => (.error .other, s)
    | some _ => (.ok (), Function.update s p none)
  | .createDir p, s =>
    match s p with
    | some _ => (.error .alreadyExists, s)
    | none => (.ok (), Function.update s p (some (.directory [])))
  | .replace p bytes, s =>
    match s p with
    | some (.directory _) => (.error .other, s)
    | _ => (.ok (), Function.update s p (some (.file bytes)))

/-- The part of a call that was carried out when it failed or was interrupted. -/
def cut : FileOp → Cut → Files → Files
  | .writeAll p bytes, c, s | .write p bytes, c, s =>
    match c.written, s p with
    | some n, some (.file _) => Function.update s p (some (.file (bytes.take n)))
    | some n, none => Function.update s p (some (.file (bytes.take n)))
    | _, _ => s
  | .removeDirAll p, c, s =>
    match s p with
    | some (.directory entries) =>
      Function.update s p (some ((Node.directory entries).prune fun q => decide (q ∈ c.kept)))
    | _ => s
  | _, _, s => s

/-- The calls of a program that works on files. -/
def fileCalls : Calls FileOp.Reply IoError Files Cut where
  exec := exec
  cut := cut
  failure := .other

abbrev FileProg := Prog FileOp.Reply IoError

namespace FileProg

variable {ε : Type}

def perform (o : FileOp) : FileProg (Except IoError o.Reply) := Prog.perform o

def attempt (o : FileOp) (f : IoError → ε) : ExceptT ε FileProg o.Reply := Prog.attempt o f

def ignore (o : FileOp) : FileProg Unit := Prog.ignore o

end FileProg

/-! ### Rules -/

section Rules

open FileProg

variable {budget : Nat} {I : List (Event FileOp) → Files → Prop} {o : FileOp} {log : List (Event FileOp)} {s : Files}
  {ε : Type}

theorem wp_perform {r : Except IoError o.Reply} {t : Files} (h : exec o s = (r, t))
    {Q : Except IoError o.Reply → List (Event FileOp) → Files → Prop} :
    wp fileCalls budget I (perform o) Q log s ↔
      (∀ c, I (.stopped o :: log) (cut o c s)) ∧ Q r (.done o :: log) t ∧
      (failures log < budget → ∀ c, Q (.error .other) (.failed o :: log) (cut o c s)) := by
  show _ ∧ Q (exec o s).1 _ (exec o s).2 ∧ _ ↔ _
  rw [h]
  rfl

theorem wp_attempt {r : Except IoError o.Reply} {t : Files} (h : exec o s = (r, t)) {f : IoError → ε}
    {Q : Except ε o.Reply → List (Event FileOp) → Files → Prop} :
    wp fileCalls budget I (attempt o f).run Q log s ↔
      (∀ c, I (.stopped o :: log) (cut o c s)) ∧ Q (r.mapError f) (.done o :: log) t ∧
      (failures log < budget → ∀ c, Q (.error (f .other)) (.failed o :: log) (cut o c s)) := by
  show _ ∧ Q ((exec o s).1.mapError f) _ (exec o s).2 ∧ _ ↔ _
  rw [h]
  rfl

theorem wp_ignore {r : Except IoError o.Reply} {t : Files} (h : exec o s = (r, t))
    {Q : Unit → List (Event FileOp) → Files → Prop} :
    wp fileCalls budget I (ignore o) Q log s ↔
      (∀ c, I (.stopped o :: log) (cut o c s)) ∧ Q () (.done o :: log) t ∧
      (failures log < budget → ∀ c, Q () (.failed o :: log) (cut o c s)) := by
  show _ ∧ Q () _ (exec o s).2 ∧ _ ↔ _
  rw [h]
  rfl

/-- Without failing calls. -/
theorem wp_perform_zero {r : Except IoError o.Reply} {t : Files} (h : exec o s = (r, t))
    {Q : Except IoError o.Reply → List (Event FileOp) → Files → Prop}
    (hstop : ∀ c, I (.stopped o :: log) (cut o c s)) (hdone : Q r (.done o :: log) t) :
    wp fileCalls 0 I (perform o) Q log s :=
  (wp_perform h).mpr ⟨hstop, hdone, fun hlog => absurd hlog (Nat.not_lt_zero _)⟩

theorem wp_attempt_zero {r : Except IoError o.Reply} {t : Files} (h : exec o s = (r, t)) {f : IoError → ε}
    {Q : Except ε o.Reply → List (Event FileOp) → Files → Prop}
    (hstop : ∀ c, I (.stopped o :: log) (cut o c s)) (hdone : Q (r.mapError f) (.done o :: log) t) :
    wp fileCalls 0 I (attempt o f).run Q log s :=
  (wp_attempt h).mpr ⟨hstop, hdone, fun hlog => absurd hlog (Nat.not_lt_zero _)⟩

end Rules

/-! ### Calls whose path is known -/

section Known

variable {s : Files} {p q : AbsPath} {node : Node} {bytes : List UInt8}

theorem exec_metadata (h : s p = some node) : exec (.metadata p) s = (.ok node.metadata, s) := by
  rw [exec, h]

theorem exec_metadata_none (h : s p = none) : exec (.metadata p) s = (.error .notFound, s) := by
  rw [exec, h]

theorem exec_read (h : s p = some (.file bytes)) : exec (.read p) s = (.ok bytes, s) := by
  rw [exec, h]

theorem exec_createNew (h : s p = none) :
    exec (.createNew p) s = (.ok (), Function.update s p (some (.file []))) := by
  rw [exec, h]

theorem exec_createNew_some (h : s p = some node) : exec (.createNew p) s = (.error .alreadyExists, s) := by
  rw [exec, h]

theorem exec_writeAll (p : AbsPath) (bytes : List UInt8) (s : Files) :
    exec (.writeAll p bytes) s = (.ok (), Function.update s p (some (.file bytes))) := rfl

theorem exec_sync_same (p : AbsPath) (s : Files) : ∃ r, exec (.sync p) s = (r, s) := by
  rw [exec]
  split
  · exact ⟨_, rfl⟩
  · exact ⟨_, rfl⟩

/-- What removing a file can come to. -/
theorem exec_removeFile_cases (p : AbsPath) (s : Files) :
    exec (.removeFile p) s = (.ok (), Function.update s p none) ∨ ∃ e, exec (.removeFile p) s = (.error e, s) := by
  rw [exec]
  split
  · exact .inr ⟨_, rfl⟩
  · exact .inr ⟨_, rfl⟩
  · exact .inl rfl

theorem exec_present (p : AbsPath) (s : Files) : exec (.present p) s = (.ok ((s p).any Node.resolves), s) := rfl

/-- A directory is always found. -/
theorem not_directory_of_not_present (h : (s p).any Node.resolves = false) :
    ∀ entries, s p ≠ some (.directory entries) := by
  intro entries hdir
  rw [hdir] at h
  cases h

theorem exec_sync (h : s p = some node) : exec (.sync p) s = (.ok (), s) := by
  rw [exec, h]

theorem exec_removeFile (h : s p = some (.file bytes)) :
    exec (.removeFile p) s = (.ok (), Function.update s p none) := by
  rw [exec, h]

/-- A file takes the place of a file or of nothing. -/
theorem exec_rename (h : s p = some (.file bytes)) (hq : ∀ entries, s q ≠ some (.directory entries)) (hpq : p ≠ q) :
    exec (.rename p q) s = (.ok (), Function.update (Function.update s q (some (.file bytes))) p none) := by
  have hreplaceable : replaceable (.file bytes) (s q) = true := by
    cases hs : s q with
    | none => rfl
    | some node =>
      cases node with
      | directory entries => exact absurd hs (hq entries)
      | _ => rfl
  rw [exec, h]
  show (if replaceable (.file bytes) (s q) then _ else _) = _
  rw [hreplaceable, if_pos rfl, Files.move, if_neg hpq]

/-- What renaming a file can come to. -/
theorem exec_rename_cases (h : s p = some (.file bytes)) (hpq : p ≠ q) :
    exec (.rename p q) s = (.ok (), Function.update (Function.update s q (some (.file bytes))) p none) ∨
      exec (.rename p q) s = (.error .other, s) ∧ ∃ entries, s q = some (.directory entries) := by
  by_cases hq : ∃ entries, s q = some (.directory entries)
  · obtain ⟨entries, hq⟩ := hq
    refine .inr ⟨?_, entries, hq⟩
    rw [exec, h]
    show (if replaceable (.file bytes) (s q) then _ else _) = _
    rw [hq]
    rfl
  · exact .inl (exec_rename h (fun entries hs => hq ⟨entries, hs⟩) hpq)

end Known

/-! ### Frames -/

/-- The states agree outside some paths. -/
def SameExcept (ps : List AbsPath) (s t : Files) : Prop := ∀ p ∉ ps, t p = s p

namespace SameExcept

variable {ps qs : List AbsPath} {s t u : Files} {p : AbsPath}

@[refl] theorem refl (ps : List AbsPath) (s : Files) : SameExcept ps s s := fun _ _ => rfl

theorem trans (h : SameExcept ps s t) (h' : SameExcept ps t u) : SameExcept ps s u := fun p hp =>
  (h' p hp).trans (h p hp)

theorem mono (h : SameExcept ps s t) (hsub : ps ⊆ qs) : SameExcept qs s t := fun p hp =>
  h p fun hmem => hp (hsub hmem)

theorem update (h : SameExcept ps s t) (hp : p ∈ ps) (node : Option Node) :
    SameExcept ps s (Function.update t p node) := fun q hq => by
  rw [Function.update_of_ne (fun heq : q = p => hq (heq ▸ hp))]
  exact h q hq

theorem move {source target : AbsPath} (h : SameExcept ps s t) (hsource : source ∈ ps) (htarget : target ∈ ps)
    (node : Node) : SameExcept ps s (t.move source target node) := by
  rw [Files.move]
  split_ifs
  · exact h
  · exact (h.update htarget _).update hsource _

end SameExcept

/-- The paths a call works on. -/
def FileOp.touched : FileOp → List AbsPath
  | metadata _ | present _ | read _ | setPermissions _ | sync _ => []
  | createNew p | writeAll p _ | write p _ | removeFile p | removeDirAll p | createDir p | replace p _ => [p]
  | rename source target => [source, target]

theorem exec_sameExcept (o : FileOp) (s : Files) : SameExcept o.touched s (exec o s).2 := by
  have hself : ∀ (p : AbsPath) (node : Option Node), SameExcept [p] s (Function.update s p node) := fun p node =>
    (SameExcept.refl _ _).update List.mem_cons_self node
  cases o with
  | setPermissions p | present p => exact SameExcept.refl _ _
  | writeAll p bytes => exact hself p _
  | rename source target =>
    rw [exec]
    split
    · exact SameExcept.refl _ _
    · split_ifs
      · exact (SameExcept.refl _ _).move (by simp [FileOp.touched]) (by simp [FileOp.touched]) _
      · exact SameExcept.refl _ _
  | metadata p | read p | sync p =>
    rw [exec]
    split <;> exact SameExcept.refl _ _
  | createNew p | write p bytes | removeFile p | removeDirAll p | createDir p | replace p bytes =>
    rw [exec]
    split
    all_goals first | exact SameExcept.refl _ _ | exact hself p _

theorem cut_sameExcept (o : FileOp) (c : Cut) (s : Files) : SameExcept o.touched s (cut o c s) := by
  have hself : ∀ (p : AbsPath) (node : Option Node), SameExcept [p] s (Function.update s p node) := fun p node =>
    (SameExcept.refl _ _).update List.mem_cons_self node
  cases o with
  | writeAll p bytes | write p bytes | removeDirAll p =>
    rw [cut]
    split
    all_goals first | exact SameExcept.refl _ _ | exact hself p _
  | _ => exact SameExcept.refl _ _

/-! ### Programs on files -/

/-- No directory is at one of the paths. -/
def NoDirectory (cells : List AbsPath) (s : Files) : Prop := ∀ p ∈ cells, ∀ entries, s p ≠ some (.directory entries)

theorem NoDirectory.update {cells : List AbsPath} {s : Files} (h : NoDirectory cells s) {node : Option Node}
    (hnode : ∀ entries, node ≠ some (.directory entries)) (p : AbsPath) :
    NoDirectory cells (Function.update s p node) := by
  intro q hq entries
  by_cases hqp : q = p
  · rw [hqp, Function.update_self]
    exact hnode entries
  · rw [Function.update_of_ne hqp]
    exact h q hq entries

/-- The call works on some paths only, and makes no directory there. -/
def FileOp.OnFiles (cells : List AbsPath) (o : FileOp) : Prop := o.touched ⊆ cells ∧ ∀ p, o ≠ .createDir p

theorem exec_noDirectory {cells : List AbsPath} {o : FileOp} {s : Files} (ho : o.OnFiles cells)
    (h : NoDirectory cells s) : NoDirectory cells (exec o s).2 := by
  have hfile : ∀ (p : AbsPath) (bytes : List UInt8), NoDirectory cells (Function.update s p (some (.file bytes))) :=
    fun p bytes => h.update (fun entries hdir => by cases hdir) p
  have hnone : ∀ p, NoDirectory cells (Function.update s p none) := fun p =>
    h.update (fun entries hdir => by cases hdir) p
  cases o with
  | setPermissions p | present p => exact h
  | writeAll p bytes => exact hfile p bytes
  | createDir p => exact absurd rfl (ho.2 p)
  | rename source target =>
    rw [exec]
    cases hs : s source with
    | none => exact h
    | some node =>
      have hsource : source ∈ cells := ho.1 List.mem_cons_self
      show NoDirectory cells (if replaceable node (s target) then _ else _ : Except IoError Unit × Files).2
      split_ifs
      · show NoDirectory cells (s.move source target node)
        rw [Files.move]
        split_ifs
        · exact h
        · refine (h.update (fun entries hdir => ?_) target).update (fun entries hdir => by cases hdir) source
          exact h source hsource entries (hs.trans hdir)
      · exact h
  | metadata p | read p | sync p =>
    rw [exec]
    split <;> exact h
  | createNew p | write p bytes | removeFile p | removeDirAll p | replace p bytes =>
    rw [exec]
    split
    all_goals first | exact h | exact hfile p _ | exact hnone p

theorem cut_noDirectory {cells : List AbsPath} {o : FileOp} {c : Cut} {s : Files} (ho : o.OnFiles cells)
    (h : NoDirectory cells s) : NoDirectory cells (cut o c s) := by
  have hfile : ∀ (p : AbsPath) (bytes : List UInt8), NoDirectory cells (Function.update s p (some (.file bytes))) :=
    fun p bytes => h.update (fun entries hdir => by cases hdir) p
  cases o with
  | writeAll p bytes | write p bytes =>
    rw [cut]
    split
    all_goals first | exact h | exact hfile p _
  | removeDirAll p =>
    rw [cut]
    split
    next entries hdir => exact absurd hdir (h p (ho.1 List.mem_cons_self) entries)
    · exact h
  | _ => exact h

/-- The calls of the program work on some paths only, and make no directory. -/
def OnFiles {α : Type} (cells : List AbsPath) (p : FileProg α) : Prop := p.Only (FileOp.OnFiles cells)

namespace OnFiles

variable {cells : List AbsPath} {α β ε : Type}

theorem perform (o : FileOp) (h : o.OnFiles cells) : OnFiles cells (FileProg.perform o) := ⟨h, fun _ => trivial⟩

theorem attempt (o : FileOp) (f : IoError → ε) (h : o.OnFiles cells) : OnFiles cells (FileProg.attempt o f).run :=
  ⟨h, fun _ => trivial⟩

theorem ignore (o : FileOp) (h : o.OnFiles cells) : OnFiles cells (FileProg.ignore o) := ⟨h, fun _ => trivial⟩

theorem tryBind {p : ExceptT ε FileProg α} {f : α → ExceptT ε FileProg β} (hp : OnFiles cells p.run)
    (hf : ∀ a, OnFiles cells (f a).run) : OnFiles cells (p >>= f).run :=
  Prog.only_tryBind hp hf

theorem lift {p : FileProg α} (hp : OnFiles cells p) : OnFiles cells (liftM p : ExceptT ε FileProg α).run :=
  Prog.only_lift hp

theorem noDirectory {p : FileProg α} (hp : OnFiles cells p) {s : Files} (h : NoDirectory cells s)
    (plan : List (Fate Cut)) (log : List (Event FileOp)) :
    NoDirectory cells (p.execute fileCalls plan log s).final :=
  Prog.execute_inv (I := NoDirectory cells) (fun _ _ ho ht => exec_noDirectory ho ht)
    (fun _ _ _ ho ht => cut_noDirectory ho ht) hp h

/-- A program leaves the other paths alone. -/
theorem execute {p : FileProg α} (hp : OnFiles cells p) {q : AbsPath} (hq : q ∉ cells) (plan : List (Fate Cut))
    (log : List (Event FileOp)) (s : Files) : (p.execute fileCalls plan log s).final q = s q :=
  Prog.execute_inv (I := fun t => t q = s q)
    (fun o t ho ht => (exec_sameExcept o t q fun hmem => hq (ho.1 hmem)).trans ht)
    (fun o c t ho ht => (cut_sameExcept o c t q fun hmem => hq (ho.1 hmem)).trans ht) hp rfl

end OnFiles

end FileSystem
