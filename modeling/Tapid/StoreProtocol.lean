/-
Installs, readers and recoveries over one shared store.

The store has one lock, one journal and its trees; every project has a lock of its
own, whose file holds the line of the last owner, and a coordinator, in which its
lifecycle transaction is decided.  A process runs one of the programs of `Command`;
each of its calls may fail, possibly after the disk has changed, and the process may
be stopped at any call.  Where `Path::exists` fails it answers that nothing is there.

An install is the plain online one, which begins its lifecycle journal behind the
fetch: installs that import, replay or hydrate, the lock without recovery and the
backup of the journal on Windows are left out.

The fields of `State` from `origin` on are history: no program reads them.
-/
import Tapid.Interleaved
import Tapid.StoreJournal

namespace Tapid.StoreProtocol

open Interrupted Interleaved

/-- The directory of a tree: with the content its digest names, or with less. -/
inductive Tree where
  | whole
  | broken
  deriving DecidableEq

/-- The lifecycle journal of a project, as the store reads it. -/
structure Coordinator where
  owner : Nat
  committed : Bool
  storeRoot : Bool
  deriving DecidableEq

/-- `.tapid-transaction.json`, with its length on the disk. -/
structure Journal (Project Digest : Type) where
  project : Project
  owner : Nat
  created : List Digest
  size : Nat
  deriving DecidableEq

/-- What the lock file of a project holds. -/
inductive OwnerLine where
  | empty
  | line (owner : Nat)
  | malformed
  deriving DecidableEq

inductive Error where
  | io
  | wouldBlock
  | projectBusy
  | missing
  | unverified
  | unavailable
  | identityMismatch
  | notPrepared
  | oversized
  | malformedOwner
  | invalidOwnership
  | unfinished
  | disappeared
  deriving DecidableEq

/-- What is at the path of a coordinator. -/
inductive Found where
  | gone
  | missing
  | record (c : Coordinator)

structure State (Project Digest : Type) where
  trees : Digest → Option Tree
  journal : Option (Journal Project Digest)
  coordinators : Project → Option Coordinator
  /-- Projects whose directory has been deleted. -/
  gone : Project → Bool
  exclusive : Option Nat
  shared : Nat → Bool
  projects : Project → Option Nat
  owners : Project → OwnerLine
  nextOwner : Nat
  /-- The transaction that has put a tree where it is. -/
  origin : Digest → Option (Project × Nat)
  /-- Trees put in place without a journal since the store was locked. -/
  loose : Digest → Bool
  /-- The transactions whose commit decision has been on the disk. -/
  committed : Project → Nat → Bool
  /-- Those whose commit decision reached the disk in a call that failed. -/
  torn : Project → Nat → Bool
  /-- The process that has written the journal and has not unlocked the store since. -/
  publisher : Option Nat
  /-- `Path::exists` has answered that something is not there that is. -/
  misled : Bool

/-- What `Path::exists` is asked for. -/
inductive Target (Digest : Type) where
  | journal
  | tree (d : Digest)
  deriving DecidableEq

inductive Call (Project Digest : Type) where
  | lockProject (p : Project)
  | readOwner (p : Project)
  | initOwner (p : Project)
  | lockShared
  | lockExclusive
  | unlock
  | look (t : Target Digest)
  | readJournal
  | writeJournal (j : Journal Project Digest)
  | removeJournal
  | treeMetadata (d : Digest)
  | verifyTree (d : Digest)
  | readTree (d : Digest)
  | renameTree (d : Digest)
  | removeTree (d : Digest)
  | readCoordinator (p : Project)
  | writeCoordinator (p : Project) (c : Coordinator)
  | removeCoordinator (p : Project)
  | deleteProject (p : Project)
  /-- A call that concerns neither the store nor a coordinator. -/
  | work
  deriving DecidableEq

variable {Project Digest : Type}

abbrev Reply : Call Project Digest → Type
  | .readOwner _ => Option Nat
  | .initOwner _ => Nat
  | .look _ | .treeMetadata _ => Bool
  | .readJournal => Option (Journal Project Digest)
  | .readTree _ => Option Tree
  | .readCoordinator _ => Found
  | _ => Unit

/-- How much of a call that is not carried out has reached the disk. -/
inductive Cut where
  | untouched
  | emptied
  | partly
  | carried
  deriving DecidableEq

section

variable [DecidableEq Project] [DecidableEq Digest]

namespace State

variable (s : State Project Digest)

/-- The locks of the store that process `i` holds are dropped. -/
@[simps] def unlock (i : Nat) : State Project Digest :=
  { s with
    exclusive := if s.exclusive = some i then none else s.exclusive
    loose := if s.exclusive = some i then fun _ => false else s.loose
    publisher := if s.exclusive = some i then none else s.publisher
    shared := Function.update s.shared i false }

/-- The operating system closes the files of a process that has ended. -/
@[simps!] def release (i : Nat) : State Project Digest :=
  { s.unlock i with projects := fun p => if s.projects p = some i then none else s.projects p }

@[simps] def setTree (d : Digest) (t : Option Tree) : State Project Digest :=
  { s with trees := Function.update s.trees d t }

@[simps!] def place (d : Digest) : State Project Digest :=
  { s.setTree d (some .whole) with
    origin := Function.update s.origin d (s.journal.map fun j => (j.project, j.owner))
    loose := Function.update s.loose d s.journal.isNone }

@[simps] def setOwner (p : Project) (line : OwnerLine) : State Project Digest :=
  { s with owners := Function.update s.owners p line }

@[simps] def setCoordinator (p : Project) (c : Option Coordinator) : State Project Digest :=
  { s with coordinators := Function.update s.coordinators p c }

@[simps] def markCommitted (p : Project) (owner : Nat) : State Project Digest :=
  { s with committed := fun q o => (q = p ∧ o = owner) || s.committed q o }

@[simps] def tear (p : Project) (owner : Nat) : State Project Digest :=
  { s with torn := fun q o => (q = p ∧ o = owner) || s.torn q o }

@[simps!] def delete (p : Project) : State Project Digest :=
  { s.setCoordinator p none with gone := Function.update s.gone p true }

/-- `write_record`; the last part is history. -/
def record (p : Project) (c : Coordinator) : State Project Digest :=
  if c.committed then (s.setCoordinator p (some c)).markCommitted p c.owner else s.setCoordinator p (some c)

def found (p : Project) : Found :=
  if s.gone p then .gone
  else match s.coordinators p with
    | none => .missing
    | some c => .record c

/-- Whether it is there. -/
def has : Target Digest → Bool
  | .journal => s.journal.isSome
  | .tree d => (s.trees d).isSome

end State

/-- A call of process `i` that is carried out. -/
def exec (i : Nat) :
    (o : Call Project Digest) → State Project Digest → Except Error (Reply o) × State Project Digest
  | .lockProject p, s =>
    if s.gone p then (.error .io, s)
    else if (s.projects p).isSome then (.error .projectBusy, s)
    else (.ok (), { s with projects := Function.update s.projects p (some i) })
  | .readOwner p, s =>
    match s.owners p with
    | .empty => (.ok none, s)
    | .line owner => (.ok (some owner), s)
    | .malformed => (.error .malformedOwner, s)
  | .initOwner p, s => (.ok s.nextOwner, { s.setOwner p (.line s.nextOwner) with nextOwner := s.nextOwner + 1 })
  | .lockShared, s => (.ok (), { s with shared := Function.update s.shared i true })
  | .lockExclusive, s => (.ok (), { s with exclusive := some i })
  | .unlock, s => (.ok (), s.unlock i)
  | .look t, s => (.ok (s.has t), s)
  | .readJournal, s =>
    match s.journal with
    | none => (.ok none, s)
    | some j => if StoreJournal.storeJournalMax < j.size then (.error .oversized, s) else (.ok (some j), s)
  | .writeJournal j, s => (.ok (), { s with journal := some j, publisher := some i })
  | .removeJournal, s => (.ok (), { s with journal := none })
  | .treeMetadata d, s => (.ok (s.trees d).isSome, s)
  | .verifyTree d, s =>
    match s.trees d with
    | none => (.error .missing, s)
    | some .broken => (.error .unverified, s)
    | some .whole => (.ok (), s)
  | .readTree d, s => (.ok (s.trees d), s)
  | .renameTree d, s => if (s.trees d).isSome then (.error .io, s) else (.ok (), s.place d)
  | .removeTree d, s => (.ok (), s.setTree d none)
  | .readCoordinator p, s => (.ok (s.found p), s)
  | .writeCoordinator p c, s => (.ok (), s.record p c)
  | .removeCoordinator p, s => (.ok (), s.setCoordinator p none)
  | .deleteProject p, s => (.ok (), s.delete p)
  | .work, s => (.ok (), s)

/-- Calls that may change the disk and fail after it: the sync behind a rename or a
removal, or one entry of a directory that cannot be removed. -/
def Call.durable : Call Project Digest → Bool
  | .initOwner _ | .writeJournal _ | .removeJournal | .removeTree _ | .writeCoordinator _ _
  | .removeCoordinator _ => true
  | _ => false

/-- The state behind a call that is not carried out. -/
def cut (i : Nat) (o : Call Project Digest) (c : Cut) (s : State Project Digest) : State Project Digest :=
  match c with
  | .untouched => s
  | .carried => if o.durable then (exec i o s).2 else s
  | .emptied =>
    match o with
    | .initOwner p => s.setOwner p .empty
    | _ => s
  | .partly =>
    match o with
    | .initOwner p => s.setOwner p .malformed
    | .removeTree d => if (s.trees d).isSome then s.setTree d (some .broken) else s
    | _ => s

/-- A failed call that has had its effect nevertheless leaves a torn decision, and
one that has only looked may have missed what is there. -/
def fail (i : Nat) (o : Call Project Digest) (c : Cut) (s : State Project Digest) : State Project Digest :=
  match c, o with
  | .carried, .writeCoordinator p r => if r.committed then (cut i o c s).tear p r.owner else cut i o c s
  | _, .look t => if s.has t then { s with misled := true } else s
  | _, _ => cut i o c s

/-- Dropping a lock has no error. -/
def Call.mayFail : Call Project Digest → Bool
  | .unlock => false
  | _ => true

/-- Locks are waited for. -/
def enabled (_ : Nat) : Call Project Digest → State Project Digest → Prop
  | .lockShared, s => s.exclusive = none
  | .lockExclusive, s => s.exclusive = none ∧ ∀ j, s.shared j = false
  | _, _ => True

def system : System (@Reply Project Digest) Nat Error (State Project Digest) Cut where
  calls i := { exec := exec i, cut := fail i, failure := .io }
  enabled := enabled
  mayFail o _ := o.mayFail = true
  halt i o c s := (cut i o c s).release i
  release i s := s.release i

end

/-! ### The programs -/

abbrev Plain (Project Digest α : Type) := Prog (@Reply Project Digest) Error α

abbrev Run (Project Digest α : Type) := ExceptT Error (Plain Project Digest) α

def call (o : Call Project Digest) : Run Project Digest (Reply o) := Prog.attempt o id

/-- `Path::exists` -/
def pathExists (t : Target Digest) : Run Project Digest Bool := tryCatch (call (.look t)) fun _ => pure false

/-- The decision on the transaction of a journal. -/
def decision (j : Journal Project Digest) : Run Project Digest Bool := do
  match ← call (.readCoordinator j.project) with
  | .gone => pure false
  | .missing => throw .unavailable
  | .record c => if c.owner = j.owner then pure c.committed else throw .identityMismatch

def withdrawTree (d : Digest) : Run Project Digest Unit := do
  if ← call (.treeMetadata d) then
    call (.verifyTree d)
    call (.removeTree d)

def withdrawTrees : List Digest → Run Project Digest Unit
  | [] => pure ()
  | d :: ds => do
    withdrawTree d
    withdrawTrees ds

/-- `recover_store_journal` -/
def recoverStoreJournal : Run Project Digest Unit := do
  match ← call .readJournal with
  | none => pure ()
  | some j =>
    if ← decision j then call .removeJournal
    else
      withdrawTrees j.created
      call .work
      call .removeJournal

/-- `lock_file` for the exclusive lock -/
def lockFile : Run Project Digest Unit := do
  call .lockExclusive
  onError (call .unlock) recoverStoreJournal

/-- `Store::recover_transactions` -/
def recoverTransactions : Run Project Digest Unit := do
  lockFile
  call .unlock

/-- `lock_file` for the shared lock: a pending journal is recovered under the
exclusive one, and then everything begins again.  The budget is a number of rounds. -/
def readGuard : Nat → Run Project Digest Unit
  | 0 => throw .wouldBlock
  | rounds + 1 => do
    call .lockShared
    if ← pathExists .journal then
      call .unlock
      lockFile
      call .unlock
      readGuard rounds

/-- The digests whose trees are not in the store. -/
def newDigests : List Digest → Run Project Digest (List Digest)
  | [] => pure []
  | d :: staged => do
    if ← pathExists (.tree d) then
      call (.verifyTree d)
      newDigests staged
    else
      let created ← newDigests staged
      pure (d :: created)

def syncStaged : List Digest → Run Project Digest Unit
  | [] => pure ()
  | d :: staged => do
    if ← pathExists (.tree d) then syncStaged staged
    else
      call .work
      syncStaged staged

/-- `write_store_journal` -/
def writeStoreJournal (p : Project) (size : List Digest → Nat) (created : List Digest) :
    Run Project Digest Unit := do
  match ← call (.readCoordinator p) with
  | .record c =>
    if c.committed then throw .notPrepared else call (.writeJournal ⟨p, c.owner, created, size created⟩)
  | _ => throw .unavailable

/-- `pending_journal` -/
def writePendingJournal (coordinator : Option Project) (size : List Digest → Nat) (created : List Digest) :
    Run Project Digest Unit :=
  match coordinator with
  | some p => writeStoreJournal p size created
  | none => pure ()

def removeTrees : List Digest → Run Project Digest Unit
  | [] => pure ()
  | d :: ds => do
    call (.removeTree d)
    removeTrees ds

def removeStoreJournal (coordinator : Option Project) : Run Project Digest Unit :=
  match coordinator with
  | some _ => call .removeJournal
  | none => pure ()

/-- What `publish_inner` does before it returns an error. -/
def withdraw (coordinator : Option Project) (published : List Digest) : Run Project Digest Unit := do
  removeTrees published
  call .work
  removeStoreJournal coordinator

/-- Whether the tree is new. -/
def placeTree (d : Digest) : Run Project Digest Bool := do
  if ← pathExists (.tree d) then
    call (.verifyTree d)
    pure false
  else
    call (.renameTree d)
    pure true

def placeTrees (coordinator : Option Project) : List Digest → List Digest → Run Project Digest (List Digest)
  | [], published => pure published
  | d :: staged, published => do
    let isNew ← onError (withdraw coordinator published) (placeTree d)
    placeTrees coordinator staged (if isNew then published ++ [d] else published)

/-- `publish_inner` behind the lock -/
def publishLocked (coordinator : Option Project) (size : List Digest → Nat) (staged : List Digest) :
    Run Project Digest (List Digest) := do
  let created ← newDigests staged
  syncStaged staged
  writePendingJournal coordinator size created
  let published ← placeTrees coordinator staged []
  onError (withdraw coordinator published) (call .work)
  pure published

/-- `publish_inner`; the publication is the list of the trees it has put in place,
and its process keeps the lock. -/
def publishInner (coordinator : Option Project) (size : List Digest → Nat) (staged : List Digest) :
    Run Project Digest (List Digest) := do
  lockFile
  onError (call .unlock) (publishLocked coordinator size staged)

/-- `StorePublication::drop` -/
def dropPublication : List Digest → Run Project Digest Unit
  | [] => call .unlock
  | d :: published => do
    ignored (call (.removeTree d))
    dropPublication published

/-- Every removal is tried; the first error is kept. -/
def removeEach : List Digest → Run Project Digest Unit
  | [] => pure ()
  | d :: published => do
    onError (ignored (removeEach published)) (call (.removeTree d))
    removeEach published

/-- `StorePublication::rollback`; where it fails the destructor runs as well. -/
def rollback (coordinator : Option Project) (published : List Digest) : Run Project Digest Unit := do
  onError (dropPublication published) do
    removeEach published
    call .work
    removeStoreJournal coordinator
  call .unlock

/-- `StorePublication::commit` -/
def commit (coordinator : Option Project) : Run Project Digest Unit := do
  onError (call .unlock) (removeStoreJournal coordinator)
  call .unlock

/-- The store of a record is recovered first. -/
def recoverRecorded (c : Coordinator) : Run Project Digest Unit :=
  if c.storeRoot then recoverTransactions else pure ()

/-- `lifecycle_journal::recover` -/
def recover (p : Project) (staleOwner : Option Nat) : Run Project Digest (Option Coordinator) := do
  match ← call (.readCoordinator p) with
  | .gone => throw .io
  | .missing => pure none
  | .record c =>
    if staleOwner.any (· ≠ c.owner) then throw .invalidOwnership
    else
      recoverRecorded c
      call .work
      pure (some c)

/-- `ActivationLock::acquire` -/
def acquire (p : Project) : Run Project Digest Nat := do
  call (.lockProject p)
  let previous ← call (.readOwner p)
  match ← recover p previous with
  | none => call .work
  | some _ =>
    call .work
    call (.removeCoordinator p)
  call (.initOwner p)

/-- `LifecycleJournal::begin` -/
def begin (p : Project) (owner : Nat) : Run Project Digest Unit := do
  match ← call (.readCoordinator p) with
  | .record _ => throw .unfinished
  | _ => call (.writeCoordinator p ⟨owner, false, false⟩)

/-- `LifecycleJournal::settle` -/
def settle (p : Project) (owner : Nat) : Run Project Digest Unit := do
  match ← recover p (some owner) with
  | none => throw .disappeared
  | some _ =>
    call .work
    call (.removeCoordinator p)

/-- The calls of a program that uses trees under a read guard. -/
def Call.isRead : Call Project Digest → Prop
  | .readTree _ | .work => True
  | _ => False

/-- What is done under a read guard, and how often the guard is asked for. -/
structure Reader (Project Digest : Type) where
  rounds : Nat
  use : Run Project Digest Unit
  reads : Prog.Only Call.isRead use.run

def reading (r : Reader Project Digest) : Run Project Digest Unit := do
  readGuard r.rounds
  onError (call .unlock) r.use
  call .unlock

/-- A use of the store by a program that has not locked it. -/
inductive StoreUse (Project Digest : Type) where
  /-- `verified_tree_snapshot` -/
  | snapshot (r : Reader Project Digest)
  /-- `verified_lifecycle_snapshot`, or a snapshot of a tree that may be missing: the
  error is dropped. -/
  | lookup (r : Reader Project Digest)
  /-- `attest_lifecycle_output`, `ingest` -/
  | exclusive

def useStore : StoreUse Project Digest → Run Project Digest Unit
  | .snapshot r => reading r
  | .lookup r => ignored (reading r)
  | .exclusive => do
    lockFile
    onError (call .unlock) (call .work)
    call .unlock

def useStoreAll : List (StoreUse Project Digest) → Run Project Digest Unit
  | [] => pure ()
  | u :: us => do
    useStore u
    call .work
    useStoreAll us

/-- What an install does with the store: while it fetches, while it runs the scripts
of dependencies, and the trees it publishes, with the length of a journal that lists
some of them. -/
structure StoreUses (Project Digest : Type) where
  fetched : List (StoreUse Project Digest)
  applied : List (StoreUse Project Digest)
  staged : List Digest
  size : List Digest → Nat

/-- The transaction of `perform_install`, from the recording of the member roots to
the removal of the journal. -/
def performInstall (p : Project) (owner : Nat) (uses : StoreUses Project Digest) : Run Project Digest Unit := do
  call (.writeCoordinator p ⟨owner, false, false⟩)
  call (.writeCoordinator p ⟨owner, false, true⟩)
  useStoreAll uses.applied
  call .work
  let published ← publishInner (some p) uses.size uses.staged
  -- the lockfile
  onError (dropPublication published) (call .work)
  -- the layouts
  onError (ignored (rollback (some p) published)) (call .work)
  onError (dropPublication published) (call (.writeCoordinator p ⟨owner, true, true⟩))
  commit (some p)
  call .work
  call (.removeCoordinator p)

/-- An online install. -/
def install (p : Project) (uses : StoreUses Project Digest) : Run Project Digest Unit := do
  let owner ← acquire p
  recoverTransactions
  useStoreAll uses.fetched
  call .work
  begin p owner
  onError (ignored (settle p owner)) (performInstall p owner uses)

/-- `Store::activate_verified_tree` -/
def activateVerifiedTree (d : Digest) : Run Project Digest Unit := do
  let _ ← publishInner none (fun _ => 0) [d]
  commit none

/-- Someone removes the directory of a project nobody works in: it is locked first. -/
def deletion (p : Project) : Run Project Digest Unit := do
  call (.lockProject p)
  call (.deleteProject p)

/-- What a process may run. -/
inductive Command : Plain Project Digest (Except Error Unit) → Prop
  | install (p : Project) (uses : StoreUses Project Digest) : Command (install p uses).run
  | acquire (p : Project) : Command (do let _ ← acquire p : Run Project Digest Unit).run
  | recoverTransactions : Command recoverTransactions.run
  | activateVerifiedTree (d : Digest) : Command (activateVerifiedTree d).run
  | useStore (u : StoreUse Project Digest) : Command (useStore u).run
  | deletion (p : Project) : Command (deletion p).run

/-! ### Runs -/

/-- A store with these trees in which nobody has worked yet. -/
def State.initial (trees : Digest → Option Tree) : State Project Digest where
  trees := trees
  journal := none
  coordinators := fun _ => none
  gone := fun _ => false
  exclusive := none
  shared := fun _ => false
  projects := fun _ => none
  owners := fun _ => .empty
  nextOwner := 0
  origin := fun _ => none
  loose := fun _ => false
  committed := fun _ _ => false
  torn := fun _ _ => false
  publisher := none
  misled := false

/-- What a process runs, and the state of the store. -/
abbrev Processes (Project Digest : Type) :=
  Config (@Reply Project Digest) Nat Error (Except Error Unit) (State Project Digest)

/-- Nobody runs anything. -/
def Processes.initial (trees : Digest → Option Tree) : Processes Project Digest := ⟨State.initial trees, fun _ => none⟩

variable [DecidableEq Project] [DecidableEq Digest]

/-- One step of one process that runs one of the programs. -/
abbrev Next (c d : Processes Project Digest) : Prop := Step system Command c d

/-- What a run that begins with these trees can come to. -/
def Reachable (trees : Digest → Option Tree) (c : Processes Project Digest) : Prop :=
  Reaches system Command (Processes.initial trees) c

end Tapid.StoreProtocol
