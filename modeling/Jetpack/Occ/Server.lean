import Mathlib
import Jetpack.Library.SerialHistory

/-! The OCC scheduler over versioned rows: reads record column versions, writes are staged, and
`DoPrepare` checks the versions and locks the rows until `DoCommit` or the abort. All tables that a
configuration makes are sorted ones, whose rows are updated in place. -/

namespace Jetpack.Occ

open SerialHistory

abbrev LockOwner := Int

structure RWLock where
  wlocked : Bool := false
  w : LockOwner := 0
  r : Finset LockOwner := ∅

namespace RWLock

/-- A sole reader can upgrade its lock. -/
def wlockBy (l : RWLock) (o : LockOwner) : Bool × RWLock :=
  if l.wlocked then (o == l.w, l)
  else if l.r = ∅ then (true, { l with wlocked := true, w := o })
  else if o ∈ l.r ∧ l.r.card = 1 then (true, { wlocked := true, w := o, r := l.r.erase o })
  else (false, l)

def rlockBy (l : RWLock) (o : LockOwner) : Bool × RWLock :=
  if l.wlocked then (o == l.w, l) else (true, { l with r := insert o l.r })

def unlockBy (l : RWLock) (o : LockOwner) : RWLock :=
  { l with wlocked := l.wlocked && o != l.w, r := l.r.erase o }

end RWLock

variable {ρ κ ν : Type} [DecidableEq ρ] [DecidableEq κ]

structure VersionedRow (κ ν : Type) where
  column : κ → ν
  ver : κ → Nat
  lock : RWLock := {}

abbrev Database (ρ κ ν : Type) := ρ → VersionedRow κ ν

def cell (db : Database ρ κ ν) (k : ρ × κ) : ν := (db k.1).column k.2

def columnVer (db : Database ρ κ ν) (k : ρ × κ) : Nat := (db k.1).ver k.2

def setLock (db : Database ρ κ ν) (row : ρ) (l : RWLock) : Database ρ κ ν :=
  Function.update db row { db row with lock := l }

/-- `log` is the history of the transaction's own reads and writes; the code does not keep it. -/
structure TxnOCC (ρ κ ν : Type) where
  updates : AList (fun _ : ρ × κ => ν) := ∅
  verCheckRead : AList (fun _ : ρ × κ => Nat) := ∅
  locks : List ρ := []
  verified : Bool := false
  debugAbort : Int := -1
  log : List (Op (ρ × κ) ν) := []

namespace TxnOCC

def debugCheckReadVersion (t : TxnOCC ρ κ ν) (k : ρ × κ) (verNow : Nat) : Bool :=
  (t.verCheckRead.lookup k).all fun verRead => verNow ≤ verRead

/-- `insert_into_map` leaves a version that is there already. -/
def recordVersion (t : TxnOCC ρ κ ν) (k : ρ × κ) (ver : Nat) : TxnOCC ρ κ ν :=
  if (t.verCheckRead.lookup k).isSome then t
  else { t with verCheckRead := t.verCheckRead.insert k ver }

/-- `none` where a `verify` fails. -/
def readColumn (db : Database ρ κ ν) (t : TxnOCC ρ κ ν) (k : ρ × κ) : Option (ν × TxnOCC ρ κ ν) :=
  match t.updates.lookup k with
  | some v => some (v, { t with log := t.log ++ [.read k v] })
  | none =>
    let t := t.recordVersion k (columnVer db k)
    if t.debugCheckReadVersion k (columnVer db k) then
      some (cell db k, { t with log := t.log ++ [.read k (cell db k)] })
    else none

def writeColumn (db : Database ρ κ ν) (t : TxnOCC ρ κ ν) (k : ρ × κ) (v : ν) :
    Option (TxnOCC ρ κ ν) :=
  let t' := { t with updates := t.updates.insert k v, log := t.log ++ [.write k v] }
  if (t.updates.lookup k).isSome then some t'
  else if t.debugCheckReadVersion k (columnVer db k) then some t'
  else none

def versionCheck (db : Database ρ κ ν) (t : TxnOCC ρ κ ν) : Bool :=
  t.verCheckRead.entries.all fun e => columnVer db e.1 == e.2

end TxnOCC

def unlockRows (o : LockOwner) (db : Database ρ κ ν) : List ρ → Database ρ κ ν
  | [] => db
  | row :: rows => unlockRows o (setLock db row ((db row).lock.unlockBy o)) rows

/-- The read locks of `DoPrepare`. When one is refused, those held are given back. -/
def rlockRows (o : LockOwner) (db : Database ρ κ ν) (locks : List ρ) :
    List ρ → Bool × Database ρ κ ν × List ρ
  | [] => (true, db, locks)
  | row :: rows =>
    let (ok, l) := (db row).lock.rlockBy o
    if ok then rlockRows o (setLock db row l) (row :: locks) rows
    else (false, unlockRows o db locks, [])

/-- The write locks. When one is refused, the row that refused it is unlocked as many times as locks
are held, and those held are forgotten without being given back. -/
def wlockRows (o : LockOwner) (db : Database ρ κ ν) (locks : List ρ) :
    List ρ → Bool × Database ρ κ ν × List ρ
  | [] => (true, db, locks)
  | row :: rows =>
    let (ok, l) := (db row).lock.wlockBy o
    if ok then wlockRows o (setLock db row l) (row :: locks) rows
    else (false, unlockRows o db (locks.map fun _ => row), [])

namespace SchedulerOcc

/-- `readRows` and `updateRows` are the keys of the two maps in the order in which they are
enumerated. The versions are checked on the leader only. -/
def doPrepare (isLeaderHint : Bool) (db : Database ρ κ ν) (o : LockOwner) (t : TxnOCC ρ κ ν)
    (readRows updateRows : List (ρ × κ)) : Option (Bool × Database ρ κ ν × TxnOCC ρ κ ν) :=
  if t.verified then none
  else if isLeaderHint && !t.versionCheck db then some (false, db, { t with debugAbort := 1 })
  else
    let r := rlockRows o db t.locks (readRows.map Prod.fst)
    if !r.1 then some (false, r.2.1, { t with locks := r.2.2, debugAbort := 1 })
    else
      let w := wlockRows o r.2.1 r.2.2 (updateRows.map Prod.fst)
      if !w.1 then some (false, w.2.1, { t with locks := w.2.2, debugAbort := 1 })
      else some (true, w.2.1, { t with locks := w.2.2, debugAbort := 0, verified := true })

def applyUpdate (db : Database ρ κ ν) (k : ρ × κ) (v : ν) : Database ρ κ ν :=
  Function.update db k.1 { db k.1 with
    column := Function.update (db k.1).column k.2 v
    ver := Function.update (db k.1).ver k.2 ((db k.1).ver k.2 + 1) }

def applyUpdates (db : Database ρ κ ν) : List (Σ _ : ρ × κ, ν) → Database ρ κ ν
  | [] => db
  | e :: es => applyUpdates (applyUpdate db e.1 e.2) es

/-- A commit that does not follow a successful prepare stops the server. -/
def doCommit (db : Database ρ κ ν) (o : LockOwner) (t : TxnOCC ρ κ ν) :
    Option (Database ρ κ ν) :=
  if t.debugAbort ≠ 0 then none
  else if !t.verified then none
  else some (unlockRows o (applyUpdates db t.updates.entries) t.locks)

def abort (db : Database ρ κ ν) (o : LockOwner) (t : TxnOCC ρ κ ν) : Database ρ κ ν :=
  unlockRows o db t.locks

end SchedulerOcc

/-- The server, with `mdb_txns_` and, last, the histories of the committed transactions in the order
of their commits. -/
structure State (ρ κ ν : Type) where
  db : Database ρ κ ν
  mdbTxns : LockOwner → Option (TxnOCC ρ κ ν) := fun _ => none
  committed : List (List (Op (ρ × κ) ν)) := []

/-- `get_mdb_txn`: an unknown id starts a transaction. -/
def State.getMdbTxn (s : State ρ κ ν) (id : LockOwner) : TxnOCC ρ κ ν := (s.mdbTxns id).getD {}

def State.setTxn (s : State ρ κ ν) (id : LockOwner) (t : TxnOCC ρ κ ν) : State ρ κ ν :=
  { s with mdbTxns := Function.update s.mdbTxns id (some t) }

def State.removeMTxn (s : State ρ κ ν) (id : LockOwner) : State ρ κ ν :=
  { s with mdbTxns := Function.update s.mdbTxns id none }

inductive Event (ρ κ ν : Type)
  | read (id : LockOwner) (k : ρ × κ)
  | write (id : LockOwner) (k : ρ × κ) (v : ν)
  | prepare (id : LockOwner) (readRows updateRows : List (ρ × κ))
  | commit (id : LockOwner)
  | abort (id : LockOwner)

/-- Steps of the leader. The coordinator prepares a transaction when its pieces have run, so a
transaction reads and writes before its first prepare. -/
def step (s : State ρ κ ν) : Event ρ κ ν → Option (State ρ κ ν)
  | .read id k =>
    if (s.getMdbTxn id).debugAbort = -1 then do
      let (_, t) ← (s.getMdbTxn id).readColumn s.db k
      return s.setTxn id t
    else none
  | .write id k v =>
    if (s.getMdbTxn id).debugAbort = -1 then do
      let t ← (s.getMdbTxn id).writeColumn s.db k v
      return s.setTxn id t
    else none
  | .prepare id readRows updateRows =>
    let t := s.getMdbTxn id
    if readRows.isPerm t.verCheckRead.keys && updateRows.isPerm t.updates.keys then do
      let (_, db, t) ← SchedulerOcc.doPrepare true s.db id t readRows updateRows
      return { s.setTxn id t with db := db }
    else none
  | .commit id => do
    let t := s.getMdbTxn id
    let db ← SchedulerOcc.doCommit s.db id t
    return { s.removeMTxn id with db := db, committed := s.committed ++ [t.log] }
  | .abort id =>
    some { s.removeMTxn id with db := SchedulerOcc.abort s.db id (s.getMdbTxn id) }

end Jetpack.Occ
