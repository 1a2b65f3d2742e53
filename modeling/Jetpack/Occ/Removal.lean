import Jetpack.Occ.Serializability

/-! OCC transactions that also remove rows. A removal remembers the versions of the whole row, and takes
the row out of its table at the commit. Rows that a transaction inserts itself are left out. -/

namespace Jetpack.Occ

variable {ρ κ ν : Type} [DecidableEq ρ] [DecidableEq κ]

/-- What stops the server: a `verify` or a fatal message, or the table of a row that is in none. -/
inductive Fault
  | verify
  | nullTable
  deriving Repr, DecidableEq

inductive Outcome
  | none
  | txnCommit
  | txnAbort
  deriving Repr, DecidableEq

structure RemovalTxn (ρ κ ν : Type) extends TxnOCC ρ κ ν where
  outcome : Outcome := .none
  verCheckWrite : AList (fun _ : ρ × κ => Nat) := ∅
  removes : List ρ := []

structure Tables (ρ κ ν : Type) where
  db : Database ρ κ ν
  columns : ρ → List κ
  inTable : ρ → Bool := fun _ => true

def eraseRow (updates : AList (fun _ : ρ × κ => ν)) (row : ρ) : AList (fun _ : ρ × κ => ν) :=
  ⟨updates.entries.filter fun e => e.1.1 ≠ row, updates.nodupKeys.sublist List.filter_sublist⟩

def recordRow (db : Database ρ κ ν) (row : ρ) (vers : AList fun _ : ρ × κ => Nat) :
    List κ → AList fun _ : ρ × κ => Nat
  | [] => vers
  | c :: cs =>
    recordRow db row
      (if (vers.lookup (row, c)).isSome then vers else vers.insert (row, c) (columnVer db (row, c))) cs

namespace RemovalTxn

/-- A row that is in no table is read without its version. -/
def readColumn (s : Tables ρ κ ν) (t : RemovalTxn ρ κ ν) (k : ρ × κ) :
    Except Fault (ν × RemovalTxn ρ κ ν) :=
  if t.outcome ≠ .none then .error .verify
  else if !s.inTable k.1 then .ok (cell s.db k, t)
  else
    match t.toTxnOCC.readColumn s.db k with
    | none => .error .verify
    | some (v, u) => .ok (v, { t with toTxnOCC := u })

/-- A row that is in no table is written at once. -/
def writeColumn (s : Tables ρ κ ν) (t : RemovalTxn ρ κ ν) (k : ρ × κ) (v : ν) :
    Except Fault (Database ρ κ ν × RemovalTxn ρ κ ν) :=
  if t.outcome ≠ .none then .error .verify
  else if !s.inTable k.1 then
    .ok (Function.update s.db k.1
      { s.db k.1 with column := Function.update (s.db k.1).column k.2 v }, t)
  else
    match t.toTxnOCC.writeColumn s.db k v with
    | none => .error .verify
    | some u => .ok (s.db, { t with toTxnOCC := u })

def removeRow (s : Tables ρ κ ν) (t : RemovalTxn ρ κ ν) (row : ρ) :
    Except Fault (RemovalTxn ρ κ ν) :=
  if t.outcome ≠ .none then .error .verify
  else .ok { t with
    verCheckWrite := recordRow s.db row t.verCheckWrite (s.columns row)
    removes := t.removes.insert row
    updates := eraseRow t.updates row }

def debugVersionCheck (t : RemovalTxn ρ κ ν) : Bool :=
  t.verCheckRead.entries.all fun e =>
    (t.verCheckWrite.lookup e.1).all fun verWrite => verWrite ≤ e.2

def versionCheck (db : Database ρ κ ν) (t : RemovalTxn ρ κ ν) : Bool :=
  t.toTxnOCC.versionCheck db && t.verCheckWrite.entries.all fun e => columnVer db e.1 == e.2

/-- The locks are taken as without removals: a removed row is not locked. -/
def doPrepare (isLeaderHint : Bool) (db : Database ρ κ ν) (o : LockOwner) (t : RemovalTxn ρ κ ν)
    (readRows updateRows : List (ρ × κ)) :
    Except Fault (Bool × Database ρ κ ν × RemovalTxn ρ κ ν) :=
  if t.outcome ≠ .none ∨ t.verified then .error .verify
  else if isLeaderHint && !t.debugVersionCheck then .error .verify
  else if isLeaderHint && !t.versionCheck db then .ok (false, db, { t with debugAbort := 1 })
  else
    match SchedulerOcc.doPrepare false db o t.toTxnOCC readRows updateRows with
    | none => .error .verify
    | some (ok, db, u) => .ok (ok, db, { t with toTxnOCC := u })

/-- The versions of the removed rows are raised. -/
def raiseVersions (s : Tables ρ κ ν) (removes : List ρ) : Database ρ κ ν := fun row =>
  if removes.contains row then
    { s.db row with ver := fun c =>
        if (s.columns row).contains c then (s.db row).ver c + 1 else (s.db row).ver c }
  else s.db row

/-- The locks of removed rows are forgotten, not given back. -/
def doCommit (s : Tables ρ κ ν) (o : LockOwner) (t : RemovalTxn ρ κ ν) :
    Except Fault (Tables ρ κ ν) :=
  if t.debugAbort ≠ 0 ∨ t.outcome ≠ .none ∨ !t.verified then .error .verify
  else if !t.updates.keys.all fun k => s.inTable k.1 then .error .nullTable
  else
    let updated : Tables ρ κ ν := { s with db := SchedulerOcc.applyUpdates s.db t.updates.entries }
    .ok { s with
      db := unlockRows o (raiseVersions updated t.removes)
        (t.locks.filter fun row => !t.removes.contains row)
      inTable := fun row => s.inTable row && !t.removes.contains row }

def abort (db : Database ρ κ ν) (o : LockOwner) (t : RemovalTxn ρ κ ν) :
    Except Fault (Database ρ κ ν) :=
  if t.outcome ≠ .none then .error .verify else .ok (unlockRows o db t.locks)

end RemovalTxn

end Jetpack.Occ
