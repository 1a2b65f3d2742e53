import Mathlib

/-! The TAPIR scheduler of a replica. Reads record the versions they see and writes are buffered;
`OnFastAccept` validates a transaction and records what it prepares at the columns, and `OnDecide`
takes the records away again. A version is a timestamp. -/

namespace Jetpack.Tapir

abbrev TxId := Nat

abbrev Version := Nat

structure Column (ν : Type) where
  value : ν
  ver : Version := 0
  preparedRver : List Version := []
  preparedWver : List Version := []

namespace Column

variable {ν : Type} (c : Column ν)

/-- The name is the source's; the list is that of the writes. -/
def maxPreparedRver : Version := c.preparedWver.getLast?.getD 0

def minPreparedWver : Version := c.preparedRver.head?.getD 0

def removePreparedWver (ver : Version) : Column ν :=
  { c with preparedWver := c.preparedWver.filter (· ≠ ver) }

def insertPreparedRver (ver : Version) : Column ν :=
  { c with preparedRver := (c.preparedRver ++ [ver]).insertionSort (· ≤ ·) }

def removePreparedRver (ver : Version) : Column ν :=
  { c with preparedRver := c.preparedRver.filter (· ≠ ver) }

end Column

/-- A `Value`, with the version it carries. -/
structure Buffered (ν : Type) where
  value : ν
  ver : Version := 0

variable {κ ν : Type} [LinearOrder κ]

/-- The columns of all rows are the keys of the maps, ordered by row and then by column. -/
structure TxTapir (κ ν : Type) where
  fullyDispatched : Bool := false
  abortedInDispatch : Bool := false
  readVers : AList (fun _ : κ => Version) := ∅
  writeBufs : AList (fun _ : κ => Buffered ν) := ∅
  preparedRvers : AList (fun _ : κ => Version) := ∅
  preparedWvers : AList (fun _ : κ => Version) := ∅

def inOrder {α : Type} (m : AList (fun _ : κ => α)) : List (Sigma fun _ : κ => α) :=
  m.entries.insertionSort (fun a b => a.1 ≤ b.1)

structure Replica (κ ν : Type) where
  column : κ → Column ν
  dtxns : AList (fun _ : TxId => TxTapir κ ν) := ∅

inductive Ret
  | success
  | reject
  | abstain
  | retry
  deriving Repr, DecidableEq

inductive Decision
  | unknown
  | commit
  | abort
  deriving Repr, DecidableEq

namespace TxTapir

/-- `ReadColumn` with the current version of the column. -/
def readColumn (tx : TxTapir κ ν) (k : κ) (ver : Version) : TxTapir κ ν :=
  { tx with readVers := tx.readVers.insert k ver }

/-- `WriteColumn`. Assigning a `Value` leaves the version of the target. -/
def writeColumn (tx : TxTapir κ ν) (k : κ) (v : ν) : TxTapir κ ν :=
  let ver := ((tx.writeBufs.lookup k).map Buffered.ver).getD 0
  { tx with writeBufs := tx.writeBufs.insert k ⟨v, ver⟩ }

end TxTapir

namespace Replica

variable (s : Replica κ ν)

def getOrCreateTx (tid : TxId) : TxTapir κ ν := (s.dtxns.lookup tid).getD {}

def setTx (tid : TxId) (tx : TxTapir κ ν) : Replica κ ν :=
  { s with dtxns := s.dtxns.insert tid tx }

/-- The first loop of `OnFastAccept`, with the value it returns early. -/
def validateReads (column : κ → Column ν) (tx : TxTapir κ ν) :
    List (Sigma fun _ : κ => Version) → Option Ret × (κ → Column ν) × TxTapir κ ν
  | [] => (none, column, tx)
  | ⟨k, verRead⟩ :: reads =>
    if verRead < (column k).ver then (some .reject, column, tx)
    else if verRead < (column k).minPreparedWver then (some .abstain, column, tx)
    else
      validateReads (Function.update column k ((column k).insertPreparedRver verRead))
        { tx with preparedRvers := tx.preparedRvers.insert k verRead } reads

/-- The second loop. The timestamp of a write is put into the list of the reads. -/
def validateWrites (verWrite : Version) (ret : Ret) (column : κ → Column ν) (tx : TxTapir κ ν) :
    List (Sigma fun _ : κ => Buffered ν) → Ret × (κ → Column ν) × TxTapir κ ν
  | [] => (ret, column, tx)
  | ⟨k, b⟩ :: writes =>
    let ret :=
      if verWrite < (column k).maxPreparedRver then .retry
      else if verWrite < (column k).ver then .retry
      else ret
    validateWrites verWrite ret (Function.update column k ((column k).insertPreparedRver verWrite))
      { tx with
        writeBufs := tx.writeBufs.insert k { b with ver := verWrite }
        preparedWvers := tx.preparedWvers.insert k verWrite } writes

/-- `txnCmds` are the timestamps of the commands. The call waits until the transaction is fully
dispatched; `none` also stands for an empty vector, of which the first element is read. -/
def onFastAccept (tid : TxId) (txnCmds : List Version) : Option (Ret × Replica κ ν) :=
  let tx := s.getOrCreateTx tid
  if !tx.fullyDispatched then none
  else if tx.abortedInDispatch then some (.reject, s.setTx tid tx)
  else
    match validateReads s.column tx (inOrder tx.readVers) with
    | (some ret, column, tx) => some (ret, { s with column }.setTx tid tx)
    | (none, column, tx) =>
      match txnCmds with
      | [] => none
      | verWrite :: _ =>
        let (ret, column, tx) := validateWrites verWrite .success column tx (inOrder tx.writeBufs)
        some (ret, { s with column }.setTx tid tx)

/-- `update` and `set_column_ver` for the buffered writes. -/
def mergeWrites (column : κ → Column ν) : List (Sigma fun _ : κ => Buffered ν) → κ → Column ν
  | [] => column
  | ⟨k, b⟩ :: writes =>
    mergeWrites (Function.update column k { column k with value := b.value, ver := b.ver }) writes

def removeRvers (column : κ → Column ν) : List (Sigma fun _ : κ => Version) → κ → Column ν
  | [] => column
  | ⟨k, ver⟩ :: rest =>
    removeRvers (Function.update column k ((column k).removePreparedRver ver)) rest

def removeWvers (column : κ → Column ν) : List (Sigma fun _ : κ => Version) → κ → Column ν
  | [] => column
  | ⟨k, ver⟩ :: rest =>
    removeWvers (Function.update column k ((column k).removePreparedWver ver)) rest

/-- A commit merges the write buffers into the rows; `none` where the decision is unknown. -/
def applyDecision (tx : TxTapir κ ν) : Decision → Option (κ → Column ν)
  | .commit => some (mergeWrites s.column (inOrder tx.writeBufs))
  | .abort => some s.column
  | .unknown => none

/-- `none` also where the transaction does not exist. -/
def onDecide (tid : TxId) (decision : Decision) : Option (Replica κ ν) := do
  let tx ← s.dtxns.lookup tid
  let column ← s.applyDecision tx decision
  let column := removeRvers column (inOrder tx.preparedRvers)
  let column := removeWvers column (inOrder tx.preparedWvers)
  return { column, dtxns := s.dtxns.erase tid }

end Replica

/-- The steps of a replica. Reads and writes are those of the pieces it executes. -/
inductive Event (κ ν : Type)
  | readColumn (tid : TxId) (k : κ)
  | writeColumn (tid : TxId) (k : κ) (v : ν)
  | fullyDispatched (tid : TxId)
  | onFastAccept (tid : TxId) (txnCmds : List Version)
  | onDecide (tid : TxId) (decision : Decision)

def step (s : Replica κ ν) : Event κ ν → Option (Replica κ ν)
  | .readColumn tid k => some (s.setTx tid ((s.getOrCreateTx tid).readColumn k (s.column k).ver))
  | .writeColumn tid k v => some (s.setTx tid ((s.getOrCreateTx tid).writeColumn k v))
  | .fullyDispatched tid =>
    some (s.setTx tid { s.getOrCreateTx tid with fullyDispatched := true })
  | .onFastAccept tid txnCmds => (s.onFastAccept tid txnCmds).map Prod.snd
  | .onDecide tid decision => s.onDecide tid decision

end Jetpack.Tapir
