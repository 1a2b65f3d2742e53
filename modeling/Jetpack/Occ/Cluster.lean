import Jetpack.Occ.Server

/-! Transactions over several partitions. The coordinator of an attempt prepares it at every partition
that got a piece of it, and commits it everywhere when none of them refused. Each partition is the
scheduler of its leader. -/

namespace Jetpack.Occ

open SerialHistory

inductive Phase
  | dispatch
  | prepare
  | committed
  | aborted
deriving DecidableEq

/-- The coordinator of one transaction id; a restarted transaction has another id. -/
structure Attempt (π : Type) where
  phase : Phase := .dispatch
  partitionIds : List π := []
  aborted : Bool := false

/-- What is under way between an attempt and a partition. The coordinator waits for all replies before
it sends the next requests, so there is one message at most; a lost one is never handled. -/
inductive Link
  | idle
  | prepare
  | reply (ok : Bool)
  | acked
  | commit
  | abort
  | done
deriving DecidableEq

/-- `log` and `decided` are the histories of the attempts and of those that were to commit, in the
order of the decisions; the code does not keep them. -/
structure Cluster (π ρ κ ν : Type) where
  server : π → State ρ κ ν
  attempt : LockOwner → Attempt π := fun _ => {}
  link : π → LockOwner → Link := fun _ _ => .idle
  log : LockOwner → List (Op (π × ρ × κ) ν) := fun _ => []
  decided : List (List (Op (π × ρ × κ) ν)) := []

namespace Cluster

variable {π ρ κ ν : Type} [DecidableEq π] [DecidableEq ρ] [DecidableEq κ]

def setServer (c : Cluster π ρ κ ν) (p : π) (s : State ρ κ ν) : Cluster π ρ κ ν :=
  { c with server := Function.update c.server p s }

def setAttempt (c : Cluster π ρ κ ν) (id : LockOwner) (a : Attempt π) : Cluster π ρ κ ν :=
  { c with attempt := Function.update c.attempt id a }

def setLink (c : Cluster π ρ κ ν) (p : π) (id : LockOwner) (l : Link) : Cluster π ρ κ ν :=
  { c with link := fun q j => if q = p ∧ j = id then l else c.link q j }

def broadcast (c : Cluster π ρ κ ν) (id : LockOwner) (l : Link) : Cluster π ρ κ ν :=
  { c with link := fun q j =>
      if j = id ∧ q ∈ (c.attempt id).partitionIds then l else c.link q j }

/-- An operation of a piece, which the partition executes when the piece arrives. All pieces are
acknowledged before the attempt leaves its first phase. -/
def execute (c : Cluster π ρ κ ν) (id : LockOwner) (p : π) (e : Event ρ κ ν) :
    Option (Cluster π ρ κ ν) :=
  if (c.attempt id).phase = .dispatch ∧ p ∈ (c.attempt id).partitionIds then do
    let s ← Occ.step (c.server p) e
    let op ← (s.getMdbTxn id).log.getLast?
    return { c.setServer p s with log := Function.update c.log id (c.log id ++ [op.within p]) }
  else none

inductive Event (π ρ κ ν : Type)
  | dispatch (id : LockOwner) (p : π)
  | read (id : LockOwner) (p : π) (k : ρ × κ)
  | write (id : LockOwner) (p : π) (k : ρ × κ) (v : ν)
  | sendPrepare (id : LockOwner)
  | prepare (id : LockOwner) (p : π) (readRows updateRows : List (ρ × κ))
  | ack (id : LockOwner) (p : π)
  | decide (id : LockOwner)
  | commit (id : LockOwner) (p : π)
  | abort (id : LockOwner) (p : π)

def step (c : Cluster π ρ κ ν) : Event π ρ κ ν → Option (Cluster π ρ κ ν)
  | .dispatch id p =>
    let a := c.attempt id
    if a.phase = .dispatch then
      some (c.setAttempt id { a with partitionIds := a.partitionIds.insert p })
    else none
  | .read id p k => c.execute id p (.read id k)
  | .write id p k v => c.execute id p (.write id k v)
  | .sendPrepare id =>
    let a := c.attempt id
    if a.phase = .dispatch then some ((c.broadcast id .prepare).setAttempt id { a with phase := .prepare })
    else none
  | .prepare id p readRows updateRows =>
    if c.link p id = .prepare then do
      let s ← Occ.step (c.server p) (.prepare id readRows updateRows)
      return (c.setServer p s).setLink p id (.reply (s.getMdbTxn id).verified)
    else none
  | .ack id p =>
    match c.link p id with
    | .reply ok =>
      let a := c.attempt id
      some ((c.setLink p id .acked).setAttempt id { a with aborted := a.aborted || !ok })
    | _ => none
  | .decide id =>
    let a := c.attempt id
    if a.phase = .prepare ∧ ∀ p ∈ a.partitionIds, c.link p id = .acked then
      if a.aborted then
        some ((c.broadcast id .abort).setAttempt id { a with phase := .aborted })
      else
        some { (c.broadcast id .commit).setAttempt id { a with phase := .committed } with
          decided := c.decided ++ [c.log id] }
    else none
  | .commit id p =>
    if c.link p id = .commit then do
      let s ← Occ.step (c.server p) (.commit id)
      return (c.setServer p s).setLink p id .done
    else none
  | .abort id p =>
    if c.link p id = .abort then do
      let s ← Occ.step (c.server p) (.abort id)
      return (c.setServer p s).setLink p id .done
    else none

def initial (column : π → ρ → κ → ν) (ver : π → ρ → κ → Nat) : Cluster π ρ κ ν :=
  { server := fun p => { db := fun row => { column := column p row, ver := ver p row } } }

end Cluster

end Jetpack.Occ
