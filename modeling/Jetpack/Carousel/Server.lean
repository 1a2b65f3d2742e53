import Mathlib
import Jetpack.Library.Transition

/-! The Carousel scheduler of a replica. A prepare counts the columns that a transaction reads and
marks those it writes, under the hash of row key and column; a follower may also take this over from
its leader. A decision takes it back. -/

namespace Jetpack.Carousel

abbrev TxId := Nat

structure Versioned (ν : Type) where
  value : ν
  ver : Nat := 0

/-- The columns read and the writes buffered, each column once, in the order in which the maps are
enumerated. -/
structure TxCarousel (κ ν : Type) where
  abortedInDispatch : Bool := false
  readVers : List κ := []
  writeBufs : List (κ × Versioned ν) := []

def TxCarousel.writes {κ ν : Type} (tx : TxCarousel κ ν) : List κ := tx.writeBufs.map Prod.fst

abbrev RowMap (η : Type) := AList (fun _ : η => Int)

variable {κ ν η : Type} [DecidableEq κ] [DecidableEq η]

structure Replica (κ ν η : Type) where
  column : κ → Versioned ν
  pendingWrite : RowMap η := ∅
  pendingRead : RowMap η := ∅
  preparedTransIds : Finset TxId := ∅
  preparedTransIdsFollower : Finset TxId := ∅

/-- `TpcPrepareCarouselCommand`: the entries that the leader's prepare made for the transaction. -/
structure PrepareCmd (η : Type) where
  pendingWrite : List (η × Int)
  pendingRead : List (η × Int)

section Loops

variable (hash : κ → η)

def hashKeys (cols : List κ) : List (η × Int) := (cols.map hash).dedup.map fun h => (h, 1)

def checkReads (pendingWrite : RowMap η) (cols : List κ) : Bool :=
  cols.all fun c => (pendingWrite.lookup (hash c)).isNone

/-- No column that is written is pending. A count that is not above zero is dropped on the way. -/
def checkWrites (pendingWrite : RowMap η) (pendingRead : RowMap η) : List κ → Bool × RowMap η
  | [] => (true, pendingRead)
  | c :: cols =>
    match pendingRead.lookup (hash c) with
    | some n =>
      if 0 < n then (false, pendingRead)
      else if (pendingWrite.lookup (hash c)).isSome then (false, pendingRead.erase (hash c))
      else checkWrites pendingWrite (pendingRead.erase (hash c)) cols
    | none =>
      if (pendingWrite.lookup (hash c)).isSome then (false, pendingRead)
      else checkWrites pendingWrite pendingRead cols

/-- A count goes up by one, and an entry that is new comes with its own. -/
def addReads (m : RowMap η) : List (η × Int) → RowMap η
  | [] => m
  | (h, n) :: l => addReads (m.insert h (((m.lookup h).map (· + 1)).getD n)) l

/-- `emplace` leaves an entry that is there already. -/
def addWrites (m : RowMap η) : List (η × Int) → RowMap η
  | [] => m
  | (h, n) :: l => addWrites (if (m.lookup h).isSome then m else m.insert h n) l

/-- `none` where a `verify` fails. A hash is released once. -/
def releaseReads (seen : List η) (m : RowMap η) : List κ → Option (RowMap η)
  | [] => some m
  | c :: cols =>
    if hash c ∈ seen then releaseReads seen m cols
    else
      match m.lookup (hash c) with
      | none => none
      | some n =>
        if 0 < n then
          releaseReads (hash c :: seen)
            (if n - 1 = 0 then m.erase (hash c) else m.insert (hash c) (n - 1)) cols
        else none

/-- A write whose entry is gone is passed over if its row is in no table. -/
def releaseWrites (inTable : κ → Bool) (seen : List η) (m : RowMap η) : List κ → Option (RowMap η)
  | [] => some m
  | c :: cols =>
    if hash c ∈ seen then releaseWrites inTable seen m cols
    else
      match m.lookup (hash c) with
      | none => if inTable c then none else releaseWrites inTable (hash c :: seen) m cols
      | some n =>
        if n = 1 then releaseWrites inTable (hash c :: seen) (m.erase (hash c)) cols else none

end Loops

def mergeWrites (column : κ → Versioned ν) : List (κ × Versioned ν) → κ → Versioned ν
  | [] => column
  | (c, v) :: l => mergeWrites (Function.update column c v) l

namespace Replica

variable (hash : κ → η) (s : Replica κ ν η) (tid : TxId) (tx : TxCarousel κ ν)

/-- `withCmd` tells the leader's own prepare from a fast prepare, which leaves a mark. The call waits
until the transaction is fully dispatched. -/
def doPrepare (withCmd : Bool) : Bool × Replica κ ν η :=
  if tid ∈ s.preparedTransIds then (true, s)
  else if tx.abortedInDispatch then (false, s)
  else if !checkReads hash s.pendingWrite tx.readVers then (false, s)
  else
    let (ok, pendingRead) := checkWrites hash s.pendingWrite s.pendingRead tx.writes
    if !ok then (false, { s with pendingRead })
    else
      (true,
        { s with
          pendingRead := addReads pendingRead (hashKeys hash tx.readVers)
          pendingWrite := addWrites s.pendingWrite (hashKeys hash tx.writes)
          preparedTransIds := insert tid s.preparedTransIds
          preparedTransIdsFollower :=
            if withCmd then s.preparedTransIdsFollower else insert tid s.preparedTransIdsFollower })

def prepareCmd : PrepareCmd η where
  pendingWrite := hashKeys hash tx.writes
  pendingRead := hashKeys hash tx.readVers

def doPrepareResult (cmd : PrepareCmd η) : Replica κ ν η :=
  { s with
    pendingWrite := addWrites s.pendingWrite cmd.pendingWrite
    pendingRead := addReads s.pendingRead cmd.pendingRead
    preparedTransIds := insert tid s.preparedTransIds }

/-- `none` where a `verify` fails. An abort of a fast prepare only takes the mark away. -/
def doCommit (inTable : κ → Bool) (committed : Bool) : Option (Replica κ ν η) :=
  if tid ∉ s.preparedTransIds then (if committed then none else some s)
  else if committed = false ∧ tid ∈ s.preparedTransIdsFollower then
    some { s with preparedTransIdsFollower := s.preparedTransIdsFollower.erase tid }
  else do
    let pendingRead ← releaseReads hash [] s.pendingRead tx.readVers
    let pendingWrite ← releaseWrites hash inTable [] s.pendingWrite tx.writes
    return {
      column := if committed then mergeWrites s.column tx.writeBufs else s.column
      pendingWrite
      pendingRead
      preparedTransIds := s.preparedTransIds.erase tid
      preparedTransIdsFollower :=
        if committed then s.preparedTransIdsFollower.erase tid else s.preparedTransIdsFollower }

end Replica

/-- The transactions with their fixed sets, the hash, and which rows are in a table. -/
structure Setting (κ ν η : Type) where
  tx : TxId → TxCarousel κ ν
  hash : κ → η
  inTable : κ → Bool

/-- A replica with what has happened to the transactions on it. -/
structure System (κ ν η : Type) where
  replica : Replica κ ν η
  prepared : Finset TxId := ∅
  replicated : Finset TxId := ∅
  decided : Finset TxId := ∅
  failed : Bool := false

inductive Event
  | doPrepare (tid : TxId) (withCmd : Bool)
  | doPrepareResult (tid : TxId)
  | doCommit (tid : TxId) (committed : Bool)
  deriving Repr, DecidableEq

/-- A transaction takes no step after its decision, the leader's prepare is replicated once, and a
commit comes after a successful prepare. A failed `verify` is remembered. -/
def step (cfg : Setting κ ν η) (s : System κ ν η) : Event → Option (System κ ν η)
  | .doPrepare tid withCmd =>
    if tid ∈ s.decided then none
    else
      let (ok, replica) := s.replica.doPrepare cfg.hash tid (cfg.tx tid) withCmd
      some { s with replica, prepared := if ok then insert tid s.prepared else s.prepared }
  | .doPrepareResult tid =>
    if tid ∈ s.decided ∨ tid ∈ s.replicated then none
    else
      some { s with
        replica := s.replica.doPrepareResult tid (Replica.prepareCmd cfg.hash (cfg.tx tid))
        prepared := insert tid s.prepared
        replicated := insert tid s.replicated }
  | .doCommit tid committed =>
    if tid ∈ s.decided ∨ (committed = true ∧ tid ∉ s.prepared) then none
    else
      match s.replica.doCommit cfg.hash tid (cfg.tx tid) cfg.inTable committed with
      | none => some { s with failed := true }
      | some replica => some { s with replica, decided := insert tid s.decided }

end Jetpack.Carousel
