import Jetpack.Library.Transition
import Jetpack.Command

/-! The transaction scheduler behind a replicated log. A dispatched transaction runs on the server
that gets it before it is submitted to the log; a committed one runs when it is applied, unless its
transaction object says that it ran already. -/

namespace Jetpack.Scheduler

/-- A storage engine that performs a piece at once. A piece reads the outputs of the earlier pieces
of its transaction from the workspace. -/
structure Engine (Piece Ws DB : Type) where
  start : Ws
  execute : Piece → Ws → DB → Ws × DB

variable {Piece Ws DB : Type}

def Engine.run (eng : Engine Piece Ws DB) (ps : List Piece) (ws : Ws) (db : DB) : Ws × DB :=
  ps.foldl (fun r p => eng.execute p r.1 r.2) (ws, db)

structure TpcCommitCommand (Piece : Type) where
  txId : Nat
  ret : Res
  cmd : List Piece
deriving DecidableEq

inductive Entry (Piece : Type)
  | commit (c : TpcCommitCommand Piece)
  | batch (cs : List (TpcCommitCommand Piece))
  | empty
deriving DecidableEq

def Entry.commands : Entry Piece → List (TpcCommitCommand Piece)
  | .commit c => [c]
  | .batch cs => cs
  | .empty => []

structure Tx (Piece Ws : Type) where
  cmd : Option (List Piece)
  ws : Ws
  mdbTxn : Bool
  isLeaderHint : Bool
  commitResult : Bool
  committed : Bool
  aborted : Bool
deriving DecidableEq

def Engine.freshTx (eng : Engine Piece Ws DB) : Tx Piece Ws where
  cmd := none
  ws := eng.start
  mdbTxn := false
  isLeaderHint := false
  commitResult := false
  committed := false
  aborted := false

/-- `executed` lists the runs of pieces in order, and `destroyed` the transactions whose objects
were freed. -/
structure Server (Piece Ws DB : Type) where
  txs : Nat → Option (Tx Piece Ws)
  mdbTxns : Nat → Bool
  db : DB
  executed : List (Nat × List Piece)
  destroyed : List Nat

def Server.start (db : DB) : Server Piece Ws DB where
  txs := fun _ => none
  mdbTxns := fun _ => false
  db := db
  executed := []
  destroyed := []

def Server.executions (srv : Server Piece Ws DB) (id : Nat) : Nat :=
  srv.executed.countP fun e => e.1 = id

def Server.getOrCreateTx (eng : Engine Piece Ws DB) (srv : Server Piece Ws DB) (id : Nat) :
    Tx Piece Ws :=
  (srv.txs id).getD eng.freshTx

def Server.setTx (srv : Server Piece Ws DB) (id : Nat) (tx : Tx Piece Ws) :
    Server Piece Ws DB :=
  { srv with txs := Function.update srv.txs id (some tx) }

def Server.destroyTx (srv : Server Piece Ws DB) (id : Nat) : Server Piece Ws DB :=
  { srv with
    txs := Function.update srv.txs id none
    destroyed := srv.destroyed ++ [id] }

/-- The loop of `SchedulerClassic::Dispatch` over the pieces of a command. The first access to a
table opens the storage transaction of the id. -/
def Server.runPieces (eng : Engine Piece Ws DB) (srv : Server Piece Ws DB) (id : Nat)
    (tx : Tx Piece Ws) (ps : List Piece) : Server Piece Ws DB :=
  let r := eng.run ps tx.ws srv.db
  { srv with
    txs := Function.update srv.txs id (some { tx with ws := r.1, mdbTxn := tx.mdbTxn || !ps.isEmpty })
    mdbTxns := Function.update srv.mdbTxns id (srv.mdbTxns id || !ps.isEmpty)
    db := r.2
    executed := srv.executed ++ [(id, ps)] }

def Tx.addCommand (tx : Tx Piece Ws) (ps : List Piece) : Tx Piece Ws :=
  { tx with cmd := some (tx.cmd.getD [] ++ ps) }

def Server.closeTxn (srv : Server Piece Ws DB) (id : Nat) (tx : Tx Piece Ws) :
    Option (Server Piece Ws DB) :=
  if srv.mdbTxns id ∧ tx.mdbTxn then
    some
      { srv with
        txs := Function.update srv.txs id (some { tx with mdbTxn := false, commitResult := true })
        mdbTxns := Function.update srv.mdbTxns id false }
  else none

/-- The end of `CommitReplicated`, after the pieces ran or were found to have run. -/
def Server.finishCommit (srv : Server Piece Ws DB) (id : Nat) (tx : Tx Piece Ws) :
    Res → Option (Server Piece Ws DB)
  | .success => srv.closeTxn id { tx with committed := true }
  | .reject => srv.closeTxn id { tx with aborted := true }
  | .wrongLeader => some (srv.setTx id { tx with aborted := true, commitResult := true })

def Server.commitReplicated (eng : Engine Piece Ws DB) (srv : Server Piece Ws DB)
    (c : TpcCommitCommand Piece) : Option (Server Piece Ws DB) :=
  let tx := srv.getOrCreateTx eng c.txId
  if tx.commitResult then some (srv.setTx c.txId tx)
  else
    let tx := { tx with cmd := some (tx.cmd.getD c.cmd) }
    if tx.isLeaderHint then srv.finishCommit c.txId tx c.ret
    else if c.ret = .reject then some (srv.setTx c.txId { tx with commitResult := true })
    else
      let srv := srv.runPieces eng c.txId tx (tx.cmd.getD [])
      srv.finishCommit c.txId (srv.getOrCreateTx eng c.txId) c.ret

/-- `Next`, which `applyLogs` calls on each committed entry. -/
def Server.next (eng : Engine Piece Ws DB) (srv : Server Piece Ws DB) (e : Entry Piece) :
    Option (Server Piece Ws DB) :=
  e.commands.foldlM (fun srv c => srv.commitReplicated eng c) srv

/-- What becomes of a dispatched command after it ran: a read is answered under the lease, or the
replication coordinator drops it because the server is paused, refuses it, or takes it into the
log. -/
inductive Submission
  | lease
  | paused
  | refused
  | taken
deriving DecidableEq

/-- `SchedulerNone::Dispatch`, to the point where it waits for the commit. -/
def Server.dispatch (eng : Engine Piece Ws DB) (srv : Server Piece Ws DB) (id : Nat)
    (ps : List Piece) (sub : Submission) : Option (Server Piece Ws DB) :=
  let srv := srv.runPieces eng id ((srv.getOrCreateTx eng id).addCommand ps) ps
  if sub = .lease then some srv
  else
    let tx := srv.getOrCreateTx eng id
    let srv := srv.setTx id { tx with isLeaderHint := true }
    if sub = .refused then srv.commitReplicated eng ⟨id, .wrongLeader, tx.cmd.getD []⟩
    else some srv

structure Replica (Piece Ws DB : Type) where
  server : Server Piece Ws DB
  executeIndex : Nat
  minActiveSlot : Nat

def Replica.applied (r : Replica Piece Ws DB) (log : List (Entry Piece)) :
    List (TpcCommitCommand Piece) :=
  (log.take r.executeIndex).flatMap Entry.commands

structure System (Piece Ws DB : Type) (n : Nat) where
  log : List (Entry Piece)
  replica : Fin n → Replica Piece Ws DB

def System.init (db : DB) (n : Nat) : System Piece Ws DB n where
  log := []
  replica := fun _ => ⟨Server.start db, 0, 1⟩

def System.applied {n : Nat} (s : System Piece Ws DB n) (i : Fin n) :
    List (TpcCommitCommand Piece) :=
  (s.replica i).applied s.log

def System.set {n : Nat} (s : System Piece Ws DB n) (i : Fin n) (r : Replica Piece Ws DB) :
    System Piece Ws DB n :=
  { s with replica := Function.update s.replica i r }

inductive Event (Piece : Type) (n : Nat)
  | dispatch (i : Fin n) (id : Nat) (ps : List Piece) (sub : Submission)
  | commit (e : Entry Piece)
  | apply (i : Fin n)
  | trim (i : Fin n)

def Entry.commitId : Entry Piece → Option Nat
  | .commit c => some c.txId
  | .batch _ => none
  | .empty => none

/-- The loop at the end of `applyLogs` frees the slots that lie far behind. -/
def Replica.trim (r : Replica Piece Ws DB) (log : List (Entry Piece)) : Replica Piece Ws DB :=
  let slots := (log.take (r.executeIndex - 600001)).drop (r.minActiveSlot - 1)
  { r with
    server := (slots.filterMap Entry.commitId).foldl Server.destroyTx r.server
    minActiveSlot := max r.minActiveSlot (r.executeIndex - 600000) }

/-- Only `OnCommit` submits commands, and it submits them with `SUCCESS`. -/
def step (eng : Engine Piece Ws DB) {n : Nat} (s : System Piece Ws DB n) :
    Event Piece n → Option (System Piece Ws DB n)
  | .dispatch i id ps sub =>
    ((s.replica i).server.dispatch eng id ps sub).map fun srv =>
      s.set i { s.replica i with server := srv }
  | .commit e =>
    if e.commands.all fun c => c.ret = .success then some { s with log := s.log ++ [e] }
    else none
  | .apply i =>
    match s.log[(s.replica i).executeIndex]? with
    | some e =>
      ((s.replica i).server.next eng e).map fun srv =>
        s.set i
          { s.replica i with
            server := srv
            executeIndex := (s.replica i).executeIndex + 1 }
    | none => none
  | .trim i => some (s.set i ((s.replica i).trim s.log))

def appendEngine : Engine Nat Unit (List Nat) where
  start := ()
  execute := fun p _ db => ((), db ++ [p])

/-- What every path through the end of a commit leaves: the transaction is settled and nothing else
changed. -/
structure Settled (srv srv' : Server Piece Ws DB) (id : Nat) : Prop where
  other : ∀ k, k ≠ id → srv'.txs k = srv.txs k
  known : ∃ tx, srv'.txs id = some tx ∧ tx.commitResult = true
  db : srv'.db = srv.db
  executed : srv'.executed = srv.executed
  destroyed : srv'.destroyed = srv.destroyed

theorem Server.setTx_settled (srv : Server Piece Ws DB) (id : Nat) {tx : Tx Piece Ws}
    (h : tx.commitResult = true) : Settled srv (srv.setTx id tx) id where
  other := fun _ hk => Function.update_of_ne hk _ _
  known := ⟨tx, Function.update_self _ _ _, h⟩
  db := rfl
  executed := rfl
  destroyed := rfl

theorem Server.closeTxn_settled {srv srv' : Server Piece Ws DB} {id : Nat} {tx : Tx Piece Ws}
    (h : srv.closeTxn id tx = some srv') : Settled srv srv' id := by
  unfold Server.closeTxn at h
  split at h
  · cases h
    exact ⟨fun _ hk => Function.update_of_ne hk _ _, ⟨_, Function.update_self _ _ _, rfl⟩, rfl, rfl,
      rfl⟩
  · cases h

theorem Server.finishCommit_settled {srv srv' : Server Piece Ws DB} {id : Nat}
    {tx : Tx Piece Ws} {ret : Res} (h : srv.finishCommit id tx ret = some srv') :
    Settled srv srv' id := by
  cases ret with
  | success => exact Server.closeTxn_settled h
  | reject => exact Server.closeTxn_settled h
  | wrongLeader =>
    cases h
    exact Server.setTx_settled srv id rfl

/-- A commit either finds that the pieces ran (or must not run), or runs them once. -/
theorem Server.commitReplicated_cases {eng : Engine Piece Ws DB} {srv srv' : Server Piece Ws DB}
    {c : TpcCommitCommand Piece} (h : srv.commitReplicated eng c = some srv') :
    (Settled srv srv' c.txId ∧ ((srv.getOrCreateTx eng c.txId).commitResult = true ∨
      (srv.getOrCreateTx eng c.txId).isLeaderHint = true ∨ c.ret = .reject)) ∨
    ∃ tx ps, tx.ws = (srv.getOrCreateTx eng c.txId).ws ∧
      ps = (srv.getOrCreateTx eng c.txId).cmd.getD c.cmd ∧
      (srv.getOrCreateTx eng c.txId).commitResult = false ∧
      (srv.getOrCreateTx eng c.txId).isLeaderHint = false ∧
      Settled (srv.runPieces eng c.txId tx ps) srv' c.txId := by
  unfold Server.commitReplicated at h
  dsimp only at h
  split at h
  next hready =>
    cases h
    exact Or.inl ⟨Server.setTx_settled srv c.txId hready, Or.inl hready⟩
  next hready =>
    split at h
    next hhint => exact Or.inl ⟨Server.finishCommit_settled h, Or.inr (Or.inl hhint)⟩
    next hhint =>
      split at h
      next hret =>
        cases h
        exact Or.inl ⟨Server.setTx_settled srv c.txId rfl, Or.inr (Or.inr hret)⟩
      next =>
        have hset := Server.finishCommit_settled h
        refine Or.inr ⟨_, _, ?_, ?_, by simpa using hready, by simpa using hhint, hset⟩
        · rfl
        · rfl

theorem Server.dispatch_spec {eng : Engine Piece Ws DB} {srv srv' : Server Piece Ws DB} {id : Nat}
    {ps : List Piece} {sub : Submission} (h : srv.dispatch eng id ps sub = some srv') :
    (∀ k, k ≠ id → srv'.txs k = srv.txs k) ∧ (srv'.txs id).isSome = true ∧
      srv'.db = (eng.run ps (srv.getOrCreateTx eng id).ws srv.db).2 ∧
      srv'.executed = srv.executed ++ [(id, ps)] ∧ srv'.destroyed = srv.destroyed := by
  unfold Server.dispatch at h
  dsimp only at h
  split at h
  · cases h
    exact ⟨fun _ hk => Function.update_of_ne hk _ _, by simp [Server.runPieces], rfl, rfl, rfl⟩
  · split at h
    · rcases Server.commitReplicated_cases h with ⟨hset, -⟩ | ⟨tx, ps', -, -, -, hhint, -⟩
      · refine ⟨fun k hk => ?_, ?_, hset.db, hset.executed, hset.destroyed⟩
        · rw [hset.other k hk]
          simp [Server.setTx, Server.runPieces, Function.update_of_ne hk]
        · obtain ⟨tx, htx, -⟩ := hset.known
          rw [htx, Option.isSome_some]
      · simp [Server.getOrCreateTx, Server.setTx] at hhint
    · cases h
      refine ⟨fun k hk => ?_, by simp [Server.setTx], rfl, rfl, rfl⟩
      simp [Server.setTx, Server.runPieces, Function.update_of_ne hk]

theorem Server.dispatch_tx {eng : Engine Piece Ws DB} {srv srv' : Server Piece Ws DB} {id : Nat}
    {ps : List Piece} {sub : Submission} (h : srv.dispatch eng id ps sub = some srv') :
    ∃ tx, srv'.txs id = some tx ∧ tx.cmd = some ((srv.getOrCreateTx eng id).cmd.getD [] ++ ps) ∧
      ((srv.getOrCreateTx eng id).commitResult = true → tx.commitResult = true) := by
  unfold Server.dispatch at h
  dsimp only at h
  split at h
  · cases h
    exact ⟨_, Function.update_self _ _ _, rfl, fun hres => hres⟩
  · split at h
    · simp only [Server.commitReplicated, Server.getOrCreateTx, Server.setTx, Server.runPieces,
        Tx.addCommand, Function.update_self, Option.getD_some, Server.finishCommit, if_true] at h
      split at h
      · cases h
        exact ⟨_, Function.update_self _ _ _, rfl, fun hres => hres⟩
      · cases h
        exact ⟨_, Function.update_self _ _ _, rfl, fun _ => rfl⟩
    · cases h
      refine ⟨_, Function.update_self _ _ _, ?_, fun hres => ?_⟩
      · simp [Server.getOrCreateTx, Server.runPieces, Tx.addCommand]
      · simpa [Server.getOrCreateTx, Server.runPieces, Tx.addCommand] using hres

theorem Replica.applied_append {r : Replica Piece Ws DB} {log : List (Entry Piece)}
    (h : r.executeIndex ≤ log.length) (e : Entry Piece) :
    r.applied (log ++ [e]) = r.applied log := by
  unfold Replica.applied
  rw [List.take_append_of_le_length h]

theorem success_append {log : List (Entry Piece)} {e : Entry Piece}
    (h : ∀ e ∈ log, ∀ c ∈ e.commands, c.ret = .success)
    (he : (e.commands.all fun c => c.ret = .success) = true) :
    ∀ e' ∈ log ++ [e], ∀ c ∈ e'.commands, c.ret = .success := by
  intro e' he' c hc
  rcases List.mem_append.mp he' with he' | he'
  · exact h e' he' c hc
  · rw [List.mem_singleton.mp he'] at hc
    exact of_decide_eq_true (List.all_eq_true.mp he c hc)

theorem Replica.applied_succ {r : Replica Piece Ws DB} {log : List (Entry Piece)} {e : Entry Piece}
    (h : log[r.executeIndex]? = some e) (srv : Server Piece Ws DB) :
    Replica.applied { r with server := srv, executeIndex := r.executeIndex + 1 } log =
      r.applied log ++ e.commands := by
  unfold Replica.applied
  rw [List.take_add_one, h]
  simp

theorem System.forall_set {n : Nat} {s : System Piece Ws DB n} {i : Fin n}
    {r : Replica Piece Ws DB} {P : Replica Piece Ws DB → Prop} (h : ∀ j, P (s.replica j))
    (hr : P r) (j : Fin n) : P ((s.set i r).replica j) :=
  (Function.forall_update_iff s.replica fun _ => P).mpr ⟨hr, fun k _ => h k⟩ j

end Jetpack.Scheduler
