import Jetpack.Scheduler.ExactlyOnce

/-! The database of a replica as a replay of the commands it applied. Pieces run on dispatch, before
the log orders them, so a replica stays a replay of its log while dispatches only read. -/

namespace Jetpack.Scheduler

open Transition

variable {Piece Ws DB : Type} {n : Nat}

def replayStep (eng : Engine Piece Ws DB) (r : List Nat × DB) (c : TpcCommitCommand Piece) :
    List Nat × DB :=
  if c.txId ∈ r.1 then r else (r.1 ++ [c.txId], (eng.run c.cmd eng.start r.2).2)

/-- The commands in log order, each transaction id once. -/
def replay (eng : Engine Piece Ws DB) (db : DB) (cs : List (TpcCommitCommand Piece)) : DB :=
  (cs.foldl (replayStep eng) ([], db)).2

theorem replay_seen (eng : Engine Piece Ws DB) (cs : List (TpcCommitCommand Piece)) (id : Nat)
    (r : List Nat × DB) :
    id ∈ (cs.foldl (replayStep eng) r).1 ↔ id ∈ r.1 ∨ id ∈ cs.map TpcCommitCommand.txId := by
  induction cs generalizing r with
  | nil => simp
  | cons c cs ih =>
    rw [List.foldl_cons, ih, replayStep, List.map_cons, List.mem_cons]
    split
    next hc =>
      constructor
      · rintro (h | h)
        · exact Or.inl h
        · exact Or.inr (Or.inr h)
      · rintro (h | rfl | h)
        · exact Or.inl h
        · exact Or.inl hc
        · exact Or.inr h
    next => simp [or_assoc]

theorem replay_append (eng : Engine Piece Ws DB) (db : DB) (cs : List (TpcCommitCommand Piece))
    (c : TpcCommitCommand Piece) :
    replay eng db (cs ++ [c]) =
      if c.txId ∈ cs.map TpcCommitCommand.txId then replay eng db cs
      else (eng.run c.cmd eng.start (replay eng db cs)).2 := by
  have hseen := replay_seen eng cs c.txId ([], db)
  simp only [List.not_mem_nil, false_or] at hseen
  simp only [replay, List.foldl_append, List.foldl_cons, List.foldl_nil, replayStep, hseen]
  split <;> rfl

def Engine.ReadOnly (eng : Engine Piece Ws DB) (p : Piece) : Prop :=
  ∀ ws db, (eng.execute p ws db).2 = db

theorem Engine.run_readOnly {eng : Engine Piece Ws DB} {ps : List Piece}
    (h : ∀ p ∈ ps, eng.ReadOnly p) (ws : Ws) (db : DB) : (eng.run ps ws db).2 = db := by
  induction ps generalizing ws with
  | nil => rfl
  | cons p ps ih =>
    have hp := h p List.mem_cons_self ws db
    show (eng.run ps (eng.execute p ws db).1 (eng.execute p ws db).2).2 = db
    rw [hp]
    exact ih (fun q hq => h q (List.mem_cons_of_mem p hq)) _

/-- The server is the replay of `cs`: a transaction it knows was applied and is settled, or it has
run only reads of it. -/
structure Replayed (eng : Engine Piece Ws DB) (db : DB) (cs : List (TpcCommitCommand Piece))
    (srv : Server Piece Ws DB) : Prop where
  db_eq : srv.db = replay eng db cs
  known : ∀ id tx, srv.txs id = some tx →
    (id ∈ cs.map TpcCommitCommand.txId ∧ tx.commitResult = true) ∨
      ∃ ps, tx.cmd = some ps ∧ ∀ p ∈ ps, eng.ReadOnly p

/-- A committed command whose id the server knows was applied before or only reads; an id it does not
know is new. -/
def Server.Replayable (eng : Engine Piece Ws DB) (srv : Server Piece Ws DB)
    (cs : List (TpcCommitCommand Piece)) (c : TpcCommitCommand Piece) : Prop :=
  (srv.txs c.txId = none → c.txId ∉ cs.map TpcCommitCommand.txId) ∧
    (srv.txs c.txId ≠ none → c.txId ∈ cs.map TpcCommitCommand.txId ∨ ∀ p ∈ c.cmd, eng.ReadOnly p)

def Server.AllReplayable (eng : Engine Piece Ws DB) (srv : Server Piece Ws DB)
    (cs : List (TpcCommitCommand Piece)) : List (TpcCommitCommand Piece) → Prop
  | [] => True
  | c :: rest =>
    srv.Replayable eng cs c ∧ ∀ srv', srv.commitReplicated eng c = some srv' →
      srv'.AllReplayable eng (cs ++ [c]) rest

/-- Dispatches only read, and so does what is committed of a dispatched id; no id comes back after
its transaction was freed. -/
def ReadsAhead (eng : Engine Piece Ws DB) (s : System Piece Ws DB n) : Event Piece n → Prop
  | .dispatch _ _ ps _ => ∀ p ∈ ps, eng.ReadOnly p
  | .apply i => ∀ e, s.log[(s.replica i).executeIndex]? = some e →
    (s.replica i).server.AllReplayable eng (s.applied i) e.commands
  | .commit _ => True
  | .trim _ => True

theorem Replayed.dispatch {eng : Engine Piece Ws DB} {db : DB}
    {cs : List (TpcCommitCommand Piece)} {srv srv' : Server Piece Ws DB} {id : Nat}
    {ps : List Piece} {sub : Submission} (h : Replayed eng db cs srv)
    (hreads : ∀ p ∈ ps, eng.ReadOnly p) (hstep : srv.dispatch eng id ps sub = some srv') :
    Replayed eng db cs srv' := by
  obtain ⟨hother, -, hdb, -, -⟩ := Server.dispatch_spec hstep
  obtain ⟨tx', htx', hcmd, hres⟩ := Server.dispatch_tx hstep
  refine ⟨?_, fun k tx htx => ?_⟩
  · rw [hdb, Engine.run_readOnly hreads]
    exact h.db_eq
  · by_cases hki : k = id
    · subst hki
      obtain rfl : tx' = tx := Option.some.inj (htx'.symm.trans htx)
      cases hold : srv.txs k with
      | none =>
        simp only [Server.getOrCreateTx, hold, Option.getD_none, Engine.freshTx,
          List.nil_append] at hcmd
        exact Or.inr ⟨ps, hcmd, hreads⟩
      | some old =>
        simp only [Server.getOrCreateTx, hold, Option.getD_some] at hcmd hres
        rcases h.known k old hold with ⟨hk, hold'⟩ | ⟨qs, hqs, hro⟩
        · exact Or.inl ⟨hk, hres hold'⟩
        · rw [hqs, Option.getD_some] at hcmd
          refine Or.inr ⟨qs ++ ps, hcmd, fun p hp => ?_⟩
          exact (List.mem_append.mp hp).elim (hro p) (hreads p)
    · exact h.known k tx (hother k hki ▸ htx)

/-- The run of a known transaction's own pieces leaves the database alone, so a commit of a known id
never changes it. -/
theorem Replayed.commit_known {eng : Engine Piece Ws DB} {db : DB}
    {cs : List (TpcCommitCommand Piece)} {srv srv' : Server Piece Ws DB} {tx : Tx Piece Ws}
    {c : TpcCommitCommand Piece} (h : Replayed eng db cs srv) (htx : srv.txs c.txId = some tx)
    (hstep : srv.commitReplicated eng c = some srv') : srv'.db = srv.db := by
  have hget : srv.getOrCreateTx eng c.txId = tx := by simp [Server.getOrCreateTx, htx]
  rcases Server.commitReplicated_cases hstep with ⟨hset, -⟩ | ⟨tx', ps, -, hps, hres, -, hset⟩
  · exact hset.db
  · rw [hget] at hps hres
    rcases h.known c.txId tx htx with ⟨-, hready⟩ | ⟨qs, hqs, hro⟩
    · rw [hres] at hready
      cases hready
    · rw [hqs, Option.getD_some] at hps
      rw [hset.db]
      show (eng.run ps tx'.ws srv.db).2 = srv.db
      rw [hps, Engine.run_readOnly hro]

theorem Server.commit_new {eng : Engine Piece Ws DB} {srv srv' : Server Piece Ws DB}
    {c : TpcCommitCommand Piece} (htx : srv.txs c.txId = none) (hret : c.ret = .success)
    (hstep : srv.commitReplicated eng c = some srv') :
    srv'.db = (eng.run c.cmd eng.start srv.db).2 := by
  have hget : srv.getOrCreateTx eng c.txId = eng.freshTx := by simp [Server.getOrCreateTx, htx]
  rcases Server.commitReplicated_cases hstep with ⟨-, hwhy⟩ | ⟨tx, ps, hws, hps, -, -, hset⟩
  · rw [hget, hret] at hwhy
    simp [Engine.freshTx] at hwhy
  · rw [hget] at hws hps
    rw [hset.db]
    show (eng.run ps tx.ws srv.db).2 = _
    rw [hps, hws]
    rfl

theorem Server.commit_other {eng : Engine Piece Ws DB} {srv srv' : Server Piece Ws DB}
    {c : TpcCommitCommand Piece} (hstep : srv.commitReplicated eng c = some srv') :
    (∀ k, k ≠ c.txId → srv'.txs k = srv.txs k) ∧
      ∃ tx, srv'.txs c.txId = some tx ∧ tx.commitResult = true := by
  rcases Server.commitReplicated_cases hstep with ⟨hset, -⟩ | ⟨tx, ps, -, -, -, -, hset⟩
  · exact ⟨hset.other, hset.known⟩
  · refine ⟨fun k hk => ?_, hset.known⟩
    rw [hset.other k hk]
    exact Function.update_of_ne hk _ _

theorem Replayed.commitReplicated {eng : Engine Piece Ws DB} {db : DB}
    {cs : List (TpcCommitCommand Piece)} {srv srv' : Server Piece Ws DB}
    {c : TpcCommitCommand Piece} (h : Replayed eng db cs srv) (hok : srv.Replayable eng cs c)
    (hret : c.ret = .success) (hstep : srv.commitReplicated eng c = some srv') :
    Replayed eng db (cs ++ [c]) srv' := by
  obtain ⟨hother, tx', htx', hres'⟩ := Server.commit_other hstep
  refine ⟨?_, fun k tx htx => ?_⟩
  · rw [replay_append]
    cases hold : srv.txs c.txId with
    | none =>
      rw [if_neg (hok.1 hold), Server.commit_new hold hret hstep, h.db_eq]
    | some tx =>
      rw [h.commit_known hold hstep, h.db_eq]
      split
      next => rfl
      next hnew =>
        have hro := (hok.2 (by simp [hold])).resolve_left hnew
        rw [Engine.run_readOnly hro]
  · by_cases hk : k = c.txId
    · subst hk
      obtain rfl : tx' = tx := Option.some.inj (htx'.symm.trans htx)
      exact Or.inl ⟨by simp, hres'⟩
    · rw [hother k hk] at htx
      rcases h.known k tx htx with ⟨hin, hready⟩ | hro
      · exact Or.inl ⟨by simp [hin], hready⟩
      · exact Or.inr hro

theorem Replayed.commands {eng : Engine Piece Ws DB} {db : DB}
    {rest cs : List (TpcCommitCommand Piece)} {srv srv' : Server Piece Ws DB}
    (h : Replayed eng db cs srv) (hok : srv.AllReplayable eng cs rest)
    (hret : ∀ c ∈ rest, c.ret = .success)
    (hstep : rest.foldlM (fun srv c => srv.commitReplicated eng c) srv = some srv') :
    Replayed eng db (cs ++ rest) srv' := by
  induction rest generalizing srv cs with
  | nil =>
    cases hstep
    rw [List.append_nil]
    exact h
  | cons c rest ih =>
    rw [List.foldlM_cons] at hstep
    obtain ⟨mid, hmid, hstep⟩ := Option.bind_eq_some_iff.mp hstep
    have hnext := h.commitReplicated hok.1 (hret c List.mem_cons_self) hmid
    have hlast := ih hnext (hok.2 mid hmid) (fun d hd => hret d (List.mem_cons_of_mem c hd)) hstep
    simpa using hlast

theorem Replayed.destroyTxs {eng : Engine Piece Ws DB} {db : DB}
    {cs : List (TpcCommitCommand Piece)} {srv : Server Piece Ws DB} (h : Replayed eng db cs srv)
    (ids : List Nat) : Replayed eng db cs (ids.foldl Server.destroyTx srv) := by
  induction ids generalizing srv with
  | nil => exact h
  | cons id ids ih =>
    refine ih ⟨h.db_eq, fun k tx htx => ?_⟩
    by_cases hki : k = id
    · rw [hki] at htx
      simp [Server.destroyTx] at htx
    · exact h.known k tx (by simpa [Server.destroyTx, Function.update_of_ne hki] using htx)

structure ReplicaReplayed (eng : Engine Piece Ws DB) (db : DB) (log : List (Entry Piece))
    (r : Replica Piece Ws DB) : Prop where
  bound : r.executeIndex ≤ log.length
  replayed : Replayed eng db (r.applied log) r.server

def ReplayInv (eng : Engine Piece Ws DB) (db : DB) (s : System Piece Ws DB n) : Prop :=
  (∀ e ∈ s.log, ∀ c ∈ e.commands, c.ret = .success) ∧
    ∀ i, ReplicaReplayed eng db s.log (s.replica i)

theorem replayInv_init (eng : Engine Piece Ws DB) (db : DB) :
    ReplayInv eng db (System.init db n : System Piece Ws DB n) := by
  refine ⟨fun e he => (by cases he), fun i => ⟨Nat.zero_le _, rfl, fun k tx htx => ?_⟩⟩
  cases htx

theorem ReplicaReplayed.apply {eng : Engine Piece Ws DB} {db : DB} {log : List (Entry Piece)}
    {r : Replica Piece Ws DB} {srv : Server Piece Ws DB} {e : Entry Piece}
    (h : ReplicaReplayed eng db log r)
    (hlog : ∀ e ∈ log, ∀ c ∈ e.commands, c.ret = .success) (he : log[r.executeIndex]? = some e)
    (hok : r.server.AllReplayable eng (r.applied log) e.commands)
    (hstep : r.server.next eng e = some srv) :
    ReplicaReplayed eng db log
      { r with server := srv, executeIndex := r.executeIndex + 1 } := by
  obtain ⟨hlt, rfl⟩ := List.getElem?_eq_some_iff.mp he
  refine ⟨hlt, ?_⟩
  rw [Replica.applied_succ he]
  exact h.replayed.commands hok (hlog _ (List.getElem_mem hlt)) hstep

theorem step_replayInv {eng : Engine Piece Ws DB} {db : DB} {s t : System Piece Ws DB n}
    {e : Event Piece n} (h : ReplayInv eng db s) (hok : ReadsAhead eng s e)
    (hstep : step eng s e = some t) : ReplayInv eng db t := by
  obtain ⟨hlog, hrep⟩ := h
  cases e with
  | dispatch i id ps sub =>
    obtain ⟨srv, hsrv, rfl⟩ := Option.map_eq_some_iff.mp hstep
    exact ⟨hlog, System.forall_set hrep ⟨(hrep i).bound, (hrep i).replayed.dispatch hok hsrv⟩⟩
  | commit e =>
    simp only [step] at hstep
    split at hstep
    next hall =>
      cases hstep
      refine ⟨success_append hlog hall, fun i => ?_⟩
      have hi := hrep i
      refine ⟨le_trans hi.bound (by simp), ?_⟩
      show Replayed eng db ((s.replica i).applied (s.log ++ [e])) _
      rw [Replica.applied_append hi.bound]
      exact hi.replayed
    next => cases hstep
  | apply i =>
    simp only [step] at hstep
    split at hstep
    next e he =>
      obtain ⟨srv, hsrv, rfl⟩ := Option.map_eq_some_iff.mp hstep
      exact ⟨hlog, System.forall_set hrep ((hrep i).apply hlog he (hok e he) hsrv)⟩
    next => cases hstep
  | trim i =>
    cases hstep
    exact ⟨hlog, System.forall_set hrep ⟨(hrep i).bound, (hrep i).replayed.destroyTxs _⟩⟩

/-- On every run whose dispatches only read, the database of each replica is the replay of the
commands it applied, and replicas that applied equally much have equal databases. -/
theorem database_is_replay (eng : Engine Piece Ws DB) (db : DB) {s : System Piece Ws DB n}
    (h : ReachableWhere (step eng) (ReadsAhead eng) (System.init db n) s) :
    (∀ i, (s.replica i).server.db = replay eng db (s.applied i)) ∧
      ∀ i j, (s.replica i).executeIndex = (s.replica j).executeIndex →
        (s.replica i).server.db = (s.replica j).server.db := by
  have hinv : ReplayInv eng db s :=
    h.invariant (fun _ _ _ hs hok hstep => step_replayInv hs hok hstep) (replayInv_init eng db)
  have hdb : ∀ i, (s.replica i).server.db = replay eng db (s.applied i) :=
    fun i => (hinv.2 i).replayed.db_eq
  refine ⟨hdb, fun i j hij => ?_⟩
  rw [hdb i, hdb j]
  simp only [System.applied, Replica.applied, hij]

def readWriteEngine : Engine (Option Nat) Unit (List Nat) where
  start := ()
  execute := fun p _ db => ((), db ++ p.toList)

theorem readWriteEngine_readOnly : readWriteEngine.ReadOnly none := by
  intro ws db
  exact List.append_nil db

theorem exists_readAhead :
    ∃ s : System (Option Nat) Unit (List Nat) 3,
      ReachableWhere (step readWriteEngine) (ReadsAhead readWriteEngine) (System.init [] 3) s ∧
        (s.replica 0).server.db = [5] ∧
        (s.replica 0).executeIndex = (s.replica 1).executeIndex := by
  have hread : ∀ p ∈ [none], readWriteEngine.ReadOnly p := by
    intro p hp
    rw [List.mem_singleton.mp hp]
    exact readWriteEngine_readOnly
  refine ⟨_, Relation.ReflTransGen.head ⟨.dispatch 0 9 [none] .taken, hread, rfl⟩ <|
    .head ⟨.commit (.commit ⟨9, .success, [none]⟩), trivial, rfl⟩ <|
    .head ⟨.commit (.commit ⟨7, .success, [some 5]⟩), trivial, rfl⟩ <|
    .head ⟨.apply 0, ?_, rfl⟩ <| .head ⟨.apply 0, ?_, rfl⟩ <| .head ⟨.apply 1, ?_, rfl⟩ <|
    .head ⟨.apply 1, ?_, rfl⟩ .refl, rfl, rfl⟩
  all_goals
    intro e he
    cases he
    refine ⟨⟨fun hnone => ?_, fun hsome => ?_⟩, fun _ _ => trivial⟩
  · cases hnone
  · exact Or.inr hread
  · decide
  · exact absurd rfl hsome
  · decide
  · exact absurd rfl hsome
  · decide
  · exact absurd rfl hsome

theorem database_is_replay_after_read :
    ∃ s : System (Option Nat) Unit (List Nat) 3,
      ReachableWhere (step readWriteEngine) (ReadsAhead readWriteEngine) (System.init [] 3) s ∧
        (s.replica 0).server.db = [5] ∧ (s.replica 1).server.db = [5] := by
  obtain ⟨s, hs, hdb, hindex⟩ := exists_readAhead
  exact ⟨s, hs, hdb, ((database_is_replay readWriteEngine [] hs).2 0 1 hindex).symm.trans hdb⟩

theorem refused_write_changes_database :
    ∃ s : System Nat Unit (List Nat) 3, Reachable (step appendEngine) (System.init [] 3) s ∧
      (s.replica 0).server.db ≠ replay appendEngine [] (s.applied 0) ∧
      (s.replica 0).executeIndex = (s.replica 1).executeIndex ∧
      (s.replica 0).server.db ≠ (s.replica 1).server.db := by
  have hrun : (runWhere (step appendEngine) (fun _ _ => True) (System.init [] 3)
      [.dispatch 0 7 [1] .refused]).any
      (fun s => (s.replica 0).server.db ≠ replay appendEngine [] (s.applied 0) ∧
        (s.replica 0).executeIndex = (s.replica 1).executeIndex ∧
        (s.replica 0).server.db ≠ (s.replica 1).server.db) = true := by
    decide
  obtain ⟨s, hs, hbad⟩ := exists_reachableWhere hrun
  exact ⟨s, hs, of_decide_eq_true hbad⟩

end Jetpack.Scheduler
