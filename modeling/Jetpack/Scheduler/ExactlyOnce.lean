import Jetpack.Scheduler.Server

/-! How often a server executes a transaction id. The log deduplicates by the transaction object, but
a dispatch runs its pieces without asking it. -/

namespace Jetpack.Scheduler

open Transition

variable {Piece Ws DB : Type} {n : Nat}

/-- The id of a committed command is new on the server, or its transaction object says that it
ran. -/
def Server.ranOrNew (srv : Server Piece Ws DB) (c : TpcCommitCommand Piece) : Bool :=
  match srv.txs c.txId with
  | some tx => tx.isLeaderHint || tx.commitResult
  | none => !srv.destroyed.contains c.txId

def Server.allRanOrNew (eng : Engine Piece Ws DB) (srv : Server Piece Ws DB) :
    List (TpcCommitCommand Piece) → Bool
  | [] => true
  | c :: cs =>
    srv.ranOrNew c && match srv.commitReplicated eng c with
      | some srv' => srv'.allRanOrNew eng cs
      | none => true

/-- A dispatch reaches a server before anything else of its id, and no id is applied on a server that
answered it under the read lease or freed its transaction. -/
def FirstContact (eng : Engine Piece Ws DB) (s : System Piece Ws DB n) : Event Piece n → Prop
  | .dispatch i id _ _ =>
    (s.replica i).server.txs id = none ∧ id ∉ (s.replica i).server.destroyed
  | .apply i =>
    (s.log[(s.replica i).executeIndex]?).all
      (fun e => (s.replica i).server.allRanOrNew eng e.commands) = true
  | .commit _ => True
  | .trim _ => True

instance [DecidableEq Piece] [DecidableEq Ws] (eng : Engine Piece Ws DB)
    (s : System Piece Ws DB n) (e : Event Piece n) : Decidable (FirstContact eng s e) :=
  match e with
  | .dispatch _ _ _ _ => inferInstanceAs (Decidable (_ ∧ _))
  | .apply _ => inferInstanceAs (Decidable (_ = true))
  | .commit _ => isTrue trivial
  | .trim _ => isTrue trivial

def Server.ran (srv : Server Piece Ws DB) : List Nat :=
  srv.executed.map Prod.fst

/-- No id ran twice, and the ids that ran are those of the transaction objects, present or freed. -/
structure Once (srv : Server Piece Ws DB) : Prop where
  nodup : srv.ran.Nodup
  known : ∀ id, (srv.txs id).isSome = true → id ∈ srv.ran
  traced : ∀ id ∈ srv.ran, (srv.txs id).isSome = true ∨ id ∈ srv.destroyed

theorem Once.start (db : DB) : Once (Server.start db : Server Piece Ws DB) where
  nodup := List.nodup_nil
  known := by
    intro id h
    cases h
  traced := by
    intro id h
    cases h

theorem Once.settled {srv srv' : Server Piece Ws DB} {id : Nat} (h : Once srv)
    (hset : Settled srv srv' id) (hid : id ∈ srv.ran) : Once srv' := by
  have hran : srv'.ran = srv.ran := congrArg (List.map Prod.fst) hset.executed
  obtain ⟨tx, htx, -⟩ := hset.known
  refine ⟨hran ▸ h.nodup, fun k hk => ?_, fun k hk => ?_⟩
  · rw [hran]
    by_cases hki : k = id
    · exact hki ▸ hid
    · exact h.known k (hset.other k hki ▸ hk)
  · rw [hset.destroyed]
    by_cases hki : k = id
    · exact Or.inl (by rw [hki, htx, Option.isSome_some])
    · rw [hset.other k hki]
      exact h.traced k (hran ▸ hk)

theorem Once.runNew {srv srv' : Server Piece Ws DB} {id : Nat} {ps : List Piece} (h : Once srv)
    (hnew : id ∉ srv.ran) (hother : ∀ k, k ≠ id → srv'.txs k = srv.txs k)
    (hknown : (srv'.txs id).isSome = true)
    (hexec : srv'.executed = srv.executed ++ [(id, ps)])
    (hdest : srv'.destroyed = srv.destroyed) : Once srv' := by
  have hran : srv'.ran = srv.ran ++ [id] := by simp [Server.ran, hexec]
  refine ⟨?_, fun k hk => ?_, fun k hk => ?_⟩
  · rw [hran, List.nodup_append_comm]
    exact List.nodup_cons.mpr ⟨hnew, h.nodup⟩
  · rw [hran, List.mem_append, List.mem_singleton]
    by_cases hki : k = id
    · exact Or.inr hki
    · exact Or.inl (h.known k (hother k hki ▸ hk))
  · rw [hran, List.mem_append, List.mem_singleton] at hk
    rw [hdest]
    by_cases hki : k = id
    · exact Or.inl (hki ▸ hknown)
    · rw [hother k hki]
      exact h.traced k (hk.resolve_right hki)

theorem Once.dispatch {eng : Engine Piece Ws DB} {srv srv' : Server Piece Ws DB} {id : Nat}
    {ps : List Piece} {sub : Submission} (h : Once srv) (hnone : srv.txs id = none)
    (hdest : id ∉ srv.destroyed) (hstep : srv.dispatch eng id ps sub = some srv') :
    Once srv' ∧ ∀ k ∈ srv.ran, k ∈ srv'.ran := by
  obtain ⟨hother, hknown, -, hexec, hdest'⟩ := Server.dispatch_spec hstep
  have hnew : id ∉ srv.ran := by
    intro hid
    rcases h.traced id hid with hsome | hin
    · rw [hnone] at hsome
      cases hsome
    · exact hdest hin
  refine ⟨h.runNew hnew hother hknown hexec hdest', fun k hk => ?_⟩
  simp only [Server.ran, hexec, List.map_append, List.mem_append]
  exact Or.inl hk

theorem Once.commitReplicated {eng : Engine Piece Ws DB} {srv srv' : Server Piece Ws DB}
    {c : TpcCommitCommand Piece} (h : Once srv) (hok : srv.ranOrNew c = true) (hret : c.ret = .success)
    (hstep : srv.commitReplicated eng c = some srv') :
    Once srv' ∧ (∀ k ∈ srv.ran, k ∈ srv'.ran) ∧ c.txId ∈ srv'.ran := by
  unfold Server.ranOrNew at hok
  split at hok
  next tx htx =>
    -- the transaction object is there, so the pieces ran when it was made
    have hid : c.txId ∈ srv.ran := h.known c.txId (by rw [htx, Option.isSome_some])
    have hget : srv.getOrCreateTx eng c.txId = tx := by simp [Server.getOrCreateTx, htx]
    rcases Server.commitReplicated_cases hstep with ⟨hset, -⟩ | ⟨_, _, -, -, hres, hhint, -⟩
    · have hran : srv'.ran = srv.ran := congrArg (List.map Prod.fst) hset.executed
      exact ⟨h.settled hset hid, fun k hk => hran ▸ hk, hran ▸ hid⟩
    · rw [hget] at hres hhint
      rw [hres, hhint] at hok
      simp at hok
  next htx =>
    have hget : srv.getOrCreateTx eng c.txId = eng.freshTx := by simp [Server.getOrCreateTx, htx]
    have hnew : c.txId ∉ srv.ran := by
      intro hid
      rcases h.traced _ hid with hsome | hin
      · rw [htx] at hsome
        cases hsome
      · simp [hin] at hok
    rcases Server.commitReplicated_cases hstep with ⟨-, hwhy⟩ | ⟨tx, ps, -, -, -, -, hset⟩
    · rw [hget, hret] at hwhy
      simp [Engine.freshTx] at hwhy
    · have hrun : Once (srv.runPieces eng c.txId tx ps) :=
        h.runNew hnew (fun k hk => Function.update_of_ne hk _ _) (by simp [Server.runPieces]) rfl rfl
      have hin : c.txId ∈ (srv.runPieces eng c.txId tx ps).ran := by
        simp [Server.ran, Server.runPieces]
      have hran : srv'.ran = (srv.runPieces eng c.txId tx ps).ran :=
        congrArg (List.map Prod.fst) hset.executed
      refine ⟨hrun.settled hset hin, fun k hk => ?_, hran ▸ hin⟩
      rw [hran]
      simp only [Server.ran, Server.runPieces, List.map_append, List.mem_append]
      exact Or.inl hk

theorem Once.commands {eng : Engine Piece Ws DB} {cs : List (TpcCommitCommand Piece)}
    {srv srv' : Server Piece Ws DB} (h : Once srv) (hok : srv.allRanOrNew eng cs = true)
    (hret : ∀ c ∈ cs, c.ret = .success)
    (hstep : cs.foldlM (fun srv c => srv.commitReplicated eng c) srv = some srv') :
    Once srv' ∧ (∀ k ∈ srv.ran, k ∈ srv'.ran) ∧ ∀ c ∈ cs, c.txId ∈ srv'.ran := by
  induction cs generalizing srv with
  | nil =>
    cases hstep
    exact ⟨h, fun k hk => hk, fun c hc => (by cases hc)⟩
  | cons c cs ih =>
    rw [List.foldlM_cons] at hstep
    obtain ⟨mid, hmid, hstep⟩ := Option.bind_eq_some_iff.mp hstep
    simp only [Server.allRanOrNew, hmid, Bool.and_eq_true] at hok
    obtain ⟨hone, hsub, hin⟩ := h.commitReplicated hok.1 (hret c List.mem_cons_self) hmid
    obtain ⟨hfin, hsub', hall⟩ :=
      ih hone hok.2 (fun d hd => hret d (List.mem_cons_of_mem c hd)) hstep
    refine ⟨hfin, fun k hk => hsub' k (hsub k hk), fun d hd => ?_⟩
    rcases List.mem_cons.mp hd with rfl | hd
    · exact hsub' _ hin
    · exact hall d hd

theorem Once.destroyTx {srv : Server Piece Ws DB} (h : Once srv) (id : Nat) :
    Once (srv.destroyTx id) := by
  refine ⟨h.nodup, fun k hk => ?_, fun k hk => ?_⟩
  · by_cases hki : k = id
    · rw [hki] at hk
      simp [Server.destroyTx] at hk
    · exact h.known k (by simpa [Server.destroyTx, Function.update_of_ne hki] using hk)
  · by_cases hki : k = id
    · exact Or.inr (by simp [Server.destroyTx, hki])
    · rcases h.traced k hk with hsome | hin
      · exact Or.inl (by simpa [Server.destroyTx, Function.update_of_ne hki] using hsome)
      · exact Or.inr (by simp [Server.destroyTx, hin])

theorem Once.destroyTxs {srv : Server Piece Ws DB} (h : Once srv) (ids : List Nat) :
    Once (ids.foldl Server.destroyTx srv) ∧ (ids.foldl Server.destroyTx srv).ran = srv.ran := by
  induction ids generalizing srv with
  | nil => exact ⟨h, rfl⟩
  | cons id ids ih => exact ih (h.destroyTx id)

/-- A replica ran what it applied, and nothing twice. -/
structure RanApplied (log : List (Entry Piece)) (r : Replica Piece Ws DB) : Prop where
  bound : r.executeIndex ≤ log.length
  once : Once r.server
  applied : ∀ c ∈ r.applied log, c.txId ∈ r.server.ran

def Inv (s : System Piece Ws DB n) : Prop :=
  (∀ e ∈ s.log, ∀ c ∈ e.commands, c.ret = .success) ∧ ∀ i, RanApplied s.log (s.replica i)

theorem inv_init (db : DB) : Inv (System.init db n : System Piece Ws DB n) := by
  refine ⟨fun e he => (by cases he), fun i => ⟨Nat.zero_le _, Once.start db, fun c hc => ?_⟩⟩
  cases hc

theorem RanApplied.dispatch {eng : Engine Piece Ws DB} {log : List (Entry Piece)}
    {r : Replica Piece Ws DB} {srv : Server Piece Ws DB} {id : Nat} {ps : List Piece}
    {sub : Submission} (h : RanApplied log r) (hnone : r.server.txs id = none)
    (hdest : id ∉ r.server.destroyed) (hstep : r.server.dispatch eng id ps sub = some srv) :
    RanApplied log { r with server := srv } := by
  obtain ⟨honce, hsub⟩ := h.once.dispatch hnone hdest hstep
  exact ⟨h.bound, honce, fun c hc => hsub _ (h.applied c hc)⟩

theorem RanApplied.apply {eng : Engine Piece Ws DB} {log : List (Entry Piece)}
    {r : Replica Piece Ws DB} {srv : Server Piece Ws DB} {e : Entry Piece} (h : RanApplied log r)
    (hlog : ∀ e ∈ log, ∀ c ∈ e.commands, c.ret = .success) (he : log[r.executeIndex]? = some e)
    (hok : r.server.allRanOrNew eng e.commands = true) (hstep : r.server.next eng e = some srv) :
    RanApplied log { r with server := srv, executeIndex := r.executeIndex + 1 } := by
  obtain ⟨hlt, rfl⟩ := List.getElem?_eq_some_iff.mp he
  obtain ⟨honce, hsub, hall⟩ :=
    h.once.commands hok (hlog _ (List.getElem_mem hlt)) hstep
  refine ⟨hlt, honce, fun c hc => ?_⟩
  rw [Replica.applied_succ he] at hc
  rcases List.mem_append.mp hc with hc | hc
  · exact hsub _ (h.applied c hc)
  · exact hall c hc

theorem RanApplied.trim {log : List (Entry Piece)} {r : Replica Piece Ws DB}
    (h : RanApplied log r) : RanApplied log (r.trim log) := by
  obtain ⟨honce, hran⟩ := h.once.destroyTxs
    (((log.take (r.executeIndex - 600001)).drop (r.minActiveSlot - 1)).filterMap Entry.commitId)
  refine ⟨h.bound, honce, fun c hc => ?_⟩
  show c.txId ∈ Server.ran _
  unfold Replica.trim
  dsimp only
  rw [hran]
  exact h.applied c hc

theorem step_inv {eng : Engine Piece Ws DB} {s t : System Piece Ws DB n} {e : Event Piece n}
    (h : Inv s) (hok : FirstContact eng s e) (hstep : step eng s e = some t) : Inv t := by
  obtain ⟨hlog, hrep⟩ := h
  cases e with
  | dispatch i id ps sub =>
    obtain ⟨srv, hsrv, rfl⟩ := Option.map_eq_some_iff.mp hstep
    exact ⟨hlog, System.forall_set hrep ((hrep i).dispatch hok.1 hok.2 hsrv)⟩
  | commit e =>
    simp only [step] at hstep
    split at hstep
    next hall =>
      cases hstep
      refine ⟨success_append hlog hall, fun i => ?_⟩
      have hi := hrep i
      refine ⟨le_trans hi.bound (by simp), hi.once, fun c hc => ?_⟩
      exact hi.applied c (Replica.applied_append hi.bound e ▸ hc)
    next => cases hstep
  | apply i =>
    simp only [step] at hstep
    split at hstep
    next e he =>
      obtain ⟨srv, hsrv, rfl⟩ := Option.map_eq_some_iff.mp hstep
      have hran : (s.replica i).server.allRanOrNew eng e.commands = true := by
        simpa [FirstContact, he] using hok
      exact ⟨hlog, System.forall_set hrep ((hrep i).apply hlog he hran hsrv)⟩
    next => cases hstep
  | trim i =>
    cases hstep
    exact ⟨hlog, System.forall_set hrep (hrep i).trim⟩

theorem executions_eq_count (srv : Server Piece Ws DB) (id : Nat) :
    srv.executions id = srv.ran.count id := by
  simp only [Server.executions, Server.ran, List.count, List.countP_map]
  rfl

/-- On every run in which dispatches come first, no server executes an id twice, and each server has
executed every command it applied, whether or not it once refused it. -/
theorem executed_exactly_once (eng : Engine Piece Ws DB) (db : DB) {s : System Piece Ws DB n}
    (h : ReachableWhere (step eng) (FirstContact eng) (System.init db n) s) (i : Fin n) :
    (∀ id, (s.replica i).server.executions id ≤ 1) ∧
      ∀ c ∈ s.applied i, (s.replica i).server.executions c.txId = 1 := by
  have hinv : Inv s :=
    h.invariant (fun _ _ _ hs hok hstep => step_inv hs hok hstep) (inv_init db)
  have hi := hinv.2 i
  simp only [executions_eq_count]
  exact ⟨fun id => List.nodup_iff_count_le_one.mp hi.once.nodup id,
    fun c hc => List.count_eq_one_of_mem hi.once.nodup (hi.applied c hc)⟩

/-- Server `b` refuses a command that server `a` then takes into the log. -/
def refusedThenApplied (a b : Fin n) : List (Event Nat n) :=
  [.dispatch b 7 [1] .refused, .dispatch a 7 [1] .taken, .commit (.commit ⟨7, .success, [1]⟩),
    .apply a, .apply b]

theorem refused_executed_exactly_once :
    ∃ s : System Nat Unit (List Nat) 3,
      ReachableWhere (step appendEngine) (FirstContact appendEngine) (System.init [] 3) s ∧
        (s.applied 1).map TpcCommitCommand.txId = [7] ∧
        ∀ c ∈ s.applied 1, (s.replica 1).server.executions c.txId = 1 := by
  have hrun : (runWhere (step appendEngine) (FirstContact appendEngine) (System.init [] 3)
      (refusedThenApplied 0 1)).any
      (fun s => (s.applied 1).map TpcCommitCommand.txId = [7]) = true := by
    decide
  obtain ⟨s, hs, hids⟩ := exists_reachableWhere hrun
  exact ⟨s, hs, of_decide_eq_true hids, (executed_exactly_once appendEngine [] hs 1).2⟩

/-- A recovered command reaches the server that applied it. -/
def dispatchedAgain (i : Fin n) : List (Event Nat n) :=
  [.dispatch i 7 [1] .taken, .commit (.commit ⟨7, .success, [1]⟩), .apply i,
    .dispatch i 7 [1] .taken]

theorem applied_executed_twice :
    ∃ s : System Nat Unit (List Nat) 3, Reachable (step appendEngine) (System.init [] 3) s ∧
      ∃ c ∈ s.applied 0, (s.replica 0).server.executions c.txId = 2 := by
  have hrun : (runWhere (step appendEngine) (fun _ _ => True) (System.init [] 3)
      (dispatchedAgain 0)).any
      (fun s => (s.applied 0).any fun c => (s.replica 0).server.executions c.txId = 2) = true := by
    decide
  obtain ⟨s, hs, htwice⟩ := exists_reachableWhere hrun
  obtain ⟨c, hc, hc2⟩ := List.any_eq_true.mp htwice
  exact ⟨s, hs, c, hc, of_decide_eq_true hc2⟩

end Jetpack.Scheduler
