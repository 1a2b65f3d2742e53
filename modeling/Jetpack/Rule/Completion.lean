import Jetpack.Rule.Evidence

/-! One completion for each command of a coordinator. A command that is not refused is reported once
and leaves the phase counter where the next one starts; the branch for a refused one reports it
without leaving the switch and stops one phase short. -/

namespace Jetpack.Rule

open Transition

/-- A coordinator with `rule_outstanding_dispatches_` of its client worker. -/
structure Worker where
  system : System
  outstanding : Int
deriving DecidableEq

def Worker.init : Worker := ⟨System.init, 0⟩

/-- What a step adds to the counter: one when the phase moves on from `INIT_END`, where the branch
that dispatches counts up, and minus one for each `End()`. -/
def counted (s t : System) : Int :=
  (if phaseOf s.coord.phase = .initEnd ∧ t.coord.phase ≠ s.coord.phase then 1 else 0) -
    (t.reports.length - s.reports.length)

def Worker.step (s : Worker) (e : Event) : Option Worker :=
  (Rule.step s.system e).map fun t => ⟨t, s.outstanding + counted s.system t⟩

def System.callbacks (s : System) (cmd : Nat) : Nat :=
  s.reports.countP fun r => r.evidence.cmd == cmd

def System.completed (s : System) : Nat := (s.reports.map fun r => r.evidence.cmd).dedup.length

/-- Commands are numbered from one in the order in which they start. A command under way has a piece
that was requested in the current phase and not acknowledged. -/
structure OneCompletion (s : Worker) : Prop where
  once : ∀ cmd, 1 ≤ cmd → cmd ≤ s.system.coord.cmdId →
    s.system.callbacks cmd = if s.system.active = true ∧ cmd = s.system.coord.cmdId then 0 else 1
  outstanding : s.outstanding = s.system.coord.cmdId - s.system.completed
  phase : s.system.active = false → phaseOf s.system.coord.phase = .initEnd
  waiting : s.system.active = true → ∃ i d, (i, false) ∈ s.system.coord.dispatchAcks ∧
    d ∈ s.system.dispatches ∧ d.phase = s.system.coord.phase ∧ i ∈ d.pieces

def TxRequest.ready (req : TxRequest) : Nat :=
  req.pieces.countP fun p => p.status == .dispatchable

/-- The counters of a new transaction are right, and there is something to send. -/
def TxRequest.wellFormed (req : TxRequest) : Bool :=
  req.nPiecesDispatchable == req.ready && decide (0 < req.ready) &&
    decide (req.nPiecesDispatchable ≤ req.nPiecesAll)

/-- No dispatch of the command under way is answered `REJECT` or `WRONG_LEADER`. -/
def notRefused (s : System) : Event → Bool
  | .doTxAsync req _ => req.wellFormed
  | .dispatchAck d res _ _ => !(d.phase == s.coord.phase && res != .success)
  | .outcome _ _ _ => true

def TxData.Counted (tx : TxData) : Prop :=
  tx.nPiecesDispatchable = tx.nPiecesDispatched +
    tx.pieces.countP fun p => p.status == .dispatchable

theorem takeReady_count (ps : List Piece) (max : Nat) :
    (takeReady ps max).1.length + (takeReady ps max).2.countP (fun p => p.status == .dispatchable) =
      ps.countP fun p => p.status == .dispatchable := by
  induction ps generalizing max with
  | nil => cases max <;> rfl
  | cons p ps ih =>
    cases max with
    | zero => simp [takeReady]
    | succ max =>
      unfold takeReady
      split
      · next hp =>
        have hrest := ih max
        have hhead : (p :: ps).countP (fun p => p.status == .dispatchable) =
            ps.countP (fun p => p.status == .dispatchable) + 1 := by simp [hp]
        rw [hhead, List.length_cons, List.countP_cons_of_neg (by simp)]
        omega
      · next hp =>
        have hrest := ih (max + 1)
        rw [List.countP_cons_of_neg (by simpa using hp), List.countP_cons_of_neg (by simpa using hp)]
        exact hrest

theorem takeReady_ne_nil {ps : List Piece} (max : Nat)
    (h : 0 < ps.countP fun p => p.status == .dispatchable) : (takeReady ps (max + 1)).1 ≠ [] := by
  induction ps with
  | nil => simp at h
  | cons p ps ih =>
    unfold takeReady
    split
    · simp
    · next hp =>
      rw [List.countP_cons_of_neg (by simpa using hp)] at h
      exact ih h

theorem TxData.Counted.getReadyPiecesData {tx tx' : TxData} {max : Nat} {ready : List Piece}
    (h : tx.Counted) (hready : tx.getReadyPiecesData max = some (ready, tx')) : tx'.Counted := by
  unfold TxData.getReadyPiecesData at hready
  split at hready
  · split at hready
    · cases hready
      exact h
    · cases hready
      have hcount := takeReady_count tx.pieces max
      unfold Counted at h ⊢
      dsimp only
      omega
  · cases hready

theorem TxData.Counted.ready_ne_nil {tx tx' : TxData} {max : Nat} {ready : List Piece}
    (h : tx.Counted) (hmore : tx.nPiecesDispatched < tx.nPiecesDispatchable)
    (hall : tx.nPiecesDispatchable ≤ tx.nPiecesAll)
    (hready : tx.getReadyPiecesData (max + 1) = some (ready, tx')) : ready ≠ [] := by
  unfold TxData.getReadyPiecesData at hready
  split at hready
  · split at hready
    · next hnone => omega
    · cases hready
      refine takeReady_ne_nil max ?_
      unfold Counted at h
      omega
  · cases hready

theorem countP_woken (ps : List Piece) (ready : List Nat) :
    (ps.map fun p => if p.status = .waiting ∧ ready.contains p.innId then
        { p with status := .dispatchable } else p).countP (fun p => p.status == .dispatchable) =
      ps.countP (fun p => p.status == .dispatchable) +
        (ps.filter fun p => p.status = .waiting ∧ ready.contains p.innId).length := by
  induction ps with
  | nil => rfl
  | cons p ps ih =>
    rw [List.map_cons, List.countP_cons, List.countP_cons, ih]
    by_cases hp : p.status = .waiting ∧ ready.contains p.innId = true
    · rw [List.filter_cons_of_pos (by simpa using hp), List.length_cons]
      simp only [hp, and_self, if_true, beq_self_eq_true]
      simp
      omega
    · rw [List.filter_cons_of_neg (by simpa using hp)]
      simp only [hp, if_false]
      omega

theorem TxData.Counted.merge {tx tx' : TxData} {o : Output} (h : tx.Counted)
    (hm : tx.merge o = some tx') : tx'.Counted := by
  unfold TxData.merge at hm
  split at hm
  · cases hm
  split at hm
  · cases hm
    have hwoken := countP_woken tx.pieces o.ready
    unfold Counted at h ⊢
    simp only [TxData.handleOutput, List.countP_append, hwoken]
    have hadded : (o.added.map fun q => (⟨q.1, q.2, .dispatchable⟩ : Piece)).countP
        (fun p => p.status == .dispatchable) = o.added.length := by
      rw [List.countP_map, List.countP_eq_length.mpr]
      simp
    omega
  · cases hm

/-- Every piece in the table of acknowledgements was requested in the current phase. -/
def Requested (m : Coordinator) (ds : List Dispatch) : Prop :=
  ∀ i b, (i, b) ∈ m.dispatchAcks → ∃ d ∈ ds, d.phase = m.phase ∧ i ∈ d.pieces

theorem takeOutputs_requested {os : List Output} {m m' : Coordinator} {ds : List Dispatch}
    (hreq : Requested m ds) (hcount : m.cmd.Counted) (h : m.takeOutputs os = some m') :
    Requested m' ds ∧ m'.cmd.Counted ∧ m'.phase = m.phase := by
  induction os generalizing m with
  | nil =>
    cases h
    exact ⟨hreq, hcount, rfl⟩
  | cons o os ih =>
    unfold Coordinator.takeOutputs at h
    split at h
    · next hlookup =>
      obtain ⟨tx, htx, h⟩ := Option.bind_eq_some_iff.mp h
      have hmem : (o.innId, false) ∈ m.dispatchAcks := by
        obtain ⟨before, after, hsplit, -⟩ := List.lookup_eq_some_iff.mp hlookup
        simp [hsplit]
      have hkeys : ∀ i b, (i, b) ∈ setAck m.dispatchAcks o.innId true →
          ∃ d ∈ ds, d.phase = m.phase ∧ i ∈ d.pieces := by
        intro i b hi
        rcases mem_setAck.mp hi with hi | ⟨hi, -⟩
        · cases hi
          exact hreq o.innId false hmem
        · exact hreq i b hi
      have hrest := ih (m := { m with cmd := tx, dispatchAcks := setAck m.dispatchAcks o.innId true })
        hkeys (hcount.merge htx) h
      exact hrest
    · cases h

theorem exists_request {m : Coordinator} {ready : List Piece} {p : Piece} (hp : p ∈ ready) :
    ∃ d ∈ m.requests ready, d.phase = m.phase ∧ p.innId ∈ d.pieces := by
  refine ⟨⟨m.cmdId, m.phase, p.parId, (ready.filter fun q => q.parId = p.parId).map Piece.innId⟩,
    ?_, rfl, ?_⟩
  · refine List.mem_map.mpr ⟨p.parId, ?_, rfl⟩
    exact List.mem_dedup.mpr (List.mem_map_of_mem hp)
  · exact List.mem_map_of_mem (List.mem_filter.mpr ⟨hp, by simp⟩)

theorem dispatchPieces_requested {m : Coordinator} {ds : List Dispatch} {ready : List Piece}
    {tx : TxData} (hreq : Requested m ds) :
    Requested (m.dispatchPieces ready tx).1 (ds ++ m.requests ready) := by
  intro i b hi
  rcases mem_setAcks.mp hi with ⟨hi, -⟩ | ⟨-, p, hp, rfl⟩
  · obtain ⟨d, hd, hphase, hmem⟩ := hreq i b hi
    exact ⟨d, List.mem_append_left _ hd, hphase, hmem⟩
  · obtain ⟨d, hd, hphase, hmem⟩ := exists_request hp
    exact ⟨d, List.mem_append_right _ hd, hphase, hmem⟩

theorem dispatchPieces_unacked {m : Coordinator} {ready : List Piece} {tx : TxData}
    (h : ready ≠ []) : ∃ i, (i, false) ∈ (m.dispatchPieces ready tx).1.dispatchAcks := by
  obtain ⟨p, hp⟩ := List.exists_mem_of_ne_nil _ h
  exact ⟨p.innId, mem_setAcks.mpr (Or.inr ⟨rfl, p, hp, rfl⟩)⟩

/-- What a step without refusal does: a command starts, nothing that is observed changes, or the
command under way completes. -/
inductive Moves (s t : System) : Prop
  | starts (idle : s.active = false) (active : t.active = true) (reports : t.reports = s.reports)
      (cmdId : t.coord.cmdId = s.coord.cmdId + 1) (phase : t.coord.phase = s.coord.phase + 1)
  | stays (active : t.active = s.active) (reports : t.reports = s.reports)
      (cmdId : t.coord.cmdId = s.coord.cmdId) (phase : t.coord.phase = s.coord.phase)
  | completes (busy : s.active = true) (active : t.active = false)
      (reports : ∃ r, t.reports = s.reports ++ [r] ∧ r.evidence.cmd = s.coord.cmdId)
      (cmdId : t.coord.cmdId = s.coord.cmdId) (phase : t.coord.phase = s.coord.phase + 2)

/-- The command under way waits for a piece, and its books are in order. -/
structure Waiting (s : System) : Prop where
  counted : s.coord.cmd.Counted
  requested : Requested s.coord s.dispatches
  unacked : ∃ i, (i, false) ∈ s.coord.dispatchAcks

theorem Moves.congr {s s₁ t : System} (h : Moves s₁ t) (ha : s₁.active = s.active)
    (hr : s₁.reports = s.reports) (hc : s₁.coord.cmdId = s.coord.cmdId)
    (hp : s₁.coord.phase = s.coord.phase) : Moves s t := by
  cases h with
  | starts idle active reports cmdId phase =>
    rw [ha] at idle
    rw [hr] at reports
    rw [hc] at cmdId
    rw [hp] at phase
    exact .starts idle active reports cmdId phase
  | stays active reports cmdId phase =>
    exact .stays (active.trans ha) (reports.trans hr) (cmdId.trans hc) (phase.trans hp)
  | completes busy active reports cmdId phase =>
    rw [ha] at busy
    rw [hr, hc] at reports
    rw [hp] at phase
    exact .completes busy active reports (cmdId.trans hc) phase

theorem moves_committed {s : System} {b : Bool} {attempt : Bool} {r : Coordinator × List Action}
    (h : Inv s) (hactive : s.active = true) (hb : (s.coord.fastPathSuccess || b) = true)
    (hgo : Coordinator.gotoNextPhase { s.coord with dispatchAck := b } attempt = some r) :
    Moves s (s.settle r) ∧ (s.settle r).active = false := by
  have hbusy := h.busy hactive
  obtain ⟨m', acts⟩ := r
  obtain ⟨rfl, hnext, hid, -⟩ :=
    gotoNextPhase_done hgo h.lt hbusy.phase hbusy.commitReported hbusy.aborted hb
  exact ⟨.completes hactive rfl ⟨_, rfl, hbusy.current⟩ hid hnext, rfl⟩

theorem TxRequest.wellFormed_iff {req : TxRequest} :
    req.wellFormed = true ↔ req.nPiecesDispatchable = req.ready ∧ 0 < req.ready ∧
      req.nPiecesDispatchable ≤ req.nPiecesAll := by
  simp [TxRequest.wellFormed, and_assoc]

/-- The state after a dispatch of the pieces that are ready, with or without an attempt on the fast
path. -/
theorem Waiting.dispatch {s : System} {ready : List Piece} {tx : TxData} {max : Nat}
    (hreq : Requested s.coord s.dispatches) (hcount : s.coord.cmd.Counted) (hne : ready ≠ [])
    (hready : s.coord.cmd.getReadyPiecesData max = some (ready, tx)) :
    Waiting (s.settle (s.coord.dispatchPieces ready tx)) := by
  have hrequested : Requested (s.coord.dispatchPieces ready tx).1
      (s.dispatches ++ s.coord.requests ready) := dispatchPieces_requested hreq
  have hunacked : ∃ i, (i, false) ∈ (s.coord.dispatchPieces ready tx).1.dispatchAcks :=
    dispatchPieces_unacked hne
  unfold System.settle
  rw [Coordinator.dispatchPieces, settle_dispatches]
  exact ⟨hcount.getReadyPiecesData hready, hrequested, hunacked⟩

theorem moves_doTxAsync {s t : System} {req : TxRequest} {attempt : Bool} (h : Inv s)
    (hwf : req.wellFormed = true) (hidle : s.active = false → s.coord.phase % 3 = 0)
    (hstep : step s (.doTxAsync req attempt) = some t) : Moves s t ∧ Waiting t := by
  simp only [step] at hstep
  split at hstep
  · cases hstep
  next hactive =>
  have hactive : s.active = false := by simpa using hactive
  obtain ⟨⟨m', acts⟩, hgo, rfl⟩ := Option.map_eq_some_iff.mp hstep
  have hinit : phaseOf s.coord.phase = .initEnd := by simp [phaseOf, hidle hactive]
  unfold Coordinator.doTxAsync Coordinator.gotoNextPhase at hgo
  simp only [Coordinator.reset, hinit] at hgo
  obtain ⟨hphase, ready, tx, hready, rfl, hacts⟩ := initEnd_spec hgo
  obtain ⟨hnext, -⟩ := nextPhase_eq_of_dispatched h.lt hphase
  obtain ⟨hsame, hpos, hall⟩ := TxRequest.wellFormed_iff.mp hwf
  have hcount : (createTxnCommand req).Counted := by
    show req.nPiecesDispatchable = 0 + req.ready
    omega
  have hne : ready ≠ [] := by
    refine hcount.ready_ne_nil ?_ hall hready
    show 0 < req.nPiecesDispatchable
    omega
  have hreq : Requested (s.begin req attempt).coord (s.begin req attempt).dispatches := by
    intro i b hi
    cases hi
  have hwait := Waiting.dispatch hreq hcount hne hready
  simp only [System.settle, hnext] at hacts hwait ⊢
  rcases hacts with rfl | ⟨-, rfl⟩
  · refine ⟨?_, hwait⟩
    rw [Coordinator.dispatchPieces, settle_dispatches]
    exact .starts hactive rfl rfl rfl rfl
  · rw [Coordinator.dispatchPieces, settle_dispatches] at hwait
    rw [List.foldl_append, Coordinator.dispatchPieces, settle_dispatches]
    exact ⟨.starts hactive rfl rfl rfl rfl, hwait.counted, hwait.requested, hwait.unacked⟩

theorem TxData.more_of_hasMoreUnsentPiece {tx : TxData} (h : tx.hasMoreUnsentPiece = some true) :
    tx.nPiecesDispatched < tx.nPiecesDispatchable ∧ tx.nPiecesDispatchable ≤ tx.nPiecesAll := by
  unfold TxData.hasMoreUnsentPiece at h
  split at h
  · split at h
    · split at h <;> cases h
    · omega
  · cases h

theorem Coordinator.exists_unacked (m : Coordinator) (h : m.allDispatchAcked = some false) :
    ∃ i, (i, false) ∈ m.dispatchAcks := by
  unfold Coordinator.allDispatchAcked at h
  split at h
  · split at h <;> cases h
  · next hall =>
    obtain ⟨⟨i, b⟩, hmem, hb⟩ := List.all_eq_false.mp (Bool.eq_false_iff.mpr hall)
    obtain rfl : b = false := by simpa using hb
    exact ⟨i, hmem⟩

theorem moves_dispatchAck {s t : System} {d : Dispatch} {res : Res} {outputs : List Output}
    {attempt : Bool} (h : Inv s) (hwait : s.active = true → Waiting s)
    (hok : d.phase = s.coord.phase → res = .success)
    (hstep : step s (.dispatchAck d res outputs attempt) = some t) :
    Moves s t ∧ (t.active = true → Waiting t) := by
  simp only [step] at hstep
  split at hstep
  next hd =>
    obtain ⟨⟨m', acts⟩, hack, rfl⟩ := Option.map_eq_some_iff.mp hstep
    by_cases hphase : d.phase = s.coord.phase
    · have hactive := h.active_of_current hd hphase
      have hcmd := ((h.busy hactive).dispatches d hd).1.mpr hphase
      obtain ⟨hcount, hreq, -⟩ := hwait hactive
      rw [hphase, hok hphase] at hack
      obtain ⟨m₁, hm₁, hrest⟩ := takeAck_success hack
      have hinv := h.takeOutputs hactive hcmd hm₁
      obtain ⟨hreq₁, hcount₁, hphase₁⟩ := takeOutputs_requested
        (m := { s.coord with nDispatchAck := s.coord.nDispatchAck + outputs.length }) hreq hcount hm₁
      have hid₁ : m₁.cmdId = s.coord.cmdId := by
        obtain ⟨tx, acks, rfl, -⟩ := takeOutputs_frame hm₁
        rfl
      rcases hrest with ⟨hmore, hasync⟩ | ⟨hunacked, rfl, rfl⟩ | ⟨-, -, hgo⟩
      · obtain ⟨⟨ready, tx⟩, hready, hasync⟩ := Option.bind_eq_some_iff.mp hasync
        cases hasync
        obtain ⟨hsent, hall⟩ := TxData.more_of_hasMoreUnsentPiece hmore
        have hne := hcount₁.ready_ne_nil hsent hall hready
        have hdone := Waiting.dispatch
          (s := { s with coord := m₁, evidence := s.evidence.ack d res outputs }) hreq₁ hcount₁ hne hready
        refine ⟨?_, fun _ => hdone⟩
        unfold System.settle
        simp only [settle_dispatches]
        exact .stays rfl rfl hid₁ hphase₁
      · refine ⟨.stays rfl rfl hid₁ hphase₁, fun _ => ⟨hcount₁, hreq₁, ?_⟩⟩
        exact m'.exists_unacked hunacked
      · obtain ⟨hmoves, hover⟩ := moves_committed hinv hactive (by simp) hgo
        rw [hok hphase]
        refine ⟨hmoves.congr rfl rfl hid₁ hphase₁, fun hstill => ?_⟩
        have hover' := hover.symm.trans hstill
        cases hover'
    · simp only [Coordinator.takeAck, ne_eq, hphase, not_false_eq_true, if_true] at hack
      cases hack
      refine ⟨.stays rfl rfl rfl rfl, fun hactive => ?_⟩
      have hw := hwait hactive
      exact ⟨hw.counted, hw.requested, hw.unacked⟩
  next => cases hstep

theorem moves_outcome {s t : System} {q : Speculation} {o : Outcome} {attempt : Bool} (h : Inv s)
    (hwait : s.active = true → Waiting s) (hstep : step s (.outcome q o attempt) = some t) :
    Moves s t ∧ (t.active = true → Waiting t) := by
  have hkeep : ∀ (m : Coordinator) (qs : List Speculation) (v : Evidence),
      m = { s.coord with fastPathSuccess := m.fastPathSuccess } →
      Moves s { s with coord := m, speculations := qs, evidence := v } ∧
        (s.active = true → Waiting { s with coord := m, speculations := qs, evidence := v }) := by
    intro m qs v hm
    rw [hm]
    refine ⟨.stays rfl rfl rfl rfl, fun hactive => ?_⟩
    have hw := hwait hactive
    exact ⟨hw.counted, hw.requested, hw.unacked⟩
  simp only [step] at hstep
  split at hstep
  next hq =>
    obtain ⟨r, hout, rfl⟩ := Option.map_eq_some_iff.mp hstep
    unfold Coordinator.takeOutcome at hout
    dsimp only at hout
    split at hout
    next =>
      cases hout
      exact hkeep _ _ _ rfl
    next hphase =>
      have hphase' : q.phase = s.coord.phase := not_not.mp hphase
      have hactive := h.active_of_waiting hq hphase'
      split at hout
      next hyes =>
        have hanswer : ∃ y, s.evidence.answer q o = { s.evidence with specYes := y } := by
          unfold Evidence.answer
          split
          · exact ⟨true, rfl⟩
          · exact ⟨s.evidence.specYes, rfl⟩
        have herase : ∀ x ∈ s.speculations.erase q, x ∈ s.speculations :=
          fun x hx => List.mem_of_mem_erase hx
        have hinv := h.flag (b := decide (o = .yes)) herase (v := s.evidence.answer q o)
          fun _ => hanswer
        obtain ⟨hmoves, hover⟩ := moves_committed hinv hactive (by simpa using Or.inl hyes) hout
        refine ⟨hmoves.congr rfl rfl rfl rfl, fun hstill => ?_⟩
        have hover' := hover.symm.trans hstill
        cases hover'
      next =>
        cases hout
        exact hkeep _ _ _ rfl
  next => cases hstep

/-- Every command before the one under way has its report, in order. -/
structure Completing (s : Worker) : Prop where
  inv : Inv s.system
  idle : s.system.active = false → s.system.coord.phase % 3 = 0
  waiting : s.system.active = true → Waiting s.system
  reports : s.system.reports.map (fun r => r.evidence.cmd) ++
    (if s.system.active then [s.system.coord.cmdId] else []) = List.range' 1 s.system.coord.cmdId
  outstanding : s.outstanding = if s.system.active then 1 else 0

theorem completing_init : Completing Worker.init where
  inv := inv_init
  idle := fun _ => rfl
  waiting := by
    intro h
    cases h
  reports := rfl
  outstanding := rfl

theorem moves_step {s t : System} {e : Event} (h : Inv s)
    (hidle : s.active = false → s.coord.phase % 3 = 0) (hwait : s.active = true → Waiting s)
    (hok : notRefused s e = true) (hstep : step s e = some t) :
    Moves s t ∧ (t.active = true → Waiting t) := by
  cases e with
  | doTxAsync req attempt =>
    obtain ⟨hmoves, hw⟩ := moves_doTxAsync h hok hidle hstep
    exact ⟨hmoves, fun _ => hw⟩
  | dispatchAck d res outputs attempt =>
    refine moves_dispatchAck h hwait (fun hphase => ?_) hstep
    simpa [notRefused, hphase] using hok
  | outcome q o attempt => exact moves_outcome h hwait hstep

theorem phaseOf_eq_initEnd {p : Nat} : phaseOf p = .initEnd ↔ p % 3 = 0 := by
  unfold phaseOf
  split
  · next h => simp [h]
  · next h =>
    split <;> simp [h]

theorem Completing.moves {s : Worker} {t : System} (h : Completing s) (hinv : Inv t)
    (hmoves : Moves s.system t) (hwait : t.active = true → Waiting t) :
    Completing ⟨t, s.outstanding + counted s.system t⟩ := by
  have hcount := h.outstanding
  have hreports := h.reports
  cases hmoves with
  | starts idle active reports cmdId phase =>
    have hzero := h.idle idle
    have hinit := phaseOf_eq_initEnd.mpr hzero
    rw [if_neg (by simp [idle])] at hcount hreports
    refine ⟨hinv, fun hno => ?_, hwait, ?_, ?_⟩
    · rw [active] at hno
      cases hno
    · dsimp only
      rw [if_pos active, reports, cmdId, List.range'_concat, ← hreports]
      simp [Nat.add_comm]
    · dsimp only
      rw [if_pos active, counted, hinit, reports, phase]
      simp [hcount]
  | stays active reports cmdId phase =>
    refine ⟨hinv, fun hno => ?_, hwait, ?_, ?_⟩
    · dsimp only
      rw [phase]
      exact h.idle (active.symm.trans hno)
    · dsimp only
      rw [active, reports, cmdId]
      exact hreports
    · dsimp only
      rw [active, counted, reports, phase]
      simpa using hcount
  | completes busy active reports cmdId phase =>
    obtain ⟨r, hr, hcmd⟩ := reports
    have hone := (h.inv.busy busy).phase
    rw [if_pos busy] at hcount hreports
    refine ⟨hinv, fun _ => ?_, hwait, ?_, ?_⟩
    · dsimp only
      omega
    · dsimp only
      rw [if_neg (by simp [active]), hr, List.map_append, List.map_singleton, hcmd, cmdId,
        List.append_nil]
      exact hreports
    · have hnot : ¬ phaseOf s.system.coord.phase = .initEnd := by
        rw [phaseOf_eq_initEnd]
        omega
      dsimp only
      rw [if_neg (by simp [active]), counted, if_neg (fun hboth => hnot hboth.1), hr]
      simp [hcount]

theorem Completing.step {s t : Worker} {e : Event} (h : Completing s)
    (hok : notRefused s.system e = true) (hstep : s.step e = some t) : Completing t := by
  obtain ⟨u, hu, rfl⟩ := Option.map_eq_some_iff.mp hstep
  obtain ⟨hmoves, hwait⟩ := moves_step h.inv h.idle h.waiting hok hu
  refine h.moves (step_inv h.inv ?_ hu) hmoves hwait
  cases e with
  | doTxAsync req attempt =>
    intro hphase
    rw [phaseOf_eq_waitingOrigin] at hphase
    cases hactive : s.system.active with
    | false =>
      have hzero := h.idle hactive
      omega
    | true =>
      have hone := (h.inv.busy hactive).phase
      omega
  | dispatchAck d res outputs attempt =>
    intro hphase
    refine Or.inl ?_
    simpa [notRefused, hphase] using hok
  | outcome q o attempt => exact trivial

theorem Completing.oneCompletion {s : Worker} (h : Completing s) : OneCompletion s := by
  have hnodup : (List.range' 1 s.system.coord.cmdId).Nodup := List.nodup_range'
  have hreports := h.reports
  have hlength := congrArg List.length hreports
  rw [List.length_append, List.length_map, List.length_range'] at hlength
  rw [← hreports] at hnodup
  have hdistinct : (s.system.reports.map fun r => r.evidence.cmd).Nodup :=
    (List.nodup_append.mp hnodup).1
  refine ⟨fun cmd hpos hle => ?_, ?_, fun hidle => ?_, fun hactive => ?_⟩
  · -- every number up to the last command occurs once, the one under way not yet
    have hcount : (List.range' 1 s.system.coord.cmdId).count cmd = 1 := by
      refine List.count_eq_one_of_mem List.nodup_range' ?_
      rw [List.mem_range'_1]
      omega
    have hcallbacks : s.system.callbacks cmd =
        (s.system.reports.map fun r => r.evidence.cmd).count cmd := by
      rw [List.count, List.countP_map]
      rfl
    rw [← hreports, List.count_append, ← hcallbacks] at hcount
    by_cases hactive : s.system.active = true
    · rw [if_pos hactive] at hcount
      by_cases hlast : cmd = s.system.coord.cmdId
      · rw [if_pos ⟨hactive, hlast⟩]
        subst hlast
        simp at hcount
        exact hcount
      · rw [if_neg (fun hboth => hlast hboth.2)]
        rw [List.count_singleton, beq_eq_false_iff_ne.mpr (Ne.symm hlast)] at hcount
        simpa using hcount
    · rw [if_neg (fun hboth => hactive hboth.1)]
      rw [if_neg hactive] at hcount
      simpa using hcount
  · have hcompleted : s.system.completed = s.system.reports.length := by
      unfold System.completed
      rw [hdistinct.dedup, List.length_map]
    rw [h.outstanding, hcompleted]
    by_cases hactive : s.system.active = true
    · rw [if_pos hactive] at hlength ⊢
      rw [List.length_singleton] at hlength
      omega
    · rw [if_neg hactive] at hlength ⊢
      rw [List.length_nil] at hlength
      omega
  · exact phaseOf_eq_initEnd.mpr (h.idle hidle)
  · obtain ⟨-, hreq, i, hi⟩ := h.waiting hactive
    obtain ⟨d, hd, hphase, hmem⟩ := hreq i false hi
    exact ⟨i, d, hi, hd, hphase, hmem⟩

/-- In every run over well-formed requests in which no dispatch of the command under way is refused,
each command has one callback once it is over and none before, the counter is the number of commands
under way, and a completed command leaves the phase at `INIT_END`. -/
theorem one_completion_per_command {s : Worker}
    (h : ReachableWhere Worker.step (fun s e => notRefused s.system e = true) Worker.init s) :
    OneCompletion s := by
  have hinv : Completing s :=
    h.invariant (fun _ _ _ hs hok hstep => hs.step hok hstep) completing_init
  exact hinv.oneCompletion

theorem one_completion_both_paths :
    ∃ s, ReachableWhere Worker.step (fun s e => notRefused s.system e = true) Worker.init s ∧
      s.system.callbacks 1 = 1 ∧ s.system.callbacks 2 = 1 ∧ s.outstanding = 0 ∧
      OneCompletion s := by
  obtain ⟨s, hs, hp⟩ := exists_reachableWhere
    (p := fun s : Worker => s.system.callbacks 1 == 1 && (s.system.callbacks 2 == 1 && s.outstanding == 0))
    (show (runWhere Worker.step (fun s e => notRefused s.system e = true) Worker.init
      bothPaths).any _ = true by decide +kernel)
  obtain ⟨h1, hp⟩ := Bool.and_eq_true_iff.mp hp
  obtain ⟨h2, h0⟩ := Bool.and_eq_true_iff.mp hp
  exact ⟨s, hs, by simpa using h1, by simpa using h2, by simpa using h0,
    one_completion_per_command hs⟩

/-- The late outcome of the first command raises the flag of the fast path, and then the dispatch of
the second one is refused. -/
def refusedAfterOutcome : List Event :=
  [.doTxAsync writeRequest true, .dispatchAck ⟨1, 1, 0, [1]⟩ .success [⟨1, [], []⟩] true,
    .doTxAsync writeRequest false, .outcome ⟨1, 1⟩ .yes false,
    .dispatchAck ⟨2, 4, 0, [1]⟩ .reject [] false]

/-- A refused command leaves the phase at `WAITING_ORIGIN`, and one that is refused while the flag of
the fast path is up is called back twice and counted down twice. -/
theorem refused_command_completes_wrongly :
    (∃ s, Reachable Worker.step Worker.init s ∧ s.system.active = false ∧
      phaseOf s.system.coord.phase = .waitingOrigin ∧ ¬ OneCompletion s) ∧
    ∃ s, Reachable Worker.step Worker.init s ∧ s.system.callbacks 2 = 2 ∧ s.outstanding = -1 ∧
      ¬ OneCompletion s := by
  constructor
  · obtain ⟨s, hs, hp⟩ := exists_reachableWhere
      (p := fun s : Worker => !s.system.active && decide (phaseOf s.system.coord.phase = .waitingOrigin))
      (show (runWhere Worker.step (fun _ _ => True) Worker.init (afterRefusal.take 2)).any _ = true
        by decide +kernel)
    obtain ⟨hidle, hphase⟩ := Bool.and_eq_true_iff.mp hp
    have hidle : s.system.active = false := by simpa using hidle
    have hphase := of_decide_eq_true hphase
    refine ⟨s, hs, hidle, hphase, fun hone => ?_⟩
    rw [hone.phase hidle] at hphase
    cases hphase
  · obtain ⟨s, hs, hp⟩ := exists_reachableWhere
      (p := fun s : Worker => s.system.callbacks 2 == 2 &&
        (s.outstanding == -1 && decide (2 ≤ s.system.coord.cmdId)))
      (show (runWhere Worker.step (fun _ _ => True) Worker.init refusedAfterOutcome).any _ = true
        by decide +kernel)
    obtain ⟨htwice, hp⟩ := Bool.and_eq_true_iff.mp hp
    obtain ⟨hcount, hid⟩ := Bool.and_eq_true_iff.mp hp
    have htwice : s.system.callbacks 2 = 2 := by simpa using htwice
    refine ⟨s, hs, htwice, by simpa using hcount, fun hone => ?_⟩
    have honce := hone.once 2 (by omega) (of_decide_eq_true hid)
    rw [htwice] at honce
    split at honce <;> cases honce

end Jetpack.Rule
