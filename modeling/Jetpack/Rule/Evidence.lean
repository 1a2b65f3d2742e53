import Jetpack.Rule.Coordinator

/-! Runs of one coordinator over a sequence of commands. Replies to dispatches and outcomes of
speculative quorums arrive in any order, those of earlier commands included, and a dispatch that
goes to several leaders is answered by each of them. A history of the current command is kept beside
the coordinator and is filed with each reply that the client gets. -/

namespace Jetpack.Rule

open Transition

structure Evidence where
  cmd : Nat
  dispatched : Bool
  specYes : Bool
  sent : List Nat
  acked : List Nat
deriving DecidableEq

def Evidence.start (cmd : Nat) : Evidence where
  cmd := cmd
  dispatched := false
  specYes := false
  sent := []
  acked := []

structure Report where
  evidence : Evidence
  tx : TxData
deriving DecidableEq

structure System where
  coord : Coordinator
  active : Bool
  dispatches : List Dispatch
  speculations : List Speculation
  evidence : Evidence
  reports : List Report
deriving DecidableEq

def System.init : System where
  coord := Coordinator.start
  active := false
  dispatches := []
  speculations := []
  evidence := Evidence.start 0
  reports := []

def System.perform (s : System) : Action → System
  | .dispatch d =>
    { s with
      dispatches := s.dispatches ++ [d]
      evidence :=
        { s.evidence with
          dispatched := true
          sent := s.evidence.sent ++ d.pieces } }
  | .speculate q => { s with speculations := s.speculations ++ [q] }
  | .reply tx =>
    { s with
      active := false
      reports := s.reports ++ [⟨s.evidence, tx⟩] }

def System.settle (s : System) (r : Coordinator × List Action) : System :=
  r.2.foldl System.perform { s with coord := r.1 }

inductive Event
  | doTxAsync (req : TxRequest) (attempt : Bool)
  | dispatchAck (d : Dispatch) (res : Res) (outputs : List Output) (attempt : Bool)
  | outcome (q : Speculation) (o : Outcome) (attempt : Bool)

def Evidence.ack (v : Evidence) (d : Dispatch) (res : Res) (outputs : List Output) : Evidence :=
  if d.cmd = v.cmd ∧ res = .success then
    { v with acked := v.acked ++ outputs.map Output.innId }
  else v

def Evidence.answer (v : Evidence) (q : Speculation) (o : Outcome) : Evidence :=
  if q.cmd = v.cmd ∧ o = .yes then { v with specYes := true } else v

/-- The next command comes once the client has the reply to the last one. -/
def step (s : System) : Event → Option System
  | .doTxAsync req attempt =>
    if s.active then none
    else (s.coord.doTxAsync req attempt).map
      (System.settle
        { s with
          active := true
          evidence := Evidence.start (s.coord.cmdId + 1) })
  | .dispatchAck d res outputs attempt =>
    if d ∈ s.dispatches then
      (s.coord.takeAck d.phase res outputs attempt).map
        (System.settle { s with evidence := s.evidence.ack d res outputs })
    else none
  | .outcome q o attempt =>
    if q ∈ s.speculations then
      (s.coord.takeOutcome q.phase o attempt).map
        (System.settle
          { s with
            speculations := s.speculations.erase q
            evidence := s.evidence.answer q o })
    else none

/-- All pieces of the transaction were dispatched and each was acknowledged once. -/
def Report.AllAcked (r : Report) : Prop :=
  r.evidence.acked.Nodup ∧ r.evidence.acked.length = r.tx.nPiecesAll ∧
    ∀ i ∈ r.evidence.sent, i ∈ r.evidence.acked

def Report.OnOwnEvidence (r : Report) : Prop :=
  r.tx.res = some .success →
    r.evidence.dispatched = true ∧ (r.evidence.specYes = true ∨ r.AllAcked)

/-- No command starts in the phase that an aborted one leaves behind, and no command is refused
while the flag of the fast path is up. -/
def CleanPhase (s : System) : Event → Prop
  | .doTxAsync _ _ => phaseOf s.coord.phase ≠ .waitingOrigin
  | .dispatchAck d res _ _ =>
    d.phase = s.coord.phase → res = .success ∨ s.coord.fastPathSuccess = false
  | .outcome _ _ _ => True

instance (s : System) (e : Event) : Decidable (CleanPhase s e) :=
  match e with
  | .doTxAsync _ _ => inferInstanceAs (Decidable (_ ≠ _))
  | .dispatchAck _ _ _ _ => inferInstanceAs (Decidable (_ → _ ∨ _))
  | .outcome _ _ _ => isTrue trivial

/-- A command is under way: its requests and no others carry the phase of the coordinator. -/
structure Busy (s : System) : Prop where
  phase : s.coord.phase % 3 = 1
  committed : s.coord.committed = false
  aborted : s.coord.aborted = false
  commitReported : s.coord.commitReported = false
  dispatchAck : s.coord.dispatchAck = false
  current : s.evidence.cmd = s.coord.cmdId
  dispatches : ∀ d ∈ s.dispatches, (d.cmd = s.coord.cmdId ↔ d.phase = s.coord.phase) ∧
    (d.cmd = s.coord.cmdId → s.evidence.dispatched = true)
  speculations : ∀ q ∈ s.speculations, (q.cmd = s.coord.cmdId ↔ q.phase = s.coord.phase) ∧
    (q.cmd = s.coord.cmdId → s.evidence.dispatched = true)
  acked : s.coord.cmd.outputs = s.evidence.acked
  counted : s.coord.nDispatchAck = s.coord.cmd.outputs.length
  booked : Booked s.coord s.evidence.sent

structure Inv (s : System) : Prop where
  lt : s.coord.phase < 2 ^ 32
  dispatches : ∀ d ∈ s.dispatches, d.cmd ≤ s.coord.cmdId ∧ d.phase ≤ s.coord.phase
  speculations : ∀ q ∈ s.speculations, q.cmd ≤ s.coord.cmdId ∧ q.phase ≤ s.coord.phase
  idle : s.active = false → s.coord.phase % 3 ≠ 1 ∧
    (∀ d ∈ s.dispatches, d.phase < s.coord.phase) ∧
    ∀ q ∈ s.speculations, q.phase < s.coord.phase
  busy : s.active = true → Busy s
  reports : ∀ r ∈ s.reports, r.OnOwnEvidence

theorem inv_init : Inv System.init where
  lt := by decide
  dispatches := by
    intro d hd
    cases hd
  speculations := by
    intro q hq
    cases hq
  idle := by
    intro _
    exact ⟨by decide, fun d hd => (by cases hd), fun q hq => (by cases hq)⟩
  busy := by
    intro h
    cases h
  reports := by
    intro r hr
    cases hr

theorem settle_dispatches (s : System) (ds : List Dispatch) :
    (ds.map Action.dispatch).foldl System.perform s =
      { s with
        dispatches := s.dispatches ++ ds
        evidence :=
          { s.evidence with
            dispatched := s.evidence.dispatched || !ds.isEmpty
            sent := s.evidence.sent ++ ds.flatMap Dispatch.pieces } } := by
  induction ds generalizing s with
  | nil => simp
  | cons d ds ih =>
    rw [List.map_cons, List.foldl_cons, ih]
    simp [System.perform]

theorem Inv.reply {s : System} {v : Evidence} {m : Coordinator} {tx : TxData}
    {qs : List Speculation} (h : Inv s) (hqs : ∀ q ∈ qs, q ∈ s.speculations)
    (hphase : s.coord.phase < m.phase) (hmod : m.phase % 3 ≠ 1) (hlt : m.phase < 2 ^ 32)
    (hid : m.cmdId = s.coord.cmdId) (hok : Report.OnOwnEvidence ⟨v, tx⟩) :
    Inv (System.settle { s with speculations := qs, evidence := v } (m, [.reply tx])) where
  lt := hlt
  dispatches := by
    intro d hd
    show d.cmd ≤ m.cmdId ∧ d.phase ≤ m.phase
    have := h.dispatches d hd
    omega
  speculations := by
    intro q hq
    show q.cmd ≤ m.cmdId ∧ q.phase ≤ m.phase
    have := h.speculations q (hqs q hq)
    omega
  idle := by
    intro _
    refine ⟨hmod, fun d hd => ?_, fun q hq => ?_⟩
    · exact lt_of_le_of_lt (h.dispatches d hd).2 hphase
    · exact lt_of_le_of_lt (h.speculations q (hqs q hq)).2 hphase
  busy := by
    intro hactive
    cases hactive
  reports := by
    intro r hr
    rcases List.mem_append.mp hr with hr | hr
    · exact h.reports r hr
    · rw [List.mem_singleton.mp hr]
      exact hok

theorem Inv.flag {s : System} {b : Bool} {qs : List Speculation} {v : Evidence} (h : Inv s)
    (hqs : ∀ q ∈ qs, q ∈ s.speculations)
    (hv : s.active = true → ∃ y, v = { s.evidence with specYes := y }) :
    Inv
      { s with
        coord := { s.coord with fastPathSuccess := b }
        speculations := qs
        evidence := v } where
  lt := h.lt
  dispatches := h.dispatches
  speculations := fun q hq => h.speculations q (hqs q hq)
  idle := by
    intro hactive
    obtain ⟨hmod, hd, hq⟩ := h.idle hactive
    exact ⟨hmod, hd, fun q hmem => hq q (hqs q hmem)⟩
  busy := by
    intro hactive
    have hbusy := h.busy hactive
    obtain ⟨y, rfl⟩ := hv hactive
    exact
      { phase := hbusy.phase
        committed := hbusy.committed
        aborted := hbusy.aborted
        commitReported := hbusy.commitReported
        dispatchAck := hbusy.dispatchAck
        current := hbusy.current
        dispatches := hbusy.dispatches
        speculations := fun q hq => hbusy.speculations q (hqs q hq)
        acked := hbusy.acked
        counted := hbusy.counted
        booked := ⟨hbusy.booked.dispatched, hbusy.booked.merged, hbusy.booked.nodup,
          hbusy.booked.acked, hbusy.booked.booked⟩ }
  reports := h.reports

theorem Inv.active_of_current {s : System} {d : Dispatch} (h : Inv s) (hd : d ∈ s.dispatches)
    (hphase : d.phase = s.coord.phase) : s.active = true := by
  by_contra hidle
  have hlt := (h.idle (by simpa using hidle)).2.1 d hd
  omega

theorem Inv.active_of_waiting {s : System} {q : Speculation} (h : Inv s)
    (hq : q ∈ s.speculations) (hphase : q.phase = s.coord.phase) : s.active = true := by
  by_contra hidle
  have hlt := (h.idle (by simpa using hidle)).2.2 q hq
  omega

theorem Inv.dispatch {s : System} {ready : List Piece} {tx : TxData} {max : Nat} (h : Inv s)
    (hactive : s.active = true)
    (hready : s.coord.cmd.getReadyPiecesData max = some (ready, tx)) :
    Inv (s.settle (s.coord.dispatchPieces ready tx)) := by
  have hbusy := h.busy hactive
  have hbooked := hbusy.booked.dispatchPieces hready
  obtain ⟨hout, -, -⟩ := TxData.getReadyPiecesData_spec hready
  unfold System.settle
  simp only [Coordinator.dispatchPieces] at hbooked ⊢
  rw [settle_dispatches]
  refine ⟨h.lt, ?_, h.speculations, fun hidle => ?_, fun _ => ?_, h.reports⟩
  · intro d hd
    rcases List.mem_append.mp hd with hd | hd
    · exact h.dispatches d hd
    · obtain ⟨hcmd, hphase, -⟩ := mem_requests hd
      exact ⟨le_of_eq hcmd, le_of_eq hphase⟩
  · exact absurd (hactive.symm.trans hidle) (by simp)
  · refine
      { phase := hbusy.phase
        committed := hbusy.committed
        aborted := hbusy.aborted
        commitReported := hbusy.commitReported
        dispatchAck := hbusy.dispatchAck
        current := hbusy.current
        dispatches := ?_
        speculations := ?_
        acked := hout.trans hbusy.acked
        counted := ?_
        booked := hbooked }
    · intro d hd
      rcases List.mem_append.mp hd with hd | hd
      · obtain ⟨hiff, hdisp⟩ := hbusy.dispatches d hd
        exact ⟨hiff, fun hcmd => by simp [hdisp hcmd]⟩
      · obtain ⟨hcmd, hphase, -⟩ := mem_requests hd
        have hne : (s.coord.requests ready).isEmpty = false :=
          List.isEmpty_eq_false_iff.mpr (List.ne_nil_of_mem hd)
        exact ⟨⟨fun _ => hphase, fun _ => hcmd⟩, fun _ => by simp [hne]⟩
    · intro q hq
      obtain ⟨hiff, hdisp⟩ := hbusy.speculations q hq
      exact ⟨hiff, fun hcmd => by simp [hdisp hcmd]⟩
    · show s.coord.nDispatchAck = tx.outputs.length
      rw [hbusy.counted, hout]

theorem Inv.speculate {s : System} {q : Speculation} (h : Inv s) (hactive : s.active = true)
    (hcmd : q.cmd = s.coord.cmdId) (hphase : q.phase = s.coord.phase)
    (hdisp : s.evidence.dispatched = true) : Inv (s.perform (.speculate q)) where
  lt := h.lt
  dispatches := h.dispatches
  speculations := by
    intro x hx
    rcases List.mem_append.mp hx with hx | hx
    · exact h.speculations x hx
    · rw [List.mem_singleton.mp hx]
      exact ⟨le_of_eq hcmd, le_of_eq hphase⟩
  idle := fun hidle => absurd (hactive.symm.trans hidle) (by simp)
  busy := by
    intro _
    have hbusy := h.busy hactive
    refine { hbusy with speculations := ?_ }
    intro x hx
    rcases List.mem_append.mp hx with hx | hx
    · exact hbusy.speculations x hx
    · rw [List.mem_singleton.mp hx]
      exact ⟨⟨fun _ => hphase, fun _ => hcmd⟩, fun _ => hdisp⟩
  reports := h.reports

/-- The state in which `GotoNextPhase` finds a new command and dispatches it. -/
def System.begin (s : System) (req : TxRequest) (attempt : Bool) : System :=
  { s with
    coord :=
      { s.coord.reset with
        cmdId := s.coord.cmdId + 1
        cmd := createTxnCommand req
        phase := s.coord.phase + 1
        fastPathSuccess := false
        dispatchAck := false
        goToFastpath := attempt }
    active := true
    evidence := Evidence.start (s.coord.cmdId + 1) }

theorem Inv.begin {s : System} (h : Inv s) (hidle : s.active = false)
    (hphase : s.coord.phase % 3 = 0) (hlt : s.coord.phase + 1 < 2 ^ 32) (req : TxRequest)
    (attempt : Bool) : Inv (s.begin req attempt) := by
  obtain ⟨-, hd, hq⟩ := h.idle hidle
  refine ⟨hlt, fun d hmem => ?_, fun q hmem => ?_, fun hno => ?_, fun _ => ?_, h.reports⟩
  · have := h.dispatches d hmem
    exact ⟨by show d.cmd ≤ s.coord.cmdId + 1; omega, by show d.phase ≤ s.coord.phase + 1; omega⟩
  · have := h.speculations q hmem
    exact ⟨by show q.cmd ≤ s.coord.cmdId + 1; omega, by show q.phase ≤ s.coord.phase + 1; omega⟩
  · cases hno
  · refine ⟨?_, rfl, rfl, rfl, rfl, rfl, fun d hmem => ?_, fun q hmem => ?_, rfl, rfl,
      ⟨rfl, rfl, List.nodup_nil, fun i hi => (by cases hi), fun i hi => (by cases hi)⟩⟩
    · show (s.coord.phase + 1) % 3 = 1
      omega
    · have hle := h.dispatches d hmem
      have hlt := hd d hmem
      show (d.cmd = s.coord.cmdId + 1 ↔ d.phase = s.coord.phase + 1) ∧
        (d.cmd = s.coord.cmdId + 1 → _)
      exact ⟨by omega, fun _ => by omega⟩
    · have hle := h.speculations q hmem
      have hlt := hq q hmem
      show (q.cmd = s.coord.cmdId + 1 ↔ q.phase = s.coord.phase + 1) ∧
        (q.cmd = s.coord.cmdId + 1 → _)
      exact ⟨by omega, fun _ => by omega⟩

theorem initEnd_spec {m m' : Coordinator} {attempt : Bool} {acts : List Action}
    (h : m.initEnd attempt = some (m', acts)) :
    m.phase % 3 = 1 ∧ ∃ ready tx, m.cmd.getReadyPiecesData 100 = some (ready, tx) ∧
      m' = (Coordinator.dispatchPieces
        { m with
          fastPathSuccess := false
          dispatchAck := false
          goToFastpath := attempt } ready tx).1 ∧
      (acts = (m.requests ready).map Action.dispatch ∨
        (m.requests ready).isEmpty = false ∧
          acts = (m.requests ready).map Action.dispatch ++ [.speculate ⟨m.cmdId, m.phase⟩]) := by
  unfold Coordinator.initEnd at h
  split at h
  · next hphase =>
    obtain ⟨⟨ready, tx⟩, hready, h⟩ := Option.bind_eq_some_iff.mp h
    refine ⟨phaseOf_eq_dispatched.mp hphase, ready, tx, hready, ?_⟩
    dsimp only [Coordinator.dispatchPieces] at h ⊢
    split at h
    · split at h
      · next hone =>
        cases h
        refine ⟨rfl, Or.inr ⟨?_, rfl⟩⟩
        have hlen : (m.requests ready).length = 1 := by
          simpa [Coordinator.requests] using hone.1
        rw [List.isEmpty_eq_false_iff]
        intro hnil
        simp [hnil] at hlen
      · cases h
    · cases h
      exact ⟨rfl, Or.inl rfl⟩
  · cases h

theorem Inv.doTxAsync {s t : System} {req : TxRequest} {attempt : Bool} (h : Inv s)
    (hclean : phaseOf s.coord.phase ≠ .waitingOrigin)
    (hstep : step s (.doTxAsync req attempt) = some t) : Inv t := by
  simp only [step] at hstep
  split at hstep
  · cases hstep
  next hactive =>
  have hidle : s.active = false := by simpa using hactive
  obtain ⟨⟨m', acts⟩, hgo, rfl⟩ := Option.map_eq_some_iff.mp hstep
  have hlt := h.lt
  have hmod := (h.idle hidle).1
  have hclean' : s.coord.phase % 3 ≠ 2 := fun he => hclean (phaseOf_eq_waitingOrigin.mpr he)
  have hzero : s.coord.phase % 3 = 0 := by omega
  have hinit : phaseOf s.coord.phase = .initEnd := by simp [phaseOf, hzero]
  unfold Coordinator.doTxAsync Coordinator.gotoNextPhase at hgo
  simp only [Coordinator.reset, hinit] at hgo
  obtain ⟨hphase, ready, tx, hready, rfl, hacts⟩ := initEnd_spec hgo
  -- the counter cannot have wrapped: the new phase would not be `DISPATCHED`
  obtain ⟨hnext, hroom⟩ := nextPhase_eq_of_dispatched hlt hphase
  have hbegin := h.begin hidle hzero hroom req attempt
  have hdone := hbegin.dispatch rfl hready
  unfold System.settle at hdone ⊢
  simp only [hnext] at hacts ⊢
  rcases hacts with rfl | ⟨hne, rfl⟩
  · exact hdone
  · rw [Coordinator.dispatchPieces, settle_dispatches] at hdone
    rw [List.foldl_append, Coordinator.dispatchPieces, settle_dispatches]
    exact Inv.speculate hdone rfl rfl rfl (congrArg not hne)

theorem takeAck_success {m m' : Coordinator} {outputs : List Output} {attempt : Bool}
    {acts : List Action}
    (h : m.takeAck m.phase .success outputs attempt = some (m', acts)) :
    ∃ m₁, Coordinator.takeOutputs { m with nDispatchAck := m.nDispatchAck + outputs.length }
        outputs = some m₁ ∧
      ((m₁.cmd.hasMoreUnsentPiece = some true ∧ m₁.dispatchAsync = some (m', acts)) ∨
        (m₁.allDispatchAcked = some false ∧ m' = m₁ ∧ acts = []) ∨
        (m₁.cmd.hasMoreUnsentPiece = some false ∧ m₁.allDispatchAcked = some true ∧
          Coordinator.gotoNextPhase { m₁ with dispatchAck := true } attempt = some (m', acts))) := by
  simp only [Coordinator.takeAck, ne_eq, not_true_eq_false, if_false] at h
  obtain ⟨m₁, hm₁, h⟩ := Option.bind_eq_some_iff.mp h
  refine ⟨m₁, hm₁, ?_⟩
  obtain ⟨more, hmore, h⟩ := Option.bind_eq_some_iff.mp h
  cases more with
  | true => exact Or.inl ⟨hmore, h⟩
  | false =>
    simp only [Bool.false_eq_true, if_false] at h
    obtain ⟨all, hall, h⟩ := Option.bind_eq_some_iff.mp h
    cases all with
    | true => exact Or.inr (Or.inr ⟨hmore, hall, h⟩)
    | false =>
      cases h
      exact Or.inr (Or.inl ⟨hall, rfl, rfl⟩)

/-- The outputs of a reply to the command under way are booked on both sides. -/
theorem Inv.takeOutputs {s : System} {d : Dispatch} {outputs : List Output} {m : Coordinator}
    (h : Inv s) (hactive : s.active = true) (hd : d.cmd = s.coord.cmdId)
    (hm : Coordinator.takeOutputs
      { s.coord with nDispatchAck := s.coord.nDispatchAck + outputs.length } outputs = some m) :
    Inv { s with coord := m, evidence := s.evidence.ack d .success outputs } := by
  have hbusy := h.busy hactive
  have hstart : Booked { s.coord with nDispatchAck := s.coord.nDispatchAck + outputs.length }
      s.evidence.sent :=
    ⟨hbusy.booked.dispatched, hbusy.booked.merged, hbusy.booked.nodup, hbusy.booked.acked,
      hbusy.booked.booked⟩
  have hbooked := hstart.takeOutputs hm
  have hack : s.evidence.ack d .success outputs =
      { s.evidence with acked := s.evidence.acked ++ outputs.map Output.innId } := by
    simp [Evidence.ack, hd, hbusy.current]
  obtain ⟨tx, acks, rfl, hout⟩ := takeOutputs_frame hm
  rw [hack]
  refine ⟨h.lt, h.dispatches, h.speculations, fun hidle => ?_, fun _ => ?_, h.reports⟩
  · exact absurd (hactive.symm.trans hidle) (by simp)
  · refine
      { hbusy with
        acked := ?_
        counted := ?_
        booked := hbooked }
    · show tx.outputs = s.evidence.acked ++ outputs.map Output.innId
      rw [hout, hbusy.acked]
    · show s.coord.nDispatchAck + outputs.length = tx.outputs.length
      rw [hout, hbusy.counted, List.length_append, List.length_map]

theorem Inv.refused {s : System} {v : Evidence} {tx : TxData} {attempt : Bool}
    {r : Coordinator × List Action} (h : Inv s) (hactive : s.active = true)
    (hf : s.coord.fastPathSuccess = false)
    (hgo : Coordinator.gotoNextPhase { s.coord with aborted := true, cmd := tx } attempt = some r) :
    Inv (System.settle { s with evidence := v } r) := by
  have hbusy := h.busy hactive
  have hphase := hbusy.phase
  obtain ⟨m', acts⟩ := r
  obtain ⟨tx', rfl, hres, hnext, hid, hlt⟩ :=
    gotoNextPhase_aborted hgo h.lt hphase hbusy.committed rfl hf hbusy.dispatchAck
  dsimp only at hnext hid hlt
  have hmod : m'.phase % 3 ≠ 1 := by omega
  exact h.reply (fun q hq => hq) (by omega) hmod (by omega) hid fun hsuc => absurd hsuc hres

theorem Inv.committed {s : System} {b : Bool} {attempt : Bool} {r : Coordinator × List Action}
    (h : Inv s) (hactive : s.active = true) (hb : (s.coord.fastPathSuccess || b) = true)
    (hgo : Coordinator.gotoNextPhase { s.coord with dispatchAck := b } attempt = some r)
    (hdisp : s.evidence.dispatched = true)
    (hown : s.evidence.specYes = true ∨ Report.AllAcked ⟨s.evidence, s.coord.cmd⟩) :
    Inv (s.settle r) := by
  have hbusy := h.busy hactive
  have hphase := hbusy.phase
  obtain ⟨m', acts⟩ := r
  obtain ⟨rfl, hnext, hid, hlt⟩ :=
    gotoNextPhase_done hgo h.lt hphase hbusy.commitReported hbusy.aborted hb
  dsimp only at hnext hid hlt
  have hmod : m'.phase % 3 ≠ 1 := by omega
  exact h.reply (fun q hq => hq) (by omega) hmod (by omega) hid fun _ => ⟨hdisp, hown⟩

theorem Busy.allAcked {s : System} (h : Busy s)
    (hsent : s.coord.cmd.hasMoreUnsentPiece = some false)
    (hall : s.coord.allDispatchAcked = some true) :
    Report.AllAcked ⟨s.evidence, s.coord.cmd⟩ := by
  have hacked := h.booked.all_acked h.counted hsent hall
  have hnodup := h.booked.nodup
  rw [h.acked] at hacked hnodup
  exact ⟨hnodup, hacked⟩

theorem Evidence.ack_dispatched (v : Evidence) (d : Dispatch) (res : Res) (outputs : List Output) :
    (v.ack d res outputs).dispatched = v.dispatched := by
  unfold Evidence.ack
  split <;> rfl

theorem Inv.dispatchAck {s t : System} {d : Dispatch} {res : Res} {outputs : List Output}
    {attempt : Bool} (h : Inv s)
    (hclean : d.phase = s.coord.phase → res = .success ∨ s.coord.fastPathSuccess = false)
    (hstep : step s (.dispatchAck d res outputs attempt) = some t) : Inv t := by
  simp only [step] at hstep
  split at hstep
  next hd =>
    obtain ⟨⟨m', acts⟩, hack, rfl⟩ := Option.map_eq_some_iff.mp hstep
    by_cases hphase : d.phase = s.coord.phase
    · have hactive := h.active_of_current hd hphase
      have hbusy := h.busy hactive
      have hcmd := (hbusy.dispatches d hd).1.mpr hphase
      rw [hphase] at hack
      cases res with
      | reject =>
        have hf := (hclean hphase).resolve_left (by simp)
        simp only [Coordinator.takeAck, ne_eq, not_true_eq_false, if_false] at hack
        exact h.refused hactive hf hack
      | wrongLeader =>
        have hf := (hclean hphase).resolve_left (by simp)
        simp only [Coordinator.takeAck, ne_eq, not_true_eq_false, if_false] at hack
        exact h.refused hactive hf hack
      | success =>
        obtain ⟨m₁, hm₁, hrest⟩ := takeAck_success hack
        have hinv := h.takeOutputs hactive hcmd hm₁
        have hbusy₁ := hinv.busy hactive
        rcases hrest with ⟨-, hmore⟩ | ⟨-, rfl, rfl⟩ | ⟨hsent, hall, hgo⟩
        · obtain ⟨⟨ready, tx⟩, hready, hmore⟩ := Option.bind_eq_some_iff.mp hmore
          cases hmore
          exact hinv.dispatch hactive hready
        · exact hinv
        · have hdisp : (s.evidence.ack d .success outputs).dispatched = true := by
            rw [Evidence.ack_dispatched]
            exact (hbusy.dispatches d hd).2 hcmd
          exact hinv.committed hactive (by simp) hgo hdisp (Or.inr (hbusy₁.allAcked hsent hall))
    · simp only [Coordinator.takeAck, ne_eq, hphase, not_false_eq_true, if_true] at hack
      cases hack
      refine h.flag (b := s.coord.fastPathSuccess) (fun q hq => hq) fun hactive => ?_
      have hbusy := h.busy hactive
      have hother : d.cmd ≠ s.evidence.cmd := fun he =>
        hphase ((hbusy.dispatches d hd).1.mp (he.trans hbusy.current))
      exact ⟨s.evidence.specYes, by simp [Evidence.ack, hother]⟩
  next => cases hstep

theorem Inv.outcome {s t : System} {q : Speculation} {o : Outcome} {attempt : Bool} (h : Inv s)
    (hstep : step s (.outcome q o attempt) = some t) : Inv t := by
  simp only [step] at hstep
  split at hstep
  next hq =>
    obtain ⟨r, hout, rfl⟩ := Option.map_eq_some_iff.mp hstep
    have herase : ∀ x ∈ s.speculations.erase q, x ∈ s.speculations :=
      fun x hx => List.mem_of_mem_erase hx
    unfold Coordinator.takeOutcome at hout
    dsimp only at hout
    split at hout
    next hphase =>
      cases hout
      refine h.flag herase fun hactive => ?_
      have hbusy := h.busy hactive
      have hother : q.cmd ≠ s.evidence.cmd := fun he =>
        hphase ((hbusy.speculations q hq).1.mp (he.trans hbusy.current))
      exact ⟨s.evidence.specYes, by simp [Evidence.answer, hother]⟩
    next hphase =>
      have hphase' : q.phase = s.coord.phase := not_not.mp hphase
      have hactive := h.active_of_waiting hq hphase'
      have hbusy := h.busy hactive
      have hcmd := (hbusy.speculations q hq).1.mpr hphase'
      have hown : q.cmd = s.evidence.cmd := hcmd.trans hbusy.current.symm
      split at hout
      next hyes =>
        have ho : o = .yes := of_decide_eq_true hyes
        have hans : s.evidence.answer q o = { s.evidence with specYes := true } := by
          simp [Evidence.answer, hown, ho]
        have hdisp := (hbusy.speculations q hq).2 hcmd
        have hinv := h.flag (b := decide (o = .yes)) herase (v := s.evidence.answer q o)
          fun _ => ⟨true, hans⟩
        refine hinv.committed hactive (by simp [ho]) hout ?_ (Or.inl ?_)
        · rw [hans]
          exact hdisp
        · rw [hans]
      next hno =>
        cases hout
        refine h.flag herase fun _ => ?_
        have ho : o ≠ .yes := by simpa using hno
        exact ⟨s.evidence.specYes, by simp [Evidence.answer, ho]⟩
  next => cases hstep

theorem step_inv {s t : System} {e : Event} (h : Inv s) (hclean : CleanPhase s e)
    (hstep : step s e = some t) : Inv t := by
  cases e with
  | doTxAsync req attempt => exact h.doTxAsync hclean hstep
  | dispatchAck d res outputs attempt => exact h.dispatchAck hclean hstep
  | outcome q o attempt => exact h.outcome hstep

/-- On every run in which no command starts in the phase of an aborted one and none is refused while
the fast path's flag is up, a command is reported as committed only on its own evidence. -/
theorem reported_on_own_evidence {s : System}
    (h : ReachableWhere step CleanPhase System.init s) :
    ∀ r ∈ s.reports, r.OnOwnEvidence :=
  (h.invariant (fun _ _ _ hinv hclean hstep => step_inv hinv hclean hstep) inv_init).reports

def writeRequest : TxRequest where
  pieces := [⟨1, 0, .dispatchable⟩]
  nPiecesAll := 1
  nPiecesDispatchable := 1

/-- The first command commits on the fast path, the second on the original path, with the late
reply to the first one in between. -/
def bothPaths : List Event :=
  [.doTxAsync writeRequest true, .outcome ⟨1, 1⟩ .yes true, .doTxAsync writeRequest true,
    .dispatchAck ⟨1, 1, 0, [1]⟩ .success [⟨1, [], []⟩] true, .outcome ⟨2, 4⟩ .no true,
    .dispatchAck ⟨2, 4, 0, [1]⟩ .success [⟨1, [], []⟩] true]

theorem bothPaths_on_own_evidence :
    ∃ s, ReachableWhere step CleanPhase System.init s ∧
      s.reports.map (fun r => r.tx.res) = [some .success, some .success] ∧
      ∀ r ∈ s.reports, r.OnOwnEvidence := by
  have hrun : (runWhere step CleanPhase System.init bothPaths).any
      (fun s => s.reports.map (fun r => r.tx.res) = [some .success, some .success]) = true := by
    decide
  obtain ⟨s, hs, hres⟩ := exists_reachableWhere hrun
  exact ⟨s, hs, of_decide_eq_true hres, reported_on_own_evidence hs⟩

/-- A command is refused, and the next one is reported as committed without being dispatched. -/
def afterRefusal : List Event :=
  [.doTxAsync writeRequest false, .dispatchAck ⟨1, 1, 0, [1]⟩ .reject [] false,
    .doTxAsync writeRequest false]

theorem committed_without_dispatch :
    ∃ s, Reachable step System.init s ∧ ¬ ∀ r ∈ s.reports, r.OnOwnEvidence := by
  have hrun : (runWhere step (fun _ _ => True) System.init afterRefusal).any
      (fun s => s.reports.any fun r =>
        r.tx.res = some .success ∧ r.evidence.dispatched = false) = true := by
    decide
  obtain ⟨s, hs, hres⟩ := exists_reachableWhere hrun
  obtain ⟨r, hr, hbad⟩ := List.any_eq_true.mp hres
  obtain ⟨hsuc, hnone⟩ := of_decide_eq_true hbad
  refine ⟨s, hs, fun hall => ?_⟩
  rw [(hall r hr hsuc).1] at hnone
  cases hnone

end Jetpack.Rule
