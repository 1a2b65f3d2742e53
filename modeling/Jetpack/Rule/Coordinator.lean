import Jetpack.Library.Transition
import Jetpack.Command

/-! The client's coordinator of the rule mode. One object runs command after command; the original
path and the fast path of a command race on its phase counter. -/

namespace Jetpack.Rule

inductive CommandStatus
  | waiting
  | dispatchable
  | dispatched
deriving DecidableEq

structure Piece where
  innId : Nat
  parId : Nat
  status : CommandStatus
deriving DecidableEq

/-- What the reply to a piece does to its transaction: the waiting pieces whose inputs it completes
and the pieces it adds. Both are chosen by the stored procedure. -/
structure Output where
  innId : Nat
  ready : List Nat
  added : List (Nat × Nat)
deriving DecidableEq

structure TxData where
  pieces : List Piece
  nPiecesAll : Nat
  nPiecesDispatchable : Nat
  nPiecesDispatched : Nat
  nPiecesDispatchAcked : Nat
  outputs : List Nat
  res : Option Res
deriving DecidableEq

structure TxRequest where
  pieces : List Piece
  nPiecesAll : Nat
  nPiecesDispatchable : Nat
deriving DecidableEq

def createTxnCommand (req : TxRequest) : TxData where
  pieces := req.pieces
  nPiecesAll := req.nPiecesAll
  nPiecesDispatchable := req.nPiecesDispatchable
  nPiecesDispatched := 0
  nPiecesDispatchAcked := 0
  outputs := []
  res := none

/-- The first `max` dispatchable pieces, and all pieces with those marked as dispatched. -/
def takeReady : List Piece → Nat → List Piece × List Piece
  | [], _ => ([], [])
  | p :: ps, 0 => ([], p :: ps)
  | p :: ps, max + 1 =>
    if p.status = .dispatchable then
      (p :: (takeReady ps max).1, { p with status := .dispatched } :: (takeReady ps max).2)
    else
      ((takeReady ps (max + 1)).1, p :: (takeReady ps (max + 1)).2)

def TxData.getReadyPiecesData (tx : TxData) (max : Nat) : Option (List Piece × TxData) :=
  if tx.nPiecesDispatched ≤ tx.nPiecesDispatchable ∧ tx.nPiecesDispatched ≤ tx.nPiecesAll then
    if tx.nPiecesDispatched = tx.nPiecesDispatchable ∨ tx.nPiecesDispatched = tx.nPiecesAll then
      some ([], tx)
    else
      let ready := (takeReady tx.pieces max).1
      some (ready,
        { tx with
          pieces := (takeReady tx.pieces max).2
          nPiecesDispatched := tx.nPiecesDispatched + ready.length })
  else none

def TxData.handleOutput (tx : TxData) (o : Output) : TxData :=
  let woken := tx.pieces.filter fun p => p.status = .waiting ∧ o.ready.contains p.innId
  { tx with
    pieces := tx.pieces.map (fun p =>
      if p.status = .waiting ∧ o.ready.contains p.innId then { p with status := .dispatchable }
      else p) ++ o.added.map fun q => ⟨q.1, q.2, .dispatchable⟩
    nPiecesAll := tx.nPiecesAll + o.added.length
    nPiecesDispatchable := tx.nPiecesDispatchable + woken.length + o.added.length }

def TxData.merge (tx : TxData) (o : Output) : Option TxData :=
  if tx.outputs.contains o.innId then none
  else if tx.nPiecesDispatchable ≤ tx.nPiecesAll ∧ tx.nPiecesDispatched ≤ tx.nPiecesDispatchable ∧
      tx.nPiecesDispatchAcked + 1 ≤ tx.nPiecesDispatched then
    some (TxData.handleOutput
      { tx with
        nPiecesDispatchAcked := tx.nPiecesDispatchAcked + 1
        outputs := tx.outputs ++ [o.innId] } o)
  else none

def TxData.hasMoreUnsentPiece (tx : TxData) : Option Bool :=
  if tx.nPiecesDispatchable ≤ tx.nPiecesAll ∧ tx.nPiecesDispatched ≤ tx.nPiecesDispatchable ∧
      tx.nPiecesDispatchAcked ≤ tx.nPiecesDispatched then
    if tx.nPiecesDispatchable = tx.nPiecesDispatched then
      if tx.nPiecesAll = tx.nPiecesDispatched ∨
          tx.nPiecesDispatchAcked < tx.nPiecesDispatched then
        some false
      else none
    else some true
  else none

/-- A dispatch request. The phase is bound into the callback that takes its replies. -/
structure Dispatch where
  cmd : Nat
  phase : Nat
  parId : Nat
  pieces : List Nat
deriving DecidableEq

/-- A coroutine that waits for the speculative quorum of a command. -/
structure Speculation where
  cmd : Nat
  phase : Nat
deriving DecidableEq

inductive Outcome
  | yes
  | no
  | timeout
deriving DecidableEq

inductive Action
  | dispatch (d : Dispatch)
  | speculate (q : Speculation)
  | reply (tx : TxData)
deriving DecidableEq

/-- `phase` is a `uint32_t`. `cmdId` numbers the commands of the coordinator. -/
structure Coordinator where
  phase : Nat
  cmdId : Nat
  cmd : TxData
  fastPathSuccess : Bool
  dispatchAck : Bool
  committed : Bool
  aborted : Bool
  commitReported : Bool
  goToFastpath : Bool
  nDispatch : Nat
  nDispatchAck : Nat
  dispatchAcks : List (Nat × Bool)
deriving DecidableEq

def Coordinator.start : Coordinator where
  phase := 0
  cmdId := 0
  cmd := createTxnCommand ⟨[], 0, 0⟩
  fastPathSuccess := false
  dispatchAck := false
  committed := false
  aborted := false
  commitReported := false
  goToFastpath := false
  nDispatch := 0
  nDispatchAck := 0
  dispatchAcks := []

/-- The value of `phase_ % 3` at which `GotoNextPhase` takes each of its branches. -/
inductive Phase
  | initEnd
  | dispatched
  | waitingOrigin
deriving DecidableEq

def phaseOf (phase : Nat) : Phase :=
  if phase % 3 = 0 then .initEnd else if phase % 3 = 1 then .dispatched else .waitingOrigin

def Coordinator.reset (m : Coordinator) : Coordinator :=
  { m with
    committed := false
    aborted := false
    commitReported := false
    nDispatch := 0
    nDispatchAck := 0
    dispatchAcks := [] }

def setAck (acks : List (Nat × Bool)) (innId : Nat) (b : Bool) : List (Nat × Bool) :=
  (innId, b) :: acks.filter fun a => a.1 ≠ innId

def partitions (ready : List Piece) : List Nat :=
  (ready.map Piece.parId).dedup

def Coordinator.requests (m : Coordinator) (ready : List Piece) : List Dispatch :=
  (partitions ready).map fun par =>
    ⟨m.cmdId, m.phase, par, (ready.filter fun p => p.parId = par).map Piece.innId⟩

/-- Books the pieces and sends one request for each of their partitions. -/
def Coordinator.dispatchPieces (m : Coordinator) (ready : List Piece) (tx : TxData) :
    Coordinator × List Action :=
  ({ m with
      cmd := tx
      nDispatch := m.nDispatch + ready.length
      dispatchAcks := ready.foldl (fun acks p => setAck acks p.innId false) m.dispatchAcks },
    (m.requests ready).map Action.dispatch)

def Coordinator.dispatchAsync (m : Coordinator) : Option (Coordinator × List Action) := do
  let (ready, tx) ← m.cmd.getReadyPiecesData 100
  return m.dispatchPieces ready tx

def Coordinator.replyWith (m : Coordinator) (res : Option Res) : Coordinator × List Action :=
  ({ m with cmd := { m.cmd with res := res } }, [.reply { m.cmd with res := res }])

/-- `End()`: the reply goes to the client. -/
def Coordinator.endTx (m : Coordinator) : Option (Coordinator × List Action) :=
  if m.committed then
    some (m.replyWith (if m.commitReported then m.cmd.res else some .success))
  else if m.aborted then
    some (m.replyWith (if m.cmd.res = some .wrongLeader then m.cmd.res else some .reject))
  else none

def nextPhase (phase : Nat) : Nat :=
  (phase + 1) % 2 ^ 32

/-- The branch of `GotoNextPhase` that dispatches. `attempt` is the outcome of the fast path's
throttles. -/
def Coordinator.initEnd (m : Coordinator) (attempt : Bool) :
    Option (Coordinator × List Action) :=
  if phaseOf m.phase = .dispatched then do
    let (ready, tx) ← m.cmd.getReadyPiecesData 100
    let sent := Coordinator.dispatchPieces
      { m with
        fastPathSuccess := false
        dispatchAck := false
        goToFastpath := attempt } ready tx
    if attempt then
      if (partitions ready).length = 1 ∧ ready.length = 1 then
        return (sent.1, sent.2 ++ [.speculate ⟨m.cmdId, m.phase⟩])
      else none
    else return sent
  else none

/-- The branch after the dispatch. An aborted command ends here, and the code goes on to the test of
the two paths. -/
def Coordinator.dispatchedEnd (m : Coordinator) : Option (Coordinator × List Action) := do
  let (m, ended) ← if m.aborted then m.endTx else some (m, [])
  if m.fastPathSuccess || m.dispatchAck then
    let m := { m with committed := true, phase := nextPhase m.phase }
    if phaseOf m.phase = .initEnd then do
      let (m, again) ← m.endTx
      return (m, ended ++ again)
    else none
  else if phaseOf m.phase = .waitingOrigin then return (m, ended)
  else none

def Coordinator.waitingOriginEnd (m : Coordinator) : Option (Coordinator × List Action) :=
  let m := { m with committed := true }
  if phaseOf m.phase = .initEnd then m.endTx else none

def Coordinator.gotoNextPhase (m : Coordinator) (attempt : Bool) :
    Option (Coordinator × List Action) :=
  let next := { m with phase := nextPhase m.phase }
  match phaseOf m.phase with
  | .initEnd => next.initEnd attempt
  | .dispatched => next.dispatchedEnd
  | .waitingOrigin => next.waitingOriginEnd

def Coordinator.doTxAsync (m : Coordinator) (req : TxRequest) (attempt : Bool) :
    Option (Coordinator × List Action) :=
  Coordinator.gotoNextPhase
    { m.reset with
      cmdId := m.cmdId + 1
      cmd := createTxnCommand req } attempt

/-- The outputs of a reply are booked and merged one by one. -/
def Coordinator.takeOutputs (m : Coordinator) : List Output → Option Coordinator
  | [] => some m
  | o :: os =>
    if m.dispatchAcks.lookup o.innId = some false then do
      let tx ← m.cmd.merge o
      Coordinator.takeOutputs
        { m with
          cmd := tx
          dispatchAcks := setAck m.dispatchAcks o.innId true } os
    else none

def Coordinator.allDispatchAcked (m : Coordinator) : Option Bool :=
  if m.dispatchAcks.all Prod.snd then
    if m.nDispatchAck = m.nDispatch then some true else none
  else some false

/-- `DispatchAck` with the phase bound at the dispatch. -/
def Coordinator.takeAck (m : Coordinator) (phase : Nat) (res : Res) (outputs : List Output)
    (attempt : Bool) : Option (Coordinator × List Action) :=
  if phase ≠ m.phase then some (m, [])
  else match res with
    | .reject => Coordinator.gotoNextPhase { m with aborted := true } attempt
    | .wrongLeader =>
      Coordinator.gotoNextPhase
        { m with
          aborted := true
          cmd := { m.cmd with res := some .wrongLeader } } attempt
    | .success => do
      let m ← Coordinator.takeOutputs
        { m with nDispatchAck := m.nDispatchAck + outputs.length } outputs
      if ← m.cmd.hasMoreUnsentPiece then m.dispatchAsync
      else if ← m.allDispatchAcked then
        Coordinator.gotoNextPhase { m with dispatchAck := true } attempt
      else return (m, [])

/-- The end of `BroadcastRuleSpeculativeExecute`, once its event is ready. The flag is written
before the phase is compared. -/
def Coordinator.takeOutcome (m : Coordinator) (phase : Nat) (outcome : Outcome) (attempt : Bool) :
    Option (Coordinator × List Action) :=
  let m := { m with fastPathSuccess := decide (outcome = .yes) }
  if phase ≠ m.phase then some (m, [])
  else if m.fastPathSuccess then m.gotoNextPhase attempt
  else some (m, [])

theorem TxData.getReadyPiecesData_spec {tx tx' : TxData} {max : Nat} {ready : List Piece}
    (h : tx.getReadyPiecesData max = some (ready, tx')) :
    tx'.outputs = tx.outputs ∧ tx'.nPiecesDispatchAcked = tx.nPiecesDispatchAcked ∧
      tx'.nPiecesDispatched = tx.nPiecesDispatched + ready.length := by
  unfold TxData.getReadyPiecesData at h
  split at h
  · split at h
    · cases h
      exact ⟨rfl, rfl, rfl⟩
    · cases h
      exact ⟨rfl, rfl, rfl⟩
  · cases h

theorem TxData.merge_spec {tx tx' : TxData} {o : Output} (h : tx.merge o = some tx') :
    o.innId ∉ tx.outputs ∧ tx'.outputs = tx.outputs ++ [o.innId] ∧
      tx'.nPiecesDispatchAcked = tx.nPiecesDispatchAcked + 1 ∧
      tx'.nPiecesDispatched = tx.nPiecesDispatched := by
  unfold TxData.merge at h
  split at h
  · cases h
  · next hnew =>
    split at h
    · cases h
      exact ⟨by simpa using hnew, rfl, rfl, rfl⟩
    · cases h

theorem TxData.all_sent_of_acked {tx : TxData} (h : tx.hasMoreUnsentPiece = some false)
    (hacked : tx.nPiecesDispatchAcked = tx.nPiecesDispatched) :
    tx.nPiecesAll = tx.nPiecesDispatched := by
  unfold TxData.hasMoreUnsentPiece at h
  split at h
  · split at h
    · split at h
      · next hor => omega
      · cases h
    · cases h
  · cases h

theorem mem_setAck {acks : List (Nat × Bool)} {innId : Nat} {b : Bool} {a : Nat × Bool} :
    a ∈ setAck acks innId b ↔ a = (innId, b) ∨ a ∈ acks ∧ a.1 ≠ innId := by
  simp [setAck]

theorem mem_setAcks {ready : List Piece} {acks : List (Nat × Bool)} {a : Nat × Bool} :
    a ∈ ready.foldl (fun acks p => setAck acks p.innId false) acks ↔
      (a ∈ acks ∧ ∀ p ∈ ready, a.1 ≠ p.innId) ∨ (a.2 = false ∧ ∃ p ∈ ready, a.1 = p.innId) := by
  induction ready generalizing acks with
  | nil => simp
  | cons p ready ih =>
    rw [List.foldl_cons, ih, mem_setAck]
    obtain ⟨i, b⟩ := a
    have hnone : (∀ p ∈ ready, i ≠ p.innId) ↔ ¬ ∃ p ∈ ready, i = p.innId := by simp
    simp only [Prod.mk.injEq, List.forall_mem_cons, List.exists_mem_cons_iff, hnone]
    tauto

/-- The counters and the table of acknowledgements agree with the pieces `sent` and with the outputs
that were merged. -/
structure Booked (m : Coordinator) (sent : List Nat) : Prop where
  dispatched : m.cmd.nPiecesDispatched = m.nDispatch
  merged : m.cmd.nPiecesDispatchAcked = m.cmd.outputs.length
  nodup : m.cmd.outputs.Nodup
  acked : ∀ i, (i, true) ∈ m.dispatchAcks → i ∈ m.cmd.outputs
  booked : ∀ i ∈ sent, ∃ b, (i, b) ∈ m.dispatchAcks

theorem mem_requests {m : Coordinator} {ready : List Piece} {d : Dispatch}
    (h : d ∈ m.requests ready) :
    d.cmd = m.cmdId ∧ d.phase = m.phase ∧ ∀ i ∈ d.pieces, ∃ p ∈ ready, p.innId = i := by
  obtain ⟨par, -, rfl⟩ := List.mem_map.mp h
  refine ⟨rfl, rfl, fun i hi => ?_⟩
  obtain ⟨p, hp, rfl⟩ := List.mem_map.mp hi
  exact ⟨p, (List.mem_filter.mp hp).1, rfl⟩

theorem Booked.dispatchPieces {m : Coordinator} {sent : List Nat} {ready : List Piece}
    {tx : TxData} {max : Nat} (h : Booked m sent)
    (hready : m.cmd.getReadyPiecesData max = some (ready, tx)) :
    Booked (m.dispatchPieces ready tx).1
      (sent ++ (m.requests ready).flatMap Dispatch.pieces) := by
  obtain ⟨hout, hackd, hdisp⟩ := TxData.getReadyPiecesData_spec hready
  refine ⟨?_, ?_, ?_, ?_, ?_⟩
  · show tx.nPiecesDispatched = m.nDispatch + ready.length
    rw [hdisp, h.dispatched]
  · show tx.nPiecesDispatchAcked = tx.outputs.length
    rw [hackd, hout, h.merged]
  · show tx.outputs.Nodup
    rw [hout]
    exact h.nodup
  · intro i hi
    show i ∈ tx.outputs
    rw [hout]
    rcases mem_setAcks.mp hi with ⟨hi, -⟩ | ⟨hfalse, -⟩
    · exact h.acked i hi
    · cases hfalse
  · intro i hi
    by_cases hnew : ∃ p ∈ ready, i = p.innId
    · exact ⟨false, mem_setAcks.mpr (Or.inr ⟨rfl, hnew⟩)⟩
    · have hold : i ∈ sent := by
        rcases List.mem_append.mp hi with hi | hi
        · exact hi
        · obtain ⟨d, hd, hi⟩ := List.mem_flatMap.mp hi
          obtain ⟨p, hp, rfl⟩ := (mem_requests hd).2.2 i hi
          exact absurd ⟨p, hp, rfl⟩ hnew
      obtain ⟨b, hb⟩ := h.booked i hold
      exact ⟨b, mem_setAcks.mpr (Or.inl ⟨hb, fun p hp he => hnew ⟨p, hp, he⟩⟩)⟩

theorem takeOutputs_frame {os : List Output} {m m' : Coordinator}
    (h : m.takeOutputs os = some m') :
    ∃ tx acks, m' = { m with cmd := tx, dispatchAcks := acks } ∧
      tx.outputs = m.cmd.outputs ++ os.map Output.innId := by
  induction os generalizing m with
  | nil =>
    cases h
    exact ⟨m'.cmd, m'.dispatchAcks, rfl, by simp⟩
  | cons o os ih =>
    unfold Coordinator.takeOutputs at h
    split at h
    · obtain ⟨tx, htx, h⟩ := Option.bind_eq_some_iff.mp h
      obtain ⟨tx', acks, rfl, hout⟩ := ih h
      obtain ⟨-, hnew, -, -⟩ := TxData.merge_spec htx
      refine ⟨tx', acks, rfl, ?_⟩
      simp [hout, hnew]
    · cases h

theorem Booked.takeOutputs {os : List Output} {m m' : Coordinator} {sent : List Nat}
    (hb : Booked m sent) (h : m.takeOutputs os = some m') : Booked m' sent := by
  induction os generalizing m with
  | nil =>
    cases h
    exact hb
  | cons o os ih =>
    unfold Coordinator.takeOutputs at h
    split at h
    · obtain ⟨tx, htx, h⟩ := Option.bind_eq_some_iff.mp h
      obtain ⟨hnew, hout, hackd, hdisp⟩ := TxData.merge_spec htx
      refine ih ⟨?_, ?_, ?_, ?_, ?_⟩ h
      · show tx.nPiecesDispatched = m.nDispatch
        rw [hdisp, hb.dispatched]
      · show tx.nPiecesDispatchAcked = tx.outputs.length
        rw [hackd, hout, hb.merged, List.length_append, List.length_singleton]
      · show tx.outputs.Nodup
        rw [hout, List.nodup_append_comm]
        exact List.nodup_cons.mpr ⟨hnew, hb.nodup⟩
      · intro i hi
        show i ∈ tx.outputs
        rw [hout, List.mem_append, List.mem_singleton]
        rcases mem_setAck.mp hi with hi | ⟨hi, -⟩
        · exact Or.inr (Prod.mk.inj hi).1
        · exact Or.inl (hb.acked i hi)
      · intro i hi
        obtain ⟨b, hib⟩ := hb.booked i hi
        by_cases hio : i = o.innId
        · exact ⟨true, mem_setAck.mpr (Or.inl (by rw [hio]))⟩
        · exact ⟨b, mem_setAck.mpr (Or.inr ⟨hib, hio⟩)⟩
    · cases h

/-- When the coordinator counts every dispatch as acknowledged, all pieces of the transaction
are. -/
theorem Booked.all_acked {m : Coordinator} {sent : List Nat} (h : Booked m sent)
    (hcount : m.nDispatchAck = m.cmd.outputs.length)
    (hmore : m.cmd.hasMoreUnsentPiece = some false) (hall : m.allDispatchAcked = some true) :
    m.cmd.outputs.length = m.cmd.nPiecesAll ∧ ∀ i ∈ sent, i ∈ m.cmd.outputs := by
  unfold Coordinator.allDispatchAcked at hall
  split at hall
  · next hacks =>
    split at hall
    · next hn =>
      have hd := h.dispatched
      have hm := h.merged
      have hsent := TxData.all_sent_of_acked hmore (by omega)
      refine ⟨by omega, fun i hi => ?_⟩
      obtain ⟨b, hb⟩ := h.booked i hi
      have htrue : b = true := List.all_eq_true.mp hacks (i, b) hb
      exact h.acked i (htrue ▸ hb)
    · cases hall
  · cases hall

theorem phaseOf_eq_dispatched {p : Nat} : phaseOf p = .dispatched ↔ p % 3 = 1 := by
  unfold phaseOf
  split
  · next h => simp [h]
  · next h =>
    split
    · next h' => simp [h']
    · next h' => simp [h']

theorem phaseOf_eq_waitingOrigin {p : Nat} : phaseOf p = .waitingOrigin ↔ p % 3 = 2 := by
  unfold phaseOf
  split
  · next h => simp [h]
  · next h =>
    split
    · next h' => simp [h']
    · next h' =>
      have : p % 3 = 2 := by omega
      simp [this]

/-- The phase never wraps inside a command: `2 ^ 32 - 1` is a multiple of three. -/
theorem nextPhase_eq {p : Nat} (h : p < 2 ^ 32) (hp : p % 3 ≠ 0) :
    nextPhase p = p + 1 ∧ p + 1 < 2 ^ 32 := by
  have hroom : p + 1 < 2 ^ 32 := by omega
  exact ⟨Nat.mod_eq_of_lt hroom, hroom⟩

theorem nextPhase_eq_of_dispatched {p : Nat} (h : p < 2 ^ 32) (hp : nextPhase p % 3 = 1) :
    nextPhase p = p + 1 ∧ p + 1 < 2 ^ 32 := by
  by_cases hroom : p + 1 < 2 ^ 32
  · exact ⟨Nat.mod_eq_of_lt hroom, hroom⟩
  · have hwrap : nextPhase p = 0 := by
      have hlast : p + 1 = 2 ^ 32 := by omega
      rw [nextPhase, hlast, Nat.mod_self]
    rw [hwrap] at hp
    cases hp

theorem gotoNextPhase_aborted {m m' : Coordinator} {attempt : Bool} {acts : List Action}
    (h : m.gotoNextPhase attempt = some (m', acts)) (hlt : m.phase < 2 ^ 32)
    (hphase : m.phase % 3 = 1) (hc : m.committed = false) (ha : m.aborted = true)
    (hf : m.fastPathSuccess = false) (hd : m.dispatchAck = false) :
    ∃ tx, acts = [.reply tx] ∧ tx.res ≠ some .success ∧
      m'.phase = m.phase + 1 ∧ m'.cmdId = m.cmdId ∧ m.phase + 1 < 2 ^ 32 := by
  obtain ⟨hnext, hlt'⟩ := nextPhase_eq hlt (by omega)
  unfold Coordinator.gotoNextPhase at h
  rw [phaseOf_eq_dispatched.mpr hphase] at h
  simp only [Coordinator.dispatchedEnd, ha, if_true, Coordinator.endTx, hc, Bool.false_eq_true,
    if_false, Coordinator.replyWith, Option.bind_eq_bind, Option.bind_some, hf, hd, Bool.or_self,
    hnext] at h
  split at h
  · cases h
    refine ⟨_, rfl, ?_, rfl, rfl, hlt'⟩
    dsimp only
    split
    · next hw =>
      rw [hw]
      simp
    · simp
  · cases h

theorem gotoNextPhase_done {m m' : Coordinator} {attempt : Bool} {acts : List Action}
    (h : m.gotoNextPhase attempt = some (m', acts)) (hlt : m.phase < 2 ^ 32)
    (hphase : m.phase % 3 = 1) (hr : m.commitReported = false) (ha : m.aborted = false)
    (hf : (m.fastPathSuccess || m.dispatchAck) = true) :
    acts = [.reply { m.cmd with res := some .success }] ∧ m'.phase = m.phase + 2 ∧
      m'.cmdId = m.cmdId ∧ m.phase + 2 < 2 ^ 32 := by
  obtain ⟨hnext, hlt'⟩ := nextPhase_eq hlt (by omega)
  obtain ⟨hnext', hlt''⟩ := nextPhase_eq hlt' (by omega)
  unfold Coordinator.gotoNextPhase at h
  rw [phaseOf_eq_dispatched.mpr hphase] at h
  simp only [Coordinator.dispatchedEnd, ha, Bool.false_eq_true, if_false, Option.bind_eq_bind,
    Option.bind_some, hf, if_true, hnext, hnext'] at h
  split at h
  · simp only [Coordinator.endTx, if_true, hr, Bool.false_eq_true, if_false,
      Coordinator.replyWith, Option.pure_def, Option.bind_some] at h
    cases h
    exact ⟨rfl, rfl, rfl, hlt''⟩
  · cases h

end Jetpack.Rule
