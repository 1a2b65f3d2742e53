import Jetpack.RecoveryQuorum

/-! Recovery at one replica: the quorum events of its rounds, the handlers of the recovery calls and
the pieces of `JetpackRecovery` between two waits. -/

namespace Jetpack.Recovery

structure RecoverySet where
  recSet : Int → Option (List (Key × CmdId)) := fun _ => none
  missedKeyCmdSet : Int → Option (List (Key × Marshallable)) := fun _ => none

def RecoverySet.setRecSet (s : RecoverySet) (sid : Int) (ids : List (Key × CmdId)) : RecoverySet :=
  { s with recSet := Function.update s.recSet sid (some ids) }

def RecoverySet.setMissedKeyCmdSet (s : RecoverySet) (sid : Int)
    (cmds : List (Key × Marshallable)) : RecoverySet :=
  { s with missedKeyCmdSet := Function.update s.missedKeyCmdSet sid (some cmds) }

def isReady (e : QuorumEvent) : Bool := e.yes || e.no

structure JetpackPrepareQuorumEvent extends QuorumEvent where
  maxJepoch : Epoch := -1
  maxOepoch : Epoch := -1
  maxAcceptedBallot : Int := -1
  maxSeenBallot : Int := -1
  acceptedSid : Int := -1
  hasAcceptedValue : Bool := false

def JetpackPrepareQuorumEvent.feedResponse (e : JetpackPrepareQuorumEvent) (y : Bool)
    (jepoch oepoch : Epoch) (acceptedBallot sid maxSeenBallot : Int) : JetpackPrepareQuorumEvent :=
  if y then
    if e.maxAcceptedBallot < acceptedBallot then
      { e with
        toQuorumEvent := e.toQuorumEvent.voteYes
        maxAcceptedBallot := acceptedBallot
        acceptedSid := sid
        hasAcceptedValue := true }
    else { e with toQuorumEvent := e.toQuorumEvent.voteYes }
  else
    { e with
      toQuorumEvent := e.toQuorumEvent.voteNo
      maxJepoch := if e.maxJepoch < jepoch then jepoch else e.maxJepoch
      maxOepoch := if e.maxOepoch < oepoch then oepoch else e.maxOepoch
      maxSeenBallot := max e.maxSeenBallot maxSeenBallot }

structure JetpackAcceptQuorumEvent extends QuorumEvent where
  maxJepoch : Epoch := -1
  maxOepoch : Epoch := -1
  maxSeenBallot : Int := -1

def JetpackAcceptQuorumEvent.feedResponse (e : JetpackAcceptQuorumEvent) (y : Bool)
    (jepoch oepoch : Epoch) (maxSeenBallot : Int) : JetpackAcceptQuorumEvent :=
  if y then { e with toQuorumEvent := e.toQuorumEvent.voteYes }
  else
    { e with
      toQuorumEvent := e.toQuorumEvent.voteNo
      maxJepoch := if e.maxJepoch < jepoch then jepoch else e.maxJepoch
      maxOepoch := if e.maxOepoch < oepoch then oepoch else e.maxOepoch
      maxSeenBallot := max e.maxSeenBallot maxSeenBallot }

/-- The service answers every `RecordCmd` call with `ok = 1`; only a failed call votes no. -/
structure JetpackRecordCmdQuorumEvent extends QuorumEvent where
  recoveredCmds : AList (fun _ : Key => Marshallable) := ∅

def JetpackRecordCmdQuorumEvent.feedResponse (e : JetpackRecordCmdQuorumEvent)
    (batch : List (Key × Marshallable)) : JetpackRecordCmdQuorumEvent :=
  { e with
    toQuorumEvent := e.toQuorumEvent.voteYes
    recoveredCmds := batch.foldl
      (fun m kv => if (m.lookup kv.1).isSome then m else m.insert kv.1 kv.2) e.recoveredCmds }

structure RuleSpeculativeExecuteQuorumEvent extends QuorumEvent where
  numLeader : Nat := 1
  nLeaderYes : Nat := 0
  nLeaderNo : Nat := 0

namespace RuleSpeculativeExecuteQuorumEvent

def feedResponse (e : RuleSpeculativeExecuteQuorumEvent) (y isLeader : Bool) :
    RuleSpeculativeExecuteQuorumEvent :=
  if y then
    { e with
      toQuorumEvent := e.toQuorumEvent.voteYes
      nLeaderYes := e.nLeaderYes + isLeader.toNat }
  else
    { e with
      toQuorumEvent := e.toQuorumEvent.voteNo
      nLeaderNo := e.nLeaderNo + isLeader.toNat }

def fastYes (e : RuleSpeculativeExecuteQuorumEvent) : Bool :=
  e.quorum ≤ e.nVotedYes && e.numLeader ≤ e.nLeaderYes

end RuleSpeculativeExecuteQuorumEvent

/-- The fields of the log server that the fast path and recovery use. -/
structure TxLogServer where
  jetpackStatus : JetpackStatus := .ready
  jepoch : Epoch
  oepoch : Epoch
  commandPool : JetpackCommandPool := {}
  recSet : RecoverySet := {}
  sidCnt : Nat := 0
  isLeader : Bool := false

/-- The two epochs of a call pass the check all recovery handlers make. -/
def TxLogServer.currentFor (r : TxLogServer) (jepoch oepoch : Epoch) : Bool :=
  r.jepoch ≤ jepoch && r.oepoch ≤ oepoch

namespace TxLogServer

/-- `paused` and `skipPoolConflict` stand for `paused_` and for the leader's check of its unexecuted
log, which comes before the pool. -/
def onRuleSpeculativeExecute (r : TxLogServer) (paused skipPoolConflict : Bool) (cmd : Marshallable) :
    Except Fault (TxLogServer × Bool × Bool) :=
  if paused then .ok (r, false, false)
  else if skipPoolConflict && r.isLeader then .ok (r, false, r.isLeader)
  else do
    let (noConflict, pool) ← r.commandPool.pushBack r.jetpackStatus cmd
    return ({ r with commandPool := pool }, noConflict, r.isLeader)

/-- `OriginalPathUnexecutedCmdConflictPlaceHolder`, for a command of the original path only. -/
def placeHolder (r : TxLogServer) (cmd : Marshallable) : Except Fault TxLogServer := do
  let (_, pool) ← r.commandPool.pushBack r.jetpackStatus cmd
  return { r with commandPool := pool }

def ruleCommandPoolGC (r : TxLogServer) (cmd : Marshallable) : Except Fault TxLogServer := do
  let (_, pool) ← r.commandPool.remove cmd
  return { r with commandPool := pool }

def onJetpackBeginRecovery (r : TxLogServer) (oepoch : Epoch) : TxLogServer :=
  { r with jetpackStatus := .recovery, oepoch := oepoch }

/-- The reply is `ok`, the two epochs and the batch. -/
def onJetpackPullRecovery (r : TxLogServer) (jepoch oepoch : Epoch) :
    Except Fault (TxLogServer × Bool × Epoch × Epoch × List (Key × CmdId)) :=
  let r := r.onJetpackBeginRecovery oepoch
  if r.currentFor jepoch oepoch then do
    let batch ← r.commandPool.recoveryBatch
    return (r, true, r.jepoch, r.oepoch, batch)
  else .ok (r, false, r.jepoch, r.oepoch, [])

/-- Records the set, and finds the commands the coordinator misses. -/
def onJetpackRecordCmd (r : TxLogServer) (jepoch oepoch : Epoch) (sid : Int)
    (ids missing : List (Key × CmdId)) : TxLogServer × List (Key × Marshallable) :=
  if r.currentFor jepoch oepoch then
    ({ r with recSet := r.recSet.setRecSet sid ids },
     missing.filterMap fun e => ((r.commandPool.bucket e.1).getCmd e.2).map fun cmd => (e.1, cmd))
  else (r, [])

def seeBallot (r : TxLogServer) (ballot : Int) : TxLogServer :=
  { r with commandPool :=
      { r.commandPool with maxSeenBallot := max r.commandPool.maxSeenBallot ballot } }

/-- The check of `OnJetpackPrepare` and `OnJetpackAccept`, which is not strict in the ballot. -/
def ballotOk (r : TxLogServer) (jepoch oepoch : Epoch) (ballot : Int) : Bool :=
  r.currentFor jepoch oepoch && (r.seeBallot ballot).commandPool.maxSeenBallot ≤ ballot

/-- The reply is read off the new state: the highest accepted ballot and its set. -/
def onJetpackPrepare (r : TxLogServer) (jepoch oepoch : Epoch) (ballot : Int) : TxLogServer × Bool :=
  (r.seeBallot ballot, r.ballotOk jepoch oepoch ballot)

def onJetpackAccept (r : TxLogServer) (jepoch oepoch : Epoch) (ballot sid : Int) :
    TxLogServer × Bool :=
  let r' := r.seeBallot ballot
  if r.ballotOk jepoch oepoch ballot then
    ({ r' with commandPool := { r'.commandPool with maxAcceptedBallot := ballot, sid := sid } }, true)
  else (r', false)

/-- No ballot is compared here. -/
def onJetpackCommit (r : TxLogServer) (jepoch oepoch : Epoch) (sid : Int) : TxLogServer :=
  if r.currentFor jepoch oepoch then
    { r with commandPool := { r.commandPool with sid := sid, committed := true } }
  else r

def onJetpackFinishRecovery (r : TxLogServer) (oepoch : Epoch) : TxLogServer :=
  if r.oepoch ≤ oepoch then
    { r with
      jepoch := oepoch
      oepoch := oepoch
      commandPool := r.commandPool.reset
      jetpackStatus := .ready }
  else r

/-- What the three failure branches of `JetpackRecovery` do with the epochs of the replies. -/
def adoptEpochs (r : TxLogServer) (maxJepoch maxOepoch : Epoch) : TxLogServer :=
  let r := if r.jepoch < maxJepoch then
      { r with jepoch := maxJepoch, commandPool := r.commandPool.reset }
    else r
  if r.oepoch < maxOepoch then { r with oepoch := maxOepoch } else r

/-- `((sid_cnt_++) << 8) | loc_id_`. -/
def nextSid (r : TxLogServer) (locId : Nat) : Int :=
  (BitVec.ofNat 32 r.sidCnt <<< 8 ||| BitVec.ofNat 32 locId).toInt

def missingIds (r : TxLogServer) (ids : List (Key × CmdId)) : List (Key × CmdId) :=
  ids.filter fun e => ((r.commandPool.bucket e.1).getCmd e.2).isNone

/-- The command for a recovered id, from the pool or else from those fetched for this set. -/
def cmdAtHand (r : TxLogServer) (sid : Int) (e : Key × CmdId) : Except Fault (Option Marshallable) :=
  match (r.commandPool.bucket e.1).getCmd e.2 with
  | some cmd => .ok (some cmd)
  | none =>
    match ((r.recSet.missedKeyCmdSet sid).getD []).lookup e.1 with
    | none => .ok none
    | some candidate => do
      let id ← getCombinedCmdID (some candidate)
      return if id = e.2 then some candidate else none

/-- Only vectors of pieces can be dispatched; commands of another kind are passed over. -/
def asTpcCommit : Marshallable → Option TpcCommitCommand
  | .tpcCommit c => some c
  | .vecPiece v => some { cmd := v }
  | _ => none

def cmdsToDispatch (r : TxLogServer) (sid : Int) :
    List (Key × CmdId) → Except Fault (List TpcCommitCommand)
  | [] => .ok []
  | e :: es => do
    let cmd ← r.cmdAtHand sid e
    let rest ← r.cmdsToDispatch sid es
    return (cmd.bind asTpcCommit).toList ++ rest

/-- `JetpackResubmit` up to its wait: an unknown set has no entries. -/
def jetpackResubmit (r : TxLogServer) (sid : Int) : Except Fault (List TpcCommitCommand) :=
  r.cmdsToDispatch sid ((r.recSet.recSet sid).getD [])

theorem pushBack_recovery {p p' : JetpackCommandPool} {cmd : Marshallable} {b : Bool}
    (h : p.pushBack .recovery cmd = .ok (b, p')) : b = false := by
  simp only [JetpackCommandPool.pushBack, if_true, Except.ok.injEq, Prod.mk.injEq] at h
  exact h.1.symm

/-- A replica that is paused or in recovery accepts no speculative command. -/
theorem onRuleSpeculativeExecute_spec {r r' : TxLogServer} {paused skip accepted leader : Bool}
    {cmd : Marshallable}
    (h : r.onRuleSpeculativeExecute paused skip cmd = .ok (r', accepted, leader)) :
    r'.jetpackStatus = r.jetpackStatus ∧ r'.jepoch = r.jepoch ∧
      (paused = true ∨ r.jetpackStatus = .recovery → accepted = false) := by
  simp only [onRuleSpeculativeExecute] at h
  split at h
  · cases h
    exact ⟨rfl, rfl, fun _ => rfl⟩
  split at h
  · cases h
    exact ⟨rfl, rfl, fun _ => rfl⟩
  next hpaused _ =>
    obtain ⟨⟨b, pool⟩, hpush, h⟩ := Except.bind_eq_ok h
    cases h
    exact ⟨rfl, rfl, fun hor => pushBack_recovery (hor.resolve_left hpaused ▸ hpush)⟩

theorem onJetpackPullRecovery_spec {r r' : TxLogServer} {jepoch oepoch : Epoch}
    {reply : Bool × Epoch × Epoch × List (Key × CmdId)}
    (h : r.onJetpackPullRecovery jepoch oepoch = .ok (r', reply)) :
    r'.jetpackStatus = .recovery ∧ r'.jepoch = r.jepoch := by
  simp only [onJetpackPullRecovery] at h
  split at h
  · obtain ⟨batch, -, h⟩ := Except.bind_eq_ok h
    cases h
    exact ⟨rfl, rfl⟩
  · cases h
    exact ⟨rfl, rfl⟩

end TxLogServer

end Jetpack.Recovery
