import Jetpack.Library.BallotWindow
import Jetpack.Recovery.Server

/-! The replicas of a partition with their clients and recovery coordinators. Calls and replies stay
where they are once sent, so each can be delivered at any time, again, or never. -/

namespace Jetpack.Recovery

variable {n : Nat}

/-- A run of `JetpackRecovery`: its coordinator and how many it ran before. -/
abbrev Round (n : Nat) := Fin n × Nat

inductive Call (n : Nat)
  | pullRecovery (round : Round n) (jepoch oepoch : Epoch)
  | prepare (round : Round n) (jepoch oepoch : Epoch) (ballot : Int)
  | recordCmd (round : Round n) (jepoch oepoch : Epoch) (sid : Int) (ids missing : List (Key × CmdId))
  | accept (round : Round n) (jepoch oepoch : Epoch) (ballot sid : Int)
  | commit (round : Round n) (jepoch oepoch : Epoch) (sid : Int)
  | dispatch (round : Round n) (cmd : TpcCommitCommand)
  | finishRecovery (round : Round n) (oepoch : Epoch)
  deriving DecidableEq

structure PrepareReply (n : Nat) where
  site : Fin n
  ok : Bool
  jepoch : Epoch
  oepoch : Epoch
  maxSeenBallot : Int
  acceptedBallot : Int
  sid : Int

structure AcceptReply (n : Nat) where
  site : Fin n
  ok : Bool
  jepoch : Epoch
  oepoch : Epoch
  maxSeenBallot : Int

inductive Reply (n : Nat)
  | pullRecovery (round : Round n) (r : PullReply n)
  | prepare (round : Round n) (r : PrepareReply n)
  | recordCmd (round : Round n) (site : Fin n) (batch : List (Key × Marshallable))
  | accept (round : Round n) (r : AcceptReply n)
  | dispatch (round : Round n) (call : Nat)
  | finishRecovery (round : Round n) (site : Fin n)

/-- The first wait of `JetpackRecovery`. A call is answered once by each site. -/
structure RoundOne (n : Nat) where
  prepared : Int
  pull : JetpackPullRecoveryQuorumEvent
  pullFed : List (PullReply n) := []
  prepare : JetpackPrepareQuorumEvent
  prepareFed : List (PrepareReply n) := []

/-- The second wait. `accept` is missing when the prepare call failed. -/
structure RoundTwo (n : Nat) where
  ids : List (Key × CmdId)
  sid : Int
  proposeSid : Int
  prepare : JetpackPrepareQuorumEvent
  prepareFed : List (PrepareReply n)
  record : JetpackRecordCmdQuorumEvent
  recordFed : List (Fin n) := []
  accept : Option JetpackAcceptQuorumEvent
  acceptFed : List (AcceptReply n) := []

inductive Stage (n : Nat)
  | idle
  | one (r : RoundOne n)
  | two (r : RoundTwo n)
  | resubmit (calls : List Nat) (fed : List Nat)
  | finish (e : QuorumEvent) (fed : List (Fin n))

structure Attempt (n : Nat) where
  cmd : Marshallable
  event : RuleSpeculativeExecuteQuorumEvent
  fed : List (Fin n) := []
  acks : List (Fin n) := []

structure SpecReply (n : Nat) where
  attempt : Nat
  site : Fin n
  accepted : Bool
  isLeader : Bool

def Attempt.feed (a : Attempt n) (r : SpecReply n) : Attempt n :=
  { a with
    event := a.event.feedResponse r.accepted r.isLeader
    fed := r.site :: a.fed
    acks := if r.accepted then r.site :: a.acks else a.acks }

def Reply.round : Reply n → Round n
  | .pullRecovery round _ | .prepare round _ | .recordCmd round _ _ | .accept round _
  | .dispatch round _ | .finishRecovery round _ => round

def RoundOne.feedPull (w : RoundOne n) (r : PullReply n) : RoundOne n :=
  { w with pull := w.pull.feedResponse r.ok r.jepoch r.oepoch r.batch, pullFed := r :: w.pullFed }

def feedPrepareEvent (e : JetpackPrepareQuorumEvent) (r : PrepareReply n) :
    JetpackPrepareQuorumEvent :=
  e.feedResponse r.ok r.jepoch r.oepoch r.acceptedBallot r.sid r.maxSeenBallot

/-- The stage after a reply to a call of the run under way. -/
def feedStage : Stage n → Reply n → Option (Stage n)
  | .one w, .pullRecovery _ r =>
    if (w.pullFed.map PullReply.site).contains r.site then none else some (.one (w.feedPull r))
  | .one w, .prepare _ r =>
    if (w.prepareFed.map PrepareReply.site).contains r.site then none
    else some (.one
      { w with prepare := feedPrepareEvent w.prepare r, prepareFed := r :: w.prepareFed })
  | .two w, .prepare _ r =>
    if (w.prepareFed.map PrepareReply.site).contains r.site then none
    else some (.two
      { w with prepare := feedPrepareEvent w.prepare r, prepareFed := r :: w.prepareFed })
  | .two w, .recordCmd _ site batch =>
    if w.recordFed.contains site then none
    else some (.two
      { w with record := w.record.feedResponse batch, recordFed := site :: w.recordFed })
  | .two w, .accept _ r =>
    match w.accept with
    | none => none
    | some e =>
      if (w.acceptFed.map AcceptReply.site).contains r.site then none
      else some (.two
        { w with
          accept := some (e.feedResponse r.ok r.jepoch r.oepoch r.maxSeenBallot)
          acceptFed := r :: w.acceptFed })
  | .resubmit calls fed, .dispatch _ k =>
    if calls.contains k && !fed.contains k then some (.resubmit calls (k :: fed)) else none
  | .finish e fed, .finishRecovery _ site =>
    if fed.contains site then none else some (.finish e.voteYes (site :: fed))
  | _, _ => none

/-- The set to propose: the accepted one of the highest ballot, or else its own. -/
def proposeSid (prepare : JetpackPrepareQuorumEvent) (sid : Int) : Int :=
  if prepare.yes && prepare.hasAcceptedValue then prepare.acceptedSid else sid

/-- A log entry, and the recovery that resubmitted it if one did. -/
structure LogEntry (n : Nat) where
  cmd : TpcCommitCommand
  source : Option (Round n)
  deriving DecidableEq

/-- A command a client saw committed on the fast path, and the replicas it counted. -/
structure FastCommit (n : Nat) where
  cmd : Marshallable
  keys : PoolKeys
  acks : List (Fin n)

/-- The state, and below `stage` the history that properties speak about: what clients saw committed,
what was pending when each recovery began, each set proposed with the ballot prepared for it, and
the log each resubmission started from. -/
structure System (n : Nat) where
  server : Fin n → TxLogServer
  crashed : Fin n → Bool := fun _ => false
  attempts : List (Attempt n) := []
  issued : List Marshallable := []
  specReplies : List (SpecReply n) := []
  log : List (LogEntry n) := []
  applied : Fin n → Nat := fun _ => 0
  calls : List (Call n) := []
  replies : List (Reply n) := []
  runs : Fin n → Nat := fun _ => 0
  stage : Fin n → Stage n := fun _ => .idle
  fastCommitted : List (FastCommit n) := []
  begun : List (Round n × List (FastCommit n)) := []
  proposals : List (BallotWindow.Proposal (Round n) Int) := []
  resubmits : List (Round n × List (LogEntry n)) := []

def System.init (jepoch oepoch : Epoch) : System n :=
  { server := fun _ => { jepoch := jepoch, oepoch := oepoch } }

inductive Event (n : Nat)
  | issue (cmd : VecPieceData)
  | speculate (v : Fin n) (attempt : Nat) (paused skipPoolConflict : Bool)
  | feedSpec (k : Nat)
  | fastCommit (attempt : Nat)
  | placeHolder (v : Fin n) (cmd : Marshallable)
  | original (cmd : TpcCommitCommand)
  | apply (v : Fin n)
  | setLeader (v : Fin n) (isLeader : Bool)
  | crash (v : Fin n)
  | startRecovery (i : Fin n)
  | deliver (v : Fin n) (k : Nat)
  | deliverDispatch (k : Nat) (accepted : Bool)
  | recordError (v : Fin n) (k : Nat)
  | feed (k : Nat)
  | roundOneDone (i : Fin n)
  | roundTwoDone (i : Fin n)
  | resubmitDone (i : Fin n)
  | finishDone (i : Fin n)

namespace System

def setServer (s : System n) (v : Fin n) (r : TxLogServer) : System n :=
  { s with server := Function.update s.server v r }

def setStage (s : System n) (i : Fin n) (st : Stage n) : System n :=
  { s with stage := Function.update s.stage i st }

def round (s : System n) (i : Fin n) : Round n := (i, s.runs i)

/-- Commands with one id are one command, since clients number their own. -/
def idsAgree (issued : List Marshallable) (cmd : Marshallable) : Bool :=
  issued.all fun c => c = cmd ∨
    ((extractPoolKeys c).toOption.join.map PoolKeys.cmdId
      ≠ (extractPoolKeys cmd).toOption.join.map PoolKeys.cmdId)

def sameCommand (k : PoolKeys) (e : LogEntry n) : Bool :=
  match extractPoolKeys (.tpcCommit e.cmd) with
  | .ok (some k') => k'.key = k.key ∧ k'.cmdId = k.cmdId
  | _ => false

def inLog (log : List (LogEntry n)) (k : PoolKeys) : Bool := log.any (sameCommand k)

/-- The fast-committed writes that the original path does not have yet. -/
def pending (s : System n) : List (FastCommit n) :=
  s.fastCommitted.filter fun c => c.keys.isWrite && !inLog s.log c.keys

def issue (s : System n) (cmd : VecPieceData) : Option (System n) :=
  if idsAgree s.issued (.vecPiece cmd) then
    some { s with
      issued := s.issued ++ [.vecPiece cmd]
      attempts := s.attempts ++
        [{ cmd := .vecPiece cmd, event := { nTotal := n, quorum := ruleSuperMajority n } }] }
  else none

def speculate (s : System n) (v : Fin n) (k : Nat) (paused skipPoolConflict : Bool) :
    Option (System n) := do
  let a ← s.attempts[k]?
  let (r, accepted, isLeader) ←
    ((s.server v).onRuleSpeculativeExecute paused skipPoolConflict a.cmd).toOption
  return { s.setServer v r with specReplies := s.specReplies ++ [⟨k, v, accepted, isLeader⟩] }

def feedSpec (s : System n) (k : Nat) : Option (System n) := do
  let r ← s.specReplies[k]?
  let a ← s.attempts[r.attempt]?
  if a.fed.contains r.site then none
  else return { s with attempts := s.attempts.set r.attempt (a.feed r) }

def fastCommit (s : System n) (k : Nat) : Option (System n) := do
  let a ← s.attempts[k]?
  let keys ← (extractPoolKeys a.cmd).toOption.join
  if a.event.fastYes then
    return { s with fastCommitted := s.fastCommitted ++ [⟨a.cmd, keys, a.acks⟩] }
  else none

def placeHolder (s : System n) (v : Fin n) (cmd : Marshallable) : Option (System n) :=
  if idsAgree s.issued cmd then do
    let r ← ((s.server v).placeHolder cmd).toOption
    return { s.setServer v r with issued := s.issued ++ [cmd] }
  else none

/-- The replica executes its next log entry and takes the command out of its pool. -/
def apply (s : System n) (v : Fin n) : Option (System n) := do
  let e ← s.log[s.applied v]?
  let r ← ((s.server v).ruleCommandPoolGC (.tpcCommit e.cmd)).toOption
  return { s.setServer v r with applied := Function.update s.applied v (s.applied v + 1) }

/-- At most `(n - 1) / 2` replicas crash. -/
def crash (s : System n) (v : Fin n) : Option (System n) :=
  let crashed := Function.update s.crashed v true
  if ((List.finRange n).countP fun u => crashed u) ≤ maxFailure n then
    some { s with crashed := crashed }
  else none

/-- `JetpackRecoveryEntry` up to the first wait of `JetpackRecovery`. -/
def startRecovery (s : System n) (i : Fin n) : Option (System n) :=
  match s.stage i with
  | .idle =>
    let r := { s.server i with jetpackStatus := .recovery }
    let round : Round n := (i, s.runs i + 1)
    let ballot := r.commandPool.maxSeenBallot
    some { s.setServer i r with
      runs := Function.update s.runs i (s.runs i + 1)
      stage := Function.update s.stage i (.one
        { prepared := ballot
          pull := { nTotal := n, quorum := n / 2 + 1 }
          prepare := { nTotal := n, quorum := n / 2 + 1 } })
      calls := s.calls ++
        [.pullRecovery round r.jepoch r.oepoch, .prepare round r.jepoch r.oepoch ballot]
      begun := s.begun ++ [(round, s.pending)] }
  | _ => none

def deliver (s : System n) (v : Fin n) (call : Call n) : Option (System n) :=
  let r := s.server v
  match call with
  | .pullRecovery round jepoch oepoch => do
    let (r', ok, j, o, batch) ← (r.onJetpackPullRecovery jepoch oepoch).toOption
    return { s.setServer v r' with
      replies := s.replies ++ [.pullRecovery round ⟨v, ok, j, o, some batch⟩] }
  | .prepare round jepoch oepoch ballot =>
    let out := r.onJetpackPrepare jepoch oepoch ballot
    some { s.setServer v out.1 with
      replies := s.replies ++ [.prepare round
        ⟨v, out.2, out.1.jepoch, out.1.oepoch, out.1.commandPool.maxSeenBallot,
          out.1.commandPool.maxAcceptedBallot, out.1.commandPool.sid⟩] }
  | .recordCmd round jepoch oepoch sid ids missing =>
    let out := r.onJetpackRecordCmd jepoch oepoch sid ids missing
    some { s.setServer v out.1 with replies := s.replies ++ [.recordCmd round v out.2] }
  | .accept round jepoch oepoch ballot sid =>
    let out := r.onJetpackAccept jepoch oepoch ballot sid
    some { s.setServer v out.1 with
      replies := s.replies ++ [.accept round
        ⟨v, out.2, out.1.jepoch, out.1.oepoch, out.1.commandPool.maxSeenBallot⟩] }
  | .commit _ jepoch oepoch sid => some (s.setServer v (r.onJetpackCommit jepoch oepoch sid))
  | .dispatch _ _ => none
  | .finishRecovery round oepoch =>
    some { s.setServer v (r.onJetpackFinishRecovery oepoch) with
      replies := s.replies ++ [.finishRecovery round v] }

/-- The leader appends the command to its log or turns it down, and answers either way. -/
def deliverDispatch (s : System n) (k : Nat) (accepted : Bool) : Option (System n) :=
  match s.calls[k]? with
  | some (.dispatch round cmd) =>
    some { s with
      log := if accepted then s.log ++ [⟨cmd, some round⟩] else s.log
      replies := s.replies ++ [.dispatch round k] }
  | _ => none

/-- A `RecordCmd` call fails, which counts as a no. -/
def recordError (s : System n) (v : Fin n) (call : Call n) : Option (System n) :=
  match call with
  | .recordCmd round _ _ _ _ _ =>
    match s.stage round.1 with
    | .two w =>
      if s.round round.1 == round && !w.recordFed.contains v then
        some (s.setStage round.1 (.two
          { w with
            record := { w.record with toQuorumEvent := w.record.toQuorumEvent.voteNo }
            recordFed := v :: w.recordFed }))
      else none
    | _ => none
  | _ => none

def feed (s : System n) (k : Nat) : Option (System n) := do
  let reply ← s.replies[k]?
  if s.round reply.round.1 = reply.round then
    let st ← feedStage (s.stage reply.round.1) reply
    return s.setStage reply.round.1 st
  else none

/-- `JetpackRecovery` from the first wait to the second. -/
def roundOneDone (s : System n) (i : Fin n) : Option (System n) :=
  let r := s.server i
  match s.stage i with
  | .one w =>
    if isReady w.prepare.toQuorumEvent && isReady w.pull.toQuorumEvent then
      if w.pull.yes then
        let ids := w.pull.getRecoveredKeyIds
        let sid := r.nextSid i
        let propose := proposeSid w.prepare sid
        let r := { r with sidCnt := r.sidCnt + 1, recSet := r.recSet.setRecSet sid ids }
        let record := Call.recordCmd (s.round i) r.jepoch r.oepoch sid ids (r.missingIds ids)
        let w' : RoundTwo n :=
          { ids := ids, sid := sid, proposeSid := propose
            prepare := w.prepare, prepareFed := w.prepareFed
            record := { nTotal := n, quorum := n / 2 + 1 }
            accept := if w.prepare.yes then some { nTotal := n, quorum := n / 2 + 1 } else none }
        if w.prepare.yes then
          let ballot := r.commandPool.maxSeenBallot + 1
          let r := { r with commandPool := { r.commandPool with maxSeenBallot := ballot } }
          some { (s.setServer i r).setStage i (.two w') with
            calls := s.calls ++ [record, .accept (s.round i) r.jepoch r.oepoch ballot propose]
            proposals := s.proposals ++ [⟨s.round i, w.prepared, ballot, propose⟩] }
        else some { (s.setServer i r).setStage i (.two w') with calls := s.calls ++ [record] }
      else some ((s.setServer i (r.adoptEpochs w.pull.maxJepoch w.pull.maxOepoch)).setStage i .idle)
    else none
  | _ => none

/-- A failed round leaves the highest ballot among the refusals. -/
def failRound (r : TxLogServer) (maxJepoch maxOepoch : Epoch) (maxSeenBallot : Int) : TxLogServer :=
  (r.adoptEpochs maxJepoch maxOepoch).seeBallot maxSeenBallot

/-- `FinishRecovery` is broadcast and a majority of its answers awaited. -/
def broadcastFinish (s : System n) (i : Fin n) : System n :=
  { s.setStage i (.finish { nTotal := n, quorum := n / 2 + 1 } []) with
    calls := s.calls ++ [.finishRecovery (s.round i) (s.server i).oepoch] }

/-- `JetpackCommit` and `JetpackResubmit` up to the wait for the dispatches. -/
def jetpackCommit (s : System n) (i : Fin n) (sid : Int) : Option (System n) := do
  let r := s.server i
  let cmds ← (r.jetpackResubmit sid).toOption
  let dispatches := cmds.map fun c =>
    Call.dispatch (s.round i) { c with cmd := { c.cmd with isRecoveryCommand := true } }
  let base := s.calls.length + 1
  let commit := Call.commit (s.round i) r.jepoch r.oepoch sid
  let s' := { s with
    calls := s.calls ++ commit :: dispatches
    resubmits := s.resubmits ++ [(s.round i, s.log)] }
  if cmds.isEmpty then return s'.broadcastFinish i
  else return s'.setStage i (.resubmit (List.range' base cmds.length) [])

/-- The commands that `RecordCmd` brought are kept under the coordinator's own set. -/
def storeMissed (r : TxLogServer) (w : RoundTwo n) : TxLogServer :=
  let missed := w.record.recoveredCmds.entries.map fun e => (e.1, e.2)
  if w.record.yes then { r with recSet := r.recSet.setMissedKeyCmdSet w.sid missed } else r

/-- `JetpackRecovery` from the second wait on. -/
def roundTwoDone (s : System n) (i : Fin n) : Option (System n) :=
  let r := s.server i
  match s.stage i with
  | .two w =>
    if isReady w.record.toQuorumEvent && w.accept.all (fun e => isReady e.toQuorumEvent) then
      let r := storeMissed r w
      match w.accept with
      | none =>
        some ((s.setServer i (failRound r w.prepare.maxJepoch w.prepare.maxOepoch
          w.prepare.maxSeenBallot)).setStage i .idle)
      | some e =>
        if e.yes then (s.setServer i r).jetpackCommit i w.proposeSid
        else some ((s.setServer i (failRound r e.maxJepoch e.maxOepoch e.maxSeenBallot)).setStage i
          .idle)
    else none
  | _ => none

/-- Every dispatch was answered, whatever the answer. -/
def resubmitDone (s : System n) (i : Fin n) : Option (System n) :=
  match s.stage i with
  | .resubmit calls fed => if calls.length ≤ fed.length then some (s.broadcastFinish i) else none
  | _ => none

def finishDone (s : System n) (i : Fin n) : Option (System n) :=
  match s.stage i with
  | .finish e _ => if e.yes then some (s.setStage i .idle) else none
  | _ => none

def live (s : System n) (v : Fin n) (next : Option (System n)) : Option (System n) :=
  if s.crashed v then none else next

/-- The step an event makes, if it can happen. A failed check stops the replica that makes it. -/
def step (s : System n) : Event n → Option (System n)
  | .issue cmd => s.issue cmd
  | .speculate v k paused skip => s.live v (s.speculate v k paused skip)
  | .feedSpec k => s.feedSpec k
  | .fastCommit k => s.fastCommit k
  | .placeHolder v cmd => s.live v (s.placeHolder v cmd)
  | .original cmd => some { s with log := s.log ++ [⟨cmd, none⟩] }
  | .apply v => s.live v (s.apply v)
  | .setLeader v b => some (s.setServer v { s.server v with isLeader := b })
  | .crash v => s.crash v
  | .startRecovery i => s.live i (s.startRecovery i)
  | .deliver v k => s.live v ((s.calls[k]?).bind (s.deliver v))
  | .deliverDispatch k accepted => s.deliverDispatch k accepted
  | .recordError v k => (s.calls[k]?).bind (s.recordError v)
  | .feed k => s.feed k
  | .roundOneDone i => s.live i (s.roundOneDone i)
  | .roundTwoDone i => s.live i (s.roundTwoDone i)
  | .resubmitDone i => s.live i (s.resubmitDone i)
  | .finishDone i => s.live i (s.finishDone i)

end System

end Jetpack.Recovery
