import Mathlib
import Jetpack.QuorumEvent

/-! One Raft server: its state and the handlers of votes, appended entries and their replies. A
handler whose `verify` fails has no result. -/

namespace Jetpack.Raft

def heartbeatInterval : Nat := 5000

def kReadLeaseDurationUs : Nat := 250000

def kMaxInFlightPerFollower : Nat := 8000

/-- How far behind `executeIndex` a slot has to be to be freed. -/
def trimLag : Nat := 600000

structure RaftData (α : Type) where
  term : Nat := 0
  log : Option α := none
  deriving Repr, DecidableEq

/-- A `RequestVote` coroutine that waits for its quorum event. `replied` are the servers whose reply
has arrived: each request is answered at most once. -/
structure Voting (n : Nat) where
  term : Nat
  electionAfterFailure : Bool
  startedAt : Nat
  event : RaftVoteQuorumEvent
  replied : List (Fin n) := []
  deriving Repr, DecidableEq

/-- `raftLogs` gives the empty instance for a slot without one. `applied` are the commands passed to
`app_next_`, oldest first. -/
structure RaftServer (n : Nat) (α : Type) where
  currentTerm : Nat := 0
  voteFor : Option (Fin n) := none
  isLeader : Bool := false
  lastLogIndex : Nat := 0
  commitIndex : Nat := 0
  executeIndex : Nat := 0
  raftLogs : Nat → RaftData α := fun _ => {}
  minActiveSlot : Nat := 1
  applied : List α := []
  matchIndex : Fin n → Nat := fun _ => 0
  nextIndex : Fin n → Nat := fun _ => 1
  sentIndex : Fin n → Nat := fun _ => 0
  inFlightCount : Fin n → Nat := fun _ => 0
  lastHeartbeatTime : Nat := 0
  lastAeSendUs : Fin n → Option Nat := fun _ => none
  leaseExpiresUs : Nat := 0
  leaderWarmupUntilUs : Nat := 0
  initElectionDone : Bool := false
  postFailureElectionDone : Bool := false
  failureTriggeredSeen : Bool := false
  voting : Option (Voting n) := none

structure VoteRequest (n : Nat) where
  candId : Fin n
  candTerm : Nat
  lstLogIdx : Nat
  lstLogTerm : Nat
  deriving Repr, DecidableEq

structure VoteReply (n : Nat) where
  voter : Fin n
  candId : Fin n
  candTerm : Nat
  replyTerm : Nat
  voteGranted : Bool
  deriving Repr, DecidableEq

/-- An `AppendEntries` call: `cmd` is a batch of commands with their terms, or `none` for a
heartbeat. `aeSendUs` is what the sending coroutine remembers of it. -/
structure AppendEntries (n : Nat) (α : Type) where
  leaderSiteId : Fin n
  follower : Fin n
  term : Nat
  prevLogIndex : Nat
  prevLogTerm : Nat
  commitIndex : Nat
  cmd : Option (List (Nat × α))
  aeSendUs : Nat
  deriving Repr, DecidableEq

structure AppendReply (n : Nat) (α : Type) where
  call : AppendEntries n α
  ok : Bool
  term : Nat
  lastLogIndex : Nat
  deriving Repr, DecidableEq

/-- The keys of `jm_signal` that an election looks up. -/
structure JmSignal where
  failureTriggered : Bool := false
  initElectionDone : Bool := false
  postFailureElectionDone : Bool := false
  deriving Repr, DecidableEq

namespace RaftServer

variable {n : Nat} {α : Type}

def getRaftInstance (s : RaftServer n α) (id : Nat) : Option (RaftData α) :=
  if s.minActiveSlot ≤ id ∨ id = 0 then some (s.raftLogs id) else none

def resetTimer (now : Nat) (s : RaftServer n α) : RaftServer n α :=
  { s with lastHeartbeatTime := now }

def setIsLeader (now : Nat) (isLeader : Bool) (s : RaftServer n α) : RaftServer n α :=
  let s' :=
    if isLeader then
      { s with
        matchIndex := fun _ => 0
        nextIndex := fun _ => s.lastLogIndex + 1
        sentIndex := fun _ => s.lastLogIndex
        inFlightCount := fun _ => 0
        isLeader := true }
    else { s with isLeader := false }
  if isLeader = s.isLeader then s'
  else
    { s' with
      leaderWarmupUntilUs := if isLeader then now + kReadLeaseDurationUs else 0
      leaseExpiresUs := 0
      lastAeSendUs := fun _ => none }

def raiseTerm (term : Nat) (s : RaftServer n α) : RaftServer n α :=
  { s with currentTerm := if s.currentTerm < term then term else s.currentTerm }

/-- A higher term is taken over whether or not the vote is granted; only a granted vote steps
down. -/
def doVote (now : Nat) (s : RaftServer n α) (m : VoteRequest n) (vote : Bool) : RaftServer n α :=
  let s' := s.raiseTerm m.candTerm
  if vote then
    resetTimer now { setIsLeader now false s' with voteFor := some m.candId }
  else s'

/-- The term of the last entry, as the 32-bit offset reads it. -/
def lastTermAt (s : RaftServer n α) (lstoff : Nat) : Option Nat :=
  if 0 < lstoff then (s.getRaftInstance lstoff).map RaftData.term else some 0

/-- The vote that `OnRequestVote` gives. -/
def voteFor? (s : RaftServer n α) (m : VoteRequest n) : Option Bool :=
  if m.candTerm ≤ s.currentTerm then some false
  else do
    let lstoff := s.lastLogIndex % 2 ^ 32
    let curlstterm ← s.lastTermAt lstoff
    if lstoff = s.lastLogIndex then
      return curlstterm < m.lstLogTerm ||
        (m.lstLogTerm == curlstterm && s.lastLogIndex ≤ m.lstLogIdx)
    else none

def onRequestVote (now : Nat) (self : Fin n) (s : RaftServer n α) (m : VoteRequest n) :
    Option (RaftServer n α × VoteReply n) := do
  let vote ← s.voteFor? m
  return (doVote now s m vote, ⟨self, m.candId, m.candTerm, s.currentTerm, vote⟩)

def refreshElectionSignalsLocked (sig : JmSignal) (s : RaftServer n α) : RaftServer n α :=
  { s with
    failureTriggeredSeen := s.failureTriggeredSeen || sig.failureTriggered
    initElectionDone := s.initElectionDone || sig.initElectionDone
    postFailureElectionDone := s.postFailureElectionDone || sig.postFailureElectionDone }

def markElectionDoneLocked (afterFailure : Bool) (s : RaftServer n α) : RaftServer n α :=
  if afterFailure then { s with postFailureElectionDone := true }
  else { s with initElectionDone := true }

/-- `RequestVote` up to its wait: either the election is gated, or a request is broadcast. -/
def requestVote (now : Nat) (self : Fin n) (sig : JmSignal) (s : RaftServer n α) :
    Option (RaftServer n α × Option (VoteRequest n)) := do
  let s := s.refreshElectionSignalsLocked sig
  let afterFailure := s.failureTriggeredSeen
  if (!afterFailure && s.initElectionDone) || (afterFailure && s.postFailureElectionDone) then
    return (resetTimer now s, none)
  else
    let term := s.currentTerm + 1
    let lstoff := s.lastLogIndex % 2 ^ 32
    let lstTerm ← s.lastTermAt lstoff
    let event : RaftVoteQuorumEvent := { nTotal := n, quorum := n / 2 }
    return ({ s with currentTerm := term, voting := some ⟨term, afterFailure, now, event, []⟩ },
      some ⟨self, term, lstoff, lstTerm⟩)

/-- `RequestVote` after its wait, which ends when the event is ready or after a second. -/
def finishVote (now : Nat) (s : RaftServer n α) : Option (RaftServer n α) := do
  let v ← s.voting
  let s := { s with voting := none }
  if v.event.yes then
    if s.currentTerm < v.term then none
    else if s.currentTerm ≠ v.term then return s
    else return (setIsLeader now true s).markElectionDoneLocked v.electionAfterFailure
  else if v.event.no then
    return (setIsLeader now false s).raiseTerm v.event.highestTerm
  else if v.startedAt + 1000000 ≤ now then return s
  else none

def feedVote (s : RaftServer n α) (r : VoteReply n) : Option (RaftServer n α) := do
  let v ← s.voting
  if v.term = r.candTerm ∧ r.voter ∉ v.replied then
    return { s with voting := some { v with
      event := v.event.feedResponse r.voteGranted r.replyTerm
      replied := r.voter :: v.replied } }
  else none

def start (s : RaftServer n α) (cmd : α) : Option (RaftServer n α) :=
  if s.isLeader then do
    let index := s.lastLogIndex + 1
    let _ ← s.getRaftInstance index
    return { s with
      lastLogIndex := index
      raftLogs := Function.update s.raftLogs index ⟨s.currentTerm, some cmd⟩ }
  else some s

def applyLoop : Nat → RaftServer n α → Option (RaftServer n α)
  | 0, s => some s
  | fuel + 1, s => do
    let nextInstance ← s.getRaftInstance (s.executeIndex + 1)
    match nextInstance.log with
    | some cmd =>
      applyLoop fuel { s with applied := s.applied ++ [cmd], executeIndex := s.executeIndex + 1 }
    | none => return s

def removeCmds (s : RaftServer n α) : RaftServer n α :=
  let i := max s.minActiveSlot (s.executeIndex - trimLag)
  { s with
    minActiveSlot := i
    raftLogs := fun slot =>
      if s.minActiveSlot ≤ slot ∧ slot < i ∧ (s.raftLogs slot).log.isSome then {}
      else s.raftLogs slot }

def applyLogs (s : RaftServer n α) : Option (RaftServer n α) := do
  let s ← applyLoop (s.commitIndex - s.executeIndex) s
  return s.removeCmds

/-- The entries of a batch are written one after the other, each becoming the last one. -/
def storeBatch (s : RaftServer n α) (index : Nat) : List (Nat × α) → Option (RaftServer n α)
  | [] => some s
  | c :: cs => do
    let _ ← s.getRaftInstance (index + 1)
    storeBatch { s with
      lastLogIndex := index + 1
      raftLogs := Function.update s.raftLogs (index + 1) ⟨c.1, some c.2⟩ } (index + 1) cs

def localPrevTerm (s : RaftServer n α) (m : AppendEntries n α) : Option Nat :=
  if 0 < m.prevLogIndex ∧ m.prevLogIndex ≤ s.lastLogIndex then
    (s.getRaftInstance m.prevLogIndex).map RaftData.term
  else some 0

/-- The three checks of `OnAppendEntries`. -/
def appendOk (s : RaftServer n α) (m : AppendEntries n α) : Option Bool :=
  (s.localPrevTerm m).map fun prevTerm =>
    s.currentTerm ≤ m.term && m.prevLogIndex ≤ s.lastLogIndex &&
      (m.prevLogIndex == 0 || prevTerm == m.prevLogTerm)

def adoptTerm (now : Nat) (term : Nat) (s : RaftServer n α) : RaftServer n α :=
  if s.currentTerm < term then setIsLeader now false { s with currentTerm := term } else s

def updateCommit (leaderCommitIndex : Nat) (s : RaftServer n α) : Option (RaftServer n α) :=
  if s.commitIndex < leaderCommitIndex then
    applyLogs { s with commitIndex := min leaderCommitIndex s.lastLogIndex }
  else some s

def onAppendEntries (now : Nat) (s : RaftServer n α) (m : AppendEntries n α) :
    Option (RaftServer n α × AppendReply n α) := do
  let ok ← s.appendOk m
  if ok then
    let s := adoptTerm now m.term (resetTimer now s)
    let s ← s.storeBatch m.prevLogIndex (m.cmd.getD [])
    let s ← s.updateCommit m.commitIndex
    return (s, ⟨m, true, s.currentTerm, s.lastLogIndex⟩)
  else return (s, ⟨m, false, s.currentTerm, s.lastLogIndex⟩)

def peers (self : Fin n) : List (Fin n) := (List.finRange n).filter (· ≠ self)

/-- The commit index moves up when the entry there is of the current term. -/
def raiseCommit (newCommitIndex : Nat) (s : RaftServer n α) : Option (RaftServer n α) :=
  if s.commitIndex < newCommitIndex then
    (s.getRaftInstance newCommitIndex).map fun i =>
      if i.term = s.currentTerm then { s with commitIndex := newCommitIndex } else s
  else some s

/-- The head of a round of `HeartbeatLoop`, with the median of the match indices. -/
def advanceCommit (self : Fin n) (s : RaftServer n α) : Option (RaftServer n α) :=
  if s.isLeader then do
    let matchedIndices := ((peers self).map s.matchIndex).mergeSort
    let matched ← matchedIndices[(n - 1) / 2]?
    let s ← s.raiseCommit (if s.lastLogIndex < matched then s.lastLogIndex else matched)
    if s.executeIndex < s.commitIndex then s.applyLogs else some s
  else some s

def batchFrom (s : RaftServer n α) (index : Nat) : Nat → Option (List (Nat × α))
  | 0 => some []
  | count + 1 => do
    let i ← s.getRaftInstance index
    let cmd ← i.log
    let rest ← s.batchFrom (index + 1) count
    return (i.term, cmd) :: rest

def clampNext (follower : Fin n) (s : RaftServer n α) : RaftServer n α :=
  { s with
    nextIndex := Function.update s.nextIndex follower
      (min (s.nextIndex follower) (s.lastLogIndex + 1)) }

def rewindSent (follower : Fin n) (s : RaftServer n α) : RaftServer n α :=
  { s with
    sentIndex := Function.update s.sentIndex follower
      (if s.sentIndex follower + 1 < s.nextIndex follower then s.nextIndex follower - 1
       else s.sentIndex follower) }

def sendAppend (now : Nat) (self follower : Fin n) (prevLogIndex : Nat)
    (cmd : Option (List (Nat × α))) (s : RaftServer n α) :
    Option (RaftServer n α × Option (AppendEntries n α)) := do
  let prev ← s.getRaftInstance prevLogIndex
  return ({ s with
    inFlightCount := Function.update s.inFlightCount follower (s.inFlightCount follower + 1) },
    some ⟨self, follower, s.currentTerm, prevLogIndex, prev.term, s.commitIndex, cmd, now⟩)

/-- What is sent once the indices of the follower are in place: the slots after `sent_index_`, less
those already freed, or a heartbeat when there are none. -/
def sendNext (now : Nat) (self follower : Fin n) (s : RaftServer n α) :
    Option (RaftServer n α × Option (AppendEntries n α)) :=
  let sent := s.sentIndex follower
  if sent < s.lastLogIndex then do
    let first := max (sent + 1) s.minActiveSlot
    let batch ← s.batchFrom first (s.lastLogIndex + 1 - first)
    if batch.isEmpty then some (s, none)
    else
      sendAppend now self follower sent (some batch)
        { s with sentIndex := Function.update s.sentIndex follower s.lastLogIndex }
  else sendAppend now self follower s.lastLogIndex none s

/-- One turn of the pipelined drain towards a follower: at most one call is sent. -/
def drain (now : Nat) (self follower : Fin n) (s : RaftServer n α) :
    Option (RaftServer n α × Option (AppendEntries n α)) :=
  if !s.isLeader then some (s, none)
  else if kMaxInFlightPerFollower ≤ s.inFlightCount follower then some (s.clampNext follower, none)
  else sendNext now self follower ((s.clampNext follower).rewindSent follower)

def recomputeLeaseLocked (now : Nat) (self : Fin n) (s : RaftServer n α) : RaftServer n α :=
  if n ≤ 1 then { s with leaseExpiresUs := now + kReadLeaseDurationUs }
  else
    let quorumFollowers := n / 2
    let sends := (peers self).filterMap s.lastAeSendUs
    if sends.length < quorumFollowers then { s with leaseExpiresUs := 0 }
    else
      let anchor := (sends.mergeSort (fun a b => b ≤ a)).getD (quorumFollowers - 1) 0
      let newExpires := anchor + kReadLeaseDurationUs
      if s.leaseExpiresUs < newExpires then { s with leaseExpiresUs := newExpires } else s

def hasReadLease (now : Nat) (s : RaftServer n α) : Bool :=
  s.isLeader && s.leaderWarmupUntilUs ≤ now && now < s.leaseExpiresUs

def decInFlight (follower : Fin n) (s : RaftServer n α) : RaftServer n α :=
  { s with inFlightCount := Function.update s.inFlightCount follower (s.inFlightCount follower - 1) }

/-- The first accepted reply to a batch moves the match index up to what the follower stores. -/
def acceptMatch (r : AppendReply n α) (s : RaftServer n α) : RaftServer n α :=
  if r.call.cmd.isSome then
    let matchIdx := if s.lastLogIndex < r.lastLogIndex then s.lastLogIndex else r.lastLogIndex
    let f := r.call.follower
    { s with
      nextIndex := Function.update s.nextIndex f
        (if s.nextIndex f < r.lastLogIndex + 1 then r.lastLogIndex + 1 else s.nextIndex f)
      matchIndex := Function.update s.matchIndex f
        (if s.matchIndex f < matchIdx then matchIdx else s.matchIndex f) }
  else s

def recordAck (now : Nat) (self : Fin n) (r : AppendReply n α) (s : RaftServer n α) :
    RaftServer n α :=
  recomputeLeaseLocked now self
    { s with lastAeSendUs := Function.update s.lastAeSendUs r.call.follower (some r.call.aeSendUs) }

/-- A reply at the sender. All zeros is an error of the call. -/
def onAppendReply (now : Nat) (self : Fin n) (r : AppendReply n α) (s : RaftServer n α) :
    RaftServer n α :=
  let f := r.call.follower
  let s := s.decInFlight f
  if r.ok = false ∧ r.term = 0 ∧ r.lastLogIndex = 0 then s
  else if r.call.term < s.currentTerm then s
  else if r.ok = false ∧ r.call.term < r.term then
    if s.currentTerm = r.call.term then { setIsLeader now false s with currentTerm := r.term } else s
  else if r.ok = false then
    let next := if s.nextIndex f ≤ 1 then 1 else s.nextIndex f - 1
    { s with
      nextIndex := Function.update s.nextIndex f next
      sentIndex := Function.update s.sentIndex f (next - 1) }
  else
    let s := s.acceptMatch r
    if s.isLeader then s.recordAck now self r else s

def onAppendTimeout (follower : Fin n) (s : RaftServer n α) : RaftServer n α :=
  let s := s.decInFlight follower
  { s with sentIndex := Function.update s.sentIndex follower (s.nextIndex follower - 1) }

end RaftServer

end Jetpack.Raft
