import Jetpack.Raft.Server

/-! The servers of a partition, a global clock and the messages sent so far. A message stays where
it is once sent, so it can be delivered at any time, again, or never. -/

namespace Jetpack.Raft

structure System (n : Nat) (α : Type) where
  now : Nat := 0
  server : Fin n → RaftServer n α := fun _ => {}
  voteRequests : List (VoteRequest n) := []
  voteReplies : List (VoteReply n) := []
  appends : List (AppendEntries n α) := []
  appendReplies : List (AppendReply n α) := []

/-- Messages are named by their place in the list of those sent. -/
inductive Event (n : Nat) (α : Type)
  | tick (us : Nat)
  | requestVote (i : Fin n) (electionTimeout : Nat) (sig : JmSignal)
  | deliverVoteRequest (v : Fin n) (k : Nat)
  | deliverVoteReply (k : Nat)
  | finishVote (i : Fin n)
  | start (i : Fin n) (cmd : α)
  | advanceCommit (i : Fin n)
  | drain (i follower : Fin n)
  | deliverAppend (k : Nat)
  | deliverAppendReply (k : Nat)
  | appendTimeout (k : Nat)
  | appendError (k : Nat)
  | pause (i : Fin n)
  | jetpackRpc (i : Fin n)
  | beginRecovery (i : Fin n)

namespace System

variable {n : Nat} {α : Type}

def setServer (s : System n α) (i : Fin n) (r : RaftServer n α) : System n α :=
  { s with server := Function.update s.server i r }

/-- `StartElectionTimer` asks for votes when no heartbeat came for the election timeout, which is
drawn from this range. -/
def canStartElection (s : System n α) (i : Fin n) (electionTimeout : Nat) : Bool :=
  !(s.server i).isLeader && (s.server i).voting.isNone &&
    1000 * heartbeatInterval ≤ electionTimeout && electionTimeout ≤ 20 * 1100 * heartbeatInterval &&
    (s.server i).lastHeartbeatTime + electionTimeout < s.now

def step (s : System n α) : Event n α → Option (System n α)
  | .tick us => some { s with now := s.now + us }
  | .requestVote i electionTimeout sig =>
    if s.canStartElection i electionTimeout then do
      let (r, m) ← (s.server i).requestVote s.now i sig
      return { s.setServer i r with voteRequests := s.voteRequests ++ m.toList }
    else none
  | .deliverVoteRequest v k => do
    let m ← s.voteRequests[k]?
    if v = m.candId then none
    else
      let (r, reply) ← (s.server v).onRequestVote s.now v m
      return { s.setServer v r with voteReplies := s.voteReplies ++ [reply] }
  | .deliverVoteReply k => do
    let reply ← s.voteReplies[k]?
    let r ← (s.server reply.candId).feedVote reply
    return s.setServer reply.candId r
  | .finishVote i => do
    let r ← (s.server i).finishVote s.now
    return s.setServer i r
  | .start i cmd => do
    let r ← (s.server i).start cmd
    return s.setServer i r
  | .advanceCommit i => do
    let r ← (s.server i).advanceCommit i
    return s.setServer i r
  | .drain i follower =>
    if i = follower then none
    else do
      let (r, m) ← (s.server i).drain s.now i follower
      return { s.setServer i r with appends := s.appends ++ m.toList }
  | .deliverAppend k => do
    let m ← s.appends[k]?
    let (r, reply) ← (s.server m.follower).onAppendEntries s.now m
    return { s.setServer m.follower r with appendReplies := s.appendReplies ++ [reply] }
  | .deliverAppendReply k => do
    let reply ← s.appendReplies[k]?
    let i := reply.call.leaderSiteId
    return s.setServer i ((s.server i).onAppendReply s.now i reply)
  | .appendTimeout k => do
    let m ← s.appends[k]?
    let i := m.leaderSiteId
    return s.setServer i ((s.server i).onAppendTimeout m.follower)
  | .appendError k => do
    let m ← s.appends[k]?
    let i := m.leaderSiteId
    return s.setServer i ((s.server i).decInFlight m.follower)
  | .pause i => some (s.setServer i { s.server i with failureTriggeredSeen := true })
  | .jetpackRpc i =>
    if (s.server i).isLeader then none
    else some (s.setServer i ((s.server i).resetTimer s.now))
  | .beginRecovery i =>
    if (s.server i).isLeader then some (s.setServer i ((s.server i).setIsLeader s.now false))
    else none

end System

end Jetpack.Raft
