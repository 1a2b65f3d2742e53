import Mathlib

/-! Vote counting events that coroutines wait on. -/

namespace Jetpack

structure QuorumEvent where
  nTotal : Nat
  quorum : Nat
  nVotedYes : Nat := 0
  nVotedNo : Nat := 0
  deriving Repr, DecidableEq

namespace QuorumEvent

def voteYes (e : QuorumEvent) : QuorumEvent := { e with nVotedYes := e.nVotedYes + 1 }

def voteNo (e : QuorumEvent) : QuorumEvent := { e with nVotedNo := e.nVotedNo + 1 }

def yes (e : QuorumEvent) : Bool := e.quorum ≤ e.nVotedYes

def no (e : QuorumEvent) : Bool := e.nTotal - e.quorum < e.nVotedNo

end QuorumEvent

structure RaftVoteQuorumEvent extends QuorumEvent where
  highestTerm : Nat := 0
  deriving Repr, DecidableEq

def RaftVoteQuorumEvent.feedResponse (e : RaftVoteQuorumEvent) (y : Bool) (term : Nat) :
    RaftVoteQuorumEvent :=
  if y then { e with toQuorumEvent := e.toQuorumEvent.voteYes }
  else
    { e with
      toQuorumEvent := e.toQuorumEvent.voteNo
      highestTerm := if e.highestTerm < term then term else e.highestTerm }

end Jetpack
