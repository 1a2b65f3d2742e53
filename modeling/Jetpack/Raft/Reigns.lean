import Jetpack.Library.Leadership
import Jetpack.Raft.MatchIndex

/-! The partition over all terms. Beside the system a run keeps what was last written in each slot, the
logs of the leaders of all terms, and which calls were delivered: the calls of one server to another
use one connection, so they arrive in the order in which they were sent, or not at all. -/

namespace Jetpack.Raft

open Leadership QuorumVoting Transition

variable {n : Nat} {α : Type}

namespace RaftServer

structure Unwritten (s s' : RaftServer n α) : Prop where
  log : s.SameLog s'
  applied : s'.applied = s.applied

theorem Unwritten.refl (s : RaftServer n α) : s.Unwritten s := ⟨.refl s, rfl⟩

theorem applied_setIsLeader (now : Nat) (b : Bool) (s : RaftServer n α) :
    (setIsLeader now b s).applied = s.applied := by
  unfold setIsLeader
  cases b <;> dsimp only <;> split <;> rfl

theorem matchIndex_setIsLeader (now : Nat) (s : RaftServer n α) :
    (setIsLeader now true s).matchIndex = fun _ => 0 := by
  unfold setIsLeader
  dsimp only
  split <;> rfl

theorem unwritten_setIsLeader (now : Nat) (b : Bool) (s : RaftServer n α) :
    s.Unwritten (setIsLeader now b s) :=
  ⟨sameLog_setIsLeader now b s, applied_setIsLeader now b s⟩

theorem unwritten_doVote (now : Nat) (s : RaftServer n α) (m : VoteRequest n) (vote : Bool) :
    s.Unwritten (doVote now s m vote) := by
  refine ⟨sameLog_doVote now s m vote, ?_⟩
  cases vote with
  | false => rfl
  | true => exact applied_setIsLeader now false _

theorem unwritten_requestVote {now : Nat} {self : Fin n} {sig : JmSignal} {s s' : RaftServer n α}
    {m : Option (VoteRequest n)} (h : requestVote now self sig s = some (s', m)) :
    s.Unwritten s' := by
  refine ⟨sameLog_requestVote h, ?_⟩
  obtain ⟨-, rfl⟩ | ⟨_, _, -, -, rfl⟩ := requestVote_eq h
  · rfl
  · rfl

theorem unwritten_finishVote {now : Nat} {s s' : RaftServer n α} (h : finishVote now s = some s') :
    s.Unwritten s' := by
  refine ⟨sameLog_finishVote h, ?_⟩
  obtain ⟨v, -, rfl | ⟨-, -, rfl⟩ | rfl⟩ := finishVote_eq h
  · rfl
  · obtain ⟨_, _, heq⟩ := markElectionDoneLocked_eq v.electionAfterFailure
      (setIsLeader now true { s with voting := none })
    rw [heq]
    exact applied_setIsLeader now true _
  · exact applied_setIsLeader now false _

theorem unwritten_onAppendReply (now : Nat) (self : Fin n) (reply : AppendReply n α)
    (s : RaftServer n α) : s.Unwritten (onAppendReply now self reply s) := by
  refine ⟨sameLog_onAppendReply now self reply s, ?_⟩
  obtain heq | ⟨-, -, heq⟩ | ⟨_, _, -, heq⟩ | ⟨-, -, haccept⟩ := onAppendReply_eq now self reply s
  · rw [heq]
    rfl
  · rw [heq]
    exact applied_setIsLeader now false _
  · rw [heq]
    rfl
  · obtain ⟨_, _, hmatch⟩ := acceptMatch_eq reply (s.decInFlight reply.call.follower)
    obtain ⟨_, hrecord⟩ := recordAck_eq now self reply
      ((s.decInFlight reply.call.follower).acceptMatch reply)
    obtain heq | ⟨-, heq⟩ := haccept
    · rw [heq, hmatch]
      rfl
    · rw [heq, hrecord, hmatch]
      rfl

theorem unwritten_drain {now : Nat} {self follower : Fin n} {s s' : RaftServer n α}
    {m : Option (AppendEntries n α)} (h : s.drain now self follower = some (s', m)) :
    s.Unwritten s' := by
  refine ⟨sameLog_drain h, ?_⟩
  obtain ⟨⟨_, _, _, rfl, -⟩, -⟩ := drain_eq h
  rfl

end RaftServer

/-- `history` holds what was last written in each slot of a server, freed or not, and `chronicle` the
leaders' logs. Calls of a server to a follower that come before `handled` were delivered or are
lost. -/
structure Partition (n : Nat) (α : Type) where
  system : System n α := {}
  history : Fin n → Nat → RaftData α := fun _ _ => {}
  chronicle : Chronicle (Fin n) (RaftData α) := {}
  handled : Fin n → Fin n → Nat := fun _ _ => 0

namespace Partition

def appended (r : Partition n α) (i : Fin n) (cmd : α) (system : System n α) : Partition n α :=
  let s := r.system.server i
  let e : RaftData α := ⟨s.currentTerm, some cmd⟩
  { r with
    system := system
    history := Function.update r.history i (Function.update (r.history i) (s.lastLogIndex + 1) e)
    chronicle :=
      match r.chronicle.reign s.currentTerm with
      | some R => (r.chronicle.put s.currentTerm (R.append e)).ack i s.currentTerm (R.last + 1)
      | none => r.chronicle }

def elected (r : Partition n α) (i : Fin n) (system : System n α) : Partition n α :=
  let s := r.system.server i
  { r with
    system := system
    chronicle := (r.chronicle.put s.currentTerm
      ⟨i, r.history i, s.lastLogIndex, s.lastLogIndex⟩).ack i s.currentTerm s.lastLogIndex }

def received (r : Partition n α) (k : Nat) (m : AppendEntries n α) (system : System n α) :
    Partition n α :=
  let f := m.follower
  let handled := Function.update r.handled m.leaderSiteId
    (Function.update (r.handled m.leaderSiteId) f (k + 1))
  if (r.system.server f).appendOk m = some true then
    { system := system
      history := Function.update r.history f
        (RaftServer.writeBatch (r.history f) m.prevLogIndex (m.cmd.getD []))
      chronicle := r.chronicle.ack f m.term m.lastIndex
      handled := handled }
  else { r with system := system, handled := handled }

def after (r : Partition n α) (system : System n α) : Event n α → Partition n α
  | .start i cmd =>
    if (r.system.server i).isLeader then r.appended i cmd system else { r with system := system }
  | .finishVote i =>
    if (system.server i).isLeader && !(r.system.server i).isLeader then r.elected i system
    else { r with system := system }
  | .deliverAppend k =>
    match r.system.appends[k]? with
    | some m => r.received k m system
    | none => { r with system := system }
  | _ => { r with system := system }

def step (r : Partition n α) (e : Event n α) : Option (Partition n α) :=
  (r.system.step e).map (r.after · e)

/-- A call is delivered before those that its sender sent later to the same follower. -/
def InSendOrder (r : Partition n α) : Event n α → Prop
  | .deliverAppend k => ∀ m ∈ r.system.appends[k]?, r.handled m.leaderSiteId m.follower ≤ k
  | _ => True

def SendsAboveTrim (r : Partition n α) : Event n α → Prop
  | .drain i follower => (r.system.server i).AboveTrim follower
  | _ => True

instance (r : Partition n α) (e : Event n α) : Decidable (r.InSendOrder e) :=
  match e with
  | .deliverAppend k => inferInstanceAs (Decidable (∀ m ∈ r.system.appends[k]?, _))
  | .tick _ | .requestVote _ _ _ | .deliverVoteRequest _ _ | .deliverVoteReply _ | .finishVote _
  | .start _ _ | .advanceCommit _ | .drain _ _ | .deliverAppendReply _ | .appendTimeout _
  | .appendError _ | .pause _ | .jetpackRpc _ | .beginRecovery _ => isTrue trivial

instance (r : Partition n α) (e : Event n α) : Decidable (r.SendsAboveTrim e) :=
  match e with
  | .drain i follower => inferInstanceAs (Decidable ((r.system.server i).AboveTrim follower))
  | .tick _ | .requestVote _ _ _ | .deliverVoteRequest _ _ | .deliverVoteReply _ | .finishVote _
  | .start _ _ | .advanceCommit _ | .deliverAppend _ | .deliverAppendReply _ | .appendTimeout _
  | .appendError _ | .pause _ | .jetpackRpc _ | .beginRecovery _ => isTrue trivial

/-- Calls arrive in the order in which they were sent, no leader refuses a candidate of a newer term,
and no call is built behind freed slots. -/
def Regular (r : Partition n α) (e : Event n α) : Prop :=
  r.InSendOrder e ∧ LeaderYields r.system e ∧ r.SendsAboveTrim e

instance (r : Partition n α) (e : Event n α) : Decidable (r.Regular e) :=
  inferInstanceAs (Decidable (_ ∧ _))

end Partition

end Jetpack.Raft
