import Jetpack.Raft.Server

/-! What each handler may do to a server's terms, leadership, votes and timers. -/

namespace Jetpack.Raft

namespace RaftServer

variable {n : Nat} {α : Type}

/-- Nothing is gained in an election: the term does not fall, leadership is at most kept, and then
in the same term, and a vote count in progress is at most dropped. -/
structure Calm (r r' : RaftServer n α) : Prop where
  term_le : r.currentTerm ≤ r'.currentTerm
  leader : r'.isLeader = true → r.isLeader = true ∧ r'.currentTerm = r.currentTerm
  voting : r'.voting = r.voting ∨ r'.voting = none

theorem Calm.of_eq {r r' : RaftServer n α} (hterm : r'.currentTerm = r.currentTerm)
    (hleader : r'.isLeader = r.isLeader) (hvoting : r'.voting = r.voting) : r.Calm r' :=
  ⟨le_of_eq hterm.symm, fun h => ⟨hleader ▸ h, hterm⟩, .inl hvoting⟩

theorem Calm.refl (r : RaftServer n α) : r.Calm r := .of_eq rfl rfl rfl

theorem Calm.trans {r r' r'' : RaftServer n α} (h : r.Calm r') (h' : r'.Calm r'') : r.Calm r'' := by
  refine ⟨le_trans h.term_le h'.term_le, fun hl => ?_, ?_⟩
  · obtain ⟨hl', heq'⟩ := h'.leader hl
    obtain ⟨hl, heq⟩ := h.leader hl'
    exact ⟨hl, heq'.trans heq⟩
  · rcases h'.voting with hv' | hv'
    · rw [hv']
      exact h.voting
    · exact .inr hv'

@[simp] theorem setIsLeader_currentTerm (now : Nat) (b : Bool) (r : RaftServer n α) :
    (setIsLeader now b r).currentTerm = r.currentTerm := by
  unfold setIsLeader
  cases b <;> dsimp only <;> split <;> rfl

@[simp] theorem setIsLeader_isLeader (now : Nat) (b : Bool) (r : RaftServer n α) :
    (setIsLeader now b r).isLeader = b := by
  unfold setIsLeader
  cases b <;> dsimp only <;> split <;> rfl

@[simp] theorem setIsLeader_voting (now : Nat) (b : Bool) (r : RaftServer n α) :
    (setIsLeader now b r).voting = r.voting := by
  unfold setIsLeader
  cases b <;> dsimp only <;> split <;> rfl

theorem calm_stepDown (now : Nat) (r : RaftServer n α) : r.Calm (setIsLeader now false r) :=
  ⟨by simp, fun h => by simp at h, .inl (by simp)⟩

theorem le_raiseTerm (term : Nat) (r : RaftServer n α) :
    r.currentTerm ≤ (r.raiseTerm term).currentTerm ∧ term ≤ (r.raiseTerm term).currentTerm := by
  unfold raiseTerm
  dsimp only
  split <;> omega

/-- Only the log, its indices and the send windows may differ. -/
structure SameControl (r r' : RaftServer n α) : Prop where
  currentTerm : r'.currentTerm = r.currentTerm
  isLeader : r'.isLeader = r.isLeader
  voting : r'.voting = r.voting
  matchIndex : r'.matchIndex = r.matchIndex
  lastHeartbeatTime : r'.lastHeartbeatTime = r.lastHeartbeatTime
  lastAeSendUs : r'.lastAeSendUs = r.lastAeSendUs
  leaseExpiresUs : r'.leaseExpiresUs = r.leaseExpiresUs

theorem SameControl.refl (r : RaftServer n α) : r.SameControl r := ⟨rfl, rfl, rfl, rfl, rfl, rfl, rfl⟩

theorem SameControl.trans {r q r' : RaftServer n α} (h : r.SameControl q) (h' : q.SameControl r') :
    r.SameControl r' :=
  ⟨h'.currentTerm.trans h.currentTerm, h'.isLeader.trans h.isLeader, h'.voting.trans h.voting,
    h'.matchIndex.trans h.matchIndex, h'.lastHeartbeatTime.trans h.lastHeartbeatTime,
    h'.lastAeSendUs.trans h.lastAeSendUs, h'.leaseExpiresUs.trans h.leaseExpiresUs⟩

theorem SameControl.after {r q r' : RaftServer n α} (h' : q.SameControl r') (h : r.SameControl q) :
    r.SameControl r' := h.trans h'

theorem SameControl.calm {r r' : RaftServer n α} (h : r.SameControl r') : r.Calm r' :=
  .of_eq h.currentTerm h.isLeader h.voting

theorem sameControl_applyLoop {fuel : Nat} {r r' : RaftServer n α}
    (h : applyLoop fuel r = some r') : r.SameControl r' := by
  induction fuel generalizing r with
  | zero =>
    cases h
    exact .refl _
  | succ fuel ih =>
    obtain ⟨i, -, h⟩ := Option.bind_eq_some_iff.mp h
    split at h
    · exact (ih h).after ⟨rfl, rfl, rfl, rfl, rfl, rfl, rfl⟩
    · cases h
      exact .refl _

theorem sameControl_applyLogs {r r' : RaftServer n α} (h : applyLogs r = some r') :
    r.SameControl r' := by
  obtain ⟨q, hq, h⟩ := Option.bind_eq_some_iff.mp h
  cases h
  have htrim : q.SameControl q.removeCmds := ⟨rfl, rfl, rfl, rfl, rfl, rfl, rfl⟩
  exact (sameControl_applyLoop hq).trans htrim

theorem sameControl_storeBatch {cmds : List (Nat × α)} {r r' : RaftServer n α} {index : Nat}
    (h : storeBatch r index cmds = some r') : r.SameControl r' := by
  induction cmds generalizing r index with
  | nil =>
    cases h
    exact .refl _
  | cons c cs ih =>
    obtain ⟨i, -, h⟩ := Option.bind_eq_some_iff.mp h
    exact (ih h).after ⟨rfl, rfl, rfl, rfl, rfl, rfl, rfl⟩

theorem sameControl_updateCommit {r r' : RaftServer n α} {index : Nat}
    (h : updateCommit index r = some r') : r.SameControl r' := by
  unfold updateCommit at h
  split at h
  · exact (sameControl_applyLogs h).after ⟨rfl, rfl, rfl, rfl, rfl, rfl, rfl⟩
  · cases h
    exact .refl _

theorem sameControl_start {r r' : RaftServer n α} {cmd : α} (h : start r cmd = some r') :
    r.SameControl r' := by
  unfold start at h
  split at h
  · obtain ⟨i, -, h⟩ := Option.bind_eq_some_iff.mp h
    cases h
    exact ⟨rfl, rfl, rfl, rfl, rfl, rfl, rfl⟩
  · cases h
    exact .refl _

theorem sameControl_raiseCommit {r r' : RaftServer n α} {index : Nat}
    (h : raiseCommit index r = some r') : r.SameControl r' := by
  unfold raiseCommit at h
  split at h
  · obtain ⟨i, -, rfl⟩ := Option.map_eq_some_iff.mp h
    split
    · exact ⟨rfl, rfl, rfl, rfl, rfl, rfl, rfl⟩
    · exact .refl _
  · cases h
    exact .refl _

theorem sameControl_advanceCommit {self : Fin n} {r r' : RaftServer n α}
    (h : advanceCommit self r = some r') : r.SameControl r' := by
  unfold advanceCommit at h
  split at h
  · obtain ⟨matched, -, h⟩ := Option.bind_eq_some_iff.mp h
    obtain ⟨q, hq, h⟩ := Option.bind_eq_some_iff.mp h
    split at h
    · exact (sameControl_raiseCommit hq).trans (sameControl_applyLogs h)
    · cases h
      exact sameControl_raiseCommit hq
  · cases h
    exact .refl _

theorem sendAppend_eq {now prev : Nat} {self follower : Fin n} {cmd : Option (List (Nat × α))}
    {r r' : RaftServer n α} {m : Option (AppendEntries n α)}
    (h : sendAppend now self follower prev cmd r = some (r', m)) :
    r' = { r with inFlightCount :=
      Function.update r.inFlightCount follower (r.inFlightCount follower + 1) } ∧
    ∀ c ∈ m, c.leaderSiteId = self ∧ c.follower = follower ∧ c.term = r.currentTerm ∧
      c.aeSendUs = now := by
  obtain ⟨i, -, h⟩ := Option.bind_eq_some_iff.mp h
  cases h
  refine ⟨rfl, fun c hc => ?_⟩
  cases hc
  exact ⟨rfl, rfl, rfl, rfl⟩

/-- A turn of the drain moves the windows of its follower, and sends at most one call, of the current
term and at the current time. -/
theorem drain_eq {now : Nat} {self follower : Fin n} {r r' : RaftServer n α}
    {m : Option (AppendEntries n α)} (h : drain now self follower r = some (r', m)) :
    (∃ next sent inFlight, r' = { r with
        nextIndex := Function.update r.nextIndex follower next
        sentIndex := Function.update r.sentIndex follower sent
        inFlightCount := Function.update r.inFlightCount follower inFlight } ∧
      (next = r.nextIndex follower ∨ next = min (r.nextIndex follower) (r.lastLogIndex + 1))) ∧
    ∀ c ∈ m, r.isLeader = true ∧ c.leaderSiteId = self ∧ c.follower = follower ∧
      c.term = r.currentTerm ∧ c.aeSendUs = now := by
  unfold drain at h
  split at h
  · cases h
    refine ⟨⟨r.nextIndex follower, r.sentIndex follower, r.inFlightCount follower, ?_, .inl rfl⟩,
      fun c hc => by cases hc⟩
    simp only [Function.update_eq_self]
  next hleader =>
  have hlead : r.isLeader = true := by simpa using hleader
  split at h
  · cases h
    refine ⟨⟨_, r.sentIndex follower, r.inFlightCount follower, ?_, .inr rfl⟩,
      fun c hc => by cases hc⟩
    simp only [clampNext, Function.update_eq_self]
  unfold sendNext at h
  dsimp only at h
  split at h
  · obtain ⟨batch, -, h⟩ := Option.bind_eq_some_iff.mp h
    split at h
    · cases h
      refine ⟨⟨_, (rewindSent follower (clampNext follower r)).sentIndex follower,
        r.inFlightCount follower, ?_, .inr rfl⟩, fun c hc => by cases hc⟩
      simp only [rewindSent, clampNext, Function.update_self, Function.update_eq_self]
    · obtain ⟨rfl, hm⟩ := sendAppend_eq h
      refine ⟨⟨_, r.lastLogIndex, r.inFlightCount follower + 1, ?_, .inr rfl⟩,
        fun c hc => ⟨hlead, hm c hc⟩⟩
      simp only [rewindSent, clampNext, Function.update_idem]
  · obtain ⟨rfl, hm⟩ := sendAppend_eq h
    exact ⟨⟨_, _, _, rfl, .inr rfl⟩, fun c hc => ⟨hlead, hm c hc⟩⟩

theorem drain_cases {now : Nat} {self follower : Fin n} {r r' : RaftServer n α}
    {m : Option (AppendEntries n α)} (h : drain now self follower r = some (r', m)) :
    r.SameControl r' ∧ ∀ c ∈ m, r.isLeader = true ∧ c.leaderSiteId = self ∧ c.follower = follower ∧
      c.term = r.currentTerm ∧ c.aeSendUs = now := by
  obtain ⟨⟨next, sent, inFlight, rfl, -⟩, hm⟩ := drain_eq h
  exact ⟨⟨rfl, rfl, rfl, rfl, rfl, rfl, rfl⟩, hm⟩

theorem calm_adoptTerm (now term : Nat) (r : RaftServer n α) : r.Calm (adoptTerm now term r) := by
  unfold adoptTerm
  split
  · next hlt =>
    have hraise : r.currentTerm ≤ (setIsLeader now false { r with currentTerm := term }).currentTerm := by
      simpa using Nat.le_of_lt hlt
    exact ⟨hraise, fun h => by simp at h, .inl (by simp)⟩
  · exact .refl r

theorem calm_onAppendEntries {now : Nat} {r r' : RaftServer n α} {m : AppendEntries n α}
    {reply : AppendReply n α} (h : onAppendEntries now r m = some (r', reply)) : r.Calm r' := by
  obtain ⟨ok, -, h⟩ := Option.bind_eq_some_iff.mp h
  cases ok with
  | false =>
    cases h
    exact .refl _
  | true =>
    obtain ⟨q, hq, h⟩ := Option.bind_eq_some_iff.mp h
    obtain ⟨q', hq', h⟩ := Option.bind_eq_some_iff.mp h
    cases h
    have htimer : r.Calm (resetTimer now r) := .of_eq rfl rfl rfl
    exact htimer.trans ((calm_adoptTerm _ _ _).trans
      ((sameControl_storeBatch hq).trans (sameControl_updateCommit hq')).calm)

/-- A recorded ack changes only the data of the lease. -/
theorem recordAck_eq (now : Nat) (self : Fin n) (reply : AppendReply n α) (r : RaftServer n α) :
    ∃ expires, recordAck now self reply r =
      { r with
        lastAeSendUs := Function.update r.lastAeSendUs reply.call.follower (some reply.call.aeSendUs)
        leaseExpiresUs := expires } := by
  unfold recordAck recomputeLeaseLocked
  split
  · exact ⟨_, rfl⟩
  dsimp only
  split
  · exact ⟨_, rfl⟩
  split
  · exact ⟨_, rfl⟩
  · exact ⟨_, rfl⟩

theorem acceptMatch_eq (reply : AppendReply n α) (r : RaftServer n α) :
    ∃ next matched, acceptMatch reply r = { r with nextIndex := next, matchIndex := matched } := by
  unfold acceptMatch
  split
  · exact ⟨_, _, rfl⟩
  · exact ⟨_, _, rfl⟩

/-- A reply is dropped, it deposes the leader, it makes the follower's log be sent from an earlier
slot, or it is accepted. -/
theorem onAppendReply_eq (now : Nat) (self : Fin n) (reply : AppendReply n α)
    (r : RaftServer n α) :
    let q := r.decInFlight reply.call.follower
    let r' := r.onAppendReply now self reply
    r' = q ∨
      (r.currentTerm = reply.call.term ∧ reply.call.term < reply.term ∧
        r' = { setIsLeader now false q with currentTerm := reply.term }) ∨
      (∃ next sent, next = max 1 (r.nextIndex reply.call.follower - 1) ∧
        r' = { q with
          nextIndex := Function.update q.nextIndex reply.call.follower next
          sentIndex := sent }) ∨
      (reply.ok = true ∧ r.currentTerm ≤ reply.call.term ∧
        (r' = q.acceptMatch reply ∨
          r.isLeader = true ∧ r' = (q.acceptMatch reply).recordAck now self reply)) := by
  intro q r'
  change onAppendReply now self reply r = q ∨ _
  unfold r' onAppendReply
  dsimp only
  split
  · exact .inl rfl
  split
  · exact .inl rfl
  next hterm =>
  split
  · next hhigher =>
    split
    · next hsame => exact .inr (.inl ⟨hsame, hhigher.2, rfl⟩)
    · exact .inl rfl
  split
  · refine .inr (.inr (.inl ⟨_, _, ?_, rfl⟩))
    change (if r.nextIndex reply.call.follower ≤ 1 then 1
      else r.nextIndex reply.call.follower - 1) = _
    split <;> omega
  next hok =>
  refine .inr (.inr (.inr ⟨by simpa using hok, Nat.not_lt.mp hterm, ?_⟩))
  split
  · next hleader =>
    obtain ⟨_, _, heq⟩ := acceptMatch_eq reply q
    refine .inr ⟨?_, rfl⟩
    rw [heq] at hleader
    exact hleader
  · exact .inl rfl

theorem calm_onAppendReply (now : Nat) (self : Fin n) (reply : AppendReply n α)
    (r : RaftServer n α) : r.Calm (onAppendReply now self reply r) := by
  obtain heq | ⟨hsame, hhigher, heq⟩ | ⟨_, _, -, heq⟩ | ⟨-, -, haccept⟩ :=
    onAppendReply_eq now self reply r
  · rw [heq]
    exact .of_eq rfl rfl rfl
  · have hraise : r.currentTerm ≤ reply.term := by omega
    rw [heq]
    exact ⟨hraise, fun h => by simp at h, .inl (by simp [decInFlight])⟩
  · rw [heq]
    exact .of_eq rfl rfl rfl
  · obtain ⟨_, _, hmatch⟩ := acceptMatch_eq reply (r.decInFlight reply.call.follower)
    obtain ⟨_, hrecord⟩ := recordAck_eq now self reply
      ((r.decInFlight reply.call.follower).acceptMatch reply)
    obtain heq | ⟨-, heq⟩ := haccept
    · rw [heq, hmatch]
      exact .of_eq rfl rfl rfl
    · rw [heq, hrecord, hmatch]
      exact .of_eq rfl rfl rfl

/-- An election is gated, or a request is broadcast. -/
theorem requestVote_eq {now : Nat} {self : Fin n} {sig : JmSignal} {r r' : RaftServer n α}
    {m : Option (VoteRequest n)} (h : requestVote now self sig r = some (r', m)) :
    (m = none ∧ r' = resetTimer now (r.refreshElectionSignalsLocked sig)) ∨
      ∃ lstTerm afterFailure, r.lastTermAt (r.lastLogIndex % 2 ^ 32) = some lstTerm ∧
        m = some ⟨self, r.currentTerm + 1, r.lastLogIndex % 2 ^ 32, lstTerm⟩ ∧
        r' = { r.refreshElectionSignalsLocked sig with
          currentTerm := r.currentTerm + 1
          voting := some
            ⟨r.currentTerm + 1, afterFailure, now, { nTotal := n, quorum := n / 2 }, []⟩ } := by
  unfold requestVote at h
  dsimp only at h
  split at h
  · cases h
    exact .inl ⟨rfl, rfl⟩
  · obtain ⟨lstTerm, hlst, h⟩ := Option.bind_eq_some_iff.mp h
    cases h
    exact .inr ⟨lstTerm, _, hlst, rfl, rfl⟩

theorem requestVote_cases {now : Nat} {self : Fin n} {sig : JmSignal} {r r' : RaftServer n α}
    {m : Option (VoteRequest n)} (h : requestVote now self sig r = some (r', m)) :
    (m = none ∧ r.Calm r') ∨
      ∃ lstTerm afterFailure, r.lastTermAt (r.lastLogIndex % 2 ^ 32) = some lstTerm ∧
        m = some ⟨self, r.currentTerm + 1, r.lastLogIndex % 2 ^ 32, lstTerm⟩ ∧
        r'.currentTerm = r.currentTerm + 1 ∧ r'.isLeader = r.isLeader ∧
        r'.voting = some
          ⟨r.currentTerm + 1, afterFailure, now, { nTotal := n, quorum := n / 2 }, []⟩ := by
  obtain ⟨hm, rfl⟩ | ⟨lstTerm, afterFailure, hlst, hm, rfl⟩ := requestVote_eq h
  · exact .inl ⟨hm, .of_eq rfl rfl rfl⟩
  · exact .inr ⟨lstTerm, afterFailure, hlst, hm, rfl, rfl, rfl⟩

/-- A vote comes to nothing, the server wins it, or it learns of a higher term. -/
theorem finishVote_eq {now : Nat} {r r' : RaftServer n α} (h : finishVote now r = some r') :
    ∃ v, r.voting = some v ∧
      (r' = { r with voting := none } ∨
        (v.event.yes = true ∧ r.currentTerm = v.term ∧
          r' = (setIsLeader now true { r with voting := none }).markElectionDoneLocked
            v.electionAfterFailure) ∨
        r' = (setIsLeader now false { r with voting := none }).raiseTerm v.event.highestTerm) := by
  obtain ⟨v, hv, h⟩ := Option.bind_eq_some_iff.mp h
  refine ⟨v, hv, ?_⟩
  dsimp only at h
  split at h
  · next hyes =>
    split at h
    · cases h
    split at h
    · cases h
      exact .inl rfl
    · next hterm =>
      cases h
      exact .inr (.inl ⟨hyes, by simpa using hterm, rfl⟩)
  split at h
  · cases h
    exact .inr (.inr rfl)
  split at h
  · cases h
    exact .inl rfl
  · cases h

theorem markElectionDoneLocked_eq (afterFailure : Bool) (r : RaftServer n α) :
    ∃ init post, r.markElectionDoneLocked afterFailure =
      { r with initElectionDone := init, postFailureElectionDone := post } := by
  unfold markElectionDoneLocked
  split
  · exact ⟨_, _, rfl⟩
  · exact ⟨_, _, rfl⟩

theorem finishVote_cases {now : Nat} {r r' : RaftServer n α} (h : finishVote now r = some r') :
    r.Calm r' ∨ ∃ v, r.voting = some v ∧ v.event.yes = true ∧ r.currentTerm = v.term ∧
      r' = (setIsLeader now true { r with voting := none }).markElectionDoneLocked
        v.electionAfterFailure := by
  have hdrop : r.Calm { r with voting := none } := ⟨le_refl _, fun hl => ⟨hl, rfl⟩, .inr rfl⟩
  obtain ⟨v, hv, rfl | ⟨hyes, hterm, hwon⟩ | rfl⟩ := finishVote_eq h
  · exact .inl hdrop
  · exact .inr ⟨v, hv, hyes, hterm, hwon⟩
  · exact .inl (hdrop.trans ((calm_stepDown now _).trans
      ⟨(le_raiseTerm _ _).1, fun hl => by simp [raiseTerm] at hl, .inl rfl⟩))

theorem feedVote_cases {r r' : RaftServer n α} {reply : VoteReply n}
    (h : feedVote r reply = some r') :
    ∃ v, r.voting = some v ∧ v.term = reply.candTerm ∧ reply.voter ∉ v.replied ∧
      r' = { r with voting := some { v with
        event := v.event.feedResponse reply.voteGranted reply.replyTerm
        replied := reply.voter :: v.replied } } := by
  obtain ⟨v, hv, h⟩ := Option.bind_eq_some_iff.mp h
  split at h
  · next hcond =>
    cases h
    exact ⟨v, hv, hcond.1, hcond.2, rfl⟩
  · cases h

theorem voteFor?_granted {r : RaftServer n α} {m : VoteRequest n} (h : r.voteFor? m = some true) :
    r.currentTerm < m.candTerm := by
  unfold voteFor? at h
  split at h
  · cases h
  · next hlt => exact Nat.not_le.mp hlt

theorem doVote_currentTerm (now : Nat) (r : RaftServer n α) (m : VoteRequest n) (b : Bool) :
    (doVote now r m b).currentTerm = (r.raiseTerm m.candTerm).currentTerm := by
  cases b with
  | false => rfl
  | true => exact setIsLeader_currentTerm now false _

theorem doVote_isLeader (now : Nat) (r : RaftServer n α) (m : VoteRequest n) (b : Bool) :
    (doVote now r m b).isLeader = (r.isLeader && !b) := by
  cases b with
  | false => exact (Bool.and_true _).symm
  | true =>
    rw [Bool.not_true, Bool.and_false]
    exact setIsLeader_isLeader now false _

theorem doVote_voting (now : Nat) (r : RaftServer n α) (m : VoteRequest n) (b : Bool) :
    (doVote now r m b).voting = r.voting := by
  cases b with
  | false => rfl
  | true => exact setIsLeader_voting now false _

end RaftServer

end Jetpack.Raft
