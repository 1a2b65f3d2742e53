import Jetpack.Raft.Election

/-! What a step of the system can do to election timers, read leases and the calls in flight. -/

namespace Jetpack.Raft

namespace RaftServer

variable {n : Nat} {α : Type}

structure Timed (now : Nat) (r r' : RaftServer n α) : Prop where
  heartbeat : r'.lastHeartbeatTime = r.lastHeartbeatTime ∨ r'.lastHeartbeatTime = now
  lease : (r'.leaseExpiresUs = r.leaseExpiresUs ∧ r'.lastAeSendUs = r.lastAeSendUs) ∨
    (r'.leaseExpiresUs = 0 ∧ ∀ f, r'.lastAeSendUs f = none)

theorem Timed.of_eq {now : Nat} {r r' : RaftServer n α}
    (hheartbeat : r'.lastHeartbeatTime = r.lastHeartbeatTime)
    (hlease : r'.leaseExpiresUs = r.leaseExpiresUs) (hsend : r'.lastAeSendUs = r.lastAeSendUs) :
    Timed now r r' := ⟨.inl hheartbeat, .inl ⟨hlease, hsend⟩⟩

theorem Timed.trans {now : Nat} {r q r' : RaftServer n α} (h : Timed now r q)
    (h' : Timed now q r') : Timed now r r' := by
  refine ⟨?_, ?_⟩
  · rcases h'.heartbeat with hsame | hnow
    · rw [hsame]
      exact h.heartbeat
    · exact .inr hnow
  · rcases h'.lease with ⟨hlease, hsend⟩ | hdrop
    · rw [hlease, hsend]
      exact h.lease
    · exact .inr hdrop

theorem SameControl.timed {now : Nat} {r r' : RaftServer n α} (h : r.SameControl r') :
    Timed now r r' := .of_eq h.lastHeartbeatTime h.leaseExpiresUs h.lastAeSendUs

theorem timed_resetTimer (now : Nat) (r : RaftServer n α) : Timed now r (resetTimer now r) :=
  ⟨.inr rfl, .inl ⟨rfl, rfl⟩⟩

theorem timed_setIsLeader (now : Nat) (b : Bool) (r : RaftServer n α) :
    Timed now r (setIsLeader now b r) := by
  unfold setIsLeader
  cases b with
  | false =>
    dsimp only
    split
    · exact .of_eq rfl rfl rfl
    · exact ⟨.inl rfl, .inr ⟨rfl, fun _ => rfl⟩⟩
  | true =>
    dsimp only
    split
    · exact .of_eq rfl rfl rfl
    · exact ⟨.inl rfl, .inr ⟨rfl, fun _ => rfl⟩⟩

theorem setIsLeader_lease (now : Nat) {r : RaftServer n α} (h : r.isLeader = false) :
    (setIsLeader now true r).leaseExpiresUs = 0 ∧
      ∀ f, (setIsLeader now true r).lastAeSendUs f = none := by
  unfold setIsLeader
  simp [h]

theorem timed_doVote (now : Nat) (r : RaftServer n α) (m : VoteRequest n) (b : Bool) :
    Timed now r (doVote now r m b) := by
  have hraise : Timed now r (r.raiseTerm m.candTerm) := .of_eq rfl rfl rfl
  cases b with
  | false => exact hraise
  | true =>
    have hdown := hraise.trans (timed_setIsLeader now false _)
    exact hdown.trans ⟨.inr rfl, .inl ⟨rfl, rfl⟩⟩

theorem timed_adoptTerm (now term : Nat) (r : RaftServer n α) : Timed now r (adoptTerm now term r) := by
  unfold adoptTerm
  split
  · have hraise : Timed now r { r with currentTerm := term } := .of_eq rfl rfl rfl
    exact hraise.trans (timed_setIsLeader now false _)
  · exact .of_eq rfl rfl rfl

theorem timed_requestVote {now : Nat} {self : Fin n} {sig : JmSignal} {r r' : RaftServer n α}
    {m : Option (VoteRequest n)} (h : requestVote now self sig r = some (r', m)) : Timed now r r' := by
  obtain ⟨-, rfl⟩ | ⟨_, _, -, -, rfl⟩ := requestVote_eq h
  · exact ⟨.inr rfl, .inl ⟨rfl, rfl⟩⟩
  · exact .of_eq rfl rfl rfl

theorem timed_finishVote {now : Nat} {r r' : RaftServer n α} (h : finishVote now r = some r') :
    Timed now r r' := by
  have hdrop : Timed now r { r with voting := none } := .of_eq rfl rfl rfl
  obtain ⟨v, -, rfl | ⟨-, -, rfl⟩ | rfl⟩ := finishVote_eq h
  · exact hdrop
  · obtain ⟨_, _, heq⟩ := markElectionDoneLocked_eq v.electionAfterFailure
      (setIsLeader now true { r with voting := none })
    rw [heq]
    exact hdrop.trans ((timed_setIsLeader now true _).trans (.of_eq rfl rfl rfl))
  · exact hdrop.trans ((timed_setIsLeader now false _).trans (.of_eq rfl rfl rfl))

theorem adoptTerm_currentTerm {now term : Nat} {r : RaftServer n α} (h : r.currentTerm ≤ term) :
    (adoptTerm now term r).currentTerm = term := by
  unfold adoptTerm
  split
  · exact setIsLeader_currentTerm now false _
  · next hnot => exact le_antisymm h (Nat.not_lt.mp hnot)

theorem appendOk_term {r : RaftServer n α} {m : AppendEntries n α} (h : r.appendOk m = some true) :
    r.currentTerm ≤ m.term := by
  obtain ⟨prev, -, hchecks⟩ := Option.map_eq_some_iff.mp h
  simp only [Bool.and_eq_true, decide_eq_true_eq] at hchecks
  exact hchecks.1.1

/-- An accepted call restarts the timer in the term of the call; a rejected one changes nothing. -/
theorem onAppendEntries_cases {now : Nat} {r r' : RaftServer n α} {m : AppendEntries n α}
    {reply : AppendReply n α} (h : onAppendEntries now r m = some (r', reply)) :
    reply.call = m ∧ Timed now r r' ∧ (reply.ok = true →
      r.currentTerm ≤ m.term ∧ r'.currentTerm = m.term ∧ r'.lastHeartbeatTime = now) := by
  obtain ⟨ok, hok, h⟩ := Option.bind_eq_some_iff.mp h
  cases ok with
  | false =>
    cases h
    exact ⟨rfl, .of_eq rfl rfl rfl, fun hfalse => by cases hfalse⟩
  | true =>
    obtain ⟨q, hq, h⟩ := Option.bind_eq_some_iff.mp h
    obtain ⟨q', hq', h⟩ := Option.bind_eq_some_iff.mp h
    cases h
    have hsame := (sameControl_storeBatch hq).trans (sameControl_updateCommit hq')
    have hle : (resetTimer now r).currentTerm ≤ m.term := appendOk_term hok
    have htimed := (timed_resetTimer now r).trans (timed_adoptTerm now m.term _)
    refine ⟨rfl, htimed.trans hsame.timed, fun _ => ⟨hle, ?_, ?_⟩⟩
    · rw [hsame.currentTerm]
      exact adoptTerm_currentTerm hle
    · rw [hsame.lastHeartbeatTime]
      rcases (timed_adoptTerm now m.term (resetTimer now r)).heartbeat with hkeep | hnow
      · exact hkeep
      · exact hnow

/-- Where the lease end may stand after a reply was recorded. -/
def LeaseMoved (self : Fin n) (old : Nat) (r' : RaftServer n α) : Prop :=
  n ≤ 1 ∨ r'.leaseExpiresUs = 0 ∨ r'.leaseExpiresUs = old ∨
    ∃ anchor, (((peers self).filterMap r'.lastAeSendUs).mergeSort (fun a b => b ≤ a))[n / 2 - 1]?
      = some anchor ∧ r'.leaseExpiresUs = anchor + kReadLeaseDurationUs

theorem recordAck_cases (now : Nat) (self : Fin n) (reply : AppendReply n α) (r : RaftServer n α) :
    (recordAck now self reply r).lastHeartbeatTime = r.lastHeartbeatTime ∧
      (recordAck now self reply r).currentTerm = r.currentTerm ∧
      (recordAck now self reply r).lastAeSendUs
        = Function.update r.lastAeSendUs reply.call.follower (some reply.call.aeSendUs) ∧
      LeaseMoved self r.leaseExpiresUs (recordAck now self reply r) := by
  unfold recordAck recomputeLeaseLocked
  dsimp only
  split
  · next hn => exact ⟨rfl, rfl, rfl, .inl hn⟩
  next hn =>
  split
  · exact ⟨rfl, rfl, rfl, .inr (.inl rfl)⟩
  next hlen =>
  split
  · refine ⟨rfl, rfl, rfl, .inr (.inr (.inr ⟨_, ?_, rfl⟩))⟩
    dsimp only
    rw [List.getD_eq_getElem?_getD, List.getElem?_eq_getElem (by rw [List.length_mergeSort]; omega)]
    rfl
  · exact ⟨rfl, rfl, rfl, .inr (.inr (.inl rfl))⟩

/-- A reply changes lease data only when it accepts, at a leader not past the term of the call. -/
theorem onAppendReply_cases (now : Nat) (self : Fin n) (reply : AppendReply n α)
    (r : RaftServer n α) :
    Timed now r (onAppendReply now self reply r) ∨
      (reply.ok = true ∧ ¬ reply.call.term < r.currentTerm ∧ r.isLeader = true ∧
        (onAppendReply now self reply r).currentTerm = r.currentTerm ∧
        (onAppendReply now self reply r).lastHeartbeatTime = r.lastHeartbeatTime ∧
        (onAppendReply now self reply r).lastAeSendUs
          = Function.update r.lastAeSendUs reply.call.follower (some reply.call.aeSendUs) ∧
        LeaseMoved self r.leaseExpiresUs (onAppendReply now self reply r)) := by
  have hdec : Timed now r (r.decInFlight reply.call.follower) := .of_eq rfl rfl rfl
  obtain heq | ⟨-, -, heq⟩ | ⟨_, _, -, heq⟩ | ⟨hok, hterm, haccept⟩ :=
    onAppendReply_eq now self reply r
  · rw [heq]
    exact .inl hdec
  · rw [heq]
    exact .inl (hdec.trans ((timed_setIsLeader now false _).trans (.of_eq rfl rfl rfl)))
  · rw [heq]
    exact .inl (.of_eq rfl rfl rfl)
  · obtain ⟨_, _, hmatch⟩ := acceptMatch_eq reply (r.decInFlight reply.call.follower)
    obtain heq | ⟨hleader, heq⟩ := haccept
    · rw [heq, hmatch]
      exact .inl (.of_eq rfl rfl rfl)
    · obtain ⟨hheart, hcur, hsend, hmoved⟩ := recordAck_cases now self reply
        ((r.decInFlight reply.call.follower).acceptMatch reply)
      rw [heq]
      rw [hmatch] at hheart hcur hsend hmoved ⊢
      exact .inr ⟨hok, Nat.not_lt.mpr hterm, hleader, hcur, hheart, hsend, hmoved⟩

end RaftServer

variable {n : Nat} {α : Type}

def RecordedAck (s s' : System n α) (j : Fin n) : Prop :=
  ∃ r ∈ s.appendReplies, r.call.leaderSiteId = j ∧ r.ok = true ∧
    ¬ r.call.term < (s.server j).currentTerm ∧ (s.server j).isLeader = true ∧
    (s'.server j).currentTerm = (s.server j).currentTerm ∧
    (s'.server j).lastAeSendUs
      = Function.update (s.server j).lastAeSendUs r.call.follower (some r.call.aeSendUs) ∧
    RaftServer.LeaseMoved j (s.server j).leaseExpiresUs (s'.server j)

/-- What a step can do to timers, leases and calls. -/
structure ClockStep (s s' : System n α) : Prop where
  now_le : s.now ≤ s'.now
  heartbeat : ∀ j, (s'.server j).lastHeartbeatTime = (s.server j).lastHeartbeatTime ∨
    (s'.server j).lastHeartbeatTime = s.now
  appends_subset : s.appends ⊆ s'.appends
  replies_subset : s.appendReplies ⊆ s'.appendReplies
  appends_new : ∀ m ∈ s'.appends, m ∈ s.appends ∨ ((s.server m.leaderSiteId).isLeader = true ∧
    m.term = (s.server m.leaderSiteId).currentTerm ∧ m.follower ≠ m.leaderSiteId ∧ m.aeSendUs = s.now)
  replies_new : ∀ r ∈ s'.appendReplies, r ∈ s.appendReplies ∨ (r.call ∈ s.appends ∧ (r.ok = true →
    (s.server r.call.follower).currentTerm ≤ r.call.term ∧
    (s'.server r.call.follower).currentTerm = r.call.term ∧
    (s'.server r.call.follower).lastHeartbeatTime = s.now ∧
    s'.voteRequests = s.voteRequests ∧ s'.voteReplies = s.voteReplies))
  lease : ∀ j, ((s'.server j).leaseExpiresUs = (s.server j).leaseExpiresUs ∧
      (s'.server j).lastAeSendUs = (s.server j).lastAeSendUs) ∨
    ((s'.server j).leaseExpiresUs = 0 ∧ ∀ f, (s'.server j).lastAeSendUs f = none) ∨ RecordedAck s s' j

theorem timed_update {now : Nat} {f : Fin n → RaftServer n α} {i : Fin n} {r : RaftServer n α}
    (h : RaftServer.Timed now (f i) r) (j : Fin n) :
    RaftServer.Timed now (f j) (Function.update f i r j) := by
  by_cases hj : j = i
  · subst hj
    simpa using h
  · rw [Function.update_of_ne hj]
    exact RaftServer.Timed.of_eq rfl rfl rfl

theorem ClockStep.of_timed {s s' : System n α}
    (hservers : ∀ j, RaftServer.Timed s.now (s.server j) (s'.server j)) (hnow : s.now ≤ s'.now)
    (happ : s'.appends = s.appends) (hrep : s'.appendReplies = s.appendReplies) : ClockStep s s' where
  now_le := hnow
  heartbeat j := (hservers j).heartbeat
  appends_subset := happ ▸ List.Subset.refl _
  replies_subset := hrep ▸ List.Subset.refl _
  appends_new m hm := .inl (happ ▸ hm)
  replies_new r hr := .inl (hrep ▸ hr)
  lease j := by
    rcases (hservers j).lease with hsame | hdrop
    · exact .inl hsame
    · exact .inr (.inl hdrop)

theorem clockStep_of_step {s s' : System n α} {e : Event n α} (h : s.step e = some s') :
    ClockStep s s' := by
  cases e with
  | tick us =>
    cases h
    exact .of_timed (fun j => .of_eq rfl rfl rfl) (Nat.le_add_right _ _) rfl rfl
  | requestVote i timeout sig =>
    unfold System.step at h
    dsimp only at h
    split at h
    · obtain ⟨⟨r, m⟩, hr, h⟩ := Option.bind_eq_some_iff.mp h
      cases h
      exact .of_timed (timed_update (RaftServer.timed_requestVote hr)) (le_refl _) rfl rfl
    · cases h
  | deliverVoteRequest v k =>
    obtain ⟨m, hm, h⟩ := Option.bind_eq_some_iff.mp h
    split at h
    · cases h
    · obtain ⟨⟨r, reply⟩, hr, h⟩ := Option.bind_eq_some_iff.mp h
      cases h
      obtain ⟨b, -, hr⟩ := Option.bind_eq_some_iff.mp hr
      cases hr
      exact .of_timed (timed_update (RaftServer.timed_doVote _ _ _ _)) (le_refl _) rfl rfl
  | deliverVoteReply k =>
    obtain ⟨reply, hk, h⟩ := Option.bind_eq_some_iff.mp h
    obtain ⟨r, hr, h⟩ := Option.bind_eq_some_iff.mp h
    cases h
    obtain ⟨v, -, -, -, rfl⟩ := RaftServer.feedVote_cases hr
    exact .of_timed (timed_update (.of_eq rfl rfl rfl)) (le_refl _) rfl rfl
  | finishVote i =>
    obtain ⟨r, hr, h⟩ := Option.bind_eq_some_iff.mp h
    cases h
    exact .of_timed (timed_update (RaftServer.timed_finishVote hr)) (le_refl _) rfl rfl
  | start i cmd =>
    obtain ⟨r, hr, h⟩ := Option.bind_eq_some_iff.mp h
    cases h
    exact .of_timed (timed_update (RaftServer.sameControl_start hr).timed) (le_refl _) rfl rfl
  | advanceCommit i =>
    obtain ⟨r, hr, h⟩ := Option.bind_eq_some_iff.mp h
    cases h
    exact .of_timed (timed_update (RaftServer.sameControl_advanceCommit hr).timed) (le_refl _) rfl rfl
  | drain i follower =>
    unfold System.step at h
    dsimp only at h
    split at h
    · cases h
    · next hne =>
      obtain ⟨⟨r, m⟩, hr, h⟩ := Option.bind_eq_some_iff.mp h
      cases h
      obtain ⟨hsame, hm⟩ := RaftServer.drain_cases hr
      have htimed : RaftServer.Timed s.now (s.server i) r := hsame.timed
      have hservers := timed_update (f := s.server) htimed
      refine ⟨le_refl _, fun j => (hservers j).heartbeat, List.subset_append_left _ _,
        List.Subset.refl _, fun c hc => ?_, fun c hc => .inl hc, fun j => ?_⟩
      · rcases List.mem_append.mp hc with hold | hnew
        · exact .inl hold
        · obtain ⟨hlead, rfl, rfl, hterm, htime⟩ := hm c (Option.mem_toList.mp hnew)
          exact .inr ⟨hlead, hterm, Ne.symm hne, htime⟩
      · rcases (hservers j).lease with hkeep | hdrop
        · exact .inl hkeep
        · exact .inr (.inl hdrop)
  | deliverAppend k =>
    obtain ⟨m, hk, h⟩ := Option.bind_eq_some_iff.mp h
    obtain ⟨⟨r, reply⟩, hr, h⟩ := Option.bind_eq_some_iff.mp h
    cases h
    obtain ⟨rfl, htimed, hok⟩ := RaftServer.onAppendEntries_cases hr
    have hservers := timed_update (f := s.server) htimed
    refine ⟨le_refl _, fun j => (hservers j).heartbeat, List.Subset.refl _,
      List.subset_append_left _ _, fun c hc => .inl hc, fun c hc => ?_, fun j => ?_⟩
    · rcases List.mem_append.mp hc with hold | hnew
      · exact .inl hold
      · obtain rfl := List.mem_singleton.mp hnew
        refine .inr ⟨List.mem_of_getElem? hk, fun haccept => ?_⟩
        obtain ⟨hle, hterm, htime⟩ := hok haccept
        exact ⟨hle, by simpa [System.setServer] using hterm, by simpa [System.setServer] using htime,
          rfl, rfl⟩
    · rcases (hservers j).lease with hkeep | hdrop
      · exact .inl hkeep
      · exact .inr (.inl hdrop)
  | deliverAppendReply k =>
    obtain ⟨reply, hk, h⟩ := Option.bind_eq_some_iff.mp h
    cases h
    rcases RaftServer.onAppendReply_cases s.now reply.call.leaderSiteId reply
      (s.server reply.call.leaderSiteId) with htimed | ⟨hok, hterm, hlead, hcur, hheart, hsend, hmoved⟩
    · exact .of_timed (timed_update htimed) (le_refl _) rfl rfl
    · refine ⟨le_refl _, fun j => ?_, List.Subset.refl _, List.Subset.refl _, fun c hc => .inl hc,
        fun c hc => .inl hc, fun j => ?_⟩
      · by_cases hj : j = reply.call.leaderSiteId
        · subst hj
          simp [System.setServer, hheart]
        · simp [System.setServer, hj]
      · by_cases hj : j = reply.call.leaderSiteId
        · subst hj
          refine .inr (.inr ⟨reply, List.mem_of_getElem? hk, rfl, hok, hterm, hlead, ?_⟩)
          simp only [System.setServer, Function.update_self]
          exact ⟨hcur, hsend, hmoved⟩
        · simp [System.setServer, hj]
  | appendTimeout k =>
    obtain ⟨m, -, h⟩ := Option.bind_eq_some_iff.mp h
    cases h
    exact .of_timed (timed_update (.of_eq rfl rfl rfl)) (le_refl _) rfl rfl
  | appendError k =>
    obtain ⟨m, -, h⟩ := Option.bind_eq_some_iff.mp h
    cases h
    exact .of_timed (timed_update (.of_eq rfl rfl rfl)) (le_refl _) rfl rfl
  | pause i =>
    cases h
    exact .of_timed (timed_update (.of_eq rfl rfl rfl)) (le_refl _) rfl rfl
  | jetpackRpc i =>
    unfold System.step at h
    dsimp only at h
    split at h
    · cases h
    · cases h
      exact .of_timed (timed_update (RaftServer.timed_resetTimer _ _)) (le_refl _) rfl rfl
  | beginRecovery i =>
    unfold System.step at h
    dsimp only at h
    split at h
    · cases h
      exact .of_timed (timed_update (RaftServer.timed_setIsLeader _ _ _)) (le_refl _) rfl rfl
    · cases h

end Jetpack.Raft
