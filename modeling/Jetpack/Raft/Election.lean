import Jetpack.Raft.Control
import Jetpack.Raft.System

/-! What a step of the system can do to elections. -/

namespace Jetpack.Raft

variable {n : Nat} {α : Type}

/-- What a step can do to elections. -/
inductive ElectionStep (s : System n α) (e : Event n α) (s' : System n α) : Prop
  | calm (hservers : ∀ j, (s.server j).Calm (s'.server j))
      (hreq : s'.voteRequests = s.voteRequests) (hrep : s'.voteReplies = s.voteReplies)
  | request (i : Fin n) (timeout : Nat) (r : RaftServer n α) (lstTerm : Nat) (v : Voting n)
      (hcan : s.canStartElection i timeout = true)
      (hserver : s'.server = Function.update s.server i r)
      (hterm : r.currentTerm = (s.server i).currentTerm + 1) (hleader : r.isLeader = false)
      (hvoting : r.voting = some v) (hvterm : v.term = r.currentTerm)
      (hevent : v.event = { nTotal := n, quorum := n / 2 }) (hnone : v.replied = [])
      (hlst : (s.server i).lastTermAt ((s.server i).lastLogIndex % 2 ^ 32) = some lstTerm)
      (hreq : s'.voteRequests = s.voteRequests ++
        [⟨i, r.currentTerm, (s.server i).lastLogIndex % 2 ^ 32, lstTerm⟩])
      (hrep : s'.voteReplies = s.voteReplies)
  | vote (v : Fin n) (k : Nat) (m : VoteRequest n) (b : Bool)
      (he : e = .deliverVoteRequest v k) (hm : s.voteRequests[k]? = some m) (hv : v ≠ m.candId)
      (hvote : (s.server v).voteFor? m = some b)
      (hserver : s'.server = Function.update s.server v ((s.server v).doVote s.now m b))
      (hreq : s'.voteRequests = s.voteRequests)
      (hrep : s'.voteReplies = s.voteReplies ++
        [⟨v, m.candId, m.candTerm, (s.server v).currentTerm, b⟩])
  | feed (r : VoteReply n) (v : Voting n) (hr : r ∈ s.voteReplies)
      (hv : (s.server r.candId).voting = some v) (hterm : v.term = r.candTerm)
      (hnew : r.voter ∉ v.replied)
      (hserver : s'.server = Function.update s.server r.candId
        { s.server r.candId with voting := some { v with
          event := v.event.feedResponse r.voteGranted r.replyTerm
          replied := r.voter :: v.replied } })
      (hreq : s'.voteRequests = s.voteRequests) (hrep : s'.voteReplies = s.voteReplies)
  | win (i : Fin n) (v : Voting n) (hv : (s.server i).voting = some v)
      (hyes : v.event.yes = true) (hterm : (s.server i).currentTerm = v.term)
      (hserver : s'.server = Function.update s.server i
        (((s.server i : RaftServer n α) |> fun r =>
          RaftServer.setIsLeader s.now true { r with voting := none }).markElectionDoneLocked
          v.electionAfterFailure))
      (hreq : s'.voteRequests = s.voteRequests) (hrep : s'.voteReplies = s.voteReplies)

theorem canStartElection_cases {s : System n α} {i : Fin n} {timeout : Nat}
    (h : s.canStartElection i timeout = true) : (s.server i).isLeader = false ∧
      (s.server i).lastHeartbeatTime + kReadLeaseDurationUs < s.now := by
  simp only [System.canStartElection, Bool.and_eq_true, Bool.not_eq_true', decide_eq_true_eq] at h
  obtain ⟨⟨⟨⟨hleader, -⟩, hmin⟩, -⟩, helapsed⟩ := h
  refine ⟨hleader, ?_⟩
  simp only [heartbeatInterval, kReadLeaseDurationUs] at hmin ⊢
  omega

theorem calm_setServer {s : System n α} {i : Fin n} {r : RaftServer n α}
    (h : (s.server i).Calm r) (j : Fin n) : (s.server j).Calm ((s.setServer i r).server j) := by
  by_cases hj : j = i
  · subst hj
    simpa [System.setServer] using h
  · simpa [System.setServer, hj] using RaftServer.Calm.refl (s.server j)

theorem electionStep_of_step {s s' : System n α} {e : Event n α} (h : s.step e = some s') :
    ElectionStep s e s' := by
  cases e with
  | tick us =>
    cases h
    exact .calm (fun j => .refl _) rfl rfl
  | requestVote i timeout sig =>
    unfold System.step at h
    dsimp only at h
    split at h
    · next hcan =>
      obtain ⟨⟨r, m⟩, hr, h⟩ := Option.bind_eq_some_iff.mp h
      cases h
      obtain ⟨rfl, hcalm⟩ | ⟨lstTerm, after, hlst, rfl, hterm, hleader, hvoting⟩ :=
        RaftServer.requestVote_cases hr
      · exact .calm (calm_setServer hcalm) (by simp) rfl
      · have hnot := (canStartElection_cases hcan).1
        refine .request i timeout r lstTerm _ hcan rfl hterm (hleader.trans hnot) hvoting hterm.symm rfl
          rfl hlst ?_ rfl
        rw [hterm]
        rfl
    · cases h
  | deliverVoteRequest v k =>
    obtain ⟨m, hm, h⟩ := Option.bind_eq_some_iff.mp h
    split at h
    · cases h
    · next hne =>
      obtain ⟨⟨r, reply⟩, hr, h⟩ := Option.bind_eq_some_iff.mp h
      cases h
      obtain ⟨b, hb, hr⟩ := Option.bind_eq_some_iff.mp hr
      cases hr
      exact .vote v k m b rfl hm hne hb rfl rfl rfl
  | deliverVoteReply k =>
    obtain ⟨reply, hk, h⟩ := Option.bind_eq_some_iff.mp h
    obtain ⟨r, hr, h⟩ := Option.bind_eq_some_iff.mp h
    cases h
    obtain ⟨v, hv, hterm, hnew, rfl⟩ := RaftServer.feedVote_cases hr
    exact .feed reply v (List.mem_of_getElem? hk) hv hterm hnew rfl rfl rfl
  | finishVote i =>
    obtain ⟨r, hr, h⟩ := Option.bind_eq_some_iff.mp h
    cases h
    obtain hcalm | ⟨v, hv, hyes, hterm, rfl⟩ := RaftServer.finishVote_cases hr
    · exact .calm (calm_setServer hcalm) rfl rfl
    · exact .win i v hv hyes hterm rfl rfl rfl
  | start i cmd =>
    obtain ⟨r, hr, h⟩ := Option.bind_eq_some_iff.mp h
    cases h
    exact .calm (calm_setServer (RaftServer.sameControl_start hr).calm) rfl rfl
  | advanceCommit i =>
    obtain ⟨r, hr, h⟩ := Option.bind_eq_some_iff.mp h
    cases h
    exact .calm (calm_setServer (RaftServer.sameControl_advanceCommit hr).calm) rfl rfl
  | drain i follower =>
    unfold System.step at h
    dsimp only at h
    split at h
    · cases h
    · obtain ⟨⟨r, m⟩, hr, h⟩ := Option.bind_eq_some_iff.mp h
      cases h
      exact .calm (calm_setServer (RaftServer.drain_cases hr).1.calm) rfl rfl
  | deliverAppend k =>
    obtain ⟨m, -, h⟩ := Option.bind_eq_some_iff.mp h
    obtain ⟨⟨r, reply⟩, hr, h⟩ := Option.bind_eq_some_iff.mp h
    cases h
    exact .calm (calm_setServer (RaftServer.calm_onAppendEntries hr)) rfl rfl
  | deliverAppendReply k =>
    obtain ⟨reply, -, h⟩ := Option.bind_eq_some_iff.mp h
    cases h
    exact .calm (calm_setServer (RaftServer.calm_onAppendReply _ _ _ _)) rfl rfl
  | appendTimeout k =>
    obtain ⟨m, -, h⟩ := Option.bind_eq_some_iff.mp h
    cases h
    exact .calm (calm_setServer (.of_eq rfl rfl rfl)) rfl rfl
  | appendError k =>
    obtain ⟨m, -, h⟩ := Option.bind_eq_some_iff.mp h
    cases h
    exact .calm (calm_setServer (.of_eq rfl rfl rfl)) rfl rfl
  | pause i =>
    cases h
    exact .calm (calm_setServer (.of_eq rfl rfl rfl)) rfl rfl
  | jetpackRpc i =>
    unfold System.step at h
    dsimp only at h
    split at h
    · cases h
    · cases h
      exact .calm (calm_setServer (.of_eq rfl rfl rfl)) rfl rfl
  | beginRecovery i =>
    unfold System.step at h
    dsimp only at h
    split at h
    · cases h
      exact .calm (calm_setServer (RaftServer.calm_stepDown _ _)) rfl rfl
    · cases h

end Jetpack.Raft
