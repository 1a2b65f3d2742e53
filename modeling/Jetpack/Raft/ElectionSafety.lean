import Jetpack.Library.Transition
import Jetpack.Library.Voting
import Jetpack.Raft.Election

/-! A term has at most one leader, in every run in which no leader refuses a candidate of a newer
term. -/

namespace Jetpack.Raft

open Transition QuorumVoting

variable {n : Nat} {α : Type}

def ballots (s : System n α) : Ballots (Fin n) where
  term v := (s.server v).currentTerm
  vote v u c := (v = c ∧ ∃ m ∈ s.voteRequests, m.candId = c ∧ m.candTerm = u) ∨
    ∃ r ∈ s.voteReplies, r.voteGranted = true ∧ r.voter = v ∧ r.candId = c ∧ r.candTerm = u

/-- The yes votes counted so far are granted replies of as many other servers. -/
structure CountSound (s : System n α) (i : Fin n) (v : Voting n) : Prop where
  asked : ∃ m ∈ s.voteRequests, m.candId = i ∧ m.candTerm = v.term
  quorum : v.event.quorum = n / 2
  counted : ∃ yes : Finset (Fin n), yes.card = v.event.nVotedYes ∧ i ∉ yes ∧
    ∀ y ∈ yes, y ∈ v.replied ∧ ∃ r ∈ s.voteReplies,
      r.voteGranted = true ∧ r.voter = y ∧ r.candId = i ∧ r.candTerm = v.term

structure ElectionInv (s : System n α) : Prop where
  wellFormed : (ballots s).WellFormed
  leader : ∀ i, (s.server i).isLeader = true →
    (ballots s).Elected (majority (Fin n)) i (s.server i).currentTerm ∧
      (ballots s).vote i (s.server i).currentTerm i
  counting : ∀ i v, (s.server i).voting = some v → CountSound s i v
  other : ∀ r ∈ s.voteReplies, r.voter ≠ r.candId

/-- No server that is leader refuses a vote to a candidate of a higher term. -/
def LeaderYields (s : System n α) : Event n α → Prop
  | .deliverVoteRequest v k => ∀ m ∈ s.voteRequests[k]?, (s.server v).isLeader = true →
      (s.server v).currentTerm < m.candTerm → (s.server v).voteFor? m ≠ some false
  | _ => True

instance (s : System n α) (e : Event n α) : Decidable (LeaderYields s e) :=
  match e with
  | .deliverVoteRequest _ k => inferInstanceAs (Decidable (∀ m ∈ s.voteRequests[k]?, _ → _))
  | .tick _ | .requestVote _ _ _ | .deliverVoteReply _ | .finishVote _ | .start _ _ | .advanceCommit _
  | .drain _ _ | .deliverAppend _ | .deliverAppendReply _ | .appendTimeout _ | .appendError _
  | .pause _ | .jetpackRpc _ | .beginRecovery _ => isTrue trivial

theorem electionInv_init : ElectionInv ({} : System n α) where
  wellFormed := by
    refine ⟨?_, ?_⟩ <;> simp [ballots]
  leader i h := by cases h
  counting i v h := by cases h
  other r h := by cases h

theorem ElectionStep.term_le {s s' : System n α} {e : Event n α} (h : ElectionStep s e s')
    (j : Fin n) : (s.server j).currentTerm ≤ (s'.server j).currentTerm := by
  cases h with
  | calm hservers _ _ => exact (hservers j).term_le
  | request i timeout r lstTerm v hcan hserver hterm =>
    rw [hserver]
    by_cases hj : j = i
    · subst hj
      simp [hterm]
    · simp [hj]
  | vote v k m b he hm hv hvote hserver =>
    rw [hserver]
    by_cases hj : j = v
    · subst hj
      rw [Function.update_self, RaftServer.doVote_currentTerm]
      exact (RaftServer.le_raiseTerm _ _).1
    · simp [hj]
  | feed r v hr hv hterm hnew hserver =>
    rw [hserver]
    by_cases hj : j = r.candId
    · subst hj
      simp
    · simp [hj]
  | win i v hv hyes hterm hserver =>
    rw [hserver]
    by_cases hj : j = i
    · subst hj
      rw [Function.update_self]
      unfold RaftServer.markElectionDoneLocked
      split <;> simp
    · simp [hj]

theorem ElectionStep.messages_subset {s s' : System n α} {e : Event n α} (h : ElectionStep s e s') :
    s.voteRequests ⊆ s'.voteRequests ∧ s.voteReplies ⊆ s'.voteReplies := by
  cases h <;> simp_all

theorem vote_mono {s s' : System n α} (hreq : s.voteRequests ⊆ s'.voteRequests)
    (hrep : s.voteReplies ⊆ s'.voteReplies) {v c : Fin n} {u : Nat}
    (h : (ballots s).vote v u c) : (ballots s').vote v u c := by
  rcases h with ⟨hvc, m, hm, hrest⟩ | ⟨r, hr, hrest⟩
  · exact .inl ⟨hvc, m, hreq hm, hrest⟩
  · exact .inr ⟨r, hrep hr, hrest⟩

/-- A step casts at most one vote, in a term above the voter's. -/
theorem ElectionStep.ballots_grows {s s' : System n α} {e : Event n α} (h : ElectionStep s e s') :
    (ballots s).Grows (ballots s') := by
  obtain ⟨hreqs, hreps⟩ := h.messages_subset
  refine ⟨h.term_le, fun hvote => vote_mono hreqs hreps hvote, ?_⟩
  intro v u c hvote
  have hsame : s'.voteRequests = s.voteRequests → s'.voteReplies = s.voteReplies →
      (ballots s).vote v u c := by
    intro hreq hrep
    simpa only [ballots, hreq, hrep] using hvote
  cases h with
  | calm _ hreq hrep => exact .inl (hsame hreq hrep)
  | feed _ _ _ _ _ _ _ hreq hrep => exact .inl (hsame hreq hrep)
  | win _ _ _ _ _ _ hreq hrep => exact .inl (hsame hreq hrep)
  | request i timeout r lstTerm w hcan hserver hterm _ _ _ _ _ _ hreq hrep =>
    have hsplit : ∀ c', (ballots s').vote v u c' →
        (ballots s).vote v u c' ∨ (c' = i ∧ v = i ∧ u = r.currentTerm) := by
      intro c' hc'
      simp only [ballots, hreq, hrep, List.mem_append, List.mem_singleton] at hc' ⊢
      rcases hc' with ⟨hvc, m, hm | rfl, hcand, hu⟩ | hold
      · exact .inl (.inl ⟨hvc, m, hm, hcand, hu⟩)
      · exact .inr ⟨hcand.symm, hvc.trans hcand.symm, hu.symm⟩
      · exact .inl (.inr hold)
    rcases hsplit c hvote with hold | ⟨rfl, rfl, rfl⟩
    · exact .inl hold
    · refine .inr ⟨?_, ?_, fun c' hc' => ?_⟩
      · simp only [ballots, hterm]
        omega
      · simp [ballots, hserver]
      · rcases hsplit c' hc' with hold | ⟨rfl, -, -⟩
        · exact .inl hold
        · exact .inr rfl
  | vote w k m b he hm hw hb hserver hreq hrep =>
    have hsplit : ∀ c', (ballots s').vote v u c' → (ballots s).vote v u c' ∨
        (b = true ∧ c' = m.candId ∧ v = w ∧ u = m.candTerm) := by
      intro c' hc'
      simp only [ballots, hreq, hrep, List.mem_append, List.mem_singleton] at hc' ⊢
      rcases hc' with hold | ⟨r, hr | rfl, hgranted, hvoter, hcand, hu⟩
      · exact .inl (.inl hold)
      · exact .inl (.inr ⟨r, hr, hgranted, hvoter, hcand, hu⟩)
      · exact .inr ⟨hgranted, hcand.symm, hvoter.symm, hu.symm⟩
    rcases hsplit c hvote with hold | ⟨rfl, rfl, rfl, rfl⟩
    · exact .inl hold
    · refine .inr ⟨RaftServer.voteFor?_granted hb, ?_, fun c' hc' => ?_⟩
      · simp only [ballots, hserver, Function.update_self, RaftServer.doVote_currentTerm]
        exact (RaftServer.le_raiseTerm _ _).2
      · rcases hsplit c' hc' with hold | ⟨-, rfl, -, -⟩
        · exact .inl hold
        · exact .inr rfl

theorem CountSound.mono {s s' : System n α} {i : Fin n} {v : Voting n} (h : CountSound s i v)
    (hreq : s.voteRequests ⊆ s'.voteRequests) (hrep : s.voteReplies ⊆ s'.voteReplies) :
    CountSound s' i v := by
  obtain ⟨m, hm, hasked⟩ := h.asked
  obtain ⟨yes, hcard, hself, hyes⟩ := h.counted
  refine ⟨⟨m, hreq hm, hasked⟩, h.quorum, yes, hcard, hself, fun y hy => ?_⟩
  obtain ⟨hreplied, r, hr, hgranted⟩ := hyes y hy
  exact ⟨hreplied, r, hrep hr, hgranted⟩

theorem CountSound.feed {s : System n α} {v : Voting n} {r : VoteReply n}
    (h : CountSound s r.candId v) (hr : r ∈ s.voteReplies) (hother : r.voter ≠ r.candId)
    (hterm : v.term = r.candTerm) (hnew : r.voter ∉ v.replied) :
    CountSound s r.candId { v with
      event := v.event.feedResponse r.voteGranted r.replyTerm
      replied := r.voter :: v.replied } := by
  obtain ⟨yes, hcard, hself, hyes⟩ := h.counted
  have hold : ∀ y ∈ yes, y ∈ r.voter :: v.replied ∧ ∃ r' ∈ s.voteReplies,
      r'.voteGranted = true ∧ r'.voter = y ∧ r'.candId = r.candId ∧ r'.candTerm = v.term :=
    fun y hy => ⟨List.mem_cons_of_mem _ (hyes y hy).1, (hyes y hy).2⟩
  have hquorum : (v.event.feedResponse r.voteGranted r.replyTerm).quorum = n / 2 := by
    rw [← h.quorum]
    unfold RaftVoteQuorumEvent.feedResponse
    split <;> rfl
  refine ⟨h.asked, hquorum, ?_⟩
  cases hgranted : r.voteGranted with
  | false => exact ⟨yes, hcard, hself, hold⟩
  | true =>
    have hfresh : r.voter ∉ yes := fun hy => hnew (hyes r.voter hy).1
    refine ⟨insert r.voter yes, ?_, ?_, ?_⟩
    · rw [Finset.card_insert_of_notMem hfresh, hcard]
      rfl
    · rw [Finset.mem_insert, not_or]
      exact ⟨Ne.symm hother, hself⟩
    · intro y hy
      rcases Finset.mem_insert.mp hy with rfl | hy
      · exact ⟨List.mem_cons_self, r, hr, hgranted, rfl, rfl, hterm.symm⟩
      · exact hold y hy

theorem CountSound.elected {s : System n α} {i : Fin n} {v : Voting n} (h : CountSound s i v)
    (hyes : v.event.yes = true) : (ballots s).Elected (majority (Fin n)) i v.term := by
  obtain ⟨yes, hcard, hself, hgranted⟩ := h.counted
  refine ⟨insert i yes, ?_, fun y hy => ?_⟩
  · have hfull : v.event.quorum ≤ v.event.nVotedYes := by simpa [QuorumEvent.yes] using hyes
    rw [h.quorum] at hfull
    change Fintype.card (Fin n) < 2 * (insert i yes).card
    rw [Finset.card_insert_of_notMem hself, hcard, Fintype.card_fin]
    omega
  · rcases Finset.mem_insert.mp hy with rfl | hy
    · exact .inl ⟨rfl, h.asked⟩
    · exact .inr (hgranted y hy).2

/-- A leader was leader before in the same term, or has just won. -/
theorem ElectionStep.leader_cases {s s' : System n α} {e : Event n α} (hok : LeaderYields s e)
    (h : ElectionStep s e s') {j : Fin n} (hj : (s'.server j).isLeader = true) :
    ((s.server j).isLeader = true ∧ (s'.server j).currentTerm = (s.server j).currentTerm) ∨
      ∃ v, (s.server j).voting = some v ∧ v.event.yes = true ∧ (s.server j).currentTerm = v.term ∧
        s'.server j = (RaftServer.setIsLeader s.now true
          { s.server j with voting := none }).markElectionDoneLocked v.electionAfterFailure := by
  cases h with
  | calm hservers _ _ => exact .inl ((hservers j).leader hj)
  | request i timeout r lstTerm v hcan hserver hterm hleader =>
    by_cases hji : j = i
    · subst hji
      simp [hserver, hleader] at hj
    · exact .inl ⟨by simpa [hserver, hji] using hj, by simp [hserver, hji]⟩
  | vote v k m b he hm hv hvote hserver =>
    by_cases hjv : j = v
    · subst hjv
      rw [hserver, Function.update_self, RaftServer.doVote_isLeader, Bool.and_eq_true] at hj
      have hb : b = false := by simpa using hj.2
      subst hb
      -- A leader that refused had already reached the candidate's term.
      have hreached : ¬ (s.server j).currentTerm < m.candTerm := fun hlt => by
        subst he
        exact hok m hm hj.1 hlt hvote
      refine .inl ⟨hj.1, ?_⟩
      rw [hserver, Function.update_self, RaftServer.doVote_currentTerm]
      simp [RaftServer.raiseTerm, hreached]
    · exact .inl ⟨by simpa [hserver, hjv] using hj, by simp [hserver, hjv]⟩
  | feed r v hr hv hterm hnew hserver =>
    by_cases hjr : j = r.candId
    · subst hjr
      exact .inl ⟨by simpa [hserver] using hj, by simp [hserver]⟩
    · exact .inl ⟨by simpa [hserver, hjr] using hj, by simp [hserver, hjr]⟩
  | win i v hv hyes hterm hserver =>
    by_cases hji : j = i
    · subst hji
      exact .inr ⟨v, hv, hyes, hterm, by rw [hserver, Function.update_self]⟩
    · exact .inl ⟨by simpa [hserver, hji] using hj, by simp [hserver, hji]⟩

theorem ElectionInv.leader_step {s s' : System n α} {e : Event n α} (hs : ElectionInv s)
    (hok : LeaderYields s e) (h : ElectionStep s e s') (j : Fin n)
    (hj : (s'.server j).isLeader = true) :
    (ballots s').Elected (majority (Fin n)) j (s'.server j).currentTerm ∧
      (ballots s').vote j (s'.server j).currentTerm j := by
  have hgrows := h.ballots_grows
  rcases h.leader_cases hok hj with ⟨hold, hterm⟩ | ⟨v, hv, hyes, hterm, hserver⟩
  · rw [hterm]
    exact ⟨(hs.leader j hold).1.grows hgrows, hgrows.vote_keep (hs.leader j hold).2⟩
  · have hcount := hs.counting j v hv
    have hkept : (s'.server j).currentTerm = v.term := by
      rw [hserver, ← hterm]
      unfold RaftServer.markElectionDoneLocked
      split <;> simp
    rw [hkept]
    exact ⟨(hcount.elected hyes).grows hgrows, hgrows.vote_keep (.inl ⟨rfl, hcount.asked⟩)⟩

theorem ElectionInv.counting_step {s s' : System n α} {e : Event n α} (hs : ElectionInv s)
    (h : ElectionStep s e s') (j : Fin n) (w : Voting n) (hw : (s'.server j).voting = some w) :
    CountSound s' j w := by
  obtain ⟨hreqs, hreps⟩ := h.messages_subset
  have hkeep : (s.server j).voting = some w → CountSound s' j w :=
    fun hold => (hs.counting j w hold).mono hreqs hreps
  cases h with
  | calm hservers _ _ =>
    rcases (hservers j).voting with hsame | hnone
    · exact hkeep (hsame ▸ hw)
    · rw [hnone] at hw
      cases hw
  | request i timeout r lstTerm v hcan hserver hterm hleader hvoting hvterm hevent hnone hlst hreq =>
    by_cases hji : j = i
    · subst hji
      have hwv : w = v := by
        rw [hserver, Function.update_self, hvoting] at hw
        exact (Option.some.inj hw).symm
      subst hwv
      refine ⟨⟨_, hreq ▸ List.mem_append_right _ List.mem_cons_self, rfl, hvterm.symm⟩, by rw [hevent],
        ∅, ?_, by simp, by simp⟩
      rw [hevent]
      rfl
    · exact hkeep (by simpa [hserver, hji] using hw)
  | vote v k m b he hm hv hvote hserver =>
    by_cases hjv : j = v
    · subst hjv
      rw [hserver, Function.update_self, RaftServer.doVote_voting] at hw
      exact hkeep hw
    · exact hkeep (by simpa [hserver, hjv] using hw)
  | feed r v hr hv hterm hnew hserver =>
    by_cases hjr : j = r.candId
    · subst hjr
      rw [hserver, Function.update_self] at hw
      cases hw
      exact ((hs.counting _ v hv).feed hr (hs.other r hr) hterm hnew).mono hreqs hreps
    · exact hkeep (by simpa [hserver, hjr] using hw)
  | win i v hv hyes hterm hserver =>
    by_cases hji : j = i
    · subst hji
      rw [hserver, Function.update_self] at hw
      unfold RaftServer.markElectionDoneLocked at hw
      split at hw <;> simp at hw
    · exact hkeep (by simpa [hserver, hji] using hw)

theorem ElectionInv.step {s s' : System n α} {e : Event n α} (hs : ElectionInv s)
    (hok : LeaderYields s e) (h : s.step e = some s') : ElectionInv s' := by
  have hstep := electionStep_of_step h
  refine ⟨hs.wellFormed.grows hstep.ballots_grows, hs.leader_step hok hstep, hs.counting_step hstep, ?_⟩
  intro r hr
  cases hstep with
  | vote v k m b he hm hv hvote hserver hreq hrep =>
    rw [hrep, List.mem_append, List.mem_singleton] at hr
    rcases hr with hr | rfl
    · exact hs.other r hr
    · exact hv
  | calm _ _ hrep => exact hs.other r (hrep ▸ hr)
  | request _ _ _ _ _ _ _ _ _ _ _ _ _ _ _ hrep => exact hs.other r (hrep ▸ hr)
  | feed _ _ _ _ _ _ _ _ hrep => exact hs.other r (hrep ▸ hr)
  | win _ _ _ _ _ _ _ hrep => exact hs.other r (hrep ▸ hr)

theorem electionInv_of_reachable {s : System n α}
    (h : ReachableWhere System.step LeaderYields {} s) : ElectionInv s :=
  h.invariant (fun _ _ _ hs hok he => hs.step hok he) electionInv_init

/-- In a run in which no leader refuses a candidate of a newer term, two servers that lead in the
same term are one server. -/
theorem leader_unique_in_term {s : System n α} (h : ReachableWhere System.step LeaderYields {} s)
    {i j : Fin n} (hi : (s.server i).isLeader = true) (hj : (s.server j).isLeader = true)
    (hterm : (s.server i).currentTerm = (s.server j).currentTerm) : i = j := by
  have hs := electionInv_of_reachable h
  have helected := (hs.leader i hi).1
  rw [hterm] at helected
  exact hs.wellFormed.elected_unique helected (hs.leader j hj).1

def firstElection (a b : Fin n) : List (Event n Unit) :=
  [.tick 6000000, .requestVote a 5000000 {}, .deliverVoteRequest b 0, .deliverVoteReply 0, .finishVote a]

theorem leader_unique_in_term_first :
    ∃ s : System 3 Unit, ReachableWhere System.step LeaderYields {} s ∧
      (s.server 0).isLeader = true ∧
      ∀ j, (s.server j).isLeader = true → (s.server 0).currentTerm = (s.server j).currentTerm → 0 = j := by
  have hrun : (runWhere System.step LeaderYields {} (firstElection (n := 3) 0 1)).any
      (fun s => (s.server 0).isLeader) = true := by decide
  obtain ⟨s, hreach, hleader⟩ := exists_reachableWhere hrun
  exact ⟨s, hreach, hleader, fun j hj hterm => leader_unique_in_term hreach hleader hj hterm⟩

/-- Server `a` is elected, appends an entry and is cut off from the others. Server `b` asks for votes with
an empty log: server `a` refuses but moves to term 2 as leader, and server `c` elects server `b`. -/
def refusedByLeader (a b c : Fin n) : List (Event n Unit) :=
  firstElection a b ++
    [.start a (), .tick 6000000,
     .requestVote b 5000000 { failureTriggered := true, initElectionDone := true },
     .deliverVoteRequest a 1, .deliverVoteRequest c 1, .deliverVoteReply 2, .finishVote b]

theorem two_leaders_in_one_term :
    ¬ ∀ s : System 3 Unit, Reachable System.step {} s →
      ∀ i j, (s.server i).isLeader = true → (s.server j).isLeader = true →
        (s.server i).currentTerm = (s.server j).currentTerm → i = j := by
  intro hunique
  have hrun : (runWhere System.step (fun _ _ => True) {} (refusedByLeader (n := 3) 0 1 2)).any
      (fun s => (s.server 0).isLeader && (s.server 1).isLeader &&
        ((s.server 0).currentTerm == (s.server 1).currentTerm)) = true := by decide
  obtain ⟨s, hreach, hleaders⟩ := exists_reachableWhere hrun
  simp only [Bool.and_eq_true, beq_iff_eq] at hleaders
  exact absurd (hunique s hreach 0 1 hleaders.1.1 hleaders.1.2 hleaders.2) (by decide)

end Jetpack.Raft
