import Jetpack.Library.Rank
import Jetpack.Raft.ElectionSafety
import Jetpack.Raft.Timing

/-! Read leases. A lease rests on a majority of servers whose timers were restarted after the lease
anchor, so no later leader can exist while it lasts, provided that votes respect those timers. -/

namespace Jetpack.Raft

open Transition QuorumVoting

variable {n : Nat} {α : Type}

/-- A server that is not leader grants a vote only when its last heartbeat is older than a lease. -/
def VoteAfterLease (s : System n α) : Event n α → Prop
  | .deliverVoteRequest v k => ∀ m ∈ s.voteRequests[k]?, (s.server v).isLeader = false →
      (s.server v).voteFor? m = some true →
      (s.server v).lastHeartbeatTime + kReadLeaseDurationUs < s.now
  | _ => True

instance (s : System n α) (e : Event n α) : Decidable (VoteAfterLease s e) :=
  match e with
  | .deliverVoteRequest _ k => inferInstanceAs (Decidable (∀ m ∈ s.voteRequests[k]?, _ → _))
  | .tick _ | .requestVote _ _ _ | .deliverVoteReply _ | .finishVote _ | .start _ _ | .advanceCommit _
  | .drain _ _ | .deliverAppend _ | .deliverAppendReply _ | .appendTimeout _ | .appendError _
  | .pause _ | .jetpackRpc _ | .beginRecovery _ => isTrue trivial

def VotesRespectLease (s : System n α) (e : Event n α) : Prop :=
  LeaderYields s e ∧ VoteAfterLease s e

instance (s : System n α) (e : Event n α) : Decidable (VotesRespectLease s e) :=
  inferInstanceAs (Decidable (_ ∧ _))

structure SentByLeader (s : System n α) (m : AppendEntries n α) : Prop where
  sent_le : m.aeSendUs ≤ s.now
  other : m.follower ≠ m.leaderSiteId
  elected : (ballots s).Elected (majority (Fin n)) m.leaderSiteId m.term
  term_le : m.term ≤ (s.server m.leaderSiteId).currentTerm

/-- What an accepted call leaves at the follower: a timer restarted after the call was made, and no
vote in a later term until a lease after that is over. -/
structure Refreshed (s : System n α) (m : AppendEntries n α) : Prop where
  term_le : m.term ≤ (s.server m.follower).currentTerm
  sent_le : m.aeSendUs ≤ (s.server m.follower).lastHeartbeatTime
  later : ∀ u c, m.term < u → (ballots s).vote m.follower u c →
    m.aeSendUs + kReadLeaseDurationUs < s.now

def AckedAt (s : System n α) (i f : Fin n) (t : Nat) : Prop :=
  ∃ r ∈ s.appendReplies, r.ok = true ∧ r.call.follower = f ∧ r.call.leaderSiteId = i ∧
    r.call.term = (s.server i).currentTerm ∧ r.call.aeSendUs = t

/-- Enough followers accepted calls that the lease end is within a lease duration of. -/
def LeaseBacked (s : System n α) (i : Fin n) : Prop :=
  n ≤ 1 ∨ ∃ F : Finset (Fin n), n / 2 ≤ F.card ∧ ∀ f ∈ F, ∃ t, AckedAt s i f t ∧
    (s.server i).leaseExpiresUs ≤ t + kReadLeaseDurationUs

structure LeaseInv (s : System n α) : Prop where
  heartbeat_le : ∀ j, (s.server j).lastHeartbeatTime ≤ s.now
  sent : ∀ m ∈ s.appends, SentByLeader s m
  replied : ∀ r ∈ s.appendReplies, r.call ∈ s.appends ∧ (r.ok = true → Refreshed s r.call)
  idle : ∀ i v, (s.server i).voting = some v → (s.server i).isLeader = false
  acked : ∀ i, (s.server i).isLeader = true → ∀ f t, (s.server i).lastAeSendUs f = some t →
    AckedAt s i f t
  backed : ∀ i, (s.server i).isLeader = true → (s.server i).leaseExpiresUs ≠ 0 → LeaseBacked s i

theorem leaseInv_init : LeaseInv ({} : System n α) where
  heartbeat_le _ := le_refl _
  sent m h := by cases h
  replied r h := by cases h
  idle i v h := by cases h
  acked i h := by cases h
  backed i h := by cases h

theorem AckedAt.mono {s s' : System n α} {i f : Fin n} {t : Nat} (h : AckedAt s i f t)
    (hrep : s.appendReplies ⊆ s'.appendReplies)
    (hterm : (s'.server i).currentTerm = (s.server i).currentTerm) : AckedAt s' i f t := by
  obtain ⟨r, hr, hok, hf, hi, hrterm, ht⟩ := h
  exact ⟨r, hrep hr, hok, hf, hi, hrterm.trans hterm.symm, ht⟩

theorem LeaseBacked.mono {s s' : System n α} {i : Fin n} (h : LeaseBacked s i)
    (hrep : s.appendReplies ⊆ s'.appendReplies)
    (hterm : (s'.server i).currentTerm = (s.server i).currentTerm)
    (hlease : (s'.server i).leaseExpiresUs = (s.server i).leaseExpiresUs) : LeaseBacked s' i := by
  rcases h with hn | ⟨F, hF, hacked⟩
  · exact .inl hn
  · refine .inr ⟨F, hF, fun f hf => ?_⟩
    obtain ⟨t, hack, hle⟩ := hacked f hf
    exact ⟨t, hack.mono hrep hterm, hlease ▸ hle⟩

theorem peers_nodup (i : Fin n) : (RaftServer.peers i).Nodup :=
  (List.nodup_finRange n).filter _

/-- The anchor of a lease is reached by the sends to half of the servers. -/
theorem leaseBacked_of_anchor {s : System n α} {i : Fin n} {anchor : Nat}
    (hanchor : (((RaftServer.peers i).filterMap (s.server i).lastAeSendUs).mergeSort
      (fun a b => b ≤ a))[n / 2 - 1]? = some anchor)
    (hlease : (s.server i).leaseExpiresUs = anchor + kReadLeaseDurationUs)
    (hacked : ∀ f t, (s.server i).lastAeSendUs f = some t → AckedAt s i f t) : LeaseBacked s i := by
  have hcount := Rank.le_countP_of_descending _ hanchor
  rw [List.countP_filterMap] at hcount
  obtain ⟨F, hcard, hF⟩ := Rank.exists_finset_of_countP (peers_nodup i)
    (fun f => (((s.server i).lastAeSendUs f).map fun t => decide (anchor ≤ t)).getD false)
  refine .inr ⟨F, by omega, fun f hf => ?_⟩
  have hsent := (hF f hf).2
  cases hat : (s.server i).lastAeSendUs f with
  | none => simp [hat] at hsent
  | some t =>
    have hle : anchor ≤ t := by simpa [hat] using hsent
    exact ⟨t, hacked f t hat, by omega⟩

theorem leader_kept_or_fresh {s s' : System n α} {e : Event n α} (hs : LeaseInv s)
    (hok : LeaderYields s e) (h : ElectionStep s e s') {j : Fin n}
    (hj : (s'.server j).isLeader = true) :
    ((s.server j).isLeader = true ∧ (s'.server j).currentTerm = (s.server j).currentTerm) ∨
      ((s'.server j).leaseExpiresUs = 0 ∧ ∀ f, (s'.server j).lastAeSendUs f = none) := by
  rcases h.leader_cases hok hj with hkept | ⟨v, hv, -, -, hserver⟩
  · exact .inl hkept
  · have hfresh := RaftServer.setIsLeader_lease s.now
      (r := { s.server j with voting := none }) (hs.idle j v hv)
    rw [hserver]
    unfold RaftServer.markElectionDoneLocked
    split <;> exact .inr hfresh

theorem idle_step {s s' : System n α} {e : Event n α} (hs : LeaseInv s) (h : ElectionStep s e s')
    (j : Fin n) (w : Voting n) (hw : (s'.server j).voting = some w) :
    (s'.server j).isLeader = false := by
  cases h with
  | calm hservers _ _ =>
    rcases (hservers j).voting with hsame | hnone
    · by_contra hlead
      have hold := ((hservers j).leader (by simpa using hlead)).1
      rw [hs.idle j w (hsame ▸ hw)] at hold
      cases hold
    · rw [hnone] at hw
      cases hw
  | request i timeout r lstTerm v hcan hserver hterm hleader =>
    by_cases hji : j = i
    · subst hji
      simpa [hserver] using hleader
    · simpa [hserver, hji] using hs.idle j w (by simpa [hserver, hji] using hw)
  | vote v k m b he hm hv hvote hserver =>
    by_cases hjv : j = v
    · subst hjv
      rw [hserver, Function.update_self] at hw ⊢
      rw [RaftServer.doVote_voting] at hw
      rw [RaftServer.doVote_isLeader, hs.idle j w hw]
      rfl
    · simpa [hserver, hjv] using hs.idle j w (by simpa [hserver, hjv] using hw)
  | feed r v hr hv hterm hnew hserver =>
    by_cases hjr : j = r.candId
    · subst hjr
      simpa [hserver] using hs.idle _ v hv
    · simpa [hserver, hjr] using hs.idle j w (by simpa [hserver, hjr] using hw)
  | win i v hv hyes hterm hserver =>
    by_cases hji : j = i
    · subst hji
      rw [hserver, Function.update_self] at hw
      unfold RaftServer.markElectionDoneLocked at hw
      split at hw <;> simp at hw
    · simpa [hserver, hji] using hs.idle j w (by simpa [hserver, hji] using hw)

/-- A vote in a term after an accepted call comes after a lease from the call. -/
theorem Refreshed.later_step {s s' : System n α} {e : Event n α} (he : ElectionInv s)
    (hok : VotesRespectLease s e) (h : ElectionStep s e s')
    (hnow : s.now ≤ s'.now) {m : AppendEntries n α} (hm : SentByLeader s m) (hr : Refreshed s m)
    {u : Nat} {c : Fin n} (hu : m.term < u) (hvote : (ballots s').vote m.follower u c) :
    m.aeSendUs + kReadLeaseDurationUs < s'.now := by
  have hold : (ballots s).vote m.follower u c → m.aeSendUs + kReadLeaseDurationUs < s'.now :=
    fun hvote => lt_of_lt_of_le (hr.later u c hu hvote) hnow
  have hsame : s'.voteRequests = s.voteRequests → s'.voteReplies = s.voteReplies →
      m.aeSendUs + kReadLeaseDurationUs < s'.now := by
    intro hreq hrep
    refine hold ?_
    simpa only [ballots, hreq, hrep] using hvote
  have hsent := hr.sent_le
  cases h with
  | calm _ hreq hrep => exact hsame hreq hrep
  | feed _ _ _ _ _ _ _ hreq hrep => exact hsame hreq hrep
  | win _ _ _ _ _ _ hreq hrep => exact hsame hreq hrep
  | request i timeout r lstTerm w hcan hserver hterm _ _ _ _ _ _ hreq hrep =>
    simp only [ballots, hreq, hrep, List.mem_append, List.mem_singleton] at hvote
    rcases hvote with ⟨hfc, m', hm' | rfl, hcand, hterm'⟩ | hreply
    · exact hold (.inl ⟨hfc, m', hm', hcand, hterm'⟩)
    · -- The follower stood for election itself, after an election timeout.
      change i = c at hcand
      rw [hfc, ← hcand] at hsent
      have helapsed := (canStartElection_cases hcan).2
      omega
    · exact hold (.inr hreply)
  | vote w k m' b hev hm' hw hb hserver hreq hrep =>
    simp only [ballots, hreq, hrep, List.mem_append, List.mem_singleton] at hvote
    rcases hvote with hself | ⟨r', hr' | rfl, hgranted, hvoter, hrest⟩
    · exact hold (.inl hself)
    · exact hold (.inr ⟨r', hr', hgranted, hvoter, hrest⟩)
    · change b = true at hgranted
      change w = m.follower at hvoter
      subst hgranted hvoter hev
      cases hlead : (s.server m.follower).isLeader with
      | false =>
        have hlate := hok.2 m' hm' hlead hb
        omega
      | true =>
        -- A leader got the call before the election it won.
        obtain ⟨helected, hself⟩ := he.leader _ hlead
        have hlt : m.term < (s.server m.follower).currentTerm := by
          refine lt_of_le_of_ne hr.term_le fun heq => ?_
          rw [← heq] at helected
          exact hm.other (he.wellFormed.elected_unique helected hm.elected)
        exact lt_of_lt_of_le (hr.later _ _ hlt hself) hnow

theorem SentByLeader.step {s s' : System n α} {e : Event n α} (h : ElectionStep s e s')
    (hnow : s.now ≤ s'.now) {m : AppendEntries n α} (hm : SentByLeader s m) : SentByLeader s' m :=
  ⟨le_trans hm.sent_le hnow, hm.other, hm.elected.grows h.ballots_grows,
    le_trans hm.term_le (h.term_le _)⟩

theorem LeaseInv.sent_step {s s' : System n α} {e : Event n α} (he : ElectionInv s)
    (hs : LeaseInv s) (h : ElectionStep s e s') (hc : ClockStep s s') (m : AppendEntries n α)
    (hm : m ∈ s'.appends) : SentByLeader s' m := by
  rcases hc.appends_new m hm with hold | ⟨hlead, hterm, hother, htime⟩
  · exact (hs.sent m hold).step h hc.now_le
  · have hnew : SentByLeader s m :=
      ⟨le_of_eq htime, hother, hterm ▸ (he.leader _ hlead).1, le_of_eq hterm⟩
    exact hnew.step h hc.now_le

theorem LeaseInv.refreshed_step {s s' : System n α} {e : Event n α} (he : ElectionInv s)
    (hs : LeaseInv s) (hok : VotesRespectLease s e) (h : ElectionStep s e s') (hc : ClockStep s s')
    (r : AppendReply n α) (hr : r ∈ s'.appendReplies) (haccept : r.ok = true) :
    Refreshed s' r.call := by
  rcases hc.replies_new r hr with hold | ⟨hcall, hnew⟩
  · obtain ⟨hcall, hrefreshed⟩ := hs.replied r hold
    have hsent := hrefreshed haccept
    refine ⟨le_trans hsent.term_le (h.term_le _), ?_, fun u c hu hvote =>
      Refreshed.later_step he hok h hc.now_le (hs.sent _ hcall) hsent hu hvote⟩
    rcases hc.heartbeat r.call.follower with hsame | hrestart
    · rw [hsame]
      exact hsent.sent_le
    · rw [hrestart]
      exact (hs.sent _ hcall).sent_le
  · obtain ⟨hle, hterm, htime, hreq, hrep⟩ := hnew haccept
    refine ⟨le_of_eq hterm.symm, htime ▸ (hs.sent _ hcall).sent_le, fun u c hu hvote => ?_⟩
    -- The follower has not voted in a later term, since its term was not past the call.
    have hvote' : (ballots s).vote r.call.follower u c := by
      simpa only [ballots, hreq, hrep] using hvote
    have hle' : u ≤ (s.server r.call.follower).currentTerm := he.wellFormed.vote_le hvote'
    omega

theorem LeaseInv.acked_step {s s' : System n α} {e : Event n α} (hs : LeaseInv s)
    (hok : LeaderYields s e) (h : ElectionStep s e s') (hc : ClockStep s s') (i : Fin n)
    (hi : (s'.server i).isLeader = true) (f : Fin n) (t : Nat)
    (hf : (s'.server i).lastAeSendUs f = some t) : AckedAt s' i f t := by
  rcases leader_kept_or_fresh hs hok h hi with ⟨hlead, hterm⟩ | ⟨-, hnone⟩
  · have hkeep : (s.server i).lastAeSendUs f = some t → AckedAt s' i f t :=
      fun hold => (hs.acked i hlead f t hold).mono hc.replies_subset hterm
    rcases hc.lease i with ⟨-, hsame⟩ | ⟨-, hdrop⟩ | ⟨r, hr, rfl, hrok, hnot, -, -, hsend, -⟩
    · exact hkeep (hsame ▸ hf)
    · rw [hdrop f] at hf
      cases hf
    · rw [hsend] at hf
      by_cases hff : f = r.call.follower
      · subst hff
        rw [Function.update_self] at hf
        have hle := (hs.sent _ (hs.replied r hr).1).term_le
        exact ⟨r, hc.replies_subset hr, hrok, rfl, rfl, by omega, Option.some.inj hf⟩
      · rw [Function.update_of_ne hff] at hf
        exact hkeep hf
  · rw [hnone f] at hf
    cases hf

theorem LeaseInv.backed_step {s s' : System n α} {e : Event n α} (hs : LeaseInv s)
    (hok : LeaderYields s e) (h : ElectionStep s e s') (hc : ClockStep s s') (i : Fin n)
    (hi : (s'.server i).isLeader = true) (hlease : (s'.server i).leaseExpiresUs ≠ 0) :
    LeaseBacked s' i := by
  rcases leader_kept_or_fresh hs hok h hi with ⟨hlead, hterm⟩ | ⟨hzero, -⟩
  · have hkeep : (s'.server i).leaseExpiresUs = (s.server i).leaseExpiresUs → LeaseBacked s' i := by
      intro hsame
      exact (hs.backed i hlead (hsame ▸ hlease)).mono hc.replies_subset hterm hsame
    rcases hc.lease i with ⟨hsame, -⟩ | ⟨hzero, -⟩ | ⟨r, hr, rfl, -, -, -, -, -, hmoved⟩
    · exact hkeep hsame
    · exact absurd hzero hlease
    · rcases hmoved with hn | hzero | hsame | ⟨anchor, hanchor, hexpires⟩
      · exact .inl hn
      · exact absurd hzero hlease
      · exact hkeep hsame
      · exact leaseBacked_of_anchor hanchor hexpires (hs.acked_step hok h hc _ hi)
  · exact absurd hzero hlease

theorem LeaseInv.step {s s' : System n α} {e : Event n α} (he : ElectionInv s) (hs : LeaseInv s)
    (hok : VotesRespectLease s e) (h : s.step e = some s') : LeaseInv s' := by
  have hstep := electionStep_of_step h
  have hc := clockStep_of_step h
  refine ⟨fun j => ?_, hs.sent_step he hstep hc, fun r hr => ⟨?_, hs.refreshed_step he hok hstep hc r hr⟩,
    idle_step hs hstep, hs.acked_step hok.1 hstep hc, hs.backed_step hok.1 hstep hc⟩
  · have hold := hs.heartbeat_le j
    have hnow := hc.now_le
    rcases hc.heartbeat j with hsame | hrestart <;> omega
  · rcases hc.replies_new r hr with hold | ⟨hcall, -⟩
    · exact hc.appends_subset (hs.replied r hold).1
    · exact hc.appends_subset hcall

theorem leaseInv_of_reachable {s : System n α}
    (h : ReachableWhere System.step VotesRespectLease {} s) : ElectionInv s ∧ LeaseInv s :=
  h.invariant (I := fun s => ElectionInv s ∧ LeaseInv s)
    (fun _ _ _ hs hok he => ⟨hs.1.step hok.1 he, hs.2.step hs.1 hok he⟩)
    ⟨electionInv_init, leaseInv_init⟩

/-- While a server has a read lease no other server leads in a higher term, in every run in which
votes respect leases. -/
theorem readLease_excludes_later_leader {s : System n α}
    (h : ReachableWhere System.step VotesRespectLease {} s) {i j : Fin n}
    (hlease : (s.server i).hasReadLease s.now = true) (hj : (s.server j).isLeader = true) (hij : i ≠ j) :
    ¬ (s.server i).currentTerm < (s.server j).currentTerm := by
  intro hlt
  obtain ⟨he, hs⟩ := leaseInv_of_reachable h
  simp only [RaftServer.hasReadLease, Bool.and_eq_true, decide_eq_true_eq] at hlease
  obtain ⟨⟨hi, -⟩, hexpires⟩ := hlease
  rcases hs.backed i hi (by omega) with hn | ⟨F, hF, hacked⟩
  · exact hij (Fin.ext (by omega))
  obtain ⟨P, hP, hvotes⟩ := (he.leader j hj).1
  have hiF : i ∉ F := by
    intro hmem
    obtain ⟨t, ⟨r, hr, -, hf, hi', -⟩, -⟩ := hacked i hmem
    exact (hs.sent _ (hs.replied r hr).1).other (hf.trans hi'.symm)
  have hquorum : (majority (Fin n)).IsQuorum (insert i F) := by
    change Fintype.card (Fin n) < 2 * (insert i F).card
    rw [Finset.card_insert_of_notMem hiF, Fintype.card_fin]
    omega
  obtain ⟨v, hvF, hvP⟩ := (majority (Fin n)).inter hquorum hP
  rcases Finset.mem_insert.mp hvF with rfl | hvF
  · -- The lease holder has not voted in the later term.
    have hle := he.wellFormed.vote_le (hvotes v hvP)
    exact absurd hlt (Nat.not_lt.mpr hle)
  · obtain ⟨t, ⟨r, hr, hrok, rfl, -, hrterm, rfl⟩, hend⟩ := hacked v hvF
    have hlater := ((hs.replied r hr).2 hrok).later _ _ (by omega) (hvotes _ hvP)
    omega

def leaseRun (a b c : Fin n) : List (Event n Unit) :=
  [.tick 6000000, .requestVote a 5000000 {}, .deliverVoteRequest b 0, .deliverVoteRequest c 0,
   .deliverVoteReply 0, .finishVote a, .tick 6000000, .drain a b, .deliverAppend 0,
   .deliverAppendReply 0]

theorem readLease_excludes_later_leader_run :
    ∃ s : System 3 Unit, ReachableWhere System.step VotesRespectLease {} s ∧
      (s.server 0).hasReadLease s.now = true ∧ ∀ j, (s.server j).isLeader = true → 0 ≠ j →
        ¬ (s.server 0).currentTerm < (s.server j).currentTerm := by
  have hrun : (runWhere System.step VotesRespectLease {} (leaseRun (n := 3) 0 1 2)).any
      (fun s => (s.server 0).hasReadLease s.now) = true := by decide +kernel
  obtain ⟨s, hreach, hlease⟩ := exists_reachableWhere hrun
  exact ⟨s, hreach, hlease, fun j hj h0j => readLease_excludes_later_leader hreach hlease hj h0j⟩

/-- Server `c`, cut off from the leader, then asks server `b` for its vote. -/
def voteDuringLease (a b c : Fin n) : List (Event n Unit) :=
  leaseRun a b c ++
    [.requestVote c 5000000 { failureTriggered := true, initElectionDone := true },
     .deliverVoteRequest b 1, .deliverVoteReply 2, .finishVote c]

theorem later_leader_during_lease :
    ¬ ∀ s : System 3 Unit, Reachable System.step {} s →
      ∀ i j, (s.server i).hasReadLease s.now = true → (s.server j).isLeader = true → i ≠ j →
        ¬ (s.server i).currentTerm < (s.server j).currentTerm := by
  intro hunique
  have hrun : (runWhere System.step (fun _ _ => True) {} (voteDuringLease (n := 3) 0 1 2)).any
      (fun s => (s.server 0).hasReadLease s.now && (s.server 2).isLeader &&
        decide ((s.server 0).currentTerm < (s.server 2).currentTerm)) = true := by decide +kernel
  obtain ⟨s, hreach, hlead⟩ := exists_reachableWhere hrun
  simp only [Bool.and_eq_true, decide_eq_true_eq] at hlead
  exact hunique s hreach 0 2 hlead.1.1 hlead.1.2 (by decide) hlead.2

end Jetpack.Raft
