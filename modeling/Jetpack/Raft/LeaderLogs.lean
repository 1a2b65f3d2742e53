import Jetpack.Raft.Reigns

/-! Every log of the partition follows the leaders' logs, and every leader was elected by servers that
keep in its log what they agreed on before. -/

namespace Jetpack.Raft

open Leadership QuorumVoting Transition

variable {n : Nat} {α : Type}

structure VotesAsked (s : System n α) : Prop where
  asked : ∀ m ∈ s.voteRequests, m.candTerm ≤ (s.server m.candId).currentTerm
  answered : ∀ r ∈ s.voteReplies, r.candTerm ≤ (s.server r.candId).currentTerm

theorem VotesAsked.step {s s' : System n α} {e : Event n α} (h : VotesAsked s)
    (hstep : ElectionStep s e s') : VotesAsked s' := by
  have hterm := hstep.term_le
  have hold : ∀ m ∈ s.voteRequests, m.candTerm ≤ (s'.server m.candId).currentTerm :=
    fun m hm => (h.asked m hm).trans (hterm _)
  have holdReplies : ∀ r ∈ s.voteReplies, r.candTerm ≤ (s'.server r.candId).currentTerm :=
    fun r hr => (h.answered r hr).trans (hterm _)
  cases hstep with
  | calm _ hreq hrep => exact ⟨hreq ▸ hold, hrep ▸ holdReplies⟩
  | feed _ _ _ _ _ _ _ hreq hrep => exact ⟨hreq ▸ hold, hrep ▸ holdReplies⟩
  | win _ _ _ _ _ _ hreq hrep => exact ⟨hreq ▸ hold, hrep ▸ holdReplies⟩
  | request i timeout r lstTerm w hcan hserver hcur _ _ _ _ _ _ hreq hrep =>
    refine ⟨fun m hm => ?_, hrep ▸ holdReplies⟩
    rw [hreq, List.mem_append, List.mem_singleton] at hm
    rcases hm with hm | rfl
    · exact hold m hm
    · rw [hserver, Function.update_self]
  | vote v k m b he hm hv hvote hserver hreq hrep =>
    refine ⟨hreq ▸ hold, fun r hr => ?_⟩
    rw [hrep, List.mem_append, List.mem_singleton] at hr
    rcases hr with hr | rfl
    · exact holdReplies r hr
    · exact hold m (List.mem_of_getElem? hm)

namespace Partition

/-- What is known of the log of a candidate whose term has no leader. -/
structure Candidate (r : Partition n α) (i : Fin n) (w : Voting n) : Prop where
  older : ∀ j, 0 < j → j ≤ (r.system.server i).lastLogIndex → (r.history i j).term < w.term
  request : ∀ m ∈ r.system.voteRequests, m.candId = i → m.candTerm = w.term →
    m.lstLogIdx ≤ (r.system.server i).lastLogIndex ∧ (m.lstLogIdx = 0 → m.lstLogTerm = 0) ∧
      (0 < m.lstLogIdx → m.lstLogTerm = (r.history i m.lstLogIdx).term)
  backed : ∀ v, (ballots r.system).vote v w.term i →
    r.chronicle.Backs RaftData.term v w.term (r.history i) (r.system.server i).lastLogIndex

structure Leads (r : Partition n α) (i : Fin n) (R : Reign (Fin n) (RaftData α)) : Prop where
  reign : r.chronicle.reign (r.system.server i).currentTerm = some R
  leader : R.leader = i
  last : R.last = (r.system.server i).lastLogIndex
  agrees : Agrees R.log (r.history i) R.last
  acked : r.chronicle.acked i (r.system.server i).currentTerm = R.last

structure Inv (r : Partition n α) : Prop where
  election : ElectionInv r.system
  asked : VotesAsked r.system
  slots : ∀ i, (r.system.server i).SlotInv
  recorded : ∀ i j, (r.system.server i).minActiveSlot ≤ j →
    (r.system.server i).raftLogs j = r.history i j
  sound : r.chronicle.Sound RaftData.term
  follows : ∀ i, r.chronicle.Follows RaftData.term (r.history i) (r.system.server i).lastLogIndex
  older : ∀ i j, 0 < j → j ≤ (r.system.server i).lastLogIndex →
    (r.history i j).term ≤ (r.system.server i).currentTerm
  leads : ∀ i, (r.system.server i).isLeader = true → ∃ R, r.Leads i R
  reigned : ∀ t R, r.chronicle.reign t = some R →
    (ballots r.system).Elected (majority (Fin n)) R.leader t ∧
      t ≤ (r.system.server R.leader).currentTerm
  voting : ∀ i w, (r.system.server i).voting = some w →
    w.term ≤ (r.system.server i).currentTerm ∧
      ∀ R, r.chronicle.reign w.term = some R → R.leader ≠ i
  acked : ∀ i t, 0 < r.chronicle.acked i t → t ≤ (r.system.server i).currentTerm
  keeps : ∀ i, r.chronicle.Keeps i ((r.system.server i).currentTerm + 1) (r.history i)
    (r.system.server i).lastLogIndex
  candidate : ∀ i w, (r.system.server i).voting = some w →
    (r.system.server i).currentTerm = w.term → r.chronicle.reign w.term = none → r.Candidate i w
  backed : ∀ t R, r.chronicle.reign t = some R → ∃ Q, (majority (Fin n)).IsQuorum Q ∧
    ∀ v ∈ Q, t ≤ (r.system.server v).currentTerm ∧
      r.chronicle.Backs RaftData.term v t R.log R.start

theorem Inv.acked_later {r : Partition n α} (h : r.Inv) {i : Fin n} {t : Nat}
    (ht : (r.system.server i).currentTerm < t) : r.chronicle.acked i t = 0 := by
  by_contra hne
  exact absurd (h.acked i t (Nat.pos_of_ne_zero hne)) (Nat.not_le.mpr ht)

/-- A server keeps what it agreed on also when it moves on to a later term. -/
theorem Inv.keeps_later {r : Partition n α} (h : r.Inv) (i : Fin n) {u : Nat}
    (hu : (r.system.server i).currentTerm < u) :
    r.chronicle.Keeps i u (r.history i) (r.system.server i).lastLogIndex :=
  (h.keeps i).later hu fun _ ht => h.acked_later ht

theorem Inv.lastTermAt_cases {r : Partition n α} (h : r.Inv) {i : Fin n} {idx term : Nat}
    (hterm : (r.system.server i).lastTermAt idx = some term) :
    (idx = 0 → term = 0) ∧ (0 < idx → term = (r.history i idx).term) := by
  unfold RaftServer.lastTermAt at hterm
  split at hterm
  · next hpos =>
    refine ⟨fun hzero => by omega, fun _ => ?_⟩
    obtain ⟨d, hd, rfl⟩ := Option.map_eq_some_iff.mp hterm
    obtain ⟨hslot, rfl⟩ := RaftServer.getRaftInstance_some hd
    rw [h.recorded i idx (hslot.resolve_right (by omega))]
  · next hzero =>
    cases hterm
    exact ⟨fun _ => rfl, fun hpos => absurd hpos hzero⟩

theorem Inv.granted {r : Partition n α} (h : r.Inv) {v : Fin n} {m : VoteRequest n}
    (hvote : (r.system.server v).voteFor? m = some true) :
    (r.system.server v).currentTerm < m.candTerm ∧ ((r.system.server v).lastLogIndex = 0 ∨
      (r.history v (r.system.server v).lastLogIndex).term < m.lstLogTerm ∨
      m.lstLogTerm = (r.history v (r.system.server v).lastLogIndex).term ∧
        (r.system.server v).lastLogIndex ≤ m.lstLogIdx) := by
  refine ⟨RaftServer.voteFor?_granted hvote, ?_⟩
  unfold RaftServer.voteFor? at hvote
  split at hvote
  · cases hvote
  · obtain ⟨term, hterm, hvote⟩ := Option.bind_eq_some_iff.mp hvote
    split at hvote
    · next hoff =>
      rw [hoff] at hterm
      rcases Nat.eq_zero_or_pos (r.system.server v).lastLogIndex with hzero | hpos
      · exact .inl hzero
      · right
        rw [← (h.lastTermAt_cases hterm).2 hpos]
        simpa using hvote
    · cases hvote

theorem Inv.backs_of_granted {r : Partition n α} (h : r.Inv) {v : Fin n} {m : VoteRequest n}
    {w : Voting n} (hm : m ∈ r.system.voteRequests)
    (hvote : (r.system.server v).voteFor? m = some true) (hterm : m.candTerm = w.term)
    (hcand : r.Candidate m.candId w) :
    r.chronicle.Backs RaftData.term v w.term (r.history m.candId)
      (r.system.server m.candId).lastLogIndex := by
  intro t R k hlt hR hpos hk hown hspared
  obtain ⟨hgreater, hupto⟩ := h.granted hvote
  rw [hterm] at hgreater
  have hholds := h.keeps_later v hgreater t R k hlt hR hk hspared
  have hlast : 0 < (r.system.server v).lastLogIndex := hpos.trans_le hholds.le
  replace hupto := hupto.resolve_left (by omega)
  obtain ⟨hidx, hzero, hoffer⟩ := hcand.request m hm rfl hterm
  have hidxpos : 0 < m.lstLogIdx := by
    by_contra hnot
    have hterm0 := hzero (by omega)
    omega
  rw [hoffer hidxpos] at hupto
  exact h.sound.holds_of_upToDate hR hpos hown hspared (h.follows v) hholds (h.follows _) hidx hidxpos
    (hcand.older _ hidxpos hidx) hupto

structure Quiet (r r' : Partition n α) : Prop where
  history : r'.history = r.history
  chronicle : r'.chronicle = r.chronicle
  last : ∀ i, (r'.system.server i).lastLogIndex = (r.system.server i).lastLogIndex
  logs : ∀ i j, (r'.system.server i).minActiveSlot ≤ j →
    (r.system.server i).minActiveSlot ≤ j ∧
      (r'.system.server i).raftLogs j = (r.system.server i).raftLogs j
  leads : ∀ i, (r'.system.server i).isLeader = true → (r.system.server i).isLeader = true ∧
    (r'.system.server i).currentTerm = (r.system.server i).currentTerm

/-- A candidate was one before, if it is still at its term and no leader was elected there. -/
theorem Inv.candidate_before {r r' : Partition n α} (h : r.Inv) {i : Fin n} {w : Voting n}
    (hw : (r.system.server i).voting = some w)
    (hcur : (r.system.server i).currentTerm ≤ (r'.system.server i).currentTerm)
    (hcur' : (r'.system.server i).currentTerm = w.term)
    (hgrows : r.chronicle.Grows r'.chronicle) (hnone : r'.chronicle.reign w.term = none) :
    r.Candidate i w := by
  refine h.candidate i w hw (le_antisymm (hcur.trans hcur'.le) (h.voting i w hw).1) ?_
  cases hR : r.chronicle.reign w.term with
  | none => rfl
  | some R =>
    obtain ⟨R', hR', -⟩ := hgrows.reign hR
    rw [hnone] at hR'
    cases hR'

theorem Candidate.keep {r r' : Partition n α} {i : Fin n} {w w' : Voting n} (h : r.Candidate i w)
    (hterm : w'.term = w.term) (hhistory : r'.history i = r.history i)
    (hlast : (r'.system.server i).lastLogIndex = (r.system.server i).lastLogIndex)
    (hreq : ∀ m ∈ r'.system.voteRequests, m.candId = i → m ∈ r.system.voteRequests)
    (hbacked : ∀ v, (ballots r'.system).vote v w.term i →
      r'.chronicle.Backs RaftData.term v w.term (r.history i)
        (r.system.server i).lastLogIndex) : r'.Candidate i w' := by
  refine ⟨?_, fun m hm hcand hm' => ?_, fun v hv => ?_⟩
  · rw [hhistory, hlast, hterm]
    exact h.older
  · rw [hhistory, hlast]
    exact h.request m (hreq m hm hcand) hcand (hm'.trans hterm)
  · rw [hterm] at hv
    rw [hhistory, hlast, hterm]
    exact hbacked v hv

theorem ballots_congr {s s' : System n α} (hreq : s'.voteRequests = s.voteRequests)
    (hrep : s'.voteReplies = s.voteReplies) {v c : Fin n} {u : Nat}
    (h : (ballots s').vote v u c) : (ballots s).vote v u c := by
  simpa only [ballots, hreq, hrep] using h

theorem Inv.candidate_still {r r' : Partition n α} (h : r.Inv) {i : Fin n} {w w' : Voting n}
    (hw : (r.system.server i).voting = some w) (hterm : w'.term = w.term)
    (hcur : (r.system.server i).currentTerm ≤ (r'.system.server i).currentTerm)
    (hcur' : (r'.system.server i).currentTerm = w'.term)
    (hnone : r'.chronicle.reign w'.term = none) (hhistory : r'.history i = r.history i)
    (hlast : (r'.system.server i).lastLogIndex = (r.system.server i).lastLogIndex)
    (hreq : r'.system.voteRequests = r.system.voteRequests)
    (hrep : r'.system.voteReplies = r.system.voteReplies)
    (hgrows : r.chronicle.Grows r'.chronicle)
    (hacked : ∀ v t, t < (r.system.server v).currentTerm →
      r'.chronicle.acked v t = r.chronicle.acked v t) : r'.Candidate i w' := by
  have hbefore := h.candidate_before hw hcur (hcur'.trans hterm) hgrows (hterm ▸ hnone)
  refine hbefore.keep hterm hhistory hlast (fun m hm _ => hreq ▸ hm) fun v hv => ?_
  have hvote := ballots_congr hreq hrep hv
  refine (hbefore.backed v hvote).grows h.sound hgrows fun t ht => hacked v t ?_
  exact ht.trans_le (h.election.wellFormed.vote_le hvote)

theorem Inv.candidate_request {r r' : Partition n α} (h : r.Inv) (hq : Quiet r r') {i : Fin n}
    {w : Voting n} {lstTerm : Nat}
    (hterm : w.term = (r.system.server i).currentTerm + 1)
    (hlst : (r.system.server i).lastTermAt ((r.system.server i).lastLogIndex % 2 ^ 32) = some lstTerm)
    (hreq : r'.system.voteRequests = r.system.voteRequests ++
      [⟨i, w.term, (r.system.server i).lastLogIndex % 2 ^ 32, lstTerm⟩])
    (hrep : r'.system.voteReplies = r.system.voteReplies) : r'.Candidate i w := by
  refine ⟨fun j hpos hj => ?_, fun m hm hcand hm' => ?_, fun v hv => ?_⟩
  · rw [hq.last] at hj
    rw [hq.history, hterm]
    exact Nat.lt_succ_of_le (h.older i j hpos hj)
  · rw [hreq, List.mem_append, List.mem_singleton] at hm
    rcases hm with hm | rfl
    · have hle := h.asked.asked m hm
      rw [hcand] at hle
      omega
    · rw [hq.last, hq.history]
      exact ⟨Nat.mod_le _ _, h.lastTermAt_cases hlst⟩
  · rw [hq.history, hq.last, hq.chronicle]
    rcases hv with ⟨rfl, -⟩ | ⟨ρ, hρ, -, -, hcand, hu⟩
    · rw [hterm]
      exact (h.keeps v).backs
    · rw [hrep] at hρ
      have hle := h.asked.answered ρ hρ
      rw [hcand, hu] at hle
      omega

theorem Inv.candidate_quiet {r r' : Partition n α} {e : Event n α} (h : r.Inv) (hq : Quiet r r')
    (hstep : ElectionStep r.system e r'.system) {i : Fin n} {w' : Voting n}
    (hw' : (r'.system.server i).voting = some w')
    (hcur' : (r'.system.server i).currentTerm = w'.term)
    (hnone : r'.chronicle.reign w'.term = none) : r'.Candidate i w' := by
  have hcur := hstep.term_le i
  have hgrows : r.chronicle.Grows r'.chronicle := by
    rw [hq.chronicle]
    exact .refl _
  have hstill : ∀ w, (r.system.server i).voting = some w → w'.term = w.term →
      r'.system.voteRequests = r.system.voteRequests →
      r'.system.voteReplies = r.system.voteReplies → r'.Candidate i w' :=
    fun w hw hterm hreq hrep => h.candidate_still hw hterm hcur hcur' hnone (by rw [hq.history])
      (hq.last i) hreq hrep hgrows fun v t _ => by rw [hq.chronicle]
  cases hstep with
  | calm hservers hreq hrep =>
    rcases (hservers i).voting with hsame | hdropped
    · exact hstill w' (hsame ▸ hw') rfl hreq hrep
    · rw [hdropped] at hw'
      cases hw'
  | request j timeout q lstTerm w hcan hserver hterm _ hvoting hvterm _ _ hlst hreq hrep =>
    by_cases hij : i = j
    · subst hij
      obtain rfl : w' = w := by
        rw [hserver, Function.update_self, hvoting] at hw'
        exact (Option.some.inj hw').symm
      rw [hvterm.symm] at hreq
      exact h.candidate_request hq (hvterm.trans hterm) hlst hreq hrep
    · have hw : (r.system.server i).voting = some w' := by
        rw [hserver, Function.update_of_ne hij] at hw'
        exact hw'
      have hbefore := h.candidate_before hw hcur hcur' hgrows hnone
      have hold : ∀ m ∈ r'.system.voteRequests, m.candId = i → m ∈ r.system.voteRequests := by
        intro m hm hcand
        rw [hreq, List.mem_append, List.mem_singleton] at hm
        rcases hm with hm | rfl
        · exact hm
        · exact absurd hcand.symm hij
      refine hbefore.keep rfl (by rw [hq.history]) (hq.last i) hold fun v hv => ?_
      rw [hq.chronicle]
      refine hbefore.backed v ?_
      rcases hv with ⟨hvi, m, hm, hcand, hu⟩ | ⟨ρ, hρ, hrest⟩
      · exact .inl ⟨hvi, m, hold m hm hcand, hcand, hu⟩
      · exact .inr ⟨ρ, hrep ▸ hρ, hrest⟩
  | vote v k m b he hm hv hvote hserver hreq hrep =>
    have hw : (r.system.server i).voting = some w' := by
      by_cases hiv : i = v
      · subst hiv
        rw [hserver, Function.update_self, RaftServer.doVote_voting] at hw'
        exact hw'
      · rw [hserver, Function.update_of_ne hiv] at hw'
        exact hw'
    have hbefore := h.candidate_before hw hcur hcur' hgrows hnone
    refine hbefore.keep rfl (by rw [hq.history]) (hq.last i) (fun m' hm' _ => hreq ▸ hm') fun u hu => ?_
    rw [hq.chronicle]
    rcases hu with ⟨hvi, m', hm', hrest⟩ | ⟨ρ, hρ, hgranted, hvoter, hcand, hterm⟩
    · exact hbefore.backed u (.inl ⟨hvi, m', hreq ▸ hm', hrest⟩)
    · rw [hrep, List.mem_append, List.mem_singleton] at hρ
      rcases hρ with hρ | rfl
      · exact hbefore.backed u (.inr ⟨ρ, hρ, hgranted, hvoter, hcand, hterm⟩)
      · subst hcand hvoter
        rw [show b = true from hgranted] at hvote
        exact h.backs_of_granted (List.mem_of_getElem? hm) hvote hterm hbefore
  | feed ρ w hρ hw hterm hnew hserver hreq hrep =>
    by_cases hi : i = ρ.candId
    · subst hi
      rw [hserver, Function.update_self] at hw'
      cases hw'
      exact hstill w hw rfl hreq hrep
    · rw [hserver, Function.update_of_ne hi] at hw'
      exact hstill w' hw' rfl hreq hrep
  | win j w hw hyes hterm hserver hreq hrep =>
    by_cases hij : i = j
    · subst hij
      rw [hserver, Function.update_self] at hw'
      unfold RaftServer.markElectionDoneLocked at hw'
      split at hw' <;> simp at hw'
    · rw [hserver, Function.update_of_ne hij] at hw'
      exact hstill w' hw' rfl hreq hrep

theorem voting_cases {s s' : System n α} {e : Event n α} (h : ElectionStep s e s') {i : Fin n}
    {w' : Voting n} (hw' : (s'.server i).voting = some w') :
    (∃ w, (s.server i).voting = some w ∧ w'.term = w.term) ∨
      (w'.term = (s.server i).currentTerm + 1 ∧ (s'.server i).currentTerm = w'.term) := by
  have hother : ∀ j q, s'.server = Function.update s.server j q → i ≠ j →
      ∃ w, (s.server i).voting = some w ∧ w'.term = w.term := by
    intro j q hserver hij
    rw [hserver, Function.update_of_ne hij] at hw'
    exact ⟨w', hw', rfl⟩
  cases h with
  | calm hservers _ _ =>
    rcases (hservers i).voting with hsame | hdropped
    · exact .inl ⟨w', hsame ▸ hw', rfl⟩
    · rw [hdropped] at hw'
      cases hw'
  | request j timeout q lstTerm w hcan hserver hterm _ hvoting hvterm =>
    by_cases hij : i = j
    · subst hij
      rw [hserver, Function.update_self] at hw' ⊢
      rw [hvoting] at hw'
      cases hw'
      exact .inr ⟨hvterm.trans hterm, hvterm.symm⟩
    · exact .inl (hother j q hserver hij)
  | vote v k m b he hm hv hvote hserver =>
    by_cases hiv : i = v
    · subst hiv
      rw [hserver, Function.update_self, RaftServer.doVote_voting] at hw'
      exact .inl ⟨w', hw', rfl⟩
    · exact .inl (hother v _ hserver hiv)
  | feed ρ w hρ hw hterm hnew hserver =>
    by_cases hi : i = ρ.candId
    · subst hi
      rw [hserver, Function.update_self] at hw'
      cases hw'
      exact .inl ⟨w, hw, rfl⟩
    · exact .inl (hother _ _ hserver hi)
  | win j w hw hyes hterm hserver =>
    by_cases hij : i = j
    · subst hij
      rw [hserver, Function.update_self] at hw'
      unfold RaftServer.markElectionDoneLocked at hw'
      split at hw' <;> simp at hw'
    · exact .inl (hother j _ hserver hij)

theorem Inv.voting_step {r r' : Partition n α} {e : Event n α} (h : r.Inv)
    (hstep : ElectionStep r.system e r'.system)
    (hreign : ∀ t R', r'.chronicle.reign t = some R' →
      (∃ R, r.chronicle.reign t = some R ∧ R'.leader = R.leader) ∨
        (r'.system.server R'.leader).voting = none) (i : Fin n) (w' : Voting n)
    (hw' : (r'.system.server i).voting = some w') :
    w'.term ≤ (r'.system.server i).currentTerm ∧
      ∀ R', r'.chronicle.reign w'.term = some R' → R'.leader ≠ i := by
  have hcur := hstep.term_le i
  obtain ⟨w, hw, hterm⟩ | ⟨hterm, hcur'⟩ := voting_cases hstep hw'
  · obtain ⟨hle, hother⟩ := h.voting i w hw
    refine ⟨hterm ▸ hle.trans hcur, fun R' hR' hi => ?_⟩
    obtain ⟨R, hR, hleader⟩ | hnone := hreign _ R' hR'
    · exact hother R (hterm ▸ hR) (hleader.symm.trans hi)
    · rw [hi, hw'] at hnone
      cases hnone
  · refine ⟨hcur'.ge, fun R' hR' hi => ?_⟩
    obtain ⟨R, hR, hleader⟩ | hnone := hreign _ R' hR'
    · have hle := (h.reigned _ R hR).2
      rw [← hleader, hi] at hle
      omega
    · rw [hi, hw'] at hnone
      cases hnone

theorem Inv.reigned_step {r r' : Partition n α} {e : Event n α} (h : r.Inv)
    (hstep : ElectionStep r.system e r'.system) {t : Nat} {R : Reign (Fin n) (RaftData α)}
    (hR : r.chronicle.reign t = some R) :
    (ballots r'.system).Elected (majority (Fin n)) R.leader t ∧
      t ≤ (r'.system.server R.leader).currentTerm :=
  ⟨(h.reigned t R hR).1.grows hstep.ballots_grows, (h.reigned t R hR).2.trans (hstep.term_le _)⟩

/-- The leaders stay elected by servers that back them. -/
theorem Inv.backed_step {r r' : Partition n α} {e : Event n α} (h : r.Inv)
    (hstep : ElectionStep r.system e r'.system) (hgrows : r.chronicle.Grows r'.chronicle)
    (hacked : ∀ v t, t < (r.system.server v).currentTerm →
      r'.chronicle.acked v t = r.chronicle.acked v t)
    {t : Nat} {R R' : Reign (Fin n) (RaftData α)} (hR : r.chronicle.reign t = some R)
    (hext : R.Extends R') : ∃ Q, (majority (Fin n)).IsQuorum Q ∧ ∀ v ∈ Q,
      t ≤ (r'.system.server v).currentTerm ∧
        r'.chronicle.Backs RaftData.term v t R'.log R'.start := by
  obtain ⟨Q, hQ, hbacks⟩ := h.backed t R hR
  refine ⟨Q, hQ, fun v hv => ?_⟩
  obtain ⟨hle, hback⟩ := hbacks v hv
  refine ⟨hle.trans (hstep.term_le v), ?_⟩
  have hgrown := hback.grows h.sound hgrows fun u hu => hacked v u (hu.trans_le hle)
  intro u R₁ k hlt hR₁ hpos hk hterm hspared
  have hholds := hgrown u R₁ k hlt hR₁ hpos hk hterm hspared
  rw [hext.start]
  exact ⟨hholds.le, (hext.agrees.mono (hholds.le.trans (h.sound.start_le hR))).trans hholds.agrees⟩

theorem Inv.quiet {r r' : Partition n α} {e : Event n α} (h : r.Inv)
    (hok : LeaderYields r.system e) (hsystem : r.system.step e = some r'.system)
    (hq : Quiet r r') : r'.Inv := by
  have hstep := electionStep_of_step hsystem
  have hterm := hstep.term_le
  have hreign : ∀ t, r'.chronicle.reign t = r.chronicle.reign t := fun t => by rw [hq.chronicle]
  constructor
  case election => exact h.election.step hok hsystem
  case asked => exact h.asked.step hstep
  case slots => exact slotInv_step h.slots hsystem
  case recorded =>
    intro i j hj
    obtain ⟨hmin, hlog⟩ := hq.logs i j hj
    rw [hlog, hq.history]
    exact h.recorded i j hmin
  case sound =>
    rw [hq.chronicle]
    exact h.sound
  case follows =>
    intro i
    rw [hq.chronicle, hq.history, hq.last]
    exact h.follows i
  case older =>
    intro i j hpos hj
    rw [hq.last] at hj
    rw [hq.history]
    exact (h.older i j hpos hj).trans (hterm i)
  case leads =>
    intro i hi
    obtain ⟨hold, hcur⟩ := hq.leads i hi
    obtain ⟨R, hR⟩ := h.leads i hold
    refine ⟨R, ?_, hR.leader, hR.last.trans (hq.last i).symm, ?_, ?_⟩
    · rw [hreign, hcur]
      exact hR.reign
    · rw [hq.history]
      exact hR.agrees
    · rw [hq.chronicle, hcur]
      exact hR.acked
  case reigned =>
    intro t R hR
    rw [hreign] at hR
    exact h.reigned_step hstep hR
  case voting =>
    refine h.voting_step hstep fun t R hR => .inl ⟨R, ?_, rfl⟩
    rw [← hreign]
    exact hR
  case acked =>
    intro i t hpos
    rw [hq.chronicle] at hpos
    exact (h.acked i t hpos).trans (hterm i)
  case keeps =>
    intro i
    rw [hq.chronicle, hq.history, hq.last]
    exact h.keeps_later i (Nat.lt_succ_of_le (hterm i))
  case candidate => exact fun i w hw hcur hnone => h.candidate_quiet hq hstep hw hcur hnone
  case backed =>
    intro t R hR
    rw [hreign] at hR
    refine h.backed_step hstep ?_ (fun v t _ => by rw [hq.chronicle]) hR (.refl R)
    rw [hq.chronicle]
    exact .refl _

end Partition

end Jetpack.Raft
