import Jetpack.Library.Transition
import Jetpack.Recovery.Ballots

/-! Agreement on the recovered set. The prepare check is not strict, the accept ballot is not the
prepared one and ballots belong to no coordinator, so agreement holds in the runs in which the
ballots of different sets stay apart. -/

namespace Jetpack.Recovery

open Transition QuorumVoting BallotWindow

variable {n : Nat} {j : Epoch}

/-- Who accepted which proposal, and below which ballot replicas of the epoch are closed. -/
def System.history (j : Epoch) (s : System n) : History (Fin n) (Round n) Int where
  proposed p := p ∈ s.proposals
  accepted v p := ∃ x, .accept p.round x ∈ s.replies ∧ x.site = v ∧ x.ok = true
  closed v b := j < (s.server v).jepoch ∨ b < (s.server v).commandPool.maxSeenBallot

theorem majority_of_sites {α : Type} {site : α → Fin n} {l : List α} (hnd : (l.map site).Nodup)
    (hlen : n / 2 + 1 ≤ l.length) : (majority (Fin n)).IsQuorum (l.map site).toFinset := by
  change Fintype.card (Fin n) < 2 * (l.map site).toFinset.card
  rw [List.toFinset_card_of_nodup hnd, List.length_map, Fintype.card_fin]
  omega

/-- The prepare event counts these replies, one of each site. -/
structure PrepareCount (e : JetpackPrepareQuorumEvent) (fed : List (PrepareReply n)) : Prop where
  quorum : e.quorum = n / 2 + 1
  yes : e.nVotedYes = (fed.filter PrepareReply.ok).length
  nodup : (fed.map PrepareReply.site).Nodup
  le : ∀ x ∈ fed, x.ok = true → x.acceptedBallot ≤ e.maxAcceptedBallot
  none : e.hasAcceptedValue = false → e.maxAcceptedBallot = -1
  some : e.hasAcceptedValue = true → -1 < e.maxAcceptedBallot ∧
    ∃ x ∈ fed, x.ok = true ∧ x.acceptedBallot = e.maxAcceptedBallot ∧ x.sid = e.acceptedSid

theorem PrepareCount.feed {e : JetpackPrepareQuorumEvent} {fed : List (PrepareReply n)}
    (h : PrepareCount e fed) {x : PrepareReply n} (hnew : x.site ∉ fed.map PrepareReply.site) :
    PrepareCount (feedPrepareEvent e x) (x :: fed) := by
  have hnodup : ((x :: fed).map PrepareReply.site).Nodup := List.nodup_cons.mpr ⟨hnew, h.nodup⟩
  have hsome : e.hasAcceptedValue = true → -1 < e.maxAcceptedBallot ∧ ∃ y ∈ x :: fed, y.ok = true ∧
      y.acceptedBallot = e.maxAcceptedBallot ∧ y.sid = e.acceptedSid := by
    intro hvalue
    obtain ⟨hlt, y, hy, hrest⟩ := h.some hvalue
    exact ⟨hlt, y, List.mem_cons_of_mem x hy, hrest⟩
  unfold feedPrepareEvent JetpackPrepareQuorumEvent.feedResponse
  cases hok : x.ok with
  | true =>
    rw [if_pos rfl]
    have hyes : e.nVotedYes + 1 = ((x :: fed).filter PrepareReply.ok).length := by
      rw [List.filter_cons_of_pos hok, List.length_cons, h.yes]
    split
    · next hlt =>
      have hfloor : -1 ≤ e.maxAcceptedBallot := by
        cases hvalue : e.hasAcceptedValue with
        | false => exact le_of_eq (h.none hvalue).symm
        | true => exact le_of_lt (h.some hvalue).1
      refine ⟨h.quorum, hyes, hnodup, ?_, fun hnone => (by cases hnone), fun _ =>
        ⟨lt_of_le_of_lt hfloor hlt, x, List.mem_cons_self, hok, rfl, rfl⟩⟩
      intro y hy hyok
      rcases List.mem_cons.mp hy with rfl | hy
      · exact le_refl _
      · exact le_trans (h.le y hy hyok) (le_of_lt hlt)
    · next hle =>
      refine ⟨h.quorum, hyes, hnodup, ?_, h.none, hsome⟩
      intro y hy hyok
      rcases List.mem_cons.mp hy with rfl | hy
      · exact Int.not_lt.mp hle
      · exact h.le y hy hyok
  | false =>
    rw [if_neg (by decide)]
    refine ⟨h.quorum, ?_, hnodup, ?_, h.none, hsome⟩
    · rw [List.filter_cons_of_neg (by simp [hok])]
      exact h.yes
    · intro y hy hyok
      rcases List.mem_cons.mp hy with rfl | hy
      · rw [hok] at hyok
        cases hyok
      · exact h.le y hy hyok

/-- A replica of the epoch remembers the highest ballot it accepted at, and a set proposed there or
committed since. -/
def AcceptorInv (j : Epoch) (s : System n) (v : Fin n) : Prop :=
  j < (s.server v).jepoch ∨
    (-1 ≤ (s.server v).commandPool.maxSeenBallot ∧
      (s.server v).commandPool.maxAcceptedBallot ≤ (s.server v).commandPool.maxSeenBallot ∧
      (∀ p ∈ s.proposals, (s.history j).accepted v p →
        p.ballot ≤ (s.server v).commandPool.maxAcceptedBallot) ∧
      (-1 < (s.server v).commandPool.maxAcceptedBallot → (s.history j).Source (majority (Fin n))
        (s.server v).commandPool.maxAcceptedBallot (s.server v).commandPool.sid))

def StageInv (j : Epoch) (s : System n) (i : Fin n) : Stage n → Prop
  | .one w => (∀ p ∈ s.proposals, p.round ≠ s.round i) ∧
      (∃ jepoch oepoch, .prepare (s.round i) jepoch oepoch w.prepared ∈ s.calls) ∧
      (j < (s.server i).jepoch ∨ w.prepared ≤ (s.server i).commandPool.maxSeenBallot) ∧
      PrepareCount w.prepare w.prepareFed ∧ ∀ x ∈ w.prepareFed, .prepare (s.round i) x ∈ s.replies
  | .two w => ∀ e, w.accept = some e →
      (∃ p ∈ s.proposals, p.round = s.round i ∧ p.value = w.proposeSid) ∧
      e.quorum = n / 2 + 1 ∧ e.nVotedYes = (w.acceptFed.filter AcceptReply.ok).length ∧
      (w.acceptFed.map AcceptReply.site).Nodup ∧ ∀ x ∈ w.acceptFed, .accept (s.round i) x ∈ s.replies
  | _ => True

structure RoundInv (j : Epoch) (s : System n) : Prop where
  jepoch_le : ∀ v, j ≤ (s.server v).jepoch
  safe : (s.history j).Safe (majority (Fin n))
  ballot_nonneg : ∀ p ∈ s.proposals, -1 < p.ballot
  round_unique : ∀ p ∈ s.proposals, ∀ p' ∈ s.proposals, p.round = p'.round → p = p'
  proposal_round : ∀ p ∈ s.proposals, p.round.2 ≤ s.runs p.round.1
  prepareCall : ∀ round jepoch oepoch b, .prepare round jepoch oepoch b ∈ s.calls →
    jepoch = j ∧ round.2 ≤ s.runs round.1
  prepare_unique : ∀ round je oe b je' oe' b', .prepare round je oe b ∈ s.calls →
    .prepare round je' oe' b' ∈ s.calls → b = b'
  acceptCall : ∀ round jepoch oepoch b x, .accept round jepoch oepoch b x ∈ s.calls →
    jepoch = j ∧ ∃ p ∈ s.proposals, p.round = round ∧ p.ballot = b ∧ p.value = x
  commitCall : ∀ round jepoch oepoch x, .commit round jepoch oepoch x ∈ s.calls →
    ∃ p ∈ s.proposals, (s.history j).Chosen (majority (Fin n)) p ∧ p.value = x
  prepareReply : ∀ round x, .prepare round x ∈ s.replies → round.2 ≤ s.runs round.1 ∧
    (x.ok = true → ∀ jepoch oepoch b, .prepare round jepoch oepoch b ∈ s.calls →
      (s.history j).Answered (majority (Fin n)) (-1) b x.site x.acceptedBallot x.sid)
  acceptReply : ∀ round x, .accept round x ∈ s.replies → ∃ p ∈ s.proposals, p.round = round
  acceptor : ∀ v, AcceptorInv j s v
  stage : ∀ i, StageInv j s i (s.stage i)

theorem roundInv_init (j o : Epoch) : RoundInv j (System.init j o : System n) where
  jepoch_le v := BitVec.le_refl j
  safe := ⟨fun h => (by cases h), fun h => (by cases h), fun h => (by cases h), fun h => (by cases h)⟩
  ballot_nonneg p h := by cases h
  round_unique p h := by cases h
  proposal_round p h := by cases h
  prepareCall r je oe b h := by cases h
  prepare_unique r je oe b je' oe' b' h := by cases h
  acceptCall r je oe b x h := by cases h
  commitCall r je oe x h := by cases h
  prepareReply r x h := by cases h
  acceptReply r x h := by cases h
  acceptor v := .inr ⟨le_refl _, le_refl _, fun p h => (by cases h),
    fun h => absurd h (lt_irrefl _)⟩
  stage i := trivial

theorem closed_of_calm {r r' : TxLogServer} (h : Calm j r r') {b : Int}
    (hclosed : j < r.jepoch ∨ b < r.commandPool.maxSeenBallot) :
    j < r'.jepoch ∨ b < r'.commandPool.maxSeenBallot := by
  rcases h with hout | ⟨hj, hseen, -, -⟩
  · exact .inl hout
  · rcases hclosed with hout | hlt
    · exact .inl (hj ▸ hout)
    · exact .inr (lt_of_lt_of_le hlt hseen)

/-- A replica that accepts is in the epoch and has seen no higher ballot. -/
theorem ballotOk_cases {r : TxLogServer} {oepoch : Epoch} {b : Int}
    (h : r.ballotOk j oepoch b = true) : r.jepoch ≤ j ∧ r.commandPool.maxSeenBallot ≤ b := by
  simp only [TxLogServer.ballotOk, TxLogServer.currentFor, Bool.and_eq_true, decide_eq_true_eq] at h
  exact ⟨h.1.1, le_trans (le_max_left _ _) h.2⟩

theorem onJetpackAccept_cases (r : TxLogServer) (oepoch : Epoch) (b sid : Int) :
    (r.ballotOk j oepoch b = true ∧ (r.onJetpackAccept j oepoch b sid).1.jepoch = r.jepoch ∧
        (r.onJetpackAccept j oepoch b sid).1.commandPool.maxSeenBallot = b ∧
        (r.onJetpackAccept j oepoch b sid).1.commandPool.maxAcceptedBallot = b ∧
        (r.onJetpackAccept j oepoch b sid).1.commandPool.sid = sid) ∨
      (r.ballotOk j oepoch b = false ∧ Calm j r (r.onJetpackAccept j oepoch b sid).1) := by
  unfold TxLogServer.onJetpackAccept
  cases hok : r.ballotOk j oepoch b with
  | true => exact .inl ⟨rfl, rfl, max_eq_right (ballotOk_cases hok).2, rfl, rfl⟩
  | false => exact .inr ⟨rfl, TxLogServer.seeBallot_calm j r b⟩

theorem onJetpackCommit_cases (r : TxLogServer) (jepoch oepoch : Epoch) (sid : Int) :
    (r.onJetpackCommit jepoch oepoch sid).jepoch = r.jepoch ∧
      (r.onJetpackCommit jepoch oepoch sid).commandPool.maxSeenBallot = r.commandPool.maxSeenBallot ∧
      (r.onJetpackCommit jepoch oepoch sid).commandPool.maxAcceptedBallot
        = r.commandPool.maxAcceptedBallot ∧
      ((r.onJetpackCommit jepoch oepoch sid).commandPool.sid = sid ∨
        (r.onJetpackCommit jepoch oepoch sid).commandPool.sid = r.commandPool.sid) := by
  unfold TxLogServer.onJetpackCommit
  split
  · exact ⟨rfl, rfl, rfl, .inl rfl⟩
  · exact ⟨rfl, rfl, rfl, .inr rfl⟩

theorem RoundStep.closed_mono {s s' : System n} (hs : RoundInv j s) (h : RoundStep j s s')
    {v : Fin n} {b : Int} (hclosed : (s.history j).closed v b) : (s'.history j).closed v b := by
  cases h with
  | calm _ _ hservers => exact closed_of_calm (hservers v) hclosed
  | start i w _ _ _ _ _ hservers => exact closed_of_calm (hservers v) hclosed
  | promise u round je oe ballot _ hserver =>
    simp only [System.history, hserver]
    exact closed_of_calm (calm_update (TxLogServer.seeBallot_calm j _ ballot) v) hclosed
  | feedPrepare _ _ _ _ _ _ _ hserver => simpa only [System.history, hserver] using hclosed
  | propose _ _ _ _ _ _ _ _ _ _ _ _ _ _ hservers => exact closed_of_calm (hservers v) hclosed
  | accept u round je oe ballot sid _ hcall hserver =>
    obtain ⟨rfl, -⟩ := hs.acceptCall _ _ _ _ _ hcall
    simp only [System.history, hserver]
    by_cases hvu : v = u
    · subst hvu
      rw [Function.update_self]
      rcases onJetpackAccept_cases (j := je) (s.server v) oe ballot sid with
        ⟨hok, hj, hseen, -⟩ | ⟨-, hcalm⟩
      · rw [hj, hseen]
        rcases hclosed with hout | hlt
        · exact .inl hout
        · exact .inr (lt_of_lt_of_le hlt (ballotOk_cases hok).2)
      · exact closed_of_calm hcalm hclosed
    · rw [Function.update_of_ne hvu]
      exact hclosed
  | feedAccept _ _ _ _ _ _ _ _ _ hserver => simpa only [System.history, hserver] using hclosed
  | decide _ _ _ _ _ _ _ _ _ hservers => exact closed_of_calm (hservers v) hclosed
  | learn u round je oe sid _ hserver =>
    simp only [System.history, hserver]
    by_cases hvu : v = u
    · subst hvu
      obtain ⟨hj, hseen, -, -⟩ := onJetpackCommit_cases (s.server v) je oe sid
      rw [Function.update_self, hj, hseen]
      exact hclosed
    · rw [Function.update_of_ne hvu]
      exact hclosed

theorem RoundStep.accepted_new {s s' : System n} (hs : RoundInv j s) (h : RoundStep j s s')
    {v : Fin n} {p : Proposal (Round n) Int} (hp : p ∈ s.proposals)
    (hacc : (s'.history j).accepted v p) :
    (s.history j).accepted v p ∨ ¬ (s.history j).closed v p.ballot := by
  obtain ⟨x, hx, hsite, hok⟩ := hacc
  have hsame : s'.replies = s.replies → (s.history j).accepted v p := by
    intro hreplies
    exact ⟨x, hreplies ▸ hx, hsite, hok⟩
  cases h with
  | calm _ replies _ _ _ hreplies hreply =>
    rw [hreplies] at hx
    rcases List.mem_append.mp hx with hold | hnew
    · exact .inl ⟨x, hold, hsite, hok⟩
    · exact absurd (hreply _ hnew) (by simp [Reply.isBallot])
  | start _ _ _ _ _ _ _ _ _ hreplies => exact .inl (hsame hreplies)
  | promise _ _ _ _ _ _ _ hreplies =>
    rw [hreplies] at hx
    rcases List.mem_append.mp hx with hold | hnew
    · exact .inl ⟨x, hold, hsite, hok⟩
    · simp at hnew
  | feedPrepare _ _ _ _ _ _ _ _ _ hreplies => exact .inl (hsame hreplies)
  | propose _ _ _ _ _ _ _ _ _ _ _ _ _ _ _ _ _ hreplies => exact .inl (hsame hreplies)
  | accept u round je oe ballot sid seen hcall hserver hreplies =>
    rw [hreplies] at hx
    rcases List.mem_append.mp hx with hold | hnew
    · exact .inl ⟨x, hold, hsite, hok⟩
    · right
      obtain ⟨rfl, p', hp', hround, rfl, -⟩ := hs.acceptCall _ _ _ _ _ hcall
      simp only [List.mem_singleton, Reply.accept.injEq] at hnew
      obtain ⟨hpround, rfl⟩ := hnew
      obtain rfl := hs.round_unique p hp p' hp' (hpround.trans hround.symm)
      obtain ⟨hj, hseen⟩ := ballotOk_cases hok
      change u = v at hsite
      subst hsite
      rintro (hout | hlt)
      · exact absurd hj (by bv_omega)
      · exact absurd hseen (not_le.mpr hlt)
  | feedAccept _ _ _ _ _ _ _ _ _ _ _ hreplies => exact .inl (hsame hreplies)
  | decide _ _ _ _ _ _ _ _ _ _ _ _ hreplies => exact .inl (hsame hreplies)
  | learn _ _ _ _ _ _ _ _ hreplies => exact .inl (hsame hreplies)

theorem RoundStep.replies_subset {s s' : System n} (h : RoundStep j s s') : s.replies ⊆ s'.replies := by
  cases h with
  | calm _ _ _ _ _ hreplies => exact hreplies ▸ List.subset_append_left _ _
  | promise _ _ _ _ _ _ _ hreplies => exact hreplies ▸ List.subset_append_left _ _
  | accept _ _ _ _ _ _ _ _ _ hreplies => exact hreplies ▸ List.subset_append_left _ _
  | start _ _ _ _ _ _ _ _ _ hreplies => exact hreplies ▸ List.Subset.refl _
  | feedPrepare _ _ _ _ _ _ _ _ _ hreplies => exact hreplies ▸ List.Subset.refl _
  | propose _ _ _ _ _ _ _ _ _ _ _ _ _ _ _ _ _ hreplies => exact hreplies ▸ List.Subset.refl _
  | feedAccept _ _ _ _ _ _ _ _ _ _ _ hreplies => exact hreplies ▸ List.Subset.refl _
  | decide _ _ _ _ _ _ _ _ _ _ _ _ hreplies => exact hreplies ▸ List.Subset.refl _
  | learn _ _ _ _ _ _ _ _ hreplies => exact hreplies ▸ List.Subset.refl _

theorem RoundStep.accepted_keep {s s' : System n} (h : RoundStep j s s') {v : Fin n}
    {p : Proposal (Round n) Int} (hacc : (s.history j).accepted v p) :
    (s'.history j).accepted v p := by
  obtain ⟨x, hx, hsite, hok⟩ := hacc
  exact ⟨x, h.replies_subset hx, hsite, hok⟩

theorem RoundStep.grows {s s' : System n} (hs : RoundInv j s) (h : RoundStep j s s')
    (hproposals : s'.proposals = s.proposals) : (s.history j).Grows (s'.history j) where
  proposed := by simp only [System.history, hproposals, implies_true]
  accepted_keep := h.accepted_keep
  accepted_new hp hacc := h.accepted_new hs hp hacc
  closed := h.closed_mono hs

theorem RoundStep.runs_le {s s' : System n} (h : RoundStep j s s') (i : Fin n) :
    s.runs i ≤ s'.runs i := by
  cases h with
  | start k w _ _ _ _ _ _ _ _ _ hruns =>
    rw [hruns]
    by_cases hik : i = k
    · subst hik
      simp
    · simp [hik]
  | calm _ _ _ _ _ _ _ _ hruns => rw [hruns]
  | promise _ _ _ _ _ _ _ _ _ _ hruns => rw [hruns]
  | feedPrepare _ _ _ _ _ _ _ _ _ _ _ hruns => rw [hruns]
  | propose _ _ _ _ _ _ _ _ _ _ _ _ _ _ _ _ _ _ hruns => rw [hruns]
  | accept _ _ _ _ _ _ _ _ _ _ _ _ hruns => rw [hruns]
  | feedAccept _ _ _ _ _ _ _ _ _ _ _ _ _ hruns => rw [hruns]
  | decide _ _ _ _ _ _ _ _ _ _ _ _ _ _ hruns => rw [hruns]
  | learn _ _ _ _ _ _ _ _ _ _ hruns => rw [hruns]

theorem RoundStep.call_new {s s' : System n} (h : RoundStep j s s') {c : Call n} (hc : c ∈ s'.calls) :
    c ∈ s.calls ∨ c.isBallot = false ∨
      (∃ i b, (s.server i).jepoch = j ∧ s'.runs i = s.runs i + 1 ∧
        c = .prepare (i, s.runs i + 1) j (s.server i).oepoch b) ∨
      (∃ p ∈ s'.proposals, ∃ oepoch, c = .accept p.round j oepoch p.ballot p.value) ∨
      (∃ i w e, s.stage i = .two w ∧ w.accept = some e ∧ e.yes = true ∧
        ∃ jepoch oepoch, c = .commit (s.round i) jepoch oepoch w.proposeSid) := by
  cases h with
  | calm calls _ _ hcalls hcall =>
    rw [hcalls] at hc
    rcases List.mem_append.mp hc with hold | hnew
    · exact .inl hold
    · exact .inr (.inl (hcall c hnew))
  | start i w hidle hepoch _ _ _ _ hcalls _ _ hruns =>
    rw [hcalls] at hc
    simp only [List.mem_append, List.mem_cons, List.not_mem_nil, or_false] at hc
    rcases hc with hold | rfl | rfl
    · exact .inl hold
    · exact .inr (.inl rfl)
    · exact .inr (.inr (.inl ⟨i, w.prepared, hepoch, by simp [hruns], by rw [hepoch]⟩))
  | promise _ _ _ _ _ _ _ _ hcalls => exact .inl (hcalls ▸ hc)
  | feedPrepare _ _ _ _ _ _ _ _ hcalls => exact .inl (hcalls ▸ hc)
  | propose i w w' sid record hone hyes hepoch _ _ hrecord _ _ _ _ hcalls hproposals =>
    rw [hcalls] at hc
    simp only [List.mem_append, List.mem_cons, List.not_mem_nil, or_false] at hc
    rcases hc with hold | rfl | rfl
    · exact .inl hold
    · exact .inr (.inl hrecord)
    · refine .inr (.inr (.inr (.inl ⟨⟨s.round i, w.prepared,
        (s.server i).commandPool.maxSeenBallot + 1, w'.proposeSid⟩, ?_, (s.server i).oepoch, ?_⟩)))
      · simp [hproposals]
      · rw [hepoch]
  | accept _ _ _ _ _ _ _ _ _ _ hcalls => exact .inl (hcalls ▸ hc)
  | feedAccept _ _ _ _ _ _ _ _ _ _ hcalls => exact .inl (hcalls ▸ hc)
  | decide i w e je oe calls htwo he hyes _ hcalls hcall =>
    rw [hcalls] at hc
    rcases List.mem_append.mp hc with hold | hnew
    · exact .inl hold
    · rcases List.mem_cons.mp hnew with rfl | hnew
      · exact .inr (.inr (.inr (.inr ⟨i, w, e, htwo, he, hyes, je, oe, rfl⟩)))
      · exact .inr (.inl (hcall c hnew))
  | learn _ _ _ _ _ _ _ hcalls => exact .inl (hcalls ▸ hc)

theorem RoundStep.calls_subset {s s' : System n} (h : RoundStep j s s') : s.calls ⊆ s'.calls := by
  cases h with
  | calm _ _ _ hcalls => exact hcalls ▸ List.subset_append_left _ _
  | start _ _ _ _ _ _ _ _ hcalls => exact hcalls ▸ List.subset_append_left _ _
  | propose _ _ _ _ _ _ _ _ _ _ _ _ _ _ _ hcalls => exact hcalls ▸ List.subset_append_left _ _
  | decide _ _ _ _ _ _ _ _ _ _ hcalls => exact hcalls ▸ List.subset_append_left _ _
  | promise _ _ _ _ _ _ _ _ hcalls => exact hcalls ▸ List.Subset.refl _
  | feedPrepare _ _ _ _ _ _ _ _ hcalls => exact hcalls ▸ List.Subset.refl _
  | accept _ _ _ _ _ _ _ _ _ _ hcalls => exact hcalls ▸ List.Subset.refl _
  | feedAccept _ _ _ _ _ _ _ _ _ _ hcalls => exact hcalls ▸ List.Subset.refl _
  | learn _ _ _ _ _ _ _ hcalls => exact hcalls ▸ List.Subset.refl _

theorem RoundStep.proposals_subset {s s' : System n} (h : RoundStep j s s') :
    s.proposals ⊆ s'.proposals := by
  cases h with
  | propose _ _ _ _ _ _ _ _ _ _ _ _ _ _ _ _ hproposals =>
    exact hproposals ▸ List.subset_append_left _ _
  | calm _ _ _ _ _ _ _ hproposals => exact hproposals ▸ List.Subset.refl _
  | start _ _ _ _ _ _ _ _ _ _ hproposals => exact hproposals ▸ List.Subset.refl _
  | promise _ _ _ _ _ _ _ _ _ hproposals => exact hproposals ▸ List.Subset.refl _
  | feedPrepare _ _ _ _ _ _ _ _ _ _ hproposals => exact hproposals ▸ List.Subset.refl _
  | accept _ _ _ _ _ _ _ _ _ _ _ hproposals => exact hproposals ▸ List.Subset.refl _
  | feedAccept _ _ _ _ _ _ _ _ _ _ _ _ hproposals => exact hproposals ▸ List.Subset.refl _
  | decide _ _ _ _ _ _ _ _ _ _ _ _ _ hproposals => exact hproposals ▸ List.Subset.refl _
  | learn _ _ _ _ _ _ _ _ _ hproposals => exact hproposals ▸ List.Subset.refl _

/-- The votes a coordinator counted choose its proposal. -/
theorem RoundInv.chosen_of_yes {s : System n} (hs : RoundInv j s) {i : Fin n} {w : RoundTwo n}
    {e : JetpackAcceptQuorumEvent} (htwo : s.stage i = .two w) (he : w.accept = some e)
    (hyes : e.yes = true) :
    ∃ p ∈ s.proposals, (s.history j).Chosen (majority (Fin n)) p ∧ p.value = w.proposeSid := by
  have hstage := hs.stage i
  rw [htwo] at hstage
  obtain ⟨⟨p, hp, hround, hvalue⟩, hquorum, hvotes, hnodup, hfed⟩ := hstage e he
  refine ⟨p, hp, ⟨((w.acceptFed.filter AcceptReply.ok).map AcceptReply.site).toFinset, ?_, ?_⟩, hvalue⟩
  · refine majority_of_sites ((List.filter_sublist.map _).nodup hnodup) ?_
    simp only [QuorumEvent.yes, decide_eq_true_eq] at hyes
    omega
  · intro v hv
    simp only [List.mem_toFinset, List.mem_map, List.mem_filter] at hv
    obtain ⟨x, ⟨hx, hok⟩, rfl⟩ := hv
    exact ⟨x, hround ▸ hfed x hx, rfl, hok⟩

/-- The prepare replies a coordinator counted report the set it proposes. -/
theorem RoundInv.reported_of_yes {s : System n} (hs : RoundInv j s) {i : Fin n} {w : RoundOne n}
    (hone : s.stage i = .one w) (hyes : w.prepare.yes = true) (sid : Int) :
    (s.history j).Reported (majority (Fin n)) w.prepared (proposeSid w.prepare sid) := by
  have hstage := hs.stage i
  rw [hone] at hstage
  obtain ⟨-, ⟨je, oe, hcall⟩, -, hcount, hfed⟩ := hstage
  have hanswer : ∀ x ∈ w.prepareFed, x.ok = true → (s.history j).Answered (majority (Fin n)) (-1)
      w.prepared x.site x.acceptedBallot x.sid :=
    fun x hx hok => (hs.prepareReply _ x (hfed x hx)).2 hok je oe _ hcall
  have hquorum : n / 2 + 1 ≤ (w.prepareFed.filter PrepareReply.ok).length := by
    simp only [QuorumEvent.yes, decide_eq_true_eq] at hyes
    rw [← hcount.yes, ← hcount.quorum]
    exact hyes
  have hsites := majority_of_sites ((List.filter_sublist.map _).nodup hcount.nodup) hquorum
  have hbelow : ∀ v ∈ ((w.prepareFed.filter PrepareReply.ok).map PrepareReply.site).toFinset,
      ∃ acc y, (s.history j).Answered (majority (Fin n)) (-1) w.prepared v acc y ∧
        acc ≤ w.prepare.maxAcceptedBallot := by
    intro v hv
    simp only [List.mem_toFinset, List.mem_map, List.mem_filter] at hv
    obtain ⟨x, ⟨hx, hok⟩, rfl⟩ := hv
    exact ⟨x.acceptedBallot, x.sid, hanswer x hx hok, hcount.le x hx hok⟩
  have htop : w.prepare.maxAcceptedBallot ≤ -1 ∨ (s.history j).Source (majority (Fin n))
      w.prepare.maxAcceptedBallot (proposeSid w.prepare sid) := by
    cases hvalue : w.prepare.hasAcceptedValue with
    | false => exact .inl (le_of_eq (hcount.none hvalue))
    | true =>
      obtain ⟨hlt, x, hx, hok, hballot, hsid⟩ := hcount.some hvalue
      have hsource := (hanswer x hx hok).source (hballot ▸ hlt)
      simp only [proposeSid, hyes, hvalue, Bool.and_self, if_true]
      exact .inr (hballot ▸ hsid ▸ hsource)
  exact History.reported_of_answers hsites hbelow htop hs.ballot_nonneg

/-- The history after a step: it grows, possibly with one new proposal before. -/
theorem RoundStep.history_cases {s s' : System n} (hs : RoundInv j s) (h : RoundStep j s s') :
    (s.history j).Grows (s'.history j) ∨
      ∃ i w w' sid, s.stage i = .one w ∧ w.prepare.yes = true ∧ (s.server i).jepoch = j ∧
        w'.proposeSid = proposeSid w.prepare sid ∧ s'.stage i = .two w' ∧
        ∃ new : Proposal (Round n) Int, new = ⟨s.round i, w.prepared,
          (s.server i).commandPool.maxSeenBallot + 1, w'.proposeSid⟩ ∧
          (∀ p ∈ s.proposals, Apart p new) ∧ s'.proposals = s.proposals ++ [new] ∧
          s'.runs = s.runs ∧ s'.replies = s.replies ∧
          ((s.history j).propose new).Grows (s'.history j) := by
  have hstep := h
  cases h with
  | propose i w w' sid record hone hyes hepoch hapart hsid _ hpropose _ _ _ _ hproposals hreplies
      hruns hstage =>
    refine .inr ⟨i, w, w', sid, hone, hyes, hepoch, hpropose, by simp [hstage], _, rfl, hapart,
      hproposals, hruns, hreplies, ?_⟩
    refine ⟨?_, hstep.accepted_keep, ?_, hstep.closed_mono hs⟩
    · intro p
      simp [System.history, History.propose, hproposals]
    · rintro v p - ⟨x, hx, hrest⟩
      exact .inl ⟨x, hreplies ▸ hx, hrest⟩
  | calm _ _ _ _ _ _ _ hproposals => exact .inl (hstep.grows hs hproposals)
  | start _ _ _ _ _ _ _ _ _ _ hproposals => exact .inl (hstep.grows hs hproposals)
  | promise _ _ _ _ _ _ _ _ _ hproposals => exact .inl (hstep.grows hs hproposals)
  | feedPrepare _ _ _ _ _ _ _ _ _ _ hproposals => exact .inl (hstep.grows hs hproposals)
  | accept _ _ _ _ _ _ _ _ _ _ _ hproposals => exact .inl (hstep.grows hs hproposals)
  | feedAccept _ _ _ _ _ _ _ _ _ _ _ _ hproposals => exact .inl (hstep.grows hs hproposals)
  | decide _ _ _ _ _ _ _ _ _ _ _ _ _ hproposals => exact .inl (hstep.grows hs hproposals)
  | learn _ _ _ _ _ _ _ _ _ hproposals => exact .inl (hstep.grows hs hproposals)

theorem RoundInv.fresh {s : System n} (hs : RoundInv j s) {i : Fin n} {w : RoundOne n}
    (hone : s.stage i = .one w) {new : Proposal (Round n) Int} (hround : new.round = s.round i)
    (v : Fin n) : ¬ (s.history j).accepted v new := by
  rintro ⟨x, hx, -⟩
  obtain ⟨p, hp, hpround⟩ := hs.acceptReply _ x hx
  have hstage := hs.stage i
  rw [hone] at hstage
  exact hstage.1 p hp (hpround.trans hround)

theorem RoundInv.safe_step {s s' : System n} (hs : RoundInv j s) (h : RoundStep j s s') :
    (s'.history j).Safe (majority (Fin n)) := by
  rcases h.history_cases hs with hgrows | ⟨i, w, w', sid, hone, hyes, hepoch, hpropose, -, new, rfl,
    hapart, -, -, -, hgrows⟩
  · exact hs.safe.grows hgrows
  · have hstage := hs.stage i
    rw [hone] at hstage
    obtain ⟨-, -, hprepared, -, -⟩ := hstage
    have hwindow : w.prepared ≤ (s.server i).commandPool.maxSeenBallot + 1 := by
      rcases hprepared with hout | hle
      · exact absurd hout (by rw [hepoch]; exact BitVec.lt_irrefl j)
      · omega
    refine (hs.safe.propose (hs.fresh hone rfl) hwindow hapart ?_).grows hgrows
    exact hpropose ▸ hs.reported_of_yes hone hyes sid

theorem RoundInv.answered_step {s s' : System n} (hs : RoundInv j s) (h : RoundStep j s s')
    {floor prepared acc x : Int} {v : Fin n}
    (ha : (s.history j).Answered (majority (Fin n)) floor prepared v acc x) :
    (s'.history j).Answered (majority (Fin n)) floor prepared v acc x := by
  rcases h.history_cases hs with hgrows | ⟨i, w, w', sid, hone, -, -, -, -, new, rfl, -, -, -, -, hgrows⟩
  · exact ha.grows hgrows
  · exact (ha.propose (hs.fresh hone rfl)).grows hgrows

theorem RoundInv.source_step {s s' : System n} (hs : RoundInv j s) (h : RoundStep j s s')
    {b x : Int} (hsource : (s.history j).Source (majority (Fin n)) b x) :
    (s'.history j).Source (majority (Fin n)) b x := by
  rcases h.history_cases hs with hgrows | ⟨_, _, _, _, _, -, -, -, -, new, rfl, -, -, -, -, hgrows⟩
  · exact hsource.grows hgrows
  · exact (hsource.propose _).grows hgrows

theorem chosen_step {s s' : System n} (h : RoundStep j s s') {p : Proposal (Round n) Int}
    (hc : (s.history j).Chosen (majority (Fin n)) p) :
    (s'.history j).Chosen (majority (Fin n)) p := by
  obtain ⟨Q, hQ, haccepted⟩ := hc
  exact ⟨Q, hQ, fun v hv => h.accepted_keep (haccepted v hv)⟩

theorem RoundStep.jepoch_le {s s' : System n} (hs : RoundInv j s) (h : RoundStep j s s') (v : Fin n) :
    j ≤ (s'.server v).jepoch := by
  have hle := hs.jepoch_le v
  have hcalm : Calm j (s.server v) (s'.server v) → j ≤ (s'.server v).jepoch := by
    rintro (hout | ⟨hj, -⟩)
    · exact BitVec.le_of_lt hout
    · exact hj ▸ hle
  cases h with
  | calm _ _ hservers => exact hcalm (hservers v)
  | start _ _ _ _ _ _ _ hservers => exact hcalm (hservers v)
  | propose _ _ _ _ _ _ _ _ _ _ _ _ _ _ hservers => exact hcalm (hservers v)
  | decide _ _ _ _ _ _ _ _ _ hservers => exact hcalm (hservers v)
  | feedPrepare _ _ _ _ _ _ _ hserver => exact hserver ▸ hle
  | feedAccept _ _ _ _ _ _ _ _ _ hserver => exact hserver ▸ hle
  | promise u _ je oe ballot _ hserver =>
    rw [hserver] at hcalm ⊢
    exact hcalm (calm_update (TxLogServer.seeBallot_calm j _ ballot) v)
  | accept u _ je oe ballot sid _ _ hserver =>
    rw [hserver]
    by_cases hvu : v = u
    · subst hvu
      rw [Function.update_self, (TxLogServer.onJetpackAccept_reply _ je oe ballot sid).2.1]
      exact hle
    · rw [Function.update_of_ne hvu]
      exact hle
  | learn u _ je oe sid _ hserver =>
    rw [hserver]
    by_cases hvu : v = u
    · subst hvu
      rw [Function.update_self, (onJetpackCommit_cases _ je oe sid).1]
      exact hle
    · rw [Function.update_of_ne hvu]
      exact hle

theorem RoundInv.proposed_of_accepted {s s' : System n} (hs : RoundInv j s) (h : RoundStep j s s')
    {v : Fin n} {p : Proposal (Round n) Int} (hp : p ∈ s'.proposals)
    (hacc : (s.history j).accepted v p) : p ∈ s.proposals := by
  rcases h.history_cases hs with hgrows | ⟨_, _, _, _, hone, -, -, -, -, new, rfl, -, hproposals, -⟩
  · exact hgrows.proposed.mp hp
  · rw [hproposals] at hp
    rcases List.mem_append.mp hp with hold | hnew
    · exact hold
    · obtain rfl := List.mem_singleton.mp hnew
      exact absurd hacc (hs.fresh hone rfl v)

theorem RoundInv.acceptor_calm {s s' : System n} (hs : RoundInv j s) (h : RoundStep j s s') {v : Fin n}
    (hcalm : Calm j (s.server v) (s'.server v))
    (hacc : ∀ p, (s'.history j).accepted v p → (s.history j).accepted v p) : AcceptorInv j s' v := by
  rcases hcalm with hout | ⟨hj, hseen, hsame, hsid⟩
  · exact .inl hout
  · rcases hs.acceptor v with hout | ⟨hfloor, hle, hmax, hsource⟩
    · exact .inl (hj ▸ hout)
    · refine .inr ⟨le_trans hfloor hseen, hsame ▸ le_trans hle hseen, ?_, ?_⟩
      · intro p hp haccp
        have hold := hacc p haccp
        exact hsame ▸ hmax p (hs.proposed_of_accepted h hp hold) hold
      · rw [hsame, hsid]
        exact fun hlt => hs.source_step h (hsource hlt)

theorem RoundInv.acceptor_accept {s s' : System n} (hs : RoundInv j s) (h : RoundStep j s s')
    {v : Fin n} {round : Round n} {oepoch : Epoch} {ballot sid : Int} {x : AcceptReply n}
    (hcall : .accept round j oepoch ballot sid ∈ s.calls)
    (hserver : s'.server v = ((s.server v).onJetpackAccept j oepoch ballot sid).1)
    (hreplies : s'.replies = s.replies ++ [.accept round x])
    (hok : x.ok = (s.server v).ballotOk j oepoch ballot) (hproposals : s'.proposals = s.proposals) :
    AcceptorInv j s' v := by
  have hold : ∀ p, (s'.history j).accepted v p → (s.history j).accepted v p ∨
      (p.round = round ∧ x.ok = true) := by
    rintro p ⟨y, hy, hysite, hyok⟩
    rw [hreplies] at hy
    rcases List.mem_append.mp hy with hy | hy
    · exact .inl ⟨y, hy, hysite, hyok⟩
    · simp only [List.mem_singleton, Reply.accept.injEq] at hy
      exact .inr ⟨hy.1, hy.2 ▸ hyok⟩
  rcases onJetpackAccept_cases (j := j) (s.server v) oepoch ballot sid with
    ⟨hyes, hj, hseen, hacc, hsid⟩ | ⟨hno, hcalm⟩
  · obtain ⟨hin, hle⟩ := ballotOk_cases hyes
    obtain ⟨-, p₀, hp₀, hround₀, hballot₀, hvalue₀⟩ := hs.acceptCall _ _ _ _ _ hcall
    have hpos := hs.ballot_nonneg p₀ hp₀
    right
    rw [hserver, hseen, hacc, hsid]
    refine ⟨by omega, le_refl _, ?_, ?_⟩
    · intro p hp haccp
      rw [hproposals] at hp
      rcases hold p haccp with haccp | ⟨hround, -⟩
      · rcases hs.acceptor v with hout | ⟨-, hle', hmax, -⟩
        · exact absurd hin (by bv_omega)
        · have hpmax := hmax p hp haccp
          omega
      · obtain rfl := hs.round_unique p hp p₀ hp₀ (hround.trans hround₀.symm)
        exact le_of_eq hballot₀
    · intro _
      exact .inl ⟨p₀, h.proposals_subset hp₀, hballot₀, hvalue₀⟩
  · refine hs.acceptor_calm h (hserver ▸ hcalm) fun p haccp => ?_
    rcases hold p haccp with hold | ⟨-, hyes⟩
    · exact hold
    · rw [hok, hno] at hyes
      cases hyes

theorem RoundInv.acceptor_step {s s' : System n} (hs : RoundInv j s) (h : RoundStep j s s')
    (v : Fin n) : AcceptorInv j s' v := by
  have hsame : s'.replies = s.replies →
      ∀ p, (s'.history j).accepted v p → (s.history j).accepted v p := by
    rintro hreplies p ⟨x, hx, hrest⟩
    exact ⟨x, hreplies ▸ hx, hrest⟩
  have hstep := h
  cases h with
  | calm _ replies hservers _ _ hreplies hreply =>
    refine hs.acceptor_calm hstep (hservers v) ?_
    rintro p ⟨x, hx, hrest⟩
    rw [hreplies] at hx
    rcases List.mem_append.mp hx with hold | hnew
    · exact ⟨x, hold, hrest⟩
    · exact absurd (hreply _ hnew) (by simp [Reply.isBallot])
  | start _ _ _ _ _ _ _ hservers _ hreplies =>
    exact hs.acceptor_calm hstep (hservers v) (hsame hreplies)
  | promise u round je oe ballot _ hserver hreplies =>
    have hcalm : Calm j (s.server v) (s'.server v) :=
      hserver ▸ calm_update (TxLogServer.seeBallot_calm j _ ballot) v
    refine hs.acceptor_calm hstep hcalm ?_
    rintro p ⟨x, hx, hrest⟩
    rw [hreplies] at hx
    rcases List.mem_append.mp hx with hold | hnew
    · exact ⟨x, hold, hrest⟩
    · simp at hnew
  | feedPrepare _ _ _ _ _ _ _ hserver _ hreplies =>
    exact hs.acceptor_calm hstep (hserver ▸ Calm.refl j _) (hsame hreplies)
  | propose _ _ _ _ _ _ _ _ _ _ _ _ _ _ hservers _ _ hreplies =>
    exact hs.acceptor_calm hstep (hservers v) (hsame hreplies)
  | accept u round je oe ballot sid seen hcall hserver hreplies _ hproposals =>
    obtain ⟨rfl, -⟩ := hs.acceptCall _ _ _ _ _ hcall
    by_cases hvu : v = u
    · subst hvu
      exact hs.acceptor_accept hstep hcall (by rw [hserver, Function.update_self]) hreplies rfl hproposals
    · refine hs.acceptor_calm hstep (by rw [hserver, Function.update_of_ne hvu]; exact Calm.refl _ _) ?_
      rintro p ⟨x, hx, hsite, hok⟩
      rw [hreplies] at hx
      rcases List.mem_append.mp hx with hold | hnew
      · exact ⟨x, hold, hsite, hok⟩
      · simp only [List.mem_singleton, Reply.accept.injEq] at hnew
        rw [hnew.2] at hsite
        exact absurd hsite.symm hvu
  | feedAccept _ _ _ _ _ _ _ _ _ hserver _ hreplies =>
    exact hs.acceptor_calm hstep (hserver ▸ Calm.refl j _) (hsame hreplies)
  | decide _ _ _ _ _ _ _ _ _ hservers _ _ hreplies =>
    exact hs.acceptor_calm hstep (hservers v) (hsame hreplies)
  | learn u round je oe sid hcall hserver _ hreplies hproposals =>
    by_cases hvu : v = u
    · subst hvu
      obtain ⟨hj, hseen, hacc, hsid⟩ := onJetpackCommit_cases (s.server v) je oe sid
      unfold AcceptorInv
      rw [hserver, Function.update_self, hj, hseen, hacc]
      rcases hs.acceptor v with hout | ⟨hfloor, hle, hmax, hsource⟩
      · exact .inl hout
      · refine .inr ⟨hfloor, hle, fun p hp haccp => ?_, fun hlt => ?_⟩
        · exact hmax p (hproposals ▸ hp) (hsame hreplies p haccp)
        · rcases hsid with hsid | hsid
          · -- The committed set was chosen.
            obtain ⟨p, hp, hchosen, hvalue⟩ := hs.commitCall _ _ _ _ hcall
            exact .inr ⟨p, hstep.proposals_subset hp, chosen_step hstep hchosen, hvalue.trans hsid.symm⟩
          · rw [hsid]
            exact hs.source_step hstep (hsource hlt)
    · exact hs.acceptor_calm hstep (by rw [hserver, Function.update_of_ne hvu]; exact Calm.refl _ _)
        (hsame hreplies)

/-- A prepare reply given at this step reports what its replica remembers. -/
theorem RoundInv.answered_promise {s s' : System n} (hs : RoundInv j s) (h : RoundStep j s s')
    {v : Fin n} {oepoch : Epoch} {ballot : Int} (hok : (s.server v).ballotOk j oepoch ballot = true)
    (hserver : s'.server v = (s.server v).seeBallot ballot)
    (hacc : ∀ p, (s'.history j).accepted v p → (s.history j).accepted v p)
    (hproposals : s'.proposals = s.proposals) :
    (s'.history j).Answered (majority (Fin n)) (-1) ballot v (s.server v).commandPool.maxAcceptedBallot
      (s.server v).commandPool.sid := by
  obtain ⟨hin, -⟩ := ballotOk_cases hok
  rcases hs.acceptor v with hout | ⟨-, hle, hmax, hsource⟩
  · exact absurd hin (by bv_omega)
  · refine ⟨fun b hb => .inr ?_, fun p hp haccp _ => ?_, fun hlt => hs.source_step h (hsource hlt)⟩
    · rw [hserver]
      exact lt_of_lt_of_le hb (le_max_right _ _)
    · exact hmax p (hproposals ▸ hp) (hacc p haccp)

theorem RoundInv.prepareReply_new {s s' : System n} (hs : RoundInv j s) (h : RoundStep j s s')
    {round : Round n} {x : PrepareReply n} (hx : .prepare round x ∈ s'.replies) :
    .prepare round x ∈ s.replies ∨
      ∃ oepoch ballot, .prepare round j oepoch ballot ∈ s.calls ∧ s'.calls = s.calls ∧
        (x.ok = true → (s'.history j).Answered (majority (Fin n)) (-1) ballot x.site x.acceptedBallot
          x.sid) := by
  have hstep := h
  cases h with
  | promise v round' je oe ballot hcall hserver hreplies hcalls hproposals =>
    have hx' := hx
    rw [hreplies] at hx'
    rcases List.mem_append.mp hx' with hold | hnew
    · exact .inl hold
    · right
      simp only [List.mem_singleton, Reply.prepare.injEq] at hnew
      obtain ⟨rfl, rfl⟩ := hnew
      obtain ⟨rfl, -⟩ := hs.prepareCall _ _ _ _ hcall
      refine ⟨oe, ballot, hcall, hcalls, fun hok => ?_⟩
      refine hs.answered_promise hstep hok (by rw [hserver, Function.update_self]) ?_ hproposals
      rintro p ⟨y, hy, hrest⟩
      rw [hreplies] at hy
      rcases List.mem_append.mp hy with hold | hnew
      · exact ⟨y, hold, hrest⟩
      · simp at hnew
  | calm _ replies _ _ _ hreplies hreply =>
    rw [hreplies] at hx
    rcases List.mem_append.mp hx with hold | hnew
    · exact .inl hold
    · exact absurd (hreply _ hnew) (by simp [Reply.isBallot])
  | accept _ _ _ _ _ _ _ _ _ hreplies =>
    rw [hreplies] at hx
    rcases List.mem_append.mp hx with hold | hnew
    · exact .inl hold
    · simp at hnew
  | start _ _ _ _ _ _ _ _ _ hreplies => exact .inl (hreplies ▸ hx)
  | feedPrepare _ _ _ _ _ _ _ _ _ hreplies => exact .inl (hreplies ▸ hx)
  | propose _ _ _ _ _ _ _ _ _ _ _ _ _ _ _ _ _ hreplies => exact .inl (hreplies ▸ hx)
  | feedAccept _ _ _ _ _ _ _ _ _ _ _ hreplies => exact .inl (hreplies ▸ hx)
  | decide _ _ _ _ _ _ _ _ _ _ _ _ hreplies => exact .inl (hreplies ▸ hx)
  | learn _ _ _ _ _ _ _ _ hreplies => exact .inl (hreplies ▸ hx)

theorem RoundInv.prepareReply_step {s s' : System n} (hs : RoundInv j s) (h : RoundStep j s s')
    (hcalls : ∀ round jepoch oepoch b, .prepare round jepoch oepoch b ∈ s'.calls →
      .prepare round jepoch oepoch b ∈ s.calls ∨ s.runs round.1 < round.2)
    (round : Round n) (x : PrepareReply n) (hx : .prepare round x ∈ s'.replies) :
    round.2 ≤ s'.runs round.1 ∧
      (x.ok = true → ∀ jepoch oepoch b, .prepare round jepoch oepoch b ∈ s'.calls →
        (s'.history j).Answered (majority (Fin n)) (-1) b x.site x.acceptedBallot x.sid) := by
  rcases hs.prepareReply_new h hx with hold | ⟨oe, ballot, hcall, hsame, hanswer⟩
  · obtain ⟨hle, hanswer⟩ := hs.prepareReply _ x hold
    refine ⟨le_trans hle (h.runs_le _), fun hok je oe b hb => ?_⟩
    rcases hcalls _ _ _ _ hb with hb | hlt
    · exact hs.answered_step h (hanswer hok je oe b hb)
    · omega
  · refine ⟨le_trans (hs.prepareCall _ _ _ _ hcall).2 (h.runs_le _), fun hok je' oe' b hb => ?_⟩
    rw [hsame] at hb
    exact hs.prepare_unique _ _ _ _ _ _ _ hcall hb ▸ hanswer hok

theorem RoundInv.stage_keep {s s' : System n} (hs : RoundInv j s) (h : RoundStep j s s') {i : Fin n}
    (hround : s'.round i = s.round i)
    (hnew : ∀ p ∈ s'.proposals, p ∈ s.proposals ∨ p.round ≠ s.round i) {st : Stage n}
    (hst : StageInv j s i st) : StageInv j s' i st := by
  cases st with
  | one w =>
    obtain ⟨hproposals, ⟨je, oe, hcall⟩, hprepared, hcount, hfed⟩ := hst
    unfold StageInv
    rw [hround]
    refine ⟨fun p hp => ?_, ⟨je, oe, h.calls_subset hcall⟩, ?_, hcount,
      fun x hx => h.replies_subset (hfed x hx)⟩
    · rcases hnew p hp with hold | hne
      · exact hproposals p hold
      · exact hne
    · have hclosed := h.closed_mono hs (v := i) (b := w.prepared - 1)
        (hprepared.imp_right fun hle => by omega)
      exact hclosed.imp_right fun hlt => by omega
  | two w =>
    intro e he
    obtain ⟨⟨p, hp, hpround, hvalue⟩, hquorum, hvotes, hnodup, hfed⟩ := hst e he
    rw [hround]
    exact ⟨⟨p, h.proposals_subset hp, hpround, hvalue⟩, hquorum, hvotes, hnodup,
      fun x hx => h.replies_subset (hfed x hx)⟩
  | idle => trivial
  | resubmit _ _ => trivial
  | finish _ _ => trivial

theorem stageInv_of_calm {s : System n} {i : Fin n} {st st' : Stage n} (hst : StageInv j s i st)
    (hcalm : CalmStage st st') : StageInv j s i st' := by
  cases st' with
  | idle => trivial
  | resubmit _ _ => trivial
  | finish _ _ => trivial
  | one w' =>
    cases st with
    | one w =>
      obtain ⟨hprepared, hprepare, hfed⟩ := hcalm
      simp only [StageInv, hprepared, hprepare, hfed]
      exact hst
    | idle => exact absurd hcalm id
    | two _ => exact absurd hcalm id
    | resubmit _ _ => exact absurd hcalm id
    | finish _ _ => exact absurd hcalm id
  | two w' =>
    cases st with
    | two w =>
      obtain ⟨haccept, hfed, hsid⟩ := hcalm
      simp only [StageInv, haccept, hfed, hsid]
      exact hst
    | one w =>
      intro e he
      rw [show w'.accept = none from hcalm] at he
      cases he
    | idle => exact absurd hcalm id
    | resubmit _ _ => exact absurd hcalm id
    | finish _ _ => exact absurd hcalm id

theorem System.round_eq {s s' : System n} (hruns : s'.runs = s.runs) (i : Fin n) :
    s'.round i = s.round i := by
  simp only [System.round, hruns]

theorem JetpackAcceptQuorumEvent.feedResponse_cases (e : JetpackAcceptQuorumEvent)
    (x : AcceptReply n) :
    (e.feedResponse x.ok x.jepoch x.oepoch x.maxSeenBallot).quorum = e.quorum ∧
      (e.feedResponse x.ok x.jepoch x.oepoch x.maxSeenBallot).nVotedYes
        = e.nVotedYes + ([x].filter AcceptReply.ok).length := by
  unfold feedResponse
  cases hok : x.ok <;> simp [hok, QuorumEvent.voteYes, QuorumEvent.voteNo]

theorem RoundInv.stage_step {s s' : System n} (hs : RoundInv j s) (h : RoundStep j s s') (k : Fin n) :
    StageInv j s' k (s'.stage k) := by
  have hold := hs.stage k
  have hkeep : s'.runs = s.runs → s'.proposals = s.proposals → s'.stage k = s.stage k →
      StageInv j s' k (s'.stage k) := by
    intro hruns hproposals hstage
    rw [hstage]
    exact hs.stage_keep h (System.round_eq hruns k) (fun p hp => .inl (hproposals ▸ hp)) hold
  have hstep := h
  cases h with
  | calm _ _ _ _ _ _ _ hproposals hruns hstage =>
    refine stageInv_of_calm ?_ (hstage k)
    exact hs.stage_keep hstep (System.round_eq hruns k) (fun p hp => .inl (hproposals ▸ hp)) hold
  | start i w hidle hepoch hprepared hfed hcount hservers hcalls hreplies hproposals hruns hstage =>
    by_cases hki : k = i
    · subst hki
      rw [hstage, Function.update_self]
      have hround : s'.round k = (k, s.runs k + 1) := by simp [System.round, hruns]
      refine ⟨fun p hp heq => ?_, ⟨(s.server k).jepoch, (s.server k).oepoch, ?_⟩, ?_, ?_, ?_⟩
      · have hle := hs.proposal_round p (hproposals ▸ hp)
        rw [heq, hround] at hle
        exact absurd hle (by simp)
      · simp [hround, hcalls]
      · have hclosed := closed_of_calm (b := w.prepared - 1) (hservers k) (.inr (by omega))
        exact hclosed.imp_right fun hlt => by omega
      · rw [hcount, hfed]
        exact ⟨rfl, rfl, List.nodup_nil, fun x hx => absurd hx List.not_mem_nil, fun _ => rfl,
          fun h => (by cases h)⟩
      · rw [hfed]
        exact fun x hx => absurd hx List.not_mem_nil
    · rw [hstage, Function.update_of_ne hki]
      refine hs.stage_keep hstep ?_ (fun p hp => .inl (hproposals ▸ hp)) hold
      simp [System.round, hruns, hki]
  | promise _ _ _ _ _ _ _ _ _ hproposals hruns hstage =>
    exact hkeep hruns hproposals (congrFun hstage k)
  | accept _ _ _ _ _ _ _ _ _ _ _ hproposals hruns hstage =>
    exact hkeep hruns hproposals (congrFun hstage k)
  | learn _ _ _ _ _ _ _ _ _ hproposals hruns hstage =>
    exact hkeep hruns hproposals (congrFun hstage k)
  | feedPrepare i w x hone hreply hnew hstage _ _ hreplies hproposals hruns =>
    by_cases hki : k = i
    · subst hki
      rw [hone] at hold
      obtain ⟨hother, hcall, hprepared, hcount, hfed⟩ :=
        hs.stage_keep hstep (System.round_eq hruns k) (fun p hp => .inl (hproposals ▸ hp)) hold
      rw [hstage, Function.update_self]
      refine ⟨hother, hcall, hprepared, hcount.feed hnew, fun y hy => ?_⟩
      rcases List.mem_cons.mp hy with rfl | hy
      · rw [System.round_eq hruns, hreplies]
        exact hreply
      · exact hfed y hy
    · exact hkeep hruns hproposals (by rw [hstage, Function.update_of_ne hki])
  | feedAccept i w e x htwo he hreply hnew hstage _ _ hreplies hproposals hruns =>
    by_cases hki : k = i
    · subst hki
      rw [htwo] at hold
      obtain ⟨hproposal, hquorum, hvotes, hnodup, hfed⟩ := hold e he
      rw [hstage, Function.update_self]
      intro e' he'
      obtain rfl := Option.some.inj he'
      obtain ⟨hq, hv⟩ := e.feedResponse_cases x
      rw [System.round_eq hruns, hproposals, hreplies]
      refine ⟨hproposal, hq.trans hquorum, ?_, List.nodup_cons.mpr ⟨hnew, hnodup⟩, fun y hy => ?_⟩
      · rw [hv, hvotes, List.filter_cons, List.filter_cons]
        split <;> simp [Nat.add_comm]
      · rcases List.mem_cons.mp hy with rfl | hy
        · exact hreply
        · exact hfed y hy
    · exact hkeep hruns hproposals (by rw [hstage, Function.update_of_ne hki])
  | propose i w w' sid record _ _ _ _ _ _ _ haccept hfed _ _ hproposals _ hruns hstage =>
    by_cases hki : k = i
    · subst hki
      rw [hstage, Function.update_self]
      intro e he
      rw [haccept] at he
      obtain rfl := Option.some.inj he
      rw [System.round_eq hruns, hfed]
      refine ⟨⟨_, by rw [hproposals]; exact List.mem_append_right _ List.mem_cons_self, rfl, rfl⟩, rfl, rfl,
        List.nodup_nil, fun x hx => absurd hx List.not_mem_nil⟩
    · rw [hstage, Function.update_of_ne hki]
      refine hs.stage_keep hstep (System.round_eq hruns k) (fun p hp => ?_) hold
      rw [hproposals] at hp
      rcases List.mem_append.mp hp with hp | hp
      · exact .inl hp
      · obtain rfl := List.mem_singleton.mp hp
        exact .inr fun heq => hki (congrArg Prod.fst heq).symm
  | decide i w e _ _ _ _ _ _ _ _ _ _ hproposals hruns hstage hdone =>
    by_cases hki : k = i
    · subst hki
      have hidle : StageInv j s' k .idle := trivial
      exact stageInv_of_calm hidle hdone
    · exact hkeep hruns hproposals (hstage k hki)

theorem RoundStep.prepareCall_new {s s' : System n} (h : RoundStep j s s') {round : Round n}
    {jepoch oepoch : Epoch} {b : Int} (hc : .prepare round jepoch oepoch b ∈ s'.calls) :
    .prepare round jepoch oepoch b ∈ s.calls ∨
      (jepoch = j ∧ s.runs round.1 < round.2 ∧ round.2 ≤ s'.runs round.1) := by
  rcases h.call_new hc with hold | hnot | ⟨i, b', -, hruns, heq⟩ | ⟨p, -, oe, heq⟩ |
    ⟨_, _, _, -, -, -, _, _, heq⟩
  · exact .inl hold
  · cases hnot
  · simp only [Call.prepare.injEq] at heq
    obtain ⟨rfl, rfl, -, -⟩ := heq
    exact .inr ⟨rfl, Nat.lt_succ_self _, le_of_eq hruns.symm⟩
  · cases heq
  · cases heq

theorem RoundStep.prepare_unique {s s' : System n} (h : RoundStep j s s') {round : Round n}
    {je oe je' oe' : Epoch} {b b' : Int} (hlt : s.runs round.1 < round.2)
    (hc : .prepare round je oe b ∈ s'.calls) (hc' : .prepare round je' oe' b' ∈ s'.calls)
    (hs : RoundInv j s) : b = b' := by
  have hfresh : ∀ je oe b, Call.prepare round je oe b ∉ s.calls := by
    intro je oe b hmem
    have hle := (hs.prepareCall _ _ _ _ hmem).2
    omega
  have hnot : ∀ je oe b, Call.prepare round je oe b ∈ s'.calls → s'.calls ≠ s.calls :=
    fun je oe b hmem heq => hfresh je oe b (heq ▸ hmem)
  cases h with
  | start i w _ _ _ _ _ _ hcalls =>
    have hnew : ∀ je oe b, Call.prepare round je oe b ∈ s'.calls → b = w.prepared := by
      intro je oe b hmem
      rw [hcalls] at hmem
      rcases List.mem_append.mp hmem with hold | hnew
      · exact absurd hold (hfresh je oe b)
      · simp only [List.mem_cons, reduceCtorEq, Call.prepare.injEq, List.not_mem_nil, or_false,
          false_or] at hnew
        exact hnew.2.2.2
    exact (hnew _ _ _ hc).trans (hnew _ _ _ hc').symm
  | calm calls _ _ hcalls hcall =>
    rw [hcalls] at hc
    rcases List.mem_append.mp hc with hold | hnew
    · exact absurd hold (hfresh _ _ _)
    · exact absurd (hcall _ hnew) (by simp [Call.isBallot])
  | propose _ _ _ _ record _ _ _ _ _ hrecord _ _ _ _ hcalls =>
    rw [hcalls] at hc
    rcases List.mem_append.mp hc with hold | hnew
    · exact absurd hold (hfresh _ _ _)
    · simp only [List.mem_cons, reduceCtorEq, List.not_mem_nil, or_false] at hnew
      subst hnew
      cases hrecord
  | decide _ _ _ _ _ calls _ _ _ _ hcalls hcall =>
    rw [hcalls] at hc
    rcases List.mem_append.mp hc with hold | hnew
    · exact absurd hold (hfresh _ _ _)
    · rcases List.mem_cons.mp hnew with heq | hnew
      · cases heq
      · exact absurd (hcall _ hnew) (by simp [Call.isBallot])
  | promise _ _ _ _ _ _ _ _ hcalls => exact absurd hcalls (hnot _ _ _ hc)
  | feedPrepare _ _ _ _ _ _ _ _ hcalls => exact absurd hcalls (hnot _ _ _ hc)
  | accept _ _ _ _ _ _ _ _ _ _ hcalls => exact absurd hcalls (hnot _ _ _ hc)
  | feedAccept _ _ _ _ _ _ _ _ _ _ hcalls => exact absurd hcalls (hnot _ _ _ hc)
  | learn _ _ _ _ _ _ _ hcalls => exact absurd hcalls (hnot _ _ _ hc)

/-- A new proposal is the only one of its run and is above the lowest ballot. -/
theorem RoundInv.proposal_new {s s' : System n} (hs : RoundInv j s) (h : RoundStep j s s')
    {p : Proposal (Round n) Int} (hp : p ∈ s'.proposals) :
    p ∈ s.proposals ∨ (-1 < p.ballot ∧ p.round.2 ≤ s'.runs p.round.1 ∧
      ∀ p' ∈ s'.proposals, p.round = p'.round → p = p') := by
  rcases h.history_cases hs with hgrows | ⟨i, w, w', sid, hone, -, hepoch, -, -, new, hnew, -, hproposals,
    hruns, -, -⟩
  · exact .inl (hgrows.proposed.mp hp)
  · rw [hproposals] at hp
    rcases List.mem_append.mp hp with hold | hlast
    · exact .inl hold
    · right
      obtain rfl := List.mem_singleton.mp hlast
      have hstage := hs.stage i
      rw [hone] at hstage
      refine ⟨?_, ?_, fun p' hp' hround => ?_⟩
      · rcases hs.acceptor i with hout | ⟨hfloor, -⟩
        · exact absurd hout (by rw [hepoch]; exact BitVec.lt_irrefl j)
        · rw [hnew]
          dsimp only
          omega
      · rw [hnew, hruns]
        exact le_refl _
      · rw [hproposals] at hp'
        rcases List.mem_append.mp hp' with hold | hlast'
        · exact absurd (hround.symm.trans (congrArg Proposal.round hnew)) (hstage.1 p' hold)
        · exact (List.mem_singleton.mp hlast').symm

theorem RoundStep.acceptReply_new {s s' : System n} (hs : RoundInv j s) (h : RoundStep j s s')
    {round : Round n} {x : AcceptReply n} (hx : .accept round x ∈ s'.replies) :
    ∃ p ∈ s'.proposals, p.round = round := by
  have hold : .accept round x ∈ s.replies → ∃ p ∈ s'.proposals, p.round = round := by
    intro hmem
    obtain ⟨p, hp, hround⟩ := hs.acceptReply _ x hmem
    exact ⟨p, h.proposals_subset hp, hround⟩
  have hstep := h
  cases h with
  | calm _ replies _ _ _ hreplies hreply =>
    rw [hreplies] at hx
    rcases List.mem_append.mp hx with hmem | hnew
    · exact hold hmem
    · exact absurd (hreply _ hnew) (by simp [Reply.isBallot])
  | promise _ _ _ _ _ _ _ hreplies =>
    rw [hreplies] at hx
    rcases List.mem_append.mp hx with hmem | hnew
    · exact hold hmem
    · simp at hnew
  | accept _ round' _ _ _ _ _ hcall _ hreplies =>
    rw [hreplies] at hx
    rcases List.mem_append.mp hx with hmem | hnew
    · exact hold hmem
    · simp only [List.mem_singleton, Reply.accept.injEq] at hnew
      obtain ⟨-, p, hp, hround, -⟩ := hs.acceptCall _ _ _ _ _ hcall
      exact ⟨p, hstep.proposals_subset hp, hround.trans hnew.1.symm⟩
  | start _ _ _ _ _ _ _ _ _ hreplies => exact hold (hreplies ▸ hx)
  | feedPrepare _ _ _ _ _ _ _ _ _ hreplies => exact hold (hreplies ▸ hx)
  | propose _ _ _ _ _ _ _ _ _ _ _ _ _ _ _ _ _ hreplies => exact hold (hreplies ▸ hx)
  | feedAccept _ _ _ _ _ _ _ _ _ _ _ hreplies => exact hold (hreplies ▸ hx)
  | decide _ _ _ _ _ _ _ _ _ _ _ _ hreplies => exact hold (hreplies ▸ hx)
  | learn _ _ _ _ _ _ _ _ hreplies => exact hold (hreplies ▸ hx)

theorem RoundInv.step {s s' : System n} (hs : RoundInv j s) (h : RoundStep j s s') : RoundInv j s' where
  jepoch_le := h.jepoch_le hs
  safe := hs.safe_step h
  ballot_nonneg p hp := by
    rcases hs.proposal_new h hp with hold | ⟨hpos, -⟩
    · exact hs.ballot_nonneg p hold
    · exact hpos
  round_unique p hp p' hp' hround := by
    rcases hs.proposal_new h hp with hold | ⟨-, -, hunique⟩
    · rcases hs.proposal_new h hp' with hold' | ⟨-, -, hunique⟩
      · exact hs.round_unique p hold p' hold' hround
      · exact (hunique p hp hround.symm).symm
    · exact hunique p' hp' hround
  proposal_round p hp := by
    rcases hs.proposal_new h hp with hold | ⟨-, hle, -⟩
    · exact le_trans (hs.proposal_round p hold) (h.runs_le _)
    · exact hle
  prepareCall round jepoch oepoch b hc := by
    rcases h.prepareCall_new hc with hold | ⟨hj, -, hle⟩
    · obtain ⟨hj, hle⟩ := hs.prepareCall _ _ _ _ hold
      exact ⟨hj, le_trans hle (h.runs_le _)⟩
    · exact ⟨hj, hle⟩
  prepare_unique round je oe b je' oe' b' hc hc' := by
    rcases h.prepareCall_new hc with hold | ⟨-, hlt, -⟩
    · rcases h.prepareCall_new hc' with hold' | ⟨-, hlt, -⟩
      · exact hs.prepare_unique _ _ _ _ _ _ _ hold hold'
      · exact h.prepare_unique hlt hc hc' hs
    · exact h.prepare_unique hlt hc hc' hs
  acceptCall round jepoch oepoch b x hc := by
    rcases h.call_new hc with hold | hnot | ⟨_, _, -, -, heq⟩ | ⟨p, hp, oe, heq⟩ |
      ⟨_, _, _, -, -, -, _, _, heq⟩
    · obtain ⟨hj, p, hp, hrest⟩ := hs.acceptCall _ _ _ _ _ hold
      exact ⟨hj, p, h.proposals_subset hp, hrest⟩
    · cases hnot
    · cases heq
    · simp only [Call.accept.injEq] at heq
      exact ⟨heq.2.1, p, hp, heq.1.symm, heq.2.2.2.1.symm, heq.2.2.2.2.symm⟩
    · cases heq
  commitCall round jepoch oepoch x hc := by
    rcases h.call_new hc with hold | hnot | ⟨_, _, -, -, heq⟩ | ⟨_, _, _, heq⟩ |
      ⟨i, w, e, htwo, he, hyes, _, _, heq⟩
    · obtain ⟨p, hp, hchosen, hvalue⟩ := hs.commitCall _ _ _ _ hold
      exact ⟨p, h.proposals_subset hp, chosen_step h hchosen, hvalue⟩
    · cases hnot
    · cases heq
    · cases heq
    · simp only [Call.commit.injEq] at heq
      obtain ⟨p, hp, hchosen, hvalue⟩ := hs.chosen_of_yes htwo he hyes
      exact ⟨p, h.proposals_subset hp, chosen_step h hchosen, hvalue.trans heq.2.2.2.symm⟩
  prepareReply := hs.prepareReply_step h fun round jepoch oepoch b hc =>
    (h.prepareCall_new hc).imp_right fun hnew => hnew.2.1
  acceptReply round x hx := h.acceptReply_new hs hx
  acceptor := hs.acceptor_step h
  stage := hs.stage_step h

theorem roundInv_of_reachable {o : Epoch} {s : System n}
    (h : ReachableWhere System.step (BallotsApart j) (System.init j o) s) : RoundInv j s :=
  h.invariant (I := RoundInv j)
    (fun _ _ _ hs hok he => hs.step (roundStep_of_step hs.jepoch_le hok he)) (roundInv_init j o)

/-- All coordinators that reach `JetpackCommit` in one epoch commit the same set, in every run in which
the ballots of different sets stay apart. -/
theorem recovered_set_agreement {o : Epoch} {s : System n}
    (h : ReachableWhere System.step (BallotsApart j) (System.init j o) s) {round round' : Round n}
    {jepoch oepoch : Epoch} {sid sid' : Int} (hc : .commit round jepoch oepoch sid ∈ s.calls)
    (hc' : .commit round' jepoch oepoch sid' ∈ s.calls) : sid = sid' := by
  have hs := roundInv_of_reachable h
  obtain ⟨p, hp, hchosen, hvalue⟩ := hs.commitCall _ _ _ _ hc
  obtain ⟨p', hp', hchosen', hvalue'⟩ := hs.commitCall _ _ _ _ hc'
  rw [← hvalue, ← hvalue']
  exact hs.safe.agree hp hp' hchosen hchosen'

/-- Coordinator `a` commits its set, and coordinator `b` adopts it in a later round. -/
def oneAfterTheOther (a b c : Fin n) : List (Event n) :=
  [.startRecovery a, .deliver a 0, .deliver c 0, .deliver a 1, .deliver c 1,
   .feed 0, .feed 1, .feed 2, .feed 3, .roundOneDone a,
   .deliver a 2, .deliver c 2, .deliver a 3, .deliver c 3,
   .feed 4, .feed 5, .feed 6, .feed 7, .deliver b 3, .roundTwoDone a,
   .startRecovery b, .deliver b 6, .deliver c 6, .deliver b 7, .deliver c 7,
   .feed 9, .feed 10, .feed 11, .feed 12, .roundOneDone b,
   .deliver b 8, .deliver c 8, .deliver b 9, .deliver c 9,
   .feed 13, .feed 14, .feed 15, .feed 16, .roundTwoDone b]

theorem recovered_set_agreement_adopted :
    ∃ s : System 3, ReachableWhere System.step (BallotsApart 0) (System.init 0 0) s ∧
      ∃ sid sid', .commit (0, 1) 0 0 sid ∈ s.calls ∧ .commit (1, 1) 0 0 sid' ∈ s.calls ∧ sid = sid' := by
  have hrun : (runWhere System.step (BallotsApart 0) (System.init 0 0) (oneAfterTheOther (n := 3) 0 1 2)).any
      (fun s => decide (Call.commit (0, 1) 0 0 0 ∈ s.calls) &&
        decide (Call.commit (1, 1) 0 0 0 ∈ s.calls)) = true := by decide +kernel
  obtain ⟨s, hreach, hcommits⟩ := exists_reachableWhere hrun
  simp only [Bool.and_eq_true, decide_eq_true_eq] at hcommits
  exact ⟨s, hreach, 0, 0, hcommits.1, hcommits.2,
    recovered_set_agreement hreach hcommits.1 hcommits.2⟩

/-- Both coordinators prepare ballot -1 and go on to ballot 0, at which `c` accepts both sets. -/
def sameBallotTwice (a b c : Fin n) : List (Event n) :=
  [.startRecovery a, .startRecovery b,
   .deliver a 0, .deliver c 0, .deliver a 1, .deliver c 1,
   .deliver b 2, .deliver c 2, .deliver b 3, .deliver c 3,
   .feed 0, .feed 1, .feed 2, .feed 3, .feed 4, .feed 5, .feed 6, .feed 7,
   .roundOneDone a, .roundOneDone b,
   .deliver a 4, .deliver c 4, .deliver a 5, .deliver c 5,
   .deliver b 6, .deliver c 6, .deliver b 7, .deliver c 7,
   .feed 8, .feed 9, .feed 10, .feed 11, .feed 12, .feed 13, .feed 14, .feed 15,
   .roundTwoDone a, .roundTwoDone b]

theorem two_recovered_sets_committed :
    ¬ ∀ s : System 3, Reachable System.step (System.init 0 0) s →
      ∀ (round round' : Round 3) (jepoch oepoch : Epoch) (sid sid' : Int),
        .commit round jepoch oepoch sid ∈ s.calls → .commit round' jepoch oepoch sid' ∈ s.calls →
        sid = sid' := by
  intro hagree
  have hrun : (runWhere System.step (fun _ _ => True) (System.init 0 0) (sameBallotTwice (n := 3) 0 1 2)).any
      (fun s => decide (Call.commit (0, 1) 0 0 0 ∈ s.calls) &&
        decide (Call.commit (1, 1) 0 0 1 ∈ s.calls)) = true := by decide +kernel
  obtain ⟨s, hreach, hcommits⟩ := exists_reachableWhere hrun
  simp only [Bool.and_eq_true, decide_eq_true_eq] at hcommits
  exact absurd (hagree s hreach _ _ _ _ _ _ hcommits.1 hcommits.2) (by decide)

end Jetpack.Recovery
