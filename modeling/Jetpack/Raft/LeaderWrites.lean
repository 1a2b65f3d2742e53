import Jetpack.Raft.LeaderLogs

/-! The steps that write a log: a candidate is elected with its own, a leader appends to the log of its
term, and a follower takes it over. -/

namespace Jetpack.Raft

open Leadership QuorumVoting Transition

variable {n : Nat} {α : Type}

namespace Partition

theorem Inv.reign_none {r : Partition n α} (h : r.Inv) {i : Fin n} {w : Voting n}
    (hw : (r.system.server i).voting = some w) (hyes : w.event.yes = true) :
    r.chronicle.reign w.term = none := by
  cases hR : r.chronicle.reign w.term with
  | none => rfl
  | some R =>
    have helected := (h.election.counting i w hw).elected hyes
    have hsame := h.election.wellFormed.elected_unique (h.reigned _ R hR).1 helected
    exact absurd hsame ((h.voting i w hw).2 R hR)

/-- Server `i` writes, in term `t`, to its log or to the record of what it agreed on, and the log of the
leader of that term may grow. -/
structure Grown (r r' : Partition n α) (i : Fin n) (t : Nat) : Prop where
  others : ∀ j, j ≠ i → r'.system.server j = r.system.server j
  histories : ∀ j, j ≠ i → r'.history j = r.history j
  voteRequests : r'.system.voteRequests = r.system.voteRequests
  voteReplies : r'.system.voteReplies = r.system.voteReplies
  term : (r'.system.server i).currentTerm = t
  grows : r.chronicle.Grows r'.chronicle
  acked : ∀ v u, ¬ (v = i ∧ u = t) → r'.chronicle.acked v u = r.chronicle.acked v u
  reigns : ∀ u, u ≠ t → r'.chronicle.reign u = r.chronicle.reign u
  present : ∃ R, r'.chronicle.reign t = some R
  sound : r'.chronicle.Sound RaftData.term
  leaders : ∀ j, j ≠ i → (r.system.server j).isLeader = true →
    (r.system.server j).currentTerm = t → r'.chronicle.reign t = r.chronicle.reign t

structure Founded (r r' : Partition n α) (i : Fin n) (t : Nat) (R : Reign (Fin n) (RaftData α)) :
    Prop where
  leader : R.leader = i
  voting : (r'.system.server i).voting = none
  elected : ∃ Q, (majority (Fin n)).IsQuorum Q ∧ ∀ v ∈ Q, (ballots r.system).vote v t i ∧
    r.chronicle.Backs RaftData.term v t R.log R.start

theorem Grown.reign_cases {r r' : Partition n α} {i : Fin n} {t : Nat} (hg : Grown r r' i t)
    (hnew : r.chronicle.reign t = none → ∀ R, r'.chronicle.reign t = some R →
      Founded r r' i t R) {u : Nat} {R' : Reign (Fin n) (RaftData α)}
    (hR' : r'.chronicle.reign u = some R') :
    (∃ R, r.chronicle.reign u = some R ∧ R.Extends R') ∨ (u = t ∧ Founded r r' i t R') := by
  cases hR : r.chronicle.reign u with
  | none =>
    by_cases hut : u = t
    · subst hut
      exact .inr ⟨rfl, hnew hR R' hR'⟩
    · rw [hg.reigns u hut, hR] at hR'
      cases hR'
  | some R =>
    obtain ⟨R'', hR'', hext⟩ := hg.grows.reign hR
    rw [hR'] at hR''
    obtain rfl := Option.some.inj hR''
    exact .inl ⟨R, rfl, hext⟩

/-- The other leaders go on as before. -/
theorem Grown.leads {r r' : Partition n α} {i j : Fin n} {t : Nat} (hg : Grown r r' i t)
    (hj : j ≠ i) (hjl : (r.system.server j).isLeader = true) {R : Reign (Fin n) (RaftData α)}
    (hR : r.Leads j R) : r'.Leads j R := by
  refine ⟨?_, hR.leader, ?_, ?_, ?_⟩
  · rw [hg.others j hj, ← hR.reign]
    by_cases hjt : (r.system.server j).currentTerm = t
    · rw [hjt]
      exact hg.leaders j hj hjl hjt
    · exact hg.reigns _ hjt
  · rw [hg.others j hj]
    exact hR.last
  · rw [hg.histories j hj]
    exact hR.agrees
  · rw [hg.others j hj, hg.acked j _ fun hh => hj hh.1]
    exact hR.acked

/-- The server that writes does not wait for votes in its term any more. -/
theorem Grown.candidate_ne {r r' : Partition n α} {i j : Fin n} {t : Nat} (hg : Grown r r' i t)
    {w : Voting n} (hcur : (r'.system.server j).currentTerm = w.term)
    (hnone : r'.chronicle.reign w.term = none) : j ≠ i := by
  rintro rfl
  obtain ⟨R, hR⟩ := hg.present
  rw [hg.term] at hcur
  rw [← hcur, hR] at hnone
  cases hnone

theorem Inv.grow {r r' : Partition n α} {e : Event n α} {i : Fin n} {t : Nat} (h : r.Inv)
    (hok : LeaderYields r.system e) (hsystem : r.system.step e = some r'.system)
    (hg : Grown r r' i t)
    (hrecorded : ∀ j, (r'.system.server i).minActiveSlot ≤ j →
      (r'.system.server i).raftLogs j = r'.history i j)
    (hfollows : r'.chronicle.Follows RaftData.term (r'.history i) (r'.system.server i).lastLogIndex)
    (holder : ∀ j, 0 < j → j ≤ (r'.system.server i).lastLogIndex → (r'.history i j).term ≤ t)
    (hleads : (r'.system.server i).isLeader = true → ∃ R, r'.Leads i R)
    (hkeeps : r'.chronicle.Keeps i (t + 1) (r'.history i) (r'.system.server i).lastLogIndex)
    (hnew : r.chronicle.reign t = none → ∀ R, r'.chronicle.reign t = some R →
      Founded r r' i t R) : r'.Inv := by
  have hstep := electionStep_of_step hsystem
  have hcur := hstep.term_le
  have hacked : ∀ v u, u < (r.system.server v).currentTerm →
      r'.chronicle.acked v u = r.chronicle.acked v u := by
    refine fun v u hlt => hg.acked v u ?_
    rintro ⟨rfl, rfl⟩
    have hle := hcur v
    rw [hg.term] at hle
    omega
  constructor
  case election => exact h.election.step hok hsystem
  case asked => exact h.asked.step hstep
  case slots => exact slotInv_step h.slots hsystem
  case recorded =>
    intro j
    by_cases hj : j = i
    · rw [hj]
      exact hrecorded
    · rw [hg.others j hj, hg.histories j hj]
      exact h.recorded j
  case sound => exact hg.sound
  case follows =>
    intro j
    by_cases hj : j = i
    · rw [hj]
      exact hfollows
    · rw [hg.others j hj, hg.histories j hj]
      exact (h.follows j).grows hg.grows
  case older =>
    intro j
    by_cases hj : j = i
    · rw [hj, hg.term]
      exact holder
    · rw [hg.others j hj, hg.histories j hj]
      exact h.older j
  case leads =>
    intro j hjl
    by_cases hj : j = i
    · rw [hj] at hjl ⊢
      exact hleads hjl
    · rw [hg.others j hj] at hjl
      obtain ⟨R, hR⟩ := h.leads j hjl
      exact ⟨R, hg.leads hj hjl hR⟩
  case reigned =>
    intro u R' hR'
    obtain ⟨R, hR, hext⟩ | ⟨rfl, hf⟩ := hg.reign_cases hnew hR'
    · rw [hext.leader]
      exact h.reigned_step hstep hR
    · obtain ⟨Q, hQ, hvotes⟩ := hf.elected
      have helected : (ballots r.system).Elected (majority (Fin n)) i u :=
        ⟨Q, hQ, fun v hv => (hvotes v hv).1⟩
      rw [hf.leader]
      exact ⟨helected.grows hstep.ballots_grows, hg.term.ge⟩
  case voting =>
    refine h.voting_step hstep fun u R' hR' => ?_
    obtain ⟨R, hR, hext⟩ | ⟨-, hf⟩ := hg.reign_cases hnew hR'
    · exact .inl ⟨R, hR, hext.leader⟩
    · right
      rw [hf.leader]
      exact hf.voting
  case acked =>
    intro j u hpos
    by_cases hsame : j = i ∧ u = t
    · obtain ⟨rfl, rfl⟩ := hsame
      exact hg.term.ge
    · rw [hg.acked j u hsame] at hpos
      exact (h.acked j u hpos).trans (hcur j)
  case keeps =>
    intro j
    by_cases hj : j = i
    · rw [hj, hg.term]
      exact hkeeps
    · rw [hg.others j hj, hg.histories j hj]
      exact (h.keeps j).grows h.sound hg.grows fun u _ => hg.acked j u fun hh => hj hh.1
  case candidate =>
    intro j w hw hcur' hnone
    have hj : j ≠ i := hg.candidate_ne hcur' hnone
    have hold : (r.system.server j).voting = some w := by
      rw [← hg.others j hj]
      exact hw
    exact h.candidate_still hold rfl (hcur j) hcur' hnone (hg.histories j hj)
      (by rw [hg.others j hj]) hg.voteRequests hg.voteReplies hg.grows hacked
  case backed =>
    intro u R' hR'
    obtain ⟨R, hR, hext⟩ | ⟨rfl, hf⟩ := hg.reign_cases hnew hR'
    · exact h.backed_step hstep hg.grows hacked hR hext
    · obtain ⟨Q, hQ, hvotes⟩ := hf.elected
      refine ⟨Q, hQ, fun v hv => ?_⟩
      obtain ⟨hvote, hback⟩ := hvotes v hv
      refine ⟨(h.election.wellFormed.vote_le hvote).trans (hcur v), ?_⟩
      exact hback.grows h.sound hg.grows fun u' hlt => hg.acked v u' (by rintro ⟨-, rfl⟩; omega)

theorem Inv.elect {r : Partition n α} {e : Event n α} {system : System n α} {i : Fin n} {w : Voting n}
    {q : RaftServer n α} (h : r.Inv) (hok : LeaderYields r.system e)
    (hsystem : r.system.step e = some system) (hw : (r.system.server i).voting = some w)
    (hyes : w.event.yes = true) (hterm : (r.system.server i).currentTerm = w.term)
    (hserver : system.server = Function.update r.system.server i q)
    (hq : (r.system.server i).SameLog q) (hqterm : q.currentTerm = (r.system.server i).currentTerm)
    (hqvoting : q.voting = none) (hreq : system.voteRequests = r.system.voteRequests)
    (hrep : system.voteReplies = r.system.voteReplies) :
    Grown r (r.elected i system) i w.term ∧ (r.elected i system).Inv := by
  have hself : system.server i = q := by rw [hserver, Function.update_self]
  have hnone : r.chronicle.reign w.term = none := h.reign_none hw hyes
  have hcand := h.candidate i w hw hterm hnone
  obtain ⟨R₀, hR₀⟩ : ∃ R, R = (⟨i, r.history i, (r.system.server i).lastLogIndex,
    (r.system.server i).lastLogIndex⟩ : Reign (Fin n) (RaftData α)) := ⟨_, rfl⟩
  have hlast₀ : R₀.last = (r.system.server i).lastLogIndex := by rw [hR₀]
  have hlog₀ : R₀.log = r.history i := by rw [hR₀]
  have hchronicle : (r.elected i system).chronicle =
      (r.chronicle.put w.term R₀).ack i w.term R₀.last := by
    rw [hR₀, ← hterm]
    rfl
  have hlast : (system.server i).lastLogIndex = R₀.last := by rw [hself, hq.lastLogIndex, hlast₀]
  have hterm' : (system.server i).currentTerm = w.term := by rw [hself, hqterm, hterm]
  have hput : (r.elected i system).chronicle.reign w.term = some R₀ := by
    rw [hchronicle]
    exact Chronicle.put_self _ w.term R₀
  have hackedSelf : (r.elected i system).chronicle.acked i w.term = R₀.last := by
    rw [hchronicle, Chronicle.ack_self]
    exact max_eq_right ((h.sound.acked_none hnone).le.trans (Nat.zero_le _))
  have hg : Grown r (r.elected i system) i w.term := by
    constructor
    case others =>
      intro j hj
      change system.server j = _
      rw [hserver, Function.update_of_ne hj]
    case histories => exact fun j _ => rfl
    case voteRequests => exact hreq
    case voteReplies => exact hrep
    case term => exact hterm'
    case grows =>
      rw [hchronicle]
      exact (Chronicle.grows_put_new R₀ hnone).trans (Chronicle.grows_ack _ i w.term _)
    case acked =>
      intro v u hne
      rw [hchronicle]
      exact Chronicle.ack_of_ne _ _ hne
    case reigns =>
      intro u hu
      rw [hchronicle]
      exact Chronicle.put_of_ne _ R₀ hu
    case present => exact ⟨R₀, hput⟩
    case sound =>
      rw [hchronicle]
      have helect : (r.chronicle.put w.term R₀).Sound RaftData.term := by
        refine h.sound.elect hnone (by rw [hR₀]) ?_ ?_
        · rw [hlog₀, hlast₀]
          exact h.follows i
        · rw [hlog₀, hlast₀]
          exact hcand.older
      exact helect.ack (Chronicle.put_self _ w.term R₀) (le_refl _)
    case leaders =>
      intro j _ hj hjt
      obtain ⟨R, hR⟩ := h.leads j hj
      have hsome := hR.reign
      rw [hjt, hnone] at hsome
      cases hsome
  have hfollows : (r.elected i system).chronicle.Follows RaftData.term (r.history i) R₀.last := by
    rw [hlast₀]
    exact (h.follows i).grows hg.grows
  refine ⟨hg, h.grow hok hsystem hg ?_ ?_ ?_ ?_ ?_ ?_⟩
  · intro j hj
    change (system.server i).minActiveSlot ≤ j at hj
    change (system.server i).raftLogs j = r.history i j
    rw [hself] at hj ⊢
    obtain ⟨hmin, hlog⟩ := hq.logs j hj
    exact hlog.trans (h.recorded i j hmin)
  · change (r.elected i system).chronicle.Follows RaftData.term (r.history i)
      (system.server i).lastLogIndex
    rw [hlast]
    exact hfollows
  · intro j hpos hj
    change j ≤ (system.server i).lastLogIndex at hj
    rw [hlast, hlast₀] at hj
    exact (hcand.older j hpos hj).le
  · intro _
    refine ⟨R₀, ?_, by rw [hR₀], hlast.symm, ?_, ?_⟩
    · change (r.elected i system).chronicle.reign (system.server i).currentTerm = _
      rw [hterm']
      exact hput
    · rw [hlog₀]
      exact fun _ _ _ => rfl
    · change (r.elected i system).chronicle.acked i (system.server i).currentTerm = _
      rw [hterm']
      exact hackedSelf
  · intro u R k hlt hR hk hspared
    change Holds (r.history i) (system.server i).lastLogIndex R.log k
    rw [hlast]
    by_cases hu : u = w.term
    · subst hu
      rw [hput] at hR
      obtain rfl := Option.some.inj hR
      rw [hackedSelf] at hk
      rw [hlog₀]
      exact ⟨hk, fun _ _ _ => rfl⟩
    · rw [hg.acked i u fun hh => hu hh.2] at hk
      rw [← hterm] at hlt hspared
      rw [hlast₀]
      exact (h.keeps i).holds_of_grows h.sound hg.grows hlt hR hk hspared
  · intro _ R hR
    rw [hput] at hR
    obtain rfl := Option.some.inj hR
    obtain ⟨Q, hQ, hvotes⟩ := (h.election.counting i w hw).elected hyes
    refine ⟨by rw [hR₀], ?_, Q, hQ, fun v hv => ⟨hvotes v hv, ?_⟩⟩
    · change (system.server i).voting = none
      rw [hself, hqvoting]
    · have hstart : R₀.start = (r.system.server i).lastLogIndex := by rw [hR₀]
      rw [hlog₀, hstart]
      exact hcand.backed v (hvotes v hv)

/-- The leader of reign `R` has appended `e` to its log. -/
structure Appends (r r' : Partition n α) (i : Fin n) (t : Nat) (R : Reign (Fin n) (RaftData α))
    (e : RaftData α) : Prop where
  others : ∀ j, j ≠ i → r'.system.server j = r.system.server j
  histories : ∀ j, j ≠ i → r'.history j = r.history j
  voteRequests : r'.system.voteRequests = r.system.voteRequests
  voteReplies : r'.system.voteReplies = r.system.voteReplies
  chronicle : r'.chronicle = (r.chronicle.put t (R.append e)).ack i t (R.append e).last
  history : r'.history i = Function.update (r.history i) (R.last + 1) e
  term : (r'.system.server i).currentTerm = t
  last : (r'.system.server i).lastLogIndex = (R.append e).last
  minActiveSlot : (r'.system.server i).minActiveSlot = (r.system.server i).minActiveSlot
  raftLogs : (r'.system.server i).raftLogs =
    Function.update (r.system.server i).raftLogs (R.last + 1) e

theorem appends_start {r : Partition n α} {system : System n α} {i : Fin n} {cmd : α}
    {R : Reign (Fin n) (RaftData α)} (hsystem : r.system.step (.start i cmd) = some system)
    (hl : (r.system.server i).isLeader = true) (hR : r.Leads i R) :
    Appends r (r.appended i cmd system) i (r.system.server i).currentTerm R
      ⟨(r.system.server i).currentTerm, some cmd⟩ := by
  obtain ⟨q, hq, hset⟩ := Option.bind_eq_some_iff.mp hsystem
  have hserver : system.server = Function.update r.system.server i q := by
    cases hset
    rfl
  rw [RaftServer.start_eq, if_pos hl] at hq
  obtain ⟨hq, -⟩ := RaftServer.storeBatch_eq hq
  have hself : (r.appended i cmd system).system.server i = q := by
    change system.server i = q
    rw [hserver, Function.update_self]
  constructor
  case others =>
    intro j hj
    change system.server j = _
    rw [hserver, Function.update_of_ne hj]
  case histories => exact fun j hj => Function.update_of_ne hj _ _
  case voteRequests =>
    cases hset
    rfl
  case voteReplies =>
    cases hset
    rfl
  case chronicle =>
    simp only [appended, hR.reign]
    rfl
  case history => simp only [appended, Function.update_self, hR.last]
  case term => rw [hself, hq]
  case last =>
    rw [hself, hq]
    change (r.system.server i).lastLogIndex + 1 = R.last + 1
    rw [hR.last]
  case minActiveSlot => rw [hself, hq]
  case raftLogs =>
    rw [hself, hq, hR.last]
    rfl

theorem Appends.reign {r r' : Partition n α} {i : Fin n} {t : Nat} {R : Reign (Fin n) (RaftData α)}
    {e : RaftData α} (ha : Appends r r' i t R e) : r'.chronicle.reign t = some (R.append e) := by
  rw [ha.chronicle]
  exact Chronicle.put_self _ t _

theorem Appends.agrees {r r' : Partition n α} {i : Fin n} {t : Nat}
    {R : Reign (Fin n) (RaftData α)} {e : RaftData α} (ha : Appends r r' i t R e)
    (hR : r.Leads i R) : Agrees (r'.history i) (R.append e).log (R.append e).last := by
  intro j hpos hj
  rw [ha.history]
  rcases Nat.lt_or_ge R.last j with hnew | hle
  · obtain rfl : j = R.last + 1 := Nat.le_antisymm hj hnew
    rw [Function.update_self, R.append_new]
  · have hne : j ≠ R.last + 1 := by omega
    rw [Function.update_of_ne hne, R.append_old e hle]
    exact (hR.agrees j hpos hle).symm

theorem Inv.grown_append {r r' : Partition n α} {i : Fin n} {t : Nat}
    {R : Reign (Fin n) (RaftData α)} {e : RaftData α} (h : r.Inv) (ha : Appends r r' i t R e)
    (hR : r.chronicle.reign t = some R) (hleader : R.leader = i) (he : e.term = t) :
    Grown r r' i t := by
  constructor
  case others => exact ha.others
  case histories => exact ha.histories
  case voteRequests => exact ha.voteRequests
  case voteReplies => exact ha.voteReplies
  case term => exact ha.term
  case grows =>
    rw [ha.chronicle]
    exact (Chronicle.grows_put hR (R.extends_append e)).trans (Chronicle.grows_ack _ i t _)
  case acked =>
    intro v u hne
    rw [ha.chronicle]
    exact Chronicle.ack_of_ne _ _ hne
  case reigns =>
    intro u hu
    rw [ha.chronicle]
    exact Chronicle.put_of_ne _ _ hu
  case present => exact ⟨_, ha.reign⟩
  case sound =>
    rw [ha.chronicle]
    exact (h.sound.append hR he).ack (Chronicle.put_self _ t _) (le_refl _)
  case leaders =>
    intro j hj hjl hjt
    obtain ⟨R', hR'⟩ := h.leads j hjl
    have hsame := hR'.reign
    rw [hjt, hR] at hsame
    obtain rfl := Option.some.inj hsame
    exact absurd (hR'.leader.symm.trans hleader) hj

theorem Inv.append {r : Partition n α} {system : System n α} {i : Fin n} {cmd : α} (h : r.Inv)
    (hsystem : r.system.step (.start i cmd) = some system)
    (hl : (r.system.server i).isLeader = true) :
    Grown r (r.appended i cmd system) i (r.system.server i).currentTerm ∧
      (r.appended i cmd system).Inv := by
  obtain ⟨R, hR⟩ := h.leads i hl
  have ha := appends_start hsystem hl hR
  have hg := h.grown_append ha hR.reign hR.leader rfl
  replace hsystem : r.system.step (.start i cmd) = some (r.appended i cmd system).system := hsystem
  have hreign := hR.reign
  generalize r.appended i cmd system = r' at *
  generalize (⟨(r.system.server i).currentTerm, some cmd⟩ : RaftData α) = e at *
  have hagrees := ha.agrees hR
  have hacked : r'.chronicle.acked i (r.system.server i).currentTerm = (R.append e).last := by
    rw [ha.chronicle, Chronicle.ack_self]
    exact max_eq_right ((h.sound.acked_le hreign).trans (Nat.le_succ _))
  refine ⟨hg, h.grow (e := .start i cmd) trivial hsystem hg ?_ ?_ ?_ ?_ ?_ ?_⟩
  · intro j hj
    rw [ha.minActiveSlot] at hj
    rw [ha.history, ha.raftLogs]
    by_cases hnew : j = R.last + 1
    · rw [hnew, Function.update_self, Function.update_self]
    · rw [Function.update_of_ne hnew, Function.update_of_ne hnew]
      exact h.recorded i j hj
  · rw [ha.last]
    exact (hg.sound.follows ha.reign).of_agrees (le_refl _) hagrees
  · intro j hpos hj
    rw [ha.last] at hj
    rw [hagrees j hpos hj]
    exact hg.sound.term_le ha.reign hpos hj
  · intro _
    refine ⟨R.append e, ?_, hR.leader, ha.last.symm, hagrees.symm, ?_⟩
    · rw [ha.term]
      exact ha.reign
    · rw [ha.term]
      exact hacked
  · intro u R' k hlt hR' hk hspared
    rw [ha.last]
    by_cases hu : u = (r.system.server i).currentTerm
    · subst hu
      rw [ha.reign] at hR'
      obtain rfl := Option.some.inj hR'
      rw [hacked] at hk
      exact ⟨hk, hagrees.mono hk⟩
    · rw [hg.acked i u fun hh => hu hh.2] at hk
      have hholds := (h.keeps i).holds_of_grows h.sound hg.grows hlt hR' hk hspared
      rw [← hR.last] at hholds
      have hkept : Agrees (r'.history i) (r.history i) R.last := by
        intro j hpos hj
        rw [ha.history]
        exact Function.update_of_ne (by omega) _ _
      exact ⟨hholds.le.trans (Nat.le_succ _), (hkept.mono hholds.le).trans hholds.agrees⟩
  · intro hnone
    rw [hreign] at hnone
    cases hnone

/-- A call carries what the leader of its term has in these slots. -/
structure Sent (r : Partition n α) (m : AppendEntries n α) (R : Reign (Fin n) (RaftData α)) :
    Prop where
  reign : r.chronicle.reign m.term = some R
  leader : R.leader = m.leaderSiteId
  other : m.follower ≠ m.leaderSiteId
  start_le : R.start ≤ m.lastIndex
  le : m.lastIndex ≤ R.last
  prevTerm : 0 < m.prevLogIndex → m.prevLogTerm = (R.log m.prevLogIndex).term
  cmds : ∀ k c, (m.cmd.getD [])[k]? = some c → R.log (m.prevLogIndex + k + 1) = ⟨c.1, some c.2⟩
  nonempty : m.cmd ≠ some []

/-- The log of a follower that accepts a call starts as the leader's up to the end of the call. -/
theorem Inv.written {r : Partition n α} (h : r.Inv) {m : AppendEntries n α}
    {R : Reign (Fin n) (RaftData α)} (hsent : r.Sent m R)
    (hok : (r.system.server m.follower).appendOk m = some true) :
    Agrees (RaftServer.writeBatch (r.history m.follower) m.prevLogIndex (m.cmd.getD [])) R.log
      m.lastIndex := by
  obtain ⟨-, hprev, hmatch⟩ := RaftServer.appendOk_cases hok
  have hbefore : Agrees (r.history m.follower) R.log m.prevLogIndex := by
    rcases hmatch with hzero | ⟨hmin, hterm⟩
    · intro j hpos hj
      omega
    · rcases Nat.eq_zero_or_pos m.prevLogIndex with hzero | hpos
      · intro j hpos hj
        omega
      · have hle : m.prevLogIndex ≤ R.last := (Nat.le_add_right _ _).trans hsent.le
        refine (h.follows m.follower).matching (h.sound.follows hsent.reign) hpos hprev hle ?_
        rw [← h.recorded _ _ hmin, hterm]
        exact hsent.prevTerm hpos
  intro j hpos hj
  rcases Nat.lt_or_ge m.prevLogIndex j with hlt | hle
  · obtain ⟨k, rfl⟩ : ∃ k, j = m.prevLogIndex + k + 1 := ⟨j - m.prevLogIndex - 1, by omega⟩
    have hk : k < (m.cmd.getD []).length := by
      unfold AppendEntries.lastIndex at hj
      omega
    have hget := List.getElem?_eq_getElem hk
    rw [RaftServer.writeBatch_inside hget, hsent.cmds k _ hget]
  · rw [RaftServer.writeBatch_outside (.inl hle)]
    exact hbefore j hpos hle

theorem lastAfter_cases (s : RaftServer n α) (m : AppendEntries n α) :
    (m.cmd.getD [] = [] ∧ RaftServer.lastAfter s.lastLogIndex m.prevLogIndex (m.cmd.getD []) =
      s.lastLogIndex ∧ m.lastIndex = m.prevLogIndex) ∨
      RaftServer.lastAfter s.lastLogIndex m.prevLogIndex (m.cmd.getD []) = m.lastIndex := by
  unfold RaftServer.lastAfter AppendEntries.lastIndex
  cases hcmds : m.cmd.getD [] with
  | nil => exact .inl ⟨rfl, rfl, rfl⟩
  | cons c cs => exact .inr rfl

theorem received_of_ok {r : Partition n α} {k : Nat} {m : AppendEntries n α}
    (system : System n α) (hok : (r.system.server m.follower).appendOk m = some true) :
    r.received k m system =
      { system := system
        history := Function.update r.history m.follower
          (RaftServer.writeBatch (r.history m.follower) m.prevLogIndex (m.cmd.getD []))
        chronicle := r.chronicle.ack m.follower m.term m.lastIndex
        handled := Function.update r.handled m.leaderSiteId
          (Function.update (r.handled m.leaderSiteId) m.follower (k + 1)) } :=
  if_pos hok

/-- A follower has taken over the call `m` of the leader of reign `R`. -/
structure Accepts (r r' : Partition n α) (m : AppendEntries n α) (R : Reign (Fin n) (RaftData α)) :
    Prop where
  others : ∀ j, j ≠ m.follower → r'.system.server j = r.system.server j
  histories : ∀ j, j ≠ m.follower → r'.history j = r.history j
  voteRequests : r'.system.voteRequests = r.system.voteRequests
  voteReplies : r'.system.voteReplies = r.system.voteReplies
  chronicle : r'.chronicle = r.chronicle.ack m.follower m.term m.lastIndex
  term : (r'.system.server m.follower).currentTerm = m.term
  le : m.lastIndex ≤ (r'.system.server m.follower).lastLogIndex
  last : (r'.history m.follower = r.history m.follower ∧
    (r'.system.server m.follower).lastLogIndex = (r.system.server m.follower).lastLogIndex) ∨
      (r'.system.server m.follower).lastLogIndex = m.lastIndex
  recorded : ∀ j, (r'.system.server m.follower).minActiveSlot ≤ j →
    (r'.system.server m.follower).raftLogs j = r'.history m.follower j
  agrees : Agrees (r'.history m.follower) R.log m.lastIndex
  leader : (r'.system.server m.follower).isLeader = true →
    (r.system.server m.follower).isLeader = true ∧
      (r'.system.server m.follower).currentTerm = (r.system.server m.follower).currentTerm

theorem Inv.accepts {r : Partition n α} {system : System n α} {k : Nat} {m : AppendEntries n α}
    {R : Reign (Fin n) (RaftData α)} (h : r.Inv)
    (hsystem : r.system.step (.deliverAppend k) = some system)
    (hk : r.system.appends[k]? = some m)
    (hok : (r.system.server m.follower).appendOk m = some true) (hsent : r.Sent m R) :
    Accepts r (r.received k m system) m R := by
  obtain ⟨m', hm', hset⟩ := Option.bind_eq_some_iff.mp hsystem
  obtain rfl : m = m' := Option.some.inj (hk.symm.trans hm')
  obtain ⟨⟨q, reply⟩, hq, hset⟩ := Option.bind_eq_some_iff.mp hset
  have hserver : system.server = Function.update r.system.server m.follower q := by
    cases hset
    rfl
  have hself : system.server m.follower = q := by rw [hserver, Function.update_self]
  have ha := RaftServer.accepted_of_ok hok hq
  have hhistory : (r.received k m system).history m.follower =
      RaftServer.writeBatch (r.history m.follower) m.prevLogIndex (m.cmd.getD []) := by
    rw [received_of_ok system hok]
    exact Function.update_self ..
  have hsystem' : (r.received k m system).system = system := by rw [received_of_ok system hok]
  constructor
  case others =>
    intro j hj
    rw [hsystem', hserver, Function.update_of_ne hj]
  case histories =>
    intro j hj
    rw [received_of_ok system hok]
    exact Function.update_of_ne hj _ _
  case voteRequests =>
    rw [hsystem']
    cases hset
    rfl
  case voteReplies =>
    rw [hsystem']
    cases hset
    rfl
  case chronicle => rw [received_of_ok system hok]
  case term => rw [hsystem', hself, ha.term]
  case le =>
    rw [hsystem', hself, ha.last]
    obtain ⟨-, hsame, hend⟩ | hend := lastAfter_cases (r.system.server m.follower) m
    · rw [hsame, hend]
      exact (RaftServer.appendOk_cases hok).2.1
    · exact hend.ge
  case last =>
    rw [hhistory, hsystem', hself, ha.last]
    obtain ⟨hnil, hsame, -⟩ | hend := lastAfter_cases (r.system.server m.follower) m
    · left
      rw [hsame, hnil]
      exact ⟨rfl, rfl⟩
    · exact .inr hend
  case recorded =>
    intro j hj
    rw [hsystem', hself] at hj ⊢
    obtain ⟨hmin, hlog⟩ := ha.logs j hj
    rw [hlog, hhistory]
    exact RaftServer.writeBatch_congr (h.recorded _ j hmin)
  case agrees =>
    rw [hhistory]
    exact h.written hsent hok
  case leader =>
    rw [hsystem', hself]
    exact (RaftServer.calm_onAppendEntries hq).leader

theorem Accepts.grown {r r' : Partition n α} {m : AppendEntries n α}
    {R : Reign (Fin n) (RaftData α)} (ha : Accepts r r' m R) (h : r.Inv) (hsent : r.Sent m R) :
    Grown r r' m.follower m.term := by
  constructor
  case others => exact ha.others
  case histories => exact ha.histories
  case voteRequests => exact ha.voteRequests
  case voteReplies => exact ha.voteReplies
  case term => exact ha.term
  case grows =>
    rw [ha.chronicle]
    exact Chronicle.grows_ack _ _ _ _
  case acked =>
    intro v u hne
    rw [ha.chronicle]
    exact Chronicle.ack_of_ne _ _ hne
  case reigns =>
    intro u _
    rw [ha.chronicle]
    rfl
  case present =>
    refine ⟨R, ?_⟩
    rw [ha.chronicle]
    exact hsent.reign
  case sound =>
    rw [ha.chronicle]
    exact h.sound.ack hsent.reign hsent.le
  case leaders =>
    intro j _ _ _
    rw [ha.chronicle]
    rfl

theorem Inv.accept {r : Partition n α} {system : System n α} {k : Nat} {m : AppendEntries n α}
    {R : Reign (Fin n) (RaftData α)} (h : r.Inv)
    (hsystem : r.system.step (.deliverAppend k) = some system)
    (hk : r.system.appends[k]? = some m)
    (hok : (r.system.server m.follower).appendOk m = some true) (hsent : r.Sent m R)
    (hahead : r.chronicle.acked m.follower m.term ≤ m.lastIndex) :
    Grown r (r.received k m system) m.follower m.term ∧ (r.received k m system).Inv := by
  have hcurrent := (RaftServer.appendOk_cases hok).1
  have ha := h.accepts hsystem hk hok hsent
  have hg := ha.grown h hsent
  have hsystem' : r.system.step (.deliverAppend k) = some (r.received k m system).system := by
    rw [received_of_ok system hok]
    exact hsystem
  generalize r.received k m system = r' at *
  have hacked : r'.chronicle.acked m.follower m.term = m.lastIndex := by
    rw [ha.chronicle, Chronicle.ack_self]
    exact max_eq_right hahead
  have hpresent : r'.chronicle.reign m.term = some R := by
    rw [ha.chronicle]
    exact hsent.reign
  refine ⟨hg, h.grow (e := .deliverAppend k) trivial hsystem' hg ha.recorded ?_ ?_ ?_ ?_ ?_⟩
  · obtain ⟨hsame, hkept⟩ | hend := ha.last
    · rw [hsame, hkept]
      exact (h.follows m.follower).grows hg.grows
    · rw [hend]
      exact (hg.sound.follows hpresent).of_agrees hsent.le ha.agrees
  · intro j hpos hj
    obtain ⟨hsame, hkept⟩ | hend := ha.last
    · rw [hkept] at hj
      rw [hsame]
      exact (h.older _ j hpos hj).trans hcurrent
    · rw [hend] at hj
      rw [ha.agrees j hpos hj]
      exact hg.sound.term_le hpresent hpos (hj.trans hsent.le)
  · intro hl
    obtain ⟨hold, hsame⟩ := ha.leader hl
    obtain ⟨R', hR'⟩ := h.leads m.follower hold
    have hreign := hR'.reign
    rw [← hsame, ha.term, hsent.reign] at hreign
    obtain rfl := Option.some.inj hreign
    exact absurd (hR'.leader.symm.trans hsent.leader) hsent.other
  · intro u R' l hlt hR' hl hspared
    have hholds : Holds R.log m.lastIndex R'.log l := by
      by_cases hu : u = m.term
      · subst hu
        rw [hpresent] at hR'
        obtain rfl := Option.some.inj hR'
        rw [hacked] at hl
        exact ⟨hl, fun _ _ _ => rfl⟩
      · have hstart := hspared m.term R (by omega) (by omega) hpresent
        exact ⟨hstart.le.trans hsent.start_le, hstart.agrees⟩
    exact ⟨hholds.le.trans ha.le, (ha.agrees.mono hholds.le).trans hholds.agrees⟩
  · intro hnone
    rw [hsent.reign] at hnone
    cases hnone

end Partition

end Jetpack.Raft
