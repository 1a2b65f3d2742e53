import Jetpack.Swift.Recovery
import Jetpack.Library.Rank

/-! Commits that have spread before a replica enters a new ballot. Any candidate then gets the answer
of a replica that has committed the command, and merges it. -/

namespace Jetpack.Swift

open Transition

variable {n : Nat}

def SwiftPaxosServer.hasCommitted (s : SwiftPaxosServer n) (cid : CmdId) : Bool :=
  (s.cmdDescs cid).committed && (s.cmdDescs cid).cmd

/-- The ballot in which the step makes a replica take a snapshot. -/
def enters (s : System n) : Event n → Option Nat
  | .propose _ _ => none
  | .deliver i k j =>
    match (s.server i).sent[k]? with
    | some (.newLeader _ ballot) => if ballot ≤ (s.server j).ballot then none else some ballot
    | _ => none
  | .triggerRecovery i => some ((s.server i).nextBallot i)

/-- When a replica enters a ballot, every command committed in a lower one is committed, with its
payload, at so many replicas that every slow quorum has one of them. -/
def spreadsFirst (s : System n) (e : Event n) : Bool :=
  match enters s e with
  | none => true
  | some ballot => (List.finRange n).all fun i => (s.server i).commits.all fun x =>
      decide (ballot ≤ x.ballot) || decide (n < slowQuorum n +
        (List.finRange n).countP fun k => (s.server k).hasCommitted x.cmdId)

def keepsEvidence (w : Workload) (s : System n) (e : Event n) : Bool :=
  leaderAcksOnce s e && commitsInTime w s e && snapshotsReport s e && spreadsFirst s e

/-- The replica has committed the command, and has said so in every answer to a later ballot. -/
structure Holds (s : System n) (x : Commit) (i : Fin n) : Prop where
  committed : (s.server i).hasCommitted x.cmdId = true
  answers : ∀ c k b cb st, .newLeaderAck c k b cb st ∈ (s.server i).sent → x.ballot < b →
    Reports st x.cmdId
  own : (s.server i).recovering = true → (s.server i).ballot % n = i →
    x.ballot < (s.server i).ballot → ∀ a, (s.server i).pendingNewLeaderAcks i = some a →
      Reports a.state x.cmdId

def Outdated (s : System n) (x : Commit) : Prop := ∃ k, x.ballot < (s.server k).ballot

structure SpreadInv (s : System n) : Prop extends Inv s where
  sender : ∀ i c k b cb st, .newLeaderAck c k b cb st ∈ (s.server i).sent →
    k = i ∧ c ≠ i ∧ b ≤ (s.server i).ballot
  pending : ∀ j : Fin n, (s.server j).recovering = true → (s.server j).ballot % n = j →
    ∀ i a, (s.server j).pendingNewLeaderAcks i = some a → i ≠ j →
      .newLeaderAck j i (s.server j).ballot a.cballot a.state ∈ (s.server i).sent
  held : ∀ x, Committed s x → Outdated s x →
    ∃ S : Finset (Fin n), n < slowQuorum n + S.card ∧ ∀ i ∈ S, Holds s x i

section Steps

variable {w : Workload} {s t : System n} {j : Fin n} {r : SwiftPaxosServer n}

theorem Inv.reports_snapshot (hs : Inv s) {cid : CmdId} (h : (s.server j).hasCommitted cid = true) :
    Reports (s.server j).snapshotLocalState cid := by
  obtain ⟨hcom, hcmd⟩ := Bool.and_eq_true_iff.mp h
  have hphase := ((hs.replica j).committed_iff cid).mp hcom
  have hstart : ((s.server j).cmdDescs cid).phase ≠ .start := by simp [hphase]
  let d := (s.server j).cmdDescs cid
  exact ⟨⟨cid, .commit, if d.leaderDep = [] then d.myDep else d.leaderDep⟩,
    mem_snapshotLocalState.mpr ⟨(hs.replica j).known cid hstart, hstart, hcmd, hphase.symm, rfl⟩,
    rfl, rfl⟩

structure Holding (s : System n) (j : Fin n) (r : SwiftPaxosServer n) : Prop where
  ballot : (s.server j).ballot ≤ r.ballot
  committed : ∀ c, (s.server j).hasCommitted c = true → r.hasCommitted c = true
  sent : ∀ c k b cb st, .newLeaderAck c k b cb st ∈ r.sent →
    .newLeaderAck c k b cb st ∈ (s.server j).sent ∨
      (k = j ∧ c ≠ j ∧ b = r.ballot) ∧ st = (s.server j).snapshotLocalState
  pending : r.recovering = true → r.ballot % n = j → ∀ i a, r.pendingNewLeaderAcks i = some a →
    (s.server j).recovering = true ∧ (s.server j).ballot = r.ballot ∧
        (s.server j).pendingNewLeaderAcks i = some a ∨
      i = j ∧ a.state = (s.server j).snapshotLocalState ∨
      i ≠ j ∧ .newLeaderAck j i r.ballot a.cballot a.state ∈ (s.server i).sent

theorem Holds.update (hs : Inv s) (hu : Updates s t j r) (hr : Holding s j r) {x : Commit} {i : Fin n}
    (h : Holds s x i) : Holds t x i := by
  by_cases hi : i = j
  · subst hi
    have hsnap := hs.reports_snapshot h.committed
    refine ⟨?_, fun c k b cb st hm hb => ?_, fun hrec hown hb a ha => ?_⟩
    · rw [hu.self]
      exact hr.committed _ h.committed
    · rw [hu.self] at hm
      rcases hr.sent c k b cb st hm with hm | ⟨-, rfl⟩
      · exact h.answers c k b cb st hm hb
      · exact hsnap
    · rw [hu.self] at hrec hown hb ha
      rcases hr.pending hrec hown i a ha with ⟨hrec', hb', ha'⟩ | ⟨-, heq⟩ | ⟨hne, -⟩
      · exact h.own hrec' (hb' ▸ hown) (hb' ▸ hb) a ha'
      · rw [heq]
        exact hsnap
      · exact absurd rfl hne
  · have heq := hu.others i hi
    exact ⟨heq ▸ h.committed, heq ▸ h.answers, heq ▸ h.own⟩

/-- A replica that has committed a command of the highest ballot so far has answered nobody since. -/
theorem SpreadInv.holds (hs : SpreadInv s) {x : Commit} (hx : ¬ Outdated s x) {i : Fin n}
    (h : (s.server i).hasCommitted x.cmdId = true) : Holds s x i := by
  have hle : (s.server i).ballot ≤ x.ballot := Nat.not_lt.mp fun hlt => hx ⟨i, hlt⟩
  refine ⟨h, fun c k b cb st hm hb => ?_, fun _ _ hb => ?_⟩
  · exact absurd (hb.trans_le ((hs.sender i c k b cb st hm).2.2.trans hle)) (lt_irrefl _)
  · exact absurd (hb.trans_le hle) (lt_irrefl _)

theorem Holds.later {x y : Commit} {i : Fin n} (h : Holds s x i) (hid : x.cmdId = y.cmdId)
    (hlt : x.ballot < y.ballot) : Holds s y i where
  committed := hid ▸ h.committed
  answers c k b cb st hm hb := hid ▸ h.answers c k b cb st hm (hlt.trans hb)
  own hrec hown hb a ha := hid ▸ h.own hrec hown (hlt.trans hb) a ha

/-- A step of replica `j`. A commit it makes is of the highest ballot or follows one of a lower ballot,
and if it enters a ballot then the commits of lower ones have spread. -/
theorem SpreadInv.update (hs : SpreadInv s) (ht : Inv t) (hu : Updates s t j r) (hr : Holding s j r)
    (hnew : ∀ x ∈ r.commits, x ∈ (s.server j).commits ∨ ¬ Outdated t x ∨
      ∃ y, Committed s y ∧ y.cmdId = x.cmdId ∧ y.ballot < x.ballot ∧ Outdated s y)
    (henter : ∀ x, Committed s x → x.ballot < r.ballot → Outdated s x ∨
      n < slowQuorum n + (List.finRange n).countP fun k => (s.server k).hasCommitted x.cmdId) :
    SpreadInv t := by
  have hspread : ∀ {x}, Committed s x → Outdated t x → ∃ S : Finset (Fin n),
      n < slowQuorum n + S.card ∧ ∀ i ∈ S, Holds t x i := by
    intro x hx hout
    by_cases hold : Outdated s x
    · obtain ⟨S, hcard, hS⟩ := hs.held x hx hold
      exact ⟨S, hcard, fun i hi => (hS i hi).update hs.toInv hu hr⟩
    · obtain ⟨k, hk⟩ := hout
      have hkj : k = j := by
        by_contra hne
        rw [hu.others k hne] at hk
        exact hold ⟨k, hk⟩
      subst hkj
      rw [hu.self] at hk
      have hcount := (henter x hx hk).resolve_left hold
      obtain ⟨S, hcard, hS⟩ := Rank.exists_finset_of_countP (List.nodup_finRange n)
        fun k => (s.server k).hasCommitted x.cmdId
      rw [← hcard] at hcount
      exact ⟨S, hcount, fun i hi => (hs.holds hold (hS i hi).2).update hs.toInv hu hr⟩
  refine
    { ht with
      sender := fun i c k b cb st hm => ?_
      pending := fun i hrec hown l a ha hne => ?_
      held := fun x hx hout => ?_ }
  · by_cases hi : i = j
    · subst hi
      rw [hu.self] at hm ⊢
      rcases hr.sent c k b cb st hm with hm | ⟨⟨hk, hne, hb⟩, -⟩
      · obtain ⟨hk, hne, hb⟩ := hs.sender i c k b cb st hm
        exact ⟨hk, hne, hb.trans hr.ballot⟩
      · exact ⟨hk, hne, hb.le⟩
    · rw [hu.others i hi] at hm ⊢
      exact hs.sender i c k b cb st hm
  · by_cases hi : i = j
    · subst hi
      rw [hu.self] at hrec hown ha ⊢
      refine hu.grows.sent l _ ?_
      rcases hr.pending hrec hown l a ha with ⟨hrec', hb, ha'⟩ | ⟨heq, -⟩ | ⟨-, hm⟩
      · rw [← hb] at hown ⊢
        exact hs.pending i hrec' hown l a ha' hne
      · exact absurd heq hne
      · exact hm
    · rw [hu.others i hi] at hrec hown ha ⊢
      exact hu.grows.sent l _ (hs.pending i hrec hown l a ha hne)
  · rcases hu.committed hx with hx | hx
    · exact hspread hx hout
    · rcases hnew x hx with hx | hno | ⟨y, hy, hid, hlt, hout⟩
      · exact hspread ⟨j, hx⟩ hout
      · exact absurd hout hno
      · obtain ⟨S, hcard, hS⟩ := hs.held y hy hout
        exact ⟨S, hcard, fun i hi => ((hS i hi).later hid hlt).update hs.toInv hu hr⟩

theorem SpreadInv.congr (hs : SpreadInv s) (h : t.server = s.server) : SpreadInv t := by
  obtain ⟨server, proposed⟩ := t
  obtain ⟨server', proposed'⟩ := s
  subst h
  have ht : Inv ⟨server, proposed⟩ := hs.toInv.congr rfl
  refine { ht with sender := hs.sender, pending := hs.pending, held := fun x hx hout => ?_ }
  obtain ⟨S, hcard, hS⟩ := hs.held x hx hout
  exact ⟨S, hcard, fun i hi => ⟨(hS i hi).committed, (hS i hi).answers, (hS i hi).own⟩⟩

theorem SpreadInv.votes {cid : CmdId} {done : Bool} (hs : SpreadInv s) (ht : Inv t)
    (hself : t.server j = r) (hothers : ∀ i, i ≠ j → t.server i = s.server i)
    (hv : Votes (s.server j) r cid (fun _ => True) (fun m => m.cmdId?.isSome = true) done)
    (hfirst : done = true → ∀ i, (s.server i).ballot ≤ (s.server j).ballot) : SpreadInv t := by
  have hu : Updates s t j r := hv.updates hself hothers
  obtain ⟨hund, -⟩ := SwiftCmdDesc.decided_eq_false.mp hv.undecided
  have hr : Holding s j r := by
    refine ⟨hv.ballot.ge, fun c hc => ?_, fun c k b cb st hm => .inl ?_, fun hrec hown i a ha => .inl ?_⟩
    · have hne : c ≠ cid := by
        rintro rfl
        simp [SwiftPaxosServer.hasCommitted, hund] at hc
      rwa [SwiftPaxosServer.hasCommitted, hv.desc_ne c hne]
    · obtain ⟨ms, hms, hacks⟩ := hv.sent
      rw [hms, List.mem_append] at hm
      exact hm.resolve_right fun hm => by cases hacks _ hm
    · exact ⟨hv.recovering ▸ hrec, hv.ballot.symm, hv.pending ▸ ha⟩
  refine hs.update ht hu hr (fun x hx => ?_) fun x _ hlt => .inl ⟨j, hv.ballot ▸ hlt⟩
  rw [hv.commits, List.mem_append] at hx
  refine hx.imp_right fun hx => .inl ?_
  cases hdone : done with
  | false => simp [hdone] at hx
  | true =>
    obtain rfl : x = _ := by simpa [hdone] using hx
    rintro ⟨k, hk⟩
    refine absurd hk (Nat.not_lt.mpr ?_)
    by_cases hkj : k = j
    · rw [hkj, hself, hv.ballot]
    · rw [hothers k hkj]
      exact hfirst hdone k

theorem SpreadInv.restart {b : Nat} {merged : List RecoveryEntry} {recs : List Recovery}
    {ms : List (Message n)} (hs : SpreadInv s) (ht : Inv t)
    (hr : Restarts (s.server j) r b merged recs ms) (hself : t.server j = r)
    (hothers : ∀ i, i ≠ j → t.server i = s.server i) (hb : (s.server j).ballot ≤ b)
    (hmerged : ∀ e ∈ merged, FromCommit s b e) (hreached : ∃ k, b ≤ (s.server k).ballot)
    (hsent : ∀ m ∈ ms, ∀ c k b cb st, m ≠ .newLeaderAck c k b cb st) : SpreadInv t := by
  have hu : Updates s t j r := hr.updates hself hothers
  have hout : ∀ x : Commit, x.ballot < b → Outdated s x :=
    fun x hlt => hreached.imp fun k hk => hlt.trans_le hk
  have hhold : Holding s j r := by
    refine ⟨hr.ballot ▸ hb, fun c hc => ?_, fun c k b cb st hm => .inl ?_, fun hrec => ?_⟩
    · by_cases hmem : ∃ e ∈ merged, e.cmdId = c
      · obtain ⟨-, hcom, hcmd, -⟩ := hr.desc_merged c hmem
        simp [SwiftPaxosServer.hasCommitted, hcom, hcmd]
      · rwa [SwiftPaxosServer.hasCommitted,
          hr.desc_committed c hmem (Bool.and_eq_true_iff.mp hc).1]
    · rw [hr.sent, List.mem_append] at hm
      exact hm.resolve_right fun hm => hsent _ hm c k b cb st rfl
    · rw [hr.recovering] at hrec
      cases hrec
  refine hs.update ht hu hhold (fun x hx => ?_) fun x _ hlt => .inl (hout x (hr.ballot ▸ hlt))
  refine (hr.commits x hx).imp_right fun ⟨e, he, hxe⟩ => .inr ?_
  obtain ⟨-, y, hy, hid, -, hlt⟩ := hmerged e he
  subst hxe
  exact ⟨y, hy, hid, hlt, hout y hlt⟩

theorem SpreadInv.suspend {b : Nat} {pending : Fin n → Option NewLeaderAckEntry} {doneSync : Bool}
    {m : Message n} (hs : SpreadInv s) (ht : Inv t) (hb : (s.server j).ballot < b)
    (hself : t.server j = { s.server j with
      ballot := b, recovering := true, pendingNewLeaderAcks := pending,
      syncBroadcastDone := doneSync, sent := (s.server j).sent ++ [m] })
    (hothers : ∀ i, i ≠ j → t.server i = s.server i)
    (hsent : ∀ c k b' cb st, m = .newLeaderAck c k b' cb st →
      (k = j ∧ c ≠ j ∧ b' = b) ∧ st = (s.server j).snapshotLocalState)
    (hpending : b % n = j → ∀ i a, pending i = some a →
      i = j ∧ a.state = (s.server j).snapshotLocalState)
    (hspread : ∀ x, Committed s x → x.ballot < b →
      n < slowQuorum n + (List.finRange n).countP fun k => (s.server k).hasCommitted x.cmdId) :
    SpreadInv t := by
  have hu : Updates s t j _ := ⟨hself, hothers, fun x hx => hx, fun x hx => hx,
    fun x hx => List.mem_append_left _ hx⟩
  refine hs.update ht hu ⟨hb.le, fun c hc => hc, fun c k b' cb st hm => ?_,
    fun _ hown i a ha => .inr (.inl (hpending hown i a ha))⟩ (fun x hx => .inl hx)
    fun x hx hlt => .inr (hspread x hx hlt)
  exact (List.mem_append.mp hm).imp_right fun hm =>
    hsent c k b' cb st (List.mem_singleton.mp hm).symm

/-- The answers that a candidate has are of a slow quorum, so one of them comes from a replica that
holds the command. -/
theorem SpreadInv.reported (hs : SpreadInv s) (hrec : (s.server j).recovering = true)
    (hown : (s.server j).ballot % n = j) (hquorum : (s.server j).hasAnswers = true) {x : Commit}
    (hx : Committed s x) (hlt : x.ballot < (s.server j).ballot) :
    ∃ a ∈ answers (s.server j).pendingNewLeaderAcks, Reports a.state x.cmdId := by
  obtain ⟨S, hcard, hS⟩ := hs.held x hx ⟨j, hlt⟩
  obtain ⟨Q, hQcard, hQ⟩ := Rank.exists_finset_of_countP (List.nodup_finRange n)
    fun i => ((s.server j).pendingNewLeaderAcks i).isSome
  have hlen : slowQuorum n ≤ Q.card := by
    rw [hQcard, ← List.length_filterMap_eq_countP]
    exact of_decide_eq_true hquorum
  have hmeet : (Finset.univ : Finset (Fin n)).card < S.card + Q.card := by
    rw [Finset.card_univ, Fintype.card_fin]
    omega
  obtain ⟨q, hq⟩ := Finset.inter_nonempty_of_card_lt_card_add_card (Finset.subset_univ S)
    (Finset.subset_univ Q) hmeet
  obtain ⟨hqS, hqQ⟩ := Finset.mem_inter.mp hq
  obtain ⟨a, ha⟩ := Option.isSome_iff_exists.mp (hQ q hqQ).2
  refine ⟨a, mem_answers.mpr ⟨q, ha⟩, ?_⟩
  by_cases hqj : q = j
  · subst hqj
    exact (hS q hqS).own hrec hown hlt a ha
  · exact (hS q hqS).answers _ _ _ _ _ (hs.pending j hrec hown q a ha hqj) hlt

end Steps

section Runs

variable {w : Workload} {s t : System n}

theorem spreadsFirst_spec {e : Event n} {b : Nat} (h : spreadsFirst s e = true)
    (he : enters s e = some b) {x : Commit} (hx : Committed s x) (hlt : x.ballot < b) :
    n < slowQuorum n + (List.finRange n).countP fun k => (s.server k).hasCommitted x.cmdId := by
  obtain ⟨i, hi⟩ := hx
  simp only [spreadsFirst, he, List.all_eq_true, Bool.or_eq_true, decide_eq_true_eq] at h
  exact (h i (List.mem_finRange i) x hi).resolve_left (Nat.not_le.mpr hlt)

theorem SpreadInv.propose (hs : SpreadInv s) {i : Fin n} {cid : CmdId}
    (honce : leaderAcksOnce s (.propose i cid) = true)
    (htime : commitsInTime w s (.propose i cid) = true) : SpreadInv (s.propose w i cid) := by
  by_cases hskip : ((s.server i).recovering || ((s.server i).cmdDescs cid).decided) = true
  · refine hs.congr ?_
    have heq : (s.server i).onPropose w i cid = s.server i := by
      simp [SwiftPaxosServer.onPropose, hskip]
    simp [System.propose, System.setServer, heq]
  · obtain ⟨hrec, hund⟩ := Bool.or_eq_false_iff.mp (eq_false_of_ne_true hskip)
    refine hs.votes (hs.toInv.propose honce htime) (Function.update_self ..)
      (fun k hk => Function.update_of_ne hk ..)
      (votes_onPropose (fun _ => trivial) rfl rfl hrec hund) fun hdone => ?_
    have hc : completes w s (.propose i cid) = some (i, cid) := by simp [completes, hdone]
    exact (commitsInTime_spec htime hc).2

theorem SpreadInv.deliverFastAck (hs : SpreadInv s) {i j replica : Fin n} {k b : Nat} {cid : CmdId}
    {dep : List CmdId} (hm : (s.server i).sent[k]? = some (.fastAck replica b cid dep))
    (honce : leaderAcksOnce s (.deliver i k j) = true)
    (htime : commitsInTime w s (.deliver i k j) = true) :
    SpreadInv (s.setServer j ((s.server j).onFastAck j replica cid dep)) := by
  cases hund : ((s.server j).cmdDescs cid).decided with
  | true =>
    refine hs.congr ?_
    rw [onFastAck_of_decided hund]
    exact Function.update_eq_self ..
  | false =>
    refine hs.votes (hs.toInv.deliverFastAck hm honce htime) server_setServer_self
      server_setServer_ne (votes_onFastAck (fun _ => trivial) (fun _ => rfl) hund) fun hdone => ?_
    have hc : completes w s (.deliver i k j) = some (j, cid) := by
      simp [completes, hm, SwiftPaxosServer.receiveCompletes, hund, hdone]
    exact (commitsInTime_spec htime hc).2

theorem SpreadInv.deliverSlowAck (hs : SpreadInv s) {i j replica : Fin n} {k b : Nat} {cid : CmdId}
    (hm : (s.server i).sent[k]? = some (.slowAck replica b cid))
    (htime : commitsInTime w s (.deliver i k j) = true) :
    SpreadInv (s.setServer j ((s.server j).onLightSlowAck replica b cid)) := by
  by_cases hskip : ((s.server j).cmdDescs cid).decided = true ∨ b ≠ (s.server j).ballot
  · refine hs.congr ?_
    rw [onLightSlowAck_of_stale hskip]
    exact Function.update_eq_self ..
  · have ht := hs.toInv.deliverSlowAck hm htime
    obtain ⟨hund, hb⟩ := not_or.mp hskip
    have hund := eq_false_of_ne_true hund
    have hb := not_not.mp hb
    subst hb
    refine hs.votes ht server_setServer_self server_setServer_ne (votes_onLightSlowAck hund)
      fun hdone => ?_
    have hc : completes w s (.deliver i k j) = some (j, cid) := by
      simp [completes, hm, SwiftPaxosServer.receiveCompletes, hund, hdone]
    exact (commitsInTime_spec htime hc).2

theorem SpreadInv.triggerRecovery (hs : SpreadInv s) {i : Fin n}
    (hrep : (s.server i).reportsLeaderDeps = true)
    (hfirst : spreadsFirst s (.triggerRecovery i) = true) :
    SpreadInv (s.setServer i ((s.server i).triggerRecovery i)) := by
  refine hs.suspend (hs.toInv.triggerRecovery hrep) (lt_nextBallot (s.server i) i)
    server_setServer_self server_setServer_ne (fun c k b cb st hm => by cases hm)
    (fun _ k a ha => ?_) fun x hx hlt => spreadsFirst_spec hfirst rfl hx hlt
  by_cases hk : k = i
  · subst hk
    simp only [Function.update_self, Option.some.injEq] at ha
    exact ⟨rfl, ha ▸ rfl⟩
  · simp [hk] at ha

theorem SpreadInv.deliverNewLeader (hs : SpreadInv s) {i j replica : Fin n} {k b : Nat}
    (hm : (s.server i).sent[k]? = some (.newLeader replica b)) (hne : j ≠ i)
    (hrep : b ≤ (s.server j).ballot ∨ (s.server j).reportsLeaderDeps = true)
    (hfirst : spreadsFirst s (.deliver i k j) = true) :
    SpreadInv (s.setServer j ((s.server j).onNewLeaderRecv j replica b)) := by
  have hmem := List.mem_of_getElem? hm
  have ht := hs.toInv.deliverNewLeader hmem hne hrep
  obtain ⟨rfl, hb⟩ := (hs.replica i).newLeader replica b hmem
  by_cases hle : b ≤ (s.server j).ballot
  · refine hs.congr ?_
    rw [SwiftPaxosServer.onNewLeaderRecv, if_pos hle]
    exact Function.update_eq_self ..
  · have henters : enters s (.deliver replica k j) = some b := by simp [enters, hm, hle]
    rw [SwiftPaxosServer.onNewLeaderRecv, if_neg hle] at ht ⊢
    refine hs.suspend ht (Nat.not_le.mp hle) server_setServer_self server_setServer_ne
      (fun c k b' cb st heq => ?_) (fun hj => ?_) fun x hx hlt => spreadsFirst_spec hfirst henters hx hlt
    · cases heq
      exact ⟨⟨rfl, hne.symm, rfl⟩, rfl⟩
    · exact absurd (Fin.ext (hj.symm.trans hb)) hne

theorem SpreadInv.deliverSync (hs : SpreadInv s) {i j replica : Fin n} {b : Nat}
    {st : List RecoveryEntry} (hmem : .sync replica b st ∈ (s.server i).sent) (hne : j ≠ i) :
    SpreadInv (s.setServer j ((s.server j).onSyncRecv w b st)) := by
  have hrecov := (hs.replica i).sync replica b st hmem
  by_cases hlt : b < (s.server j).ballot
  · refine hs.congr ?_
    rw [SwiftPaxosServer.onSyncRecv, if_pos hlt]
    exact Function.update_eq_self ..
  · have hb := Nat.not_lt.mp hlt
    have hfrom := hs.everywhere.merged ⟨b, st⟩ ⟨i, hrecov⟩
    exact hs.restart (hs.toInv.deliverSync hmem hne)
      (restarts_onSyncRecv hb fun e he => (hfrom e he).1) server_setServer_self server_setServer_ne
      hb hfrom ⟨i, (hs.replica i).recovery_le hrecov⟩ (by simp)

theorem SpreadInv.recordAnswer (hs : SpreadInv s) {i j : Fin n} {b cb : Nat}
    {st : List RecoveryEntry} (hmem : .newLeaderAck j i b cb st ∈ (s.server i).sent) (hne : i ≠ j)
    (hb : b = (s.server j).ballot) (hrec : (s.server j).recovering = true) :
    SpreadInv (s.setServer j ((s.server j).recordAnswer i cb st)) := by
  subst hb
  have ht : Inv (s.setServer j ((s.server j).recordAnswer i cb st)) :=
    hs.toInv.recordAnswer ((hs.context i).answers j i _ cb st hmem).2
  have hu : Updates s (s.setServer j ((s.server j).recordAnswer i cb st)) j _ :=
    ⟨server_setServer_self, server_setServer_ne, fun _ h => h, fun _ h => h, fun _ h => h⟩
  refine hs.update ht hu ⟨le_rfl, fun c hc => hc, fun c k b cb st hm => .inl hm, fun _ _ l a ha => ?_⟩
    (fun x hx => .inl hx) fun x _ hlt => .inl ⟨j, hlt⟩
  by_cases hl : l = i
  · subst hl
    obtain rfl : (⟨cb, st⟩ : NewLeaderAckEntry) = a := by
      simpa [SwiftPaxosServer.recordAnswer] using ha
    exact .inr (.inr ⟨hne, hmem⟩)
  · exact .inl ⟨hrec, rfl, by simpa [SwiftPaxosServer.recordAnswer, hl] using ha⟩

theorem SpreadInv.finishRecovery (hs : SpreadInv s) {j : Fin n}
    (hrec : (s.server j).recovering = true) (hown : (s.server j).ballot % n = j)
    (hquorum : (s.server j).hasAnswers = true) :
    SpreadInv (s.setServer j ((s.server j).finishRecovery w j)) := by
  have hreport := fun x hx hlt => hs.reported (x := x) hrec hown hquorum hx hlt
  have ht := hs.toInv.finishRecovery (w := w) hrec hown hreport
  obtain ⟨hfrom, -⟩ := hs.toInv.survives_merge ((hs.context j).pending hrec hown) hreport
  have hr : Restarts (s.server j) ((s.server j).finishRecovery w j) _ _ _ _ :=
    restarts_finishRecovery fun e he => (hfrom e he).1
  refine hs.restart ht hr server_setServer_self server_setServer_ne le_rfl hfrom ⟨j, le_rfl⟩
    fun m hm c k b cb st heq => ?_
  rw [List.mem_singleton.mp hm] at heq
  cases heq

theorem SpreadInv.deliverAnswer (hs : SpreadInv s) {i j replica : Fin n} {b cb : Nat}
    {st : List RecoveryEntry} (hmem : .newLeaderAck j replica b cb st ∈ (s.server i).sent) :
    SpreadInv (s.setServer j ((s.server j).onNewLeaderAckRecv w j replica b cb st)) := by
  obtain ⟨hb, -⟩ := (hs.context i).answers j replica b cb st hmem
  obtain ⟨rfl, hne, -⟩ := hs.sender i j replica b cb st hmem
  unfold SwiftPaxosServer.onNewLeaderAckRecv
  cases hawait : (s.server j).awaits b with
  | false =>
    rw [if_pos rfl]
    exact hs.congr (Function.update_eq_self ..)
  | true =>
    rw [if_neg (by simp)]
    obtain ⟨⟨rfl, hrec⟩, -⟩ : (b = (s.server j).ballot ∧ (s.server j).recovering = true) ∧
        (s.server j).syncBroadcastDone = false := by
      simpa [SwiftPaxosServer.awaits] using hawait
    let r := (s.server j).recordAnswer replica cb st
    have hu : SpreadInv (s.setServer j r) := hs.recordAnswer hmem hne.symm rfl hrec
    have hself : (s.setServer j r).server j = r := server_setServer_self
    split_ifs with hquorum
    · have hfinish : SpreadInv ((s.setServer j r).setServer j
          (((s.setServer j r).server j).finishRecovery w j)) := by
        refine hu.finishRecovery ?_ ?_ ?_ <;> rw [hself]
        · exact hrec
        · exact hb
        · exact hquorum
      rw [hself] at hfinish
      simpa [System.setServer] using hfinish
    · exact hu

theorem SpreadInv.step {e : Event n} (hs : SpreadInv s) (hok : keepsEvidence w s e = true)
    (hstep : step w s e = some t) : SpreadInv t := by
  simp only [keepsEvidence, Bool.and_eq_true] at hok
  obtain ⟨⟨⟨honce, htime⟩, hsnap⟩, hfirst⟩ := hok
  cases e with
  | propose i cid =>
    cases hstep
    exact hs.propose honce htime
  | triggerRecovery i =>
    cases hstep
    exact hs.triggerRecovery hsnap hfirst
  | deliver i k j =>
    obtain ⟨m, hm, hstep⟩ := Option.bind_eq_some_iff.mp hstep
    split_ifs at hstep with hreach
    cases hstep
    have hmem := List.mem_of_getElem? hm
    cases m with
    | fastAck replica ballot cid dep => exact hs.deliverFastAck hm honce htime
    | slowAck replica ballot cid => exact hs.deliverSlowAck hm htime
    | newLeader replica ballot =>
      refine hs.deliverNewLeader hm (by simpa [Message.reaches] using hreach) ?_ hfirst
      simpa [snapshotsReport, hm] using hsnap
    | newLeaderAck candidate replica ballot cballot state =>
      obtain rfl : j = candidate := by simpa [Message.reaches] using hreach
      exact hs.deliverAnswer hmem
    | sync replica ballot state =>
      exact hs.deliverSync hmem (by simpa [Message.reaches] using hreach)

theorem spreadInv_init : SpreadInv ({} : System n) := by
  refine { inv_init with sender := ?_, pending := ?_, held := ?_ } <;> simp [Committed]

end Runs

/-- A command committed before a recovery is in the state it merges, with the dependency it was
committed with, if the commits have spread before a replica enters a new ballot. -/
theorem committed_survive_recovery {w : Workload} {s : System n}
    (h : ReachableWhere (step w) (fun s e => keepsEvidence w s e = true) {} s) :
    KeepsCommitted s :=
  (h.invariant (I := SpreadInv) (fun _ _ _ hs hok hstep => hs.step hok hstep)
    spreadInv_init).everywhere.kept

/-- Replicas `x` and `y` commit the command, and `z` recovers with the answer of `y`. -/
def committersRecover (x y z : Fin n) : List (Event n) :=
  [.propose x 1, .propose y 1, .propose z 1, .deliver x 0 y, .deliver y 0 x, .triggerRecovery z,
    .deliver z 1 y, .deliver y 2 z]

def oneKey : Workload := ⟨fun _ => 0, fun _ => true⟩

theorem committed_survive_recovery_answer : ∃ s : System 3,
    ReachableWhere (step oneKey) (fun s e => keepsEvidence oneKey s e = true) {} s ∧
      KeepsCommitted s ∧ Committed s ⟨1, [], 0⟩ ∧ Recovered s ⟨2, [⟨1, .commit, []⟩]⟩ := by
  obtain ⟨s, hs, hp⟩ := exists_reachableWhere
    (p := fun s => (s.server 1).commits == [⟨1, [], 0⟩] &&
      (s.server 2).recoveries == [⟨2, [⟨1, .commit, []⟩]⟩])
    (show (runWhere (step oneKey) (fun s e => keepsEvidence oneKey s e = true)
      ({} : System 3) (committersRecover 0 1 2)).any _ = true by decide +kernel)
  simp only [Bool.and_eq_true, beq_iff_eq] at hp
  refine ⟨s, hs, committed_survive_recovery hs, ⟨1, ?_⟩, ⟨2, ?_⟩⟩
  · rw [hp.1]
    exact List.mem_cons_self
  · rw [hp.2]
    exact List.mem_cons_self

/-- Replica `z` commits the command on the slow path; `y` then recovers with its own snapshot and
that of the old leader `x`. -/
def committerOutvoted (x y z : Fin n) : List (Event n) :=
  [.propose x 1, .propose y 1, .propose z 1, .deliver x 0 z, .triggerRecovery y, .deliver y 1 x,
    .deliver x 1 y]

theorem committed_lost_by_recovery : ∃ s : System 3,
    Reachable (step oneKey) {} s ∧ ¬ KeepsCommitted s := by
  obtain ⟨s, hs, hp⟩ := exists_reachableWhere
    (p := fun s => (s.server 2).commits == [⟨1, [], 0⟩] &&
      (s.server 1).recoveries == [⟨1, []⟩])
    (show (runWhere (step oneKey) (fun _ _ => True)
      ({} : System 3) (committerOutvoted 0 1 2)).any _ = true by decide +kernel)
  simp only [Bool.and_eq_true, beq_iff_eq] at hp
  refine ⟨s, hs, fun hkept => ?_⟩
  have hc : Committed s ⟨1, [], 0⟩ := ⟨2, by rw [hp.1]; exact List.mem_cons_self⟩
  have hr : Recovered s ⟨1, []⟩ := ⟨1, by rw [hp.2]; exact List.mem_cons_self⟩
  obtain ⟨e, he, -⟩ := hkept _ _ hc hr Nat.zero_lt_one
  cases he

end Jetpack.Swift
