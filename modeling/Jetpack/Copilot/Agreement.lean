import Jetpack.Copilot.Handled

/-! Which dependency a committed entry has at each replica. A commit does not store the dependency
it carries, a late FastAccept puts the initial one back, and `EliminateNullDep` marks entries that
no commit has reached. -/

namespace Jetpack.Copilot

open Transition

variable {n : Nat} {α : Type}

def CopilotData.committed (d : CopilotData α) : Bool :=
  Status.commited.toNat ≤ d.status.toNat

/-- Replicas that have committed an entry hold one command and one dependency for it, those of the
Commit message. Slot 0 of both logs is executed from the start and has no message. -/
def CommitAgreement (s : System n α) : Prop :=
  ∀ i j p slot d d', (s.server i).entry p slot = some d → (s.server j).entry p slot = some d' →
    d.committed = true → d'.committed = true →
    d.cmd = d'.cmd ∧ d.depId = d'.depId ∧
      (slot ≠ 0 → ∃ c, s.coord p slot = some c ∧ c.phase = .commit ∧
        d.cmd = some c.cmd ∧ d.depId = c.dep)

/-- What a message means for an entry that is, or gets, committed. -/
def FindsDependency (s : System n α) : Event n α → Prop
  | .deliverFast p slot i => ∀ c d, s.coord p slot = some c → (s.server i).entry p slot = some d →
    d.cmitEvt = true → d.depId = c.initDep
  | .deliverCommit p slot i => ∀ c, s.coord p slot = some c →
    ((s.server i).logInfos p).freed slot = false → ((s.server i).found p slot).depId = c.dep
  | .eliminateNullDep i p slot all => all = true →
    Status.fastAccepted.toNat ≤ ((s.server i).found p slot).status.toNat →
    ((s.server i).found p slot).status ≠ .executed → ((s.server i).found p slot).cmitEvt = true
  | _ => True

/-- The entry is committed only as its coordinator has decided. -/
structure Decided (s : System n α) (p : Side) (slot : Nat) (d : CopilotData α) : Prop where
  decision : d.cmitEvt = true → ∃ c, s.coord p slot = some c ∧ c.phase = .commit ∧
    d.cmd = some c.cmd ∧ d.depId = c.dep
  committed : d.committed = true → d.cmitEvt = true ∨ slot = 0 ∧ d = { status := .executed }

structure AgreementInv (s : System n α) : Prop extends WellFormed s where
  entries : ∀ i p slot d, (s.server i).entry p slot = some d → Decided s p slot d

theorem AgreementInv.commitAgreement {s : System n α} (h : AgreementInv s) : CommitAgreement s := by
  intro i j p slot d d' hd hd' hc hc'
  have hi := h.entries i p slot d hd
  have hj := h.entries j p slot d' hd'
  rcases hi.committed hc with hevt | ⟨rfl, rfl⟩
  · obtain ⟨c, hcoord, hphase, hcmd, hdep⟩ := hi.decision hevt
    rcases hj.committed hc' with hevt' | ⟨rfl, rfl⟩
    · obtain ⟨c', hcoord', -, hcmd', hdep'⟩ := hj.decision hevt'
      obtain rfl : c = c' := Option.some.inj (hcoord.symm.trans hcoord')
      exact ⟨hcmd.trans hcmd'.symm, hdep.trans hdep'.symm, fun _ => ⟨c, hcoord, hphase, hcmd, hdep⟩⟩
    · exact absurd (h.slot p 0 c hcoord).1 (lt_irrefl 0)
  · rcases hj.committed hc' with hevt' | ⟨-, rfl⟩
    · obtain ⟨c', hcoord', -⟩ := hj.decision hevt'
      exact absurd (h.slot p 0 c' hcoord').1 (lt_irrefl 0)
    · exact ⟨rfl, rfl, fun hne => absurd rfl hne⟩

theorem Decided.default (s : System n α) (p : Side) (slot : Nat) : Decided s p slot {} := by
  refine ⟨fun h => ?_, fun h => ?_⟩
  · cases h
  · simp [CopilotData.committed, Status.toNat] at h

theorem AgreementInv.found {s : System n α} (h : AgreementInv s) (i : Fin n) (p : Side)
    (slot : Nat) : Decided s p slot ((s.server i).found p slot) := by
  unfold CopilotServer.found
  cases hd : (s.server i).entry p slot with
  | none => exact Decided.default s p slot
  | some d => exact h.entries i p slot d hd

theorem AgreementInv.erases {s : System n α} (h : AgreementInv s) {i : Fin n} {r : CopilotServer α}
    (hr : Erases (s.server i) r) : AgreementInv (s.setServer i r) where
  toWellFormed := h.toWellFormed.setServer hr.current_le
  entries j p slot d hd := by
    have hdec := h.entries j p slot d (System.entry_of_erases hr hd)
    exact ⟨hdec.decision, hdec.committed⟩

theorem AgreementInv.writes {s : System n α} (h : AgreementInv s) {i : Fin n} {r : CopilotServer α}
    {p : Side} {slot : Nat} {d : CopilotData α} (hr : Writes (s.server i) r p slot d)
    (hd : Decided s p slot d) : AgreementInv (s.setServer i r) where
  toWellFormed := h.toWellFormed.setServer hr.current_le
  entries j q k e he := by
    have hdec : Decided s q k e := by
      obtain ⟨rfl, rfl, rfl⟩ | hold := System.entry_of_writes hr he
      · exact hd
      · exact h.entries j q k e hold
    exact ⟨hdec.decision, hdec.committed⟩

theorem AgreementInv.setCoord {s : System n α} (h : AgreementInv s) {p : Side} {slot : Nat}
    {c c' : Coordinator n α} (hc : s.coord p slot = some c) (hadv : c.Advances c') :
    AgreementInv (s.setCoord p slot c') where
  toWellFormed := h.toWellFormed.setCoord hc hadv
  entries i q k d hd := by
    obtain ⟨hdecision, hcommitted⟩ := h.entries i q k d hd
    refine ⟨fun hevt => ?_, hcommitted⟩
    obtain ⟨b, hb, hphase, hcmd, hdep⟩ := hdecision hevt
    by_cases hqk : q = p ∧ k = slot
    · obtain ⟨rfl, rfl⟩ := hqk
      obtain rfl : b = c := Option.some.inj (hb.symm.trans hc)
      refine ⟨c', System.coord_setCoord_self _ _ _, hadv.commit hphase, ?_, ?_⟩
      · rw [hadv.cmd]
        exact hcmd
      · rw [hadv.dep (by simp [hphase])]
        exact hdep
    · exact ⟨b, (System.coord_setCoord_ne c' hqk).trans hb, hphase, hcmd, hdep⟩

theorem AgreementInv.submit {s t : System n α} (h : AgreementInv s) {i : Fin n} {cmd : α}
    (hstep : s.submit i cmd = some t) : AgreementInv t where
  toWellFormed := h.toWellFormed.submit hstep
  entries j q k d hd := by
    obtain ⟨p, hp, rfl⟩ := submit_eq_some hstep
    have hs := h.erases (pickInitSlotAndDep_rests (s.server i) p).erases
    obtain ⟨hdecision, hcommitted⟩ := hs.entries j q k d hd
    refine ⟨fun hevt => ?_, hcommitted⟩
    obtain ⟨c, hc, hrest⟩ := hdecision hevt
    have hqk : ¬ (q = p ∧ k = ((s.server i).logInfos p).currentSlot + 1) := by
      rintro ⟨rfl, rfl⟩
      have hnone := h.unassigned hp
      change s.coord _ _ = some c at hc
      rw [hnone] at hc
      cases hc
    exact ⟨c, (System.coord_setCoord_ne _ hqk).trans hc, hrest⟩

theorem AgreementInv.deliverFast {s t : System n α} (h : AgreementInv s) {p : Side} {slot : Nat}
    {i : Fin n} (hok : FindsDependency s (.deliverFast p slot i))
    (hstep : s.deliverFast p slot i = some t) : AgreementInv t := by
  obtain ⟨c, hc, hstep⟩ := Option.bind_eq_some_iff.mp hstep
  split_ifs at hstep
  obtain ⟨⟨r, reply⟩, hr, hstep⟩ := Option.bind_eq_some_iff.mp hstep
  obtain ⟨c', hc', hstep⟩ := Option.bind_eq_some_iff.mp hstep
  cases hstep
  refine AgreementInv.setCoord ?_ hc (Coordinator.advances_answerFast hc')
  obtain ⟨-, ⟨-, rfl, -⟩ | ⟨-, ⟨-, hw⟩ | ⟨-, hw⟩⟩⟩ := CopilotServer.onFastAccept_cases hr
  · exact h.erases (Rests.refl _).erases
  · refine h.writes hw ⟨fun hevt => ?_, fun hcommitted => ?_⟩
    · change ((s.server i).found p slot).cmitEvt = true at hevt
      obtain ⟨b, hb, hphase, -, hdep⟩ := (h.found i p slot).decision hevt
      obtain rfl : b = c := Option.some.inj (hb.symm.trans hc)
      refine ⟨b, hb, hphase, rfl, ?_⟩
      -- the entry is committed, so it has the initial dependency already
      have hentry : (s.server i).entry p slot = some ((s.server i).found p slot) := by
        cases hd : (s.server i).entry p slot with
        | none => simp [CopilotServer.found, hd] at hevt
        | some d => simp [CopilotServer.found, hd]
      exact (hok b _ hc hentry hevt).symm.trans hdep
    · split_ifs at hcommitted <;> simp [CopilotData.committed, Status.toNat] at hcommitted
  · exact h.writes hw (h.found i p slot)

theorem AgreementInv.deliverAccept {s t : System n α} (h : AgreementInv s) {p : Side} {slot : Nat}
    {i : Fin n} (hstep : s.deliverAccept p slot i = some t) : AgreementInv t := by
  obtain ⟨c, hc, hstep⟩ := Option.bind_eq_some_iff.mp hstep
  split_ifs at hstep
  cases hstep
  refine AgreementInv.setCoord ?_ hc (Coordinator.advances_answerAccept i _)
  obtain ⟨-, ⟨-, he⟩ | ⟨-, hw⟩ | ⟨-, hw⟩⟩ := CopilotServer.onAccept_cases
    (Prod.mk.eta (p := (s.server i).onAccept p slot c.ballot c.dep c.cmd)).symm
  · exact h.erases he.erases
  · refine h.writes hw ⟨fun hevt => ?_, fun hcommitted => ?_⟩
    · obtain ⟨b, hb, hphase, -, -⟩ := (h.found i p slot).decision hevt
      obtain rfl : b = c := Option.some.inj (hb.symm.trans hc)
      exact ⟨b, hb, hphase, rfl, rfl⟩
    · simp [CopilotData.committed, Status.toNat] at hcommitted
  · exact h.writes hw (h.found i p slot)

theorem AgreementInv.deliverCommit {s t : System n α} (h : AgreementInv s) {p : Side} {slot : Nat}
    {i : Fin n} (hok : FindsDependency s (.deliverCommit p slot i))
    (hstep : s.deliverCommit p slot i = some t) : AgreementInv t := by
  obtain ⟨c, r, hc, hsent, hr, rfl⟩ := System.deliverCommit_eq_some hstep
  refine AgreementInv.setCoord ?_ hc (Coordinator.advances_deliveredCommit hsent)
  rcases CopilotServer.onCommit_cases hr with ⟨-, he⟩ | ⟨-, hw⟩ | ⟨hlt, hw⟩
  · exact h.erases he.erases
  · exact h.writes hw (h.found i p slot)
  · refine h.writes hw ⟨fun _ => ?_, fun _ => .inl rfl⟩
    have hphase : c.phase = .commit := h.sent p slot c hc ⟨i, by simp [hsent]⟩
    exact ⟨c, hc, hphase, rfl, hok c hc hw.live⟩

theorem AgreementInv.executeCmd {s : System n α} (h : AgreementInv s) {p : Side} {slot : Nat}
    {i : Fin n} {r : CopilotServer α} (hr : (s.server i).executeCmd p slot = some r) :
    AgreementInv (s.setServer i r) := by
  obtain he | hw | ⟨hdone, hw⟩ := CopilotServer.executeCmd_cases hr
  · exact h.erases he.erases
  · exact h.writes hw (h.found i p slot)
  · have hfound := h.found i p slot
    refine h.writes hw ⟨fun hevt => hfound.decision hevt, fun _ => ?_⟩
    rcases hdone with hcommitted | hevt
    · rcases hfound.committed (decide_eq_true hcommitted) with hevt | ⟨rfl, hd⟩
      · exact .inl hevt
      · exact .inr ⟨rfl, by rw [hd]⟩
    · exact .inl hevt

theorem AgreementInv.eliminateNullDep {s : System n α} (h : AgreementInv s) {p : Side} {slot : Nat}
    {i : Fin n} {all : Bool} {r : CopilotServer α}
    (hok : FindsDependency s (.eliminateNullDep i p slot all))
    (hr : (s.server i).eliminateNullDep p slot all = some r) : AgreementInv (s.setServer i r) := by
  obtain hw | ⟨hge, hne, rfl, hw⟩ := CopilotServer.eliminateNullDep_cases hr
  · exact h.writes hw (h.found i p slot)
  · exact h.writes hw ⟨fun _ => (h.found i p slot).decision (hok rfl hge hne), fun _ => .inl rfl⟩

theorem AgreementInv.step {s t : System n α} {e : Event n α} (h : AgreementInv s)
    (hok : FindsDependency s e) (hstep : step s e = some t) : AgreementInv t := by
  cases e with
  | submit i cmd => exact h.submit hstep
  | deliverFast p slot i => exact h.deliverFast hok hstep
  | feedFast p slot i =>
    obtain ⟨c, c', hc, hc', rfl⟩ := System.setCoord_eq_some hstep
    exact h.setCoord hc (Coordinator.advances_feedFast hc')
  | finishFast p slot =>
    obtain ⟨c, c', hc, hc', rfl⟩ := System.setCoord_eq_some hstep
    exact h.setCoord hc (Coordinator.advances_finishFast hc')
  | deliverAccept p slot i => exact h.deliverAccept hstep
  | feedAccept p slot i =>
    obtain ⟨c, c', hc, hc', rfl⟩ := System.setCoord_eq_some hstep
    exact h.setCoord hc (Coordinator.advances_feedAccept hc')
  | finishAccept p slot =>
    obtain ⟨c, c', hc, hc', rfl⟩ := System.setCoord_eq_some hstep
    exact h.setCoord hc (Coordinator.advances_finishAccept hc')
  | deliverCommit p slot i => exact h.deliverCommit hok hstep
  | executeCmd i p slot =>
    obtain ⟨r, hr, rfl⟩ := Option.map_eq_some_iff.mp hstep
    exact h.executeCmd hr
  | eliminateNullDep i p slot all =>
    obtain ⟨r, hr, rfl⟩ := Option.map_eq_some_iff.mp hstep
    exact h.eliminateNullDep hok hr
  | freeCmds i p =>
    obtain ⟨r, hr, rfl⟩ := Option.map_eq_some_iff.mp hstep
    exact h.erases (CopilotServer.freeCmds_erases hr)

theorem agreementInv_init : AgreementInv (System.init : System n α) where
  toWellFormed := wellFormed_init
  entries i p slot d hd := by
    by_cases hslot : slot = 0
    · subst hslot
      cases (Option.some.inj hd : { status := .executed } = d)
      refine ⟨fun h => ?_, fun _ => .inr ⟨rfl, rfl⟩⟩
      cases h
    · rw [System.init, CopilotServer.entry, CopilotServer.setup,
        CopilotLogInfo.entry_set_ne _ _ hslot] at hd
      cases hd

/-- The condition on the order of the messages, as a replica finds it in its entries. -/
theorem HeldInv.findsDependency {s : System n α} {e : Event n α} (h : HeldInv s)
    (ha : AgreementInv s) (hok : KeepsDependency s e = true) : FindsDependency s e := by
  cases e with
  | deliverFast p slot i =>
    intro c d hc hd hevt
    have hold := h.holds i p slot
    rw [hc, hd] at hold
    have hlive : ((s.server i).logInfos p).freed slot = false := by
      rw [← Bool.not_eq_true]
      intro hgone
      cases hold.freed hgone
    have hhandled := hold.event c rfl hevt
    have hsame : c.initDep = c.dep := by simpa [KeepsDependency, hc, hlive, hhandled] using hok
    obtain ⟨b, hb, -, -, hdep⟩ := (ha.entries i p slot d hd).decision hevt
    obtain rfl := Option.some.inj (hc.symm.trans hb)
    exact hdep.trans hsame.symm
  | deliverCommit p slot i =>
    intro c hc hlive
    have hold := h.holds i p slot
    rw [hc] at hold
    refine (hold.given c rfl hlive).dep.trans ?_
    unfold Coordinator.givenDep
    by_cases haccept : (c.accept i).handled = true
    · rw [if_pos haccept]
    · rw [if_neg haccept]
      cases hfast : (c.fast i).handled with
      | true => simpa [KeepsDependency, hc, hlive, haccept, hfast] using hok
      | false =>
        have hzero : c.dep = 0 := by simpa [KeepsDependency, hc, hlive, haccept, hfast] using hok
        exact hzero.symm
  | eliminateNullDep i p slot all =>
    rintro rfl hge hne
    have hold := h.holds i p slot
    have hlive : ((s.server i).logInfos p).freed slot = false := by
      rw [← Bool.not_eq_true]
      intro hgone
      rw [CopilotServer.found, hold.freed hgone] at hge
      change 1 ≤ 0 at hge
      omega
    cases hc : s.coord p slot with
    | none => simp [KeepsDependency, hc, hne, hge.not_gt] at hok
    | some c =>
      rw [hc] at hold
      refine (hold.given c rfl hlive).commit ?_
      simpa [KeepsDependency, hc, hne, hge.not_gt] using hok
  | _ => trivial

theorem HeldInv.step {s t : System n α} {e : Event n α} (h : HeldInv s) (ha : AgreementInv s)
    (hok : KeepsDependency s e = true) (hstep : Copilot.step s e = some t) : HeldInv t := by
  cases e with
  | submit i cmd => exact h.submit ha.toWellFormed hstep
  | deliverFast p slot i => exact h.deliverFast hok hstep
  | feedFast p slot i =>
    obtain ⟨c, c', hc, hc', rfl⟩ := System.setCoord_eq_some hstep
    exact h.setCoord hc (Coordinator.waits_feedFast hc')
  | finishFast p slot =>
    obtain ⟨c, c', hc, hc', rfl⟩ := System.setCoord_eq_some hstep
    refine h.setCoord hc fun i => Coordinator.waits_finishFast hc' ?_ (ha.handled hc i)
    exact (h.holds i p slot).accept c hc
  | deliverAccept p slot i => exact h.deliverAccept hstep
  | feedAccept p slot i =>
    obtain ⟨c, c', hc, hc', rfl⟩ := System.setCoord_eq_some hstep
    exact h.setCoord hc (Coordinator.waits_feedAccept hc')
  | finishAccept p slot =>
    obtain ⟨c, c', hc, hc', rfl⟩ := System.setCoord_eq_some hstep
    exact h.setCoord hc fun i => Coordinator.waits_finishAccept hc' (ha.handled hc i)
  | deliverCommit p slot i =>
    refine h.deliverCommit (fun hcommitted => ?_) hstep
    obtain ⟨c, hc, -⟩ := Option.bind_eq_some_iff.mp hstep
    rcases (ha.found i p slot).committed (decide_eq_true hcommitted) with hevt | ⟨rfl, -⟩
    · exact hevt
    · exact absurd (ha.slot p 0 c hc).1 (lt_irrefl 0)
  | executeCmd i p slot =>
    obtain ⟨r, hr, rfl⟩ := Option.map_eq_some_iff.mp hstep
    exact h.executeCmd hr
  | eliminateNullDep i p slot all =>
    obtain ⟨r, hr, rfl⟩ := Option.map_eq_some_iff.mp hstep
    exact h.eliminateNullDep hok hr
  | freeCmds i p =>
    obtain ⟨r, hr, rfl⟩ := Option.map_eq_some_iff.mp hstep
    exact h.freeCmds hr

theorem commits_agree {s : System n α}
    (h : ReachableWhere step (fun s e => KeepsDependency s e = true) System.init s) :
    CommitAgreement s := by
  have hinv := ReachableWhere.invariant (I := fun s => HeldInv s ∧ AgreementInv s)
    (fun _ _ _ hs hok ht =>
      ⟨hs.1.step hs.2 hok ht, hs.2.step (hs.1.findsDependency hs.2 hok) ht⟩) h
    ⟨.initial, agreementInv_init⟩
  exact hinv.2.commitAgreement

section Runs

/-- The pilot `a` has seen an entry of the copilot `b` and commits one that depends on it, with the
answer of `c`. -/
def fastCommit (a b c : Fin n) : List (Event n Nat) :=
  [.submit b 20, .deliverFast .copilot 1 a, .submit a 10, .deliverFast .pilot 1 a,
    .deliverFast .pilot 1 c, .feedFast .pilot 1 c, .finishFast .pilot 1, .deliverCommit .pilot 1 a]

def firstCommitted (s : System n Nat) (i : Fin n) : Option (Option Nat × Nat) :=
  ((s.server i).entry .pilot 1).bind fun d => if d.committed then some (d.cmd, d.depId) else none

end Runs

theorem commits_agree_accepted :
    ∃ s : System 3 Nat, ReachableWhere step (fun s e => KeepsDependency s e = true) System.init s ∧
      firstCommitted s 0 = some (some 10, 1) ∧ firstCommitted s 2 = some (some 10, 1) ∧
      CommitAgreement s := by
  have hrun : (runWhere step (fun s e => KeepsDependency s e = true) System.init
      (fastCommit (0 : Fin 3) 1 2 ++ [.deliverCommit .pilot 1 2])).any
        (fun s => firstCommitted s 0 == some (some 10, 1) &&
          firstCommitted s 2 == some (some 10, 1)) = true := by decide +kernel
  obtain ⟨s, hs, hp⟩ := exists_reachableWhere hrun
  simp only [Bool.and_eq_true, beq_iff_eq] at hp
  exact ⟨s, hs, hp.1, hp.2, commits_agree hs⟩

/-- The copilot commits the entry without having accepted it and holds no dependency for it. -/
theorem committed_with_two_dependencies :
    ∃ s : System 3 Nat, Reachable step System.init s ∧
      firstCommitted s 0 = some (some 10, 1) ∧ firstCommitted s 1 = some (some 10, 0) ∧
      ¬ CommitAgreement s := by
  have hrun : (runWhere step (fun _ _ => True) System.init
      (fastCommit (0 : Fin 3) 1 2 ++ [.deliverCommit .pilot 1 1])).any
        (fun s => firstCommitted s 0 == some (some 10, 1) &&
          firstCommitted s 1 == some (some 10, 0)) = true := by decide +kernel
  obtain ⟨s, hs, hp⟩ := exists_reachableWhere hrun
  simp only [Bool.and_eq_true, beq_iff_eq] at hp
  refine ⟨s, hs, hp.1, hp.2, fun hagree => ?_⟩
  obtain ⟨d, hd, hfirst⟩ := Option.bind_eq_some_iff.mp hp.1
  obtain ⟨d', hd', hsecond⟩ := Option.bind_eq_some_iff.mp hp.2
  split_ifs at hfirst hsecond with hc hc'
  have hdep := (hagree 0 1 .pilot 1 d d' hd hd' hc hc').2.1
  rw [(Prod.mk.inj (Option.some.inj hfirst)).2, (Prod.mk.inj (Option.some.inj hsecond)).2] at hdep
  cases hdep

end Jetpack.Copilot
