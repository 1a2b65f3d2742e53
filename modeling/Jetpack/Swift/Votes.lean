import Jetpack.Swift.System

/-! What a proposal or an ack does to a replica: it records votes on one command and, once there is a
quorum, commits that command. -/

namespace Jetpack.Swift

variable {n : Nat}

/-- The votes on `cid` change and nothing is committed. A dependency of the leader that is new meets
`P`, and the messages sent meet `Q`. -/
structure Records (s t : SwiftPaxosServer n) (cid : CmdId) (P : List CmdId → Prop)
    (Q : Message n → Prop) : Prop where
  ballot : t.ballot = s.ballot
  cballot : t.cballot = s.cballot
  recovering : t.recovering = s.recovering
  pending : t.pendingNewLeaderAcks = s.pendingNewLeaderAcks
  recoveries : t.recoveries = s.recoveries
  delivered : t.delivered = s.delivered
  applied : t.applied = s.applied
  commits : t.commits = s.commits
  desc_ne : ∀ c, c ≠ cid → t.cmdDescs c = s.cmdDescs c
  known : ∀ c ∈ s.known, c ∈ t.known
  known_self : t.cmdDescs cid = s.cmdDescs cid ∨ cid ∈ t.known
  committed : (t.cmdDescs cid).committed = (s.cmdDescs cid).committed
  decided : (t.cmdDescs cid).delivered = (s.cmdDescs cid).delivered
  phase : (t.cmdDescs cid).phase = (s.cmdDescs cid).phase ∨
    (s.cmdDescs cid).phase = .start ∧ (t.cmdDescs cid).phase = .preAccept
  acked : (s.cmdDescs cid).leaderAcked = true → (t.cmdDescs cid).leaderAcked = true
  leader : (t.cmdDescs cid).leaderAcked = true →
    (s.cmdDescs cid).leaderAcked = true ∧
      (t.cmdDescs cid).leaderDep = (s.cmdDescs cid).leaderDep ∨ P (t.cmdDescs cid).leaderDep
  sent : ∃ ms, t.sent = s.sent ++ ms ∧ ∀ m ∈ ms, Q m

section Recording

variable {s t u : SwiftPaxosServer n} {cid : CmdId} {P : List CmdId → Prop} {Q : Message n → Prop}

theorem Records.refl : Records s s cid P Q where
  ballot := rfl
  cballot := rfl
  recovering := rfl
  pending := rfl
  recoveries := rfl
  delivered := rfl
  applied := rfl
  commits := rfl
  desc_ne _ _ := rfl
  known _ h := h
  known_self := .inl rfl
  committed := rfl
  decided := rfl
  phase := .inl rfl
  acked h := h
  leader h := .inl ⟨h, rfl⟩
  sent := ⟨[], by simp, by simp⟩

theorem Records.trans (h : Records s t cid P Q) (h' : Records t u cid P Q) :
    Records s u cid P Q where
  ballot := h'.ballot.trans h.ballot
  cballot := h'.cballot.trans h.cballot
  recovering := h'.recovering.trans h.recovering
  pending := h'.pending.trans h.pending
  recoveries := h'.recoveries.trans h.recoveries
  delivered := h'.delivered.trans h.delivered
  applied := h'.applied.trans h.applied
  commits := h'.commits.trans h.commits
  desc_ne c hc := (h'.desc_ne c hc).trans (h.desc_ne c hc)
  known c hc := h'.known c (h.known c hc)
  known_self := by
    rcases h'.known_self with heq | hmem
    · rcases h.known_self with heq' | hmem
      · exact .inl (heq.trans heq')
      · exact .inr (h'.known _ hmem)
    · exact .inr hmem
  committed := h'.committed.trans h.committed
  decided := h'.decided.trans h.decided
  phase := by
    rcases h.phase with hp | ⟨hp, hp'⟩ <;> rcases h'.phase with hq | ⟨hq, hq'⟩ <;> simp_all
  acked ha := h'.acked (h.acked ha)
  leader ha := by
    rcases h'.leader ha with ⟨ha', heq⟩ | hP
    · rw [heq]
      exact h.leader ha'
    · exact .inr hP
  sent := by
    obtain ⟨ms, hms, hQ⟩ := h.sent
    obtain ⟨ms', hms', hQ'⟩ := h'.sent
    refine ⟨ms ++ ms', by rw [hms', hms, List.append_assoc], fun m hm => ?_⟩
    exact (List.mem_append.mp hm).elim (hQ m) (hQ' m)

theorem known_setDesc (s : SwiftPaxosServer n) (cid : CmdId) (d : SwiftCmdDesc n) (c : CmdId) :
    c ∈ (s.setDesc cid d).known ↔ c ∈ s.known ∨ c = cid := by
  unfold SwiftPaxosServer.setDesc
  by_cases h : s.known.contains cid = true
  · rw [if_pos h]
    refine ⟨.inl, fun hc => hc.elim id fun hc => ?_⟩
    rw [hc]
    exact List.contains_iff_mem.mp h
  · rw [if_neg h, List.mem_append, List.mem_singleton]

theorem records_setDesc {d : SwiftCmdDesc n} (hc : d.committed = (s.cmdDescs cid).committed)
    (hd : d.delivered = (s.cmdDescs cid).delivered)
    (hp : d.phase = (s.cmdDescs cid).phase ∨ (s.cmdDescs cid).phase = .start ∧ d.phase = .preAccept)
    (ha : (s.cmdDescs cid).leaderAcked = true → d.leaderAcked = true)
    (hl : d.leaderAcked = true → (s.cmdDescs cid).leaderAcked = true ∧
      d.leaderDep = (s.cmdDescs cid).leaderDep ∨ P d.leaderDep) :
    Records s (s.setDesc cid d) cid P Q := by
  have hself : (s.setDesc cid d).cmdDescs cid = d := Function.update_self ..
  have hne : ∀ c, c ≠ cid → (s.setDesc cid d).cmdDescs c = s.cmdDescs c :=
    fun c hc => Function.update_of_ne hc ..
  refine ⟨rfl, rfl, rfl, rfl, rfl, rfl, rfl, rfl, hne, fun c hc => ?_, .inr ?_, ?_, ?_, ?_, ?_, ?_,
    ⟨[], by simp [SwiftPaxosServer.setDesc], by simp⟩⟩
  · exact (known_setDesc ..).mpr (.inl hc)
  · exact (known_setDesc ..).mpr (.inr rfl)
  all_goals rw [hself]; assumption

theorem records_send {m : Message n} (hQ : Q m) : Records s (s.send m) cid P Q := by
  have h : Records s s cid P Q := .refl
  exact { h with sent := ⟨[m], rfl, by simpa using hQ⟩ }

theorem records_maybeSendLightSlowAck {loc : Fin n}
    (hQ : (s.cmdDescs cid).myDepSet = true → Q (.slowAck loc s.ballot cid)) :
    Records s (s.maybeSendLightSlowAck loc cid) cid P Q := by
  simp only [SwiftPaxosServer.maybeSendLightSlowAck]
  split_ifs with hskip
  · exact .refl
  · have hmine : (s.cmdDescs cid).myDepSet = true := by
      simp only [Bool.or_eq_true, Bool.not_eq_true'] at hskip
      exact eq_true_of_ne_false fun hno => hskip (.inr hno)
    refine Records.trans ?_ (records_send (hQ hmine))
    exact records_setDesc rfl rfl (.inl rfl) id fun h => .inl ⟨h, rfl⟩

theorem records_recallSlowAck {loc : Fin n} (hQ : Q (.slowAck loc s.ballot cid)) :
    Records s (s.recallSlowAck loc cid) cid P Q := by
  simp only [SwiftPaxosServer.recallSlowAck]
  split_ifs
  · exact records_maybeSendLightSlowAck fun _ => hQ
  · exact .refl

theorem records_recordFastAck {loc replica : Fin n} {dep : List CmdId}
    (hP : s.leads replica = true → P dep)
    (hQ : (s.cmdDescs cid).myDepSet = true → Q (.slowAck loc s.ballot cid)) :
    Records s (s.recordFastAck loc replica cid dep) cid P Q := by
  simp only [SwiftPaxosServer.recordFastAck]
  split_ifs with hlead
  · refine Records.trans ?_ (records_maybeSendLightSlowAck fun hmine => hQ ?_)
    · exact records_setDesc rfl rfl (.inl rfl) (fun _ => rfl) fun _ => .inr (hP hlead)
    · simpa [SwiftPaxosServer.setDesc, SwiftCmdDesc.anchor, SwiftCmdDesc.emplaceFastAck] using hmine
  · exact records_setDesc rfl rfl (.inl rfl) id fun h => .inl ⟨h, rfl⟩

theorem records_preAccept (w : Workload) : Records s (s.preAccept w cid) cid P Q := by
  have h : Records s (s.setDesc cid ((s.preAccept w cid).cmdDescs cid)) cid P Q := by
    apply records_setDesc <;> simp only [SwiftPaxosServer.preAccept, SwiftPaxosServer.setDesc,
      Function.update_self] <;> split_ifs with hstart <;> simp +contextual [hstart]
  have hdesc : (s.setDesc cid ((s.preAccept w cid).cmdDescs cid)).cmdDescs =
      (s.preAccept w cid).cmdDescs := by
    simp [SwiftPaxosServer.preAccept, SwiftPaxosServer.setDesc]
  exact { h with
    desc_ne := hdesc ▸ h.desc_ne
    known_self := hdesc ▸ h.known_self
    committed := hdesc ▸ h.committed
    decided := hdesc ▸ h.decided
    phase := hdesc ▸ h.phase
    acked := hdesc ▸ h.acked
    leader := hdesc ▸ h.leader }

end Recording

/-- The votes on `cid` change, and `done` says that it is committed. -/
structure Votes (s t : SwiftPaxosServer n) (cid : CmdId) (P : List CmdId → Prop)
    (Q : Message n → Prop) (done : Bool) : Prop where
  ballot : t.ballot = s.ballot
  cballot : t.cballot = s.cballot
  recovering : t.recovering = s.recovering
  pending : t.pendingNewLeaderAcks = s.pendingNewLeaderAcks
  recoveries : t.recoveries = s.recoveries
  delivered : t.delivered = s.delivered ++ if done then [cid] else []
  applied : t.applied = s.applied ∨ done = true ∧ t.applied = s.applied ++ [cid]
  commits : t.commits = s.commits ++
    if done then [⟨cid, (t.cmdDescs cid).leaderDep, s.ballot⟩] else []
  desc_ne : ∀ c, c ≠ cid → t.cmdDescs c = s.cmdDescs c
  known : ∀ c ∈ s.known, c ∈ t.known
  known_self : t.cmdDescs cid = s.cmdDescs cid ∨ cid ∈ t.known
  undecided : (s.cmdDescs cid).decided = false
  committed : (t.cmdDescs cid).committed = done
  decided : (t.cmdDescs cid).delivered = done
  phase_done : done = true → (t.cmdDescs cid).phase = .commit
  phase : done = false → (t.cmdDescs cid).phase = (s.cmdDescs cid).phase ∨
    (s.cmdDescs cid).phase = .start ∧ (t.cmdDescs cid).phase = .preAccept
  acked : done = true → (t.cmdDescs cid).leaderAcked = true
  leader : (t.cmdDescs cid).leaderAcked = true →
    (s.cmdDescs cid).leaderAcked = true ∧
      (t.cmdDescs cid).leaderDep = (s.cmdDescs cid).leaderDep ∨ P (t.cmdDescs cid).leaderDep
  sent : ∃ ms, t.sent = s.sent ++ ms ∧ ∀ m ∈ ms, Q m

section Voting

variable {s t u : SwiftPaxosServer n} {cid : CmdId} {P : List CmdId → Prop} {Q : Message n → Prop}
  {done : Bool}

theorem SwiftCmdDesc.decided_eq_false {d : SwiftCmdDesc n} :
    d.decided = false ↔ d.committed = false ∧ d.delivered = false := by
  simp [SwiftCmdDesc.decided]

theorem commitWith_eq (s : SwiftPaxosServer n) (cid : CmdId) (d : SwiftCmdDesc n) :
    ∃ known, (∀ c, c ∈ known ↔ c ∈ s.known ∨ c = cid) ∧ s.commitWith cid d =
      { s with
        cmdDescs := Function.update s.cmdDescs cid
          { d with committed := true, phase := .commit, delivered := true }
        known := known
        commits := s.commits ++ [⟨cid, d.leaderDep, s.ballot⟩]
        delivered := if d.delivered then s.delivered else s.delivered ++ [cid]
        applied := if d.delivered || !d.cmd then s.applied else s.applied ++ [cid] } := by
  cases hd : d.delivered with
  | false =>
    refine ⟨((s.setDesc cid d).setDesc cid d).known, fun c => ?_, ?_⟩
    · rw [known_setDesc, known_setDesc, or_assoc, or_self]
    · cases hc : d.cmd <;>
        simp [SwiftPaxosServer.commitWith, SwiftPaxosServer.deliver, SwiftPaxosServer.setDesc, hd, hc]
  | true =>
    refine ⟨(s.setDesc cid d).known, known_setDesc s cid d, ?_⟩
    simp [SwiftPaxosServer.commitWith, SwiftPaxosServer.deliver, SwiftPaxosServer.setDesc, hd]

theorem votes_checkCommit (h : Records s u cid P Q) (hund : (s.cmdDescs cid).decided = false) :
    Votes s (u.checkCommit cid) cid P Q (u.cmdDescs cid).quorumReached := by
  obtain ⟨hc, hd⟩ := SwiftCmdDesc.decided_eq_false.mp hund
  have huc : (u.cmdDescs cid).committed = false := h.committed.trans hc
  have hud : (u.cmdDescs cid).delivered = false := h.decided.trans hd
  cases hq : (u.cmdDescs cid).quorumReached with
  | false =>
    have heq : u.checkCommit cid = u := by simp [SwiftPaxosServer.checkCommit, huc, hq]
    rw [heq]
    exact
      { ballot := h.ballot
        cballot := h.cballot
        recovering := h.recovering
        pending := h.pending
        recoveries := h.recoveries
        delivered := by simp [h.delivered]
        applied := .inl h.applied
        commits := by simp [h.commits]
        desc_ne := h.desc_ne
        known := h.known
        known_self := h.known_self
        undecided := hund
        committed := huc
        decided := hud
        phase_done := by simp
        phase := fun _ => h.phase
        acked := by simp
        leader := h.leader
        sent := h.sent }
  | true =>
    obtain ⟨known, hknown, hcommit⟩ := commitWith_eq u cid (u.cmdDescs cid)
    have heq : u.checkCommit cid = u.commitWith cid (u.cmdDescs cid) := by
      simp [SwiftPaxosServer.checkCommit, huc, hq]
    have hacked : (u.cmdDescs cid).leaderAcked = true := by
      simp only [SwiftCmdDesc.quorumReached, Bool.and_eq_true] at hq
      exact hq.1
    rw [heq, hcommit]
    exact
      { ballot := h.ballot
        cballot := h.cballot
        recovering := h.recovering
        pending := h.pending
        recoveries := h.recoveries
        delivered := by simp [hud, h.delivered]
        applied := by
          cases (u.cmdDescs cid).cmd
          · exact .inl (by simpa using h.applied)
          · exact .inr ⟨rfl, by simpa [hud] using h.applied⟩
        commits := by simp [h.commits, h.ballot]
        desc_ne := fun c hne => (Function.update_of_ne hne ..).trans (h.desc_ne c hne)
        known := fun c hmem => (hknown c).mpr (.inl (h.known c hmem))
        known_self := .inr ((hknown cid).mpr (.inr rfl))
        undecided := hund
        committed := by simp
        decided := by simp
        phase_done := by simp
        phase := by simp
        acked := by simpa using hacked
        leader := by simpa using h.leader
        sent := h.sent }

/-- Votes recorded after the commit change nothing of it. -/
theorem Votes.records (h : Votes s t cid P Q done) (h' : Records t u cid (fun _ => False) Q) :
    Votes s u cid P Q done := by
  have hdep : (t.cmdDescs cid).leaderAcked = true →
      (u.cmdDescs cid).leaderDep = (t.cmdDescs cid).leaderDep := by
    intro ha
    exact (h'.leader (h'.acked ha)).elim (·.2) False.elim
  exact
    { ballot := h'.ballot.trans h.ballot
      cballot := h'.cballot.trans h.cballot
      recovering := h'.recovering.trans h.recovering
      pending := h'.pending.trans h.pending
      recoveries := h'.recoveries.trans h.recoveries
      delivered := h'.delivered.trans h.delivered
      applied := by rw [h'.applied]; exact h.applied
      commits := by
        rw [h'.commits, h.commits]
        cases done with
        | false => rfl
        | true => rw [hdep (h.acked rfl)]
      desc_ne := fun c hne => (h'.desc_ne c hne).trans (h.desc_ne c hne)
      known := fun c hmem => h'.known c (h.known c hmem)
      known_self := by
        rcases h'.known_self with heq | hmem
        · rcases h.known_self with heq' | hmem
          · exact .inl (heq.trans heq')
          · exact .inr (h'.known _ hmem)
        · exact .inr hmem
      undecided := h.undecided
      committed := h'.committed.trans h.committed
      decided := h'.decided.trans h.decided
      phase_done := fun hdone => by
        have hp := h.phase_done hdone
        rcases h'.phase with heq | ⟨hstart, -⟩
        · exact heq.trans hp
        · rw [hp] at hstart
          cases hstart
      phase := fun hdone => by
        rcases h.phase hdone with hp | ⟨hp, hp'⟩ <;> rcases h'.phase with hq | ⟨hq, hq'⟩ <;> simp_all
      acked := fun hdone => h'.acked (h.acked hdone)
      leader := fun ha => by
        rcases h'.leader ha with ⟨ha', heq⟩ | hno
        · rw [heq]
          exact h.leader ha'
        · exact hno.elim
      sent := by
        obtain ⟨ms, hms, hQ⟩ := h.sent
        obtain ⟨ms', hms', hQ'⟩ := h'.sent
        refine ⟨ms ++ ms', by rw [hms', hms, List.append_assoc], fun m hm => ?_⟩
        exact (List.mem_append.mp hm).elim (hQ m) (hQ' m) }

theorem onFastAck_of_decided {loc replica : Fin n} {dep : List CmdId}
    (h : (s.cmdDescs cid).decided = true) : s.onFastAck loc replica cid dep = s := by
  simp [SwiftPaxosServer.onFastAck, h]

theorem onLightSlowAck_of_stale {replica : Fin n} {ballot : Nat}
    (h : (s.cmdDescs cid).decided = true ∨ ballot ≠ s.ballot) :
    s.onLightSlowAck replica ballot cid = s := by
  unfold SwiftPaxosServer.onLightSlowAck
  rcases h with h | h
  · rw [if_pos h]
  · rw [if_pos h, ite_self]

theorem votes_onFastAck {loc replica : Fin n} {dep : List CmdId}
    (hP : s.leads replica = true → P dep)
    (hQ : (s.cmdDescs cid).myDepSet = true → Q (.slowAck loc s.ballot cid))
    (hund : (s.cmdDescs cid).decided = false) :
    Votes s (s.onFastAck loc replica cid dep) cid P Q
      ((s.recordFastAck loc replica cid dep).cmdDescs cid).quorumReached := by
  have heq : s.onFastAck loc replica cid dep =
      (s.recordFastAck loc replica cid dep).checkCommit cid := by
    simp [SwiftPaxosServer.onFastAck, hund]
  rw [heq]
  exact votes_checkCommit (records_recordFastAck hP hQ) hund

theorem votes_onLightSlowAck {replica : Fin n} (hund : (s.cmdDescs cid).decided = false) :
    Votes s (s.onLightSlowAck replica s.ballot cid) cid P Q
      ((s.recordSlowAck replica cid).cmdDescs cid).quorumReached := by
  have heq : s.onLightSlowAck replica s.ballot cid = (s.recordSlowAck replica cid).checkCommit cid := by
    simp [SwiftPaxosServer.onLightSlowAck, hund]
  rw [heq]
  refine votes_checkCommit ?_ hund
  exact records_setDesc rfl rfl (.inl rfl) id fun h => .inl ⟨h, rfl⟩

theorem preAccept_phase (w : Workload) :
    ((s.preAccept w cid).cmdDescs cid).phase ≠ .start := by
  simp only [SwiftPaxosServer.preAccept, SwiftPaxosServer.setDesc, Function.update_self]
  split_ifs with hstart
  · simp
  · exact hstart

/-- The part of `OnPropose` after the replica has computed its own dependency, as a step from any
state `r` that differs in votes only. -/
theorem votes_onPropose_from {w : Workload} {loc : Fin n} {r : SwiftPaxosServer n}
    (hr : Records r (s.preAccept w cid) cid P Q)
    (hP : s.leads loc = true → P (getDep w s.keys cid)) (hQ : Q (.slowAck loc s.ballot cid))
    (hQ' : Q (.fastAck loc s.ballot cid (getDep w s.keys cid))) (hrec : s.recovering = false)
    (hund : (s.cmdDescs cid).decided = false) (hrund : (r.cmdDescs cid).decided = false) :
    Votes r (s.onPropose w loc cid) cid P Q (s.proposeCompletes w loc cid) := by
  have hund' : ((s.preAccept w cid).cmdDescs cid).decided = false := by
    obtain ⟨hc, hd⟩ := SwiftCmdDesc.decided_eq_false.mp hrund
    exact SwiftCmdDesc.decided_eq_false.mpr ⟨hr.committed.trans hc, hr.decided.trans hd⟩
  have hrecord : Records (s.preAccept w cid)
      ((s.preAccept w cid).recordFastAck loc loc cid (getDep w s.keys cid)) cid P Q :=
    records_recordFastAck hP fun _ => hQ
  have hvotes := votes_checkCommit (hr.trans hrecord) hrund
  have hack : (s.preAccept w cid).onFastAck loc loc cid (getDep w s.keys cid) =
      ((s.preAccept w cid).recordFastAck loc loc cid (getDep w s.keys cid)).checkCommit cid := by
    simp [SwiftPaxosServer.onFastAck, hund']
  have heq : s.onPropose w loc cid =
      ((((s.preAccept w cid).onFastAck loc loc cid (getDep w s.keys cid))).send
        (.fastAck loc s.ballot cid (getDep w s.keys cid))).recallSlowAck loc cid := by
    simp [SwiftPaxosServer.onPropose, hrec, hund]
  have hdone : s.proposeCompletes w loc cid = (((s.preAccept w cid).recordFastAck loc loc cid
      (getDep w s.keys cid)).cmdDescs cid).quorumReached := by
    simp [SwiftPaxosServer.proposeCompletes, hrec, hund]
  rw [heq, hack, hdone]
  refine hvotes.records ((records_send hQ').trans (records_recallSlowAck ?_))
  show Q (.slowAck loc (SwiftPaxosServer.checkCommit _ _).ballot cid)
  rw [hvotes.ballot, ← hr.ballot]
  exact hQ

theorem votes_onPropose {w : Workload} {loc : Fin n}
    (hP : s.leads loc = true → P (getDep w s.keys cid)) (hQ : Q (.slowAck loc s.ballot cid))
    (hQ' : Q (.fastAck loc s.ballot cid (getDep w s.keys cid))) (hrec : s.recovering = false)
    (hund : (s.cmdDescs cid).decided = false) :
    Votes s (s.onPropose w loc cid) cid P Q (s.proposeCompletes w loc cid) :=
  votes_onPropose_from (records_preAccept w) hP hQ hQ' hrec hund hund

theorem mem_sent_onPropose {w : Workload} {loc : Fin n} (hrec : s.recovering = false)
    (hund : (s.cmdDescs cid).decided = false) :
    .fastAck loc s.ballot cid (getDep w s.keys cid) ∈ (s.onPropose w loc cid).sent := by
  let u := ((s.preAccept w cid).onFastAck loc loc cid (getDep w s.keys cid)).send
    (.fastAck loc s.ballot cid (getDep w s.keys cid))
  have heq : s.onPropose w loc cid = u.recallSlowAck loc cid := by
    simp [SwiftPaxosServer.onPropose, hrec, hund, u]
  have hrecall : Records u (u.recallSlowAck loc cid) cid (fun _ => True) (fun _ => True) :=
    records_recallSlowAck trivial
  obtain ⟨ms, hms, -⟩ := hrecall.sent
  rw [heq, hms]
  exact List.mem_append_left _ (List.mem_append_right _ List.mem_cons_self)

theorem onPropose_phase {w : Workload} {loc : Fin n} (hrec : s.recovering = false)
    (hund : (s.cmdDescs cid).decided = false) :
    ((s.onPropose w loc cid).cmdDescs cid).phase ≠ .start := by
  have hpre : Records s (s.preAccept w cid) cid (fun _ => True) (fun _ => True) :=
    records_preAccept w
  obtain ⟨hc, hd⟩ := SwiftCmdDesc.decided_eq_false.mp hund
  have hvotes : Votes (s.preAccept w cid) (s.onPropose w loc cid) cid (fun _ => True)
      (fun _ => True) (s.proposeCompletes w loc cid) :=
    votes_onPropose_from .refl (fun _ => trivial) trivial trivial hrec hund
      (SwiftCmdDesc.decided_eq_false.mpr ⟨hpre.committed.trans hc, hpre.decided.trans hd⟩)
  cases hdone : s.proposeCompletes w loc cid with
  | true =>
    rw [hvotes.phase_done hdone]
    simp
  | false =>
    rcases hvotes.phase hdone with heq | ⟨-, heq⟩
    · rw [heq]
      exact preAccept_phase w
    · rw [heq]
      simp

end Voting

section Keys

variable {s : SwiftPaxosServer n} {cid : CmdId}

@[simp]
theorem keys_commitWith (d : SwiftCmdDesc n) : (s.commitWith cid d).keys = s.keys := by
  simp only [SwiftPaxosServer.commitWith, SwiftPaxosServer.deliver]
  split_ifs <;> rfl

@[simp]
theorem keys_checkCommit : (s.checkCommit cid).keys = s.keys := by
  simp only [SwiftPaxosServer.checkCommit]
  split_ifs <;> simp

@[simp]
theorem keys_maybeSendLightSlowAck (loc : Fin n) :
    (s.maybeSendLightSlowAck loc cid).keys = s.keys := by
  simp only [SwiftPaxosServer.maybeSendLightSlowAck]
  split_ifs <;> rfl

@[simp]
theorem keys_recordFastAck (loc replica : Fin n) (dep : List CmdId) :
    (s.recordFastAck loc replica cid dep).keys = s.keys := by
  simp only [SwiftPaxosServer.recordFastAck]
  split_ifs
  · rw [keys_maybeSendLightSlowAck]
    rfl
  · rfl

@[simp]
theorem keys_onFastAck (loc replica : Fin n) (dep : List CmdId) :
    (s.onFastAck loc replica cid dep).keys = s.keys := by
  simp only [SwiftPaxosServer.onFastAck]
  split_ifs <;> simp

@[simp]
theorem keys_onLightSlowAck (replica : Fin n) (ballot : Nat) :
    (s.onLightSlowAck replica ballot cid).keys = s.keys := by
  simp only [SwiftPaxosServer.onLightSlowAck]
  split_ifs
  · rfl
  · rfl
  · rw [keys_checkCommit]
    rfl

theorem keys_onPropose_of_undecided {w : Workload} {loc : Fin n} (hrec : s.recovering = false)
    (hund : (s.cmdDescs cid).decided = false) :
    (s.onPropose w loc cid).keys = trackKey w s.keys cid := by
  simp only [SwiftPaxosServer.onPropose, hrec, hund, Bool.or_self, Bool.false_eq_true, if_false,
    SwiftPaxosServer.recallSlowAck]
  split_ifs
  · rw [keys_maybeSendLightSlowAck]
    exact keys_onFastAck ..
  · exact keys_onFastAck ..

theorem keys_onPropose (w : Workload) (s : SwiftPaxosServer n) (loc : Fin n) (cid : CmdId) :
    (s.onPropose w loc cid).keys = s.keys ∨
      (s.onPropose w loc cid).keys = trackKey w s.keys cid := by
  by_cases hskip : (s.recovering || (s.cmdDescs cid).decided) = true
  · left
    simp [SwiftPaxosServer.onPropose, hskip]
  · obtain ⟨hrec, hund⟩ := Bool.or_eq_false_iff.mp (eq_false_of_ne_true hskip)
    exact .inr (keys_onPropose_of_undecided hrec hund)

end Keys

end Jetpack.Swift
