import Jetpack.Swift.Votes

/-! What a recovery does to a replica: which commands the merged state has, what the replica has of
them once the state is installed, and what it answers to a candidate. -/

namespace Jetpack.Swift

variable {n : Nat}

theorem mem_keepBest {e x : RecoveryEntry} {best : List RecoveryEntry} (h : x ∈ keepBest e best) :
    x = e ∨ x ∈ best := by
  induction best with
  | nil => exact .inl (List.mem_singleton.mp h)
  | cons y best ih =>
    unfold keepBest at h
    split_ifs at h
    · exact (List.mem_cons.mp h).imp_right (List.mem_cons_of_mem y)
    · exact .inr h
    · exact List.mem_cons.mp h
    · rcases List.mem_cons.mp h with rfl | h
      · exact .inr List.mem_cons_self
      · exact (ih h).imp_right (List.mem_cons_of_mem y)

theorem keepBest_covers (e : RecoveryEntry) (best : List RecoveryEntry) :
    ∃ x ∈ keepBest e best, x.cmdId = e.cmdId := by
  induction best with
  | nil => exact ⟨e, List.mem_cons_self, rfl⟩
  | cons y best ih =>
    unfold keepBest
    split_ifs with heq
    · exact ⟨e, List.mem_cons_self, rfl⟩
    · exact ⟨y, List.mem_cons_self, heq.symm⟩
    · exact ⟨e, List.mem_cons_self, rfl⟩
    · obtain ⟨x, hx, hid⟩ := ih
      exact ⟨x, List.mem_cons_of_mem y hx, hid⟩

theorem keepBest_keeps (e : RecoveryEntry) {y : RecoveryEntry} {best : List RecoveryEntry}
    (hy : y ∈ best) : ∃ x ∈ keepBest e best, x.cmdId = y.cmdId := by
  induction best with
  | nil => cases hy
  | cons z best ih =>
    unfold keepBest
    rcases List.mem_cons.mp hy with rfl | hmem
    · split_ifs with heq
      · exact ⟨e, List.mem_cons_self, heq⟩
      · exact ⟨y, List.mem_cons_self, rfl⟩
      · exact ⟨y, List.mem_cons_of_mem e List.mem_cons_self, rfl⟩
      · exact ⟨y, List.mem_cons_self, rfl⟩
    · split_ifs
      · exact ⟨y, List.mem_cons_of_mem e hmem, rfl⟩
      · exact ⟨y, List.mem_cons_of_mem z hmem, rfl⟩
      · exact ⟨y, List.mem_cons_of_mem e (List.mem_cons_of_mem z hmem), rfl⟩
      · obtain ⟨x, hx, hid⟩ := ih hmem
        exact ⟨x, List.mem_cons_of_mem z hx, hid⟩

theorem mem_foldl_keepBest {x : RecoveryEntry} {entries best : List RecoveryEntry}
    (h : x ∈ entries.foldl (fun best e => keepBest e best) best) : x ∈ entries ∨ x ∈ best := by
  induction entries generalizing best with
  | nil => exact .inr h
  | cons e entries ih =>
    rcases ih h with hmem | hmem
    · exact .inl (List.mem_cons_of_mem e hmem)
    · rcases mem_keepBest hmem with rfl | hbest
      · exact .inl List.mem_cons_self
      · exact .inr hbest

theorem foldl_keepBest_covers {y : RecoveryEntry} {entries best : List RecoveryEntry}
    (h : y ∈ entries ∨ y ∈ best) :
    ∃ x ∈ entries.foldl (fun best e => keepBest e best) best, x.cmdId = y.cmdId := by
  induction entries generalizing best y with
  | nil => exact ⟨y, h.resolve_left List.not_mem_nil, rfl⟩
  | cons e entries ih =>
    rcases h with hmem | hbest
    · rcases List.mem_cons.mp hmem with rfl | hmem
      · obtain ⟨x, hx, hid⟩ := keepBest_covers y best
        obtain ⟨z, hz, hid'⟩ := ih (.inr hx)
        exact ⟨z, hz, hid'.trans hid⟩
      · exact ih (.inl hmem)
    · obtain ⟨x, hx, hid⟩ := keepBest_keeps e hbest
      obtain ⟨z, hz, hid'⟩ := ih (.inr hx)
      exact ⟨z, hz, hid'.trans hid⟩

section Merging

variable {pending : Fin n → Option NewLeaderAckEntry} {e : RecoveryEntry}

theorem mem_answers {a : NewLeaderAckEntry} : a ∈ answers pending ↔ ∃ i, pending i = some a := by
  simp [answers]

theorem mem_mergeable : e ∈ mergeable pending ↔
    ∃ a ∈ answers pending, a.cballot = maxCballot pending ∧ e ∈ a.state ∧
      (e.phase = .accept ∨ e.phase = .commit) := by
  simp only [mergeable, List.mem_filter, List.mem_flatMap, beq_iff_eq, Bool.or_eq_true]
  constructor
  · rintro ⟨⟨a, ⟨ha, hmax⟩, he⟩, hphase⟩
    exact ⟨a, ha, hmax, he, hphase⟩
  · rintro ⟨a, ha, hmax, he, hphase⟩
    exact ⟨⟨a, ⟨ha, hmax⟩, he⟩, hphase⟩

theorem mergeable_of_mem_mergeStates (h : e ∈ mergeStates pending) : e ∈ mergeable pending :=
  (mem_foldl_keepBest h).resolve_right List.not_mem_nil

theorem mergeStates_covers (h : e ∈ mergeable pending) :
    ∃ x ∈ mergeStates pending, x.cmdId = e.cmdId :=
  foldl_keepBest_covers (.inl h)

theorem foldl_max_eq_or_mem (l : List Nat) (b : Nat) : l.foldl max b = b ∨ l.foldl max b ∈ l := by
  induction l generalizing b with
  | nil => exact .inl rfl
  | cons x l ih =>
    rcases ih (max b x) with heq | hmem
    · rw [List.foldl_cons, heq]
      rcases max_choice b x with hb | hx
      · exact .inl hb
      · rw [hx]
        exact .inr List.mem_cons_self
    · exact .inr (List.mem_cons_of_mem x hmem)

theorem exists_answer_maxCballot (h : 0 < maxCballot pending) :
    ∃ a ∈ answers pending, a.cballot = maxCballot pending := by
  rcases foldl_max_eq_or_mem ((answers pending).map (·.cballot)) 0 with heq | hmem
  · exact absurd heq (Nat.pos_iff_ne_zero.mp h)
  · exact List.mem_map.mp hmem

theorem le_foldl_max (l : List Nat) (b : Nat) :
    b ≤ l.foldl max b ∧ ∀ x ∈ l, x ≤ l.foldl max b := by
  induction l generalizing b with
  | nil => simp
  | cons y l ih =>
    obtain ⟨hb, hl⟩ := ih (max b y)
    refine ⟨(le_max_left b y).trans hb, fun x hx => ?_⟩
    rcases List.mem_cons.mp hx with rfl | hx
    · exact (le_max_right b x).trans hb
    · exact hl x hx

theorem le_maxCballot {a : NewLeaderAckEntry} (h : a ∈ answers pending) :
    a.cballot ≤ maxCballot pending :=
  (le_foldl_max _ 0).2 a.cballot (List.mem_map.mpr ⟨a, h, rfl⟩)

end Merging

/-- The replica goes on in ballot `b` with `merged` installed, and has recorded `recs` and sent `ms`. -/
structure Restarts (s t : SwiftPaxosServer n) (b : Nat) (merged : List RecoveryEntry)
    (recs : List Recovery) (ms : List (Message n)) : Prop where
  ballot : t.ballot = b
  cballot : t.cballot = b
  recovering : t.recovering = false
  recoveries : t.recoveries = s.recoveries ++ recs
  sent : t.sent = s.sent ++ ms
  desc_merged : ∀ c, (∃ e ∈ merged, e.cmdId = c) →
    (t.cmdDescs c).phase = .commit ∧ (t.cmdDescs c).committed = true ∧
      (t.cmdDescs c).cmd = true ∧ ∃ e ∈ merged, e.cmdId = c ∧ (t.cmdDescs c).leaderDep = e.dep
  desc_committed : ∀ c, (¬ ∃ e ∈ merged, e.cmdId = c) → (s.cmdDescs c).committed = true →
    t.cmdDescs c = s.cmdDescs c
  desc_dropped : ∀ c, (¬ ∃ e ∈ merged, e.cmdId = c) → (s.cmdDescs c).committed = false →
    t.cmdDescs c = {}
  known : ∀ c, (∃ e ∈ merged, e.cmdId = c) ∨ (s.cmdDescs c).committed = true ∧ c ∈ s.known →
    c ∈ t.known
  commits : ∀ x, x ∈ t.commits → x ∈ s.commits ∨ ∃ e ∈ merged, x = ⟨e.cmdId, e.dep, b⟩
  commits_kept : ∀ x ∈ s.commits, x ∈ t.commits
  recorded : ∀ c, (∃ e ∈ merged, e.cmdId = c) → (s.cmdDescs c).committed = false →
    ∃ e ∈ merged, e.cmdId = c ∧ ⟨c, e.dep, b⟩ ∈ t.commits

section Installing

variable {w : Workload} {s : SwiftPaxosServer n}

structure Installs (s t : SwiftPaxosServer n) (state : List RecoveryEntry) : Prop where
  ballot : t.ballot = s.ballot
  cballot : t.cballot = s.cballot
  recoveries : t.recoveries = s.recoveries
  sent : t.sent = s.sent
  desc_ne : ∀ c, (¬ ∃ e ∈ state, e.cmdId = c) → t.cmdDescs c = s.cmdDescs c
  desc : ∀ c, (∃ e ∈ state, e.cmdId = c) →
    (t.cmdDescs c).phase = .commit ∧ (t.cmdDescs c).committed = true ∧
      (t.cmdDescs c).cmd = true ∧ ∃ e ∈ state, e.cmdId = c ∧ (t.cmdDescs c).leaderDep = e.dep
  known : ∀ c, (∃ e ∈ state, e.cmdId = c) ∨ c ∈ s.known → c ∈ t.known
  commits : ∀ x, x ∈ t.commits → x ∈ s.commits ∨ ∃ e ∈ state, x = ⟨e.cmdId, e.dep, s.ballot⟩
  commits_kept : ∀ x ∈ s.commits, x ∈ t.commits
  recorded : ∀ c, (∃ e ∈ state, e.cmdId = c) → (s.cmdDescs c).committed = false →
    ∃ e ∈ state, e.cmdId = c ∧ ⟨c, e.dep, s.ballot⟩ ∈ t.commits

theorem installs_nil : Installs s s [] where
  ballot := rfl
  cballot := rfl
  recoveries := rfl
  sent := rfl
  desc_ne _ _ := rfl
  desc c := by simp
  known c := by simp
  commits x hx := .inl hx
  commits_kept x hx := hx
  recorded c := by simp

/-- What the entry of a committed command leaves behind. -/
theorem installEntry_eq {e : RecoveryEntry} (he : e.phase = .commit) :
    ∃ d known, d.phase = .commit ∧ d.committed = true ∧ d.cmd = true ∧ d.leaderDep = e.dep ∧
      (∀ c, c ∈ known ↔ c ∈ s.known ∨ c = e.cmdId) ∧
      (SwiftPaxosServer.installEntry w s e).cmdDescs = Function.update s.cmdDescs e.cmdId d ∧
      (SwiftPaxosServer.installEntry w s e).known = known ∧
      (SwiftPaxosServer.installEntry w s e).commits = s.commits ++
        (if (s.cmdDescs e.cmdId).committed then [] else [⟨e.cmdId, e.dep, s.ballot⟩]) ∧
      (SwiftPaxosServer.installEntry w s e).ballot = s.ballot ∧
      (SwiftPaxosServer.installEntry w s e).cballot = s.cballot ∧
      (SwiftPaxosServer.installEntry w s e).recoveries = s.recoveries ∧
      (SwiftPaxosServer.installEntry w s e).sent = s.sent := by
  cases hc : (s.cmdDescs e.cmdId).committed with
  | true =>
    let d : SwiftCmdDesc n := { s.cmdDescs e.cmdId with
      phase := e.phase, leaderDep := e.dep, leaderAcked := true, cmd := true }
    refine ⟨d, (s.setDesc e.cmdId d).known, he, hc, rfl, rfl, known_setDesc s e.cmdId d, ?_⟩
    simp [SwiftPaxosServer.installEntry, SwiftPaxosServer.setDesc, hc, he, Phase.toNat, d]
  | false =>
    let d : SwiftCmdDesc n := { s.cmdDescs e.cmdId with
      phase := e.phase, leaderDep := e.dep, leaderAcked := true, cmd := true }
    let u : SwiftPaxosServer n :=
      { s.setDesc e.cmdId d with keys := trackKey w s.keys e.cmdId }
    obtain ⟨known, hknown, heq⟩ := commitWith_eq u e.cmdId d
    have hentry : SwiftPaxosServer.installEntry w s e = u.commitWith e.cmdId d := by
      simp [SwiftPaxosServer.installEntry, SwiftPaxosServer.setDesc, hc, he, Phase.toNat, d, u]
    rw [hentry, heq]
    refine ⟨{ d with committed := true, phase := .commit, delivered := true }, known, rfl, rfl, rfl,
      rfl, fun c => ?_, ?_⟩
    · rw [hknown]
      have hu : c ∈ u.known ↔ c ∈ s.known ∨ c = e.cmdId := known_setDesc s e.cmdId d c
      rw [hu, or_assoc, or_self]
    · simp [u, d, SwiftPaxosServer.setDesc]

theorem Installs.cons {t : SwiftPaxosServer n} {e : RecoveryEntry} {state : List RecoveryEntry}
    (he : e.phase = .commit) (h : Installs (SwiftPaxosServer.installEntry w s e) t state) :
    Installs s t (e :: state) := by
  obtain ⟨d, known, hphase, hcom, hcmd, hdep, hknown, hdescs, hk, hcommits, hballot, hcballot, hrecs,
    hsent⟩ := installEntry_eq (w := w) (s := s) he
  have hcons : ∀ c, (∃ x ∈ e :: state, x.cmdId = c) ↔ e.cmdId = c ∨ ∃ x ∈ state, x.cmdId = c := by
    simp
  refine ⟨h.ballot.trans hballot, h.cballot.trans hcballot, h.recoveries.trans hrecs,
    h.sent.trans hsent, fun c hc => ?_, fun c hc => ?_, fun c hc => h.known c ?_, fun x hx => ?_,
    fun x hx => h.commits_kept x ?_, fun c hc hund => ?_⟩
  · rw [hcons, not_or] at hc
    rw [h.desc_ne c hc.2, hdescs, Function.update_of_ne (Ne.symm hc.1)]
  · by_cases hstate : ∃ x ∈ state, x.cmdId = c
    · obtain ⟨hp, hco, hcm, x, hx, hid⟩ := h.desc c hstate
      exact ⟨hp, hco, hcm, x, List.mem_cons_of_mem e hx, hid⟩
    · have hid := ((hcons c).mp hc).resolve_right hstate
      subst hid
      rw [h.desc_ne _ hstate, hdescs, Function.update_self]
      exact ⟨hphase, hcom, hcmd, e, List.mem_cons_self, rfl, hdep⟩
  · rw [hcons] at hc
    rw [hk, hknown]
    rcases hc with (hid | hstate) | hmem
    · exact .inr (.inr hid.symm)
    · exact .inl hstate
    · exact .inr (.inl hmem)
  · rcases h.commits x hx with hx | ⟨y, hy, rfl⟩
    · rw [hcommits, List.mem_append] at hx
      refine hx.imp_right fun hx => ?_
      split_ifs at hx
      · cases hx
      · exact ⟨e, List.mem_cons_self, List.mem_singleton.mp hx⟩
    · rw [hballot]
      exact .inr ⟨y, List.mem_cons_of_mem e hy, rfl⟩
  · rw [hcommits]
    exact List.mem_append_left _ hx
  · by_cases hid : e.cmdId = c
    · subst hid
      refine ⟨e, List.mem_cons_self, rfl, h.commits_kept _ ?_⟩
      simp [hcommits, hund]
    · have hstate := ((hcons c).mp hc).resolve_left hid
      have hund' : ((SwiftPaxosServer.installEntry w s e).cmdDescs c).committed = false := by
        rw [hdescs, Function.update_of_ne (Ne.symm hid)]
        exact hund
      obtain ⟨x, hx, hxid, hmem⟩ := h.recorded c hstate hund'
      rw [hballot] at hmem
      exact ⟨x, List.mem_cons_of_mem e hx, hxid, hmem⟩

theorem installs_foldl {state : List RecoveryEntry} (hall : ∀ e ∈ state, e.phase = .commit) :
    Installs s (state.foldl (SwiftPaxosServer.installEntry w) s) state := by
  induction state generalizing s with
  | nil => exact installs_nil
  | cons e state ih =>
    have hrest := ih (s := SwiftPaxosServer.installEntry w s e)
      fun x hx => hall x (List.mem_cons_of_mem e hx)
    exact hrest.cons (hall e List.mem_cons_self)

theorem restarts_of_install (w : Workload) (done : Bool) {u : SwiftPaxosServer n} {b : Nat}
    {merged : List RecoveryEntry} {recs : List Recovery} {ms : List (Message n)}
    (hall : ∀ e ∈ merged, e.phase = .commit)
    (hu : ∀ t, t = SwiftPaxosServer.installRecoveryState { s with
        ballot := b, cballot := b, syncBroadcastDone := done } w merged →
      u.ballot = t.ballot ∧ u.cballot = t.cballot ∧ u.recovering = false ∧
        u.recoveries = t.recoveries ++ recs ∧ u.sent = t.sent ++ ms ∧ u.cmdDescs = t.cmdDescs ∧
        u.known = t.known ∧ u.commits = t.commits) :
    Restarts s u b merged recs ms := by
  obtain ⟨hballot, hcballot, hrec, hrecs, hsent, hdescs, hknown, hcommits⟩ := hu _ rfl
  let r : SwiftPaxosServer n := { s with ballot := b, cballot := b, syncBroadcastDone := done }
  have h : Installs (r.dropUnmerged merged) (r.installRecoveryState w merged) merged :=
    installs_foldl hall
  have hany : ∀ c, (merged.any (·.cmdId == c)) = true ↔ ∃ e ∈ merged, e.cmdId = c := by
    simp
  have hdrop : ∀ c, (r.dropUnmerged merged).cmdDescs c =
      if (merged.any (·.cmdId == c) || (s.cmdDescs c).committed) = true then s.cmdDescs c else {} :=
    fun c => rfl
  refine ⟨hballot.trans h.ballot, hcballot.trans h.cballot, hrec, ?_, ?_, fun c hc => ?_,
    fun c hc hcom => ?_, fun c hc hcom => ?_, fun c hc => ?_, fun x hx => ?_, fun x hx => ?_,
    fun c hc hcom => ?_⟩
  · rw [hrecs, h.recoveries]
    rfl
  · rw [hsent, h.sent]
    rfl
  · rw [hdescs]
    exact h.desc c hc
  · rw [hdescs, h.desc_ne c hc, hdrop, if_pos (by simp [hcom])]
  · have hno : merged.any (·.cmdId == c) = false :=
      eq_false_of_ne_true fun hno => hc ((hany c).mp hno)
    rw [hdescs, h.desc_ne c hc, hdrop, if_neg (by simp [hno, hcom])]
  · rw [hknown]
    refine h.known c (hc.imp_right fun ⟨hcom, hmem⟩ => ?_)
    exact List.mem_filter.mpr ⟨hmem, by simp [r, hcom]⟩
  · rw [hcommits] at hx
    exact h.commits x hx
  · rw [hcommits]
    exact h.commits_kept x hx
  · rw [hcommits]
    refine h.recorded c hc ?_
    rw [hdrop]
    split_ifs
    · exact hcom
    · rfl

theorem restarts_finishRecovery {loc : Fin n}
    (hall : ∀ e ∈ mergeStates s.pendingNewLeaderAcks, e.phase = .commit) :
    Restarts s (s.finishRecovery w loc) s.ballot (mergeStates s.pendingNewLeaderAcks)
      [⟨s.ballot, mergeStates s.pendingNewLeaderAcks⟩]
      [.sync loc s.ballot (mergeStates s.pendingNewLeaderAcks)] := by
  refine restarts_of_install w true hall fun t ht => ?_
  subst ht
  exact ⟨rfl, rfl, rfl, rfl, rfl, rfl, rfl, rfl⟩

theorem restarts_onSyncRecv {b : Nat} {state : List RecoveryEntry} (hb : s.ballot ≤ b)
    (hall : ∀ e ∈ state, e.phase = .commit) :
    Restarts s (s.onSyncRecv w b state) b state [] [] := by
  refine restarts_of_install w s.syncBroadcastDone hall fun t ht => ?_
  subst ht
  rw [List.append_nil, List.append_nil]
  unfold SwiftPaxosServer.onSyncRecv
  rw [if_neg (Nat.not_lt.mpr hb)]
  exact ⟨rfl, rfl, rfl, rfl, rfl, rfl, rfl, rfl⟩

end Installing

/-- No committed command has an empty dependency of the leader and one of the replica itself. -/
def SwiftPaxosServer.reportsLeaderDeps (s : SwiftPaxosServer n) : Bool :=
  s.known.all fun c => !(s.cmdDescs c).committed || !(s.cmdDescs c).leaderDep.isEmpty ||
    (s.cmdDescs c).myDep.isEmpty

theorem mem_snapshotLocalState {s : SwiftPaxosServer n} {e : RecoveryEntry} :
    e ∈ s.snapshotLocalState ↔ e.cmdId ∈ s.known ∧ (s.cmdDescs e.cmdId).phase ≠ .start ∧
      (s.cmdDescs e.cmdId).cmd = true ∧ e.phase = (s.cmdDescs e.cmdId).phase ∧
      e.dep = if (s.cmdDescs e.cmdId).leaderDep = [] then (s.cmdDescs e.cmdId).myDep
        else (s.cmdDescs e.cmdId).leaderDep := by
  simp only [SwiftPaxosServer.snapshotLocalState, List.mem_filterMap, SwiftPaxosServer.snapshotEntry]
  constructor
  · rintro ⟨c, hc, h⟩
    split_ifs at h with hskip hdep <;> cases h <;> rw [not_or] at hskip
    · exact ⟨hc, hskip.1, by simpa using hskip.2, rfl, by simp [hdep]⟩
    · exact ⟨hc, hskip.1, by simpa using hskip.2, rfl, by simp [hdep]⟩
  · rintro ⟨hc, hstart, hcmd, hphase, hdep⟩
    refine ⟨e.cmdId, hc, ?_⟩
    rw [if_neg (by simp [hstart, hcmd]), ← hphase, ← hdep]

end Jetpack.Swift
