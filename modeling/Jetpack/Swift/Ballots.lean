import Jetpack.Swift.Merge

/-! What every replica keeps over the ballots, whatever the other replicas do: which messages it has
sent in which ballot, which states it has merged, and which of its commands are committed. -/

namespace Jetpack.Swift

variable {n : Nat}

theorem le_searchBallot (loc fuel b : Nat) : b ≤ searchBallot n loc fuel b := by
  induction fuel generalizing b with
  | zero => exact le_rfl
  | succ fuel ih =>
    unfold searchBallot
    split_ifs
    · exact le_rfl
    · exact (Nat.le_succ b).trans (ih (b + 1))

theorem searchBallot_mod {loc fuel b k : Nat} (hk : k < fuel) (hloc : (b + k) % n = loc) :
    searchBallot n loc fuel b % n = loc := by
  induction fuel generalizing b k with
  | zero => omega
  | succ fuel ih =>
    unfold searchBallot
    split_ifs with hb
    · exact hb
    · have hpos : k ≠ 0 := fun hzero => hb (by simpa [hzero] using hloc)
      have hnext : b + 1 + (k - 1) = b + k := by omega
      exact ih (show k - 1 < fuel by omega) (hnext ▸ hloc)

theorem nextBallot_mod (s : SwiftPaxosServer n) (loc : Fin n) : s.nextBallot loc % n = loc := by
  have hn : 0 < n := loc.pos
  let b := s.ballot + 1
  refine searchBallot_mod (k := (loc + (n - b % n)) % n) (Nat.mod_lt _ hn) ?_
  have hlt : b % n < n := Nat.mod_lt b hn
  have hdiv : n * (b / n) + b % n = b := Nat.div_add_mod b n
  have hsum : b + (loc + (n - b % n)) = loc + n * (b / n + 1) := by
    rw [Nat.mul_succ]
    omega
  rw [Nat.add_mod_mod, hsum, Nat.add_mul_mod_self_left, Nat.mod_eq_of_lt loc.isLt]

theorem lt_nextBallot (s : SwiftPaxosServer n) (loc : Fin n) : s.ballot < s.nextBallot loc :=
  le_searchBallot ..

/-- The replica `j` of its own. `ack` to `ack_unique` are about its fast acks, of which those in a
ballot it leads are the ones the others commit with. -/
structure LocalInv (j : Fin n) (r : SwiftPaxosServer n) : Prop where
  phase_ne : ∀ c, (r.cmdDescs c).phase ≠ .accept
  committed_iff : ∀ c, (r.cmdDescs c).committed = true ↔ (r.cmdDescs c).phase = .commit
  known : ∀ c, (r.cmdDescs c).phase ≠ .start → c ∈ r.known
  normal : r.recovering = false → r.cballot = r.ballot
  recovering : r.recovering = true → r.cballot < r.ballot
  recorded : ∀ c, (r.cmdDescs c).committed = true →
    ∃ b ≤ r.cballot, ⟨c, (r.cmdDescs c).leaderDep, b⟩ ∈ r.commits
  commits_le : ∀ x ∈ r.commits, x.ballot ≤ r.cballot
  recoveries : ∀ x ∈ r.recoveries, x.ballot % n = j ∧ 0 < x.ballot ∧
    (x.ballot < r.ballot ∨ x.ballot = r.ballot ∧ r.recovering = false)
  unique : ∀ x ∈ r.recoveries, ∀ y ∈ r.recoveries, x.ballot = y.ballot → x.merged = y.merged
  ack : ∀ i b c dep, .fastAck i b c dep ∈ r.sent → i = j ∧
    (b < r.ballot ∨ b = r.ballot ∧ r.recovering = false)
  ack_phase : r.ballot % n = j → ∀ c dep, .fastAck j r.ballot c dep ∈ r.sent →
    (r.cmdDescs c).phase ≠ .start
  ack_fresh : ∀ x ∈ r.recoveries, ∀ c dep, .fastAck j x.ballot c dep ∈ r.sent →
    ∀ e ∈ x.merged, e.cmdId ≠ c
  ack_unique : ∀ b c dep dep', b % n = j → .fastAck j b c dep ∈ r.sent →
    .fastAck j b c dep' ∈ r.sent → dep = dep'
  newLeader : ∀ i b, .newLeader i b ∈ r.sent → i = j ∧ b % n = j
  sync : ∀ i b m, .sync i b m ∈ r.sent → ⟨b, m⟩ ∈ r.recoveries

theorem localInv_init (j : Fin n) : LocalInv j {} := by
  constructor <;> simp

/-- What a vote of replica `j` in ballot `b` on `cid` may send. The fast ack is sent only if `fresh`
holds. -/
def VoteMessage (j : Fin n) (b : Nat) (cid : CmdId) (dep : List CmdId) (fresh : Prop)
    (m : Message n) : Prop :=
  (∃ i b c, m = .slowAck i b c) ∨ fresh ∧ m = .fastAck j b cid dep

/-- The replica may ack `cid` in its ballot: it has not done so as a leader, and no state it merged
for the ballot has the command. -/
def FreshAck (j : Fin n) (r t : SwiftPaxosServer n) (cid : CmdId) : Prop :=
  r.recovering = false ∧ (t.cmdDescs cid).phase ≠ .start ∧
    (r.ballot % n = j → (r.cmdDescs cid).phase = .start) ∧
    ∀ x ∈ r.recoveries, x.ballot = r.ballot → ∀ e ∈ x.merged, e.cmdId ≠ cid

section Steps

variable {j : Fin n} {r t : SwiftPaxosServer n} {cid : CmdId} {dep : List CmdId}
  {P : List CmdId → Prop} {done : Bool} {fresh : Prop}

theorem Votes.mem_sent (hv : Votes r t cid P (VoteMessage j r.ballot cid dep fresh) done)
    {m : Message n} (hm : m ∈ t.sent) :
    m ∈ r.sent ∨ VoteMessage j r.ballot cid dep fresh m := by
  obtain ⟨ms, hms, hQ⟩ := hv.sent
  rw [hms] at hm
  exact (List.mem_append.mp hm).imp_right (hQ m)

theorem Votes.mem_fastAck (hv : Votes r t cid P (VoteMessage j r.ballot cid dep fresh) done)
    {i : Fin n} {b : Nat} {c : CmdId} {d : List CmdId} (hm : .fastAck i b c d ∈ t.sent) :
    .fastAck i b c d ∈ r.sent ∨ fresh ∧ i = j ∧ b = r.ballot ∧ c = cid ∧ d = dep := by
  rcases hv.mem_sent hm with hm | ⟨_, _, _, hm⟩ | ⟨hfresh, hm⟩
  · exact .inl hm
  · cases hm
  · cases hm
    exact .inr ⟨hfresh, rfl, rfl, rfl, rfl⟩

theorem Votes.phase_ne_start (hv : Votes r t cid P (VoteMessage j r.ballot cid dep fresh) done)
    {c : CmdId} (hc : (r.cmdDescs c).phase ≠ .start) : (t.cmdDescs c).phase ≠ .start := by
  by_cases hcid : c = cid
  · subst hcid
    cases hdone : done with
    | true =>
      rw [hv.phase_done hdone]
      simp
    | false =>
      rcases hv.phase hdone with heq | ⟨-, heq⟩
      · rwa [heq]
      · rw [heq]
        simp
  · rwa [hv.desc_ne c hcid]

theorem LocalInv.votes (h : LocalInv j r)
    (hv : Votes r t cid P (VoteMessage j r.ballot cid dep fresh) done)
    (hnormal : done = true → r.recovering = false) (hfresh : fresh → FreshAck j r t cid) :
    LocalInv j t := by
  obtain ⟨hund, -⟩ := SwiftCmdDesc.decided_eq_false.mp hv.undecided
  have hnot : (r.cmdDescs cid).phase ≠ .commit := fun hc => by
    rw [(h.committed_iff cid).mpr hc] at hund
    cases hund
  have hphase : (t.cmdDescs cid).phase ≠ .accept ∧
      (done = true ↔ (t.cmdDescs cid).phase = .commit) := by
    cases hdone : done with
    | true =>
      rw [hv.phase_done hdone]
      simp
    | false =>
      rcases hv.phase hdone with heq | ⟨-, heq⟩
      · rw [heq]
        exact ⟨h.phase_ne cid, by simp, fun hc => absurd hc hnot⟩
      · rw [heq]
        simp
  refine
    { phase_ne := fun c => ?_, committed_iff := fun c => ?_, known := fun c hc => ?_,
      normal := ?_, recovering := ?_, recorded := fun c hc => ?_, commits_le := fun x hx => ?_,
      recoveries := ?_, unique := ?_, ack := fun i b c d hm => ?_,
      ack_phase := fun hj c d hm => ?_, ack_fresh := fun x hx c d hm => ?_,
      ack_unique := fun b c d d' hj hm hm' => ?_, newLeader := fun i b hm => ?_,
      sync := fun i b m hm => ?_ }
  · by_cases hc : c = cid
    · exact hc ▸ hphase.1
    · rw [hv.desc_ne c hc]
      exact h.phase_ne c
  · by_cases hc : c = cid
    · rw [hc, hv.committed]
      exact hphase.2
    · rw [hv.desc_ne c hc]
      exact h.committed_iff c
  · by_cases hcid : c = cid
    · subst hcid
      rcases hv.known_self with heq | hmem
      · exact hv.known c (h.known c (heq ▸ hc))
      · exact hmem
    · rw [hv.desc_ne c hcid] at hc
      exact hv.known c (h.known c hc)
  · rw [hv.recovering, hv.cballot, hv.ballot]
    exact h.normal
  · rw [hv.recovering, hv.cballot, hv.ballot]
    exact h.recovering
  · rw [hv.cballot, hv.commits]
    by_cases hcid : c = cid
    · subst hcid
      have hdone : done = true := hv.committed.symm.trans hc
      refine ⟨r.ballot, (h.normal (hnormal hdone)).ge, ?_⟩
      simp [hdone]
    · rw [hv.desc_ne c hcid] at hc ⊢
      obtain ⟨b, hb, hmem⟩ := h.recorded c hc
      exact ⟨b, hb, List.mem_append_left _ hmem⟩
  · rw [hv.commits, List.mem_append] at hx
    rw [hv.cballot]
    rcases hx with hx | hx
    · exact h.commits_le x hx
    · cases hdone : done with
      | false => simp [hdone] at hx
      | true =>
        simp only [hdone, if_true, List.mem_singleton] at hx
        subst hx
        exact (h.normal (hnormal hdone)).ge
  · rw [hv.recoveries, hv.ballot, hv.recovering]
    exact h.recoveries
  · rw [hv.recoveries]
    exact h.unique
  · rw [hv.ballot, hv.recovering]
    rcases hv.mem_fastAck hm with hold | ⟨hnew, rfl, rfl, -, -⟩
    · exact h.ack i b c d hold
    · exact ⟨rfl, .inr ⟨rfl, (hfresh hnew).1⟩⟩
  · rw [hv.ballot] at hj hm
    rcases hv.mem_fastAck hm with hold | ⟨hnew, -, -, rfl, -⟩
    · exact hv.phase_ne_start (h.ack_phase hj c d hold)
    · exact (hfresh hnew).2.1
  · rw [hv.recoveries] at hx
    rcases hv.mem_fastAck hm with hold | ⟨hnew, -, hb, rfl, -⟩
    · exact h.ack_fresh x hx c d hold
    · exact (hfresh hnew).2.2.2 x hx hb
  · -- a leader acks a command once in a ballot
    rcases hv.mem_fastAck hm with hold | ⟨hnew, -, rfl, rfl, rfl⟩ <;>
      rcases hv.mem_fastAck hm' with hold' | ⟨hnew', -, hb, hc, rfl⟩
    · exact h.ack_unique b c d d' hj hold hold'
    · subst hb hc
      exact absurd ((hfresh hnew').2.2.1 hj) (h.ack_phase hj c d hold)
    · exact absurd ((hfresh hnew).2.2.1 hj) (h.ack_phase hj c d' hold')
    · rfl
  · rcases hv.mem_sent hm with hold | ⟨_, _, _, hm⟩ | ⟨-, hm⟩
    · exact h.newLeader i b hold
    · cases hm
    · cases hm
  · rw [hv.recoveries]
    rcases hv.mem_sent hm with hold | ⟨_, _, _, hm⟩ | ⟨-, hm⟩
    · exact h.sync i b m hold
    · cases hm
    · cases hm

theorem LocalInv.cballot_le (h : LocalInv j r) : r.cballot ≤ r.ballot := by
  cases hrec : r.recovering with
  | true => exact (h.recovering hrec).le
  | false => exact (h.normal hrec).le

theorem LocalInv.recovery_le (h : LocalInv j r) {x : Recovery} (hx : x ∈ r.recoveries) :
    x.ballot ≤ r.ballot := by
  rcases (h.recoveries x hx).2.2 with hlt | ⟨heq, -⟩
  · exact hlt.le
  · exact heq.le

theorem LocalInv.ack_le (h : LocalInv j r) {i : Fin n} {b : Nat} {c : CmdId} {d : List CmdId}
    (hm : .fastAck i b c d ∈ r.sent) : b ≤ r.ballot := by
  rcases (h.ack i b c d hm).2 with hlt | ⟨heq, -⟩
  · exact hlt.le
  · exact heq.le

theorem LocalInv.suspend (h : LocalInv j r) {b : Nat} (hb : r.ballot < b)
    {pending : Fin n → Option NewLeaderAckEntry} {doneSync : Bool} {m : Message n}
    (hm : m = .newLeader j b ∧ b % n = j ∨ ∃ i k b cb st, m = .newLeaderAck i k b cb st) :
    LocalInv j { r with
      ballot := b, recovering := true, pendingNewLeaderAcks := pending,
      syncBroadcastDone := doneSync, sent := r.sent ++ [m] } := by
  have hack : ∀ i b' c d, .fastAck i b' c d ∈ r.sent ++ [m] → .fastAck i b' c d ∈ r.sent := by
    intro i b' c d hmem
    rcases List.mem_append.mp hmem with hmem | hmem
    · exact hmem
    · obtain rfl := List.mem_singleton.mp hmem
      rcases hm with ⟨hm, -⟩ | ⟨_, _, _, _, _, hm⟩ <;> cases hm
  refine
    { phase_ne := h.phase_ne, committed_iff := h.committed_iff, known := h.known,
      normal := fun hno => (by cases hno), recovering := fun _ => h.cballot_le.trans_lt hb,
      recorded := h.recorded, commits_le := h.commits_le, recoveries := fun x hx => ?_,
      unique := h.unique, ack := fun i b' c d hmem => ?_, ack_phase := fun _ c d hmem => ?_,
      ack_fresh := fun x hx c d hmem => h.ack_fresh x hx c d (hack _ _ _ _ hmem),
      ack_unique := fun b' c d d' hj hmem hmem' =>
        h.ack_unique b' c d d' hj (hack _ _ _ _ hmem) (hack _ _ _ _ hmem'),
      newLeader := fun i b' hmem => ?_, sync := fun i b' st hmem => ?_ }
  · obtain ⟨hj, hpos, -⟩ := h.recoveries x hx
    exact ⟨hj, hpos, .inl ((h.recovery_le hx).trans_lt hb)⟩
  · have hold := hack _ _ _ _ hmem
    exact ⟨(h.ack i b' c d hold).1, .inl ((h.ack_le hold).trans_lt hb)⟩
  · exact absurd (h.ack_le (hack _ _ _ _ hmem)) (Nat.not_le.mpr hb)
  · rcases List.mem_append.mp hmem with hmem | hmem
    · exact h.newLeader i b' hmem
    · obtain rfl := List.mem_singleton.mp hmem
      rcases hm with ⟨hm, hj⟩ | ⟨_, _, _, _, _, hm⟩
      · cases hm
        exact ⟨rfl, hj⟩
      · cases hm
  · rcases List.mem_append.mp hmem with hmem | hmem
    · exact h.sync i b' st hmem
    · obtain rfl := List.mem_singleton.mp hmem
      rcases hm with ⟨hm, -⟩ | ⟨_, _, _, _, _, hm⟩ <;> cases hm

/-- What a restart records: nothing when the state comes from another replica, and the state itself
when the replica has merged it. -/
def RestartRecord (j : Fin n) (r : SwiftPaxosServer n) (b : Nat) (merged : List RecoveryEntry)
    (recs : List Recovery) (ms : List (Message n)) : Prop :=
  recs = [] ∧ ms = [] ∧ b % n ≠ j ∨
    recs = [⟨b, merged⟩] ∧ ms = [.sync j b merged] ∧ b % n = j ∧ b = r.ballot ∧ r.recovering = true

theorem RestartRecord.mem_sent {b : Nat} {merged : List RecoveryEntry} {recs : List Recovery}
    {ms : List (Message n)} (hrec : RestartRecord j r b merged recs ms)
    (hr : Restarts r t b merged recs ms) {m : Message n} (hm : m ∈ t.sent) :
    m ∈ r.sent ∨ m = .sync j b merged ∧ recs = [⟨b, merged⟩] := by
  rw [hr.sent, List.mem_append] at hm
  refine hm.imp_right fun hm => ?_
  rcases hrec with ⟨-, hms, -⟩ | ⟨hrecs, hms, -⟩
  · rw [hms] at hm
    cases hm
  · rw [hms] at hm
    exact ⟨List.mem_singleton.mp hm, hrecs⟩

theorem Restarts.desc_cases {b : Nat} {merged : List RecoveryEntry} {recs : List Recovery}
    {ms : List (Message n)} (hr : Restarts r t b merged recs ms) (c : CmdId) :
    (∃ e ∈ merged, e.cmdId = c) ∨
      (r.cmdDescs c).committed = true ∧ t.cmdDescs c = r.cmdDescs c ∨ t.cmdDescs c = {} := by
  by_cases hmem : ∃ e ∈ merged, e.cmdId = c
  · exact .inl hmem
  · cases hc : (r.cmdDescs c).committed with
    | true => exact .inr (.inl ⟨rfl, hr.desc_committed c hmem hc⟩)
    | false => exact .inr (.inr (hr.desc_dropped c hmem hc))

section Restarting

variable {b : Nat} {merged : List RecoveryEntry} {recs : List Recovery} {ms : List (Message n)}

theorem LocalInv.restart_desc (h : LocalInv j r) (hr : Restarts r t b merged recs ms) (c : CmdId) :
    (t.cmdDescs c).phase ≠ .accept ∧
      ((t.cmdDescs c).committed = true ↔ (t.cmdDescs c).phase = .commit) := by
  rcases hr.desc_cases c with hmem | ⟨-, heq⟩ | heq
  · obtain ⟨hphase, hcommitted, -⟩ := hr.desc_merged c hmem
    simp [hphase, hcommitted]
  · rw [heq]
    exact ⟨h.phase_ne c, h.committed_iff c⟩
  · simp [heq]

theorem LocalInv.restart_recorded (h : LocalInv j r) (hr : Restarts r t b merged recs ms)
    (hb : r.ballot ≤ b)
    (hdep : ∀ e ∈ merged, ∀ x ∈ r.commits, x.cmdId = e.cmdId → x.dep = e.dep)
    (hsame : ∀ e ∈ merged, ∀ e' ∈ merged, e.cmdId = e'.cmdId → e.dep = e'.dep) {c : CmdId}
    (hc : (t.cmdDescs c).committed = true) :
    ∃ b' ≤ t.cballot, ⟨c, (t.cmdDescs c).leaderDep, b'⟩ ∈ t.commits := by
  have hle : r.cballot ≤ b := h.cballot_le.trans hb
  rw [hr.cballot]
  rcases hr.desc_cases c with hmem | ⟨hcom, heq⟩ | heq
  · obtain ⟨-, -, -, e, he, hid, hedep⟩ := hr.desc_merged c hmem
    cases hcom : (r.cmdDescs c).committed with
    | true =>
      obtain ⟨b', hb', hx⟩ := h.recorded c hcom
      refine ⟨b', hb'.trans hle, hr.commits_kept _ ?_⟩
      rw [hedep, ← hdep e he _ hx hid.symm]
      exact hx
    | false =>
      obtain ⟨e', he', hid', hx⟩ := hr.recorded c hmem hcom
      rw [hedep, hsame e he e' he' (hid.trans hid'.symm)]
      exact ⟨b, le_rfl, hx⟩
  · obtain ⟨b', hb', hx⟩ := h.recorded c hcom
    rw [heq]
    exact ⟨b', hb'.trans hle, hr.commits_kept _ hx⟩
  · rw [heq] at hc
    cases hc

theorem RestartRecord.mem_fastAck (hrec : RestartRecord j r b merged recs ms)
    (hr : Restarts r t b merged recs ms) {i : Fin n} {b' : Nat} {c : CmdId} {d : List CmdId}
    (hm : .fastAck i b' c d ∈ t.sent) : .fastAck i b' c d ∈ r.sent := by
  rcases hrec.mem_sent hr hm with hm | ⟨hm, -⟩
  · exact hm
  · cases hm

theorem RestartRecord.mem_recoveries (hrec : RestartRecord j r b merged recs ms)
    (hr : Restarts r t b merged recs ms) {x : Recovery} (hx : x ∈ t.recoveries) :
    x ∈ r.recoveries ∨ x = ⟨b, merged⟩ ∧ b % n = j ∧ b = r.ballot ∧ r.recovering = true := by
  rw [hr.recoveries, List.mem_append] at hx
  refine hx.imp_right fun hx => ?_
  rcases hrec with ⟨hrecs, -⟩ | ⟨hrecs, -, hj, hown⟩
  · rw [hrecs] at hx
    cases hx
  · rw [hrecs] at hx
    exact ⟨List.mem_singleton.mp hx, hj, hown⟩

/-- No ack of the ballot that the replica would lead has been sent. -/
theorem LocalInv.restart_unacked (h : LocalInv j r) (hr : Restarts r t b merged recs ms)
    (hrec : RestartRecord j r b merged recs ms) (hj : b % n = j) (c : CmdId) (d : List CmdId) :
    .fastAck j b c d ∉ t.sent := by
  intro hm
  have hold := hrec.mem_fastAck hr hm
  rcases hrec with ⟨-, -, hne⟩ | ⟨-, -, -, heq, hrecov⟩
  · exact hne hj
  · rcases (h.ack j b c d hold).2 with hlt | ⟨-, hno⟩
    · omega
    · rw [hrecov] at hno
      cases hno

theorem LocalInv.restart_unique (h : LocalInv j r) (hr : Restarts r t b merged recs ms)
    (hrec : RestartRecord j r b merged recs ms) {x y : Recovery} (hx : x ∈ t.recoveries)
    (hy : y ∈ t.recoveries) (hxy : x.ballot = y.ballot) : x.merged = y.merged := by
  -- a replica that is still recovering has merged nothing for its ballot
  have hnew : b = r.ballot → r.recovering = true → ∀ z ∈ r.recoveries, z.ballot ≠ b := by
    intro heq hrecov z hz hzb
    rcases (h.recoveries z hz).2.2 with hlt | ⟨-, hno⟩
    · omega
    · rw [hrecov] at hno
      cases hno
  rcases hrec.mem_recoveries hr hx with hx | ⟨rfl, -, heq, hrecov⟩ <;>
    rcases hrec.mem_recoveries hr hy with hy | ⟨rfl, -, heq', hrecov'⟩
  · exact h.unique x hx y hy hxy
  · exact absurd hxy (hnew heq' hrecov' x hx)
  · exact absurd hxy.symm (hnew heq hrecov y hy)
  · rfl

theorem LocalInv.restart (h : LocalInv j r) (hr : Restarts r t b merged recs ms)
    (hrec : RestartRecord j r b merged recs ms) (hb : r.ballot ≤ b)
    (hdep : ∀ e ∈ merged, ∀ x ∈ r.commits, x.cmdId = e.cmdId → x.dep = e.dep)
    (hsame : ∀ e ∈ merged, ∀ e' ∈ merged, e.cmdId = e'.cmdId → e.dep = e'.dep) :
    LocalInv j t := by
  have hle : r.cballot ≤ b := h.cballot_le.trans hb
  refine
    { phase_ne := fun c => (h.restart_desc hr c).1,
      committed_iff := fun c => (h.restart_desc hr c).2, known := fun c hc => ?_,
      normal := fun _ => hr.cballot.trans hr.ballot.symm,
      recovering := fun hno => ?_, recorded := fun c hc => h.restart_recorded hr hb hdep hsame hc,
      commits_le := fun x hx => ?_, recoveries := fun x hx => ?_,
      unique := fun x hx y hy hxy => h.restart_unique hr hrec hx hy hxy,
      ack := fun i b' c d hm => ?_, ack_phase := fun hj c d hm => ?_,
      ack_fresh := fun x hx c d hm => ?_, ack_unique := fun b' c d d' hj hm hm' => ?_,
      newLeader := fun i b' hm => ?_, sync := fun i b' st hm => ?_ }
  · rcases hr.desc_cases c with hmem | ⟨hcom, heq⟩ | heq
    · exact hr.known c (.inl hmem)
    · rw [heq] at hc
      exact hr.known c (.inr ⟨hcom, h.known c hc⟩)
    · rw [heq] at hc
      exact absurd rfl hc
  · rw [hr.recovering] at hno
    cases hno
  · rw [hr.cballot]
    rcases hr.commits x hx with hx | ⟨e, -, rfl⟩
    · exact (h.commits_le x hx).trans hle
    · exact le_rfl
  · rw [hr.ballot, hr.recovering]
    rcases hrec.mem_recoveries hr hx with hx | ⟨rfl, hj, heq, hrecov⟩
    · obtain ⟨hj, hpos, -⟩ := h.recoveries x hx
      refine ⟨hj, hpos, ?_⟩
      rcases ((h.recovery_le hx).trans hb).lt_or_eq with hlt | heq
      · exact .inl hlt
      · exact .inr ⟨heq, rfl⟩
    · have hpos : 0 < b := heq ▸ (Nat.zero_le _).trans_lt (h.recovering hrecov)
      exact ⟨hj, hpos, .inr ⟨rfl, rfl⟩⟩
  · rw [hr.ballot, hr.recovering]
    have hold := hrec.mem_fastAck hr hm
    refine ⟨(h.ack i b' c d hold).1, ?_⟩
    rcases ((h.ack_le hold).trans hb).lt_or_eq with hlt | heq
    · exact .inl hlt
    · exact .inr ⟨heq, rfl⟩
  · rw [hr.ballot] at hj hm
    exact absurd hm (h.restart_unacked hr hrec hj c d)
  · rcases hrec.mem_recoveries hr hx with hx | ⟨rfl, hj, -⟩
    · exact h.ack_fresh x hx c d (hrec.mem_fastAck hr hm)
    · exact absurd hm (h.restart_unacked hr hrec hj c d)
  · exact h.ack_unique b' c d d' hj (hrec.mem_fastAck hr hm) (hrec.mem_fastAck hr hm')
  · rcases hrec.mem_sent hr hm with hm | ⟨hm, -⟩
    · exact h.newLeader i b' hm
    · cases hm
  · rw [hr.recoveries, List.mem_append]
    rcases hrec.mem_sent hr hm with hm | ⟨hm, hrecs⟩
    · exact .inl (h.sync i b' st hm)
    · cases hm
      rw [hrecs]
      exact .inr List.mem_cons_self

end Restarting

end Steps

end Jetpack.Swift
