import Jetpack.Swift.Ballots

/-! Recoveries of SwiftPaxos and the commands committed before them. A commit leaves no trace at the
replicas that voted for it: they stay at `PRE_ACCEPT`, which the merge does not look at. A command
survives a merge if an answer of a replica that has committed it is among those merged. -/

namespace Jetpack.Swift

open Transition

variable {n : Nat}

def Committed (s : System n) (x : Commit) : Prop := ∃ i, x ∈ (s.server i).commits

def Recovered (s : System n) (x : Recovery) : Prop := ∃ i, x ∈ (s.server i).recoveries

def Survives (x : Commit) (y : Recovery) : Prop :=
  ∃ e ∈ y.merged, e.cmdId = x.cmdId ∧ e.dep = x.dep ∧ (e.phase = .accept ∨ e.phase = .commit)

/-- A command committed in some ballot is in the state that every recovery of a later ballot
merged. -/
def KeepsCommitted (s : System n) : Prop :=
  ∀ x y, Committed s x → Recovered s y → x.ballot < y.ballot → Survives x y

/-- The leader acks a command once in a ballot, and a replica that is not recovering takes only acks
of its ballot for those of the leader. -/
def leaderAcksOnce (s : System n) : Event n → Bool
  | .propose i cid => (s.server i).recovering || ((s.server i).cmdDescs cid).decided ||
      !(s.server i).leads i || ((s.server i).cmdDescs cid).phase == .start
  | .deliver i k j =>
    match (s.server i).sent[k]? with
    | some (.fastAck replica ballot cid _) => (s.server j).recovering ||
        ((s.server j).cmdDescs cid).decided || !(s.server j).leads replica ||
        ballot == (s.server j).ballot
    | _ => true
  | .triggerRecovery _ => true

/-- A quorum completes at a replica that is not recovering, while no replica is in a higher ballot. -/
def commitsInTime (w : Workload) (s : System n) (e : Event n) : Bool :=
  match completes w s e with
  | none => true
  | some (j, _) => !(s.server j).recovering && (List.finRange n).all fun i =>
      decide ((s.server i).ballot ≤ (s.server j).ballot)

/-- A snapshot is taken where all committed commands are reported with the leader's dependency. -/
def snapshotsReport (s : System n) : Event n → Bool
  | .propose _ _ => true
  | .deliver i k j =>
    match (s.server i).sent[k]? with
    | some (.newLeader _ ballot) =>
      decide (ballot ≤ (s.server j).ballot) || (s.server j).reportsLeaderDeps
    | _ => true
  | .triggerRecovery i => (s.server i).reportsLeaderDeps

def Reports (state : List RecoveryEntry) (cid : CmdId) : Prop :=
  ∃ e ∈ state, e.cmdId = cid ∧ e.phase = .commit

/-- What an answer to the candidate of ballot `b` is worth. -/
structure GoodAnswer (s : System n) (b : Nat) (a : NewLeaderAckEntry) : Prop where
  lt : a.cballot < b
  phase : ∀ e ∈ a.state, e.phase ≠ .accept
  committed : ∀ e ∈ a.state, e.phase = .commit →
    ∃ x, Committed s x ∧ x.cmdId = e.cmdId ∧ x.dep = e.dep ∧ x.ballot ≤ a.cballot
  merged : 0 < a.cballot → ∃ m, Recovered s ⟨a.cballot, m⟩ ∧ ∀ e ∈ m, Reports a.state e.cmdId

structure ContextInv (s : System n) (j : Fin n) (r : SwiftPaxosServer n) : Prop where
  installed : 0 < r.cballot → ∃ m, Recovered s ⟨r.cballot, m⟩ ∧
    ∀ e ∈ m, (r.cmdDescs e.cmdId).committed = true ∧ (r.cmdDescs e.cmdId).cmd = true ∧
      (r.cmdDescs e.cmdId).leaderDep = e.dep
  acked : r.recovering = false → ∀ c, (r.cmdDescs c).leaderAcked = true →
    (r.cmdDescs c).committed = false →
    ∃ i : Fin n, i.val = r.ballot % n ∧
      .fastAck i r.ballot c (r.cmdDescs c).leaderDep ∈ (s.server i).sent
  pending : r.recovering = true → r.ballot % n = j → ∀ i a, r.pendingNewLeaderAcks i = some a →
    GoodAnswer s r.ballot a
  answers : ∀ (i k : Fin n) b cb st, .newLeaderAck i k b cb st ∈ r.sent → b % n = i ∧
    GoodAnswer s b ⟨cb, st⟩

/-- The commit comes from the state merged for its ballot or from an ack of the ballot's leader. -/
def Origin (s : System n) (x : Commit) : Prop :=
  (0 < x.ballot → ∃ m, Recovered s ⟨x.ballot, m⟩) ∧
    ((∃ m, Recovered s ⟨x.ballot, m⟩ ∧ ∃ e ∈ m, e.cmdId = x.cmdId ∧ e.dep = x.dep) ∨
      ∃ i : Fin n, i.val = x.ballot % n ∧
        .fastAck i x.ballot x.cmdId x.dep ∈ (s.server i).sent)

/-- An entry that a recovery of ballot `b` may merge. -/
def FromCommit (s : System n) (b : Nat) (e : RecoveryEntry) : Prop :=
  e.phase = .commit ∧
    ∃ x, Committed s x ∧ x.cmdId = e.cmdId ∧ x.dep = e.dep ∧ x.ballot < b

structure GlobalInv (s : System n) : Prop where
  merged : ∀ y, Recovered s y → ∀ e ∈ y.merged, FromCommit s y.ballot e
  origin : ∀ x, Committed s x → Origin s x
  agree : ∀ x y, Committed s x → Committed s y → x.cmdId = y.cmdId → x.dep = y.dep
  kept : KeepsCommitted s

structure Inv (s : System n) : Prop where
  replica : ∀ j, LocalInv j (s.server j)
  context : ∀ j, ContextInv s j (s.server j)
  everywhere : GlobalInv s

/-- Records are never taken back. -/
structure Grows (s t : System n) : Prop where
  commits : ∀ i, ∀ x ∈ (s.server i).commits, x ∈ (t.server i).commits
  recoveries : ∀ i, ∀ x ∈ (s.server i).recoveries, x ∈ (t.server i).recoveries
  sent : ∀ i, ∀ m ∈ (s.server i).sent, m ∈ (t.server i).sent

section Growth

variable {s t : System n} {j : Fin n} {r : SwiftPaxosServer n}

theorem Grows.committed (h : Grows s t) {x : Commit} (hx : Committed s x) : Committed t x :=
  hx.imp fun i hi => h.commits i x hi

theorem Grows.recovered (h : Grows s t) {x : Recovery} (hx : Recovered s x) : Recovered t x :=
  hx.imp fun i hi => h.recoveries i x hi

theorem GoodAnswer.mono {b : Nat} {a : NewLeaderAckEntry} (ha : GoodAnswer s b a)
    (h : Grows s t) : GoodAnswer t b a where
  lt := ha.lt
  phase := ha.phase
  committed e he hp := by
    obtain ⟨x, hx, hrest⟩ := ha.committed e he hp
    exact ⟨x, h.committed hx, hrest⟩
  merged hpos := by
    obtain ⟨m, hm, hrest⟩ := ha.merged hpos
    exact ⟨m, h.recovered hm, hrest⟩

theorem ContextInv.mono (hr : ContextInv s j r) (h : Grows s t) : ContextInv t j r where
  installed hpos := by
    obtain ⟨m, hm, hrest⟩ := hr.installed hpos
    exact ⟨m, h.recovered hm, hrest⟩
  acked hrec c hack hcom := by
    obtain ⟨i, hi, hm⟩ := hr.acked hrec c hack hcom
    exact ⟨i, hi, h.sent i _ hm⟩
  pending hrec hj i a ha := (hr.pending hrec hj i a ha).mono h
  answers i k b cb st hm := (hr.answers i k b cb st hm).imp_right fun ha => ha.mono h

theorem Origin.mono {x : Commit} (hx : Origin s x) (h : Grows s t) : Origin t x := by
  obtain ⟨hpos, horigin⟩ := hx
  refine ⟨fun hb => (hpos hb).imp fun m hm => h.recovered hm, horigin.imp ?_ ?_⟩
  · exact fun ⟨m, hm, he⟩ => ⟨m, h.recovered hm, he⟩
  · exact fun ⟨i, hi, hm⟩ => ⟨i, hi, h.sent i _ hm⟩

theorem FromCommit.mono {b : Nat} {e : RecoveryEntry} (he : FromCommit s b e) (h : Grows s t) :
    FromCommit t b e := by
  obtain ⟨hp, x, hx, hrest⟩ := he
  exact ⟨hp, x, h.committed hx, hrest⟩

/-- New commits and new recoveries, and what has to hold of them. -/
theorem GlobalInv.extend (hs : GlobalInv s) (h : Grows s t) {N : Commit → Prop}
    {R : Recovery → Prop} (hN : ∀ x, Committed t x → Committed s x ∨ N x)
    (hR : ∀ y, Recovered t y → Recovered s y ∨ R y)
    (horigin : ∀ x, N x → Origin t x)
    (hagree : ∀ x y, N x → Committed s y ∨ N y → x.cmdId = y.cmdId → x.dep = y.dep)
    (hkept : ∀ x y, N x → Recovered t y → x.ballot < y.ballot → Survives x y)
    (hmerged : ∀ y, R y → ∀ e ∈ y.merged, FromCommit s y.ballot e)
    (hnew : ∀ x y, Committed s x → R y → x.ballot < y.ballot → Survives x y) : GlobalInv t where
  merged y hy e he := by
    rcases hR y hy with hy | hy
    · exact (hs.merged y hy e he).mono h
    · exact (hmerged y hy e he).mono h
  origin x hx := by
    rcases hN x hx with hx | hx
    · exact (hs.origin x hx).mono h
    · exact horigin x hx
  agree x y hx hy hid := by
    rcases hN x hx with hx | hx
    · rcases hN y hy with hy | hy
      · exact hs.agree x y hx hy hid
      · exact (hagree y x hy (.inl hx) hid.symm).symm
    · exact hagree x y hx (hN y hy) hid
  kept x y hx hy hlt := by
    rcases hN x hx with hx | hx
    · rcases hR y hy with hy | hy
      · exact hs.kept x y hx hy hlt
      · exact hnew x y hx hy hlt
    · exact hkept x y hx hy hlt

structure Updates (s t : System n) (j : Fin n) (r : SwiftPaxosServer n) : Prop where
  self : t.server j = r
  others : ∀ i, i ≠ j → t.server i = s.server i
  commits : ∀ x ∈ (s.server j).commits, x ∈ r.commits
  recoveries : ∀ x ∈ (s.server j).recoveries, x ∈ r.recoveries
  sent : ∀ m ∈ (s.server j).sent, m ∈ r.sent

theorem Updates.grows (h : Updates s t j r) : Grows s t := by
  refine ⟨fun i x hx => ?_, fun i x hx => ?_, fun i m hm => ?_⟩ <;> by_cases hi : i = j
  · subst hi
    exact h.self ▸ h.commits x hx
  · exact (h.others i hi).symm ▸ hx
  · subst hi
    exact h.self ▸ h.recoveries x hx
  · exact (h.others i hi).symm ▸ hx
  · subst hi
    exact h.self ▸ h.sent m hm
  · exact (h.others i hi).symm ▸ hm

theorem Updates.committed (h : Updates s t j r) {x : Commit} (hx : Committed t x) :
    Committed s x ∨ x ∈ r.commits := by
  obtain ⟨i, hi⟩ := hx
  by_cases hij : i = j
  · subst hij
    rw [h.self] at hi
    exact .inr hi
  · rw [h.others i hij] at hi
    exact .inl ⟨i, hi⟩

theorem Updates.recovered (h : Updates s t j r) {x : Recovery} (hx : Recovered t x) :
    Recovered s x ∨ x ∈ r.recoveries := by
  obtain ⟨i, hi⟩ := hx
  by_cases hij : i = j
  · subst hij
    rw [h.self] at hi
    exact .inr hi
  · rw [h.others i hij] at hi
    exact .inl ⟨i, hi⟩

theorem Inv.update (hs : Inv s) (h : Updates s t j r) (hlocal : LocalInv j r)
    (hcontext : ContextInv t j r) (hglobal : GlobalInv t) : Inv t where
  replica i := by
    by_cases hi : i = j
    · subst hi
      rw [h.self]
      exact hlocal
    · rw [h.others i hi]
      exact hs.replica i
  context i := by
    by_cases hi : i = j
    · subst hi
      rw [h.self]
      exact hcontext
    · rw [h.others i hi]
      exact (hs.context i).mono h.grows
  everywhere := hglobal

/-- A recovery is recorded by the replica its ballot belongs to. -/
theorem Inv.recovered_mem (hs : Inv s) {x : Recovery} (hx : Recovered s x) {i : Fin n}
    (hi : i.val = x.ballot % n) : x ∈ (s.server i).recoveries := by
  obtain ⟨k, hk⟩ := hx
  have hki : k = i := Fin.ext ((((hs.replica k).recoveries x hk).1).symm.trans hi.symm)
  exact hki ▸ hk

theorem Inv.recovered_unique (hs : Inv s) {b : Nat} {m m' : List RecoveryEntry}
    (hm : Recovered s ⟨b, m⟩) (hm' : Recovered s ⟨b, m'⟩) : m = m' := by
  obtain ⟨k, hk⟩ := hm
  have hmem : ⟨b, m'⟩ ∈ (s.server k).recoveries :=
    hs.recovered_mem hm' ((hs.replica k).recoveries _ hk).1.symm
  exact (hs.replica k).unique _ hk _ hmem rfl

end Growth

section VoteStep

variable {s t : System n} {j : Fin n} {r : SwiftPaxosServer n} {cid : CmdId} {dep : List CmdId}
  {P : List CmdId → Prop} {done : Bool} {fresh : Prop}

theorem Votes.updates {Q : Message n → Prop} (hv : Votes (s.server j) r cid P Q done)
    (hself : t.server j = r) (hothers : ∀ i, i ≠ j → t.server i = s.server i) :
    Updates s t j r where
  self := hself
  others := hothers
  commits x hx := hv.commits ▸ List.mem_append_left _ hx
  recoveries x hx := hv.recoveries ▸ hx
  sent m hm := by
    obtain ⟨ms, hms, -⟩ := hv.sent
    exact hms ▸ List.mem_append_left _ hm

/-- The leader of the replica's ballot has acked the command with dependency `d`. -/
def LeaderAcked (s : System n) (b : Nat) (cid : CmdId) (d : List CmdId) : Prop :=
  ∃ i : Fin n, i.val = b % n ∧ .fastAck i b cid d ∈ (s.server i).sent

theorem Votes.leaderAcked (hs : Inv s)
    (hv : Votes (s.server j) r cid P (VoteMessage j (s.server j).ballot cid dep fresh) done)
    (h : Updates s t j r)
    (hP : ∀ d, P d → (s.server j).recovering = false → LeaderAcked t (s.server j).ballot cid d)
    (hrec : (s.server j).recovering = false) (hack : (r.cmdDescs cid).leaderAcked = true) :
    LeaderAcked t (s.server j).ballot cid (r.cmdDescs cid).leaderDep := by
  obtain ⟨hund, -⟩ := SwiftCmdDesc.decided_eq_false.mp hv.undecided
  rcases hv.leader hack with ⟨hold, heq⟩ | hnew
  · obtain ⟨i, hi, hm⟩ := (hs.context j).acked hrec cid hold hund
    rw [heq]
    exact ⟨i, hi, h.grows.sent i _ hm⟩
  · exact hP _ hnew hrec

theorem ContextInv.votes (hs : Inv s)
    (hv : Votes (s.server j) r cid P (VoteMessage j (s.server j).ballot cid dep fresh) done)
    (h : Updates s t j r)
    (hP : ∀ d, P d → (s.server j).recovering = false → LeaderAcked t (s.server j).ballot cid d) :
    ContextInv t j r := by
  have hold := (hs.context j).mono h.grows
  obtain ⟨hund, -⟩ := SwiftCmdDesc.decided_eq_false.mp hv.undecided
  refine ⟨fun hpos => ?_, fun hrec c hack hcom => ?_, fun hrec hj i a ha => ?_,
    fun i k b cb st hm => ?_⟩
  · rw [hv.cballot] at hpos ⊢
    obtain ⟨m, hm, hall⟩ := hold.installed hpos
    refine ⟨m, hm, fun e he => ?_⟩
    have hne : e.cmdId ≠ cid := fun hid => by
      have hc := (hall e he).1
      rw [hid, hund] at hc
      cases hc
    rw [hv.desc_ne _ hne]
    exact hall e he
  · rw [hv.recovering] at hrec
    rw [hv.ballot]
    by_cases hc : c = cid
    · subst hc
      exact hv.leaderAcked hs h hP hrec hack
    · rw [hv.desc_ne c hc] at hack hcom ⊢
      exact hold.acked hrec c hack hcom
  · rw [hv.recovering] at hrec
    rw [hv.ballot] at hj ⊢
    rw [hv.pending] at ha
    exact hold.pending hrec hj i a ha
  · rcases hv.mem_sent hm with hm | ⟨_, _, _, hm⟩ | ⟨-, hm⟩
    · exact hold.answers i k b cb st hm
    · cases hm
    · cases hm

/-- The commits of one command agree with a dependency its leader acked in a ballot, if there is no
later recovery. -/
theorem Inv.dep_eq_of_acked (hs : Inv s) (hgrow : Grows s t) (hlocal : ∀ i, LocalInv i (t.server i))
    {b : Nat} {d : List CmdId} (hack : LeaderAcked t b cid d)
    (hrec : 0 < b → ∃ m, Recovered s ⟨b, m⟩)
    (hlate : ∀ y, Recovered s y → y.ballot ≤ b) {y : Commit}
    (hy : Committed s y) (hid : y.cmdId = cid) : y.dep = d := by
  obtain ⟨i, hi, hm⟩ := hack
  have hfresh : ∀ m, Recovered s ⟨b, m⟩ → ∀ e ∈ m, e.cmdId ≠ cid := by
    intro m hrecov
    have hmem := hgrow.recoveries i _ (hs.recovered_mem hrecov hi)
    exact (hlocal i).ack_fresh _ hmem cid d hm
  induction hk : y.ballot using Nat.strong_induction_on generalizing y with
  | _ k ih =>
    subst hk
    obtain ⟨hpos, horigin⟩ := hs.everywhere.origin y hy
    rcases lt_trichotomy y.ballot b with hlt | heq | hgt
    · -- the recovery of ballot `b` has kept the commit, so its leader has not acked the command
      obtain ⟨m, hrecov⟩ := hrec ((Nat.zero_le _).trans_lt hlt)
      obtain ⟨e, he, heid, -⟩ := hs.everywhere.kept y ⟨b, m⟩ hy hrecov hlt
      exact absurd (heid.trans hid) (hfresh m hrecov e he)
    · rcases horigin with ⟨m, hrecov, e, he, heid, -⟩ | ⟨k, hk, hmk⟩
      · rw [heq] at hrecov
        exact absurd (heid.trans hid) (hfresh m hrecov e he)
      · have hki : k = i := Fin.ext (by rw [hk, hi, heq])
        subst hki
        have hmk := hgrow.sent k _ hmk
        rw [heq, hid] at hmk
        exact (hlocal k).ack_unique b cid y.dep d hi.symm hmk hm
    · -- the commit comes from the recovery of its ballot, and that from an earlier commit
      rcases horigin with ⟨m, hrecov, e, he, heid, hedep⟩ | ⟨k, hk, hmk⟩
      · obtain ⟨-, x, hx, hxid, hxdep, hlt⟩ := hs.everywhere.merged _ hrecov e he
        rw [← hedep, ← hxdep]
        exact ih x.ballot hlt hx (hxid.trans (heid.trans hid)) rfl
      · obtain ⟨m, hrecov⟩ := hpos ((Nat.zero_le _).trans_lt hgt)
        exact absurd (hlate ⟨y.ballot, m⟩ hrecov) (Nat.not_le.mpr hgt)

theorem Inv.votes (hs : Inv s)
    (hv : Votes (s.server j) r cid P (VoteMessage j (s.server j).ballot cid dep fresh) done)
    (h : Updates s t j r)
    (hP : ∀ d, P d → (s.server j).recovering = false → LeaderAcked t (s.server j).ballot cid d)
    (hfresh : fresh → FreshAck j (s.server j) r cid)
    (hdone : done = true → (s.server j).recovering = false ∧
      ∀ y, Recovered s y → y.ballot ≤ (s.server j).ballot) : Inv t := by
  have hlocal : LocalInv j r := (hs.replica j).votes hv (fun hd => (hdone hd).1) hfresh
  have hall : ∀ i, LocalInv i (t.server i) := by
    intro i
    by_cases hi : i = j
    · subst hi
      rw [h.self]
      exact hlocal
    · rw [h.others i hi]
      exact hs.replica i
  have hrecs : ∀ y, Recovered t y → Recovered s y := by
    intro y hy
    rcases h.recovered hy with hy | hy
    · exact hy
    · exact ⟨j, hv.recoveries ▸ hy⟩
  refine hs.update h hlocal (ContextInv.votes hs hv h hP) ?_
  cases hd : done with
  | false =>
    refine hs.everywhere.extend h.grows (N := fun _ => False) (R := fun _ => False) (fun x hx => ?_)
      (fun y hy => .inl (hrecs y hy)) (by simp) (by simp) (by simp) (by simp) (by simp)
    rcases h.committed hx with hx | hx
    · exact .inl hx
    · rw [hv.commits, hd] at hx
      exact .inl ⟨j, by simpa using hx⟩
  | true =>
    obtain ⟨hnormal, hlate⟩ := hdone hd
    have hack := hv.leaderAcked hs h hP hnormal (hv.acked hd)
    have hrec : 0 < (s.server j).ballot → ∃ m, Recovered s ⟨(s.server j).ballot, m⟩ := by
      intro hpos
      rw [← (hs.replica j).normal hnormal] at hpos ⊢
      obtain ⟨m, hm, -⟩ := (hs.context j).installed hpos
      exact ⟨m, hm⟩
    have hdep : ∀ y, Committed s y → y.cmdId = cid → y.dep = (r.cmdDescs cid).leaderDep :=
      fun y hy hid => hs.dep_eq_of_acked h.grows hall hack hrec hlate hy hid
    refine hs.everywhere.extend h.grows (R := fun _ => False)
      (N := fun x => x = ⟨cid, (r.cmdDescs cid).leaderDep, (s.server j).ballot⟩)
      (fun x hx => ?_) (fun y hy => .inl (hrecs y hy)) ?_ ?_ ?_ (by simp) (by simp)
    · rcases h.committed hx with hx | hx
      · exact .inl hx
      · rw [hv.commits, hd, List.mem_append] at hx
        exact hx.imp (fun hx => ⟨j, hx⟩) (fun hx => by simpa using hx)
    · rintro x rfl
      exact ⟨fun hpos => (hrec hpos).imp fun m hm => h.grows.recovered hm, .inr hack⟩
    · rintro x y rfl (hy | rfl) hid
      · exact (hdep y hy hid.symm).symm
      · rfl
    · rintro x y rfl hy hlt
      exact absurd (hlate y (hrecs y hy)) (Nat.not_le.mpr hlt)

end VoteStep

section RecoveryStep

variable {s t : System n} {j : Fin n} {r : SwiftPaxosServer n}

theorem GlobalInv.same (hs : GlobalInv s) (h : Updates s t j r)
    (hc : r.commits = (s.server j).commits) (hr : r.recoveries = (s.server j).recoveries) :
    GlobalInv t := by
  refine hs.extend h.grows (N := fun _ => False) (R := fun _ => False) (fun x hx => ?_)
    (fun y hy => ?_) (by simp) (by simp) (by simp) (by simp) (by simp)
  · rcases h.committed hx with hx | hx
    · exact .inl hx
    · exact .inl ⟨j, hc ▸ hx⟩
  · rcases h.recovered hy with hy | hy
    · exact .inl hy
    · exact .inl ⟨j, hr ▸ hy⟩

theorem Inv.goodAnswer_snapshot (hs : Inv s) {b : Nat} (hb : (s.server j).cballot < b)
    (hrep : (s.server j).reportsLeaderDeps = true) :
    GoodAnswer s b ⟨(s.server j).cballot, (s.server j).snapshotLocalState⟩ := by
  have hlocal := hs.replica j
  refine ⟨hb, fun e he => ?_, fun e he hp => ?_, fun hpos => ?_⟩
  · obtain ⟨-, -, -, hphase, -⟩ := mem_snapshotLocalState.mp he
    rw [hphase]
    exact hlocal.phase_ne e.cmdId
  · obtain ⟨hknown, -, -, hphase, hdep⟩ := mem_snapshotLocalState.mp he
    have hcom := (hlocal.committed_iff e.cmdId).mpr (hphase ▸ hp)
    obtain ⟨b', hb', hx⟩ := hlocal.recorded e.cmdId hcom
    refine ⟨_, ⟨j, hx⟩, rfl, ?_, hb'⟩
    have hall := List.all_eq_true.mp hrep e.cmdId hknown
    rw [hdep]
    split_ifs with hempty
    · rw [hempty]
      exact (by simpa [hcom, hempty] using hall : _ = []).symm
    · rfl
  · obtain ⟨m, hm, hall⟩ := (hs.context j).installed hpos
    refine ⟨m, hm, fun e he => ?_⟩
    obtain ⟨hcom, hcmd, -⟩ := hall e he
    have hphase := (hlocal.committed_iff e.cmdId).mp hcom
    have hstart : ((s.server j).cmdDescs e.cmdId).phase ≠ .start := by simp [hphase]
    let d := (s.server j).cmdDescs e.cmdId
    exact ⟨⟨e.cmdId, .commit, if d.leaderDep = [] then d.myDep else d.leaderDep⟩,
      mem_snapshotLocalState.mpr ⟨hlocal.known _ hstart, hstart, hcmd, hphase.symm, rfl⟩, rfl, rfl⟩

theorem Inv.suspend (hs : Inv s) {b : Nat} (hb : (s.server j).ballot < b)
    {pending : Fin n → Option NewLeaderAckEntry} {doneSync : Bool} {m : Message n}
    (hself : t.server j = { s.server j with
      ballot := b, recovering := true, pendingNewLeaderAcks := pending,
      syncBroadcastDone := doneSync, sent := (s.server j).sent ++ [m] })
    (hothers : ∀ i, i ≠ j → t.server i = s.server i)
    (hm : m = .newLeader j b ∧ b % n = j ∨ ∃ i k b cb st, m = .newLeaderAck i k b cb st ∧
      b % n = i ∧ GoodAnswer s b ⟨cb, st⟩)
    (hpending : b % n = j → ∀ i a, pending i = some a → GoodAnswer s b a) : Inv t := by
  have h : Updates s t j _ := ⟨hself, hothers, fun x hx => hx, fun x hx => hx,
    fun x hx => List.mem_append_left _ hx⟩
  have hold := (hs.context j).mono h.grows
  refine hs.update h ((hs.replica j).suspend hb ?_) ?_ (hs.everywhere.same h rfl rfl)
  · exact hm.imp_right fun ⟨i, k, b, cb, st, hm, _⟩ => ⟨i, k, b, cb, st, hm⟩
  · refine ⟨hold.installed, fun hno => (by cases hno), fun _ hj i a ha => ?_,
      fun i k b' cb st hmem => ?_⟩
    · exact (hpending hj i a ha).mono h.grows
    · rcases List.mem_append.mp hmem with hmem | hmem
      · exact hold.answers i k b' cb st hmem
      · obtain rfl := List.mem_singleton.mp hmem
        rcases hm with ⟨hm, -⟩ | ⟨i', k', b'', cb', st', hm, hi, hgood⟩
        · cases hm
        · cases hm
          exact ⟨hi, hgood.mono h.grows⟩

theorem Restarts.updates {b : Nat} {merged : List RecoveryEntry} {recs : List Recovery}
    {ms : List (Message n)} (hr : Restarts (s.server j) r b merged recs ms)
    (hself : t.server j = r) (hothers : ∀ i, i ≠ j → t.server i = s.server i) : Updates s t j r :=
  ⟨hself, hothers, hr.commits_kept, fun _ hx => hr.recoveries ▸ List.mem_append_left _ hx,
    fun _ hx => hr.sent ▸ List.mem_append_left _ hx⟩

theorem Inv.restart (hs : Inv s) {b : Nat} {merged : List RecoveryEntry} {recs : List Recovery}
    {ms : List (Message n)} (hr : Restarts (s.server j) r b merged recs ms)
    (hself : t.server j = r) (hothers : ∀ i, i ≠ j → t.server i = s.server i)
    (hrec : RestartRecord j (s.server j) b merged recs ms) (hb : (s.server j).ballot ≤ b)
    (hmerged : ∀ e ∈ merged, FromCommit s b e) (hrecovered : Recovered t ⟨b, merged⟩)
    (hkept : recs = [⟨b, merged⟩] → ∀ x, Committed s x → x.ballot < b → Survives x ⟨b, merged⟩) :
    Inv t := by
  have h : Updates s t j r := hr.updates hself hothers
  have hold := (hs.context j).mono h.grows
  have hdep : ∀ e ∈ merged, ∀ x, Committed s x → x.cmdId = e.cmdId → x.dep = e.dep := by
    intro e he x hx hid
    obtain ⟨-, y, hy, hyid, hydep, -⟩ := hmerged e he
    rw [← hydep]
    exact hs.everywhere.agree x y hx hy (hid.trans hyid.symm)
  have hsame : ∀ e ∈ merged, ∀ e' ∈ merged, e.cmdId = e'.cmdId → e.dep = e'.dep := by
    intro e he e' he' hid
    obtain ⟨-, y, hy, hyid, hydep, -⟩ := hmerged e he
    rw [← hydep]
    exact hdep e' he' y hy (hyid.trans hid)
  have hlocal : LocalInv j r := (hs.replica j).restart hr hrec hb
    (fun e he x hx hid => hdep e he x ⟨j, hx⟩ hid) hsame
  have hrecs : ∀ y, Recovered t y → Recovered s y ∨ y = ⟨b, merged⟩ ∧ recs = [⟨b, merged⟩] := by
    intro y hy
    rcases h.recovered hy with hy | hy
    · exact .inl hy
    · rw [hr.recoveries, List.mem_append] at hy
      refine hy.imp (fun hy => ⟨j, hy⟩) fun hy => ?_
      rcases hrec with ⟨heq, -⟩ | ⟨heq, -⟩
      · rw [heq] at hy
        cases hy
      · rw [heq] at hy
        exact ⟨List.mem_singleton.mp hy, heq⟩
  refine hs.update h hlocal ⟨fun _ => ?_, fun _ c hack hcom => ?_, fun hno => ?_,
    fun i k b' cb st hm => ?_⟩ ?_
  · rw [hr.cballot]
    refine ⟨merged, hrecovered, fun e he => ?_⟩
    obtain ⟨-, hcom, hcmd, e', he', hid, hdep'⟩ := hr.desc_merged e.cmdId ⟨e, he, rfl⟩
    exact ⟨hcom, hcmd, hdep'.trans (hsame e' he' e he hid)⟩
  · -- a command that is not committed now was dropped
    rcases hr.desc_cases c with hmem | ⟨hc, heq⟩ | heq
    · rw [(hr.desc_merged c hmem).2.1] at hcom
      cases hcom
    · rw [heq, hc] at hcom
      cases hcom
    · rw [heq] at hack
      cases hack
  · rw [hr.recovering] at hno
    cases hno
  · rcases hrec.mem_sent hr hm with hm | ⟨hm, -⟩
    · exact hold.answers i k b' cb st hm
    · cases hm
  · refine hs.everywhere.extend h.grows (N := fun x => ∃ e ∈ merged, x = ⟨e.cmdId, e.dep, b⟩)
      (R := fun y => y = ⟨b, merged⟩ ∧ recs = [⟨b, merged⟩]) (fun x hx => ?_) hrecs ?_ ?_ ?_ ?_ ?_
    · rcases h.committed hx with hx | hx
      · exact .inl hx
      · exact (hr.commits x hx).imp (fun hx => ⟨j, hx⟩) id
    · rintro x ⟨e, he, rfl⟩
      exact ⟨fun _ => ⟨merged, hrecovered⟩, .inl ⟨merged, hrecovered, e, he, rfl, rfl⟩⟩
    · rintro x y ⟨e, he, rfl⟩ (hy | ⟨e', he', rfl⟩) hid
      · exact (hdep e he y hy hid.symm).symm
      · exact hsame e he e' he' hid
    · rintro x y ⟨e, he, rfl⟩ hy hlt
      obtain ⟨-, z, hz, hzid, hzdep, hzlt⟩ := hmerged e he
      rcases hrecs y hy with hy | ⟨rfl, -⟩
      · obtain ⟨e', he', hid, hdep', hphase⟩ := hs.everywhere.kept z y hz hy (hzlt.trans hlt)
        exact ⟨e', he', hid.trans hzid, hdep'.trans hzdep, hphase⟩
      · exact absurd hlt (lt_irrefl b)
    · rintro y ⟨rfl, -⟩ e he
      exact hmerged e he
    · rintro x y hx ⟨rfl, heq⟩ hlt
      exact hkept heq x hx hlt

/-- A merge of good answers has every earlier commit that one of them reports. -/
theorem Inv.survives_merge (hs : Inv s) {pending : Fin n → Option NewLeaderAckEntry} {b : Nat}
    (hgood : ∀ i a, pending i = some a → GoodAnswer s b a)
    (hreport : ∀ x, Committed s x → x.ballot < b →
      ∃ a ∈ answers pending, Reports a.state x.cmdId) :
    (∀ e ∈ mergeStates pending, FromCommit s b e) ∧
      ∀ x, Committed s x → x.ballot < b → Survives x ⟨b, mergeStates pending⟩ := by
  have hfrom : ∀ e ∈ mergeStates pending, FromCommit s b e := by
    intro e he
    obtain ⟨a, ha, -, hmem, hphase⟩ := mem_mergeable.mp (mergeable_of_mem_mergeStates he)
    obtain ⟨i, hi⟩ := mem_answers.mp ha
    have hg := hgood i a hi
    have hcommit := hphase.resolve_left (hg.phase e hmem)
    obtain ⟨x, hx, hid, hdep, hle⟩ := hg.committed e hmem hcommit
    exact ⟨hcommit, x, hx, hid, hdep, hle.trans_lt hg.lt⟩
  refine ⟨hfrom, fun x hx hlt => ?_⟩
  -- what was committed before the highest cballot is in the state merged for it
  have hearlier : ∀ y, Committed s y → y.ballot < maxCballot pending →
      ∃ e ∈ mergeable pending, e.cmdId = y.cmdId := by
    intro y hy hmax
    obtain ⟨a, ha, heq⟩ := exists_answer_maxCballot ((Nat.zero_le _).trans_lt hmax)
    obtain ⟨i, hi⟩ := mem_answers.mp ha
    obtain ⟨m, hm, hall⟩ := (hgood i a hi).merged (heq ▸ (Nat.zero_le _).trans_lt hmax)
    obtain ⟨e, he, hid, -⟩ := hs.everywhere.kept y _ hy hm (heq ▸ hmax)
    obtain ⟨e', he', hid', hphase⟩ := hall e he
    exact ⟨e', mem_mergeable.mpr ⟨a, ha, heq, he', .inr hphase⟩, hid'.trans hid⟩
  have hentry : ∃ e ∈ mergeable pending, e.cmdId = x.cmdId := by
    obtain ⟨a, ha, e, he, hid, hphase⟩ := hreport x hx hlt
    rcases (le_maxCballot ha).lt_or_eq with hmax | heq
    · obtain ⟨i, hi⟩ := mem_answers.mp ha
      obtain ⟨y, hy, hyid, -, hle⟩ := (hgood i a hi).committed e he hphase
      obtain ⟨e', he', hid'⟩ := hearlier y hy (hle.trans_lt hmax)
      exact ⟨e', he', hid'.trans (hyid.trans hid)⟩
    · exact ⟨e, mem_mergeable.mpr ⟨a, ha, heq, he, .inr hphase⟩, hid⟩
  obtain ⟨e, he, hid⟩ := hentry
  obtain ⟨e', he', hid'⟩ := mergeStates_covers he
  obtain ⟨hphase, y, hy, hyid, hydep, -⟩ := hfrom e' he'
  refine ⟨e', he', hid'.trans hid, ?_, .inr hphase⟩
  rw [← hydep]
  exact hs.everywhere.agree y x hy hx (hyid.trans (hid'.trans hid))

end RecoveryStep

section Runs

variable {w : Workload} {s t : System n}

theorem server_setServer_ne {j : Fin n} {r : SwiftPaxosServer n} (i : Fin n) (hi : i ≠ j) :
    (s.setServer j r).server i = s.server i :=
  Function.update_of_ne hi ..

theorem server_setServer_self {j : Fin n} {r : SwiftPaxosServer n} :
    (s.setServer j r).server j = r :=
  Function.update_self ..

theorem Inv.congr (hs : Inv s) (h : t.server = s.server) : Inv t := by
  obtain ⟨server, proposed⟩ := t
  obtain ⟨server', proposed'⟩ := s
  subst h
  exact ⟨hs.replica, fun j => (hs.context j).mono ⟨fun _ _ h => h, fun _ _ h => h, fun _ _ h => h⟩,
    hs.everywhere.extend ⟨fun _ _ h => h, fun _ _ h => h, fun _ _ h => h⟩ (N := fun _ => False)
      (R := fun _ => False) (fun x hx => .inl hx) (fun y hy => .inl hy) (by simp) (by simp) (by simp)
      (by simp) (by simp)⟩

theorem commitsInTime_spec {e : Event n} {j : Fin n} {cid : CmdId}
    (h : commitsInTime w s e = true) (hc : completes w s e = some (j, cid)) :
    (s.server j).recovering = false ∧ ∀ i, (s.server i).ballot ≤ (s.server j).ballot := by
  simp only [commitsInTime, hc, Bool.and_eq_true, Bool.not_eq_true', List.all_eq_true,
    decide_eq_true_eq] at h
  exact ⟨h.1, fun i => h.2 i (List.mem_finRange i)⟩

theorem Inv.recovery_le (hs : Inv s) {b : Nat} (hb : ∀ i, (s.server i).ballot ≤ b) {y : Recovery}
    (hy : Recovered s y) : y.ballot ≤ b := by
  obtain ⟨i, hi⟩ := hy
  exact ((hs.replica i).recovery_le hi).trans (hb i)

theorem Inv.propose (hs : Inv s) {i : Fin n} {cid : CmdId}
    (honce : leaderAcksOnce s (.propose i cid) = true)
    (htime : commitsInTime w s (.propose i cid) = true) : Inv (s.propose w i cid) := by
  by_cases hskip : ((s.server i).recovering || ((s.server i).cmdDescs cid).decided) = true
  · refine hs.congr ?_
    have heq : (s.server i).onPropose w i cid = s.server i := by
      simp [SwiftPaxosServer.onPropose, hskip]
    simp [System.propose, System.setServer, heq]
  · obtain ⟨hrec, hund⟩ := Bool.or_eq_false_iff.mp (eq_false_of_ne_true hskip)
    have hself : (s.propose w i cid).server i = (s.server i).onPropose w i cid :=
      Function.update_self ..
    have hothers : ∀ k, k ≠ i → (s.propose w i cid).server k = s.server k :=
      fun k hk => Function.update_of_ne hk ..
    have hv : Votes (s.server i) ((s.server i).onPropose w i cid) cid
        (fun d => (s.server i).recovering = false →
          LeaderAcked (s.propose w i cid) (s.server i).ballot cid d)
        (VoteMessage i (s.server i).ballot cid (getDep w (s.server i).keys cid) True)
        ((s.server i).proposeCompletes w i cid) := by
      refine votes_onPropose (fun hlead _ => ⟨i, by simpa [SwiftPaxosServer.leads] using hlead, ?_⟩)
        (.inl ⟨_, _, _, rfl⟩) (.inr ⟨trivial, rfl⟩) hrec hund
      rw [hself]
      exact mem_sent_onPropose hrec hund
    refine hs.votes hv (hv.updates hself hothers) (fun d hd => hd) (fun _ => ?_) fun hdone => ?_
    · refine ⟨hrec, onPropose_phase hrec hund, fun hlead => ?_, fun x hx hb e he hid => ?_⟩
      · have hleads : (s.server i).leads i = true := by simp [SwiftPaxosServer.leads, hlead]
        simpa [leaderAcksOnce, hrec, hund, hleads] using honce
      · -- what was merged for this ballot is committed here
        obtain ⟨hund', -⟩ := SwiftCmdDesc.decided_eq_false.mp hund
        have hnormal := (hs.replica i).normal hrec
        have hpos : 0 < (s.server i).cballot := by
          rw [hnormal, ← hb]
          exact ((hs.replica i).recoveries x hx).2.1
        obtain ⟨m, hm, hall⟩ := (hs.context i).installed hpos
        rw [hnormal, ← hb] at hm
        have hxm : x.merged = m := hs.recovered_unique ⟨i, hx⟩ hm
        have hcom := (hall e (hxm ▸ he)).1
        rw [hid, hund'] at hcom
        cases hcom
    · have hc : completes w s (.propose i cid) = some (i, cid) := by simp [completes, hdone]
      obtain ⟨hnormal, hle⟩ := commitsInTime_spec htime hc
      exact ⟨hnormal, fun y hy => hs.recovery_le hle hy⟩

theorem Inv.deliverFastAck (hs : Inv s) {i j replica : Fin n} {k b : Nat} {cid : CmdId}
    {dep : List CmdId} (hm : (s.server i).sent[k]? = some (.fastAck replica b cid dep))
    (honce : leaderAcksOnce s (.deliver i k j) = true)
    (htime : commitsInTime w s (.deliver i k j) = true) :
    Inv (s.setServer j ((s.server j).onFastAck j replica cid dep)) := by
  cases hund : ((s.server j).cmdDescs cid).decided with
  | true =>
    refine hs.congr ?_
    rw [onFastAck_of_decided hund]
    exact Function.update_eq_self ..
  | false =>
    have hmem := List.mem_of_getElem? hm
    have hrep : replica = i := ((hs.replica i).ack replica b cid dep hmem).1
    have hv : Votes (s.server j) ((s.server j).onFastAck j replica cid dep) cid
        (fun d => (s.server j).recovering = false →
          LeaderAcked s (s.server j).ballot cid d)
        (VoteMessage j (s.server j).ballot cid [] False)
        (((s.server j).recordFastAck j replica cid dep).cmdDescs cid).quorumReached := by
      refine votes_onFastAck (fun hlead hrec => ?_) (fun _ => .inl ⟨_, _, _, rfl⟩) hund
      have hb : b = (s.server j).ballot := by
        simpa [leaderAcksOnce, hm, hrec, hund, hlead] using honce
      rw [← hb]
      refine ⟨i, ?_, hrep ▸ hmem⟩
      simpa [SwiftPaxosServer.leads, hrep, hb] using hlead
    have hup := hv.updates (t := s.setServer j ((s.server j).onFastAck j replica cid dep))
      server_setServer_self server_setServer_ne
    refine hs.votes hv hup (fun d hd hrec => ?_) False.elim fun hdone => ?_
    · obtain ⟨l, hl, hsent⟩ := hd hrec
      exact ⟨l, hl, hup.grows.sent l _ hsent⟩
    · have hc : completes w s (.deliver i k j) = some (j, cid) := by
        simp [completes, hm, SwiftPaxosServer.receiveCompletes, hund, hdone]
      obtain ⟨hnormal, hle⟩ := commitsInTime_spec htime hc
      exact ⟨hnormal, fun y hy => hs.recovery_le hle hy⟩

theorem Inv.deliverSlowAck (hs : Inv s) {i j replica : Fin n} {k b : Nat} {cid : CmdId}
    (hm : (s.server i).sent[k]? = some (.slowAck replica b cid))
    (htime : commitsInTime w s (.deliver i k j) = true) :
    Inv (s.setServer j ((s.server j).onLightSlowAck replica b cid)) := by
  by_cases hskip : ((s.server j).cmdDescs cid).decided = true ∨ b ≠ (s.server j).ballot
  · refine hs.congr ?_
    rw [onLightSlowAck_of_stale hskip]
    exact Function.update_eq_self ..
  · obtain ⟨hund, hb⟩ := not_or.mp hskip
    have hund := eq_false_of_ne_true hund
    have hb := not_not.mp hb
    subst hb
    have hv : Votes (s.server j) ((s.server j).onLightSlowAck replica (s.server j).ballot cid) cid
        (fun _ => False) (VoteMessage j (s.server j).ballot cid [] False)
        (((s.server j).recordSlowAck replica cid).cmdDescs cid).quorumReached :=
      votes_onLightSlowAck hund
    refine hs.votes hv (hv.updates server_setServer_self server_setServer_ne)
      (fun d hd => hd.elim) False.elim fun hdone => ?_
    have hc : completes w s (.deliver i k j) = some (j, cid) := by
      simp [completes, hm, SwiftPaxosServer.receiveCompletes, hund, hdone]
    obtain ⟨hnormal, hle⟩ := commitsInTime_spec htime hc
    exact ⟨hnormal, fun y hy => hs.recovery_le hle hy⟩

theorem Inv.triggerRecovery (hs : Inv s) {i : Fin n}
    (hrep : (s.server i).reportsLeaderDeps = true) :
    Inv (s.setServer i ((s.server i).triggerRecovery i)) := by
  have hlt := lt_nextBallot (s.server i) i
  refine hs.suspend hlt server_setServer_self server_setServer_ne
    (.inl ⟨rfl, nextBallot_mod (s.server i) i⟩) fun _ k a ha => ?_
  by_cases hk : k = i
  · subst hk
    simp only [Function.update_self, Option.some.injEq] at ha
    subst ha
    exact hs.goodAnswer_snapshot ((hs.replica k).cballot_le.trans_lt hlt) hrep
  · simp [hk] at ha

theorem Inv.deliverNewLeader (hs : Inv s) {i j replica : Fin n} {b : Nat}
    (hmem : .newLeader replica b ∈ (s.server i).sent) (hne : j ≠ i)
    (hrep : b ≤ (s.server j).ballot ∨ (s.server j).reportsLeaderDeps = true) :
    Inv (s.setServer j ((s.server j).onNewLeaderRecv j replica b)) := by
  obtain ⟨rfl, hb⟩ := (hs.replica i).newLeader replica b hmem
  unfold SwiftPaxosServer.onNewLeaderRecv
  split_ifs with hle
  · exact hs.congr (Function.update_eq_self ..)
  · have hlt := Nat.not_le.mp hle
    refine hs.suspend hlt server_setServer_self server_setServer_ne
      (.inr ⟨replica, j, b, _, _, rfl, hb, ?_⟩) fun hj => ?_
    · exact hs.goodAnswer_snapshot ((hs.replica j).cballot_le.trans_lt hlt) (hrep.resolve_left hle)
    · exact absurd (Fin.ext (hj.symm.trans hb)) hne

theorem Inv.deliverSync (hs : Inv s) {i j replica : Fin n} {b : Nat} {st : List RecoveryEntry}
    (hmem : .sync replica b st ∈ (s.server i).sent) (hne : j ≠ i) :
    Inv (s.setServer j ((s.server j).onSyncRecv w b st)) := by
  have hrecov := (hs.replica i).sync replica b st hmem
  by_cases hlt : b < (s.server j).ballot
  · refine hs.congr ?_
    have heq : (s.server j).onSyncRecv w b st = s.server j := if_pos hlt
    rw [heq]
    exact Function.update_eq_self ..
  · have hb := Nat.not_lt.mp hlt
    have hfrom := hs.everywhere.merged ⟨b, st⟩ ⟨i, hrecov⟩
    refine hs.restart (restarts_onSyncRecv hb fun e he => (hfrom e he).1) server_setServer_self
      server_setServer_ne (.inl ⟨rfl, rfl, fun hj => ?_⟩) hb hfrom ⟨i, ?_⟩ fun hno => ?_
    · have hi := ((hs.replica i).recoveries _ hrecov).1
      exact hne (Fin.ext (hj.symm.trans hi))
    · rw [server_setServer_ne i hne.symm]
      exact hrecov
    · cases hno

theorem Inv.finishRecovery (hs : Inv s) {j : Fin n} (hrec : (s.server j).recovering = true)
    (hj : (s.server j).ballot % n = j)
    (hreport : ∀ x, Committed s x → x.ballot < (s.server j).ballot →
      ∃ a ∈ answers (s.server j).pendingNewLeaderAcks, Reports a.state x.cmdId) :
    Inv (s.setServer j ((s.server j).finishRecovery w j)) := by
  obtain ⟨hfrom, hkept⟩ := hs.survives_merge ((hs.context j).pending hrec hj) hreport
  have hr : Restarts (s.server j) ((s.server j).finishRecovery w j) _ _ _ _ :=
    restarts_finishRecovery fun e he => (hfrom e he).1
  refine hs.restart hr server_setServer_self server_setServer_ne
    (.inr ⟨rfl, rfl, hj, rfl, hrec⟩) le_rfl hfrom ⟨j, ?_⟩ fun _ => hkept
  rw [server_setServer_self, hr.recoveries]
  exact List.mem_append_right _ List.mem_cons_self

theorem Inv.recordAnswer (hs : Inv s) {j replica : Fin n} {cb : Nat} {st : List RecoveryEntry}
    (hgood : GoodAnswer s (s.server j).ballot ⟨cb, st⟩) :
    Inv (s.setServer j ((s.server j).recordAnswer replica cb st)) := by
  let r := (s.server j).recordAnswer replica cb st
  have hup : Updates s (s.setServer j r) j r := ⟨server_setServer_self, server_setServer_ne,
    fun _ h => h, fun _ h => h, fun _ h => h⟩
  have hlocal := hs.replica j
  have hold := (hs.context j).mono hup.grows
  refine hs.update hup { hlocal with } ?_ (hs.everywhere.same hup rfl rfl)
  refine ⟨hold.installed, hold.acked, fun hrec hj l a ha => ?_, hold.answers⟩
  by_cases hl : l = replica
  · subst hl
    rw [show r.pendingNewLeaderAcks l = some ⟨cb, st⟩ from Function.update_self ..] at ha
    cases ha
    exact hgood.mono hup.grows
  · rw [show r.pendingNewLeaderAcks l = (s.server j).pendingNewLeaderAcks l from
      Function.update_of_ne hl ..] at ha
    exact hold.pending hrec hj l a ha

theorem inv_init : Inv ({} : System n) where
  replica j := localInv_init j
  context j := by
    constructor <;> simp
  everywhere := by
    constructor <;> simp [Committed, Recovered, KeepsCommitted]

end Runs

end Jetpack.Swift
