import Jetpack.Swift.Sequence

/-! The order in which the replicas deliver conflicting commands in ballot 0. A replica delivers a
command as soon as it has a quorum for it, whether or not the commands it depends on have been
delivered there. In a run in sequence the order is nevertheless the one in which the leader saw the
commands. -/

namespace Jetpack.Swift

open Precedence Transition

variable {n : Nat}

/-- The commands in the order in which the leader of ballot 0 got them. -/
def leaderOrder (s : System n) : List CmdId :=
  if h : 0 < n then s.proposed ⟨0, h⟩ else []

section Invariant

variable {w : Workload} {order : List CmdId}

def Precedes (w : Workload) (order : List CmdId) (a b : CmdId) : Prop :=
  Before order a b ∧ w.conflict a b = true

theorem conflict_ne {a b : CmdId} (h : w.conflict a b = true) : a ≠ b := by
  simp only [Workload.conflict, Bool.and_eq_true, bne_iff_ne] at h
  exact h.1.1

/-- A replica has committed a command only after the conflicting ones the leader got before. -/
def DecidedInTurn (w : Workload) (s : System n) : Prop :=
  ∀ j a b, ((s.server j).cmdDescs b).decided = true → Precedes w (leaderOrder s) a b →
    ((s.server j).cmdDescs a).decided = true

def GoodDep (w : Workload) (order : List CmdId) (cid : CmdId) (dep : List CmdId) : Prop :=
  cid ∈ order ∧ ∀ a ∈ dep, Precedes w order a cid

theorem GoodDep.append {cid c : CmdId} {dep : List CmdId} (h : GoodDep w order cid dep) :
    GoodDep w (order ++ [c]) cid dep := by
  refine ⟨List.mem_append_left _ h.1, fun a ha => ?_⟩
  obtain ⟨hab, hconf⟩ := h.2 a ha
  exact ⟨hab.mono (List.sublist_append_left ..), hconf⟩

/-- The part of the invariant about one replica. -/
structure InOrder (w : Workload) (order : List CmdId) (r : SwiftPaxosServer n) : Prop where
  ballot : r.ballot = 0
  flags : ∀ c, (r.cmdDescs c).committed = (r.cmdDescs c).delivered
  mem_delivered : ∀ c, c ∈ r.delivered ↔ (r.cmdDescs c).delivered = true
  leader : ∀ c, (r.cmdDescs c).leaderAcked = true → GoodDep w order c (r.cmdDescs c).leaderDep
  acked : ∀ c ∈ r.delivered, (r.cmdDescs c).leaderAcked = true
  nodup : r.delivered.Nodup
  order : ∀ a b, b ∈ r.delivered → Precedes w order a b → Before r.delivered a b
  applied : r.applied.Sublist r.delivered

variable {r t : SwiftPaxosServer n} {cid : CmdId}

theorem InOrder.append (h : InOrder w order r) (hnew : cid ∉ order) :
    InOrder w (order ++ [cid]) r where
  ballot := h.ballot
  flags := h.flags
  mem_delivered := h.mem_delivered
  leader c hc := (h.leader c hc).append
  acked := h.acked
  nodup := h.nodup
  order a b hb hab := by
    have hmem : b ∈ order := (h.leader b (h.acked b hb)).1
    rcases hab.1.of_append with hbefore | ⟨-, rfl⟩
    · exact h.order a b hb ⟨hbefore, hab.2⟩
    · exact absurd hmem hnew
  applied := h.applied

theorem InOrder.votes {P : List CmdId → Prop} {Q : Message n → Prop} {done : Bool}
    (h : InOrder w order r) (hv : Votes r t cid P Q done) (hP : ∀ dep, P dep → GoodDep w order cid dep)
    (hturn : done = true → ∀ a, Precedes w order a cid → (t.cmdDescs a).decided = true) :
    InOrder w order t := by
  obtain ⟨-, hund⟩ := SwiftCmdDesc.decided_eq_false.mp hv.undecided
  have hnot : cid ∉ r.delivered := fun hmem => by
    rw [(h.mem_delivered cid).mp hmem] at hund
    cases hund
  have hmem : ∀ c, c ∈ t.delivered ↔ c ∈ r.delivered ∨ done = true ∧ c = cid := by
    intro c
    rw [hv.delivered, List.mem_append]
    cases done <;> simp
  refine ⟨hv.ballot.trans h.ballot, fun c => ?_, fun c => ?_, fun c hc => ?_, fun c hc => ?_, ?_,
    fun a b hb hab => ?_, ?_⟩
  · by_cases hc : c = cid
    · rw [hc, hv.committed, hv.decided]
    · rw [hv.desc_ne c hc]
      exact h.flags c
  · rw [hmem]
    by_cases hc : c = cid
    · subst hc
      rw [hv.decided]
      simp [hnot]
    · rw [hv.desc_ne c hc, h.mem_delivered c]
      simp [hc]
  · by_cases hcid : c = cid
    · subst hcid
      rcases hv.leader hc with ⟨ha, heq⟩ | hnew
      · rw [heq]
        exact h.leader c ha
      · exact hP _ hnew
    · rw [hv.desc_ne c hcid] at hc ⊢
      exact h.leader c hc
  · rcases (hmem c).mp hc with hold | ⟨hdone, rfl⟩
    · have hne : c ≠ cid := fun hne => hnot (hne ▸ hold)
      rw [hv.desc_ne c hne]
      exact h.acked c hold
    · exact hv.acked hdone
  · rw [hv.delivered]
    cases done with
    | false => simpa using h.nodup
    | true =>
      refine List.nodup_append.mpr ⟨h.nodup, List.nodup_singleton cid, fun c hc x hx hcx => ?_⟩
      rw [hcx, List.mem_singleton.mp hx] at hc
      exact hnot hc
  · -- a command delivered now comes after all that are to precede it
    rcases (hmem b).mp hb with hold | ⟨hdone, rfl⟩
    · rw [hv.delivered]
      exact (h.order a b hold hab).mono (List.sublist_append_left ..)
    · rw [hv.delivered, if_pos hdone]
      have hdecided := hturn hdone a hab
      rw [hv.desc_ne a (conflict_ne hab.2), SwiftCmdDesc.decided, h.flags, Bool.or_self] at hdecided
      exact before_append_of_mem ((h.mem_delivered a).mpr hdecided)
  · rw [hv.delivered]
    rcases hv.applied with heq | ⟨hdone, heq⟩
    · rw [heq]
      exact h.applied.trans (List.sublist_append_left ..)
    · rw [heq, if_pos hdone]
      exact h.applied.append (List.Sublist.refl _)

/-- What the leader knows of the last commands on each key. -/
def TracksOrder (w : Workload) (order : List CmdId) (keys : Key → SwiftKeyInfo) : Prop :=
  ∀ k a, (a ∈ (keys k).lastCmd → a ∈ order ∧ w.key a = k) ∧
    (a ∈ (keys k).lastWrite → a ∈ order ∧ w.key a = k ∧ w.isWrite a = true)

theorem TracksOrder.append {keys : Key → SwiftKeyInfo} (h : TracksOrder w order keys) :
    TracksOrder w (order ++ [cid]) keys := by
  intro k a
  refine ⟨fun ha => ?_, fun ha => ?_⟩
  · exact ((h k a).1 ha).imp_left (List.mem_append_left _)
  · exact ((h k a).2 ha).imp_left (List.mem_append_left _)

theorem TracksOrder.trackKey {keys : Key → SwiftKeyInfo} (h : TracksOrder w order keys)
    (hmem : cid ∈ order) : TracksOrder w order (trackKey w keys cid) := by
  intro k a
  unfold Swift.trackKey
  by_cases hk : k = w.key cid
  · subst hk
    rw [Function.update_self]
    refine ⟨fun ha => ?_, fun ha => ?_⟩
    · obtain rfl := List.mem_singleton.mp ha
      exact ⟨hmem, rfl⟩
    · by_cases hw : w.isWrite cid = true
      · simp only [hw, if_true, List.mem_singleton] at ha
        subst ha
        exact ⟨hmem, rfl, hw⟩
      · simp only [hw, Bool.false_eq_true, if_false] at ha
        exact (h _ a).2 ha
  · rw [Function.update_of_ne hk]
    exact h k a

theorem mem_of_mem_dropSelf {a : CmdId} {last : List CmdId} (h : a ∈ dropSelf cid last) :
    a ∈ last := by
  cases last with
  | nil => exact h
  | cons x last =>
    simp only [dropSelf] at h
    split_ifs at h
    · exact h
    · cases h

/-- What the leader reports for a command it has just got. -/
theorem TracksOrder.goodDep {keys : Key → SwiftKeyInfo} (h : TracksOrder w order keys)
    (hnew : cid ∉ order) : GoodDep w (order ++ [cid]) cid (getDep w keys cid) := by
  refine ⟨List.mem_append_right _ List.mem_cons_self, fun a ha => ?_⟩
  have hinfo : a ∈ order ∧ w.key a = w.key cid ∧ (w.isWrite a || w.isWrite cid) = true := by
    unfold getDep at ha
    by_cases hw : w.isWrite cid = true
    · simp only [hw, if_true] at ha
      obtain ⟨hmem, hkey⟩ := (h _ a).1 (mem_of_mem_dropSelf ha)
      exact ⟨hmem, hkey, by simp [hw]⟩
    · simp only [hw, Bool.false_eq_true, if_false] at ha
      obtain ⟨hmem, hkey, hwrite⟩ := (h _ a).2 (mem_of_mem_dropSelf ha)
      exact ⟨hmem, hkey, by simp [hwrite]⟩
  obtain ⟨hmem, hkey, hwrite⟩ := hinfo
  refine ⟨before_append_of_mem hmem, ?_⟩
  have hne : a ≠ cid := fun hne => hnew (hne ▸ hmem)
  simp only [Workload.conflict, Bool.and_eq_true, bne_iff_ne, ne_eq, beq_iff_eq]
  exact ⟨⟨hne, hkey⟩, hwrite⟩

/-- The messages of ballot 0. The acks of the leader report good dependencies. -/
def AckOf (w : Workload) (order : List CmdId) (i : Fin n) : Message n → Prop
  | .fastAck replica _ cid dep => replica = i ∧ (i.val = 0 → GoodDep w order cid dep)
  | .slowAck _ _ _ => True
  | _ => False

structure OrderInv (w : Workload) (order : List CmdId) (s : System n) : Prop where
  nodup : order.Nodup
  replica : ∀ j, InOrder w order (s.server j)
  keys : ∀ i : Fin n, i.val = 0 → TracksOrder w order (s.server i).keys
  sent : ∀ i, ∀ m ∈ (s.server i).sent, AckOf w order i m

variable {s : System n}

theorem OrderInv.append (h : OrderInv w order s) (hnew : cid ∉ order) :
    OrderInv w (order ++ [cid]) s where
  nodup := by
    refine List.nodup_append.mpr ⟨h.nodup, List.nodup_singleton cid, fun c hc x hx hcx => ?_⟩
    rw [hcx, List.mem_singleton.mp hx] at hc
    exact hnew hc
  replica j := (h.replica j).append hnew
  keys i hi := (h.keys i hi).append
  sent i m hm := by
    have hack := h.sent i m hm
    cases m with
    | fastAck replica ballot cid dep => exact ⟨hack.1, fun hi => (hack.2 hi).append⟩
    | slowAck replica ballot cid => trivial
    | newLeader replica ballot => exact hack.elim
    | newLeaderAck candidate replica ballot cballot state => exact hack.elim
    | sync replica ballot state => exact hack.elim

theorem OrderInv.update {proposed : Fin n → List CmdId} {j : Fin n} (h : OrderInv w order s)
    (hr : InOrder w order r) (hkeys : j.val = 0 → TracksOrder w order r.keys)
    (hsent : ∀ m ∈ r.sent, AckOf w order j m) :
    OrderInv w order ⟨Function.update s.server j r, proposed⟩ where
  nodup := h.nodup
  replica i := by
    by_cases hi : i = j
    · subst hi
      simpa using hr
    · simpa [hi] using h.replica i
  keys i hzero := by
    by_cases hi : i = j
    · subst hi
      simpa using hkeys hzero
    · simpa [hi] using h.keys i hzero
  sent i := by
    by_cases hi : i = j
    · subst hi
      simpa using hsent
    · simpa [hi] using h.sent i

theorem Votes.ackOf {P : List CmdId → Prop} {i : Fin n} {done : Bool}
    (hv : Votes r t cid P (AckOf w order i) done) (h : ∀ m ∈ r.sent, AckOf w order i m) :
    ∀ m ∈ t.sent, AckOf w order i m := by
  obtain ⟨ms, hms, hQ⟩ := hv.sent
  rw [hms]
  exact fun m hm => (List.mem_append.mp hm).elim (h m) (hQ m)

theorem InOrder.leads_iff (h : InOrder w order r) (i : Fin n) : r.leads i = true ↔ i.val = 0 := by
  simp [SwiftPaxosServer.leads, h.ballot]

theorem leaderOrder_propose (i : Fin n) :
    leaderOrder (s.propose w i cid) =
      if i.val = 0 then leaderOrder s ++ [cid] else leaderOrder s := by
  have hpos : 0 < n := i.pos
  simp only [leaderOrder, hpos, dif_pos, System.propose]
  by_cases hi : i.val = 0
  · have hi' : i = ⟨0, hpos⟩ := Fin.ext hi
    subst hi'
    simp
  · have hi' : (⟨0, hpos⟩ : Fin n) ≠ i := fun h => hi (h ▸ rfl)
    simp [hi, hi']

theorem proposed_eq_leaderOrder {i : Fin n} (hi : i.val = 0) : s.proposed i = leaderOrder s := by
  have hpos : 0 < n := i.pos
  have hi' : i = ⟨0, hpos⟩ := Fin.ext hi
  subst hi'
  simp [leaderOrder, hpos]

theorem OrderInv.proposeAt {i : Fin n} {order' : List CmdId} (h : OrderInv w order' s)
    (hgood : i.val = 0 → GoodDep w order' cid (getDep w (s.server i).keys cid))
    (hturn : ∀ a b, (((s.server i).onPropose w i cid).cmdDescs b).decided = true →
      Precedes w order' a b → (((s.server i).onPropose w i cid).cmdDescs a).decided = true)
    (hmem : i.val = 0 → cid ∈ order') {proposed : Fin n → List CmdId} :
    OrderInv w order'
      ⟨Function.update s.server i ((s.server i).onPropose w i cid), proposed⟩ := by
  have hrep := h.replica i
  by_cases hskip : ((s.server i).recovering || ((s.server i).cmdDescs cid).decided) = true
  · have heq : (s.server i).onPropose w i cid = s.server i := by
      simp [SwiftPaxosServer.onPropose, hskip]
    rw [heq]
    exact h.update hrep (h.keys i) (h.sent i)
  · obtain ⟨hrec, hund⟩ := Bool.or_eq_false_iff.mp (eq_false_of_ne_true hskip)
    have hv : Votes (s.server i) ((s.server i).onPropose w i cid) cid (GoodDep w order' cid)
        (AckOf w order' i) ((s.server i).proposeCompletes w i cid) :=
      votes_onPropose (fun hl => hgood ((hrep.leads_iff i).mp hl)) trivial ⟨rfl, hgood⟩ hrec hund
    have hrep' := hrep.votes hv (fun _ hdep => hdep) fun hdone a ha => by
      refine hturn a cid ?_ ha
      rw [SwiftCmdDesc.decided, hv.committed, hdone, Bool.true_or]
    refine h.update hrep' (fun hi => ?_) (hv.ackOf (h.sent i))
    rcases keys_onPropose w (s.server i) i cid with hk | hk
    · rw [hk]
      exact h.keys i hi
    · rw [hk]
      exact (h.keys i hi).trackKey (hmem hi)

theorem OrderInv.propose {i : Fin n} (h : OrderInv w (leaderOrder s) s) (hnew : cid ∉ s.proposed i)
    (hturn : DecidedInTurn w (s.propose w i cid)) :
    OrderInv w (leaderOrder (s.propose w i cid)) (s.propose w i cid) := by
  have hself : (s.propose w i cid).server i = (s.server i).onPropose w i cid :=
    Function.update_self ..
  have hturn := hturn i
  rw [hself] at hturn
  rw [leaderOrder_propose] at hturn ⊢
  by_cases hi : i.val = 0
  · rw [proposed_eq_leaderOrder hi] at hnew
    rw [if_pos hi] at hturn ⊢
    exact (h.append hnew).proposeAt (fun _ => (h.keys i hi).goodDep hnew) hturn
      fun _ => List.mem_append_right _ List.mem_cons_self
  · rw [if_neg hi] at hturn ⊢
    exact h.proposeAt (fun hzero => absurd hzero hi) hturn fun hzero => absurd hzero hi

theorem OrderInv.deliver {i j : Fin n} {k : Nat} {u : System n} (h : OrderInv w (leaderOrder s) s)
    (hturn : DecidedInTurn w u) (hstep : s.deliver w i k j = some u) :
    OrderInv w (leaderOrder u) u := by
  obtain ⟨m, hm, hstep⟩ := Option.bind_eq_some_iff.mp hstep
  split_ifs at hstep with hreach
  cases hstep
  have hack := h.sent i m (List.mem_of_getElem? hm)
  have hrep := h.replica j
  have hself : (s.setServer j ((s.server j).receive w j m)).server j = (s.server j).receive w j m :=
    Function.update_self ..
  have hturn := hturn j
  rw [hself] at hturn
  have hbefore : ∀ c, (((s.server j).receive w j m).cmdDescs c).committed = true →
      ∀ a, Precedes w (leaderOrder s) a c →
        (((s.server j).receive w j m).cmdDescs a).decided = true := by
    intro c hc a ha
    refine hturn a c ?_ ha
    rw [SwiftCmdDesc.decided, hc, Bool.true_or]
  cases m with
  | fastAck replica ballot cid dep =>
    by_cases hund : ((s.server j).cmdDescs cid).decided = true
    · have heq : (s.server j).receive w j (.fastAck replica ballot cid dep) = s.server j :=
        onFastAck_of_decided hund
      rw [heq]
      exact h.update hrep (h.keys j) (h.sent j)
    · have hund := eq_false_of_ne_true hund
      have hv : Votes (s.server j) ((s.server j).onFastAck j replica cid dep) cid
          (GoodDep w (leaderOrder s) cid) (AckOf w (leaderOrder s) j)
          (((s.server j).recordFastAck j replica cid dep).cmdDescs cid).quorumReached := by
        refine votes_onFastAck (fun hl => hack.2 ?_) (fun _ => trivial) hund
        rw [← hack.1]
        exact (hrep.leads_iff replica).mp hl
      refine h.update (hrep.votes hv (fun _ hdep => hdep) fun hc => hbefore cid ?_)
        (fun hj => ?_) (hv.ackOf (h.sent j))
      · exact hv.committed.trans hc
      · simp only [SwiftPaxosServer.receive, keys_onFastAck]
        exact h.keys j hj
  | slowAck replica ballot cid =>
    by_cases hskip : ((s.server j).cmdDescs cid).decided = true ∨ ballot ≠ (s.server j).ballot
    · have heq : (s.server j).receive w j (.slowAck replica ballot cid) = s.server j :=
        onLightSlowAck_of_stale hskip
      rw [heq]
      exact h.update hrep (h.keys j) (h.sent j)
    · obtain ⟨hund, hb⟩ := not_or.mp hskip
      have hund := eq_false_of_ne_true hund
      have hb := not_not.mp hb
      subst hb
      have hv : Votes (s.server j) ((s.server j).onLightSlowAck replica (s.server j).ballot cid) cid
          (GoodDep w (leaderOrder s) cid) (AckOf w (leaderOrder s) j)
          (((s.server j).recordSlowAck replica cid).cmdDescs cid).quorumReached :=
        votes_onLightSlowAck hund
      refine h.update (hrep.votes hv (fun _ hdep => hdep) fun hc => hbefore cid ?_)
        (fun hj => ?_) (hv.ackOf (h.sent j))
      · exact hv.committed.trans hc
      · simp only [SwiftPaxosServer.receive, keys_onLightSlowAck]
        exact h.keys j hj
  | newLeader replica ballot => exact hack.elim
  | newLeaderAck candidate replica ballot cballot state => exact hack.elim
  | sync replica ballot state => exact hack.elim

def RunInv (w : Workload) (s : Posted n) : Prop :=
  s.Sequenced w ∧ (∀ l : Fin n, l.val = 0 → s.VotesInv l) ∧
    OrderInv w (leaderOrder s.toSystem) s.toSystem

theorem decidedInTurn {s : Posted n} (hseq : s.Sequenced w)
    (hvotes : ∀ l : Fin n, l.val = 0 → s.VotesInv l) : DecidedInTurn w s.toSystem := by
  intro j a b hb hab
  let l : Fin n := ⟨0, j.pos⟩
  have hkey : w.key a = w.key b := by
    have hconf := hab.2
    simp only [Workload.conflict, Bool.and_eq_true, beq_iff_eq] at hconf
    exact hconf.1.2
  have hbefore : Before (s.proposed l) a b := proposed_eq_leaderOrder (i := l) rfl ▸ hab.1
  exact (hvotes l rfl).decided_of_before hseq hbefore hkey hb

theorem RunInv.step {s t : Posted n} {e : Event n} (h : RunInv w s)
    (hok : s.inSequence w e = true) (hstep : s.step w e = some t) : RunInv w t := by
  obtain ⟨hseq, hvotes, horder⟩ := h
  have hbase := (Posted.step_eq hstep).1
  cases e with
  | propose i cid =>
    obtain rfl := Option.some.inj (Posted.step_propose.symm.trans hstep)
    have hseq' := hseq.propose hok
    have hvotes' := fun l hl => (hvotes l hl).propose hl hseq hok
    refine ⟨hseq', hvotes', ?_⟩
    exact horder.propose (Posted.inSequence_propose hok).1 (decidedInTurn hseq' hvotes')
  | deliver i k j =>
    obtain ⟨m, hm, rfl⟩ := Posted.step_deliver hstep
    have hseq' := hseq.deliver (hvotes ⟨0, j.pos⟩ rfl) hok hm
    have hvotes' := fun l hl => (hvotes l hl).deliver hl hseq hok hm
    exact ⟨hseq', hvotes', horder.deliver (decidedInTurn hseq' hvotes') hbase⟩
  | triggerRecovery i => cases hok

end Invariant

end Jetpack.Swift
