import Jetpack.Swift.Votes
import Jetpack.Library.Precedence

/-! Runs in ballot 0 in which the commands of a key are proposed to all replicas in one order, and
each replica handles the acks of another about a key in the order in which they were sent. -/

namespace Jetpack.Swift

open Precedence

variable {n : Nat}

section Keys

variable (w : Workload)

def onKey (k : Key) (l : List CmdId) : List CmdId := l.filter (w.key · == k)

/-- One list may have more commands of the key than the other, all of them later. -/
def comparable (k : Key) (l l' : List CmdId) : Bool :=
  (onKey w k l).isPrefixOf (onKey w k l') || (onKey w k l').isPrefixOf (onKey w k l)

/-- What a replica knows of the keys after the proposals of `l`. -/
def trackAll (l : List CmdId) : Key → SwiftKeyInfo := l.foldl (trackKey w) fun _ => {}

def earlier (l : List CmdId) (cid : CmdId) : List CmdId :=
  (onKey w (w.key cid) l).takeWhile (· != cid)

/-- The dependency that a replica reports for `cid` if `l` was proposed to it. -/
def depIn (l : List CmdId) (cid : CmdId) : List CmdId := getDep w (trackAll w (earlier w l cid)) cid

variable {w} {k : Key} {l l' : List CmdId} {a b cid : CmdId}

theorem mem_onKey : a ∈ onKey w k l ↔ a ∈ l ∧ w.key a = k := by
  simp [onKey]

theorem onKey_append : onKey w k (l ++ l') = onKey w k l ++ onKey w k l' := List.filter_append ..

theorem comparable_iff : comparable w k l l' = true ↔
    onKey w k l <+: onKey w k l' ∨ onKey w k l' <+: onKey w k l := by
  simp [comparable]

theorem comparable_symm : comparable w k l l' = comparable w k l' l := Bool.or_comm ..

theorem comparable_extend (h : l <+: l') : comparable w k l' l = true :=
  comparable_iff.mpr (.inr (h.filter _))

theorem comparable_append_ne (h : w.key cid ≠ k) :
    comparable w k (l ++ [cid]) l' = comparable w k l l' := by
  have hkey : onKey w k (l ++ [cid]) = onKey w k l := by
    rw [onKey_append]
    simp [onKey, h]
  simp only [comparable, hkey]

theorem foldl_trackKey_eq {keys keys' : Key → SwiftKeyInfo} (h : keys k = keys' k) :
    l.foldl (trackKey w) keys k = (onKey w k l).foldl (trackKey w) keys' k := by
  induction l generalizing keys keys' with
  | nil => exact h
  | cons c l ih =>
    by_cases hc : w.key c = k
    · have hkey : onKey w k (c :: l) = c :: onKey w k l := List.filter_cons_of_pos (by simpa using hc)
      rw [hkey, List.foldl_cons, List.foldl_cons]
      refine ih ?_
      subst hc
      simp [trackKey, h]
    · have hkey : onKey w k (c :: l) = onKey w k l := List.filter_cons_of_neg (by simpa using hc)
      rw [hkey, List.foldl_cons]
      refine ih ?_
      rw [trackKey, Function.update_of_ne (Ne.symm hc)]
      exact h

theorem getDep_congr {keys keys' : Key → SwiftKeyInfo} (h : keys (w.key cid) = keys' (w.key cid)) :
    getDep w keys cid = getDep w keys' cid := by
  simp only [getDep, h]

theorem getDep_trackAll (hnew : cid ∉ l) : getDep w (trackAll w l) cid = depIn w (l ++ [cid]) cid := by
  have hnot : ∀ c ∈ onKey w (w.key cid) l, (c != cid) = true := by
    intro c hc
    have hne : c ≠ cid := fun hne => hnew (hne ▸ (mem_onKey.mp hc).1)
    simpa using hne
  have hearlier : earlier w (l ++ [cid]) cid = onKey w (w.key cid) l := by
    unfold earlier
    rw [onKey_append, List.takeWhile_append_of_pos hnot]
    simp [onKey]
  unfold depIn
  rw [hearlier]
  exact getDep_congr (foldl_trackKey_eq rfl)

theorem takeWhile_extend {l l' : List CmdId} (h : l <+: l') (hmem : cid ∈ l) :
    l'.takeWhile (· != cid) = l.takeWhile (· != cid) := by
  obtain ⟨r, rfl⟩ := h
  induction l with
  | nil => cases hmem
  | cons c l ih =>
    by_cases hc : c = cid
    · rw [List.cons_append, List.takeWhile_cons_of_neg (by simp [hc]),
        List.takeWhile_cons_of_neg (by simp [hc])]
    · have hmem : cid ∈ l := (List.mem_cons.mp hmem).resolve_left (Ne.symm hc)
      rw [List.cons_append, List.takeWhile_cons_of_pos (by simpa using hc),
        List.takeWhile_cons_of_pos (by simpa using hc), ih hmem]

theorem earlier_eq (h : comparable w (w.key cid) l l' = true) (hl : cid ∈ l) (hl' : cid ∈ l') :
    earlier w l cid = earlier w l' cid := by
  have hmem : cid ∈ onKey w (w.key cid) l := mem_onKey.mpr ⟨hl, rfl⟩
  have hmem' : cid ∈ onKey w (w.key cid) l' := mem_onKey.mpr ⟨hl', rfl⟩
  rcases comparable_iff.mp h with hle | hle
  · exact (takeWhile_extend hle hmem).symm
  · exact takeWhile_extend hle hmem'

theorem depIn_eq (h : comparable w (w.key cid) l l' = true) (hl : cid ∈ l) (hl' : cid ∈ l') :
    depIn w l cid = depIn w l' cid := by
  simp only [depIn, earlier_eq h hl hl']

theorem earlier_extend (h : l <+: l') (hmem : cid ∈ l) : earlier w l' cid = earlier w l cid :=
  earlier_eq (comparable_extend h) (h.subset hmem) hmem

theorem mem_of_mem_earlier (h : a ∈ earlier w l cid) : a ∈ l ∧ w.key a = w.key cid :=
  mem_onKey.mp ((List.takeWhile_prefix _).subset h)

theorem mem_earlier_of_before (hnd : l.Nodup) (h : Before l a b) (hkey : w.key a = w.key b) :
    a ∈ earlier w l b := by
  have honkey : Before (onKey w (w.key b) l) a b := by
    have hsub : [a, b].filter (w.key · == w.key b) = [a, b] := by simp [hkey]
    rw [Before, ← hsub]
    exact List.Sublist.filter _ h
  exact honkey.mem_takeWhile (hnd.filter _)

end Keys

/-- `(i, k, j)` is in `handled` once replica `j` has handled the `k`-th message of replica `i`. -/
structure Posted (n : Nat) extends System n where
  handled : List (Fin n × Nat × Fin n) := []

def Event.handles : Event n → List (Fin n × Nat × Fin n)
  | .deliver i k j => [(i, k, j)]
  | _ => []

namespace Posted

variable (w : Workload)

def step (s : Posted n) (e : Event n) : Option (Posted n) :=
  (Swift.step w s.toSystem e).map fun t => ⟨t, s.handled ++ e.handles⟩

def keyOf (s : Posted n) (i : Fin n) (k : Nat) : Option Key :=
  ((s.server i).sent[k]?.bind Message.cmdId?).map w.key

/-- Nobody starts a recovery. A command is proposed to a replica once, before the replica commits it,
and after the commands of its key that another replica got before it. A message is handled after all
earlier ones of its sender about the same key. -/
def inSequence (s : Posted n) : Event n → Bool
  | .propose i cid =>
    !(s.proposed i).contains cid && !((s.server i).cmdDescs cid).decided &&
      (List.finRange n).all fun j => comparable w (w.key cid) (s.proposed i ++ [cid]) (s.proposed j)
  | .deliver i k j => (List.range k).all fun k' =>
    s.keyOf w i k' != s.keyOf w i k || s.handled.contains (i, k', j)
  | .triggerRecovery _ => false

variable {w} {s t : Posted n} {i j l : Fin n} {a b c cid : CmdId} {m : Message n}

def Told (s : Posted n) (i j : Fin n) (m : Message n) : Prop :=
  ∃ k, (i = j ∨ (i, k, j) ∈ s.handled) ∧ (s.server i).sent[k]? = some m

def ack (w : Workload) (i : Fin n) (l : List CmdId) (cid : CmdId) : Message n :=
  .fastAck i 0 cid (depIn w l cid)

def IsAck (w : Workload) (i : Fin n) (l : List CmdId) (cid : CmdId) (m : Message n) : Prop :=
  m = ack w i l cid ∨ m = .slowAck i 0 cid

/-- The `k`-th message of a replica is an ack, sent after its fast acks for the earlier commands of
the key. -/
def InTurn (w : Workload) (i : Fin n) (l : List CmdId) (sent : List (Message n)) (k : Nat)
    (m : Message n) : Prop :=
  ∃ c ∈ l, IsAck w i l c m ∧ ∀ a ∈ earlier w l c, ∃ k' < k, sent[k']? = some (ack w i l a)

/-- The proposals and the messages of a run in sequence. -/
structure Sequenced (w : Workload) (s : Posted n) : Prop where
  ballot : ∀ j, (s.server j).ballot = 0
  recovering : ∀ j, (s.server j).recovering = false
  nodup : ∀ j, (s.proposed j).Nodup
  comparable : ∀ i j k, comparable w k (s.proposed i) (s.proposed j) = true
  keys : ∀ j, (s.server j).keys = trackAll w (s.proposed j)
  sent : ∀ i k m, (s.server i).sent[k]? = some m → InTurn w i (s.proposed i) (s.server i).sent k m
  acked : ∀ i, ∀ c ∈ s.proposed i, ack w i (s.proposed i) c ∈ (s.server i).sent
  handled : ∀ i k j, (i, k, j) ∈ s.handled → k < (s.server i).sent.length
  closed : ∀ i j k k', (i, k, j) ∈ s.handled → k' < k → s.keyOf w i k' = s.keyOf w i k →
    (i, k', j) ∈ s.handled

/-- The votes on a command at replica `j` are what it has been told; `l` is the leader. -/
structure Backed (s : Posted n) (l j : Fin n) (c : CmdId) (d : SwiftCmdDesc n) : Prop where
  fast : ∀ i dep, d.fastAcksByReplica i = some dep → s.Told i j (.fastAck i 0 c dep)
  slow : ∀ i, d.slowAckReplicas i = true → ∃ m, s.Told i j m ∧ m.cmdId? = some c
  leader : d.leaderAcked = true ↔ (d.fastAcksByReplica l).isSome = true
  leaderDep : d.leaderAcked = true → s.Told l j (.fastAck l 0 c d.leaderDep)
  mine : d.myDepSet = true → c ∈ s.proposed j

/-- A replica has the votes of all fast acks it was told of, and has committed what they suffice
for. -/
structure VotesInv (s : Posted n) (l : Fin n) : Prop where
  backed : ∀ j c, Backed s l j c ((s.server j).cmdDescs c)
  committed : ∀ j c, ((s.server j).cmdDescs c).committed = ((s.server j).cmdDescs c).quorumReached
  delivered : ∀ j c, ((s.server j).cmdDescs c).delivered = ((s.server j).cmdDescs c).quorumReached
  heard : ∀ i j c dep, s.Told i j (.fastAck i 0 c dep) →
    ((s.server j).cmdDescs c).decided = true ∨
      (((s.server j).cmdDescs c).fastAcksByReplica i).isSome = true

theorem step_eq {e : Event n} (h : s.step w e = some t) :
    Swift.step w s.toSystem e = some t.toSystem ∧ t.handled = s.handled ++ e.handles := by
  obtain ⟨u, hu, rfl⟩ := Option.map_eq_some_iff.mp h
  exact ⟨hu, rfl⟩

namespace Sequenced

variable {k : Nat} {dep : List CmdId}

theorem told_spec (h : Sequenced w s) (htold : s.Told i j m) (hc : m.cmdId? = some c) :
    c ∈ s.proposed i ∧ IsAck w i (s.proposed i) c m ∧
      ∀ a ∈ earlier w (s.proposed i) c, s.Told i j (ack w i (s.proposed i) a) := by
  obtain ⟨k, hk, hm⟩ := htold
  obtain ⟨c', hmem, hack, hearlier⟩ := h.sent i k m hm
  obtain rfl : c' = c := by
    rcases hack with rfl | rfl <;> exact Option.some.inj hc
  refine ⟨hmem, hack, fun a ha => ?_⟩
  obtain ⟨k', hk', hsent⟩ := hearlier a ha
  refine ⟨k', hk.imp_right fun hhandled => ?_, hsent⟩
  refine h.closed i j k k' hhandled hk' ?_
  rw [keyOf, keyOf, hsent, hm, Option.bind_some, Option.bind_some, hc]
  exact congrArg some (mem_of_mem_earlier ha).2

theorem told_fastAck (h : Sequenced w s) (htold : s.Told i j (.fastAck i 0 c dep)) :
    c ∈ s.proposed i ∧ dep = depIn w (s.proposed i) c := by
  obtain ⟨hmem, hack | hack, -⟩ := h.told_spec htold rfl
  · exact ⟨hmem, (Message.fastAck.inj hack).2.2.2⟩
  · cases hack

theorem depsEqual_refl (a : List CmdId) : depsEqual a a = true := by
  simp [depsEqual]

/-- The fast acks for a command all name the dependency of the leader. -/
theorem matching (h : Sequenced w s) {d : SwiftCmdDesc n} (hd : Backed s l j c d)
    (hl : d.leaderAcked = true) (hi : (d.fastAcksByReplica i).isSome = true) :
    d.matching i = true := by
  obtain ⟨dep, hdep⟩ := Option.isSome_iff_exists.mp hi
  obtain ⟨hmem, rfl⟩ := h.told_fastAck (hd.fast i dep hdep)
  obtain ⟨hmem', hleader⟩ := h.told_fastAck (hd.leaderDep hl)
  rw [SwiftCmdDesc.matching, hdep, hleader, depIn_eq (h.comparable i l _) hmem hmem']
  exact depsEqual_refl _

end Sequenced

theorem slowQuorum_le_fastQuorum : slowQuorum n ≤ fastQuorum n := by
  unfold slowQuorum fastQuorum
  omega

theorem quorumReached_spec {d : SwiftCmdDesc n} (h : d.quorumReached = true) :
    d.leaderAcked = true ∧ slowQuorum n ≤ (List.finRange n).countP d.endorsed := by
  simp only [SwiftCmdDesc.quorumReached, Bool.and_eq_true, Bool.or_eq_true, decide_eq_true_eq] at h
  obtain ⟨hleader, hfast | hslow⟩ := h
  · refine ⟨hleader, (slowQuorum_le_fastQuorum.trans hfast).trans ?_⟩
    exact List.countP_mono_left fun i _ hi => by simp [SwiftCmdDesc.endorsed, hi]
  · exact ⟨hleader, hslow⟩

/-- A replica that has a quorum for a command has one for each earlier command of the leader on the
key: those who vote for the command have acked the earlier one before. -/
theorem VotesInv.decided_of_before (h : VotesInv s l) (hseq : Sequenced w s)
    (hab : Before (s.proposed l) a b) (hkey : w.key a = w.key b)
    (hb : ((s.server j).cmdDescs b).decided = true) : ((s.server j).cmdDescs a).decided = true := by
  by_contra hno
  have hquorum : ((s.server j).cmdDescs b).quorumReached = true := by
    simpa [SwiftCmdDesc.decided, h.committed, h.delivered] using hb
  obtain ⟨hleader, hcount⟩ := quorumReached_spec hquorum
  have ha : a ∈ earlier w (s.proposed l) b := mem_earlier_of_before (hseq.nodup l) hab hkey
  have hheard : ∀ i m, s.Told i j m → m.cmdId? = some b →
      (((s.server j).cmdDescs a).fastAcksByReplica i).isSome = true := by
    intro i m htold hm
    obtain ⟨hmem, -, hearlier⟩ := hseq.told_spec htold hm
    rw [← earlier_eq (hseq.comparable i l _) hmem hab.right_mem] at ha
    exact (h.heard i j a _ (hearlier a ha)).resolve_left hno
  have hlead : ((s.server j).cmdDescs a).leaderAcked = true :=
    (h.backed j a).leader.mpr (hheard l _ ((h.backed j b).leaderDep hleader) rfl)
  have hendorsed : ∀ i, ((s.server j).cmdDescs b).endorsed i = true →
      ((s.server j).cmdDescs a).endorsed i = true := by
    intro i hi
    have htold : ∃ m, s.Told i j m ∧ m.cmdId? = some b := by
      rcases Bool.or_eq_true_iff.mp hi with hslow | hfast
      · exact (h.backed j b).slow i hslow
      · obtain ⟨dep, hdep, -⟩ := (Option.any_eq_true ..).mp hfast
        exact ⟨_, (h.backed j b).fast i dep hdep, rfl⟩
    obtain ⟨m, htold, hm⟩ := htold
    exact Bool.or_eq_true_iff.mpr (.inr (hseq.matching (h.backed j a) hlead (hheard i m htold hm)))
  have hreached : ((s.server j).cmdDescs a).quorumReached = true := by
    have hslow := hcount.trans (List.countP_mono_left fun i _ => hendorsed i)
    simp [SwiftCmdDesc.quorumReached, hlead, hslow]
  refine hno ?_
  simp [SwiftCmdDesc.decided, h.committed, hreached]

section Replica

variable {r : SwiftPaxosServer n} {dep : List CmdId}

theorem cmdDescs_setDesc (d : SwiftCmdDesc n) : (r.setDesc cid d).cmdDescs cid = d :=
  Function.update_self ..

theorem cmdDescs_send : (r.send m).cmdDescs = r.cmdDescs := rfl

theorem backed_setDesc {d : SwiftCmdDesc n} (h : ∀ c, Backed s l j c (r.cmdDescs c))
    (hd : Backed s l j cid d) (c : CmdId) : Backed s l j c ((r.setDesc cid d).cmdDescs c) := by
  by_cases hc : c = cid
  · subst hc
    rwa [cmdDescs_setDesc]
  · simpa [SwiftPaxosServer.setDesc, hc] using h c

theorem Backed.insertSlowAck {d : SwiftCmdDesc n} (h : Backed s l j c d) (htold : s.Told i j m)
    (hm : m.cmdId? = some c) : Backed s l j c (d.insertSlowAck i) :=
  { h with
    slow := fun i' hi' => by
      by_cases hi : i' = i
      · subst hi
        exact ⟨m, htold, hm⟩
      · exact h.slow i' (by simpa [SwiftCmdDesc.insertSlowAck, hi] using hi') }

theorem backed_maybeSendLightSlowAck (h : ∀ c, Backed s l j c (r.cmdDescs c))
    (hown : cid ∈ s.proposed j → s.Told j j (ack w j (s.proposed j) cid)) (c : CmdId) :
    Backed s l j c ((r.maybeSendLightSlowAck j cid).cmdDescs c) := by
  simp only [SwiftPaxosServer.maybeSendLightSlowAck]
  split_ifs with hskip
  · exact h c
  · have hmine : (r.cmdDescs cid).myDepSet = true := by
      simp only [Bool.or_eq_true, Bool.not_eq_true'] at hskip
      exact eq_true_of_ne_false fun hno => hskip (.inr hno)
    have hd : Backed s l j cid ((r.cmdDescs cid).insertSlowAck j) :=
      (h cid).insertSlowAck (hown ((h cid).mine hmine)) rfl
    refine backed_setDesc h ?_ c
    exact { hd with }

theorem leads_iff (hballot : r.ballot = 0) (hl : l.val = 0) : r.leads i = true ↔ i = l := by
  simp [SwiftPaxosServer.leads, hballot, Fin.ext_iff, hl]

theorem backed_recordFastAck (h : ∀ c, Backed s l j c (r.cmdDescs c)) (hballot : r.ballot = 0)
    (hl : l.val = 0) (hown : cid ∈ s.proposed j → s.Told j j (ack w j (s.proposed j) cid))
    (htold : s.Told i j (.fastAck i 0 cid dep)) (c : CmdId) :
    Backed s l j c ((r.recordFastAck j i cid dep).cmdDescs c) := by
  have hfast : ∀ i' dep', ((r.cmdDescs cid).emplaceFastAck i dep).fastAcksByReplica i' = some dep' →
      s.Told i' j (.fastAck i' 0 cid dep') := by
    intro i' dep' hdep
    by_cases hi : i' = i
    · subst hi
      have hdep : ((r.cmdDescs cid).fastAcksByReplica i').getD dep = dep' := by
        simpa [SwiftCmdDesc.emplaceFastAck] using hdep
      subst hdep
      cases hold : (r.cmdDescs cid).fastAcksByReplica i' with
      | none => exact htold
      | some dep' => exact (h cid).fast i' dep' hold
    · exact (h cid).fast i' dep' (by simpa [SwiftCmdDesc.emplaceFastAck, hi] using hdep)
  simp only [SwiftPaxosServer.recordFastAck]
  split_ifs with hlead
  · obtain rfl := (leads_iff hballot hl).mp hlead
    refine backed_maybeSendLightSlowAck (backed_setDesc h ?_) hown c
    exact
      { fast := hfast
        slow := (h cid).slow
        leader := by simp [SwiftCmdDesc.anchor, SwiftCmdDesc.emplaceFastAck]
        leaderDep := fun _ => htold
        mine := (h cid).mine }
  · have hne : l ≠ i := fun hne => hlead ((leads_iff hballot hl).mpr hne.symm)
    refine backed_setDesc h ?_ c
    exact
      { fast := hfast
        slow := (h cid).slow
        leader := by simpa [SwiftCmdDesc.emplaceFastAck, hne] using (h cid).leader
        leaderDep := (h cid).leaderDep
        mine := (h cid).mine }

theorem backed_checkCommit (h : ∀ c, Backed s l j c (r.cmdDescs c)) (c : CmdId) :
    Backed s l j c ((r.checkCommit cid).cmdDescs c) := by
  simp only [SwiftPaxosServer.checkCommit]
  split_ifs
  · exact h c
  · obtain ⟨known, -, heq⟩ := commitWith_eq r cid (r.cmdDescs cid)
    have hd : Backed s l j cid
        { r.cmdDescs cid with committed := true, phase := .commit, delivered := true } :=
      { h cid with }
    rw [heq]
    exact backed_setDesc h hd c
  · exact h c

theorem backed_preAccept (h : ∀ c, Backed s l j c (r.cmdDescs c)) (hmem : cid ∈ s.proposed j)
    (c : CmdId) : Backed s l j c ((r.preAccept w cid).cmdDescs c) := by
  simp only [SwiftPaxosServer.preAccept]
  refine backed_setDesc h ?_ c
  split_ifs <;> exact { h cid with mine := fun _ => hmem }

theorem backed_recallSlowAck (h : ∀ c, Backed s l j c (r.cmdDescs c))
    (hown : cid ∈ s.proposed j → s.Told j j (ack w j (s.proposed j) cid)) (c : CmdId) :
    Backed s l j c ((r.recallSlowAck j cid).cmdDescs c) := by
  simp only [SwiftPaxosServer.recallSlowAck]
  split_ifs
  · exact backed_maybeSendLightSlowAck h hown c
  · exact h c

theorem backed_onFastAck (h : ∀ c, Backed s l j c (r.cmdDescs c)) (hballot : r.ballot = 0)
    (hl : l.val = 0) (hown : cid ∈ s.proposed j → s.Told j j (ack w j (s.proposed j) cid))
    (htold : s.Told i j (.fastAck i 0 cid dep)) (c : CmdId) :
    Backed s l j c ((r.onFastAck j i cid dep).cmdDescs c) := by
  simp only [SwiftPaxosServer.onFastAck]
  split_ifs
  · exact h c
  · exact backed_checkCommit (backed_recordFastAck h hballot hl hown htold) c

theorem backed_onLightSlowAck {ballot : Nat} (h : ∀ c, Backed s l j c (r.cmdDescs c))
    (htold : s.Told i j m) (hm : m.cmdId? = some cid) (c : CmdId) :
    Backed s l j c ((r.onLightSlowAck i ballot cid).cmdDescs c) := by
  simp only [SwiftPaxosServer.onLightSlowAck]
  split_ifs
  · exact h c
  · exact h c
  · refine backed_checkCommit (backed_setDesc h ?_) c
    exact (h cid).insertSlowAck htold hm

theorem backed_onPropose (h : ∀ c, Backed s l j c (r.cmdDescs c)) (hballot : r.ballot = 0)
    (hl : l.val = 0) (hmem : cid ∈ s.proposed j)
    (hown : s.Told j j (ack w j (s.proposed j) cid))
    (hdep : getDep w r.keys cid = depIn w (s.proposed j) cid) (c : CmdId) :
    Backed s l j c ((r.onPropose w j cid).cmdDescs c) := by
  simp only [SwiftPaxosServer.onPropose]
  split_ifs
  · exact h c
  · refine backed_recallSlowAck (w := w) (fun c => ?_) (fun _ => hown) c
    refine backed_onFastAck (w := w) (backed_preAccept h hmem) hballot hl (fun _ => hown) ?_ c
    rw [hdep]
    exact hown

theorem fastAcks_maybeSendLightSlowAck :
    ((r.maybeSendLightSlowAck j cid).cmdDescs c).fastAcksByReplica =
      (r.cmdDescs c).fastAcksByReplica := by
  simp only [SwiftPaxosServer.maybeSendLightSlowAck]
  split_ifs
  · rfl
  · by_cases hc : c = cid
    · subst hc
      rw [cmdDescs_send, cmdDescs_setDesc]
      rfl
    · simp [SwiftPaxosServer.send, SwiftPaxosServer.setDesc, hc]

theorem fastAcks_recordFastAck :
    ((r.recordFastAck j i cid dep).cmdDescs cid).fastAcksByReplica =
      ((r.cmdDescs cid).emplaceFastAck i dep).fastAcksByReplica := by
  simp only [SwiftPaxosServer.recordFastAck]
  split_ifs
  · rw [fastAcks_maybeSendLightSlowAck, cmdDescs_setDesc]
    rfl
  · rw [cmdDescs_setDesc]

theorem checkCommit_desc :
    ((r.checkCommit cid).cmdDescs cid).fastAcksByReplica = (r.cmdDescs cid).fastAcksByReplica ∧
      ((r.checkCommit cid).cmdDescs cid).quorumReached = (r.cmdDescs cid).quorumReached := by
  simp only [SwiftPaxosServer.checkCommit]
  split_ifs
  · exact ⟨rfl, rfl⟩
  · obtain ⟨known, -, heq⟩ := commitWith_eq r cid (r.cmdDescs cid)
    rw [heq]
    refine ⟨?_, ?_⟩ <;> simp only [Function.update_self]
    rfl
  · exact ⟨rfl, rfl⟩

theorem quorumReached_insertSlowAck {d : SwiftCmdDesc n} (h : d.endorsed i = true) :
    (d.insertSlowAck i).quorumReached = d.quorumReached := by
  have hendorsed : (d.insertSlowAck i).endorsed = d.endorsed := by
    funext i'
    by_cases hi : i' = i
    · subst hi
      rw [h]
      simp [SwiftCmdDesc.endorsed, SwiftCmdDesc.insertSlowAck]
    · simp [SwiftCmdDesc.endorsed, SwiftCmdDesc.insertSlowAck, SwiftCmdDesc.matching, hi]
  simp only [SwiftCmdDesc.quorumReached, hendorsed]
  rfl

theorem quorumReached_recallSlowAck
    (h : (r.cmdDescs cid).leaderAcked = true → (r.cmdDescs cid).matching j = true) :
    ((r.recallSlowAck j cid).cmdDescs cid).quorumReached = (r.cmdDescs cid).quorumReached := by
  simp only [SwiftPaxosServer.recallSlowAck, SwiftPaxosServer.maybeSendLightSlowAck]
  split_ifs with hrecall
  · rfl
  · simp only [Bool.and_eq_true] at hrecall
    have hmatching := h hrecall.1.1
    have hendorsed : (r.cmdDescs cid).endorsed j = true := by
      simp [SwiftCmdDesc.endorsed, hmatching]
    rw [cmdDescs_send, cmdDescs_setDesc]
    exact quorumReached_insertSlowAck hendorsed
  · rfl

end Replica

section Steps

variable {r : SwiftPaxosServer n} {ps : List CmdId} {ms : List (Message n)}
  {new : List (Fin n × Nat × Fin n)} {k : Nat}

def update (s : Posted n) (j : Fin n) (r : SwiftPaxosServer n) (ps : List CmdId)
    (new : List (Fin n × Nat × Fin n)) : Posted n :=
  { server := Function.update s.server j r
    proposed := Function.update s.proposed j ps
    handled := s.handled ++ new }

theorem ack_extend {l l' : List CmdId} (h : l <+: l') (hmem : c ∈ l) :
    (ack w i l' c : Message n) = ack w i l c := by
  simp only [ack, depIn, earlier_extend h hmem]

/-- Messages are in turn if each is sent after the fast acks for all earlier commands of its key. -/
theorem inTurn_append {l l' : List CmdId} {sent : List (Message n)} (hl : l <+: l')
    (h : ∀ k m, sent[k]? = some m → InTurn w i l sent k m)
    (hms : ∀ m ∈ ms, ∃ c ∈ l', IsAck w i l' c m ∧
      ∀ a ∈ earlier w l' c, ack w i l' a ∈ sent) (k : Nat) (m : Message n)
    (hm : (sent ++ ms)[k]? = some m) : InTurn w i l' (sent ++ ms) k m := by
  have hleft : ∀ {k' : Nat} {m' : Message n}, sent[k']? = some m' → (sent ++ ms)[k']? = some m' := by
    intro k' m' hm'
    rw [List.getElem?_append_left (List.getElem?_eq_some_iff.mp hm').1]
    exact hm'
  by_cases hk : k < sent.length
  · rw [List.getElem?_append_left hk] at hm
    obtain ⟨c, hc, hack, hearlier⟩ := h k m hm
    refine ⟨c, hl.subset hc, ?_, fun a ha => ?_⟩
    · rwa [IsAck, ack_extend hl hc]
    · rw [earlier_extend hl hc] at ha
      obtain ⟨k', hk', hsent⟩ := hearlier a ha
      rw [ack_extend hl (mem_of_mem_earlier ha).1]
      exact ⟨k', hk', hleft hsent⟩
  · rw [List.getElem?_append_right (Nat.le_of_not_lt hk)] at hm
    obtain ⟨c, hc, hack, hearlier⟩ := hms m (List.mem_of_getElem? hm)
    refine ⟨c, hc, hack, fun a ha => ?_⟩
    obtain ⟨k', hsent⟩ := List.mem_iff_getElem?.mp (hearlier a ha)
    exact ⟨k', (List.getElem?_eq_some_iff.mp hsent).1.trans_le (Nat.le_of_not_lt hk), hleft hsent⟩

theorem getElem?_sent_update (hsent : (s.server j).sent <+: r.sent)
    (hk : k < (s.server i).sent.length) :
    ((s.update j r ps new).server i).sent[k]? = (s.server i).sent[k]? := by
  by_cases hi : i = j
  · subst hi
    obtain ⟨ms, hms⟩ := hsent
    simp only [update, Function.update_self, ← hms]
    exact List.getElem?_append_left hk
  · simp [update, hi]

theorem keyOf_update (hsent : (s.server j).sent <+: r.sent) (hk : k < (s.server i).sent.length) :
    (s.update j r ps new).keyOf w i k = s.keyOf w i k := by
  rw [keyOf, keyOf, getElem?_sent_update hsent hk]

/-- A step of replica `j` that takes the commands proposed to it on to `ps` and sends `ms`. -/
theorem Sequenced.update (h : Sequenced w s) (hballot : r.ballot = 0) (hrec : r.recovering = false)
    (hps : s.proposed j <+: ps) (hnd : ps.Nodup)
    (hcomp : ∀ i k, i ≠ j → Swift.comparable w k ps (s.proposed i) = true)
    (hkeys : r.keys = trackAll w ps) (hsent : r.sent = (s.server j).sent ++ ms)
    (hms : ∀ m ∈ ms, ∃ c ∈ ps, IsAck w j ps c m ∧
      ∀ a ∈ earlier w ps c, ack w j ps a ∈ (s.server j).sent)
    (hacked : ∀ c ∈ ps, ack w j ps c ∈ r.sent)
    (hnew : ∀ i k j', (i, k, j') ∈ new → k < (s.server i).sent.length ∧
      ∀ k' < k, s.keyOf w i k' = s.keyOf w i k → (i, k', j') ∈ s.handled) :
    Sequenced w (s.update j r ps new) := by
  have hext : (s.server j).sent <+: r.sent := ⟨ms, hsent.symm⟩
  have hhandled : ∀ i k j', (i, k, j') ∈ s.handled ++ new → k < (s.server i).sent.length := by
    intro i k j' hmem
    exact (List.mem_append.mp hmem).elim (h.handled i k j') fun hmem => (hnew i k j' hmem).1
  refine ⟨fun i => ?_, fun i => ?_, fun i => ?_, fun i i' k => ?_, fun i => ?_, fun i => ?_,
    fun i => ?_, fun i k j' hmem => ?_, fun i j' k k' hmem hlt hkey => ?_⟩
  · by_cases hi : i = j
    · subst hi
      simpa [Posted.update] using hballot
    · simpa [Posted.update, hi] using h.ballot i
  · by_cases hi : i = j
    · subst hi
      simpa [Posted.update] using hrec
    · simpa [Posted.update, hi] using h.recovering i
  · by_cases hi : i = j
    · subst hi
      simpa [Posted.update] using hnd
    · simpa [Posted.update, hi] using h.nodup i
  · by_cases hi : i = j <;> by_cases hi' : i' = j
    · subst hi hi'
      exact comparable_extend (List.prefix_refl _)
    · subst hi
      simpa [Posted.update, hi'] using hcomp i' k hi'
    · subst hi'
      rw [comparable_symm]
      simpa [Posted.update, hi] using hcomp i k hi
    · simpa [Posted.update, hi, hi'] using h.comparable i i' k
  · by_cases hi : i = j
    · subst hi
      simpa [Posted.update] using hkeys
    · simpa [Posted.update, hi] using h.keys i
  · by_cases hi : i = j
    · subst hi
      simp only [Posted.update, Function.update_self, hsent]
      exact inTurn_append hps (h.sent i) hms
    · simpa [Posted.update, hi] using h.sent i
  · by_cases hi : i = j
    · subst hi
      simpa [Posted.update] using hacked
    · simpa [Posted.update, hi] using h.acked i
  · have hlt := hhandled i k j' hmem
    by_cases hi : i = j
    · subst hi
      simp only [Posted.update, Function.update_self, hsent, List.length_append]
      exact Nat.lt_add_right _ hlt
    · simpa [Posted.update, hi] using hlt
  · have hlen := hhandled i k j' hmem
    rw [keyOf_update hext (hlt.trans hlen), keyOf_update hext hlen] at hkey
    refine List.mem_append_left new ?_
    rcases List.mem_append.mp hmem with hold | hmem
    · exact h.closed i j' k k' hold hlt hkey
    · exact (hnew i k j' hmem).2 k' hlt hkey

theorem Told.update (hsent : (s.server j).sent <+: r.sent) {i' : Fin n} (h : s.Told i i' m) :
    (s.update j r ps new).Told i i' m := by
  obtain ⟨k, hk, hm⟩ := h
  refine ⟨k, hk.imp_right (List.mem_append_left new), ?_⟩
  rw [getElem?_sent_update hsent (List.getElem?_eq_some_iff.mp hm).1]
  exact hm

theorem told_update (h : Sequenced w s) (hsent : r.sent = (s.server j).sent ++ ms) {i' : Fin n}
    (hnew : ∀ i k j', (i, k, j') ∈ new → k < (s.server i).sent.length)
    (htold : (s.update j r ps new).Told i i' m) :
    s.Told i i' m ∨ i = j ∧ i' = j ∧ m ∈ ms ∨
      ∃ k, (i, k, i') ∈ new ∧ (s.server i).sent[k]? = some m := by
  obtain ⟨k, hk, hm⟩ := htold
  have hext : (s.server j).sent <+: r.sent := ⟨ms, hsent.symm⟩
  rcases hk with rfl | hmem
  · by_cases hlt : k < (s.server i).sent.length
    · rw [getElem?_sent_update hext hlt] at hm
      exact .inl ⟨k, .inl rfl, hm⟩
    · by_cases hi : i = j
      · subst hi
        simp only [Posted.update, Function.update_self, hsent,
          List.getElem?_append_right (Nat.le_of_not_lt hlt)] at hm
        exact .inr (.inl ⟨rfl, rfl, List.mem_of_getElem? hm⟩)
      · have hlen := (List.getElem?_eq_some_iff.mp hm).1
        simp only [Posted.update, Function.update_of_ne hi] at hlen
        exact absurd hlen hlt
  · rcases List.mem_append.mp hmem with hold | hmem
    · rw [getElem?_sent_update hext (h.handled i k i' hold)] at hm
      exact .inl ⟨k, .inr hold, hm⟩
    · rw [getElem?_sent_update hext (hnew i k i' hmem)] at hm
      exact .inr (.inr ⟨k, hmem, hm⟩)

theorem Backed.update (hsent : (s.server j).sent <+: r.sent) (hps : s.proposed j <+: ps)
    {d : SwiftCmdDesc n} (h : Backed s l i c d) : Backed (s.update j r ps new) l i c d where
  fast i' dep hdep := (h.fast i' dep hdep).update hsent
  slow i' hi' := by
    obtain ⟨m, htold, hm⟩ := h.slow i' hi'
    exact ⟨m, htold.update hsent, hm⟩
  leader := h.leader
  leaderDep hd := (h.leaderDep hd).update hsent
  mine hd := by
    by_cases hi : i = j
    · subst hi
      simpa [Posted.update] using hps.subset (h.mine hd)
    · simpa [Posted.update, hi] using h.mine hd

theorem VotesInv.update {P : List CmdId → Prop} {Q : Message n → Prop} {done : Bool}
    (h : VotesInv s l) (hv : Votes (s.server j) r cid P Q done) (hps : s.proposed j <+: ps)
    (hquorum : (r.cmdDescs cid).quorumReached = done)
    (hbacked : ∀ c, Backed (s.update j r ps new) l j c (r.cmdDescs c))
    (hkept : ∀ i, (((s.server j).cmdDescs cid).fastAcksByReplica i).isSome = true →
      ((r.cmdDescs cid).fastAcksByReplica i).isSome = true)
    (htold : ∀ i i' c dep, (s.update j r ps new).Told i i' (.fastAck i 0 c dep) →
      s.Told i i' (.fastAck i 0 c dep) ∨
        i' = j ∧ c = cid ∧ ((r.cmdDescs cid).fastAcksByReplica i).isSome = true) :
    VotesInv (s.update j r ps new) l := by
  have hsent : (s.server j).sent <+: r.sent := by
    obtain ⟨ms, hms, -⟩ := hv.sent
    exact ⟨ms, hms.symm⟩
  have hself : ((s.update j r ps new).server j) = r := Function.update_self ..
  have hne : ∀ i, i ≠ j → (s.update j r ps new).server i = s.server i :=
    fun i hi => Function.update_of_ne hi ..
  refine ⟨fun i c => ?_, fun i c => ?_, fun i c => ?_, fun i i' c dep hi => ?_⟩
  · by_cases hi : i = j
    · subst hi
      rw [hself]
      exact hbacked c
    · rw [hne i hi]
      exact (h.backed i c).update hsent hps
  · by_cases hi : i = j
    · subst hi
      rw [hself]
      by_cases hc : c = cid
      · rw [hc, hv.committed, hquorum]
      · rw [hv.desc_ne c hc]
        exact h.committed i c
    · rw [hne i hi]
      exact h.committed i c
  · by_cases hi : i = j
    · subst hi
      rw [hself]
      by_cases hc : c = cid
      · rw [hc, hv.decided, hquorum]
      · rw [hv.desc_ne c hc]
        exact h.delivered i c
    · rw [hne i hi]
      exact h.delivered i c
  · rcases htold i i' c dep hi with hold | ⟨rfl, rfl, hsome⟩
    · have hheard := h.heard i i' c dep hold
      by_cases hi' : i' = j
      · subst hi'
        rw [hself]
        by_cases hc : c = cid
        · subst hc
          refine .inr (hkept i (hheard.resolve_left ?_))
          rw [hv.undecided]
          exact Bool.false_ne_true
        · rwa [hv.desc_ne c hc]
      · rwa [hne i' hi']
    · rw [hself]
      exact .inr hsome

theorem fastAcks_kept {d d' : SwiftCmdDesc n} {dep : List CmdId}
    (h : d'.fastAcksByReplica = (d.emplaceFastAck i dep).fastAcksByReplica) (i' : Fin n)
    (hsome : i' = i ∨ (d.fastAcksByReplica i').isSome = true) :
    (d'.fastAcksByReplica i').isSome = true := by
  rw [h]
  by_cases hi : i' = i
  · subst hi
    simp [SwiftCmdDesc.emplaceFastAck]
  · simpa [SwiftCmdDesc.emplaceFastAck, hi] using hsome.resolve_left hi

theorem step_propose : s.step w (.propose i cid) =
    some (s.update i ((s.server i).onPropose w i cid) (s.proposed i ++ [cid]) []) := by
  simp only [step, Swift.step, Option.map_some]
  rfl

theorem step_deliver {i j : Fin n} (h : s.step w (.deliver i k j) = some t) :
    ∃ m, (s.server i).sent[k]? = some m ∧
      t = s.update j ((s.server j).receive w j m) (s.proposed j) [(i, k, j)] := by
  obtain ⟨u, hu, rfl⟩ := Option.map_eq_some_iff.mp h
  obtain ⟨m, hm, hu⟩ := Option.bind_eq_some_iff.mp hu
  split_ifs at hu with hreach
  cases hu
  refine ⟨m, hm, ?_⟩
  simp [Posted.update, System.setServer, Event.handles]

theorem trackAll_append (l : List CmdId) (cid : CmdId) :
    trackAll w (l ++ [cid]) = trackKey w (trackAll w l) cid := by
  rw [trackAll, List.foldl_append]
  rfl

theorem mem_of_mem_earlier_append {l : List CmdId} (h : a ∈ earlier w (l ++ [cid]) cid) : a ∈ l := by
  have hne : a ≠ cid := by simpa using List.mem_takeWhile_imp h
  exact (List.mem_append.mp (mem_of_mem_earlier h).1).resolve_right fun hmem =>
    hne (List.mem_singleton.mp hmem)

theorem inSequence_propose (hok : s.inSequence w (.propose i cid) = true) :
    cid ∉ s.proposed i ∧ ((s.server i).cmdDescs cid).decided = false ∧
      ∀ j, Swift.comparable w (w.key cid) (s.proposed i ++ [cid]) (s.proposed j) = true := by
  simp only [inSequence, Bool.and_eq_true, Bool.not_eq_true', List.all_eq_true, List.mem_finRange,
    true_implies] at hok
  obtain ⟨⟨hnew, hund⟩, hcomp⟩ := hok
  refine ⟨fun hmem => ?_, hund, hcomp⟩
  rw [List.contains_iff_mem.mpr hmem] at hnew
  cases hnew

theorem votes_propose (h : Sequenced w s) (hok : s.inSequence w (.propose i cid) = true) :
    Votes (s.server i) ((s.server i).onPropose w i cid) cid (fun _ => True)
      (IsAck w i (s.proposed i ++ [cid]) cid) ((s.server i).proposeCompletes w i cid) := by
  obtain ⟨hnew, hund, -⟩ := inSequence_propose hok
  refine votes_onPropose (fun _ => trivial) (.inr ?_) (.inl ?_) (h.recovering i) hund
  · rw [h.ballot i]
  · rw [h.ballot i, h.keys i, getDep_trackAll hnew]
    rfl

theorem Sequenced.propose (h : Sequenced w s) (hok : s.inSequence w (.propose i cid) = true) :
    Sequenced w (s.update i ((s.server i).onPropose w i cid) (s.proposed i ++ [cid]) []) := by
  obtain ⟨hnew, hund, hcomp⟩ := inSequence_propose hok
  have hv := votes_propose h hok
  obtain ⟨ms, hms, hacks⟩ := hv.sent
  have hext : s.proposed i <+: s.proposed i ++ [cid] := List.prefix_append ..
  refine h.update (hv.ballot.trans (h.ballot i)) (hv.recovering.trans (h.recovering i)) hext ?_
    (fun j k _ => ?_) ?_ hms (fun m hm => ⟨cid, by simp, hacks m hm, fun a ha => ?_⟩)
    (fun c hc => ?_) (by simp)
  · exact List.nodup_append.mpr ⟨h.nodup i, List.nodup_singleton cid, fun c hc x hx hcx =>
      hnew (List.mem_singleton.mp hx ▸ hcx ▸ hc)⟩
  · by_cases hk : w.key cid = k
    · exact hk ▸ hcomp j
    · rw [comparable_append_ne hk]
      exact h.comparable i j k
  · rw [keys_onPropose_of_undecided (h.recovering i) hund, h.keys i, trackAll_append]
  · have ha := mem_of_mem_earlier_append ha
    rw [ack_extend hext ha]
    exact h.acked i a ha
  · rcases List.mem_append.mp hc with hc | hc
    · rw [hms, ack_extend hext hc]
      exact List.mem_append_left ms (h.acked i c hc)
    · rw [List.mem_singleton.mp hc]
      rw [ack, ← h.ballot i, ← getDep_trackAll hnew, ← h.keys i]
      exact mem_sent_onPropose (h.recovering i) hund

/-- What `OnPropose` leaves of the command, but for the slow vote at its end. -/
theorem onPropose_eq {loc : Fin n} (hrec : r.recovering = false)
    (hund : (r.cmdDescs cid).decided = false) :
    ∃ u : SwiftPaxosServer n, r.onPropose w loc cid = u.recallSlowAck loc cid ∧
      u.cmdDescs = (((r.preAccept w cid).recordFastAck loc loc cid
        (getDep w r.keys cid)).checkCommit cid).cmdDescs := by
  have hpre : Records r (r.preAccept w cid) cid (fun _ => True) (fun _ => True) := records_preAccept w
  obtain ⟨hc, hd⟩ := SwiftCmdDesc.decided_eq_false.mp hund
  have hund' : ((r.preAccept w cid).cmdDescs cid).decided = false :=
    SwiftCmdDesc.decided_eq_false.mpr ⟨hpre.committed.trans hc, hpre.decided.trans hd⟩
  refine ⟨((r.preAccept w cid).onFastAck loc loc cid (getDep w r.keys cid)).send
    (.fastAck loc r.ballot cid (getDep w r.keys cid)), ?_, ?_⟩
  · simp [SwiftPaxosServer.onPropose, hrec, hund]
  · rw [cmdDescs_send, SwiftPaxosServer.onFastAck, if_neg (by simp [hund'])]

theorem fastAcks_recallSlowAck {loc : Fin n} :
    ((r.recallSlowAck loc cid).cmdDescs c).fastAcksByReplica =
      (r.cmdDescs c).fastAcksByReplica := by
  simp only [SwiftPaxosServer.recallSlowAck]
  split_ifs
  · exact fastAcks_maybeSendLightSlowAck
  · rfl

theorem fastAcks_preAccept :
    ((r.preAccept w cid).cmdDescs cid).fastAcksByReplica = (r.cmdDescs cid).fastAcksByReplica := by
  simp only [SwiftPaxosServer.preAccept, cmdDescs_setDesc]
  split_ifs <;> rfl

theorem VotesInv.propose (h : VotesInv s l) (hl : l.val = 0) (hseq : Sequenced w s)
    (hok : s.inSequence w (.propose i cid) = true) :
    VotesInv (s.update i ((s.server i).onPropose w i cid) (s.proposed i ++ [cid]) []) l := by
  obtain ⟨hnew, hund, -⟩ := inSequence_propose hok
  have hseq' := hseq.propose hok
  have hv := votes_propose hseq hok
  obtain ⟨ms, hms, hacks⟩ := hv.sent
  have hsent : (s.server i).sent <+: ((s.server i).onPropose w i cid).sent := ⟨ms, hms.symm⟩
  have hext : s.proposed i <+: s.proposed i ++ [cid] := List.prefix_append ..
  let t := s.update i ((s.server i).onPropose w i cid) (s.proposed i ++ [cid]) []
  have hproposed : t.proposed i = s.proposed i ++ [cid] := Function.update_self ..
  have hserver : t.server i = (s.server i).onPropose w i cid := Function.update_self ..
  have hmem : cid ∈ t.proposed i := by
    rw [hproposed]
    exact List.mem_append_right _ List.mem_cons_self
  have hown : t.Told i i (ack w i (t.proposed i) cid) := by
    obtain ⟨k, hk⟩ := List.mem_iff_getElem?.mp (hseq'.acked i cid hmem)
    exact ⟨k, .inl rfl, hk⟩
  have hdep : getDep w (s.server i).keys cid = depIn w (t.proposed i) cid := by
    rw [hseq.keys i, hproposed, getDep_trackAll hnew]
  have hback : ∀ c, Backed t l i c ((s.server i).cmdDescs c) :=
    fun c => (h.backed i c).update hsent hext
  obtain ⟨u, hu, hdescs⟩ := onPropose_eq (w := w) (hseq.recovering i) hund
  have hfast : (u.cmdDescs cid).fastAcksByReplica = (((s.server i).cmdDescs cid).emplaceFastAck i
      (getDep w (s.server i).keys cid)).fastAcksByReplica := by
    rw [hdescs, checkCommit_desc.1, fastAcks_recordFastAck, SwiftCmdDesc.emplaceFastAck,
      SwiftCmdDesc.emplaceFastAck, fastAcks_preAccept]
  have hvoted : (((s.server i).onPropose w i cid).cmdDescs cid).fastAcksByReplica =
      (((s.server i).cmdDescs cid).emplaceFastAck i
        (getDep w (s.server i).keys cid)).fastAcksByReplica := by
    rw [hu, fastAcks_recallSlowAck, hfast]
  have hkept := fastAcks_kept hvoted
  refine h.update hv hext ?_ (backed_onPropose hback (hseq.ballot i) hl hmem hown hdep)
    (fun i' hi' => hkept i' (.inr hi')) fun i' j c dep htold => ?_
  · have hbacked : Backed t l i cid (u.cmdDescs cid) := by
      rw [hdescs]
      refine backed_checkCommit (backed_recordFastAck (w := w) (backed_preAccept hback hmem)
        (hseq.ballot i) hl (fun _ => hown) ?_) cid
      rw [hdep]
      exact hown
    have hmatching : (u.cmdDescs cid).leaderAcked = true → (u.cmdDescs cid).matching i = true :=
      fun hlead => hseq'.matching hbacked hlead (fastAcks_kept hfast i (.inl rfl))
    rw [hu, quorumReached_recallSlowAck hmatching, hdescs, checkCommit_desc.2,
      SwiftPaxosServer.proposeCompletes, hseq.recovering i, hund]
    rfl
  · rcases told_update hseq hms (by simp) htold with hold | ⟨rfl, rfl, hmem⟩ | ⟨k, hmem, -⟩
    · exact .inl hold
    · rcases hacks _ hmem with heq | heq
      · obtain ⟨-, -, rfl, -⟩ := Message.fastAck.inj heq
        exact .inr ⟨rfl, rfl, hkept _ (.inl rfl)⟩
      · cases heq
    · cases hmem

theorem backed_receive {l' : List CmdId} (h : ∀ c, Backed s l j c (r.cmdDescs c))
    (hballot : r.ballot = 0) (hl : l.val = 0) (hack : IsAck w i l' cid m) (htold : s.Told i j m)
    (hown : cid ∈ s.proposed j → s.Told j j (ack w j (s.proposed j) cid)) (c : CmdId) :
    Backed s l j c ((r.receive w j m).cmdDescs c) := by
  rcases hack with rfl | rfl
  · exact backed_onFastAck h hballot hl hown htold c
  · exact backed_onLightSlowAck h htold rfl c

/-- An ack for a decided command does nothing. For any other its vote is recorded, and at most the own
slow ack is sent. -/
theorem receive_cases (h : Sequenced w s) (hmine : ((s.server j).cmdDescs cid).myDepSet = true →
      cid ∈ s.proposed j) {l' : List CmdId} (hack : IsAck w i l' cid m) :
    ((s.server j).receive w j m).keys = (s.server j).keys ∧
      (((s.server j).cmdDescs cid).decided = true ∧ (s.server j).receive w j m = s.server j ∨
        ∃ done, Votes (s.server j) ((s.server j).receive w j m) cid (fun _ => True)
            (fun m' => m' = .slowAck j 0 cid ∧ cid ∈ s.proposed j) done ∧
          (((s.server j).receive w j m).cmdDescs cid).quorumReached = done ∧
          (∀ i', (((s.server j).cmdDescs cid).fastAcksByReplica i').isSome = true →
            ((((s.server j).receive w j m).cmdDescs cid).fastAcksByReplica i').isSome = true) ∧
          (m = ack w i l' cid →
            ((((s.server j).receive w j m).cmdDescs cid).fastAcksByReplica i).isSome = true)) := by
  rcases hack with rfl | rfl
  · refine ⟨keys_onFastAck .., ?_⟩
    simp only [ack, SwiftPaxosServer.receive]
    by_cases hund : ((s.server j).cmdDescs cid).decided = true
    · exact .inl ⟨hund, onFastAck_of_decided hund⟩
    · have hund := eq_false_of_ne_true hund
      have heq : (s.server j).onFastAck j i cid (depIn w l' cid) =
          ((s.server j).recordFastAck j i cid (depIn w l' cid)).checkCommit cid := by
        simp [SwiftPaxosServer.onFastAck, hund]
      have hvoted : (((s.server j).onFastAck j i cid (depIn w l' cid)).cmdDescs cid).fastAcksByReplica =
          (((s.server j).cmdDescs cid).emplaceFastAck i (depIn w l' cid)).fastAcksByReplica := by
        rw [heq, checkCommit_desc.1, fastAcks_recordFastAck]
      have hkept := fastAcks_kept hvoted
      refine .inr ⟨_, votes_onFastAck (fun _ => trivial) (fun hset => ⟨?_, hmine hset⟩) hund, ?_,
        fun i' hi' => hkept i' (.inr hi'), fun _ => hkept i (.inl rfl)⟩
      · rw [h.ballot j]
      · rw [heq, checkCommit_desc.2]
  · refine ⟨keys_onLightSlowAck .., ?_⟩
    simp only [SwiftPaxosServer.receive]
    by_cases hund : ((s.server j).cmdDescs cid).decided = true
    · exact .inl ⟨hund, onLightSlowAck_of_stale (.inl hund)⟩
    · have hund := eq_false_of_ne_true hund
      have heq : (s.server j).onLightSlowAck i 0 cid =
          ((s.server j).recordSlowAck i cid).checkCommit cid := by
        simp [SwiftPaxosServer.onLightSlowAck, hund, h.ballot j]
      refine .inr ⟨((s.server j).recordSlowAck i cid).cmdDescs cid |>.quorumReached, ?_, ?_,
        fun i' hi' => ?_, fun hno => ?_⟩
      · rw [← h.ballot j]
        exact votes_onLightSlowAck hund
      · rw [heq, checkCommit_desc.2]
      · rw [heq, checkCommit_desc.1, SwiftPaxosServer.recordSlowAck, cmdDescs_setDesc]
        exact hi'
      · cases hno

theorem inSequence_deliver {i j : Fin n} (hok : s.inSequence w (.deliver i k j) = true) {k' : Nat}
    (hk : k' < k) (hkey : s.keyOf w i k' = s.keyOf w i k) : (i, k', j) ∈ s.handled := by
  simp only [inSequence, List.all_eq_true, List.mem_range, Bool.or_eq_true, bne_iff_ne, ne_eq,
    List.contains_iff_mem] at hok
  exact (hok k' hk).resolve_left (not_not.mpr hkey)

theorem Sequenced.deliver (h : Sequenced w s) (hvotes : VotesInv s l) {i j : Fin n}
    (hok : s.inSequence w (.deliver i k j) = true) (hm : (s.server i).sent[k]? = some m) :
    Sequenced w (s.update j ((s.server j).receive w j m) (s.proposed j) [(i, k, j)]) := by
  obtain ⟨cid, -, hack, -⟩ := h.sent i k m hm
  obtain ⟨hkeys, hcases⟩ := receive_cases h (hvotes.backed j cid).mine hack
  have hnew : ∀ i' k' j', (i', k', j') ∈ [(i, k, j)] → k' < (s.server i').sent.length ∧
      ∀ k'' < k', s.keyOf w i' k'' = s.keyOf w i' k' → (i', k'', j') ∈ s.handled := by
    intro i' k' j' hmem
    obtain ⟨rfl, rfl, rfl⟩ : i' = i ∧ k' = k ∧ j' = j := by simpa using hmem
    exact ⟨(List.getElem?_eq_some_iff.mp hm).1, fun k'' hk hkey => inSequence_deliver hok hk hkey⟩
  have hkeys := hkeys.trans (h.keys j)
  rcases hcases with ⟨-, heq⟩ | ⟨done, hv, -⟩
  · rw [heq] at hkeys ⊢
    exact h.update (h.ballot j) (h.recovering j) (List.prefix_refl _) (h.nodup j)
      (fun i' k' _ => h.comparable j i' k') hkeys (List.append_nil _).symm (by simp) (h.acked j) hnew
  · obtain ⟨ms, hms, hacks⟩ := hv.sent
    refine h.update (hv.ballot.trans (h.ballot j)) (hv.recovering.trans (h.recovering j))
      (List.prefix_refl _) (h.nodup j) (fun i' k' _ => h.comparable j i' k') hkeys hms
      (fun m' hm' => ?_) (fun c hc => ?_) hnew
    · obtain ⟨rfl, hmem⟩ := hacks m' hm'
      exact ⟨cid, hmem, .inr rfl, fun a ha => h.acked j a (mem_of_mem_earlier ha).1⟩
    · rw [hms]
      exact List.mem_append_left ms (h.acked j c hc)

theorem VotesInv.skip (h : VotesInv s l)
    (htold : ∀ i i' c dep,
      (s.update j (s.server j) (s.proposed j) new).Told i i' (.fastAck i 0 c dep) →
      s.Told i i' (.fastAck i 0 c dep) ∨ ((s.server i').cmdDescs c).decided = true) :
    VotesInv (s.update j (s.server j) (s.proposed j) new) l := by
  have hserver : (s.update j (s.server j) (s.proposed j) new).server = s.server :=
    Function.update_eq_self ..
  refine ⟨fun i c => ?_, ?_, ?_, fun i i' c dep hi => ?_⟩
  · rw [hserver]
    exact (h.backed i c).update (List.prefix_refl _) (List.prefix_refl _)
  · rw [hserver]
    exact h.committed
  · rw [hserver]
    exact h.delivered
  · rw [hserver]
    exact (htold i i' c dep hi).elim (h.heard i i' c dep) .inl

theorem VotesInv.deliver (h : VotesInv s l) (hl : l.val = 0) (hseq : Sequenced w s) {i j : Fin n}
    (hok : s.inSequence w (.deliver i k j) = true) (hm : (s.server i).sent[k]? = some m) :
    VotesInv (s.update j ((s.server j).receive w j m) (s.proposed j) [(i, k, j)]) l := by
  obtain ⟨cid, -, hack, -⟩ := hseq.sent i k m hm
  obtain ⟨-, hcases⟩ := receive_cases hseq (h.backed j cid).mine hack
  have hlen : ∀ i' k' j', (i', k', j') ∈ [(i, k, j)] → k' < (s.server i').sent.length := by
    intro i' k' j' hmem
    obtain ⟨rfl, rfl, rfl⟩ : i' = i ∧ k' = k ∧ j' = j := by simpa using hmem
    exact (List.getElem?_eq_some_iff.mp hm).1
  have hnew : ∀ {i' i'' : Fin n} {k' : Nat} {c : CmdId} {dep : List CmdId},
      (i', k', i'') ∈ [(i, k, j)] → (s.server i').sent[k']? = some (.fastAck i' 0 c dep) →
        i' = i ∧ i'' = j ∧ c = cid ∧ m = ack w i (s.proposed i) cid := by
    intro i' i'' k' c dep hmem hsent
    obtain ⟨rfl, rfl, rfl⟩ : i' = i ∧ k' = k ∧ i'' = j := by simpa using hmem
    obtain rfl := Option.some.inj (hsent.symm.trans hm)
    rcases hack with heq | heq
    · exact ⟨rfl, rfl, (Message.fastAck.inj heq).2.2.1, heq⟩
    · cases heq
  rcases hcases with ⟨hdecided, heq⟩ | ⟨done, hv, hquorum, hkept, hrecorded⟩
  · rw [heq]
    refine h.skip fun i' i'' c dep htold => ?_
    rcases told_update hseq (List.append_nil _).symm hlen htold with hold | ⟨-, -, hno⟩ |
      ⟨k', hmem, hsent⟩
    · exact .inl hold
    · cases hno
    · obtain ⟨-, rfl, rfl, -⟩ := hnew hmem hsent
      exact .inr hdecided
  · obtain ⟨ms, hms, hacks⟩ := hv.sent
    have hsent : (s.server j).sent <+: ((s.server j).receive w j m).sent := ⟨ms, hms.symm⟩
    let t := s.update j ((s.server j).receive w j m) (s.proposed j) [(i, k, j)]
    have hseq' : Sequenced w t := hseq.deliver h hok hm
    have hproposed : t.proposed j = s.proposed j := Function.update_self ..
    refine h.update hv (List.prefix_refl _) hquorum ?_ hkept fun i' i'' c dep htold => ?_
    · refine backed_receive (fun c => (h.backed j c).update hsent (List.prefix_refl _))
        (hseq.ballot j) hl hack ⟨k, .inr (List.mem_append_right _ List.mem_cons_self), ?_⟩
        fun hmem => ?_
      · rw [getElem?_sent_update hsent (List.getElem?_eq_some_iff.mp hm).1]
        exact hm
      · obtain ⟨k', hk'⟩ := List.mem_iff_getElem?.mp (hseq'.acked j cid hmem)
        exact ⟨k', .inl rfl, hk'⟩
    · rcases told_update hseq hms hlen htold with hold | ⟨-, -, hown⟩ | ⟨k', hmem, hsent⟩
      · exact .inl hold
      · cases (hacks _ hown).1
      · obtain ⟨rfl, rfl, rfl, heq⟩ := hnew hmem hsent
        exact .inr ⟨rfl, rfl, hrecorded heq⟩

end Steps

end Posted

end Jetpack.Swift
