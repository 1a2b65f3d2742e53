import Jetpack.Raft.ElectionSafety
import Jetpack.Raft.Slots

/-! The calls a leader builds for a follower. A batch starts behind the freed slots while its
`prevLogIndex` is the send index, so the two fit together only while the send index has not fallen
behind the slots that were freed. -/

namespace Jetpack.Raft

open Transition

namespace RaftServer

variable {n : Nat} {α : Type}

theorem getRaftInstance_eq {s : RaftServer n α} {id : Nat} (h : s.minActiveSlot ≤ id ∨ id = 0) :
    s.getRaftInstance id = some (s.raftLogs id) := if_pos h

theorem batchFrom_getElem {count : Nat} {s : RaftServer n α} {index : Nat}
    {batch : List (Nat × α)} (h : s.batchFrom index count = some batch) :
    batch.length = count ∧ ∀ k c, batch[k]? = some c →
      s.getRaftInstance (index + k) = some ⟨c.1, some c.2⟩ := by
  induction count generalizing index batch with
  | zero =>
    cases h
    exact ⟨rfl, fun k c hk => by simp at hk⟩
  | succ count ih =>
    obtain ⟨i, hi, h⟩ := Option.bind_eq_some_iff.mp h
    obtain ⟨cmd, hcmd, h⟩ := Option.bind_eq_some_iff.mp h
    obtain ⟨rest, hrest, h⟩ := Option.bind_eq_some_iff.mp h
    cases h
    obtain ⟨hlen, hget⟩ := ih hrest
    refine ⟨by rw [List.length_cons, hlen], fun k c hk => ?_⟩
    cases k with
    | zero =>
      have hc : (i.term, cmd) = c := by simpa using hk
      have hi' : i = ⟨c.1, some c.2⟩ := by
        rw [← hc, ← hcmd]
      rw [Nat.add_zero, hi, hi']
    | succ k =>
      have hk' := hget k c (by simpa using hk)
      rwa [Nat.add_assoc, Nat.add_comm 1 k] at hk'

theorem batchFrom_of_held {count : Nat} {s : RaftServer n α} {index : Nat}
    (hmin : s.minActiveSlot ≤ index)
    (hheld : ∀ i, index ≤ i → i < index + count → (s.raftLogs i).log.isSome) :
    ∃ batch, s.batchFrom index count = some batch := by
  induction count generalizing index with
  | zero => exact ⟨[], rfl⟩
  | succ count ih =>
    have hmin' : s.minActiveSlot ≤ index + 1 := by omega
    obtain ⟨rest, hrest⟩ := ih hmin' fun i hge hlt => hheld i (by omega) (by omega)
    obtain ⟨cmd, hcmd⟩ := Option.isSome_iff_exists.mp (hheld index (le_refl _) (by omega))
    refine ⟨((s.raftLogs index).term, cmd) :: rest, ?_⟩
    rw [batchFrom, getRaftInstance_eq (.inl hmin)]
    simp only [Option.bind_eq_bind, Option.bind_some, hcmd, hrest]
    rfl

/-- The k-th command of the call is the entry `k` slots behind `prevLogIndex`, with its term, and the
term sent for `prevLogIndex` is that of the entry there; no slot of these is freed. -/
structure Contiguous (s : RaftServer n α) (m : AppendEntries n α) : Prop where
  prev : (s.getRaftInstance m.prevLogIndex).map RaftData.term = some m.prevLogTerm
  cmds : ∀ k c, (m.cmd.getD [])[k]? = some c →
    s.getRaftInstance (m.prevLogIndex + k + 1) = some ⟨c.1, some c.2⟩

/-- A turn of the drain meets no freed slot, and a call it sends is contiguous. -/
def BuildsContiguous (now : Nat) (self follower : Fin n) (s : RaftServer n α) : Prop :=
  ∃ s' m, s.drain now self follower = some (s', m) ∧ ∀ c ∈ m, s.Contiguous c

/-- Nothing is to be sent, or the send index is not behind the freed slots. -/
def AboveTrim (s : RaftServer n α) (follower : Fin n) : Prop :=
  kMaxInFlightPerFollower ≤ s.inFlightCount follower ∨ s.lastLogIndex ≤ s.sendIndex follower ∨
    s.minActiveSlot ≤ s.sendIndex follower ∨ (s.sendIndex follower = 0 ∧ s.minActiveSlot ≤ 1)

instance (s : RaftServer n α) (follower : Fin n) : Decidable (s.AboveTrim follower) :=
  inferInstanceAs (Decidable (_ ∨ _))

theorem batchFrom_congr {s s' : RaftServer n α} (h : s.SameLog s') (index count : Nat) :
    s'.batchFrom index count = s.batchFrom index count := by
  induction count generalizing index with
  | zero => rfl
  | succ count ih =>
    have hslot : s'.getRaftInstance index = s.getRaftInstance index := by
      unfold getRaftInstance
      rw [h.minActiveSlot, h.raftLogs]
    rw [batchFrom, batchFrom, hslot, ih]

theorem sameLog_window (follower : Fin n) (s : RaftServer n α) :
    s.SameLog ((s.clampNext follower).rewindSent follower) := ⟨rfl, rfl, rfl, rfl, rfl⟩

/-- The commands a call can carry: none behind the last slot, or those from the first slot that is
behind the send index and not freed. -/
def Carries (s : RaftServer n α) (follower : Fin n) (m : AppendEntries n α) : Prop :=
  (m.cmd = none ∧ m.prevLogIndex = s.lastLogIndex ∧ s.lastLogIndex ≤ s.sendIndex follower) ∨
    ∃ batch, m.cmd = some batch ∧ batch.isEmpty = false ∧ m.prevLogIndex = s.sendIndex follower ∧
      s.sendIndex follower < s.lastLogIndex ∧
      s.batchFrom (max (s.sendIndex follower + 1) s.minActiveSlot)
        (s.lastLogIndex + 1 - max (s.sendIndex follower + 1) s.minActiveSlot) = some batch

theorem drain_carries {now : Nat} {self follower : Fin n} {s s' : RaftServer n α}
    {m : AppendEntries n α} (h : s.drain now self follower = some (s', some m)) :
    (s.getRaftInstance m.prevLogIndex).map RaftData.term = some m.prevLogTerm ∧
      m.commitIndex = s.commitIndex ∧ s.Carries follower m := by
  unfold drain at h
  split at h
  · cases h
  split at h
  · cases h
  unfold sendNext at h
  dsimp only at h
  split at h
  · next hlt =>
    obtain ⟨batch, hbatch, h⟩ := Option.bind_eq_some_iff.mp h
    rw [batchFrom_congr (sameLog_window follower s)] at hbatch
    split at h
    · cases h
    · next hne =>
      obtain ⟨i, hi, h⟩ := Option.bind_eq_some_iff.mp h
      cases h
      have hprev : s.getRaftInstance (s.sendIndex follower) = some i := hi
      refine ⟨?_, rfl, .inr ⟨batch, rfl, by simpa using hne, rfl, hlt, hbatch⟩⟩
      exact (congrArg (Option.map RaftData.term) hprev).trans rfl
  · next hle =>
    obtain ⟨i, hi, h⟩ := Option.bind_eq_some_iff.mp h
    cases h
    have hprev : s.getRaftInstance s.lastLogIndex = some i := hi
    refine ⟨?_, rfl, .inl ⟨rfl, rfl, Nat.not_lt.mp hle⟩⟩
    exact (congrArg (Option.map RaftData.term) hprev).trans rfl

theorem sendAppend_sends {now prev : Nat} {self follower : Fin n} {cmd : Option (List (Nat × α))}
    {s : RaftServer n α} (hprev : s.minActiveSlot ≤ prev ∨ prev = 0) :
    ∃ s' m, sendAppend now self follower prev cmd s = some (s', some m) := by
  unfold sendAppend
  rw [getRaftInstance_eq hprev]
  exact ⟨_, _, rfl⟩

/-- A turn without a call is one of a server that is not leader, or at the limit of calls in flight,
or finds no slot to send. -/
theorem drain_silent {now : Nat} {self follower : Fin n} {s s' : RaftServer n α}
    (h : s.drain now self follower = some (s', none)) (hl : s.isLeader = true)
    (hroom : ¬ kMaxInFlightPerFollower ≤ s.inFlightCount follower) :
    s.lastLogIndex < max (s.sendIndex follower + 1) s.minActiveSlot := by
  unfold drain at h
  rw [if_neg (by simp [hl]), if_neg hroom] at h
  unfold sendNext at h
  dsimp only at h
  split at h
  · obtain ⟨batch, hbatch, h⟩ := Option.bind_eq_some_iff.mp h
    rw [batchFrom_congr (sameLog_window follower s)] at hbatch
    have hlen : batch.length = s.lastLogIndex + 1 - max (s.sendIndex follower + 1) s.minActiveSlot :=
      (batchFrom_getElem hbatch).1
    split at h
    · next hempty =>
      rw [List.isEmpty_iff_length_eq_zero] at hempty
      omega
    · obtain ⟨i, -, h⟩ := Option.bind_eq_some_iff.mp h
      cases h
  · obtain ⟨i, -, h⟩ := Option.bind_eq_some_iff.mp h
    cases h

/-- Below the limit on calls in flight a leader sends a call, provided that the slot it names in
front of the commands is not freed. -/
theorem SlotInv.drain_sends {now : Nat} {self follower : Fin n} {s : RaftServer n α}
    (h : s.SlotInv) (hl : s.isLeader = true)
    (hroom : ¬ kMaxInFlightPerFollower ≤ s.inFlightCount follower)
    (hprev : s.sendIndex follower < s.lastLogIndex →
      s.minActiveSlot ≤ s.sendIndex follower ∨ s.sendIndex follower = 0) :
    ∃ s' m, s.drain now self follower = some (s', some m) := by
  have hmin := h.min_le
  unfold drain
  rw [if_neg (by simp [hl]), if_neg hroom]
  by_cases hlt : s.sendIndex follower < s.lastLogIndex
  · have hheld : ∃ batch, s.batchFrom (max (s.sendIndex follower + 1) s.minActiveSlot)
        (s.lastLogIndex + 1 - max (s.sendIndex follower + 1) s.minActiveSlot) = some batch :=
      batchFrom_of_held (le_max_right _ _) fun i hge hi => h.held i (by omega) (by omega)
    obtain ⟨batch, hbatch⟩ := hheld
    have hlen := (batchFrom_getElem hbatch).1
    have hne : ¬ batch.isEmpty = true := by
      rw [List.isEmpty_iff_length_eq_zero]
      omega
    rw [← batchFrom_congr (sameLog_window follower s)] at hbatch
    have hsend : ∀ q : RaftServer n α, s.SameLog q → ∃ s' m,
        sendAppend now self follower (s.sendIndex follower) (some batch) q = some (s', some m) := by
      intro q hq
      refine sendAppend_sends ?_
      rw [hq.minActiveSlot]
      exact hprev hlt
    obtain ⟨s', m, hs'⟩ := hsend
      { (s.clampNext follower).rewindSent follower with
        sentIndex := Function.update ((s.clampNext follower).rewindSent follower).sentIndex follower
          s.lastLogIndex } ⟨rfl, rfl, rfl, rfl, rfl⟩
    refine ⟨s', m, (if_pos hlt).trans ?_⟩
    exact Option.bind_eq_some_iff.mpr ⟨batch, hbatch, (if_neg hne).trans hs'⟩
  · have hslot : s.minActiveSlot ≤ s.lastLogIndex ∨ s.lastLogIndex = 0 := by omega
    have hsend : ∃ s' m, sendAppend now self follower s.lastLogIndex none
        ((s.clampNext follower).rewindSent follower) = some (s', some m) := sendAppend_sends hslot
    obtain ⟨s', m, hs'⟩ := hsend
    exact ⟨s', m, (if_neg hlt).trans hs'⟩

theorem contiguous_of_carries {s : RaftServer n α} {follower : Fin n}
    {m : AppendEntries n α}
    (hsent : s.lastLogIndex ≤ s.sendIndex follower ∨ s.minActiveSlot ≤ s.sendIndex follower + 1)
    (hprev : (s.getRaftInstance m.prevLogIndex).map RaftData.term = some m.prevLogTerm)
    (hm : s.Carries follower m) : s.Contiguous m := by
  refine ⟨hprev, fun k c hk => ?_⟩
  obtain ⟨hcmd, -, -⟩ | ⟨batch, hcmd, -, hindex, hlt, hbatch⟩ := hm
  · simp [hcmd] at hk
  · have hfirst : max (s.sendIndex follower + 1) s.minActiveSlot = s.sendIndex follower + 1 := by
      omega
    rw [hfirst] at hbatch
    rw [hcmd] at hk
    have hslot := (batchFrom_getElem hbatch).2 k c hk
    rwa [hindex, Nat.add_right_comm]

theorem drain_call {now : Nat} {self follower : Fin n} {s s' : RaftServer n α}
    {m : AppendEntries n α} (habove : s.AboveTrim follower)
    (hs : s.drain now self follower = some (s', some m)) :
    s.Contiguous m ∧ m.prevLogIndex + (m.cmd.getD []).length = s.lastLogIndex ∧
      m.cmd ≠ some [] := by
  have hroom : ¬ kMaxInFlightPerFollower ≤ s.inFlightCount follower := by
    intro hfull
    unfold drain at hs
    rw [if_pos hfull] at hs
    split at hs <;> cases hs
  obtain ⟨hprev, -, hcarries⟩ := drain_carries hs
  have hsent : s.lastLogIndex ≤ s.sendIndex follower ∨
      s.minActiveSlot ≤ s.sendIndex follower + 1 := by
    obtain habove | habove | habove | ⟨-, habove⟩ := habove
    · exact absurd habove hroom
    · exact .inl habove
    · exact .inr (by omega)
    · exact .inr (by omega)
  refine ⟨contiguous_of_carries hsent hprev hcarries, ?_⟩
  obtain ⟨hcmd, hindex, -⟩ | ⟨batch, hcmd, hne, hindex, hlt, hbatch⟩ := hcarries
  · simp [hcmd, hindex]
  · have hlen := (batchFrom_getElem hbatch).1
    simp only [hcmd, Option.getD_some, hindex, hlen]
    refine ⟨by omega, fun hnil => ?_⟩
    cases hnil
    cases hne

/-- A leader's call is contiguous exactly when the send index is not behind the freed slots. -/
theorem SlotInv.buildsContiguous_iff {now : Nat} {self follower : Fin n} {s : RaftServer n α}
    (h : s.SlotInv) (hl : s.isLeader = true) :
    s.BuildsContiguous now self follower ↔ s.AboveTrim follower := by
  constructor
  · rintro ⟨s', m, hs', hm⟩
    by_contra hbelow
    simp only [AboveTrim, not_or, not_and, Nat.not_le] at hbelow
    obtain ⟨hroom, hlt, hsent, hzero⟩ := hbelow
    cases m with
    | none =>
      have hmin := h.min_le
      have hsilent := drain_silent hs' hl (Nat.not_le.mpr hroom)
      omega
    | some m =>
      obtain ⟨hprev, -, ⟨-, -, hle⟩ | ⟨batch, hcmd, hne, hindex, -, hbatch⟩⟩ := drain_carries hs'
      · omega
      · have hcontig := hm m rfl
        obtain ⟨i, hi, -⟩ := Option.map_eq_some_iff.mp hprev
        have hslot := (getRaftInstance_some hi).1
        have hsend : s.sendIndex follower = 0 := by omega
        have hmin := hzero hsend
        obtain ⟨c, hc⟩ : ∃ c, batch[0]? = some c := by
          cases batch with
          | nil => cases hne
          | cons c cs => exact ⟨c, rfl⟩
        have hfirst := (getRaftInstance_some (hcontig.cmds 0 c (by rw [hcmd]; exact hc))).1
        omega
  · intro habove
    by_cases hroom : kMaxInFlightPerFollower ≤ s.inFlightCount follower
    · refine ⟨s.clampNext follower, none, ?_, fun c hc => by cases hc⟩
      unfold drain
      rw [if_neg (by simp [hl]), if_pos hroom]
    · have hsent : s.sendIndex follower < s.lastLogIndex →
          s.minActiveSlot ≤ s.sendIndex follower ∨ s.sendIndex follower = 0 := by
        intro hlt
        obtain habove | habove | habove | ⟨habove, -⟩ := habove
        · exact absurd habove hroom
        · omega
        · exact .inl habove
        · exact .inr habove
      have hsends : ∃ s' m, s.drain now self follower = some (s', some m) :=
        h.drain_sends hl hroom hsent
      obtain ⟨s', m, hs'⟩ := hsends
      refine ⟨s', some m, hs', fun c hc => ?_⟩
      cases hc
      exact (drain_call habove hs').1

end RaftServer

variable {n : Nat} {α : Type}

theorem slotInv_setServer {s : System n α} {i : Fin n} {r : RaftServer n α}
    (h : ∀ j, (s.server j).SlotInv) (hr : r.SlotInv) (j : Fin n) :
    ((s.setServer i r).server j).SlotInv := by
  by_cases hj : j = i
  · subst hj
    simpa [System.setServer] using hr
  · simpa [System.setServer, hj] using h j

theorem slotInv_step {s s' : System n α} {e : Event n α} (h : ∀ j, (s.server j).SlotInv)
    (hs : s.step e = some s') : ∀ j, (s'.server j).SlotInv := by
  cases e with
  | tick us =>
    cases hs
    exact h
  | requestVote i timeout sig =>
    simp only [System.step] at hs
    split at hs
    · obtain ⟨⟨r, m⟩, hr, hs⟩ := Option.bind_eq_some_iff.mp hs
      cases hs
      exact slotInv_setServer h ((h i).of_sameLog (RaftServer.sameLog_requestVote hr))
    · cases hs
  | deliverVoteRequest v k =>
    obtain ⟨m, -, hs⟩ := Option.bind_eq_some_iff.mp hs
    split at hs
    · cases hs
    · obtain ⟨⟨r, reply⟩, hr, hs⟩ := Option.bind_eq_some_iff.mp hs
      cases hs
      obtain ⟨b, -, hr⟩ := Option.bind_eq_some_iff.mp hr
      cases hr
      exact slotInv_setServer h ((h v).of_sameLog (RaftServer.sameLog_doVote _ _ _ _))
  | deliverVoteReply k =>
    obtain ⟨reply, -, hs⟩ := Option.bind_eq_some_iff.mp hs
    obtain ⟨r, hr, hs⟩ := Option.bind_eq_some_iff.mp hs
    cases hs
    obtain ⟨v, -, -, -, rfl⟩ := RaftServer.feedVote_cases hr
    exact slotInv_setServer h ((h reply.candId).of_sameLog ⟨rfl, rfl, rfl, rfl, rfl⟩)
  | finishVote i =>
    obtain ⟨r, hr, hs⟩ := Option.bind_eq_some_iff.mp hs
    cases hs
    exact slotInv_setServer h ((h i).of_sameLog (RaftServer.sameLog_finishVote hr))
  | start i cmd =>
    obtain ⟨r, hr, hs⟩ := Option.bind_eq_some_iff.mp hs
    cases hs
    exact slotInv_setServer h ((h i).start hr)
  | advanceCommit i =>
    obtain ⟨r, hr, hs⟩ := Option.bind_eq_some_iff.mp hs
    cases hs
    exact slotInv_setServer h ((h i).advanceCommit hr)
  | drain i follower =>
    simp only [System.step] at hs
    split at hs
    · cases hs
    · obtain ⟨⟨r, m⟩, hr, hs⟩ := Option.bind_eq_some_iff.mp hs
      cases hs
      exact slotInv_setServer h ((h i).of_sameLog (RaftServer.sameLog_drain hr))
  | deliverAppend k =>
    obtain ⟨m, -, hs⟩ := Option.bind_eq_some_iff.mp hs
    obtain ⟨⟨r, reply⟩, hr, hs⟩ := Option.bind_eq_some_iff.mp hs
    cases hs
    exact slotInv_setServer h ((h m.follower).onAppendEntries hr)
  | deliverAppendReply k =>
    obtain ⟨reply, -, hs⟩ := Option.bind_eq_some_iff.mp hs
    cases hs
    exact slotInv_setServer h ((h _).of_sameLog (RaftServer.sameLog_onAppendReply _ _ _ _))
  | appendTimeout k =>
    obtain ⟨m, -, hs⟩ := Option.bind_eq_some_iff.mp hs
    cases hs
    exact slotInv_setServer h ((h _).of_sameLog ⟨rfl, rfl, rfl, rfl, rfl⟩)
  | appendError k =>
    obtain ⟨m, -, hs⟩ := Option.bind_eq_some_iff.mp hs
    cases hs
    exact slotInv_setServer h ((h _).of_sameLog ⟨rfl, rfl, rfl, rfl, rfl⟩)
  | pause i =>
    cases hs
    exact slotInv_setServer h ((h i).of_sameLog ⟨rfl, rfl, rfl, rfl, rfl⟩)
  | jetpackRpc i =>
    simp only [System.step] at hs
    split at hs
    · cases hs
    · cases hs
      exact slotInv_setServer h ((h i).of_sameLog ⟨rfl, rfl, rfl, rfl, rfl⟩)
  | beginRecovery i =>
    simp only [System.step] at hs
    split at hs
    · cases hs
      exact slotInv_setServer h ((h i).of_sameLog (RaftServer.sameLog_setIsLeader _ _ _))
    · cases hs

theorem slotInv_init : ({} : RaftServer n α).SlotInv where
  zero := rfl
  minSlot := by
    rw [Nat.zero_sub]
    rfl
  freed i _ := rfl
  held i (hge : 1 ≤ i) (hle : i ≤ 0) := absurd (hge.trans hle) (by decide)
  commit_le := le_refl 0
  min_le := le_max_left 1 0

theorem slotInv_reachable {s : System n α} (h : Reachable System.step {} s) (j : Fin n) :
    (s.server j).SlotInv := by
  have hinv : ∀ j, (s.server j).SlotInv :=
    ReachableWhere.invariant (fun _ _ _ hI _ hstep => slotInv_step hI hstep) h fun _ => slotInv_init
  exact hinv j

/-- In every reachable state, a leader's next call to a follower is contiguous exactly when the send
index for that follower is not behind the freed slots. -/
theorem drain_contiguous_iff {s : System n α} (h : Reachable System.step {} s) (i follower : Fin n)
    (hl : (s.server i).isLeader = true) :
    (s.server i).BuildsContiguous s.now i follower ↔ (s.server i).AboveTrim follower :=
  (slotInv_reachable h i).buildsContiguous_iff hl

theorem drain_contiguous_iff_elected :
    ∃ s : System 3 Unit, Reachable System.step {} s ∧ (s.server 0).isLeader = true ∧
      ((s.server 0).BuildsContiguous s.now 0 1 ↔ (s.server 0).AboveTrim 1) := by
  have hrun : (runWhere System.step (fun _ _ => True) {} (firstElection (n := 3) 0 1)).any
      (fun s => (s.server 0).isLeader) = true := by decide
  obtain ⟨s, hreach, hleader⟩ := exists_reachableWhere hrun
  exact ⟨s, hreach, hleader, drain_contiguous_iff hreach 0 1 hleader⟩

namespace RaftServer

/-- A leader that has appended commands but has had no reply yet: every slot holds an entry of its
term, and each follower is still at the first of them. -/
structure Unreplicated (r : RaftServer n α) : Prop where
  slots : r.SlotInv
  leader : r.isLeader = true
  exec : r.executeIndex = 0
  commit : r.commitIndex = 0
  terms : ∀ i, 0 < i → i ≤ r.lastLogIndex → (r.raftLogs i).term = r.currentTerm
  next : ∀ f, r.nextIndex f = 1
  sent : ∀ f, r.sentIndex f = 0
  inFlight : ∀ f, r.inFlightCount f = 0
  unmatched : ∀ f, r.matchIndex f = 0

theorem Unreplicated.start {r : RaftServer n α} (h : r.Unreplicated) (cmd : α) :
    ∃ r', r.start cmd = some r' ∧ r'.Unreplicated ∧ r'.lastLogIndex = r.lastLogIndex + 1 := by
  have hmin : r.minActiveSlot ≤ r.lastLogIndex + 1 := by
    have hmin := h.slots.min_le
    omega
  have hfits : ∃ r', r.storeBatch r.lastLogIndex [(r.currentTerm, cmd)] = some r' :=
    storeBatch_of_fits hmin
  obtain ⟨r', hr'⟩ := hfits
  have hstart : r.start cmd = some r' := by
    rw [start_eq, if_pos h.leader, hr']
  obtain ⟨rfl, -⟩ := storeBatch_eq hr'
  refine ⟨_, hstart, ?_, rfl⟩
  refine ⟨h.slots.start hstart, h.leader, h.exec, h.commit, ?_, h.next, h.sent, h.inFlight, h.unmatched⟩
  intro i hpos (hle : i ≤ r.lastLogIndex + 1)
  change (Function.update r.raftLogs (r.lastLogIndex + 1) _ i).term = r.currentTerm
  by_cases hi : i = r.lastLogIndex + 1
  · simp [hi]
  · simpa [hi] using h.terms i hpos (by omega)

theorem drain_others {now : Nat} {self follower : Fin n} {r r' : RaftServer n α}
    {m : Option (AppendEntries n α)} (h : r.drain now self follower = some (r', m)) {g : Fin n}
    (hg : g ≠ follower) : r'.nextIndex g = r.nextIndex g ∧ r'.sentIndex g = r.sentIndex g ∧
      r'.inFlightCount g = r.inFlightCount g := by
  obtain ⟨⟨_, _, _, rfl, -⟩, -⟩ := drain_eq h
  exact ⟨Function.update_of_ne hg _ _, Function.update_of_ne hg _ _, Function.update_of_ne hg _ _⟩

theorem sendIndex_first {r : RaftServer n α} {f : Fin n} (hnext : r.nextIndex f = 1)
    (hsent : r.sentIndex f = 0) : r.sendIndex f = 0 := by
  simp [sendIndex, clampNext, rewindSent, hnext, hsent]

/-- The first call to a follower carries the whole log. -/
theorem Unreplicated.drain {r : RaftServer n α} (h : r.Unreplicated) (hlast : 0 < r.lastLogIndex)
    (now : Nat) (self follower : Fin n) :
    ∃ r' m batch, r.drain now self follower = some (r', some m) ∧ m.prevLogIndex = 0 ∧
      m.commitIndex = 0 ∧ m.cmd = some batch ∧ batch.length = r.lastLogIndex := by
  have hsend : r.sendIndex follower = 0 := sendIndex_first (h.next follower) (h.sent follower)
  have hmin : r.minActiveSlot = 1 := by
    rw [h.slots.minSlot, h.exec, Nat.zero_sub]
    rfl
  have hroom : ¬ kMaxInFlightPerFollower ≤ r.inFlightCount follower := by
    rw [h.inFlight]
    decide
  have hsends : ∃ r' m, r.drain now self follower = some (r', some m) :=
    h.slots.drain_sends h.leader hroom fun _ => .inr hsend
  obtain ⟨r', m, hr'⟩ := hsends
  obtain ⟨-, hcommit, ⟨-, -, hle⟩ | ⟨batch, hcmd, -, hprev, -, hbatch⟩⟩ := drain_carries hr'
  · omega
  · refine ⟨r', m, batch, hr', hprev.trans hsend, hcommit.trans h.commit, hcmd, ?_⟩
    rw [(batchFrom_getElem hbatch).1, hsend, hmin]
    rfl

theorem onAppendEntries_first {now : Nat} {r : RaftServer n α} {m : AppendEntries n α}
    {batch : List (Nat × α)} (hmin : r.minActiveSlot = 1) (hterm : r.currentTerm ≤ m.term)
    (hprev : m.prevLogIndex = 0) (hcmd : m.cmd = some batch) (hne : batch.isEmpty = false) :
    r.appendOk m = some true ∧ ∃ r' reply, r.onAppendEntries now m = some (r', reply) ∧
      reply.call = m ∧ reply.ok = true ∧ reply.lastLogIndex = batch.length := by
  have hok : r.appendOk m = some true := by
    simp [appendOk, localPrevTerm, hprev, hterm]
  have hfits : (adoptTerm now m.term (resetTimer now r)).minActiveSlot ≤ 0 + 1 := by
    rw [(sameLog_adoptTerm now m.term (resetTimer now r)).minActiveSlot]
    exact le_of_eq hmin
  have hstore : ∃ q, (adoptTerm now m.term (resetTimer now r)).storeBatch 0 batch = some q :=
    storeBatch_of_fits hfits
  obtain ⟨q, hq⟩ := hstore
  have hq' : q.lastLogIndex = batch.length ∧ q.minActiveSlot = 1 := by
    obtain ⟨rfl, -⟩ := storeBatch_eq hq
    refine ⟨by simp [lastAfter, hne], ?_⟩
    exact (sameLog_adoptTerm now m.term (resetTimer now r)).minActiveSlot.trans hmin
  have hcommit : ∃ q', q.updateCommit m.commitIndex = some q' := by
    unfold updateCommit
    split
    · refine applyLogs_of_fits ?_
      change q.minActiveSlot ≤ q.executeIndex + 1
      omega
    · exact ⟨q, rfl⟩
  obtain ⟨q', hcommit⟩ := hcommit
  have hlast : q'.lastLogIndex = q.lastLogIndex := by
    obtain ⟨-, rfl⟩ | ⟨-, ha⟩ := updateCommit_cases hcommit
    · rfl
    · exact ha.last
  refine ⟨hok, q', ⟨m, true, q'.currentTerm, q'.lastLogIndex⟩, ?_, rfl, rfl, hlast.trans hq'.1⟩
  simp only [onAppendEntries, hok, hprev, hcmd, Option.bind_eq_bind, Option.bind_some,
    Option.getD_some, hq, hcommit]
  rfl

theorem recordAck_frame (now : Nat) (self : Fin n) (reply : AppendReply n α) (r : RaftServer n α) :
    (recordAck now self reply r).matchIndex = r.matchIndex ∧
      r.SameWindows (recordAck now self reply r) ∧
      (recordAck now self reply r).isLeader = r.isLeader ∧
      (recordAck now self reply r).currentTerm = r.currentTerm := by
  obtain ⟨_, heq⟩ := recordAck_eq now self reply r
  rw [heq]
  exact ⟨rfl, ⟨rfl, rfl, rfl⟩, rfl, rfl⟩

theorem onAppendReply_accepted {now : Nat} {self : Fin n} {reply : AppendReply n α}
    {r : RaftServer n α} (hok : reply.ok = true) (hterm : r.currentTerm ≤ reply.call.term)
    (hl : r.isLeader = true) :
    let q := (r.decInFlight reply.call.follower).acceptMatch reply
    let r' := r.onAppendReply now self reply
    r'.matchIndex = q.matchIndex ∧ q.SameWindows r' ∧ r'.isLeader = true ∧
      r'.currentTerm = r.currentTerm := by
  intro q r'
  have hq : q.isLeader = true ∧ q.currentTerm = r.currentTerm := by
    obtain ⟨_, _, heq⟩ := acceptMatch_eq reply (r.decInFlight reply.call.follower)
    change ((r.decInFlight reply.call.follower).acceptMatch reply).isLeader = true ∧
      ((r.decInFlight reply.call.follower).acceptMatch reply).currentTerm = r.currentTerm
    rw [heq]
    exact ⟨hl, rfl⟩
  have hcurrent : ¬ reply.call.term < (r.decInFlight reply.call.follower).currentTerm :=
    Nat.not_lt.mpr hterm
  have hr' : r' = q.recordAck now self reply := by
    change r.onAppendReply now self reply = _
    unfold onAppendReply
    dsimp only
    rw [if_neg (by simp [hok]), if_neg hcurrent, if_neg (by simp [hok]), if_neg (by simp [hok]),
      if_pos hq.1]
  obtain ⟨hmatch, hwindows, hleader, hterm'⟩ := recordAck_frame now self reply q
  rw [hr']
  exact ⟨hmatch, hwindows, hleader.trans hq.1, hterm'.trans hq.2⟩

theorem acceptMatch_first {reply : AppendReply n α} {r : RaftServer n α}
    (hcmd : reply.call.cmd.isSome = true) (hunmatched : r.matchIndex reply.call.follower = 0)
    (hlast : reply.lastLogIndex ≤ r.lastLogIndex) :
    ((r.decInFlight reply.call.follower).acceptMatch reply).matchIndex =
      Function.update r.matchIndex reply.call.follower reply.lastLogIndex := by
  unfold acceptMatch
  rw [if_pos hcmd]
  change Function.update r.matchIndex _ _ = _
  congr 1
  have hcap : ¬ r.lastLogIndex < reply.lastLogIndex := Nat.not_lt.mpr hlast
  change (if r.matchIndex reply.call.follower <
      (if r.lastLogIndex < reply.lastLogIndex then r.lastLogIndex else reply.lastLogIndex) then
    (if r.lastLogIndex < reply.lastLogIndex then r.lastLogIndex else reply.lastLogIndex) else
    r.matchIndex reply.call.follower) = reply.lastLogIndex
  rw [if_neg hcap, hunmatched]
  split <;> omega

/-- A leader of three whose log one follower has in full commits and applies it. -/
theorem SlotInv.commitsAll {r : RaftServer 3 α} (h : r.SlotInv) (hl : r.isLeader = true)
    (hexec : r.executeIndex = 0) (hcommit : r.commitIndex = 0) (hlast : 0 < r.lastLogIndex)
    (hmatched : ((peers (0 : Fin 3)).map r.matchIndex).mergeSort = [0, r.lastLogIndex])
    (hterm : (r.raftLogs r.lastLogIndex).term = r.currentTerm) :
    ∃ r', r.advanceCommit 0 = some r' ∧ r'.executeIndex = r.lastLogIndex ∧
      r'.lastLogIndex = r.lastLogIndex := by
  have hmin : r.minActiveSlot = 1 := by
    rw [h.minSlot, hexec, Nat.zero_sub]
    rfl
  have hslot : r.getRaftInstance r.lastLogIndex = some (r.raftLogs r.lastLogIndex) :=
    getRaftInstance_eq (by omega)
  have hraise : r.raiseCommit r.lastLogIndex = some { r with commitIndex := r.lastLogIndex } := by
    rw [raiseCommit, if_pos (by omega), hslot, Option.map_some, if_pos hterm]
  have hfits : ({ r with commitIndex := r.lastLogIndex } : RaftServer 3 α).minActiveSlot ≤
      r.executeIndex + 1 := by
    change r.minActiveSlot ≤ _
    omega
  obtain ⟨r', hr'⟩ := applyLogs_of_fits hfits
  have happlied := applied_of_applyLogs hr'
  obtain ⟨-, hexec'⟩ := h.applied (le_refl _) happlied
  refine ⟨r', ?_, by rw [hexec', hexec, Nat.zero_max], happlied.last⟩
  have hpending : r.executeIndex < r.lastLogIndex := by omega
  simp only [RaftServer.advanceCommit, hl, if_true, hmatched, Option.bind_eq_bind]
  change (Option.some r.lastLogIndex).bind _ = some r'
  rw [Option.bind_some, if_neg (Nat.lt_irrefl _), hraise, Option.bind_some, if_pos hpending, hr']

/-- A leader that has freed slots while a follower has had no call yet. -/
structure Outruns (r : RaftServer n α) (f : Fin n) : Prop where
  slots : r.SlotInv
  leader : r.isLeader = true
  freed : 1 < r.minActiveSlot
  next : r.nextIndex f = 1
  sent : r.sentIndex f = 0
  inFlight : r.inFlightCount f = 0
  unmatched : r.matchIndex f = 0

theorem Unreplicated.aboveTrim {r : RaftServer n α} (h : r.Unreplicated) (f : Fin n) :
    r.AboveTrim f := by
  have hsend : r.sendIndex f = 0 := sendIndex_first (h.next f) (h.sent f)
  have hmin := h.slots.minSlot
  rw [h.exec, Nat.zero_sub] at hmin
  exact .inr (.inr (.inr ⟨hsend, le_of_eq hmin⟩))

theorem Outruns.not_aboveTrim {r : RaftServer n α} {f : Fin n} (h : r.Outruns f) :
    ¬ r.AboveTrim f := by
  have hsend := sendIndex_first h.next h.sent
  have hmin := h.slots.min_le
  have hfreed := h.freed
  rw [AboveTrim, hsend, h.inFlight, kMaxInFlightPerFollower]
  omega

/-- The first call behind freed slots carries entries of later slots from slot 1 on. -/
theorem Outruns.drain {s : RaftServer n α} {f : Fin n} (h : s.Outruns f) (now : Nat)
    (self : Fin n) : ∃ s' m batch c, s.drain now self f = some (s', some m) ∧ m.prevLogIndex = 0 ∧
      m.cmd = some batch ∧ batch[0]? = some c ∧ s.raftLogs s.minActiveSlot = ⟨c.1, some c.2⟩ ∧
      batch.length ≤ s.lastLogIndex := by
  have hsend : s.sendIndex f = 0 := sendIndex_first h.next h.sent
  have hroom : ¬ kMaxInFlightPerFollower ≤ s.inFlightCount f := by
    rw [h.inFlight]
    decide
  have hmin := h.slots.min_le
  have hfreed := h.freed
  have hsends : ∃ s' m, s.drain now self f = some (s', some m) :=
    h.slots.drain_sends h.leader hroom fun _ => .inr hsend
  obtain ⟨s', m, hs'⟩ := hsends
  obtain ⟨-, -, ⟨-, -, hle⟩ | ⟨batch, hcmd, -, hprev, -, hbatch⟩⟩ := drain_carries hs'
  · omega
  · obtain ⟨hlen, hget⟩ := batchFrom_getElem hbatch
    have hpos : 0 < batch.length := by omega
    have hfirst := hget 0 batch[0] (List.getElem?_eq_getElem hpos)
    have hslot := (getRaftInstance_some hfirst).2
    rw [hsend, Nat.add_zero, Nat.zero_add, max_eq_right (by omega)] at hslot
    exact ⟨s', m, batch, batch[0], hs', hprev.trans hsend, hcmd, List.getElem?_eq_getElem hpos,
      hslot, by omega⟩

/-- A leader of three that replicates a log longer than the lag to its first follower only is left
with a freed slot in front of what it would send the other. -/
theorem Unreplicated.outruns {r f : RaftServer 3 α} (h : r.Unreplicated)
    (hlast : r.lastLogIndex = trimLag + 2) (hf : f.minActiveSlot = 1)
    (hterm : f.currentTerm ≤ r.currentTerm) (now : Nat) :
    ∃ r₁ m f' reply r₂, r.drain now 0 1 = some (r₁, some m) ∧
      f.onAppendEntries now m = some (f', reply) ∧ reply.call = m ∧
      (r₁.onAppendReply now 0 reply).advanceCommit 0 = some r₂ ∧ r₂.Outruns 2 ∧
      r₂.lastLogIndex = r.lastLogIndex := by
  have hpos : 0 < r.lastLogIndex := by omega
  obtain ⟨r₁, m, batch, hr₁, hprev, -, hcmd, hlen⟩ := h.drain hpos now 0 1
  obtain ⟨hsame, hm⟩ := drain_cases hr₁
  obtain ⟨-, -, hto, hmterm, -⟩ := hm m rfl
  have hne : batch.isEmpty = false := by
    cases batch with
    | nil => simp [hlast] at hlen
    | cons c cs => rfl
  have haccept : ∃ f' reply, f.onAppendEntries now m = some (f', reply) ∧ reply.call = m ∧
      reply.ok = true ∧ reply.lastLogIndex = batch.length :=
    (onAppendEntries_first hf (hmterm ▸ hterm) hprev hcmd hne).2
  obtain ⟨f', reply, hf', hcall, hok, hreply⟩ := haccept
  subst hcall
  have hlead₁ : r₁.isLeader = true := hsame.isLeader.trans h.leader
  have hterm₁ : r₁.currentTerm ≤ reply.call.term := by
    rw [hsame.currentTerm, hmterm]
  have hlog₁ := sameLog_drain hr₁
  have hlog : r.SameLog (r₁.onAppendReply now 0 reply) :=
    hlog₁.trans (sameLog_onAppendReply now 0 reply r₁)
  obtain ⟨hmatch, hwindows, hleader, hcurrent⟩ :=
    @onAppendReply_accepted 3 α now 0 reply r₁ hok hterm₁ hlead₁
  generalize hq : r₁.onAppendReply now 0 reply = q at hmatch hwindows hleader hcurrent hlog
  have hsome : reply.call.cmd.isSome = true := by
    rw [hcmd]
    rfl
  rw [acceptMatch_first hsome (by rw [hsame.matchIndex, h.unmatched])
    (by rw [hreply, hlen, hlog₁.lastLogIndex]), hto, hreply, hlen, hsame.matchIndex] at hmatch
  have hsorted : ((peers (0 : Fin 3)).map q.matchIndex).mergeSort = [0, q.lastLogIndex] := by
    have hpeers : peers (0 : Fin 3) = [1, 2] := by decide
    rw [hpeers, hmatch, hlog.lastLogIndex, hlast]
    simp [List.mergeSort, trimLag, h.unmatched]
  have hslots := h.slots.of_sameLog hlog
  have hcommits : ∃ r₂, q.advanceCommit 0 = some r₂ ∧ r₂.executeIndex = q.lastLogIndex ∧
      r₂.lastLogIndex = q.lastLogIndex := by
    refine hslots.commitsAll hleader ?_ ?_ ?_ hsorted ?_
    · rw [hlog.executeIndex, h.exec]
    · rw [hlog.commitIndex, h.commit]
    · rw [hlog.lastLogIndex]
      exact hpos
    · rw [hlog.raftLogs, hlog.lastLogIndex, hcurrent, hsame.currentTerm]
      exact h.terms _ hpos (le_refl _)
  obtain ⟨r₂, hr₂, hexec₂, hlast₂⟩ := hcommits
  have hslots₂ := hslots.advanceCommit hr₂
  have hcontrol₂ := sameControl_advanceCommit hr₂
  have hwindows₂ := sameWindows_advanceCommit hr₂
  have hne₂ : (2 : Fin 3) ≠ 1 := by decide
  obtain ⟨hnext, hsent, hinFlight⟩ := drain_others hr₁ hne₂
  refine ⟨r₁, _, f', reply, r₂, hr₁, hf', rfl, hq ▸ hr₂, ⟨hslots₂, ?_, ?_, ?_, ?_, ?_, ?_⟩,
    hlast₂.trans hlog.lastLogIndex⟩
  · rw [hcontrol₂.isLeader, hleader]
  · rw [hslots₂.minSlot, hexec₂, hlog.lastLogIndex, hlast, trimLag]
    decide
  · rw [hwindows₂.nextIndex, hwindows.nextIndex, ← h.next 2, ← hnext]
    simp [acceptMatch, decInFlight, hsome, hto]
  · rw [hwindows₂.sentIndex, hwindows.sentIndex, ← h.sent 2, ← hsent]
    simp [acceptMatch, decInFlight, hsome]
  · rw [hwindows₂.inFlightCount, hwindows.inFlightCount, ← h.inFlight 2, ← hinFlight]
    simp [acceptMatch, decInFlight, hsome, hto]
  · rw [hcontrol₂.matchIndex, hmatch, Function.update_of_ne hne₂, h.unmatched]

end RaftServer

theorem reachable_starts {s : System 3 Unit} (h : (s.server 0).Unreplicated) (count : Nat) :
    ∃ t, Reachable System.step s t ∧ (t.server 0).Unreplicated ∧
      (t.server 0).lastLogIndex = (s.server 0).lastLogIndex + count ∧
      (t.server 0).currentTerm = (s.server 0).currentTerm ∧ t.server 1 = s.server 1 ∧
      t.appends = s.appends ∧ t.appendReplies = s.appendReplies := by
  induction count with
  | zero => exact ⟨s, .refl, h, rfl, rfl, rfl, rfl, rfl⟩
  | succ count ih =>
    obtain ⟨t, hreach, hfresh, hlast, hterm, hone, happends, hreplies⟩ := ih
    obtain ⟨r, hr, hr', hrlast⟩ := hfresh.start ()
    have hstep : t.step (.start 0 ()) = some (t.setServer 0 r) := by
      rw [System.step, hr]
      rfl
    refine ⟨t.setServer 0 r, hreach.tail ⟨_, trivial, hstep⟩, ?_, ?_, ?_, ?_, happends, hreplies⟩
    · simpa [System.setServer] using hr'
    · simp only [System.setServer, Function.update_self]
      omega
    · simp only [System.setServer, Function.update_self]
      rw [(RaftServer.sameControl_start hr).currentTerm, hterm]
    · simpa [System.setServer] using hone

theorem outruns_steps {t : System 3 α} (h : (t.server 0).Unreplicated)
    (hlast : (t.server 0).lastLogIndex = trimLag + 2) (hmin : (t.server 1).minActiveSlot = 1)
    (hterm : (t.server 1).currentTerm ≤ (t.server 0).currentTerm) (happends : t.appends = [])
    (hreplies : t.appendReplies = []) :
    ∃ m u₁ u₂ u₃ u₄, t.step (.drain 0 1) = some u₁ ∧ u₁.step (.deliverAppend 0) = some u₂ ∧
      u₂.step (.deliverAppendReply 0) = some u₃ ∧ u₃.step (.advanceCommit 0) = some u₄ ∧
      u₁.appends = [m] ∧ m.follower = 1 ∧ (u₄.server 0).Outruns 2 ∧
      (u₄.server 0).lastLogIndex = (t.server 0).lastLogIndex ∧ u₄.server 2 = t.server 2 ∧
      u₄.appends = [m] ∧ u₄.appendReplies.length = 1 := by
  obtain ⟨r₁, m, f', reply, r₂, hr₁, hf', hcall, hr₂, houtruns, hlast₂⟩ :=
    h.outruns hlast hmin hterm t.now
  obtain ⟨-, hfrom, hto, -, -⟩ := (RaftServer.drain_cases hr₁).2 m rfl
  subst hcall
  refine ⟨reply.call, { t.setServer 0 r₁ with appends := [reply.call] },
    { (t.setServer 0 r₁).setServer 1 f' with
      appends := [reply.call], appendReplies := [reply] },
    { ((t.setServer 0 r₁).setServer 1 f').setServer 0 (r₁.onAppendReply t.now 0 reply) with
      appends := [reply.call], appendReplies := [reply] },
    { (((t.setServer 0 r₁).setServer 1 f').setServer 0
        (r₁.onAppendReply t.now 0 reply)).setServer 0 r₂ with
      appends := [reply.call], appendReplies := [reply] }, ?_, ?_, ?_, ?_, rfl, hto, ?_, ?_, ?_, rfl,
    rfl⟩
  · simp only [System.step, hr₁, happends]
    rfl
  · have hserver : (t.setServer 0 r₁).server reply.call.follower = t.server 1 := by
      simp [System.setServer, hto]
    simp only [System.step, List.getElem?_cons_zero, Option.bind_eq_bind, Option.bind_some]
    rw [hserver, System.setServer]
    simp only [hf', Option.bind_some, hto, hreplies]
    rfl
  · simp only [System.step, List.getElem?_cons_zero, Option.bind_eq_bind, Option.bind_some, hfrom]
    rfl
  · simp only [System.step, System.setServer, Function.update_self, hr₂]
    rfl
  · simpa [System.setServer] using houtruns
  · simpa [System.setServer] using hlast₂
  · simp [System.setServer]

/-- Server 0 is elected and appends two entries more than the lag, and server 1 replicates them all
before the first call to server 2 is built: it starts at the second entry, in place of the first. -/
theorem drain_skips_freed_slots :
    ¬ ∀ s : System 3 Unit, Reachable System.step {} s → ∀ i follower,
      (s.server i).isLeader = true → (s.server i).BuildsContiguous s.now i follower := by
  intro hall
  have hrun : (runWhere System.step (fun _ _ => True) {} (firstElection (n := 3) 0 1)).any
      (fun s => (s.server 0).isLeader && decide ((s.server 0).executeIndex = 0 ∧
        (s.server 0).commitIndex = 0 ∧ (s.server 0).lastLogIndex = 0 ∧
        (∀ f, (s.server 0).nextIndex f = 1) ∧ (∀ f, (s.server 0).sentIndex f = 0) ∧
        (∀ f, (s.server 0).inFlightCount f = 0) ∧ (∀ f, (s.server 0).matchIndex f = 0) ∧
        (s.server 1).minActiveSlot = 1 ∧ (s.server 1).currentTerm ≤ (s.server 0).currentTerm ∧
        s.appends = [] ∧ s.appendReplies = [])) = true := by decide
  obtain ⟨s, hreach, hs⟩ := exists_reachableWhere hrun
  simp only [Bool.and_eq_true, decide_eq_true_eq] at hs
  obtain ⟨hleader, hexec, hcommit, hlast, hnext, hsent, hinFlight, hmatch, hmin, hterm, happends,
    hreplies⟩ := hs
  have hfresh : (s.server 0).Unreplicated :=
    ⟨slotInv_reachable hreach 0, hleader, hexec, hcommit, fun i hpos hle => by omega, hnext, hsent,
      hinFlight, hmatch⟩
  obtain ⟨t, ht, hfresh', hlast', hterm', hone, happends', hreplies'⟩ :=
    reachable_starts hfresh (trimLag + 2)
  rw [← hone] at hmin hterm
  rw [← hterm'] at hterm
  rw [hlast, Nat.zero_add] at hlast'
  obtain ⟨m, u₁, u₂, u₃, u₄, hdrain, hdeliver, hreply, hadvance, -, -, houtruns, -⟩ :=
    outruns_steps hfresh' hlast' hmin hterm (happends'.trans happends) (hreplies'.trans hreplies)
  have hu₄ : Reachable System.step {} u₄ :=
    ((((hreach.trans ht).tail ⟨_, trivial, hdrain⟩).tail ⟨_, trivial, hdeliver⟩).tail
      ⟨_, trivial, hreply⟩).tail ⟨_, trivial, hadvance⟩
  have hbuilds := hall u₄ hu₄ 0 2 houtruns.leader
  exact houtruns.not_aboveTrim ((houtruns.slots.buildsContiguous_iff houtruns.leader).mp hbuilds)

end Jetpack.Raft
