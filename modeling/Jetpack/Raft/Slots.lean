import Jetpack.Raft.Control
import Jetpack.Raft.System

/-! What the handlers do to the slots of a log: which they write, which they free, and how the
indices move with them. -/

namespace Jetpack.Raft

namespace RaftServer

variable {n : Nat} {α : Type}

/-- A log after a batch was written behind `index`. -/
def writeBatch (log : Nat → RaftData α) (index : Nat) : List (Nat × α) → Nat → RaftData α
  | [] => log
  | c :: cs => writeBatch (Function.update log (index + 1) ⟨c.1, some c.2⟩) (index + 1) cs

theorem writeBatch_outside {cmds : List (Nat × α)} {log : Nat → RaftData α} {index i : Nat}
    (h : i ≤ index ∨ index + cmds.length < i) : writeBatch log index cmds i = log i := by
  induction cmds generalizing log index with
  | nil => rfl
  | cons c cs ih =>
    have hne : i ≠ index + 1 := by
      simp only [List.length_cons] at h
      omega
    have hrest : i ≤ index + 1 ∨ index + 1 + cs.length < i := by
      simp only [List.length_cons] at h
      omega
    rw [writeBatch, ih hrest, Function.update_of_ne hne]

theorem writeBatch_inside {cmds : List (Nat × α)} {log : Nat → RaftData α} {index k : Nat}
    {c : Nat × α} (h : cmds[k]? = some c) :
    writeBatch log index cmds (index + k + 1) = ⟨c.1, some c.2⟩ := by
  induction cmds generalizing log index k with
  | nil => simp at h
  | cons d cs ih =>
    cases k with
    | zero =>
      have hd : d = c := by simpa using h
      have hlast : index + 0 + 1 ≤ index + 1 := le_refl _
      rw [writeBatch, writeBatch_outside (.inl hlast), hd]
      exact Function.update_self ..
    | succ k =>
      have hk : cs[k]? = some c := by simpa using h
      have hslot : index + (k + 1) + 1 = index + 1 + k + 1 := by omega
      rw [writeBatch, hslot, ih hk]

theorem writeBatch_congr {cmds : List (Nat × α)} {log log' : Nat → RaftData α} {index i : Nat}
    (h : log i = log' i) : writeBatch log index cmds i = writeBatch log' index cmds i := by
  by_cases hout : i ≤ index ∨ index + cmds.length < i
  · rw [writeBatch_outside hout, writeBatch_outside hout, h]
  · have hk : i - index - 1 < cmds.length := by omega
    have hi : i = index + (i - index - 1) + 1 := by omega
    rw [hi, writeBatch_inside (List.getElem?_eq_getElem hk),
      writeBatch_inside (List.getElem?_eq_getElem hk)]

/-- The last slot after a batch was written behind `index`. -/
def lastAfter (last index : Nat) (cmds : List (Nat × α)) : Nat :=
  if cmds.isEmpty then last else index + cmds.length

theorem storeBatch_eq {cmds : List (Nat × α)} {s s' : RaftServer n α} {index : Nat}
    (h : s.storeBatch index cmds = some s') :
    s' = { s with
      lastLogIndex := lastAfter s.lastLogIndex index cmds
      raftLogs := writeBatch s.raftLogs index cmds } ∧
      (cmds.isEmpty = false → s.minActiveSlot ≤ index + 1) := by
  induction cmds generalizing s index with
  | nil =>
    cases h
    exact ⟨rfl, fun hne => by cases hne⟩
  | cons c cs ih =>
    obtain ⟨i, hi, h⟩ := Option.bind_eq_some_iff.mp h
    obtain ⟨rfl, -⟩ := ih h
    have hslot : s.minActiveSlot ≤ index + 1 := by
      by_contra hlt
      simp [getRaftInstance, hlt] at hi
    refine ⟨?_, fun _ => hslot⟩
    cases cs with
    | nil => rfl
    | cons d ds =>
      have hlen : index + 1 + (d :: ds).length = index + (c :: d :: ds).length := by
        simp only [List.length_cons]
        omega
      simp only [lastAfter, writeBatch, hlen]
      rfl

theorem storeBatch_of_fits {cmds : List (Nat × α)} {s : RaftServer n α} {index : Nat}
    (h : s.minActiveSlot ≤ index + 1) : ∃ s', s.storeBatch index cmds = some s' := by
  induction cmds generalizing s index with
  | nil => exact ⟨s, rfl⟩
  | cons c cs ih =>
    have hslot : s.getRaftInstance (index + 1) = some (s.raftLogs (index + 1)) := if_pos (.inl h)
    rw [storeBatch, hslot]
    have hrest : s.minActiveSlot ≤ index + 1 + 1 := by omega
    exact ih hrest

/-- What applying the committed slots does: `executeIndex` moves up to `commitIndex` unless an empty
slot stops it, and the slots that fall behind it by the lag are freed. -/
structure Applied (s s' : RaftServer n α) : Prop where
  last : s'.lastLogIndex = s.lastLogIndex
  commit : s'.commitIndex = s.commitIndex
  exec_le : s.executeIndex ≤ s'.executeIndex
  le_commit : s'.executeIndex ≤ max s.executeIndex s.commitIndex
  stuck : s'.executeIndex < s.commitIndex → (s.raftLogs (s'.executeIndex + 1)).log = none
  minSlot : s'.minActiveSlot = max s.minActiveSlot (s'.executeIndex - trimLag)
  kept : ∀ i, s'.minActiveSlot ≤ i ∨ i < s.minActiveSlot → s'.raftLogs i = s.raftLogs i
  freed : ∀ i, s.minActiveSlot ≤ i → i < s'.minActiveSlot → (s.raftLogs i).log.isSome →
    s'.raftLogs i = {}

theorem applyLoop_eq {fuel : Nat} {s s' : RaftServer n α} (h : applyLoop fuel s = some s') :
    ∃ moved applied, moved ≤ fuel ∧
      s' = { s with executeIndex := s.executeIndex + moved, applied := applied } ∧
      (moved < fuel → (s.raftLogs (s.executeIndex + moved + 1)).log = none) := by
  induction fuel generalizing s with
  | zero =>
    cases h
    exact ⟨0, _, le_refl _, rfl, fun hlt => absurd hlt (Nat.lt_irrefl 0)⟩
  | succ fuel ih =>
    obtain ⟨i, hi, h⟩ := Option.bind_eq_some_iff.mp h
    have hslot : s.raftLogs (s.executeIndex + 1) = i := by
      unfold getRaftInstance at hi
      split at hi
      · exact Option.some.inj hi
      · cases hi
    split at h
    · next cmd hcmd =>
      obtain ⟨moved, applied, hle, rfl, hstuck⟩ := ih h
      have hexec : s.executeIndex + 1 + moved = s.executeIndex + (moved + 1) := by omega
      refine ⟨moved + 1, applied, Nat.succ_le_succ hle, by simp only [hexec], fun hlt => ?_⟩
      have hnone := hstuck (Nat.lt_of_succ_lt_succ hlt)
      rwa [hexec] at hnone
    · next hnone =>
      cases h
      exact ⟨0, _, Nat.zero_le _, rfl, fun _ => by rw [Nat.add_zero, hslot, hnone]⟩

theorem applied_of_applyLogs {s s' : RaftServer n α} (h : applyLogs s = some s') : s.Applied s' := by
  obtain ⟨q, hq, h⟩ := Option.bind_eq_some_iff.mp h
  cases h
  obtain ⟨moved, applied, hle, rfl, hstuck⟩ := applyLoop_eq hq
  constructor
  case last => rfl
  case commit => rfl
  case exec_le => exact Nat.le_add_right _ _
  case le_commit =>
    change s.executeIndex + moved ≤ _
    omega
  case stuck =>
    intro hlt
    change s.executeIndex + moved < s.commitIndex at hlt
    exact hstuck (by omega)
  case minSlot => rfl
  case kept =>
    intro i hi
    have hout : ¬ (s.minActiveSlot ≤ i ∧
        i < max s.minActiveSlot (s.executeIndex + moved - trimLag) ∧
        (s.raftLogs i).log.isSome = true) := by
      rintro ⟨hge, hlt, -⟩
      rcases hi with hi | hi
      · exact absurd hlt (Nat.not_lt.mpr hi)
      · exact absurd hge (Nat.not_le.mpr hi)
    exact if_neg hout
  case freed =>
    intro i hge hlt hsome
    exact if_pos ⟨hge, hlt, hsome⟩

theorem applyLogs_of_fits {s : RaftServer n α} (h : s.minActiveSlot ≤ s.executeIndex + 1) :
    ∃ s', applyLogs s = some s' := by
  have hloop : ∀ fuel (s : RaftServer n α), s.minActiveSlot ≤ s.executeIndex + 1 →
      ∃ s', applyLoop fuel s = some s' := by
    intro fuel
    induction fuel with
    | zero => exact fun s _ => ⟨s, rfl⟩
    | succ fuel ih =>
      intro s hs
      have hslot : s.getRaftInstance (s.executeIndex + 1) =
          some (s.raftLogs (s.executeIndex + 1)) := if_pos (.inl hs)
      simp only [applyLoop, hslot, Option.bind_eq_bind, Option.bind_some]
      split
      · exact ih _ (Nat.le_succ_of_le hs)
      · exact ⟨s, rfl⟩
  obtain ⟨q, hq⟩ := hloop _ s h
  refine ⟨q.removeCmds, ?_⟩
  rw [applyLogs, hq]
  rfl

theorem updateCommit_cases {s s' : RaftServer n α} {index : Nat}
    (h : updateCommit index s = some s') :
    (index ≤ s.commitIndex ∧ s' = s) ∨ (s.commitIndex < index ∧
      ({ s with commitIndex := min index s.lastLogIndex } : RaftServer n α).Applied s') := by
  unfold updateCommit at h
  split at h
  · next hlt => exact .inr ⟨hlt, applied_of_applyLogs h⟩
  · next hle =>
    cases h
    exact .inl ⟨Nat.not_lt.mp hle, rfl⟩

structure SameLog (s s' : RaftServer n α) : Prop where
  raftLogs : s'.raftLogs = s.raftLogs
  minActiveSlot : s'.minActiveSlot = s.minActiveSlot
  lastLogIndex : s'.lastLogIndex = s.lastLogIndex
  commitIndex : s'.commitIndex = s.commitIndex
  executeIndex : s'.executeIndex = s.executeIndex

theorem SameLog.refl (s : RaftServer n α) : s.SameLog s := ⟨rfl, rfl, rfl, rfl, rfl⟩

theorem SameLog.trans {s q s' : RaftServer n α} (h : s.SameLog q) (h' : q.SameLog s') :
    s.SameLog s' :=
  ⟨h'.raftLogs.trans h.raftLogs, h'.minActiveSlot.trans h.minActiveSlot,
    h'.lastLogIndex.trans h.lastLogIndex, h'.commitIndex.trans h.commitIndex,
    h'.executeIndex.trans h.executeIndex⟩

theorem SameLog.logs {s s' : RaftServer n α} (h : s.SameLog s') (j : Nat)
    (hj : s'.minActiveSlot ≤ j) : s.minActiveSlot ≤ j ∧ s'.raftLogs j = s.raftLogs j :=
  ⟨h.minActiveSlot ▸ hj, by rw [h.raftLogs]⟩

theorem sameLog_setIsLeader (now : Nat) (b : Bool) (s : RaftServer n α) :
    s.SameLog (setIsLeader now b s) := by
  unfold setIsLeader
  cases b <;> dsimp only <;> split <;> exact ⟨rfl, rfl, rfl, rfl, rfl⟩

theorem sameLog_adoptTerm (now term : Nat) (s : RaftServer n α) :
    s.SameLog (adoptTerm now term s) := by
  unfold adoptTerm
  split
  · have hterm : s.SameLog { s with currentTerm := term } := ⟨rfl, rfl, rfl, rfl, rfl⟩
    exact hterm.trans (sameLog_setIsLeader now false _)
  · exact .refl s

theorem sameLog_doVote (now : Nat) (s : RaftServer n α) (m : VoteRequest n) (vote : Bool) :
    s.SameLog (doVote now s m vote) := by
  have hraise : s.SameLog (s.raiseTerm m.candTerm) := ⟨rfl, rfl, rfl, rfl, rfl⟩
  cases vote with
  | false => exact hraise
  | true =>
    have hdown := hraise.trans (sameLog_setIsLeader now false _)
    exact hdown.trans ⟨rfl, rfl, rfl, rfl, rfl⟩

theorem sameLog_requestVote {now : Nat} {self : Fin n} {sig : JmSignal} {s s' : RaftServer n α}
    {m : Option (VoteRequest n)} (h : requestVote now self sig s = some (s', m)) :
    s.SameLog s' := by
  obtain ⟨-, rfl⟩ | ⟨_, _, -, -, rfl⟩ := requestVote_eq h
  · exact ⟨rfl, rfl, rfl, rfl, rfl⟩
  · exact ⟨rfl, rfl, rfl, rfl, rfl⟩

theorem sameLog_finishVote {now : Nat} {s s' : RaftServer n α} (h : finishVote now s = some s') :
    s.SameLog s' := by
  have hdrop : s.SameLog { s with voting := none } := ⟨rfl, rfl, rfl, rfl, rfl⟩
  obtain ⟨v, -, rfl | ⟨-, -, rfl⟩ | rfl⟩ := finishVote_eq h
  · exact hdrop
  · obtain ⟨_, _, heq⟩ := markElectionDoneLocked_eq v.electionAfterFailure
      (setIsLeader now true { s with voting := none })
    rw [heq]
    exact (hdrop.trans (sameLog_setIsLeader now true _)).trans ⟨rfl, rfl, rfl, rfl, rfl⟩
  · exact (hdrop.trans (sameLog_setIsLeader now false _)).trans ⟨rfl, rfl, rfl, rfl, rfl⟩

theorem sameLog_onAppendReply (now : Nat) (self : Fin n) (reply : AppendReply n α)
    (s : RaftServer n α) : s.SameLog (onAppendReply now self reply s) := by
  have hdec : s.SameLog (s.decInFlight reply.call.follower) := ⟨rfl, rfl, rfl, rfl, rfl⟩
  obtain heq | ⟨-, -, heq⟩ | ⟨_, _, -, heq⟩ | ⟨-, -, haccept⟩ := onAppendReply_eq now self reply s
  · rw [heq]
    exact hdec
  · rw [heq]
    exact (hdec.trans (sameLog_setIsLeader now false _)).trans ⟨rfl, rfl, rfl, rfl, rfl⟩
  · rw [heq]
    exact ⟨rfl, rfl, rfl, rfl, rfl⟩
  · obtain ⟨_, _, hmatch⟩ := acceptMatch_eq reply (s.decInFlight reply.call.follower)
    obtain ⟨_, hrecord⟩ := recordAck_eq now self reply
      ((s.decInFlight reply.call.follower).acceptMatch reply)
    obtain heq | ⟨-, heq⟩ := haccept
    · rw [heq, hmatch]
      exact ⟨rfl, rfl, rfl, rfl, rfl⟩
    · rw [heq, hrecord, hmatch]
      exact ⟨rfl, rfl, rfl, rfl, rfl⟩

/-- The slots of a server: those behind the freed ones hold commands up to the last one, and
everything committed was executed at once. -/
structure SlotInv (s : RaftServer n α) : Prop where
  zero : s.raftLogs 0 = {}
  minSlot : s.minActiveSlot = max 1 (s.executeIndex - trimLag)
  freed : ∀ i, i < s.minActiveSlot → s.raftLogs i = {}
  held : ∀ i, s.minActiveSlot ≤ i → i ≤ s.lastLogIndex → (s.raftLogs i).log.isSome
  commit_le : s.commitIndex ≤ s.executeIndex
  min_le : s.minActiveSlot ≤ max 1 s.lastLogIndex

theorem SlotInv.of_sameLog {s s' : RaftServer n α} (h : s.SlotInv) (hsame : s.SameLog s') :
    s'.SlotInv := by
  obtain ⟨hlogs, hmin, hlast, hcommit, hexec⟩ := hsame
  constructor
  case zero => rw [hlogs, h.zero]
  case minSlot => rw [hmin, hexec, h.minSlot]
  case freed =>
    rw [hlogs, hmin]
    exact h.freed
  case held =>
    rw [hlogs, hmin, hlast]
    exact h.held
  case commit_le =>
    rw [hcommit, hexec]
    exact h.commit_le
  case min_le =>
    rw [hmin, hlast]
    exact h.min_le

theorem SlotInv.applied {s s' : RaftServer n α} {index : Nat} (h : s.SlotInv)
    (hindex : index ≤ s.lastLogIndex)
    (ha : ({ s with commitIndex := index } : RaftServer n α).Applied s') :
    s'.SlotInv ∧ s'.executeIndex = max s.executeIndex index := by
  have hmin := h.minSlot
  have hexec_le : s.executeIndex ≤ s'.executeIndex := ha.exec_le
  have hle_commit : s'.executeIndex ≤ max s.executeIndex index := ha.le_commit
  have hmin' : s'.minActiveSlot = max s.minActiveSlot (s'.executeIndex - trimLag) := ha.minSlot
  have hlast : s'.lastLogIndex = s.lastLogIndex := ha.last
  have hexec : s'.executeIndex = max s.executeIndex index := by
    by_contra hne
    have hlt : s'.executeIndex < index := by omega
    have hheld := h.held (s'.executeIndex + 1) (by omega) (by omega)
    have hnone : (s.raftLogs (s'.executeIndex + 1)).log = none := ha.stuck hlt
    simp [hnone] at hheld
  refine ⟨?_, hexec⟩
  constructor
  case zero =>
    have hzero : 0 < s.minActiveSlot := by omega
    rw [ha.kept 0 (.inr hzero)]
    exact h.zero
  case minSlot =>
    generalize trimLag = lag at hmin hmin' ⊢
    omega
  case freed =>
    intro i hi
    by_cases hold : i < s.minActiveSlot
    · rw [ha.kept i (.inr hold)]
      exact h.freed i hold
    · have hge : s.minActiveSlot ≤ i := Nat.not_lt.mp hold
      exact ha.freed i hge hi (h.held i hge (by omega))
  case held =>
    intro i hge hle
    rw [ha.kept i (.inl hge)]
    exact h.held i (by omega) (by omega)
  case commit_le =>
    have hcommit : s'.commitIndex = index := ha.commit
    omega
  case min_le =>
    have hmin_le := h.min_le
    omega

theorem getRaftInstance_some {s : RaftServer n α} {id : Nat} {i : RaftData α}
    (h : s.getRaftInstance id = some i) : (s.minActiveSlot ≤ id ∨ id = 0) ∧ s.raftLogs id = i := by
  unfold getRaftInstance at h
  split at h
  · next hslot => exact ⟨hslot, Option.some.inj h⟩
  · cases h

theorem raiseCommit_cases {s s' : RaftServer n α} {index : Nat}
    (h : s.raiseCommit index = some s') : s' = s ∨ (s' = { s with commitIndex := index } ∧
      s.commitIndex < index ∧ s.minActiveSlot ≤ index ∧
      (s.raftLogs index).term = s.currentTerm) := by
  unfold raiseCommit at h
  split at h
  · next hlt =>
    obtain ⟨d, hd, rfl⟩ := Option.map_eq_some_iff.mp h
    obtain ⟨hslot, rfl⟩ := getRaftInstance_some hd
    split
    · next hterm => exact .inr ⟨rfl, hlt, hslot.resolve_right (by omega), hterm⟩
    · exact .inl rfl
  · cases h
    exact .inl rfl

theorem advanceCommit_cases {self : Fin n} {s s' : RaftServer n α}
    (h : s.advanceCommit self = some s') :
    s' = s ∨ ∃ index, (index ≤ s.lastLogIndex ∨ index = s.commitIndex) ∧
      ((index ≤ s.executeIndex ∧ s' = { s with commitIndex := index }) ∨
        (s.executeIndex < index ∧ ({ s with commitIndex := index } : RaftServer n α).Applied s')) := by
  unfold advanceCommit at h
  split at h
  · obtain ⟨matched, -, h⟩ := Option.bind_eq_some_iff.mp h
    obtain ⟨q, hq, h⟩ := Option.bind_eq_some_iff.mp h
    have hraised : ∃ index, (index ≤ s.lastLogIndex ∨ index = s.commitIndex) ∧
        q = { s with commitIndex := index } := by
      obtain rfl | ⟨rfl, -⟩ := raiseCommit_cases hq
      · exact ⟨_, .inr rfl, rfl⟩
      · refine ⟨_, .inl ?_, rfl⟩
        split <;> omega
    obtain ⟨index, hindex, rfl⟩ := hraised
    refine .inr ⟨index, hindex, ?_⟩
    split at h
    · next hlt => exact .inr ⟨hlt, applied_of_applyLogs h⟩
    · next hle =>
      cases h
      exact .inl ⟨Nat.not_lt.mp hle, rfl⟩
  · cases h
    exact .inl rfl

theorem advanceCommit_logs {self : Fin n} {s s' : RaftServer n α}
    (h : s.advanceCommit self = some s') : s'.lastLogIndex = s.lastLogIndex ∧
      ∀ j, s'.minActiveSlot ≤ j → s.minActiveSlot ≤ j ∧ s'.raftLogs j = s.raftLogs j := by
  obtain rfl | ⟨index, -, ⟨-, rfl⟩ | ⟨-, ha⟩⟩ := advanceCommit_cases h
  · exact ⟨rfl, fun j hj => ⟨hj, rfl⟩⟩
  · exact ⟨rfl, fun j hj => ⟨hj, rfl⟩⟩
  · have hmin : s'.minActiveSlot = max s.minActiveSlot (s'.executeIndex - trimLag) := ha.minSlot
    exact ⟨ha.last, fun j hj => ⟨by omega, ha.kept j (.inl hj)⟩⟩

theorem SlotInv.advanceCommit {self : Fin n} {s s' : RaftServer n α} (h : s.SlotInv)
    (hs : s.advanceCommit self = some s') : s'.SlotInv := by
  have hcommit := h.commit_le
  obtain rfl | ⟨index, hindex, ⟨hle, rfl⟩ | ⟨hlt, ha⟩⟩ := advanceCommit_cases hs
  · exact h
  · exact ⟨h.zero, h.minSlot, h.freed, h.held, hle, h.min_le⟩
  · exact (h.applied (by omega) ha).1

theorem SlotInv.storeBatch {s s' : RaftServer n α} {index : Nat} {cmds : List (Nat × α)}
    (h : s.SlotInv) (hindex : index ≤ s.lastLogIndex) (hs : s.storeBatch index cmds = some s') :
    s'.SlotInv := by
  obtain ⟨rfl, hfits⟩ := storeBatch_eq hs
  cases cmds with
  | nil => exact h
  | cons c cs =>
    have hslot : s.minActiveSlot ≤ index + 1 := hfits rfl
    have hpos := h.minSlot
    constructor
    case zero => exact (writeBatch_outside (.inl (Nat.zero_le _))).trans h.zero
    case minSlot => exact h.minSlot
    case freed =>
      intro i (hi : i < s.minActiveSlot)
      exact (writeBatch_outside (.inl (by omega))).trans (h.freed i hi)
    case held =>
      intro i (hge : s.minActiveSlot ≤ i) (hle : i ≤ index + (c :: cs).length)
      change (writeBatch s.raftLogs index (c :: cs) i).log.isSome = true
      by_cases hi : i ≤ index
      · rw [writeBatch_outside (.inl hi)]
        exact h.held i hge (by omega)
      · have hk : i - index - 1 < (c :: cs).length := by omega
        have hslot' : i = index + (i - index - 1) + 1 := by omega
        rw [hslot', writeBatch_inside (List.getElem?_eq_getElem hk)]
        rfl
    case commit_le => exact h.commit_le
    case min_le =>
      change s.minActiveSlot ≤ max 1 (index + (cs.length + 1))
      omega

/-- A leader appends a command of its own as a follower stores a batch of one. -/
theorem start_eq (s : RaftServer n α) (cmd : α) :
    s.start cmd =
      if s.isLeader then s.storeBatch s.lastLogIndex [(s.currentTerm, cmd)] else some s := rfl

theorem SlotInv.start {s s' : RaftServer n α} {cmd : α} (h : s.SlotInv)
    (hs : s.start cmd = some s') : s'.SlotInv := by
  rw [start_eq] at hs
  split at hs
  · exact h.storeBatch (le_refl _) hs
  · cases hs
    exact h

theorem appendOk_cases {s : RaftServer n α} {m : AppendEntries n α} (h : s.appendOk m = some true) :
    s.currentTerm ≤ m.term ∧ m.prevLogIndex ≤ s.lastLogIndex ∧ (m.prevLogIndex = 0 ∨
      (s.minActiveSlot ≤ m.prevLogIndex ∧ (s.raftLogs m.prevLogIndex).term = m.prevLogTerm)) := by
  obtain ⟨prevTerm, hprev, h⟩ := Option.map_eq_some_iff.mp h
  simp only [Bool.and_eq_true, Bool.or_eq_true, decide_eq_true_eq, beq_iff_eq] at h
  obtain ⟨⟨hterm, hindex⟩, hprevTerm⟩ := h
  refine ⟨hterm, hindex, ?_⟩
  by_cases hzero : m.prevLogIndex = 0
  · exact .inl hzero
  · right
    have hpos : 0 < m.prevLogIndex ∧ m.prevLogIndex ≤ s.lastLogIndex := by omega
    obtain ⟨i, hi, hiterm⟩ := Option.map_eq_some_iff.mp ((if_pos hpos).symm.trans hprev)
    unfold getRaftInstance at hi
    split at hi
    · next hslot =>
      cases hi
      exact ⟨hslot.resolve_right hzero, hiterm.trans (hprevTerm.resolve_left hzero)⟩
    · cases hi

/-- A call is refused and changes nothing, or its commands are written behind `prevLogIndex`, where
they end the log, and the commit index is taken over. -/
theorem onAppendEntries_outcome {now : Nat} {s s' : RaftServer n α} {m : AppendEntries n α}
    {reply : AppendReply n α} (h : s.onAppendEntries now m = some (s', reply)) :
    (s.appendOk m = some false ∧ s' = s ∧ reply = ⟨m, false, s.currentTerm, s.lastLogIndex⟩) ∨
      (s.appendOk m = some true ∧ reply = ⟨m, true, s'.currentTerm, s'.lastLogIndex⟩ ∧
        ∃ q q', s.SameLog q ∧ q.storeBatch m.prevLogIndex (m.cmd.getD []) = some q' ∧
          q'.updateCommit m.commitIndex = some s') := by
  obtain ⟨ok, hok, h⟩ := Option.bind_eq_some_iff.mp h
  cases ok with
  | false =>
    cases h
    exact .inl ⟨hok, rfl, rfl⟩
  | true =>
    obtain ⟨q', hq', h⟩ := Option.bind_eq_some_iff.mp h
    obtain ⟨q'', hq'', h⟩ := Option.bind_eq_some_iff.mp h
    cases h
    have htimer : s.SameLog (resetTimer now s) := ⟨rfl, rfl, rfl, rfl, rfl⟩
    exact .inr ⟨hok, rfl, _, q', htimer.trans (sameLog_adoptTerm _ _ _), hq', hq''⟩

structure Accepted (s s' : RaftServer n α) (m : AppendEntries n α) (reply : AppendReply n α) :
    Prop where
  reply : reply = ⟨m, true, m.term, s'.lastLogIndex⟩
  term : s'.currentTerm = m.term
  last : s'.lastLogIndex = lastAfter s.lastLogIndex m.prevLogIndex (m.cmd.getD [])
  logs : ∀ j, s'.minActiveSlot ≤ j → s.minActiveSlot ≤ j ∧
    s'.raftLogs j = writeBatch s.raftLogs m.prevLogIndex (m.cmd.getD []) j
  commit : (s'.commitIndex = s.commitIndex ∧ s'.executeIndex = s.executeIndex) ∨
    (s.commitIndex < m.commitIndex ∧ s'.commitIndex = min m.commitIndex s'.lastLogIndex ∧
      s'.executeIndex ≤ max s.executeIndex s'.commitIndex)

theorem accepted_of_ok {now : Nat} {s s' : RaftServer n α} {m : AppendEntries n α}
    {reply : AppendReply n α} (hok : s.appendOk m = some true)
    (h : s.onAppendEntries now m = some (s', reply)) : Accepted s s' m reply := by
  have hle := (appendOk_cases hok).1
  obtain ⟨ok, hok', h⟩ := Option.bind_eq_some_iff.mp h
  rw [hok] at hok'
  cases hok'
  obtain ⟨q, hq, h⟩ := Option.bind_eq_some_iff.mp h
  obtain ⟨q', hq', h⟩ := Option.bind_eq_some_iff.mp h
  cases h
  have htimer : s.SameLog (resetTimer now s) := ⟨rfl, rfl, rfl, rfl, rfl⟩
  have hlog := htimer.trans (sameLog_adoptTerm now m.term (resetTimer now s))
  have hterm : (adoptTerm now m.term (resetTimer now s)).currentTerm =
      m.term := by
    unfold adoptTerm
    split
    · simp
    · next hge => exact Nat.le_antisymm hle (Nat.not_lt.mp hge)
  have hterm' : s'.currentTerm = m.term := by
    rw [(sameControl_updateCommit hq').currentTerm,
      (sameControl_storeBatch hq).currentTerm, hterm]
  generalize adoptTerm now m.term (resetTimer now s) = p at hq hlog
  obtain ⟨hq, -⟩ := storeBatch_eq hq
  obtain ⟨hindex, hs'⟩ | ⟨hindex, ha⟩ := updateCommit_cases hq'
  · subst hs'
    constructor
    case reply => rw [hterm']
    case term => exact hterm'
    case last => rw [hq, ← hlog.lastLogIndex]
    case logs =>
      intro j hj
      rw [hq] at hj ⊢
      exact ⟨hlog.minActiveSlot ▸ hj, by rw [← hlog.raftLogs]⟩
    case commit =>
      left
      rw [hq]
      exact ⟨hlog.commitIndex, hlog.executeIndex⟩
  · have hlast : s'.lastLogIndex = q.lastLogIndex := ha.last
    constructor
    case reply => rw [hterm']
    case term => exact hterm'
    case last => rw [hlast, hq, ← hlog.lastLogIndex]
    case logs =>
      intro j hj
      have hkept : s'.raftLogs j = q.raftLogs j := ha.kept j (.inl hj)
      have hmin : s'.minActiveSlot = max q.minActiveSlot (s'.executeIndex - trimLag) := ha.minSlot
      have hqmin : q.minActiveSlot = s.minActiveSlot := by rw [hq]; exact hlog.minActiveSlot
      refine ⟨by omega, ?_⟩
      rw [hkept, hq, ← hlog.raftLogs]
    case commit =>
      have hcommit : s'.commitIndex = min m.commitIndex q.lastLogIndex := ha.commit
      have hexec : s'.executeIndex ≤ max q.executeIndex (min m.commitIndex q.lastLogIndex) :=
        ha.le_commit
      have hqcommit : q.commitIndex = s.commitIndex := by rw [hq]; exact hlog.commitIndex
      have hqexec : q.executeIndex = s.executeIndex := by rw [hq]; exact hlog.executeIndex
      right
      rw [hlast, hcommit, ← hqexec]
      exact ⟨hqcommit ▸ hindex, rfl, hexec⟩

theorem SlotInv.onAppendEntries {now : Nat} {s s' : RaftServer n α} {m : AppendEntries n α}
    {reply : AppendReply n α} (h : s.SlotInv) (hs : s.onAppendEntries now m = some (s', reply)) :
    s'.SlotInv := by
  obtain ⟨-, rfl, -⟩ | ⟨hok, -, q, q', hsame, hstore, hcommit⟩ := onAppendEntries_outcome hs
  · exact h
  · have hindex : m.prevLogIndex ≤ q.lastLogIndex := by
      rw [hsame.lastLogIndex]
      exact (appendOk_cases hok).2.1
    have hstored := (h.of_sameLog hsame).storeBatch hindex hstore
    obtain ⟨-, rfl⟩ | ⟨-, ha⟩ := updateCommit_cases hcommit
    · exact hstored
    · exact (hstored.applied (Nat.min_le_right _ _) ha).1

/-- The slot behind which the next call to a follower starts. -/
def sendIndex (s : RaftServer n α) (follower : Fin n) : Nat :=
  ((s.clampNext follower).rewindSent follower).sentIndex follower

theorem sameLog_drain {now : Nat} {self follower : Fin n} {s s' : RaftServer n α}
    {m : Option (AppendEntries n α)} (h : s.drain now self follower = some (s', m)) :
    s.SameLog s' := by
  obtain ⟨⟨_, _, _, rfl, -⟩, -⟩ := drain_eq h
  exact ⟨rfl, rfl, rfl, rfl, rfl⟩

structure SameWindows (s s' : RaftServer n α) : Prop where
  nextIndex : s'.nextIndex = s.nextIndex
  sentIndex : s'.sentIndex = s.sentIndex
  inFlightCount : s'.inFlightCount = s.inFlightCount

theorem sameWindows_applyLogs {s s' : RaftServer n α} (h : applyLogs s = some s') :
    s.SameWindows s' := by
  obtain ⟨q, hq, h⟩ := Option.bind_eq_some_iff.mp h
  cases h
  obtain ⟨moved, applied, -, rfl, -⟩ := applyLoop_eq hq
  exact ⟨rfl, rfl, rfl⟩

theorem sameWindows_start {s s' : RaftServer n α} {cmd : α} (h : s.start cmd = some s') :
    s.SameWindows s' := by
  rw [start_eq] at h
  split at h
  · obtain ⟨rfl, -⟩ := storeBatch_eq h
    exact ⟨rfl, rfl, rfl⟩
  · cases h
    exact ⟨rfl, rfl, rfl⟩

theorem sameWindows_advanceCommit {self : Fin n} {s s' : RaftServer n α}
    (h : s.advanceCommit self = some s') : s.SameWindows s' := by
  unfold advanceCommit at h
  split at h
  · obtain ⟨matched, -, h⟩ := Option.bind_eq_some_iff.mp h
    obtain ⟨q, hq, h⟩ := Option.bind_eq_some_iff.mp h
    have hraised : s.SameWindows q := by
      obtain rfl | ⟨rfl, -⟩ := raiseCommit_cases hq <;> exact ⟨rfl, rfl, rfl⟩
    split at h
    · have happlied := sameWindows_applyLogs h
      exact ⟨happlied.nextIndex.trans hraised.nextIndex,
        happlied.sentIndex.trans hraised.sentIndex,
        happlied.inFlightCount.trans hraised.inFlightCount⟩
    · cases h
      exact hraised
  · cases h
    exact ⟨rfl, rfl, rfl⟩

end RaftServer

end Jetpack.Raft
