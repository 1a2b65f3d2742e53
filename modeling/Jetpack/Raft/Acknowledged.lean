import Jetpack.Raft.Replication

/-! What a follower acknowledged stays in its log, in every run in which no accepted batch ends below
it. A batch replaces the end of the log by its own, also when the log already goes further. -/

namespace Jetpack.Raft

open Transition

variable {n : Nat} {α : Type}

namespace Replication

/-- An accepted batch ends neither below the commit index of its follower nor below what the follower
acknowledged, and a heartbeat is accepted only by a follower whose entries behind `prevLogIndex` are
the leader's. -/
def CallKeeps (ldr : Fin n) (r : Replication n α) (m : AppendEntries n α) : Prop :=
  match m.cmd with
  | some batch => (r.system.server m.follower).commitIndex ≤ m.prevLogIndex + batch.length ∧
      ∀ a ∈ r.acked m.follower, a.1 ≤ m.prevLogIndex + batch.length
  | none => ∀ j ∈ Finset.Ioc m.prevLogIndex (r.system.server m.follower).lastLogIndex,
      j ≤ (r.system.server ldr).lastLogIndex ∧ r.history m.follower j = r.history ldr j

def KeepsAcked (ldr : Fin n) (r : Replication n α) : Event n α → Prop
  | .deliverAppend k => ∀ m ∈ r.system.appends[k]?,
      (r.system.server m.follower).appendOk m = some true → r.CallKeeps ldr m
  | _ => True

instance [DecidableEq α] (ldr : Fin n) (r : Replication n α) (m : AppendEntries n α) :
    Decidable (r.CallKeeps ldr m) :=
  match h : m.cmd with
  | some batch => decidable_of_iff
      ((r.system.server m.follower).commitIndex ≤ m.prevLogIndex + batch.length ∧
        ∀ a ∈ r.acked m.follower, a.1 ≤ m.prevLogIndex + batch.length) (by simp [CallKeeps, h])
  | none => decidable_of_iff
      (∀ j ∈ Finset.Ioc m.prevLogIndex (r.system.server m.follower).lastLogIndex,
        j ≤ (r.system.server ldr).lastLogIndex ∧ r.history m.follower j = r.history ldr j)
      (by simp [CallKeeps, h])

instance [DecidableEq α] (ldr : Fin n) (r : Replication n α) (e : Event n α) :
    Decidable (r.KeepsAcked ldr e) :=
  match e with
  | .deliverAppend k => inferInstanceAs (Decidable (∀ m ∈ r.system.appends[k]?, _ → _))
  | .tick _ | .requestVote _ _ _ | .deliverVoteRequest _ _ | .deliverVoteReply _ | .finishVote _
  | .start _ _ | .advanceCommit _ | .drain _ _ | .deliverAppendReply _ | .appendTimeout _
  | .appendError _ | .pause _ | .jetpackRpc _ | .beginRecovery _ => isTrue trivial

/-- What a follower acknowledged is a prefix of its log and the leader's, and its indices are in
order. -/
structure AckInv (ldr : Fin n) (r : Replication n α) : Prop where
  base : r.Inv ldr
  acked : ∀ f, f ≠ ldr → ∀ a ∈ r.acked f, r.Stores ldr f a.1 ∧ r.history f a.1 = a.2
  ordered : ∀ f, f ≠ ldr → (r.system.server f).executeIndex ≤ (r.system.server f).commitIndex ∧
    (r.system.server f).commitIndex ≤ (r.system.server f).lastLogIndex

theorem ordered_of_accepted {s s' : RaftServer n α} {m : AppendEntries n α}
    {reply : AppendReply n α} (ha : s.Accepted s' m reply) (hexec : s.executeIndex ≤ s.commitIndex)
    (hcommit : s.commitIndex ≤ s'.lastLogIndex) :
    s'.executeIndex ≤ s'.commitIndex ∧ s'.commitIndex ≤ s'.lastLogIndex := by
  obtain ⟨hsame, hexec'⟩ | ⟨hlt, hnew, hexec'⟩ := ha.commit
  · omega
  · omega

theorem AckInv.quiet {ldr : Fin n} {r r' : Replication n α} (h : r.AckInv ldr)
    (hbase : r'.Inv ldr) (hquiet : Quiet ldr r r') : r'.AckInv ldr := by
  refine ⟨hbase, fun f hf a ha => ?_, fun f hf => ?_⟩
  · rw [hquiet.acked] at ha
    obtain ⟨hstores, hentry⟩ := h.acked f hf a ha
    exact ⟨hstores.quiet hquiet hf, by rw [hquiet.histories f hf, hentry]⟩
  · rw [hquiet.followers f hf]
    exact h.ordered f hf

theorem AckInv.refuse {ldr : Fin n} {r r' : Replication n α} (h : r.AckInv ldr)
    (hbase : r'.Inv ldr) (hserver : r'.system.server = r.system.server)
    (hhistory : r'.history = r.history) (hacked : r'.acked = r.acked) : r'.AckInv ldr := by
  refine ⟨hbase, fun f hf a ha => ?_, fun f hf => ?_⟩
  · rw [hacked] at ha
    obtain ⟨hstores, hentry⟩ := h.acked f hf a ha
    refine ⟨?_, by rw [hhistory, hentry]⟩
    rw [Stores, hserver, hhistory]
    exact hstores
  · rw [hserver]
    exact h.ordered f hf

/-- The log of a follower after a call that keeps what it acknowledged agrees with the leader's up to
its end, which is not below what was acknowledged or committed. -/
theorem AckInv.accepted_prefix {ldr : Fin n} {r : Replication n α} (h : r.AckInv ldr) {k : Nat}
    {m : AppendEntries n α} {q : RaftServer n α} {reply : AppendReply n α}
    (hk : r.system.appends[k]? = some m)
    (hok : (r.system.server m.follower).appendOk m = some true)
    (ha : (r.system.server m.follower).Accepted q m reply)
    (hkeeps : r.KeepsAcked ldr (.deliverAppend k)) :
    (r.system.server m.follower).commitIndex ≤ q.lastLogIndex ∧
      (∀ a ∈ r.acked m.follower, a.1 ≤ q.lastLogIndex) ∧
      q.lastLogIndex ≤ (r.system.server ldr).lastLogIndex ∧ ∀ j, 0 < j → j ≤ q.lastLogIndex →
        RaftServer.writeBatch (r.history m.follower) m.prevLogIndex (m.cmd.getD []) j =
          r.history ldr j := by
  have hm := h.base.calls m (List.mem_of_getElem? hk)
  have hend := hm.last_le
  have hkeep : r.CallKeeps ldr m := hkeeps m hk hok
  unfold CallKeeps at hkeep
  cases hcmd : m.cmd with
  | some batch =>
    have hlast : q.lastLogIndex = m.prevLogIndex + (m.cmd.getD []).length := by
      rw [ha.last, hm.lastAfter_eq (by rw [hcmd]; rfl)]
    rw [hcmd] at hkeep hlast hend
    refine ⟨hlast ▸ hkeep.1, hlast ▸ hkeep.2, hlast ▸ hend, fun j hpos hj => ?_⟩
    have hwritten := h.base.written hm hok j hpos (by rw [hcmd]; omega)
    rwa [hcmd] at hwritten
  | none =>
    have hlast : q.lastLogIndex = (r.system.server m.follower).lastLogIndex := by
      rw [ha.last, hcmd]
      rfl
    rw [hcmd] at hkeep hend
    rw [hlast]
    have hsame : ∀ j, 0 < j → j ≤ (r.system.server m.follower).lastLogIndex →
        j ≤ (r.system.server ldr).lastLogIndex ∧ r.history m.follower j = r.history ldr j := by
      intro j hpos hj
      by_cases hprev : j ≤ m.prevLogIndex
      · exact ⟨hprev.trans hend, h.base.prefix_of_ok hm hok j hpos hprev⟩
      · exact hkeep j (Finset.mem_Ioc.mpr ⟨Nat.not_le.mp hprev, hj⟩)
    refine ⟨(h.ordered _ hm.other).2, fun a ha => (h.acked _ hm.other a ha).1.2.1, ?_,
      fun j hpos hj => (hsame j hpos hj).2⟩
    by_cases hzero : (r.system.server m.follower).lastLogIndex = 0
    · omega
    · exact (hsame _ (Nat.pos_of_ne_zero hzero) (le_refl _)).1

theorem AckInv.accept {ldr : Fin n} {r : Replication n α} (h : r.AckInv ldr) {k : Nat}
    {m : AppendEntries n α} {q : RaftServer n α} {reply : AppendReply n α}
    (hk : r.system.appends[k]? = some m)
    (hok : (r.system.server m.follower).appendOk m = some true)
    (ha : (r.system.server m.follower).Accepted q m reply)
    (hkeeps : r.KeepsAcked ldr (.deliverAppend k)) :
    (r.received k m { r.system.setServer m.follower q with
      appendReplies := r.system.appendReplies ++ [reply] }).AckInv ldr := by
  have hm := h.base.calls m (List.mem_of_getElem? hk)
  have hbase := h.base.accept hk hok ha
  obtain ⟨hcommit, hacked, hlast, hshared⟩ := h.accepted_prefix hk hok ha hkeeps
  rw [received_of_ok _ hok] at hbase ⊢
  have hself : (r.system.setServer m.follower q).server m.follower = q := Function.update_self ..
  have hother : ∀ i, i ≠ m.follower →
      (r.system.setServer m.follower q).server i = r.system.server i :=
    fun i hi => Function.update_of_ne hi _ _
  refine ⟨hbase, fun f hf a hmem => ?_, fun f hf => ?_⟩
  · by_cases hfollower : f = m.follower
    · subst hfollower
      simp only [Stores, hself, hother ldr hf.symm, Function.update_self,
        Function.update_of_ne hf.symm] at hmem ⊢
      rcases List.mem_cons.mp hmem with rfl | hold
      · exact ⟨⟨hlast, le_refl _, hshared⟩, rfl⟩
      · have hle := hacked a hold
        refine ⟨⟨hle.trans hlast, hle, fun j hpos hj => hshared j hpos (hj.trans hle)⟩, ?_⟩
        obtain ⟨⟨-, -, hsame⟩, hentry⟩ := h.acked _ hf a hold
        by_cases hzero : a.1 = 0
        · rw [RaftServer.writeBatch_outside (.inl (by omega)), hentry]
        · have hpos := Nat.pos_of_ne_zero hzero
          rw [hshared a.1 hpos hle, ← hsame a.1 hpos (le_refl _), hentry]
    · simp only [Stores, hother f hfollower, hother ldr hm.other.symm,
        Function.update_of_ne hfollower, Function.update_of_ne hm.other.symm] at hmem ⊢
      exact h.acked f hf a hmem
  · by_cases hfollower : f = m.follower
    · subst hfollower
      simp only [hself]
      exact ordered_of_accepted ha (h.ordered _ hf).1 hcommit
    · simp only [hother f hfollower]
      exact h.ordered f hf

theorem ackInv_step {ldr : Fin n} {r r' : Replication n α} {e : Event n α} (h : r.AckInv ldr)
    (hsends : r.SendsAboveTrim e) (hkeeps : r.KeepsAcked ldr e) (hs : r.step ldr e = some r') :
    r'.AckInv ldr := by
  have hbase := inv_step h.base hsends hs
  obtain ⟨-, hquiet⟩ | ⟨k, m, q, reply, rfl, hk, hq, rfl⟩ := step_cases h.base hs
  · exact h.quiet hbase hquiet
  · by_cases hok : (r.system.server m.follower).appendOk m = some true
    · exact h.accept hk hok (RaftServer.accepted_of_ok hok hq) hkeeps
    · obtain ⟨-, rfl, -⟩ | ⟨hok', -⟩ := RaftServer.onAppendEntries_outcome hq
      · refine h.refuse hbase ?_ ?_ ?_ <;> simp [received_of_refused _ hok, System.setServer]
      · exact absurd hok' hok

/-- Calls are built above the freed slots, and accepted calls keep what was acknowledged. -/
def SafeStep (ldr : Fin n) (r : Replication n α) (e : Event n α) : Prop :=
  r.SendsAboveTrim e ∧ r.KeepsAcked ldr e

instance [DecidableEq α] (ldr : Fin n) (r : Replication n α) (e : Event n α) :
    Decidable (SafeStep ldr r e) := inferInstanceAs (Decidable (_ ∧ _))

/-- Calls of one term of a leader may be delivered in any order and again. Where every step is a safe
one, each index a follower acknowledged stays in its log with the entry it had, and its indices stay in
order. -/
theorem acknowledged_kept {ldr : Fin n} {r₀ r : Replication n α} (hinit : r₀.Elected ldr)
    (hordered : ∀ f, f ≠ ldr →
      (r₀.system.server f).executeIndex ≤ (r₀.system.server f).commitIndex ∧
        (r₀.system.server f).commitIndex ≤ (r₀.system.server f).lastLogIndex)
    (h : ReachableWhere (step ldr) (SafeStep ldr) r₀ r) (f : Fin n) (hf : f ≠ ldr) :
    (∀ a ∈ r.acked f, a.1 ≤ (r.system.server f).lastLogIndex ∧ r.history f a.1 = a.2 ∧
      ((r.system.server f).minActiveSlot ≤ a.1 → (r.system.server f).raftLogs a.1 = a.2)) ∧
      (r.system.server f).executeIndex ≤ (r.system.server f).commitIndex ∧
      (r.system.server f).commitIndex ≤ (r.system.server f).lastLogIndex := by
  have hinv₀ : r₀.AckInv ldr := by
    refine ⟨hinit.inv, fun f _ a ha => ?_, hordered⟩
    rw [hinit.acked] at ha
    cases ha
  have hinv : r.AckInv ldr :=
    h.invariant (fun _ _ _ hI hok hs => ackInv_step hI hok.1 hok.2 hs) hinv₀
  refine ⟨fun a ha => ?_, hinv.ordered f hf⟩
  obtain ⟨⟨-, hle, -⟩, hentry⟩ := hinv.acked f hf a ha
  exact ⟨hle, hentry, fun hslot => (hinv.base.recorded f a.1 hslot).trans hentry⟩

def twoCalls (ldr follower : Fin n) : List (Event n Nat) :=
  [.start ldr 10, .drain ldr follower, .start ldr 20, .drain ldr follower, .deliverAppend 0,
   .deliverAppend 1]

theorem acknowledged_kept_twoCalls :
    ∃ r : Replication 2 Nat, ReachableWhere (step 0) (SafeStep 0) (firstTerm 0) r ∧
      (r.acked 1).length = 2 ∧
      (∀ a ∈ r.acked 1, a.1 ≤ (r.system.server 1).lastLogIndex ∧ r.history 1 a.1 = a.2 ∧
        ((r.system.server 1).minActiveSlot ≤ a.1 → (r.system.server 1).raftLogs a.1 = a.2)) ∧
      (r.system.server 1).executeIndex ≤ (r.system.server 1).commitIndex ∧
      (r.system.server 1).commitIndex ≤ (r.system.server 1).lastLogIndex := by
  have hrun : (runWhere (step 0) (SafeStep 0) (firstTerm 0) (twoCalls (n := 2) 0 1)).any
      (fun r => (r.acked 1).length == 2) = true := by decide
  obtain ⟨r, hreach, hacked⟩ := exists_reachableWhere hrun
  refine ⟨r, hreach, by simpa using hacked,
    acknowledged_kept (firstTerm_elected 0) (fun f hf => ?_) hreach 1 (by decide)⟩
  simp [firstTerm, hf]

/-- The first call is delivered once more, and cuts off the entry of the second. -/
theorem repeated_call_cuts_acknowledged :
    ¬ ∀ r₀ r : Replication 2 Nat, r₀.Elected 0 →
      (∀ f, f ≠ 0 → (r₀.system.server f).executeIndex ≤ (r₀.system.server f).commitIndex ∧
        (r₀.system.server f).commitIndex ≤ (r₀.system.server f).lastLogIndex) →
      Reachable (step 0) r₀ r → ∀ f, f ≠ 0 → ∀ a ∈ r.acked f,
        a.1 ≤ (r.system.server f).lastLogIndex := by
  intro hkept
  have hrun : (runWhere (step 0) (fun _ _ => True) (firstTerm 0)
      (twoCalls (n := 2) 0 1 ++ [.deliverAppend 0])).any
      (fun r => (r.acked 1).any fun a => (r.system.server 1).lastLogIndex < a.1) = true := by decide
  obtain ⟨r, hreach, hcut⟩ := exists_reachableWhere hrun
  obtain ⟨a, ha, hlt⟩ := List.any_eq_true.mp hcut
  have hle := hkept _ r (firstTerm_elected 0) (fun f hf => by simp [firstTerm, hf]) hreach 1
    (by decide) a ha
  exact absurd hle (Nat.not_le.mpr (by simpa using hlt))

end Replication

end Jetpack.Raft
