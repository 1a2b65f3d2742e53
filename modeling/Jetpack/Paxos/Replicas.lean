import Jetpack.Paxos.Partition

/-! What the replicas of a partition execute. -/

namespace Jetpack.Paxos

open QuorumVoting Transition

variable {n : Nat} {γ : Type}

namespace Partition

/-- The coordinator of a slot has called its commit callback. -/
def CommittedSlot (r : Partition n γ) (slot : Nat) : Prop :=
  ∃ c, r.coordinators[slot - 1]? = some c ∧ c.committed = true

theorem Inv.decided_log {r : Partition n γ} (h : r.Inv) {i : Fin n} {c : Nat × γ}
    (hc : c ∈ (r.replica i).decided) :
    1 ≤ c.1 ∧ r.CommittedSlot c.1 ∧ r.log[c.1 - 1]? = some c := by
  obtain ⟨p, b, -, hp⟩ := h.decided i c hc
  obtain ⟨k, d, hslot, hd, hcommitted, hcmd⟩ := h.carries _ (List.mem_of_getElem? hp)
  have hk : c.1 - 1 = k := by omega
  refine ⟨by omega, ⟨d, hk ▸ hd, hcommitted⟩, ?_⟩
  unfold log
  rw [hk, List.getElem?_map, hd, Option.map_some, (h.coordinator k d hd).1, hcmd, ← hslot]

/-- What a replica executes is a prefix of the commands in the order of their slots. -/
theorem Inv.calls_prefix {r : Partition n γ} (h : r.Inv) (i : Fin n) :
    (r.replica i).calls <+: r.log := by
  have horder := (h.server i).order
  refine List.prefix_iff_getElem?.mpr fun k hk => ?_
  have hslot : (r.replica i).calls[k].1 = k + 1 := by
    have hget : ((r.replica i).calls.map Prod.fst)[k]? = some (r.replica i).calls[k].1 := by
      rw [List.getElem?_map, List.getElem?_eq_getElem hk, Option.map_some]
    rw [horder] at hget
    obtain ⟨hlt, hval⟩ := List.getElem?_eq_some_iff.mp hget
    rw [List.getElem_range'] at hval
    omega
  have hdecided := (h.server i).decided _ (List.getElem_mem hk)
  have hlog := (h.decided_log hdecided).2.2
  rw [hslot] at hlog
  exact hlog

/-- A majority has accepted what was committed. -/
theorem Inv.accepted_majority {r : Partition n γ} (h : r.Inv) {slot : Nat}
    (hc : r.CommittedSlot slot) : ∃ Q, (majority (Fin n)).IsQuorum Q ∧
      ∀ v ∈ Q, (slot - 1, v) ∈ r.accepted := by
  obtain ⟨c, hc, hcommitted⟩ := hc
  obtain ⟨-, -, hquorum, -, -, hyes⟩ := h.coordinator _ c hc
  have hfull : c.event.quorum ≤ c.event.nVotedYes := of_decide_eq_true (hyes hcommitted)
  have hvotes := h.votes _ c hc
  let voters := (r.accepted.filter fun a => a.1 == slot - 1).map Prod.snd
  have hnodup : voters.Nodup := by
    refine List.Nodup.map_on (fun a ha b hb hab => ?_) (h.once.filter _)
    have hfst := (List.mem_filter.mp ha).2
    have hfst' := (List.mem_filter.mp hb).2
    rw [beq_iff_eq] at hfst hfst'
    exact Prod.ext (hfst.trans hfst'.symm) hab
  refine ⟨voters.toFinset, ?_, fun v hv => ?_⟩
  · change Fintype.card (Fin n) < 2 * voters.toFinset.card
    rw [List.toFinset_card_of_nodup hnodup, List.length_map, ← List.countP_eq_length_filter,
      Fintype.card_fin]
    omega
  · obtain ⟨a, ha, rfl⟩ := List.mem_map.mp (List.mem_toFinset.mp hv)
    obtain ⟨hmem, hslot⟩ := List.mem_filter.mp ha
    rw [beq_iff_eq] at hslot
    rw [← hslot]
    exact hmem

/-- All replicas execute prefixes of one sequence of commands, the one in which the leader took them;
and a command is reported as committed, or executed anywhere, only when a majority has accepted it. -/
theorem replicas_agree {r : Partition n γ} (h : ReachableWhere Partition.step Allowed {} r) :
    (∀ i, (r.replica i).calls <+: r.log) ∧
      (∀ i, ∀ c ∈ (r.replica i).calls, r.CommittedSlot c.1) ∧
      ∀ slot, r.CommittedSlot slot → ∃ Q, (majority (Fin n)).IsQuorum Q ∧
        ∀ v ∈ Q, (slot - 1, v) ∈ r.accepted := by
  have hinv := inv_of_reachable (fun _ _ => id) h
  refine ⟨hinv.calls_prefix, fun i c hc => ?_, fun slot => hinv.accepted_majority⟩
  exact (hinv.decided_log ((hinv.server i).decided c hc)).2.1

/-- The commands 10 and 20 are submitted; replicas 0 and 1 accept both, and replica 2 nothing. -/
def twoCommands : List (PartitionEvent 3 Nat) :=
  [.submit 10, .submit 20, .deliver 0, .deliver 0, .deliver 1, .deliver 1, .reply 0, .reply 0,
   .reply 0, .reply 0, .quorum 1, .quorum 0, .deliver 0, .deliver 0, .resume 0 0, .resume 0 0,
   .lose 1, .deliver 1, .resume 1 0]

theorem replicas_agree_two : ∃ r : Partition 3 Nat, ReachableWhere Partition.step Allowed {} r ∧
    (r.replica 0).calls = [(1, 10), (2, 20)] ∧ (r.replica 1).calls = [(1, 10)] ∧
    (r.replica 1).calls <+: r.log ∧ ∃ Q, (majority (Fin 3)).IsQuorum Q ∧
      ∀ v ∈ Q, (1, v) ∈ r.accepted := by
  have hrun : (runWhere Partition.step Allowed {} twoCommands).any (fun r =>
      decide ((r.replica 0).calls = [(1, 10), (2, 20)] ∧ (r.replica 1).calls = [(1, 10)] ∧
        (r.coordinators[1]?.map Coordinator.committed) = some true)) = true := by
    decide +kernel
  obtain ⟨r, hreach, hchecks⟩ := exists_reachableWhere hrun
  obtain ⟨hfirst, hsecond, hcommitted⟩ := of_decide_eq_true hchecks
  obtain ⟨c, hc, hdone⟩ := Option.map_eq_some_iff.mp hcommitted
  obtain ⟨hcalls, -, hmajority⟩ := replicas_agree hreach
  exact ⟨r, hreach, hfirst, hsecond, hcalls 1, hmajority 2 ⟨c, hc, hdone⟩⟩

/-- No `verify` fails: not that of `GetInstance` for a slot that was freed, not those of the ballots
in `OnAccept` and of the executed slots in `OnCommit`, and not that of a coordinator whose quorum event
says no. -/
theorem no_verify_fails {r : Partition n γ} (h : ReachableWhere Partition.step Allowed {} r)
    {e : PartitionEvent n γ} (hallowed : r.Allowed e) : ∃ r', r.step e = some r' := by
  obtain ⟨r', hr', -⟩ := (inv_of_reachable (fun _ _ => id) h).step hallowed
  exact ⟨r', hr'⟩

theorem no_verify_fails_two : ∃ r : Partition 3 Nat, ReachableWhere Partition.step Allowed {} r ∧
    r.handled 2 = 0 ∧ ∃ r', r.step (.deliver 2) = some r' := by
  have hrun : (runWhere Partition.step Allowed {} twoCommands).any (fun r =>
      decide (r.handled 2 = 0 ∧ r.Allowed (.deliver 2))) = true := by
    decide +kernel
  obtain ⟨r, hreach, hchecks⟩ := exists_reachableWhere hrun
  obtain ⟨hhandled, hallowed⟩ := of_decide_eq_true hchecks
  exact ⟨r, hreach, hhandled, no_verify_fails hreach hallowed⟩

def Lossless (r : Partition n γ) : PartitionEvent n γ → Prop
  | .lose _ => False
  | e => r.Allowed e

instance (r : Partition n γ) (e : PartitionEvent n γ) : Decidable (r.Lossless e) :=
  match e with
  | .lose _ => isFalse id
  | .submit cmd => inferInstanceAs (Decidable (r.Allowed (.submit cmd)))
  | .deliver i => inferInstanceAs (Decidable (r.Allowed (.deliver i)))
  | .reply k => inferInstanceAs (Decidable (r.Allowed (.reply k)))
  | .quorum k => inferInstanceAs (Decidable (r.Allowed (.quorum k)))
  | .resume i coroutine => inferInstanceAs (Decidable (r.Allowed (.resume i coroutine)))

theorem Lossless.allowed {r : Partition n γ} {e : PartitionEvent n γ} (h : r.Lossless e) :
    r.Allowed e := by
  cases e with
  | lose i => exact h.elim
  | submit _ | deliver _ | reply _ | quorum _ | resume _ _ => exact h

/-- Every commit was sent, and what a replica has handled it has decided. -/
structure Told (r : Partition n γ) : Prop where
  sent : ∀ (k : Nat) (c : Coordinator γ), r.coordinators[k]? = some c → c.committed = true →
    ∃ b, Call.decide (k + 1) b c.cmd ∈ r.sent
  received : ∀ (i : Fin n) (p slot b : Nat) (cmd : γ), p < r.handled i →
    r.sent[p]? = some (Call.decide slot b cmd) → (slot, cmd) ∈ (r.replica i).decided

theorem Told.take {r : Partition n γ} (h : r.Told) {i : Fin n} (s : Replica γ) {m : Call γ}
    (hm : r.sent[r.handled i]? = some m)
    (hold : ∀ c ∈ (r.replica i).decided, c ∈ s.decided)
    (hnew : ∀ slot b cmd, m = .decide slot b cmd → (slot, cmd) ∈ s.decided) (replies : List Reply)
    (accepted : List (Nat × Fin n)) :
    Told { r with
      replica := Function.update r.replica i s
      handled := Function.update r.handled i (r.handled i + 1)
      replies := replies
      accepted := accepted } := by
  refine ⟨h.sent, fun j p slot b cmd hlt hp => ?_⟩
  dsimp only at hlt hp ⊢
  by_cases hj : j = i
  · subst hj
    rw [Function.update_self] at hlt ⊢
    rcases Nat.lt_succ_iff_lt_or_eq.mp hlt with hlt | rfl
    · exact hold _ (h.received j p slot b cmd hlt hp)
    · exact hnew slot b cmd (Option.some.inj (hm.symm.trans hp))
  · rw [Function.update_of_ne hj] at hlt ⊢
    exact h.received j p slot b cmd hlt hp

theorem Told.deliver {r r' : Partition n γ} {i : Fin n} (h : r.Told)
    (hstep : r.step (.deliver i) = some r') : r'.Told := by
  obtain ⟨m, hm, hstep⟩ := Option.bind_eq_some_iff.mp hstep
  cases m with
  | accept k slot ballot cmd =>
    obtain ⟨⟨s, b⟩, hs, hstep⟩ := Option.bind_eq_some_iff.mp hstep
    obtain ⟨⟨t, d⟩, hget, hs⟩ := Option.bind_eq_some_iff.mp hs
    dsimp only at hs
    split at hs
    · cases hs
      cases hstep
      refine h.take _ hm (fun c hc => ?_) (fun _ _ _ hfalse => by cases hfalse) _ _
      exact hc
    · cases hs
  | decide slot ballot cmd =>
    obtain ⟨s, hs, hstep⟩ := Option.bind_eq_some_iff.mp hstep
    cases hstep
    have hdecided := State.onCommit_decided hs
    refine h.take _ hm (fun c hc => ?_) (fun slot' b cmd' heq => ?_) _ _
    · change c ∈ s.decided
      rw [hdecided]
      exact List.mem_append_left _ hc
    · cases heq
      change (slot, cmd) ∈ s.decided
      rw [hdecided]
      exact List.mem_append_right _ (List.mem_singleton_self _)

theorem Told.step {r r' : Partition n γ} {e : PartitionEvent n γ} (h : r.Told) (hr : r.Inv)
    (hok : r.Lossless e) (hstep : r.step e = some r') : r'.Told := by
  cases e with
  | submit cmd =>
    cases hstep
    refine ⟨fun k c hc hcommitted => ?_, fun i p slot b cmd' hlt hp => ?_⟩
    · rcases append_cases hc with hc | ⟨-, rfl⟩
      · obtain ⟨b, hb⟩ := h.sent k c hc hcommitted
        exact ⟨b, List.mem_append_left _ hb⟩
      · cases hcommitted
    · rcases append_cases hp with hp | ⟨-, hp⟩
      · exact h.received i p slot b cmd' hlt hp
      · cases hp
  | deliver i => exact h.deliver hstep
  | lose i => exact hok.elim
  | reply k =>
    obtain ⟨a, -, hstep⟩ := Option.bind_eq_some_iff.mp hstep
    obtain ⟨c, hc, hstep⟩ := Option.bind_eq_some_iff.mp hstep
    cases hstep
    refine ⟨fun j e he hcommitted => ?_, h.received⟩
    obtain ⟨rfl, rfl⟩ | ⟨-, hold⟩ := set_cases he
    · exact h.sent _ c hc hcommitted
    · exact h.sent j e hold hcommitted
  | quorum k =>
    obtain ⟨c, hc, hstep⟩ := Option.bind_eq_some_iff.mp hstep
    have hslot := (hr.coordinator k c hc).1
    split at hstep
    · cases hstep
      refine ⟨fun j e he hcommitted => ?_, fun i p slot b cmd' hlt hp => ?_⟩
      · obtain ⟨rfl, rfl⟩ | ⟨-, hold⟩ := set_cases he
        · refine ⟨c.currBallot, List.mem_append_right _ ?_⟩
          rw [← hslot]
          exact List.mem_singleton_self _
        · obtain ⟨b, hb⟩ := h.sent j e hold hcommitted
          exact ⟨b, List.mem_append_left _ hb⟩
      · rcases append_cases hp with hp | ⟨rfl, -⟩
        · exact h.received i p slot b cmd' hlt hp
        · exact absurd hlt (Nat.not_lt.mpr (hr.handled i))
    · cases hstep
  | resume i coroutine =>
    obtain ⟨s, hs, hstep⟩ := Option.bind_eq_some_iff.mp hstep
    cases hstep
    obtain ⟨t, ht, -, -, hdecided, -⟩ := (hr.server i).resume hok
    obtain rfl := Option.some.inj (hs.symm.trans ht)
    refine ⟨h.sent, fun j p slot b cmd hlt hp => ?_⟩
    have hold := h.received j p slot b cmd hlt hp
    dsimp only
    by_cases hj : j = i
    · subst hj
      rw [Function.update_self]
      exact hdecided ▸ hold
    · rw [Function.update_of_ne hj]
      exact hold

/-- When no call was lost, a replica that has handled all of them, and is not executing a command, has
executed exactly the commands up to the first one that is not committed. -/
theorem caught_up {r : Partition n γ} (h : ReachableWhere Partition.step Lossless {} r) {i : Fin n}
    (hhandled : r.handled i = r.sent.length) (hidle : (r.replica i).suspended = []) (slot : Nat) :
    slot ∈ (r.replica i).calls.map Prod.fst ↔
      1 ≤ slot ∧ ∀ k, 1 ≤ k → k ≤ slot → r.CommittedSlot k := by
  have hinv := inv_of_reachable (fun _ _ => Lossless.allowed) h
  have htold : r.Inv ∧ r.Told := by
    refine ReachableWhere.invariant (I := fun r => r.Inv ∧ r.Told)
      (fun r e r' hr hok hstep => ?_) h ⟨.initial, ?_⟩
    · obtain ⟨q, hq, hnext⟩ := hr.1.step hok.allowed
      obtain rfl := Option.some.inj (hstep.symm.trans hq)
      exact ⟨hnext, hr.2.step hr.1 hok hstep⟩
    · exact ⟨fun k c hc => (by cases hc), fun i p slot b cmd hlt => absurd hlt (Nat.not_lt_zero _)⟩
  have hdecided : ∀ k, 1 ≤ k → (k ∈ (r.replica i).decided.map Prod.fst ↔ r.CommittedSlot k) := by
    intro k hpos
    constructor
    · intro hmem
      obtain ⟨c, hc, rfl⟩ := List.mem_map.mp hmem
      exact (hinv.decided_log hc).2.1
    · rintro ⟨c, hc, hcommitted⟩
      obtain ⟨b, hb⟩ := htold.2.sent _ c hc hcommitted
      obtain ⟨p, hp⟩ := List.mem_iff_getElem?.mp hb
      have hlt := (List.getElem?_eq_some_iff.mp hp).1
      rw [Nat.sub_add_cancel hpos] at hp
      exact List.mem_map_of_mem (htold.2.received i p k b c.cmd (hhandled ▸ hlt) hp)
  rw [(hinv.server i).called_iff hidle slot]
  constructor
  · exact fun hall => ⟨hall.1, fun k hpos hk => (hdecided k hpos).mp (hall.2 k hpos hk)⟩
  · exact fun hall => ⟨hall.1, fun k hpos hk => (hdecided k hpos).mpr (hall.2 k hpos hk)⟩

theorem caught_up_two : ∃ r : Partition 3 Nat, ReachableWhere Partition.step Lossless {} r ∧
    r.handled 0 = r.sent.length ∧ ∀ slot, slot ∈ (r.replica 0).calls.map Prod.fst ↔
      1 ≤ slot ∧ ∀ k, 1 ≤ k → k ≤ slot → r.CommittedSlot k := by
  have hrun : (runWhere Partition.step Lossless {} (twoCommands.take 16)).any (fun r =>
      decide (r.handled 0 = r.sent.length ∧ (r.replica 0).suspended = [])) = true := by
    decide +kernel
  obtain ⟨r, hreach, hchecks⟩ := exists_reachableWhere hrun
  obtain ⟨hhandled, hidle⟩ := of_decide_eq_true hchecks
  exact ⟨r, hreach, hhandled, caught_up hreach hhandled hidle⟩

end Partition

end Jetpack.Paxos
