import Jetpack.Library.Transition
import Jetpack.Recovery.Server

/-! The epochs in which the acceptances of one fast path attempt are given. The request carries no
epoch and neither does the reply, so the ghost field `jepoch` of a reply is out of the client's
sight. Recovery messages of any epochs may reach any replica at any time. -/

namespace Jetpack.Recovery.SingleEpoch

open Transition

variable {n : Nat}

structure Reply (n : Nat) where
  attempt : Nat
  site : Fin n
  accepted : Bool
  isLeader : Bool
  jepoch : Epoch

/-- A command sent to all replicas, with the acceptances its event has counted. `reached` is how often
each replica had entered an epoch when the first replica took the command up. -/
structure Attempt (n : Nat) where
  cmd : Marshallable
  event : RuleSpeculativeExecuteQuorumEvent
  fed : List (Fin n) := []
  counted : List (Fin n × Epoch) := []
  reached : Option (Fin n → Nat) := none

/-- `entered` counts how often each replica has finished a recovery or gone to another `jepoch_`. -/
structure State (n : Nat) where
  server : Fin n → TxLogServer
  attempts : List (Attempt n) := []
  replies : List (Reply n) := []
  entered : Fin n → Nat := fun _ => 0

inductive Event (n : Nat)
  | issue (cmd : Marshallable)
  | speculate (v : Fin n) (attempt : Nat) (paused skipPoolConflict : Bool)
  | feed (k : Nat)
  | placeHolder (v : Fin n) (cmd : Marshallable)
  | commandPoolGC (v : Fin n) (cmd : Marshallable)
  | viewChange (v : Fin n) (isLeader : Bool)
  | pullRecovery (v : Fin n) (jepoch oepoch : Epoch)
  | adoptEpochs (v : Fin n) (maxJepoch maxOepoch : Epoch)
  | finishRecovery (v : Fin n) (oepoch : Epoch)

def Attempt.feed (a : Attempt n) (r : Reply n) : Attempt n :=
  { a with
    event := a.event.feedResponse r.accepted r.isLeader
    fed := r.site :: a.fed
    counted := if r.accepted then (r.site, r.jepoch) :: a.counted else a.counted }

def Attempt.reach (a : Attempt n) (entered : Fin n → Nat) : Attempt n :=
  { a with reached := some (a.reached.getD entered) }

/-- Neither paused nor in recovery: such a replica looks at the command. -/
def takesUp (r : TxLogServer) (paused : Bool) : Bool := !paused && r.jetpackStatus != .recovery

namespace State

def setServer (s : State n) (v : Fin n) (r : TxLogServer) : State n :=
  { s with server := Function.update s.server v r }

def enter (s : State n) (v : Fin n) (r : TxLogServer) (b : Bool) : State n :=
  { s.setServer v r with
    entered := Function.update s.entered v (s.entered v + b.toNat) }

def issue (s : State n) (cmd : Marshallable) : State n :=
  { s with attempts := s.attempts ++
      [{ cmd := cmd, event := { nTotal := n, quorum := ruleSuperMajority n } }] }

def speculate (s : State n) (v : Fin n) (k : Nat) (paused skipPoolConflict : Bool) :
    Option (State n) := do
  let a ← s.attempts[k]?
  let (r, accepted, isLeader) ←
    ((s.server v).onRuleSpeculativeExecute paused skipPoolConflict a.cmd).toOption
  return { s.setServer v r with
    attempts := if takesUp (s.server v) paused then s.attempts.set k (a.reach s.entered)
      else s.attempts
    replies := s.replies ++ [⟨k, v, accepted, isLeader, (s.server v).jepoch⟩] }

def feed (s : State n) (k : Nat) : Option (State n) := do
  let r ← s.replies[k]?
  let a ← s.attempts[r.attempt]?
  if a.fed.contains r.site then none
  else return { s with attempts := s.attempts.set r.attempt (a.feed r) }

end State

def step (s : State n) : Event n → Option (State n)
  | .issue cmd => some (s.issue cmd)
  | .speculate v k paused skipPoolConflict => s.speculate v k paused skipPoolConflict
  | .feed k => s.feed k
  | .placeHolder v cmd => do
    let r ← ((s.server v).placeHolder cmd).toOption
    return s.setServer v r
  | .commandPoolGC v cmd => do
    let r ← ((s.server v).ruleCommandPoolGC cmd).toOption
    return s.setServer v r
  | .viewChange v isLeader => some (s.setServer v { s.server v with isLeader := isLeader })
  | .pullRecovery v jepoch oepoch => do
    let (r, _) ← ((s.server v).onJetpackPullRecovery jepoch oepoch).toOption
    return s.setServer v r
  | .adoptEpochs v maxJepoch maxOepoch =>
    some (s.enter v ((s.server v).adoptEpochs maxJepoch maxOepoch)
      (decide ((s.server v).jepoch < maxJepoch)))
  | .finishRecovery v oepoch =>
    some (s.enter v ((s.server v).onJetpackFinishRecovery oepoch)
      (decide ((s.server v).oepoch ≤ oepoch)))

/-- When the first replica takes a command up, all replicas that are not in recovery hold its `jepoch_`;
after that, the replica has entered no epoch since then. -/
def Undisturbed (s : State n) (v : Fin n) : Option (Fin n → Nat) → Prop
  | none => ∀ u, (s.server u).jetpackStatus ≠ .recovery → (s.server u).jepoch = (s.server v).jepoch
  | some reached => s.entered v = reached v

instance (s : State n) (v : Fin n) : DecidablePred (Undisturbed s v)
  | none => inferInstanceAs (Decidable (∀ u, (s.server u).jetpackStatus ≠ .recovery →
      (s.server u).jepoch = (s.server v).jepoch))
  | some reached => inferInstanceAs (Decidable (s.entered v = reached v))

/-- No recovery completes at a replica between the moment at which the first replica takes a command up
and the moment at which it takes the command up itself. -/
def NoRecoveryBetween (s : State n) : Event n → Prop
  | .speculate v k paused _ => takesUp (s.server v) paused = true →
    Undisturbed s v ((s.attempts[k]?).bind Attempt.reached)
  | _ => True

instance (s : State n) (e : Event n) : Decidable (NoRecoveryBetween s e) :=
  match e with
  | .speculate v k paused _ => inferInstanceAs (Decidable (takesUp (s.server v) paused = true →
      Undisturbed s v ((s.attempts[k]?).bind Attempt.reached)))
  | .issue _ | .feed _ | .placeHolder _ _ | .commandPoolGC _ _ | .viewChange _ _
  | .pullRecovery _ _ _ | .adoptEpochs _ _ _ | .finishRecovery _ _ => isTrue trivial

/-- Where an event answers yes, the acceptances it counted were given in one epoch. -/
def OneEpoch (s : State n) : Prop :=
  ∀ a ∈ s.attempts, a.event.fastYes = true →
    ∀ x ∈ a.counted, ∀ y ∈ a.counted, x.2 = y.2

/-- Where an event answers yes, a supermajority of different replicas has accepted the command. -/
def SupermajorityAccepted (s : State n) : Prop :=
  ∀ a ∈ s.attempts, a.event.fastYes = true →
    (a.counted.map Prod.fst).Nodup ∧ ruleSuperMajority n ≤ a.counted.length

structure Attempt.Counts (a : Attempt n) : Prop where
  quorum : a.event.quorum = ruleSuperMajority n
  yes : a.event.nVotedYes = a.counted.length
  fed : ∀ x ∈ a.counted, x.1 ∈ a.fed
  once : (a.counted.map Prod.fst).Nodup

/-- The acceptances of an attempt were given in `j`, and who has not entered an epoch since the command
was first taken up is in `j` as well. -/
structure InEpoch (s : State n) (k : Nat) (reached : Fin n → Nat) (j : Epoch) : Prop where
  accepted : ∀ r ∈ s.replies, r.attempt = k → r.accepted = true → r.jepoch = j
  later : ∀ v, reached v ≤ s.entered v
  still : ∀ v, s.entered v = reached v → (s.server v).jetpackStatus ≠ .recovery →
    (s.server v).jepoch = j

structure Inv (s : State n) : Prop where
  counts : ∀ a ∈ s.attempts, a.Counts
  counted : ∀ k a, s.attempts[k]? = some a → ∀ x ∈ a.counted,
    ∃ r ∈ s.replies, r.attempt = k ∧ r.accepted = true ∧ r.jepoch = x.2
  reached : ∀ r ∈ s.replies, r.accepted = true →
    ∃ a reached, s.attempts[r.attempt]? = some a ∧ a.reached = some reached
  epoch : ∀ k a reached, s.attempts[k]? = some a → a.reached = some reached →
    ∃ j, InEpoch s k reached j

theorem Inv.oneEpoch {s : State n} (h : Inv s) : OneEpoch s := by
  intro a ha _ x hx y hy
  obtain ⟨k, hk⟩ := List.mem_iff_getElem?.mp ha
  obtain ⟨r, hr, rfl, hracc, hrx⟩ := h.counted k a hk x hx
  obtain ⟨r', hr', hrk', hracc', hry⟩ := h.counted _ a hk y hy
  obtain ⟨b, reached, hb, hreached⟩ := h.reached r hr hracc
  obtain ⟨j, hj⟩ := h.epoch _ b reached hb hreached
  rw [← hrx, ← hry, hj.accepted r hr rfl hracc, hj.accepted r' hr' hrk' hracc']

theorem Inv.supermajorityAccepted {s : State n} (h : Inv s) : SupermajorityAccepted s := by
  intro a ha hyes
  have hcounts := h.counts a ha
  refine ⟨hcounts.once, ?_⟩
  have hquorum := (Bool.and_eq_true_iff.mp hyes).1
  rw [hcounts.quorum, hcounts.yes] at hquorum
  exact of_decide_eq_true hquorum

theorem Inv.server {s : State n} (h : Inv s) (v : Fin n) (r : TxLogServer) (b : Bool)
    (hstay : b = false → r.jepoch = (s.server v).jepoch ∧
      (r.jetpackStatus ≠ .recovery → (s.server v).jetpackStatus ≠ .recovery)) :
    Inv (s.enter v r b) := by
  refine ⟨h.counts, h.counted, h.reached, fun k a reached hk hreached => ?_⟩
  obtain ⟨j, hj⟩ := h.epoch k a reached hk hreached
  refine ⟨j, hj.accepted, fun u => ?_, fun u hentered hstatus => ?_⟩
  · show reached u ≤ Function.update s.entered v (s.entered v + b.toNat) u
    have hle := hj.later u
    by_cases hu : u = v
    · subst hu
      rw [Function.update_self]
      omega
    · rwa [Function.update_of_ne hu]
  · change Function.update s.entered v (s.entered v + b.toNat) u = reached u at hentered
    change (Function.update s.server v r u).jetpackStatus ≠ .recovery at hstatus
    show (Function.update s.server v r u).jepoch = j
    by_cases hu : u = v
    · subst hu
      rw [Function.update_self] at hentered hstatus ⊢
      have hle := hj.later u
      cases b with
      | true =>
        rw [Bool.toNat_true] at hentered
        omega
      | false =>
        obtain ⟨hsame, hleft⟩ := hstay rfl
        rw [hsame]
        exact hj.still u hentered (hleft hstatus)
    · rw [Function.update_of_ne hu] at hentered hstatus ⊢
      exact hj.still u hentered hstatus

theorem enter_false (s : State n) (v : Fin n) (r : TxLogServer) :
    s.enter v r false = s.setServer v r := by
  unfold State.enter
  rw [Bool.toNat_false, Nat.add_zero, Function.update_eq_self]
  rfl

theorem Inv.setServer {s : State n} (h : Inv s) (v : Fin n) (r : TxLogServer)
    (hepoch : r.jepoch = (s.server v).jepoch)
    (hstatus : r.jetpackStatus ≠ .recovery → (s.server v).jetpackStatus ≠ .recovery) :
    Inv (s.setServer v r) := by
  rw [← enter_false]
  exact h.server v r false fun _ => ⟨hepoch, hstatus⟩

theorem Inv.issue {s : State n} (h : Inv s) (cmd : Marshallable) : Inv (s.issue cmd) := by
  have hcases : ∀ (k : Nat) (a : Attempt n), (s.issue cmd).attempts[k]? = some a →
      s.attempts[k]? = some a ∨ a.counted = [] ∧ a.reached = none := by
    intro k a hk
    by_cases hlt : k < s.attempts.length
    · rw [State.issue, List.getElem?_append_left hlt] at hk
      exact .inl hk
    · have hmem := List.mem_of_getElem? (by
        rwa [State.issue, List.getElem?_append_right (Nat.not_lt.mp hlt)] at hk)
      obtain rfl := List.mem_singleton.mp hmem
      exact .inr ⟨rfl, rfl⟩
  refine ⟨fun a ha => ?_, fun k a hk x hx => ?_, fun r hr hacc => ?_,
    fun k a reached hk hreached => ?_⟩
  · rcases List.mem_append.mp ha with ha | ha
    · exact h.counts a ha
    · obtain rfl := List.mem_singleton.mp ha
      exact ⟨rfl, rfl, fun x hx => absurd hx List.not_mem_nil, List.nodup_nil⟩
  · rcases hcases k a hk with hk | ⟨hnil, -⟩
    · exact h.counted k a hk x hx
    · rw [hnil] at hx
      cases hx
  · obtain ⟨a, reached, ha, hreached⟩ := h.reached r hr hacc
    refine ⟨a, reached, ?_, hreached⟩
    obtain ⟨hlt, -⟩ := List.getElem?_eq_some_iff.mp ha
    rw [State.issue, List.getElem?_append_left hlt]
    exact ha
  · rcases hcases k a hk with hk | ⟨-, hnone⟩
    · obtain ⟨j, hj⟩ := h.epoch k a reached hk hreached
      exact ⟨j, hj.accepted, hj.later, hj.still⟩
    · rw [hnone] at hreached
      cases hreached

/-- A replica takes a command up in the epoch of the acceptances so far. -/
theorem Inv.epoch_of_takesUp {s : State n} (h : Inv s) {v : Fin n} {k : Nat} {paused skip : Bool}
    {a : Attempt n} (ha : s.attempts[k]? = some a)
    (hok : NoRecoveryBetween s (.speculate v k paused skip))
    (htakes : takesUp (s.server v) paused = true) :
    InEpoch s k (a.reached.getD s.entered) (s.server v).jepoch := by
  have hready : (s.server v).jetpackStatus ≠ .recovery := by
    unfold takesUp at htakes
    simpa using (Bool.and_eq_true_iff.mp htakes).2
  have hok := hok htakes
  rw [ha, Option.bind_some] at hok
  cases hreached : a.reached with
  | none =>
    rw [hreached] at hok
    refine ⟨fun r hr hrk hacc => ?_, fun u => le_refl _, fun u _ hstatus => hok u hstatus⟩
    obtain ⟨b, reached, hb, hsome⟩ := h.reached r hr hacc
    rw [hrk, ha] at hb
    obtain rfl := Option.some.inj hb
    rw [hreached] at hsome
    cases hsome
  | some reached =>
    rw [hreached] at hok
    obtain ⟨j, hj⟩ := h.epoch k a reached ha hreached
    rw [hj.still v hok hready]
    exact hj

theorem Inv.speculate {s t : State n} (h : Inv s) {v : Fin n} {k : Nat} {paused skip : Bool}
    (hok : NoRecoveryBetween s (.speculate v k paused skip))
    (hstep : s.speculate v k paused skip = some t) : Inv t := by
  obtain ⟨a, ha, hstep⟩ := Option.bind_eq_some_iff.mp hstep
  obtain ⟨⟨r, accepted, isLeader⟩, hr, hstep⟩ := Option.bind_eq_some_iff.mp hstep
  cases hstep
  obtain ⟨hstatus, hepoch, hrefused⟩ :=
    TxLogServer.onRuleSpeculativeExecute_spec (Except.toOption_eq_some hr)
  have hserver := h.setServer v r hepoch (fun hne => hstatus ▸ hne)
  by_cases htakes : takesUp (s.server v) paused = true
  · rw [if_pos htakes]
    have hlt := (List.getElem?_eq_some_iff.mp ha).1
    have hself : (s.attempts.set k (a.reach s.entered))[k]? = some (a.reach s.entered) :=
      List.getElem?_set_self hlt
    have hj := h.epoch_of_takesUp ha hok htakes
    refine ⟨fun b hb => ?_, fun i b hi x hx => ?_, fun q hq hacc => ?_,
      fun i b reached hi hreached => ?_⟩
    · rcases List.mem_or_eq_of_mem_set hb with hb | rfl
      · exact h.counts b hb
      · have hcounts := h.counts a (List.mem_of_getElem? ha)
        exact ⟨hcounts.quorum, hcounts.yes, hcounts.fed, hcounts.once⟩
    · have hold : ∃ b', s.attempts[i]? = some b' ∧ b'.counted = b.counted := by
        by_cases hik : i = k
        · subst hik
          obtain rfl := Option.some.inj (hself.symm.trans hi)
          exact ⟨a, ha, rfl⟩
        · exact ⟨b, (List.getElem?_set_ne (Ne.symm hik)).symm.trans hi, rfl⟩
      obtain ⟨b', hb', hsame⟩ := hold
      obtain ⟨q, hq, hrest⟩ := h.counted i b' hb' x (hsame ▸ hx)
      exact ⟨q, List.mem_append_left _ hq, hrest⟩
    · by_cases hqk : q.attempt = k
      · rw [hqk]
        exact ⟨_, _, hself, rfl⟩
      · dsimp only
        rw [List.getElem?_set_ne (Ne.symm hqk)]
        rcases List.mem_append.mp hq with hq | hq
        · exact h.reached q hq hacc
        · rw [List.mem_singleton.mp hq] at hqk
          exact absurd rfl hqk
    · by_cases hik : i = k
      · subst hik
        obtain rfl := Option.some.inj (hself.symm.trans hi)
        obtain rfl := Option.some.inj hreached
        refine ⟨(s.server v).jepoch, fun q hq hqi hacc => ?_, hj.later, fun u hentered hne => ?_⟩
        · rcases List.mem_append.mp hq with hq | hq
          · exact hj.accepted q hq hqi hacc
          · rw [List.mem_singleton.mp hq]
        · by_cases hu : u = v
          · subst hu
            show (Function.update s.server u r u).jepoch = _
            rw [Function.update_self]
            exact hepoch
          · change (Function.update s.server v r u).jetpackStatus ≠ _ at hne
            show (Function.update s.server v r u).jepoch = _
            rw [Function.update_of_ne hu] at hne ⊢
            exact hj.still u hentered hne
      · have hi' := (List.getElem?_set_ne (Ne.symm hik)).symm.trans hi
        obtain ⟨j, hj'⟩ := hserver.epoch i b reached hi' hreached
        refine ⟨j, fun q hq hqi hacc => ?_, hj'.later, hj'.still⟩
        rcases List.mem_append.mp hq with hq | hq
        · exact hj'.accepted q hq hqi hacc
        · rw [List.mem_singleton.mp hq] at hqi
          exact absurd hqi.symm hik
  · -- a refused command changes nothing that the invariant speaks of
    rw [if_neg htakes]
    have hfalse : accepted = false := by
      refine hrefused ?_
      unfold takesUp at htakes
      cases paused with
      | true => exact .inl rfl
      | false => exact .inr (by simpa using htakes)
    have hsame : ∀ q ∈ s.replies ++ [⟨k, v, accepted, isLeader, (s.server v).jepoch⟩],
        q.accepted = true → q ∈ s.replies := by
      intro q hq hacc
      rcases List.mem_append.mp hq with hq | hq
      · exact hq
      · rw [List.mem_singleton.mp hq, hfalse] at hacc
        cases hacc
    refine ⟨h.counts, fun i b hi x hx => ?_, fun q hq hacc => h.reached q (hsame q hq hacc) hacc,
      fun i b reached hi hreached => ?_⟩
    · obtain ⟨q, hq, hrest⟩ := h.counted i b hi x hx
      exact ⟨q, List.mem_append_left _ hq, hrest⟩
    · obtain ⟨j, hj⟩ := hserver.epoch i b reached hi hreached
      exact ⟨j, fun q hq hqi hacc => hj.accepted q (hsame q hq hacc) hqi hacc, hj.later, hj.still⟩

theorem Attempt.Counts.feed {a : Attempt n} (h : a.Counts) {r : Reply n} (hnew : r.site ∉ a.fed) :
    (a.feed r).Counts := by
  unfold Attempt.feed RuleSpeculativeExecuteQuorumEvent.feedResponse
  cases r.accepted with
  | true =>
    refine ⟨h.quorum, ?_, fun x hx => ?_, ?_⟩
    · show a.event.nVotedYes + 1 = _
      rw [h.yes]
      rfl
    · rcases List.mem_cons.mp hx with rfl | hx
      · exact List.mem_cons_self
      · exact List.mem_cons_of_mem _ (h.fed x hx)
    · refine List.nodup_cons.mpr ⟨fun hmem => ?_, h.once⟩
      obtain ⟨x, hx, heq⟩ := List.mem_map.mp hmem
      change x.1 = r.site at heq
      exact hnew (heq ▸ h.fed x hx)
  | false =>
    exact ⟨h.quorum, h.yes, fun x hx => List.mem_cons_of_mem _ (h.fed x hx), h.once⟩

theorem Inv.feed {s t : State n} (h : Inv s) {k : Nat} (hstep : s.feed k = some t) : Inv t := by
  obtain ⟨r, hr, hstep⟩ := Option.bind_eq_some_iff.mp hstep
  obtain ⟨a, ha, hstep⟩ := Option.bind_eq_some_iff.mp hstep
  split at hstep
  · cases hstep
  next hfed =>
  cases hstep
  have hlt := (List.getElem?_eq_some_iff.mp ha).1
  have hself : (s.attempts.set r.attempt (a.feed r))[r.attempt]? = some (a.feed r) :=
    List.getElem?_set_self hlt
  refine ⟨fun b hb => ?_, fun j b hj x hx => ?_, fun q hq hacc => ?_,
    fun j b reached hj hreached => ?_⟩
  · rcases List.mem_or_eq_of_mem_set hb with hb | rfl
    · exact h.counts b hb
    · exact (h.counts a (List.mem_of_getElem? ha)).feed (by simpa using hfed)
  · by_cases hjr : j = r.attempt
    · subst hjr
      obtain rfl := Option.some.inj (hself.symm.trans hj)
      by_cases hacc : r.accepted = true
      · have hx' : x ∈ (r.site, r.jepoch) :: a.counted := by simpa [Attempt.feed, hacc] using hx
        rcases List.mem_cons.mp hx' with rfl | hx'
        · exact ⟨r, List.mem_of_getElem? hr, rfl, hacc, rfl⟩
        · exact h.counted _ a ha x hx'
      · exact h.counted _ a ha x (by simpa [Attempt.feed, hacc] using hx)
    · exact h.counted j b ((List.getElem?_set_ne (Ne.symm hjr)).symm.trans hj) x hx
  · obtain ⟨b, reached, hb, hreached⟩ := h.reached q hq hacc
    by_cases hqr : q.attempt = r.attempt
    · rw [hqr] at hb ⊢
      obtain rfl := Option.some.inj (ha.symm.trans hb)
      exact ⟨_, reached, hself, hreached⟩
    · exact ⟨b, reached, (List.getElem?_set_ne (Ne.symm hqr)).trans hb, hreached⟩
  · by_cases hjr : j = r.attempt
    · subst hjr
      obtain rfl := Option.some.inj (hself.symm.trans hj)
      obtain ⟨i, hi⟩ := h.epoch _ a reached ha hreached
      exact ⟨i, hi.accepted, hi.later, hi.still⟩
    · obtain ⟨i, hi⟩ := h.epoch j b reached ((List.getElem?_set_ne (Ne.symm hjr)).symm.trans hj)
        hreached
      exact ⟨i, hi.accepted, hi.later, hi.still⟩

theorem adoptEpochs_spec {r : TxLogServer} {maxJepoch : Epoch} (maxOepoch : Epoch)
    (h : ¬ r.jepoch < maxJepoch) :
    (r.adoptEpochs maxJepoch maxOepoch).jepoch = r.jepoch ∧
      (r.adoptEpochs maxJepoch maxOepoch).jetpackStatus = r.jetpackStatus := by
  unfold TxLogServer.adoptEpochs
  rw [if_neg h]
  dsimp only
  split
  · exact ⟨rfl, rfl⟩
  · exact ⟨rfl, rfl⟩

theorem Inv.step {s t : State n} {e : Event n} (h : Inv s) (hok : NoRecoveryBetween s e)
    (hstep : SingleEpoch.step s e = some t) : Inv t := by
  cases e with
  | issue cmd =>
    cases hstep
    exact h.issue cmd
  | speculate v k paused skip => exact h.speculate hok hstep
  | feed k => exact h.feed hstep
  | placeHolder v cmd =>
    obtain ⟨r, hr, hstep⟩ := Option.bind_eq_some_iff.mp hstep
    cases hstep
    obtain ⟨⟨b, pool⟩, -, hr⟩ := Except.bind_eq_ok (Except.toOption_eq_some hr)
    cases hr
    exact h.setServer v _ rfl id
  | commandPoolGC v cmd =>
    obtain ⟨r, hr, hstep⟩ := Option.bind_eq_some_iff.mp hstep
    cases hstep
    obtain ⟨⟨b, pool⟩, -, hr⟩ := Except.bind_eq_ok (Except.toOption_eq_some hr)
    cases hr
    exact h.setServer v _ rfl id
  | viewChange v isLeader =>
    cases hstep
    exact h.setServer v _ rfl id
  | pullRecovery v jepoch oepoch =>
    obtain ⟨⟨r, reply⟩, hr, hstep⟩ := Option.bind_eq_some_iff.mp hstep
    cases hstep
    obtain ⟨hstatus, hepoch⟩ := TxLogServer.onJetpackPullRecovery_spec (Except.toOption_eq_some hr)
    exact h.setServer v r hepoch fun hne => absurd hstatus hne
  | adoptEpochs v maxJepoch maxOepoch =>
    obtain rfl := Option.some.inj hstep
    refine h.server v _ _ fun hno => ?_
    obtain ⟨hepoch, hstatus⟩ := adoptEpochs_spec maxOepoch (of_decide_eq_false hno)
    exact ⟨hepoch, fun hne => hstatus ▸ hne⟩
  | finishRecovery v oepoch =>
    obtain rfl := Option.some.inj hstep
    refine h.server v _ _ fun hno => ?_
    unfold TxLogServer.onJetpackFinishRecovery
    rw [if_neg (of_decide_eq_false hno)]
    exact ⟨rfl, id⟩

/-- Whatever states the replicas start from. -/
theorem acceptances_in_one_epoch {server : Fin n → TxLogServer} {s : State n}
    (h : ReachableWhere step NoRecoveryBetween { server := server } s) :
    OneEpoch s ∧ SupermajorityAccepted s := by
  have hinv := ReachableWhere.invariant (fun _ _ _ hi hok hstep => Inv.step hi hok hstep) h
    ⟨by simp, by simp, by simp, by simp⟩
  exact ⟨hinv.oneEpoch, hinv.supermajorityAccepted⟩

section Runs

def write : Marshallable :=
  .vecPiece { spVecPieceData := [{
    type := rwBenchmarkWTxn, clientId := 1, cmdIdInClient := 1,
    input := [(0, .i32 7), (1, .i32 5)] }] }

def freshServers (leader : Fin n) : Fin n → TxLogServer :=
  fun v => { jepoch := 0, oepoch := 0, isLeader := v == leader }

/-- All replicas accept the command, recover, and accept it again in a second attempt. -/
def acceptedByAll (a b c : Fin n) : List (Event n) :=
  [.issue write, .speculate a 0 false false, .speculate b 0 false false,
    .speculate c 0 false false, .feed 0, .feed 1, .feed 2,
    .pullRecovery a 0 1, .pullRecovery b 0 1, .pullRecovery c 0 1,
    .finishRecovery a 1, .finishRecovery b 1, .finishRecovery c 1,
    .issue write, .speculate c 1 false false, .speculate b 1 false false,
    .speculate a 1 false false, .feed 3, .feed 4, .feed 5]

/-- A recovery completes between the first acceptance and the others. -/
def recoveredBetween (a b c : Fin n) : List (Event n) :=
  [.issue write, .speculate a 0 false false,
    .pullRecovery a 0 1, .pullRecovery b 0 1, .pullRecovery c 0 1,
    .finishRecovery a 1, .finishRecovery b 1, .finishRecovery c 1,
    .speculate b 0 false false, .speculate c 0 false false, .feed 0, .feed 1, .feed 2]

def epochsOfYes (s : State n) : List (List Epoch) :=
  (s.attempts.filter fun a => a.event.fastYes).map fun a => a.counted.map Prod.snd

end Runs

theorem acceptances_in_one_epoch_all :
    ∃ s : State 3, ReachableWhere step NoRecoveryBetween { server := freshServers 0 } s ∧
      epochsOfYes s = [[0, 0, 0], [1, 1, 1]] ∧ OneEpoch s ∧ SupermajorityAccepted s := by
  have hrun : (runWhere step NoRecoveryBetween { server := freshServers 0 }
      (acceptedByAll (0 : Fin 3) 1 2)).any
        (fun s => epochsOfYes s == [[0, 0, 0], [1, 1, 1]]) = true := by decide +kernel
  obtain ⟨s, hs, hp⟩ := exists_reachableWhere hrun
  exact ⟨s, hs, by simpa using hp, acceptances_in_one_epoch hs⟩

/-- The client's event counts one acceptance of epoch 0 with two of epoch 1 and answers yes. -/
theorem acceptances_of_two_epochs :
    ∃ s : State 3, Reachable step { server := freshServers 0 } s ∧
      epochsOfYes s = [[1, 1, 0]] ∧ ¬ OneEpoch s := by
  have hrun : (runWhere step (fun _ _ => True) { server := freshServers 0 }
      (recoveredBetween (0 : Fin 3) 1 2)).any
        (fun s => epochsOfYes s == [[1, 1, 0]]) = true := by decide +kernel
  obtain ⟨s, hs, hp⟩ := exists_reachableWhere hrun
  have hepochs : epochsOfYes s = [[1, 1, 0]] := by simpa using hp
  refine ⟨s, hs, hepochs, fun hone => ?_⟩
  have hmem : [1, 1, 0] ∈ epochsOfYes s := by simp [hepochs]
  obtain ⟨a, ha, hcounted⟩ := List.mem_map.mp hmem
  obtain ⟨ha, hyes⟩ := List.mem_filter.mp ha
  have h1 : (1 : Epoch) ∈ a.counted.map Prod.snd := by simp [hcounted]
  have h0 : (0 : Epoch) ∈ a.counted.map Prod.snd := by simp [hcounted]
  obtain ⟨x, hx, hx1⟩ := List.mem_map.mp h1
  obtain ⟨y, hy, hy0⟩ := List.mem_map.mp h0
  have hsame := hone a ha hyes x hx y hy
  rw [hx1, hy0] at hsame
  exact absurd hsame (by decide)

end Jetpack.Recovery.SingleEpoch
