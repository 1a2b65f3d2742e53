import Jetpack.Library.Transition
import Jetpack.Library.Voting
import Jetpack.Paxos.Server
import Jetpack.QuorumEvent

/-! The replicas of a partition and the coordinators of its leader, one for each command. The leader
calls all replicas with the same calls in the same order; a connection may lose calls, but not
reorder them. Replies arrive in any order, or not at all. -/

namespace Jetpack.Paxos

open QuorumVoting Transition

variable {n : Nat} {γ : Type}

/-- The reply to an `Accept` is fed to the quorum event of the coordinator that sent it. -/
inductive Call (γ : Type)
  | accept (coordinator slot ballot : Nat) (cmd : γ)
  | decide (slot ballot : Nat) (cmd : γ)

structure Reply where
  coordinator : Nat
  maxBallot : Nat

structure Replica (γ : Type) extends State γ where
  maxBallotSeen : Nat → Nat := fun _ => 0
  maxBallotAccepted : Nat → Nat := fun _ => 0

structure Coordinator (γ : Type) where
  slotId : Nat
  currBallot : Nat := 1
  cmd : γ
  event : QuorumEvent
  committed : Bool := false

/-- `handled` counts the calls of the leader that a replica has taken or lost, and `accepted` records
which replica has accepted for which coordinator. -/
structure Partition (n : Nat) (γ : Type) where
  slotHint : Nat := 1
  coordinators : List (Coordinator γ) := []
  sent : List (Call γ) := []
  replica : Fin n → Replica γ := fun _ => {}
  handled : Fin n → Nat := fun _ => 0
  replies : List Reply := []
  accepted : List (Nat × Fin n) := []

inductive PartitionEvent (n : Nat) (γ : Type)
  | submit (cmd : γ)
  | deliver (i : Fin n)
  | lose (i : Fin n)
  | reply (k : Nat)
  | quorum (coordinator : Nat)
  | resume (i : Fin n) (coroutine : Nat)

namespace Replica

def onAccept (s : Replica γ) (slot ballot : Nat) : Option (Replica γ × Nat) := do
  let (t, _) ← s.getInstance slot
  if s.maxBallotSeen slot ≤ ballot then
    return ({ s with
      toPaxosServer := t
      maxBallotSeen := Function.update s.maxBallotSeen slot ballot
      maxBallotAccepted := Function.update s.maxBallotAccepted slot ballot }, ballot)
  else none

theorem onAccept_eq {s : Replica γ} {slot ballot : Nat} {t : PaxosServer γ} {d : PaxosData γ}
    (hget : s.getInstance slot = some (t, d)) (hle : s.maxBallotSeen slot ≤ ballot) :
    s.onAccept slot ballot = some ({ s with
      toPaxosServer := t
      maxBallotSeen := Function.update s.maxBallotSeen slot ballot
      maxBallotAccepted := Function.update s.maxBallotAccepted slot ballot }, ballot) := by
  unfold onAccept
  rw [hget, Option.bind_eq_bind, Option.bind_some]
  dsimp only
  rw [if_pos hle]
  rfl

end Replica

namespace Coordinator

/-- `BroadcastAccept` counts a reply with the ballot that it has sent. -/
def feedResponse (c : Coordinator γ) (maxBallot : Nat) : Coordinator γ :=
  { c with event := if maxBallot = c.currBallot then c.event.voteYes else c.event.voteNo }

end Coordinator

namespace Partition

/-- What a call does at a replica. -/
def handle (r : Partition n γ) (i : Fin n) : Call γ → Option (Partition n γ)
  | .accept c slot ballot _ => do
    let (s, maxBallot) ← (r.replica i).onAccept slot ballot
    return { r with
      replica := Function.update r.replica i s
      handled := Function.update r.handled i (r.handled i + 1)
      replies := r.replies ++ [⟨c, maxBallot⟩]
      accepted := r.accepted ++ [(c, i)] }
  | .decide slot _ cmd => do
    let s ← (r.replica i).onCommit slot cmd
    return { r with
      replica := Function.update r.replica i { r.replica i with toState := s }
      handled := Function.update r.handled i (r.handled i + 1) }

/-- `Submit` takes the next slot and goes on to `Accept`, which waits for the quorum event; `Commit`
comes when the event is ready. The leader skips the prepare phase. -/
def step (r : Partition n γ) : PartitionEvent n γ → Option (Partition n γ)
  | .submit cmd =>
    let c : Coordinator γ :=
      { slotId := r.slotHint, cmd := cmd, event := { nTotal := n, quorum := n / 2 + 1 } }
    some { r with
      slotHint := r.slotHint + 1
      coordinators := r.coordinators ++ [c]
      sent := r.sent ++ [.accept r.coordinators.length c.slotId c.currBallot cmd] }
  | .deliver i => r.sent[r.handled i]?.bind (r.handle i)
  | .lose i => some { r with handled := Function.update r.handled i (r.handled i + 1) }
  | .reply k => do
    let reply ← r.replies[k]?
    let c ← r.coordinators[reply.coordinator]?
    return { r with
      coordinators := r.coordinators.set reply.coordinator (c.feedResponse reply.maxBallot)
      replies := r.replies.eraseIdx k }
  | .quorum k => do
    let c ← r.coordinators[k]?
    if c.event.yes then
      return { r with
        coordinators := r.coordinators.set k { c with committed := true }
        sent := r.sent ++ [.decide c.slotId c.currBallot c.cmd] }
    else none
  | .resume i coroutine => do
    let s ← (r.replica i).toState.resume coroutine
    return { r with replica := Function.update r.replica i { r.replica i with toState := s } }

/-- What can happen: there are less than 2^31 slots, and a coordinator wakes up once, when its event is
ready. -/
def Allowed (r : Partition n γ) : PartitionEvent n γ → Prop
  | .submit _ => r.slotHint < 2 ^ 31
  | .deliver i => r.handled i < r.sent.length
  | .lose i => r.handled i < r.sent.length
  | .reply k => k < r.replies.length
  | .quorum k => ∃ c ∈ r.coordinators[k]?, c.committed = false ∧
      (c.event.yes = true ∨ c.event.no = true)
  | .resume i coroutine => coroutine < (r.replica i).suspended.length

instance (r : Partition n γ) (e : PartitionEvent n γ) : Decidable (r.Allowed e) :=
  match e with
  | .submit _ => inferInstanceAs (Decidable (_ < 2 ^ 31))
  | .deliver _ | .lose _ | .reply _ | .resume _ _ => inferInstanceAs (Decidable (_ < _))
  | .quorum k => inferInstanceAs (Decidable (∃ c ∈ r.coordinators[k]?, _))

def log (r : Partition n γ) : List (Nat × γ) := r.coordinators.map fun c => (c.slotId, c.cmd)

end Partition

/-- A slot that was not decided is behind the executed ones. -/
theorem Inv.executed_lt {s : State γ} (h : Inv s) {slot : Nat} (hpos : 1 ≤ slot)
    (hnew : slot ∉ s.decided.map Prod.fst) : s.maxExecutedSlot < slot := by
  by_contra hle
  exact hnew (h.executed hpos (by omega))

theorem Inv.instance {s : State γ} (h : Inv s) {slot : Nat} (hlater : s.maxExecutedSlot < slot) :
    ∃ t d, s.getInstance slot = some (t, d) ∧ Inv { s with toPaxosServer := t } := by
  obtain ⟨t, d, hget, hkeeps, -, -, hexecuted, -, hflag, -, -⟩ :=
    PaxosServer.getInstance_spec h.keeps hlater
  refine ⟨t, d, hget, hkeeps, ?_, ?_, h.decided, h.numbered, h.once, fun hnil cmd => ?_⟩
  · dsimp only
    rw [hexecuted, hflag]
    exact h.applying
  · dsimp only
    rw [hexecuted]
    exact h.order
  · dsimp only
    rw [hexecuted]
    exact h.stopped hnil cmd

namespace Call

def key : Call γ → Bool × Nat
  | .accept _ slot _ _ => (false, slot)
  | .decide slot _ _ => (true, slot)

end Call

namespace Partition

def Carries (r : Partition n γ) : Call γ → Prop
  | .accept k slot ballot _ => k < r.coordinators.length ∧ slot = k + 1 ∧ ballot = 1
  | .decide slot _ cmd => ∃ k c, slot = k + 1 ∧ r.coordinators[k]? = some c ∧ c.committed = true ∧
      c.cmd = cmd

/-- No coordinator is lost, and none takes back its commit. -/
def Keeps (r r' : Partition n γ) : Prop :=
  ∀ (k : Nat) (c : Coordinator γ), r.coordinators[k]? = some c → ∃ c' : Coordinator γ,
    r'.coordinators[k]? = some c' ∧ c'.cmd = c.cmd ∧ (c.committed = true → c'.committed = true)

theorem Keeps.of_eq {r r' : Partition n γ} (h : r'.coordinators = r.coordinators) : r.Keeps r' :=
  fun _ c hc => ⟨c, h ▸ hc, rfl, id⟩

theorem Keeps.carries {r r' : Partition n γ} (h : r.Keeps r') {m : Call γ} (hm : r.Carries m) :
    r'.Carries m := by
  cases m with
  | accept k slot ballot cmd =>
    obtain ⟨hk, hslot⟩ := hm
    obtain ⟨c', hc', -⟩ := h k _ (List.getElem?_eq_getElem hk)
    exact ⟨(List.getElem?_eq_some_iff.mp hc').1, hslot⟩
  | decide slot ballot cmd =>
    obtain ⟨k, c, hslot, hc, hcommitted, hcmd⟩ := hm
    obtain ⟨c', hc', hcmd', hcommitted'⟩ := h k c hc
    exact ⟨k, c', hslot, hc', hcommitted' hcommitted, hcmd'.trans hcmd⟩

theorem keeps_set {r r' : Partition n γ} {k : Nat} {c d : Coordinator γ}
    (hc : r.coordinators[k]? = some c) (hr' : r'.coordinators = r.coordinators.set k d)
    (hcmd : d.cmd = c.cmd) (hcommitted : c.committed = true → d.committed = true) : r.Keeps r' := by
  intro j e he
  obtain ⟨hlt, -⟩ := List.getElem?_eq_some_iff.mp he
  rw [hr', List.getElem?_set]
  by_cases hjk : k = j
  · subst hjk
    obtain rfl := Option.some.inj (hc.symm.trans he)
    exact ⟨d, by rw [if_pos rfl, if_pos hlt], hcmd, hcommitted⟩
  · exact ⟨e, by rwa [if_neg hjk], rfl, id⟩

theorem set_cases {l : List (Coordinator γ)} {k j : Nat} {d e : Coordinator γ}
    (h : (l.set k d)[j]? = some e) : (j = k ∧ e = d) ∨ (j ≠ k ∧ l[j]? = some e) := by
  rw [List.getElem?_set] at h
  by_cases hjk : k = j
  · rw [if_pos hjk] at h
    split at h
    · exact .inl ⟨hjk.symm, (Option.some.inj h).symm⟩
    · cases h
  · rw [if_neg hjk] at h
    exact .inr ⟨Ne.symm hjk, h⟩

theorem append_cases {α : Type} {l : List α} {a b : α} {j : Nat} (h : (l ++ [a])[j]? = some b) :
    l[j]? = some b ∨ (j = l.length ∧ b = a) := by
  rw [List.getElem?_append] at h
  split at h
  · exact .inl h
  · rw [List.getElem?_singleton] at h
    split at h
    · exact .inr ⟨by omega, (Option.some.inj h).symm⟩
    · cases h

theorem getElem?_append_old {α : Type} {l : List α} (a : α) {j : Nat} {b : α} (h : l[j]? = some b) :
    (l ++ [a])[j]? = some b := by
  rw [List.getElem?_append_left (List.getElem?_eq_some_iff.mp h).1]
  exact h

/-- The calls, and what the coordinators count. -/
structure Inv (r : Partition n γ) : Prop where
  hint : r.slotHint = r.coordinators.length + 1
  bound : r.slotHint ≤ 2 ^ 31
  coordinator : ∀ (k : Nat) (c : Coordinator γ), r.coordinators[k]? = some c → c.slotId = k + 1 ∧ c.currBallot = 1 ∧
    c.event.quorum = n / 2 + 1 ∧ c.event.nTotal = n ∧ c.event.nVotedNo = 0 ∧
      (c.committed = true → c.event.yes = true)
  carries : ∀ m ∈ r.sent, r.Carries m
  distinct : (r.sent.map Call.key).Nodup
  ordered : ∀ (p q k slot b b' : Nat) (cmd cmd' : γ),
    r.sent[p]? = some (Call.accept k slot b cmd) → r.sent[q]? = some (Call.decide slot b' cmd') → p < q
  server : ∀ i, Paxos.Inv (r.replica i).toState
  handled : ∀ i, r.handled i ≤ r.sent.length
  decided : ∀ i, ∀ c ∈ (r.replica i).decided, ∃ p b, p < r.handled i ∧
    r.sent[p]? = some (Call.decide c.1 b c.2)
  ballots : ∀ i slot, (r.replica i).maxBallotSeen slot ≤ 1
  replies : ∀ a ∈ r.replies, a.maxBallot = 1 ∧ a.coordinator < r.coordinators.length
  votes : ∀ (k : Nat) (c : Coordinator γ), r.coordinators[k]? = some c → c.event.nVotedYes +
    r.replies.countP (fun a => a.coordinator == k) ≤ r.accepted.countP (fun a => a.1 == k)
  accepted : ∀ a ∈ r.accepted, ∃ p slot b cmd, p < r.handled a.2 ∧
    r.sent[p]? = some (Call.accept a.1 slot b cmd)
  once : r.accepted.Nodup

theorem Inv.place_unique {r : Partition n γ} (h : r.Inv) {p q : Nat} {m m' : Call γ}
    (hp : r.sent[p]? = some m) (hq : r.sent[q]? = some m') (hkey : m.key = m'.key) : p = q := by
  have hp' : (r.sent.map Call.key)[p]? = some m.key := by rw [List.getElem?_map, hp, Option.map_some]
  have hq' : (r.sent.map Call.key)[q]? = some m.key := by
    rw [List.getElem?_map, hq, Option.map_some, hkey]
  obtain ⟨hlt, hget⟩ := List.getElem?_eq_some_iff.mp hp'
  obtain ⟨hlt', hget'⟩ := List.getElem?_eq_some_iff.mp hq'
  exact (List.Nodup.getElem_inj_iff h.distinct).mp (hget.trans hget'.symm)

/-- The slot of a call that a replica has not handled yet was not decided there. -/
theorem Inv.undecided {r : Partition n γ} (h : r.Inv) {i : Fin n} {m : Call γ}
    (hm : r.sent[r.handled i]? = some m) : m.key.2 ∉ (r.replica i).decided.map Prod.fst := by
  intro hmem
  obtain ⟨c, hc, hslot⟩ := List.mem_map.mp hmem
  obtain ⟨p, b, hlt, hp⟩ := h.decided i c hc
  rw [hslot] at hp
  cases m with
  | accept k slot ballot cmd =>
    have hbefore := h.ordered _ _ _ _ _ _ _ _ hm hp
    omega
  | decide slot ballot cmd =>
    have hsame := h.place_unique hp hm rfl
    omega

theorem Inv.key_pos {r : Partition n γ} (h : r.Inv) {m : Call γ} (hm : m ∈ r.sent) :
    1 ≤ m.key.2 ∧ m.key.2 < 2 ^ 31 := by
  have hcarries := h.carries m hm
  have hhint := h.hint
  have hbound := h.bound
  cases m with
  | accept k slot ballot cmd =>
    obtain ⟨hk, hslot, -⟩ := hcarries
    simp only [Call.key]
    omega
  | decide slot ballot cmd =>
    obtain ⟨k, c, hslot, hc, -⟩ := hcarries
    have hk := (List.getElem?_eq_some_iff.mp hc).1
    simp only [Call.key]
    omega

theorem Inv.submit {r r' : Partition n γ} {cmd : γ} (h : r.Inv) (hallowed : r.Allowed (.submit cmd))
    (hstep : r.step (.submit cmd) = some r') : r'.Inv := by
  cases hstep
  have hfresh : ∀ m ∈ r.sent, m.key.2 ≠ r.slotHint := by
    intro m hm
    have hcarries := h.carries m hm
    have hhint := h.hint
    cases m with
    | accept k slot ballot cmd' =>
      obtain ⟨hk, hslot, -⟩ := hcarries
      simp only [Call.key]
      omega
    | decide slot ballot cmd' =>
      obtain ⟨k, c, hslot, hc, -⟩ := hcarries
      have hk := (List.getElem?_eq_some_iff.mp hc).1
      simp only [Call.key]
      omega
  have hold : ∀ (p : Nat) (m : Call γ), r.sent[p]? = some m →
      (r.sent ++ [Call.accept r.coordinators.length r.slotHint 1 cmd])[p]? = some m :=
    fun p m hm => getElem?_append_old _ hm
  constructor
  case hint => simp [h.hint]
  case bound => exact hallowed
  case coordinator =>
    intro k c hc
    rcases append_cases hc with hc | ⟨rfl, rfl⟩
    · exact h.coordinator k c hc
    · exact ⟨h.hint, rfl, rfl, rfl, rfl, fun hfalse => by cases hfalse⟩
  case carries =>
    intro m hm
    rcases List.mem_append.mp hm with hm | hm
    · exact Keeps.carries (fun k c hc => ⟨c, getElem?_append_old _ hc, rfl, id⟩) (h.carries m hm)
    · obtain rfl := List.mem_singleton.mp hm
      exact ⟨by simp, h.hint, rfl⟩
  case distinct =>
    rw [List.map_append, List.nodup_append]
    refine ⟨h.distinct, List.nodup_singleton _, fun a ha b hb hab => ?_⟩
    obtain ⟨m, hm, rfl⟩ := List.mem_map.mp ha
    rw [List.map_singleton, List.mem_singleton] at hb
    exact hfresh m hm (congrArg Prod.snd (hab.trans hb))
  case ordered =>
    intro p q k slot b b' cmd₁ cmd₂ hp hq
    rcases append_cases hq with hq | ⟨-, hq⟩
    · rcases append_cases hp with hp | ⟨-, hp⟩
      · exact h.ordered p q k slot b b' cmd₁ cmd₂ hp hq
      · cases hp
        exact absurd rfl (hfresh _ (List.mem_of_getElem? hq))
    · cases hq
  case server => exact h.server
  case handled => exact fun i => (h.handled i).trans (by simp)
  case decided =>
    intro i c hc
    obtain ⟨p, b, hlt, hp⟩ := h.decided i c hc
    exact ⟨p, b, hlt, hold p _ hp⟩
  case ballots => exact h.ballots
  case replies =>
    intro a ha
    obtain ⟨hballot, hlt⟩ := h.replies a ha
    exact ⟨hballot, by simpa using hlt.trans (Nat.lt_succ_self _)⟩
  case votes =>
    intro k c hc
    rcases append_cases hc with hc | ⟨rfl, rfl⟩
    · exact h.votes k c hc
    · have hnone : r.replies.countP (fun a => a.coordinator == r.coordinators.length) = 0 := by
        rw [List.countP_eq_zero]
        intro a ha heq
        have hlt := (h.replies a ha).2
        rw [beq_iff_eq] at heq
        omega
      simp [hnone]
  case accepted =>
    intro a ha
    obtain ⟨p, slot, b, cmd', hlt, hp⟩ := h.accepted a ha
    exact ⟨p, slot, b, cmd', hlt, hold p _ hp⟩
  case once => exact h.once

theorem le_update {f : Fin n → Nat} {i : Fin n} {k : Nat} (hk : f i ≤ k) (j : Fin n) :
    f j ≤ Function.update f i k j := by
  by_cases hj : j = i
  · rw [hj, Function.update_self]
    exact hk
  · rw [Function.update_of_ne hj]

theorem Inv.serve {r : Partition n γ} (h : r.Inv) {i : Fin n} {s : Replica γ} {k : Nat}
    (hs : Paxos.Inv s.toState) (hballots : ∀ slot, s.maxBallotSeen slot ≤ 1)
    (hk : r.handled i ≤ k) (hlen : k ≤ r.sent.length)
    (hdecided : ∀ c ∈ s.decided, c ∈ (r.replica i).decided ∨ ∃ p b, p < k ∧
      r.sent[p]? = some (Call.decide c.1 b c.2)) :
    Inv { r with
      replica := Function.update r.replica i s
      handled := Function.update r.handled i k } := by
  constructor
  case hint => exact h.hint
  case bound => exact h.bound
  case coordinator => exact h.coordinator
  case carries => exact fun m hm => Keeps.carries (r := r) (.of_eq rfl) (h.carries m hm)
  case distinct => exact h.distinct
  case ordered => exact h.ordered
  case server =>
    intro j
    by_cases hj : j = i
    · subst hj
      dsimp only
      rw [Function.update_self]
      exact hs
    · dsimp only
      rw [Function.update_of_ne hj]
      exact h.server j
  case handled =>
    intro j
    by_cases hj : j = i
    · subst hj
      dsimp only
      rw [Function.update_self]
      exact hlen
    · dsimp only
      rw [Function.update_of_ne hj]
      exact h.handled j
  case decided =>
    intro j c hc
    have hle := le_update hk j
    dsimp only at hc ⊢
    by_cases hj : j = i
    · subst hj
      rw [Function.update_self] at hc hle ⊢
      obtain hold | hnew := hdecided c hc
      · obtain ⟨p, b, hlt, hp⟩ := h.decided j c hold
        exact ⟨p, b, hlt.trans_le hle, hp⟩
      · exact hnew
    · rw [Function.update_of_ne hj] at hc
      obtain ⟨p, b, hlt, hp⟩ := h.decided j c hc
      exact ⟨p, b, hlt.trans_le hle, hp⟩
  case ballots =>
    intro j slot
    dsimp only
    by_cases hj : j = i
    · subst hj
      rw [Function.update_self]
      exact hballots slot
    · rw [Function.update_of_ne hj]
      exact h.ballots j slot
  case replies => exact h.replies
  case votes => exact h.votes
  case accepted =>
    intro a ha
    obtain ⟨p, slot, b, cmd, hlt, hp⟩ := h.accepted a ha
    exact ⟨p, slot, b, cmd, hlt.trans_le (le_update hk a.2), hp⟩
  case once => exact h.once

theorem Inv.answer {r : Partition n γ} (h : r.Inv) {i : Fin n} {p k slot ballot : Nat} {cmd : γ}
    (hp : r.sent[p]? = some (.accept k slot ballot cmd)) (hlt : p < r.handled i)
    (hnew : (k, i) ∉ r.accepted) :
    Inv { r with replies := r.replies ++ [⟨k, ballot⟩], accepted := r.accepted ++ [(k, i)] } := by
  obtain ⟨hk, -, hballot⟩ := h.carries _ (List.mem_of_getElem? hp)
  refine ⟨h.hint, h.bound, h.coordinator, ?_, h.distinct, h.ordered, h.server, h.handled, h.decided, h.ballots,
    fun a ha => ?_, fun j c hc => ?_, fun a ha => ?_, ?_⟩
  · exact fun m hm => Keeps.carries (r := r) (.of_eq rfl) (h.carries m hm)
  · rcases List.mem_append.mp ha with ha | ha
    · exact h.replies a ha
    · obtain rfl := List.mem_singleton.mp ha
      exact ⟨hballot, hk⟩
  · have hold := h.votes j c hc
    dsimp only
    rw [List.countP_append, List.countP_append, List.countP_singleton, List.countP_singleton]
    dsimp only
    split <;> omega
  · rcases List.mem_append.mp ha with ha | ha
    · exact h.accepted a ha
    · obtain rfl := List.mem_singleton.mp ha
      exact ⟨p, slot, ballot, cmd, hlt, hp⟩
  · rw [List.nodup_append]
    refine ⟨h.once, List.nodup_singleton _, fun a ha b hb hab => ?_⟩
    rw [List.mem_singleton.mp hb] at hab
    exact hnew (hab ▸ ha)

/-- An `Accept` finds its instance, and no ballot above its own. -/
theorem Inv.accept {r : Partition n γ} (h : r.Inv) {i : Fin n} {k slot ballot : Nat} {cmd : γ}
    (hm : r.sent[r.handled i]? = some (.accept k slot ballot cmd)) :
    ∃ r', r.handle i (.accept k slot ballot cmd) = some r' ∧ r'.Inv := by
  have hmem := List.mem_of_getElem? hm
  obtain ⟨-, -, rfl⟩ := h.carries _ hmem
  have hlater : (r.replica i).maxExecutedSlot < slot :=
    (h.server i).executed_lt (h.key_pos hmem).1 (h.undecided hm)
  obtain ⟨t, d, hget, ht⟩ := (h.server i).instance hlater
  have hnew : (k, i) ∉ r.accepted := by
    intro hold
    obtain ⟨p, slot', b, cmd', hlt, hp⟩ := h.accepted _ hold
    have hslot := (h.carries _ hmem).2.1
    have hslot' := (h.carries _ (List.mem_of_getElem? hp)).2.1
    have hsame := h.place_unique hp hm (by simp only [Call.key]; rw [hslot, hslot'])
    dsimp only at hlt
    omega
  have hserved := h.serve (i := i) (k := r.handled i + 1) (s := { r.replica i with
    toPaxosServer := t
    maxBallotSeen := Function.update (r.replica i).maxBallotSeen slot 1
    maxBallotAccepted := Function.update (r.replica i).maxBallotAccepted slot 1 }) ht
    (fun slot' => ?_) (Nat.le_succ _) (List.getElem?_eq_some_iff.mp hm).1 fun c hc => .inl hc
  · refine ⟨_, ?_, hserved.answer (i := i) (p := r.handled i) hm ?_ hnew⟩
    · simp only [handle]
      rw [Replica.onAccept_eq hget (h.ballots i slot)]
      rfl
    · dsimp only
      rw [Function.update_self]
      exact Nat.lt_succ_self _
  · dsimp only
    by_cases hslot : slot' = slot
    · rw [hslot, Function.update_self]
    · rw [Function.update_of_ne hslot]
      exact h.ballots i slot'

/-- A decision is of a slot that was not decided before. -/
theorem Inv.decide {r : Partition n γ} (h : r.Inv) {i : Fin n} {slot ballot : Nat} {cmd : γ}
    (hm : r.sent[r.handled i]? = some (.decide slot ballot cmd)) :
    ∃ r', r.handle i (.decide slot ballot cmd) = some r' ∧ r'.Inv := by
  have hmem := List.mem_of_getElem? hm
  have hcommit : ∃ t, (r.replica i).toState.onCommit slot cmd = some t ∧ Paxos.Inv t ∧
      (r.replica i).toState.FreesExecuted t.toPaxosServer :=
    (h.server i).onCommit cmd (h.key_pos hmem) (h.undecided hm)
  obtain ⟨s, hs, hinv, -⟩ := hcommit
  refine ⟨_, ?_, h.serve (i := i) (s := { r.replica i with toState := s }) (k := r.handled i + 1) hinv
    (h.ballots i) (Nat.le_succ _) (List.getElem?_eq_some_iff.mp hm).1 fun c hc => ?_⟩
  · simp only [handle]
    rw [show (r.replica i).onCommit slot cmd = some s from hs]
    rfl
  · change c ∈ s.decided at hc
    rw [State.onCommit_decided hs, List.mem_append, List.mem_singleton] at hc
    rcases hc with hc | rfl
    · exact .inl hc
    · exact .inr ⟨r.handled i, ballot, Nat.lt_succ_self _, hm⟩

theorem Inv.deliver {r : Partition n γ} (h : r.Inv) {i : Fin n} (hallowed : r.Allowed (.deliver i)) :
    ∃ r', r.step (.deliver i) = some r' ∧ r'.Inv := by
  have hm : r.sent[r.handled i]? = some r.sent[r.handled i] := List.getElem?_eq_getElem hallowed
  generalize r.sent[r.handled i] = m at hm
  have hhandled : ∃ r', r.handle i m = some r' ∧ r'.Inv := by
    cases m with
    | accept k slot ballot cmd => exact h.accept hm
    | decide slot ballot cmd => exact h.decide hm
  obtain ⟨r', hr', hinv⟩ := hhandled
  refine ⟨r', ?_, hinv⟩
  simp only [step]
  rw [hm, Option.bind_some, hr']

theorem Inv.lose {r : Partition n γ} (h : r.Inv) {i : Fin n} (hallowed : r.Allowed (.lose i)) :
    ∃ r', r.step (.lose i) = some r' ∧ r'.Inv := by
  have hserved := h.serve (i := i) (s := r.replica i) (k := r.handled i + 1) (h.server i) (h.ballots i)
    (Nat.le_succ _) hallowed fun c hc => .inl hc
  rw [Function.update_eq_self] at hserved
  exact ⟨_, rfl, hserved⟩

theorem Inv.appNext {r : Partition n γ} (h : r.Inv) {i : Fin n} {coroutine : Nat}
    (hallowed : r.Allowed (.resume i coroutine)) :
    ∃ r', r.step (.resume i coroutine) = some r' ∧ r'.Inv := by
  obtain ⟨s, hs, hinv, -, hdecided, -⟩ := (h.server i).resume hallowed
  have hserved := h.serve (i := i) (s := { r.replica i with toState := s }) (k := r.handled i) hinv
    (h.ballots i) (le_refl _) (h.handled i) fun c hc => .inl (hdecided ▸ hc)
  rw [Function.update_eq_self] at hserved
  refine ⟨_, ?_, hserved⟩
  simp only [step]
  rw [hs]
  rfl

theorem Inv.coordinator_set {r : Partition n γ} (h : r.Inv) {k : Nat} {c d : Coordinator γ}
    (hc : r.coordinators[k]? = some c) (hslot : d.slotId = c.slotId)
    (hballot : d.currBallot = c.currBallot) (hquorum : d.event.quorum = c.event.quorum)
    (htotal : d.event.nTotal = c.event.nTotal) (hno : d.event.nVotedNo = c.event.nVotedNo)
    (hyes : d.committed = true → d.event.yes = true) (j : Nat) (e : Coordinator γ)
    (he : (r.coordinators.set k d)[j]? = some e) : e.slotId = j + 1 ∧ e.currBallot = 1 ∧
      e.event.quorum = n / 2 + 1 ∧ e.event.nTotal = n ∧ e.event.nVotedNo = 0 ∧
        (e.committed = true → e.event.yes = true) := by
  obtain ⟨rfl, rfl⟩ | ⟨-, hold⟩ := set_cases he
  · obtain ⟨hslot', hballot', hquorum', htotal', hno', -⟩ := h.coordinator j c hc
    exact ⟨hslot.trans hslot', hballot.trans hballot', hquorum.trans hquorum', htotal.trans htotal',
      hno.trans hno', hyes⟩
  · exact h.coordinator j e hold

theorem countP_eraseIdx {α : Type} (p : α → Bool) {l : List α} {k : Nat} {a : α}
    (h : l[k]? = some a) : (l.eraseIdx k).countP p + (if p a then 1 else 0) = l.countP p := by
  obtain ⟨hlt, hget⟩ := List.getElem?_eq_some_iff.mp h
  have hperm := List.getElem_cons_eraseIdx_perm hlt
  rw [← hperm.countP_eq, List.countP_cons, hget]

/-- A reply has the ballot of its coordinator, which counts it once. -/
theorem Inv.reply {r : Partition n γ} (h : r.Inv) {k : Nat} (hallowed : r.Allowed (.reply k)) :
    ∃ r', r.step (.reply k) = some r' ∧ r'.Inv := by
  have ha : r.replies[k]? = some r.replies[k] := List.getElem?_eq_getElem hallowed
  generalize r.replies[k] = a at ha
  obtain ⟨hballot, hlt⟩ := h.replies a (List.mem_of_getElem? ha)
  obtain ⟨c, hc⟩ : ∃ c, r.coordinators[a.coordinator]? = some c := ⟨_, List.getElem?_eq_getElem hlt⟩
  obtain ⟨-, hcurr, -, -, -, hcommitted⟩ := h.coordinator _ c hc
  have hfed : c.feedResponse a.maxBallot = { c with event := c.event.voteYes } := by
    unfold Coordinator.feedResponse
    rw [if_pos (hballot.trans hcurr.symm)]
  have hmore : c.event.yes = true → c.event.voteYes.yes = true := by
    intro hyes
    have hle : c.event.quorum ≤ c.event.nVotedYes := of_decide_eq_true hyes
    exact decide_eq_true (hle.trans (Nat.le_succ _))
  refine ⟨{ r with
    coordinators := r.coordinators.set a.coordinator { c with event := c.event.voteYes }
    replies := r.replies.eraseIdx k }, ?_, ?_⟩
  · simp only [step]
    rw [ha, Option.bind_eq_bind, Option.bind_some, hc, Option.bind_eq_bind, Option.bind_some, hfed]
    rfl
  refine ⟨?_, h.bound, h.coordinator_set (d := { c with event := c.event.voteYes }) hc rfl rfl rfl rfl
    rfl fun hdone => hmore (hcommitted hdone),
    fun m hm => ?_, h.distinct, h.ordered, h.server, h.handled, h.decided, h.ballots, fun b hb => ?_,
    fun j d hd => ?_, h.accepted, h.once⟩
  · rw [List.length_set]
    exact h.hint
  · exact (keeps_set (d := { c with event := c.event.voteYes }) hc rfl rfl id).carries (h.carries m hm)
  · rw [List.length_set]
    exact h.replies b (List.mem_of_mem_eraseIdx hb)
  · have herase := countP_eraseIdx (fun b : Reply => b.coordinator == j) ha
    obtain ⟨rfl, rfl⟩ | ⟨hne, hold⟩ := set_cases hd
    · have hvotes := h.votes _ c hc
      rw [beq_self_eq_true, if_pos rfl] at herase
      simp only [QuorumEvent.voteYes]
      omega
    · have hvotes := h.votes j d hold
      dsimp only
      omega

theorem Inv.commit {r : Partition n γ} (h : r.Inv) {k : Nat} (hallowed : r.Allowed (.quorum k)) :
    ∃ r', r.step (.quorum k) = some r' ∧ r'.Inv := by
  obtain ⟨c, hc, hwaits, hready⟩ := hallowed
  obtain ⟨hslot, hcurr, hquorum, htotal, hno, -⟩ := h.coordinator k c hc
  have hyes : c.event.yes = true := by
    refine hready.resolve_right fun hnot => ?_
    simp only [QuorumEvent.no, hno, decide_eq_true_eq] at hnot
    omega
  have hkeeps : r.Keeps { r with coordinators := r.coordinators.set k { c with committed := true } } :=
    keeps_set (d := { c with committed := true }) hc rfl rfl fun _ => rfl
  have hkc : (r.coordinators.set k { c with committed := true })[k]? =
      some { c with committed := true } := by
    rw [List.getElem?_set, if_pos rfl, if_pos (List.getElem?_eq_some_iff.mp hc).1]
  have hfresh : ∀ slot b cmd, Call.decide slot b cmd ∈ r.sent → slot ≠ c.slotId := by
    rintro slot b cmd hmem rfl
    obtain ⟨k', c', hslot', hc', hdone, -⟩ := h.carries _ hmem
    obtain rfl : k = k' := by omega
    obtain rfl := Option.some.inj (hc.symm.trans hc')
    rw [hwaits] at hdone
    cases hdone
  refine ⟨{ r with
    coordinators := r.coordinators.set k { c with committed := true }
    sent := r.sent ++ [.decide c.slotId c.currBallot c.cmd] }, ?_, ?_⟩
  · simp only [step]
    rw [hc, Option.bind_eq_bind, Option.bind_some, if_pos hyes]
    rfl
  constructor
  case hint =>
    rw [List.length_set]
    exact h.hint
  case bound => exact h.bound
  case coordinator =>
    exact h.coordinator_set (d := { c with committed := true }) hc rfl rfl rfl rfl rfl fun _ => hyes
  case carries =>
    intro m hm
    rcases List.mem_append.mp hm with hm | hm
    · have hcarries := hkeeps.carries (h.carries m hm)
      exact hcarries
    · obtain rfl := List.mem_singleton.mp hm
      exact ⟨k, _, hslot, hkc, rfl, rfl⟩
  case distinct =>
    rw [List.map_append, List.nodup_append]
    refine ⟨h.distinct, List.nodup_singleton _, fun a ha b hb hab => ?_⟩
    obtain ⟨m, hm, rfl⟩ := List.mem_map.mp ha
    rw [List.map_singleton, List.mem_singleton] at hb
    rw [hb] at hab
    cases m with
    | accept k' slot b' cmd => cases congrArg Prod.fst hab
    | decide slot b' cmd => exact hfresh slot b' cmd hm (congrArg Prod.snd hab)
  case ordered =>
    intro p q k' slot b b' cmd cmd' hp hq
    rcases append_cases hp with hp | ⟨-, hp⟩
    · rcases append_cases hq with hq | ⟨hq, -⟩
      · exact h.ordered p q k' slot b b' cmd cmd' hp hq
      · rw [hq]
        exact (List.getElem?_eq_some_iff.mp hp).1
    · cases hp
  case server => exact h.server
  case handled => exact fun i => (h.handled i).trans (by simp)
  case decided =>
    intro i d hd
    obtain ⟨p, b, hlt, hp⟩ := h.decided i d hd
    exact ⟨p, b, hlt, getElem?_append_old _ hp⟩
  case ballots => exact h.ballots
  case replies =>
    intro a ha
    rw [List.length_set]
    exact h.replies a ha
  case votes =>
    intro j d hd
    obtain ⟨rfl, rfl⟩ | ⟨-, hold⟩ := set_cases hd
    · exact h.votes j c hc
    · exact h.votes j d hold
  case accepted =>
    intro a ha
    obtain ⟨p, slot, b, cmd, hlt, hp⟩ := h.accepted a ha
    exact ⟨p, slot, b, cmd, hlt, getElem?_append_old _ hp⟩
  case once => exact h.once

theorem Inv.initial : ({} : Partition n γ).Inv where
  hint := rfl
  bound := Nat.one_le_two_pow
  coordinator k c hc := by cases hc
  carries m hm := by cases hm
  distinct := List.nodup_nil
  ordered p q k slot b b' cmd cmd' hp := by cases hp
  server _ := .initial
  handled _ := le_refl 0
  decided i c hc := by cases hc
  ballots _ _ := Nat.zero_le 1
  replies a ha := by cases ha
  votes k c hc := by cases hc
  accepted a ha := by cases ha
  once := List.nodup_nil

theorem Inv.step {r : Partition n γ} (h : r.Inv) {e : PartitionEvent n γ} (hallowed : r.Allowed e) :
    ∃ r', r.step e = some r' ∧ r'.Inv := by
  cases e with
  | submit cmd => exact ⟨_, rfl, h.submit hallowed rfl⟩
  | deliver i => exact h.deliver hallowed
  | lose i => exact h.lose hallowed
  | reply k => exact h.reply hallowed
  | quorum k => exact h.commit hallowed
  | resume i coroutine => exact h.appNext hallowed

theorem inv_of_reachable {ok : Partition n γ → PartitionEvent n γ → Prop}
    (hok : ∀ r e, ok r e → r.Allowed e) {r : Partition n γ}
    (h : ReachableWhere Partition.step ok {} r) : r.Inv := by
  refine h.invariant (fun r e r' hr he hstep => ?_) .initial
  obtain ⟨q, hq, hinv⟩ := hr.step (hok r e he)
  obtain rfl := Option.some.inj (hstep.symm.trans hq)
  exact hinv

end Partition

end Jetpack.Paxos
