import Jetpack.Copilot.Server
import Jetpack.Library.Transition

/-! Runs of Copilot: the two pilots, each with a coordinator for every entry it proposes, and `n`
replicas. A request of a coordinator reaches a replica at most once, at any time or never, and so
does the answer. Takeovers are left out: the source has the call that starts one commented out. -/

namespace Jetpack.Copilot

variable {n : Nat} {α : Type}

def maxFailure (total : Nat) : Nat := total / 2

def fastQuorumSize (total : Nat) : Nat := maxFailure total + (maxFailure total + 1) / 2

def quorumSize (total : Nat) : Nat := maxFailure total + 1

inductive Rpc (β : Type)
  | idle
  | sent
  | replied (r : β)
  | done
  deriving Repr, DecidableEq

def Rpc.handled {β : Type} : Rpc β → Bool
  | .idle | .sent => false
  | .replied _ | .done => true

inductive Phase
  | fastAccept
  | accept
  | commit
  deriving Repr, DecidableEq

structure FastReply (n : Nat) where
  site : Fin n
  yes : Bool
  ok : Bool
  dep : Nat
  deriving DecidableEq

structure FastAcceptEvent (n : Nat) where
  fed : List (FastReply n) := []

namespace FastAcceptEvent

variable (e : FastAcceptEvent n)

def nVotedYes : Nat := e.fed.countP (·.yes)

def nVotedNo : Nat := e.fed.countP (!·.yes)

def nFastacOk : Nat := e.fed.countP (fun r => r.yes && r.ok)

def retDeps : List Nat := (e.fed.filter (·.yes)).map (·.dep)

def fastYes : Bool := fastQuorumSize n ≤ e.nFastacOk

def yes : Bool := fastQuorumSize n ≤ e.nVotedYes

def no : Bool := n - fastQuorumSize n < e.nVotedNo

/-- `FeedResponse`, and `FeedRetDep` after a yes. -/
def feed (r : FastReply n) : Option (FastAcceptEvent n) :=
  if r.yes ∧ n ≤ e.retDeps.length then none else some ⟨e.fed ++ [r]⟩

def getFinalDep : Option Nat :=
  if n / 2 + 1 ≤ e.retDeps.length then e.retDeps.mergeSort[n / 2]? else none

end FastAcceptEvent

structure AcceptEvent where
  nVotedYes : Nat := 0
  nVotedNo : Nat := 0

def AcceptEvent.feedResponse (e : AcceptEvent) (y : Bool) : AcceptEvent :=
  if y then { e with nVotedYes := e.nVotedYes + 1 } else { e with nVotedNo := e.nVotedNo + 1 }

def AcceptEvent.isReady (e : AcceptEvent) (n : Nat) : Bool :=
  quorumSize n ≤ e.nVotedYes || n - quorumSize n < e.nVotedNo

/-- The coordinator of one entry. `initDep` is the dependency its FastAccept carries, `dep` the one
its Accept and Commit carry. -/
structure Coordinator (n : Nat) (α : Type) where
  host : Fin n
  cmd : α
  ballot : Nat
  initDep : Nat
  dep : Nat
  phase : Phase := .fastAccept
  fast : Fin n → Rpc (Nat × Nat) := fun _ => .sent
  fastEvent : FastAcceptEvent n := {}
  accept : Fin n → Rpc Nat := fun _ => .idle
  acceptEvent : AcceptEvent := {}
  commit : Fin n → Rpc Unit := fun _ => .idle

def makeUniqueBallot (ballot locId : Nat) : Nat := ballot <<< 8 ||| locId

/-- The replica at locale 0 is the pilot and the one at locale 1 the copilot. -/
def roleOf (i : Fin n) : Option Side :=
  if i.val = 0 then some .pilot else if i.val = 1 then some .copilot else none

/-- `submitted p` bounds the slots the pilot of side `p` has assigned. -/
structure System (n : Nat) (α : Type) where
  server : Fin n → CopilotServer α
  coord : Side → Nat → Option (Coordinator n α)
  submitted : Side → Nat

inductive Event (n : Nat) (α : Type)
  | submit (i : Fin n) (cmd : α)
  | deliverFast (p : Side) (slot : Nat) (i : Fin n)
  | feedFast (p : Side) (slot : Nat) (i : Fin n)
  | finishFast (p : Side) (slot : Nat)
  | deliverAccept (p : Side) (slot : Nat) (i : Fin n)
  | feedAccept (p : Side) (slot : Nat) (i : Fin n)
  | finishAccept (p : Side) (slot : Nat)
  | deliverCommit (p : Side) (slot : Nat) (i : Fin n)
  | executeCmd (i : Fin n) (p : Side) (slot : Nat)
  | eliminateNullDep (i : Fin n) (p : Side) (slot : Nat) (allCommitted : Bool)
  | freeCmds (i : Fin n) (p : Side)

namespace Coordinator

variable (c : Coordinator n α)

/-- The answer of the coordinator's own replica is not looked at: it counts as a yes to the initial
dependency. -/
def answerFast (i : Fin n) (r : Nat × Nat) : Option (Coordinator n α) :=
  if i = c.host then do
    let e ← c.fastEvent.feed ⟨i, true, true, c.initDep⟩
    return { c with fast := Function.update c.fast i .done, fastEvent := e }
  else
    some { c with fast := Function.update c.fast i (.replied r) }

def feedFast (i : Fin n) : Option (Coordinator n α) :=
  match c.fast i with
  | .replied (b, suggest) => do
    let e ← c.fastEvent.feed ⟨i, c.ballot == b, suggest == c.initDep, suggest⟩
    return { c with fast := Function.update c.fast i .done, fastEvent := e }
  | _ => none

def startCommit : Coordinator n α :=
  { c with phase := .commit, commit := fun _ => .sent }

/-- The end of `FastAccept`, once the event is ready. -/
def finishFast : Option (Coordinator n α) :=
  if c.phase ≠ .fastAccept ∨ !(c.fastEvent.yes || c.fastEvent.no) then none
  else if c.fastEvent.fastYes then some c.startCommit
  else if c.fastEvent.yes then do
    let dep ← c.fastEvent.getFinalDep
    return { c with dep := dep, phase := .accept, accept := fun _ => .sent }
  else none

def answerAccept (i : Fin n) (b : Nat) : Coordinator n α :=
  if i = c.host then
    { c with accept := Function.update c.accept i .done
             acceptEvent := c.acceptEvent.feedResponse true }
  else
    { c with accept := Function.update c.accept i (.replied b) }

def feedAccept (i : Fin n) : Option (Coordinator n α) :=
  match c.accept i with
  | .replied b =>
    some { c with accept := Function.update c.accept i .done
                  acceptEvent := c.acceptEvent.feedResponse (c.ballot == b) }
  | _ => none

/-- The end of `Accept`; the source goes on to `Commit` whatever the votes are. -/
def finishAccept : Option (Coordinator n α) :=
  if c.phase = .accept ∧ c.acceptEvent.isReady n then some c.startCommit else none

def deliveredCommit (i : Fin n) : Coordinator n α :=
  { c with commit := Function.update c.commit i .done }

end Coordinator

namespace System

def init : System n α := ⟨fun _ => .setup, fun _ _ => none, fun _ => 0⟩

def setServer (s : System n α) (i : Fin n) (r : CopilotServer α) : System n α :=
  { s with server := Function.update s.server i r }

def setCoord (s : System n α) (p : Side) (slot : Nat) (c : Coordinator n α) : System n α :=
  { s with coord := Function.update s.coord p (Function.update (s.coord p) slot (some c)) }

def submit (s : System n α) (i : Fin n) (cmd : α) : Option (System n α) := do
  let p ← roleOf i
  let (r, slot, dep) := (s.server i).pickInitSlotAndDep p
  let c : Coordinator n α :=
    { host := i, cmd := cmd, ballot := makeUniqueBallot 0 i.val, initDep := dep, dep := dep }
  return { (s.setServer i r).setCoord p slot c with
    submitted := Function.update s.submitted p (max (s.submitted p) slot) }

def deliverFast (s : System n α) (p : Side) (slot : Nat) (i : Fin n) : Option (System n α) := do
  let c ← s.coord p slot
  if c.fast i matches .sent then
    let (r, reply) ← (s.server i).onFastAccept p slot c.ballot c.initDep c.cmd
    let c' ← c.answerFast i reply
    return (s.setServer i r).setCoord p slot c'
  else none

def feedFast (s : System n α) (p : Side) (slot : Nat) (i : Fin n) : Option (System n α) := do
  let c ← s.coord p slot
  let c' ← c.feedFast i
  return s.setCoord p slot c'

def finishFast (s : System n α) (p : Side) (slot : Nat) : Option (System n α) := do
  let c ← s.coord p slot
  let c' ← c.finishFast
  return s.setCoord p slot c'

def deliverAccept (s : System n α) (p : Side) (slot : Nat) (i : Fin n) : Option (System n α) := do
  let c ← s.coord p slot
  if c.accept i matches .sent then
    let (r, b) := (s.server i).onAccept p slot c.ballot c.dep c.cmd
    return (s.setServer i r).setCoord p slot (c.answerAccept i b)
  else none

def feedAccept (s : System n α) (p : Side) (slot : Nat) (i : Fin n) : Option (System n α) := do
  let c ← s.coord p slot
  let c' ← c.feedAccept i
  return s.setCoord p slot c'

def finishAccept (s : System n α) (p : Side) (slot : Nat) : Option (System n α) := do
  let c ← s.coord p slot
  let c' ← c.finishAccept
  return s.setCoord p slot c'

def deliverCommit (s : System n α) (p : Side) (slot : Nat) (i : Fin n) : Option (System n α) := do
  let c ← s.coord p slot
  if c.commit i matches .sent then
    return (s.setServer i ((s.server i).onCommit p slot c.dep c.cmd)).setCoord p slot
      (c.deliveredCommit i)
  else none

end System

def step (s : System n α) : Event n α → Option (System n α)
  | .submit i cmd => s.submit i cmd
  | .deliverFast p slot i => s.deliverFast p slot i
  | .feedFast p slot i => s.feedFast p slot i
  | .finishFast p slot => s.finishFast p slot
  | .deliverAccept p slot i => s.deliverAccept p slot i
  | .feedAccept p slot i => s.feedAccept p slot i
  | .finishAccept p slot => s.finishAccept p slot
  | .deliverCommit p slot i => s.deliverCommit p slot i
  | .executeCmd i p slot => (s.setServer i ·) <$> (s.server i).executeCmd p slot
  | .eliminateNullDep i p slot all => (s.setServer i ·) <$> (s.server i).eliminateNullDep p slot all
  | .freeCmds i p => (s.setServer i ·) <$> (s.server i).freeCmds p

/-- What a coordinator keeps over all its steps: what it was made with, and its dependency from the
end of the FastAccept round on. -/
structure Coordinator.Advances (c c' : Coordinator n α) : Prop where
  host : c'.host = c.host
  cmd : c'.cmd = c.cmd
  ballot : c'.ballot = c.ballot
  initDep : c'.initDep = c.initDep
  dep : c.phase ≠ .fastAccept → c'.dep = c.dep
  commit : c.phase = .commit → c'.phase = .commit
  sent : ((∃ i, c.commit i ≠ .idle) → c.phase = .commit) → (∃ i, c'.commit i ≠ .idle) →
    c'.phase = .commit

namespace Coordinator

variable {c c' : Coordinator n α}

theorem advances_answerFast {i : Fin n} {r : Nat × Nat} (h : c.answerFast i r = some c') :
    c.Advances c' := by
  unfold answerFast at h
  split_ifs at h
  · obtain ⟨e, -, h⟩ := Option.bind_eq_some_iff.mp h
    cases h
    exact ⟨rfl, rfl, rfl, rfl, fun _ => rfl, id, id⟩
  · cases h
    exact ⟨rfl, rfl, rfl, rfl, fun _ => rfl, id, id⟩

theorem advances_feedFast {i : Fin n} (h : c.feedFast i = some c') : c.Advances c' := by
  unfold feedFast at h
  split at h
  · obtain ⟨e, -, h⟩ := Option.bind_eq_some_iff.mp h
    cases h
    exact ⟨rfl, rfl, rfl, rfl, fun _ => rfl, id, id⟩
  · cases h

theorem finishFast_cases (h : c.finishFast = some c') :
    c.phase = .fastAccept ∧ (c.fastEvent.fastYes = true ∧ c' = c.startCommit ∨
      ∃ dep, c.fastEvent.getFinalDep = some dep ∧
        c' = { c with dep := dep, phase := .accept, accept := fun _ => .sent }) := by
  unfold finishFast at h
  split_ifs at h with hguard hfast hyes
  · cases h
    exact ⟨by_contra fun hno => hguard (.inl hno), .inl ⟨hfast, rfl⟩⟩
  · obtain ⟨dep, hdep, h⟩ := Option.bind_eq_some_iff.mp h
    cases h
    exact ⟨by_contra fun hno => hguard (.inl hno), .inr ⟨dep, hdep, rfl⟩⟩

theorem advances_finishFast (h : c.finishFast = some c') : c.Advances c' := by
  obtain ⟨hphase, ⟨-, rfl⟩ | ⟨dep, -, rfl⟩⟩ := finishFast_cases h
  · exact ⟨rfl, rfl, rfl, rfl, fun _ => rfl, fun _ => rfl, fun _ _ => rfl⟩
  · refine ⟨rfl, rfl, rfl, rfl, fun hno => absurd hphase hno, fun hcommit => ?_, fun hs hi => ?_⟩
    · rw [hphase] at hcommit
      cases hcommit
    · have := hs hi
      rw [hphase] at this
      cases this

theorem advances_answerAccept (i : Fin n) (b : Nat) : c.Advances (c.answerAccept i b) := by
  unfold answerAccept
  split_ifs
  · exact ⟨rfl, rfl, rfl, rfl, fun _ => rfl, id, id⟩
  · exact ⟨rfl, rfl, rfl, rfl, fun _ => rfl, id, id⟩

theorem advances_feedAccept {i : Fin n} (h : c.feedAccept i = some c') : c.Advances c' := by
  unfold feedAccept at h
  split at h
  · cases h
    exact ⟨rfl, rfl, rfl, rfl, fun _ => rfl, id, id⟩
  · cases h

theorem advances_finishAccept (h : c.finishAccept = some c') : c.Advances c' := by
  unfold finishAccept at h
  split_ifs at h
  cases h
  exact ⟨rfl, rfl, rfl, rfl, fun _ => rfl, fun _ => rfl, fun _ _ => rfl⟩

theorem advances_deliveredCommit {i : Fin n} (h : c.commit i = .sent) :
    c.Advances (c.deliveredCommit i) :=
  ⟨rfl, rfl, rfl, rfl, fun _ => rfl, id, fun hs _ => hs ⟨i, by simp [h]⟩⟩

end Coordinator

theorem roleOf_injective {i j : Fin n} {p : Side} (hi : roleOf i = some p)
    (hj : roleOf j = some p) : i = j := by
  unfold roleOf at hi hj
  apply Fin.ext
  split_ifs at hi hj <;> cases hi <;> first | omega | cases hj

/-- Every coordinator belongs to its pilot and has a slot that this pilot has assigned. -/
structure WellFormed (s : System n α) : Prop where
  role : ∀ p k c, s.coord p k = some c → roleOf c.host = some p
  slot : ∀ p k c, s.coord p k = some c →
    0 < k ∧ k ≤ ((s.server c.host).logInfos p).currentSlot ∧ k ≤ s.submitted p
  sent : ∀ p k c, s.coord p k = some c → (∃ i, c.commit i ≠ .idle) → c.phase = .commit

theorem wellFormed_init : WellFormed (System.init : System n α) := by
  constructor <;> exact fun p k c h => by cases h

namespace System

variable {s : System n α}

theorem coord_setCoord_self (p : Side) (k : Nat) (c : Coordinator n α) :
    (s.setCoord p k c).coord p k = some c := by
  simp [setCoord]

theorem coord_setCoord_ne {p q : Side} {k l : Nat} (c : Coordinator n α)
    (h : ¬ (q = p ∧ l = k)) : (s.setCoord p k c).coord q l = s.coord q l := by
  by_cases hq : q = p
  · subst hq
    have hl : l ≠ k := fun hl => h ⟨rfl, hl⟩
    simp [setCoord, hl]
  · simp [setCoord, hq]

@[simp]
theorem server_setServer_self (i : Fin n) (r : CopilotServer α) : (s.setServer i r).server i = r := by
  simp [setServer]

theorem server_setServer_ne {i j : Fin n} (r : CopilotServer α) (h : j ≠ i) :
    (s.setServer i r).server j = s.server j := by
  simp [setServer, h]

theorem entry_of_erases {i j : Fin n} {r : CopilotServer α} (hr : Erases (s.server i) r) {q : Side}
    {k : Nat} {e : CopilotData α} (he : ((s.setServer i r).server j).entry q k = some e) :
    (s.server j).entry q k = some e := by
  by_cases hj : j = i
  · subst hj
    rw [server_setServer_self] at he
    exact hr.entry_eq q k e he
  · rwa [server_setServer_ne _ hj] at he

/-- An entry of a server is the one just written or was there before. -/
theorem entry_of_writes {i j : Fin n} {r : CopilotServer α} {p : Side} {slot : Nat} {d : CopilotData α}
    (hr : Writes (s.server i) r p slot d) {q : Side} {k : Nat} {e : CopilotData α}
    (he : ((s.setServer i r).server j).entry q k = some e) :
    (q = p ∧ k = slot ∧ e = d) ∨ (s.server j).entry q k = some e := by
  by_cases hj : j = i
  · subst hj
    rw [server_setServer_self] at he
    by_cases hqk : q = p ∧ k = slot
    · obtain ⟨rfl, rfl⟩ := hqk
      rw [hr.entry_self] at he
      exact .inl ⟨rfl, rfl, (Option.some.inj he).symm⟩
    · rw [hr.entry_ne q k hqk] at he
      exact .inr he
  · rw [server_setServer_ne _ hj] at he
    exact .inr he

/-- A step of a coordinator alone. -/
theorem setCoord_eq_some {t : System n α} {p : Side} {slot : Nat}
    {f : Coordinator n α → Option (Coordinator n α)}
    (h : (do let c ← s.coord p slot; let c' ← f c; return s.setCoord p slot c') = some t) :
    ∃ c c', s.coord p slot = some c ∧ f c = some c' ∧ t = s.setCoord p slot c' := by
  obtain ⟨c, hc, h⟩ := Option.bind_eq_some_iff.mp h
  obtain ⟨c', hc', h⟩ := Option.bind_eq_some_iff.mp h
  cases h
  exact ⟨c, c', hc, hc', rfl⟩

theorem deliverCommit_eq_some {t : System n α} {p : Side} {slot : Nat} {i : Fin n}
    (h : s.deliverCommit p slot i = some t) : ∃ c r, s.coord p slot = some c ∧ c.commit i = .sent ∧
      (s.server i).onCommit p slot c.dep c.cmd = r ∧
      t = (s.setServer i r).setCoord p slot (c.deliveredCommit i) := by
  obtain ⟨c, hc, h⟩ := Option.bind_eq_some_iff.mp h
  split_ifs at h with hsent
  have hsent : c.commit i = .sent := by
    cases hrpc : c.commit i <;> simp [hrpc] at hsent ⊢
  cases h
  exact ⟨c, _, hc, hsent, rfl, rfl⟩

end System

theorem WellFormed.setServer {s : System n α} (h : WellFormed s) {i : Fin n} {r : CopilotServer α}
    (hle : ∀ q, ((s.server i).logInfos q).currentSlot ≤ (r.logInfos q).currentSlot) :
    WellFormed (s.setServer i r) := by
  refine ⟨h.role, fun p k c hc => ?_, h.sent⟩
  obtain ⟨hpos, hcur, hsub⟩ := h.slot p k c hc
  refine ⟨hpos, ?_, hsub⟩
  by_cases hi : c.host = i
  · rw [hi] at hcur
    rw [hi, System.server_setServer_self]
    exact hcur.trans (hle p)
  · rwa [System.server_setServer_ne _ hi]

theorem WellFormed.setCoord {s : System n α} (h : WellFormed s) {p : Side} {k : Nat}
    {c c' : Coordinator n α} (hc : s.coord p k = some c) (hadv : c.Advances c') :
    WellFormed (s.setCoord p k c') := by
  refine ⟨fun q l d hd => ?_, fun q l d hd => ?_, fun q l d hd => ?_⟩ <;>
    by_cases hql : q = p ∧ l = k
  · obtain ⟨rfl, rfl⟩ := hql
    rw [System.coord_setCoord_self] at hd
    cases hd
    rw [hadv.host]
    exact h.role q l c hc
  · rw [System.coord_setCoord_ne c' hql] at hd
    exact h.role q l d hd
  · obtain ⟨rfl, rfl⟩ := hql
    rw [System.coord_setCoord_self] at hd
    cases hd
    rw [hadv.host]
    exact h.slot q l c hc
  · rw [System.coord_setCoord_ne c' hql] at hd
    exact h.slot q l d hd
  · obtain ⟨rfl, rfl⟩ := hql
    rw [System.coord_setCoord_self] at hd
    cases hd
    exact hadv.sent (h.sent q l c hc)
  · rw [System.coord_setCoord_ne c' hql] at hd
    exact h.sent q l d hd

theorem WellFormed.unassigned {s : System n α} (h : WellFormed s) {i : Fin n} {p : Side}
    (hp : roleOf i = some p) :
    s.coord p (((s.server i).logInfos p).currentSlot + 1) = none := by
  by_contra hne
  obtain ⟨c, hc⟩ := Option.ne_none_iff_exists'.mp hne
  have hhost : c.host = i := roleOf_injective (h.role _ _ c hc) hp
  have hle := (h.slot _ _ c hc).2.1
  rw [hhost] at hle
  omega

theorem submit_eq_some {s t : System n α} {i : Fin n} {cmd : α} (h : s.submit i cmd = some t) :
    ∃ p, roleOf i = some p ∧ t =
      { (s.setServer i ((s.server i).pickInitSlotAndDep p).1).setCoord p
          (((s.server i).logInfos p).currentSlot + 1)
          { host := i
            cmd := cmd
            ballot := makeUniqueBallot 0 i.val
            initDep := ((s.server i).logInfos p.reverse).currentSlot
            dep := ((s.server i).logInfos p.reverse).currentSlot } with
        submitted := Function.update s.submitted p
          (max (s.submitted p) (((s.server i).logInfos p).currentSlot + 1)) } := by
  obtain ⟨p, hp, h⟩ := Option.bind_eq_some_iff.mp h
  cases h
  exact ⟨p, hp, rfl⟩

theorem pickInitSlotAndDep_rests (s : CopilotServer α) (p : Side) :
    Rests s (s.pickInitSlotAndDep p).1 :=
  rests_setLog (Nat.le_succ _)

theorem WellFormed.submit {s t : System n α} (h : WellFormed s) {i : Fin n} {cmd : α}
    (hstep : s.submit i cmd = some t) : WellFormed t := by
  obtain ⟨p, hp, rfl⟩ := submit_eq_some hstep
  have hs := h.setServer (pickInitSlotAndDep_rests (s.server i) p).current_le
  refine ⟨fun q l d hd => ?_, fun q l d hd => ?_, fun q l d hd hi => ?_⟩ <;>
    by_cases hql : q = p ∧ l = ((s.server i).logInfos p).currentSlot + 1
  · obtain ⟨rfl, rfl⟩ := hql
    change (System.setCoord _ _ _ _).coord _ _ = _ at hd
    rw [System.coord_setCoord_self] at hd
    cases hd
    exact hp
  · change (System.setCoord _ _ _ _).coord _ _ = _ at hd
    rw [System.coord_setCoord_ne _ hql] at hd
    exact hs.role q l d hd
  · obtain ⟨rfl, rfl⟩ := hql
    change (System.setCoord _ _ _ _).coord _ _ = _ at hd
    rw [System.coord_setCoord_self] at hd
    cases hd
    simp [System.setCoord, System.setServer, CopilotServer.pickInitSlotAndDep,
      CopilotServer.setLog]
  · change (System.setCoord _ _ _ _).coord _ _ = _ at hd
    rw [System.coord_setCoord_ne _ hql] at hd
    obtain ⟨hpos, hcur, hsub⟩ := hs.slot q l d hd
    refine ⟨hpos, hcur, hsub.trans ?_⟩
    by_cases hq : q = p
    · subst hq
      simp [System.setServer]
    · simp [System.setServer, hq]
  · obtain ⟨rfl, rfl⟩ := hql
    change (System.setCoord _ _ _ _).coord _ _ = _ at hd
    rw [System.coord_setCoord_self] at hd
    cases hd
    exact absurd rfl hi.choose_spec
  · change (System.setCoord _ _ _ _).coord _ _ = _ at hd
    rw [System.coord_setCoord_ne _ hql] at hd
    exact hs.sent q l d hd hi

end Jetpack.Copilot
