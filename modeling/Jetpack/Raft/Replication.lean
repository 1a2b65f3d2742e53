import Jetpack.Raft.Batches

/-! The term of one leader. Beside the system a run keeps what was last written in each slot, so that
a log can be spoken of after slots of it were freed, and what the followers acknowledged. -/

namespace Jetpack.Raft

open Transition

variable {n : Nat} {α : Type}

def Event.ofLeader (ldr : Fin n) : Event n α → Bool
  | .tick _ | .deliverAppend _ | .deliverAppendReply _ | .appendTimeout _ | .appendError _ => true
  | .start i _ | .advanceCommit i | .drain i _ => i == ldr
  | .requestVote _ _ _ | .deliverVoteRequest _ _ | .deliverVoteReply _ | .finishVote _ | .pause _
  | .jetpackRpc _ | .beginRecovery _ => false

/-- `history` holds what was last written in each slot of a server, freed or not. Calls before
`handled` were delivered to a follower or are lost, and `acked` are the indices it has reported when
it accepted a call, with the entry there at that time. -/
structure Replication (n : Nat) (α : Type) where
  system : System n α
  history : Fin n → Nat → RaftData α
  handled : Fin n → Nat := fun _ => 0
  acked : Fin n → List (Nat × RaftData α) := fun _ => []

namespace Replication

def received (r : Replication n α) (k : Nat) (m : AppendEntries n α) (system : System n α) :
    Replication n α :=
  let f := m.follower
  let handled := Function.update r.handled f (k + 1)
  if (r.system.server f).appendOk m = some true then
    let log := RaftServer.writeBatch (r.history f) m.prevLogIndex (m.cmd.getD [])
    let last := (system.server f).lastLogIndex
    { system := system
      history := Function.update r.history f log
      handled := handled
      acked := Function.update r.acked f ((last, log last) :: r.acked f) }
  else { r with system := system, handled := handled }

def after (r : Replication n α) (system : System n α) : Event n α → Replication n α
  | .start i cmd =>
    let s := r.system.server i
    { r with
      system := system
      history := Function.update r.history i
        (RaftServer.writeBatch (r.history i) s.lastLogIndex [(s.currentTerm, cmd)]) }
  | .deliverAppend k =>
    match r.system.appends[k]? with
    | some m => r.received k m system
    | none => { r with system := system }
  | _ => { r with system := system }

def step (ldr : Fin n) (r : Replication n α) (e : Event n α) : Option (Replication n α) :=
  if e.ofLeader ldr then (r.system.step e).map (r.after · e) else none

/-- The follower holds the first `len` entries of the leader's log. -/
def Stores (r : Replication n α) (ldr f : Fin n) (len : Nat) : Prop :=
  len ≤ (r.system.server ldr).lastLogIndex ∧ len ≤ (r.system.server f).lastLogIndex ∧
    ∀ j, 0 < j → j ≤ len → r.history f j = r.history ldr j

/-- Log matching with a log that is extended in `term`: entries of that term are among those it has,
and two entries of one term at one index end equal prefixes. -/
structure LogMatching (term : Nat) (log : Nat → RaftData α) (last : Nat) (log' : Nat → RaftData α)
    (last' : Nat) : Prop where
  own : ∀ i, 0 < i → i ≤ last' → (log' i).term = term → i ≤ last
  agree : ∀ i, 0 < i → i ≤ last → i ≤ last' → (log' i).term = (log i).term →
    ∀ j, 0 < j → j ≤ i → log' j = log j

theorem LogMatching.of_shared {term last last' : Nat} {log log' : Nat → RaftData α}
    (hlast : last' ≤ last) (h : ∀ j, 0 < j → j ≤ last' → log' j = log j) :
    LogMatching term log last log' last' where
  own _ _ hle _ := hle.trans hlast
  agree _ _ _ hle' _ j hpos hj := h j hpos (hj.trans hle')

structure Sent (r : Replication n α) (ldr : Fin n) (m : AppendEntries n α) : Prop where
  sender : m.leaderSiteId = ldr
  other : m.follower ≠ ldr
  term : m.term = (r.system.server ldr).currentTerm
  last_le : m.prevLogIndex + (m.cmd.getD []).length ≤ (r.system.server ldr).lastLogIndex
  prevTerm : 0 < m.prevLogIndex → m.prevLogTerm = (r.history ldr m.prevLogIndex).term
  cmds : ∀ k c, (m.cmd.getD [])[k]? = some c →
    r.history ldr (m.prevLogIndex + k + 1) = ⟨c.1, some c.2⟩
  nonempty : m.cmd ≠ some []

/-- The reply is one to a call of the leader; an accepted batch is acknowledged to its end. -/
structure Answered (r : Replication n α) (ldr : Fin n) (reply : AppendReply n α) : Prop where
  call : reply.call ∈ r.system.appends
  term : reply.term ≤ (r.system.server ldr).currentTerm
  last : reply.ok = true → reply.call.cmd.isSome = true →
    reply.lastLogIndex = reply.call.prevLogIndex + (reply.call.cmd.getD []).length

/-- The leader was just elected: no call was made in its term. -/
structure Elected (ldr : Fin n) (r : Replication n α) : Prop where
  leads : (r.system.server ldr).isLeader = true
  terms : ∀ f, (r.system.server f).currentTerm ≤ (r.system.server ldr).currentTerm
  recorded : ∀ i j, (r.system.server i).minActiveSlot ≤ j →
    (r.system.server i).raftLogs j = r.history i j
  matching : ∀ f, f ≠ ldr → LogMatching (r.system.server ldr).currentTerm (r.history ldr)
    (r.system.server ldr).lastLogIndex (r.history f) (r.system.server f).lastLogIndex
  appends : r.system.appends = []
  appendReplies : r.system.appendReplies = []
  matchIndex : ∀ f, (r.system.server ldr).matchIndex f = 0
  nextIndex : ∀ f, (r.system.server ldr).nextIndex f =
    (r.system.server ldr).lastLogIndex + 1
  acked : ∀ f, r.acked f = []

structure Inv (ldr : Fin n) (r : Replication n α) : Prop where
  leads : (r.system.server ldr).isLeader = true
  terms : ∀ f, (r.system.server f).currentTerm ≤ (r.system.server ldr).currentTerm
  recorded : ∀ i j, (r.system.server i).minActiveSlot ≤ j →
    (r.system.server i).raftLogs j = r.history i j
  matching : ∀ f, f ≠ ldr → LogMatching (r.system.server ldr).currentTerm (r.history ldr)
    (r.system.server ldr).lastLogIndex (r.history f) (r.system.server f).lastLogIndex
  calls : ∀ m ∈ r.system.appends, r.Sent ldr m
  replies : ∀ reply ∈ r.system.appendReplies, r.Answered ldr reply

theorem Elected.inv {ldr : Fin n} {r : Replication n α} (h : r.Elected ldr) : r.Inv ldr where
  leads := h.leads
  terms := h.terms
  recorded := h.recorded
  matching := h.matching
  calls m hm := by simp [h.appends] at hm
  replies reply hreply := by simp [h.appendReplies] at hreply

def firstTerm (ldr : Fin n) : Replication n α where
  system :=
    { server := fun i => if i = ldr then { currentTerm := 1, isLeader := true } else {} }
  history _ _ := {}

theorem firstTerm_elected (ldr : Fin n) : (firstTerm ldr : Replication n α).Elected ldr where
  leads := by simp [firstTerm]
  terms f := by
    by_cases hf : f = ldr <;> simp [firstTerm, hf]
  recorded i j _ := by
    by_cases hi : i = ldr <;> simp [firstTerm, hi]
  matching f hf := .of_shared (by simp [firstTerm, hf]) fun _ _ _ => rfl
  appends := rfl
  appendReplies := rfl
  matchIndex _ := by simp [firstTerm]
  nextIndex _ := by simp [firstTerm]
  acked _ := rfl

theorem Sent.frame {ldr : Fin n} {r r' : Replication n α} {m : AppendEntries n α}
    (h : r.Sent ldr m)
    (hterm : (r'.system.server ldr).currentTerm = (r.system.server ldr).currentTerm)
    (hlast : (r.system.server ldr).lastLogIndex ≤ (r'.system.server ldr).lastLogIndex)
    (hhistory : ∀ j, j ≤ (r.system.server ldr).lastLogIndex →
      r'.history ldr j = r.history ldr j) : r'.Sent ldr m := by
  have hlast_le := h.last_le
  constructor
  case sender => exact h.sender
  case other => exact h.other
  case term => rw [h.term, hterm]
  case last_le => omega
  case prevTerm =>
    intro hpos
    rw [hhistory _ (by omega)]
    exact h.prevTerm hpos
  case cmds =>
    intro k c hk
    have hlt : k < (m.cmd.getD []).length := (List.getElem?_eq_some_iff.mp hk).1
    rw [hhistory _ (by omega)]
    exact h.cmds k c hk
  case nonempty => exact h.nonempty

theorem Answered.frame {ldr : Fin n} {r r' : Replication n α} {reply : AppendReply n α}
    (h : r.Answered ldr reply) (hsub : r.system.appends ⊆ r'.system.appends)
    (hterm : (r'.system.server ldr).currentTerm = (r.system.server ldr).currentTerm) :
    r'.Answered ldr reply :=
  ⟨hsub h.call, hterm ▸ h.term, h.last⟩

theorem Inv.frame {ldr : Fin n} {r r' : Replication n α} (h : r.Inv ldr)
    (hleads : (r'.system.server ldr).isLeader = true)
    (hterm : ∀ f, (r'.system.server f).currentTerm = (r.system.server f).currentTerm)
    (hlast : ∀ f, (r'.system.server f).lastLogIndex = (r.system.server f).lastLogIndex)
    (hhistory : r'.history = r.history)
    (hrecorded : ∀ i j, (r'.system.server i).minActiveSlot ≤ j →
      (r'.system.server i).raftLogs j = r.history i j)
    (hcalls : ∀ m ∈ r'.system.appends, m ∈ r.system.appends ∨ r.Sent ldr m)
    (hsub : r.system.appends ⊆ r'.system.appends)
    (hreplies : ∀ reply ∈ r'.system.appendReplies,
      reply ∈ r.system.appendReplies ∨ r.Answered ldr reply) : r'.Inv ldr := by
  constructor
  case leads => exact hleads
  case terms =>
    intro f
    rw [hterm, hterm]
    exact h.terms f
  case recorded =>
    rw [hhistory]
    exact hrecorded
  case matching =>
    intro f hf
    rw [hterm, hhistory, hlast, hlast]
    exact h.matching f hf
  case calls =>
    intro m hm
    have hsent : r.Sent ldr m := (hcalls m hm).elim (h.calls m) id
    exact hsent.frame (hterm ldr) (le_of_eq (hlast ldr).symm) fun j _ => by rw [hhistory]
  case replies =>
    intro reply hreply
    have hanswered : r.Answered ldr reply := (hreplies reply hreply).elim (h.replies reply) id
    exact hanswered.frame hsub (hterm ldr)

theorem LogMatching.start {term last last' : Nat} {log log' : Nat → RaftData α}
    (h : LogMatching term log last log' last') (cmd : α) :
    LogMatching term (RaftServer.writeBatch log last [(term, cmd)]) (last + 1) log' last' := by
  have hold : ∀ j, j ≤ last → RaftServer.writeBatch log last [(term, cmd)] j = log j :=
    fun j hj => RaftServer.writeBatch_outside (.inl hj)
  constructor
  case own =>
    intro i hpos hle hterm
    exact Nat.le_succ_of_le (h.own i hpos hle hterm)
  case agree =>
    intro i hpos hle hle' hterm j hj hji
    by_cases hi : i ≤ last
    · rw [hold j (hji.trans hi)]
      rw [hold i hi] at hterm
      exact h.agree i hpos hi hle' hterm j hj hji
    · have hlast : i = last + 1 := by omega
      have hnew : RaftServer.writeBatch log last [(term, cmd)] (last + 1) = ⟨term, some cmd⟩ :=
        Function.update_self ..
      rw [hlast, hnew] at hterm
      have hown := h.own (last + 1) (Nat.succ_pos _) (hlast ▸ hle') hterm
      omega

theorem Inv.start {ldr : Fin n} {r : Replication n α} {q : RaftServer n α} {cmd : α}
    (h : r.Inv ldr) (hq : (r.system.server ldr).start cmd = some q) :
    (r.after (r.system.setServer ldr q) (.start ldr cmd)).Inv ldr := by
  have hcontrol := RaftServer.sameControl_start hq
  rw [RaftServer.start_eq, if_pos h.leads] at hq
  obtain ⟨hq, -⟩ := RaftServer.storeBatch_eq hq
  set s := r.system.server ldr with hs
  set r' := r.after (r.system.setServer ldr q) (.start ldr cmd) with hr'
  have hself : r'.system.server ldr = q := Function.update_self ..
  have hother : ∀ f, f ≠ ldr → r'.system.server f = r.system.server f :=
    fun f hf => Function.update_of_ne hf _ _
  have hlog : r'.history ldr =
      RaftServer.writeBatch (r.history ldr) s.lastLogIndex [(s.currentTerm, cmd)] :=
    Function.update_self ..
  have hlog' : ∀ f, f ≠ ldr → r'.history f = r.history f :=
    fun f hf => Function.update_of_ne hf _ _
  have hlast : q.lastLogIndex = s.lastLogIndex + 1 := by rw [hq]; rfl
  have hterm : q.currentTerm = s.currentTerm := hcontrol.currentTerm
  constructor
  case leads => rw [hself, hcontrol.isLeader, h.leads]
  case terms =>
    intro f
    rw [hself, hterm]
    by_cases hf : f = ldr
    · rw [hf, hself, hterm]
    · rw [hother f hf]
      exact h.terms f
  case recorded =>
    intro i j hj
    by_cases hi : i = ldr
    · subst hi
      rw [hself, hq] at hj
      rw [hself, hlog, hq]
      exact RaftServer.writeBatch_congr (h.recorded i j hj)
    · rw [hother i hi] at hj ⊢
      rw [hlog' i hi]
      exact h.recorded i j hj
  case matching =>
    intro f hf
    rw [hself, hother f hf, hterm, hlast, hlog, hlog' f hf]
    exact (h.matching f hf).start cmd
  case calls =>
    intro m hm
    refine (h.calls m hm).frame ?_ ?_ ?_
    · rw [hself, hterm]
    · rw [hself, hlast]
      exact Nat.le_succ _
    · intro j hj
      rw [hlog]
      exact RaftServer.writeBatch_outside (.inl hj)
  case replies =>
    intro reply hreply
    exact (h.replies reply hreply).frame (List.Subset.refl _) (by rw [hself, hterm])

/-- The follower's log agrees with the leader's up to the slot that a call it accepts names. -/
theorem Inv.prefix_of_ok {ldr : Fin n} {r : Replication n α} (h : r.Inv ldr)
    {m : AppendEntries n α} (hm : r.Sent ldr m)
    (hok : (r.system.server m.follower).appendOk m = some true) (j : Nat) (hpos : 0 < j)
    (hj : j ≤ m.prevLogIndex) : r.history m.follower j = r.history ldr j := by
  obtain ⟨-, hindex, hzero | ⟨hmin, hprev⟩⟩ := RaftServer.appendOk_cases hok
  · omega
  · have hlast_le := hm.last_le
    have hprev_pos : 0 < m.prevLogIndex := by omega
    rw [h.recorded _ _ hmin, hm.prevTerm hprev_pos] at hprev
    exact (h.matching _ hm.other).agree m.prevLogIndex hprev_pos (by omega) hindex hprev j hpos hj

theorem Inv.written {ldr : Fin n} {r : Replication n α} (h : r.Inv ldr) {m : AppendEntries n α}
    (hm : r.Sent ldr m) (hok : (r.system.server m.follower).appendOk m = some true) (j : Nat)
    (hpos : 0 < j) (hj : j ≤ m.prevLogIndex + (m.cmd.getD []).length) :
    RaftServer.writeBatch (r.history m.follower) m.prevLogIndex (m.cmd.getD []) j =
      r.history ldr j := by
  by_cases hprev : j ≤ m.prevLogIndex
  · rw [RaftServer.writeBatch_outside (.inl hprev)]
    exact h.prefix_of_ok hm hok j hpos hprev
  · have hk : j - m.prevLogIndex - 1 < (m.cmd.getD []).length := by omega
    have hslot : j = m.prevLogIndex + (j - m.prevLogIndex - 1) + 1 := by omega
    have hget := List.getElem?_eq_getElem hk
    rw [hslot, RaftServer.writeBatch_inside hget]
    exact (hm.cmds _ _ hget).symm

theorem Sent.cmds_nil {ldr : Fin n} {r : Replication n α} {m : AppendEntries n α}
    (h : r.Sent ldr m) (hempty : (m.cmd.getD []).isEmpty = true) : m.cmd = none := by
  cases hcmd : m.cmd with
  | none => rfl
  | some batch =>
    rw [hcmd, Option.getD_some, List.isEmpty_iff] at hempty
    exact absurd (hempty ▸ hcmd) h.nonempty

theorem Inv.refuse {ldr : Fin n} {r : Replication n α} (h : r.Inv ldr) {k : Nat}
    {m : AppendEntries n α} (hk : r.system.appends[k]? = some m)
    (hok : (r.system.server m.follower).appendOk m ≠ some true) {reply : AppendReply n α}
    (hreply : reply = ⟨m, false, (r.system.server m.follower).currentTerm,
      (r.system.server m.follower).lastLogIndex⟩) :
    (r.received k m { r.system with
      appendReplies := r.system.appendReplies ++ [reply] }).Inv ldr := by
  rw [received, if_neg hok]
  refine h.frame h.leads (fun _ => rfl) (fun _ => rfl) rfl h.recorded (fun _ => .inl)
    (List.Subset.refl _) ?_
  intro reply' hreply'
  rcases List.mem_append.mp hreply' with hold | hnew
  · exact .inl hold
  · rw [List.mem_singleton.mp hnew, hreply]
    exact .inr ⟨List.mem_of_getElem? hk, h.terms _, fun hfalse => by cases hfalse⟩

theorem Sent.lastAfter_eq {ldr : Fin n} {r : Replication n α} {m : AppendEntries n α}
    (h : r.Sent ldr m) (hcmd : m.cmd.isSome = true) (last : Nat) :
    RaftServer.lastAfter last m.prevLogIndex (m.cmd.getD []) =
      m.prevLogIndex + (m.cmd.getD []).length := by
  refine if_neg fun hempty => ?_
  rw [h.cmds_nil hempty] at hcmd
  cases hcmd

theorem Inv.accept {ldr : Fin n} {r : Replication n α} (h : r.Inv ldr) {k : Nat}
    {m : AppendEntries n α} {q : RaftServer n α} {reply : AppendReply n α}
    (hk : r.system.appends[k]? = some m)
    (hok : (r.system.server m.follower).appendOk m = some true)
    (ha : (r.system.server m.follower).Accepted q m reply) :
    (r.received k m { r.system.setServer m.follower q with
      appendReplies := r.system.appendReplies ++ [reply] }).Inv ldr := by
  have hmem := List.mem_of_getElem? hk
  have hm := h.calls m hmem
  rw [received, if_pos hok]
  set f := m.follower with hf
  have hself : (r.system.setServer f q).server f = q := Function.update_self ..
  have hother : ∀ i, i ≠ f → (r.system.setServer f q).server i = r.system.server i :=
    fun i hi => Function.update_of_ne hi _ _
  have hldr := hother ldr hm.other.symm
  set log := RaftServer.writeBatch (r.history f) m.prevLogIndex (m.cmd.getD []) with hlog
  have hhistory : ∀ i, i ≠ f → Function.update r.history f log i = r.history i :=
    fun i hi => Function.update_of_ne hi _ _
  constructor
  case leads =>
    simp only [hldr]
    exact h.leads
  case terms =>
    intro i
    simp only [hldr]
    by_cases hi : i = f
    · rw [hi, hself, ha.term, hm.term]
    · rw [hother i hi]
      exact h.terms i
  case recorded =>
    intro i j hj
    by_cases hi : i = f
    · subst hi
      simp only [hself] at hj ⊢
      obtain ⟨hmin, hlogs⟩ := ha.logs j hj
      rw [hlogs, Function.update_self]
      exact RaftServer.writeBatch_congr (h.recorded _ j hmin)
    · simp only [hother i hi] at hj ⊢
      rw [hhistory i hi]
      exact h.recorded i j hj
  case matching =>
    intro i hi
    simp only [hldr, hhistory ldr hm.other.symm]
    by_cases hif : i = f
    · subst hif
      simp only [hself, Function.update_self]
      by_cases hcmd : m.cmd.isSome = true
      · have hlast : q.lastLogIndex = m.prevLogIndex + (m.cmd.getD []).length := by
          rw [ha.last, hm.lastAfter_eq hcmd]
        have hend := hm.last_le
        refine .of_shared (by omega) fun j hpos hj => h.written hm hok j hpos (by omega)
      · have hnone : m.cmd = none := by simpa using hcmd
        have hlast : q.lastLogIndex = (r.system.server m.follower).lastLogIndex := by
          rw [ha.last, hnone]
          rfl
        have hsame : log = r.history m.follower := by
          rw [hlog, hnone]
          rfl
        rw [hlast, hsame]
        exact h.matching _ hi
    · simp only [hother i hif, hhistory i hif]
      exact h.matching i hi
  case calls =>
    intro m' hm'
    refine (h.calls m' hm').frame ?_ ?_ ?_
    · simp only [hldr]
    · simp only [hldr, le_refl]
    · intro j _
      simp only [hhistory ldr hm.other.symm]
  case replies =>
    intro reply' hreply'
    rcases List.mem_append.mp hreply' with hold | hnew
    · exact (h.replies reply' hold).frame (List.Subset.refl _) (by simp only [hldr])
    · rw [List.mem_singleton.mp hnew, ha.reply]
      constructor
      case call => exact hmem
      case term =>
        simp only [hldr]
        exact le_of_eq hm.term
      case last =>
        intro _ hcmd
        change q.lastLogIndex = _
        rw [ha.last, hm.lastAfter_eq hcmd]

theorem Inv.of_leader {ldr : Fin n} {r r' : Replication n α} (h : r.Inv ldr) {q : RaftServer n α}
    (hserver : r'.system.server = Function.update r.system.server ldr q)
    (hhistory : r'.history = r.history) (hleads : q.isLeader = true)
    (hterm : q.currentTerm = (r.system.server ldr).currentTerm)
    (hlast : q.lastLogIndex = (r.system.server ldr).lastLogIndex)
    (hlogs : ∀ j, q.minActiveSlot ≤ j → (r.system.server ldr).minActiveSlot ≤ j ∧
      q.raftLogs j = (r.system.server ldr).raftLogs j)
    (hcalls : ∀ m ∈ r'.system.appends, m ∈ r.system.appends ∨ r.Sent ldr m)
    (hsub : r.system.appends ⊆ r'.system.appends)
    (hreplies : r'.system.appendReplies = r.system.appendReplies) : r'.Inv ldr := by
  have hself : r'.system.server ldr = q := by
    rw [hserver]
    exact Function.update_self ..
  have hother : ∀ i, i ≠ ldr → r'.system.server i = r.system.server i := by
    intro i hi
    rw [hserver]
    exact Function.update_of_ne hi _ _
  refine h.frame ?_ ?_ ?_ hhistory ?_ hcalls hsub fun reply hreply => .inl (hreplies ▸ hreply)
  · rw [hself, hleads]
  · intro f
    by_cases hf : f = ldr
    · rw [hf, hself, hterm]
    · rw [hother f hf]
  · intro f
    by_cases hf : f = ldr
    · rw [hf, hself, hlast]
    · rw [hother f hf]
  · intro i j hj
    by_cases hi : i = ldr
    · subst hi
      rw [hself] at hj ⊢
      obtain ⟨hmin, hlog⟩ := hlogs j hj
      rw [hlog]
      exact h.recorded i j hmin
    · rw [hother i hi] at hj ⊢
      exact h.recorded i j hj

theorem sent_of_contiguous {ldr follower : Fin n} {r : Replication n α} (h : r.Inv ldr)
    (hne : ldr ≠ follower) {q : RaftServer n α} {m : AppendEntries n α}
    (habove : (r.system.server ldr).AboveTrim follower)
    (hq : (r.system.server ldr).drain r.system.now ldr follower = some (q, some m)) :
    r.Sent ldr m ∧
      m.prevLogIndex + (m.cmd.getD []).length = (r.system.server ldr).lastLogIndex := by
  obtain ⟨hcontig, hend, hnonempty⟩ := RaftServer.drain_call habove hq
  obtain ⟨-, hsender, hto, hterm, -⟩ := (RaftServer.drain_cases hq).2 m rfl
  refine ⟨?_, hend⟩
  constructor
  case sender => exact hsender
  case other => exact hto ▸ hne.symm
  case term => exact hterm
  case last_le => exact le_of_eq hend
  case prevTerm =>
    intro hpos
    obtain ⟨i, hi, hiterm⟩ := Option.map_eq_some_iff.mp hcontig.prev
    obtain ⟨hslot, hlog⟩ := RaftServer.getRaftInstance_some hi
    rw [← hiterm, ← hlog, h.recorded _ _ (hslot.resolve_right (by omega))]
  case cmds =>
    intro k c hk
    obtain ⟨hslot, hlog⟩ := RaftServer.getRaftInstance_some (hcontig.cmds k c hk)
    rw [← hlog, h.recorded _ _ (hslot.resolve_right (by omega))]
  case nonempty => exact hnonempty

/-- No reply of the leader's own term or of an earlier one ends its leadership. -/
theorem onAppendReply_leads {now : Nat} {self : Fin n} {reply : AppendReply n α}
    {s : RaftServer n α} (hterm : reply.term ≤ reply.call.term) :
    (s.onAppendReply now self reply).isLeader = s.isLeader ∧
      (s.onAppendReply now self reply).currentTerm = s.currentTerm := by
  have hmatch : ((s.decInFlight reply.call.follower).acceptMatch reply).isLeader = s.isLeader ∧
      ((s.decInFlight reply.call.follower).acceptMatch reply).currentTerm = s.currentTerm := by
    unfold RaftServer.acceptMatch
    split <;> exact ⟨rfl, rfl⟩
  unfold RaftServer.onAppendReply
  dsimp only
  split
  · exact ⟨rfl, rfl⟩
  split
  · exact ⟨rfl, rfl⟩
  split
  · next hhigher => omega
  split
  · exact ⟨rfl, rfl⟩
  split
  · obtain ⟨-, -, hleads, hcurrent⟩ := RaftServer.recordAck_frame now self reply
      ((s.decInFlight reply.call.follower).acceptMatch reply)
    exact ⟨hleads.trans hmatch.1, hcurrent.trans hmatch.2⟩
  · exact hmatch

def SendsAboveTrim (r : Replication n α) : Event n α → Prop
  | .drain i follower => (r.system.server i).AboveTrim follower
  | _ => True

instance (r : Replication n α) (e : Event n α) : Decidable (r.SendsAboveTrim e) :=
  match e with
  | .drain i follower => inferInstanceAs (Decidable ((r.system.server i).AboveTrim follower))
  | .tick _ | .requestVote _ _ _ | .deliverVoteRequest _ _ | .deliverVoteReply _ | .finishVote _
  | .start _ _ | .advanceCommit _ | .deliverAppend _ | .deliverAppendReply _ | .appendTimeout _
  | .appendError _ | .pause _ | .jetpackRpc _ | .beginRecovery _ => isTrue trivial

theorem inv_step {ldr : Fin n} {r r' : Replication n α} {e : Event n α} (h : r.Inv ldr)
    (hsends : r.SendsAboveTrim e) (hs : r.step ldr e = some r') : r'.Inv ldr := by
  unfold step at hs
  split at hs
  · next hmine =>
    obtain ⟨system, hsystem, hs⟩ := Option.map_eq_some_iff.mp hs
    cases e with
    | tick us =>
      cases hsystem
      cases hs
      exact h.frame h.leads (fun _ => rfl) (fun _ => rfl) rfl h.recorded (fun _ => .inl)
        (List.Subset.refl _) fun _ => .inl
    | start i cmd =>
      obtain rfl : i = ldr := by simpa [Event.ofLeader] using hmine
      obtain ⟨q, hq, hsystem⟩ := Option.bind_eq_some_iff.mp hsystem
      cases hsystem
      cases hs
      exact h.start hq
    | advanceCommit i =>
      obtain rfl : i = ldr := by simpa [Event.ofLeader] using hmine
      obtain ⟨q, hq, hsystem⟩ := Option.bind_eq_some_iff.mp hsystem
      cases hsystem
      cases hs
      have hcontrol := RaftServer.sameControl_advanceCommit hq
      obtain ⟨hlast, hlogs⟩ := RaftServer.advanceCommit_logs hq
      exact h.of_leader rfl rfl (hcontrol.isLeader.trans h.leads) hcontrol.currentTerm hlast hlogs
        (fun _ => .inl) (List.Subset.refl _) rfl
    | drain i follower =>
      obtain rfl : i = ldr := by simpa [Event.ofLeader] using hmine
      simp only [System.step] at hsystem
      split at hsystem
      · cases hsystem
      · next hne =>
        obtain ⟨⟨q, m⟩, hq, hsystem⟩ := Option.bind_eq_some_iff.mp hsystem
        cases hsystem
        cases hs
        have hcontrol := (RaftServer.drain_cases hq).1
        have hlog := RaftServer.sameLog_drain hq
        refine h.of_leader rfl rfl (hcontrol.isLeader.trans h.leads) hcontrol.currentTerm
          hlog.lastLogIndex hlog.logs ?_ (List.subset_append_left _ _) rfl
        intro m' hm'
        rcases List.mem_append.mp hm' with hold | hnew
        · exact .inl hold
        · have hm : m = some m' := Option.mem_toList.mp hnew
          rw [hm] at hq
          exact .inr (sent_of_contiguous h hne hsends hq).1
    | deliverAppend k =>
      obtain ⟨m, hk, hsystem⟩ := Option.bind_eq_some_iff.mp hsystem
      obtain ⟨⟨q, reply⟩, hq, hsystem⟩ := Option.bind_eq_some_iff.mp hsystem
      cases hsystem
      have hafter : r' = r.received k m { r.system.setServer m.follower q with
          appendReplies := r.system.appendReplies ++ [reply] } := by
        rw [← hs, after, hk]
      rw [hafter]
      by_cases hok : (r.system.server m.follower).appendOk m = some true
      · exact h.accept hk hok (RaftServer.accepted_of_ok hok hq)
      · obtain ⟨-, rfl, hreply⟩ | ⟨hok', -⟩ := RaftServer.onAppendEntries_outcome hq
        · have hsame : r.system.setServer m.follower (r.system.server m.follower) = r.system := by
            simp [System.setServer]
          rw [hsame]
          exact h.refuse hk hok hreply
        · exact absurd hok' hok
    | deliverAppendReply k =>
      obtain ⟨reply, hk, hsystem⟩ := Option.bind_eq_some_iff.mp hsystem
      cases hsystem
      cases hs
      have hanswered := h.replies reply (List.mem_of_getElem? hk)
      have hsent := h.calls _ hanswered.call
      have hterm : reply.term ≤ reply.call.term := by
        rw [hsent.term]
        exact hanswered.term
      have hleads := @onAppendReply_leads n α r.system.now ldr reply (r.system.server ldr) hterm
      have hlog := RaftServer.sameLog_onAppendReply r.system.now ldr reply (r.system.server ldr)
      have hserver : (r.system.setServer reply.call.leaderSiteId
          ((r.system.server reply.call.leaderSiteId).onAppendReply r.system.now
            reply.call.leaderSiteId reply)).server = Function.update r.system.server ldr
              ((r.system.server ldr).onAppendReply r.system.now ldr reply) := by
        rw [hsent.sender]
        rfl
      exact h.of_leader hserver rfl (hleads.1.trans h.leads) hleads.2 hlog.lastLogIndex hlog.logs
        (fun _ => .inl) (List.Subset.refl _) rfl
    | appendTimeout k =>
      obtain ⟨m, hk, hsystem⟩ := Option.bind_eq_some_iff.mp hsystem
      cases hsystem
      cases hs
      have hsender := (h.calls m (List.mem_of_getElem? hk)).sender
      have hserver : (r.system.setServer m.leaderSiteId
          ((r.system.server m.leaderSiteId).onAppendTimeout m.follower)).server =
            Function.update r.system.server ldr
              ((r.system.server ldr).onAppendTimeout m.follower) := by
        rw [hsender]
        rfl
      exact h.of_leader hserver rfl h.leads rfl rfl (fun j hj => ⟨hj, rfl⟩) (fun _ => .inl)
        (List.Subset.refl _) rfl
    | appendError k =>
      obtain ⟨m, hk, hsystem⟩ := Option.bind_eq_some_iff.mp hsystem
      cases hsystem
      cases hs
      have hsender := (h.calls m (List.mem_of_getElem? hk)).sender
      have hserver : (r.system.setServer m.leaderSiteId
          ((r.system.server m.leaderSiteId).decInFlight m.follower)).server =
            Function.update r.system.server ldr ((r.system.server ldr).decInFlight m.follower) := by
        rw [hsender]
        rfl
      exact h.of_leader hserver rfl h.leads rfl rfl (fun j hj => ⟨hj, rfl⟩) (fun _ => .inl)
        (List.Subset.refl _) rfl
    | requestVote _ _ _ | deliverVoteRequest _ _ | deliverVoteReply _ | finishVote _ | pause _
    | jetpackRpc _ | beginRecovery _ => cases hmine
  · cases hs

theorem received_of_ok {r : Replication n α} {k : Nat} {m : AppendEntries n α}
    (system : System n α) (hok : (r.system.server m.follower).appendOk m = some true) :
    let log := RaftServer.writeBatch (r.history m.follower) m.prevLogIndex (m.cmd.getD [])
    let last := (system.server m.follower).lastLogIndex
    r.received k m system =
      { system := system
        history := Function.update r.history m.follower log
        handled := Function.update r.handled m.follower (k + 1)
        acked := Function.update r.acked m.follower ((last, log last) :: r.acked m.follower) } :=
  if_pos hok

theorem received_of_refused {r : Replication n α} {k : Nat} {m : AppendEntries n α}
    (system : System n α) (hok : (r.system.server m.follower).appendOk m ≠ some true) :
    r.received k m system =
      { r with system := system, handled := Function.update r.handled m.follower (k + 1) } :=
  if_neg hok

structure Quiet (ldr : Fin n) (r r' : Replication n α) : Prop where
  followers : ∀ f, f ≠ ldr → r'.system.server f = r.system.server f
  histories : ∀ f, f ≠ ldr → r'.history f = r.history f
  acked : r'.acked = r.acked
  handled : r'.handled = r.handled
  last_le : (r.system.server ldr).lastLogIndex ≤ (r'.system.server ldr).lastLogIndex
  history : ∀ j, j ≤ (r.system.server ldr).lastLogIndex → r'.history ldr j = r.history ldr j

theorem Quiet.of_leader {ldr : Fin n} {r r' : Replication n α} {q : RaftServer n α}
    (hserver : r'.system.server = Function.update r.system.server ldr q)
    (hhistory : r'.history = r.history) (hacked : r'.acked = r.acked)
    (hhandled : r'.handled = r.handled)
    (hlast : q.lastLogIndex = (r.system.server ldr).lastLogIndex) : Quiet ldr r r' := by
  refine ⟨fun f hf => ?_, fun f _ => by rw [hhistory], hacked, hhandled, ?_,
    fun j _ => by rw [hhistory]⟩
  · rw [hserver]
    exact Function.update_of_ne hf _ _
  · rw [hserver, Function.update_self]
    exact le_of_eq hlast.symm

theorem step_cases {ldr : Fin n} {r r' : Replication n α} {e : Event n α} (h : r.Inv ldr)
    (hs : r.step ldr e = some r') : ((∀ k, e ≠ .deliverAppend k) ∧ Quiet ldr r r') ∨
      ∃ k m q reply, e = .deliverAppend k ∧
      r.system.appends[k]? = some m ∧
      (r.system.server m.follower).onAppendEntries r.system.now m = some (q, reply) ∧
      r' = r.received k m { r.system.setServer m.follower q with
        appendReplies := r.system.appendReplies ++ [reply] } := by
  unfold step at hs
  split at hs
  · next hmine =>
    obtain ⟨system, hsystem, hs⟩ := Option.map_eq_some_iff.mp hs
    cases e with
    | tick us =>
      cases hsystem
      cases hs
      exact .inl ⟨(fun _ h => by cases h), fun _ _ => rfl, fun _ _ => rfl, rfl, rfl, le_refl _, fun _ _ => rfl⟩
    | start i cmd =>
      obtain rfl : i = ldr := by simpa [Event.ofLeader] using hmine
      obtain ⟨q, hq, hsystem⟩ := Option.bind_eq_some_iff.mp hsystem
      cases hsystem
      cases hs
      rw [RaftServer.start_eq, if_pos h.leads] at hq
      obtain ⟨rfl, -⟩ := RaftServer.storeBatch_eq hq
      refine .inl ⟨(fun _ h => by cases h), fun f hf => Function.update_of_ne hf _ _,
        fun f hf => Function.update_of_ne hf _ _, rfl, rfl, ?_, fun j hj => ?_⟩
      · simp [after, System.setServer, RaftServer.lastAfter]
      · simp only [after, Function.update_self]
        exact RaftServer.writeBatch_outside (.inl hj)
    | advanceCommit i =>
      obtain rfl : i = ldr := by simpa [Event.ofLeader] using hmine
      obtain ⟨q, hq, hsystem⟩ := Option.bind_eq_some_iff.mp hsystem
      cases hsystem
      cases hs
      exact .inl ⟨(fun _ h => by cases h), .of_leader rfl rfl rfl rfl (RaftServer.advanceCommit_logs hq).1⟩
    | drain i follower =>
      obtain rfl : i = ldr := by simpa [Event.ofLeader] using hmine
      simp only [System.step] at hsystem
      split at hsystem
      · cases hsystem
      · obtain ⟨⟨q, m⟩, hq, hsystem⟩ := Option.bind_eq_some_iff.mp hsystem
        cases hsystem
        cases hs
        exact .inl ⟨(fun _ h => by cases h), .of_leader rfl rfl rfl rfl (RaftServer.sameLog_drain hq).lastLogIndex⟩
    | deliverAppend k =>
      obtain ⟨m, hk, hsystem⟩ := Option.bind_eq_some_iff.mp hsystem
      obtain ⟨⟨q, reply⟩, hq, hsystem⟩ := Option.bind_eq_some_iff.mp hsystem
      cases hsystem
      refine .inr ⟨k, m, q, reply, rfl, hk, hq, ?_⟩
      rw [← hs, after, hk]
    | deliverAppendReply k =>
      obtain ⟨reply, hk, hsystem⟩ := Option.bind_eq_some_iff.mp hsystem
      cases hsystem
      cases hs
      have hanswered := h.replies reply (List.mem_of_getElem? hk)
      have hsender := (h.calls _ hanswered.call).sender
      rw [hsender]
      exact .inl ⟨(fun _ h => by cases h), .of_leader rfl rfl rfl rfl (RaftServer.sameLog_onAppendReply _ _ _ _).lastLogIndex⟩
    | appendTimeout k =>
      obtain ⟨m, hk, hsystem⟩ := Option.bind_eq_some_iff.mp hsystem
      cases hsystem
      cases hs
      rw [(h.calls m (List.mem_of_getElem? hk)).sender]
      exact .inl ⟨(fun _ h => by cases h), .of_leader rfl rfl rfl rfl rfl⟩
    | appendError k =>
      obtain ⟨m, hk, hsystem⟩ := Option.bind_eq_some_iff.mp hsystem
      cases hsystem
      cases hs
      rw [(h.calls m (List.mem_of_getElem? hk)).sender]
      exact .inl ⟨(fun _ h => by cases h), .of_leader rfl rfl rfl rfl rfl⟩
    | requestVote _ _ _ | deliverVoteRequest _ _ | deliverVoteReply _ | finishVote _ | pause _
    | jetpackRpc _ | beginRecovery _ => cases hmine
  · cases hs

theorem Stores.quiet {ldr f : Fin n} {r r' : Replication n α} {len : Nat}
    (h : r.Stores ldr f len) (hquiet : Quiet ldr r r') (hf : f ≠ ldr) : r'.Stores ldr f len := by
  obtain ⟨hldr, hlast, hsame⟩ := h
  refine ⟨hldr.trans hquiet.last_le, by rw [hquiet.followers f hf]; exact hlast, ?_⟩
  intro j hpos hj
  rw [hquiet.histories f hf, hquiet.history j (hj.trans hldr)]
  exact hsame j hpos hj

end Replication

end Jetpack.Raft
