import Jetpack.Raft.Acknowledged

/-! What the leader takes a follower to have. Calls reach a follower in the order in which they were
sent, so their ends never fall, and what one of them was acknowledged with stays. -/

namespace Jetpack.Raft

open Transition

variable {n : Nat} {α : Type}

def AppendEntries.lastIndex (m : AppendEntries n α) : Nat :=
  m.prevLogIndex + (m.cmd.getD []).length

namespace RaftServer

theorem drain_matchIndex {now : Nat} {self follower : Fin n} {s s' : RaftServer n α}
    {m : Option (AppendEntries n α)} (h : s.drain now self follower = some (s', m)) (g : Fin n) :
    s'.matchIndex g = s.matchIndex g := by
  rw [(drain_cases h).1.matchIndex]

/-- A turn of the drain at most lowers a next index to the end of the log. -/
theorem drain_nextIndex {now : Nat} {self follower : Fin n} {s s' : RaftServer n α}
    {m : Option (AppendEntries n α)} (h : s.drain now self follower = some (s', m)) (g : Fin n) :
    s'.nextIndex g = s.nextIndex g ∨ s'.nextIndex g = min (s.nextIndex g) (s.lastLogIndex + 1) := by
  by_cases hg : g = follower
  · subst hg
    obtain ⟨⟨next, _, _, rfl, hnext⟩, -⟩ := drain_eq h
    simpa using hnext
  · exact .inl (drain_others h hg).1

theorem acceptMatch_indices (reply : AppendReply n α) (s : RaftServer n α) :
    let s' := (s.decInFlight reply.call.follower).acceptMatch reply
    let f := reply.call.follower
    (∀ g, g ≠ f → s'.nextIndex g = s.nextIndex g ∧ s'.matchIndex g = s.matchIndex g) ∧
      ((s'.nextIndex f = s.nextIndex f ∧ s'.matchIndex f = s.matchIndex f) ∨
        (reply.call.cmd.isSome = true ∧
          s'.nextIndex f = max (s.nextIndex f) (reply.lastLogIndex + 1) ∧
          s'.matchIndex f = max (s.matchIndex f) (min s.lastLogIndex reply.lastLogIndex))) := by
  intro s' f
  by_cases hcmd : reply.call.cmd.isSome = true
  · have hs' : s' = { s.decInFlight f with
        nextIndex := Function.update s.nextIndex f
          (if s.nextIndex f < reply.lastLogIndex + 1 then reply.lastLogIndex + 1
            else s.nextIndex f)
        matchIndex := Function.update s.matchIndex f
          (if s.matchIndex f < (if s.lastLogIndex < reply.lastLogIndex then s.lastLogIndex
              else reply.lastLogIndex)
            then (if s.lastLogIndex < reply.lastLogIndex then s.lastLogIndex
              else reply.lastLogIndex)
            else s.matchIndex f) } := if_pos hcmd
    rw [hs']
    refine ⟨fun g hg => ⟨Function.update_of_ne hg _ _, Function.update_of_ne hg _ _⟩,
      .inr ⟨hcmd, ?_, ?_⟩⟩
    · simp only [Function.update_self]
      split_ifs <;> omega
    · simp only [Function.update_self]
      split_ifs <;> omega
  · have hs' : s' = s.decInFlight f := if_neg hcmd
    rw [hs']
    exact ⟨fun g _ => ⟨rfl, rfl⟩, .inl ⟨rfl, rfl⟩⟩

theorem onAppendReply_indices (now : Nat) (self : Fin n) (reply : AppendReply n α)
    (s : RaftServer n α) :
    let s' := s.onAppendReply now self reply
    let f := reply.call.follower
    (∀ g, g ≠ f → s'.nextIndex g = s.nextIndex g ∧ s'.matchIndex g = s.matchIndex g) ∧
      ((s'.nextIndex f = s.nextIndex f ∧ s'.matchIndex f = s.matchIndex f) ∨
        (s'.nextIndex f = max 1 (s.nextIndex f - 1) ∧ s'.matchIndex f = s.matchIndex f) ∨
        (reply.ok = true ∧ s.currentTerm ≤ reply.call.term ∧ reply.call.cmd.isSome = true ∧
          s'.nextIndex f = max (s.nextIndex f) (reply.lastLogIndex + 1) ∧
          s'.matchIndex f = max (s.matchIndex f) (min s.lastLogIndex reply.lastLogIndex))) := by
  have hsame : ∀ s' : RaftServer n α, s'.nextIndex = s.nextIndex → s'.matchIndex = s.matchIndex →
      (∀ g, g ≠ reply.call.follower →
        s'.nextIndex g = s.nextIndex g ∧ s'.matchIndex g = s.matchIndex g) ∧
      s'.nextIndex reply.call.follower = s.nextIndex reply.call.follower ∧
      s'.matchIndex reply.call.follower = s.matchIndex reply.call.follower := by
    intro s' hnext hmatch
    rw [hnext, hmatch]
    exact ⟨fun g _ => ⟨rfl, rfl⟩, rfl, rfl⟩
  intro s' f
  have hdec := hsame (s.decInFlight f) rfl rfl
  obtain heq | ⟨-, -, heq⟩ | ⟨_, _, hnext, heq⟩ | ⟨hok, hterm, haccept⟩ :=
    onAppendReply_eq now self reply s
  · rw [show s' = _ from heq]
    exact ⟨hdec.1, .inl hdec.2⟩
  · rw [show s' = _ from heq]
    have hdown := hsame { setIsLeader now false (s.decInFlight f) with currentTerm := reply.term }
      (by simp [setIsLeader, decInFlight]; split <;> rfl)
      (by simp [setIsLeader, decInFlight]; split <;> rfl)
    exact ⟨hdown.1, .inl hdown.2⟩
  · rw [show s' = _ from heq]
    exact ⟨fun g hg => ⟨Function.update_of_ne hg _ _, rfl⟩,
      .inr (.inl ⟨(Function.update_self ..).trans hnext, rfl⟩)⟩
  · obtain ⟨hothers, hindices⟩ := acceptMatch_indices reply s
    obtain heq | ⟨-, heq⟩ := haccept
    · rw [show s' = _ from heq]
      exact ⟨hothers, hindices.imp_right fun h => .inr ⟨hok, hterm, h⟩⟩
    · obtain ⟨hmatch, hwindows, -, -⟩ := recordAck_frame now self reply
        ((s.decInFlight f).acceptMatch reply)
      rw [show s' = _ from heq, hmatch, hwindows.nextIndex]
      exact ⟨hothers, hindices.imp_right fun h => .inr ⟨hok, hterm, h⟩⟩

end RaftServer

/-- A follower that is first called behind freed slots acknowledges entries it holds in other slots. -/
theorem misplaced_steps {u : System 3 α} (h : (u.server 0).Outruns 2)
    (hmin : (u.server 2).minActiveSlot = 1)
    (hterm : (u.server 2).currentTerm ≤ (u.server 0).currentTerm) {m : AppendEntries 3 α}
    (happends : u.appends = [m]) (hreplies : u.appendReplies.length = 1) :
    ∃ m' batch c u₁ u₂ u₃, u.step (.drain 0 2) = some u₁ ∧ u₁.step (.deliverAppend 1) = some u₂ ∧
      u₂.step (.deliverAppendReply 1) = some u₃ ∧ u₁.appends = [m, m'] ∧ m'.follower = 2 ∧
      (u₁.server 2).appendOk m' = some true ∧ m'.prevLogIndex = 0 ∧ m'.cmd = some batch ∧
      batch[0]? = some c ∧
      (u.server 0).raftLogs (u.server 0).minActiveSlot = ⟨c.1, some c.2⟩ ∧
      0 < (u₃.server 0).matchIndex 2 := by
  obtain ⟨q, m', batch, c, hq, hprev, hcmd, hc, hslot, hlen⟩ := h.drain u.now 0
  obtain ⟨hsame, hm⟩ := RaftServer.drain_cases hq
  obtain ⟨-, hfrom, hto, hmterm, -⟩ := hm m' rfl
  have hpos : 0 < batch.length := (List.getElem?_eq_some_iff.mp hc).1
  have hne : batch.isEmpty = false := by
    cases batch with
    | nil => simp at hpos
    | cons c cs => rfl
  obtain ⟨hok, f', reply, hf', hcall, hrok, hrlast⟩ := @RaftServer.onAppendEntries_first 3 α u.now
    (u.server 2) m' batch hmin (hmterm ▸ hterm) hprev hcmd hne
  subst hcall
  have hserver : (u.setServer 0 q).server 2 = u.server 2 := by simp [System.setServer]
  refine ⟨reply.call, batch, c, { u.setServer 0 q with appends := [m, reply.call] },
    { (u.setServer 0 q).setServer 2 f' with
      appends := [m, reply.call], appendReplies := u.appendReplies ++ [reply] },
    { ((u.setServer 0 q).setServer 2 f').setServer 0 (q.onAppendReply u.now 0 reply) with
      appends := [m, reply.call], appendReplies := u.appendReplies ++ [reply] }, ?_, ?_, ?_, rfl,
    hto, ?_, hprev, hcmd, hc, hslot, ?_⟩
  · simp only [System.step, hq, happends]
    rfl
  · simp only [System.step, List.getElem?_cons_succ, List.getElem?_cons_zero, Option.bind_eq_bind,
      Option.bind_some, hto]
    rw [hserver]
    simp only [System.setServer, hf']
    rfl
  · have hget : (u.appendReplies ++ [reply])[1]? = some reply := by
      rw [List.getElem?_append_right (le_of_eq hreplies), hreplies]
      rfl
    simp only [System.step, hget, Option.bind_eq_bind, Option.bind_some, hfrom]
    rfl
  · simp only [hserver]
    exact hok
  · have hleads : q.isLeader = true := hsame.isLeader.trans h.leader
    have hqterm : q.currentTerm ≤ reply.call.term := by rw [hsame.currentTerm, hmterm]
    obtain ⟨hmatch, -⟩ := @RaftServer.onAppendReply_accepted 3 α u.now 0 reply q hrok hqterm hleads
    have hsome : reply.call.cmd.isSome = true := by
      rw [hcmd]
      rfl
    have hunmatched : q.matchIndex reply.call.follower = 0 := by
      rw [hto, hsame.matchIndex, h.unmatched]
    have hlast : reply.lastLogIndex ≤ q.lastLogIndex := by
      rw [hrlast, (RaftServer.sameLog_drain hq).lastLogIndex]
      exact hlen
    rw [RaftServer.acceptMatch_first hsome hunmatched hlast, hto, hrlast] at hmatch
    have hself : (((u.setServer 0 q).setServer 2 f').setServer 0
        (q.onAppendReply u.now 0 reply)).server 0 = q.onAppendReply u.now 0 reply := by
      simp [System.setServer]
    simp only [hself, hmatch, Function.update_self]
    exact hpos

namespace Replication

/-- Calls are delivered to each follower in the order in which they were sent. -/
def InSendOrder (r : Replication n α) : Event n α → Prop
  | .deliverAppend k => ∀ m ∈ r.system.appends[k]?, r.handled m.follower ≤ k
  | _ => True

instance (r : Replication n α) (e : Event n α) : Decidable (r.InSendOrder e) :=
  match e with
  | .deliverAppend k => inferInstanceAs (Decidable (∀ m ∈ r.system.appends[k]?, _))
  | .tick _ | .requestVote _ _ _ | .deliverVoteRequest _ _ | .deliverVoteReply _ | .finishVote _
  | .start _ _ | .advanceCommit _ | .drain _ _ | .deliverAppendReply _ | .appendTimeout _
  | .appendError _ | .pause _ | .jetpackRpc _ | .beginRecovery _ => isTrue trivial

/-- The follower holds the first `len` entries of the leader's log, and no batch that is yet to reach
it ends before them. -/
def Safe (r : Replication n α) (ldr f : Fin n) (len : Nat) : Prop :=
  r.Stores ldr f len ∧ ∀ k m, r.handled f ≤ k → r.system.appends[k]? = some m → m.follower = f →
    m.cmd.isSome = true → len ≤ m.lastIndex

structure MatchInv (ldr : Fin n) (r : Replication n α) : Prop where
  base : r.Inv ldr
  ends : r.system.appends.Pairwise fun m m' =>
    m.cmd.isSome = true → m'.cmd.isSome = true → m.lastIndex ≤ m'.lastIndex
  matched : ∀ f, f ≠ ldr → r.Safe ldr f ((r.system.server ldr).matchIndex f)
  acks : ∀ reply ∈ r.system.appendReplies, reply.ok = true → reply.call.cmd.isSome = true →
    r.Safe ldr reply.call.follower reply.lastLogIndex
  window : ∀ f, 1 ≤ (r.system.server ldr).nextIndex f ∧
    (r.system.server ldr).nextIndex f ≤ (r.system.server ldr).lastLogIndex + 1

theorem Elected.matchInv {ldr : Fin n} {r : Replication n α} (h : r.Elected ldr) :
    r.MatchInv ldr := by
  refine ⟨h.inv, ?_, ?_, ?_, ?_⟩
  · rw [h.appends]
    exact .nil
  · intro f _
    rw [h.matchIndex]
    refine ⟨⟨Nat.zero_le _, Nat.zero_le _, fun j hpos hj => by omega⟩, fun k m _ hk => ?_⟩
    simp [h.appends] at hk
  · intro reply hreply
    simp [h.appendReplies] at hreply
  · intro f
    rw [h.nextIndex]
    omega

theorem Safe.mono {ldr f : Fin n} {r : Replication n α} {len len' : Nat} (h : r.Safe ldr f len)
    (hle : len' ≤ len) : r.Safe ldr f len' := by
  obtain ⟨⟨hldr, hlast, hsame⟩, hends⟩ := h
  exact ⟨⟨hle.trans hldr, hle.trans hlast, fun j hpos hj => hsame j hpos (hj.trans hle)⟩,
    fun k m hk hm hf hcmd => hle.trans (hends k m hk hm hf hcmd)⟩

theorem Safe.quiet {ldr f : Fin n} {r r' : Replication n α} {len : Nat} (h : r.Safe ldr f len)
    (hquiet : Quiet ldr r r') (hf : f ≠ ldr)
    (hcalls : ∀ (k : Nat) (m : AppendEntries n α), r'.system.appends[k]? = some m →
      r.system.appends[k]? = some m ∨ m.lastIndex = (r.system.server ldr).lastLogIndex) : r'.Safe ldr f len := by
  refine ⟨h.1.quiet hquiet hf, fun k m hk hm hto hcmd => ?_⟩
  rw [hquiet.handled] at hk
  rcases hcalls k m hm with hold | hnew
  · exact h.2 k m hk hold hto hcmd
  · rw [hnew]
    exact h.1.1

/-- A step of the leader raises a match index at most to what its follower acknowledged. -/
theorem MatchInv.move {ldr : Fin n} {r r' : Replication n α} (h : r.MatchInv ldr)
    (hbase : r'.Inv ldr) (hquiet : Quiet ldr r r')
    (hcalls : r'.system.appends = r.system.appends ∨ ∃ m : AppendEntries n α,
      r'.system.appends = r.system.appends ++ [m] ∧
        m.lastIndex = (r.system.server ldr).lastLogIndex)
    (hreplies : r'.system.appendReplies = r.system.appendReplies)
    (hmatch : ∀ f, f ≠ ldr →
      (r'.system.server ldr).matchIndex f = (r.system.server ldr).matchIndex f ∨
        ∃ reply ∈ r.system.appendReplies, reply.ok = true ∧ reply.call.cmd.isSome = true ∧
          reply.call.follower = f ∧ (r'.system.server ldr).matchIndex f ≤
            max ((r.system.server ldr).matchIndex f) reply.lastLogIndex)
    (hnext : ∀ f, 1 ≤ (r'.system.server ldr).nextIndex f ∧
      (r'.system.server ldr).nextIndex f ≤ (r'.system.server ldr).lastLogIndex + 1) :
    r'.MatchInv ldr := by
  have hlater : ∀ (k : Nat) (m : AppendEntries n α), r'.system.appends[k]? = some m →
      r.system.appends[k]? = some m ∨ m.lastIndex = (r.system.server ldr).lastLogIndex := by
    intro k m hk
    rcases hcalls with hsame | ⟨m', hmore, hlast⟩
    · exact .inl (hsame ▸ hk)
    · rw [hmore] at hk
      by_cases hold : k < r.system.appends.length
      · rw [List.getElem?_append_left hold] at hk
        exact .inl hk
      · rw [List.getElem?_append_right (Nat.not_lt.mp hold)] at hk
        have hmem := List.mem_of_getElem? hk
        rw [List.mem_singleton.mp hmem]
        exact .inr hlast
  have hsafe : ∀ f len, f ≠ ldr → r.Safe ldr f len → r'.Safe ldr f len :=
    fun f len hf hs => hs.quiet hquiet hf hlater
  refine ⟨hbase, ?_, ?_, ?_, hnext⟩
  · rcases hcalls with hsame | ⟨m, hmore, hlast⟩
    · rw [hsame]
      exact h.ends
    · rw [hmore, List.pairwise_append]
      refine ⟨h.ends, List.pairwise_singleton _ _, fun m' hm' m'' hm'' _ _ => ?_⟩
      rw [List.mem_singleton.mp hm'', hlast]
      exact (h.base.calls m' hm').last_le
  · intro f hf
    rcases hmatch f hf with hsame | ⟨reply, hreply, hok, hcmd, hto, hle⟩
    · rw [hsame]
      exact hsafe f _ hf (h.matched f hf)
    · have hacked := h.acks reply hreply hok hcmd
      rw [hto] at hacked
      rcases max_choice ((r.system.server ldr).matchIndex f) reply.lastLogIndex with hmax | hmax
      · exact (hsafe f _ hf (h.matched f hf)).mono (hmax ▸ hle)
      · exact (hsafe f _ hf hacked).mono (hmax ▸ hle)
  · intro reply hreply hok hcmd
    rw [hreplies] at hreply
    have hto := (h.base.calls _ (h.base.replies reply hreply).call).other
    exact hsafe _ _ hto (h.acks reply hreply hok hcmd)

/-- After an accepted batch its follower holds the leader's entries to the end of it. -/
theorem Inv.accept_stores {ldr : Fin n} {r : Replication n α} (h : r.Inv ldr) {k : Nat}
    {m : AppendEntries n α} {q : RaftServer n α} {reply : AppendReply n α}
    (hk : r.system.appends[k]? = some m)
    (hok : (r.system.server m.follower).appendOk m = some true)
    (ha : (r.system.server m.follower).Accepted q m reply) (hcmd : m.cmd.isSome = true) {len : Nat}
    (hlen : len ≤ m.lastIndex) :
    (r.received k m { r.system.setServer m.follower q with
      appendReplies := r.system.appendReplies ++ [reply] }).Stores ldr m.follower len := by
  have hm := h.calls m (List.mem_of_getElem? hk)
  have hlast : q.lastLogIndex = m.lastIndex := by
    rw [ha.last, hm.lastAfter_eq hcmd]
    rfl
  have hself : (r.system.setServer m.follower q).server m.follower = q := Function.update_self ..
  have hldr : (r.system.setServer m.follower q).server ldr = r.system.server ldr :=
    Function.update_of_ne hm.other.symm _ _
  rw [received_of_ok _ hok]
  simp only [Stores, hself, hldr, Function.update_self, Function.update_of_ne hm.other.symm]
  exact ⟨hlen.trans hm.last_le, hlast ▸ hlen,
    fun j hpos hj => h.written hm hok j hpos (hj.trans hlen)⟩

/-- A follower loses nothing by a call to another one, a refused call or a heartbeat. -/
theorem Stores.received {ldr f : Fin n} {r : Replication n α} {len k : Nat} (h : r.Stores ldr f len)
    {m : AppendEntries n α} {q : RaftServer n α} {reply : AppendReply n α} (hm : r.Sent ldr m)
    (hq : (r.system.server m.follower).onAppendEntries r.system.now m = some (q, reply))
    (hkeep : f = m.follower → (r.system.server m.follower).appendOk m = some true →
      m.cmd = none) :
    (r.received k m { r.system.setServer m.follower q with
      appendReplies := r.system.appendReplies ++ [reply] }).Stores ldr f len := by
  have hldr : (r.system.setServer m.follower q).server ldr = r.system.server ldr :=
    Function.update_of_ne hm.other.symm _ _
  by_cases hok : (r.system.server m.follower).appendOk m = some true
  · have ha := RaftServer.accepted_of_ok hok hq
    rw [received_of_ok _ hok]
    simp only [Stores, hldr, Function.update_of_ne hm.other.symm]
    by_cases hf : f = m.follower
    · subst hf
      have hnone := hkeep rfl hok
      have hlast : q.lastLogIndex = (r.system.server m.follower).lastLogIndex := by
        rw [ha.last, hnone]
        rfl
      have hself : (r.system.setServer m.follower q).server m.follower = q :=
        Function.update_self ..
      rw [hself, hlast, Function.update_self, hnone]
      exact h
    · rw [Function.update_of_ne hf]
      have hother : (r.system.setServer m.follower q).server f = r.system.server f :=
        Function.update_of_ne hf _ _
      rw [hother]
      exact h
  · obtain ⟨-, rfl, -⟩ | ⟨hok', -⟩ := RaftServer.onAppendEntries_outcome hq
    · rw [received_of_refused _ hok]
      simpa [Stores, System.setServer] using h
    · exact absurd hok' hok

theorem MatchInv.deliver {ldr : Fin n} {r r' : Replication n α} (h : r.MatchInv ldr)
    (hbase : r'.Inv ldr) {k : Nat} {m : AppendEntries n α} {q : RaftServer n α}
    {reply : AppendReply n α} (hk : r.system.appends[k]? = some m)
    (horder : r.handled m.follower ≤ k)
    (hq : (r.system.server m.follower).onAppendEntries r.system.now m = some (q, reply))
    (hr' : r' = r.received k m { r.system.setServer m.follower q with
      appendReplies := r.system.appendReplies ++ [reply] }) : r'.MatchInv ldr := by
  have hm := h.base.calls m (List.mem_of_getElem? hk)
  have hframe : r'.system.appends = r.system.appends ∧
      r'.system.appendReplies = r.system.appendReplies ++ [reply] ∧
      r'.system.server ldr = r.system.server ldr ∧
      r'.handled = Function.update r.handled m.follower (k + 1) := by
    have hldr : (r.system.setServer m.follower q).server ldr = r.system.server ldr :=
      Function.update_of_ne hm.other.symm _ _
    rw [hr']
    by_cases hok : (r.system.server m.follower).appendOk m = some true
    · rw [received_of_ok _ hok]
      exact ⟨rfl, rfl, hldr, rfl⟩
    · rw [received_of_refused _ hok]
      exact ⟨rfl, rfl, hldr, rfl⟩
  obtain ⟨happends, hreplies, hserver, hhandled⟩ := hframe
  have hsafe : ∀ f len, f ≠ ldr → r.Safe ldr f len → r'.Safe ldr f len := by
    intro f len hf hs
    refine ⟨?_, fun k' m' hk' hm' hto hcmd => ?_⟩
    · rw [hr']
      by_cases hbatch : f = m.follower ∧ (r.system.server m.follower).appendOk m = some true ∧
          m.cmd.isSome = true
      · obtain ⟨rfl, hok, hcmd⟩ := hbatch
        exact h.base.accept_stores hk hok (RaftServer.accepted_of_ok hok hq) hcmd
          (hs.2 k m horder hk rfl hcmd)
      · refine hs.1.received hm hq fun hf' hok => ?_
        by_contra hcmd
        exact hbatch ⟨hf', hok, Option.isSome_iff_ne_none.mpr hcmd⟩
    · rw [happends] at hm'
      refine hs.2 k' m' ?_ hm' hto hcmd
      rw [hhandled] at hk'
      by_cases hf' : f = m.follower
      · subst hf'
        rw [Function.update_self] at hk'
        omega
      · rwa [Function.update_of_ne hf'] at hk'
  refine ⟨hbase, happends ▸ h.ends, ?_, ?_, ?_⟩
  · intro f hf
    rw [hserver]
    exact hsafe f _ hf (h.matched f hf)
  · intro reply' hreply' hok' hcmd'
    rw [hreplies] at hreply'
    rcases List.mem_append.mp hreply' with hold | hnew
    · have hto := (h.base.calls _ (h.base.replies reply' hold).call).other
      exact hsafe _ _ hto (h.acks reply' hold hok' hcmd')
    · obtain rfl := List.mem_singleton.mp hnew
      by_cases hok : (r.system.server m.follower).appendOk m = some true
      · have ha := RaftServer.accepted_of_ok hok hq
        rw [ha.reply] at hcmd' ⊢
        have hlast : q.lastLogIndex = m.lastIndex := by
          rw [ha.last, hm.lastAfter_eq hcmd']
          rfl
        refine ⟨?_, fun k' m' hk' hm' _ hcmd => ?_⟩
        · rw [hr']
          exact h.base.accept_stores hk hok ha hcmd' (le_of_eq hlast)
        · rw [hhandled, Function.update_self] at hk'
          rw [happends] at hm'
          obtain ⟨hlt, rfl⟩ := List.getElem?_eq_some_iff.mp hk
          obtain ⟨hlt', rfl⟩ := List.getElem?_eq_some_iff.mp hm'
          change q.lastLogIndex ≤ _
          rw [hlast]
          exact List.pairwise_iff_getElem.mp h.ends k k' hlt hlt' hk' hcmd' hcmd
      · obtain ⟨-, -, hreply⟩ | ⟨hok', -⟩ := RaftServer.onAppendEntries_outcome hq
        · rw [hreply] at hok'
          cases hok'
        · exact absurd hok' hok
  · rw [hserver]
    exact h.window

/-- The match index of a follower moves at most to where an accepted batch of its acknowledged. -/
def MatchMoves (ldr : Fin n) (r r' : Replication n α) : Prop :=
  ∀ f, (r'.system.server ldr).matchIndex f = (r.system.server ldr).matchIndex f ∨
    ∃ reply ∈ r.system.appendReplies, reply.ok = true ∧ reply.call.cmd.isSome = true ∧
      reply.call.follower = f ∧ (r'.system.server ldr).matchIndex f =
        max ((r.system.server ldr).matchIndex f)
          (min (r.system.server ldr).lastLogIndex reply.lastLogIndex)

def InWindow (s : RaftServer n α) : Prop :=
  ∀ f, 1 ≤ s.nextIndex f ∧ s.nextIndex f ≤ s.lastLogIndex + 1

theorem InWindow.keep {s q : RaftServer n α} (h : InWindow s)
    (hnext : ∀ f, q.nextIndex f = s.nextIndex f ∨
      q.nextIndex f = min (s.nextIndex f) (s.lastLogIndex + 1))
    (hlast : s.lastLogIndex ≤ q.lastLogIndex) : InWindow q := by
  intro f
  have hf := h f
  rcases hnext f with hf' | hf' <;> omega

theorem leader_step {ldr : Fin n} {r r' : Replication n α} {e : Event n α} (h : r.MatchInv ldr)
    (hsends : r.SendsAboveTrim e) (hs : r.step ldr e = some r') (hne : ∀ k, e ≠ .deliverAppend k) :
    (r'.system.appends = r.system.appends ∨ ∃ m : AppendEntries n α,
      r'.system.appends = r.system.appends ++ [m] ∧
        m.lastIndex = (r.system.server ldr).lastLogIndex) ∧
    r'.system.appendReplies = r.system.appendReplies ∧ MatchMoves ldr r r' ∧
    InWindow (r'.system.server ldr) := by
  have hwindow : InWindow (r.system.server ldr) := h.window
  unfold step at hs
  split at hs
  · next hmine =>
    obtain ⟨system, hsystem, hs⟩ := Option.map_eq_some_iff.mp hs
    cases e with
    | tick us =>
      cases hsystem
      cases hs
      exact ⟨.inl rfl, rfl, fun _ => .inl rfl, hwindow⟩
    | start i cmd =>
      obtain rfl : i = ldr := by simpa [Event.ofLeader] using hmine
      obtain ⟨q, hq, hsystem⟩ := Option.bind_eq_some_iff.mp hsystem
      cases hsystem
      cases hs
      have hself : (r.system.setServer i q).server i = q := Function.update_self ..
      have hmatch := (RaftServer.sameControl_start hq).matchIndex
      have hnext := (RaftServer.sameWindows_start hq).nextIndex
      rw [RaftServer.start_eq, if_pos h.base.leads] at hq
      obtain ⟨hq, -⟩ := RaftServer.storeBatch_eq hq
      have hlast : q.lastLogIndex = (r.system.server i).lastLogIndex + 1 := by
        rw [hq]
        rfl
      simp only [MatchMoves, after, hself]
      refine ⟨.inl rfl, rfl, fun f => .inl (by rw [hmatch]), hwindow.keep ?_ (by omega)⟩
      exact fun f => .inl (by rw [hnext])
    | advanceCommit i =>
      obtain rfl : i = ldr := by simpa [Event.ofLeader] using hmine
      obtain ⟨q, hq, hsystem⟩ := Option.bind_eq_some_iff.mp hsystem
      cases hsystem
      cases hs
      have hself : (r.system.setServer i q).server i = q := Function.update_self ..
      have hmatch := (RaftServer.sameControl_advanceCommit hq).matchIndex
      have hnext := (RaftServer.sameWindows_advanceCommit hq).nextIndex
      have hlast := (RaftServer.advanceCommit_logs hq).1
      simp only [MatchMoves, after, hself]
      refine ⟨.inl rfl, rfl, fun f => .inl (by rw [hmatch]), hwindow.keep ?_ (le_of_eq hlast.symm)⟩
      exact fun f => .inl (by rw [hnext])
    | drain i follower =>
      obtain rfl : i = ldr := by simpa [Event.ofLeader] using hmine
      simp only [System.step] at hsystem
      split at hsystem
      · cases hsystem
      · next hself =>
        obtain ⟨⟨q, m⟩, hq, hsystem⟩ := Option.bind_eq_some_iff.mp hsystem
        cases hsystem
        cases hs
        have hserver : (r.system.setServer i q).server i = q := Function.update_self ..
        have hlast := (RaftServer.sameLog_drain hq).lastLogIndex
        simp only [MatchMoves, after, hserver]
        refine ⟨?_, rfl, fun f => .inl (RaftServer.drain_matchIndex hq f),
          hwindow.keep (RaftServer.drain_nextIndex hq) (le_of_eq hlast.symm)⟩
        cases m with
        | none => exact .inl (List.append_nil _)
        | some m => exact .inr ⟨m, rfl, (sent_of_contiguous h.base hself hsends hq).2⟩
    | deliverAppend k => exact absurd rfl (hne k)
    | deliverAppendReply k =>
      obtain ⟨reply, hk, hsystem⟩ := Option.bind_eq_some_iff.mp hsystem
      cases hsystem
      cases hs
      have hreply := List.mem_of_getElem? hk
      have hsender := (h.base.calls _ (h.base.replies reply hreply).call).sender
      have hself : ∀ q, (r.system.setServer ldr q).server ldr = q := fun q => Function.update_self ..
      have hlast := (RaftServer.sameLog_onAppendReply r.system.now ldr reply
        (r.system.server ldr)).lastLogIndex
      obtain ⟨hothers, hindices⟩ :=
        RaftServer.onAppendReply_indices r.system.now ldr reply (r.system.server ldr)
      simp only [MatchMoves, after, hsender, hself]
      refine ⟨.inl rfl, rfl, fun f => ?_, fun f => ?_⟩
      · by_cases hf : f = reply.call.follower
        · subst hf
          obtain ⟨-, hmatch⟩ | ⟨-, hmatch⟩ | ⟨hok, -, hcmd, -, hmatch⟩ := hindices
          · exact .inl hmatch
          · exact .inl hmatch
          · exact .inr ⟨reply, hreply, hok, hcmd, rfl, hmatch⟩
        · exact .inl (hothers f hf).2
      · have hf' := hwindow f
        rw [hlast]
        by_cases hf : f = reply.call.follower
        · subst hf
          obtain ⟨hnext, -⟩ | ⟨hnext, -⟩ | ⟨hok, -, hcmd, hnext, -⟩ := hindices
          · omega
          · omega
          · have hle := (h.acks reply hreply hok hcmd).1.1
            omega
        · rw [(hothers f hf).1]
          exact hf'
    | appendTimeout k =>
      obtain ⟨m, hk, hsystem⟩ := Option.bind_eq_some_iff.mp hsystem
      cases hsystem
      cases hs
      have hself : ∀ q, (r.system.setServer ldr q).server ldr = q := fun q => Function.update_self ..
      simp only [MatchMoves, after, (h.base.calls m (List.mem_of_getElem? hk)).sender, hself]
      exact ⟨.inl rfl, rfl, fun _ => .inl rfl, hwindow⟩
    | appendError k =>
      obtain ⟨m, hk, hsystem⟩ := Option.bind_eq_some_iff.mp hsystem
      cases hsystem
      cases hs
      have hself : ∀ q, (r.system.setServer ldr q).server ldr = q := fun q => Function.update_self ..
      simp only [MatchMoves, after, (h.base.calls m (List.mem_of_getElem? hk)).sender, hself]
      exact ⟨.inl rfl, rfl, fun _ => .inl rfl, hwindow⟩
    | requestVote _ _ _ | deliverVoteRequest _ _ | deliverVoteReply _ | finishVote _ | pause _
    | jetpackRpc _ | beginRecovery _ => cases hmine
  · cases hs

theorem matchInv_step {ldr : Fin n} {r r' : Replication n α} {e : Event n α} (h : r.MatchInv ldr)
    (horder : r.InSendOrder e) (hsends : r.SendsAboveTrim e) (hs : r.step ldr e = some r') :
    r'.MatchInv ldr := by
  have hbase := inv_step h.base hsends hs
  obtain ⟨hne, hquiet⟩ | ⟨k, m, q, reply, rfl, hk, hq, hr'⟩ := step_cases h.base hs
  · obtain ⟨hcalls, hreplies, hmatch, hnext⟩ := leader_step h hsends hs hne
    refine h.move hbase hquiet hcalls hreplies (fun f _ => (hmatch f).imp_right ?_) hnext
    rintro ⟨reply, hreply, hok, hcmd, hto, heq⟩
    exact ⟨reply, hreply, hok, hcmd, hto, by omega⟩
  · exact h.deliver hbase hk (horder m hk) hq hr'

theorem matchIndex_mono {ldr : Fin n} {r r' : Replication n α} {e : Event n α} (h : r.MatchInv ldr)
    (hsends : r.SendsAboveTrim e) (hs : r.step ldr e = some r') (f : Fin n) :
    (r.system.server ldr).matchIndex f ≤ (r'.system.server ldr).matchIndex f := by
  obtain ⟨hne, -⟩ | ⟨k, m, q, reply, rfl, hk, hq, rfl⟩ := step_cases h.base hs
  · obtain ⟨-, -, hmatch, -⟩ := leader_step h hsends hs hne
    rcases hmatch f with hsame | ⟨reply, -, -, -, -, heq⟩ <;> omega
  · have hm := h.base.calls m (List.mem_of_getElem? hk)
    have hldr : (r.system.setServer m.follower q).server ldr = r.system.server ldr :=
      Function.update_of_ne hm.other.symm _ _
    by_cases hok : (r.system.server m.follower).appendOk m = some true
    · simp only [received_of_ok _ hok, hldr, le_refl]
    · simp only [received_of_refused _ hok, hldr, le_refl]

def InOrderStep (r : Replication n α) (e : Event n α) : Prop :=
  r.InSendOrder e ∧ r.SendsAboveTrim e

instance (r : Replication n α) (e : Event n α) : Decidable (r.InOrderStep e) :=
  inferInstanceAs (Decidable (_ ∧ _))

/-- Calls may be in flight in any number, and replies are handled in any order. A follower holds the
leader's log up to its match index, which never falls, and its next index stays within the log or one
behind it. -/
theorem matchIndex_sound {ldr : Fin n} {r₀ r : Replication n α} (hinit : r₀.Elected ldr)
    (h : ReachableWhere (step ldr) InOrderStep r₀ r) (f : Fin n) (hf : f ≠ ldr) :
    r.Stores ldr f ((r.system.server ldr).matchIndex f) ∧
      1 ≤ (r.system.server ldr).nextIndex f ∧
      (r.system.server ldr).nextIndex f ≤ (r.system.server ldr).lastLogIndex + 1 ∧
      ∀ e r', r.InOrderStep e → r.step ldr e = some r' →
        (r.system.server ldr).matchIndex f ≤ (r'.system.server ldr).matchIndex f := by
  have hinv : r.MatchInv ldr :=
    h.invariant (fun _ _ _ hI hok hs => matchInv_step hI hok.1 hok.2 hs) hinit.matchInv
  obtain ⟨hlow, hhigh⟩ := hinv.window f
  exact ⟨(hinv.matched f hf).1, hlow, hhigh, fun e r' hok hs => matchIndex_mono hinv hok.2 hs f⟩

theorem matchIndex_sound_twoCalls :
    ∃ r : Replication 2 Nat, ReachableWhere (step 0) InOrderStep (firstTerm 0) r ∧
      (r.system.server 0).matchIndex 1 = 2 ∧ r.Stores 0 1 ((r.system.server 0).matchIndex 1) ∧
      1 ≤ (r.system.server 0).nextIndex 1 ∧
      (r.system.server 0).nextIndex 1 ≤ (r.system.server 0).lastLogIndex + 1 ∧
      ∀ e r', r.InOrderStep e → r.step 0 e = some r' →
        (r.system.server 0).matchIndex 1 ≤ (r'.system.server 0).matchIndex 1 := by
  have hrun : (runWhere (step 0) InOrderStep (firstTerm 0)
      (twoCalls (n := 2) 0 1 ++ [.deliverAppendReply 1, .deliverAppendReply 0])).any
      (fun r => (r.system.server 0).matchIndex 1 == 2) = true := by decide +kernel
  obtain ⟨r, hreach, hmatch⟩ := exists_reachableWhere hrun
  exact ⟨r, hreach, by simpa using hmatch,
    matchIndex_sound (firstTerm_elected 0) hreach 1 (by decide)⟩

theorem step_of_system {ldr : Fin n} {r : Replication n α} {e : Event n α} {t : System n α}
    (he : e.ofLeader ldr = true) (ht : r.system.step e = some t) :
    r.step ldr e = some (r.after t e) := by
  rw [step, if_pos he, ht]
  rfl

theorem reachable_starts {r : Replication 3 Nat} (h : (r.system.server 0).Unreplicated) (cmd : Nat)
    (count : Nat) :
    ∃ t, ReachableWhere (step 0) InOrderStep r t ∧ (t.system.server 0).Unreplicated ∧
      (t.system.server 0).lastLogIndex = (r.system.server 0).lastLogIndex + count ∧
      (t.system.server 0).currentTerm = (r.system.server 0).currentTerm ∧
      t.system.server 1 = r.system.server 1 ∧ t.system.server 2 = r.system.server 2 ∧
      t.system.appends = r.system.appends ∧ t.system.appendReplies = r.system.appendReplies ∧
      t.handled = r.handled ∧
      (∀ j, j ≤ (r.system.server 0).lastLogIndex → t.history 0 j = r.history 0 j) ∧
      ∀ j, (r.system.server 0).lastLogIndex < j → j ≤ (t.system.server 0).lastLogIndex →
        t.history 0 j = ⟨(r.system.server 0).currentTerm, some cmd⟩ := by
  induction count with
  | zero => exact ⟨r, .refl, h, rfl, rfl, rfl, rfl, rfl, rfl, rfl, fun _ _ => rfl, fun j hlt hle => by omega⟩
  | succ count ih =>
    obtain ⟨t, hreach, hfresh, hlast, hterm, hone, htwo, happends, hreplies, hhandled, hold, hnew⟩ :=
      ih
    obtain ⟨q, hq, hq', hqlast⟩ := hfresh.start cmd
    have hstep : t.step 0 (.start 0 cmd) = some (t.after (t.system.setServer 0 q) (.start 0 cmd)) := by
      refine step_of_system rfl ?_
      rw [System.step, hq]
      rfl
    have hself : (t.system.setServer 0 q).server 0 = q := by simp [System.setServer]
    have hlog : (t.after (t.system.setServer 0 q) (.start 0 cmd)).history 0 =
        Function.update (t.history 0) ((t.system.server 0).lastLogIndex + 1)
          ⟨(t.system.server 0).currentTerm, some cmd⟩ := by
      simp [after, RaftServer.writeBatch]
    refine ⟨_, hreach.tail ⟨.start 0 cmd, ⟨trivial, trivial⟩, hstep⟩, ?_, ?_, ?_, ?_, ?_, happends, hreplies,
      hhandled, fun j hj => ?_, fun j hlt hle => ?_⟩
    · simpa only [after, hself] using hq'
    · simp only [after, hself]
      omega
    · simp only [after, hself]
      rw [(RaftServer.sameControl_start hq).currentTerm, hterm]
    · simpa [after, System.setServer] using hone
    · simpa [after, System.setServer] using htwo
    · rw [hlog, Function.update_of_ne (by omega)]
      exact hold j hj
    · simp only [after, hself] at hle
      rw [hlog]
      by_cases hj : j = (t.system.server 0).lastLogIndex + 1
      · rw [hj, Function.update_self, hterm]
      · rw [Function.update_of_ne hj]
        exact hnew j hlt (by omega)

theorem after_system (r : Replication n α) (t : System n α) (e : Event n α) :
    (r.after t e).system = t := by
  cases e with
  | deliverAppend k =>
    simp only [after]
    split
    · unfold received
      dsimp only
      split <;> rfl
    · rfl
  | _ => rfl

theorem after_deliver {r : Replication n α} {t : System n α} {k : Nat} {m : AppendEntries n α}
    (hk : r.system.appends[k]? = some m) :
    (r.after t (.deliverAppend k)).handled = Function.update r.handled m.follower (k + 1) ∧
      (∀ i, i ≠ m.follower → (r.after t (.deliverAppend k)).history i = r.history i) ∧
      ((r.system.server m.follower).appendOk m = some true →
        (r.after t (.deliverAppend k)).history m.follower =
          RaftServer.writeBatch (r.history m.follower) m.prevLogIndex (m.cmd.getD [])) := by
  have hafter : r.after t (.deliverAppend k) = r.received k m t := by
    simp only [after, hk]
  rw [hafter]
  by_cases hok : (r.system.server m.follower).appendOk m = some true
  · rw [received_of_ok t hok]
    exact ⟨rfl, fun i hi => Function.update_of_ne hi _ _, fun _ => Function.update_self ..⟩
  · rw [received_of_refused t hok]
    exact ⟨rfl, fun _ _ => rfl, fun hok' => absurd hok' hok⟩

theorem outruns_run {t : Replication 3 α} (h : (t.system.server 0).Unreplicated)
    (hlast : (t.system.server 0).lastLogIndex = trimLag + 2)
    (hmin : (t.system.server 1).minActiveSlot = 1)
    (hterm : (t.system.server 1).currentTerm ≤ (t.system.server 0).currentTerm)
    (happends : t.system.appends = []) (hreplies : t.system.appendReplies = [])
    (hhandled : ∀ f, t.handled f = 0) :
    ∃ r m, ReachableWhere (step 0) InOrderStep t r ∧ (r.system.server 0).Outruns 2 ∧
      (r.system.server 0).lastLogIndex = (t.system.server 0).lastLogIndex ∧
      r.system.server 2 = t.system.server 2 ∧ r.system.appends = [m] ∧
      r.system.appendReplies.length = 1 ∧ r.history 0 = t.history 0 ∧ ∀ f, r.handled f ≤ 1 := by
  obtain ⟨m, u₁, u₂, u₃, u₄, hdrain, hdeliver, hreply, hadvance, hu₁, hto, houtruns, hu₄last, hu₄two,
    hu₄, hu₄replies⟩ := outruns_steps h hlast hmin hterm happends hreplies
  have hs₁ : t.step 0 (.drain 0 1) = some (t.after u₁ (.drain 0 1)) := step_of_system rfl hdrain
  generalize hr₁ : t.after u₁ (.drain 0 1) = r₁ at hs₁
  have hu₁' : r₁.system = u₁ := by rw [← hr₁, after_system]
  have hkeep₁ : r₁.history = t.history ∧ r₁.handled = t.handled := by
    rw [← hr₁]
    exact ⟨rfl, rfl⟩
  have hs₂ : r₁.step 0 (.deliverAppend 0) = some (r₁.after u₂ (.deliverAppend 0)) :=
    step_of_system rfl (hu₁' ▸ hdeliver)
  have hget : r₁.system.appends[0]? = some m := by
    rw [hu₁', hu₁]
    rfl
  obtain ⟨hhandled₂, hkeep₂, -⟩ := after_deliver (t := u₂) hget
  generalize hr₂ : r₁.after u₂ (.deliverAppend 0) = r₂ at hs₂ hhandled₂ hkeep₂
  have hu₂' : r₂.system = u₂ := by rw [← hr₂, after_system]
  have hs₃ : r₂.step 0 (.deliverAppendReply 0) = some (r₂.after u₃ (.deliverAppendReply 0)) :=
    step_of_system rfl (hu₂' ▸ hreply)
  generalize hr₃ : r₂.after u₃ (.deliverAppendReply 0) = r₃ at hs₃
  have hu₃' : r₃.system = u₃ := by rw [← hr₃, after_system]
  have hs₄ : r₃.step 0 (.advanceCommit 0) = some (r₃.after u₄ (.advanceCommit 0)) :=
    step_of_system rfl (hu₃' ▸ hadvance)
  generalize hr₄ : r₃.after u₄ (.advanceCommit 0) = r₄ at hs₄
  have hu₄' : r₄.system = u₄ := by rw [← hr₄, after_system]
  have hkeep₄ : r₄.history = r₂.history ∧ r₄.handled = r₂.handled := by
    rw [← hr₄, ← hr₃]
    exact ⟨rfl, rfl⟩
  have horder : r₁.InSendOrder (.deliverAppend 0) := fun m' _ => by
    rw [hkeep₁.2, hhandled]
  refine ⟨r₄, m, ?_, hu₄' ▸ houtruns, hu₄' ▸ hu₄last, hu₄' ▸ hu₄two, hu₄' ▸ hu₄, hu₄' ▸ hu₄replies,
    ?_, fun f => ?_⟩
  · refine .tail (.tail (.tail (.single ⟨.drain 0 1, ⟨trivial, h.aboveTrim 1⟩, hs₁⟩)
      ⟨.deliverAppend 0, ⟨horder, trivial⟩, hs₂⟩) ⟨.deliverAppendReply 0, ⟨trivial, trivial⟩, hs₃⟩)
      ⟨.advanceCommit 0, ⟨trivial, trivial⟩, hs₄⟩
  · have hne : (0 : Fin 3) ≠ m.follower := by
      rw [hto]
      decide
    rw [hkeep₄.1, hkeep₂ 0 hne, hkeep₁.1]
  · rw [hkeep₄.2, hhandled₂, hkeep₁.2]
    by_cases hf : f = m.follower
    · rw [hf, Function.update_self]
    · rw [Function.update_of_ne hf, hhandled]
      exact Nat.zero_le _

/-- Server 2 is then called for the first time: what it holds at index 1 is the entry of a later
slot. -/
theorem misplaced_run {r : Replication 3 α} (h : (r.system.server 0).Outruns 2)
    (hmin : (r.system.server 2).minActiveSlot = 1)
    (hterm : (r.system.server 2).currentTerm ≤ (r.system.server 0).currentTerm)
    {m : AppendEntries 3 α} (happends : r.system.appends = [m])
    (hreplies : r.system.appendReplies.length = 1) (hhandled : ∀ f, r.handled f ≤ 1) :
    ∃ t, ReachableWhere (step 0) InSendOrder r t ∧ 0 < (t.system.server 0).matchIndex 2 ∧
      t.history 0 = r.history 0 ∧
      t.history 2 1 = (r.system.server 0).raftLogs (r.system.server 0).minActiveSlot := by
  obtain ⟨m', batch, c, u₁, u₂, u₃, hdrain, hdeliver, hreply, hu₁, hto, hok, hprev, hcmd, hc, hslot,
    hmatched⟩ := misplaced_steps h hmin hterm happends hreplies
  have hs₁ : r.step 0 (.drain 0 2) = some (r.after u₁ (.drain 0 2)) := step_of_system rfl hdrain
  generalize hr₁ : r.after u₁ (.drain 0 2) = r₁ at hs₁
  have hu₁' : r₁.system = u₁ := by rw [← hr₁, after_system]
  have hkeep₁ : r₁.history = r.history ∧ r₁.handled = r.handled := by
    rw [← hr₁]
    exact ⟨rfl, rfl⟩
  have hs₂ : r₁.step 0 (.deliverAppend 1) = some (r₁.after u₂ (.deliverAppend 1)) :=
    step_of_system rfl (hu₁' ▸ hdeliver)
  have hget : r₁.system.appends[1]? = some m' := by
    rw [hu₁', hu₁]
    rfl
  have hok' : (r₁.system.server m'.follower).appendOk m' = some true := by
    rw [hu₁', hto]
    exact hok
  obtain ⟨-, hkeep₂, hwritten⟩ := after_deliver (t := u₂) hget
  have hwritten' := hwritten hok'
  generalize hr₂ : r₁.after u₂ (.deliverAppend 1) = r₂ at hs₂ hkeep₂ hwritten'
  have hu₂' : r₂.system = u₂ := by rw [← hr₂, after_system]
  have hs₃ : r₂.step 0 (.deliverAppendReply 1) = some (r₂.after u₃ (.deliverAppendReply 1)) :=
    step_of_system rfl (hu₂' ▸ hreply)
  generalize hr₃ : r₂.after u₃ (.deliverAppendReply 1) = r₃ at hs₃
  have hu₃' : r₃.system = u₃ := by rw [← hr₃, after_system]
  have hkeep₃ : r₃.history = r₂.history := by
    rw [← hr₃]
    rfl
  have horder : r₁.InSendOrder (.deliverAppend 1) := fun m'' _ => by
    rw [hkeep₁.2]
    exact hhandled _
  refine ⟨r₃, ?_, hu₃' ▸ hmatched, ?_, ?_⟩
  · refine .tail (.tail (.single ⟨.drain 0 2, trivial, hs₁⟩) ⟨.deliverAppend 1, horder, hs₂⟩)
      ⟨.deliverAppendReply 1, trivial, hs₃⟩
  · have hne : (0 : Fin 3) ≠ m'.follower := by
      rw [hto]
      decide
    rw [hkeep₃, hkeep₂ 0 hne, hkeep₁.1]
  · have hentry : RaftServer.writeBatch (r₁.history 2) 0 batch (0 + 0 + 1) = ⟨c.1, some c.2⟩ :=
      RaftServer.writeBatch_inside hc
    rw [hto, hprev, hcmd] at hwritten'
    rw [hkeep₃, hslot, hwritten']
    exact hentry

theorem firstTerm_unreplicated (ldr : Fin n) :
    ((firstTerm ldr : Replication n α).system.server ldr).Unreplicated := by
  have hslots : ((firstTerm ldr : Replication n α).system.server ldr).SlotInv :=
    slotInv_init.of_sameLog (by simp only [firstTerm, if_true]; exact ⟨rfl, rfl, rfl, rfl, rfl⟩)
  refine ⟨hslots, ?_, ?_, ?_, ?_, ?_, ?_, ?_, ?_⟩ <;> simp [firstTerm]
  intro i hpos hle
  omega

/-- Server 0 appends two entries more than the lag and replicates them to server 1 before it first
calls server 2, which then holds the second entry at index 1. -/
theorem misplaced_entries_match :
    ¬ ∀ r₀ r : Replication 3 Nat, r₀.Elected 0 → ReachableWhere (step 0) InSendOrder r₀ r →
      ∀ f, f ≠ 0 → r.Stores 0 f ((r.system.server 0).matchIndex f) := by
  intro hsound
  obtain ⟨t₁, ht₁, hfresh₁, hlast₁, hterm₁, hone₁, htwo₁, happends₁, hreplies₁, hhandled₁, -, hnew₁⟩ :=
    reachable_starts (firstTerm_unreplicated 0) 1 1
  obtain ⟨t, ht, hfresh, hlast, hterm, hone, htwo, happends, hreplies, hhandled, hold, hnew⟩ :=
    reachable_starts hfresh₁ 2 (trimLag + 1)
  have hlast₀ : ((firstTerm 0 : Replication 3 Nat).system.server 0).lastLogIndex = 0 := rfl
  have hfirst : t.history 0 1 = ⟨1, some 1⟩ := by
    rw [hold 1 (by omega), hnew₁ 1 (by omega) (by omega)]
    rfl
  have hrest : ∀ j, 1 < j → j ≤ (t.system.server 0).lastLogIndex → t.history 0 j = ⟨1, some 2⟩ := by
    intro j hlt hle
    rw [hnew j (by omega) hle, hterm₁]
    rfl
  have hmin : (t.system.server 1).minActiveSlot = 1 := by rw [hone, hone₁]; rfl
  have hterm_le : ∀ s : RaftServer 3 Nat, s.currentTerm = 0 →
      s.currentTerm ≤ (t.system.server 0).currentTerm := fun s hs => hs ▸ Nat.zero_le _
  have hhandled₀ : ∀ f, t.handled f = 0 := by
    intro f
    rw [hhandled, hhandled₁]
    rfl
  obtain ⟨r, m, hr, houtruns, hrlast, hrtwo, hrappends, hrreplies, hrhistory, hrhandled⟩ :=
    outruns_run hfresh (by omega) hmin (hterm_le _ (by rw [hone, hone₁]; rfl))
      (happends.trans (happends₁.trans rfl)) (hreplies.trans (hreplies₁.trans rfl)) hhandled₀
  have hreach : ReachableWhere (step 0) InOrderStep (firstTerm 0) r := (ht₁.trans ht).trans hr
  have hinv : r.MatchInv 0 := hreach.invariant
    (fun _ _ _ hI hok hs => matchInv_step hI hok.1 hok.2 hs) (firstTerm_elected 0).matchInv
  obtain ⟨u, hu, hmatched, hukeep, hmoved⟩ := misplaced_run houtruns (by rw [hrtwo, htwo, htwo₁]; rfl)
    (by rw [hrtwo, htwo, htwo₁]; exact Nat.zero_le _) hrappends hrreplies hrhandled
  have hreach' : ReachableWhere (step 0) InSendOrder (firstTerm 0) r :=
    hreach.weaken fun _ _ hok => hok.1
  have hstores := hsound _ u (firstTerm_elected 0) (hreach'.trans hu) 2 (by decide)
  have hsame := hstores.2.2 1 (by decide) hmatched
  have hfreed := houtruns.freed
  have hmin_le := houtruns.slots.min_le
  rw [hmoved, hukeep, hinv.base.recorded 0 _ (le_refl _), hrhistory, hfirst,
    hrest _ hfreed (by omega)] at hsame
  simp at hsame

end Replication

end Jetpack.Raft
