import Jetpack.Library.Rank
import Jetpack.Raft.Lease
import Jetpack.Raft.LeaderWrites

/-! What is committed was agreed on by a majority in the term of the leader that committed it, so no
later leader lacks it. -/

namespace Jetpack.Raft

open Leadership QuorumVoting Transition

variable {n : Nat} {α : Type}

namespace RaftServer

def commands (log : Nat → RaftData α) (index count : Nat) : List (Option α) :=
  (List.range' index count).map fun j => (log j).log

theorem commands_append (log : Nat → RaftData α) (index k l : Nat) :
    commands log index k ++ commands log (index + k) l = commands log index (k + l) := by
  unfold commands
  rw [← List.map_append, List.range'_append_1]

theorem commands_congr {log log' : Nat → RaftData α} {index count : Nat}
    (h : ∀ j, index ≤ j → j < index + count → log j = log' j) :
    commands log index count = commands log' index count := by
  refine List.map_congr_left fun j hj => ?_
  obtain ⟨hge, hlt⟩ := List.mem_range'_1.mp hj
  rw [h j hge hlt]

def AppliesUpTo (s s' : RaftServer n α) (log : Nat → RaftData α) : Prop :=
  s.executeIndex ≤ s'.executeIndex ∧ s'.applied.map some = s.applied.map some ++
    commands log (s.executeIndex + 1) (s'.executeIndex - s.executeIndex)

theorem appliesUpTo_of_eq {s s' : RaftServer n α} {log : Nat → RaftData α}
    (hexec : s'.executeIndex = s.executeIndex) (happlied : s'.applied = s.applied) :
    s.AppliesUpTo s' log := by
  unfold AppliesUpTo
  rw [hexec, happlied, Nat.sub_self]
  exact ⟨le_refl _, (List.append_nil _).symm⟩

theorem applyLoop_applies {fuel : Nat} {s s' : RaftServer n α} (h : applyLoop fuel s = some s') :
    s.AppliesUpTo s' s.raftLogs := by
  induction fuel generalizing s with
  | zero =>
    cases h
    exact appliesUpTo_of_eq rfl rfl
  | succ fuel ih =>
    obtain ⟨d, hd, h⟩ := Option.bind_eq_some_iff.mp h
    obtain ⟨-, rfl⟩ := getRaftInstance_some hd
    split at h
    · next cmd hcmd =>
      obtain ⟨hle, happlied⟩ := ih h
      dsimp only at hle happlied
      refine ⟨(Nat.le_succ _).trans hle, ?_⟩
      have hone : commands s.raftLogs (s.executeIndex + 1) 1 = [some cmd] := by
        rw [← hcmd]
        rfl
      have hcount : s'.executeIndex - s.executeIndex =
          1 + (s'.executeIndex - (s.executeIndex + 1)) := by omega
      rw [happlied, hcount, ← commands_append, hone, List.map_append, List.append_assoc]
      rfl
    · cases h
      exact appliesUpTo_of_eq rfl rfl

theorem applyLogs_applies {s s' : RaftServer n α} (h : applyLogs s = some s') :
    s.AppliesUpTo s' s.raftLogs := by
  obtain ⟨q, hq, h⟩ := Option.bind_eq_some_iff.mp h
  cases h
  have happlies : s.AppliesUpTo q s.raftLogs := applyLoop_applies hq
  exact happlies

theorem onAppendEntries_applies {now : Nat} {s s' : RaftServer n α} {m : AppendEntries n α}
    {reply : AppendReply n α} (hok : s.appendOk m = some true)
    (h : s.onAppendEntries now m = some (s', reply)) :
    s.AppliesUpTo s' (writeBatch s.raftLogs m.prevLogIndex (m.cmd.getD [])) := by
  obtain ⟨ok, hok', h⟩ := Option.bind_eq_some_iff.mp h
  rw [hok] at hok'
  cases hok'
  obtain ⟨q, hq, h⟩ := Option.bind_eq_some_iff.mp h
  obtain ⟨q', hq', h⟩ := Option.bind_eq_some_iff.mp h
  cases h
  have hadopt : s.Unwritten (adoptTerm now m.term (resetTimer now s)) := by
    unfold adoptTerm
    split
    · have hset := unwritten_setIsLeader now false
        { resetTimer now s with currentTerm := m.term }
      exact ⟨⟨hset.log.raftLogs, hset.log.minActiveSlot, hset.log.lastLogIndex,
        hset.log.commitIndex, hset.log.executeIndex⟩, hset.applied⟩
    · exact ⟨⟨rfl, rfl, rfl, rfl, rfl⟩, rfl⟩
  generalize adoptTerm now m.term (resetTimer now s) = p at hq hadopt
  obtain ⟨rfl, -⟩ := storeBatch_eq hq
  unfold AppliesUpTo
  rw [← hadopt.log.executeIndex, ← hadopt.applied, ← hadopt.log.raftLogs]
  unfold updateCommit at hq'
  split at hq'
  · exact applyLogs_applies hq'
  · cases hq'
    exact appliesUpTo_of_eq rfl rfl

/-- The head of a round of `HeartbeatLoop`: the commit index moves at most to an entry of the current
term that half of the followers match, and what is committed is applied. -/
structure Advanced (i : Fin n) (s s' : RaftServer n α) : Prop where
  applies : s.AppliesUpTo s' s.raftLogs
  executed : s'.executeIndex ≤ max s.executeIndex s'.commitIndex
  commit : s'.commitIndex = s.commitIndex ∨
    (s.isLeader = true ∧ s.commitIndex < s'.commitIndex ∧ s'.commitIndex ≤ s.lastLogIndex ∧
      s.minActiveSlot ≤ s'.commitIndex ∧ (s.raftLogs s'.commitIndex).term = s.currentTerm ∧
      ∃ matched, ((peers i).map s.matchIndex).mergeSort[(n - 1) / 2]? = some matched ∧
        s'.commitIndex ≤ matched)

theorem advanced_of_advanceCommit {self : Fin n} {s s' : RaftServer n α}
    (h : s.advanceCommit self = some s') : Advanced self s s' := by
  unfold advanceCommit at h
  split at h
  · next hl =>
    obtain ⟨matched, hmatched, h⟩ := Option.bind_eq_some_iff.mp h
    obtain ⟨q, hq, h⟩ := Option.bind_eq_some_iff.mp h
    have hraised : q.raftLogs = s.raftLogs ∧ q.executeIndex = s.executeIndex ∧
        q.applied = s.applied ∧ (q.commitIndex = s.commitIndex ∨
          (s.commitIndex < q.commitIndex ∧ q.commitIndex ≤ s.lastLogIndex ∧
            s.minActiveSlot ≤ q.commitIndex ∧
            (s.raftLogs q.commitIndex).term = s.currentTerm ∧ q.commitIndex ≤ matched)) := by
      obtain rfl | ⟨rfl, hlt, hmin, hterm⟩ := raiseCommit_cases hq
      · exact ⟨rfl, rfl, rfl, .inl rfl⟩
      · refine ⟨rfl, rfl, rfl, .inr ⟨hlt, ?_, hmin, hterm, ?_⟩⟩ <;> dsimp only <;> split <;> omega
    obtain ⟨hlogs, hexec, happlied, hcommit⟩ := hraised
    have hcases : q.AppliesUpTo s' q.raftLogs ∧ s'.executeIndex ≤ max q.executeIndex s'.commitIndex ∧
        s'.commitIndex = q.commitIndex := by
      split at h
      · have ha := applied_of_applyLogs h
        have hle := ha.le_commit
        rw [← ha.commit] at hle
        exact ⟨applyLogs_applies h, hle, ha.commit⟩
      · cases h
        exact ⟨appliesUpTo_of_eq rfl rfl, le_max_left _ _, rfl⟩
    obtain ⟨happlies, hle, hsame⟩ := hcases
    unfold AppliesUpTo at happlies
    rw [hlogs, hexec, happlied] at happlies
    rw [hexec] at hle
    refine ⟨happlies, hle, ?_⟩
    rw [hsame]
    refine hcommit.imp_right ?_
    rintro ⟨hlt, hlast, hmin, hterm, hmatch⟩
    exact ⟨hl, hlt, hlast, hmin, hterm, matched, hmatched, hmatch⟩
  · cases h
    exact ⟨appliesUpTo_of_eq rfl rfl, le_max_left _ _, .inl rfl⟩

end RaftServer

theorem length_peers (i : Fin n) : (RaftServer.peers i).length = n - 1 := by
  have hpeers : RaftServer.peers i = (List.finRange n).erase i := by
    rw [(List.nodup_finRange n).erase_eq_filter]
    exact List.filter_congr fun j _ => by by_cases hj : j = i <;> simp [hj]
  rw [hpeers, List.length_erase_of_mem (List.mem_finRange i), List.length_finRange]

/-- The followers that match an index make a majority with the leader. -/
theorem exists_majority_of_matched {s : RaftServer n α} {i : Fin n} {matched : Nat}
    (h : ((RaftServer.peers i).map s.matchIndex).mergeSort[(n - 1) / 2]? = some matched) :
    ∃ Q, (majority (Fin n)).IsQuorum Q ∧ ∀ f ∈ Q, f = i ∨ (f ≠ i ∧ matched ≤ s.matchIndex f) := by
  have hcount := Rank.le_countP_of_ascending _ h
  rw [List.length_map, length_peers, List.countP_map] at hcount
  obtain ⟨F, hcard, hF⟩ := Rank.exists_finset_of_countP (peers_nodup i)
    ((fun y => decide (matched ≤ y)) ∘ s.matchIndex)
  have hself : i ∉ F := by
    intro hi
    have hmem := (hF i hi).1
    simp [RaftServer.peers] at hmem
  have hpos := i.pos
  refine ⟨insert i F, ?_, fun f hf => ?_⟩
  · change Fintype.card (Fin n) < 2 * (insert i F).card
    rw [Finset.card_insert_of_notMem hself, Fintype.card_fin]
    omega
  · rcases Finset.mem_insert.mp hf with rfl | hmem
    · exact .inl rfl
    · refine .inr ⟨fun heq => hself (heq ▸ hmem), ?_⟩
      simpa using (hF f hmem).2

namespace Partition

theorem Sent.grows {r r' : Partition n α} {m : AppendEntries n α} {R : Reign (Fin n) (RaftData α)}
    (h : r.Sent m R) (hgrows : r.chronicle.Grows r'.chronicle) : ∃ R', r'.Sent m R' := by
  obtain ⟨R', hR', hext⟩ := hgrows.reign h.reign
  have hle := h.le
  refine ⟨R', hR', hext.leader.trans h.leader, h.other, ?_, h.le.trans hext.last, ?_, ?_, h.nonempty⟩
  · rw [hext.start]
    exact h.start_le
  · intro hpos
    have hprev : m.prevLogIndex ≤ R.last := (Nat.le_add_right _ _).trans hle
    rw [hext.agrees _ hpos hprev]
    exact h.prevTerm hpos
  · intro k c hk
    have hlt := (List.getElem?_eq_some_iff.mp hk).1
    unfold AppendEntries.lastIndex at hle
    rw [hext.agrees _ (Nat.succ_pos _) (by omega)]
    exact h.cmds k c hk

/-- Calls of one term end where the log of its leader ended, so later ones do not end earlier; and
those that are still on their way end behind what their followers agreed on. -/
structure Calls (r : Partition n α) : Prop where
  sent : ∀ m ∈ r.system.appends, ∃ R, r.Sent m R
  ordered : r.system.appends.Pairwise fun m m' => m.term = m'.term → m.lastIndex ≤ m'.lastIndex
  ahead : ∀ (k : Nat) (m : AppendEntries n α), r.system.appends[k]? = some m →
    r.handled m.leaderSiteId m.follower ≤ k →
      r.chronicle.acked m.follower m.term ≤ m.lastIndex

theorem Calls.keep {r r' : Partition n α} (h : r.Calls)
    (hgrows : r.chronicle.Grows r'.chronicle) (happends : r'.system.appends = r.system.appends)
    (hhandled : ∀ l f, r.handled l f ≤ r'.handled l f)
    (hacked : ∀ m R, r.Sent m R →
      r'.chronicle.acked m.follower m.term = r.chronicle.acked m.follower m.term) : r'.Calls := by
  refine ⟨fun m hm => ?_, happends ▸ h.ordered, fun k m hk hle => ?_⟩
  · obtain ⟨R, hR⟩ := h.sent m (happends ▸ hm)
    exact hR.grows hgrows
  · rw [happends] at hk
    obtain ⟨R, hR⟩ := h.sent m (List.mem_of_getElem? hk)
    rw [hacked m R hR]
    exact h.ahead k m hk ((hhandled _ _).trans hle)

theorem Calls.send {r r' : Partition n α} {m : AppendEntries n α} {R : Reign (Fin n) (RaftData α)}
    (h : r.Calls) (hinv : r.Inv) (hchronicle : r'.chronicle = r.chronicle)
    (happends : r'.system.appends = r.system.appends ++ [m]) (hhandled : r'.handled = r.handled)
    (hsent : r.Sent m R) (hend : m.lastIndex = R.last) : r'.Calls := by
  have hgrows : r.chronicle.Grows r'.chronicle := by
    rw [hchronicle]
    exact .refl _
  refine ⟨fun m' hm' => ?_, ?_, fun k m' hk hle => ?_⟩
  · rw [happends, List.mem_append, List.mem_singleton] at hm'
    rcases hm' with hm' | rfl
    · obtain ⟨R', hR'⟩ := h.sent m' hm'
      exact hR'.grows hgrows
    · exact hsent.grows hgrows
  · rw [happends, List.pairwise_append]
    refine ⟨h.ordered, List.pairwise_singleton _ _, fun m' hm' m₁ hm₁ hterm => ?_⟩
    obtain rfl := List.mem_singleton.mp hm₁
    obtain ⟨R', hR'⟩ := h.sent m' hm'
    have hreign := hR'.reign
    rw [hterm, hsent.reign] at hreign
    obtain rfl := Option.some.inj hreign
    rw [hend]
    exact hR'.le
  · rw [hchronicle]
    rw [hhandled] at hle
    rw [happends, List.getElem?_append] at hk
    split at hk
    · exact h.ahead k m' hk hle
    · obtain rfl : m = m' := by
        rw [List.getElem?_singleton] at hk
        split at hk
        · exact Option.some.inj hk
        · cases hk
      rw [hend]
      exact hinv.sound.acked_le hsent.reign

/-- A follower that accepts a call agrees up to its end, where no later call ends earlier. -/
theorem Calls.accept {r r' : Partition n α} {k : Nat} {m : AppendEntries n α} (h : r.Calls)
    (hk : r.system.appends[k]? = some m) (hle : r.handled m.leaderSiteId m.follower ≤ k)
    (hchronicle : r'.chronicle = r.chronicle.ack m.follower m.term m.lastIndex)
    (happends : r'.system.appends = r.system.appends)
    (hhandled : r'.handled = Function.update r.handled m.leaderSiteId
      (Function.update (r.handled m.leaderSiteId) m.follower (k + 1))) : r'.Calls := by
  have hgrows : r.chronicle.Grows r'.chronicle := by
    rw [hchronicle]
    exact Chronicle.grows_ack _ _ _ _
  refine ⟨fun m' hm' => ?_, happends ▸ h.ordered, fun k' m' hk' hle' => ?_⟩
  · obtain ⟨R, hR⟩ := h.sent m' (happends ▸ hm')
    exact hR.grows hgrows
  · rw [happends] at hk'
    have hbefore : r.handled m'.leaderSiteId m'.follower ≤ k' := by
      rw [hhandled] at hle'
      by_cases hl : m'.leaderSiteId = m.leaderSiteId
      · rw [hl, Function.update_self] at hle'
        by_cases hf : m'.follower = m.follower
        · rw [hf, Function.update_self] at hle'
          rw [hl, hf]
          omega
        · rw [Function.update_of_ne hf] at hle'
          rw [hl]
          exact hle'
      · rw [Function.update_of_ne hl] at hle'
        exact hle'
    rw [hchronicle]
    by_cases hsame : m'.follower = m.follower ∧ m'.term = m.term
    · obtain ⟨hf, hterm⟩ := hsame
      obtain ⟨R, hR⟩ := h.sent m (List.mem_of_getElem? hk)
      obtain ⟨R', hR'⟩ := h.sent m' (List.mem_of_getElem? hk')
      -- The calls of one term come from one leader.
      have hreign := hR'.reign
      rw [hterm, hR.reign] at hreign
      obtain rfl := Option.some.inj hreign
      have hl : m'.leaderSiteId = m.leaderSiteId := hR'.leader.symm.trans hR.leader
      rw [hf, hterm, Chronicle.ack_self]
      refine max_le ?_ ?_
      · have hahead := h.ahead k' m' hk' hbefore
        rw [hf, hterm] at hahead
        exact hahead
      · rw [hhandled, hl, hf, Function.update_self, Function.update_self] at hle'
        obtain ⟨hlt, hget⟩ := List.getElem?_eq_some_iff.mp hk
        obtain ⟨hlt', hget'⟩ := List.getElem?_eq_some_iff.mp hk'
        have hordered := List.pairwise_iff_getElem.mp h.ordered k k' hlt hlt' hle'
        rw [hget, hget'] at hordered
        exact hordered hterm.symm
    · rw [Chronicle.ack_of_ne _ _ hsame]
      exact h.ahead k' m' hk' hbefore

/-- A majority agreed on all slots up to `k` with a leader of a term up to `u`. -/
def Covered (r : Partition n α) (u k : Nat) : Prop :=
  k = 0 ∨ ∃ t R l, t ≤ u ∧ r.chronicle.Chosen RaftData.term (majority (Fin n)) t R l ∧ k ≤ l

theorem Covered.grows {r r' : Partition n α} {u k : Nat} (h : r.Covered u k)
    (hgrows : r.chronicle.Grows r'.chronicle) : r'.Covered u k := by
  refine h.imp_right ?_
  rintro ⟨t, R, l, hle, hchosen, hk⟩
  obtain ⟨R', -, hchosen'⟩ := hchosen.grows hgrows
  exact ⟨t, R', l, hle, hchosen', hk⟩

theorem Covered.mono {r : Partition n α} {u u' k k' : Nat} (h : r.Covered u k) (hu : u ≤ u')
    (hk : k' ≤ k) : r.Covered u' k' := by
  obtain rfl | ⟨t, R, l, hle, hchosen, hl⟩ := h
  · exact .inl (Nat.le_zero.mp hk)
  · exact .inr ⟨t, R, l, hle.trans hu, hchosen, hk.trans hl⟩

/-- What a server has committed was covered in a term up to its own, and it had agreed to so much of
the log of that term. What it has applied is what its log has there. -/
structure Settled (r : Partition n α) (i : Fin n) : Prop where
  commits : ∃ u, u ≤ (r.system.server i).currentTerm ∧
    r.Covered u (r.system.server i).commitIndex ∧
      (r.system.server i).commitIndex ≤ r.chronicle.acked i u
  executed : (r.system.server i).executeIndex ≤ (r.system.server i).commitIndex
  applied : (r.system.server i).applied.map some =
    RaftServer.commands (r.history i) 1 (r.system.server i).executeIndex

structure Commits (r : Partition n α) : Prop where
  settled : ∀ i, r.Settled i
  calls : ∀ m ∈ r.system.appends, r.Covered m.term m.commitIndex ∧ m.commitIndex ≤ m.lastIndex
  answered : ∀ p ∈ r.system.appendReplies, p.call ∈ r.system.appends ∧
    (p.ok = true → p.call.cmd.isSome = true →
      p.lastLogIndex ≤ r.chronicle.acked p.call.follower p.call.term)
  matched : ∀ i, (r.system.server i).isLeader = true → ∀ f, f ≠ i →
    (r.system.server i).matchIndex f ≤ r.chronicle.acked f (r.system.server i).currentTerm

theorem Inv.majorityBacked {r : Partition n α} (h : r.Inv) :
    r.chronicle.Backed RaftData.term (majority (Fin n)) := by
  intro t R hR
  obtain ⟨Q, hQ, hbacks⟩ := h.backed t R hR
  exact ⟨Q, hQ, fun v hv => (hbacks v hv).2⟩

/-- What is covered, and a server has agreed on, is in its log, as the leader had it that chose it. -/
theorem Inv.covered_holds {r : Partition n α} (h : r.Inv) {i : Fin n} {u k : Nat}
    (hu : u ≤ (r.system.server i).currentTerm) (hcovered : r.Covered u k)
    (hacked : k ≤ r.chronicle.acked i u) (hpos : 0 < k) : ∃ t R l, t ≤ u ∧
      r.chronicle.Chosen RaftData.term (majority (Fin n)) t R l ∧ k ≤ l ∧
      Holds (r.history i) (r.system.server i).lastLogIndex R.log k := by
  obtain rfl | ⟨t, R, l, ht, hchosen, hl⟩ := hcovered
  · omega
  refine ⟨t, R, l, ht, hchosen, hl, ?_⟩
  cases hRu : r.chronicle.reign u with
  | none =>
    have hnone := h.sound.acked_none (v := i) hRu
    omega
  | some Ru =>
    have hheld := hchosen.holds h.sound h.majorityBacked hRu ht
    have hkept : Holds (r.history i) (r.system.server i).lastLogIndex Ru.log k := by
      refine h.keeps i u Ru k (Nat.lt_succ_of_le hu) hRu hacked fun t' R' hgt _ hR' => ?_
      have hlater := hchosen.complete h.majorityBacked hR' (ht.trans_lt hgt)
      exact ⟨hl.trans hlater.le, (hlater.agrees.mono hl).trans (hheld.agrees.mono hl).symm⟩
    exact hkept.trans (hheld.mono hl)

theorem Inv.committed {r : Partition n α} (h : r.Inv) {i : Fin n} (hi : r.Settled i)
    (hpos : 0 < (r.system.server i).commitIndex) : ∃ t R l, t ≤ (r.system.server i).currentTerm ∧
      r.chronicle.Chosen RaftData.term (majority (Fin n)) t R l ∧
      (r.system.server i).commitIndex ≤ l ∧
      Holds (r.history i) (r.system.server i).lastLogIndex R.log (r.system.server i).commitIndex := by
  obtain ⟨u, hu, hcovered, hacked⟩ := hi.commits
  obtain ⟨t, R, l, ht, hchosen, hl, hholds⟩ := h.covered_holds hu hcovered hacked hpos
  exact ⟨t, R, l, ht.trans hu, hchosen, hl, hholds⟩

theorem Inv.commit_le_last {r : Partition n α} (h : r.Inv) {i : Fin n} (hi : r.Settled i) :
    (r.system.server i).commitIndex ≤ (r.system.server i).lastLogIndex := by
  rcases Nat.eq_zero_or_pos (r.system.server i).commitIndex with hzero | hpos
  · omega
  · obtain ⟨_, _, _, _, _, _, hholds⟩ := h.committed hi hpos
    exact hholds.le

theorem Settled.keep {r r' : Partition n α} {i : Fin n} (h : r.Settled i)
    (hgrows : r.chronicle.Grows r'.chronicle)
    (hterm : (r.system.server i).currentTerm ≤ (r'.system.server i).currentTerm)
    (hcommit : (r'.system.server i).commitIndex = (r.system.server i).commitIndex)
    (hexec : (r'.system.server i).executeIndex = (r.system.server i).executeIndex)
    (happlied : (r'.system.server i).applied = (r.system.server i).applied)
    (hhistory : ∀ j, j ≤ (r.system.server i).executeIndex → r'.history i j = r.history i j) :
    r'.Settled i := by
  obtain ⟨u, hu, hcovered, hacked⟩ := h.commits
  refine ⟨⟨u, hu.trans hterm, ?_, ?_⟩, ?_, ?_⟩
  · rw [hcommit]
    exact hcovered.grows hgrows
  · rw [hcommit]
    exact hacked.trans (hgrows.acked i u)
  · rw [hcommit, hexec]
    exact h.executed
  · rw [happlied, hexec, h.applied]
    exact RaftServer.commands_congr fun j _ hj => (hhistory j (by omega)).symm

theorem Settled.advance {r r' : Partition n α} {i : Fin n} (h : r.Settled i)
    (hcommits : ∃ u, u ≤ (r'.system.server i).currentTerm ∧
      r'.Covered u (r'.system.server i).commitIndex ∧
        (r'.system.server i).commitIndex ≤ r'.chronicle.acked i u)
    (hexec : (r'.system.server i).executeIndex ≤ (r'.system.server i).commitIndex)
    (happlies : (r.system.server i).AppliesUpTo (r'.system.server i) (r'.history i))
    (hhistory : ∀ j, 0 < j → j ≤ (r.system.server i).executeIndex → r'.history i j = r.history i j) :
    r'.Settled i := by
  obtain ⟨hle, happlied⟩ := happlies
  refine ⟨hcommits, hexec, ?_⟩
  have hold : RaftServer.commands (r.history i) 1 (r.system.server i).executeIndex =
      RaftServer.commands (r'.history i) 1 (r.system.server i).executeIndex :=
    RaftServer.commands_congr fun j hpos hj => (hhistory j hpos (by omega)).symm
  rw [happlied, h.applied, hold, Nat.add_comm _ 1, RaftServer.commands_append,
    Nat.add_sub_cancel' hle]

end Partition

end Jetpack.Raft
