import Jetpack.Library.Tally
import Jetpack.CommandPool
import Jetpack.QuorumEvent

/-! The quorum events of a recovery. A command acknowledged by a super majority wins the vote count
of every majority of pull replies. -/

namespace Jetpack

open Plurality

/-- `epoch_t` is an unsigned 32-bit number. -/
abbrev Epoch := BitVec 32

def maxFailure (n : Nat) : Nat := (n - 1) / 2

def ruleSuperMajority (n : Nat) : Nat :=
  let f := maxFailure n
  f + (f + 1) / 2 + 1

/-- `GetCmdID`: the null pointer and an empty batch have the id `(-32768, -32768)`, and a batch has
the id of its first command. -/
def getCmdID : Option Marshallable → Except Fault (BitVec 32 × BitVec 32)
  | none => .ok (-32768, -32768)
  | some (.tpcBatch []) => .ok (-32768, -32768)
  | some (.tpcBatch (c :: _)) => SimpleRWCommand.cmdId <$> SimpleRWCommand.parse (.tpcCommit c)
  | some cmd => SimpleRWCommand.cmdId <$> SimpleRWCommand.parse cmd

def getCombinedCmdID (cmd : Option Marshallable) : Except Fault CmdId := do
  let id ← getCmdID cmd
  return combineInt32 id.1 id.2

namespace JetpackCommandPool

/-- The entries of a `PullRecovery` reply for these keys: the key and the id of its command to
recover. -/
def recoveryEntries (p : JetpackCommandPool) : List Key → Except Fault (List (Key × CmdId))
  | [] => .ok []
  | key :: keys =>
    match p.hasCmdToRecover key, p.cmdToRecover key with
    | true, some cmd => do
      let cmdId ← getCombinedCmdID (some cmd)
      let batch ← p.recoveryEntries keys
      return (key, cmdId) :: batch
    | _, _ => p.recoveryEntries keys

def recoveryBatch (p : JetpackCommandPool) : Except Fault (List (Key × CmdId)) :=
  p.recoveryEntries p.candidates.keys

def Reports (p : JetpackCommandPool) (key : Key) (cmdId : CmdId) : Prop :=
  ∃ batch, p.recoveryBatch = .ok batch ∧ (key, cmdId) ∈ batch

end JetpackCommandPool

/-- `max_jepoch_` and `max_oepoch_` start from `-1`, the largest unsigned value. -/
structure JetpackPullRecoveryQuorumEvent extends QuorumEvent where
  maxJepoch : Epoch := -1
  maxOepoch : Epoch := -1
  keyStates : KeyedTally Key CmdId := ∅

namespace JetpackPullRecoveryQuorumEvent

def majorityThreshold (e : JetpackPullRecoveryQuorumEvent) : Nat :=
  ((e.nTotal - 1) / 2 + 2 + 1) / 2

/-- `batch` is `none` when the reply's data is of another kind. -/
def feedResponse (e : JetpackPullRecoveryQuorumEvent) (y : Bool) (jepoch oepoch : Epoch)
    (batch : Option (List (Key × CmdId))) : JetpackPullRecoveryQuorumEvent :=
  if y then
    { e with
      toQuorumEvent := e.toQuorumEvent.voteYes
      keyStates := (batch.getD []).foldl (KeyedTally.addEntry noCmdId) e.keyStates }
  else
    { e with
      toQuorumEvent := e.toQuorumEvent.voteNo
      maxJepoch := if e.maxJepoch < jepoch then jepoch else e.maxJepoch
      maxOepoch := if e.maxOepoch < oepoch then oepoch else e.maxOepoch }

def getRecoveredKeyIds (e : JetpackPullRecoveryQuorumEvent) : List (Key × CmdId) :=
  let result := e.keyStates.entries.filterMap fun kv =>
    if kv.2.maxItem ≠ noCmdId ∧ e.majorityThreshold ≤ kv.2.maxCount then some (kv.1, kv.2.maxItem)
    else none
  result.mergeSort fun a b => a.1.sle b.1

end JetpackPullRecoveryQuorumEvent

structure PullReply (n : Nat) where
  site : Fin n
  ok : Bool
  jepoch : Epoch
  oepoch : Epoch
  batch : Option (List (Key × CmdId))

namespace JetpackPullRecoveryQuorumEvent

def feed {n : Nat} (e : JetpackPullRecoveryQuorumEvent) (replies : List (PullReply n)) :
    JetpackPullRecoveryQuorumEvent :=
  replies.foldl (fun e r => e.feedResponse r.ok r.jepoch r.oepoch r.batch) e

theorem feed_nTotal {n : Nat} (e : JetpackPullRecoveryQuorumEvent) (replies : List (PullReply n)) :
    (e.feed replies).nTotal = e.nTotal := by
  induction replies generalizing e with
  | nil => rfl
  | cons r rs ih =>
    rw [feed, List.foldl_cons, ← feed, ih]
    unfold feedResponse
    split <;> rfl

theorem feed_keyStates {n : Nat} (e : JetpackPullRecoveryQuorumEvent)
    (replies : List (PullReply n)) :
    (e.feed replies).keyStates
      = ((replies.filter PullReply.ok).flatMap fun r => r.batch.getD []).foldl
          (KeyedTally.addEntry noCmdId) e.keyStates := by
  induction replies generalizing e with
  | nil => rfl
  | cons r rs ih =>
    rw [feed, List.foldl_cons, ← feed, ih]
    cases hr : r.ok <;> simp [feedResponse, hr, List.flatMap_cons, List.foldl_append]

theorem mem_getRecoveredKeyIds {e : JetpackPullRecoveryQuorumEvent} {k : Key} {c : CmdId} :
    (k, c) ∈ e.getRecoveredKeyIds ↔
      ∃ t, e.keyStates.lookup k = some t ∧ t.maxItem = c ∧ c ≠ noCmdId ∧
        e.majorityThreshold ≤ t.maxCount := by
  simp only [getRecoveredKeyIds, List.mem_mergeSort, List.mem_filterMap, Option.ite_none_right_eq_some,
    Option.some.injEq, Prod.mk.injEq]
  constructor
  · rintro ⟨⟨k', t⟩, hmem, ⟨hne, hthr⟩, rfl, rfl⟩
    exact ⟨t, AList.mem_lookup_iff.mpr hmem, rfl, hne, hthr⟩
  · rintro ⟨t, hmem, rfl, hne, hthr⟩
    exact ⟨⟨k, t⟩, AList.mem_lookup_iff.mp hmem, ⟨hne, hthr⟩, rfl, rfl⟩

end JetpackPullRecoveryQuorumEvent

theorem getCombinedCmdID_ne {cmd : Option Marshallable} {c : CmdId}
    (h : getCombinedCmdID cmd = .ok c) : c ≠ noCmdId := by
  obtain ⟨id, -, h⟩ := Except.bind_eq_ok h
  cases h
  exact combineInt32_ne_noCmdId _ _

namespace JetpackCommandPool

theorem recoveryEntries_sublist {p : JetpackCommandPool} {keys : List Key}
    {batch : List (Key × CmdId)} (h : p.recoveryEntries keys = .ok batch) :
    (batch.map Prod.fst).Sublist keys ∧ ∀ e ∈ batch, e.2 ≠ noCmdId := by
  induction keys generalizing batch with
  | nil =>
    cases h
    simp
  | cons key keys ih =>
    unfold recoveryEntries at h
    split at h
    · obtain ⟨cmdId, hid, h⟩ := Except.bind_eq_ok h
      obtain ⟨rest, hrest, h⟩ := Except.bind_eq_ok h
      cases h
      obtain ⟨hsub, hne⟩ := ih hrest
      refine ⟨hsub.cons_cons key, ?_⟩
      intro e he
      rcases List.mem_cons.mp he with rfl | he
      · exact getCombinedCmdID_ne hid
      · exact hne e he
    · obtain ⟨hsub, hne⟩ := ih h
      exact ⟨hsub.cons key, hne⟩

theorem recoveryBatch_nodup {p : JetpackCommandPool} {batch : List (Key × CmdId)}
    (h : p.recoveryBatch = .ok batch) : (batch.map Prod.fst).Nodup :=
  (recoveryEntries_sublist h).1.nodup p.candidates.nodupKeys

theorem Reports.cmdId_ne {p : JetpackCommandPool} {k : Key} {c : CmdId} (h : p.Reports k c) :
    c ≠ noCmdId := by
  obtain ⟨batch, hbatch, hmem⟩ := h
  exact (recoveryEntries_sublist hbatch).2 _ hmem

end JetpackCommandPool

theorem countP_not_mem_le {n : Nat} {α : Type} (holders : Finset (Fin n)) (site : α → Fin n)
    {l : List α} (hnd : (l.map site).Nodup) :
    l.countP (fun r => site r ∉ holders) ≤ n - holders.card := by
  have hout : ((l.filter (fun r => site r ∉ holders)).map site).toFinset ⊆ holdersᶜ := by
    intro r hr
    simp only [List.mem_toFinset, List.mem_map, List.mem_filter, decide_eq_true_eq] at hr
    obtain ⟨x, ⟨-, hx⟩, rfl⟩ := hr
    exact Finset.mem_compl.mpr hx
  have hnd' : ((l.filter (fun r => site r ∉ holders)).map site).Nodup :=
    ((List.filter_sublist).map site).nodup hnd
  calc l.countP (fun r => site r ∉ holders)
      = ((l.filter (fun r => site r ∉ holders)).map site).length := by
        rw [List.length_map, List.countP_eq_length_filter]
    _ = ((l.filter (fun r => site r ∉ holders)).map site).toFinset.card :=
        (List.toFinset_card_of_nodup hnd').symm
    _ ≤ holdersᶜ.card := Finset.card_le_card hout
    _ = n - holders.card := by rw [Finset.card_compl, Fintype.card_fin]

/-- The thresholds of an odd number of replicas: a super majority leaves enough votes in every
majority to reach the recovery threshold and to beat the rest. -/
theorem superMajority_outvotes {n s q out : Nat} (hodd : n % 2 = 1)
    (hs : ruleSuperMajority n ≤ s) (hq : n / 2 + 1 ≤ q) (hout : out ≤ n - s) :
    ((n - 1) / 2 + 2 + 1) / 2 ≤ q - out ∧ out < q - out := by
  simp only [ruleSuperMajority, maxFailure] at hs
  omega

/-- Among the replies of a majority a command that a super majority puts into its replies reaches the
recovery threshold and is reported more often than any other command for its key. -/
theorem superMajority_count {n : Nat} (hodd : n % 2 = 1) {k : Key} {c : CmdId}
    {holders : Finset (Fin n)} (hsuper : ruleSuperMajority n ≤ holders.card)
    {yes : List (PullReply n)} (hsites : (yes.map PullReply.site).Nodup)
    (hnd : ∀ r ∈ yes, ((r.batch.getD []).map Prod.fst).Nodup)
    (hheld : ∀ r ∈ yes, r.site ∈ holders → (k, c) ∈ r.batch.getD [])
    (hquorum : n / 2 + 1 ≤ yes.length) :
    ((n - 1) / 2 + 2 + 1) / 2 ≤ (yes.flatMap fun r => itemsOf k (r.batch.getD [])).count c ∧
      ∀ y, y ≠ c → (yes.flatMap fun r => itemsOf k (r.batch.getD [])).count y
        < (yes.flatMap fun r => itemsOf k (r.batch.getD [])).count c := by
  -- A reply without the command comes from outside the super majority.
  have hmiss : yes.countP (fun r => ¬ (k, c) ∈ r.batch.getD []) ≤ n - holders.card := by
    refine le_trans (List.countP_mono_left ?_) (countP_not_mem_le holders PullReply.site hsites)
    intro r hr hnot
    simp only [decide_eq_true_eq] at hnot ⊢
    exact fun hholder => hnot (hheld r hr hholder)
  obtain ⟨hfor, hagainst⟩ := count_flatMap_itemsOf (k := k) (x := c) hnd
  have hsplit := List.length_eq_countP_add_countP (fun r : PullReply n => (k, c) ∈ r.batch.getD [])
    (l := yes)
  simp only [decide_eq_true_eq] at hsplit
  obtain ⟨hthreshold, hbeats⟩ := superMajority_outvotes hodd hsuper hquorum hmiss
  refine ⟨by omega, fun y hy => ?_⟩
  have := hagainst y hy
  omega

/-- The replies may be of different moments: what the yes replies from a super majority have in
common for a key is recovered, and nothing else for that key. -/
theorem superMajority_reply_recovered {n : Nat} (hodd : n % 2 = 1) {k : Key} {c : CmdId}
    (hcne : c ≠ noCmdId) {holders : Finset (Fin n)} (hsuper : ruleSuperMajority n ≤ holders.card)
    {replies : List (PullReply n)}
    (hsites : ((replies.filter PullReply.ok).map PullReply.site).Nodup)
    (hnd : ∀ r ∈ replies, r.ok = true → ((r.batch.getD []).map Prod.fst).Nodup)
    (hheld : ∀ r ∈ replies, r.ok = true → r.site ∈ holders → (k, c) ∈ r.batch.getD [])
    (hquorum : n / 2 + 1 ≤ (replies.filter PullReply.ok).length) :
    let e : JetpackPullRecoveryQuorumEvent := { nTotal := n, quorum := n / 2 + 1 }
    (k, c) ∈ (e.feed replies).getRecoveredKeyIds ∧
      ∀ c', (k, c') ∈ (e.feed replies).getRecoveredKeyIds → c' = c := by
  intro e
  obtain ⟨hthreshold, hmost⟩ := superMajority_count hodd hsuper hsites
    (fun r hr => hnd r (List.mem_filter.mp hr).1 (List.mem_filter.mp hr).2)
    (fun r hr => hheld r (List.mem_filter.mp hr).1 (List.mem_filter.mp hr).2) hquorum
  have htally := counted_foldl noCmdId
    ((replies.filter PullReply.ok).flatMap fun r => itemsOf k (r.batch.getD []))
  have hat : ∀ t, t = KeyedTally.at (e.feed replies).keyStates noCmdId k →
      t.maxItem = c ∧ ((n - 1) / 2 + 2 + 1) / 2 ≤ t.maxCount := by
    rintro t rfl
    obtain ⟨hitem, hmax⟩ := htally.maxItem_eq (x := c) (by omega) hmost
    rw [JetpackPullRecoveryQuorumEvent.feed_keyStates, KeyedTally.at_foldl, itemsOf_flatMap]
    exact ⟨hitem, le_trans hthreshold (le_of_eq hmax.symm)⟩
  cases hlookup : (e.feed replies).keyStates.lookup k with
  | none =>
    have hitem := (hat (Tally.empty noCmdId) (by simp [KeyedTally.at, hlookup])).1
    exact absurd hitem.symm hcne
  | some t =>
    obtain ⟨hitem, hmax⟩ := hat t (by simp [KeyedTally.at, hlookup])
    refine ⟨JetpackPullRecoveryQuorumEvent.mem_getRecoveredKeyIds.mpr
      ⟨t, hlookup, hitem, hcne, ?_⟩, ?_⟩
    · rw [JetpackPullRecoveryQuorumEvent.majorityThreshold,
        JetpackPullRecoveryQuorumEvent.feed_nTotal]
      exact hmax
    · intro c' hmem
      obtain ⟨t', ht', hitem', -, -⟩ := JetpackPullRecoveryQuorumEvent.mem_getRecoveredKeyIds.mp hmem
      rw [hlookup] at ht'
      cases ht'
      rw [← hitem', hitem]

/-- Whatever majority of pull replies arrives in whatever order, the recovered ids have the command
that a super majority reports for its key, and no other command for that key. -/
theorem superMajority_report_recovered {n : Nat} (hodd : n % 2 = 1)
    (pools : Fin n → JetpackCommandPool) (k : Key) (c : CmdId) (holders : Finset (Fin n))
    (hsuper : ruleSuperMajority n ≤ holders.card) (hreports : ∀ r ∈ holders, (pools r).Reports k c)
    (replies : List (PullReply n)) (hsites : ((replies.filter PullReply.ok).map PullReply.site).Nodup)
    (hbatch : ∀ r ∈ replies, r.ok = true →
      ∃ batch, (pools r.site).recoveryBatch = .ok batch ∧ r.batch = some batch)
    (hquorum : n / 2 + 1 ≤ (replies.filter PullReply.ok).length) :
    let e : JetpackPullRecoveryQuorumEvent := { nTotal := n, quorum := n / 2 + 1 }
    (k, c) ∈ (e.feed replies).getRecoveredKeyIds ∧
      ∀ c', (k, c') ∈ (e.feed replies).getRecoveredKeyIds → c' = c := by
  have hcne : c ≠ noCmdId := by
    obtain ⟨r, hr⟩ : holders.Nonempty := by
      rw [← Finset.card_pos]
      exact lt_of_lt_of_le (Nat.succ_pos _) hsuper
    exact (hreports r hr).cmdId_ne
  refine superMajority_reply_recovered hodd hcne hsuper hsites ?_ ?_ hquorum
  · intro r hr hok
    obtain ⟨batch, hb, hr⟩ := hbatch r hr hok
    rw [hr]
    exact JetpackCommandPool.recoveryBatch_nodup hb
  · intro r hr hok hholder
    obtain ⟨batch, hb, hmem⟩ := hreports r.site hholder
    obtain ⟨batch', hb', hr⟩ := hbatch r hr hok
    rw [hb] at hb'
    cases hb'
    rwa [hr]

def poolOfWrite : JetpackCommandPool :=
  { candidates := AList.singleton 7
      { candidates := AList.singleton (combineInt32 1 1) ⟨PoolOp.writeOfKey7 1, true⟩
        totalWrite := 1
        toRecoverId := combineInt32 1 1 }
    poolSize := 1
    poolCmdCount := 1 }

theorem superMajority_report_recovered_three :
    let replies : List (PullReply 3) :=
      [⟨2, true, 0, 0, some [(7, combineInt32 1 1)]⟩, ⟨1, false, 0, 0, none⟩,
       ⟨0, true, 0, 0, some [(7, combineInt32 1 1)]⟩]
    let e : JetpackPullRecoveryQuorumEvent := { nTotal := 3, quorum := 3 / 2 + 1 }
    (7, combineInt32 1 1) ∈ (e.feed replies).getRecoveredKeyIds ∧
      ∀ c', (7, c') ∈ (e.feed replies).getRecoveredKeyIds → c' = combineInt32 1 1 := by
  have hbatch : poolOfWrite.recoveryBatch = .ok [(7, combineInt32 1 1)] := rfl
  refine superMajority_report_recovered (by decide) (fun _ => poolOfWrite) 7 (combineInt32 1 1)
    Finset.univ (by decide) (fun _ _ => ⟨_, hbatch, by simp⟩) _ (by decide) ?_ (by decide)
  intro r hr hok
  refine ⟨_, hbatch, ?_⟩
  simp only [List.mem_cons, List.not_mem_nil, or_false] at hr
  rcases hr with rfl | rfl | rfl
  · rfl
  · cases hok
  · rfl

end Jetpack
