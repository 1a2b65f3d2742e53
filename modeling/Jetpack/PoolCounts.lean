import Jetpack.Library.Calls
import Jetpack.CommandPool

/-! The counters of the command pool. They are the numbers of what is stored exactly as long as no
push overwrites an entry: a pushed id that its bucket already stores is counted again, and removed
only once. -/

namespace Jetpack

theorem sum_map_kerase {α β : Type} [DecidableEq α] {l : List (Sigma fun _ : α => β)} {a : α} {b : β}
    (h : l.dlookup a = some b) (f : β → Nat) :
    ((l.kerase a).map fun e => f e.2).sum + f b = (l.map fun e => f e.2).sum := by
  induction l with
  | nil => simp at h
  | cons x l ih =>
    obtain ⟨a', b'⟩ := x
    by_cases ha : a = a'
    · subst ha
      obtain rfl : b' = b := by simpa using h
      simp
      omega
    · rw [List.dlookup_cons_ne l ⟨a', b'⟩ ha] at h
      have hsum := ih h
      rw [List.kerase_cons_ne ha]
      simp only [List.map_cons, List.sum_cons]
      omega

namespace RevoveryCandidates

variable {b b' : RevoveryCandidates} {id : CmdId} {cmd : Marshallable} {w : Bool}

theorem size_insert_fresh {e : Entry} (h : b.candidates.lookup id = none) :
    (b.candidates.insert id e).entries.length = b.size + 1 := by
  have hnot : id ∉ b.candidates.entries.keys := List.dlookup_eq_none.mp h
  rw [AList.entries_insert, List.length_cons, List.kerase_of_notMem_keys hnot]
  rfl

theorem size_insert_stored {e e' : Entry} (h : b.candidates.lookup id = some e) :
    (b.candidates.insert id e').entries.length = b.size := by
  have hcount := countP_kerase h fun _ => true
  simp only [List.countP_true, Bool.toNat_true] at hcount
  rw [AList.entries_insert, List.length_cons]
  exact hcount

theorem storedWrites_insert_fresh {e : Entry} (h : b.candidates.lookup id = none) :
    (b.candidates.insert id e).entries.countP (fun x => x.2.isWrite)
      = b.storedWrites + e.isWrite.toNat := by
  have hnot : id ∉ b.candidates.entries.keys := List.dlookup_eq_none.mp h
  rw [AList.entries_insert, List.countP_cons, List.kerase_of_notMem_keys hnot]
  cases e.isWrite <;> rfl

theorem storedWrites_le_size (b : RevoveryCandidates) : b.storedWrites ≤ b.size :=
  List.countP_le_length

theorem pushBack_eq (h : b.pushBack id cmd w = .ok b') :
    b'.candidates = b.candidates.insert id ⟨cmd, w⟩ ∧ b'.totalWrite = b.totalWrite + w.toInt := by
  unfold pushBack at h
  split at h
  · cases h
  · cases h
    exact ⟨rfl, rfl⟩

theorem size_pushBack_fresh (h : b.pushBack id cmd w = .ok b')
    (hnew : b.candidates.lookup id = none) : b'.size = b.size + 1 := by
  unfold size
  rw [(pushBack_eq h).1]
  exact size_insert_fresh hnew

theorem size_pushBack_stored {e : Entry} (h : b.pushBack id cmd w = .ok b')
    (hold : b.candidates.lookup id = some e) : b'.size = b.size := by
  unfold size
  rw [(pushBack_eq h).1]
  exact size_insert_stored hold

theorem storedWrites_pushBack_fresh (h : b.pushBack id cmd w = .ok b')
    (hnew : b.candidates.lookup id = none) : b'.storedWrites = b.storedWrites + w.toNat := by
  unfold storedWrites
  rw [(pushBack_eq h).1]
  exact storedWrites_insert_fresh hnew

/-- What a removal takes away: nothing, or one entry with its share of the counts. -/
theorem remove_counts (b : RevoveryCandidates) (id : CmdId) :
    (b.remove id).2.size + (b.remove id).1.toNat = b.size ∧
      ∃ w : Bool, (w = true → (b.remove id).1 = true) ∧
        (b.remove id).2.storedWrites + w.toNat = b.storedWrites ∧
        (b.remove id).2.totalWrite + w.toInt = b.totalWrite := by
  unfold remove
  split
  · exact ⟨rfl, false, by simp, rfl, by simp⟩
  · next e he =>
    have hsize := countP_kerase he fun _ => true
    simp only [List.countP_true, Bool.toNat_true] at hsize
    exact ⟨hsize, e.isWrite, by simp, storedWrites_erase he, by simp⟩

theorem lookup_of_remove {e : Entry} {id' : CmdId}
    (h : (b.remove id).2.candidates.lookup id' = some e) : b.candidates.lookup id' = some e := by
  unfold remove at h
  split at h
  · exact h
  · by_cases hid : id' = id
    · subst hid
      simp at h
    · rwa [AList.lookup_erase_ne hid] at h

end RevoveryCandidates

namespace JetpackCommandPool

theorem lookup_of_removeCmd {p p' : JetpackCommandPool} {cmd : Marshallable} {r : Bool}
    (h : p.removeCmd cmd = .ok (r, p')) {key : Key} {id : CmdId} {e : Entry}
    (he : (p'.bucket key).candidates.lookup id = some e) :
    (p.bucket key).candidates.lookup id = some e := by
  obtain ⟨k, -, hbucket⟩ := removeCmd_ok h
  rw [hbucket key] at he
  split at he
  · next hkey =>
    subst hkey
    exact RevoveryCandidates.lookup_of_remove he
  · exact he

theorem lookup_of_remove {p p' : JetpackCommandPool} {cmd : Marshallable} {n : Int}
    (h : p.remove cmd = .ok (n, p')) {key : Key} {id : CmdId} {e : Entry} :
    (p'.bucket key).candidates.lookup id = some e → (p.bucket key).candidates.lookup id = some e :=
  remove_induct (P := fun q => (q.bucket key).candidates.lookup id = some e →
      (p.bucket key).candidates.lookup id = some e)
    (fun _ _ _ _ _ hq hm he => hq (lookup_of_removeCmd hm he)) (fun he => he) h

def storedCmds (p : JetpackCommandPool) : Nat :=
  (p.candidates.entries.map fun e => e.2.size).sum

def usedKeys (p : JetpackCommandPool) : Nat :=
  (p.candidates.entries.map fun e => (e.2.size != 0).toNat).sum

/-- The counters are the numbers of what is stored, and an emptied pool admits every command. -/
structure Bookkept (p : JetpackCommandPool) : Prop where
  writes : ∀ key, (p.bucket key).totalWrite = (p.bucket key).storedWrites
  commands : p.poolCmdCount = p.storedCmds
  keys : p.poolSize = p.usedKeys
  admits : (∀ key, (p.bucket key).size = 0) → ∀ cmd r p', p.pushBack .ready cmd = .ok (r, p') →
    r = true

theorem bookkept_of_counts {p : JetpackCommandPool}
    (hw : ∀ key, (p.bucket key).totalWrite = (p.bucket key).storedWrites)
    (hc : p.poolCmdCount = p.storedCmds) (hk : p.poolSize = p.usedKeys) : p.Bookkept := by
  refine ⟨hw, hc, hk, fun hempty cmd r p' h => ?_⟩
  obtain ⟨k, -, -, -, -, hr⟩ := pushBack_ok h
  have hle := (p.bucket k.key).storedWrites_le_size
  rw [hempty k.key] at hle
  rw [hr, hw k.key]
  omega

theorem sum_insert_bucket (p : JetpackCommandPool) (key : Key) (b : RevoveryCandidates)
    {f : RevoveryCandidates → Nat} (hf : f {} = 0) :
    ((p.candidates.insert key b).entries.map fun e => f e.2).sum + f (p.bucket key) =
      (p.candidates.entries.map fun e => f e.2).sum + f b := by
  rw [AList.entries_insert, List.map_cons, List.sum_cons]
  cases hlookup : p.candidates.lookup key with
  | none =>
    have hnot : key ∉ p.candidates.entries.keys := List.dlookup_eq_none.mp hlookup
    rw [List.kerase_of_notMem_keys hnot]
    simp only [bucket, hlookup, Option.getD_none, hf]
    omega
  | some old =>
    have hsum := sum_map_kerase hlookup f
    simp only [bucket, hlookup, Option.getD_some]
    omega

theorem storedCmds_insert {p p' : JetpackCommandPool} {key : Key} {b : RevoveryCandidates}
    (h : p'.candidates = p.candidates.insert key b) :
    p'.storedCmds + (p.bucket key).size = p.storedCmds + b.size := by
  have hsum := p.sum_insert_bucket key b (f := RevoveryCandidates.size) rfl
  unfold storedCmds
  rw [h]
  exact hsum

theorem usedKeys_insert {p p' : JetpackCommandPool} {key : Key} {b : RevoveryCandidates}
    (h : p'.candidates = p.candidates.insert key b) :
    p'.usedKeys + ((p.bucket key).size != 0).toNat = p.usedKeys + (b.size != 0).toNat := by
  have hsum := p.sum_insert_bucket key b (f := fun b => (b.size != 0).toNat) rfl
  unfold usedKeys
  rw [h]
  exact hsum

theorem Bookkept.pushBack {p p' : JetpackCommandPool} {cmd : Marshallable} {r : Bool} {k : PoolKeys}
    (hp : p.Bookkept) (h : p.pushBack .ready cmd = .ok (r, p'))
    (hk : extractPoolKeys cmd = .ok (some k))
    (hnew : (p.bucket k.key).candidates.lookup k.cmdId = none) : p'.Bookkept := by
  obtain ⟨k', b, hk', hb, hcand, hcount, hsize, -⟩ := pushBack_counts h
  obtain rfl : k' = k := by
    rw [hk] at hk'
    cases hk'
    rfl
  have hbsize := RevoveryCandidates.size_pushBack_fresh hb hnew
  have hbwrites := RevoveryCandidates.storedWrites_pushBack_fresh hb hnew
  have htotal := (RevoveryCandidates.pushBack_eq hb).2
  have hwrites := hp.writes k'.key
  refine bookkept_of_counts (fun key => ?_) ?_ ?_
  · rw [bucket_eq_of_insert hcand]
    split_ifs
    · rw [htotal, hwrites, hbwrites]
      cases k'.isWrite <;> simp
    · exact hp.writes key
  · have hsum := storedCmds_insert hcand
    have hold := hp.commands
    omega
  · -- a bucket that counts a write stores one, so it is not a new key
    have hsum := usedKeys_insert hcand
    have hold := hp.keys
    have hle := (p.bucket k'.key).storedWrites_le_size
    have hused : (b.size != 0) = true := by
      rw [hbsize]
      rfl
    rw [hused] at hsum
    by_cases hempty : (p.bucket k'.key).size = 0
    · have hzero : (p.bucket k'.key).totalWrite = 0 := by omega
      rw [if_pos ⟨hzero, hempty⟩] at hsize
      rw [hempty] at hsum
      simp only [bne_self_eq_false, Bool.toNat_false, Bool.toNat_true] at hsum
      omega
    · have hstored : ((p.bucket k'.key).size != 0) = true := by simpa using hempty
      rw [if_neg (fun h => hempty h.2)] at hsize
      rw [hstored] at hsum
      omega

theorem removeCmd_counts {p p' : JetpackCommandPool} {cmd : Marshallable} {r : Bool}
    (h : p.removeCmd cmd = .ok (r, p')) :
    ∃ (k : PoolKeys) (b : RevoveryCandidates), (p.bucket k.key).remove k.cmdId = (r, b) ∧
      p'.candidates = p.candidates.insert k.key b ∧ p'.poolCmdCount = p.poolCmdCount - r.toInt ∧
      p'.poolSize = p.poolSize - (r && (p.bucket k.key).size == 1).toInt := by
  obtain ⟨k, -, h⟩ := Except.bind_eq_ok h
  cases h
  exact ⟨k, _, rfl, rfl, rfl, rfl⟩

theorem Bookkept.removeCmd {p p' : JetpackCommandPool} {cmd : Marshallable} {r : Bool}
    (hp : p.Bookkept) (h : p.removeCmd cmd = .ok (r, p')) : p'.Bookkept := by
  obtain ⟨k, b, hb, hcand, hcount, hpool⟩ := removeCmd_counts h
  obtain ⟨hsize, w, -, hstored, htotal⟩ := (p.bucket k.key).remove_counts k.cmdId
  rw [hb] at hsize hstored htotal
  dsimp only at hsize hstored htotal
  have hwrites := hp.writes k.key
  refine bookkept_of_counts (fun key => ?_) ?_ ?_
  · rw [bucket_eq_of_insert hcand]
    split_ifs
    · cases w <;> simp at hstored htotal ⊢ <;> omega
    · exact hp.writes key
  · have hsum := storedCmds_insert hcand
    have hold := hp.commands
    cases r <;> simp at hsize hcount <;> omega
  · have hsum := usedKeys_insert hcand
    have hold := hp.keys
    cases r with
    | false =>
      have heq : b.size = (p.bucket k.key).size := by simpa using hsize
      rw [heq] at hsum
      simp only [Bool.false_and, Bool.toInt_false] at hpool
      omega
    | true =>
      have hused : ((p.bucket k.key).size != 0) = true := by simp; simp at hsize; omega
      rw [hused] at hsum
      by_cases hlast : b.size = 0
      · have hone : (p.bucket k.key).size = 1 := by simp at hsize; omega
        rw [hone] at hpool
        rw [hlast] at hsum
        simp at hpool hsum
        omega
      · have hleft : (b.size != 0) = true := by simpa using hlast
        have hmore : ((p.bucket k.key).size == 1) = false := by simp; simp at hsize; omega
        rw [hmore] at hpool
        rw [hleft] at hsum
        simp at hpool
        omega

theorem Bookkept.remove {p p' : JetpackCommandPool} {cmd : Marshallable} {n : Int}
    (hp : p.Bookkept) (h : p.remove cmd = .ok (n, p')) : p'.Bookkept :=
  remove_induct (fun _ _ _ _ _ hq hm => hq.removeCmd hm) hp h

theorem bookkept_empty : Bookkept {} :=
  bookkept_of_counts (fun _ => rfl) rfl rfl

/-- A pushed id that its bucket already stores is counted twice and stored once. -/
theorem not_bookkept_of_overwrite {p p' : JetpackCommandPool} {cmd : Marshallable} {r : Bool}
    {k : PoolKeys} (hp : p.Bookkept) (h : p.pushBack .ready cmd = .ok (r, p'))
    (hk : extractPoolKeys cmd = .ok (some k))
    (hold : (p.bucket k.key).candidates.lookup k.cmdId ≠ none) : ¬ p'.Bookkept := by
  intro hp'
  obtain ⟨k', b, hk', hb, hcand, hcount, -⟩ := pushBack_counts h
  obtain rfl : k' = k := by
    rw [hk] at hk'
    cases hk'
    rfl
  obtain ⟨e, he⟩ := Option.ne_none_iff_exists'.mp hold
  have hsame := RevoveryCandidates.size_pushBack_stored hb he
  have hsum := storedCmds_insert hcand
  have hbefore := hp.commands
  have hafter := hp'.commands
  omega

end JetpackCommandPool

namespace PoolOp

def overwrites (p : JetpackCommandPool) : PoolOp → Bool
  | .pushBack cmd =>
    match extractPoolKeys cmd with
    | .ok (some k) => ((p.bucket k.key).candidates.lookup k.cmdId).isSome
    | _ => false
  | .remove _ => false
  | .reset => false

def neverOverwrites (p : JetpackCommandPool) (ops : List PoolOp) : Bool :=
  Calls.everyCall apply (fun q op => !op.overwrites q) p ops

theorem run_eq (p : JetpackCommandPool) (ops : List PoolOp) : run p ops = Calls.run apply p ops := by
  induction ops generalizing p with
  | nil => rfl
  | cons op ops ih =>
    simp only [run, Calls.run]
    cases op.apply p with
    | error e => rfl
    | ok p' => exact ih p'

theorem bookkept_apply {op : PoolOp} {p p' : JetpackCommandPool} (hp : p.Bookkept)
    (h : op.apply p = .ok p') : p'.Bookkept ↔ op.overwrites p = false := by
  obtain ⟨cmd, r, rfl, hpush⟩ | ⟨cmd, n, rfl, hremove⟩ | ⟨rfl, rfl⟩ := apply_ok h
  · obtain ⟨k, -, hk, -⟩ := JetpackCommandPool.pushBack_counts hpush
    simp only [overwrites, hk]
    cases hstored : (p.bucket k.key).candidates.lookup k.cmdId with
    | none => exact ⟨fun _ => rfl, fun _ => hp.pushBack hpush hk hstored⟩
    | some e =>
      have hnot := JetpackCommandPool.not_bookkept_of_overwrite hp hpush hk (by simp [hstored])
      exact ⟨fun hp' => absurd hp' hnot, fun hfalse => by simp at hfalse⟩
  · exact ⟨fun _ => rfl, fun _ => hp.remove hremove⟩
  · exact ⟨fun _ => rfl, fun _ => JetpackCommandPool.bookkept_empty⟩

/-- Over every sequence of calls the counters stay the numbers of what is stored, and an emptied
pool admits every command, if and only if no push overwrites a stored entry. -/
theorem counters_exact (ops : List PoolOp) :
    (∀ before, before <+: ops → ∀ p, run {} before = .ok p → p.Bookkept) ↔
      neverOverwrites {} ops = true := by
  simp only [run_eq]
  refine Calls.forall_prefix_iff (fun _ hp => hp) (fun p op p' hp h => ?_)
    JetpackCommandPool.bookkept_empty ops
  rw [bookkept_apply hp h, Bool.not_eq_true']
  exact ⟨id, id⟩

/-- A write pushed twice and removed leaves no entry in the pool, and its key refuses every later
command. -/
theorem emptied_pool_refuses :
    ∃ p p' : JetpackCommandPool,
      run {} [.pushBack (writeOfKey7 1), .pushBack (writeOfKey7 1), .remove (writeOfKey7 1)] = .ok p ∧
      p.storedCmds = 0 ∧ p.poolCmdCount = 1 ∧ (p.bucket 7).totalWrite = 1 ∧
      p.pushBack .ready (writeOfKey7 2) = .ok (false, p') ∧ ¬ p.Bookkept := by
  refine ⟨_, _, rfl, rfl, rfl, rfl, rfl, fun h => ?_⟩
  exact absurd h.commands (by decide)

end PoolOp

end Jetpack
