import Jetpack.Candidates

/-! The witness pool of a replica: one bucket of recovery candidates for each key. An acknowledged
write stays the one to recover until it is removed. -/

namespace Jetpack

inductive JetpackStatus
  | ready
  | recovery
  deriving Repr, DecidableEq

/-- The pool with the recovery fields kept beside it. `poolSize` counts keys and `poolCmdCount`
commands, as the source maintains them. -/
structure JetpackCommandPool where
  candidates : AList (fun _ : Key => RevoveryCandidates) := ∅
  poolSize : Int := 0
  poolCmdCount : Int := 0
  maxSeenBallot : Int := -1
  maxAcceptedBallot : Int := -1
  sid : Int := -1
  committed : Bool := false

namespace JetpackCommandPool

/-- `candidates_[key]`, which is a new bucket for a key not seen before. -/
def bucket (p : JetpackCommandPool) (key : Key) : RevoveryCandidates :=
  (p.candidates.lookup key).getD {}

/-- Every member's keys are read through this; an unreadable command fails `verify(0)`. -/
def keysOf (cmd : Marshallable) : Except Fault PoolKeys := do
  match ← extractPoolKeys cmd with
  | none => throw .verify
  | some k => return k

/-- A command is admitted, and `true` returned, when its bucket counts no write. It is stored
either way. An admitted command is also parsed in full for the copy on disk. -/
def pushBack (status : JetpackStatus) (p : JetpackCommandPool) (cmd : Marshallable) :
    Except Fault (Bool × JetpackCommandPool) :=
  if status = .recovery then .ok (false, p)
  else do
    let k ← keysOf cmd
    let bucket := p.bucket k.key
    let bucket' ← bucket.pushBack k.cmdId cmd k.isWrite
    let p' := { p with
      candidates := p.candidates.insert k.key bucket'
      poolCmdCount := p.poolCmdCount + 1 }
    if bucket.totalWrite = 0 then
      let _ ← SimpleRWCommand.parse cmd
      return (true, { p' with poolSize := p.poolSize + (bucket.size == 0).toInt })
    else
      return (false, p')

def removeCmd (p : JetpackCommandPool) (cmd : Marshallable) :
    Except Fault (Bool × JetpackCommandPool) := do
  let k ← keysOf cmd
  let bucket := p.bucket k.key
  let (removed, bucket') := bucket.remove k.cmdId
  return (removed, { p with
    candidates := p.candidates.insert k.key bucket'
    poolCmdCount := p.poolCmdCount - removed.toInt
    poolSize := p.poolSize - (removed && bucket.size == 1).toInt })

def removeBatch (p : JetpackCommandPool) : List TpcCommitCommand →
    Except Fault (Int × JetpackCommandPool)
  | [] => .ok (0, p)
  | c :: cs => do
    let (removed, p') ← p.removeCmd (.tpcCommit c)
    let (total, p'') ← removeBatch p' cs
    return (removed.toInt + total, p'')

/-- Returns how many commands were removed. -/
def remove (p : JetpackCommandPool) : Marshallable → Except Fault (Int × JetpackCommandPool)
  | .tpcBatch cmds => p.removeBatch cmds
  | cmd => do
    let (removed, p') ← p.removeCmd cmd
    return (removed.toInt, p')

def hasCmdToRecover (p : JetpackCommandPool) (key : Key) : Bool :=
  (p.bucket key).hasCmdToRecover

def cmdToRecover (p : JetpackCommandPool) (key : Key) : Option Marshallable :=
  (p.bucket key).cmdToRecover

/-- The keys with a command to recover. -/
def idSet (p : JetpackCommandPool) : List Key :=
  (p.candidates.entries.filter fun e => e.2.hasCmdToRecover).map Sigma.fst

def reset (_ : JetpackCommandPool) : JetpackCommandPool := {}

end JetpackCommandPool

inductive PoolOp
  | pushBack (cmd : Marshallable)
  | remove (cmd : Marshallable)
  | reset
  deriving Repr, DecidableEq

namespace PoolOp

def apply (p : JetpackCommandPool) : PoolOp → Except Fault JetpackCommandPool
  | .pushBack cmd => Prod.snd <$> p.pushBack .ready cmd
  | .remove cmd => Prod.snd <$> p.remove cmd
  | .reset => .ok p.reset

def run (p : JetpackCommandPool) : List PoolOp → Except Fault JetpackCommandPool
  | [] => .ok p
  | op :: ops => do
    let p' ← op.apply p
    run p' ops

def members : Marshallable → List Marshallable
  | .tpcBatch cmds => cmds.map .tpcCommit
  | cmd => [cmd]

/-- The call takes the command with these keys out of the pool. -/
def Discards (k : PoolKeys) : PoolOp → Prop
  | .pushBack _ => False
  | .remove cmd => ∃ m ∈ members cmd, ∃ k', extractPoolKeys m = .ok (some k') ∧
      k'.key = k.key ∧ k'.cmdId = k.cmdId
  | .reset => True

/-- Two pushed commands with one id are one command. -/
def IdsDetermineCommands (ops : List PoolOp) : Prop :=
  ∀ c c' k k', PoolOp.pushBack c ∈ ops → PoolOp.pushBack c' ∈ ops →
    extractPoolKeys c = .ok (some k) → extractPoolKeys c' = .ok (some k') →
    k.cmdId = k'.cmdId → c = c'

end PoolOp

namespace JetpackCommandPool

theorem keysOf_ok {cmd : Marshallable} {k : PoolKeys} (h : keysOf cmd = .ok k) :
    extractPoolKeys cmd = .ok (some k) := by
  obtain ⟨o, ho, h⟩ := Except.bind_eq_ok h
  cases o with
  | none => cases h
  | some k' =>
    cases h
    exact ho

theorem keysOf_ne_recoverIdTaken (cmd : Marshallable) : keysOf cmd ≠ .error .recoverIdTaken := by
  refine Except.bind_ne_error (extractPoolKeys_ne_recoverIdTaken cmd) (fun o _ h => ?_)
  cases o <;> cases h

theorem bucket_eq_of_insert {p p' : JetpackCommandPool} {key : Key} {b : RevoveryCandidates}
    (h : p'.candidates = p.candidates.insert key b) (key' : Key) :
    p'.bucket key' = if key' = key then b else p.bucket key' := by
  unfold bucket
  rw [h]
  by_cases hkey : key' = key
  · subst hkey
    simp
  · simp [hkey, AList.lookup_insert_ne hkey]

/-- The counters and the buckets after a call of `push_back` in status `READY`. -/
theorem pushBack_counts {p p' : JetpackCommandPool} {cmd : Marshallable} {r : Bool}
    (h : p.pushBack .ready cmd = .ok (r, p')) :
    ∃ k b, extractPoolKeys cmd = .ok (some k) ∧
      (p.bucket k.key).pushBack k.cmdId cmd k.isWrite = .ok b ∧
      p'.candidates = p.candidates.insert k.key b ∧ p'.poolCmdCount = p.poolCmdCount + 1 ∧
      p'.poolSize = p.poolSize +
        (if (p.bucket k.key).totalWrite = 0 ∧ (p.bucket k.key).size = 0 then 1 else 0) ∧
      (r = true ↔ (p.bucket k.key).totalWrite = 0) := by
  unfold pushBack at h
  rw [if_neg (by decide)] at h
  obtain ⟨k, hk, h⟩ := Except.bind_eq_ok h
  obtain ⟨b, hb, h⟩ := Except.bind_eq_ok h
  refine ⟨k, b, keysOf_ok hk, hb, ?_⟩
  dsimp only at h
  split at h
  · next hzero =>
    obtain ⟨-, -, h⟩ := Except.bind_eq_ok h
    cases h
    refine ⟨rfl, rfl, ?_, by simp [hzero]⟩
    by_cases hsize : (p.bucket k.key).size = 0
    · simp [hzero, hsize]
    · have hne : ((p.bucket k.key).size == 0) = false := by simpa using hsize
      simp [hsize, hne]
  · next hzero =>
    cases h
    exact ⟨rfl, rfl, by simp [hzero], by simp [hzero]⟩

theorem pushBack_ok {p p' : JetpackCommandPool} {cmd : Marshallable} {r : Bool}
    (h : p.pushBack .ready cmd = .ok (r, p')) :
    ∃ k b, extractPoolKeys cmd = .ok (some k) ∧
      (p.bucket k.key).pushBack k.cmdId cmd k.isWrite = .ok b ∧
      (∀ key, p'.bucket key = if key = k.key then b else p.bucket key) ∧
      (r = true ↔ (p.bucket k.key).totalWrite = 0) := by
  obtain ⟨k, b, hk, hb, hcandidates, -, -, hadmitted⟩ := pushBack_counts h
  exact ⟨k, b, hk, hb, bucket_eq_of_insert hcandidates, hadmitted⟩

theorem removeCmd_ok {p p' : JetpackCommandPool} {cmd : Marshallable} {r : Bool}
    (h : p.removeCmd cmd = .ok (r, p')) :
    ∃ k, extractPoolKeys cmd = .ok (some k) ∧
      ∀ key, p'.bucket key
        = if key = k.key then ((p.bucket k.key).remove k.cmdId).2 else p.bucket key := by
  obtain ⟨k, hk, h⟩ := Except.bind_eq_ok h
  cases h
  exact ⟨k, keysOf_ok hk, bucket_eq_of_insert rfl⟩

theorem remove_induct {P : JetpackCommandPool → Prop} {cmd : Marshallable}
    (hstep : ∀ m ∈ PoolOp.members cmd, ∀ p p' r, P p → p.removeCmd m = .ok (r, p') → P p')
    {p p' : JetpackCommandPool} {n : Int} (hp : P p) (h : p.remove cmd = .ok (n, p')) : P p' := by
  unfold remove at h
  split at h
  · next cmds =>
    simp only [PoolOp.members, List.mem_map, forall_exists_index, and_imp,
      forall_apply_eq_imp_iff₂] at hstep
    induction cmds generalizing p n with
    | nil =>
      cases h
      exact hp
    | cons c cs ih =>
      obtain ⟨⟨r, q⟩, hc, h⟩ := Except.bind_eq_ok h
      obtain ⟨⟨total, q'⟩, hcs, h⟩ := Except.bind_eq_ok h
      cases h
      exact ih (hstep c List.mem_cons_self p q r hp hc) hcs
        (fun d hd => hstep d (List.mem_cons_of_mem c hd))
  · next hbatch =>
    obtain ⟨⟨r, q⟩, hc, h⟩ := Except.bind_eq_ok h
    cases h
    refine hstep cmd ?_ p _ r hp hc
    unfold PoolOp.members
    split
    · next cmds => exact absurd rfl (hbatch cmds)
    · exact List.mem_singleton.mpr rfl

def WellFormed (p : JetpackCommandPool) : Prop := ∀ key, (p.bucket key).WellFormed

/-- The replica would report `cmd` for its key to a recovery. -/
def Holds (p : JetpackCommandPool) (k : PoolKeys) (cmd : Marshallable) : Prop :=
  (p.bucket k.key).Holds k.cmdId cmd

theorem wellFormed_empty : WellFormed {} := fun _ => RevoveryCandidates.wellFormed_empty

theorem WellFormed.pushBack {p p' : JetpackCommandPool} {cmd : Marshallable} {r : Bool}
    (hp : p.WellFormed) (h : p.pushBack .ready cmd = .ok (r, p')) : p'.WellFormed := by
  obtain ⟨k, b, -, hb, hbucket, -⟩ := pushBack_ok h
  intro key
  rw [hbucket key]
  split
  · exact (hp k.key).pushBack hb
  · exact hp key

theorem WellFormed.removeCmd {p p' : JetpackCommandPool} {cmd : Marshallable} {r : Bool}
    (hp : p.WellFormed) (h : p.removeCmd cmd = .ok (r, p')) : p'.WellFormed := by
  obtain ⟨k, -, hbucket⟩ := removeCmd_ok h
  intro key
  rw [hbucket key]
  split
  · exact (hp k.key).remove k.cmdId
  · exact hp key

theorem WellFormed.remove {p p' : JetpackCommandPool} {cmd : Marshallable} {n : Int}
    (hp : p.WellFormed) (h : p.remove cmd = .ok (n, p')) : p'.WellFormed :=
  remove_induct (fun _ _ _ _ _ hq hm => hq.removeCmd hm) hp h

theorem holds_of_pushBack {p p' : JetpackCommandPool} {cmd : Marshallable} {k : PoolKeys}
    (hk : extractPoolKeys cmd = .ok (some k)) (hw : k.isWrite = true)
    (h : p.pushBack .ready cmd = .ok (true, p')) : p'.Holds k cmd := by
  obtain ⟨k', b, hk', hb, hbucket, hadmitted⟩ := pushBack_ok h
  obtain rfl : k' = k := by
    rw [hk] at hk'
    injection hk' with hk'
    injection hk' with hk'
    exact hk'.symm
  rw [hw] at hb
  unfold Holds
  rw [hbucket, if_pos rfl]
  exact RevoveryCandidates.holds_of_pushBack (hadmitted.mp rfl) (extractPoolKeys_cmdId_ne hk) hb

theorem Holds.pushBack {p p' : JetpackCommandPool} {cmd cmd' : Marshallable} {k : PoolKeys}
    {r : Bool} (hp : p.WellFormed) (hc : p.Holds k cmd)
    (hsame : ∀ k', extractPoolKeys cmd' = .ok (some k') → k'.key = k.key → k'.cmdId = k.cmdId →
      cmd' = cmd ∧ k'.isWrite = true)
    (h : p.pushBack .ready cmd' = .ok (r, p')) : p'.Holds k cmd := by
  obtain ⟨k', b, hk', hb, hbucket, -⟩ := pushBack_ok h
  unfold Holds
  rw [hbucket]
  split
  · next hkey =>
    rw [← hkey] at hb
    exact RevoveryCandidates.Holds.pushBack (hp k.key) hc (hsame k' hk' hkey.symm) hb
  · exact hc

theorem Holds.removeCmd {p p' : JetpackCommandPool} {cmd cmd' : Marshallable} {k : PoolKeys}
    {r : Bool} (hp : p.WellFormed) (hc : p.Holds k cmd)
    (hother : ∀ k', extractPoolKeys cmd' = .ok (some k') → k'.key = k.key → k'.cmdId ≠ k.cmdId)
    (h : p.removeCmd cmd' = .ok (r, p')) : p'.Holds k cmd := by
  obtain ⟨k', hk', hbucket⟩ := removeCmd_ok h
  unfold Holds
  rw [hbucket]
  split
  · next hkey =>
    rw [← hkey]
    exact RevoveryCandidates.Holds.remove (hp k.key) hc (hother k' hk' hkey.symm)
  · exact hc

theorem Holds.remove {p p' : JetpackCommandPool} {cmd cmd' : Marshallable} {k : PoolKeys}
    {n : Int} (hp : p.WellFormed) (hc : p.Holds k cmd)
    (hother : ∀ m ∈ PoolOp.members cmd', ∀ k', extractPoolKeys m = .ok (some k') →
      k'.key = k.key → k'.cmdId ≠ k.cmdId)
    (h : p.remove cmd' = .ok (n, p')) : p'.Holds k cmd := by
  have hboth : p'.WellFormed ∧ p'.Holds k cmd :=
    remove_induct (P := fun q => q.WellFormed ∧ q.Holds k cmd)
      (fun m hm _ _ _ hq hr => ⟨hq.1.removeCmd hr, hq.2.removeCmd hq.1 (hother m hm) hr⟩) ⟨hp, hc⟩ h
  exact hboth.2

theorem pushBack_ne_recoverIdTaken {p : JetpackCommandPool} (hp : p.WellFormed)
    (cmd : Marshallable) : p.pushBack .ready cmd ≠ .error .recoverIdTaken := by
  unfold pushBack
  rw [if_neg (by decide)]
  refine Except.bind_ne_error (keysOf_ne_recoverIdTaken cmd) (fun k _ => ?_)
  refine Except.bind_ne_error
    ((hp k.key).pushBack_ne_recoverIdTaken k.cmdId cmd k.isWrite) (fun b _ => ?_)
  dsimp only
  split
  · exact Except.bind_ne_error (SimpleRWCommand.parse_ne_recoverIdTaken cmd) (fun _ _ h => by cases h)
  · exact fun h => by cases h

theorem removeCmd_ne_recoverIdTaken (p : JetpackCommandPool) (cmd : Marshallable) :
    p.removeCmd cmd ≠ .error .recoverIdTaken :=
  Except.bind_ne_error (keysOf_ne_recoverIdTaken cmd) (fun _ _ h => by cases h)

theorem removeBatch_ne_recoverIdTaken (p : JetpackCommandPool) (cmds : List TpcCommitCommand) :
    p.removeBatch cmds ≠ .error .recoverIdTaken := by
  induction cmds generalizing p with
  | nil => exact fun h => by cases h
  | cons c cs ih =>
    exact Except.bind_ne_error (p.removeCmd_ne_recoverIdTaken _)
      (fun _ _ => Except.bind_ne_error (ih _) (fun _ _ h => by cases h))

theorem remove_ne_recoverIdTaken (p : JetpackCommandPool) (cmd : Marshallable) :
    p.remove cmd ≠ .error .recoverIdTaken := by
  unfold remove
  split
  · exact p.removeBatch_ne_recoverIdTaken _
  · exact Except.bind_ne_error (p.removeCmd_ne_recoverIdTaken cmd) (fun _ _ h => by cases h)

end JetpackCommandPool

namespace PoolOp

theorem apply_ok {op : PoolOp} {p p' : JetpackCommandPool} (h : op.apply p = .ok p') :
    (∃ cmd r, op = .pushBack cmd ∧ p.pushBack .ready cmd = .ok (r, p')) ∨
      (∃ cmd n, op = .remove cmd ∧ p.remove cmd = .ok (n, p')) ∨ (op = .reset ∧ p' = {}) := by
  cases op with
  | pushBack cmd =>
    cases hc : p.pushBack .ready cmd with
    | error e => simp [apply, hc, Functor.map, Except.map] at h
    | ok rq =>
      obtain ⟨r, q⟩ := rq
      obtain rfl : q = p' := by simpa [apply, hc, Functor.map, Except.map] using h
      exact .inl ⟨cmd, r, rfl, hc⟩
  | remove cmd =>
    cases hc : p.remove cmd with
    | error e => simp [apply, hc, Functor.map, Except.map] at h
    | ok nq =>
      obtain ⟨n, q⟩ := nq
      obtain rfl : q = p' := by simpa [apply, hc, Functor.map, Except.map] using h
      exact .inr (.inl ⟨cmd, n, rfl, hc⟩)
  | reset =>
    cases h
    exact .inr (.inr ⟨rfl, rfl⟩)

theorem wellFormed_apply {op : PoolOp} {p p' : JetpackCommandPool} (hp : p.WellFormed)
    (h : op.apply p = .ok p') : p'.WellFormed := by
  obtain ⟨_, _, -, h⟩ | ⟨_, _, -, h⟩ | ⟨-, rfl⟩ := apply_ok h
  · exact hp.pushBack h
  · exact hp.remove h
  · exact JetpackCommandPool.wellFormed_empty

theorem wellFormed_run {ops : List PoolOp} {p q : JetpackCommandPool} (hp : p.WellFormed)
    (h : run p ops = .ok q) : q.WellFormed := by
  induction ops generalizing p with
  | nil =>
    cases h
    exact hp
  | cons op ops ih =>
    obtain ⟨p', hop, h⟩ := Except.bind_eq_ok h
    exact ih (wellFormed_apply hp hop) h

theorem apply_ne_recoverIdTaken {op : PoolOp} {p : JetpackCommandPool} (hp : p.WellFormed) :
    op.apply p ≠ .error .recoverIdTaken := by
  have hmap : ∀ {α : Type} (x : Except Fault (α × JetpackCommandPool)),
      x ≠ .error .recoverIdTaken → Prod.snd <$> x ≠ .error .recoverIdTaken := by
    intro α x hx
    cases x with
    | error e => simpa [Functor.map, Except.map] using hx
    | ok y => simp [Functor.map, Except.map]
  cases op with
  | pushBack cmd => exact hmap _ (JetpackCommandPool.pushBack_ne_recoverIdTaken hp cmd)
  | remove cmd => exact hmap _ (p.remove_ne_recoverIdTaken cmd)
  | reset => exact fun h => by cases h

theorem run_ne_recoverIdTaken {ops : List PoolOp} {p : JetpackCommandPool} (hp : p.WellFormed) :
    run p ops ≠ .error .recoverIdTaken := by
  induction ops generalizing p with
  | nil => exact fun h => by cases h
  | cons op ops ih =>
    exact Except.bind_ne_error (apply_ne_recoverIdTaken hp)
      (fun q hq => ih (wellFormed_apply hp hq))

/-- A held write stays held while pushes agree on its id and no call discards it. -/
theorem holds_run {ops : List PoolOp} {p q : JetpackCommandPool} {cmd : Marshallable}
    {k : PoolKeys} (hp : p.WellFormed) (hc : p.Holds k cmd)
    (hk : extractPoolKeys cmd = .ok (some k)) (hw : k.isWrite = true)
    (hsame : ∀ c k', PoolOp.pushBack c ∈ ops → extractPoolKeys c = .ok (some k') →
      k'.cmdId = k.cmdId → c = cmd)
    (hkeep : ∀ op ∈ ops, ¬ op.Discards k) (h : run p ops = .ok q) : q.Holds k cmd := by
  induction ops generalizing p with
  | nil =>
    cases h
    exact hc
  | cons op ops ih =>
    obtain ⟨p', hop, h⟩ := Except.bind_eq_ok h
    refine ih (wellFormed_apply hp hop) ?_ (fun c k' hmem => hsame c k' (List.mem_cons_of_mem _ hmem))
      (fun o ho => hkeep o (List.mem_cons_of_mem _ ho)) h
    have hkeepOp := hkeep op List.mem_cons_self
    obtain ⟨c, _, rfl, hpush⟩ | ⟨c, _, rfl, hremove⟩ | ⟨rfl, -⟩ := apply_ok hop
    · refine hc.pushBack hp (fun k' hk' _ hid => ?_) hpush
      obtain rfl := hsame c k' List.mem_cons_self hk' hid
      rw [hk] at hk'
      cases hk'
      exact ⟨rfl, hw⟩
    · exact hc.remove hp (fun m hm k' hk' hkey hid => hkeepOp ⟨m, hm, k', hk', hkey, hid⟩) hremove
    · exact absurd trivial hkeepOp

/-- Every write that `push_back` acknowledged and that was not discarded since is the command its
bucket recovers, and the check on a taken recovery id never fails. -/
theorem acknowledged_write_recoverable :
    (∀ ops, run {} ops ≠ .error .recoverIdTaken) ∧
    ∀ (before after : List PoolOp) (cmd : Marshallable) (k : PoolKeys)
      (p p' q : JetpackCommandPool),
      IdsDetermineCommands (before ++ .pushBack cmd :: after) →
      extractPoolKeys cmd = .ok (some k) → k.isWrite = true →
      run {} before = .ok p → p.pushBack .ready cmd = .ok (true, p') →
      run p' after = .ok q → (∀ op ∈ after, ¬ op.Discards k) →
      q.hasCmdToRecover k.key = true ∧ q.cmdToRecover k.key = some cmd := by
  refine ⟨fun ops => run_ne_recoverIdTaken JetpackCommandPool.wellFormed_empty, ?_⟩
  intro before after cmd k p p' q hids hk hw hbefore hpush hafter hkeep
  have hp : p.WellFormed := wellFormed_run JetpackCommandPool.wellFormed_empty hbefore
  have hc : p'.Holds k cmd := JetpackCommandPool.holds_of_pushBack hk hw hpush
  have hsame : ∀ c k', PoolOp.pushBack c ∈ after → extractPoolKeys c = .ok (some k') →
      k'.cmdId = k.cmdId → c = cmd := by
    intro c k' hmem hk' hid
    exact hids c cmd k' k (by simp [hmem]) (by simp) hk' hk hid
  have hq : q.Holds k cmd := holds_run (hp.pushBack hpush) hc hk hw hsame hkeep hafter
  exact ⟨hq.hasCmdToRecover, hq.cmdToRecover⟩

def writeOfKey7 (cmdIdInClient : BitVec 32) : Marshallable :=
  .container { type := rwBenchmarkWTxn, clientId := 1, cmdIdInClient,
               input := [(0, .i32 7), (1, .i32 0)] }

theorem acknowledged_write_recoverable_after_conflict :
    ∃ p' q : JetpackCommandPool,
      JetpackCommandPool.pushBack .ready {} (writeOfKey7 1) = .ok (true, p') ∧
      run p' [.pushBack (writeOfKey7 2), .remove (writeOfKey7 2)] = .ok q ∧
      q.hasCmdToRecover 7 = true ∧ q.cmdToRecover 7 = some (writeOfKey7 1) := by
  refine ⟨_, _, rfl, rfl, acknowledged_write_recoverable.2 []
    [.pushBack (writeOfKey7 2), .remove (writeOfKey7 2)] (writeOfKey7 1)
    ⟨7, combineInt32 1 1, true⟩ {} _ _ ?_ rfl rfl rfl rfl rfl ?_⟩
  · intro c c' k k' hc hc' hk hk' hid
    simp only [List.nil_append, List.mem_cons, PoolOp.pushBack.injEq, reduceCtorEq,
      List.not_mem_nil, or_false] at hc hc'
    rcases hc with rfl | rfl <;> rcases hc' with rfl | rfl <;> cases hk <;> cases hk'
    · rfl
    · exact absurd hid (by decide)
    · exact absurd hid (by decide)
    · rfl
  · intro op hop
    simp only [List.mem_cons, List.not_mem_nil, or_false] at hop
    rcases hop with rfl | rfl
    · exact id
    · rintro ⟨m, hm, k', hk', -, hid⟩
      obtain rfl := List.mem_singleton.mp hm
      cases hk'
      exact absurd hid (by decide)

end PoolOp

end Jetpack
