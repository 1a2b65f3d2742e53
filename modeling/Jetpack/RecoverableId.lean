import Jetpack.PoolCounts
import Jetpack.RecoveryQuorum

/-! The id a bucket keeps for a recovery. It is set when the first write is counted and cleared when
the count returns to zero, so it is the id of a stored write exactly as long as the write it names
is neither removed before the others nor overwritten by a read. -/

namespace Jetpack

inductive BucketOp
  | pushBack (cmdId : CmdId) (cmd : Marshallable) (isWrite : Bool)
  | remove (cmdId : CmdId)
  deriving Repr, DecidableEq

namespace BucketOp

def apply (b : RevoveryCandidates) : BucketOp → Except Fault RevoveryCandidates
  | .pushBack cmdId cmd isWrite => b.pushBack cmdId cmd isWrite
  | .remove cmdId => .ok (b.remove cmdId).2

/-- The call leaves the id to recover on a stored write. -/
def keepsRecoverable (b : RevoveryCandidates) : BucketOp → Bool
  | .pushBack cmdId _ true => !(b.totalWrite == 0 && cmdId == noCmdId)
  | .pushBack cmdId _ false => !(b.hasCmdToRecover && cmdId == b.toRecoverId)
  | .remove cmdId => !(b.hasCmdToRecover && cmdId == b.toRecoverId && b.totalWrite != 1)

end BucketOp

namespace RevoveryCandidates

variable {b b' : RevoveryCandidates}

/-- A command to recover exists when a write is stored, and it is then a stored write. -/
structure Live (b : RevoveryCandidates) : Prop where
  has_iff : b.hasCmdToRecover = true ↔ 0 < b.storedWrites
  stored : b.hasCmdToRecover = true → ∃ cmd, b.candidates.lookup b.toRecoverId = some ⟨cmd, true⟩ ∧
    b.cmdToRecover = some cmd

/-- The invariant: while no id is kept for a recovery no write is counted, and otherwise the write
with that id is stored. -/
structure Tracked (b : RevoveryCandidates) : Prop extends WellFormed b where
  idle : b.toRecoverId = noCmdId → b.totalWrite = 0
  held : b.toRecoverId ≠ noCmdId → ∃ cmd, b.Holds b.toRecoverId cmd

theorem hasCmdToRecover_iff (b : RevoveryCandidates) :
    b.hasCmdToRecover = true ↔ b.toRecoverId ≠ noCmdId := by
  simp [hasCmdToRecover]

theorem Tracked.live (h : b.Tracked) : b.Live := by
  have hle := h.writes_le
  refine ⟨⟨fun hhas => ?_, fun hpos => ?_⟩, fun hhas => ?_⟩
  · obtain ⟨cmd, hcmd⟩ := h.held (b.hasCmdToRecover_iff.mp hhas)
    have hone := one_le_storedWrites hcmd.stored
    omega
  · rw [hasCmdToRecover_iff]
    intro hnone
    have hzero := h.idle hnone
    omega
  · obtain ⟨cmd, hcmd⟩ := h.held (b.hasCmdToRecover_iff.mp hhas)
    exact ⟨cmd, hcmd.stored, hcmd.cmdToRecover⟩

theorem tracked_empty : Tracked {} :=
  ⟨wellFormed_empty, fun _ => rfl, fun h => absurd rfl h⟩

theorem Tracked.totalWrite_ne_zero (h : b.Tracked) (hid : b.toRecoverId ≠ noCmdId) :
    b.totalWrite ≠ 0 := fun hzero => hid (h.recover_none hzero)

theorem pushBack_toRecoverId {id : CmdId} {cmd : Marshallable} {w : Bool}
    (h : b.pushBack id cmd w = .ok b') :
    b'.toRecoverId = if b.totalWrite = 0 ∧ w = true then id else b.toRecoverId := by
  unfold pushBack at h
  split at h
  · cases h
  · cases h
    rfl

/-- With the id of another command, or of a write, the command to recover stays stored. -/
theorem Tracked.pushBack_kept {id : CmdId} {cmd : Marshallable} {w : Bool} (hb : b.Tracked)
    (hid : b.toRecoverId ≠ noCmdId) (hkeep : id = b.toRecoverId → w = true)
    (h : b.pushBack id cmd w = .ok b') : b'.Tracked := by
  have hpos := hb.totalWrite_ne_zero hid
  have hsame : b'.toRecoverId = b.toRecoverId := by
    rw [pushBack_toRecoverId h, if_neg (fun hz => hpos hz.1)]
  refine ⟨hb.toWellFormed.pushBack h, fun hnone => absurd (hsame ▸ hnone) hid, fun _ => ?_⟩
  rw [hsame]
  obtain ⟨cmd', hcmd'⟩ := hb.held hid
  by_cases hown : id = b.toRecoverId
  · have hw := hkeep hown
    subst hown hw
    refine ⟨cmd, ?_, hsame, hid⟩
    rw [(pushBack_eq h).1]
    exact AList.lookup_insert _
  · exact ⟨cmd', hcmd'.pushBack hb.toWellFormed (fun heq => absurd heq hown) h⟩

theorem Tracked.pushBack_read_idle {id : CmdId} {cmd : Marshallable} (hb : b.Tracked)
    (hid : b.toRecoverId = noCmdId) (h : b.pushBack id cmd false = .ok b') : b'.Tracked := by
  have hsame : b'.toRecoverId = noCmdId := by
    rw [pushBack_toRecoverId h, if_neg (by simp), hid]
  have htotal : b'.totalWrite = b.totalWrite := by
    simpa using (pushBack_eq h).2
  refine ⟨hb.toWellFormed.pushBack h, fun _ => ?_, fun hne => absurd hsame hne⟩
  rw [htotal]
  exact hb.idle hid

theorem Tracked.pushBack_first_write {id : CmdId} {cmd : Marshallable} (hb : b.Tracked)
    (hzero : b.totalWrite = 0) (hid : id ≠ noCmdId) (h : b.pushBack id cmd true = .ok b') :
    b'.Tracked := by
  have hholds := holds_of_pushBack hzero hid h
  refine ⟨hb.toWellFormed.pushBack h, fun hnone => ?_, fun _ => ?_⟩
  · rw [hholds.recovers] at hnone
    exact absurd hnone hid
  · rw [hholds.recovers]
    exact ⟨cmd, hholds⟩

theorem Tracked.remove_idle (hb : b.Tracked) (hnone : b.toRecoverId = noCmdId) (id : CmdId) :
    (b.remove id).2.Tracked := by
  have hwf := hb.toWellFormed.remove id
  have hstays : (b.remove id).2.toRecoverId = noCmdId := by
    unfold remove
    split
    · exact hnone
    · next e he =>
      change (if b.totalWrite = 1 ∧ e.isWrite = true then noCmdId else b.toRecoverId) = noCmdId
      rw [hnone, ite_self]
  refine ⟨hwf, fun _ => ?_, fun hne => absurd hstays hne⟩
  -- no write is counted, so what goes is a read
  have hzero := hb.idle hnone
  have hle := hb.writes_le
  obtain ⟨-, w, -, hstored, htotal⟩ := b.remove_counts id
  cases w <;> simp at hstored htotal <;> omega

theorem Tracked.remove_other {id : CmdId} (hb : b.Tracked) (hid : b.toRecoverId ≠ noCmdId)
    (hother : id ≠ b.toRecoverId) : (b.remove id).2.Tracked := by
  obtain ⟨cmd, hcmd⟩ := hb.held hid
  have hleft := hcmd.remove hb.toWellFormed hother
  refine ⟨hb.toWellFormed.remove id, fun hnone => ?_, fun _ => ⟨cmd, ?_⟩⟩
  · rw [hleft.recovers] at hnone
    exact absurd hnone hid
  · rw [hleft.recovers]
    exact hleft

theorem remove_toRecoverId (hb : b.Tracked) (hid : b.toRecoverId ≠ noCmdId) :
    (b.remove b.toRecoverId).2 =
      { b with
        candidates := b.candidates.erase b.toRecoverId
        totalWrite := b.totalWrite - 1
        toRecoverId := if b.totalWrite = 1 then noCmdId else b.toRecoverId } := by
  obtain ⟨cmd, hcmd⟩ := hb.held hid
  unfold remove
  rw [hcmd.stored]
  simp

theorem Tracked.remove_last (hb : b.Tracked) (hid : b.toRecoverId ≠ noCmdId)
    (hone : b.totalWrite = 1) : (b.remove b.toRecoverId).2.Tracked := by
  have hwf := hb.toWellFormed.remove b.toRecoverId
  rw [remove_toRecoverId hb hid] at hwf ⊢
  refine ⟨hwf, fun _ => ?_, fun hne => ?_⟩
  · change b.totalWrite - 1 = 0
    omega
  · exact absurd (if_pos hone) hne

/-- Removing the write to recover while others are counted leaves its id behind. -/
theorem Tracked.not_live_of_remove (hb : b.Tracked) (hid : b.toRecoverId ≠ noCmdId)
    (hmore : b.totalWrite ≠ 1) : ¬ (b.remove b.toRecoverId).2.Live := by
  intro hlive
  rw [remove_toRecoverId hb hid, if_neg hmore] at hlive
  obtain ⟨cmd, hstored, -⟩ := hlive.stored (b.hasCmdToRecover_iff.mpr hid)
  rw [AList.lookup_erase] at hstored
  cases hstored

theorem not_live_of_read {cmd : Marshallable}
    (hid : b.toRecoverId ≠ noCmdId) (h : b.pushBack b.toRecoverId cmd false = .ok b') :
    ¬ b'.Live := by
  intro hlive
  have hsame : b'.toRecoverId = b.toRecoverId := by
    rw [pushBack_toRecoverId h, if_neg (by simp)]
  have hne : b'.toRecoverId ≠ noCmdId := hsame ▸ hid
  obtain ⟨cmd', hstored, -⟩ := hlive.stored (b'.hasCmdToRecover_iff.mpr hne)
  rw [hsame, (pushBack_eq h).1, AList.lookup_insert] at hstored
  cases hstored

theorem not_live_of_noCmdId {cmd : Marshallable} (hzero : b.totalWrite = 0)
    (h : b.pushBack noCmdId cmd true = .ok b') : ¬ b'.Live := by
  intro hlive
  have hnone : b'.toRecoverId = noCmdId := by
    rw [pushBack_toRecoverId h, if_pos ⟨hzero, rfl⟩]
  have hstored : b'.candidates.lookup noCmdId = some ⟨cmd, true⟩ := by
    rw [(pushBack_eq h).1]
    exact AList.lookup_insert _
  have hpos := one_le_storedWrites hstored
  exact b'.hasCmdToRecover_iff.mp (hlive.has_iff.mpr hpos) hnone

theorem Tracked.remove_iff (hb : b.Tracked) (id : CmdId) :
    ((BucketOp.remove id).keepsRecoverable b = true → (b.remove id).2.Tracked) ∧
      ((b.remove id).2.Live → (BucketOp.remove id).keepsRecoverable b = true) := by
  by_cases hid : b.toRecoverId = noCmdId
  · have hkeeps : (BucketOp.remove id).keepsRecoverable b = true := by
      simp [BucketOp.keepsRecoverable, hasCmdToRecover, hid]
    exact ⟨fun _ => hb.remove_idle hid id, fun _ => hkeeps⟩
  by_cases hother : id = b.toRecoverId
  · subst hother
    have hhas := b.hasCmdToRecover_iff.mpr hid
    simp only [BucketOp.keepsRecoverable, hhas, beq_self_eq_true, Bool.true_and,
      Bool.not_eq_true', bne_eq_false_iff_eq]
    refine ⟨hb.remove_last hid, fun hlive => ?_⟩
    by_contra hmore
    exact hb.not_live_of_remove hid hmore hlive
  · have hkeeps : (BucketOp.remove id).keepsRecoverable b = true := by
      simp [BucketOp.keepsRecoverable, hother]
    exact ⟨fun _ => hb.remove_other hid hother, fun _ => hkeeps⟩

theorem Tracked.pushBack_write_iff {id : CmdId} {cmd : Marshallable} (hb : b.Tracked)
    (h : b.pushBack id cmd true = .ok b') :
    ((BucketOp.pushBack id cmd true).keepsRecoverable b = true → b'.Tracked) ∧
      (b'.Live → (BucketOp.pushBack id cmd true).keepsRecoverable b = true) := by
  by_cases hzero : b.totalWrite = 0
  · by_cases hid : id = noCmdId
    · subst hid
      refine ⟨fun hkeeps => ?_, fun hlive => absurd hlive (not_live_of_noCmdId hzero h)⟩
      simp [BucketOp.keepsRecoverable, hzero] at hkeeps
    · refine ⟨fun _ => hb.pushBack_first_write hzero hid h, fun _ => ?_⟩
      simp [BucketOp.keepsRecoverable, hid]
  · have hid : b.toRecoverId ≠ noCmdId := fun hnone => hzero (hb.idle hnone)
    refine ⟨fun _ => hb.pushBack_kept hid (fun _ => rfl) h, fun _ => ?_⟩
    simp [BucketOp.keepsRecoverable, hzero]

theorem Tracked.pushBack_read_iff {id : CmdId} {cmd : Marshallable} (hb : b.Tracked)
    (h : b.pushBack id cmd false = .ok b') :
    ((BucketOp.pushBack id cmd false).keepsRecoverable b = true → b'.Tracked) ∧
      (b'.Live → (BucketOp.pushBack id cmd false).keepsRecoverable b = true) := by
  by_cases hid : b.toRecoverId = noCmdId
  · refine ⟨fun _ => hb.pushBack_read_idle hid h, fun _ => ?_⟩
    simp [BucketOp.keepsRecoverable, hasCmdToRecover, hid]
  by_cases hown : id = b.toRecoverId
  · subst hown
    refine ⟨fun hkeeps => ?_, fun hlive => absurd hlive (not_live_of_read hid h)⟩
    simp [BucketOp.keepsRecoverable, hasCmdToRecover, hid] at hkeeps
  · refine ⟨fun _ => hb.pushBack_kept hid (fun heq => absurd heq hown) h, fun _ => ?_⟩
    simp [BucketOp.keepsRecoverable, hown]

/-- A call keeps the invariant when it meets the condition, and otherwise the id to recover is not
that of a stored write. -/
theorem Tracked.apply {op : BucketOp} (hb : b.Tracked) (h : op.apply b = .ok b') :
    (op.keepsRecoverable b = true → b'.Tracked) ∧ (b'.Live → op.keepsRecoverable b = true) := by
  cases op with
  | remove id =>
    cases h
    exact hb.remove_iff id
  | pushBack id cmd w =>
    cases w with
    | true => exact hb.pushBack_write_iff h
    | false => exact hb.pushBack_read_iff h

end RevoveryCandidates

namespace JetpackCommandPool

variable {p p' : JetpackCommandPool}

theorem recoveryEntries_keys {keys : List Key} {batch : List (Key × CmdId)}
    (h : p.recoveryEntries keys = .ok batch) (key : Key) :
    (∃ id, (key, id) ∈ batch) ↔
      key ∈ keys ∧ p.hasCmdToRecover key = true ∧ (p.cmdToRecover key).isSome = true := by
  induction keys generalizing batch with
  | nil =>
    cases h
    simp
  | cons key' keys ih =>
    unfold recoveryEntries at h
    split at h
    · next cmd hhas hcmd =>
      obtain ⟨id, -, h⟩ := Except.bind_eq_ok h
      obtain ⟨rest, hrest, h⟩ := Except.bind_eq_ok h
      cases h
      by_cases hkey : key = key'
      · subst hkey
        simp only [List.mem_cons, true_or, hhas, hcmd, Option.isSome_some, and_self, iff_true]
        exact ⟨id, Or.inl rfl⟩
      · simp [hkey, ih hrest]
    · next hnot =>
      rw [ih h]
      refine ⟨fun ⟨hmem, hboth⟩ => ⟨List.mem_cons_of_mem key' hmem, hboth⟩, fun ⟨hmem, hboth⟩ => ?_⟩
      refine ⟨(List.mem_cons.mp hmem).resolve_left ?_, hboth⟩
      rintro rfl
      obtain ⟨cmd, hcmd⟩ := Option.isSome_iff_exists.mp hboth.2
      exact hnot cmd hboth.1 hcmd

theorem mem_idSet (p : JetpackCommandPool) (key : Key) :
    key ∈ p.idSet ↔ key ∈ p.candidates.keys ∧ p.hasCmdToRecover key = true := by
  have hbucket : ∀ b, (⟨key, b⟩ : Sigma fun _ : Key => RevoveryCandidates) ∈ p.candidates.entries →
      p.bucket key = b := by
    intro b hb
    have hlookup : p.candidates.lookup key = some b :=
      (List.mem_dlookup_iff p.candidates.nodupKeys).mpr hb
    simp [bucket, hlookup]
  simp only [idSet, List.mem_map, List.mem_filter]
  constructor
  · rintro ⟨⟨key', b⟩, ⟨hmem, hhas⟩, rfl⟩
    refine ⟨List.mem_keys_of_mem hmem, ?_⟩
    rw [hasCmdToRecover, hbucket b hmem]
    exact hhas
  · rintro ⟨hmem, hhas⟩
    obtain ⟨b, hb⟩ := List.exists_of_mem_keys hmem
    refine ⟨⟨key, b⟩, ⟨hb, ?_⟩, rfl⟩
    rw [hasCmdToRecover, hbucket b hb] at hhas
    exact hhas

/-- Both answers to a recovery name the same keys. -/
theorem idSet_iff_reported (hlive : ∀ key, (p.bucket key).Live) {batch : List (Key × CmdId)}
    (h : p.recoveryBatch = .ok batch) (key : Key) :
    key ∈ p.idSet ↔ ∃ id, (key, id) ∈ batch := by
  rw [mem_idSet, recoveryEntries_keys h key]
  refine ⟨fun ⟨hmem, hhas⟩ => ⟨hmem, hhas, ?_⟩, fun ⟨hmem, hhas, _⟩ => ⟨hmem, hhas⟩⟩
  obtain ⟨cmd, -, hcmd⟩ := (hlive key).stored hhas
  rw [cmdToRecover, hcmd]
  rfl

def removeMember (p : JetpackCommandPool) (cmd : Marshallable) : Except Fault JetpackCommandPool :=
  Prod.snd <$> p.removeCmd cmd

theorem removeMember_eq_ok {cmd : Marshallable} (h : p.removeMember cmd = .ok p') :
    ∃ r, p.removeCmd cmd = .ok (r, p') := by
  unfold removeMember at h
  cases hr : p.removeCmd cmd with
  | error e => simp [hr, Functor.map, Except.map] at h
  | ok x =>
    obtain ⟨r, q⟩ := x
    obtain rfl : q = p' := by simpa [hr, Functor.map, Except.map] using h
    exact ⟨r, rfl⟩

theorem removeMember_of_ok {cmd : Marshallable} {r : Bool} (h : p.removeCmd cmd = .ok (r, p')) :
    p.removeMember cmd = .ok p' := by
  simp [removeMember, h, Functor.map, Except.map]

theorem remove_eq_run {cmd : Marshallable} {n : Int} (h : p.remove cmd = .ok (n, p')) :
    Calls.run removeMember p (PoolOp.members cmd) = .ok p' := by
  unfold remove at h
  split at h
  · next cmds =>
    simp only [PoolOp.members]
    induction cmds generalizing p n with
    | nil =>
      cases h
      rfl
    | cons c cs ih =>
      obtain ⟨⟨r, q⟩, hc, h⟩ := Except.bind_eq_ok h
      obtain ⟨⟨total, q'⟩, hcs, h⟩ := Except.bind_eq_ok h
      cases h
      rw [List.map_cons, Calls.run_cons _ (removeMember_of_ok hc)]
      exact ih hcs
  · next hbatch =>
    obtain ⟨⟨r, q⟩, hc, h⟩ := Except.bind_eq_ok h
    cases h
    have hmembers : PoolOp.members cmd = [cmd] := by
      unfold PoolOp.members
      split
      · next cmds => exact absurd rfl (hbatch cmds)
      · rfl
    rw [hmembers, Calls.run_cons _ (removeMember_of_ok hc)]
    rfl

def memberKeeps (p : JetpackCommandPool) (cmd : Marshallable) : Bool :=
  match extractPoolKeys cmd with
  | .ok (some k) => (BucketOp.remove k.cmdId).keepsRecoverable (p.bucket k.key)
  | _ => true

def Tracked (p : JetpackCommandPool) : Prop := ∀ key, (p.bucket key).Tracked

def Readable (p : JetpackCommandPool) : Prop :=
  ∀ key id e, (p.bucket key).candidates.lookup id = some e → (SimpleRWCommand.parse e.cmd).isOk = true

theorem tracked_empty : Tracked {} := fun _ => RevoveryCandidates.tracked_empty

theorem readable_empty : Readable {} := by
  intro key id e he
  cases he

theorem Tracked.removeMember {cmd : Marshallable} (hp : p.Tracked) (hkeeps : p.memberKeeps cmd = true)
    (h : p.removeMember cmd = .ok p') : p'.Tracked := by
  obtain ⟨r, h⟩ := removeMember_eq_ok h
  obtain ⟨k, hk, hbucket⟩ := removeCmd_ok h
  simp only [memberKeeps, hk] at hkeeps
  intro key
  rw [hbucket key]
  split
  · exact ((hp k.key).remove_iff k.cmdId).1 hkeeps
  · exact hp key

theorem Readable.remove {cmd : Marshallable} {n : Int} (hp : p.Readable)
    (h : p.remove cmd = .ok (n, p')) : p'.Readable :=
  fun key id e he => hp key id e (lookup_of_remove h he)

theorem Readable.pushBack {cmd : Marshallable} {r : Bool} (hp : p.Readable)
    (hparse : (SimpleRWCommand.parse cmd).isOk = true) (h : p.pushBack .ready cmd = .ok (r, p')) :
    p'.Readable := by
  obtain ⟨k, b, -, hb, hbucket, -⟩ := pushBack_ok h
  intro key id e he
  rw [hbucket key] at he
  split at he
  · rw [(RevoveryCandidates.pushBack_eq hb).1] at he
    by_cases hid : id = k.cmdId
    · subst hid
      rw [AList.lookup_insert] at he
      cases he
      exact hparse
    · rw [AList.lookup_insert_ne hid] at he
      exact hp k.key id e he
  · exact hp key id e he

theorem getCombinedCmdID_isOk {cmd : Marshallable} (h : (SimpleRWCommand.parse cmd).isOk = true) :
    ∃ id, getCombinedCmdID (some cmd) = .ok id := by
  have hid : ∃ id, getCmdID (some cmd) = .ok id := by
    unfold getCmdID
    split
    · next heq => cases heq
    · exact ⟨_, rfl⟩
    · next c cs heq =>
      cases heq
      cases cs with
      | nil =>
        cases hc : SimpleRWCommand.parse (.tpcBatch [c]) with
        | error e => simp [hc, Except.isOk, Except.toBool] at h
        | ok r =>
          have hsame : SimpleRWCommand.parse (.tpcCommit c) = .ok r := hc
          exact ⟨_, by rw [hsame]; rfl⟩
      | cons c' cs => cases h
    · next cmd' heq =>
      cases heq
      cases hc : SimpleRWCommand.parse cmd with
      | error e => simp [hc, Except.isOk, Except.toBool] at h
      | ok r => exact ⟨_, rfl⟩
  obtain ⟨id, hid⟩ := hid
  exact ⟨_, by rw [getCombinedCmdID, hid]; rfl⟩

theorem Readable.recoveryEntries (hp : p.Readable) (keys : List Key) :
    ∃ batch, p.recoveryEntries keys = .ok batch := by
  induction keys with
  | nil => exact ⟨[], rfl⟩
  | cons key keys ih =>
    obtain ⟨batch, hbatch⟩ := ih
    unfold JetpackCommandPool.recoveryEntries
    split
    · next cmd hhas hcmd =>
      have hparse : (SimpleRWCommand.parse cmd).isOk = true := by
        unfold cmdToRecover RevoveryCandidates.cmdToRecover RevoveryCandidates.getCmd at hcmd
        split at hcmd
        · obtain ⟨e, he, rfl⟩ := Option.map_eq_some_iff.mp hcmd
          exact hp key _ e he
        · cases hcmd
      obtain ⟨id, hid⟩ := getCombinedCmdID_isOk hparse
      rw [hid, hbatch]
      exact ⟨_, rfl⟩
    · exact ⟨batch, hbatch⟩

end JetpackCommandPool

namespace PoolOp

/-- Every bucket call that the call makes leaves the id to recover on a stored write. -/
def keepsRecoverable (p : JetpackCommandPool) : PoolOp → Bool
  | .pushBack cmd =>
    match extractPoolKeys cmd with
    | .ok (some k) => (BucketOp.pushBack k.cmdId cmd k.isWrite).keepsRecoverable (p.bucket k.key)
    | _ => true
  | .remove cmd =>
    Calls.everyCall JetpackCommandPool.removeMember JetpackCommandPool.memberKeeps p (members cmd)
  | .reset => true

theorem tracked_apply {p p' : JetpackCommandPool} {op : PoolOp} (hp : p.Tracked)
    (hkeeps : op.keepsRecoverable p = true) (h : op.apply p = .ok p') : p'.Tracked := by
  obtain ⟨cmd, r, rfl, hpush⟩ | ⟨cmd, n, rfl, hremove⟩ | ⟨rfl, rfl⟩ := apply_ok h
  · obtain ⟨k, b, hk, hb, hbucket, -⟩ := JetpackCommandPool.pushBack_ok hpush
    simp only [keepsRecoverable, hk] at hkeeps
    intro key
    rw [hbucket key]
    have hcall : (BucketOp.pushBack k.cmdId cmd k.isWrite).apply (p.bucket k.key) = .ok b := hb
    split
    · exact ((hp k.key).apply hcall).1 hkeeps
    · exact hp key
  · exact Calls.run_induct (fun _ _ _ hq hk hm => hq.removeMember hk hm) hp hkeeps
      (JetpackCommandPool.remove_eq_run hremove)
  · exact JetpackCommandPool.tracked_empty

theorem readable_apply {p p' : JetpackCommandPool} {op : PoolOp} (hp : p.Readable)
    (hparse : ∀ cmd, op = .pushBack cmd → (SimpleRWCommand.parse cmd).isOk = true)
    (h : op.apply p = .ok p') : p'.Readable := by
  obtain ⟨cmd, r, rfl, hpush⟩ | ⟨cmd, n, rfl, hremove⟩ | ⟨rfl, rfl⟩ := apply_ok h
  · exact hp.pushBack (hparse cmd rfl) hpush
  · exact hp.remove hremove
  · exact JetpackCommandPool.readable_empty

/-- The id to recover is that of a stored write in every bucket passed through exactly when no call
of the sequence takes the write it names away from under it. In a pool whose bucket calls are such,
the keys `id_set` lists are those `OnJetpackPullRecovery` reports a command for. -/
theorem recover_id_live (bucketOps : List BucketOp) (ops : List PoolOp) :
    ((∀ before, before <+: bucketOps →
        ∀ b, Calls.run BucketOp.apply {} before = .ok b → b.Live) ↔
      Calls.everyCall BucketOp.apply (fun b op => op.keepsRecoverable b) {} bucketOps = true) ∧
    (Calls.everyCall apply (fun p op => op.keepsRecoverable p) {} ops = true →
      ∀ before, before <+: ops → ∀ p, run {} before = .ok p →
        (∀ key, (p.bucket key).Live) ∧
        ((∀ cmd, .pushBack cmd ∈ ops → (SimpleRWCommand.parse cmd).isOk = true) →
          ∃ batch, p.recoveryBatch = .ok batch) ∧
        ∀ batch, p.recoveryBatch = .ok batch →
          ∀ key, key ∈ p.idSet ↔ ∃ id, (key, id) ∈ batch) := by
  refine ⟨?_, fun hkeeps before hpre p hp => ?_⟩
  · exact Calls.forall_prefix_iff (fun _ hb => hb.live) (fun _ _ _ hb h => hb.apply h)
      RevoveryCandidates.tracked_empty bucketOps
  · rw [run_eq] at hp
    have htracked : p.Tracked :=
      Calls.run_induct (fun _ _ _ hq hk hop => tracked_apply hq hk hop)
        JetpackCommandPool.tracked_empty (Calls.everyCall_of_initial hpre hkeeps) hp
    have hlive : ∀ key, (p.bucket key).Live := fun key => (htracked key).live
    refine ⟨hlive, fun hparse => ?_, fun batch hbatch => JetpackCommandPool.idSet_iff_reported hlive hbatch⟩
    have hreadable : p.Readable :=
      Calls.run_mem_induct
        (fun q op hop q' hq h => readable_apply hq
          (fun cmd heq => hparse cmd (hpre.subset (heq ▸ hop))) h)
        JetpackCommandPool.readable_empty hp
    exact hreadable.recoveryEntries p.candidates.keys

theorem recover_id_live_after_conflict :
    ∃ p : JetpackCommandPool, ∃ batch,
      run {} [.pushBack (writeOfKey7 1), .pushBack (writeOfKey7 2), .remove (writeOfKey7 2)] = .ok p ∧
      (∀ key, (p.bucket key).Live) ∧ p.recoveryBatch = .ok batch ∧
      ∀ key, key ∈ p.idSet ↔ ∃ id, (key, id) ∈ batch := by
  obtain ⟨hlive, hbatch, hkeys⟩ := (recover_id_live []
    [.pushBack (writeOfKey7 1), .pushBack (writeOfKey7 2), .remove (writeOfKey7 2)]).2 (by decide +kernel)
    _ (List.prefix_refl _) _ rfl
  obtain ⟨batch, hbatch⟩ := hbatch fun cmd hcmd => by
    simp only [List.mem_cons, PoolOp.pushBack.injEq, reduceCtorEq, List.not_mem_nil, or_false] at hcmd
    rcases hcmd with rfl | rfl <;> rfl
  exact ⟨_, batch, rfl, hlive, hbatch, hkeys batch hbatch⟩

/-- The first of two writes is removed: a write is stored, the id to recover is that of none, and
`id_set` lists a key for which no command is reported. -/
theorem recover_id_dangles :
    (∃ b, Calls.run BucketOp.apply {} [.pushBack 1 (writeOfKey7 1) true,
        .pushBack 2 (writeOfKey7 2) true, .remove 1] = .ok b ∧
      b.hasCmdToRecover = true ∧ b.storedWrites = 1 ∧ b.cmdToRecover = none ∧ ¬ b.Live) ∧
    ∃ p, run {} [.pushBack (writeOfKey7 1), .pushBack (writeOfKey7 2), .remove (writeOfKey7 1)] = .ok p ∧
      p.idSet = [7] ∧ p.recoveryBatch = .ok [] := by
  refine ⟨⟨_, rfl, by decide, by decide, by decide, fun hlive => ?_⟩, _, rfl, by decide, rfl⟩
  obtain ⟨cmd, -, hcmd⟩ := hlive.stored (by decide)
  have hnone : none = some cmd := hcmd
  cases hnone

end PoolOp

end Jetpack
