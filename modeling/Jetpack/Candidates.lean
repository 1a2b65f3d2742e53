import Jetpack.Command

/-! One bucket of recovery candidates: the commands witnessed for a key and the write among them
that a recovery would take. -/

namespace Jetpack

structure Entry where
  cmd : Marshallable
  isWrite : Bool
  deriving Repr, DecidableEq

/-- The commands of one key, the number of writes counted so far, and the id to recover. -/
structure RevoveryCandidates where
  candidates : AList (fun _ : CmdId => Entry) := ∅
  appeared : AList (fun _ : CmdId => Bool) := ∅
  totalWrite : Int := 0
  toRecoverId : CmdId := noCmdId

namespace RevoveryCandidates

def pushBack (b : RevoveryCandidates) (cmdId : CmdId) (cmd : Marshallable) (isWrite : Bool) :
    Except Fault RevoveryCandidates :=
  if b.totalWrite = 0 ∧ isWrite = true ∧ b.toRecoverId ≠ noCmdId then .error .recoverIdTaken
  else .ok
    { candidates := b.candidates.insert cmdId ⟨cmd, isWrite⟩
      appeared := b.appeared.insert cmdId true
      totalWrite := b.totalWrite + isWrite.toInt
      toRecoverId := if b.totalWrite = 0 ∧ isWrite = true then cmdId else b.toRecoverId }

def remove (b : RevoveryCandidates) (cmdId : CmdId) : Bool × RevoveryCandidates :=
  match b.candidates.lookup cmdId with
  | none => (false, b)
  | some e =>
    (true,
      { b with
        candidates := b.candidates.erase cmdId
        totalWrite := b.totalWrite - e.isWrite.toInt
        toRecoverId := if b.totalWrite = 1 ∧ e.isWrite = true then noCmdId else b.toRecoverId })

def size (b : RevoveryCandidates) : Nat := b.candidates.entries.length

def hasCmdToRecover (b : RevoveryCandidates) : Bool := b.toRecoverId != noCmdId

def getCmd (b : RevoveryCandidates) (cmdId : CmdId) : Option Marshallable :=
  (b.candidates.lookup cmdId).map Entry.cmd

def cmdToRecover (b : RevoveryCandidates) : Option Marshallable :=
  if b.toRecoverId ≠ noCmdId then b.getCmd b.toRecoverId else none

def storedWrites (b : RevoveryCandidates) : Nat :=
  b.candidates.entries.countP (fun e => e.2.isWrite)

/-- Counted writes bound the stored ones, and nothing is recoverable while no write is counted. -/
structure WellFormed (b : RevoveryCandidates) : Prop where
  writes_le : (b.storedWrites : Int) ≤ b.totalWrite
  recover_none : b.totalWrite = 0 → b.toRecoverId = noCmdId

/-- The write `cmd` with this id is stored and is the one to recover. -/
structure Holds (b : RevoveryCandidates) (cmdId : CmdId) (cmd : Marshallable) : Prop where
  stored : b.candidates.lookup cmdId = some ⟨cmd, true⟩
  recovers : b.toRecoverId = cmdId
  proper : cmdId ≠ noCmdId

theorem countP_kerase {α β : Type} [DecidableEq α] {l : List (Sigma fun _ : α => β)} {a : α} {b : β}
    (h : l.dlookup a = some b) (f : (Sigma fun _ : α => β) → Bool) :
    (l.kerase a).countP f + (f ⟨a, b⟩).toNat = l.countP f := by
  induction l with
  | nil => simp at h
  | cons x l ih =>
    obtain ⟨a', b'⟩ := x
    by_cases ha : a = a'
    · subst ha
      have hb : b' = b := by simpa using h
      subst hb
      have hkerase : (⟨a, b'⟩ :: l : List (Sigma fun _ : α => β)).kerase a = l := by simp
      rw [hkerase, List.countP_cons]
      cases f ⟨a, b'⟩ <;> rfl
    · rw [List.dlookup_cons_ne l ⟨a', b'⟩ ha] at h
      rw [List.kerase_cons_ne ha, List.countP_cons, List.countP_cons, ← ih h]
      omega

theorem wellFormed_empty : WellFormed {} :=
  ⟨by decide, fun _ => rfl⟩

theorem storedWrites_erase {b : RevoveryCandidates} {id : CmdId} {e : Entry}
    (h : b.candidates.lookup id = some e) :
    (b.candidates.erase id).entries.countP (fun x => x.2.isWrite) + e.isWrite.toNat
      = b.storedWrites :=
  countP_kerase h (fun x => x.2.isWrite)

theorem storedWrites_insert_le (b : RevoveryCandidates) (id : CmdId) (e : Entry) :
    (b.candidates.insert id e).entries.countP (fun x => x.2.isWrite)
      ≤ b.storedWrites + e.isWrite.toNat := by
  have hsub : (b.candidates.entries.kerase id).countP (fun x => x.2.isWrite) ≤ b.storedWrites :=
    (List.kerase_sublist id b.candidates.entries).countP_le
  rw [AList.entries_insert, List.countP_cons]
  cases e.isWrite <;> simp <;> omega

theorem one_le_storedWrites {b : RevoveryCandidates} {id : CmdId} {cmd : Marshallable}
    (h : b.candidates.lookup id = some ⟨cmd, true⟩) : 1 ≤ b.storedWrites := by
  have herase := storedWrites_erase h
  simp only [Bool.toNat_true] at herase
  omega

theorem WellFormed.pushBack_ne_recoverIdTaken {b : RevoveryCandidates} (hb : b.WellFormed) (id : CmdId)
    (cmd : Marshallable) (w : Bool) : b.pushBack id cmd w ≠ .error .recoverIdTaken := by
  unfold RevoveryCandidates.pushBack
  split
  · next h => exact absurd (hb.recover_none h.1) h.2.2
  · simp

theorem WellFormed.pushBack {b b' : RevoveryCandidates} {id : CmdId} {cmd : Marshallable} {w : Bool}
    (hb : b.WellFormed) (h : b.pushBack id cmd w = .ok b') : b'.WellFormed := by
  unfold RevoveryCandidates.pushBack at h
  split at h
  · cases h
  cases h
  have hle := storedWrites_insert_le b id ⟨cmd, w⟩
  have hwrites := hb.writes_le
  refine ⟨?_, ?_⟩
  · change ((b.candidates.insert id ⟨cmd, w⟩).entries.countP _ : Int) ≤ b.totalWrite + w.toInt
    cases w <;> simp at hle ⊢ <;> omega
  · intro hzero
    change b.totalWrite + w.toInt = 0 at hzero
    have hw : w = false := by
      cases w with
      | false => rfl
      | true => simp at hzero; omega
    subst hw
    simpa using hb.recover_none (by simpa using hzero)

theorem WellFormed.remove {b : RevoveryCandidates} (hb : b.WellFormed) (id : CmdId) :
    (b.remove id).2.WellFormed := by
  unfold RevoveryCandidates.remove
  split
  · exact hb
  next e he =>
  have herase := storedWrites_erase he
  have hwrites := hb.writes_le
  refine ⟨?_, ?_⟩
  · change ((b.candidates.erase id).entries.countP _ : Int) ≤ b.totalWrite - e.isWrite.toInt
    cases hw : e.isWrite <;> simp [hw] at herase ⊢ <;> omega
  · intro hzero
    change b.totalWrite - e.isWrite.toInt = 0 at hzero
    cases hw : e.isWrite with
    | false => simpa [hw] using hb.recover_none (by simpa [hw] using hzero)
    | true =>
      have hone : b.totalWrite = 1 := by simp [hw] at hzero; omega
      simp [hone]

theorem holds_of_pushBack {b b' : RevoveryCandidates} {id : CmdId} {cmd : Marshallable}
    (hzero : b.totalWrite = 0) (hid : id ≠ noCmdId) (h : b.pushBack id cmd true = .ok b') :
    b'.Holds id cmd := by
  unfold pushBack at h
  split at h
  · cases h
  cases h
  exact ⟨AList.lookup_insert _, by simp [hzero], hid⟩

theorem Holds.pushBack {b b' : RevoveryCandidates} {id id' : CmdId} {cmd cmd' : Marshallable}
    {w : Bool} (hb : b.WellFormed) (hc : b.Holds id cmd)
    (hsame : id' = id → cmd' = cmd ∧ w = true) (h : b.pushBack id' cmd' w = .ok b') :
    b'.Holds id cmd := by
  have hpos : b.totalWrite ≠ 0 := by
    have := one_le_storedWrites hc.stored
    have := hb.writes_le
    omega
  unfold RevoveryCandidates.pushBack at h
  split at h
  · cases h
  cases h
  refine ⟨?_, by simpa [hpos] using hc.recovers, hc.proper⟩
  by_cases hid : id' = id
  · obtain ⟨rfl, rfl⟩ := hsame hid
    subst hid
    exact AList.lookup_insert _
  · change AList.lookup id (b.candidates.insert id' _) = _
    rw [AList.lookup_insert_ne (Ne.symm hid)]
    exact hc.stored

theorem Holds.remove {b : RevoveryCandidates} {id id' : CmdId} {cmd : Marshallable}
    (hb : b.WellFormed) (hc : b.Holds id cmd) (hid : id' ≠ id) : (b.remove id').2.Holds id cmd := by
  unfold RevoveryCandidates.remove
  split
  · exact hc
  next e he =>
  have hstored : (b.candidates.erase id').lookup id = some ⟨cmd, true⟩ := by
    rw [AList.lookup_erase_ne (Ne.symm hid)]
    exact hc.stored
  -- The removed write and the held one are two stored writes, so the count was not one.
  have hnot : ¬ (b.totalWrite = 1 ∧ e.isWrite = true) := by
    rintro ⟨hone, hw⟩
    have herase := storedWrites_erase he
    have hleft := one_le_storedWrites (b := { b with candidates := b.candidates.erase id' }) hstored
    have hwrites := hb.writes_le
    simp only [storedWrites, hw, Bool.toNat_true] at herase hleft hwrites
    omega
  exact ⟨hstored, by simpa [hnot] using hc.recovers, hc.proper⟩

theorem Holds.hasCmdToRecover {b : RevoveryCandidates} {id : CmdId} {cmd : Marshallable}
    (hc : b.Holds id cmd) : b.hasCmdToRecover = true := by
  simp [RevoveryCandidates.hasCmdToRecover, hc.recovers, hc.proper]

theorem Holds.cmdToRecover {b : RevoveryCandidates} {id : CmdId} {cmd : Marshallable}
    (hc : b.Holds id cmd) : b.cmdToRecover = some cmd := by
  rw [RevoveryCandidates.cmdToRecover, hc.recovers, if_pos hc.proper, getCmd, hc.stored]
  rfl

end RevoveryCandidates

end Jetpack
