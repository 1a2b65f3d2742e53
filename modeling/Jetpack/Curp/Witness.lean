import Jetpack.PoolCounts

/-! The CURP witness: for each key a slot with the attempts in flight, the ids seen, a count of the
writers and the id a recovery would take. Attempts are recorded, cleared and reset in any order.
A record of the run says which attempts were recorded since the last reset. -/

namespace Jetpack.Curp

open RevoveryCandidates (countP_kerase)

structure WitnessEntry where
  cmd : Marshallable
  isWrite : Bool
  deriving Repr, DecidableEq

/-- `writerCount` is a `uint32_t`. -/
structure WitnessSlot where
  inFlight : AList (fun _ : CmdId => WitnessEntry) := ∅
  seen : AList (fun _ : CmdId => Bool) := ∅
  writerCount : BitVec 32 := 0
  leaderRecoverId : CmdId := noCmdId

namespace WitnessSlot

def recordInFlight (s : WitnessSlot) (cmdId : CmdId) (cmd : Marshallable) (isWrite : Bool) :
    WitnessSlot where
  inFlight := s.inFlight.insert cmdId ⟨cmd, isWrite⟩
  leaderRecoverId := if s.writerCount = 0 ∧ isWrite = true then cmdId else s.leaderRecoverId
  writerCount := s.writerCount + if isWrite then 1 else 0
  seen := s.seen.insert cmdId true

def clearInFlight (s : WitnessSlot) (cmdId : CmdId) : Nat × WitnessSlot :=
  match s.inFlight.lookup cmdId with
  | none => (0, s)
  | some e =>
    (1,
      { s with
        leaderRecoverId :=
          if e.isWrite = true ∧ s.writerCount = 1 ∧ s.leaderRecoverId = cmdId then noCmdId
          else s.leaderRecoverId
        writerCount := if e.isWrite then s.writerCount - 1 else s.writerCount
        inFlight := s.inFlight.erase cmdId })

def size (s : WitnessSlot) : Nat := s.inFlight.entries.length

def hasSeen (s : WitnessSlot) (cmdId : CmdId) : Bool := (s.seen.lookup cmdId).isSome

def writesInFlight (s : WitnessSlot) : Nat := s.inFlight.entries.countP fun e => e.2.isWrite

end WitnessSlot

structure CurpWitness where
  slots : AList (fun _ : Key => WitnessSlot) := ∅
  attemptCount : Nat := 0

namespace CurpWitness

def slot (w : CurpWitness) (key : Key) : WitnessSlot := (w.slots.lookup key).getD {}

/-- A command without a key counts as free of conflicts and is not recorded. -/
def recordAttempt (w : CurpWitness) (cmd : Marshallable) : Except Fault (Bool × CurpWitness) := do
  match ← extractPoolKeys cmd with
  | none => return (true, w)
  | some k =>
    let slot := w.slot k.key
    let slot' := slot.recordInFlight k.cmdId cmd k.isWrite
    return (slot.writerCount == 0,
      { slots := w.slots.insert k.key slot', attemptCount := w.attemptCount + 1 })

/-- A slot whose last attempt is cleared is erased, with the ids it has seen. -/
def clearAttempt (w : CurpWitness) (cmd : Marshallable) : Except Fault (Nat × CurpWitness) := do
  match ← extractPoolKeys cmd with
  | none => return (0, w)
  | some k =>
    match w.slots.lookup k.key with
    | none => return (0, w)
    | some slot =>
      let (removed, slot') := slot.clearInFlight k.cmdId
      if 0 < removed then
        return (removed,
          { slots := if slot'.size = 0 then w.slots.erase k.key else w.slots.insert k.key slot'
            attemptCount := w.attemptCount - 1 })
      else return (removed, w)

def reset (_ : CurpWitness) : CurpWitness := {}

def hasSeen (w : CurpWitness) (key : Key) (cmdId : CmdId) : Bool := (w.slot key).hasSeen cmdId

def attemptsInFlight (w : CurpWitness) : Nat := (w.slots.entries.map fun e => e.2.size).sum

end CurpWitness

structure Session where
  witness : CurpWitness := {}
  recorded : List (Key × CmdId) := []

inductive Op
  | recordAttempt (cmd : Marshallable)
  | clearAttempt (cmd : Marshallable)
  | reset
  deriving Repr, DecidableEq

namespace Session

/-- What a record of the command adds to the history. -/
def attemptOf (cmd : Marshallable) : List (Key × CmdId) :=
  match extractPoolKeys cmd with
  | .ok (some k) => [(k.key, k.cmdId)]
  | _ => []

def apply (s : Session) : Op → Except Fault Session
  | .recordAttempt cmd => do
    let (_, w) ← s.witness.recordAttempt cmd
    return ⟨w, attemptOf cmd ++ s.recorded⟩
  | .clearAttempt cmd => do
    let (_, w) ← s.witness.clearAttempt cmd
    return { s with witness := w }
  | .reset => .ok ⟨s.witness.reset, []⟩

end Session

/-- The id to recover is that of a write in flight. -/
def WitnessSlot.NamesWrite (s : WitnessSlot) : Prop :=
  ∃ e, s.inFlight.lookup s.leaderRecoverId = some e ∧ e.isWrite = true

structure WitnessSlot.Counted (s : WitnessSlot) : Prop where
  writers : s.writerCount.toNat = s.writesInFlight
  leader : s.NamesWrite ↔ 0 < s.writesInFlight

/-- The bookkeeping is right: the counts and the id of every slot, the answer to whatever is recorded
next, and what has been seen since the last reset. -/
structure Session.Bookkept (s : Session) : Prop where
  slots : ∀ key, (s.witness.slot key).Counted
  attempts : s.witness.attemptCount = s.witness.attemptsInFlight
  answers : ∀ cmd k r w, extractPoolKeys cmd = .ok (some k) →
    s.witness.recordAttempt cmd = .ok (r, w) →
      (r = true ↔ (s.witness.slot k.key).writesInFlight = 0)
  seen : ∀ key cmdId, (key, cmdId) ∈ s.recorded → s.witness.hasSeen key cmdId = true

namespace WitnessSlot

variable {s : WitnessSlot} {id : CmdId} {cmd : Marshallable} {w : Bool} {e : WitnessEntry}

theorem counted_empty : Counted {} := by
  refine ⟨rfl, ?_, fun h => absurd h (by decide)⟩
  rintro ⟨e, he, -⟩
  cases he

theorem leaderRecoverId_record :
    (s.recordInFlight id cmd w).leaderRecoverId =
      if s.writerCount = 0 ∧ w = true then id else s.leaderRecoverId := rfl

theorem writesInFlight_record (hnew : s.inFlight.lookup id = none) :
    (s.recordInFlight id cmd w).writesInFlight = s.writesInFlight + w.toNat := by
  have hnot : id ∉ s.inFlight.entries.keys := List.dlookup_eq_none.mp hnew
  unfold writesInFlight recordInFlight
  rw [AList.entries_insert, List.countP_cons, List.kerase_of_notMem_keys hnot]
  cases w <;> rfl

theorem size_record (hnew : s.inFlight.lookup id = none) :
    (s.recordInFlight id cmd w).size = s.size + 1 := by
  have hnot : id ∉ s.inFlight.entries.keys := List.dlookup_eq_none.mp hnew
  unfold size recordInFlight
  rw [AList.entries_insert, List.length_cons, List.kerase_of_notMem_keys hnot]

theorem size_record_again (hold : s.inFlight.lookup id = some e) :
    (s.recordInFlight id cmd w).size = s.size := by
  have hcount := countP_kerase hold fun _ => true
  simp only [List.countP_true, Bool.toNat_true] at hcount
  unfold size recordInFlight
  rw [AList.entries_insert, List.length_cons]
  exact hcount

theorem writesInFlight_erase (h : s.inFlight.lookup id = some e) :
    (s.inFlight.erase id).entries.countP (fun x => x.2.isWrite) + e.isWrite.toNat =
      s.writesInFlight :=
  countP_kerase h fun x => x.2.isWrite

theorem size_erase (h : s.inFlight.lookup id = some e) :
    (s.inFlight.erase id).entries.length + 1 = s.size := by
  have hcount := countP_kerase h fun _ => true
  simp only [List.countP_true, Bool.toNat_true] at hcount
  exact hcount

theorem writesInFlight_pos (h : s.inFlight.lookup id = some e) (hw : e.isWrite = true) :
    0 < s.writesInFlight := by
  have herase := writesInFlight_erase h
  rw [hw, Bool.toNat_true] at herase
  omega

theorem NamesWrite.pos (h : s.NamesWrite) : 0 < s.writesInFlight := by
  obtain ⟨e, he, hw⟩ := h
  exact writesInFlight_pos he hw

theorem Counted.count_eq_zero (h : s.Counted) : s.writerCount = 0 ↔ s.writesInFlight = 0 := by
  have hcount := h.writers
  constructor
  · intro hzero
    rw [hzero] at hcount
    exact hcount.symm
  · intro hzero
    apply BitVec.eq_of_toNat_eq
    rw [hcount, hzero]
    rfl

theorem Counted.count_eq_one (h : s.Counted) : s.writerCount = 1 ↔ s.writesInFlight = 1 := by
  have hcount := h.writers
  constructor
  · intro hone
    rw [hone] at hcount
    exact hcount.symm
  · intro hone
    apply BitVec.eq_of_toNat_eq
    rw [hcount, hone]
    rfl

theorem Counted.record (h : s.Counted) (hnew : s.inFlight.lookup id = none)
    (hlt : s.writesInFlight + w.toNat < 2 ^ 32) : (s.recordInFlight id cmd w).Counted := by
  have hwrites : (s.recordInFlight id cmd w).writesInFlight = s.writesInFlight + w.toNat :=
    writesInFlight_record hnew
  refine ⟨?_, fun hnames => hnames.pos, fun hpos => ?_⟩
  · have hcount := h.writers
    rw [hwrites]
    cases w with
    | false => simpa [recordInFlight] using hcount
    | true =>
      simp only [Bool.toNat_true] at hlt ⊢
      simp only [recordInFlight, if_true, BitVec.toNat_add]
      change (s.writerCount.toNat + 1) % 2 ^ 32 = s.writesInFlight + 1
      omega
  · -- the first writer to enter leads; a later attempt leaves the leader where it is
    by_cases hfirst : s.writerCount = 0 ∧ w = true
    · refine ⟨⟨cmd, w⟩, ?_, hfirst.2⟩
      rw [leaderRecoverId_record, if_pos hfirst]
      exact AList.lookup_insert s.inFlight
    · have hbefore : 0 < s.writesInFlight := by
        rw [hwrites] at hpos
        cases w with
        | false => simpa using hpos
        | true =>
          have hne : s.writesInFlight ≠ 0 := fun hz => hfirst ⟨h.count_eq_zero.mpr hz, rfl⟩
          omega
      obtain ⟨e, he, hw⟩ := h.leader.mpr hbefore
      have hid : s.leaderRecoverId ≠ id := by
        intro hid
        rw [hid, hnew] at he
        cases he
      refine ⟨e, ?_, hw⟩
      rw [leaderRecoverId_record, if_neg hfirst]
      exact (AList.lookup_insert_ne hid).trans he

/-- A write recorded when `2 ^ 32 - 1` are in flight wraps the count. -/
theorem Counted.lt_of_record (h : (s.recordInFlight id cmd w).Counted)
    (hnew : s.inFlight.lookup id = none) : s.writesInFlight + w.toNat < 2 ^ 32 := by
  have hlt := (s.recordInFlight id cmd w).writerCount.isLt
  rw [h.writers, writesInFlight_record hnew] at hlt
  exact hlt

theorem clearInFlight_none (h : s.inFlight.lookup id = none) : s.clearInFlight id = (0, s) := by
  unfold clearInFlight
  rw [h]

theorem clearInFlight_some (h : s.inFlight.lookup id = some e) :
    s.clearInFlight id = (1,
      { s with
        leaderRecoverId :=
          if e.isWrite = true ∧ s.writerCount = 1 ∧ s.leaderRecoverId = id then noCmdId
          else s.leaderRecoverId
        writerCount := if e.isWrite then s.writerCount - 1 else s.writerCount
        inFlight := s.inFlight.erase id }) := by
  unfold clearInFlight
  rw [h]

/-- The clear takes away the write that leads while other writes stay. -/
def Deposes (s : WitnessSlot) (id : CmdId) (e : WitnessEntry) : Bool :=
  e.isWrite && s.leaderRecoverId == id && decide (1 < s.writesInFlight)

theorem Counted.clear (h : s.Counted) (he : s.inFlight.lookup id = some e)
    (hkeep : s.Deposes id e = false) : (s.clearInFlight id).2.Counted := by
  have herase := writesInFlight_erase he
  have hcount := h.writers
  rw [clearInFlight_some he]
  refine ⟨?_, fun hnames => hnames.pos, fun hpos => ?_⟩
  · change (if e.isWrite then s.writerCount - 1 else s.writerCount).toNat =
      (s.inFlight.erase id).entries.countP fun x => x.2.isWrite
    cases hw : e.isWrite with
    | false =>
      rw [hw, Bool.toNat_false] at herase
      simp only [Bool.false_eq_true, if_false]
      omega
    | true =>
      rw [hw, Bool.toNat_true] at herase
      have hlt := s.writerCount.isLt
      simp only [if_true, BitVec.toNat_sub]
      change (2 ^ 32 - 1 + s.writerCount.toNat) % 2 ^ 32 = _
      omega
  · change 0 < (s.inFlight.erase id).entries.countP fun x => x.2.isWrite at hpos
    obtain ⟨l, hl, hlw⟩ := h.leader.mpr (by omega)
    have hlead : s.leaderRecoverId ≠ id := by
      intro hid
      rw [hid, he] at hl
      cases hl
      rw [hlw, Bool.toNat_true] at herase
      have hmore : 1 < s.writesInFlight := by omega
      simp [Deposes, hlw, hid, hmore] at hkeep
    refine ⟨l, ?_, hlw⟩
    have hstay : ¬ (e.isWrite = true ∧ s.writerCount = 1 ∧ s.leaderRecoverId = id) :=
      fun hc => hlead hc.2.2
    dsimp only
    rw [if_neg hstay, AList.lookup_erase_ne hlead]
    exact hl

theorem Counted.not_deposes (h : s.Counted) (he : s.inFlight.lookup id = some e)
    (hafter : (s.clearInFlight id).2.Counted) : s.Deposes id e = false := by
  by_contra hdep
  simp only [Deposes, Bool.not_eq_false, Bool.and_eq_true, beq_iff_eq, decide_eq_true_eq] at hdep
  obtain ⟨⟨hw, hlead⟩, hmore⟩ := hdep
  have herase := writesInFlight_erase he
  rw [hw, Bool.toNat_true] at herase
  have hcount : s.writerCount ≠ 1 := by
    intro hone
    have := h.count_eq_one.mp hone
    omega
  have hstay : ¬ (e.isWrite = true ∧ s.writerCount = 1 ∧ s.leaderRecoverId = id) :=
    fun hc => hcount hc.2.1
  have hnames := hafter.leader
  rw [clearInFlight_some he] at hnames
  have hpos : 0 < (s.inFlight.erase id).entries.countP fun x => x.2.isWrite := by omega
  obtain ⟨l, hl, -⟩ := hnames.mpr hpos
  dsimp only at hl
  rw [if_neg hstay, hlead, AList.lookup_erase] at hl
  cases hl

theorem hasSeen_record (s : WitnessSlot) (id id' : CmdId) (cmd : Marshallable) (w : Bool) :
    (s.recordInFlight id cmd w).hasSeen id' = (decide (id' = id) || s.hasSeen id') := by
  unfold hasSeen recordInFlight
  by_cases hid : id' = id
  · subst hid
    simp
  · simp [AList.lookup_insert_ne hid, hid]

theorem hasSeen_clear (s : WitnessSlot) (id id' : CmdId) :
    (s.clearInFlight id).2.hasSeen id' = s.hasSeen id' := by
  unfold clearInFlight
  split <;> rfl

end WitnessSlot

namespace CurpWitness

variable {w w' : CurpWitness} {cmd : Marshallable} {k : PoolKeys} {e : WitnessEntry}

theorem slot_insert (w : CurpWitness) (key key' : Key) (slot : WitnessSlot) (n : Nat) :
    (CurpWitness.mk (w.slots.insert key slot) n).slot key' =
      if key' = key then slot else w.slot key' := by
  by_cases hkey : key' = key
  · subst hkey
    simp [CurpWitness.slot]
  · simp [CurpWitness.slot, hkey, AList.lookup_insert_ne hkey]

theorem slot_erase (w : CurpWitness) (key key' : Key) (n : Nat) :
    (CurpWitness.mk (w.slots.erase key) n).slot key' = if key' = key then {} else w.slot key' := by
  by_cases hkey : key' = key
  · subst hkey
    simp [CurpWitness.slot]
  · simp [CurpWitness.slot, hkey, AList.lookup_erase_ne hkey]

theorem lookup_of_inFlight {key : Key} {id : CmdId}
    (h : (w.slot key).inFlight.lookup id = some e) : w.slots.lookup key = some (w.slot key) := by
  unfold slot at h ⊢
  cases hslot : w.slots.lookup key with
  | none =>
    rw [hslot] at h
    cases h
  | some slot => rfl

theorem attemptsInFlight_insert (w : CurpWitness) (key : Key) (slot : WitnessSlot) (n : Nat) :
    (CurpWitness.mk (w.slots.insert key slot) n).attemptsInFlight + (w.slot key).size =
      w.attemptsInFlight + slot.size := by
  unfold attemptsInFlight CurpWitness.slot
  rw [AList.entries_insert, List.map_cons, List.sum_cons]
  cases hlookup : w.slots.lookup key with
  | none =>
    have hnot : key ∉ w.slots.entries.keys := List.dlookup_eq_none.mp hlookup
    have hempty : WitnessSlot.size {} = 0 := rfl
    rw [List.kerase_of_notMem_keys hnot, Option.getD_none, hempty]
    dsimp only
    omega
  | some old =>
    have hsum := sum_map_kerase hlookup WitnessSlot.size
    rw [Option.getD_some]
    dsimp only
    omega

theorem recordAttempt_keyless (h : extractPoolKeys cmd = .ok none) :
    w.recordAttempt cmd = .ok (true, w) := by
  unfold recordAttempt
  rw [h]
  rfl

theorem recordAttempt_keyed (h : extractPoolKeys cmd = .ok (some k)) :
    w.recordAttempt cmd = .ok ((w.slot k.key).writerCount == 0,
      { slots := w.slots.insert k.key ((w.slot k.key).recordInFlight k.cmdId cmd k.isWrite)
        attemptCount := w.attemptCount + 1 }) := by
  unfold recordAttempt
  rw [h]
  rfl

theorem clearAttempt_keyless (h : extractPoolKeys cmd = .ok none) :
    w.clearAttempt cmd = .ok (0, w) := by
  unfold clearAttempt
  rw [h]
  rfl

theorem clearAttempt_miss (h : extractPoolKeys cmd = .ok (some k))
    (hmiss : (w.slot k.key).inFlight.lookup k.cmdId = none) : w.clearAttempt cmd = .ok (0, w) := by
  unfold clearAttempt
  rw [h]
  unfold slot at hmiss
  cases hslot : w.slots.lookup k.key with
  | none => simp only [hslot, bind, Except.bind, pure, Except.pure]
  | some slot =>
    rw [hslot, Option.getD_some] at hmiss
    simp [hslot, bind, Except.bind, WitnessSlot.clearInFlight_none hmiss]
    rfl

theorem clearAttempt_hit (h : extractPoolKeys cmd = .ok (some k))
    (hhit : (w.slot k.key).inFlight.lookup k.cmdId = some e) :
    w.clearAttempt cmd = .ok (1,
      { slots :=
          if (w.slot k.key).size = 1 then w.slots.erase k.key
          else w.slots.insert k.key ((w.slot k.key).clearInFlight k.cmdId).2
        attemptCount := w.attemptCount - 1 }) := by
  have hslot := lookup_of_inFlight hhit
  have hsize := WitnessSlot.size_erase hhit
  have hlast : (((w.slot k.key).clearInFlight k.cmdId).2.size = 0) ↔ (w.slot k.key).size = 1 := by
    rw [WitnessSlot.clearInFlight_some hhit]
    change ((w.slot k.key).inFlight.erase k.cmdId).entries.length = 0 ↔ _
    omega
  have hone : ((w.slot k.key).clearInFlight k.cmdId).1 = 1 := by
    rw [WitnessSlot.clearInFlight_some hhit]
  unfold clearAttempt
  rw [h]
  simp only [bind, Except.bind, hslot, hone, hlast, Nat.one_pos, if_true]
  rfl

end CurpWitness

namespace Session

variable {s t : Session} {op : Op} {cmd : Marshallable} {k : PoolKeys}

def Tracked (s : Session) : Prop :=
  ∀ key id e, (s.witness.slot key).inFlight.lookup id = some e → (key, id) ∈ s.recorded

/-- A record is careful when its id is not in flight on the key and the count of the writers does
not wrap. A clear is careful when it neither empties the slot nor deposes its leader. -/
def careful (s : Session) : Op → Bool
  | .recordAttempt cmd =>
    match extractPoolKeys cmd with
    | .ok (some k) =>
      let slot := s.witness.slot k.key
      (slot.inFlight.lookup k.cmdId).isNone &&
        decide (slot.writesInFlight + k.isWrite.toNat < 2 ^ 32)
    | _ => true
  | .clearAttempt cmd =>
    match extractPoolKeys cmd with
    | .ok (some k) =>
      let slot := s.witness.slot k.key
      match slot.inFlight.lookup k.cmdId with
      | none => true
      | some e => decide (slot.size ≠ 1) && !slot.Deposes k.cmdId e
    | _ => true
  | .reset => true

theorem bookkept_empty : Bookkept {} where
  slots _ := WitnessSlot.counted_empty
  attempts := rfl
  answers cmd k r w hk h := by
    rw [CurpWitness.recordAttempt_keyed hk] at h
    cases h
    exact ⟨fun _ => rfl, fun _ => rfl⟩
  seen _ _ h := absurd h List.not_mem_nil

theorem tracked_empty : Tracked {} := by
  intro key id e he
  cases he

theorem bookkept_of_counts (hslots : ∀ key, (s.witness.slot key).Counted)
    (hattempts : s.witness.attemptCount = s.witness.attemptsInFlight)
    (hseen : ∀ key id, (key, id) ∈ s.recorded → s.witness.hasSeen key id = true) : s.Bookkept where
  slots := hslots
  attempts := hattempts
  answers cmd k r w hk h := by
    rw [CurpWitness.recordAttempt_keyed hk] at h
    cases h
    rw [beq_iff_eq]
    exact (hslots k.key).count_eq_zero
  seen := hseen

theorem apply_record_keyed (hk : extractPoolKeys cmd = .ok (some k)) :
    s.apply (.recordAttempt cmd) = .ok
      ⟨⟨s.witness.slots.insert k.key ((s.witness.slot k.key).recordInFlight k.cmdId cmd k.isWrite),
        s.witness.attemptCount + 1⟩, (k.key, k.cmdId) :: s.recorded⟩ := by
  have hattempt : attemptOf cmd = [(k.key, k.cmdId)] := by
    unfold attemptOf
    rw [hk]
  simp only [apply, CurpWitness.recordAttempt_keyed hk, hattempt]
  rfl

theorem apply_record_keyless (hk : extractPoolKeys cmd = .ok none) :
    s.apply (.recordAttempt cmd) = .ok s := by
  have hattempt : attemptOf cmd = [] := by
    unfold attemptOf
    rw [hk]
  simp only [apply, CurpWitness.recordAttempt_keyless hk, hattempt]
  rfl

theorem apply_clear_keyless (hk : extractPoolKeys cmd = .ok none) :
    s.apply (.clearAttempt cmd) = .ok s := by
  simp only [apply, CurpWitness.clearAttempt_keyless hk]
  rfl

theorem apply_clear_miss (hk : extractPoolKeys cmd = .ok (some k))
    (hmiss : (s.witness.slot k.key).inFlight.lookup k.cmdId = none) :
    s.apply (.clearAttempt cmd) = .ok s := by
  simp only [apply, CurpWitness.clearAttempt_miss hk hmiss]
  rfl

theorem apply_clear_hit {e : WitnessEntry} (hk : extractPoolKeys cmd = .ok (some k))
    (hhit : (s.witness.slot k.key).inFlight.lookup k.cmdId = some e) :
    s.apply (.clearAttempt cmd) = .ok
      ⟨⟨if (s.witness.slot k.key).size = 1 then s.witness.slots.erase k.key
        else s.witness.slots.insert k.key ((s.witness.slot k.key).clearInFlight k.cmdId).2,
        s.witness.attemptCount - 1⟩, s.recorded⟩ := by
  simp only [apply, CurpWitness.clearAttempt_hit hk hhit]
  rfl

theorem keys_of_record (h : s.apply (.recordAttempt cmd) = .ok t) :
    ∃ o, extractPoolKeys cmd = .ok o := by
  obtain ⟨r, hrecord, hrest⟩ := Except.bind_eq_ok h
  obtain ⟨o, ho, -⟩ := Except.bind_eq_ok hrecord
  exact ⟨o, ho⟩

theorem keys_of_clear (h : s.apply (.clearAttempt cmd) = .ok t) :
    ∃ o, extractPoolKeys cmd = .ok o := by
  obtain ⟨r, hclear, hrest⟩ := Except.bind_eq_ok h
  obtain ⟨o, ho, -⟩ := Except.bind_eq_ok hclear
  exact ⟨o, ho⟩

section Record

variable (hs : s.Bookkept) (ht : s.Tracked)
  (h : s.apply (.recordAttempt cmd) = .ok t) (hk : extractPoolKeys cmd = .ok (some k))
include hs ht h hk

theorem Bookkept.record (hnew : (s.witness.slot k.key).inFlight.lookup k.cmdId = none)
    (hlt : (s.witness.slot k.key).writesInFlight + k.isWrite.toNat < 2 ^ 32) :
    t.Bookkept ∧ t.Tracked := by
  rw [apply_record_keyed hk] at h
  cases h
  refine ⟨bookkept_of_counts (fun key => ?_) ?_ ?_, ?_⟩
  · rw [CurpWitness.slot_insert]
    split_ifs
    · exact (hs.slots k.key).record hnew hlt
    · exact hs.slots key
  · have hsum := s.witness.attemptsInFlight_insert k.key
      ((s.witness.slot k.key).recordInFlight k.cmdId cmd k.isWrite) (s.witness.attemptCount + 1)
    rw [WitnessSlot.size_record hnew] at hsum
    have hbefore := hs.attempts
    dsimp only
    omega
  · intro key id hin
    unfold CurpWitness.hasSeen
    rw [CurpWitness.slot_insert]
    rcases List.mem_cons.mp hin with heq | hin
    · cases heq
      rw [if_pos rfl, WitnessSlot.hasSeen_record]
      simp
    · have hseen := hs.seen key id hin
      unfold CurpWitness.hasSeen at hseen
      split_ifs with hkey
      · rw [WitnessSlot.hasSeen_record, ← hkey, hseen, Bool.or_true]
      · exact hseen
  · intro key id e he
    dsimp only at he ⊢
    rw [CurpWitness.slot_insert] at he
    split_ifs at he with hkey
    · by_cases hid : id = k.cmdId
      · rw [hkey, hid]
        exact List.mem_cons_self
      · rw [WitnessSlot.recordInFlight, AList.lookup_insert_ne hid, ← hkey] at he
        exact List.mem_cons_of_mem _ (ht key id e he)
    · exact List.mem_cons_of_mem _ (ht key id e he)

omit ht in
/-- A record of an id in flight is counted again, and one write too many wraps the count. -/
theorem Bookkept.careful_of_record (hafter : t.Bookkept) :
    (s.witness.slot k.key).inFlight.lookup k.cmdId = none ∧
      (s.witness.slot k.key).writesInFlight + k.isWrite.toNat < 2 ^ 32 := by
  rw [apply_record_keyed hk] at h
  cases h
  have hnew : (s.witness.slot k.key).inFlight.lookup k.cmdId = none := by
    by_contra hold
    obtain ⟨e, he⟩ := Option.ne_none_iff_exists'.mp hold
    have hsum := s.witness.attemptsInFlight_insert k.key
      ((s.witness.slot k.key).recordInFlight k.cmdId cmd k.isWrite) (s.witness.attemptCount + 1)
    rw [WitnessSlot.size_record_again he] at hsum
    have hbefore := hs.attempts
    have hcount := hafter.attempts
    dsimp only at hcount
    omega
  refine ⟨hnew, ?_⟩
  have hslot := hafter.slots k.key
  rw [CurpWitness.slot_insert, if_pos rfl] at hslot
  exact hslot.lt_of_record hnew

end Record

section Clear

variable {e : WitnessEntry} (hs : s.Bookkept) (ht : s.Tracked)
  (h : s.apply (.clearAttempt cmd) = .ok t) (hk : extractPoolKeys cmd = .ok (some k))
  (hhit : (s.witness.slot k.key).inFlight.lookup k.cmdId = some e)
include hs ht h hk hhit

theorem Bookkept.clear (hmore : (s.witness.slot k.key).size ≠ 1)
    (hkeep : (s.witness.slot k.key).Deposes k.cmdId e = false) : t.Bookkept ∧ t.Tracked := by
  rw [apply_clear_hit hk hhit, if_neg hmore] at h
  cases h
  refine ⟨bookkept_of_counts (fun key => ?_) ?_ ?_, ?_⟩
  · rw [CurpWitness.slot_insert]
    split_ifs
    · exact (hs.slots k.key).clear hhit hkeep
    · exact hs.slots key
  · have hsum := s.witness.attemptsInFlight_insert k.key
      ((s.witness.slot k.key).clearInFlight k.cmdId).2 (s.witness.attemptCount - 1)
    have hsize := WitnessSlot.size_erase hhit
    have hafter : ((s.witness.slot k.key).clearInFlight k.cmdId).2.size =
        ((s.witness.slot k.key).inFlight.erase k.cmdId).entries.length := by
      rw [WitnessSlot.clearInFlight_some hhit]
      rfl
    have hbefore := hs.attempts
    dsimp only
    omega
  · intro key id hin
    have hseen := hs.seen key id hin
    unfold CurpWitness.hasSeen at hseen ⊢
    rw [CurpWitness.slot_insert]
    split_ifs with hkey
    · rw [WitnessSlot.hasSeen_clear, ← hkey]
      exact hseen
    · exact hseen
  · intro key id e' he'
    dsimp only at he' ⊢
    rw [CurpWitness.slot_insert] at he'
    split_ifs at he' with hkey
    · rw [WitnessSlot.clearInFlight_some hhit] at he'
      have hid : id ≠ k.cmdId := by
        intro hid
        rw [hid, AList.lookup_erase] at he'
        cases he'
      rw [AList.lookup_erase_ne hid, ← hkey] at he'
      exact ht key id e' he'
    · exact ht key id e' he'

theorem Bookkept.careful_of_clear (hafter : t.Bookkept) :
    (s.witness.slot k.key).size ≠ 1 ∧ (s.witness.slot k.key).Deposes k.cmdId e = false := by
  rw [apply_clear_hit hk hhit] at h
  cases h
  have hmore : (s.witness.slot k.key).size ≠ 1 := by
    intro hone
    have hseen := hafter.seen k.key k.cmdId (ht k.key k.cmdId e hhit)
    unfold CurpWitness.hasSeen at hseen
    rw [if_pos hone, CurpWitness.slot_erase, if_pos rfl] at hseen
    cases hseen
  refine ⟨hmore, ?_⟩
  have hslot := hafter.slots k.key
  rw [if_neg hmore, CurpWitness.slot_insert, if_pos rfl] at hslot
  exact (hs.slots k.key).not_deposes hhit hslot

end Clear

/-- One call keeps the bookkeeping right exactly when it is careful. -/
theorem bookkept_apply (hs : s.Bookkept ∧ s.Tracked) (h : s.apply op = .ok t) :
    (s.careful op = true → t.Bookkept ∧ t.Tracked) ∧ (t.Bookkept → s.careful op = true) := by
  cases op with
  | recordAttempt cmd =>
    obtain ⟨o, ho⟩ := keys_of_record h
    cases o with
    | none =>
      rw [apply_record_keyless ho] at h
      cases h
      exact ⟨fun _ => hs, fun _ => by simp only [careful, ho]⟩
    | some k =>
      simp only [careful, ho, Bool.and_eq_true, Option.isNone_iff_eq_none, decide_eq_true_eq]
      exact ⟨fun hc => hs.1.record hs.2 h ho hc.1 hc.2, hs.1.careful_of_record h ho⟩
  | clearAttempt cmd =>
    obtain ⟨o, ho⟩ := keys_of_clear h
    cases o with
    | none =>
      rw [apply_clear_keyless ho] at h
      cases h
      exact ⟨fun _ => hs, fun _ => by simp only [careful, ho]⟩
    | some k =>
      cases hfound : (s.witness.slot k.key).inFlight.lookup k.cmdId with
      | none =>
        rw [apply_clear_miss ho hfound] at h
        cases h
        exact ⟨fun _ => hs, fun _ => by simp only [careful, ho, hfound]⟩
      | some e =>
        simp only [careful, ho, hfound, Bool.and_eq_true, decide_eq_true_eq, Bool.not_eq_true']
        exact ⟨fun hc => hs.1.clear hs.2 h ho hfound hc.1 hc.2,
          hs.1.careful_of_clear hs.2 h ho hfound⟩
  | reset =>
    cases h
    exact ⟨fun _ => ⟨bookkept_empty, tracked_empty⟩, fun _ => rfl⟩

/-- Over every sequence of calls the bookkeeping is right after each of them if and only if each of
them is careful. -/
theorem bookkeeping_exact (ops : List Op) :
    (∀ before, before <+: ops → ∀ s, Calls.run apply {} before = .ok s → s.Bookkept) ↔
      Calls.everyCall apply careful {} ops = true := by
  have hempty : Bookkept {} ∧ Tracked {} := ⟨bookkept_empty, tracked_empty⟩
  exact Calls.forall_prefix_iff (fun s hs => hs.1)
    (fun s op t (hs : s.Bookkept ∧ s.Tracked) h => bookkept_apply hs h) hempty ops

/-- A write recorded twice counts as two writers, an attempt cleared last is no longer seen, and the
leader cleared before the second writer leaves its id behind. -/
theorem bookkeeping_drifts :
    (∃ s, Calls.run apply {}
        [.recordAttempt (PoolOp.writeOfKey7 1), .recordAttempt (PoolOp.writeOfKey7 1)] = .ok s ∧
      (s.witness.slot 7).writerCount = 2 ∧ (s.witness.slot 7).writesInFlight = 1 ∧
      s.witness.attemptCount = 2 ∧ s.witness.attemptsInFlight = 1 ∧ ¬ s.Bookkept) ∧
    (∃ s, Calls.run apply {}
        [.recordAttempt (PoolOp.writeOfKey7 1), .clearAttempt (PoolOp.writeOfKey7 1)] = .ok s ∧
      (7, combineInt32 1 1) ∈ s.recorded ∧ s.witness.hasSeen 7 (combineInt32 1 1) = false ∧
      ¬ s.Bookkept) ∧
    (∃ s, Calls.run apply {}
        [.recordAttempt (PoolOp.writeOfKey7 1), .recordAttempt (PoolOp.writeOfKey7 2),
          .clearAttempt (PoolOp.writeOfKey7 1)] = .ok s ∧
      (s.witness.slot 7).writesInFlight = 1 ∧
      (s.witness.slot 7).inFlight.lookup (s.witness.slot 7).leaderRecoverId = none ∧
      ¬ s.Bookkept) := by
  refine ⟨⟨_, rfl, rfl, rfl, rfl, rfl, fun h => ?_⟩, ⟨_, rfl, ?_, rfl, fun h => ?_⟩,
    ⟨_, rfl, rfl, rfl, fun h => ?_⟩⟩
  · exact absurd h.attempts (by decide)
  · decide
  · exact absurd (h.seen 7 (combineInt32 1 1) (by decide)) (by decide)
  · obtain ⟨e, he, -⟩ := (h.slots 7).leader.mpr (by decide)
    cases he

end Session

end Jetpack.Curp
