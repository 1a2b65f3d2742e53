import Jetpack.Mencius.Server

/-! The order in which a server applies decided commands. The key counter never holds a command
back: when a `Decide` is handled every earlier one has been applied, so the command is applied by
its own `Decide` and the order of execution is the order of arrival. -/

namespace Jetpack.Mencius

open MenciusServer

def appliedSlots (s : MenciusServer) : List Nat := s.applied.map Prod.fst

/-- Between two messages: every decided entry has been applied. -/
structure Idle (s : MenciusServer) : Prop where
  executed : ∀ id, s.minActiveSlot ≤ id →
    (s.logs id).executed = (s.logs id).committedCmd.isSome
  parses : ∀ id c, (s.logs id).committedCmd = some c → ∃ p, SimpleRWCommand.parse c = .ok p
  unexecuted : ∀ k, s.unexecutedKeys k = 0
  minActive_le : s.minActiveSlot ≤ s.maxExecutedSlot
  below : ∀ id, 0 < id → id ≤ s.maxExecutedSlot → id ∈ appliedSlots s
  decided : ∀ id, (s.logs id).committedCmd.isSome → id ∈ appliedSlots s

/-- While the `Decide` of `slot` is handled, after the calls `l` of `app_next_`. The entry of `slot`
is the only one that can be waiting. -/
structure Committing (slot : Nat) (cmd : Marshallable) (key : Key) (l : List (Nat × Marshallable))
    (done : Bool) (s : MenciusServer) : Prop where
  applied : s.applied = if done then l ++ [(slot, cmd)] else l
  committed : (s.logs slot).committedCmd = some cmd
  executed : ∀ id, s.minActiveSlot ≤ id →
    (s.logs id).executed = ((s.logs id).committedCmd.isSome && (done || id != slot))
  parses : ∀ id c, (s.logs id).committedCmd = some c → ∃ p, SimpleRWCommand.parse c = .ok p
  unexecuted : ∀ k, s.unexecutedKeys k = if done = false ∧ k = key then 1 else 0
  minActive_le : s.minActiveSlot ≤ s.maxExecutedSlot
  below : ∀ id, 0 < id → id ≤ s.maxExecutedSlot → id ∈ appliedSlots s
  decided : ∀ id, (s.logs id).committedCmd.isSome → id = slot ∨ id ∈ l.map Prod.fst

theorem idle_initial : Idle {} where
  executed := by simp
  parses := by simp
  unexecuted := by simp
  minActive_le := le_refl 0
  below := by
    intro id hpos hle
    exact absurd hle (by simpa using hpos.ne')
  decided := by simp

theorem Idle.of_setInstance {s : MenciusServer} (h : Idle s) {slot : Nat} {inst : MenciusData}
    (hcommitted : inst.committedCmd = (s.logs slot).committedCmd)
    (hexecuted : inst.executed = (s.logs slot).executed) : Idle (s.setInstance slot inst) where
  executed := by
    intro id hid
    by_cases hs : id = slot
    · subst hs
      simpa [setInstance, hcommitted, hexecuted] using h.executed id hid
    · simpa [setInstance, hs] using h.executed id hid
  parses := by
    intro id c hc
    by_cases hs : id = slot
    · subst hs
      exact h.parses id c (by simpa [setInstance, hcommitted] using hc)
    · exact h.parses id c (by simpa [setInstance, hs] using hc)
  unexecuted := h.unexecuted
  minActive_le := h.minActive_le
  below := h.below
  decided := by
    intro id hid
    by_cases hs : id = slot
    · subst hs
      exact h.decided id (by simpa [setInstance, hcommitted] using hid)
    · exact h.decided id (by simpa [setInstance, hs] using hid)

section Commit

variable {slot : Nat} {cmd : Marshallable} {key : Key} {l : List (Nat × Marshallable)}
  {done : Bool} {s : MenciusServer}

theorem Committing.withMaxCommitted (h : Committing slot cmd key l done s) (n : Nat) :
    Committing slot cmd key l done { s with maxCommittedSlot := n } :=
  ⟨h.applied, h.committed, h.executed, h.parses, h.unexecuted, h.minActive_le, h.below, h.decided⟩

theorem getInstance_eq_ok {id : Nat} (h : s.minActiveSlot ≤ id) :
    s.getInstance id = .ok (s.logs id) := by
  simp [getInstance, h]

/-- The deduplication only moves the upper end of the loops. -/
theorem skipAppeared_eq_ok (hasAppeared : Marshallable → Bool) {ids : List Nat}
    (hids : ∀ id ∈ ids, s.minActiveSlot ≤ id) :
    ∃ n, s.maxCommittedSlot ≤ n ∧
      s.skipAppeared hasAppeared ids = .ok { s with maxCommittedSlot := n } := by
  induction ids generalizing s with
  | nil => exact ⟨s.maxCommittedSlot, le_refl _, rfl⟩
  | cons id ids ih =>
    have hget := getInstance_eq_ok (hids id (by simp))
    by_cases happ : (s.logs id).cmd.any hasAppeared = true
    · obtain ⟨n, hn, hrun⟩ := ih (s := { s with maxCommittedSlot := s.maxCommittedSlot + 1 })
        (fun x hx => hids x (by simp [hx]))
      refine ⟨n, by simp only at hn; omega, ?_⟩
      simpa [skipAppeared, hget, happ, bind, Except.bind] using hrun
    · obtain ⟨n, hn, hrun⟩ := ih (fun x hx => hids x (by simp [hx]))
      refine ⟨n, hn, ?_⟩
      simpa [skipAppeared, hget, happ, bind, Except.bind] using hrun

theorem execute_eq_ok {id : Nat} {inst : MenciusData} {p : SimpleRWCommand}
    (hparse : SimpleRWCommand.parse cmd = .ok p) (hcount : 1 ≤ s.unexecutedKeys p.key) :
    s.execute id inst cmd = .ok { s with
      logs := Function.update s.logs id { inst with executed := true }
      unexecutedKeys := Function.update s.unexecutedKeys p.key (s.unexecutedKeys p.key - 1)
      applied := s.applied ++ [(id, cmd)] } := by
  have hnonneg : 0 ≤ s.unexecutedKeys p.key + -1 := by omega
  simp only [execute, hparse, addUnexecuted, setInstance, bind, Except.bind,
    Function.update_self, hnonneg, if_true, pure, Except.pure, Int.sub_eq_add_neg]

theorem Committing.of_execute (h : Committing slot cmd key l false s) {p : SimpleRWCommand}
    (hparse : SimpleRWCommand.parse cmd = .ok p) (hkey : p.key = key) :
    ∃ t, s.execute slot (s.logs slot) cmd = .ok t ∧ Committing slot cmd key l true t ∧
      t.maxExecutedSlot = s.maxExecutedSlot ∧ t.maxCommittedSlot = s.maxCommittedSlot ∧
      t.minActiveSlot = s.minActiveSlot := by
  have hcount : s.unexecutedKeys p.key = 1 := by simpa [hkey] using h.unexecuted p.key
  have happ : s.applied = l := by simpa using h.applied
  refine ⟨_, execute_eq_ok hparse (by omega), ⟨?_, ?_, ?_, ?_, ?_, ?_, ?_, ?_⟩, rfl, rfl, rfl⟩
  · simp [happ]
  · simpa using h.committed
  · intro id hid
    by_cases hs : id = slot
    · subst hs
      simp [h.committed]
    · have hne : (id != slot) = true := by simpa using hs
      simpa [hs, hne] using h.executed id hid
  · intro id c hc
    by_cases hs : id = slot
    · subst hs
      exact h.parses id c (by simpa using hc)
    · exact h.parses id c (by simpa [hs] using hc)
  · intro k
    by_cases hk : k = p.key
    · simp [hk, hcount]
    · have hk' : k ≠ key := hkey ▸ hk
      simpa [hk, hk'] using h.unexecuted k
  · exact h.minActive_le
  · intro id hpos hle
    have := h.below id hpos hle
    simp only [appliedSlots, List.map_append, List.mem_append] at this ⊢
    exact Or.inl this
  · intro id hid
    by_cases hs : id = slot
    · exact Or.inl hs
    · exact h.decided id (by simpa [hs] using hid)

theorem Committing.succ_maxExecuted (h : Committing slot cmd key l done s)
    (hnext : s.maxExecutedSlot + 1 ∈ appliedSlots s) :
    Committing slot cmd key l done { s with maxExecutedSlot := s.maxExecutedSlot + 1 } where
  applied := h.applied
  committed := h.committed
  executed := h.executed
  parses := h.parses
  unexecuted := h.unexecuted
  minActive_le := Nat.le_succ_of_le h.minActive_le
  below := by
    intro id hpos hle
    rcases Nat.lt_or_ge s.maxExecutedSlot id with hlt | hge
    · have : id = s.maxExecutedSlot + 1 := by simp only at hle; omega
      exact this ▸ hnext
    · exact h.below id hpos hge
  decided := h.decided

theorem Committing.mem_applied (h : Committing slot cmd key l done s) {id : Nat}
    (hid : s.minActiveSlot ≤ id) (hexec : (s.logs id).executed = true) : id ∈ appliedSlots s := by
  have hex := h.executed id hid
  rw [hexec] at hex
  have hand := Bool.and_eq_true_iff.mp hex.symm
  have happ := h.applied
  rcases h.decided id hand.1 with rfl | hl
  · have hdone : done = true := by simpa using hand.2
    simp [appliedSlots, happ, hdone]
  · by_cases hdone : done = true
    · simp [appliedSlots, happ, hdone, hl]
    · simpa [appliedSlots, happ, hdone] using hl

theorem Committing.eq_waiting (h : Committing slot cmd key l done s) {id : Nat} {c : Marshallable}
    (hid : s.minActiveSlot ≤ id) (hc : (s.logs id).committedCmd = some c)
    (hexec : (s.logs id).executed = false) : done = false ∧ id = slot ∧ c = cmd := by
  have hex := h.executed id hid
  simp only [hexec, hc, Option.isSome_some, Bool.true_and] at hex
  have hor := Bool.or_eq_false_iff.mp hex.symm
  have hs : id = slot := by simpa using hor.2
  refine ⟨hor.1, hs, ?_⟩
  have hcommitted := h.committed
  rw [← hs, hc] at hcommitted
  exact Option.some.inj hcommitted

theorem Committing.of_applyInOrder (h : Committing slot cmd key l done s) {p : SimpleRWCommand}
    (hparse : SimpleRWCommand.parse cmd = .ok p) (hkey : p.key = key) (n : Nat) :
    ∃ t d, s.applyInOrder (List.range' (s.maxExecutedSlot + 1) n) = .ok t ∧
      Committing slot cmd key l d t ∧ t.maxCommittedSlot = s.maxCommittedSlot := by
  induction n generalizing s done with
  | zero => exact ⟨s, done, rfl, h, rfl⟩
  | succ n ih =>
    have hid : s.minActiveSlot ≤ s.maxExecutedSlot + 1 := Nat.le_succ_of_le h.minActive_le
    have hget := getInstance_eq_ok hid
    rw [List.range'_succ]
    cases hc : (s.logs (s.maxExecutedSlot + 1)).committedCmd with
    | none =>
      refine ⟨s, done, ?_, h, rfl⟩
      simp only [applyInOrder, hget, bind, Except.bind, hc, pure, Except.pure]
    | some c =>
      by_cases hexec : (s.logs (s.maxExecutedSlot + 1)).executed = true
      · obtain ⟨t, d, hrun, ht, hmax⟩ := ih (h.succ_maxExecuted (h.mem_applied hid hexec))
        refine ⟨t, d, ?_, ht, hmax⟩
        simpa only [applyInOrder, hget, bind, Except.bind, hc, hexec, if_true, pure,
          Except.pure] using hrun
      · have hwait := h.eq_waiting hid hc (by simpa using hexec)
        obtain ⟨rfl, hslot, rfl⟩ := hwait
        obtain ⟨t, hex, ht, hmaxE, hmaxC, hmin⟩ := h.of_execute hparse hkey
        have hnext : t.maxExecutedSlot + 1 ∈ appliedSlots t := by
          simp [appliedSlots, ht.applied, hmaxE, hslot]
        obtain ⟨u, d, hrun, hu, hmax⟩ := ih (ht.succ_maxExecuted hnext)
        refine ⟨u, d, ?_, hu, hmax.trans hmaxC⟩
        rw [hslot] at hget hc hexec ⊢
        have hfalse : (s.logs slot).executed = false := by simpa using hexec
        simpa [applyInOrder, hget, bind, Except.bind, hc, hfalse, hex, hmaxE, hslot]
          using hrun

theorem Committing.of_applyOutOfOrder (h : Committing slot cmd key l done s) {p : SimpleRWCommand}
    (hparse : SimpleRWCommand.parse cmd = .ok p) (hkey : p.key = key) {ids : List Nat}
    (hids : ∀ id ∈ ids, s.minActiveSlot ≤ id) :
    ∃ t d, s.applyOutOfOrder ids = .ok t ∧ Committing slot cmd key l d t ∧
      (done = true ∨ slot ∈ ids → d = true) := by
  induction ids generalizing s done with
  | nil => exact ⟨s, done, rfl, h, by simp⟩
  | cons id ids ih =>
    have hid := hids id (by simp)
    have hget := getInstance_eq_ok hid
    have htail : ∀ x ∈ ids, s.minActiveSlot ≤ x := fun x hx => hids x (by simp [hx])
    cases hc : (s.logs id).committedCmd with
    | none =>
      obtain ⟨t, d, hrun, ht, hd⟩ := ih h htail
      have hne : slot ≠ id := by
        rintro rfl
        exact absurd h.committed (by simp [hc])
      refine ⟨t, d, ?_, ht, fun hor => hd (by simpa [hne] using hor)⟩
      simpa only [applyOutOfOrder, hget, bind, Except.bind, hc] using hrun
    | some c =>
      obtain ⟨q, hq⟩ := h.parses id c hc
      by_cases hexec : (s.logs id).executed = true
      · obtain ⟨t, d, hrun, ht, hd⟩ := ih h htail
        refine ⟨t, d, ?_, ht, fun hor => hd ?_⟩
        · simpa [applyOutOfOrder, hget, bind, Except.bind, hc, hq, hexec] using hrun
        · have hex := h.executed id hid
          rw [hexec] at hex
          have hand := (Bool.and_eq_true_iff.mp hex.symm).2
          rcases hor with hdone | hmem
          · exact Or.inl hdone
          · rcases List.mem_cons.mp hmem with rfl | hmem
            · exact Or.inl (by simpa using hand)
            · exact Or.inr hmem
      · obtain ⟨rfl, rfl, rfl⟩ := h.eq_waiting hid hc (by simpa using hexec)
        have hqp : q = p := Except.ok.inj (hq.symm.trans hparse)
        have hcount : s.unexecutedKeys q.key = 1 := by simpa [hqp, hkey] using h.unexecuted key
        obtain ⟨t, hex, ht, -, -, hmin⟩ := h.of_execute hparse hkey
        obtain ⟨u, d, hrun, hu, hd⟩ := ih ht (hmin ▸ htail)
        refine ⟨u, d, ?_, hu, fun _ => hd (Or.inl rfl)⟩
        simpa [applyOutOfOrder, hget, bind, Except.bind, hc, hq, hexec, hcount, hex]
          using hrun

theorem mem_slotsUpTo {a b id : Nat} : id ∈ slotsUpTo a b ↔ a ≤ id ∧ id ≤ b := by
  simp only [slotsUpTo, List.mem_range'_1]
  omega

theorem Committing.idle_freeLogs (h : Committing slot cmd key l true s) :
    Idle s.freeLogs ∧ s.freeLogs.applied = l ++ [(slot, cmd)] := by
  have happ : s.applied = l ++ [(slot, cmd)] := by simpa using h.applied
  refine ⟨⟨?_, ?_, ?_, ?_, ?_, ?_⟩, happ⟩
  · intro id hid
    have hmin : s.minActiveSlot ≤ id := le_trans (le_max_left _ _) hid
    have hlt : ¬ (id < max s.minActiveSlot (s.maxExecutedSlot - 1000)) := Nat.not_lt.mpr hid
    simpa only [freeLogs, hlt, and_false, if_false, Bool.true_or, Bool.and_true]
      using h.executed id hmin
  · intro id c hc
    simp only [freeLogs] at hc
    split at hc
    · cases hc
    · exact h.parses id c hc
  · intro k
    have hk : s.unexecutedKeys k = 0 := by simpa using h.unexecuted k
    exact hk
  · have := h.minActive_le
    simp only [freeLogs]
    omega
  · exact h.below
  · intro id hid
    simp only [freeLogs] at hid
    split at hid
    · cases hid
    · simp only [appliedSlots, freeLogs, happ, List.map_append, List.mem_append]
      rcases h.decided id hid with rfl | hl
      · simp
      · exact Or.inl hl

/-- The loops apply the waiting entry, in the first one or past the gap in the second. -/
theorem Committing.of_applyCommitted (h : Committing slot cmd key l false s) {p : SimpleRWCommand}
    (hparse : SimpleRWCommand.parse cmd = .ok p) (hkey : p.key = key) (hpos : 0 < slot)
    (hnew : slot ∉ l.map Prod.fst) (hmin : s.minActiveSlot ≤ slot)
    (hmax : slot ≤ s.maxCommittedSlot) (hasAppeared : Marshallable → Bool) :
    ∃ t, s.applyCommitted hasAppeared = .ok t ∧ Idle t ∧ t.applied = l ++ [(slot, cmd)] := by
  have hscan : ∀ id ∈ List.range' s.maxCommittedSlot (s.maxActiveSlot - s.maxCommittedSlot),
      s.minActiveSlot ≤ id := by
    intro id hid
    exact hmin.trans (hmax.trans (List.mem_range'_1.mp hid).1)
  obtain ⟨n, hn, hskip⟩ := skipAppeared_eq_ok hasAppeared hscan
  obtain ⟨t, d, hfirst, ht, htmax⟩ :=
    (h.withMaxCommitted n).of_applyInOrder hparse hkey (n + 1 - (s.maxExecutedSlot + 1))
  have hpast : ∀ id ∈ slotsUpTo (t.maxExecutedSlot + 1) t.maxCommittedSlot,
      t.minActiveSlot ≤ id := by
    intro id hid
    have hle := (mem_slotsUpTo.mp hid).1
    have := ht.minActive_le
    omega
  obtain ⟨u, d', hsecond, hu, hdone⟩ := ht.of_applyOutOfOrder hparse hkey hpast
  -- an entry that the first loop left lies past the prefix, where the second loop reaches it
  have hd' : d' = true := by
    by_cases hd : d = true
    · exact hdone (Or.inl hd)
    · refine hdone (Or.inr (mem_slotsUpTo.mpr ⟨?_, ?_⟩))
      · by_contra hlt
        have happ : t.applied = l := by simpa [hd] using ht.applied
        have hmem := ht.below slot hpos (by omega)
        rw [appliedSlots, happ] at hmem
        exact hnew hmem
      · simp only at htmax
        omega
  subst hd'
  refine ⟨u.freeLogs, ?_, hu.idle_freeLogs⟩
  simp only [slotsUpTo] at hsecond
  simp only [applyCommitted, hskip, bind, Except.bind, slotsUpTo, hfirst, hsecond,
    pure, Except.pure]

/-- A `Decide` of a new slot is applied at once, whatever has been decided before it. -/
theorem Idle.of_decide (h : Idle s) {c : TpcCommitCommand} {p : SimpleRWCommand}
    (hparse : SimpleRWCommand.parse (.tpcCommit c) = .ok p) (hpos : 0 < slot)
    (hnew : slot ∉ appliedSlots s) (hasAppeared : Marshallable → Bool) :
    ∃ t, s.decide slot (.tpcCommit c) hasAppeared = .ok t ∧ Idle t ∧
      t.applied = s.applied ++ [(slot, .tpcCommit c)] := by
  have hgt : s.maxExecutedSlot < slot := by
    by_contra hle
    exact hnew (h.below slot hpos (by omega))
  have hmin : s.minActiveSlot ≤ slot := le_trans h.minActive_le hgt.le
  have hnone : (s.logs slot).committedCmd = none := by
    by_contra hne
    exact hnew (h.decided slot (Option.isSome_iff_ne_none.mpr hne))
  have hget : (s.addUnexecuted p.key 1).getInstance slot = .ok (s.logs slot) :=
    getInstance_eq_ok hmin
  have hstored : Committing slot (.tpcCommit c) p.key s.applied false
      { (s.addUnexecuted p.key 1).setInstance slot
          { s.logs slot with committedCmd := some (.tpcCommit c) } with
        maxCommittedSlot := max s.maxCommittedSlot slot } := by
    refine ⟨rfl, by simp [setInstance], ?_, ?_, ?_, h.minActive_le, h.below, ?_⟩
    · intro id hid
      by_cases hs : id = slot
      · subst hs
        simpa [setInstance, addUnexecuted, hnone] using h.executed id hid
      · have hne : (id != slot) = true := by simpa using hs
        simpa [setInstance, addUnexecuted, hs, hne] using h.executed id hid
    · intro id c' hc
      by_cases hs : id = slot
      · subst hs
        have : c' = .tpcCommit c := by simpa [setInstance, eq_comm] using hc
        exact ⟨p, this ▸ hparse⟩
      · exact h.parses id c' (by simpa [setInstance, addUnexecuted, hs] using hc)
    · intro k
      by_cases hk : k = p.key
      · simp [setInstance, addUnexecuted, hk, h.unexecuted]
      · simpa [setInstance, addUnexecuted, hk] using h.unexecuted k
    · intro id hid
      by_cases hs : id = slot
      · exact Or.inl hs
      · exact Or.inr (h.decided id (by simpa [setInstance, addUnexecuted, hs] using hid))
  obtain ⟨t, hrun, ht⟩ := hstored.of_applyCommitted hparse rfl hpos hnew hmin (le_max_right _ _)
    hasAppeared
  refine ⟨t, ?_, ht⟩
  simp only [MenciusServer.decide, hparse, onCommit, hget, bind, Except.bind,
    setKindTpcCommit]
  exact (if_pos hgt).trans hrun

end Commit

structure Decisions where
  m : Nat
  cmd : Nat → TpcCommitCommand
  parsed : Nat → SimpleRWCommand
  parse_cmd : ∀ slot, 1 ≤ slot → slot ≤ m →
    SimpleRWCommand.parse (.tpcCommit (cmd slot)) = .ok (parsed slot)

def Decisions.key (D : Decisions) (slot : Nat) : Key := (D.parsed slot).key

/-- The slots of the `Decide` messages among `es`, in the order of arrival. -/
def decidedSlots : List Message → List Nat
  | [] => []
  | .decide slot _ _ :: es => slot :: decidedSlots es
  | .prepare _ _ :: es => decidedSlots es
  | .suggest _ _ _ :: es => decidedSlots es

/-- The replica receives the `Decide` of every slot once, among messages of the other kinds. -/
structure Receives (D : Decisions) (es : List Message) : Prop where
  perm : (decidedSlots es).Perm (List.range' 1 D.m)
  decided : ∀ slot cmd hasAppeared, Message.decide slot cmd hasAppeared ∈ es →
    cmd = .tpcCommit (D.cmd slot)

theorem Idle.of_onPrepare {s t : MenciusServer} (h : Idle s) {slot : Nat} {ballot : Int}
    (hrun : s.onPrepare slot ballot = .ok t) : Idle t ∧ t.applied = s.applied := by
  obtain ⟨inst, hget, hrun⟩ := Except.bind_eq_ok hrun
  simp only [getInstance] at hget
  split at hget
  · cases hget
    split at hrun
    · cases hrun
      exact ⟨h.of_setInstance rfl rfl, rfl⟩
    · cases hrun
  · cases hget

theorem Idle.of_onSuggest {s t : MenciusServer} (h : Idle s) {slot : Nat} {ballot : Int}
    {cmd : Marshallable} (hrun : s.onSuggest slot ballot cmd = .ok t) :
    Idle t ∧ t.applied = s.applied := by
  obtain ⟨inst, hget, hrun⟩ := Except.bind_eq_ok hrun
  simp only [getInstance] at hget
  split at hget
  · cases hget
    split at hrun
    · cases hrun
      have hset : Idle (s.setInstance slot { s.logs slot with
          maxBallotSeen := ballot, maxBallotSuggested := ballot, cmd := some cmd }) :=
        h.of_setInstance rfl rfl
      exact ⟨⟨hset.executed, hset.parses, hset.unexecuted, hset.minActive_le, hset.below,
        hset.decided⟩, rfl⟩
    · cases hrun
  · cases hget

theorem Idle.appliedSlots_handleAll {D : Decisions} {es : List Message} {s t : MenciusServer} (h : Idle s)
    (hslots : ∀ slot ∈ decidedSlots es, 1 ≤ slot ∧ slot ≤ D.m)
    (hcmd : ∀ slot cmd hasAppeared, Message.decide slot cmd hasAppeared ∈ es →
      cmd = .tpcCommit (D.cmd slot))
    (hnodup : (decidedSlots es).Nodup) (hnew : ∀ slot ∈ decidedSlots es, slot ∉ appliedSlots s)
    (hrun : handleAll s es = .ok t) : appliedSlots t = appliedSlots s ++ decidedSlots es := by
  induction es generalizing s with
  | nil =>
    cases hrun
    simp [decidedSlots]
  | cons e es ih =>
    obtain ⟨u, hu, hrest⟩ := Except.bind_eq_ok hrun
    have hcmd' : ∀ slot cmd hasAppeared, Message.decide slot cmd hasAppeared ∈ es →
        cmd = .tpcCommit (D.cmd slot) := fun slot cmd ha hmem => hcmd slot cmd ha (by simp [hmem])
    cases e with
    | prepare slot ballot =>
      obtain ⟨hidle, happ⟩ := h.of_onPrepare hu
      have hslots' : appliedSlots u = appliedSlots s := by simp only [appliedSlots, happ]
      exact hslots' ▸ ih hidle hslots hcmd' hnodup (hslots' ▸ hnew) hrest
    | suggest slot ballot cmd =>
      obtain ⟨hidle, happ⟩ := h.of_onSuggest hu
      have hslots' : appliedSlots u = appliedSlots s := by simp only [appliedSlots, happ]
      exact hslots' ▸ ih hidle hslots hcmd' hnodup (hslots' ▸ hnew) hrest
    | decide slot cmd hasAppeared =>
      have hc := hcmd slot cmd hasAppeared (by simp)
      subst hc
      have hmem : slot ∈ decidedSlots (.decide slot (.tpcCommit (D.cmd slot)) hasAppeared :: es) := by
        simp [decidedSlots]
      have hrange := hslots slot hmem
      obtain ⟨u', hu', hidle, happ⟩ := h.of_decide (D.parse_cmd slot hrange.1 hrange.2) hrange.1
        (hnew slot hmem) hasAppeared
      have : u' = u := Except.ok.inj (hu'.symm.trans hu)
      subst this
      have happ' : appliedSlots u' = appliedSlots s ++ [slot] := by simp [appliedSlots, happ]
      obtain ⟨hnot, hnodup'⟩ := List.nodup_cons.mp hnodup
      have hnew' : ∀ x ∈ decidedSlots es, x ∉ appliedSlots u' := by
        intro x hx
        rw [happ']
        have hne : x ≠ slot := fun heq => hnot (heq ▸ hx)
        have := hnew x (by simp [decidedSlots, hx])
        simp [this, hne]
      have := ih hidle (fun x hx => hslots x (by simp [decidedSlots, hx])) hcmd' hnodup' hnew' hrest
      simpa [happ', decidedSlots] using this

theorem Receives.appliedSlots_eq {D : Decisions} {es : List Message} {t : MenciusServer}
    (h : Receives D es) (hrun : handleAll {} es = .ok t) : appliedSlots t = decidedSlots es := by
  have hmem : ∀ slot ∈ decidedSlots es, 1 ≤ slot ∧ slot ≤ D.m := by
    intro slot hslot
    have := List.mem_range'_1.mp (h.perm.subset hslot)
    omega
  have hnodup : (decidedSlots es).Nodup := h.perm.nodup_iff.mpr (List.nodup_range' 1)
  exact idle_initial.appliedSlots_handleAll hmem h.decided hnodup (by simp [appliedSlots]) hrun

/-- `Decide` messages alone never stop the server. -/
theorem Idle.handleAll_decides {D : Decisions} {es : List Message} {s : MenciusServer} (h : Idle s)
    (honly : ∀ e ∈ es, ∃ slot hasAppeared, 1 ≤ slot ∧ slot ≤ D.m ∧
      e = .decide slot (.tpcCommit (D.cmd slot)) hasAppeared)
    (hnodup : (decidedSlots es).Nodup) (hnew : ∀ slot ∈ decidedSlots es, slot ∉ appliedSlots s) :
    ∃ t, handleAll s es = .ok t := by
  induction es generalizing s with
  | nil => exact ⟨s, rfl⟩
  | cons e es ih =>
    obtain ⟨slot, hasAppeared, hpos, hle, rfl⟩ := honly e (by simp)
    obtain ⟨hnot, hnodup'⟩ := List.nodup_cons.mp hnodup
    obtain ⟨u, hu, hidle, happ⟩ := h.of_decide (D.parse_cmd slot hpos hle) hpos
      (hnew slot (by simp [decidedSlots])) hasAppeared
    have hnew' : ∀ x ∈ decidedSlots es, x ∉ appliedSlots u := by
      intro x hx
      have hne : x ≠ slot := fun heq => hnot (heq ▸ hx)
      have := hnew x (by simp [decidedSlots, hx])
      simp only [appliedSlots] at this
      simp [appliedSlots, happ, this, hne]
    obtain ⟨t, ht⟩ := ih hidle (fun e he => honly e (by simp [he])) hnodup' hnew'
    refine ⟨t, ?_⟩
    simpa only [handleAll, handle, hu, bind, Except.bind] using ht

/-- Commands on one key stand in slot order in both lists. -/
def SameKeyInSlotOrder (D : Decisions) (l₁ l₂ : List Nat) : Prop :=
  ∀ i j, 1 ≤ i → i < j → j ≤ D.m → D.key i = D.key j →
    l₁.idxOf i < l₁.idxOf j ∧ l₂.idxOf i < l₂.idxOf j

/-- Both replicas execute every command once, and they execute the commands of each key in slot
order if and only if the `Decide` messages of each key reach both of them in slot order. -/
theorem execution_in_slot_order_iff {D : Decisions} {es₁ es₂ : List Message}
    {t₁ t₂ : MenciusServer} (h₁ : Receives D es₁) (h₂ : Receives D es₂)
    (hrun₁ : handleAll {} es₁ = .ok t₁) (hrun₂ : handleAll {} es₂ = .ok t₂) :
    (appliedSlots t₁).Perm (List.range' 1 D.m) ∧ (appliedSlots t₂).Perm (List.range' 1 D.m) ∧
    (SameKeyInSlotOrder D (appliedSlots t₁) (appliedSlots t₂) ↔
      SameKeyInSlotOrder D (decidedSlots es₁) (decidedSlots es₂)) := by
  have hs₁ := h₁.appliedSlots_eq hrun₁
  have hs₂ := h₂.appliedSlots_eq hrun₂
  rw [hs₁, hs₂]
  exact ⟨h₁.perm, h₂.perm, Iff.rfl⟩

def writeCommand (key clientCmd : BitVec 32) : TpcCommitCommand where
  cmd := { spVecPieceData := [{
    type := rwBenchmarkWTxn, clientId := 1, cmdIdInClient := clientCmd,
    input := [(0, .i32 key), (1, .i32 clientCmd)] }] }

def twoWrites : Decisions where
  m := 2
  cmd slot := writeCommand 7 (BitVec.ofNat 32 slot)
  parsed slot := ⟨rwBenchmarkWTxn, 7, BitVec.ofNat 32 slot, (1, BitVec.ofNat 32 slot), false⟩
  parse_cmd := fun _ _ _ => rfl

def decideOf (D : Decisions) (slot : Nat) : Message :=
  .decide slot (.tpcCommit (D.cmd slot)) (fun _ => false)

theorem twoWrites_receives {slots : List Nat} (h : slots.Perm [1, 2]) :
    Receives twoWrites (slots.map (decideOf twoWrites)) ∧
      ∃ t, handleAll {} (slots.map (decideOf twoWrites)) = .ok t := by
  have hdecided : decidedSlots (slots.map (decideOf twoWrites)) = slots := by
    clear h
    induction slots with
    | nil => rfl
    | cons slot slots ih => simp [decidedSlots, decideOf, ih]
  have hmem : ∀ slot ∈ slots, 1 ≤ slot ∧ slot ≤ 2 := by
    intro slot hslot
    have : slot = 1 ∨ slot = 2 := by simpa using h.subset hslot
    omega
  refine ⟨⟨hdecided.symm ▸ h, ?_⟩, ?_⟩
  · intro slot cmd hasAppeared hmem
    obtain ⟨x, -, hx⟩ := List.mem_map.mp hmem
    cases hx
    rfl
  · refine idle_initial.handleAll_decides (D := twoWrites) ?_ ?_ (by simp [appliedSlots])
    · intro e he
      obtain ⟨slot, hslot, rfl⟩ := List.mem_map.mp he
      exact ⟨slot, _, (hmem slot hslot).1, (hmem slot hslot).2, rfl⟩
    · rw [hdecided]
      exact h.nodup_iff.mpr (by decide)

theorem execution_in_slot_order_iff_twoWrites :
    ∃ t₁ t₂, handleAll {} ([1, 2].map (decideOf twoWrites)) = .ok t₁ ∧
      handleAll {} ([1, 2].map (decideOf twoWrites)) = .ok t₂ ∧
      SameKeyInSlotOrder twoWrites (appliedSlots t₁) (appliedSlots t₂) := by
  obtain ⟨hrec, t, ht⟩ := twoWrites_receives (List.Perm.refl [1, 2])
  refine ⟨t, t, ht, ht, (execution_in_slot_order_iff hrec hrec ht ht).2.2.mpr ?_⟩
  intro i j hi hij hj _
  have hj' : j ≤ 2 := hj
  have h1 : i = 1 := by omega
  have h2 : j = 2 := by omega
  subst h1 h2
  decide

/-- The second replica receives the two decisions in the opposite order and executes them so. -/
theorem two_writes_executed_in_opposite_orders :
    ∃ t₁ t₂, Receives twoWrites ([1, 2].map (decideOf twoWrites)) ∧
      Receives twoWrites ([2, 1].map (decideOf twoWrites)) ∧
      handleAll {} ([1, 2].map (decideOf twoWrites)) = .ok t₁ ∧
      handleAll {} ([2, 1].map (decideOf twoWrites)) = .ok t₂ ∧
      twoWrites.key 1 = twoWrites.key 2 ∧
      appliedSlots t₁ = [1, 2] ∧ appliedSlots t₂ = [2, 1] ∧
      ¬ SameKeyInSlotOrder twoWrites (appliedSlots t₁) (appliedSlots t₂) := by
  obtain ⟨hrec₁, t₁, ht₁⟩ := twoWrites_receives (List.Perm.refl [1, 2])
  obtain ⟨hrec₂, t₂, ht₂⟩ := twoWrites_receives (List.Perm.swap 1 2 [])
  have hs₁ : appliedSlots t₁ = [1, 2] := hrec₁.appliedSlots_eq ht₁
  have hs₂ : appliedSlots t₂ = [2, 1] := hrec₂.appliedSlots_eq ht₂
  refine ⟨t₁, t₂, hrec₁, hrec₂, ht₁, ht₂, rfl, hs₁, hs₂, fun h => ?_⟩
  have := (h 1 2 (by decide) (by decide) (by decide) rfl).2
  rw [hs₂] at this
  exact absurd this (by decide)

end Jetpack.Mencius
