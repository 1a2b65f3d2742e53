import Jetpack.FastPath.Server

/-! Which attempts a replica accepts on the fast path. The pool admits a command when no write of
its key is counted, so a write is accepted beside the reads that the pool holds. -/

namespace Jetpack

def SimpleRWCommand.conflict (cmd1 cmd2 : Marshallable) : Except Fault Bool := do
  let c1 ← SimpleRWCommand.parse cmd1
  let c2 ← SimpleRWCommand.parse cmd2
  if c1.key ≠ c2.key then return false
  return c1.isWrite || c2.isWrite

theorem SimpleRWCommand.conflict_eq_true {cmd1 cmd2 : Marshallable} :
    SimpleRWCommand.conflict cmd1 cmd2 = .ok true ↔
      ∃ c1 c2, SimpleRWCommand.parse cmd1 = .ok c1 ∧ SimpleRWCommand.parse cmd2 = .ok c2 ∧
        c1.key = c2.key ∧ (c1.isWrite = true ∨ c2.isWrite = true) := by
  constructor
  · intro h
    obtain ⟨c1, h1, h⟩ := Except.bind_eq_ok h
    obtain ⟨c2, h2, h⟩ := Except.bind_eq_ok h
    refine ⟨c1, c2, h1, h2, ?_⟩
    split at h
    · cases h
    · next hkey =>
      have hor : (c1.isWrite || c2.isWrite) = true := by simpa [pure, Except.pure] using h
      exact ⟨not_not.mp hkey, by simpa using hor⟩
  · rintro ⟨c1, c2, h1, h2, hkey, hor⟩
    have hor' : (c1.isWrite || c2.isWrite) = true := by simpa using hor
    simp only [conflict, h1, h2]
    rw [← hor']
    simp [bind, Except.bind, hkey, pure, Except.pure]

theorem parse_agrees {cmd : Marshallable} {c : SimpleRWCommand} {k : PoolKeys}
    (hc : SimpleRWCommand.parse cmd = .ok c) (hk : extractPoolKeys cmd = .ok (some k)) :
    c.key = k.key ∧ c.isWrite = k.isWrite := by
  obtain ⟨o, ho, hc⟩ := Except.bind_eq_ok hc
  obtain ⟨o', ho', hk⟩ := Except.bind_eq_ok hk
  rw [ho] at ho'
  cases ho'
  cases o with
  | none => cases hk
  | some p =>
    dsimp only at hk hc
    split at hk
    · cases hk
    next v hv =>
    obtain ⟨key, hkey, hk⟩ := Except.bind_eq_ok hk
    cases hk
    have hinput : p.inputI32 0 = .ok key := by
      simp only [TxPieceData.inputI32, hv, Option.getD_some]
      exact hkey
    -- each kind reads its key from the first input
    simp only [hinput, TxPieceData.isWrite] at hc ⊢
    split at hc
    · next htype =>
      cases hc
      refine ⟨rfl, ?_⟩
      rcases htype with htype | htype <;> rw [htype] <;> rfl
    split at hc
    · next htype =>
      obtain ⟨_, hfirst, hc⟩ := Except.bind_eq_ok hc
      cases hfirst
      obtain ⟨_, -, hc⟩ := Except.bind_eq_ok hc
      cases hc
      refine ⟨rfl, ?_⟩
      rcases htype with htype | htype <;> rw [htype] <;> rfl
    split at hc
    · next htype =>
      obtain ⟨_, hfirst, hc⟩ := Except.bind_eq_ok hc
      cases hfirst
      obtain ⟨_, -, hc⟩ := Except.bind_eq_ok hc
      cases hc
      exact ⟨rfl, rfl⟩
    split at hc
    · cases hc
      exact ⟨rfl, rfl⟩
    · cases hc

namespace JetpackCommandPool

/-- Every entry is stored under the key, the id and the kind of access of its command. -/
def Keyed (p : JetpackCommandPool) : Prop :=
  ∀ key id e, (p.bucket key).candidates.lookup id = some e →
    extractPoolKeys e.cmd = .ok (some ⟨key, id, e.isWrite⟩)

variable {p p' : JetpackCommandPool}

theorem keyed_empty : Keyed {} := by
  intro key id e he
  cases he

theorem Keyed.pushBack {cmd : Marshallable} {r : Bool} (hp : p.Keyed)
    (h : p.pushBack .ready cmd = .ok (r, p')) : p'.Keyed := by
  obtain ⟨k, b, hk, hb, hbucket, -⟩ := pushBack_ok h
  intro key id e he
  rw [hbucket key] at he
  split at he
  · next hkey =>
    subst hkey
    rw [(RevoveryCandidates.pushBack_eq hb).1] at he
    by_cases hid : id = k.cmdId
    · subst hid
      rw [AList.lookup_insert] at he
      cases he
      exact hk
    · rw [AList.lookup_insert_ne hid] at he
      exact hp k.key id e he
  · exact hp key id e he

theorem Keyed.remove {cmd : Marshallable} {n : Int} (hp : p.Keyed)
    (h : p.remove cmd = .ok (n, p')) : p'.Keyed :=
  fun key id e he => hp key id e (lookup_of_remove h he)

end JetpackCommandPool

namespace FastPath

variable {cfg : Config} {s s' : Server} {cmd : Marshallable}

/-- The pool and the map as the handlers keep them: nothing in either in CURP mode, and nothing in
the map unless it is in use. -/
structure Recorded (cfg : Config) (s : Server) : Prop where
  wellFormed : s.commandPool.WellFormed
  keyed : s.commandPool.Keyed
  no_map : cfg.isCurpMode = true ∨ cfg.skipPoolForOriginalPath = false →
    ∀ key, s.inflight key = []
  no_pool : cfg.isCurpMode = true → s.commandPool = {}

theorem recorded_start : Recorded cfg {} :=
  ⟨JetpackCommandPool.wellFormed_empty, JetpackCommandPool.keyed_empty, fun _ _ => rfl, fun _ => rfl⟩

theorem Recorded.of_witness (hs : Recorded cfg s) (hp : s'.commandPool = s.commandPool)
    (hm : s'.inflightOriginalPath = s.inflightOriginalPath) : Recorded cfg s' := by
  refine ⟨hp ▸ hs.wellFormed, hp ▸ hs.keyed, fun hno key => ?_, fun hcurp => hp ▸ hs.no_pool hcurp⟩
  unfold Server.inflight
  rw [hm]
  exact hs.no_map hno key

theorem Recorded.pushBack {p : JetpackCommandPool} {r : Bool} (hs : Recorded cfg s)
    (hcurp : cfg.isCurpMode = false)
    (h : s.commandPool.pushBack s.jetpackStatus cmd = .ok (r, p)) :
    Recorded cfg { s with commandPool := p } := by
  obtain ⟨-, -, rfl⟩ | ⟨-, h⟩ := pushBack_status h
  · exact hs
  · exact ⟨hs.wellFormed.pushBack h, hs.keyed.pushBack h, hs.no_map,
      fun hc => absurd hc (by simp [hcurp])⟩

theorem Recorded.speculativeExecute {r : Bool} (hs : Recorded cfg s)
    (h : s.onRuleSpeculativeExecute cfg cmd = .ok (r, s')) : Recorded cfg s' := by
  obtain ⟨-, rfl, -⟩ | ⟨-, w, rfl⟩ | ⟨hcurp, -, -, p, hpush, rfl⟩ :=
    Server.onRuleSpeculativeExecute_ok h
  · exact hs
  · exact hs.of_witness rfl rfl
  · exact hs.pushBack hcurp hpush

theorem Recorded.placeHolder (hs : Recorded cfg s)
    (hsent : cfg.isCurpMode = true → needRecordConflictInOriginalPath cmd ≠ .ok true)
    (h : s.originalPathUnexecutedCmdConflictPlaceHolder cfg cmd = .ok s') : Recorded cfg s' := by
  obtain ⟨-, rfl⟩ | ⟨hneed, hskip, ⟨-, rfl⟩ | ⟨k, -, rfl⟩⟩ | ⟨hneed, -, r, p, hpush, rfl⟩ :=
    Server.placeHolder_ok h
  · exact hs
  · exact hs
  · have hcurp : ¬ cfg.isCurpMode = true := fun hc => hsent hc hneed
    refine ⟨hs.wellFormed, hs.keyed, fun hno => ?_, hs.no_pool⟩
    rcases hno with hc | hoff
    · exact absurd hc hcurp
    · rw [hskip] at hoff
      cases hoff
  · refine hs.pushBack (Bool.eq_false_iff.mpr fun hc => hsent hc hneed) hpush

theorem Recorded.gc (hs : Recorded cfg s) (h : s.ruleCommandPoolGC cfg cmd = .ok s') :
    Recorded cfg s' := by
  obtain ⟨-, w, rfl⟩ | ⟨hcurp, hskip, -, ⟨-, rfl⟩ | ⟨k, -, rfl⟩⟩ | ⟨hcurp, -, n, p, hremove, rfl⟩ :=
    Server.ruleCommandPoolGC_ok h
  · exact hs.of_witness rfl rfl
  · exact hs
  · have hpool : (s.eraseInflight k.key k.cmdId).commandPool = s.commandPool := by
      unfold Server.eraseInflight
      split <;> rfl
    refine ⟨hpool ▸ hs.wellFormed, hpool ▸ hs.keyed, fun hno => ?_, fun hc => hpool ▸ hs.no_pool hc⟩
    simp [hcurp, hskip] at hno
  · exact ⟨hs.wellFormed.remove hremove, hs.keyed.remove hremove, hs.no_map,
      fun hc => absurd hc (by simp [hcurp])⟩

theorem Recorded.step {e : Event} (hs : Recorded cfg s) (h : s.step cfg e = some s') :
    Recorded cfg s' := by
  unfold Server.step at h
  split at h
  · next hsent =>
    have h := Except.toOption_eq_some h
    cases e with
    | speculativeExecute cmd =>
      cases hexec : s.onRuleSpeculativeExecute cfg cmd with
      | error f => simp [Server.handle, hexec, Functor.map, Except.map] at h
      | ok x =>
        obtain ⟨r, t⟩ := x
        obtain rfl : t = s' := by simpa [Server.handle, hexec, Functor.map, Except.map] using h
        exact hs.speculativeExecute hexec
    | dispatch cmd =>
      refine hs.placeHolder (fun hcurp hneed => ?_) h
      simp [Event.sent, hcurp, hneed] at hsent
    | wrongLeader cmd =>
      cases h
      exact hs
    | applyLogs log => exact hs.gc h
    | resetPool =>
      cases h
      exact ⟨JetpackCommandPool.wellFormed_empty, JetpackCommandPool.keyed_empty, hs.no_map,
        fun _ => rfl⟩
    | setPaused b =>
      cases h
      exact hs.of_witness rfl rfl
    | setIsLeader b =>
      cases h
      exact hs.of_witness rfl rfl
    | setStatus st =>
      cases h
      exact hs.of_witness rfl rfl
  · cases h

theorem recorded_reachable (h : Transition.Reachable (Server.step cfg) {} s) : Recorded cfg s :=
  h.invariant (fun _ _ _ hs _ hstep => hs.step hstep) recorded_start

/-- No command other than `cmd` that the pool holds, or on the leader the map of the original path,
conflicts with it. -/
def ConflictFree (s : Server) (cmd : Marshallable) : Prop :=
  ∀ k, extractPoolKeys cmd = .ok (some k) →
    (∀ key id e, (s.commandPool.bucket key).candidates.lookup id = some e → id ≠ k.cmdId →
      SimpleRWCommand.conflict e.cmd cmd ≠ .ok true) ∧
    (s.isLeader = true → ∀ e ∈ s.inflight k.key, e.cmdId ≠ k.cmdId →
      (e.isWrite || k.isWrite) = false)

/-- `cmd` is a write that reaches the pool, where its key has no counted write and another command
that can be read. -/
def writesOverReads (cfg : Config) (s : Server) (cmd : Marshallable) : Bool :=
  !cfg.isCurpMode && !s.paused && s.jetpackStatus == .ready &&
    s.skipPoolConflict cfg cmd == .ok false &&
    match extractPoolKeys cmd with
    | .ok (some k) =>
      k.isWrite && (s.commandPool.bucket k.key).totalWrite == 0 &&
        (s.commandPool.bucket k.key).candidates.entries.any fun x =>
          x.1 != k.cmdId && (SimpleRWCommand.parse x.2.cmd).isOk
    | _ => false

theorem Except.isOk_iff {ε α : Type} {x : Except ε α} : x.isOk = true ↔ ∃ a, x = .ok a := by
  cases x <;> simp [Except.isOk, Except.toBool]

/-- The leader's check passes only if no other command of the map conflicts. -/
theorem inflight_free {k : PoolKeys} (hs : Recorded cfg s)
    (hleader : s.isLeader = true) (hk : extractPoolKeys cmd = .ok (some k))
    (h : s.skipPoolConflict cfg cmd = .ok false) {e : InflightOriginalEntry}
    (he : e ∈ s.inflight k.key) (hid : e.cmdId ≠ k.cmdId) : (e.isWrite || k.isWrite) = false := by
  cases hskip : cfg.skipPoolForOriginalPath with
  | false =>
    rw [hs.no_map (.inr hskip)] at he
    cases he
  | true =>
    unfold Server.skipPoolConflict at h
    rw [hskip, hleader, Bool.and_self, if_pos rfl] at h
    unfold Server.conflictWithOriginalUnexecutedLog at h
    split at h
    · next hempty =>
      have hnone : s.inflightOriginalPath.entries = [] := by simpa [hleader] using hempty
      simp [Server.inflight, AList.lookup, hnone] at he
    · rw [hk] at h
      have hany : ((s.inflight k.key).any fun e =>
          e.cmdId != k.cmdId && (e.isWrite || k.isWrite)) = false := by
        simpa [bind, Except.bind, pure, Except.pure] using h
      have hnot := List.any_eq_false.mp hany e he
      simpa [hid] using hnot

theorem not_write_of_stored {p : JetpackCommandPool} {key : Key} {id : CmdId} {e : Entry}
    (hp : p.WellFormed) (hzero : (p.bucket key).totalWrite = 0)
    (he : (p.bucket key).candidates.lookup id = some e) : e.isWrite = false := by
  cases hw : e.isWrite with
  | false => rfl
  | true =>
    have hstored : (p.bucket key).candidates.lookup id = some ⟨e.cmd, true⟩ := by rw [he, ← hw]
    have hone := RevoveryCandidates.one_le_storedWrites hstored
    have hle := (hp key).writes_le
    omega

theorem not_conflictFree_of_write {k : PoolKeys} {id : CmdId} {e : Entry} {c : SimpleRWCommand}
    (hkeyed : s.commandPool.Keyed) (hk : extractPoolKeys cmd = .ok (some k)) (hw : k.isWrite = true)
    (hc : SimpleRWCommand.parse cmd = .ok c)
    (he : (s.commandPool.bucket k.key).candidates.lookup id = some e) (hid : id ≠ k.cmdId)
    (hread : (SimpleRWCommand.parse e.cmd).isOk = true) : ¬ ConflictFree s cmd := by
  intro hfree
  obtain ⟨c', hc'⟩ := Except.isOk_iff.mp hread
  have hown := parse_agrees hc hk
  have hother := parse_agrees hc' (hkeyed k.key id e he)
  refine (hfree k hk).1 k.key id e he hid (SimpleRWCommand.conflict_eq_true.mpr ?_)
  refine ⟨c', c, hc', hc, ?_, .inr ?_⟩
  · rw [hother.1, hown.1]
  · rw [hown.2, hw]

/-- An admitted command conflicts with stored commands only as a write with reads. -/
theorem conflictFree_of_admitted {k : PoolKeys} (hs : Recorded cfg s)
    (hk : extractPoolKeys cmd = .ok (some k)) (hskip : s.skipPoolConflict cfg cmd = .ok false)
    (hzero : (s.commandPool.bucket k.key).totalWrite = 0)
    (hreads : k.isWrite = true → ∀ id e,
      (s.commandPool.bucket k.key).candidates.lookup id = some e → id ≠ k.cmdId →
      (SimpleRWCommand.parse e.cmd).isOk = false) : ConflictFree s cmd := by
  intro k' hk'
  obtain rfl : k = k' := by
    rw [hk] at hk'
    cases hk'
    rfl
  refine ⟨fun key id e he hid hconflict => ?_, fun hleader e he hid => ?_⟩
  · obtain ⟨c', c, hc', hc, hkey, hor⟩ := SimpleRWCommand.conflict_eq_true.mp hconflict
    have hown := parse_agrees hc hk
    have hother := parse_agrees hc' (hs.keyed key id e he)
    obtain rfl : key = k.key := by rw [← hown.1, ← hkey, hother.1]
    have hstored := not_write_of_stored hs.wellFormed hzero he
    rw [hother.2, hown.2] at hor
    have hw : k.isWrite = true := hor.resolve_left (by simp [hstored])
    have hfail := hreads hw id e he hid
    rw [hc'] at hfail
    cases hfail
  · exact inflight_free hs hleader hk hskip he hid

theorem writesOverReads_iff {k : PoolKeys} (hcurp : cfg.isCurpMode = false)
    (hpaused : s.paused = false) (hready : s.jetpackStatus = .ready)
    (hskip : s.skipPoolConflict cfg cmd = .ok false) (hk : extractPoolKeys cmd = .ok (some k)) :
    writesOverReads cfg s cmd = true ↔
      k.isWrite = true ∧ (s.commandPool.bucket k.key).totalWrite = 0 ∧
        ∃ id e, (s.commandPool.bucket k.key).candidates.lookup id = some e ∧ id ≠ k.cmdId ∧
          (SimpleRWCommand.parse e.cmd).isOk = true := by
  have hlookup : ∀ (id : CmdId) (e : Entry),
      (⟨id, e⟩ : Sigma fun _ : CmdId => Entry) ∈ (s.commandPool.bucket k.key).candidates.entries ↔
        (s.commandPool.bucket k.key).candidates.lookup id = some e :=
    fun id e => (List.mem_dlookup_iff (s.commandPool.bucket k.key).candidates.nodupKeys).symm
  simp only [writesOverReads, hcurp, hpaused, hready, hskip, hk, Bool.not_false, Bool.true_and,
    Bool.and_eq_true, beq_iff_eq, beq_self_eq_true, List.any_eq_true, Sigma.exists, bne_iff_ne,
    hlookup, and_assoc]

theorem pushBack_admits {p p' : JetpackCommandPool} {k : PoolKeys} {r : Bool}
    (hk : extractPoolKeys cmd = .ok (some k)) (h : p.pushBack .ready cmd = .ok (r, p')) :
    (r = true ↔ (p.bucket k.key).totalWrite = 0) ∧
      (r = true → ∃ c, SimpleRWCommand.parse cmd = .ok c) := by
  obtain ⟨k', b, hk', -, -, hadmits⟩ := JetpackCommandPool.pushBack_ok h
  obtain rfl : k = k' := by
    rw [hk] at hk'
    cases hk'
    rfl
  refine ⟨hadmits, fun hr => ?_⟩
  unfold JetpackCommandPool.pushBack at h
  rw [if_neg (by decide)] at h
  obtain ⟨k', hkeys, h⟩ := Except.bind_eq_ok h
  obtain rfl : k = k' := by
    rw [JetpackCommandPool.keysOf_ok hkeys] at hk
    cases hk
    rfl
  obtain ⟨b, -, h⟩ := Except.bind_eq_ok h
  dsimp only at h
  rw [if_pos (hadmits.mp hr)] at h
  obtain ⟨c, hc, -⟩ := Except.bind_eq_ok h
  exact ⟨c, hc⟩

/-- An accepted command conflicts with no other command that the replica holds if and only if it is
not a write that reaches the pool beside stored reads. -/
theorem accepts_conflict_free (cfg : Config) (s s' : Server) (cmd : Marshallable) (accepted : Bool)
    (hreach : Transition.Reachable (Server.step cfg) {} s)
    (h : s.onRuleSpeculativeExecute cfg cmd = .ok (accepted, s')) :
    (accepted = true → ConflictFree s cmd) ↔ writesOverReads cfg s cmd = false := by
  have hs := recorded_reachable hreach
  obtain ⟨rfl, -, hrefused⟩ | ⟨hcurp, -⟩ | ⟨hcurp, hpaused, hskip, p, hpush, -⟩ :=
    Server.onRuleSpeculativeExecute_ok h
  · refine ⟨fun _ => ?_, fun _ hr => by cases hr⟩
    rcases hrefused with hpaused | hskip
    · simp [writesOverReads, hpaused]
    · simp [writesOverReads, hskip]
  · -- in CURP mode neither the pool nor the map holds a command
    have hfree : ConflictFree s cmd := by
      intro k hk
      refine ⟨fun key id e he => ?_, fun _ e he => ?_⟩
      · rw [hs.no_pool hcurp] at he
        cases he
      · rw [hs.no_map (.inl hcurp)] at he
        cases he
    refine ⟨fun _ => ?_, fun _ _ => hfree⟩
    simp [writesOverReads, hcurp]
  obtain ⟨hstatus, rfl, -⟩ | ⟨hready, hpush⟩ := pushBack_status hpush
  · refine ⟨fun _ => ?_, fun _ hr => by cases hr⟩
    simp [writesOverReads, hstatus]
  · obtain ⟨k, -, hk, -⟩ := JetpackCommandPool.pushBack_ok hpush
    obtain ⟨hadmits, hparse⟩ := pushBack_admits hk hpush
    have hiff := writesOverReads_iff hcurp hpaused hready hskip hk
    constructor
    · intro hfree
      refine Bool.eq_false_iff.mpr fun hover => ?_
      obtain ⟨hw, hzero, id, e, he, hid, hread⟩ := hiff.mp hover
      have hr := hadmits.mpr hzero
      obtain ⟨c, hc⟩ := hparse hr
      exact not_conflictFree_of_write hs.keyed hk hw hc he hid hread (hfree hr)
    · intro hnot hr
      refine conflictFree_of_admitted hs hk hskip (hadmits.mp hr) fun hw id e he hid => ?_
      refine Bool.eq_false_iff.mpr fun hread => ?_
      rw [hiff.mpr ⟨hw, hadmits.mp hr, id, e, he, hid, hread⟩] at hnot
      cases hnot

def readOfKey7 (cmdIdInClient : BitVec 32) : Marshallable :=
  .container { type := rwBenchmarkRTxn, clientId := 1, cmdIdInClient, input := [(0, .i32 7)] }

theorem accepts_conflict_free_second_read :
    ∃ s s', Transition.Reachable (Server.step ⟨false, false⟩) {} s ∧
      s.onRuleSpeculativeExecute ⟨false, false⟩ (readOfKey7 2) = .ok (true, s') ∧
      ConflictFree s (readOfKey7 2) := by
  have hreach : ∀ s, Server.step ⟨false, false⟩ {} (.speculativeExecute (readOfKey7 1)) = some s →
      Transition.Reachable (Server.step ⟨false, false⟩) {} s :=
    fun s hs => .single ⟨_, trivial, hs⟩
  refine ⟨_, _, hreach _ rfl, rfl, ?_⟩
  exact (accepts_conflict_free ⟨false, false⟩ _ _ _ true (hreach _ rfl) rfl).mpr (by decide +kernel) rfl

/-- The replica accepts a read of key 7 and, with that read still in its pool, a write of key 7. -/
theorem accepts_write_over_read :
    ∃ s s' e, Transition.Reachable (Server.step ⟨false, false⟩) {} s ∧
      s.onRuleSpeculativeExecute ⟨false, false⟩ (PoolOp.writeOfKey7 2) = .ok (true, s') ∧
      (s.commandPool.bucket 7).candidates.lookup (combineInt32 1 1) = some e ∧
      SimpleRWCommand.conflict e.cmd (PoolOp.writeOfKey7 2) = .ok true ∧
      ¬ ConflictFree s (PoolOp.writeOfKey7 2) := by
  have hreach : ∀ s, Server.step ⟨false, false⟩ {} (.speculativeExecute (readOfKey7 1)) = some s →
      Transition.Reachable (Server.step ⟨false, false⟩) {} s :=
    fun s hs => .single ⟨_, trivial, hs⟩
  refine ⟨_, _, ⟨readOfKey7 1, false⟩, hreach _ rfl, rfl, by decide +kernel, rfl, fun hfree => ?_⟩
  exact (hfree ⟨7, combineInt32 1 2, true⟩ rfl).1 7 (combineInt32 1 1) ⟨readOfKey7 1, false⟩
    (by decide +kernel) (by decide) rfl

end FastPath

end Jetpack
