import Jetpack.RecoveryQuorum

/-! The fields a pool reads from a command are those of the parsed command, and the id it keeps
can be taken apart again. -/

namespace Jetpack

def getInt32 (a : CmdId) : BitVec 32 × BitVec 32 :=
  ((a >>> 31).setWidth 32, (a &&& (1 <<< 31 - 1)).setWidth 32)

theorem combineInt32_toNat {a b : BitVec 32} (hb : b.toNat < 2 ^ 31) :
    (combineInt32 a b).toNat = a.toNat * 2 ^ 31 + b.toNat := by
  have ha : a.toNat < 2 ^ 32 := a.isLt
  have hshift : a.toNat <<< 31 = a.toNat * 2 ^ 31 := Nat.shiftLeft_eq _ _
  have hor : a.toNat <<< 31 ||| b.toNat = a.toNat <<< 31 + b.toNat :=
    (Nat.shiftLeft_add_eq_or_of_lt hb a.toNat).symm
  simp only [combineInt32, BitVec.toNat_or, BitVec.toNat_shiftLeft, BitVec.toNat_setWidth]
  rw [Nat.mod_eq_of_lt (by omega : a.toNat < 2 ^ 64), Nat.mod_eq_of_lt (by omega : b.toNat < 2 ^ 64),
    Nat.mod_eq_of_lt (by omega), hor, hshift]

theorem getInt32_toNat (a : CmdId) :
    (getInt32 a).1.toNat = a.toNat / 2 ^ 31 % 2 ^ 32 ∧
    (getInt32 a).2.toNat = a.toNat % 2 ^ 31 := by
  constructor
  · simp only [getInt32, BitVec.toNat_setWidth, BitVec.toNat_ushiftRight, Nat.shiftRight_eq_div_pow]
  · have hmask : (1 <<< 31 - 1 : CmdId).toNat = 2 ^ 31 - 1 := by decide
    have hand : a.toNat &&& (2 ^ 31 - 1) = a.toNat % 2 ^ 31 := Nat.and_two_pow_sub_one_eq_mod _ 31
    simp only [getInt32, BitVec.toNat_setWidth, BitVec.toNat_and]
    rw [hmask, hand]
    omega

theorem getInt32_combineInt32 {a b : BitVec 32} (ha : a.toNat < 2 ^ 31) (hb : b.toNat < 2 ^ 31) :
    getInt32 (combineInt32 a b) = (a, b) := by
  have hc := combineInt32_toNat (a := a) hb
  obtain ⟨hfst, hsnd⟩ := getInt32_toNat (combineInt32 a b)
  rw [hc] at hfst hsnd
  have ea : (getInt32 (combineInt32 a b)).1 = a := BitVec.eq_of_toNat_eq (by omega)
  have eb : (getInt32 (combineInt32 a b)).2 = b := BitVec.eq_of_toNat_eq (by omega)
  exact Prod.ext ea eb

namespace SimpleRWCommand

theorem parse_ok {cmd : Marshallable} {c : SimpleRWCommand} (h : parse cmd = .ok c) :
    ∃ p, cmd.vector0 = .ok (some p) ∧ p.inputI32 0 = .ok c.key ∧
      c.cmdId = (p.clientId, p.cmdIdInClient) ∧ c.isWrite = p.isWrite := by
  obtain ⟨o, ho, h⟩ := Except.bind_eq_ok h
  cases o with
  | none => cases h
  | some p =>
    refine ⟨p, ho, ?_⟩
    dsimp only at h
    split_ifs at h with hread hwrite hfinish hnoop
    · obtain ⟨key, hkey, h⟩ := Except.bind_eq_ok h
      cases h
      have hkind : (rwBenchmarkRTxn == rwBenchmarkWTxn || rwBenchmarkRTxn == rwBenchmarkWTxn0)
          = p.isWrite := by
        rcases hread with ht | ht <;> simp [TxPieceData.isWrite, ht, rwBenchmarkRTxn,
          rwBenchmarkRTxn0, rwBenchmarkWTxn, rwBenchmarkWTxn0]
      exact ⟨hkey, rfl, hkind⟩
    · obtain ⟨key, hkey, h⟩ := Except.bind_eq_ok h
      obtain ⟨value, -, h⟩ := Except.bind_eq_ok h
      cases h
      have hkind : (rwBenchmarkWTxn == rwBenchmarkWTxn || rwBenchmarkWTxn == rwBenchmarkWTxn0)
          = p.isWrite := by
        rcases hwrite with ht | ht <;> simp [TxPieceData.isWrite, ht]
      exact ⟨hkey, rfl, hkind⟩
    · obtain ⟨key, hkey, h⟩ := Except.bind_eq_ok h
      obtain ⟨value, -, h⟩ := Except.bind_eq_ok h
      cases h
      exact ⟨hkey, rfl, rfl⟩
    · obtain ⟨key, hkey, h⟩ := Except.bind_eq_ok h
      cases h
      exact ⟨hkey, rfl, rfl⟩

end SimpleRWCommand

/-- The map access of the constructor succeeds only on an entry of the map, so the lookup of the
extractor finds the same one. -/
theorem TxPieceData.inputI32_ok {p : TxPieceData} {i : Int} {key : BitVec 32}
    (h : p.inputI32 i = .ok key) : ∃ v, p.input.lookup i = some v ∧ v.getI32 = .ok key := by
  unfold inputI32 at h
  cases hv : p.input.lookup i with
  | none =>
    rw [hv] at h
    cases h
  | some v =>
    rw [hv] at h
    exact ⟨v, rfl, h⟩

theorem getCmdID_parse {cmd : Marshallable} {c : SimpleRWCommand}
    (h : SimpleRWCommand.parse cmd = .ok c) : getCmdID (some cmd) = .ok c.cmdId := by
  obtain ⟨p, hp, -⟩ := SimpleRWCommand.parse_ok h
  match cmd, hp, h with
  | .tpcBatch [tpc], _, h =>
    have hone : SimpleRWCommand.parse (.tpcCommit tpc) = .ok c := h
    simp only [getCmdID, hone]
    rfl
  | .tpcCommit _, _, h | .vecPiece _, _, h | .container _, _, h | .other _, _, h =>
    simp only [getCmdID, h]
    rfl

theorem extractPoolKeys_parse {cmd : Marshallable} {c : SimpleRWCommand}
    (h : SimpleRWCommand.parse cmd = .ok c) :
    extractPoolKeys cmd = .ok (some ⟨c.key, combineInt32 c.cmdId.1 c.cmdId.2, c.isWrite⟩) ∧
      getCombinedCmdID (some cmd) = .ok (combineInt32 c.cmdId.1 c.cmdId.2) ∧
      ∀ a b : BitVec 32, a.toNat < 2 ^ 31 → b.toNat < 2 ^ 31 →
        getInt32 (combineInt32 a b) = (a, b) := by
  obtain ⟨p, hp, hkey, hid, hwrite⟩ := SimpleRWCommand.parse_ok h
  obtain ⟨v, hv, hvkey⟩ := TxPieceData.inputI32_ok hkey
  have hextract : extractPoolKeys cmd
      = .ok (some ⟨c.key, combineInt32 p.clientId p.cmdIdInClient, p.isWrite⟩) := by
    simp only [extractPoolKeys, hp, hv, hvkey, bind, Except.bind, pure, Except.pure]
  have hcombined : getCombinedCmdID (some cmd) = .ok (combineInt32 c.cmdId.1 c.cmdId.2) := by
    simp only [getCombinedCmdID, getCmdID_parse h]
    rfl
  rw [hid, hwrite]
  rw [hid] at hcombined
  exact ⟨hextract, hcombined, fun a b ha hb => getInt32_combineInt32 ha hb⟩

def oneWriteBatch : Marshallable :=
  let piece : TxPieceData :=
    { type := rwBenchmarkWTxn, clientId := 3, cmdIdInClient := 4,
      input := [(0, .i32 7), (1, .i32 9)] }
  .tpcBatch [{ cmd := ⟨[piece], false⟩ }]

theorem extractPoolKeys_parse_batch :
    SimpleRWCommand.parse oneWriteBatch = .ok ⟨rwBenchmarkWTxn, 7, 9, (3, 4), false⟩ ∧
      extractPoolKeys oneWriteBatch = .ok (some ⟨7, combineInt32 3 4, true⟩) ∧
      getCombinedCmdID (some oneWriteBatch) = .ok (combineInt32 3 4) ∧
      ∀ a b : BitVec 32, a.toNat < 2 ^ 31 → b.toNat < 2 ^ 31 →
        getInt32 (combineInt32 a b) = (a, b) := by
  have hparse : SimpleRWCommand.parse oneWriteBatch = .ok ⟨rwBenchmarkWTxn, 7, 9, (3, 4), false⟩ := by
    rfl
  exact ⟨hparse, extractPoolKeys_parse hparse⟩

end Jetpack
