import Mathlib

/-! Commands of the read/write workload as servers carry them, and the two parsers that read a
command's key, id and kind. -/

namespace Jetpack

inductive Res
  | success
  | reject
  | wrongLeader
deriving DecidableEq

/-- What stops a server: a `verify` of the source that does not hold, or the first element of an
empty vector being read. The check inside `RevoveryCandidates::push_back` has a name of its own. -/
inductive Fault
  | verify
  | emptyVector
  | recoverIdTaken
  deriving Repr, DecidableEq

theorem Except.bind_eq_ok {ε α β : Type} {x : Except ε α} {f : α → Except ε β} {b : β}
    (h : (x >>= f) = .ok b) : ∃ a, x = .ok a ∧ f a = .ok b := by
  cases x with
  | error e => cases h
  | ok a => exact ⟨a, rfl, h⟩

theorem Except.toOption_eq_some {ε α : Type} {x : Except ε α} {a : α} (h : x.toOption = some a) :
    x = .ok a := by
  cases x with
  | error e => cases h
  | ok b => exact congrArg _ (Option.some.inj h)

theorem Except.bind_ne_error {ε α β : Type} {x : Except ε α} {f : α → Except ε β} {e : ε}
    (hx : x ≠ .error e) (hf : ∀ a, x = .ok a → f a ≠ .error e) : (x >>= f) ≠ .error e := by
  cases x with
  | error e' => exact fun h => hx (by cases h; rfl)
  | ok a => exact hf a rfl

abbrev Key := BitVec 32

abbrev CmdId := BitVec 64

/-- A configuration of a partition; `viewId` is the Raft term it belongs to. -/
structure View where
  n : BitVec 32 := 0
  leaders : List (BitVec 32) := []
  viewId : BitVec 32 := 0
  timestamp : BitVec 64 := 0
  deriving Repr, DecidableEq

/-- The 64-bit value `-1` that stands for "no command id". -/
def noCmdId : CmdId := BitVec.allOnes 64

def combineInt32 (a b : BitVec 32) : CmdId :=
  (a.setWidth 64 <<< 31) ||| b.setWidth 64

inductive Value
  | unknown
  | i32 (v : BitVec 32)
  | i64 (v : BitVec 64)
  | double (bits : BitVec 64)
  | str (s : String)
  deriving Repr, DecidableEq

def Value.getI32 : Value → Except Fault (BitVec 32)
  | .i32 v => .ok v
  | _ => .error .verify

def rwBenchmarkWTxn : Nat := 100
def rwBenchmarkWTxn0 : Nat := 101
def rwBenchmarkRTxn : Nat := 200
def rwBenchmarkRTxn0 : Nat := 201
def rwBenchmarkFinish : Nat := 300
def rwBenchmarkNoop : Nat := 400

/-- One piece of a transaction. `input` is the map from variable ids to values. -/
structure TxPieceData where
  rootId : Nat := 0
  type : Nat := 0
  clientId : BitVec 32 := -1
  cmdIdInClient : BitVec 32 := -1
  ruleModeOnAndIsOriginalPathOnlyCommand : Bool := false
  input : List (Int × Value) := []
  deriving Repr, DecidableEq

structure VecPieceData where
  spVecPieceData : List TxPieceData
  isRecoveryCommand : Bool := false
  deriving Repr, DecidableEq

structure TpcCommitCommand where
  txId : Nat := 0
  ret : Int := -1
  cmd : VecPieceData
  deriving Repr, DecidableEq

/-- The command kinds that reach the pool; every other kind is `other`. -/
inductive Marshallable
  | container (piece : TxPieceData)
  | vecPiece (cmd : VecPieceData)
  | tpcCommit (cmd : TpcCommitCommand)
  | tpcBatch (cmds : List TpcCommitCommand)
  | other (kind : Nat)
  deriving Repr, DecidableEq

def VecPieceData.begin (v : VecPieceData) : Except Fault TxPieceData :=
  match v.spVecPieceData with
  | [] => .error .emptyVector
  | p :: _ => .ok p

/-- The piece both parsers look at; `none` for a command of another kind. -/
def Marshallable.vector0 : Marshallable → Except Fault (Option TxPieceData)
  | .tpcBatch [c] => some <$> c.cmd.begin
  | .tpcBatch _ => .error .verify
  | .tpcCommit c => some <$> c.cmd.begin
  | .vecPiece v => some <$> v.begin
  | .container p => .ok (some p)
  | .other _ => .ok none

structure PoolKeys where
  key : Key
  cmdId : CmdId
  isWrite : Bool
  deriving Repr, DecidableEq

def TxPieceData.isWrite (p : TxPieceData) : Bool :=
  p.type == rwBenchmarkWTxn || p.type == rwBenchmarkWTxn0

/-- `none` is the return value `false`. -/
def extractPoolKeys (cmd : Marshallable) : Except Fault (Option PoolKeys) := do
  match ← cmd.vector0 with
  | none => return none
  | some p =>
    match p.input.lookup 0 with
    | none => return none
    | some v =>
      let key ← v.getI32
      return some ⟨key, combineInt32 p.clientId p.cmdIdInClient, p.isWrite⟩

structure SimpleRWCommand where
  type : Nat
  key : Key
  value : BitVec 32
  cmdId : BitVec 32 × BitVec 32
  ruleModeOnAndIsOriginalPathOnlyCommand : Bool
  deriving Repr, DecidableEq

/-- `kv_map[i].get_i32()` on a copy of the input map: a missing entry is made, of unknown kind. -/
def TxPieceData.inputI32 (p : TxPieceData) (i : Int) : Except Fault (BitVec 32) :=
  ((p.input.lookup i).getD .unknown).getI32

/-- The constructor of `SimpleRWCommand` from a command. -/
def SimpleRWCommand.parse (cmd : Marshallable) : Except Fault SimpleRWCommand := do
  match ← cmd.vector0 with
  | none => throw .verify
  | some p =>
    let id := (p.clientId, p.cmdIdInClient)
    let tag := p.ruleModeOnAndIsOriginalPathOnlyCommand
    if p.type = rwBenchmarkRTxn ∨ p.type = rwBenchmarkRTxn0 then
      return ⟨rwBenchmarkRTxn, ← p.inputI32 0, 0, id, tag⟩
    else if p.type = rwBenchmarkWTxn ∨ p.type = rwBenchmarkWTxn0 then
      return ⟨rwBenchmarkWTxn, ← p.inputI32 0, ← p.inputI32 1, id, tag⟩
    else if p.type = rwBenchmarkFinish then
      return ⟨p.type, ← p.inputI32 0, ← p.inputI32 1, id, tag⟩
    else if p.type = rwBenchmarkNoop then
      return ⟨p.type, ← p.inputI32 0, 0, id, tag⟩
    else throw .verify

def SimpleRWCommand.isWrite (c : SimpleRWCommand) : Bool :=
  c.type == rwBenchmarkWTxn || c.type == rwBenchmarkWTxn0

theorem combineInt32_lt (a b : BitVec 32) : (combineInt32 a b).toNat < 2 ^ 63 := by
  have ha : a.toNat < 2 ^ 32 := a.isLt
  have hb : b.toNat < 2 ^ 32 := b.isLt
  have hshift : a.toNat <<< 31 < 2 ^ 63 := by
    rw [Nat.shiftLeft_eq]
    omega
  simp only [combineInt32, BitVec.toNat_or, BitVec.toNat_shiftLeft, BitVec.toNat_setWidth]
  refine Nat.or_lt_two_pow ?_ ?_
  · rw [Nat.mod_eq_of_lt (by omega : a.toNat < 2 ^ 64), Nat.mod_eq_of_lt (by omega)]
    exact hshift
  · rw [Nat.mod_eq_of_lt (by omega)]
    omega

/-- Command ids use 63 bits, so the sentinel `-1` is never one of them. -/
theorem combineInt32_ne_noCmdId (a b : BitVec 32) : combineInt32 a b ≠ noCmdId := by
  intro h
  have hlt := combineInt32_lt a b
  rw [h] at hlt
  exact absurd hlt (by decide)

theorem extractPoolKeys_cmdId_ne {cmd : Marshallable} {k : PoolKeys}
    (h : extractPoolKeys cmd = .ok (some k)) : k.cmdId ≠ noCmdId := by
  obtain ⟨p, -, h⟩ := Except.bind_eq_ok h
  cases p with
  | none => cases h
  | some p =>
    dsimp only at h
    split at h
    · cases h
    obtain ⟨key, -, h⟩ := Except.bind_eq_ok h
    cases h
    exact combineInt32_ne_noCmdId _ _

theorem Value.getI32_ne_recoverIdTaken (v : Value) : v.getI32 ≠ .error .recoverIdTaken := by
  cases v <;> simp [Value.getI32]

theorem VecPieceData.begin_ne_recoverIdTaken (v : VecPieceData) :
    (some <$> v.begin) ≠ .error .recoverIdTaken := by
  unfold VecPieceData.begin
  split <;> simp [Functor.map, Except.map]

theorem Marshallable.vector0_ne_recoverIdTaken (cmd : Marshallable) :
    cmd.vector0 ≠ .error .recoverIdTaken := by
  unfold Marshallable.vector0
  split <;> first | exact VecPieceData.begin_ne_recoverIdTaken _ | simp

theorem extractPoolKeys_ne_recoverIdTaken (cmd : Marshallable) :
    extractPoolKeys cmd ≠ .error .recoverIdTaken := by
  refine Except.bind_ne_error cmd.vector0_ne_recoverIdTaken (fun p _ => ?_)
  cases p with
  | none => exact fun h => by cases h
  | some p =>
    dsimp only
    split
    · exact fun h => by cases h
    · exact Except.bind_ne_error (Value.getI32_ne_recoverIdTaken _) (fun _ _ h => by cases h)

theorem SimpleRWCommand.parse_ne_recoverIdTaken (cmd : Marshallable) :
    SimpleRWCommand.parse cmd ≠ .error .recoverIdTaken := by
  refine Except.bind_ne_error cmd.vector0_ne_recoverIdTaken (fun p _ => ?_)
  have hin : ∀ (q : TxPieceData) (i : Int), q.inputI32 i ≠ .error .recoverIdTaken :=
    fun q i => Value.getI32_ne_recoverIdTaken _
  cases p with
  | none => exact fun h => by cases h
  | some p =>
    dsimp only
    split
    · exact Except.bind_ne_error (hin p 0) (fun _ _ h => by cases h)
    split
    · exact Except.bind_ne_error (hin p 0) (fun _ _ => Except.bind_ne_error (hin p 1) (fun _ _ h => by cases h))
    split
    · exact Except.bind_ne_error (hin p 0) (fun _ _ => Except.bind_ne_error (hin p 1) (fun _ _ h => by cases h))
    split
    · exact Except.bind_ne_error (hin p 0) (fun _ _ h => by cases h)
    · exact fun h => by cases h

end Jetpack
