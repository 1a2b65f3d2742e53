import Jetpack.Marshal.Values

/-! Command trees on the wire. A command is written inside another one through a deputy, which
puts the number of its kind first; the reader makes an object of that kind with the registered
initializer and lets it read the rest. Recursion and the loop over variables are bounded by
fuel. -/

namespace Jetpack.Marshal

open Decoding

structure ViewData where
  view : View
  partitionId : BitVec 32 := 0
  deriving Repr, DecidableEq

mutual

inductive Command
  | tpcPrepare (txId : BitVec 64) (ret : BitVec 32) (cmd : Command)
  | tpcCommit (c : TpcCommitCommand)
  | tpcBatch (cmds : List TpcCommitCommand)
  | vecPiece (pieces : List SimpleCommand) (timeSentFromClient : BitVec 64)
      (isRecoveryCommand : BitVec 8)
  | recVec (keys : List Key)
  | viewData (v : ViewData)
  | keyCmdBatch (keys : List Key) (commands : List Command)
  | keyCmdIdBatch (keys : List Key) (cmdIds : List CmdId)

inductive TpcCommitCommand
  | mk (txId : BitVec 64) (ret : BitVec 32) (cmd : Command) (term : BitVec 64)
      (viewData : Option ViewData)

end

inductive Kind
  | tpcPrepare
  | tpcCommit
  | vecPiece
  | tpcBatch
  | recVec
  | viewData
  | keyCmdBatch
  | keyCmdIdBatch
  deriving Repr, DecidableEq

def Kind.code : Kind → BitVec 32
  | .tpcPrepare => 4
  | .tpcCommit => 5
  | .vecPiece => 6
  | .tpcBatch => 11
  | .recVec => 13
  | .viewData => 14
  | .keyCmdBatch => 15
  | .keyCmdIdBatch => 16

def getInitializer (code : BitVec 32) : Option Kind :=
  [Kind.tpcPrepare, .tpcCommit, .vecPiece, .tpcBatch, .recVec, .viewData, .keyCmdBatch,
    .keyCmdIdBatch].find? (·.code == code)

@[simp]
theorem getInitializer_code (k : Kind) : getInitializer k.code = some k := by
  cases k <;> rfl

def Command.kind : Command → Kind
  | .tpcPrepare .. => .tpcPrepare
  | .tpcCommit _ => .tpcCommit
  | .tpcBatch _ => .tpcBatch
  | .vecPiece .. => .vecPiece
  | .recVec _ => .recVec
  | .viewData _ => .viewData
  | .keyCmdBatch .. => .keyCmdBatch
  | .keyCmdIdBatch .. => .keyCmdIdBatch

variable (p : Primitives)

def int32Size (n : Nat) : BitVec 32 := BitVec.ofNat 32 n

def putViewData (v : ViewData) : Bytes :=
  p.i32.put v.view.n ++ (p.u32.put v.view.viewId ++ (p.u64.put v.view.timestamp ++
    (p.i32.put (int32Size v.view.leaders.length) ++ ((v.view.leaders.map p.i32.put).flatten ++
    p.u32.put v.partitionId))))

def putIdEntries (keys : List Key) (cmdIds : List CmdId) : List Bytes :=
  (keys.zip cmdIds).map fun e => p.i32.put e.1 ++ p.u64.put e.2

mutual

def Command.toMarshal : Command → Option Bytes
  | .tpcPrepare txId ret cmd => do
    let md ← cmd.toMarshal
    return p.u64.put txId ++ (p.i32.put ret ++ (p.i32.put cmd.kind.code ++ md))
  | .tpcCommit c => c.toMarshal
  | .tpcBatch cmds => do
    guard ((BitVec.ofNat 32 cmds.length).toNat = cmds.length)
    let bodies ← commitsToMarshal cmds
    return p.u32.put (BitVec.ofNat 32 cmds.length) ++ bodies.flatten
  | .vecPiece pieces timeSent isRecovery => do
    let bodies ← pieces.mapM (putSimpleCommand p)
    return p.i32.put (int32Size pieces.length) ++ (bodies.flatten ++
      (p.double.put timeSent ++ p.i8.put isRecovery))
  | .recVec keys => some (p.i32.put (int32Size keys.length) ++ (keys.map p.i32.put).flatten)
  | .viewData v => some (putViewData p v)
  | .keyCmdBatch keys commands => do
    guard (keys.length = commands.length)
    let sz := int32Size commands.length
    let entries ← entriesToMarshal sz.toInt.toNat keys commands
    return p.i32.put sz ++ entries.flatten
  | .keyCmdIdBatch keys cmdIds => do
    guard (keys.length = cmdIds.length)
    let sz := int32Size keys.length
    return p.i32.put sz ++ ((putIdEntries p keys cmdIds).take sz.toInt.toNat).flatten

def TpcCommitCommand.toMarshal : TpcCommitCommand → Option Bytes
  | ⟨txId, ret, cmd, term, viewData⟩ => do
    let md ← cmd.toMarshal
    return p.u64.put txId ++ (p.i32.put ret ++ (p.i64.put term ++ (p.i32.put cmd.kind.code ++
      (md ++ match viewData with
        | none => p.i8.put 0
        | some v => p.i8.put 1 ++ (p.i32.put Kind.viewData.code ++ putViewData p v)))))

def commitsToMarshal : List TpcCommitCommand → Option (List Bytes)
  | [] => some []
  | c :: cmds => do
    let body ← c.toMarshal
    let bodies ← commitsToMarshal cmds
    return body :: bodies

/-- The first entries of a batch, as many as its count says. -/
def entriesToMarshal : Nat → List Key → List Command → Option (List Bytes)
  | n + 1, k :: keys, c :: commands => do
    let md ← c.toMarshal
    let entries ← entriesToMarshal n keys commands
    return (p.i32.put k ++ (p.i32.put c.kind.code ++ md)) :: entries
  | _, _, _ => some []

end

/-- A loop that pushes back as many elements as a count says, none if it is negative. -/
def getCounted {α : Type} (element : Parser α) : Parser (List α) := do
  let sz ← p.i32.get
  getMany element sz.toInt.toNat

/-- The same after `resize` or `reserve`, which throws on a negative count. -/
def getResized {α : Type} (element : Parser α) : Parser (List α) := do
  let sz ← p.i32.get
  if sz.toInt < 0 then failure else getMany element sz.toInt.toNat

def getViewData : Parser ViewData := do
  let n ← p.i32.get
  let viewId ← p.u32.get
  let timestamp ← p.u64.get
  let leaders ← getResized p p.i32.get
  let partitionId ← p.u32.get
  return ⟨⟨n, leaders, viewId, timestamp⟩, partitionId⟩

/-- `FromMarshal` of a commit command; the view is cast to `ViewData`. -/
def getTpcCommit (deputy : Parser Command) : Parser TpcCommitCommand := do
  let txId ← p.u64.get
  let ret ← p.i32.get
  let term ← p.i64.get
  let cmd ← deputy
  let hasViewData ← p.i8.get
  if hasViewData = 0 then
    return ⟨txId, ret, cmd, term, none⟩
  else
    let view ← deputy
    return ⟨txId, ret, cmd, term, match view with
      | .viewData v => some v
      | _ => none⟩

def getVecPiece (fuel : Nat) : Parser Command := do
  let pieces ← getCounted p (getSimpleCommand p fuel)
  let timeSent ← p.double.get
  let isRecovery ← p.i8.get
  return .vecPiece pieces timeSent isRecovery

def getRecVec : Parser Command := do
  let keys ← getCounted p p.i32.get
  return .recVec keys

def getDeputy (body : Kind → Parser Command) : Parser Command := do
  let code ← p.i32.get
  match getInitializer code with
  | some k => body k
  | none => failure

/-- `FromMarshal` of an object of the given kind, made by its initializer. -/
def fromMarshal : Nat → Kind → Parser Command
  | 0, _ => failure
  | fuel + 1, kind =>
    let deputy := getDeputy p (fromMarshal fuel)
    match kind with
    | .tpcPrepare => do
      let txId ← p.u64.get
      let ret ← p.i32.get
      let cmd ← deputy
      return .tpcPrepare txId ret cmd
    | .tpcCommit => do
      let c ← getTpcCommit p deputy
      return .tpcCommit c
    | .tpcBatch => do
      let size ← p.u32.get
      let cmds ← getMany (getTpcCommit p deputy) size.toNat
      return .tpcBatch cmds
    | .vecPiece => getVecPiece p fuel
    | .recVec => getRecVec p
    | .viewData => do
      let v ← getViewData p
      return .viewData v
    | .keyCmdBatch => do
      let entries ← getResized p (do
        let k ← p.i32.get
        let cmd ← deputy
        return (k, cmd))
      return .keyCmdBatch (entries.map Prod.fst) (entries.map Prod.snd)
    | .keyCmdIdBatch => do
      let entries ← getResized p (do
        let k ← p.i32.get
        let id ← p.u64.get
        return (k, id))
      return .keyCmdIdBatch (entries.map Prod.fst) (entries.map Prod.snd)

end Jetpack.Marshal
