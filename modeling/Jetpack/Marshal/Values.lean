import Jetpack.Library.Decoding
import Jetpack.Command

/-! The wire format of one piece of a transaction: its values, its input and its output. The
codecs of integers, strings and lengths are a parameter, and each undoes itself. An encoder
returns `none` where a `verify` of the source stops it. -/

namespace Jetpack.Marshal

open Decoding

structure Primitives where
  i8 : Codec (BitVec 8)
  i32 : Codec (BitVec 32)
  u32 : Codec (BitVec 32)
  i64 : Codec (BitVec 64)
  u64 : Codec (BitVec 64)
  double : Codec (BitVec 64)
  str : Codec String
  length : Codec Nat

/-- A `map<int32_t, V>`: the entries by ascending key. -/
@[ext]
structure KeyMap (V : Type) where
  entries : List (Key × V)
  sorted : entries.Pairwise (fun a b => a.1.toInt < b.1.toInt)
  deriving DecidableEq

section KeyMap

variable {V : Type}

def insertEntry (k : Key) (v : V) : List (Key × V) → List (Key × V)
  | [] => [(k, v)]
  | e :: es =>
    if k.toInt < e.1.toInt then (k, v) :: e :: es
    else if k = e.1 then e :: es
    else e :: insertEntry k v es

theorem mem_insertEntry {k : Key} {v : V} {es : List (Key × V)} {e : Key × V}
    (h : e ∈ insertEntry k v es) : e = (k, v) ∨ e ∈ es := by
  induction es with
  | nil => exact .inl (List.mem_singleton.mp h)
  | cons d es ih =>
    unfold insertEntry at h
    split_ifs at h
    · exact List.mem_cons.mp h
    · exact .inr h
    · rcases List.mem_cons.mp h with rfl | h
      · exact .inr List.mem_cons_self
      · exact (ih h).imp_right (List.mem_cons_of_mem d)

theorem insertEntry_sorted {k : Key} {v : V} {es : List (Key × V)}
    (h : es.Pairwise (fun a b => a.1.toInt < b.1.toInt)) :
    (insertEntry k v es).Pairwise (fun a b => a.1.toInt < b.1.toInt) := by
  induction es with
  | nil => exact List.pairwise_singleton _ _
  | cons d es ih =>
    obtain ⟨hd, hes⟩ := List.pairwise_cons.mp h
    unfold insertEntry
    split_ifs with hlt heq
    · refine List.pairwise_cons.mpr ⟨fun e he => ?_, h⟩
      rcases List.mem_cons.mp he with rfl | he
      · exact hlt
      · exact hlt.trans (hd e he)
    · exact h
    · refine List.pairwise_cons.mpr ⟨fun e he => ?_, ih hes⟩
      rcases mem_insertEntry he with rfl | he
      · have hne : k.toInt ≠ d.1.toInt := fun hk => heq (BitVec.eq_of_toInt_eq hk)
        show d.1.toInt < k.toInt
        omega
      · exact hd e he

theorem insertEntry_eq_append {k : Key} {v : V} {es : List (Key × V)}
    (h : ∀ e ∈ es, e.1.toInt < k.toInt) : insertEntry k v es = es ++ [(k, v)] := by
  induction es with
  | nil => rfl
  | cons d es ih =>
    have hd : d.1.toInt < k.toInt := h d List.mem_cons_self
    have hne : k ≠ d.1 := fun hk => by simp [hk] at hd
    rw [insertEntry, if_neg (by omega), if_neg hne,
      ih (fun e he => h e (List.mem_cons_of_mem d he)), List.cons_append]

namespace KeyMap

def empty : KeyMap V := ⟨[], List.Pairwise.nil⟩

def insert (m : KeyMap V) (e : Key × V) : KeyMap V :=
  ⟨insertEntry e.1 e.2 m.entries, insertEntry_sorted m.sorted⟩

def ofEntries (es : List (Key × V)) : KeyMap V :=
  es.foldl insert empty

theorem mem_of_mem_foldl_insert {m : KeyMap V} {es : List (Key × V)} {e : Key × V}
    (h : e ∈ (es.foldl insert m).entries) : e ∈ m.entries ∨ e ∈ es := by
  induction es generalizing m with
  | nil => exact .inl h
  | cons d es ih =>
    rcases ih h with h | h
    · rcases mem_insertEntry h with rfl | h
      · exact .inr List.mem_cons_self
      · exact .inl h
    · exact .inr (List.mem_cons_of_mem d h)

theorem mem_of_mem_ofEntries {es : List (Key × V)} {e : Key × V}
    (h : e ∈ (ofEntries es).entries) : e ∈ es :=
  (mem_of_mem_foldl_insert h).resolve_left (by simp [empty])

theorem foldl_insert_entries {m : KeyMap V} {es : List (Key × V)}
    (hes : es.Pairwise (fun a b => a.1.toInt < b.1.toInt))
    (h : ∀ d ∈ m.entries, ∀ e ∈ es, d.1.toInt < e.1.toInt) :
    (es.foldl insert m).entries = m.entries ++ es := by
  induction es generalizing m with
  | nil => simp
  | cons e es ih =>
    obtain ⟨he, hes⟩ := List.pairwise_cons.mp hes
    have happ : (m.insert e).entries = m.entries ++ [e] :=
      insertEntry_eq_append fun d hd => h d hd e List.mem_cons_self
    rw [List.foldl_cons, ih hes ?_, happ, List.append_assoc, List.singleton_append]
    intro d hd e' he'
    rw [happ, List.mem_append, List.mem_singleton] at hd
    rcases hd with hd | rfl
    · exact h d hd e' (List.mem_cons_of_mem e he')
    · exact he e' he'

/-- What was written in order is built again. -/
theorem ofEntries_entries (m : KeyMap V) : ofEntries m.entries = m :=
  KeyMap.ext (foldl_insert_entries m.sorted (by simp [empty]))

end KeyMap

end KeyMap

/-- `mdb::Value`; `ver` is the version of the row it was read from. -/
structure Value where
  ver : BitVec 64 := 0
  data : Jetpack.Value
  deriving Repr, DecidableEq

/-- The copy constructor and the assignment operator, which leave the version out. -/
def Value.copy (v : Value) : Value :=
  { v with ver := 0 }

variable (p : Primitives)

def putValue (v : Value) : Option Bytes :=
  match v.data with
  | .i32 x => some (p.u64.put v.ver ++ (p.i32.put 0 ++ p.i32.put x))
  | .i64 x => some (p.u64.put v.ver ++ (p.i32.put 1 ++ p.i64.put x))
  | .double x => some (p.u64.put v.ver ++ (p.i32.put 2 ++ p.double.put x))
  | .str x => some (p.u64.put v.ver ++ (p.i32.put 3 ++ p.str.put x))
  | .unknown => none

def getValue : Parser Value := do
  let ver ← p.u64.get
  let k ← p.i32.get
  if k = 0 then return ⟨ver, .i32 (← p.i32.get)⟩
  else if k = 1 then return ⟨ver, .i64 (← p.i64.get)⟩
  else if k = 2 then return ⟨ver, .double (← p.double.get)⟩
  else if k = 3 then return ⟨ver, .str (← p.str.get)⟩
  else return ⟨ver, .unknown⟩

variable {p}

theorem reads_value {v : Value} {b : Bytes} (h : putValue p v = some b) :
    Reads (fun _ => getValue p) b v := by
  obtain ⟨ver, data⟩ := v
  cases data with
  | unknown => cases h
  | i32 x =>
    cases h
    refine (p.u64.reads ver).bind ((p.i32.reads 0).bind ?_)
    simpa using p.i32.reads_map (fun y => (⟨ver, .i32 y⟩ : Value)) x
  | i64 x =>
    cases h
    refine (p.u64.reads ver).bind ((p.i32.reads 1).bind ?_)
    simpa using p.i64.reads_map (fun y => (⟨ver, .i64 y⟩ : Value)) x
  | double x =>
    cases h
    refine (p.u64.reads ver).bind ((p.i32.reads 2).bind ?_)
    simpa using p.double.reads_map (fun y => (⟨ver, .double y⟩ : Value)) x
  | str x =>
    cases h
    refine (p.u64.reads ver).bind ((p.i32.reads 3).bind ?_)
    simpa using p.str.reads_map (fun y => (⟨ver, .str y⟩ : Value)) x

section Workspace

variable (p)

/-- `TxWorkspace`: each key of `keys_` with its value in `values_`, if it is ready. What `values_`
holds for other keys is never written. -/
structure TxWorkspace where
  vars : KeyMap (Option Value)
  deriving DecidableEq

def putKeys (keys : List Key) : Bytes :=
  p.length.put keys.length ++ (keys.map p.i32.put).flatten

def getKeys : Parser (List Key) := do
  let n ← p.length.get
  getMany p.i32.get n

/-- The variables that are ready, and the sentinel `-1`. -/
def putVars : List (Key × Option Value) → Option Bytes
  | [] => some (p.i32.put (-1))
  | (_, none) :: vars => putVars vars
  | (k, some v) :: vars => do
    let value ← putValue p v
    let rest ← putVars vars
    return p.i32.put k ++ (value ++ rest)

def putWorkspace (ws : TxWorkspace) : Option Bytes := do
  let vars ← putVars p ws.vars.entries
  return putKeys p (ws.vars.entries.map Prod.fst) ++ vars

/-- The loop that reads variables until it meets a negative key. -/
def getVars : Nat → (Key → Option Value) → Parser (Key → Option Value)
  | 0, _ => failure
  | fuel + 1, values => do
    let k ← p.i32.get
    if 0 ≤ k.toInt then
      let v ← getValue p
      getVars fuel (Function.update values k (some v.copy))
    else
      return values

def getWorkspace (fuel : Nat) : Parser TxWorkspace := do
  let keys ← getKeys p
  let values ← getVars p fuel (fun _ => none)
  return ⟨KeyMap.ofEntries (keys.map fun k => (k, values k))⟩

def stored (values : Key → Option Value) : List (Key × Option Value) → Key → Option Value
  | [] => values
  | (_, none) :: vars => stored values vars
  | (k, some v) :: vars => stored (Function.update values k (some v.copy)) vars

/-- The variables survive: the loop does not take a key for the sentinel, and no version is lost. -/
def TxWorkspace.Faithful (ws : TxWorkspace) : Prop :=
  ∀ k v, (k, some v) ∈ ws.vars.entries → 0 ≤ k.toInt ∧ v.ver = 0

variable {p}

theorem Value.copy_eq_self_iff {v : Value} : v.copy = v ↔ v.ver = 0 := by
  constructor
  · intro h
    rw [← h]
    rfl
  · intro h
    obtain ⟨ver, data⟩ := v
    cases h
    rfl

theorem reads_keys (keys : List Key) : Reads (fun _ => getKeys p) (putKeys p keys) keys := by
  refine (p.length.reads keys.length).bind (Reads.getMany ?_)
  rw [List.forall₂_map_right_iff, List.forall₂_same]
  exact fun k _ => p.i32.reads k

theorem putVars_some {k : Key} {v : Value} {vars : List (Key × Option Value)} {b : Bytes}
    (h : putVars p ((k, some v) :: vars) = some b) :
    ∃ value rest, putValue p v = some value ∧ putVars p vars = some rest ∧
      b = p.i32.put k ++ (value ++ rest) := by
  obtain ⟨value, hvalue, h⟩ := Option.bind_eq_some_iff.mp h
  obtain ⟨rest, hrest, h⟩ := Option.bind_eq_some_iff.mp h
  exact ⟨value, rest, hvalue, hrest, (Option.some.inj h).symm⟩

theorem reads_vars {vars : List (Key × Option Value)} {b : Bytes} (h : putVars p vars = some b)
    (hnonneg : ∀ k v, (k, some v) ∈ vars → 0 ≤ k.toInt) (values : Key → Option Value) :
    Reads (fun n => getVars p n values) b (stored values vars) := by
  induction vars generalizing b values with
  | nil =>
    cases h
    generalize hk : (-1 : BitVec 32) = k
    have hneg : ¬ 0 ≤ k.toInt := by
      rw [← hk]
      decide
    have hinner : Reads (fun n => if 0 ≤ k.toInt then do
        let v ← getValue p
        getVars p n (Function.update values k (some v.copy)) else pure values) [] values := by
      simp only [if_neg hneg]
      exact Reads.pure values
    rw [← List.append_nil (p.i32.put k)]
    exact ((p.i32.reads k).bind hinner).succ rfl fun n => rfl
  | cons e vars ih =>
    have htail : ∀ k v, (k, some v) ∈ vars → 0 ≤ k.toInt :=
      fun k v hmem => hnonneg k v (List.mem_cons_of_mem e hmem)
    obtain ⟨k, _ | v⟩ := e
    · exact ih h htail values
    · obtain ⟨value, rest, hvalue, hrest, rfl⟩ := putVars_some h
      have hk : 0 ≤ k.toInt := hnonneg k v List.mem_cons_self
      have hinner : Reads (fun n => if 0 ≤ k.toInt then do
          let v ← getValue p
          getVars p n (Function.update values k (some v.copy)) else pure values) (value ++ rest)
          (stored values ((k, some v) :: vars)) := by
        simp only [if_pos hk]
        exact (reads_value hvalue).bind (ih hrest htail _)
      exact ((p.i32.reads k).bind hinner).succ rfl fun n => rfl

/-- Whatever the loop stores was there, or is a copy of a variable with a nonnegative key. -/
theorem getVars_sound {vars : List (Key × Option Value)} {b : Bytes}
    (h : putVars p vars = some b) {fuel : Nat} {rest r : Bytes} {values out : Key → Option Value}
    (hrun : (getVars p fuel values).run (b ++ rest) = some (out, r)) {k : Key} {v : Value}
    (hout : out k = some v) :
    values k = some v ∨ 0 ≤ k.toInt ∧ ∃ w, (k, some w) ∈ vars ∧ v = w.copy := by
  induction vars generalizing b fuel values with
  | nil =>
    cases h
    cases fuel with
    | zero => cases hrun
    | succ n =>
      rw [getVars, run_bind_of_eq (p.i32.get_put (-1) rest)] at hrun
      cases hrun
      exact .inl hout
  | cons e vars ih =>
    obtain ⟨j, _ | w⟩ := e
    · exact (ih h hrun).imp_right fun ⟨hk, w, hw, hv⟩ => ⟨hk, w, List.mem_cons_of_mem _ hw, hv⟩
    · obtain ⟨value, tail, hvalue, htail, rfl⟩ := putVars_some h
      cases fuel with
      | zero => cases hrun
      | succ n =>
        rw [List.append_assoc, getVars, run_bind_of_eq (p.i32.get_put j _)] at hrun
        split_ifs at hrun with hj
        · rw [List.append_assoc] at hrun
          obtain ⟨w', t, hget, hrun⟩ := run_bind_eq_some hrun
          obtain ⟨rfl, rfl⟩ := (reads_value hvalue).2 0 _ w' t hget
          rcases ih htail hrun with hold | ⟨hk, w, hw, hv⟩
          · by_cases hkj : k = j
            · subst hkj
              rw [Function.update_self] at hold
              exact .inr ⟨hj, w', List.mem_cons_self, (Option.some.inj hold).symm⟩
            · rw [Function.update_of_ne hkj] at hold
              exact .inl hold
          · exact .inr ⟨hk, w, List.mem_cons_of_mem _ hw, hv⟩
        · cases hrun
          exact .inl hout

theorem stored_of_not_mem {vars : List (Key × Option Value)} {k : Key}
    (h : ∀ e ∈ vars, e.1 ≠ k) (values : Key → Option Value) : stored values vars k = values k := by
  induction vars generalizing values with
  | nil => rfl
  | cons e vars ih =>
    have htail : ∀ d ∈ vars, d.1 ≠ k := fun d hd => h d (List.mem_cons_of_mem e hd)
    have he : e.1 ≠ k := h e List.mem_cons_self
    obtain ⟨j, _ | v⟩ := e
    · exact ih htail values
    · exact (ih htail _).trans (Function.update_of_ne he.symm _ _)

theorem stored_of_mem {vars : List (Key × Option Value)} {k : Key} {o : Option Value}
    (hsorted : vars.Pairwise (fun a b => a.1.toInt < b.1.toInt)) (h : (k, o) ∈ vars)
    {values : Key → Option Value} (hnone : values k = none) :
    stored values vars k = o.map Value.copy := by
  induction vars generalizing values with
  | nil => cases h
  | cons e vars ih =>
    obtain ⟨he, hvars⟩ := List.pairwise_cons.mp hsorted
    rcases List.mem_cons.mp h with rfl | htail
    · have hfresh : ∀ d ∈ vars, d.1 ≠ k := fun d hd heq => by
        have := he d hd
        simp [heq] at this
      cases o with
      | none => exact (stored_of_not_mem hfresh values).trans hnone
      | some v => exact (stored_of_not_mem hfresh _).trans (Function.update_self _ _ _)
    · have hne : k ≠ e.1 := fun heq => by
        have := he _ htail
        simp [heq] at this
      obtain ⟨j, _ | v⟩ := e
      · exact ih hvars htail hnone
      · exact ih hvars htail ((Function.update_of_ne hne _ _).trans hnone)

theorem map_stored {ws : TxWorkspace} (h : ws.Faithful) :
    (ws.vars.entries.map Prod.fst).map (fun k => (k, stored (fun _ => none) ws.vars.entries k)) =
      ws.vars.entries := by
  have hsame : ∀ e ∈ ws.vars.entries, (e.1, stored (fun _ => none) ws.vars.entries e.1) = e := by
    rintro ⟨k, o⟩ he
    rw [stored_of_mem ws.vars.sorted he rfl]
    cases o with
    | none => rfl
    | some v => rw [Option.map_some, Value.copy_eq_self_iff.mpr (h k v he).2]
  rw [List.map_map]
  exact (List.map_congr_left hsame).trans (List.map_id _)

theorem spec_workspace {ws : TxWorkspace} {b : Bytes} (h : putWorkspace p ws = some b) :
    Spec (fun n => getWorkspace p n) b ws ws.Faithful := by
  obtain ⟨vars, hvars, h⟩ := Option.bind_eq_some_iff.mp h
  cases h
  refine ⟨fun hgood => ?_, fun hbad fuel rest y r hrun heq => hbad fun k v hkv => ?_⟩
  · have hread := (reads_vars hvars (fun k v hkv => (hgood k v hkv).1) (fun _ => none)).map
      fun values => TxWorkspace.mk
        (KeyMap.ofEntries ((ws.vars.entries.map Prod.fst).map fun k => (k, values k)))
    rw [map_stored hgood, KeyMap.ofEntries_entries] at hread
    exact (reads_keys _).bind (f := fun n keys => do
      let values ← getVars p n (fun _ => none)
      return TxWorkspace.mk (KeyMap.ofEntries (keys.map fun k => (k, values k)))) hread
  · rw [List.append_assoc] at hrun
    obtain ⟨keys, t, hkeys, hrun⟩ := run_bind_eq_some hrun
    obtain ⟨rfl, rfl⟩ := (reads_keys _).2 fuel _ _ _ hkeys
    obtain ⟨values, t, hget, hrun⟩ := run_bind_eq_some hrun
    cases hrun
    have hmem : (k, some v) ∈ (KeyMap.ofEntries
        ((ws.vars.entries.map Prod.fst).map fun k => (k, values k))).entries := by
      rw [← heq] at hkv
      exact hkv
    obtain ⟨k', -, heq'⟩ := List.mem_map.mp (KeyMap.mem_of_mem_ofEntries hmem)
    obtain ⟨rfl, hv⟩ := Prod.ext_iff.mp heq'
    rcases getVars_sound hvars hget hv with hnone | ⟨hk, w, -, rfl⟩
    · cases hnone
    · exact ⟨hk, rfl⟩

end Workspace

section Output

variable (p)

def putOutput (output : KeyMap Value) : Option Bytes := do
  let entries ← output.entries.mapM fun e => return p.i32.put e.1 ++ (← putValue p e.2)
  return p.length.put output.entries.length ++ entries.flatten

/-- `insert_into_map` puts copies of the values into the map. -/
def getOutput : Parser (KeyMap Value) := do
  let n ← p.length.get
  let entries ← getMany (do
    let k ← p.i32.get
    let v ← getValue p
    return (k, v)) n
  return KeyMap.ofEntries (entries.map fun e => (e.1, e.2.copy))

variable {p}

theorem forall₂_of_mapM {α β : Type} {f : α → Option β} {xs : List α} {ys : List β}
    (h : xs.mapM f = some ys) : List.Forall₂ (fun x y => f x = some y) xs ys := by
  induction xs generalizing ys with
  | nil =>
    cases h
    exact .nil
  | cons x xs ih =>
    rw [List.mapM_cons] at h
    obtain ⟨y, hy, h⟩ := Option.bind_eq_some_iff.mp h
    obtain ⟨ys, hys, h⟩ := Option.bind_eq_some_iff.mp h
    cases h
    exact .cons hy (ih hys)

theorem spec_output {output : KeyMap Value} {b : Bytes} (h : putOutput p output = some b) :
    Spec (fun _ => getOutput p) b output (∀ e ∈ output.entries, e.2.ver = 0) := by
  obtain ⟨entries, hentries, h⟩ := Option.bind_eq_some_iff.mp h
  cases h
  have hentry : Reads (fun _ => getMany (do
      let k ← p.i32.get
      let v ← getValue p
      return (k, v)) output.entries.length) entries.flatten output.entries := by
    refine Reads.getMany ((forall₂_of_mapM hentries).imp fun e b he => ?_)
    obtain ⟨value, hvalue, he⟩ := Option.bind_eq_some_iff.mp he
    cases he
    exact (p.i32.reads e.1).bind ((reads_value hvalue).map fun v => (e.1, v))
  have hcopies : KeyMap.ofEntries (output.entries.map fun e => (e.1, e.2.copy)) = output ↔
      ∀ e ∈ output.entries, e.2.ver = 0 := by
    refine ⟨fun heq e he => ?_, fun hver => ?_⟩
    · rw [← heq] at he
      obtain ⟨d, -, rfl⟩ := List.mem_map.mp (KeyMap.mem_of_mem_ofEntries he)
      rfl
    · have hsame : ∀ e ∈ output.entries, (e.1, e.2.copy) = e := fun e he => by
        rw [Value.copy_eq_self_iff.mpr (hver e he)]
      rw [(List.map_congr_left hsame).trans (List.map_id' _), KeyMap.ofEntries_entries]
  have hspec := Spec.of_reads_map (F := fun entries : List (Key × Value) =>
    KeyMap.ofEntries (entries.map fun e => (e.1, e.2.copy))) hentry output
  exact (Spec.codec (f := fun _ n => do
    let entries ← getMany (do
      let k ← p.i32.get
      let v ← getValue p
      return (k, v)) n
    return KeyMap.ofEntries (entries.map fun e => (e.1, e.2.copy))) hspec).congr hcopies

end Output

section Piece

variable (p)

structure SimpleCommand where
  id : BitVec 64 := 0
  type : BitVec 32 := 0
  innId : BitVec 32 := 0
  rootId : BitVec 64 := 0
  rootType : BitVec 32 := 0
  clientId : BitVec 32 := -1
  cmdIdInClient : BitVec 32 := -1
  ruleModeOnAndIsOriginalPathOnlyCommand : BitVec 8 := 0
  input : TxWorkspace
  output : KeyMap Value := KeyMap.empty
  outputSize : BitVec 32 := 0
  partitionId : BitVec 32 := 0xFFFFFFFF
  timestamp : BitVec 64 := 0
  rank : BitVec 32
  deriving DecidableEq

def putSimpleCommand (cmd : SimpleCommand) : Option Bytes := do
  guard (cmd.input.vars.entries.length < 10000)
  let input ← putWorkspace p cmd.input
  let output ← putOutput p cmd.output
  return p.u64.put cmd.id ++ (p.u32.put cmd.type ++ (p.u32.put cmd.innId ++
    (p.u64.put cmd.rootId ++ (p.u32.put cmd.rootType ++ (p.i32.put cmd.clientId ++
    (p.i32.put cmd.cmdIdInClient ++ (p.i8.put cmd.ruleModeOnAndIsOriginalPathOnlyCommand ++
    (input ++ (output ++ (p.i32.put cmd.outputSize ++ (p.u32.put cmd.partitionId ++
    (p.u64.put cmd.timestamp ++ p.i32.put cmd.rank))))))))))))

def getSimpleCommand (fuel : Nat) : Parser SimpleCommand := do
  let id ← p.u64.get
  let type ← p.u32.get
  let innId ← p.u32.get
  let rootId ← p.u64.get
  let rootType ← p.u32.get
  let clientId ← p.i32.get
  let cmdIdInClient ← p.i32.get
  let ruleMode ← p.i8.get
  let input ← getWorkspace p fuel
  let output ← getOutput p
  let outputSize ← p.i32.get
  let partitionId ← p.u32.get
  let timestamp ← p.u64.get
  let rank ← p.i32.get
  return ⟨id, type, innId, rootId, rootType, clientId, cmdIdInClient, ruleMode, input, output,
    outputSize, partitionId, timestamp, rank⟩

def SimpleCommand.Faithful (cmd : SimpleCommand) : Prop :=
  cmd.input.Faithful ∧ ∀ e ∈ cmd.output.entries, e.2.ver = 0

variable {p}

theorem spec_simpleCommand {cmd : SimpleCommand} {b : Bytes}
    (h : putSimpleCommand p cmd = some b) :
    Spec (fun n => getSimpleCommand p n) b cmd cmd.Faithful := by
  obtain ⟨-, -, h⟩ := Option.bind_eq_some_iff.mp h
  obtain ⟨input, hinput, h⟩ := Option.bind_eq_some_iff.mp h
  obtain ⟨output, houtput, h⟩ := Option.bind_eq_some_iff.mp h
  cases h
  unfold getSimpleCommand
  refine Spec.codec <| Spec.codec <| Spec.codec <| Spec.codec <| Spec.codec <| Spec.codec <|
    Spec.codec <| Spec.codec ?_
  refine (spec_workspace hinput).bind ((spec_output houtput).bind_reads ?_ ?_) ?_
  · exact (p.i32.reads _).bind <| (p.u32.reads _).bind <| (p.u64.reads _).bind <|
      p.i32.reads_map _ cmd.rank
  · intro n output hne
    refine Yields.bind fun _ => Yields.bind fun _ => Yields.bind fun _ => Yields.bind fun _ => ?_
    exact Yields.pure fun heq => hne (congrArg SimpleCommand.output heq)
  · intro n input hne
    refine Yields.bind fun _ => Yields.bind fun _ => Yields.bind fun _ => Yields.bind fun _ =>
      Yields.bind fun _ => ?_
    exact Yields.pure fun heq => hne (congrArg SimpleCommand.input heq)

end Piece

end Jetpack.Marshal
