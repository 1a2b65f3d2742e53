import Mathlib

/-! Column layouts: fixed-size columns by byte offset, strings by their number. -/

namespace Jetpack.Rows

inductive Kind
  | unknown
  | i32
  | i64
  | double
  | str
deriving DecidableEq

def Kind.size : Kind → Nat
  | .i32 => 4
  | .i64 => 8
  | .double => 8
  | .str | .unknown => 0

/-- `slot` is the union of `fixed_size_offst` and, for strings, `var_size_idx`. -/
structure ColumnInfo where
  id : Nat
  name : String
  indexed : Bool
  type : Kind
  slot : Nat

structure Schema where
  colInfo : List ColumnInfo := []
  keyColsId : List Nat := []
  varSizeCols : Nat := 0
  fixedPartSize : Nat := 0
  hiddenFixed : Nat := 0
  hiddenVar : Nat := 0
  frozen : Bool := false

namespace Schema

def getColumnId (s : Schema) (name : String) : Option Nat :=
  (s.colInfo.find? (fun info => info.name == name)).map ColumnInfo.id

def columnsCount (s : Schema) : Nat := s.colInfo.length - s.hiddenFixed - s.hiddenVar

/-- `-1` when the name is taken; `none` for a kind that no column can have. -/
def doAddColumn (s : Schema) (name : String) (type : Kind) (key : Bool) : Option (Int × Schema) :=
  let id := s.colInfo.length
  if (s.getColumnId name).isSome then some (-1, s)
  else
    let keys := if key then s.keyColsId ++ [id] else s.keyColsId
    match type with
    | .unknown => none
    | .str =>
      some (id, { s with
        colInfo := s.colInfo ++ [⟨id, name, key, type, s.varSizeCols⟩]
        keyColsId := keys
        varSizeCols := s.varSizeCols + 1 })
    | .i32 | .i64 | .double =>
      some (id, { s with
        colInfo := s.colInfo ++ [⟨id, name, key, type, s.fixedPartSize⟩]
        keyColsId := keys
        fixedPartSize := s.fixedPartSize + type.size })

def addColumn (s : Schema) (name : String) (type : Kind) (key : Bool) : Option (Int × Schema) :=
  if s.frozen = false ∧ s.hiddenFixed = 0 ∧ s.hiddenVar = 0 then s.doAddColumn name type key
  else none

def addHiddenColumn (s : Schema) (name : String) (type : Kind) : Option (Int × Schema) :=
  if s.frozen then none
  else
    (s.doAddColumn name type false).map fun r =>
      (r.1, if type = .str then { r.2 with hiddenVar := r.2.hiddenVar + 1 }
        else { r.2 with hiddenFixed := r.2.hiddenFixed + 1 })

def freeze (s : Schema) : Schema := { s with frozen := true }

/-- What `IndexedSchema::add_index` does to the columns of the new index. -/
def markIndexed (s : Schema) (idx : List Nat) : Schema :=
  { s with colInfo := s.colInfo.map fun info =>
      if idx.contains info.id then { info with indexed := true } else info }

def freezeIndexed (s : Schema) : Option (Option Nat × Schema) :=
  if s.frozen then some (none, s)
  else
    match s.addHiddenColumn ".index" .i64 with
    | some (.ofNat id, s') => some (some id, s'.freeze)
    | _ => none

/-- The schemas that the program can make, those of indexed tables among them. -/
inductive Built : Schema → Prop
  | new : Built {}
  | addColumn {s s' : Schema} {name : String} {type : Kind} {key : Bool} {ret : Int}
      (hs : Built s) (h : s.addColumn name type key = some (ret, s')) : Built s'
  | freeze {s : Schema} (hs : Built s) : Built s.freeze
  | markIndexed {s : Schema} (idx : List Nat) (hs : Built s) : Built (s.markIndexed idx)
  | freezeIndexed {s s' : Schema} {id : Option Nat} (hs : Built s)
      (h : s.freezeIndexed = some (id, s')) : Built s'

def types (s : Schema) : List Kind := s.colInfo.map ColumnInfo.type

end Schema

def fixedSize (kinds : List Kind) : Nat := (kinds.map Kind.size).sum

def strCount (kinds : List Kind) : Nat := kinds.count .str

theorem fixedSize_append (l m : List Kind) : fixedSize (l ++ m) = fixedSize l + fixedSize m := by
  simp [fixedSize]

theorem strCount_append (l m : List Kind) : strCount (l ++ m) = strCount l + strCount m :=
  List.count_append

/-- The place of a column of kind `type` behind columns of the kinds `before`. -/
def slotOf (before : List Kind) (type : Kind) : Nat :=
  if type = .str then strCount before else fixedSize before

/-- Columns lie one behind the other, and hidden ones are integers at the end. -/
structure Schema.Packed (s : Schema) : Prop where
  column : ∀ c info, s.colInfo[c]? = some info →
    info.id = c ∧ info.type ≠ .unknown ∧ info.slot = slotOf (s.types.take c) info.type
  fixedPartSize : s.fixedPartSize = fixedSize s.types
  varSizeCols : s.varSizeCols = strCount s.types
  hiddenVar : s.hiddenVar = 0
  hidden : s.types = s.types.take s.columnsCount ++ List.replicate s.hiddenFixed .i64

namespace Schema

theorem Packed.append {s s' : Schema} (h : s.Packed) {name : String} {type : Kind} {key : Bool}
    {ret : Int} (hadd : s.doAddColumn name type key = some (ret, s')) :
    s' = s ∧ ret = -1 ∨
      ret = s.colInfo.length ∧ type ≠ .unknown ∧ s'.hiddenFixed = s.hiddenFixed ∧
      s'.hiddenVar = s.hiddenVar ∧ s'.fixedPartSize = s.fixedPartSize + type.size ∧
      s'.varSizeCols = s.varSizeCols + strCount [type] ∧
      s'.colInfo = s.colInfo ++
        [⟨s.colInfo.length, name, key, type, slotOf s.types type⟩] := by
  unfold doAddColumn at hadd
  split at hadd
  · obtain ⟨rfl, rfl⟩ := Prod.mk.inj (Option.some.inj hadd)
    exact Or.inl ⟨rfl, rfl⟩
  · refine Or.inr ?_
    have hfix := h.fixedPartSize
    have hvar := h.varSizeCols
    cases type with
    | unknown => cases hadd
    | str =>
      obtain ⟨rfl, rfl⟩ := Prod.mk.inj (Option.some.inj hadd)
      exact ⟨rfl, by decide, rfl, rfl, rfl, rfl, by simp [slotOf, hvar]⟩
    | i32 | i64 | double =>
      obtain ⟨rfl, rfl⟩ := Prod.mk.inj (Option.some.inj hadd)
      exact ⟨rfl, by decide, rfl, rfl, rfl, rfl, by simp [slotOf, hfix]⟩

theorem Packed.columns {s : Schema} (h : s.Packed) {info : ColumnInfo} {cols : List ColumnInfo}
    (hcols : cols = s.colInfo ++ [info]) (hid : info.id = s.colInfo.length)
    (htype : info.type ≠ .unknown) (hslot : info.slot = slotOf s.types info.type) :
    ∀ c i, cols[c]? = some i → i.id = c ∧ i.type ≠ .unknown ∧
      i.slot = slotOf ((cols.map ColumnInfo.type).take c) i.type := by
  intro c i hc
  subst hcols
  have hlen : s.types.length = s.colInfo.length := List.length_map _
  rw [List.map_append]
  change _ ∧ _ ∧ i.slot = slotOf ((s.types ++ _).take c) i.type
  rcases Nat.lt_trichotomy c s.colInfo.length with hlt | heq | hgt
  · rw [List.getElem?_append_left hlt] at hc
    rw [List.take_append_of_le_length (by omega)]
    exact h.column c i hc
  · rw [heq, List.getElem?_concat_length] at hc
    cases hc
    refine ⟨hid.trans heq.symm, htype, ?_⟩
    rw [heq, ← hlen, List.take_left]
    exact hslot
  · rw [List.getElem?_eq_none (by simp; omega)] at hc
    cases hc

theorem Packed.addColumn {s s' : Schema} (h : s.Packed) {name : String} {type : Kind} {key : Bool}
    {ret : Int} (hadd : s.addColumn name type key = some (ret, s')) : s'.Packed := by
  unfold Schema.addColumn at hadd
  split at hadd
  · next hopen =>
    obtain ⟨-, hfixed, hvar⟩ := hopen
    rcases h.append hadd with ⟨rfl, -⟩ | ⟨-, htype, hf, hv, hsize, hcount, hcols⟩
    · exact h
    · have htypes : s'.types = s.types ++ [type] := by simp [types, hcols]
      have hall : s'.columnsCount = s'.types.length := by
        rw [columnsCount, hf, hfixed, hv, hvar, types, List.length_map]
        rfl
      refine ⟨h.columns hcols rfl htype rfl, ?_, ?_, by rw [hv, h.hiddenVar], ?_⟩
      · rw [hsize, htypes, fixedSize_append, h.fixedPartSize]
        simp [fixedSize]
      · rw [hcount, htypes, strCount_append, h.varSizeCols]
      · rw [hall, List.take_length, hf, hfixed]
        simp
  · cases hadd

theorem Packed.freeze {s : Schema} (h : s.Packed) : s.freeze.Packed :=
  ⟨h.column, h.fixedPartSize, h.varSizeCols, h.hiddenVar, h.hidden⟩

theorem Packed.markIndexed {s : Schema} (h : s.Packed) (idx : List Nat) :
    (s.markIndexed idx).Packed := by
  have hsame : ∀ info : ColumnInfo,
      (if idx.contains info.id then { info with indexed := true } else info).type = info.type := by
    intro info
    split <;> rfl
  have htypes : (s.markIndexed idx).types = s.types := by
    simp only [types, Schema.markIndexed, List.map_map]
    exact List.map_congr_left fun info _ => hsame info
  have hcount : (s.markIndexed idx).columnsCount = s.columnsCount := by
    simp [columnsCount, Schema.markIndexed]
  refine ⟨?_, ?_, ?_, h.hiddenVar, ?_⟩
  · intro c info hc
    rw [htypes]
    obtain ⟨old, hold, rfl⟩ := Option.map_eq_some_iff.mp ((List.getElem?_map ..).symm.trans hc)
    have hcol := h.column c old hold
    split <;> exact hcol
  · exact h.fixedPartSize.trans (congrArg fixedSize htypes.symm)
  · exact h.varSizeCols.trans (congrArg strCount htypes.symm)
  · rw [htypes, hcount]
    exact h.hidden

theorem Packed.freezeIndexed {s s' : Schema} (h : s.Packed) {id : Option Nat}
    (hf : s.freezeIndexed = some (id, s')) : s'.Packed := by
  unfold Schema.freezeIndexed at hf
  split at hf
  · obtain ⟨-, rfl⟩ := Prod.mk.inj (Option.some.inj hf)
    exact h
  · split at hf
    · next id' s₁ hadd =>
      obtain ⟨-, rfl⟩ := Prod.mk.inj (Option.some.inj hf)
      refine Packed.freeze ?_
      unfold addHiddenColumn at hadd
      split at hadd
      · cases hadd
      · obtain ⟨⟨ret, s₂⟩, hdo, hr⟩ := Option.map_eq_some_iff.mp hadd
        obtain ⟨hret, rfl⟩ := Prod.mk.inj hr
        rcases h.append hdo with ⟨-, hneg⟩ | ⟨-, htype, hhid, hv, hsize, hcount, hcols⟩
        · rw [hneg] at hret
          cases hret
        · have htypes : s₂.types = s.types ++ [.i64] := by simp [types, hcols]
          have hvisible : s₂.colInfo.length - (s.hiddenFixed + 1) - s₂.hiddenVar
              = s.columnsCount := by
            rw [hcols, hv, columnsCount, List.length_append, List.length_singleton]
            omega
          have hle : s.columnsCount ≤ s.types.length := by
            rw [types, List.length_map, columnsCount]
            omega
          refine ⟨h.columns hcols rfl htype rfl, ?_, ?_, hv.trans h.hiddenVar, ?_⟩
          · change s₂.fixedPartSize = fixedSize s₂.types
            rw [hsize, htypes, fixedSize_append, h.fixedPartSize]
            rfl
          · change s₂.varSizeCols = strCount s₂.types
            rw [hcount, htypes, strCount_append, h.varSizeCols]
          · change s₂.types = s₂.types.take (s₂.colInfo.length - (s₂.hiddenFixed + 1) - s₂.hiddenVar)
              ++ List.replicate (s₂.hiddenFixed + 1) .i64
            rw [hhid, hvisible, htypes, List.take_append_of_le_length hle, List.replicate_succ',
              ← List.append_assoc, ← h.hidden]
    · cases hf

theorem Built.packed {s : Schema} (h : s.Built) : s.Packed := by
  induction h with
  | new => exact ⟨fun c info hc => by simp at hc, rfl, rfl, rfl, rfl⟩
  | addColumn _ hadd ih => exact ih.addColumn hadd
  | freeze _ ih => exact ih.freeze
  | markIndexed idx _ ih => exact ih.markIndexed idx
  | freezeIndexed _ hf ih => exact ih.freezeIndexed hf

def KeysIndexed (s : Schema) : Prop :=
  ∀ c ∈ s.keyColsId, ∃ info, s.colInfo[c]? = some info ∧ info.indexed = true

theorem KeysIndexed.doAddColumn {s s' : Schema} (h : s.KeysIndexed) {name : String} {type : Kind}
    {key : Bool} {ret : Int} (hadd : s.doAddColumn name type key = some (ret, s')) :
    s'.KeysIndexed := by
  have happend : ∀ slot, s'.keyColsId = (if key then s.keyColsId ++ [s.colInfo.length]
      else s.keyColsId) → s'.colInfo = s.colInfo ++ [⟨s.colInfo.length, name, key, type, slot⟩] →
      s'.KeysIndexed := by
    intro slot hkeys hcols c hc
    rw [hkeys] at hc
    rw [hcols]
    have hold : c ∈ s.keyColsId → ∃ info : ColumnInfo,
        (s.colInfo ++ [⟨s.colInfo.length, name, key, type, slot⟩])[c]? = some info ∧
          info.indexed = true := by
      intro hmem
      obtain ⟨info, hinfo, hindexed⟩ := h c hmem
      have hlt := (List.getElem?_eq_some_iff.mp hinfo).1
      exact ⟨info, (List.getElem?_append_left hlt).trans hinfo, hindexed⟩
    cases key with
    | false => exact hold hc
    | true =>
      rcases List.mem_append.mp hc with hmem | hmem
      · exact hold hmem
      · rw [List.mem_singleton.mp hmem]
        exact ⟨_, List.getElem?_concat_length, rfl⟩
  unfold Schema.doAddColumn at hadd
  split at hadd
  · obtain ⟨-, rfl⟩ := Prod.mk.inj (Option.some.inj hadd)
    exact h
  · cases type with
    | unknown => cases hadd
    | str | i32 | i64 | double =>
      obtain ⟨-, rfl⟩ := Prod.mk.inj (Option.some.inj hadd)
      exact happend _ rfl rfl

theorem Built.keysIndexed {s : Schema} (h : s.Built) : s.KeysIndexed := by
  induction h with
  | new => exact fun c hc => by cases hc
  | addColumn _ hadd ih =>
    unfold Schema.addColumn at hadd
    split at hadd
    · exact ih.doAddColumn hadd
    · cases hadd
  | freeze _ ih => exact ih
  | markIndexed idx _ ih =>
    intro c hc
    obtain ⟨info, hinfo, hindexed⟩ := ih c hc
    refine ⟨_, (List.getElem?_map ..).trans (congrArg _ hinfo), ?_⟩
    dsimp only
    split
    · rfl
    · exact hindexed
  | freezeIndexed _ hf ih =>
    unfold Schema.freezeIndexed at hf
    split at hf
    · obtain ⟨-, rfl⟩ := Prod.mk.inj (Option.some.inj hf)
      exact ih
    · split at hf
      · next hadd =>
        obtain ⟨-, rfl⟩ := Prod.mk.inj (Option.some.inj hf)
        unfold addHiddenColumn at hadd
        split at hadd
        · cases hadd
        · obtain ⟨⟨ret, s₂⟩, hdo, hr⟩ := Option.map_eq_some_iff.mp hadd
          obtain ⟨-, rfl⟩ := Prod.mk.inj hr
          have hkeys : s₂.KeysIndexed := ih.doAddColumn hdo
          exact hkeys
      · cases hf

end Schema

end Jetpack.Rows
