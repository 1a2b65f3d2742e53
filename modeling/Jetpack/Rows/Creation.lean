import Jetpack.Rows.Updates

/-! Rows are made from values and from other rows; over any sequence of operations each column
keeps what was last stored in it. -/

namespace Jetpack.Rows

open Packing

theorem newChars_of_lt {n : Nat} (h : n < 2 ^ 31) : newChars n = some (List.replicate n 0) :=
  if_pos h

theorem firstPass_spec {vals : List Value} (hv : ∀ v ∈ vals, v.kind ≠ .unknown)
    (done rest : List Byte) (n : Nat) (hroom : (fixedBytes vals).length ≤ rest.length) :
    firstPass (done ++ rest) done.length n vals =
      some (done ++ fixedBytes vals ++ rest.drop (fixedBytes vals).length,
        (done ++ fixedBytes vals).length, n + (strings vals).flatten.length) := by
  induction vals generalizing done rest n with
  | nil => simp [firstPass, fixedBytes, strings]
  | cons v vals ih =>
    have hvals : ∀ w ∈ vals, w.kind ≠ .unknown := fun w hw => hv w (List.mem_cons_of_mem v hw)
    rw [fixedBytes_cons, List.length_append] at hroom
    have hhead : v.fixedBytes.length ≤ rest.length := by omega
    have htail : (fixedBytes vals).length ≤ (rest.drop v.fixedBytes.length).length := by
      rw [List.length_drop]
      omega
    have hih := ih hvals (done ++ v.fixedBytes) (rest.drop v.fixedBytes.length) n htail
    have hnumber : v.kind ≠ .str → firstPass (done ++ rest) done.length n (v :: vals) =
        firstPass (done ++ v.fixedBytes ++ rest.drop v.fixedBytes.length)
          (done ++ v.fixedBytes).length n vals := by
      intro hstr
      have hwrite := writeAt_end done hhead
      have hlen := v.length_fixedBytes
      cases v with
      | unknown => exact absurd rfl (hv _ List.mem_cons_self)
      | str s => exact absurd rfl hstr
      | i32 v | i64 v | double v =>
        simp only [firstPass, hwrite]
        rw [List.length_append, hlen]
    by_cases hstr : v.kind = .str
    · obtain ⟨s, rfl⟩ := Value.kind_eq_str hstr
      have hstep := ih hvals done rest (n + s.length) (by omega)
      simp only [firstPass, hstep, fixedBytes_cons, Value.fixedBytes, List.nil_append,
        strings_cons_str, List.flatten_cons, List.length_append, Nat.add_assoc]
    · rw [hnumber hstr, hih, strings_cons_of_ne hstr, fixedBytes_cons, List.drop_drop,
        List.append_assoc done, ← List.length_append]

theorem fillVar_spec (ss : List (List Byte)) (done rest : List Byte) (idx : List Nat)
    (hroom : ss.flatten.length ≤ rest.length) :
    fillVar (done ++ rest) idx done.length ss =
      some (done ++ ss.flatten ++ rest.drop ss.flatten.length, idx ++ ends done.length ss,
        (done ++ ss.flatten).length) := by
  induction ss generalizing done rest idx with
  | nil => simp [fillVar, ends]
  | cons s ss ih =>
    rw [List.flatten_cons, List.length_append] at hroom
    have hhead : s.length ≤ rest.length := by omega
    have htail : ss.flatten.length ≤ (rest.drop s.length).length := by
      rw [List.length_drop]
      omega
    have hih := ih (done ++ s) (rest.drop s.length) (idx ++ [done.length + s.length]) htail
    rw [List.length_append] at hih
    simp only [fillVar, writeAt_end done hhead]
    rw [hih]
    simp only [ends, List.flatten_cons, List.drop_drop, List.append_assoc, List.singleton_append,
      List.length_append]

theorem fillVar_fresh (ss : List (List Byte)) :
    fillVar (List.replicate ss.flatten.length 0) [] 0 ss =
      some (ss.flatten, ends 0 ss, ss.flatten.length) := by
  have hlen : (List.replicate ss.flatten.length (0 : Byte)).length = ss.flatten.length :=
    List.length_replicate
  have hfill := fillVar_spec ss [] (List.replicate ss.flatten.length 0) [] (Nat.le_of_eq hlen.symm)
  have hrest : (List.replicate ss.flatten.length (0 : Byte)).drop ss.flatten.length = [] :=
    List.drop_eq_nil_of_le (Nat.le_of_eq hlen)
  simpa only [List.nil_append, List.length_nil, hrest, List.append_nil] using hfill

theorem hiddenEnds_replicate (idx : List Nat) (n : Nat) :
    hiddenEnds idx (List.replicate n .i64) = some idx := by
  induction n with
  | zero => rfl
  | succ n ih =>
    rw [List.replicate_succ, hiddenEnds, if_neg (by decide)]
    exact ih

/-- The contents of the columns after `create`: hidden ones are zero. -/
def initial (schema : Schema) (values : List Value) : List Value :=
  values ++ List.replicate schema.hiddenFixed (.i64 0)

theorem fixedBytes_zeros (n : Nat) :
    fixedBytes (List.replicate n (.i64 0)) = List.replicate (fixedSize (List.replicate n .i64)) 0 := by
  have hzero : Value.fixedBytes (.i64 0) = List.replicate 8 0 := by decide
  induction n with
  | zero => rfl
  | succ n ih =>
    have hsize : fixedSize (List.replicate (n + 1) .i64) = 8 + fixedSize (List.replicate n .i64) := by
      rw [List.replicate_succ]
      rfl
    rw [List.replicate_succ, fixedBytes_cons, ih, hzero, hsize, List.replicate_append_replicate]

theorem strings_zeros (vals : List Value) (n : Nat) :
    strings (vals ++ List.replicate n (.i64 0)) = strings vals := by
  have hnone : strings (List.replicate n (.i64 0)) = [] := by
    induction n with
    | zero => rfl
    | succ n ih => rw [List.replicate_succ, strings_cons_of_ne (by decide), ih]
  rw [strings_append, hnone, List.append_nil]

theorem toBytes_ofInt {w n : Nat} (hw : 256 ^ n = 2 ^ w) {bs : List Byte} (hn : bs.length = n) :
    LittleEndian.toBytes n (BitVec.ofInt w (LittleEndian.ofBytes bs)).toNat = bs := by
  obtain ⟨hlo, hhi⟩ := LittleEndian.ofBytes_bounds bs
  have hcast : ((256 ^ n : Nat) : Int) = ((2 ^ w : Nat) : Int) := congrArg Nat.cast hw
  have hmod : LittleEndian.ofBytes bs % ((2 ^ w : Nat) : Int) = LittleEndian.ofBytes bs := by
    apply Int.emod_eq_of_lt hlo
    rw [← hcast, ← hn]
    exact_mod_cast hhi
  have hnat : ((BitVec.ofInt w (LittleEndian.ofBytes bs)).toNat : Int) = LittleEndian.ofBytes bs := by
    rw [BitVec.toNat_ofInt, hmod, Int.toNat_of_nonneg hlo]
  rw [hnat, ← hn]
  exact LittleEndian.toBytes_ofBytes bs

theorem Value.exists_fixedBytes {kind : Kind} (hu : kind ≠ .unknown) (hs : kind ≠ .str)
    {bs : List Byte} (hlen : bs.length = kind.size) :
    ∃ v : Value, v.kind = kind ∧ v.fixedBytes = bs := by
  cases kind with
  | unknown => exact absurd rfl hu
  | str => exact absurd rfl hs
  | i32 => exact ⟨.i32 (BitVec.ofInt 32 (LittleEndian.ofBytes bs)), rfl, toBytes_ofInt (by norm_num) hlen⟩
  | i64 => exact ⟨.i64 (BitVec.ofInt 64 (LittleEndian.ofBytes bs)), rfl, toBytes_ofInt (by norm_num) hlen⟩
  | double =>
    exact ⟨.double (BitVec.ofInt 64 (LittleEndian.ofBytes bs)), rfl, toBytes_ofInt (by norm_num) hlen⟩

/-- Any fixed part of the right size and any strings in the right number are those of values. -/
theorem exists_values {kinds : List Kind} (hk : ∀ kind ∈ kinds, kind ≠ .unknown) {fixedPart : List Byte}
    {strs : List (List Byte)} (hfixed : fixedPart.length = fixedSize kinds)
    (hstrs : strs.length = strCount kinds) :
    ∃ vals : List Value, vals.map Value.kind = kinds ∧ fixedBytes vals = fixedPart ∧
      strings vals = strs := by
  induction kinds generalizing fixedPart strs with
  | nil =>
    obtain rfl := List.length_eq_zero_iff.mp hfixed
    obtain rfl := List.length_eq_zero_iff.mp hstrs
    exact ⟨[], rfl, rfl, rfl⟩
  | cons kind kinds ih =>
    have hrest : ∀ kind ∈ kinds, kind ≠ .unknown := fun k hmem => hk k (List.mem_cons_of_mem _ hmem)
    have hsize : fixedSize (kind :: kinds) = kind.size + fixedSize kinds := rfl
    by_cases hstr : kind = .str
    · subst hstr
      have hcount : strCount (.str :: kinds) = strCount kinds + 1 := List.count_cons_self
      cases strs with
      | nil =>
        rw [hcount] at hstrs
        cases hstrs
      | cons s strs =>
        rw [hcount, List.length_cons] at hstrs
        have hzero : Kind.str.size = 0 := rfl
        have hlen : fixedPart.length = fixedSize kinds := by omega
        have hnum : strs.length = strCount kinds := by omega
        obtain ⟨vals, hkinds, hbytes, hvals⟩ := ih hrest hlen hnum
        refine ⟨.str s :: vals, congrArg (Kind.str :: ·) hkinds, hbytes, ?_⟩
        rw [strings_cons_str, hvals]
    · have hcount : strCount (kind :: kinds) = strCount kinds := List.count_cons_of_ne hstr
      have hhead : (fixedPart.take kind.size).length = kind.size := by
        rw [List.length_take]
        omega
      have htail : (fixedPart.drop kind.size).length = fixedSize kinds := by
        rw [List.length_drop]
        omega
      have hnum : strs.length = strCount kinds := by omega
      obtain ⟨v, hkind, hv⟩ := Value.exists_fixedBytes (hk kind List.mem_cons_self) hstr hhead
      obtain ⟨vals, hkinds, hbytes, hvals⟩ := ih hrest htail hnum
      refine ⟨v :: vals, ?_, ?_, ?_⟩
      · rw [List.map_cons, hkind, hkinds]
      · rw [fixedBytes_cons, hv, hbytes, List.take_append_drop]
      · rw [strings_cons_of_ne (hkind ▸ hstr), hvals]

theorem firstPass_sizes {vals : List Value} {buf buf' : List Byte} {pos pos' n n' : Nat}
    (h : firstPass buf pos n vals = some (buf', pos', n')) :
    buf'.length = buf.length ∧ n' = n + (strings vals).flatten.length := by
  induction vals generalizing buf pos n with
  | nil =>
    cases h
    exact ⟨rfl, rfl⟩
  | cons v vals ih =>
    cases v with
    | unknown => cases h
    | str s =>
      obtain ⟨hlen, hn⟩ := ih h
      rw [strings_cons_str, List.flatten_cons, List.length_append]
      exact ⟨hlen, by omega⟩
    | i32 v | i64 v | double v =>
      rw [firstPass] at h
      split at h
      · cases h
      · next buf₁ hwrite =>
        obtain ⟨hlen, hn⟩ := ih h
        refine ⟨hlen.trans (length_writeAt hwrite), ?_⟩
        rw [strings_cons_of_ne (fun hkind => by cases hkind)]
        exact hn

theorem newChars_eq {n : Nat} {buf : List Byte} (h : newChars n = some buf) :
    buf = List.replicate n 0 := by
  unfold newChars at h
  split at h
  · exact (Option.some.inj h).symm
  · cases h

namespace Row

theorem create_stores {schema : Schema} (hs : schema.Packed) (hsize : schema.fixedPartSize < 2 ^ 31)
    {values : List Value} (hkinds : values.map Value.kind = schema.types.take schema.columnsCount)
    (hlen : (strings values).flatten.length < 2 ^ 31) :
    ∃ r, create schema values = some r ∧ r.schema = schema ∧ r.Stores (initial schema values) := by
  have htypes : schema.types = values.map Value.kind ++ List.replicate schema.hiddenFixed .i64 :=
    hkinds ▸ hs.hidden
  have hcount : values.length = schema.columnsCount := by
    have hle : schema.columnsCount ≤ schema.types.length := by
      rw [Schema.types, List.length_map, Schema.columnsCount]
      omega
    have := congrArg List.length hkinds
    rw [List.length_map, List.length_take] at this
    omega
  have hhidden : schema.types.drop values.length = List.replicate schema.hiddenFixed .i64 := by
    rw [htypes, ← List.length_map (f := Value.kind), List.drop_left]
  have hfixed : schema.fixedPartSize
      = (fixedBytes values).length + fixedSize (List.replicate schema.hiddenFixed .i64) := by
    rw [hs.fixedPartSize, htypes, fixedSize_append, length_fixedBytes]
  have hknown : ∀ v ∈ values, v.kind ≠ .unknown := by
    intro v hv hunknown
    have hmem : v.kind ∈ schema.types := by
      rw [htypes]
      exact List.mem_append_left _ (List.mem_map_of_mem hv)
    obtain ⟨info, hinfo, htype⟩ := List.mem_map.mp hmem
    obtain ⟨c, hc⟩ := List.getElem?_of_mem hinfo
    exact (hs.column c info hc).2.1 (htype.trans hunknown)
  have hpass := firstPass_spec hknown [] (List.replicate schema.fixedPartSize 0) 0
    (by rw [List.length_replicate]; omega)
  have hbuf : fixedBytes values ++ (List.replicate schema.fixedPartSize 0).drop
      (fixedBytes values).length = fixedBytes (initial schema values) := by
    rw [initial, fixedBytes_append, fixedBytes_zeros, List.drop_replicate, hfixed,
      Nat.add_sub_cancel_left]
  have hstores : ∀ var, (var = .dense (strings values).flatten (ends 0 (strings values))) →
      Row.Stores ⟨schema, fixedBytes (initial schema values), var⟩ (initial schema values) := by
    intro var hvar
    refine ⟨hs, ?_, rfl, Or.inl ?_⟩
    · rw [initial, List.map_append, List.map_replicate]
      exact htypes.symm
    · rw [initial, strings_zeros]
      exact hvar
  have hvarSize : schema.varSizeCols = (strings values).length := by
    rw [hs.varSizeCols, htypes, strCount_append, length_strings]
    simp [strCount, List.count_replicate]
  simp only [List.nil_append, List.length_nil, Nat.zero_add, hbuf] at hpass
  rw [hcount] at hhidden
  have hends : (ends 0 (strings values)).length = schema.varSizeCols := by
    rw [length_ends, hvarSize]
  by_cases hpos : 0 < schema.varSizeCols
  · refine ⟨_, ?_, rfl, hstores _ rfl⟩
    simp only [create, guard, hcount, if_true, Option.pure_def, Option.bind_eq_bind,
      Option.bind_some, hhidden, newChars_of_lt hsize, newChars_of_lt hlen, hpass, ← hfixed, hpos,
      fillVar_fresh, hiddenEnds_replicate, hends]
  · have hnone : strings values = [] := List.length_eq_zero_iff.mp (by omega)
    refine ⟨⟨schema, fixedBytes (initial schema values), .dense [] []⟩, ?_, rfl,
      hstores _ (by rw [hnone]; rfl)⟩
    simp only [create, guard, hcount, if_true, Option.pure_def, Option.bind_eq_bind,
      Option.bind_some, hhidden, newChars_of_lt hsize, hpass, ← hfixed, if_neg hpos]

/-- Whatever the kinds of the values are, a row that is made holds values of its columns' kinds. -/
theorem exists_stores {schema : Schema} (hs : schema.Packed) {values : List Value} {r : Row}
    (h : create schema values = some r) :
    r.schema = schema ∧ (∃ vals, r.Stores vals) ∧ ∃ part idx, r.var = .dense part idx := by
  obtain ⟨_, hcount, h⟩ := Option.bind_eq_some_iff.mp h
  obtain ⟨buf, hbuf, h⟩ := Option.bind_eq_some_iff.mp h
  obtain ⟨⟨fixedPart, fixedPos, varPartSize⟩, hpass, h⟩ := Option.bind_eq_some_iff.mp h
  obtain ⟨_, -, h⟩ := Option.bind_eq_some_iff.mp h
  obtain ⟨hlen, hn⟩ := firstPass_sizes hpass
  rw [newChars_eq hbuf, List.length_replicate, hs.fixedPartSize] at hlen
  rw [Nat.zero_add] at hn
  have hcount' : values.length = schema.columnsCount := by
    by_contra hne
    simp [guard, hne] at hcount
  have hhidden : schema.types.drop values.length = List.replicate schema.hiddenFixed .i64 := by
    have hle : (schema.types.take schema.columnsCount).length = schema.columnsCount := by
      rw [List.length_take, Schema.types, List.length_map, Schema.columnsCount]
      omega
    rw [hcount']
    nth_rewrite 1 [hs.hidden]
    exact List.drop_left' hle
  have hknown : ∀ kind ∈ schema.types, kind ≠ .unknown := by
    intro kind hmem
    obtain ⟨info, hinfo, rfl⟩ := List.mem_map.mp hmem
    obtain ⟨c, hc⟩ := List.getElem?_of_mem hinfo
    exact (hs.column c info hc).2.1
  have hmake : ∀ strs : List (List Byte), strs.length = strCount schema.types →
      ∃ vals, Row.Stores ⟨schema, fixedPart, .dense strs.flatten (ends 0 strs)⟩ vals := by
    intro strs hstrs
    obtain ⟨vals, hkinds, hbytes, rfl⟩ := exists_values hknown hlen hstrs
    exact ⟨vals, hs, hkinds, hbytes.symm, Or.inl rfl⟩
  split at h
  · next hpos =>
    obtain ⟨part, hpart, h⟩ := Option.bind_eq_some_iff.mp h
    obtain ⟨⟨part', idx, varPos⟩, hfill, h⟩ := Option.bind_eq_some_iff.mp h
    rw [newChars_eq hpart, hn, fillVar_fresh] at hfill
    cases hfill
    obtain ⟨_, -, h⟩ := Option.bind_eq_some_iff.mp h
    obtain ⟨idx', hidx, h⟩ := Option.bind_eq_some_iff.mp h
    rw [hhidden, hiddenEnds_replicate] at hidx
    cases hidx
    obtain ⟨_, hguard, h⟩ := Option.bind_eq_some_iff.mp h
    cases h
    have hstrs : (strings values).length = strCount schema.types := by
      by_contra hne
      rw [← hs.varSizeCols] at hne
      simp [guard, hne] at hguard
    exact ⟨rfl, hmake _ hstrs, _, _, rfl⟩
  · next hpos =>
    cases h
    have hnone : strCount schema.types = 0 := by
      rw [← hs.varSizeCols]
      omega
    exact ⟨rfl, hmake [] hnone.symm, _, _, rfl⟩

variable {r : Row} {vals : List Value}

theorem Stores.mapM_getBlob (h : r.Stores vals) (hshort : ∀ v ∈ vals, v.Short) {n : Nat}
    (hn : n ≤ vals.length) :
    ((r.schema.colInfo.take n).filter fun info => info.type = .str).mapM
      (fun info => (r.getBlob info.id).bind Blob.bytes) = some (strings (vals.take n)) := by
  induction n with
  | zero => rfl
  | succ n ih =>
    have hlt : n < vals.length := by omega
    have hget : vals[n]? = some vals[n] := List.getElem?_eq_getElem hlt
    obtain ⟨-, -, info, -, -, hinfo, hid, htype, -, -⟩ := h.column hget
    obtain ⟨hltc, hinfo'⟩ := List.getElem?_eq_some_iff.mp hinfo
    have hblob := h.getBlob_bytes hget (hshort _ (List.getElem_mem hlt))
    have hcols : r.schema.colInfo.take (n + 1) = r.schema.colInfo.take n ++ [info] := by
      rw [List.take_succ_eq_append_getElem hltc, hinfo']
    have hvals : vals.take (n + 1) = vals.take n ++ [vals[n]] :=
      List.take_succ_eq_append_getElem hlt
    rw [hcols, hvals, List.filter_append, List.mapM_append, ih (by omega), strings_append]
    by_cases hstr : vals[n].kind = .str
    · obtain ⟨s, hs⟩ := Value.kind_eq_str hstr
      have hsel : [info].filter (fun info => info.type = .str) = [info] := by
        simp [htype.trans hstr]
      rw [hs] at hblob ⊢
      rw [hsel]
      simp only [List.mapM_cons, List.mapM_nil, hid, hblob, Option.pure_def, Option.bind_eq_bind,
        Option.bind_some]
      rfl
    · have hsel : [info].filter (fun info => info.type = .str) = [] := by
        simp [htype, hstr]
      rw [hsel, strings_cons_of_ne hstr]
      rfl

theorem short_of_total (hlen : (strings vals).flatten.length < 2 ^ 31) : ∀ v ∈ vals, v.Short := by
  intro v hv
  by_cases hstr : v.kind = .str
  · obtain ⟨s, rfl⟩ := Value.kind_eq_str hstr
    have hmem : s ∈ strings vals := List.mem_filterMap.mpr ⟨.str s, hv, rfl⟩
    have hle : s.length ≤ (strings vals).flatten.length := (List.sublist_flatten_of_mem hmem).length_le
    exact Nat.lt_of_le_of_lt hle hlen
  · have hbytes : v.bytes = v.fixedBytes := by
      cases v with
      | str s => exact absurd rfl hstr
      | _ => rfl
    have hle : v.kind.size ≤ 8 := by cases v.kind <;> decide
    rw [Value.Short, hbytes, v.length_fixedBytes]
    omega

theorem Stores.copy (h : r.Stores vals) (hlen : (strings vals).flatten.length < 2 ^ 31) :
    ∃ r', r.copy = some r' ∧ r'.schema = r.schema ∧ r'.Stores vals := by
  have hvisible : r.schema.columnsCount ≤ vals.length := by
    have hcount := congrArg List.length h.kinds
    rw [List.length_map, Schema.types, List.length_map] at hcount
    rw [hcount, Schema.columnsCount]
    omega
  have hkinds : (vals.drop r.schema.columnsCount).map Value.kind
      = List.replicate r.schema.hiddenFixed .i64 := by
    have hlen : (r.schema.types.take r.schema.columnsCount).length = r.schema.columnsCount := by
      rw [List.length_take, ← h.kinds, List.length_map]
      omega
    rw [List.map_drop, h.kinds, h.packed.hidden]
    nth_rewrite 1 [← hlen]
    exact List.drop_left
  have hhidden : strings (vals.drop r.schema.columnsCount) = [] := by
    apply List.length_eq_zero_iff.mp
    rw [length_strings, hkinds]
    simp [strCount, List.count_replicate]
  have hall : strings (vals.take r.schema.columnsCount) = strings vals := by
    conv_rhs => rw [← List.take_append_drop r.schema.columnsCount vals]
    rw [strings_append, hhidden, List.append_nil]
  have hblobs := h.mapM_getBlob (short_of_total hlen) hvisible
  rw [hall] at hblobs
  refine ⟨⟨r.schema, r.fixedPart, .dense (strings vals).flatten (ends 0 (strings vals))⟩, ?_, rfl,
    h.packed, h.kinds, h.fixedPart, Or.inl rfl⟩
  simp only [Row.copy, hblobs, newChars_of_lt hlen, fillVar_fresh, Option.pure_def,
    Option.bind_eq_bind, Option.bind_some]

end Row

inductive Op
  | create (values : List Value)
  | copy (i : Nat)
  | update (i c : Nat) (v : Value)
  | makeSparse (i : Nat)

namespace Op

def exec (schema : Schema) (rows : List Row) : Op → Option (List Row)
  | create values => (Row.create schema values).map fun r => rows ++ [r]
  | copy i => rows[i]?.bind fun r => r.copy.map fun r' => rows ++ [r']
  | update i c v => rows[i]?.bind fun r => (r.update c v).map fun r' => rows.set i r'
  | makeSparse i => rows[i]?.bind fun r => r.makeSparse.map fun r' => rows.set i r'

def store (schema : Schema) (contents : List (List Value)) : Op → List (List Value)
  | create values => contents ++ [initial schema values]
  | copy i => contents ++ [contents[i]?.getD []]
  | update i c v => contents.set i ((contents[i]?.getD []).set c v)
  | makeSparse _ => contents

/-- The row and the column exist, and the values are of the columns' kinds. -/
def Matching (schema : Schema) (contents : List (List Value)) : Op → Prop
  | create values => values.map Value.kind = schema.types.take schema.columnsCount
  | copy i | makeSparse i => i < contents.length
  | update i c v => ∃ vals, contents[i]? = some vals ∧ ∃ old, vals[c]? = some old ∧ v.kind = old.kind

/-- The strings of a row that is made fit in a buffer whose size is an `int`. -/
def Fits (contents : List (List Value)) : Op → Prop
  | create values => (strings values).flatten.length < 2 ^ 31
  | copy i => (strings (contents[i]?.getD [])).flatten.length < 2 ^ 31
  | update _ _ _ | makeSparse _ => True

end Op

def EachOp (schema : Schema) (good : List (List Value) → Op → Prop) :
    List (List Value) → List Op → Prop
  | _, [] => True
  | contents, op :: ops =>
    op.Matching schema contents ∧ good contents op ∧
      EachOp schema good (op.store schema contents) ops

def run (schema : Schema) (ops : List Op) : Option (List Row) := ops.foldlM (Op.exec schema) []

def contentsAfter (schema : Schema) (ops : List Op) : List (List Value) :=
  ops.foldl (Op.store schema) []

def Hold (schema : Schema) : List Row → List (List Value) → Prop :=
  List.Forall₂ fun r vals => r.schema = schema ∧ r.Stores vals

namespace Hold

variable {schema : Schema} {rows : List Row} {contents : List (List Value)}

theorem getElem? (h : Hold schema rows contents) {i : Nat} {vals : List Value}
    (hi : contents[i]? = some vals) :
    ∃ r, rows[i]? = some r ∧ r.schema = schema ∧ r.Stores vals := by
  obtain ⟨hlt, hvals⟩ := List.getElem?_eq_some_iff.mp hi
  have hlt' : i < rows.length := by
    have := h.length_eq
    omega
  have hr := h.get hlt' hlt
  refine ⟨rows[i], List.getElem?_eq_getElem hlt', ?_⟩
  rw [← hvals]
  exact hr

theorem snoc (h : Hold schema rows contents) {r : Row} {vals : List Value} (hs : r.schema = schema)
    (hr : r.Stores vals) : Hold schema (rows ++ [r]) (contents ++ [vals]) :=
  List.rel_append h (.cons ⟨hs, hr⟩ .nil)

theorem set (h : Hold schema rows contents) {i : Nat} {r : Row} {vals : List Value}
    (hs : r.schema = schema) (hr : r.Stores vals) :
    Hold schema (rows.set i r) (contents.set i vals) := by
  induction h generalizing i with
  | nil => exact .nil
  | cons hhead htail ih =>
    cases i with
    | zero => exact .cons ⟨hs, hr⟩ htail
    | succ i => exact .cons hhead ih

theorem exec (h : Hold schema rows contents) (hp : schema.Packed)
    (hsize : schema.fixedPartSize < 2 ^ 31) {op : Op} (hm : op.Matching schema contents)
    (hf : op.Fits contents) :
    ∃ rows', op.exec schema rows = some rows' ∧ Hold schema rows' (op.store schema contents) := by
  cases op with
  | create values =>
    obtain ⟨r, hcreate, hs, hr⟩ := Row.create_stores hp hsize hm hf
    exact ⟨rows ++ [r], by simp only [Op.exec, hcreate, Option.map_some], h.snoc hs hr⟩
  | copy i =>
    have hi : contents[i]? = some contents[i] := List.getElem?_eq_getElem hm
    obtain ⟨r, hget, hs, hr⟩ := h.getElem? hi
    simp only [Op.Fits, hi, Option.getD_some] at hf
    obtain ⟨r', hcopy, hs', hr'⟩ := hr.copy hf
    refine ⟨rows ++ [r'], by simp only [Op.exec, hget, hcopy, Option.bind_some, Option.map_some], ?_⟩
    simp only [Op.store, hi, Option.getD_some]
    exact h.snoc (hs'.trans hs) hr'
  | update i c v =>
    obtain ⟨vals, hi, old, hc, hk⟩ := hm
    obtain ⟨r, hget, hs, hr⟩ := h.getElem? hi
    obtain ⟨r', hupdate, hs', hr'⟩ := hr.update hc hk
    refine ⟨rows.set i r', by simp only [Op.exec, hget, hupdate, Option.bind_some, Option.map_some], ?_⟩
    simp only [Op.store, hi, Option.getD_some]
    exact h.set (hs'.trans hs) hr'
  | makeSparse i =>
    have hi : contents[i]? = some contents[i] := List.getElem?_eq_getElem hm
    obtain ⟨r, hget, hs, hr⟩ := h.getElem? hi
    refine ⟨rows.set i { r with var := .sparse (strings contents[i]) },
      by simp only [Op.exec, hget, hr.makeSparse, Option.bind_some, Option.map_some], ?_⟩
    have hself : contents.set i contents[i] = contents := List.set_getElem_self hm
    have hset := h.set (i := i) (r := { r with var := .sparse (strings contents[i]) }) hs
      ⟨hr.packed, hr.kinds, hr.fixedPart, Or.inr rfl⟩
    rw [hself] at hset
    exact hset

theorem run (h : Hold schema rows contents) (hp : schema.Packed)
    (hsize : schema.fixedPartSize < 2 ^ 31) {ops : List Op}
    (hops : EachOp schema Op.Fits contents ops) :
    ∃ rows', ops.foldlM (Op.exec schema) rows = some rows' ∧
      Hold schema rows' (ops.foldl (Op.store schema) contents) := by
  induction ops generalizing rows contents with
  | nil => exact ⟨rows, rfl, h⟩
  | cons op ops ih =>
    obtain ⟨hm, hf, hrest⟩ := hops
    obtain ⟨rows₁, hexec, h₁⟩ := h.exec hp hsize hm hf
    obtain ⟨rows', hrun, h'⟩ := ih h₁ hrest
    refine ⟨rows', ?_, h'⟩
    rw [List.foldlM_cons, hexec]
    exact hrun

end Hold

def ReadsBack (schema : Schema) (readable : Value → Prop) (ops : List Op) : Prop :=
  ∃ rows : List Row, run schema ops = some rows ∧ rows.length = (contentsAfter schema ops).length ∧
    ∀ (i : Nat) (vals : List Value), (contentsAfter schema ops)[i]? = some vals →
      ∃ r : Row, rows[i]? = some r ∧
        ∀ (c : Nat) (v : Value), vals[c]? = some v → readable v → r.getColumn c = some v

theorem readsBack_of_fits {schema : Schema} (hs : schema.Built)
    (hsize : schema.fixedPartSize < 2 ^ 31) {ops : List Op} (hops : EachOp schema Op.Fits [] ops) :
    ReadsBack schema Value.Short ops := by
  obtain ⟨rows, hrun, hold⟩ := Hold.run (.nil : Hold schema [] []) hs.packed hsize hops
  refine ⟨rows, hrun, hold.length_eq, ?_⟩
  intro i vals hi
  obtain ⟨r, hget, -, hr⟩ := hold.getElem? hi
  exact ⟨r, hget, fun c v hc hv => hr.getColumn hc hv⟩

def named : Schema where
  colInfo := [⟨0, "id", true, .i32, 0⟩, ⟨1, "name", false, .str, 0⟩]
  keyColsId := [0]
  varSizeCols := 1
  fixedPartSize := 4

theorem named_built : named.Built := by
  have hid : Schema.addColumn {} "id" .i32 true =
      some (0, ⟨[⟨0, "id", true, .i32, 0⟩], [0], 0, 4, 0, 0, false⟩) := rfl
  have hname : Schema.addColumn ⟨[⟨0, "id", true, .i32, 0⟩], [0], 0, 4, 0, 0, false⟩
      "name" .str false = some (1, named) := rfl
  exact .addColumn (.addColumn .new hid) hname

theorem readsBack_of_fits_renamed :
    ReadsBack named Value.Short
      [.create [.i32 7, .str [97, 98]], .update 0 1 (.str [97, 98, 99]), .copy 0] := by
  refine readsBack_of_fits named_built (by decide) ?_
  exact ⟨rfl, (by decide : 2 < 2 ^ 31), ⟨_, rfl, _, rfl, rfl⟩, trivial, (by decide : 0 < 1),
    (by decide : 3 < 2 ^ 31), trivial⟩

theorem create_long {s : List Byte} (h : 2 ^ 31 ≤ s.length) :
    Row.create named [.i32 7, .str s] = none := by
  have hlong : newChars s.length = none := if_neg (by omega)
  have hpass : firstPass (List.replicate 4 0) 0 0 [.i32 7, .str s] =
      some ([7, 0, 0, 0], 4, s.length) := by
    have hwrite : writeAt (List.replicate 4 0) 0 (Value.fixedBytes (.i32 7)) = some [7, 0, 0, 0] :=
      by decide
    simp only [firstPass, hwrite, Nat.zero_add]
    rfl
  have hbuf : newChars named.fixedPartSize = some (List.replicate 4 0) := newChars_of_lt (by decide)
  have hpos : 0 < named.varSizeCols := by decide
  simp only [Row.create, Option.bind_eq_bind, hbuf, Option.bind_some, hpass, hlong, hpos, if_true,
    Option.bind_none]
  rfl

theorem create_wide {schema : Schema} (h : 2 ^ 31 ≤ schema.fixedPartSize) (values : List Value) :
    Row.create schema values = none := by
  have hnone : newChars schema.fixedPartSize = none := if_neg (by omega)
  by_cases hcount : values.length = schema.columnsCount
  · simp only [Row.create, guard, hcount, if_true, Option.pure_def, Option.bind_eq_bind,
      Option.bind_some, hnone, Option.bind_none]
  · simp only [Row.create, guard, if_neg hcount, Option.bind_eq_bind]
    rfl

theorem exists_wide (n : Nat) : ∃ s : Schema, s.Built ∧ s.frozen = false ∧ s.hiddenFixed = 0 ∧
    s.hiddenVar = 0 ∧ s.fixedPartSize = 8 * n ∧ ∀ info ∈ s.colInfo, info.name.length < n := by
  induction n with
  | zero => exact ⟨{}, .new, rfl, rfl, rfl, rfl, by simp⟩
  | succ n ih =>
    obtain ⟨s, hs, hfrozen, hfixed, hvar, hsize, hnames⟩ := ih
    have hlen : (String.ofList (List.replicate n 'a')).length = n := by simp
    have hnew : s.getColumnId (String.ofList (List.replicate n 'a')) = none := by
      rw [Schema.getColumnId, Option.map_eq_none_iff, List.find?_eq_none]
      intro info hinfo heq
      have hlt := hnames info hinfo
      rw [beq_iff_eq.mp heq, hlen] at hlt
      omega
    have hadd : ∃ s', s.addColumn (String.ofList (List.replicate n 'a')) .i64 false =
        some ((s.colInfo.length : Int), s') ∧ s'.frozen = s.frozen ∧
        s'.hiddenFixed = s.hiddenFixed ∧ s'.hiddenVar = s.hiddenVar ∧
        s'.fixedPartSize = s.fixedPartSize + 8 ∧ s'.colInfo = s.colInfo ++
          [⟨s.colInfo.length, String.ofList (List.replicate n 'a'), false, .i64, s.fixedPartSize⟩] := by
      rw [Schema.addColumn, if_pos ⟨hfrozen, hfixed, hvar⟩, Schema.doAddColumn, hnew]
      exact ⟨_, rfl, rfl, rfl, rfl, rfl, rfl⟩
    obtain ⟨s', hadd, hf, hh, hv, hp, hc⟩ := hadd
    refine ⟨s', .addColumn hs hadd, hf.trans hfrozen, hh.trans hfixed, hv.trans hvar, by omega, ?_⟩
    intro info hinfo
    rw [hc, List.mem_append, List.mem_singleton] at hinfo
    rcases hinfo with hold | rfl
    · have := hnames info hold
      omega
    · rw [hlen]
      omega

/-- A string of 2^31 bytes cannot be stored, and neither can a row whose numbers take as many. -/
theorem not_readsBack : (¬ ∀ schema : Schema, schema.Built → ∀ ops,
    EachOp schema (fun _ _ => True) [] ops → ReadsBack schema (fun _ => True) ops) ∧
    ∃ schema : Schema, schema.Built ∧ ∀ values, Row.create schema values = none := by
  obtain ⟨wide, hwide, -, -, -, hsize, -⟩ := exists_wide (2 ^ 28)
  refine ⟨?_, wide, hwide, create_wide (by rw [hsize]; norm_num)⟩
  intro h
  obtain ⟨long, hlong⟩ : ∃ long : List Byte, long.length = 2 ^ 31 :=
    ⟨List.replicate (2 ^ 31) 0, List.length_replicate⟩
  obtain ⟨rows, hrun, -⟩ := h named named_built [.create [.i32 7, .str long]]
    ⟨rfl, trivial, trivial⟩
  have hcreate := create_long (Nat.le_of_eq hlong.symm)
  simp only [run, List.foldlM_cons, Op.exec, hcreate] at hrun
  cases hrun

end Jetpack.Rows
