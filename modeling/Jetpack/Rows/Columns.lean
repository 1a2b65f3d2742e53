import Jetpack.Rows.Row

/-! A row gives back what was last stored in each column. -/

namespace Jetpack.Rows

open Packing

def Value.bytes : Value → List Byte
  | .str s => s
  | v => v.fixedBytes

def Value.Short (v : Value) : Prop := v.bytes.length < 2 ^ 31

/-- The row holds these values, one for each column, hidden ones included. -/
structure Row.Stores (r : Row) (vals : List Value) : Prop where
  packed : r.schema.Packed
  kinds : vals.map Value.kind = r.schema.types
  fixedPart : r.fixedPart = fixedBytes vals
  var : r.var = .dense (strings vals).flatten (ends 0 (strings vals)) ∨ r.var = .sparse (strings vals)

theorem Value.load_bytes {v : Value} (hu : v.kind ≠ .unknown) : load v.kind v.bytes = some v := by
  cases v with
  | unknown => exact absurd rfl hu
  | str s => rfl
  | i32 v => exact load_fixedBytes hu (by decide : Kind.i32 ≠ .str)
  | i64 v => exact load_fixedBytes hu (by decide : Kind.i64 ≠ .str)
  | double v => exact load_fixedBytes hu (by decide : Kind.double ≠ .str)

theorem toInt32_of_lt {n : Nat} (h : n < 2 ^ 31) : toInt32 n = n := by
  unfold toInt32
  rw [BitVec.toInt_eq_toNat_of_lt]
  · rw [BitVec.toNat_ofNat, Nat.mod_eq_of_lt (by omega)]
  · rw [BitVec.toNat_ofNat, Nat.mod_eq_of_lt (by omega)]
    omega

theorem Blob.bytes_of_length {data bs : List Byte} {n : Nat} (hlen : n = bs.length)
    (h : data.take n = bs) : Blob.bytes ⟨data, n⟩ = some bs := by
  have hle : n ≤ data.length := by
    have := congrArg List.length h
    rw [List.length_take] at this
    omega
  rw [Blob.bytes, if_pos ⟨Int.natCast_nonneg n, by simpa using hle⟩]
  simpa using h

theorem segment_ends (pre post : List (List Byte)) (s : List Byte) :
    segment (ends 0 (pre ++ s :: post)) pre.length =
      some (pre.flatten.length, pre.flatten.length + s.length) := by
  rw [segment, start_ends, ends_getElem?]

theorem denseBlob_bytes (pre post : List (List Byte)) (s : List Byte) :
    (denseBlob (pre ++ s :: post).flatten
      (pre.flatten.length, pre.flatten.length + s.length)).bytes = some s := by
  have hlen : ((pre.flatten.length + s.length : Nat) : Int) - pre.flatten.length = s.length := by
    push_cast
    ring
  unfold denseBlob
  simp only [hlen]
  exact Blob.bytes_of_length rfl (piece_flatten pre post s)

/-- The bytes that a column's blob leads to; the length of a sparse string is an `int`. -/
def Row.blobBytes (r : Row) (v : Value) : Option (List Byte) :=
  match r.var, v with
  | .sparse _, .str s => Blob.bytes ⟨s, toInt32 s.length⟩
  | _, v => some v.bytes

theorem Row.blobBytes_of_ne {r : Row} {v : Value} (h : v.kind ≠ .str) :
    r.blobBytes v = some v.bytes := by
  obtain ⟨schema, fixedPart, var⟩ := r
  cases v with
  | str s => exact absurd rfl h
  | _ => cases var <;> rfl

theorem Row.blobBytes_of_short {r : Row} {v : Value} (h : v.Short) :
    r.blobBytes v = some v.bytes := by
  by_cases hstr : v.kind = .str
  · obtain ⟨s, rfl⟩ := Value.kind_eq_str hstr
    obtain ⟨schema, fixedPart, var⟩ := r
    cases var with
    | dense part idx => rfl
    | sparse strs =>
      have hlen : s.length < 2 ^ 31 := h
      simp only [blobBytes, toInt32_of_lt hlen, Value.bytes]
      exact Blob.bytes_of_length rfl List.take_length
  · exact blobBytes_of_ne hstr

namespace Row.Stores

variable {r : Row} {vals : List Value}

theorem column (h : r.Stores vals) {c : Nat} {v : Value} (hc : vals[c]? = some v) :
    ∃ pre post info, vals = pre ++ v :: post ∧ pre.length = c ∧ r.schema.colInfo[c]? = some info ∧
      info.id = c ∧ info.type = v.kind ∧ v.kind ≠ .unknown ∧
      info.slot = slotOf (pre.map Value.kind) v.kind := by
  obtain ⟨pre, post, hsplit, hpre⟩ := exists_pieces hc
  have htype : r.schema.types[c]? = some v.kind := by
    rw [← h.kinds, List.getElem?_map, hc]
    rfl
  obtain ⟨info, hinfo, hkind⟩ := Option.map_eq_some_iff.mp ((List.getElem?_map ..).symm.trans htype)
  obtain ⟨hid, hne, hslot⟩ := h.packed.column c info hinfo
  rw [hkind] at hne hslot
  rw [← h.kinds, ← List.map_take, hsplit, ← hpre, List.take_left] at hslot
  exact ⟨pre, post, info, hsplit, hpre, hinfo, hid, hkind, hne, hslot⟩

theorem getBlob_eq (h : r.Stores vals) {c : Nat} {v : Value} (hc : vals[c]? = some v) :
    (r.getBlob c).bind Blob.bytes = r.blobBytes v := by
  obtain ⟨pre, post, info, rfl, -, hinfo, -, htype, hne, hslot⟩ := h.column hc
  by_cases hstr : v.kind = .str
  · obtain ⟨s, rfl⟩ := Value.kind_eq_str hstr
    rw [slotOf, if_pos hstr, ← length_strings] at hslot
    have hstrings : strings (pre ++ .str s :: post) = strings pre ++ s :: strings post := by
      rw [strings_append, strings_cons_str]
    have htype' : info.type = .str := htype
    rcases h.var with hvar | hvar
    · simp only [getBlob, hinfo, htype', hvar, hslot, hstrings, segment_ends, Option.map_some,
        Option.bind_some, denseBlob_bytes, blobBytes, Value.bytes]
    · have hget : (strings pre ++ s :: strings post)[(strings pre).length]? = some s := by simp
      simp only [getBlob, hinfo, htype', hvar, hslot, hstrings, hget, Option.map_some,
        Option.bind_some, blobBytes]
  · rw [slotOf, if_neg hstr, ← length_fixedBytes] at hslot
    have hbytes : r.blobBytes v = some v.fixedBytes := by
      rw [blobBytes_of_ne hstr]
      cases v with
      | str s => exact absurd rfl hstr
      | _ => rfl
    have hread : (r.fixedPart.drop info.slot).take v.kind.size = v.fixedBytes := by
      rw [h.fixedPart, hslot, fixedBytes_append, fixedBytes_cons, ← v.length_fixedBytes]
      exact take_drop_middle _ _ _
    have hblob : r.getBlob c = some ⟨r.fixedPart.drop info.slot, v.kind.size⟩ := by
      unfold getBlob
      rw [hinfo]
      simp only [htype]
      cases v with
      | unknown => exact absurd rfl hne
      | str s => exact absurd rfl hstr
      | _ => rfl
    rw [hblob, hbytes]
    exact Blob.bytes_of_length v.length_fixedBytes.symm hread

theorem getBlob_bytes (h : r.Stores vals) {c : Nat} {v : Value} (hc : vals[c]? = some v)
    (hv : v.Short) : (r.getBlob c).bind Blob.bytes = some v.bytes := by
  rw [h.getBlob_eq hc, blobBytes_of_short hv]

theorem getColumn (h : r.Stores vals) {c : Nat} {v : Value} (hc : vals[c]? = some v)
    (hv : v.Short) : r.getColumn c = some v := by
  obtain ⟨pre, post, info, -, -, hinfo, -, htype, hne, -⟩ := h.column hc
  obtain ⟨b, hb, hbytes⟩ := Option.bind_eq_some_iff.mp (h.getBlob_bytes hc hv)
  simp only [Row.getColumn, hinfo, hb, hbytes, Option.bind_eq_bind, Option.bind_some, htype]
  exact Value.load_bytes hne

end Row.Stores

end Jetpack.Rows
