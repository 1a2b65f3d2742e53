import Jetpack.Rows.Table

/-! A blob taken from a row leads to the column's bytes until a string is resized for the first
time. -/

namespace Jetpack.Rows

open Packing

theorem mapM_mapM {α β γ : Type} {f : α → Option β} {g : β → Option γ} {l : List α} {m : List β}
    (h : l.mapM f = some m) : m.mapM g = l.mapM fun a => (f a).bind g := by
  induction l generalizing m with
  | nil =>
    cases h
    rfl
  | cons a l ih =>
    rw [List.mapM_cons] at h
    obtain ⟨b, hb, h⟩ := Option.bind_eq_some_iff.mp h
    obtain ⟨m', hm, h⟩ := Option.bind_eq_some_iff.mp h
    cases h
    rw [List.mapM_cons, List.mapM_cons, ih hm, hb]
    rfl

theorem mapM_congr {α β : Type} {f g : α → Option β} {l : List α} (h : ∀ a ∈ l, f a = g a) :
    l.mapM f = l.mapM g := by
  induction l with
  | nil => rfl
  | cons a l ih =>
    have htail : l.mapM f = l.mapM g := ih fun b hb => h b (List.mem_cons_of_mem a hb)
    rw [List.mapM_cons, List.mapM_cons, h a List.mem_cons_self, htail]

theorem mapM_eq_some {α β : Type} {f : α → Option β} {g : α → β} {l : List α}
    (h : ∀ a ∈ l, f a = some (g a)) : l.mapM f = some (l.map g) := by
  induction l with
  | nil => rfl
  | cons a l ih =>
    rw [List.mapM_cons, h a List.mem_cons_self, ih fun b hb => h b (List.mem_cons_of_mem a hb)]
    rfl

theorem length_mapM {α β : Type} {f : α → Option β} {l : List α} {m : List β}
    (h : l.mapM f = some m) : m.length = l.length := by
  induction l generalizing m with
  | nil =>
    cases h
    rfl
  | cons a l ih =>
    rw [List.mapM_cons] at h
    obtain ⟨b, -, h⟩ := Option.bind_eq_some_iff.mp h
    obtain ⟨m', hm, h⟩ := Option.bind_eq_some_iff.mp h
    cases h
    rw [List.length_cons, List.length_cons, ih hm]

theorem mapM_mem {α β : Type} {f : α → Option β} {l : List α} {m : List β} (h : l.mapM f = some m)
    {a : α} (ha : a ∈ l) : ∃ b ∈ m, f a = some b := by
  induction l generalizing m with
  | nil => cases ha
  | cons x l ih =>
    rw [List.mapM_cons] at h
    obtain ⟨b, hb, h⟩ := Option.bind_eq_some_iff.mp h
    obtain ⟨m', hm, h⟩ := Option.bind_eq_some_iff.mp h
    cases h
    rcases List.mem_cons.mp ha with rfl | ha
    · exact ⟨b, List.mem_cons_self, hb⟩
    · obtain ⟨y, hy, hfy⟩ := ih hm ha
      exact ⟨y, List.mem_cons_of_mem b hy, hfy⟩

def Row.content (r : Row) (c : Nat) : Option (List Byte) :=
  match r.schema.colInfo[c]? with
  | none => none
  | some info =>
    match info.type with
    | .unknown => none
    | .i32 | .i64 | .double => some ((r.fixedPart.drop info.slot).take info.type.size)
    | .str =>
      match r.var with
      | .dense part idx => (segment idx info.slot).bind fun s => (denseBlob part s).bytes
      | .sparse strs => strs[info.slot]?

def Row.Resizes (r : Row) (c : Nat) (v : Value) : Prop :=
  ∃ part idx old, r.var = .dense part idx ∧ v.kind = .str ∧ r.content c = some old ∧
    old.length ≠ v.bytes.length

namespace Row.Stores

variable {r : Row} {vals : List Value}

theorem content (h : r.Stores vals) {c : Nat} {v : Value} (hc : vals[c]? = some v) :
    r.content c = some v.bytes := by
  obtain ⟨pre, post, info, rfl, -, hinfo, -, htype, hne, hslot⟩ := h.column hc
  by_cases hstr : v.kind = .str
  · obtain ⟨s, rfl⟩ := Value.kind_eq_str hstr
    rw [slotOf, if_pos hstr, ← length_strings] at hslot
    have htype' : info.type = .str := htype
    rcases h.var with hvar | hvar
    · simp only [Row.content, hinfo, htype', hvar, hslot, strings_middle, segment_ends,
        Option.bind_some, denseBlob_bytes, Value.bytes]
    · have hget : (strings pre ++ s :: strings post)[(strings pre).length]? = some s := by simp
      simp only [Row.content, hinfo, htype', hvar, hslot, strings_middle, hget, Value.bytes]
  · have hblob := h.getBlob_eq hc
    rw [blobBytes_of_ne hstr] at hblob
    rw [← hblob, Row.content, getBlob, hinfo]
    simp only [htype]
    have hsize : v.kind.size ≤ (r.fixedPart.drop info.slot).length := by
      rw [slotOf, if_neg hstr, ← length_fixedBytes] at hslot
      rw [h.fixedPart, hslot, fixedBytes_append, fixedBytes_cons, List.drop_left, List.length_append,
        v.length_fixedBytes]
      omega
    cases v with
    | unknown => exact absurd rfl hne
    | str s => exact absurd rfl hstr
    | i32 v | i64 v | double v =>
      exact (if_pos ⟨Int.natCast_nonneg _, by simpa [Value.kind] using hsize⟩).symm

theorem slot_ne {c k : Nat} {v w : Value} (h : r.Stores vals) (hv : vals[c]? = some v)
    (hw : vals[k]? = some w) (hvs : v.kind = .str) (hws : w.kind = .str) (hck : c < k)
    {ci ki : ColumnInfo} (hci : r.schema.colInfo[c]? = some ci)
    (hki : r.schema.colInfo[k]? = some ki) : ci.slot < ki.slot := by
  obtain ⟨cpre, cpost, ci', hcsplit, hclen, hci', -, hctype, -, hcs⟩ := h.column hv
  obtain ⟨kpre, kpost, ki', hksplit, hklen, hki', -, hktype, -, hks⟩ := h.column hw
  obtain rfl : ci = ci' := Option.some.inj (hci.symm.trans hci')
  obtain rfl : ki = ki' := Option.some.inj (hki.symm.trans hki')
  rw [hvs, slotOf, if_pos rfl] at hcs
  rw [hws, slotOf, if_pos rfl] at hks
  have hprefix : cpre ++ [v] <+: kpre := by
    have h1 : cpre ++ [v] = vals.take (c + 1) := by
      rw [hcsplit, ← hclen, List.take_append, List.take_of_length_le (by omega)]
      simp
    have h2 : kpre = vals.take k := by
      rw [hksplit, ← hklen, List.take_left]
    rw [h1, h2]
    exact List.take_prefix_take_left (by omega)
  obtain ⟨rest, hrest⟩ := hprefix
  rw [hcs, hks, ← hrest]
  simp only [List.map_append, List.map_cons, List.map_nil, strCount_append]
  have hone : strCount [v.kind] = 1 := by rw [hvs]; rfl
  omega

end Row.Stores

theorem Row.update_var_of_ne {r r' : Row} {c : Nat} {v : Value} (h : r.update c v = some r')
    (hv : v.kind ≠ .str) : r'.schema = r.schema ∧ r'.var = r.var := by
  have hfixed : ∀ info bs, r.updateFixed info bs = some r' → r'.schema = r.schema ∧ r'.var = r.var := by
    intro info bs hf
    unfold updateFixed at hf
    split at hf
    · cases hf
      exact ⟨rfl, rfl⟩
    · obtain ⟨part, -, rfl⟩ := Option.map_eq_some_iff.mp hf
      exact ⟨rfl, rfl⟩
  have hupdate : ∃ info, r.updateFixed info v.fixedBytes = some r' := by
    cases v with
    | unknown => cases h
    | str s => exact absurd rfl hv
    | i32 v | i64 v | double v =>
      cases hinfo : r.schema.colInfo[c]? with
      | none => simp only [update, hinfo] at h; cases h
      | some info =>
        simp only [update, hinfo] at h
        split at h
        · exact ⟨info, h⟩
        · cases h
  obtain ⟨info, hf⟩ := hupdate
  exact hfixed info v.fixedBytes hf

/-- A sparse row stays sparse, and only the string of the column is assigned. -/
theorem Row.updateStr_sparse {r r' : Row} {c : Nat} {s : List Byte} {strs : List (List Byte)}
    {info : ColumnInfo} (h : r.updateStr c s = some r') (hvar : r.var = .sparse strs)
    (hinfo : r.schema.colInfo[c]? = some info) :
    r'.schema = r.schema ∧
      (r'.var = .sparse strs ∨ r'.var = .sparse (strs.set info.slot s)) := by
  simp only [updateStr, hinfo, hvar] at h
  split at h
  · cases h
  · split at h
    · cases h
      exact ⟨rfl, Or.inl hvar⟩
    · simp only [assignSparse, hvar] at h
      split at h
      · cases h
        exact ⟨rfl, Or.inr rfl⟩
      · cases h

/-- A dense row stays so unless the length of a string changes. -/
theorem Row.updateStr_dense {r r' : Row} {c : Nat} {s : List Byte} {part : List Byte}
    {idx : List Nat} (h : r.updateStr c s = some r') (hvar : r.var = .dense part idx) :
    r'.schema = r.schema ∧
      ((∃ part', r'.var = .dense part' idx) ∨ r.Resizes c (.str s) ∧ ∃ strs, r'.var = .sparse strs) := by
  cases hinfo : r.schema.colInfo[c]? with
  | none => simp only [updateStr, hinfo] at h; cases h
  | some info =>
    simp only [updateStr, hinfo, hvar] at h
    split at h
    · cases h
    next htype =>
    have htype' : info.type = .str := by simpa using htype
    cases hseg : segment idx info.slot with
    | none => simp only [hseg] at h; cases h
    | some seg =>
      cases hold : (denseBlob part seg).bytes with
      | none => simp only [hseg, hold] at h; cases h
      | some old =>
        simp only [hseg, hold] at h
        split at h
        · cases h
          exact ⟨rfl, Or.inl ⟨part, hvar⟩⟩
        split at h
        · obtain ⟨part', -, rfl⟩ := Option.map_eq_some_iff.mp h
          exact ⟨rfl, Or.inl ⟨part', rfl⟩⟩
        next hlen =>
        have hcontent : r.content c = some old := by
          simp only [content, hinfo, htype', hvar, hseg, Option.bind_some, hold]
        obtain ⟨r₁, hsparse, hassign⟩ := Option.bind_eq_some_iff.mp h
        simp only [makeSparse, hvar] at hsparse
        obtain ⟨strs, -, rfl⟩ := Option.map_eq_some_iff.mp hsparse
        simp only [assignSparse] at hassign
        split at hassign
        · cases hassign
          exact ⟨rfl, Or.inr ⟨⟨part, idx, old, hvar, rfl, hcontent, hlen⟩, _, rfl⟩⟩
        · cases hassign

/-- What holds of every row object of a table's schema. -/
structure Object.Ok (schema : Schema) (o : Object) : Prop where
  schema_eq : o.row.schema = schema
  stores : ∃ vals, o.row.Stores vals
  times : ∀ strs, o.row.var = .sparse strs → o.times.length = strs.length

namespace Object.Ok

variable {schema : Schema} {o o' : Object}

theorem read_getBlobRef (h : o.Ok schema) (c : Nat) :
    (o.getBlobRef c).bind o.read = (o.row.getBlob c).bind Blob.bytes := by
  cases hinfo : o.row.schema.colInfo[c]? with
  | none => simp only [Object.getBlobRef, Row.getBlob, hinfo, Option.bind_none]
  | some info =>
    cases htype : info.type with
    | unknown => simp only [Object.getBlobRef, Row.getBlob, hinfo, htype, Option.bind_none]
    | i32 | i64 | double =>
      simp only [Object.getBlobRef, Row.getBlob, hinfo, htype, Option.bind_some, Object.read,
        Object.buffer]
    | str =>
      cases hvar : o.row.var with
      | dense part idx =>
        cases hseg : segment idx info.slot with
        | none => simp only [Object.getBlobRef, Row.getBlob, hinfo, htype, hvar, hseg,
            Option.map_none, Option.bind_none]
        | some s => simp only [Object.getBlobRef, Row.getBlob, hinfo, htype, hvar, hseg,
            Option.map_some, Option.bind_some, Object.read, Object.buffer, denseBlob]
      | sparse strs =>
        have hlen := h.times strs hvar
        cases hs : strs[info.slot]? with
        | none => simp only [Object.getBlobRef, Row.getBlob, hinfo, htype, hvar, hs,
            Option.map_none, Option.bind_none]
        | some s =>
          have hlt := (List.getElem?_eq_some_iff.mp hs).1
          have ht : o.times[info.slot]? = some o.times[info.slot] :=
            List.getElem?_eq_getElem (by omega)
          simp only [Object.getBlobRef, Row.getBlob, hinfo, htype, hvar, hs, ht, Option.map_some,
            Option.bind_some, Object.read, Object.buffer, if_true, List.drop_zero]

theorem read_content (h : o.Ok schema) {c : Nat} {bs : List Byte} (hc : o.row.content c = some bs)
    (hshort : bs.length < 2 ^ 31) : (o.getBlobRef c).bind o.read = some bs := by
  obtain ⟨vals, hs⟩ := h.stores
  have hcol : ∃ v, vals[c]? = some v := by
    cases hinfo : o.row.schema.colInfo[c]? with
    | none =>
      rw [Row.content, hinfo] at hc
      cases hc
    | some info =>
      have hlt := (List.getElem?_eq_some_iff.mp hinfo).1
      have hlen := congrArg List.length hs.kinds
      rw [List.length_map, Schema.types, List.length_map] at hlen
      exact ⟨vals[c], List.getElem?_eq_getElem (by omega)⟩
  obtain ⟨v, hv⟩ := hcol
  obtain rfl : bs = v.bytes := Option.some.inj (hc.symm.trans (hs.content hv))
  rw [h.read_getBlobRef, hs.getBlob_eq hv, Row.blobBytes_of_short hshort]

variable {info : ColumnInfo} {c : Nat} {v : Value}

/-- What `write` leaves: the row keeps its columns, and no column but `c` changes. -/
theorem write (h : o.Ok schema) (hinfo : o.row.schema.colInfo[c]? = some info)
    (htype : info.type = v.kind) (hw : o.write info c v = some o') :
    o'.Ok schema ∧ o'.inTable = o.inTable ∧ o'.row.content c = some v.bytes ∧
      ∀ k, k ≠ c → o'.row.content k = o.row.content k := by
  obtain ⟨row, hupdate, rfl⟩ := Option.map_eq_some_iff.mp hw
  obtain ⟨vals, hs⟩ := h.stores
  obtain ⟨hlt, -⟩ := List.getElem?_eq_some_iff.mp hinfo
  have hlen : vals.length = o.row.schema.colInfo.length := by
    have := congrArg List.length hs.kinds
    rwa [List.length_map, Schema.types, List.length_map] at this
  have hc : vals[c]? = some vals[c] := List.getElem?_eq_getElem (by omega)
  obtain ⟨-, -, info', -, -, hinfo', -, htype', -, -⟩ := hs.column hc
  obtain rfl : info = info' := Option.some.inj (hinfo.symm.trans hinfo')
  obtain ⟨r', hr', hschema, hstores⟩ := hs.update hc (htype.symm.trans htype')
  obtain rfl : row = r' := Option.some.inj (hupdate.symm.trans hr')
  refine ⟨⟨hschema.trans h.schema_eq, ⟨_, hstores⟩, ?_⟩, rfl, ?_, ?_⟩
  · intro strs hvar
    dsimp only at hvar ⊢
    cases hold : o.row.var with
    | dense part idx =>
      simp only [hvar]
      exact List.length_map _
    | sparse strs' =>
      have htimes := h.times strs' hold
      simp only [hvar]
      have hsame : strs.length = strs'.length := by
        by_cases hstr : v.kind = .str
        · obtain ⟨s, rfl⟩ := Value.kind_eq_str hstr
          rcases (Row.updateStr_sparse hupdate hold hinfo).2 with heq | heq <;>
            rw [hvar] at heq <;> cases heq
          · rfl
          · exact List.length_set
        · have heq := (Row.update_var_of_ne hupdate hstr).2
          rw [hvar, hold] at heq
          cases heq
          rfl
      split
      · rw [List.length_modify]
        omega
      · omega
  · have hget : (vals.set c v)[c]? = some v := List.getElem?_set_self (by omega)
    exact hstores.content hget
  · intro k hk
    dsimp only
    have hset : (vals.set c v)[k]? = vals[k]? := List.getElem?_set_ne (Ne.symm hk)
    cases hv : vals[k]? with
    | some w =>
      rw [hs.content hv]
      exact hstores.content (hset.trans hv)
    | none =>
      have hnone : o.row.schema.colInfo[k]? = none := by
        rw [List.getElem?_eq_none_iff] at hv ⊢
        omega
      simp only [Row.content, hschema, hnone]

theorem write_getBlobRef (h : o.Ok schema) (hinfo : o.row.schema.colInfo[c]? = some info)
    (htype : info.type = v.kind) (hw : o.write info c v = some o') {k : Nat} (hk : k ≠ c)
    (hkeep : ∀ ki, o.row.schema.colInfo[k]? = some ki → ki.type = .str → ¬ o.row.Resizes c v) :
    o'.getBlobRef k = o.getBlobRef k := by
  obtain ⟨hok, -⟩ := h.write hinfo htype hw
  have hschema : o'.row.schema = o.row.schema := hok.schema_eq.trans h.schema_eq.symm
  obtain ⟨row, hupdate, rfl⟩ := Option.map_eq_some_iff.mp hw
  dsimp only at hschema
  cases hki : o.row.schema.colInfo[k]? with
  | none => simp only [Object.getBlobRef, hschema, hki]
  | some ki =>
    cases hkind : ki.type with
    | unknown => simp only [Object.getBlobRef, hschema, hki, hkind]
    | i32 | i64 | double => simp only [Object.getBlobRef, hschema, hki, hkind]
    | str =>
      by_cases hstr : v.kind = .str
      · obtain ⟨s, rfl⟩ := Value.kind_eq_str hstr
        cases hvar : o.row.var with
        | dense part idx =>
          rcases (Row.updateStr_dense hupdate hvar).2 with ⟨part', hdense⟩ | ⟨hres, -⟩
          · simp only [Object.getBlobRef, hschema, hki, hkind, hvar, hdense]
          · exact absurd hres (hkeep ki hki hkind)
        | sparse strs =>
          -- only the string of `c` and its count change, and `k` has another number
          have hslot : ki.slot ≠ info.slot := by
            obtain ⟨vals, hs⟩ := h.stores
            have hlen : vals.length = o.row.schema.colInfo.length := by
              have := congrArg List.length hs.kinds
              rwa [List.length_map, Schema.types, List.length_map] at this
            have hltc := (List.getElem?_eq_some_iff.mp hinfo).1
            have hltk := (List.getElem?_eq_some_iff.mp hki).1
            have hc : vals[c]? = some vals[c] := List.getElem?_eq_getElem (by omega)
            have hkv : vals[k]? = some vals[k] := List.getElem?_eq_getElem (by omega)
            obtain ⟨-, -, ci, -, -, hci, -, hctype, -, -⟩ := hs.column hc
            obtain ⟨-, -, ki', -, -, hki', -, hktype, -, -⟩ := hs.column hkv
            obtain rfl : info = ci := Option.some.inj (hinfo.symm.trans hci)
            obtain rfl : ki = ki' := Option.some.inj (hki.symm.trans hki')
            rcases Nat.lt_or_gt_of_ne hk with hlt | hlt
            · exact Nat.ne_of_lt (hs.slot_ne hkv hc (hktype.symm.trans hkind)
                (hctype.symm.trans htype) hlt hki hinfo)
            · exact Nat.ne_of_gt (hs.slot_ne hc hkv (hctype.symm.trans htype)
                (hktype.symm.trans hkind) hlt hinfo hki)
          have htimes : (o.times.modify info.slot (· + 1))[ki.slot]? = o.times[ki.slot]? :=
            List.getElem?_modify_ne _ _ (Ne.symm hslot)
          have hstype : info.type = .str := htype
          rcases (Row.updateStr_sparse hupdate hvar hinfo).2 with heq | heq
          · simp only [Object.getBlobRef, hschema, hki, hkind, hvar, heq, hstype, if_true, htimes]
          · have hset : (strs.set info.slot s)[ki.slot]? = strs[ki.slot]? :=
              List.getElem?_set_ne (Ne.symm hslot)
            simp only [Object.getBlobRef, hschema, hki, hkind, hvar, heq, hstype, if_true, htimes, hset]
      · have hvar := (Row.update_var_of_ne hupdate hstr).2
        have htype' : info.type ≠ .str := htype.symm ▸ hstr
        simp only [Object.getBlobRef, hschema, hki, hkind, hvar, if_neg htype']
        cases o.row.var <;> rfl

end Object.Ok

end Jetpack.Rows
