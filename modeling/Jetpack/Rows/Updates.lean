import Jetpack.Rows.Columns

/-! Updates change one column, in either storage. -/

namespace Jetpack.Rows

open Packing

theorem strings_middle (pre post : List Value) (s : List Byte) :
    strings (pre ++ .str s :: post) = strings pre ++ s :: strings post := by
  rw [strings_append, strings_cons_str]

theorem strings_replace {v w : Value} (hv : v.kind ≠ .str) (hw : w.kind ≠ .str)
    (pre post : List Value) : strings (pre ++ w :: post) = strings (pre ++ v :: post) := by
  rw [strings_append, strings_append, strings_cons_of_ne hv, strings_cons_of_ne hw]

theorem set_middle {α : Type} (pre post : List α) (x y : α) :
    (pre ++ x :: post).set pre.length y = pre ++ y :: post := by
  rw [List.set_append_right _ _ (le_refl _), Nat.sub_self, List.set_cons_zero]

theorem kinds_set {vals : List Value} {c : Nat} {v old : Value} (hc : vals[c]? = some old)
    (hk : v.kind = old.kind) : (vals.set c v).map Value.kind = vals.map Value.kind := by
  obtain ⟨pre, post, rfl, rfl⟩ := exists_pieces hc
  rw [set_middle]
  simp [hk]

namespace Row.Stores

variable {r : Row} {vals : List Value}

theorem varSizeCols (h : r.Stores vals) : r.schema.varSizeCols = (strings vals).length := by
  rw [h.packed.varSizeCols, ← h.kinds, length_strings]

theorem makeSparse (h : r.Stores vals) :
    r.makeSparse = some { r with var := .sparse (strings vals) } := by
  rcases h.var with hvar | hvar
  · have hfetch : (List.range (strings vals).length).mapM (fun i =>
        (segment (ends 0 (strings vals)) i).bind fun s =>
          (denseBlob (strings vals).flatten s).bytes) = some (strings vals) := by
      apply mapM_range
      intro i s hi
      obtain ⟨pre, post, hsplit, rfl⟩ := exists_pieces hi
      rw [hsplit, segment_ends, Option.bind_some, denseBlob_bytes]
    simp only [Row.makeSparse, hvar, h.varSizeCols, hfetch, Option.map_some]
  · have hsame : { r with var := .sparse (strings vals) } = r := by rw [← hvar]
    rw [hsame]
    simp only [Row.makeSparse, hvar]

theorem assignSparse {pre post : List Value} {s : List Byte}
    (h : r.Stores (pre ++ .str s :: post)) (v : List Byte) :
    ∃ r', Row.assignSparse { r with var := .sparse (strings (pre ++ .str s :: post)) }
        (strings pre).length v = some r' ∧ r'.schema = r.schema ∧
      r'.Stores (pre ++ .str v :: post) := by
  have hlt : (strings pre).length < (strings pre ++ s :: strings post).length := by simp
  have hkinds : (pre ++ .str v :: post).map Value.kind = r.schema.types := by
    rw [← h.kinds]
    simp [Value.kind]
  have hfixed : fixedBytes (pre ++ .str v :: post) = fixedBytes (pre ++ .str s :: post) := by
    simp only [fixedBytes_append, fixedBytes_cons, Value.fixedBytes]
  refine ⟨{ r with var := .sparse (strings pre ++ v :: strings post) }, ?_, rfl,
    h.packed, hkinds, h.fixedPart.trans hfixed.symm, Or.inr ?_⟩
  · simp only [Row.assignSparse, strings_middle, if_pos hlt, set_middle]
  · rw [strings_middle]

theorem updateStr (h : r.Stores vals) {c : Nat} {s : List Byte} (hc : vals[c]? = some (.str s))
    (v : List Byte) :
    ∃ r', r.updateStr c v = some r' ∧ r'.schema = r.schema ∧ r'.Stores (vals.set c (.str v)) := by
  obtain ⟨pre, post, info, rfl, rfl, hinfo, -, htype, -, hslot⟩ := h.column hc
  have htype' : ¬ info.type ≠ .str := fun hne => hne htype
  have hkind : (Value.str s).kind = .str := rfl
  rw [slotOf, if_pos hkind, ← length_strings] at hslot
  rw [set_middle]
  by_cases hsame : s = v
  · -- not really updating
    subst hsame
    refine ⟨r, ?_, rfl, h⟩
    rcases h.var with hvar | hvar
    · simp only [Row.updateStr, hinfo, if_neg htype', hvar, hslot, strings_middle, segment_ends,
        denseBlob_bytes, if_pos]
    · have hget : (strings pre ++ s :: strings post)[(strings pre).length]? = some s := by simp
      simp only [Row.updateStr, hinfo, if_neg htype', hvar, hslot, strings_middle, hget, if_pos]
  · obtain ⟨r', hassign, hschema, hstores⟩ := h.assignSparse v
    rcases h.var with hvar | hvar
    · by_cases hlen : s.length = v.length
      · have hpart : (strings pre ++ s :: strings post).flatten
            = (strings pre).flatten ++ (s ++ (strings post).flatten) := by
          rw [List.flatten_append, List.flatten_cons]
        have hwrite : writeAt (strings pre ++ s :: strings post).flatten
            (strings pre).flatten.length v = some (strings pre ++ v :: strings post).flatten := by
          rw [hpart, writeAt_middle _ _ hlen.symm, List.flatten_append, List.flatten_cons]
        refine ⟨⟨r.schema, r.fixedPart, .dense (strings pre ++ v :: strings post).flatten
          (ends 0 (strings pre ++ s :: strings post))⟩, ?_, rfl, ?_⟩
        · simp only [Row.updateStr, hinfo, if_neg htype', hvar, hslot, strings_middle,
            segment_ends, denseBlob_bytes, if_neg hsame, if_pos hlen, hwrite, Option.map_some]
        · refine ⟨hschema ▸ hstores.packed, ?_, ?_, Or.inl ?_⟩
          · rw [hstores.kinds, hschema]
          · rw [h.fixedPart]
            simp only [fixedBytes_append, fixedBytes_cons, Value.fixedBytes]
          · rw [strings_middle, ends_congr 0 _ _ hlen.symm]
      · refine ⟨r', ?_, hschema, hstores⟩
        simp only [Row.updateStr, hinfo, if_neg htype', hvar, hslot, strings_middle,
          segment_ends, denseBlob_bytes, if_neg hsame, if_neg hlen, h.makeSparse, Option.bind_some]
        rw [← strings_middle]
        exact hassign
    · refine ⟨r', ?_, hschema, hstores⟩
      have hget : (strings pre ++ s :: strings post)[(strings pre).length]? ≠ some v := by
        simpa using hsame
      have hself : { r with var := .sparse (strings (pre ++ .str s :: post)) } = r := by
        rw [← hvar]
      rw [hself] at hassign
      simp only [Row.updateStr, hinfo, if_neg htype', hvar, hslot]
      rw [strings_middle, if_neg hget]
      exact hassign

theorem updateFixed (h : r.Stores vals) {c : Nat} {old v : Value} {info : ColumnInfo}
    (hc : vals[c]? = some old) (hinfo : r.schema.colInfo[c]? = some info) (hk : v.kind = old.kind)
    (hstr : v.kind ≠ .str) :
    ∃ r', r.updateFixed info v.fixedBytes = some r' ∧ r'.schema = r.schema ∧
      r'.Stores (vals.set c v) := by
  obtain ⟨pre, post, info', rfl, rfl, hinfo', -, -, -, hslot⟩ := h.column hc
  obtain rfl : info = info' := Option.some.inj (hinfo.symm.trans hinfo')
  have hstr' : old.kind ≠ .str := hk ▸ hstr
  have hlen : v.fixedBytes.length = old.fixedBytes.length := by
    rw [v.length_fixedBytes, old.length_fixedBytes, hk]
  rw [slotOf, if_neg hstr', ← length_fixedBytes] at hslot
  have hpart : r.fixedPart = fixedBytes pre ++ (old.fixedBytes ++ fixedBytes post) := by
    rw [h.fixedPart, fixedBytes_append, fixedBytes_cons]
  have hkinds := (kinds_set hc hk).trans h.kinds
  rw [set_middle] at hkinds ⊢
  have hafter : ∀ r' : Row, r'.schema = r.schema → r'.var = r.var →
      r'.fixedPart = fixedBytes pre ++ (v.fixedBytes ++ fixedBytes post) →
      r'.Stores (pre ++ v :: post) := by
    intro r' hs hvar hfixed
    refine ⟨hs ▸ h.packed, hs ▸ hkinds, ?_, ?_⟩
    · rw [hfixed, fixedBytes_append, fixedBytes_cons]
    · rw [hvar, strings_replace hstr' hstr]
      exact h.var
  have hread : (r.fixedPart.drop info.slot).take v.fixedBytes.length = old.fixedBytes := by
    rw [hpart, hslot, hlen]
    exact take_drop_middle _ _ _
  by_cases hsame : old.fixedBytes = v.fixedBytes
  · refine ⟨r, ?_, rfl, hafter r rfl rfl (hsame ▸ hpart)⟩
    rw [Row.updateFixed, hread, if_pos hsame]
  · have hwrite : writeAt r.fixedPart info.slot v.fixedBytes
        = some (fixedBytes pre ++ (v.fixedBytes ++ fixedBytes post)) := by
      rw [hpart, hslot]
      exact writeAt_middle _ _ hlen
    refine ⟨{ r with fixedPart := fixedBytes pre ++ (v.fixedBytes ++ fixedBytes post) }, ?_, rfl,
      hafter _ rfl rfl rfl⟩
    rw [Row.updateFixed, hread, if_neg hsame, hwrite]
    rfl

theorem update (h : r.Stores vals) {c : Nat} {old v : Value} (hc : vals[c]? = some old)
    (hk : v.kind = old.kind) :
    ∃ r', r.update c v = some r' ∧ r'.schema = r.schema ∧ r'.Stores (vals.set c v) := by
  obtain ⟨-, -, info, -, -, hinfo, -, htype, hne, -⟩ := h.column hc
  by_cases hstr : old.kind = .str
  · obtain ⟨s, rfl⟩ := Value.kind_eq_str hstr
    obtain ⟨s', rfl⟩ := Value.kind_eq_str (hk.trans hstr)
    exact h.updateStr hc s'
  · obtain ⟨r', hupdate, hr'⟩ := h.updateFixed hc hinfo hk (hk.symm ▸ hstr)
    refine ⟨r', ?_, hr'⟩
    rw [← hupdate]
    have htype' : info.type = v.kind := htype.trans hk.symm
    cases v with
    | unknown => exact absurd hk.symm hne
    | str s => exact absurd hk.symm hstr
    | i32 v | i64 v | double v => simp only [Row.update, hinfo, if_pos htype']

end Row.Stores

end Jetpack.Rows
