import Jetpack.Library.Comparing
import Jetpack.Rows.Updates

/-! The comparison of keys, column by column. -/

namespace Jetpack.Rows

def signOf {α : Type} [LinearOrder α] (a b : α) : Int := if a < b then -1 else if b < a then 1 else 0

def memcmp : List Byte → List Byte → Int
  | a :: as, b :: bs => if signOf a.toNat b.toNat = 0 then memcmp as bs else signOf a.toNat b.toNat
  | _, _ => 0

def doubleIsNaN (bits : BitVec 64) : Prop := 0x7FF0000000000000 < bits.toNat % 2 ^ 63

instance (bits : BitVec 64) : Decidable (doubleIsNaN bits) :=
  inferInstanceAs (Decidable (0x7FF0000000000000 < bits.toNat % 2 ^ 63))

/-- The order of the doubles that are numbers; both zeros are one. -/
def doubleRank (bits : BitVec 64) : Int :=
  if bits.toNat < 2 ^ 63 then bits.toNat else -(bits.toNat % 2 ^ 63 : Nat)

/-- A comparison with a NaN is false both ways. -/
def compareDouble (a b : BitVec 64) : Int :=
  if doubleIsNaN a ∨ doubleIsNaN b then 0 else signOf (doubleRank a) (doubleRank b)

def loadInt (w : Nat) (bs : List Byte) : BitVec w := BitVec.ofInt w (LittleEndian.ofBytes bs)

def compareColumn (kind : Kind) (a b : List Byte) : Int :=
  match kind with
  | .unknown => 0
  | .i32 => signOf (loadInt 32 a).toInt (loadInt 32 b).toInt
  | .i64 => signOf (loadInt 64 a).toInt (loadInt 64 b).toInt
  | .double => compareDouble (loadInt 64 a) (loadInt 64 b)
  | .str =>
    let size := min a.length b.length
    let cmp := memcmp (a.take size) (b.take size)
    if cmp < 0 then -1
    else if 0 < cmp then 1
    else signOf a.length b.length

def compare : List Kind → List (List Byte) → List (List Byte) → Int
  | kind :: kinds, a :: as, b :: bs =>
    if compareColumn kind a b = 0 then compare kinds as bs else compareColumn kind a b
  | _, _, _ => 0

def less (kinds : List Kind) (a b : List (List Byte)) : Bool := compare kinds a b = -1

theorem signOf_swap {α : Type} [LinearOrder α] (a b : α) : signOf b a = - signOf a b := by
  rcases lt_trichotomy a b with h | h | h
  · simp [signOf, h, h.le]
  · simp [signOf, h]
  · simp [signOf, h, h.le]

theorem signOf_cases {α : Type} [LinearOrder α] (a b : α) :
    signOf a b = -1 ∨ signOf a b = 0 ∨ signOf a b = 1 := by
  unfold signOf
  split_ifs <;> simp

theorem signOf_eq_neg {α : Type} [LinearOrder α] {a b : α} : signOf a b = -1 ↔ a < b := by
  unfold signOf
  split_ifs with h1 h2 <;> simp [h1]

theorem signOf_eq_zero {α : Type} [LinearOrder α] {a b : α} : signOf a b = 0 ↔ a = b := by
  unfold signOf
  split_ifs with h1 h2
  · simp [h1.ne]
  · simp [h2.ne']
  · simpa using le_antisymm (not_lt.mp h2) (not_lt.mp h1)

theorem memcmp_swap (a b : List Byte) : memcmp b a = - memcmp a b := by
  induction a generalizing b with
  | nil => cases b <;> simp [memcmp]
  | cons x a ih =>
    cases b with
    | nil => simp [memcmp]
    | cons y b =>
      have hswap := signOf_swap x.toNat y.toNat
      simp only [memcmp, ih b, hswap, neg_eq_zero]
      split_ifs <;> rfl

theorem compareColumn_swap (kind : Kind) (a b : List Byte) :
    compareColumn kind b a = - compareColumn kind a b := by
  cases kind with
  | unknown => rfl
  | i32 => exact signOf_swap _ _
  | i64 => exact signOf_swap _ _
  | double =>
    simp only [compareColumn, compareDouble, or_comm (a := doubleIsNaN (loadInt 64 b))]
    split_ifs
    · rfl
    · exact signOf_swap _ _
  | str =>
    have hcmp := memcmp_swap (a.take (min a.length b.length)) (b.take (min a.length b.length))
    have hlen := signOf_swap a.length b.length
    simp only [compareColumn, min_comm b.length a.length, hcmp, hlen]
    split_ifs <;> omega

theorem compare_swap (kinds : List Kind) (a b : List (List Byte)) :
    compare kinds b a = - compare kinds a b := by
  induction kinds generalizing a b with
  | nil => simp [compare]
  | cons kind kinds ih =>
    cases a with
    | nil => cases b <;> simp [compare]
    | cons x a =>
      cases b with
      | nil => simp [compare]
      | cons y b =>
        have hswap := compareColumn_swap kind x y
        simp only [compare, hswap, neg_eq_zero, ih a b]
        split_ifs <;> rfl

theorem less_asymm (kinds : List Kind) (a b : List (List Byte)) (h : less kinds a b = true) :
    less kinds b a = false := by
  have hab : compare kinds a b = -1 := of_decide_eq_true h
  have hne : compare kinds b a ≠ -1 := by
    rw [compare_swap, hab]
    decide
  exact decide_eq_false hne

theorem less_self (kinds : List Kind) (a : List (List Byte)) : less kinds a a = false := by
  have hself := compare_swap kinds a a
  have hne : compare kinds a a ≠ -1 := by omega
  exact decide_eq_false hne

section Ranks

/-- What a column is ordered by, when it is no NaN. -/
def rank (kind : Kind) (bs : List Byte) : List Int :=
  match kind with
  | .unknown => []
  | .i32 => [(loadInt 32 bs).toInt]
  | .i64 => [(loadInt 64 bs).toInt]
  | .double => [doubleRank (loadInt 64 bs)]
  | .str => bs.map fun b => (b.toNat : Int)

/-- A column of a key in which no NaN stands. -/
def Comparable (kind : Kind) (bs : List Byte) : Prop := kind = .double → ¬ doubleIsNaN (loadInt 64 bs)

theorem signOf_cons {α : Type} [LinearOrder α] (x y : α) (xs ys : List α) :
    signOf (x :: xs) (y :: ys) = if signOf x y = 0 then signOf xs ys else signOf x y := by
  rcases lt_trichotomy x y with h | rfl | h
  · have hlt : x :: xs < y :: ys := List.Lex.rel h
    rw [signOf_eq_neg.mpr h, if_neg (by decide)]
    exact signOf_eq_neg.mpr hlt
  · rw [if_pos (signOf_eq_zero.mpr rfl)]
    simp only [signOf, List.cons_lt_cons_self]
    split_ifs <;> rfl
  · have hlt : y :: ys < x :: xs := List.Lex.rel h
    rw [signOf_swap (y :: ys), signOf_eq_neg.mpr hlt, signOf_swap y x, signOf_eq_neg.mpr h]
    simp

theorem signOf_cast (a b : Nat) : signOf (a : Int) (b : Int) = signOf a b := by
  simp [signOf]

/-- Strings compare like their lists of bytes. -/
theorem compareColumn_str (a b : List Byte) :
    compareColumn .str a b = signOf (rank .str a) (rank .str b) := by
  induction a generalizing b with
  | nil =>
    cases b with
    | nil => rfl
    | cons y b => simp [compareColumn, memcmp, rank, signOf]
  | cons x a ih =>
    cases b with
    | nil => simp [compareColumn, memcmp, rank, signOf]
    | cons y b =>
      have hrest := ih b
      have hlen : signOf (a.length + 1) (b.length + 1) = signOf a.length b.length := by
        simp [signOf]
      have hmin : min (a.length + 1) (b.length + 1) = min a.length b.length + 1 := by omega
      simp only [compareColumn, rank, List.map_cons, List.length_cons, hmin, List.take_succ_cons,
        memcmp, hlen] at hrest ⊢
      rw [signOf_cons, signOf_cast, ← hrest]
      rcases signOf_cases x.toNat y.toNat with h | h | h <;> simp [h]

theorem compareColumn_rank {kind : Kind} {a b : List Byte} (ha : Comparable kind a)
    (hb : Comparable kind b) : compareColumn kind a b = signOf (rank kind a) (rank kind b) := by
  have hone : ∀ x y : Int, signOf [x] [y] = signOf x y := by
    intro x y
    rw [signOf_cons]
    by_cases h : signOf x y = 0
    · rw [if_pos h, h]
      exact signOf_eq_zero.mpr rfl
    · rw [if_neg h]
  cases kind with
  | unknown => rfl
  | i32 => exact (hone _ _).symm
  | i64 => exact (hone _ _).symm
  | double =>
    have hnot : ¬ (doubleIsNaN (loadInt 64 a) ∨ doubleIsNaN (loadInt 64 b)) :=
      not_or.mpr ⟨ha rfl, hb rfl⟩
    simp only [compareColumn, compareDouble, if_neg hnot]
    exact (hone _ _).symm
  | str => exact compareColumn_str a b

/-- A key without NaN has as many columns as there are kinds. -/
def ComparableKey (kinds : List Kind) (key : List (List Byte)) : Prop :=
  List.Forall₂ Comparable kinds key

theorem compare_rank {kinds : List Kind} {a b : List (List Byte)} (ha : ComparableKey kinds a)
    (hb : ComparableKey kinds b) :
    compare kinds a b = signOf (List.zipWith rank kinds a) (List.zipWith rank kinds b) := by
  induction ha generalizing b with
  | nil =>
    cases hb
    exact (signOf_eq_zero.mpr rfl).symm
  | cons hx _ ih =>
    cases hb with
    | cons hy hb =>
      rw [List.zipWith_cons_cons, List.zipWith_cons_cons, signOf_cons, ← ih hb,
        ← compareColumn_rank hx hy, compare]

theorem weakOn_of_comparable {kinds : List Kind} {s : List (List Byte) → Prop}
    (h : ∀ key, s key → ComparableKey kinds key) : Comparing.WeakOn (less kinds) s := by
  have hless : ∀ a b, s a → s b →
      (less kinds a b = false ↔ List.zipWith rank kinds b ≤ List.zipWith rank kinds a) := by
    intro a b ha hb
    rw [less, decide_eq_false_iff_not, compare_rank (h a ha) (h b hb), signOf_eq_neg, not_lt]
  intro a b c ha hb hc hab hbc
  rw [hless a b ha hb] at hab
  rw [hless b c hb hc] at hbc
  rw [hless a c ha hc]
  exact hbc.trans hab

end Ranks

end Jetpack.Rows
