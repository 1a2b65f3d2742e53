import Mathlib

/-! The partition of a key. A negative number counts by its value as an I64, and by its value plus
`2 ^ 32` as an I32. -/

namespace Jetpack.Sharding

/-- A double is given by the integer that it is rounded down to. -/
inductive Value where
  | UNKNOWN
  | I32 (v : BitVec 32)
  | I64 (v : BitVec 64)
  | DOUBLE (floor : Int)
  | STR (s : List (BitVec 8))

inductive Method where
  | MODULUS
  | INT_MODULUS

/-- `buf > 0 ? (uint32_t) buf : (uint32_t) (-buf)` -/
def magnitude (buf : Int) : Nat :=
  if buf > 0 then (buf % 2 ^ 32).toNat else (-buf % 2 ^ 32).toNat

/-- A char as an unsigned number. -/
def code (c : BitVec 8) : Nat := (c.signExtend 32).toNat

def charSum (_n : Nat) (s : List (BitVec 8)) : Nat :=
  s.foldl (fun sum c => (sum + code c) % 2 ^ 32) 0

def digitSum (n : Nat) (s : List (BitVec 8)) : Nat :=
  (s.reverse.foldl (fun (x : Nat × Nat) c =>
    ((x.1 + x.2 * code c % 2 ^ 32) % 2 ^ 32 % n, x.2 * 127 % 2 ^ 32 % n)) (0, 1)).1

/-- `verify(0)` -/
def notImplemented (_index : Nat) : Option Nat := none

/-- One component of the key. The case of a string runs into that of an unknown value. -/
def addComponent (strSum : Nat → List (BitVec 8) → Nat) (n index : Nat) : Value → Option Nat
  | .I32 v => some ((index + magnitude (v.toNat % n : Nat)) % 2 ^ 32 % n)
  | .I64 v => some ((index + magnitude (v.toInt.tmod n)) % 2 ^ 32 % n)
  | .DOUBLE floor => some ((index + magnitude (floor.tmod n)) % 2 ^ 32 % n)
  | .STR s => notImplemented ((index + strSum n s % n) % 2 ^ 32)
  | .UNKNOWN => notImplemented index

def addComponents (strSum : Nat → List (BitVec 8) → Nat) (key : List Value) (n : Nat) :
    Option Nat :=
  (key.foldlM (addComponent strSum n) 0).map (· % n)

def modulus (key : List Value) (n : Nat) : Option Nat := addComponents charSum key n

def intModulus (key : List Value) (n : Nat) : Option Nat := addComponents digitSum key n

def Method.partition : Method → List Value → Nat → Option Nat
  | .MODULUS => modulus
  | .INT_MODULUS => intModulus

def Value.isNumber : Value → Bool
  | .I32 _ | .I64 _ => true
  | .UNKNOWN | .DOUBLE _ | .STR _ => false

def Value.isString : Value → Bool
  | .STR _ => true
  | .UNKNOWN | .I32 _ | .I64 _ | .DOUBLE _ => false

def Value.same : Value → Value → Prop
  | .I32 v, .I32 w => v.toInt = w.toInt
  | .I32 v, .I64 w => v.toInt = w.toInt
  | .I64 v, .I32 w => v.toInt = w.toInt
  | .I64 v, .I64 w => v.toInt = w.toInt
  | .STR s, .STR t => s = t
  | _, _ => False

/-- By how much a component counts more than one of the same value. -/
def Value.excess : Value → Value → Int
  | .I32 v, .I64 _ => if v.toInt < 0 then 2 ^ 32 + 2 * v.toInt else 0
  | .I64 _, .I32 w => if w.toInt < 0 then -(2 ^ 32 + 2 * w.toInt) else 0
  | _, _ => 0

def keyExcess (key key' : List Value) : Int := (List.zipWith Value.excess key key').sum

def Value.weight : Value → Nat
  | .I32 v => v.toNat
  | .I64 v => v.toInt.natAbs
  | .UNKNOWN | .DOUBLE _ | .STR _ => 0

variable {strSum : Nat → List (BitVec 8) → Nat} {n index : Nat}

theorem magnitude_eq {buf : Int} (h : buf.natAbs < 2 ^ 32) : magnitude buf = buf.natAbs := by
  rw [magnitude]
  split
  · next hpos =>
    rw [Int.emod_eq_of_lt (by omega) (by omega)]
    omega
  · next hneg =>
    rw [Int.emod_eq_of_lt (by omega) (by omega)]
    omega

theorem addComponent_number (hn : 0 < n) (hbound : n ≤ 2 ^ 31) (hindex : index < n) {v : Value}
    (hv : v.isNumber = true) :
    addComponent strSum n index v = some ((index + v.weight) % n) := by
  have hlt : ∀ w : Nat, (index + w % n) % 2 ^ 32 % n = (index + w) % n := by
    intro w
    have hw := Nat.mod_lt w hn
    rw [Nat.mod_eq_of_lt (by omega : index + w % n < 2 ^ 32), Nat.add_mod_mod]
  cases v with
  | I32 v =>
    have hmod := Nat.mod_lt v.toNat hn
    have hmagnitude : magnitude (v.toNat % n : Nat) = v.toNat % n := by
      rw [magnitude_eq (by omega)]
      omega
    rw [addComponent, hmagnitude, hlt]
    rfl
  | I64 v =>
    have habs : (v.toInt.tmod n).natAbs = v.toInt.natAbs % n := by
      rw [Int.natAbs_tmod, Int.natAbs_natCast]
    have hmod := Nat.mod_lt v.toInt.natAbs hn
    have hmagnitude : magnitude (v.toInt.tmod n) = v.toInt.natAbs % n := by
      rw [magnitude_eq (by omega), habs]
    rw [addComponent, hmagnitude, hlt]
    rfl
  | UNKNOWN | DOUBLE _ | STR _ => cases hv

theorem foldlM_numbers (hn : 0 < n) (hbound : n ≤ 2 ^ 31) (hindex : index < n) {key : List Value}
    (hkey : ∀ v ∈ key, v.isNumber = true) :
    key.foldlM (addComponent strSum n) index =
      some ((index + (key.map Value.weight).sum) % n) := by
  induction key generalizing index with
  | nil =>
    rw [List.map_nil, List.sum_nil, Nat.add_zero, Nat.mod_eq_of_lt hindex]
    rfl
  | cons v key ih =>
    have hrest : ∀ w ∈ key, w.isNumber = true := fun w hw => hkey w (List.mem_cons_of_mem v hw)
    rw [List.foldlM_cons, addComponent_number hn hbound hindex (hkey v List.mem_cons_self)]
    show key.foldlM (addComponent strSum n) ((index + v.weight) % n) = _
    rw [ih (Nat.mod_lt _ hn) hrest, List.map_cons, List.sum_cons, Nat.mod_add_mod, Nat.add_assoc]

theorem foldlM_string {key : List Value} (hkey : ∃ v ∈ key, v.isString = true) :
    key.foldlM (addComponent strSum n) index = none := by
  induction key generalizing index with
  | nil =>
    obtain ⟨v, hv, -⟩ := hkey
    cases hv
  | cons v key ih =>
    rw [List.foldlM_cons]
    obtain ⟨w, hw, hstring⟩ := hkey
    rcases List.mem_cons.mp hw with rfl | hw
    · cases w with
      | STR s => rfl
      | UNKNOWN | I32 _ | I64 _ | DOUBLE _ => cases hstring
    · cases addComponent strSum n index v with
      | none => rfl
      | some index' => exact ih ⟨w, hw, hstring⟩

theorem weight_sub_weight {v w : Value} (h : v.same w) :
    (v.weight : Int) - w.weight = v.excess w := by
  have hI32 : ∀ u : BitVec 32, (u.toNat : Int) = if u.toInt < 0 then u.toInt + 2 ^ 32 else u.toInt := by
    intro u
    have hlt := u.isLt
    rw [BitVec.toInt_eq_toNat_cond]
    split <;> split <;> omega
  cases v with
  | I32 v =>
    cases w with
    | I32 w =>
      have heq : v = w := BitVec.eq_of_toInt_eq h
      rw [heq]
      exact sub_self _
    | I64 w =>
      have heq : v.toInt = w.toInt := h
      show (v.toNat : Int) - (w.toInt.natAbs : Int) =
        if v.toInt < 0 then 2 ^ 32 + 2 * v.toInt else 0
      rw [hI32]
      split <;> omega
    | UNKNOWN | DOUBLE _ | STR _ => cases h
  | I64 v =>
    cases w with
    | I32 w =>
      have heq : v.toInt = w.toInt := h
      show (v.toInt.natAbs : Int) - (w.toNat : Int) =
        if w.toInt < 0 then -(2 ^ 32 + 2 * w.toInt) else 0
      rw [hI32]
      split <;> omega
    | I64 w =>
      have heq : v.toInt = w.toInt := h
      show (v.toInt.natAbs : Int) - (w.toInt.natAbs : Int) = 0
      omega
    | UNKNOWN | DOUBLE _ | STR _ => cases h
  | STR s =>
    cases w with
    | STR t => rfl
    | UNKNOWN | I32 _ | I64 _ | DOUBLE _ => cases h
  | UNKNOWN | DOUBLE _ => cases w <;> cases h

theorem sum_weight_sub {key key' : List Value} (h : List.Forall₂ Value.same key key') :
    ((key.map Value.weight).sum : Int) - (key'.map Value.weight).sum = keyExcess key key' := by
  induction h with
  | nil => rfl
  | @cons v w key key' hvw _ ih =>
    have hhead := weight_sub_weight hvw
    rw [keyExcess] at ih
    rw [keyExcess, List.zipWith_cons_cons, List.sum_cons, ← hhead, ← ih, List.map_cons,
      List.map_cons, List.sum_cons, List.sum_cons]
    push_cast
    omega

theorem same_numbers {key key' : List Value} (h : List.Forall₂ Value.same key key') :
    (∀ v ∈ key, v.isString = false) ↔
      (∀ v ∈ key, v.isNumber = true) ∧ ∀ v ∈ key', v.isNumber = true := by
  induction h with
  | nil => simp
  | @cons v w key key' hvw _ ih =>
    have hhead : v.isString = false ↔ v.isNumber = true ∧ w.isNumber = true := by
      cases v <;> cases w <;> simp_all [Value.isString, Value.isNumber, Value.same]
    simp only [List.forall_mem_cons, ih, hhead]
    tauto

theorem foldlM_some (hn : 0 < n) (hindex : index < n) {key : List Value}
    (hkey : ∀ v ∈ key, v.isNumber = true) :
    ∃ p, p < n ∧ key.foldlM (addComponent strSum n) index = some p := by
  induction key generalizing index with
  | nil => exact ⟨index, hindex, rfl⟩
  | cons v key ih =>
    have hrest : ∀ w ∈ key, w.isNumber = true := fun w hw => hkey w (List.mem_cons_of_mem v hw)
    obtain ⟨index', hindex', hadd⟩ : ∃ index', index' < n ∧
        addComponent strSum n index v = some index' := by
      have hv := hkey v List.mem_cons_self
      cases v with
      | I32 v => exact ⟨_, Nat.mod_lt _ hn, rfl⟩
      | I64 v => exact ⟨_, Nat.mod_lt _ hn, rfl⟩
      | UNKNOWN | DOUBLE _ | STR _ => cases hv
    rw [List.foldlM_cons, hadd]
    exact ih hindex' hrest

/-- A key is mapped to a partition if it holds no strings. Two keys of the same value are mapped to
the same one if also what the one counts more than the other is a multiple of the partitions. -/
theorem partition_exact (method : Method) (hn : 0 < n) {key key' : List Value}
    (hsame : List.Forall₂ Value.same key key') :
    ((∃ p, p < n ∧ method.partition key n = some p) ↔ ∀ v ∈ key, v.isString = false) ∧
      (n ≤ 2 ^ 31 →
        ((∃ p, p < n ∧ method.partition key n = some p ∧ method.partition key' n = some p) ↔
          (∀ v ∈ key, v.isString = false) ∧ (n : Int) ∣ keyExcess key key')) := by
  obtain ⟨strSum, hmethod⟩ : ∃ strSum, ∀ key,
      method.partition key n = addComponents strSum key n := by
    cases method with
    | MODULUS => exact ⟨charSum, fun _ => rfl⟩
    | INT_MODULUS => exact ⟨digitSum, fun _ => rfl⟩
  simp only [hmethod]
  by_cases hstring : ∀ v ∈ key, v.isString = false
  · obtain ⟨hkey, hkey'⟩ := (same_numbers hsame).mp hstring
    constructor
    · rw [iff_true_right hstring]
      obtain ⟨p, hp, hfold⟩ : ∃ p, p < n ∧ key.foldlM (addComponent strSum n) 0 = some p :=
        foldlM_some hn hn hkey
      exact ⟨p % n, Nat.mod_lt p hn, by rw [addComponents, hfold, Option.map_some]⟩
    · intro hbound
      have hresult : ∀ {key : List Value}, (∀ v ∈ key, v.isNumber = true) →
          addComponents strSum key n = some ((key.map Value.weight).sum % n) := by
        intro key hkey
        rw [addComponents, foldlM_numbers hn hbound hn hkey, Option.map_some, Nat.mod_mod,
          Nat.zero_add]
      have hdvd : (key'.map Value.weight).sum % n = (key.map Value.weight).sum % n ↔
          (n : Int) ∣ keyExcess key key' := by
        rw [← sum_weight_sub hsame]
        exact Nat.modEq_iff_dvd
      rw [hresult hkey, hresult hkey', and_iff_right hstring, ← hdvd]
      constructor
      · rintro ⟨p, -, hp, hp'⟩
        exact Option.some.inj (hp'.trans hp.symm)
      · intro heq
        exact ⟨_, Nat.mod_lt _ hn, rfl, congrArg some heq⟩
  · have hnone : addComponents strSum key n = none := by
      have hfold : key.foldlM (addComponent strSum n) 0 = none := by
        apply foldlM_string
        by_contra hnot
        push Not at hnot
        exact hstring fun v hv => by simpa using hnot v hv
      rw [addComponents, hfold, Option.map_none]
    have hfail : ∀ {P : Nat → Prop}, ¬ ∃ p, p < n ∧ addComponents strSum key n = some p ∧ P p := by
      rintro P ⟨p, -, hp, -⟩
      rw [hnone] at hp
      cases hp
    constructor
    · rw [iff_false_right hstring]
      rintro ⟨p, hp, heq⟩
      exact hfail (P := fun _ => True) ⟨p, hp, heq, trivial⟩
    · intro _
      rw [iff_false_right fun h => hstring h.1]
      exact hfail

theorem partition_exact_five :
    ∃ p, p < 3 ∧ Method.MODULUS.partition [.I32 5, .I64 (-4)] 3 = some p ∧
      Method.MODULUS.partition [.I64 5, .I64 (-4)] 3 = some p := by
  have hsame : List.Forall₂ Value.same [.I32 5, .I64 (-4)] [.I64 5, .I64 (-4)] :=
    .cons (by decide : (5 : BitVec 32).toInt = (5 : BitVec 64).toInt) (.cons rfl .nil)
  have hexact := (partition_exact .MODULUS (by decide : 0 < 3) hsame).2 (by decide)
  exact hexact.mpr ⟨by decide, by decide⟩

/-- The number -1 is mapped to two partitions of three, and a string to none. -/
theorem partition_differs :
    Method.MODULUS.partition [.I32 (-1)] 3 = some 0 ∧ Method.MODULUS.partition [.I64 (-1)] 3 = some 1 ∧
      Method.INT_MODULUS.partition [.I32 (-1)] 3 = some 0 ∧
      Method.INT_MODULUS.partition [.I64 (-1)] 3 = some 1 ∧
      Method.MODULUS.partition [.STR [97]] 3 = none ∧
      Method.INT_MODULUS.partition [.STR [97]] 3 = none := by
  decide

end Jetpack.Sharding
