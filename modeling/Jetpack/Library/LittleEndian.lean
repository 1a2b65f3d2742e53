import Mathlib

/-! Integers in two's complement as bytes, the lowest byte first. -/

namespace LittleEndian

def byte (v : Int) (i : Nat) : BitVec 8 := BitVec.ofInt 8 (v / 256 ^ i)

def toBytes (n : Nat) (v : Int) : List (BitVec 8) := (List.range n).map (byte v)

def ofBytes : List (BitVec 8) → Int
  | [] => 0
  | b :: bs => b.toNat + 256 * ofBytes bs

/-- The signed integer in bytes of a type that is `w` bytes wide. -/
def ofSigned (w : Nat) (bs : List (BitVec 8)) : Int := (ofBytes bs).bmod (256 ^ w)

theorem toNat_byte (v : Int) (i : Nat) : ((byte v i).toNat : Int) = v / 256 ^ i % 256 := by
  simp [byte, BitVec.toNat_ofInt]
  omega

@[simp]
theorem length_toBytes (n : Nat) (v : Int) : (toBytes n v).length = n := by
  simp [toBytes]

theorem ofBytes_append (a b : List (BitVec 8)) :
    ofBytes (a ++ b) = ofBytes a + 256 ^ a.length * ofBytes b := by
  induction a with
  | nil => simp [ofBytes]
  | cons x a ih =>
    simp only [List.cons_append, ofBytes, ih, List.length_cons]
    ring

theorem ofBytes_replicate (n : Nat) : ofBytes (List.replicate n 0xFF#8) = 256 ^ n - 1 := by
  induction n with
  | zero => rfl
  | succ n ih =>
    rw [List.replicate_succ, ofBytes, ih, show ((0xFF#8).toNat : Int) = 255 from rfl]
    ring

theorem emod_mul_digits {a b : Int} (ha : 0 < a) (hb : 0 < b) (x : Int) :
    x % (a * b) = x % a + a * (x / a % b) := by
  have hx := Int.emod_add_mul_ediv x a
  have hq := Int.emod_add_mul_ediv (x / a) b
  have hlo := Int.emod_nonneg x (Int.ne_of_gt ha)
  have hhi := Int.emod_lt_of_pos x ha
  have hqlo := Int.emod_nonneg (x / a) (Int.ne_of_gt hb)
  have hqhi := Int.emod_lt_of_pos (x / a) hb
  refine ((Int.ediv_emod_unique (q := x / a / b) (mul_pos ha hb)).mpr ⟨?_, by positivity, ?_⟩).2
  · calc x % a + a * (x / a % b) + a * b * (x / a / b)
        = x % a + a * (x / a % b + b * (x / a / b)) := by ring
      _ = x := by rw [hq, hx]
  · nlinarith

theorem ofBytes_toBytes (n : Nat) (v : Int) : ofBytes (toBytes n v) = v % 256 ^ n := by
  induction n with
  | zero => simp [toBytes, ofBytes]
  | succ n ih =>
    have hsplit : toBytes (n + 1) v = toBytes n v ++ [byte v n] := by
      simp [toBytes, List.range_succ]
    rw [hsplit, ofBytes_append, ih, length_toBytes, pow_succ,
      emod_mul_digits (by positivity) (by decide)]
    simp only [ofBytes, toNat_byte, mul_zero, add_zero]

/-- An integer that the type can hold is read back, whatever the multiple of its range that was
added to it. -/
theorem bmod_add_mul {w : Nat} {v : Int} (k : Int) (hlo : -(256 ^ w) ≤ 2 * v)
    (hhi : 2 * v < 256 ^ w) : (v + 256 ^ w * k).bmod (256 ^ w) = v := by
  have hcast : ((256 ^ w : Nat) : Int) = 256 ^ w := by push_cast; rfl
  rw [← hcast, Int.add_mul_bmod_self_left]
  apply Int.bmod_eq_of_le_mul_two
  · rw [hcast]
    linarith
  · rw [hcast]
    linarith

theorem ofSigned_toBytes {w : Nat} {v : Int} (hlo : -(256 ^ w) ≤ 2 * v) (hhi : 2 * v < 256 ^ w) :
    ofSigned w (toBytes w v) = v := by
  unfold ofSigned
  have hdiv := Int.emod_add_mul_ediv v (256 ^ w)
  rw [ofBytes_toBytes, show v % 256 ^ w = v + 256 ^ w * -(v / 256 ^ w) by linarith]
  exact bmod_add_mul _ hlo hhi

theorem ofBytes_bounds (bs : List (BitVec 8)) : 0 ≤ ofBytes bs ∧ ofBytes bs < 256 ^ bs.length := by
  induction bs with
  | nil => simp [ofBytes]
  | cons b bs ih =>
    have hb := b.isLt
    rw [ofBytes, List.length_cons, pow_succ]
    omega

theorem toBytes_ofBytes (bs : List (BitVec 8)) : toBytes bs.length (ofBytes bs) = bs := by
  induction bs with
  | nil => rfl
  | cons b bs ih =>
    have hb : (b.toNat : Int) < 256 := by exact_mod_cast b.isLt
    have hfirst : byte (ofBytes (b :: bs)) 0 = b := by
      apply BitVec.eq_of_toNat_eq
      have h := toNat_byte (ofBytes (b :: bs)) 0
      rw [ofBytes, pow_zero, Int.ediv_one, Int.add_mul_emod_self_left] at h
      rw [ofBytes]
      omega
    have hrest : ∀ i, byte (ofBytes (b :: bs)) (i + 1) = byte (ofBytes bs) i := by
      intro i
      have hdiv : ofBytes (b :: bs) / 256 = ofBytes bs := by
        rw [ofBytes]
        omega
      rw [byte, byte, pow_succ', ← Int.ediv_ediv_of_nonneg (by norm_num), hdiv]
    have htail : (List.range bs.length).map (byte (ofBytes (b :: bs)) ∘ Nat.succ) = bs :=
      (List.map_congr_left fun i _ => hrest i).trans ih
    rw [toBytes, List.length_cons, List.range_succ_eq_map, List.map_cons, List.map_map, hfirst, htail]

end LittleEndian
