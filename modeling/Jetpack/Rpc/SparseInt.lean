import Jetpack.Library.LittleEndian
import Jetpack.Rpc.ByteQueue

/-! Integers of variable length: the leading ones of the first byte give the number of bytes. -/

namespace Jetpack.Rpc

open LittleEndian

namespace SparseInt

def bufSize (byte0 : Byte) : Nat :=
  if byte0 &&& 0x80 = 0 then 1
  else if byte0 &&& 0xC0 = 0x80 then 2
  else if byte0 &&& 0xE0 = 0xC0 then 3
  else if byte0 &&& 0xF0 = 0xE0 then 4
  else if byte0 &&& 0xF8 = 0xF0 then 5
  else if byte0 &&& 0xFC = 0xF8 then 6
  else if byte0 &&& 0xFE = 0xFC then 7
  else if byte0 &&& 0xFF = 0xFE then 8
  else 9

def valSize (val : Int) : Nat :=
  if -64 ≤ val ∧ val ≤ 63 then 1
  else if -8192 ≤ val ∧ val ≤ 8191 then 2
  else if -1048576 ≤ val ∧ val ≤ 1048575 then 3
  else if -134217728 ≤ val ∧ val ≤ 134217727 then 4
  else if -17179869184 ≤ val ∧ val ≤ 17179869183 then 5
  else if -2199023255552 ≤ val ∧ val ≤ 2199023255551 then 6
  else if -281474976710656 ≤ val ∧ val ≤ 281474976710655 then 7
  else if -36028797018963968 ≤ val ∧ val ≤ 36028797018963967 then 8
  else 9

/-- The highest of `n` bytes comes first, with the mark of the length in its upper bits. -/
def dumpShort (val : Int) (n : Nat) (mask mark : Byte) : List Byte :=
  (byte val (n - 1) &&& mask ||| mark) :: (toBytes (n - 1) val).reverse

def dumpI32 (val : Int) : List Byte :=
  if -64 ≤ val ∧ val ≤ 63 then dumpShort val 1 0x7F 0x00
  else if -8192 ≤ val ∧ val ≤ 8191 then dumpShort val 2 0x3F 0x80
  else if -1048576 ≤ val ∧ val ≤ 1048575 then dumpShort val 3 0x1F 0xC0
  else if -134217728 ≤ val ∧ val ≤ 134217727 then dumpShort val 4 0x0F 0xE0
  else (if val < 0 then 0xF7 else 0xF0) :: (toBytes 4 val).reverse

/-- The last but one branch fills in nine bytes and returns 8, so that the lowest byte is not
written. -/
def dumpI64 (val : Int) : List Byte :=
  if -64 ≤ val ∧ val ≤ 63 then dumpShort val 1 0x7F 0x00
  else if -8192 ≤ val ∧ val ≤ 8191 then dumpShort val 2 0x3F 0x80
  else if -1048576 ≤ val ∧ val ≤ 1048575 then dumpShort val 3 0x1F 0xC0
  else if -134217728 ≤ val ∧ val ≤ 134217727 then dumpShort val 4 0x0F 0xE0
  else if -17179869184 ≤ val ∧ val ≤ 17179869183 then dumpShort val 5 0x07 0xF0
  else if -2199023255552 ≤ val ∧ val ≤ 2199023255551 then dumpShort val 6 0x03 0xF8
  else if -281474976710656 ≤ val ∧ val ≤ 281474976710655 then dumpShort val 7 0x01 0xFC
  else if -36028797018963968 ≤ val ∧ val ≤ 36028797018963967 then
    (0xFE :: (toBytes 8 val).reverse).take 8
  else 0xFF :: (toBytes 8 val).reverse

/-- An integer of `w` bytes. From `limit` bytes on the first one is only a mark. Reading past the
bytes of `buf` is undefined. -/
def load (w limit : Nat) (buf : List Byte) : Option Int := do
  let byte0 ← buf[0]?
  let bsize := bufSize byte0
  if bsize < limit then
    if buf.length < bsize then none
    else
      let low := ((buf.take bsize).drop 1).reverse
      let top := byte0 &&& (0xFF#8 >>> bsize)
      if (top >>> (7 - bsize)) &&& 1 = 1 then
        return ofSigned w
          (low ++ [top ||| (0xFF#8 <<< (7 - bsize))] ++ List.replicate (w - bsize) 0xFF#8)
      else return ofSigned w (low ++ [top])
  else if buf.length ≤ w then none
  else return ofSigned w ((buf.take (w + 1)).drop 1).reverse

def loadI32 : List Byte → Option Int := load 4 5

def loadI64 : List Byte → Option Int := load 8 8

/-- What `operator>>` takes from a queue of bytes, with a buffer of `cap` bytes on the stack. -/
def get (cap : Nat) (load : List Byte → Option Int) (bytes : List Byte) :
    Option (Int × List Byte) := do
  let byte0 ← bytes[0]?
  let bsize := bufSize byte0
  if cap < bsize ∨ bytes.length < bsize then none
  else
    let val ← load (bytes.take bsize)
    return (val, bytes.drop bsize)

theorem short_head {n : Nat} (hpos : 0 < n) (hle : n ≤ 7) (b : Byte) :
    bufSize (b &&& (0xFF#8 >>> n) ||| (0xFF#8 <<< (9 - n))) = n ∧
      (b &&& (0xFF#8 >>> n) ||| (0xFF#8 <<< (9 - n))) &&& (0xFF#8 >>> n) = b &&& (0xFF#8 >>> n) := by
  interval_cases n <;> revert b <;> decide +kernel

theorem short_top {n : Nat} (hpos : 0 < n) (hle : n ≤ 7) (b : Byte) :
    (b &&& (0xFF#8 >>> n)).toNat = b.toNat % 2 ^ (8 - n) ∧
      ((b &&& (0xFF#8 >>> n)) >>> (7 - n) &&& 1 = 1 ↔ 2 ^ (7 - n) ≤ b.toNat % 2 ^ (8 - n)) ∧
      (2 ^ (7 - n) ≤ b.toNat % 2 ^ (8 - n) →
        ((b &&& (0xFF#8 >>> n)) ||| (0xFF#8 <<< (7 - n))).toNat + 2 ^ (8 - n) =
          b.toNat % 2 ^ (8 - n) + 256) := by
  interval_cases n <;> revert b <;> decide +kernel

theorem byte_mod {n : Nat} (hpos : 0 < n) (hle : n ≤ 7) (val : Int) :
    (((byte val (n - 1)).toNat % 2 ^ (8 - n) : Nat) : Int) =
      val / 256 ^ (n - 1) % 2 ^ (8 - n) := by
  push_cast
  rw [toNat_byte]
  apply Int.emod_emod_of_dvd
  have hsplit : (256 : Int) = 2 ^ (8 - n) * 2 ^ n := by
    rw [← pow_add, show 8 - n + n = 8 by omega]
    norm_num
  rw [hsplit]
  exact Dvd.intro _ rfl

/-- The digits of a value that fits: the lower bytes and the upper bits, where a negative value
wraps around. -/
theorem upper_bits {A B val : Int} (hA : 0 < A) (hB : 0 < B) (hlo : -(A * B) ≤ val)
    (hhi : val < A * B) :
    (val < 0 → val / A % (2 * B) = val / A + 2 * B ∧ B ≤ val / A % (2 * B)) ∧
      (0 ≤ val → val / A % (2 * B) = val / A ∧ val / A % (2 * B) < B) := by
  have hlow : -B ≤ val / A := Int.le_ediv_of_mul_le hA (by linarith)
  have hupp : val / A < B := Int.ediv_lt_of_lt_mul hA (by linarith)
  constructor
  · intro hneg
    have hq : val / A < 0 := Int.ediv_lt_of_lt_mul hA (by linarith)
    have hmod : val / A % (2 * B) = val / A + 2 * B := by
      rw [← Int.add_emod_right]
      exact Int.emod_eq_of_lt (by linarith) (by linarith)
    exact ⟨hmod, by linarith⟩
  · intro hnonneg
    have hq : 0 ≤ val / A := Int.ediv_nonneg hnonneg hA.le
    have hmod : val / A % (2 * B) = val / A := Int.emod_eq_of_lt hq (by linarith)
    exact ⟨hmod, by linarith⟩

theorem length_dumpShort {n : Nat} (hpos : 0 < n) (val : Int) (mask mark : Byte) :
    (dumpShort val n mask mark).length = n := by
  simp [dumpShort]
  omega

theorem load_dumpShort {w limit n : Nat} {val : Int} (hpos : 0 < n) (hle : n ≤ 7) (hw : n ≤ w)
    (hlimit : n < limit) (hlo : -(256 ^ (n - 1) * 2 ^ (7 - n)) ≤ val)
    (hhi : val < 256 ^ (n - 1) * 2 ^ (7 - n)) (rest : List Byte) :
    load w limit (dumpShort val n (0xFF#8 >>> n) (0xFF#8 <<< (9 - n)) ++ rest) = some val := by
  obtain ⟨hsize, hmask⟩ := short_head hpos hle (byte val (n - 1))
  obtain ⟨htop, hsign, hext⟩ := short_top hpos hle (byte val (n - 1))
  have hlen := length_dumpShort hpos val (0xFF#8 >>> n) (0xFF#8 <<< (9 - n))
  have hlow : (((dumpShort val n (0xFF#8 >>> n) (0xFF#8 <<< (9 - n)) ++ rest).take n).drop 1).reverse
      = toBytes (n - 1) val := by
    rw [List.take_left' hlen]
    simp [dumpShort]
  have hlong : ¬ (dumpShort val n (0xFF#8 >>> n) (0xFF#8 <<< (9 - n)) ++ rest).length < n := by
    rw [List.length_append, hlen]
    omega
  have hdouble : (2 : Int) ^ (8 - n) = 2 * 2 ^ (7 - n) := by
    rw [← pow_succ', show 8 - n = 7 - n + 1 by omega]
  have hpow : (256 : Int) ^ w = 256 ^ (n - 1) * 256 * 256 ^ (w - n) := by
    rw [← pow_succ, ← pow_add]
    congr 1
    omega
  have hmod := byte_mod hpos hle val
  rw [hdouble] at hmod
  have hB : (0 : Int) < 2 ^ (7 - n) := by positivity
  have hA : (0 : Int) < 256 ^ (n - 1) := by positivity
  obtain ⟨hneg, hnonneg⟩ := upper_bits hA hB hlo hhi
  have hdigits := Int.emod_add_mul_ediv val (256 ^ (n - 1))
  have hrange : -(256 ^ w) ≤ 2 * val ∧ 2 * val < 256 ^ w := by
    have hone : (1 : Int) ≤ 256 ^ (w - n) := one_le_pow₀ (by norm_num)
    have hsmall : (2 : Int) ^ (7 - n) ≤ 2 ^ 7 := pow_le_pow_right₀ (by norm_num) (by omega)
    have hbound : (256 : Int) ^ (n - 1) * 2 ^ (7 - n) * 2 ≤ 256 ^ w := by
      rw [hpow]
      nlinarith [mul_le_mul_of_nonneg_left hsmall hA.le, mul_le_mul_of_nonneg_left hone hA.le]
    constructor <;> linarith
  unfold dumpShort at hlow hlong ⊢
  unfold load
  simp only [List.cons_append, List.getElem?_cons_zero, Option.bind_eq_bind, Option.bind_some, hsize,
    hlimit, if_true, hmask] at hlow hlong ⊢
  rw [if_neg hlong, hlow]
  generalize (byte val (n - 1)).toNat % 2 ^ (8 - n) = t at htop hsign hext hmod
  by_cases hval : val < 0
  · obtain ⟨hq, hbit⟩ := hneg hval
    have hset : 2 ^ (7 - n) ≤ t := by
      zify
      rw [hmod]
      exact hbit
    have hval' := hext hset
    zify at hval'
    rw [hdouble] at hval'
    rw [if_pos (hsign.mpr hset)]
    show some (ofSigned w _) = some val
    congr 1
    unfold ofSigned
    rw [ofBytes_append, ofBytes_append, ofBytes_toBytes, ofBytes_replicate]
    have htotal : val % 256 ^ (n - 1) + 256 ^ (toBytes (n - 1) val).length *
        ofBytes [byte val (n - 1) &&& 0xFF#8 >>> n ||| 0xFF#8 <<< (7 - n)] +
        256 ^ (toBytes (n - 1) val ++ [byte val (n - 1) &&& 0xFF#8 >>> n |||
          0xFF#8 <<< (7 - n)]).length * (256 ^ (w - n) - 1) = val + 256 ^ w * 1 := by
      simp only [ofBytes, List.length_append, length_toBytes, List.length_singleton, mul_zero,
        add_zero, hpow, pow_succ]
      linear_combination 256 ^ (n - 1) * hval' + 256 ^ (n - 1) * (hmod.trans hq) + hdigits
    rw [htotal]
    exact bmod_add_mul 1 hrange.1 hrange.2
  · obtain ⟨hq, hbit⟩ := hnonneg (by omega)
    have hnot : ¬2 ^ (7 - n) ≤ t := by
      zify
      rw [hmod]
      linarith
    rw [if_neg (mt hsign.mp hnot)]
    show some (ofSigned w _) = some val
    congr 1
    unfold ofSigned
    rw [ofBytes_append, ofBytes_toBytes]
    have htotal : val % 256 ^ (n - 1) + 256 ^ (toBytes (n - 1) val).length *
        ofBytes [byte val (n - 1) &&& 0xFF#8 >>> n] = val + 256 ^ w * 0 := by
      simp only [ofBytes, length_toBytes, htop, mul_zero, add_zero]
      linear_combination 256 ^ (n - 1) * (hmod.trans hq) + hdigits
    rw [htotal]
    exact bmod_add_mul 0 hrange.1 hrange.2

theorem short_roundTrip {w limit n : Nat} {val : Int} (hpos : 0 < n) (hle : n ≤ 7) (hw : n ≤ w)
    (hlimit : n < limit) (hlo : -(256 ^ (n - 1) * 2 ^ (7 - n)) ≤ val)
    (hhi : val < 256 ^ (n - 1) * 2 ^ (7 - n)) (rest : List Byte) :
    (dumpShort val n (0xFF#8 >>> n) (0xFF#8 <<< (9 - n))).length = n ∧
      (dumpShort val n (0xFF#8 >>> n) (0xFF#8 <<< (9 - n))).head?.map bufSize = some n ∧
      load w limit (dumpShort val n (0xFF#8 >>> n) (0xFF#8 <<< (9 - n)) ++ rest) = some val :=
  ⟨length_dumpShort hpos val _ _, congrArg some (short_head hpos hle (byte val (n - 1))).1,
    load_dumpShort hpos hle hw hlimit hlo hhi rest⟩

theorem load_dumpLong {w limit : Nat} {mark : Byte} {val : Int} (hmark : limit ≤ bufSize mark)
    (hlo : -(256 ^ w) ≤ 2 * val) (hhi : 2 * val < 256 ^ w) (rest : List Byte) :
    load w limit ((mark :: (toBytes w val).reverse) ++ rest) = some val := by
  have hlen : (mark :: (toBytes w val).reverse).length = w + 1 := by simp
  have hlong : ¬ ((mark :: (toBytes w val).reverse) ++ rest).length ≤ w := by
    rw [List.length_append, hlen]
    omega
  have htake := @List.take_left' _ _ rest _ hlen
  rw [List.cons_append] at hlong htake
  unfold load
  simp only [List.cons_append, List.getElem?_cons_zero, Option.bind_eq_bind, Option.bind_some,
    if_neg (Nat.not_lt.mpr hmark), if_neg hlong, htake, List.drop_succ_cons,
    List.drop_zero, List.reverse_reverse]
  exact congrArg some (ofSigned_toBytes hlo hhi)

/-- The bytes have the length that `val_size` gives and that the first of them says, and the value is
read from them whatever follows. -/
def LoadsBack (load : List Byte → Option Int) (dump : Int → List Byte) (val : Int)
    (rest : List Byte) : Prop :=
  (dump val).length = valSize val ∧ (dump val).head?.map bufSize = some (valSize val) ∧
    load (dump val ++ rest) = some val

/-- The values of the branch of `dump` that reports one byte too few. -/
def LosesByte (val : Int) : Prop :=
  -36028797018963968 ≤ val ∧ val ≤ 36028797018963967 ∧
    ¬ (-281474976710656 ≤ val ∧ val ≤ 281474976710655)

theorem LosesByte.valSize_eq {val : Int} (h : LosesByte val) : valSize val = 8 := by
  obtain ⟨hlo, hhi, hnot⟩ := h
  unfold valSize
  rw [if_neg (by omega), if_neg (by omega), if_neg (by omega), if_neg (by omega), if_neg (by omega),
    if_neg (by omega), if_neg hnot, if_pos ⟨hlo, hhi⟩]

theorem LosesByte.dumpI64_eq {val : Int} (h : LosesByte val) :
    dumpI64 val = 0xFE#8 :: ((List.range 7).map fun i => byte val (i + 1)).reverse := by
  obtain ⟨hlo, hhi, hnot⟩ := h
  unfold dumpI64
  rw [if_neg (by omega), if_neg (by omega), if_neg (by omega), if_neg (by omega), if_neg (by omega),
    if_neg (by omega), if_neg hnot, if_pos ⟨hlo, hhi⟩]
  rfl

theorem loadsBack_i32 {val : Int} (hlo : -2 ^ 31 ≤ val) (hhi : val < 2 ^ 31) (rest : List Byte) :
    LoadsBack loadI32 dumpI32 val rest := by
  by_cases hlong : -134217728 ≤ val ∧ val ≤ 134217727
  · unfold LoadsBack dumpI32 valSize
    rw [if_pos hlong, if_pos hlong]
    split_ifs
    · exact short_roundTrip (n := 1) (by decide) (by decide) (by decide) (by decide)
        (by norm_num; omega) (by norm_num; omega) rest
    · exact short_roundTrip (n := 2) (by decide) (by decide) (by decide) (by decide)
        (by norm_num; omega) (by norm_num; omega) rest
    · exact short_roundTrip (n := 3) (by decide) (by decide) (by decide) (by decide)
        (by norm_num; omega) (by norm_num; omega) rest
    · exact short_roundTrip (n := 4) (by decide) (by decide) (by decide) (by decide)
        (by norm_num; omega) (by norm_num; omega) rest
  · have hsize : valSize val = 5 := by
      unfold valSize
      split_ifs <;> omega
    have hdump : dumpI32 val = (if val < 0 then 0xF7 else 0xF0) :: (toBytes 4 val).reverse := by
      unfold dumpI32
      split_ifs <;> first | omega | rfl
    have hmark : bufSize (if val < 0 then 0xF7 else 0xF0) = 5 := by
      split_ifs <;> rfl
    refine ⟨by rw [hdump, hsize]; simp, by rw [hdump, hsize]; exact congrArg some hmark, ?_⟩
    rw [hdump]
    exact load_dumpLong hmark.ge (by norm_num; omega) (by norm_num; omega) rest

theorem loadsBack_i64 {val : Int} (hlo : -2 ^ 63 ≤ val) (hhi : val < 2 ^ 63)
    (hkept : ¬ LosesByte val) (rest : List Byte) : LoadsBack loadI64 dumpI64 val rest := by
  by_cases hlong : -281474976710656 ≤ val ∧ val ≤ 281474976710655
  · unfold LoadsBack dumpI64 valSize
    rw [if_pos hlong, if_pos hlong]
    split_ifs
    · exact short_roundTrip (n := 1) (by decide) (by decide) (by decide) (by decide)
        (by norm_num; omega) (by norm_num; omega) rest
    · exact short_roundTrip (n := 2) (by decide) (by decide) (by decide) (by decide)
        (by norm_num; omega) (by norm_num; omega) rest
    · exact short_roundTrip (n := 3) (by decide) (by decide) (by decide) (by decide)
        (by norm_num; omega) (by norm_num; omega) rest
    · exact short_roundTrip (n := 4) (by decide) (by decide) (by decide) (by decide)
        (by norm_num; omega) (by norm_num; omega) rest
    · exact short_roundTrip (n := 5) (by decide) (by decide) (by decide) (by decide)
        (by norm_num; omega) (by norm_num; omega) rest
    · exact short_roundTrip (n := 6) (by decide) (by decide) (by decide) (by decide)
        (by norm_num; omega) (by norm_num; omega) rest
    · exact short_roundTrip (n := 7) (by decide) (by decide) (by decide) (by decide)
        (by norm_num; omega) (by norm_num; omega) rest
  · have hfar : ¬ (-36028797018963968 ≤ val ∧ val ≤ 36028797018963967) :=
      fun h => hkept ⟨h.1, h.2, hlong⟩
    have hsize : valSize val = 9 := by
      unfold valSize
      rw [if_neg (by omega), if_neg (by omega), if_neg (by omega), if_neg (by omega),
        if_neg (by omega), if_neg (by omega), if_neg hlong, if_neg hfar]
    have hdump : dumpI64 val = 0xFF :: (toBytes 8 val).reverse := by
      unfold dumpI64
      rw [if_neg (by omega), if_neg (by omega), if_neg (by omega), if_neg (by omega),
        if_neg (by omega), if_neg (by omega), if_neg hlong, if_neg hfar]
    refine ⟨by rw [hdump, hsize]; simp, by rw [hdump, hsize]; rfl, ?_⟩
    rw [hdump]
    exact load_dumpLong (by decide) (by norm_num; omega) (by norm_num; omega) rest

theorem toBytes_succ (n : Nat) (val : Int) :
    toBytes (n + 1) val = byte val 0 :: (List.range n).map fun i => byte val (i + 1) := by
  simp [toBytes, List.range_succ_eq_map]

/-- Of a value that loses its lowest byte the reader takes the byte that comes next for it. -/
theorem loadI64_losesByte {val : Int} (h : LosesByte val) (rest : List Byte) :
    loadI64 (dumpI64 val ++ rest) = some val ↔ rest.head? = some (byte val 0) := by
  have hdump := h.dumpI64_eq
  generalize htail : (List.range 7).map (fun i => byte val (i + 1)) = tail at hdump
  have hlen : tail.length = 7 := by simp [← htail]
  have hval : ofSigned 8 (byte val 0 :: tail) = val := by
    obtain ⟨hlo, hhi, -⟩ := h
    rw [← htail, ← toBytes_succ 7]
    exact ofSigned_toBytes (by norm_num; omega) (by norm_num; omega)
  rw [hdump]
  cases rest with
  | nil =>
    have hshort : (0xFE#8 :: tail.reverse ++ []).length ≤ 8 := by simp [hlen]
    have hnone : loadI64 (0xFE#8 :: tail.reverse ++ []) = none := if_pos hshort
    rw [hnone]
    simp
  | cons b rest =>
    have hload : loadI64 (0xFE#8 :: tail.reverse ++ b :: rest) = some (ofSigned 8 (b :: tail)) := by
      have hlong : ¬ (0xFE#8 :: tail.reverse ++ b :: rest).length ≤ 8 := by
        simp only [List.length_append, List.length_cons, List.length_reverse, hlen]
        omega
      have htake : (tail.reverse ++ b :: rest).take 8 = tail.reverse ++ [b] := by
        have hrev : (tail.reverse ++ [b]).length = 8 := by simp [hlen]
        rw [show tail.reverse ++ b :: rest = (tail.reverse ++ [b]) ++ rest by simp]
        exact List.take_left' hrev
      have hlist : (((0xFE#8 :: tail.reverse ++ b :: rest).take 9).drop 1).reverse = b :: tail := by
        rw [List.cons_append, List.take_succ_cons, List.drop_succ_cons, List.drop_zero, htake]
        simp
      have hbranch : loadI64 (0xFE#8 :: tail.reverse ++ b :: rest) =
          some (ofSigned 8 (((0xFE#8 :: tail.reverse ++ b :: rest).take 9).drop 1).reverse) :=
        if_neg hlong
      rw [hbranch, hlist]
    rw [hload, List.head?_cons, Option.some.injEq, Option.some.injEq]
    constructor
    · intro hb
      have hmod := congrArg (· % ((256 ^ 8 : Nat) : Int)) (hb.trans hval.symm)
      simp only [ofSigned, Int.bmod_emod, ofBytes] at hmod
      have hb256 := b.isLt
      have hv256 := (byte val 0).isLt
      apply BitVec.eq_of_toNat_eq
      norm_num at hmod
      omega
    · intro hb
      rw [hb]
      exact hval

end SparseInt

open SparseInt

namespace Marshal

def readSparse (cap : Nat) (load : List Byte → Option Int) (h : Heap) (m : Marshal) :
    Option (Int × Marshal) := do
  let peeked ← m.peek h 1
  let byte0 ← peeked[0]?
  let bsize := bufSize byte0
  if cap < bsize then none
  else
    let (buf, m') ← m.read h bsize
    if buf.length ≠ bsize then none
    else
      let val ← load buf
      return (val, m')

theorem Reads.readSparse_eq {h : Heap} {m : Marshal} {a : Addr} {as : List Addr}
    (r : m.Reads h (a :: as)) (cap : Nat) (load : List Byte → Option Int) :
    ∃ m', m'.Reads h ((a :: as).drop (bufSize (h.ptr a))) ∧
      m.readSparse cap load h =
        if cap < bufSize (h.ptr a) ∨ (a :: as).length < bufSize (h.ptr a) then none
        else (load (((a :: as).take (bufSize (h.ptr a))).map h.ptr)).map fun val => (val, m') := by
  obtain ⟨m', hread, r', -⟩ := r.read (bufSize (h.ptr a))
  refine ⟨m', r', ?_⟩
  unfold Marshal.readSparse
  rw [r.peek 1]
  simp only [List.take_succ_cons, List.take_zero, List.map_cons, List.map_nil,
    List.getElem?_cons_zero, Option.bind_eq_bind, Option.bind_some, hread]
  by_cases hcap : cap < bufSize (h.ptr a)
  · rw [if_pos hcap, if_pos (.inl hcap)]
  · rw [if_neg hcap]
    by_cases hlen : (a :: as).length < bufSize (h.ptr a)
    · have hshort : (((a :: as).take (bufSize (h.ptr a))).map h.ptr).length ≠ bufSize (h.ptr a) := by
        rw [List.length_map, List.length_take]
        omega
      rw [if_pos hshort, if_pos (.inr hlen)]
    · have hfull : ¬ (((a :: as).take (bufSize (h.ptr a))).map h.ptr).length ≠
          bufSize (h.ptr a) := by
        rw [List.length_map, List.length_take]
        omega
      have hneither : ¬ (cap < bufSize (h.ptr a) ∨ (a :: as).length < bufSize (h.ptr a)) :=
        fun hor => hor.elim hcap hlen
      rw [if_neg hfull, if_neg hneither]
      cases load (((a :: as).take (bufSize (h.ptr a))).map h.ptr) with
      | none => rfl
      | some val => rfl

end Marshal

theorem SparseInt.get_cons (cap : Nat) (load : List Byte → Option Int) (b : Byte)
    (bs : List Byte) :
    SparseInt.get cap load (b :: bs) =
      if cap < bufSize b ∨ (b :: bs).length < bufSize b then none
      else (load ((b :: bs).take (bufSize b))).map fun val => (val, (b :: bs).drop (bufSize b)) := by
  unfold SparseInt.get
  simp only [List.getElem?_cons_zero, Option.bind_eq_bind, Option.bind_some]
  split_ifs
  · rfl
  · cases load ((b :: bs).take (bufSize b)) with
    | none => rfl
    | some val => rfl

/-- On the bytes of a marshal the operator does what `SparseInt.get` says. -/
theorem Marshal.Reads.readSparse_get {h : Heap} {m : Marshal} {as : List Addr} (r : m.Reads h as)
    (cap : Nat) (load : List Byte → Option Int) :
    (SparseInt.get cap load (as.map h.ptr) = none ∧ m.readSparse cap load h = none) ∨
      ∃ val rest m' k, SparseInt.get cap load (as.map h.ptr) = some (val, rest) ∧
        m.readSparse cap load h = some (val, m') ∧ m'.Reads h (as.drop k) ∧
        (as.drop k).map h.ptr = rest := by
  cases as with
  | nil =>
    left
    refine ⟨rfl, ?_⟩
    unfold Marshal.readSparse
    rw [r.peek 1]
    rfl
  | cons a as =>
    obtain ⟨m', r', hread⟩ := r.readSparse_eq cap load
    rw [List.map_cons, SparseInt.get_cons, hread]
    have hlen : (h.ptr a :: as.map h.ptr).length = (a :: as).length := by simp
    have htake : (h.ptr a :: as.map h.ptr).take (bufSize (h.ptr a)) =
        ((a :: as).take (bufSize (h.ptr a))).map h.ptr := by
      rw [List.map_take, List.map_cons]
    rw [hlen, htake]
    split_ifs
    · exact .inl ⟨rfl, rfl⟩
    · cases load (((a :: as).take (bufSize (h.ptr a))).map h.ptr) with
      | none => exact .inl ⟨rfl, rfl⟩
      | some val =>
        right
        refine ⟨val, _, m', bufSize (h.ptr a), rfl, rfl, r', ?_⟩
        rw [List.map_drop, List.map_cons]

/-- The value is written to a marshal with nothing left to read, and read back from it to its end. -/
def ReadsBack (cap : Nat) (load : List Byte → Option Int) (dump : Int → List Byte) (val : Int) :
    Prop :=
  ∀ h m, Marshal.Reads h m [] → ∃ h' m' m'', m.write h (dump val) = some (h', m') ∧
    m'.readSparse cap load h' = some (val, m'') ∧ m''.Reads h' []

theorem readsBack_iff {cap : Nat} {load : List Byte → Option Int} {dump : Int → List Byte}
    {val : Int} (hsize : 0 < (dump val).length) :
    ReadsBack cap load dump val ↔ SparseInt.get cap load (dump val) = some (val, []) := by
  have hne : dump val ≠ [] := List.ne_nil_of_length_pos hsize
  constructor
  · intro hback
    have hempty := Marshal.Reads.empty ⟨0, fun _ => 0, fun _ => 0⟩
    obtain ⟨h', m', m'', hwrite, hread, r''⟩ := hback _ _ hempty
    obtain ⟨g', n', new, hw, -, r', hnew⟩ := hempty.write hne
    obtain ⟨rfl, rfl⟩ := Prod.mk.inj (Option.some.inj (hw.symm.trans hwrite))
    rcases r'.readSparse_get cap load with ⟨-, hnone⟩ | ⟨v, rest, n'', k, hget, hsome, r3, hrest⟩
    · rw [hread] at hnone
      cases hnone
    · obtain ⟨rfl, rfl⟩ := Prod.mk.inj (Option.some.inj (hsome.symm.trans hread))
      have hnil : ([] ++ new).drop k = [] := by
        rw [← r3.addrs, r''.addrs]
      rw [hnil] at hrest
      rw [List.nil_append, hnew] at hget
      rw [hget, ← hrest]
      rfl
  · intro hget h m r
    obtain ⟨h', m', new, hw, -, r', hnew⟩ := r.write hne
    rcases r'.readSparse_get cap load with ⟨hnone, -⟩ | ⟨v, rest, m'', k, hsome, hread, r'', hrest⟩
    · rw [List.nil_append, hnew, hget] at hnone
      cases hnone
    · rw [List.nil_append, hnew, hget] at hsome
      obtain ⟨rfl, rfl⟩ := Prod.mk.inj (Option.some.inj hsome)
      refine ⟨h', m', m'', hw, hread, ?_⟩
      rwa [List.map_eq_nil_iff.mp hrest] at r''

theorem SparseInt.LoadsBack.get {cap : Nat} {load : List Byte → Option Int}
    {dump : Int → List Byte} {val : Int} (h : LoadsBack load dump val [])
    (hcap : valSize val ≤ cap) : SparseInt.get cap load (dump val) = some (val, []) := by
  obtain ⟨hsize, hmark, hload⟩ := h
  cases hdump : dump val with
  | nil =>
    rw [hdump] at hmark
    cases hmark
  | cons b bs =>
    rw [hdump] at hsize hmark hload
    have hb : bufSize b = valSize val := Option.some.inj hmark
    have hfits : ¬ (cap < bufSize b ∨ (b :: bs).length < bufSize b) := by
      rw [hsize, hb]
      omega
    have htake : (b :: bs).take (bufSize b) = b :: bs := List.take_of_length_le (by rw [hsize, hb])
    rw [SparseInt.get_cons, if_neg hfits, htake]
    rw [List.append_nil] at hload
    rw [hload]
    have hdrop : (b :: bs).drop (bufSize b) = [] := List.drop_of_length_le (by rw [hsize, hb])
    rw [Option.map_some, hdrop]

theorem SparseInt.loadsBack_losesByte {val : Int} (h : LosesByte val) (rest : List Byte) :
    LoadsBack loadI64 dumpI64 val rest ↔ rest.head? = some (byte val 0) := by
  have hsize : (dumpI64 val).length = valSize val := by
    rw [h.dumpI64_eq, h.valSize_eq]
    simp
  have hmark : (dumpI64 val).head?.map bufSize = some (valSize val) := by
    rw [h.dumpI64_eq, h.valSize_eq]
    rfl
  rw [LoadsBack, loadI64_losesByte h]
  exact ⟨fun hloads => hloads.2.2, fun hhead => ⟨hsize, hmark, hhead⟩⟩

theorem SparseInt.readsBack_losesByte {val : Int} (h : LosesByte val) :
    ¬ ReadsBack 9 loadI64 dumpI64 val := by
  intro hback
  have hsize : (dumpI64 val).length = 8 := by
    rw [h.dumpI64_eq]
    simp
  have hget := (readsBack_iff (by rw [hsize]; decide)).mp hback
  have hload := loadI64_losesByte h []
  rw [List.append_nil] at hload
  cases hdump : dumpI64 val with
  | nil =>
    rw [hdump] at hget
    cases hget
  | cons b bs =>
    rw [hdump] at hget hload hsize
    rw [SparseInt.get_cons] at hget
    split_ifs at hget with hshort
    obtain ⟨v, hv, hpair⟩ := Option.map_eq_some_iff.mp hget
    obtain ⟨rfl, hdrop⟩ := Prod.mk.inj hpair
    rw [List.take_of_length_le (List.drop_eq_nil_iff.mp hdrop)] at hv
    cases hload.mp hv

/-- Every 32-bit integer round-trips, alone and through a marshal, and a 64-bit integer does so unless
`dump` loses its lowest byte. -/
theorem sparseInt_roundTrip_iff (v : BitVec 64) (u : BitVec 32) (rest : List Byte) :
    ((LoadsBack loadI64 dumpI64 v.toInt rest ∧ ReadsBack 9 loadI64 dumpI64 v.toInt) ∧
      LoadsBack loadI32 dumpI32 u.toInt rest ∧ ReadsBack 5 loadI32 dumpI32 u.toInt ↔
      ¬ LosesByte v.toInt) ∧
    (LoadsBack loadI64 dumpI64 v.toInt rest ↔
      ¬ LosesByte v.toInt ∨ rest.head? = some (byte v.toInt 0)) := by
  have hvlo := BitVec.le_toInt v
  have hvhi := @BitVec.toInt_lt 64 v
  have hulo := BitVec.le_toInt u
  have huhi := @BitVec.toInt_lt 32 u
  have hpos : ∀ val : Int, 0 < valSize val := by
    intro val
    unfold valSize
    split_ifs <;> decide
  have hcap : valSize v.toInt ≤ 9 := by
    unfold valSize
    split_ifs <;> decide
  have hcap' : valSize u.toInt ≤ 5 := by
    unfold valSize
    split_ifs <;> omega
  have hsmall : ∀ rest, LoadsBack loadI32 dumpI32 u.toInt rest := fun rest =>
    loadsBack_i32 (by norm_num at hulo ⊢; omega) (by norm_num at huhi ⊢; omega) rest
  have hback : ReadsBack 5 loadI32 dumpI32 u.toInt :=
    (readsBack_iff (by rw [(hsmall []).1]; exact hpos _)).mpr ((hsmall []).get hcap')
  by_cases hloses : LosesByte v.toInt
  · refine ⟨⟨fun h => absurd h.1.2 (readsBack_losesByte hloses), fun h => absurd hloses h⟩, ?_⟩
    rw [loadsBack_losesByte hloses]
    simp [hloses]
  · have hloads : ∀ rest, LoadsBack loadI64 dumpI64 v.toInt rest := fun rest =>
      loadsBack_i64 (by norm_num at hvlo ⊢; omega) (by norm_num at hvhi ⊢; omega) hloses rest
    have hreads : ReadsBack 9 loadI64 dumpI64 v.toInt :=
      (readsBack_iff (by rw [(hloads []).1]; exact hpos _)).mpr ((hloads []).get hcap)
    exact ⟨⟨fun _ => hloses, fun _ => ⟨⟨hloads rest, hreads⟩, hsmall rest, hback⟩⟩,
      fun _ => .inl hloses, fun _ => hloads rest⟩

/-- Eight bytes are reported for 2^48, and the byte that follows them becomes its lowest one. -/
theorem lowest_byte_lost :
    ¬ ∀ (v : BitVec 64) (rest : List Byte), LoadsBack loadI64 dumpI64 v.toInt rest := by
  intro h
  have hload := (h 0x1000000000000 [1]).2.2
  have hother : loadI64 (dumpI64 (0x1000000000000 : BitVec 64).toInt ++ [1]) =
      some 0x1000000000001 := by decide +kernel
  rw [hother] at hload
  exact absurd (Option.some.inj hload) (by decide)

end Jetpack.Rpc
