import Mathlib

/-! The slots that a proposer commits as skipped when it suggests a command: those of its own slots,
from the first one not executed, that a majority reported as potential skips. -/

namespace Jetpack.Mencius

/-- The slots reported by each replica, as far as it reported any. -/
abbrev SkipPotentials := Nat → Option (Finset Nat)

/-- A report of up to 100 slots is ignored, and a longer one replaces that of the slot's owner. -/
def receivePotentials (n : Nat) (recd : SkipPotentials) (slot : Nat) (potentials : List Nat) :
    SkipPotentials :=
  if potentials.length > 100 then Function.update recd ((slot - 1) % n) (some potentials.toFinset)
  else recd

def toInt32 (x : Nat) : Int := (BitVec.ofNat 32 x).toInt

def toUInt64 (x : Int) : Nat := (x % 2 ^ 64).toNat

/-- `(id-1)%n==(slot_id-1)%n`, where the one side is signed and the other is not -/
def owned (n slot : Nat) (id : Int) : Bool :=
  toUInt64 ((id - 1).tmod n) == (slot + (2 ^ 64 - 1)) % 2 ^ 64 % n

def reports (n : Nat) (recd : SkipPotentials) (id : Int) : Nat :=
  (List.range n).countP fun i =>
    match recd i with
    | some slots => decide (toUInt64 id ∈ slots)
    | none => false

inductive Turn where
  | next (id : Int) (skipCommits : List Nat)
  | done (skipCommits : List Nat)
  /-- The index leaves the range of an int. -/
  | overflow

/-- One turn of the loop. A slot that is skipped does not move the index. -/
def turn (n slot : Nat) (recd : SkipPotentials) (id : Int) (skipCommits : List Nat) : Turn :=
  if id = -2 ^ 31 then .overflow
  else if owned n slot id then
    if reports n recd id ≥ n / 2 + 1 then .next id (skipCommits ++ [toUInt64 id])
    else .done skipCommits
  else if id = 2 ^ 31 - 1 then .overflow
  else .next (id + 1) skipCommits

def collect (n slot : Nat) (recd : SkipPotentials) : Nat → Int → List Nat → Option (List Nat)
  | 0, _, _ => none
  | fuel + 1, id, skipCommits =>
    match turn n slot recd id skipCommits with
    | .next id skipCommits => collect n slot recd fuel id skipCommits
    | .done skipCommits => some skipCommits
    | .overflow => none

def skipCommits (fuel n slot maxExecutedSlot : Nat) (recd : SkipPotentials) : Option (List Nat) :=
  collect n slot recd fuel (toInt32 (maxExecutedSlot + 1)) []

/-- The first of the proposer's slots that the index meets from `start` on. -/
structure FirstOwned (n slot : Nat) (start id : Int) : Prop where
  ge : start ≤ id
  inRange : -2 ^ 31 < start ∧ id < 2 ^ 31
  own : owned n slot id = true
  others : ∀ j, start ≤ j → j < id → owned n slot j = false

section Loop

variable {n slot : Nat} {recd : SkipPotentials} {start id : Int}

theorem FirstOwned.lt (h : FirstOwned n slot start id) (hne : start ≠ id) :
    owned n slot start = false ∧ FirstOwned n slot (start + 1) id := by
  have hlt : start < id := lt_of_le_of_ne h.ge hne
  have hrange := h.inRange
  refine ⟨h.others start (le_refl start) hlt, by omega, by omega, h.own, ?_⟩
  intro j hj hjid
  exact h.others j (by omega) hjid

theorem FirstOwned.step (h : FirstOwned n slot (start + 1) id) (hrange : -2 ^ 31 < start)
    (hstart : owned n slot start = false) : FirstOwned n slot start id := by
  have hge := h.ge
  refine ⟨by omega, ⟨hrange, h.inRange.2⟩, h.own, ?_⟩
  intro j hj hjid
  by_cases heq : j = start
  · rw [heq]
    exact hstart
  · exact h.others j (by omega) hjid

theorem collect_climb (h : FirstOwned n slot start id) (fuel : Nat) (acc : List Nat) :
    collect n slot recd ((id - start).toNat + fuel) start acc = collect n slot recd fuel id acc := by
  obtain ⟨k, hk⟩ : ∃ k : Nat, id - start = k := ⟨_, (Int.toNat_of_nonneg (by have := h.ge; omega)).symm⟩
  rw [hk, Int.toNat_natCast]
  induction k generalizing start with
  | zero =>
    have heq : start = id := by omega
    rw [heq, Nat.zero_add]
  | succ k ih =>
    have hrange := h.inRange
    obtain ⟨hstart, hnext⟩ := h.lt (by omega)
    have hturn : turn n slot recd start acc = .next (start + 1) acc := by
      rw [turn, if_neg (by omega), hstart, if_neg Bool.false_ne_true, if_neg (by omega)]
    rw [Nat.add_right_comm, collect, hturn]
    exact ih hnext (by omega)

theorem collect_more {fuel : Nat} {acc l : List Nat}
    (h : collect n slot recd fuel start acc = some l) (more : Nat) :
    collect n slot recd (fuel + more) start acc = some l := by
  induction fuel generalizing start acc with
  | zero => cases h
  | succ fuel ih =>
    rw [collect] at h
    rw [Nat.add_right_comm, collect]
    cases hturn : turn n slot recd start acc with
    | next id' acc' =>
      rw [hturn] at h
      exact ih h
    | done acc' =>
      rw [hturn] at h
      exact h
    | overflow =>
      rw [hturn] at h
      cases h

/-- At a slot that is to be skipped the index stays. -/
theorem collect_stuck (hrange : id ≠ -2 ^ 31) (hown : owned n slot id = true)
    (hreports : reports n recd id ≥ n / 2 + 1) (fuel : Nat) (acc : List Nat) :
    collect n slot recd fuel id acc = none := by
  induction fuel generalizing acc with
  | zero => rfl
  | succ fuel ih =>
    have hturn : turn n slot recd id acc = .next id (acc ++ [toUInt64 id]) := by
      rw [turn, if_neg hrange, if_pos hown, if_pos hreports]
    rw [collect, hturn]
    exact ih _

theorem collect_done (hrange : id ≠ -2 ^ 31) (hown : owned n slot id = true)
    (hreports : reports n recd id < n / 2 + 1) (fuel : Nat) (acc : List Nat) :
    collect n slot recd (fuel + 1) id acc = some acc := by
  have hturn : turn n slot recd id acc = .done acc := by
    rw [turn, if_neg hrange, if_pos hown, if_neg (not_le.mpr hreports)]
  rw [collect, hturn]

theorem collect_none (h : ∀ id, ¬ FirstOwned n slot start id)
    (hstart : -2 ^ 31 ≤ start ∧ start < 2 ^ 31) (fuel : Nat) (acc : List Nat) :
    collect n slot recd fuel start acc = none := by
  induction fuel generalizing start with
  | zero => rfl
  | succ fuel ih =>
    rw [collect, turn]
    by_cases hlow : start = -2 ^ 31
    · rw [if_pos hlow]
    · have hrange : -2 ^ 31 < start := lt_of_le_of_ne hstart.1 (Ne.symm hlow)
      rw [if_neg hlow]
      cases hown : owned n slot start with
      | true =>
        have hfirst : FirstOwned n slot start start :=
          ⟨le_refl start, ⟨hrange, hstart.2⟩, hown, fun j hj hjs => by omega⟩
        exact absurd hfirst (h start)
      | false =>
        rw [if_neg Bool.false_ne_true]
        by_cases hhigh : start = 2 ^ 31 - 1
        · rw [if_pos hhigh]
        · rw [if_neg hhigh]
          apply ih
          · exact fun id hid => h id (hid.step hrange hown)
          · omega

end Loop

theorem toInt32_range (x : Nat) : -2 ^ 31 ≤ toInt32 x ∧ toInt32 x < 2 ^ 31 := by
  have hlt := BitVec.toInt_lt (x := BitVec.ofNat 32 x)
  have hle := BitVec.le_toInt (BitVec.ofNat 32 x)
  rw [toInt32]
  omega

/-- The loop has a result if and only if fewer than a majority report the proposer's first slot after
the last one executed, and then it collects nothing. -/
theorem skipCommits_exact (n slot maxExecutedSlot : Nat) (recd : SkipPotentials) :
    ((∃ fuel l, skipCommits fuel n slot maxExecutedSlot recd = some l ∧ l.Nodup ∧
        ∀ x ∈ l, owned n slot x = true ∧ reports n recd x ≥ n / 2 + 1) ↔
      ∃ id, FirstOwned n slot (toInt32 (maxExecutedSlot + 1)) id ∧ reports n recd id < n / 2 + 1) ∧
      ∀ fuel l, skipCommits fuel n slot maxExecutedSlot recd = some l → l = [] := by
  have hstart := toInt32_range (maxExecutedSlot + 1)
  by_cases hfirst : ∃ id, FirstOwned n slot (toInt32 (maxExecutedSlot + 1)) id
  · obtain ⟨id, hid⟩ := hfirst
    have hrange : id ≠ -2 ^ 31 := by
      have hge := hid.ge
      have hlow := hid.inRange.1
      omega
    have hunique : ∀ id', FirstOwned n slot (toInt32 (maxExecutedSlot + 1)) id' → id' = id := by
      intro id' hid'
      rcases lt_trichotomy id' id with hlt | heq | hgt
      · have hfalse := hid.others id' hid'.ge hlt
        rw [hid'.own] at hfalse
        cases hfalse
      · exact heq
      · have hfalse := hid'.others id hid.ge hgt
        rw [hid.own] at hfalse
        cases hfalse
    have hclimb := fun fuel => @collect_climb n slot recd _ _ hid fuel []
    by_cases hreports : reports n recd id < n / 2 + 1
    · have hresult : ∀ fuel l, skipCommits fuel n slot maxExecutedSlot recd = some l → l = [] := by
        intro fuel l hl
        have hmore := collect_more hl ((id - toInt32 (maxExecutedSlot + 1)).toNat + 1)
        rw [Nat.add_left_comm, hclimb, collect_done hrange hid.own hreports] at hmore
        exact (Option.some.inj hmore).symm
      constructor
      · constructor
        · exact fun _ => ⟨id, hid, hreports⟩
        · intro _
          refine ⟨_, [], (hclimb 1).trans (collect_done hrange hid.own hreports 0 []), ?_, ?_⟩
          · exact List.nodup_nil
          · exact fun x hx => absurd hx List.not_mem_nil
      · exact hresult
    · have hnone : ∀ fuel, skipCommits fuel n slot maxExecutedSlot recd = none := by
        intro fuel
        by_contra hsome
        obtain ⟨l, hl⟩ := Option.ne_none_iff_exists'.mp hsome
        have hmore := collect_more hl (id - toInt32 (maxExecutedSlot + 1)).toNat
        rw [Nat.add_comm, hclimb, collect_stuck hrange hid.own (not_lt.mp hreports)] at hmore
        cases hmore
      constructor
      · constructor
        · rintro ⟨fuel, l, hl, -⟩
          rw [hnone] at hl
          cases hl
        · rintro ⟨id', hid', hlt⟩
          rw [hunique id' hid'] at hlt
          exact absurd hlt hreports
      · intro fuel l hl
        rw [hnone] at hl
        cases hl
  · have hnone : ∀ fuel, skipCommits fuel n slot maxExecutedSlot recd = none := fun fuel =>
      collect_none (fun id hid => hfirst ⟨id, hid⟩) hstart fuel []
    constructor
    · constructor
      · rintro ⟨fuel, l, hl, -⟩
        rw [hnone] at hl
        cases hl
      · rintro ⟨id, hid, -⟩
        exact absurd ⟨id, hid⟩ hfirst
    · intro fuel l hl
      rw [hnone] at hl
      cases hl

/-- In the range of an int, the proposer's first slot is one of the next `n`. -/
theorem firstOwned_exists {n slot maxExecutedSlot : Nat} (hn : 0 < n)
    (hbound : maxExecutedSlot + n < 2 ^ 31) :
    ∃ id, FirstOwned n slot (toInt32 (maxExecutedSlot + 1)) id ∧ id ≤ maxExecutedSlot + n := by
  have hstart : toInt32 (maxExecutedSlot + 1) = maxExecutedSlot + 1 := by
    rw [toInt32, BitVec.toInt_eq_toNat_of_lt, BitVec.toNat_ofNat, Nat.mod_eq_of_lt (by omega)]
    · push_cast
      rfl
    · rw [BitVec.toNat_ofNat, Nat.mod_eq_of_lt (by omega)]
      omega
  have hnat : ∀ m : Nat, m < 2 ^ 31 →
      (owned n slot (m + 1) = true ↔ m % n = (slot + (2 ^ 64 - 1)) % 2 ^ 64 % n) := by
    intro m hm
    have hle := Nat.mod_le m n
    have hmod : toUInt64 (((m : Int) + 1 - 1).tmod n) = m % n := by
      rw [toUInt64, add_sub_cancel_right, Int.tmod_eq_emod_of_nonneg (by omega)]
      omega
    rw [owned, hmod, beq_iff_eq]
  generalize hr : (slot + (2 ^ 64 - 1)) % 2 ^ 64 % n = r at hnat
  have hrn : r < n := hr ▸ Nat.mod_lt _ hn
  have hsplit := Nat.div_add_mod maxExecutedSlot n
  have hrest := Nat.mod_lt maxExecutedSlot hn
  -- the slots in between leave other remainders
  have hothers : ∀ m : Nat, m < maxExecutedSlot + n → m % n = r →
      ∀ j : Nat, maxExecutedSlot ≤ j → j < m → j % n ≠ r := by
    intro m hm hmr j hj hjm heq
    have hdvd : n ∣ m - j := (Nat.modEq_iff_dvd' (by omega)).mp (heq.trans hmr.symm)
    have hle := Nat.le_of_dvd (by omega) hdvd
    omega
  obtain ⟨m, hge, hlt, hmr⟩ : ∃ m, maxExecutedSlot ≤ m ∧ m < maxExecutedSlot + n ∧ m % n = r := by
    by_cases hle : maxExecutedSlot % n ≤ r
    · refine ⟨n * (maxExecutedSlot / n) + r, by omega, by omega, ?_⟩
      rw [Nat.mul_add_mod, Nat.mod_eq_of_lt hrn]
    · refine ⟨n * (maxExecutedSlot / n) + (n + r), by omega, by omega, ?_⟩
      rw [Nat.mul_add_mod, Nat.add_mod_left, Nat.mod_eq_of_lt hrn]
  refine ⟨m + 1, ⟨by omega, by omega, (hnat m (by omega)).mpr hmr, ?_⟩, by omega⟩
  intro j hj hjm
  obtain ⟨k, rfl⟩ : ∃ k : Nat, j = k + 1 := ⟨(j - 1).toNat, by omega⟩
  have hne := hothers m hlt hmr k (by omega) (by omega)
  rw [ne_eq, ← hnat k (by omega)] at hne
  exact Bool.eq_false_iff.mpr hne

/-- Two replicas of three have reported the proposer's first slot. -/
theorem skipCommits_never : ¬ ∃ fuel l, skipCommits fuel 3 1 0
    (receivePotentials 3 (receivePotentials 3 (fun _ => none) 2 (List.range' 1 101)) 3
      (List.range' 1 101)) = some l := by
  rintro ⟨fuel, l, hl⟩
  have hreports : reports 3 (receivePotentials 3 (receivePotentials 3 (fun _ => none) 2
      (List.range' 1 101)) 3 (List.range' 1 101)) 1 ≥ 3 / 2 + 1 := by
    simp [reports, receivePotentials, toUInt64, List.range_succ, Function.update]
  have hnone := collect_stuck (by decide) (by decide : owned 3 1 1 = true) hreports fuel []
  have hstart : toInt32 (0 + 1) = 1 := by decide
  rw [skipCommits, hstart, hnone] at hl
  cases hl

end Jetpack.Mencius
