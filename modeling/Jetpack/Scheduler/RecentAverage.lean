import Jetpack.Command

/-! The average over the latest samples. Once the window is full, `append` takes the sample under
the cursor out of the sum and writes to the place after it. -/

namespace Jetpack

structure RecentAverage (K : Type) where
  data : List K
  size : Nat
  pointer : Nat
  sum : K
  filledOnce : Bool

namespace RecentAverage

variable {K : Type} [Field K]

def new (size : Nat) : RecentAverage K := ⟨[], size, 0, 0, false⟩

def indices (r : RecentAverage K) : List Nat :=
  if r.filledOnce then [r.pointer, r.pointer + 1] else []

/-- `none` for an index outside `data_`, which the source does not check. -/
def append (r : RecentAverage K) (x : K) : Option (RecentAverage K) :=
  let advance (r : RecentAverage K) : RecentAverage K :=
    if r.pointer = r.size then { r with pointer := 0, filledOnce := true } else r
  if r.filledOnce then
    match r.data[r.pointer]? with
    | none => none
    | some old =>
      if r.pointer + 1 < r.data.length then
        some (advance { r with
          data := r.data.set (r.pointer + 1) x
          pointer := r.pointer + 1
          sum := r.sum - old + x })
      else none
  else
    some (advance { r with
      data := r.data ++ [x]
      pointer := r.pointer + 1
      sum := r.sum + x })

def ave (r : RecentAverage K) : Except Fault K :=
  if r.filledOnce || decide (0 < r.pointer) then
    .ok (if r.filledOnce then r.sum / r.size else r.sum / r.pointer)
  else .error .verify

def run (n : Nat) (xs : List K) : Option (RecentAverage K) :=
  xs.foldlM append (new n)

theorem run_append (n : Nat) (xs ys : List K) :
    run n (xs ++ ys) = (run n xs).bind (fun r => ys.foldlM append r) :=
  List.foldlM_append

def window (n : Nat) (xs : List K) : List K := xs.drop (xs.length - n)

/-- Every index used is below `n`, and the sum and the average are those of the window. -/
def StaysInWindow (n : Nat) (xs : List K) : Prop :=
  (∀ ys x zs, xs = ys ++ x :: zs → ∀ r, run n ys = some r → ∀ i ∈ r.indices, i < n) ∧
  ∃ r, run n xs = some r ∧ r.sum = (window n xs).sum ∧
    (xs ≠ [] → r.ave = .ok ((window n xs).sum / (min n xs.length : Nat)))

theorem run_filling {n : Nat} {xs : List K} (h : xs.length < n) :
    run n xs = some ⟨xs, n, xs.length, xs.sum, false⟩ := by
  induction xs using List.reverseRecOn with
  | nil => rfl
  | append_singleton xs x ih =>
    have hlen : xs.length + 1 < n := by simpa using h
    have hne : xs.length + 1 ≠ n := by omega
    rw [run_append, ih (by omega)]
    simp [append, hne]

theorem run_filled {n : Nat} {xs : List K} (hn : 1 ≤ n) (h : xs.length = n) :
    run n xs = some ⟨xs, n, 0, xs.sum, true⟩ := by
  cases xs using List.reverseRecOn with
  | nil => simp at h; omega
  | append_singleton xs x =>
    have hlen : xs.length + 1 = n := by simpa using h
    rw [run_append, run_filling (by omega)]
    simp [append, hlen]

/-- A full window whose cursor is at place `k` over the sample `v`; `rest` is what the other
samples of the sum come to. -/
structure Overwriting (n k : Nat) (rest v : K) (r : RecentAverage K) : Prop where
  filled : r.filledOnce = true
  size_eq : r.size = n
  length_eq : r.data.length = n
  pointer_eq : r.pointer = k
  current : r.data[k]? = some v
  sum_eq : r.sum = rest + v

/-- The sample just written is the one taken out next, so `rest` never changes. -/
theorem Overwriting.append {n k : Nat} {rest v : K} {r : RecentAverage K}
    (h : Overwriting n k rest v r) (hk : k + 1 < n) (x : K) :
    ∃ r', r.append x = some r' ∧ Overwriting n (k + 1) rest x r' := by
  have hlt : k + 1 < r.data.length := by rw [h.length_eq]; exact hk
  have hne : k + 1 ≠ n := by omega
  have hsum : r.sum - v + x = rest + x := by rw [h.sum_eq]; ring
  refine ⟨⟨r.data.set (k + 1) x, n, k + 1, r.sum - v + x, true⟩, ?_, ?_⟩
  · simp [RecentAverage.append, h.filled, h.pointer_eq, h.current, h.size_eq, hlt, hne]
  · exact ⟨rfl, rfl, by simp [h.length_eq], rfl, by simp [hlt], hsum⟩

theorem Overwriting.run {n k : Nat} {rest v : K} {r : RecentAverage K} {zs : List K}
    (h : Overwriting n k rest v r) (hk : k + zs.length < n) :
    ∃ r', zs.foldlM RecentAverage.append r = some r' ∧
      Overwriting n (k + zs.length) rest (zs.getLastD v) r' := by
  induction zs generalizing k v r with
  | nil => exact ⟨r, rfl, h⟩
  | cons z zs ih =>
    rw [List.length_cons] at hk
    obtain ⟨r₁, happend, h₁⟩ := h.append (by omega) z
    obtain ⟨r', hrun, h'⟩ := ih h₁ (by omega)
    refine ⟨r', ?_, ?_⟩
    · simp [List.foldlM_cons, happend, hrun]
    · have hpos : k + (z :: zs).length = k + 1 + zs.length := by rw [List.length_cons]; omega
      rw [hpos, List.getLastD_cons]
      exact h'

theorem run_overwriting {n : Nat} {x : K} {t zs : List K} (ht : t.length + 1 = n)
    (hz : zs.length < n) :
    ∃ r, run n (x :: t ++ zs) = some r ∧ Overwriting n zs.length t.sum (zs.getLastD x) r := by
  have hfull : run n (x :: t) = some ⟨x :: t, n, 0, (x :: t).sum, true⟩ :=
    run_filled (by omega) ht
  have hstart : Overwriting n 0 t.sum x ⟨x :: t, n, 0, (x :: t).sum, true⟩ :=
    ⟨rfl, rfl, ht, rfl, rfl, by simp [add_comm]⟩
  have hroom : 0 + zs.length < n := by omega
  obtain ⟨r, hrun, hr⟩ := hstart.run hroom
  rw [Nat.zero_add] at hr
  exact ⟨r, by rw [run_append, hfull]; exact hrun, hr⟩

theorem exists_window {α : Type} {n : Nat} {xs : List α} (hn : 1 ≤ n) (h : n ≤ xs.length) :
    ∃ x t zs, xs = x :: t ++ zs ∧ t.length + 1 = n := by
  have htake : (xs.take n).length = n := by rw [List.length_take]; omega
  cases hx : xs.take n with
  | nil => rw [hx] at htake; simp at htake; omega
  | cons x t =>
    refine ⟨x, t, xs.drop n, ?_, ?_⟩
    · rw [← hx, List.take_append_drop]
    · rw [hx] at htake
      exact htake

theorem indices_lt {n : Nat} {ys : List K} (h : ys.length + 1 < 2 * n) {r : RecentAverage K}
    (hr : run n ys = some r) : ∀ i ∈ r.indices, i < n := by
  intro i hi
  by_cases hlen : ys.length < n
  · rw [run_filling hlen] at hr
    cases hr
    simp [indices] at hi
  · obtain ⟨x, t, zs, rfl, ht⟩ := exists_window (by omega) (Nat.le_of_not_lt hlen)
    have hz : zs.length + 1 < n := by simp at h; omega
    obtain ⟨r', hrun, hover⟩ := run_overwriting (x := x) ht (by omega : zs.length < n)
    rw [hr] at hrun
    cases hrun
    have hmem : i = zs.length ∨ i = zs.length + 1 := by
      simpa [indices, hover.filled, hover.pointer_eq] using hi
    omega

theorem exists_index_outside {n : Nat} {xs : List K} (hn : 1 ≤ n) (h : 2 * n ≤ xs.length) :
    ∃ ys x zs r, xs = ys ++ x :: zs ∧ run n ys = some r ∧ n ∈ r.indices := by
  obtain ⟨x, t, zs, rfl, ht⟩ := exists_window hn (by omega : n ≤ xs.length)
  have hz : n ≤ zs.length := by simp at h; omega
  have hlt : n - 1 < zs.length := by omega
  have htake : (zs.take (n - 1)).length = n - 1 := by rw [List.length_take]; omega
  have hroom : (zs.take (n - 1)).length < n := by omega
  obtain ⟨r, hrun, hover⟩ := run_overwriting (x := x) ht hroom
  refine ⟨x :: t ++ zs.take (n - 1), zs[n - 1], zs.drop n, r, ?_, hrun, ?_⟩
  · have hdrop : zs.drop (n - 1) = zs[n - 1] :: zs.drop n := by
      rw [List.drop_eq_getElem_cons hlt, Nat.sub_add_cancel hn]
    rw [List.append_assoc, ← hdrop, List.take_append_drop]
  · have hlast : r.pointer + 1 = n := by rw [hover.pointer_eq, htake]; omega
    simp [indices, hover.filled, hlast]

theorem sum_dropLast (zs : List K) (z v : K) :
    (z :: zs).dropLast.sum + (z :: zs).getLastD v = (z :: zs).sum := by
  have hne : z :: zs ≠ [] := List.cons_ne_nil z zs
  have hlast : (z :: zs).getLastD v = (z :: zs).getLast hne := by
    rw [List.getLastD_eq_getLast?, List.getLast?_eq_some_getLast hne, Option.getD_some]
  calc (z :: zs).dropLast.sum + (z :: zs).getLastD v
      = ((z :: zs).dropLast ++ [(z :: zs).getLast hne]).sum := by
        rw [List.sum_append, List.sum_singleton, hlast]
    _ = (z :: zs).sum := by rw [List.dropLast_append_getLast hne]

/-- The kept sum is the window's exactly when the samples it still counts, although they have left,
come to the same as those it has taken out too early. -/
theorem overwritten_sum_iff (x : K) (t zs : List K) (hz : zs.length ≤ t.length) :
    t.sum + zs.getLastD x = ((x :: t ++ zs).drop zs.length).sum ↔
      ((x :: t ++ zs).take zs.length).tail.sum = zs.dropLast.sum := by
  cases zs with
  | nil => simp [add_comm]
  | cons z zs =>
    have hlen : zs.length ≤ t.length := by rw [List.length_cons] at hz; omega
    have hlast := sum_dropLast zs z x
    have hsplit : (t.take zs.length).sum + (t.drop zs.length).sum = t.sum := by
      rw [← List.sum_append, List.take_append_drop]
    have hdrop : ((x :: t ++ z :: zs).drop (z :: zs).length).sum
        = (t.drop zs.length).sum + (z :: zs).sum := by
      rw [List.cons_append, List.length_cons, List.drop_succ_cons, List.drop_append_of_le_length hlen,
        List.sum_append]
    have htake : ((x :: t ++ z :: zs).take (z :: zs).length).tail = t.take zs.length := by
      rw [List.cons_append, List.length_cons, List.take_succ_cons, List.tail_cons,
        List.take_append_of_le_length hlen]
    rw [hdrop, htake, ← hlast, ← hsplit]
    constructor
    · intro h
      linear_combination h
    · intro h
      linear_combination h

/-- The average is right whenever the sum is. -/
theorem ave_window {n : Nat} {xs : List K} {r : RecentAverage K} (hn : 1 ≤ n)
    (hr : run n xs = some r) (hlen : xs.length < 2 * n) (hsum : r.sum = (window n xs).sum)
    (hne : xs ≠ []) : r.ave = .ok ((window n xs).sum / (min n xs.length : Nat)) := by
  have hpos : 0 < xs.length := List.length_pos_iff.mpr hne
  by_cases hfill : xs.length < n
  · rw [run_filling hfill] at hr
    cases hr
    have hmin : min n xs.length = xs.length := by omega
    rw [hmin, ← hsum]
    simp [ave, hpos]
  · obtain ⟨x, t, zs, rfl, ht⟩ := exists_window hn (Nat.le_of_not_lt hfill)
    have hz : zs.length < n := by simp at hlen; omega
    obtain ⟨r', hrun, hover⟩ := run_overwriting (x := x) ht hz
    rw [hr] at hrun
    cases hrun
    have hmin : min n (x :: t ++ zs).length = n := by omega
    rw [hmin, ← hsum]
    simp [ave, hover.filled, hover.size_eq]

theorem staysInWindow_iff {n : Nat} (hn : 1 ≤ n) (xs : List K) :
    StaysInWindow n xs ↔ xs.length < 2 * n ∧
      (xs.take (xs.length - n)).tail.sum = (xs.drop n).dropLast.sum := by
  by_cases hlen : xs.length < 2 * n
  · have hindices : ∀ ys x zs, xs = ys ++ x :: zs → ∀ r, run n ys = some r →
        ∀ i ∈ r.indices, i < n := by
      rintro ys x zs rfl r hr
      exact indices_lt (by simp at hlen; omega) hr
    suffices hrun : ∃ r, run n xs = some r ∧ (r.sum = (window n xs).sum ↔
        (xs.take (xs.length - n)).tail.sum = (xs.drop n).dropLast.sum) by
      obtain ⟨r, hr, hiff⟩ := hrun
      constructor
      · rintro ⟨-, r', hr', hsum, -⟩
        rw [hr] at hr'
        cases hr'
        exact ⟨hlen, hiff.mp hsum⟩
      · rintro ⟨-, hcond⟩
        have hsum := hiff.mpr hcond
        exact ⟨hindices, r, hr, hsum, ave_window hn hr hlen hsum⟩
    by_cases hfill : xs.length ≤ n
    · have hzero : xs.length - n = 0 := by omega
      have hdrop : xs.drop n = [] := List.drop_eq_nil_of_le hfill
      rcases Nat.lt_or_eq_of_le hfill with hlt | heq
      · exact ⟨_, run_filling hlt, by simp [window, hzero, hdrop]⟩
      · exact ⟨_, run_filled hn heq, by simp [window, hzero, hdrop]⟩
    · obtain ⟨x, t, zs, rfl, ht⟩ := exists_window hn (by omega : n ≤ xs.length)
      have hz : zs.length < n := by simp at hlen; omega
      obtain ⟨r, hr, hover⟩ := run_overwriting (x := x) ht hz
      have hover_len : (x :: t ++ zs).length - n = zs.length := by simp; omega
      have hdrop : (x :: t ++ zs).drop n = zs := List.drop_left' ht
      refine ⟨r, hr, ?_⟩
      rw [window, hover_len, hdrop, hover.sum_eq]
      exact overwritten_sum_iff x t zs (by omega)
  · constructor
    · rintro ⟨hindices, -⟩
      obtain ⟨ys, x, zs, r, hxs, hr, hmem⟩ := exists_index_outside hn (Nat.le_of_not_lt hlen)
      exact absurd (hindices ys x zs hxs r hr n hmem) (Nat.lt_irrefl n)
    · rintro ⟨h, -⟩
      exact absurd h hlen

theorem staysInWindow_iff_five : StaysInWindow 3 ([1, 2, 3, 2, 6] : List ℚ) :=
  (staysInWindow_iff (by decide) _).mpr ⟨by decide, by norm_num⟩

theorem not_staysInWindow_five : ¬ StaysInWindow 3 ([1, 2, 3, 4, 5] : List ℚ) := by
  rintro ⟨-, r, hr, hsum, -⟩
  have hrun : run 3 ([1, 2, 3, 4, 5] : List ℚ) = some ⟨[1, 4, 5], 3, 2, 10, true⟩ := by
    norm_num [run, append, new]
  rw [hrun] at hr
  cases hr
  norm_num [window] at hsum

end RecentAverage

end Jetpack
