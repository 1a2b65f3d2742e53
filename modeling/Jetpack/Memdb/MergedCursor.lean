import Jetpack.Library.Merge
import Jetpack.Memdb.Txn
import Jetpack.Memdb.Isolation

/-! Queries in a transaction: the rows of a sorted table merged with the staged rows. -/

namespace Jetpack.Memdb

open Multimap

variable {K V : Type} [LinearOrder K]

structure SortedTable (keyOf : Nat → K) where
  address : Nat
  rows : List (K × Nat)
  keyed : ∀ e ∈ rows, e.1 = keyOf e.2
  sorted : Sorted rows

/-- The rows that bound a search among the staged ones: the markers, and a row that has only a key. -/
inductive SearchRow (K : Type) where
  | rowMin
  | rowMax
  | key (k : K)

/-- `operator<` of the pairs of a table and a row. -/
def TableRowPair.less (p o : Nat × SearchRow K) : Bool :=
  if p.1 ≠ o.1 then p.1 < o.1
  else
    match p.2, o.2 with
    | .rowMin, .rowMin => false
    | .rowMin, _ => true
    | .rowMax, _ => false
    | _, .rowMin => false
    | _, .rowMax => true
    | .key k, .key k' => k < k'

namespace Staged

variable {keyOf : Nat → K}

def pair (e : (Nat ×ₗ K) × Nat) : Nat × SearchRow K := ((ofLex e.1).1, .key (ofLex e.1).2)

def lowerBound (s : Staged keyOf) (o : Nat × SearchRow K) : Nat :=
  (s.entries.takeWhile fun e => TableRowPair.less (pair e) o).length

def upperBound (s : Staged keyOf) (o : Nat × SearchRow K) : Nat :=
  (s.entries.takeWhile fun e => !TableRowPair.less o (pair e)).length

def first (s : Staged keyOf) (tbl : Nat) : Query K → Nat
  | .all => s.lowerBound (tbl, .rowMin)
  | .query key => s.lowerBound (tbl, .key key)
  | .queryLt _ => s.lowerBound (tbl, .rowMin)
  | .queryGt key => s.upperBound (tbl, .key key)
  | .queryIn low _ => s.upperBound (tbl, .key low)

def last (s : Staged keyOf) (tbl : Nat) : Query K → Nat
  | .all => s.upperBound (tbl, .rowMax)
  | .query key => s.upperBound (tbl, .key key)
  | .queryLt key => s.lowerBound (tbl, .key key)
  | .queryGt _ => s.upperBound (tbl, .rowMax)
  | .queryIn _ high => s.lowerBound (tbl, .key high)

def cursor (s : Staged keyOf) (tbl : Nat) (q : Query K) (desc : Bool) : List Nat :=
  let found := (slice (s.first tbl q) (s.last tbl q) s.entries).map Prod.snd
  if desc then found.reverse else found

end Staged

/-- The cursor over a table; an open interval must not be empty. -/
def SortedTable.cursor {keyOf : Nat → K} (t : SortedTable keyOf) (q : Query K) (desc : Bool) :
    Option (List Nat) :=
  let found := (slice (q.first t.rows) (q.last t.rows) t.rows).map Prod.snd
  if q.ordered then some (if desc then found.reverse else found) else none

/-- `cursor` and `inserts` are what the cursor below and the staged rows have still to give. -/
structure MergedCursor where
  table : Nat
  cursor : List Nat
  inserts : List Nat
  removes : Finset (Nat × Nat)
  cached : Option Nat := none
  nextCandidate : Option Nat := none

namespace MergedCursor

/-- The loop that passes over removed rows. -/
def advance (removed : Nat → Bool) : Option Nat → List Nat → Option Nat × List Nat
  | some c, cursor => (some c, cursor)
  | none, [] => (none, [])
  | none, c :: cursor => if removed c then advance removed none cursor else (some c, cursor)

/-- The candidate and the next staged row are compared as pointers. -/
def prefetchNext (m : MergedCursor) : MergedCursor :=
  let (candidate, cursor) := advance (fun r => (m.table, r) ∈ m.removes) m.nextCandidate m.cursor
  match candidate, m.inserts with
  | none, [] => { m with cursor, nextCandidate := none }
  | none, i :: inserts => { m with cursor, inserts, cached := some i, nextCandidate := none }
  | some c, [] => { m with cursor, cached := some c, nextCandidate := none }
  | some c, i :: inserts =>
    if c < i then { m with cursor, cached := some c, nextCandidate := none }
    else { m with cursor, inserts, cached := some i, nextCandidate := some c }

def hasNext (m : MergedCursor) : Bool × MergedCursor :=
  if m.cached.isSome then (true, m)
  else
    let m := m.prefetchNext
    (m.cached.isSome, m)

/-- `none` stands for the `verify` that there is a next row. -/
def next (m : MergedCursor) : Option (Nat × MergedCursor) :=
  let m := if m.cached.isSome then m else m.prefetchNext
  m.cached.map fun r => (r, { m with cached := none })

def drain : Nat → MergedCursor → List Nat
  | 0, _ => []
  | n + 1, m =>
    match m.hasNext with
    | (false, _) => []
    | (true, m) =>
      match m.next with
      | none => []
      | some (r, m) => r :: drain n m

def rows (m : MergedCursor) : List Nat := m.drain (m.cursor.length + m.inserts.length)

end MergedCursor

def Txn2PL.query {keyOf : Nat → K} (t : Txn2PL keyOf V) (tbl : SortedTable keyOf) (q : Query K)
    (desc : Bool) : Option MergedCursor := do
  let cursor ← tbl.cursor q desc
  return {
    table := tbl.address
    cursor
    inserts := t.inserts.cursor tbl.address q desc
    removes := t.removes }

/-- The cursor of the base is merged with the rows staged in the nested transaction. -/
def TxnNested.query {keyOf : Nat → K} (n : TxnNested keyOf V) (tbl : SortedTable keyOf)
    (q : Query K) (desc : Bool) : Option MergedCursor := do
  let base ← n.base.query tbl q desc
  return {
    table := tbl.address
    cursor := base.rows
    inserts := n.own.inserts.cursor tbl.address q desc
    removes := n.own.removes }

namespace MergedCursor

def stream (m : MergedCursor) : List Nat :=
  m.nextCandidate.toList ++ m.cursor.filter fun r => (m.table, r) ∉ m.removes

theorem advance_spec (removed : Nat → Bool) (candidate : Option Nat) (cursor : List Nat) :
    (advance removed candidate cursor).1.toList ++
        ((advance removed candidate cursor).2.filter fun r => !removed r) =
      candidate.toList ++ cursor.filter (fun r => !removed r) ∧
    ((advance removed candidate cursor).1 = none →
      (advance removed candidate cursor).2 = []) := by
  cases candidate with
  | some c => simp [advance]
  | none =>
    induction cursor with
    | nil => simp [advance]
    | cons c cursor ih =>
      rw [advance]
      cases hc : removed c with
      | true => simpa [hc] using ih
      | false => simp [hc]

/-- One look ahead takes the head of the merge. -/
theorem prefetchNext_spec (m : MergedCursor) (hm : m.cached = none) :
    match m.stream.merge m.inserts (fun c i => c < i) with
    | [] => m.prefetchNext.cached = none
    | r :: rest => m.prefetchNext.cached = some r ∧
        m.prefetchNext.stream.merge m.prefetchNext.inserts (fun c i => c < i) = rest := by
  obtain ⟨hstream, hend⟩ :=
    advance_spec (fun r => (m.table, r) ∈ m.removes) m.nextCandidate m.cursor
  have hs : m.stream = m.nextCandidate.toList ++
      m.cursor.filter fun r => !decide ((m.table, r) ∈ m.removes) := by
    simp only [stream, decide_not]
  rw [hs, ← hstream, prefetchNext]
  obtain ⟨x, hx⟩ : ∃ x, advance (fun r => (m.table, r) ∈ m.removes) m.nextCandidate m.cursor = x :=
    ⟨_, rfl⟩
  rw [hx] at hend ⊢
  obtain ⟨candidate, cursor⟩ := x
  simp only at hend ⊢
  cases candidate with
  | none =>
    obtain rfl := hend rfl
    cases hi : m.inserts with
    | nil => simpa using hm
    | cons i inserts => simp [stream]
  | some c =>
    cases hi : m.inserts with
    | nil => simp [stream]
    | cons i inserts =>
      simp only [Option.toList_some, List.singleton_append, List.cons_merge_cons]
      by_cases hci : c < i
      · simp [hci, stream]
      · simp [hci, stream]

theorem drain_eq {n : Nat} {m : MergedCursor} (hm : m.cached = none)
    (hn : (m.stream.merge m.inserts fun c i => c < i).length ≤ n) :
    m.drain n = m.stream.merge m.inserts fun c i => c < i := by
  induction n generalizing m with
  | zero =>
    have hnil := List.length_eq_zero_iff.mp (Nat.le_zero.mp hn)
    rw [hnil]
    rfl
  | succ n ih =>
    have hspec := prefetchNext_spec m hm
    cases hmerge : m.stream.merge m.inserts fun c i => c < i with
    | nil =>
      simp only [hmerge] at hspec
      simp [drain, hasNext, hm, hspec]
    | cons r rest =>
      simp only [hmerge] at hspec hn
      obtain ⟨hcached, hrest⟩ := hspec
      have hnext : m.prefetchNext.next =
          some (r, { m.prefetchNext with cached := none }) := by
        simp [next, hcached]
      have hdrain := ih (m := { m.prefetchNext with cached := none }) rfl
        (by
          show (m.prefetchNext.stream.merge m.prefetchNext.inserts fun c i => c < i).length ≤ n
          rw [hrest]
          simpa using hn)
      simp only [drain, hasNext, hm, Option.isSome_none, Bool.false_eq_true, if_false, hcached,
        Option.isSome_some, hnext, hdrain]
      congr 1

theorem rows_eq {m : MergedCursor} (hm : m.cached = none) (hc : m.nextCandidate = none) :
    m.rows = (m.cursor.filter fun r => (m.table, r) ∉ m.removes).merge m.inserts
      fun c i => c < i := by
  have hs : m.stream = m.cursor.filter fun r => (m.table, r) ∉ m.removes := by
    simp [stream, hc]
  rw [← hs]
  apply drain_eq hm
  rw [List.length_merge, hs]
  exact Nat.add_le_add_right (List.length_filter_le _ _) _

end MergedCursor

namespace Staged

variable {keyOf : Nat → K}

def before (tbl : Nat) (q : Query K) (x : Nat ×ₗ K) : Bool :=
  (ofLex x).1 < tbl || ((ofLex x).1 = tbl && q.before (ofLex x).2)

def upto (tbl : Nat) (q : Query K) (x : Nat ×ₗ K) : Bool :=
  (ofLex x).1 < tbl || ((ofLex x).1 = tbl && q.upto (ofLex x).2)

theorem mono_of_mono {p : K → Bool} (hp : ∀ a b, a ≤ b → p b = true → p a = true) (tbl : Nat)
    (x y : Nat ×ₗ K) (hxy : x ≤ y)
    (hy : ((ofLex y).1 < tbl || ((ofLex y).1 = tbl && p (ofLex y).2)) = true) :
    ((ofLex x).1 < tbl || ((ofLex x).1 = tbl && p (ofLex x).2)) = true := by
  simp only [Bool.or_eq_true, Bool.and_eq_true, decide_eq_true_eq] at hy ⊢
  rcases Prod.Lex.le_iff.mp hxy with hlt | ⟨heq, hle⟩
  · rcases hy with hy | ⟨hy, -⟩
    · exact .inl (hlt.trans hy)
    · exact .inl (hy ▸ hlt)
  · rcases hy with hy | ⟨hy, hk⟩
    · exact .inl (heq ▸ hy)
    · exact .inr ⟨heq.trans hy, hp _ _ hle hk⟩

section Less

variable (e : (Nat ×ₗ K) × Nat) (tbl : Nat) (k : K)

theorem less_of_ne {p o : Nat × SearchRow K} (h : p.1 ≠ o.1) :
    TableRowPair.less p o = true ↔ p.1 < o.1 := by
  rw [TableRowPair.less, if_pos h, decide_eq_true_eq]

theorem less_rowMin :
    TableRowPair.less (pair e) (tbl, .rowMin) = true ↔ (ofLex e.1).1 < tbl := by
  by_cases ht : (ofLex e.1).1 = tbl
  · simp [TableRowPair.less, pair, ht]
  · exact less_of_ne ht

theorem less_key :
    TableRowPair.less (pair e) (tbl, .key k) = true ↔
      (ofLex e.1).1 < tbl ∨ (ofLex e.1).1 = tbl ∧ (ofLex e.1).2 < k := by
  by_cases ht : (ofLex e.1).1 = tbl
  · simp [TableRowPair.less, pair, ht]
  · rw [less_of_ne (p := pair e) (o := (tbl, .key k)) ht]
    simp [pair, ht]

theorem not_key_less :
    (!TableRowPair.less (tbl, .key k) (pair e)) = true ↔
      (ofLex e.1).1 < tbl ∨ (ofLex e.1).1 = tbl ∧ (ofLex e.1).2 ≤ k := by
  rw [Bool.not_eq_true', ← Bool.not_eq_true]
  by_cases ht : (ofLex e.1).1 = tbl
  · simp [TableRowPair.less, pair, ht]
  · rw [less_of_ne (p := (tbl, .key k)) (o := pair e) (Ne.symm ht)]
    have hcmp : ¬ tbl < (ofLex e.1).1 ↔ (ofLex e.1).1 < tbl :=
      ⟨fun h => lt_of_le_of_ne (not_lt.mp h) ht, fun h => not_lt.mpr h.le⟩
    simpa [pair, ht] using hcmp

theorem not_rowMax_less :
    (!TableRowPair.less (tbl, .rowMax) (pair e)) = true ↔
      (ofLex e.1).1 < tbl ∨ (ofLex e.1).1 = tbl := by
  rw [Bool.not_eq_true', ← Bool.not_eq_true]
  by_cases ht : (ofLex e.1).1 = tbl
  · simp [TableRowPair.less, pair, ht]
  · rw [less_of_ne (p := (tbl, .rowMax)) (o := pair e) (Ne.symm ht)]
    have hcmp : ¬ tbl < (ofLex e.1).1 ↔ (ofLex e.1).1 < tbl :=
      ⟨fun h => lt_of_le_of_ne (not_lt.mp h) ht, fun h => not_lt.mpr h.le⟩
    simpa [pair, ht] using hcmp

end Less

theorem before_iff (tbl : Nat) (q : Query K) (x : Nat ×ₗ K) :
    before tbl q x = true ↔ (ofLex x).1 < tbl ∨ (ofLex x).1 = tbl ∧ q.before (ofLex x).2 = true := by
  simp only [before, Bool.or_eq_true, Bool.and_eq_true, decide_eq_true_eq]

theorem upto_iff (tbl : Nat) (q : Query K) (x : Nat ×ₗ K) :
    upto tbl q x = true ↔ (ofLex x).1 < tbl ∨ (ofLex x).1 = tbl ∧ q.upto (ofLex x).2 = true := by
  simp only [upto, Bool.or_eq_true, Bool.and_eq_true, decide_eq_true_eq]

theorem length_takeWhile_congr {α : Type} {p q : α → Bool} (h : ∀ e, p e = true ↔ q e = true)
    (l : List α) : (l.takeWhile p).length = (l.takeWhile q).length := by
  rw [funext fun e => Bool.eq_iff_iff.mpr (h e)]

theorem first_eq (s : Staged keyOf) (tbl : Nat) (q : Query K) :
    s.first tbl q = (s.entries.takeWhile fun e => before tbl q e.1).length := by
  cases q with
  | all =>
    apply length_takeWhile_congr
    intro e
    simp [less_rowMin, before_iff, Query.before]
  | queryLt key =>
    apply length_takeWhile_congr
    intro e
    simp [less_rowMin, before_iff, Query.before]
  | query key =>
    apply length_takeWhile_congr
    intro e
    rw [less_key, before_iff, Query.before, decide_eq_true_eq]
  | queryGt key =>
    apply length_takeWhile_congr
    intro e
    rw [not_key_less, before_iff, Query.before, decide_eq_true_eq]
  | queryIn low high =>
    apply length_takeWhile_congr
    intro e
    rw [not_key_less, before_iff, Query.before, decide_eq_true_eq]

theorem last_eq (s : Staged keyOf) (tbl : Nat) (q : Query K) :
    s.last tbl q = (s.entries.takeWhile fun e => upto tbl q e.1).length := by
  cases q with
  | all =>
    apply length_takeWhile_congr
    intro e
    simp only [not_rowMax_less, upto_iff, Query.upto, and_true]
  | queryGt key =>
    apply length_takeWhile_congr
    intro e
    simp only [not_rowMax_less, upto_iff, Query.upto, and_true]
  | query key =>
    apply length_takeWhile_congr
    intro e
    rw [not_key_less, upto_iff, Query.upto, decide_eq_true_eq]
  | queryLt key =>
    apply length_takeWhile_congr
    intro e
    rw [less_key, upto_iff, Query.upto, decide_eq_true_eq]
  | queryIn low high =>
    apply length_takeWhile_congr
    intro e
    rw [less_key, upto_iff, Query.upto, decide_eq_true_eq]

/-- The bounds enclose the staged rows of the table in the range. -/
theorem slice_eq (s : Staged keyOf) (tbl : Nat) {q : Query K} (hq : q.ordered = true) :
    slice (s.first tbl q) (s.last tbl q) s.entries =
      s.entries.filter fun e => (ofLex e.1).1 = tbl && q.mem (ofLex e.1).2 := by
  have hpq : ∀ x : Nat ×ₗ K, before tbl q x = true → upto tbl q x = true := by
    intro x hx
    rw [before_iff] at hx
    rw [upto_iff]
    rcases hx with hx | ⟨hx, hk⟩
    · exact .inl hx
    · exact .inr ⟨hx, Query.upto_of_before hq _ hk⟩
  have hp : ∀ x y, x ≤ y → before tbl q y = true → before tbl q x = true :=
    mono_of_mono q.before_mono tbl
  have hq' : ∀ x y, x ≤ y → upto tbl q y = true → upto tbl q x = true :=
    mono_of_mono q.upto_mono tbl
  rw [first_eq, last_eq, slice_bounds hp hq' hpq s.sorted]
  apply List.filter_congr
  intro e _
  rw [Bool.eq_iff_iff, Bool.and_eq_true, Bool.not_eq_true', ← Bool.not_eq_true, before_iff, upto_iff,
    Bool.and_eq_true, decide_eq_true_eq, ← Query.holds_eq, Query.holds, Bool.and_eq_true,
    Bool.not_eq_true', ← Bool.not_eq_true]
  constructor
  · rintro ⟨hlt | ⟨ht, hu⟩, hb⟩
    · exact absurd (.inl hlt) hb
    · exact ⟨ht, hu, fun hk => hb (.inr ⟨ht, hk⟩)⟩
  · rintro ⟨ht, hu, hb⟩
    refine ⟨.inr ⟨ht, hu⟩, ?_⟩
    rintro (hlt | ⟨-, hk⟩)
    · exact absurd ht hlt.ne
    · exact hb hk

end Staged

def directed (desc : Bool) (l : List Nat) : List Nat := if desc then l.reverse else l

def SortedTable.inRange {keyOf : Nat → K} (tbl : SortedTable keyOf) (q : Query K) : List Nat :=
  (tbl.rows.filter fun e => q.mem e.1).map Prod.snd

def Staged.inRange {keyOf : Nat → K} (s : Staged keyOf) (tbl : Nat) (q : Query K) : List Nat :=
  (s.entries.filter fun e => (ofLex e.1).1 = tbl && q.mem (ofLex e.1).2).map Prod.snd

/-- What a query is to yield: the rows that are not staged for removal and the staged rows. -/
def Txn2PL.shown {keyOf : Nat → K} (t : Txn2PL keyOf V) (tbl : SortedTable keyOf) (q : Query K) :
    List Nat :=
  (tbl.inRange q).filter (fun r => (tbl.address, r) ∉ t.removes) ++
    t.inserts.inRange tbl.address q

def TxnNested.shown {keyOf : Nat → K} (n : TxnNested keyOf V) (tbl : SortedTable keyOf)
    (q : Query K) : List Nat :=
  (n.base.shown tbl q).filter (fun r => (tbl.address, r) ∉ n.own.removes) ++
    n.own.inserts.inRange tbl.address q

/-- The rows in a range that a transaction leaves in the table, in the direction of a query. -/
def Txn2PL.left {keyOf : Nat → K} (t : Txn2PL keyOf V) (tbl : SortedTable keyOf) (q : Query K)
    (desc : Bool) : List Nat :=
  directed desc ((tbl.inRange q).filter fun r => (tbl.address, r) ∉ t.removes)

def Txn2PL.added {keyOf : Nat → K} (t : Txn2PL keyOf V) (tbl : SortedTable keyOf) (q : Query K)
    (desc : Bool) : List Nat :=
  directed desc (t.inserts.inRange tbl.address q)

def KeyOrder (keyOf : Nat → K) (desc : Bool) (a b : Nat) : Prop :=
  if desc then keyOf b ≤ keyOf a else keyOf a ≤ keyOf b

instance (keyOf : Nat → K) (desc : Bool) (a b : Nat) : Decidable (KeyOrder keyOf desc a b) :=
  inferInstanceAs (Decidable (if desc then keyOf b ≤ keyOf a else keyOf a ≤ keyOf b))

/-- Each of the rows once, in the order of the keys. -/
def Yields (keyOf : Nat → K) (desc : Bool) (rows shown : List Nat) : Prop :=
  rows.Perm shown ∧ rows.Pairwise (KeyOrder keyOf desc)

section Queries

variable {keyOf : Nat → K}

theorem directed_perm (desc : Bool) (l : List Nat) : (directed desc l).Perm l := by
  cases desc with
  | true => exact List.reverse_perm l
  | false => exact List.Perm.refl l

theorem directed_filter (desc : Bool) (p : Nat → Bool) (l : List Nat) :
    (directed desc l).filter p = directed desc (l.filter p) := by
  cases desc with
  | true => exact List.filter_reverse
  | false => rfl

theorem pairwise_directed {desc : Bool} {l : List Nat}
    (hl : l.Pairwise fun a b => keyOf a ≤ keyOf b) :
    (directed desc l).Pairwise (KeyOrder keyOf desc) := by
  cases desc with
  | true => exact List.pairwise_reverse.mpr hl
  | false => exact hl

theorem SortedTable.cursor_eq (tbl : SortedTable keyOf) {q : Query K} (hq : q.ordered = true)
    (desc : Bool) : tbl.cursor q desc = some (directed desc (tbl.inRange q)) := by
  rw [SortedTable.cursor, if_pos hq, Query.slice_eq hq tbl.sorted]
  simp only [Query.holds_eq]
  rfl

theorem SortedTable.inRange_sorted (tbl : SortedTable keyOf) (q : Query K) :
    (tbl.inRange q).Pairwise fun a b => keyOf a ≤ keyOf b := by
  apply List.pairwise_map.mpr
  have hs : Sorted (tbl.rows.filter fun e => q.mem e.1) := tbl.sorted.sublist List.filter_sublist
  refine hs.imp_of_mem ?_
  intro a b ha hb hab
  rw [← tbl.keyed a (List.mem_of_mem_filter ha), ← tbl.keyed b (List.mem_of_mem_filter hb)]
  exact hab

theorem Staged.cursor_eq (s : Staged keyOf) (tbl : Nat) {q : Query K} (hq : q.ordered = true)
    (desc : Bool) : s.cursor tbl q desc = directed desc (s.inRange tbl q) := by
  rw [Staged.cursor, s.slice_eq tbl hq]
  rfl

theorem Staged.inRange_sorted (s : Staged keyOf) (tbl : Nat) (q : Query K) :
    (s.inRange tbl q).Pairwise fun a b => keyOf a ≤ keyOf b := by
  apply List.pairwise_map.mpr
  have hs : Sorted (s.entries.filter fun e =>
      (ofLex e.1).1 = tbl && q.mem (ofLex e.1).2) := s.sorted.sublist List.filter_sublist
  refine hs.imp_of_mem ?_
  intro a b ha hb hab
  obtain ⟨ha, hat⟩ := List.mem_filter.mp ha
  obtain ⟨hb, hbt⟩ := List.mem_filter.mp hb
  have hta : (ofLex a.1).1 = tbl := of_decide_eq_true (Bool.and_eq_true_iff.mp hat).1
  have htb : (ofLex b.1).1 = tbl := of_decide_eq_true (Bool.and_eq_true_iff.mp hbt).1
  rw [← s.keyed a ha, ← s.keyed b hb]
  rcases Prod.Lex.le_iff.mp hab with hlt | ⟨-, hle⟩
  · exact absurd (hta.trans htb.symm) hlt.ne
  · exact hle

/-- A merge yields all that comes in, and in the order of the keys exactly when the lower cursor
does and the peaks of the addresses agree with that order. -/
theorem yields_merge_iff {desc : Bool} {xs ys shown : List Nat}
    (hys : ys.Pairwise (KeyOrder keyOf desc)) (hshown : (xs ++ ys).Perm shown) :
    Yields keyOf desc (xs.merge ys fun c i => c < i) shown ↔
      xs.Pairwise (KeyOrder keyOf desc) ∧
        Merge.Agrees (fun r => r) (KeyOrder keyOf desc) xs ys := by
  have hperm : (xs.merge ys fun c i => c < i).Perm shown :=
    (List.merge_perm_append _).trans hshown
  rw [Yields, and_iff_right hperm, Merge.merge_pairwise_iff (f := fun r => r),
    and_iff_right hys]

theorem filter_pairwise_merge_iff {desc : Bool} {xs ys : List Nat} (kept : Nat → Bool)
    (hxs : xs.Pairwise (KeyOrder keyOf desc)) (hys : ys.Pairwise (KeyOrder keyOf desc)) :
    ((xs.merge ys fun c i => c < i).filter kept).Pairwise (KeyOrder keyOf desc) ↔
      Merge.Agrees (fun r => r)
        (fun a b => kept a = true → kept b = true → KeyOrder keyOf desc a b) xs ys := by
  have hweak : ∀ {l : List Nat}, l.Pairwise (KeyOrder keyOf desc) →
      l.Pairwise fun a b => kept a = true → kept b = true → KeyOrder keyOf desc a b :=
    fun h => h.imp fun hab _ _ => hab
  rw [List.pairwise_filter, Merge.merge_pairwise_iff (f := fun r => r), and_iff_right (hweak hxs),
    and_iff_right (hweak hys)]

/-- The queries of a transaction and of one nested in it yield what they are to, in the order of the
keys, exactly when the addresses of the rows happen to agree with that order. -/
theorem merged_exact (n : TxnNested keyOf V) (tbl : SortedTable keyOf) {q : Query K}
    (hq : q.ordered = true) (desc : Bool) :
    ∃ b m, n.base.query tbl q desc = some b ∧ n.query tbl q desc = some m ∧
      (Yields keyOf desc b.rows (n.base.shown tbl q) ↔
        Merge.Agrees (fun r => r) (KeyOrder keyOf desc) (n.base.left tbl q desc)
          (n.base.added tbl q desc)) ∧
      (Yields keyOf desc m.rows (n.shown tbl q) ↔
        Merge.Agrees (fun r => r)
          (fun a b => (tbl.address, a) ∉ n.own.removes → (tbl.address, b) ∉ n.own.removes →
            KeyOrder keyOf desc a b)
          (n.base.left tbl q desc) (n.base.added tbl q desc) ∧
        Merge.Agrees (fun r => r) (KeyOrder keyOf desc)
          (((n.base.left tbl q desc).merge (n.base.added tbl q desc) fun c i => c < i).filter
            fun r => (tbl.address, r) ∉ n.own.removes)
          (n.own.added tbl q desc)) := by
  obtain ⟨b, hb⟩ : ∃ b, n.base.query tbl q desc = some b := by
    simp [Txn2PL.query, tbl.cursor_eq hq]
  obtain ⟨m, hm⟩ : ∃ m, n.query tbl q desc = some m := by
    simp [TxnNested.query, hb]
  have hbrows : b.rows =
      (n.base.left tbl q desc).merge (n.base.added tbl q desc) fun c i => c < i := by
    simp only [Txn2PL.query, tbl.cursor_eq hq, Option.bind_eq_bind, Option.bind_some] at hb
    obtain rfl := Option.some.inj hb
    rw [MergedCursor.rows_eq rfl rfl, directed_filter, Staged.cursor_eq _ _ hq]
    rfl
  have hmrows : m.rows = (b.rows.filter fun r => (tbl.address, r) ∉ n.own.removes).merge
      (n.own.added tbl q desc) fun c i => c < i := by
    simp only [TxnNested.query, hb, Option.bind_eq_bind, Option.bind_some] at hm
    obtain rfl := Option.some.inj hm
    rw [MergedCursor.rows_eq rfl rfl, Staged.cursor_eq _ _ hq]
    rfl
  have hleft : (n.base.left tbl q desc).Pairwise (KeyOrder keyOf desc) :=
    pairwise_directed ((tbl.inRange_sorted q).sublist List.filter_sublist)
  have hadded : (n.base.added tbl q desc).Pairwise (KeyOrder keyOf desc) :=
    pairwise_directed (n.base.inserts.inRange_sorted _ q)
  have hshown : (n.base.left tbl q desc ++ n.base.added tbl q desc).Perm (n.base.shown tbl q) :=
    (directed_perm desc _).append (directed_perm desc _)
  have hbperm : b.rows.Perm (n.base.shown tbl q) := by
    rw [hbrows]
    exact (List.merge_perm_append _).trans hshown
  have hown : (n.own.added tbl q desc).Pairwise (KeyOrder keyOf desc) :=
    pairwise_directed (n.own.inserts.inRange_sorted _ q)
  have hnested : ((b.rows.filter fun r => (tbl.address, r) ∉ n.own.removes) ++
      n.own.added tbl q desc).Perm (n.shown tbl q) :=
    (hbperm.filter _).append (directed_perm desc _)
  refine ⟨b, m, hb, hm, ?_, ?_⟩
  · rw [hbrows, yields_merge_iff hadded hshown, and_iff_right hleft]
  · rw [hmrows, yields_merge_iff hown hnested, hbrows, filter_pairwise_merge_iff _ hleft hadded]
    simp only [decide_eq_true_eq]

end Queries

/-- Row 5 has key 1 and is in the table, and row 3 has key 2 and is staged. -/
def keyOfRow (row : Nat) : Nat := if row = 5 then 1 else 2

def oneRow : SortedTable keyOfRow where
  address := 9
  rows := [(1, 5)]
  keyed := by simp [keyOfRow]
  sorted := List.pairwise_singleton _ _

/-- The nested transaction removes row 3 and stages row 7. -/
def stagingRow : TxnNested keyOfRow Nat where
  base := { inserts := Staged.insert {} 9 3 }
  own := { inserts := Staged.insert {} 9 7, removes := {(9, 3)} }

/-- The rows of the nested transaction are in order, although those of its base are not. -/
theorem merged_exact_oneRow :
    ∃ b m, stagingRow.base.query oneRow .all false = some b ∧
      stagingRow.query oneRow .all false = some m ∧ b.rows = [3, 5] ∧ m.rows = [5, 7] ∧
      ¬ Yields keyOfRow false b.rows (stagingRow.base.shown oneRow .all) ∧
      Yields keyOfRow false m.rows (stagingRow.shown oneRow .all) := by
  obtain ⟨b, m, hb, hm, hbase, hnested⟩ := merged_exact stagingRow oneRow (q := .all) rfl false
  have hbrows : (stagingRow.base.query oneRow .all false).map MergedCursor.rows = some [3, 5] := by
    decide
  have hmrows : (stagingRow.query oneRow .all false).map MergedCursor.rows = some [5, 7] := by
    decide
  rw [hb] at hbrows
  rw [hm] at hmrows
  refine ⟨b, m, hb, hm, Option.some.inj hbrows, Option.some.inj hmrows, ?_, ?_⟩
  · rw [hbase]
    decide
  · have hleft : stagingRow.base.left oneRow .all false = [5] := by decide
    have hadded : stagingRow.base.added oneRow .all false = [3] := by decide
    have hmerge : ([5].merge [3] fun c i => c < i) = [3, 5] := by simp
    rw [hnested, hleft, hadded, hmerge]
    decide

/-- The staged row comes first, as its address is lower. -/
theorem merged_out_of_order :
    ∃ b, stagingRow.base.query oneRow .all false = some b ∧ b.rows = [3, 5] ∧
      ¬ Yields keyOfRow false b.rows (stagingRow.base.shown oneRow .all) := by
  refine ⟨_, rfl, rfl, ?_⟩
  rintro ⟨-, hsorted⟩
  have hle : keyOfRow 3 ≤ keyOfRow 5 := (List.pairwise_cons.mp hsorted).1 5 List.mem_cons_self
  exact absurd hle (by decide)

end Jetpack.Memdb
