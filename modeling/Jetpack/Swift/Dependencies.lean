import Jetpack.Swift.Server

/-! The dependencies a replica computes for the proposals it handles. A command depends on the last
conflicting command before it, so what it reaches through dependencies is every earlier write of its
key, but of the reads only those that a write follows directly. -/

namespace Jetpack.Swift

open Relation

variable (w : Workload)

/-- What `keys_` holds after the proposals of a list. -/
def keysAfter (l : List CmdId) : Key → SwiftKeyInfo := l.foldl (trackKey w) (fun _ => {})

/-- `b` is in the dependency that was computed for `a` when its turn came. -/
def DependsOn (l : List CmdId) (a b : CmdId) : Prop :=
  ∃ pre post, l = pre ++ a :: post ∧ b ∈ getDep w (keysAfter w pre) a

variable {w}

theorem Workload.conflict_iff {a b : CmdId} :
    w.conflict a b = true ↔
      a ≠ b ∧ w.key a = w.key b ∧ (w.isWrite a = true ∨ w.isWrite b = true) := by
  simp only [conflict, Bool.and_eq_true, bne_iff_ne, beq_iff_eq, Bool.or_eq_true, and_assoc, ne_eq]

theorem keysAfter_concat (l : List CmdId) (c : CmdId) :
    keysAfter w (l ++ [c]) = trackKey w (keysAfter w l) c :=
  List.foldl_concat ..

theorem keysAfter_lastCmd (l : List CmdId) (k : Key) :
    (keysAfter w l k).lastCmd = (l.reverse.find? fun c => w.key c == k).toList := by
  induction l using List.reverseRecOn with
  | nil => rfl
  | append_singleton l c ih =>
    rw [keysAfter_concat, List.reverse_concat, List.find?_cons]
    by_cases hk : w.key c = k
    · subst hk
      simp [trackKey]
    · have hne : k ≠ w.key c := fun h => hk h.symm
      have hbeq : (w.key c == k) = false := by simpa using hk
      simp [trackKey, hne, ih, hbeq]

theorem keysAfter_lastWrite (l : List CmdId) (k : Key) :
    (keysAfter w l k).lastWrite =
      (l.reverse.find? fun c => w.key c == k && w.isWrite c).toList := by
  induction l using List.reverseRecOn with
  | nil => rfl
  | append_singleton l c ih =>
    rw [keysAfter_concat, List.reverse_concat, List.find?_cons]
    by_cases hk : w.key c = k
    · subst hk
      cases hw : w.isWrite c with
      | true => simp [trackKey, hw]
      | false => simp [trackKey, hw, ih]
    · have hne : k ≠ w.key c := fun h => hk h.symm
      have hbeq : (w.key c == k) = false := by simpa using hk
      simp [trackKey, hne, ih, hbeq]

theorem dropSelf_toList {c : CmdId} {o : Option CmdId} (h : ∀ d, o = some d → d ≠ c) :
    dropSelf c o.toList = o.toList := by
  cases o with
  | none => rfl
  | some d => exact if_pos (h d rfl)

theorem getDep_eq {l : List CmdId} {a : CmdId} (ha : a ∉ l) :
    getDep w (keysAfter w l) a = (l.reverse.find? fun c => w.conflict c a).toList := by
  have hfound : ∀ (p : CmdId → Bool) d, l.reverse.find? p = some d → d ≠ a := by
    intro p d hd hda
    have hmem := List.mem_of_find?_eq_some hd
    rw [hda, List.mem_reverse] at hmem
    exact ha hmem
  have hsame : ∀ p : CmdId → Bool, (∀ c ∈ l, p c = w.conflict c a) →
      l.reverse.find? p = l.reverse.find? fun c => w.conflict c a := by
    intro p hp
    apply List.find?_congr
    intro c hc
    exact hp c (List.mem_reverse.mp hc)
  unfold getDep
  dsimp only
  split_ifs with hwrite
  · rw [keysAfter_lastCmd, dropSelf_toList (hfound _)]
    rw [hsame]
    intro c hc
    have hne : (c != a) = true := by
      simp only [bne_iff_ne]
      exact fun h => ha (h ▸ hc)
    simp [Workload.conflict, hne, hwrite]
  · rw [keysAfter_lastWrite, dropSelf_toList (hfound _)]
    rw [hsame]
    intro c hc
    have hne : (c != a) = true := by
      simp only [bne_iff_ne]
      exact fun h => ha (h ▸ hc)
    simp [Workload.conflict, hne, hwrite]

/-- A command depends on another if this one is before it and no command in between conflicts with
it. -/
theorem dependsOn_iff {l : List CmdId} (hl : l.Nodup) {a b : CmdId} :
    DependsOn w l a b ↔ ∃ p q r, l = p ++ b :: (q ++ a :: r) ∧ w.conflict b a = true ∧
      ∀ c ∈ q, w.conflict c a = false := by
  have hdep : ∀ pre post, l = pre ++ a :: post →
      getDep w (keysAfter w pre) a = (pre.reverse.find? fun c => w.conflict c a).toList := by
    intro pre post hsplit
    apply getDep_eq
    intro hmem
    rw [hsplit] at hl
    exact (List.nodup_append.mp hl).2.2 a hmem a List.mem_cons_self rfl
  constructor
  · rintro ⟨pre, post, hsplit, hb⟩
    rw [hdep pre post hsplit, Option.mem_toList] at hb
    obtain ⟨hconf, q, p, hpre, hq⟩ := List.find?_eq_some_iff_append.mp hb
    refine ⟨p.reverse, q.reverse, post, ?_, hconf, fun c hc => ?_⟩
    · rw [hsplit, ← List.reverse_reverse pre, hpre]
      simp
    · simpa using hq c (List.mem_reverse.mp hc)
  · rintro ⟨p, q, r, hsplit, hconf, hq⟩
    have hsplit' : l = (p ++ b :: q) ++ a :: r := by rw [hsplit]; simp
    refine ⟨p ++ b :: q, r, hsplit', ?_⟩
    rw [hdep _ _ hsplit', Option.mem_toList]
    apply List.find?_eq_some_iff_append.mpr
    refine ⟨hconf, q.reverse, p.reverse, by simp, fun c hc => ?_⟩
    simpa using hq c (List.mem_reverse.mp hc)

theorem reaches_write {l p q r : List CmdId} {a e : CmdId} (hl : l.Nodup)
    (hsplit : l = p ++ e :: (q ++ a :: r)) (hkey : w.key e = w.key a)
    (hwrite : w.isWrite e = true) : ReflTransGen (DependsOn w l) a e := by
  induction hn : q.length using Nat.strong_induction_on generalizing p q r a with
  | _ n ih =>
    have hne : e ≠ a := by
      rintro rfl
      rw [hsplit] at hl
      exact (List.nodup_cons.mp (List.nodup_append.mp hl).2.1).1
        (List.mem_append_right q List.mem_cons_self)
    have hconf : w.conflict e a = true := Workload.conflict_iff.mpr ⟨hne, hkey, .inl hwrite⟩
    -- The last conflicting command before `a` is `e` or one after it.
    cases hfind : q.reverse.find? (fun c => w.conflict c a) with
    | none =>
      apply ReflTransGen.single
      refine (dependsOn_iff hl).mpr ⟨p, q, r, hsplit, hconf, fun c hc => ?_⟩
      simpa using List.find?_eq_none.mp hfind c (List.mem_reverse.mpr hc)
    | some d =>
      obtain ⟨hd, t, s, hq, ht⟩ := List.find?_eq_some_iff_append.mp hfind
      have hq : q = s.reverse ++ d :: t.reverse := by
        rw [← List.reverse_reverse q, hq]
        simp
      have hfirst : DependsOn w l a d := by
        refine (dependsOn_iff hl).mpr ⟨p ++ e :: s.reverse, t.reverse, r, ?_, hd, fun c hc => ?_⟩
        · rw [hsplit, hq]
          simp
        · simpa using ht c (List.mem_reverse.mp hc)
      have hlen : s.reverse.length < n := by
        rw [← hn, hq, List.length_append, List.length_cons]
        omega
      have hd := Workload.conflict_iff.mp hd
      have hrest : ReflTransGen (DependsOn w l) d e := by
        refine @ih _ hlen p s.reverse (t.reverse ++ a :: r) d ?_ (hkey.trans hd.2.1.symm) rfl
        rw [hsplit, hq]
        simp
      exact .head hfirst hrest

def nextOfKey (w : Workload) (e : CmdId) (l : List CmdId) : Option CmdId :=
  l.find? fun c => w.key c == w.key e

/-- Only a write that follows it directly on its key depends on a read. -/
theorem dependsOn_read {pre rest : List CmdId} {c e : CmdId} (hl : (pre ++ e :: rest).Nodup)
    (hread : w.isWrite e = false) (h : DependsOn w (pre ++ e :: rest) c e) :
    w.isWrite c = true ∧ nextOfKey w e rest = some c := by
  obtain ⟨p, q, r, hsplit, hconf, hq⟩ := (dependsOn_iff hl).mp h
  obtain ⟨-, hkey, hwrite⟩ := Workload.conflict_iff.mp hconf
  have hcwrite : w.isWrite c = true := hwrite.resolve_left (by simp [hread])
  have hnotin := List.nodup_append.mp (hsplit ▸ hl)
  have hnp : e ∉ p := fun hmem => hnotin.2.2 e hmem e List.mem_cons_self rfl
  have hnr : e ∉ q ++ c :: r := (List.nodup_cons.mp hnotin.2.1).1
  obtain ⟨-, -, rfl⟩ := (List.append_cons_inj_of_notMem hnp hnr).mp hsplit.symm
  refine ⟨hcwrite, ?_⟩
  apply List.find?_eq_some_iff_append.mpr
  refine ⟨by simp [hkey], q, r, rfl, fun d hd => ?_⟩
  have hdc := hq d hd
  have hne : (d != c) = true := by
    simp only [bne_iff_ne]
    rintro rfl
    have hnd := (List.nodup_cons.mp hnotin.2.1).2
    exact (List.nodup_append.mp hnd).2.2 d hd d List.mem_cons_self rfl
  simp only [Workload.conflict, hne, hcwrite, Bool.or_true, Bool.and_true, Bool.true_and] at hdc
  rw [hkey, hdc]
  rfl

/-- A command reaches an earlier command it conflicts with exactly when the earlier one is a write or
the next command of its key is a write. -/
theorem reaches_iff {pre rest : List CmdId} {e a : CmdId} (hl : (pre ++ e :: rest).Nodup)
    (ha : a ∈ rest) (hconf : w.conflict e a = true) :
    ReflTransGen (DependsOn w (pre ++ e :: rest)) a e ↔
      w.isWrite e = true ∨ (nextOfKey w e rest).any w.isWrite = true := by
  obtain ⟨hne, hkey, hwrite⟩ := Workload.conflict_iff.mp hconf
  constructor
  · intro hreach
    cases hread : w.isWrite e with
    | true => exact .inl rfl
    | false =>
      right
      rcases ReflTransGen.cases_tail hreach with rfl | ⟨c, -, hlast⟩
      · exact absurd rfl hne
      · obtain ⟨hcwrite, hnext⟩ := dependsOn_read hl hread hlast
        rw [hnext]
        exact hcwrite
  · intro hnext
    cases hread : w.isWrite e with
    | true =>
      obtain ⟨q, r, rfl⟩ := List.append_of_mem ha
      exact reaches_write hl rfl hkey hread
    | false =>
      have hnext := hnext.resolve_left (by simp [hread])
      obtain ⟨c, hc, hcwrite⟩ : ∃ c, nextOfKey w e rest = some c ∧ w.isWrite c = true := by
        simpa [Option.any_eq_true] using hnext
      obtain ⟨hckey, q, r, rfl, hq⟩ := List.find?_eq_some_iff_append.mp hc
      rw [beq_iff_eq] at hckey
      have hce : c ≠ e := by
        rintro rfl
        rw [hread] at hcwrite
        cases hcwrite
      -- The next command of the key depends on `e`, and `a` is that command or reaches it.
      have hlast : DependsOn w (pre ++ e :: (q ++ c :: r)) c e := by
        refine (dependsOn_iff hl).mpr ⟨pre, q, r, rfl, ?_, fun d hd => ?_⟩
        · exact Workload.conflict_iff.mpr ⟨hce.symm, hckey.symm, .inr hcwrite⟩
        · have hdkey := hq d hd
          simp only [Bool.not_eq_true', beq_eq_false_iff_ne] at hdkey
          have hnd : w.key d ≠ w.key c := hckey ▸ hdkey
          simp [Workload.conflict, hnd]
      have hafter : a = c ∨ a ∈ r := by
        rcases List.mem_append.mp ha with haq | har
        · have hakey := hq a haq
          simp [hkey] at hakey
        · exact List.mem_cons.mp har
      rcases hafter with rfl | har
      · exact .single hlast
      · obtain ⟨q', r', rfl⟩ := List.append_of_mem har
        have hto : ReflTransGen (DependsOn w (pre ++ e :: (q ++ c :: (q' ++ a :: r')))) a c :=
          @reaches_write w _ (pre ++ e :: q) q' r' a c hl (by simp) (hckey.trans hkey) hcwrite
        exact hto.tail hlast

def twoReadsThenWrite : Workload := ⟨fun _ => 0, fun c => c == 3⟩

theorem reaches_iff_twoReads :
    ReflTransGen (DependsOn twoReadsThenWrite [1, 2, 3]) 3 2 ↔
      twoReadsThenWrite.isWrite 2 = true ∨
        (nextOfKey twoReadsThenWrite 2 [3]).any twoReadsThenWrite.isWrite = true :=
  @reaches_iff twoReadsThenWrite [1] [3] 2 3 (by decide) (by decide) (by decide)

/-- The first of the two reads is out of reach of the write. -/
theorem first_read_unreached :
    ¬ ∀ (w : Workload) (pre rest : List CmdId) (e a : CmdId), (pre ++ e :: rest).Nodup →
      a ∈ rest → w.conflict e a = true → ReflTransGen (DependsOn w (pre ++ e :: rest)) a e := by
  intro hcovers
  have hreach := hcovers twoReadsThenWrite [] [2, 3] 1 3 (by decide) (by decide) (by decide)
  have hnd : ([] ++ (1 : CmdId) :: [2, 3]).Nodup := by decide
  rcases ReflTransGen.cases_tail hreach with h | ⟨c, -, hlast⟩
  · exact absurd h (by decide)
  · obtain ⟨hcwrite, hnext⟩ := dependsOn_read hnd (by decide) hlast
    have hc : c = 2 := by
      have htwo : nextOfKey twoReadsThenWrite 1 [2, 3] = some 2 := by decide
      rw [htwo] at hnext
      exact (Option.some.inj hnext).symm
    rw [hc] at hcwrite
    exact absurd hcwrite (by decide)

end Jetpack.Swift
