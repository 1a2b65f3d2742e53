import Jetpack.Occ.Removal

/-! What a failed prepare leaves locked. The rollback of the read locks gives back what was acquired; the
rollback of the write locks unlocks the row that refused, once for each lock that is held. -/

namespace Jetpack.Occ

variable {ρ κ ν : Type}

namespace RWLock

/-- The locks of the other owners are the same. -/
def SameForOthers (o : LockOwner) (l l' : RWLock) : Prop :=
  ∀ p, p ≠ o → (l'.Holds p ↔ l.Holds p) ∧ (l'.WHolds p ↔ l.WHolds p)

theorem SameForOthers.refl (o : LockOwner) (l : RWLock) : SameForOthers o l l :=
  fun _ _ => ⟨Iff.rfl, Iff.rfl⟩

theorem SameForOthers.trans {o : LockOwner} {l l' l'' : RWLock} (h : SameForOthers o l l')
    (h' : SameForOthers o l' l'') : SameForOthers o l l'' :=
  fun p hp => ⟨(h' p hp).1.trans (h p hp).1, (h' p hp).2.trans (h p hp).2⟩

theorem rlockBy_sameForOthers (l : RWLock) (o : LockOwner) : SameForOthers o l (l.rlockBy o).2 := by
  intro p hp
  by_cases hw : l.wlocked = true
  · simp [rlockBy, hw]
  · have hne : ∀ r : Finset LockOwner, p ∈ insert o r ↔ p ∈ r := fun r => by simp [hp]
    simp [rlockBy, hw, Holds, WHolds, hne]

theorem wlockBy_sameForOthers (l : RWLock) (o : LockOwner) : SameForOthers o l (l.wlockBy o).2 := by
  intro p hp
  have hop : ¬ o = p := fun heq => hp heq.symm
  by_cases hw : l.wlocked = true
  · simp [wlockBy, hw]
  by_cases hr : l.r = ∅
  · simp [wlockBy, hw, hr, Holds, WHolds, hop]
  by_cases hup : o ∈ l.r ∧ l.r.card = 1
  · obtain ⟨q, hq⟩ := Finset.card_eq_one.mp hup.2
    obtain rfl : o = q := by simpa [hq] using hup.1
    simp [wlockBy, hw, hq, Holds, WHolds, hop, hp]
  · simp [wlockBy, hw, hr, hup]

theorem unlockBy_sameForOthers (l : RWLock) (o : LockOwner) : SameForOthers o l (l.unlockBy o) := by
  intro p hp
  have hwholds : (l.unlockBy o).WHolds p ↔ l.WHolds p := by
    unfold WHolds unlockBy
    constructor
    · rintro ⟨hw, rfl⟩
      simp only [Bool.and_eq_true] at hw
      exact ⟨hw.1, rfl⟩
    · rintro ⟨hw, rfl⟩
      simp [hw, Ne.symm hp]
  refine ⟨?_, hwholds⟩
  unfold Holds
  rw [hwholds]
  simp [unlockBy, hp]

theorem rlockBy_refused {l : RWLock} {o : LockOwner} :
    (l.rlockBy o).1 = false ↔ ∃ p, p ≠ o ∧ l.WHolds p := by
  by_cases hw : l.wlocked = true
  · simp only [rlockBy, hw, if_true, beq_eq_false_iff_ne]
    constructor
    · exact fun hne => ⟨l.w, Ne.symm hne, hw, rfl⟩
    · rintro ⟨p, hp, -, rfl⟩
      exact Ne.symm hp
  · simp [rlockBy, hw, WHolds]

theorem wlockBy_refused {l : RWLock} {o : LockOwner} (hx : l.Exclusive) :
    (l.wlockBy o).1 = false ↔ ∃ p, p ≠ o ∧ l.Holds p := by
  by_cases hw : l.wlocked = true
  · simp only [wlockBy, hw, if_true, beq_eq_false_iff_ne]
    constructor
    · exact fun hne => ⟨l.w, Ne.symm hne, .inl ⟨hw, rfl⟩⟩
    · rintro ⟨p, hp, ⟨-, rfl⟩ | hr⟩
      · exact Ne.symm hp
      · rw [hx hw] at hr
        cases Finset.notMem_empty p hr
  by_cases hr : l.r = ∅
  · simp [wlockBy, hw, hr, Holds, WHolds]
  by_cases hup : o ∈ l.r ∧ l.r.card = 1
  · obtain ⟨q, hq⟩ := Finset.card_eq_one.mp hup.2
    obtain rfl : o = q := by simpa [hq] using hup.1
    simp [wlockBy, hw, hq, Holds, WHolds]
  · have hother : ∃ p, p ≠ o ∧ p ∈ l.r := by
      by_contra hnone
      push Not at hnone
      obtain ⟨q, hq⟩ := Finset.nonempty_iff_ne_empty.mpr hr
      have hqo : q = o := by
        by_contra hne
        exact hnone q hne hq
      have honly : l.r = {o} := Finset.eq_singleton_iff_unique_mem.mpr
        ⟨hqo ▸ hq, fun p hp => by_contra fun hne => hnone p hne hp⟩
      exact hup ⟨hqo ▸ hq, by rw [honly]; rfl⟩
    obtain ⟨p, hpo, hp⟩ := hother
    simp only [wlockBy, hw, hr, hup, if_false, Bool.false_eq_true, true_iff]
    exact ⟨p, hpo, .inr hp⟩

theorem unlockBy_holds (l : RWLock) (o : LockOwner) : ¬ (l.unlockBy o).Holds o := by
  rintro (⟨hw, heq⟩ | hr)
  · simp only [unlockBy, Bool.and_eq_true, bne_iff_ne] at hw
    exact hw.2 heq.symm
  · simp [unlockBy] at hr

end RWLock

/-- The locks that other owners have on the rows. -/
def SameForOthers (o : LockOwner) (db db' : Database ρ κ ν) : Prop :=
  ∀ row, RWLock.SameForOthers o (db row).lock (db' row).lock

def HeldByOther (o : LockOwner) (db : Database ρ κ ν) (row : ρ) : Prop :=
  ∃ p, p ≠ o ∧ (db row).lock.Holds p

def WrittenByOther (o : LockOwner) (db : Database ρ κ ν) (row : ρ) : Prop :=
  ∃ p, p ≠ o ∧ (db row).lock.WHolds p

theorem SameForOthers.trans {o : LockOwner} {db db' db'' : Database ρ κ ν}
    (h : SameForOthers o db db') (h' : SameForOthers o db' db'') : SameForOthers o db db'' :=
  fun row => (h row).trans (h' row)

theorem SameForOthers.heldByOther {o : LockOwner} {db db' : Database ρ κ ν}
    (h : SameForOthers o db db') (row : ρ) : HeldByOther o db' row ↔ HeldByOther o db row :=
  exists_congr fun p => and_congr_right fun hp => (h row p hp).1

theorem SameForOthers.writtenByOther {o : LockOwner} {db db' : Database ρ κ ν}
    (h : SameForOthers o db db') (row : ρ) : WrittenByOther o db' row ↔ WrittenByOther o db row :=
  exists_congr fun p => and_congr_right fun hp => (h row p hp).2

variable [DecidableEq ρ]

theorem setLock_sameForOthers {o : LockOwner} {db : Database ρ κ ν} {row : ρ} {l : RWLock}
    (h : RWLock.SameForOthers o (db row).lock l) : SameForOthers o db (setLock db row l) := by
  intro r
  by_cases hr : r = row
  · subst hr
    rwa [setLock_lock_self]
  · rw [setLock_lock_ne db l hr]
    exact .refl o _

theorem setLock_holds {db : Database ρ κ ν} {row : ρ} {l : RWLock} {o : LockOwner}
    (h : l.Holds o) (r : ρ) :
    (setLock db row l r).lock.Holds o ↔ (db r).lock.Holds o ∨ r = row := by
  by_cases hr : r = row
  · subst hr
    rw [setLock_lock_self]
    exact ⟨fun _ => .inr rfl, fun _ => h⟩
  · rw [setLock_lock_ne db l hr]
    exact ⟨.inl, fun hor => hor.resolve_right hr⟩

theorem unlockRows_sameForOthers (o : LockOwner) (db : Database ρ κ ν) (rows : List ρ) :
    SameForOthers o db (unlockRows o db rows) := by
  induction rows generalizing db with
  | nil => exact fun row => .refl o _
  | cons row rows ih => exact (setLock_sameForOthers (RWLock.unlockBy_sameForOthers _ o)).trans (ih _)

theorem unlockRows_holds (o : LockOwner) (db : Database ρ κ ν) (rows : List ρ) (row : ρ) :
    (unlockRows o db rows row).lock.Holds o ↔ (db row).lock.Holds o ∧ row ∉ rows := by
  induction rows generalizing db with
  | nil => simp [unlockRows]
  | cons r rows ih =>
    rw [unlockRows, ih]
    by_cases hr : row = r
    · subst hr
      rw [setLock_lock_self]
      have hnot := RWLock.unlockBy_holds (db row).lock o
      simp [hnot]
    · rw [setLock_lock_ne _ _ hr]
      simp [hr]

/-- The read locks are refused where another owner writes. Those that are granted are remembered, and
all are given back when one is refused. -/
theorem rlockRows_cases (o : LockOwner) (db : Database ρ κ ν) (locks rows : List ρ)
    (h : ∀ row, (db row).lock.Holds o → row ∈ locks) :
    SameForOthers o db (rlockRows o db locks rows).2.1 ∧
      (((rlockRows o db locks rows).1 = true ∧ (∀ row ∈ rows, ¬ WrittenByOther o db row) ∧
          (rlockRows o db locks rows).2.2 = rows.reverse ++ locks ∧
          ∀ row, ((rlockRows o db locks rows).2.1 row).lock.Holds o ↔
            (db row).lock.Holds o ∨ row ∈ rows) ∨
        ((rlockRows o db locks rows).1 = false ∧ (∃ row ∈ rows, WrittenByOther o db row) ∧
          ∀ row, ¬ ((rlockRows o db locks rows).2.1 row).lock.Holds o)) := by
  induction rows generalizing db locks with
  | nil => exact ⟨fun row => .refl o _, .inl ⟨rfl, by simp, rfl, by simp [rlockRows]⟩⟩
  | cons r rows ih =>
    cases hok : ((db r).lock.rlockBy o).1 with
    | true =>
      have hsame : SameForOthers o db (setLock db r ((db r).lock.rlockBy o).2) :=
        setLock_sameForOthers (RWLock.rlockBy_sameForOthers _ o)
      have hnot : ¬ WrittenByOther o db r := by
        intro hw
        rw [RWLock.rlockBy_refused.mpr hw] at hok
        cases hok
      have hholds := @setLock_holds _ _ _ _ db r _ o (RWLock.rlockBy_holds hok)
      have hlocks : ∀ row, (setLock db r ((db r).lock.rlockBy o).2 row).lock.Holds o →
          row ∈ r :: locks := by
        intro row hrow
        rcases (hholds row).mp hrow with hold | rfl
        · exact List.mem_cons_of_mem r (h row hold)
        · exact List.mem_cons_self
      obtain ⟨hothers, hcases⟩ := ih _ (r :: locks) hlocks
      have hrun : rlockRows o db locks (r :: rows) =
          rlockRows o (setLock db r ((db r).lock.rlockBy o).2) (r :: locks) rows := by
        simp [rlockRows, hok]
      rw [hrun]
      refine ⟨hsame.trans hothers, ?_⟩
      rcases hcases with ⟨htrue, hfree, hlist, hheld⟩ | ⟨hfalse, ⟨row, hrow, hw⟩, hnone⟩
      · refine .inl ⟨htrue, fun row hrow => ?_, ?_, fun row => ?_⟩
        · rcases List.mem_cons.mp hrow with rfl | hrow
          · exact hnot
          · exact fun hw => hfree row hrow ((hsame.writtenByOther row).mpr hw)
        · rw [hlist, List.reverse_cons, List.append_assoc]
          rfl
        · rw [hheld, hholds, List.mem_cons, or_assoc]
      · exact .inr ⟨hfalse, ⟨row, List.mem_cons_of_mem r hrow, (hsame.writtenByOther row).mp hw⟩,
          hnone⟩
    | false =>
      have hrun : rlockRows o db locks (r :: rows) = (false, unlockRows o db locks, []) := by
        simp [rlockRows, hok]
      rw [hrun]
      refine ⟨unlockRows_sameForOthers o db locks,
        .inr ⟨rfl, ⟨r, List.mem_cons_self, RWLock.rlockBy_refused.mp hok⟩, fun row hrow => ?_⟩⟩
      obtain ⟨hold, hnot⟩ := (unlockRows_holds o db locks row).mp hrow
      exact hnot (h row hold)

/-- The write locks. Of what is held when the row `r` refuses, only the lock of `r` itself is given
back, and only if some lock is remembered. -/
theorem wlockRows_cases (o : LockOwner) (db : Database ρ κ ν) (locks rows : List ρ)
    (hx : ∀ row, (db row).lock.Exclusive) :
    SameForOthers o db (wlockRows o db locks rows).2.1 ∧
      (((wlockRows o db locks rows).1 = true ∧ ∀ row ∈ rows, ¬ HeldByOther o db row) ∨
        ((wlockRows o db locks rows).1 = false ∧ ∃ before r after, rows = before ++ r :: after ∧
          (∀ row ∈ before, ¬ HeldByOther o db row) ∧ HeldByOther o db r ∧
          ∀ row, ((wlockRows o db locks rows).2.1 row).lock.Holds o ↔
            ((db row).lock.Holds o ∨ row ∈ before) ∧ (row ≠ r ∨ before = [] ∧ locks = []))) := by
  induction rows generalizing db locks with
  | nil => exact ⟨fun row => .refl o _, .inl ⟨rfl, by simp⟩⟩
  | cons r rows ih =>
    cases hok : ((db r).lock.wlockBy o).1 with
    | true =>
      have hsame : SameForOthers o db (setLock db r ((db r).lock.wlockBy o).2) :=
        setLock_sameForOthers (RWLock.wlockBy_sameForOthers _ o)
      have hnot : ¬ HeldByOther o db r := by
        intro hheld
        rw [(RWLock.wlockBy_refused (hx r)).mpr hheld] at hok
        cases hok
      have hx' : ∀ row, (setLock db r ((db r).lock.wlockBy o).2 row).lock.Exclusive :=
        fun row => ((setLock_changedBy (RWLock.wlockBy_changedBy _ o)).locks row).exclusive (hx row)
      have hholds := @setLock_holds _ _ _ _ db r _ o (.inl (RWLock.wlockBy_wholds hok))
      obtain ⟨hothers, hcases⟩ := ih _ (r :: locks) hx'
      have hrun : wlockRows o db locks (r :: rows) =
          wlockRows o (setLock db r ((db r).lock.wlockBy o).2) (r :: locks) rows := by
        simp [wlockRows, hok]
      rw [hrun]
      refine ⟨hsame.trans hothers, ?_⟩
      have hcons : ∀ before : List ρ,
          (∀ row ∈ before, ¬ HeldByOther o (setLock db r ((db r).lock.wlockBy o).2) row) →
          ∀ row ∈ r :: before, ¬ HeldByOther o db row := by
        intro before hfree row hrow
        rcases List.mem_cons.mp hrow with rfl | hrow
        · exact hnot
        · exact fun hheld => hfree row hrow ((hsame.heldByOther row).mpr hheld)
      rcases hcases with ⟨htrue, hfree⟩ | ⟨hfalse, before, q, after, rfl, hfree, hq, hheld⟩
      · exact .inl ⟨htrue, hcons rows hfree⟩
      · refine .inr ⟨hfalse, r :: before, q, after, rfl, hcons before hfree,
          (hsame.heldByOther q).mp hq, fun row => ?_⟩
        rw [hheld, hholds, List.mem_cons, or_assoc]
        simp
    | false =>
      have hrun : wlockRows o db locks (r :: rows) =
          (false, unlockRows o db (locks.map fun _ => r), []) := by
        simp [wlockRows, hok]
      rw [hrun]
      refine ⟨unlockRows_sameForOthers o db _, .inr ⟨rfl, [], r, rows, rfl, by simp,
        (RWLock.wlockBy_refused (hx r)).mp hok, fun row => ?_⟩⟩
      rw [unlockRows_holds]
      cases locks with
      | nil => simp
      | cons a locks =>
        have hmem : row ∈ (a :: locks).map (fun _ => r) ↔ row = r := by
          rw [List.mem_map]
          constructor
          · rintro ⟨_, -, heq⟩
            exact heq.symm
          · intro heq
            exact ⟨a, List.mem_cons_self, heq.symm⟩
        rw [hmem]
        simp

theorem first_unique {α : Type} {P : α → Prop} {before before' after after' : List α} {a a' : α}
    (h : before ++ a :: after = before' ++ a' :: after') (hbefore : ∀ x ∈ before, ¬ P x) (ha : P a)
    (hbefore' : ∀ x ∈ before', ¬ P x) (ha' : P a') : before = before' ∧ a = a' := by
  induction before generalizing before' with
  | nil =>
    cases before' with
    | nil => exact ⟨rfl, (List.cons.inj h).1⟩
    | cons b before' =>
      obtain ⟨rfl, -⟩ := List.cons.inj h
      exact absurd ha (hbefore' a List.mem_cons_self)
  | cons b before ih =>
    cases before' with
    | nil =>
      obtain ⟨rfl, -⟩ := List.cons.inj h
      exact absurd ha' (hbefore b List.mem_cons_self)
    | cons b' before' =>
      obtain ⟨rfl, htail⟩ := List.cons.inj h
      obtain ⟨rfl, rfl⟩ := ih htail (fun x hx => hbefore x (List.mem_cons_of_mem b hx))
        (fun x hx => hbefore' x (List.mem_cons_of_mem b hx))
      exact ⟨rfl, rfl⟩

variable [DecidableEq κ]

namespace RemovalTxn

def Checks (isLeaderHint : Bool) (db : Database ρ κ ν) (t : RemovalTxn ρ κ ν) : Prop :=
  t.outcome = .none ∧ t.verified = false ∧
    (isLeaderHint = true → t.debugVersionCheck = true ∧ t.versionCheck db = true)

/-- When `DoPrepare` comes to its locks and no other transaction writes the rows that were read, then
the first row to update that another transaction holds is the first of all, and is the only row that
was read. -/
def RollsBack (isLeaderHint : Bool) (db : Database ρ κ ν) (o : LockOwner) (t : RemovalTxn ρ κ ν)
    (readRows updateRows : List (ρ × κ)) : Prop :=
  Checks isLeaderHint db t → (∀ k ∈ readRows, ¬ WrittenByOther o db k.1) →
    ∀ before k after, updateRows = before ++ k :: after →
      (∀ j ∈ before, ¬ HeldByOther o db j.1) → HeldByOther o db k.1 →
      before = [] ∧ ∀ j ∈ readRows, j.1 = k.1

/-- A prepare that fails leaves the transaction without locks, and the others with theirs. -/
def ReleasesAll (isLeaderHint : Bool) (db : Database ρ κ ν) (o : LockOwner) (t : RemovalTxn ρ κ ν)
    (readRows updateRows : List (ρ × κ)) : Prop :=
  ∀ db' t', doPrepare isLeaderHint db o t readRows updateRows = .ok (false, db', t') →
    (∀ row, ¬ (db' row).lock.Holds o) ∧ SameForOthers o db db'

/-- A failed prepare after the checks is a refused lock. -/
theorem doPrepare_eq {isLeaderHint : Bool} {db : Database ρ κ ν} {o : LockOwner}
    {t : RemovalTxn ρ κ ν} (readRows updateRows : List (ρ × κ)) (h : Checks isLeaderHint db t) :
    doPrepare isLeaderHint db o t readRows updateRows =
      match SchedulerOcc.doPrepare false db o t.toTxnOCC readRows updateRows with
      | none => .error .verify
      | some (ok, db, u) => .ok (ok, db, { t with toTxnOCC := u }) := by
  obtain ⟨houtcome, hverified, hleader⟩ := h
  unfold doPrepare
  rw [if_neg (by simp [houtcome, hverified])]
  cases isLeaderHint with
  | false => rfl
  | true =>
    obtain ⟨hdebug, hversion⟩ := hleader rfl
    refine (if_neg (by simp [hdebug])).trans ?_
    exact if_neg (by simp [hversion])

/-- A prepare that fails before its locks changes none. -/
theorem releasesAll_of_not_checks {isLeaderHint : Bool} {db : Database ρ κ ν} {o : LockOwner}
    {t : RemovalTxn ρ κ ν} {readRows updateRows : List (ρ × κ)} (h : ¬ Checks isLeaderHint db t)
    (hfree : ∀ row, ¬ (db row).lock.Holds o) :
    ReleasesAll isLeaderHint db o t readRows updateRows := by
  intro db' t' hprepare
  unfold doPrepare at hprepare
  by_cases hdone : t.outcome ≠ .none ∨ t.verified = true
  · rw [if_pos hdone] at hprepare
    cases hprepare
  rw [if_neg hdone] at hprepare
  by_cases hdebug : (isLeaderHint && !t.debugVersionCheck) = true
  · rw [if_pos hdebug] at hprepare
    cases hprepare
  rw [if_neg hdebug] at hprepare
  by_cases hversion : (isLeaderHint && !t.versionCheck db) = true
  · rw [if_pos hversion] at hprepare
    obtain ⟨-, hrest⟩ := Prod.mk.inj (Except.ok.inj hprepare)
    obtain ⟨rfl, -⟩ := Prod.mk.inj hrest
    exact ⟨hfree, fun row => .refl o _⟩
  · push Not at hdone
    refine absurd ⟨hdone.1, by simpa using hdone.2, fun hleader => ?_⟩ h
    subst hleader
    simp only [Bool.true_and, Bool.not_eq_true', Bool.not_eq_false] at hdebug hversion
    exact ⟨hdebug, hversion⟩

/-- The locking part of a prepare. -/
theorem releasesAll_iff_of_checks {isLeaderHint : Bool} {db : Database ρ κ ν} {o : LockOwner}
    {t : RemovalTxn ρ κ ν} {readRows updateRows : List (ρ × κ)} (h : Checks isLeaderHint db t)
    {ok : Bool} {db' : Database ρ κ ν} {u : TxnOCC ρ κ ν}
    (hprepare : SchedulerOcc.doPrepare false db o t.toTxnOCC readRows updateRows =
      some (ok, db', u)) :
    ReleasesAll isLeaderHint db o t readRows updateRows ↔
      (ok = false → (∀ row, ¬ (db' row).lock.Holds o) ∧ SameForOthers o db db') := by
  unfold ReleasesAll
  rw [doPrepare_eq readRows updateRows h, hprepare]
  constructor
  · rintro hall rfl
    exact hall db' _ rfl
  · intro hok d v hdv
    obtain ⟨rfl, hrest⟩ := Prod.mk.inj (Except.ok.inj hdv)
    obtain ⟨rfl, -⟩ := Prod.mk.inj hrest
    exact hok rfl

/-- When a failed prepare holds no locks. -/
theorem failed_prepare_releases_iff {isLeaderHint : Bool} {db : Database ρ κ ν} {o : LockOwner}
    {t : RemovalTxn ρ κ ν} (readRows updateRows : List (ρ × κ))
    (hx : ∀ row, (db row).lock.Exclusive) (hfree : ∀ row, ¬ (db row).lock.Holds o)
    (hlocks : t.locks = []) :
    ReleasesAll isLeaderHint db o t readRows updateRows ↔
      RollsBack isLeaderHint db o t readRows updateRows := by
  by_cases h : Checks isLeaderHint db t
  · obtain ⟨hreads, hrcases⟩ := rlockRows_cases o db t.locks (readRows.map Prod.fst)
      fun row hrow => absurd hrow (hfree row)
    have hunverified : ¬ t.verified = true := by simp [h.2.1]
    rcases hrcases with ⟨hrok, hunwritten, hlist, hheld⟩ | ⟨hrfail, ⟨row, hrow, hw⟩, hnone⟩
    · -- the read locks are there
      have hx' : ∀ row, ((rlockRows o db t.locks (readRows.map Prod.fst)).2.1 row).lock.Exclusive :=
        fun row => ((rlockRows_changedBy o db t.locks _).locks row).exclusive (hx row)
      obtain ⟨hwrites, hwcases⟩ := wlockRows_cases o _
        (rlockRows o db t.locks (readRows.map Prod.fst)).2.2 (updateRows.map Prod.fst) hx'
      have hothers := hreads.trans hwrites
      rcases hwcases with ⟨hwok, hunheld⟩ | ⟨hwfail, before, r, after, hsplit, hbefore, hr, hleft⟩
      · have hprepare : ∃ db' u, SchedulerOcc.doPrepare false db o t.toTxnOCC readRows updateRows =
            some (true, db', u) := by
          simp [SchedulerOcc.doPrepare, hunverified, hrok, hwok]
        obtain ⟨db', u, hprepare⟩ := hprepare
        rw [releasesAll_iff_of_checks h hprepare]
        refine ⟨fun _ _ _ bs k as hupdates _ hk => ?_, fun _ hfalse => by cases hfalse⟩
        have hmem : k.1 ∈ updateRows.map Prod.fst := by
          rw [hupdates]
          simp
        exact absurd ((hreads.heldByOther k.1).mpr hk) (hunheld k.1 hmem)
      · have hprepare : ∃ db' u, SchedulerOcc.doPrepare false db o t.toTxnOCC readRows updateRows =
            some (false, db', u) ∧ db' = (wlockRows o
              (rlockRows o db t.locks (readRows.map Prod.fst)).2.1
              (rlockRows o db t.locks (readRows.map Prod.fst)).2.2 (updateRows.map Prod.fst)).2.1 := by
          simp [SchedulerOcc.doPrepare, hunverified, hrok, hwfail]
        obtain ⟨db', u, hprepare, hdb'⟩ := hprepare
        rw [releasesAll_iff_of_checks h hprepare, hdb']
        have hremembered : (rlockRows o db t.locks (readRows.map Prod.fst)).2.2 =
            (readRows.map Prod.fst).reverse := by
          rw [hlist, hlocks, List.append_nil]
        obtain ⟨bs, ks, rfl, rfl, hks⟩ := List.map_eq_append_iff.mp hsplit
        obtain ⟨k, as, rfl, rfl, -⟩ := List.map_eq_cons_iff.mp hks
        have hleft' : ∀ row, ((wlockRows o (rlockRows o db t.locks (readRows.map Prod.fst)).2.1
            (rlockRows o db t.locks (readRows.map Prod.fst)).2.2
            ((bs ++ k :: as).map Prod.fst)).2.1 row).lock.Holds o ↔
              (row ∈ readRows.map Prod.fst ∨ row ∈ bs.map Prod.fst) ∧
                (row ≠ k.1 ∨ bs = [] ∧ readRows = []) := by
          intro row
          rw [hleft row, hheld row, hremembered]
          simp [hfree row]
        have hfirst : ∀ j ∈ bs, ¬ HeldByOther o db j.1 := fun j hj hheldj =>
          hbefore j.1 (List.mem_map_of_mem hj) ((hreads.heldByOther j.1).mpr hheldj)
        have hrefused : HeldByOther o db k.1 := (hreads.heldByOther k.1).mp hr
        constructor
        · intro hreleases _ _ bs' k' as' hupdates hfirst' hrefused'
          obtain ⟨rfl, rfl⟩ := first_unique hupdates hfirst hrefused hfirst' hrefused'
          have hnone := (hreleases rfl).1
          have hbs : bs = [] := by
            rw [List.eq_nil_iff_forall_not_mem]
            intro j hj
            have hne : j.1 ≠ k.1 := fun heq => hfirst j hj (heq ▸ hrefused)
            exact hnone j.1 ((hleft' j.1).mpr ⟨.inr (List.mem_map_of_mem hj), .inl hne⟩)
          refine ⟨hbs, fun j hj => ?_⟩
          by_contra hne
          exact hnone j.1 ((hleft' j.1).mpr ⟨.inl (List.mem_map_of_mem hj), .inl hne⟩)
        · intro hrolls _
          refine ⟨fun row hrow => ?_, hothers⟩
          obtain ⟨rfl, honly⟩ := hrolls h
            (fun j hj => hunwritten j.1 (List.mem_map_of_mem hj)) bs k as rfl hfirst hrefused
          obtain ⟨hread | hnil, hne⟩ := (hleft' row).mp hrow
          · obtain ⟨j, hj, rfl⟩ := List.mem_map.mp hread
            rcases hne with hne | ⟨-, rfl⟩
            · exact hne (honly j hj)
            · cases hj
          · cases hnil
    · have hprepare : ∃ u, SchedulerOcc.doPrepare false db o t.toTxnOCC readRows updateRows =
          some (false, (rlockRows o db t.locks (readRows.map Prod.fst)).2.1, u) := by
        simp [SchedulerOcc.doPrepare, hunverified, hrfail]
      obtain ⟨u, hprepare⟩ := hprepare
      rw [releasesAll_iff_of_checks h hprepare]
      obtain ⟨k, hk, rfl⟩ := List.mem_map.mp hrow
      exact ⟨fun _ _ hunwritten => absurd hw (hunwritten k hk), fun _ _ => ⟨hnone, hreads⟩⟩
  · exact ⟨fun _ hchecks => absurd hchecks h, fun _ => releasesAll_of_not_checks h hfree⟩

def readLocked : Database Bool Unit Nat := fun row =>
  { column := fun _ => 0, ver := fun _ => 0, lock := { r := if row then {1} else ∅ } }

/-- Transaction 2 read that row and wants to update it: its own read lock is given back. -/
theorem failed_prepare_releases_upgrade :
    ReleasesAll true readLocked 2
      { verCheckRead := (∅ : AList fun _ : Bool × Unit => Nat).insert (true, ()) 0
        updates := (∅ : AList fun _ : Bool × Unit => Nat).insert (true, ()) 5 }
      [(true, ())] [(true, ())] := by
  apply (failed_prepare_releases_iff _ _ ?_ ?_ rfl).mpr
  · intro _ _ before k after hsplit hfirst hheld
    obtain ⟨rfl, rfl⟩ := @first_unique _ (fun j => HeldByOther 2 readLocked j.1) [] before []
      after (true, ()) k hsplit (by simp) ⟨1, by decide, .inr (by simp [readLocked])⟩ hfirst hheld
    exact ⟨rfl, fun j hj => by rw [List.mem_singleton.mp hj]⟩
  · intro row hw
    cases hw
  · rintro row (⟨hw, -⟩ | hr)
    · cases hw
    · cases row <;> simp [readLocked] at hr

/-- Transaction 2 read the row `false` and wants to update the row `true`: the read lock stays. -/
theorem read_lock_left :
    ¬ ReleasesAll true readLocked 2
      { verCheckRead := (∅ : AList fun _ : Bool × Unit => Nat).insert (false, ()) 0
        updates := (∅ : AList fun _ : Bool × Unit => Nat).insert (true, ()) 5 }
      [(false, ())] [(true, ())] := by
  intro h
  have hleft := (h _ _ rfl).1 false
  exact hleft (.inr (by decide))

end RemovalTxn

end Jetpack.Occ
