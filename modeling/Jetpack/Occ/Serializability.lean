import Jetpack.Library.Transition
import Jetpack.Occ.Server

/-! Committed transactions are serializable in the order of their commits. A prepared transaction
holds a lock on every row it read or wrote, so what it read is still there when it commits. -/

namespace Jetpack.Occ

open SerialHistory Transition

namespace RWLock

def WHolds (l : RWLock) (o : LockOwner) : Prop := l.wlocked = true ∧ l.w = o

def Holds (l : RWLock) (o : LockOwner) : Prop := l.WHolds o ∨ o ∈ l.r

/-- The assertion in `is_wlocked`: a write lock excludes readers. -/
def Exclusive (l : RWLock) : Prop := l.wlocked = true → l.r = ∅

/-- What one owner's call does to a lock: the others keep theirs. -/
structure ChangedBy (o : LockOwner) (l l' : RWLock) : Prop where
  exclusive : l.Exclusive → l'.Exclusive
  wholds : ∀ p, p ≠ o → l.WHolds p → l'.WHolds p
  holds : ∀ p, p ≠ o → l.Holds p → l'.Holds p

theorem changedBy_refl (o : LockOwner) (l : RWLock) : ChangedBy o l l :=
  ⟨id, fun _ _ h => h, fun _ _ h => h⟩

theorem wholds_of_holds {l : RWLock} {o p : LockOwner} (hx : l.Exclusive) (h : l.WHolds o)
    (hp : l.Holds p) : p = o := by
  rcases hp with hp | hp
  · exact hp.2.symm.trans h.2
  · rw [hx h.1] at hp
    exact absurd hp (Finset.notMem_empty p)

theorem rlockBy_changedBy (l : RWLock) (o : LockOwner) : ChangedBy o l (l.rlockBy o).2 := by
  by_cases hw : l.wlocked = true
  · simpa [rlockBy, hw] using changedBy_refl o l
  · refine ⟨fun _ h => ?_, fun p _ hp => absurd hp.1 hw, fun p _ hp => ?_⟩
    · simp [rlockBy, hw] at h
    · have hmem : p ∈ l.r := hp.resolve_left fun h => hw h.1
      exact Or.inr (by simp [rlockBy, hw, hmem])

theorem rlockBy_holds {l : RWLock} {o : LockOwner} (h : (l.rlockBy o).1 = true) :
    (l.rlockBy o).2.Holds o := by
  by_cases hw : l.wlocked = true
  · have ho : o = l.w := by simpa [rlockBy, hw] using h
    exact Or.inl ⟨by simp [rlockBy, hw], by simp [rlockBy, hw, ho]⟩
  · exact Or.inr (by simp [rlockBy, hw])

theorem wlockBy_changedBy (l : RWLock) (o : LockOwner) : ChangedBy o l (l.wlockBy o).2 := by
  by_cases hw : l.wlocked = true
  · simpa [wlockBy, hw] using changedBy_refl o l
  by_cases hr : l.r = ∅
  · refine ⟨fun _ _ => by simp [wlockBy, hw, hr], fun p _ hp => absurd hp.1 hw, fun p _ hp => ?_⟩
    have hmem : p ∈ l.r := hp.resolve_left fun h => hw h.1
    simp [hr] at hmem
  by_cases hup : o ∈ l.r ∧ l.r.card = 1
  · obtain ⟨q, hq⟩ := Finset.card_eq_one.mp hup.2
    have hoq : o = q := by simpa [hq] using hup.1
    refine ⟨fun _ _ => ?_, fun p _ hp => absurd hp.1 hw, fun p hpo hp => ?_⟩
    · simp [wlockBy, hw, hq, hoq]
    · have hmem : p ∈ l.r := hp.resolve_left fun h => hw h.1
      have hpq : p = q := by simpa [hq] using hmem
      exact absurd (hpq.trans hoq.symm) hpo
  · simpa [wlockBy, hw, hr, hup] using changedBy_refl o l

theorem wlockBy_wholds {l : RWLock} {o : LockOwner} (h : (l.wlockBy o).1 = true) :
    (l.wlockBy o).2.WHolds o := by
  by_cases hw : l.wlocked = true
  · have ho : o = l.w := by simpa [wlockBy, hw] using h
    exact ⟨by simp [wlockBy, hw], by simp [wlockBy, hw, ho]⟩
  by_cases hr : l.r = ∅
  · exact ⟨by simp [wlockBy, hw, hr], by simp [wlockBy, hw, hr]⟩
  by_cases hup : o ∈ l.r ∧ l.r.card = 1
  · exact ⟨by simp [wlockBy, hw, hr, hup], by simp [wlockBy, hw, hr, hup]⟩
  · simp [wlockBy, hw, hr, hup] at h

theorem wlockBy_keeps {l : RWLock} {o : LockOwner} (h : l.Holds o) : (l.wlockBy o).2.Holds o := by
  by_cases hok : (l.wlockBy o).1 = true
  · exact Or.inl (wlockBy_wholds hok)
  · have hsame : (l.wlockBy o).2 = l := by
      unfold wlockBy at hok ⊢
      split_ifs at hok ⊢ <;> simp_all
    rw [hsame]
    exact h

theorem unlockBy_changedBy (l : RWLock) (o : LockOwner) : ChangedBy o l (l.unlockBy o) := by
  refine ⟨fun hx h => ?_, fun p hp hw => ?_, fun p hp hh => ?_⟩
  · have hw : l.wlocked = true := (Bool.and_eq_true_iff.mp h).1
    simp [unlockBy, hx hw]
  · have hne : (o != l.w) = true := by simpa [hw.2] using Ne.symm hp
    exact ⟨by simp [unlockBy, hw.1, hne], hw.2⟩
  · rcases hh with hw | hr
    · have hne : (o != l.w) = true := by simpa [hw.2] using Ne.symm hp
      exact Or.inl ⟨by simp [unlockBy, hw.1, hne], hw.2⟩
    · exact Or.inr (by simp [unlockBy, hp, hr])

end RWLock

variable {ρ κ ν : Type}

structure LocksChangedBy (o : LockOwner) (db db' : Database ρ κ ν) : Prop where
  cell_eq : ∀ k, cell db' k = cell db k
  ver_eq : ∀ k, columnVer db' k = columnVer db k
  locks : ∀ row, RWLock.ChangedBy o (db row).lock (db' row).lock

theorem LocksChangedBy.refl (o : LockOwner) (db : Database ρ κ ν) : LocksChangedBy o db db :=
  ⟨fun _ => rfl, fun _ => rfl, fun _ => RWLock.changedBy_refl o _⟩

theorem LocksChangedBy.trans {o : LockOwner} {db db' db'' : Database ρ κ ν}
    (h : LocksChangedBy o db db') (h' : LocksChangedBy o db' db'') : LocksChangedBy o db db'' where
  cell_eq k := (h'.cell_eq k).trans (h.cell_eq k)
  ver_eq k := (h'.ver_eq k).trans (h.ver_eq k)
  locks row :=
    ⟨fun hx => (h'.locks row).exclusive ((h.locks row).exclusive hx),
     fun p hp hw => (h'.locks row).wholds p hp ((h.locks row).wholds p hp hw),
     fun p hp hh => (h'.locks row).holds p hp ((h.locks row).holds p hp hh)⟩

/-- Another transaction's change of the database: locks of others stay, and a column is left alone or
rewritten under a write lock. -/
structure ChangedBy (o : LockOwner) (db db' : Database ρ κ ν) : Prop where
  locks : ∀ row, RWLock.ChangedBy o (db row).lock (db' row).lock
  cells : ∀ k, (cell db' k = cell db k ∧ columnVer db' k = columnVer db k) ∨
    (columnVer db k < columnVer db' k ∧ (db k.1).lock.WHolds o)

theorem LocksChangedBy.changedBy {o : LockOwner} {db db' : Database ρ κ ν}
    (h : LocksChangedBy o db db') : ChangedBy o db db' :=
  ⟨h.locks, fun k => Or.inl ⟨h.cell_eq k, h.ver_eq k⟩⟩

variable [DecidableEq ρ]

@[simp] theorem cell_setLock (db : Database ρ κ ν) (row : ρ) (l : RWLock) (k : ρ × κ) :
    cell (setLock db row l) k = cell db k := by
  by_cases h : k.1 = row
  · simp [cell, setLock, h]
  · simp [cell, setLock, h]

@[simp] theorem columnVer_setLock (db : Database ρ κ ν) (row : ρ) (l : RWLock) (k : ρ × κ) :
    columnVer (setLock db row l) k = columnVer db k := by
  by_cases h : k.1 = row
  · simp [columnVer, setLock, h]
  · simp [columnVer, setLock, h]

@[simp] theorem setLock_lock_self (db : Database ρ κ ν) (row : ρ) (l : RWLock) :
    (setLock db row l row).lock = l := by
  simp [setLock]

theorem setLock_lock_ne (db : Database ρ κ ν) {row r : ρ} (l : RWLock) (h : r ≠ row) :
    (setLock db row l r).lock = (db r).lock := by
  simp [setLock, h]

theorem setLock_changedBy {o : LockOwner} {db : Database ρ κ ν} {row : ρ} {l : RWLock}
    (h : RWLock.ChangedBy o (db row).lock l) : LocksChangedBy o db (setLock db row l) where
  cell_eq k := cell_setLock db row l k
  ver_eq k := columnVer_setLock db row l k
  locks r := by
    by_cases hr : r = row
    · subst hr
      simpa using h
    · rw [setLock_lock_ne db l hr]
      exact RWLock.changedBy_refl o _

theorem unlockRows_changedBy (o : LockOwner) (db : Database ρ κ ν) (rows : List ρ) :
    LocksChangedBy o db (unlockRows o db rows) := by
  induction rows generalizing db with
  | nil => exact LocksChangedBy.refl o db
  | cons row rows ih => exact (setLock_changedBy (RWLock.unlockBy_changedBy _ o)).trans (ih _)

theorem rlockRows_changedBy (o : LockOwner) (db : Database ρ κ ν) (locks rows : List ρ) :
    LocksChangedBy o db (rlockRows o db locks rows).2.1 := by
  induction rows generalizing db locks with
  | nil => exact LocksChangedBy.refl o db
  | cons row rows ih =>
    by_cases hok : ((db row).lock.rlockBy o).1 = true
    · simp only [rlockRows, hok, if_true]
      exact (setLock_changedBy (RWLock.rlockBy_changedBy _ o)).trans (ih _ _)
    · simp only [rlockRows, hok]
      exact unlockRows_changedBy o db locks

theorem wlockRows_changedBy (o : LockOwner) (db : Database ρ κ ν) (locks rows : List ρ) :
    LocksChangedBy o db (wlockRows o db locks rows).2.1 := by
  induction rows generalizing db locks with
  | nil => exact LocksChangedBy.refl o db
  | cons row rows ih =>
    by_cases hok : ((db row).lock.wlockBy o).1 = true
    · simp only [wlockRows, hok, if_true]
      exact (setLock_changedBy (RWLock.wlockBy_changedBy _ o)).trans (ih _ _)
    · simp only [wlockRows, hok]
      exact unlockRows_changedBy o db _

theorem rlockRows_holds {o : LockOwner} {db : Database ρ κ ν} {locks rows : List ρ}
    (hok : (rlockRows o db locks rows).1 = true) {row : ρ}
    (h : row ∈ rows ∨ (db row).lock.Holds o) :
    ((rlockRows o db locks rows).2.1 row).lock.Holds o := by
  induction rows generalizing db locks with
  | nil => exact h.resolve_left (by simp)
  | cons r rows ih =>
    by_cases hr : ((db r).lock.rlockBy o).1 = true
    · simp only [rlockRows, hr, if_true] at hok ⊢
      refine ih hok ?_
      by_cases hrow : row = r
      · subst hrow
        exact Or.inr (by simpa using RWLock.rlockBy_holds hr)
      · rw [setLock_lock_ne _ _ hrow]
        exact h.imp_left fun hmem => (List.mem_cons.mp hmem).resolve_left hrow
    · simp [rlockRows, hr] at hok

theorem wlockRows_holds {o : LockOwner} {db : Database ρ κ ν} {locks rows : List ρ}
    (hok : (wlockRows o db locks rows).1 = true) {row : ρ} (h : (db row).lock.Holds o) :
    ((wlockRows o db locks rows).2.1 row).lock.Holds o := by
  induction rows generalizing db locks with
  | nil => exact h
  | cons r rows ih =>
    by_cases hr : ((db r).lock.wlockBy o).1 = true
    · simp only [wlockRows, hr, if_true] at hok ⊢
      refine ih hok ?_
      by_cases hrow : row = r
      · subst hrow
        simpa using RWLock.wlockBy_keeps h
      · rwa [setLock_lock_ne _ _ hrow]
    · simp [wlockRows, hr] at hok

theorem wlockRows_wholds {o : LockOwner} {db : Database ρ κ ν} {locks rows : List ρ}
    (hok : (wlockRows o db locks rows).1 = true) {row : ρ}
    (h : row ∈ rows ∨ (db row).lock.WHolds o) :
    ((wlockRows o db locks rows).2.1 row).lock.WHolds o := by
  induction rows generalizing db locks with
  | nil => exact h.resolve_left (by simp)
  | cons r rows ih =>
    by_cases hr : ((db r).lock.wlockBy o).1 = true
    · simp only [wlockRows, hr, if_true] at hok ⊢
      refine ih hok ?_
      by_cases hrow : row = r
      · subst hrow
        exact Or.inr (by simpa using RWLock.wlockBy_wholds hr)
      · rw [setLock_lock_ne _ _ hrow]
        exact h.imp_left fun hmem => (List.mem_cons.mp hmem).resolve_left hrow
    · simp [wlockRows, hr] at hok

variable [DecidableEq κ]

open SchedulerOcc

theorem cell_applyUpdate (db : Database ρ κ ν) (a k : ρ × κ) (v : ν) :
    cell (applyUpdate db a v) k = Function.update (cell db) a v k := by
  by_cases hrow : k.1 = a.1
  · by_cases hcol : k.2 = a.2
    · have hk : k = a := Prod.ext hrow hcol
      subst hk
      simp [cell, applyUpdate]
    · have hk : k ≠ a := fun h => hcol (h ▸ rfl)
      simp [cell, applyUpdate, hrow, hcol, hk]
  · have hk : k ≠ a := fun h => hrow (h ▸ rfl)
    simp [cell, applyUpdate, hrow, hk]

theorem columnVer_applyUpdate (db : Database ρ κ ν) (a k : ρ × κ) (v : ν) :
    columnVer (applyUpdate db a v) k =
      Function.update (columnVer db) a (columnVer db a + 1) k := by
  by_cases hrow : k.1 = a.1
  · by_cases hcol : k.2 = a.2
    · have hk : k = a := Prod.ext hrow hcol
      subst hk
      simp [columnVer, applyUpdate]
    · have hk : k ≠ a := fun h => hcol (h ▸ rfl)
      simp [columnVer, applyUpdate, hrow, hcol, hk]
  · have hk : k ≠ a := fun h => hrow (h ▸ rfl)
    simp [columnVer, applyUpdate, hrow, hk]

theorem lock_applyUpdate (db : Database ρ κ ν) (a : ρ × κ) (v : ν) (row : ρ) :
    (applyUpdate db a v row).lock = (db row).lock := by
  by_cases h : row = a.1
  · simp [applyUpdate, h]
  · simp [applyUpdate, h]

theorem lock_applyUpdates (db : Database ρ κ ν) (es : List (Σ _ : ρ × κ, ν)) (row : ρ) :
    (applyUpdates db es row).lock = (db row).lock := by
  induction es generalizing db with
  | nil => rfl
  | cons e es ih => exact (ih _).trans (lock_applyUpdate db e.1 e.2 row)

theorem columnVer_le_applyUpdates (db : Database ρ κ ν) (es : List (Σ _ : ρ × κ, ν)) (k : ρ × κ) :
    columnVer db k ≤ columnVer (applyUpdates db es) k := by
  induction es generalizing db with
  | nil => exact le_refl _
  | cons e es ih =>
    refine le_trans ?_ (ih _)
    rw [columnVer_applyUpdate]
    by_cases h : k = e.1
    · simp [h]
    · simp [h]

/-- A column is rewritten and its version raised, or it is left alone. -/
theorem applyUpdates_cases (db : Database ρ κ ν) (es : List (Σ _ : ρ × κ, ν)) (k : ρ × κ) :
    (k ∈ es.keys ∧ columnVer db k < columnVer (applyUpdates db es) k) ∨
    (cell (applyUpdates db es) k = cell db k ∧
      columnVer (applyUpdates db es) k = columnVer db k) := by
  induction es generalizing db with
  | nil => exact Or.inr ⟨rfl, rfl⟩
  | cons e es ih =>
    by_cases h : k = e.1
    · subst h
      refine Or.inl ⟨by simp, ?_⟩
      have hle := columnVer_le_applyUpdates (applyUpdate db e.1 e.2) es e.1
      rwa [columnVer_applyUpdate, Function.update_self] at hle
    · have hcell : cell (applyUpdate db e.1 e.2) k = cell db k := by
        simp [cell_applyUpdate, h]
      have hver : columnVer (applyUpdate db e.1 e.2) k = columnVer db k := by
        simp [columnVer_applyUpdate, h]
      rcases ih (applyUpdate db e.1 e.2) with ⟨hmem, hlt⟩ | ⟨hc, hv⟩
      · exact Or.inl ⟨List.mem_cons_of_mem _ hmem, hver ▸ hlt⟩
      · exact Or.inr ⟨hc.trans hcell, hv.trans hver⟩

def overlay (m : ρ × κ → ν) (updates : AList (fun _ : ρ × κ => ν)) (k : ρ × κ) : ν :=
  (updates.lookup k).getD (m k)

theorem overlay_insert (m : ρ × κ → ν) (updates : AList (fun _ : ρ × κ => ν)) (a : ρ × κ) (v : ν) :
    overlay m (updates.insert a v) = Function.update (overlay m updates) a v := by
  funext k
  by_cases h : k = a
  · subst h
    simp [overlay]
  · simp [overlay, h, AList.lookup_insert_ne h]

/-- Committing the staged updates makes the transaction's view the store. -/
theorem cell_applyUpdates (db : Database ρ κ ν) {es : List (Σ _ : ρ × κ, ν)} (hnd : es.NodupKeys) :
    cell (applyUpdates db es) = overlay (cell db) ⟨es, hnd⟩ := by
  funext k
  induction es generalizing db with
  | nil => rfl
  | cons e es ih =>
    have hnd' := List.nodupKeys_cons.mp hnd
    have htail := ih (applyUpdate db e.1 e.2) hnd'.2
    rw [show applyUpdates db (e :: es) = applyUpdates (applyUpdate db e.1 e.2) es from rfl, htail]
    by_cases h : k = e.1
    · subst h
      have hnone : List.dlookup e.1 es = none := List.dlookup_eq_none.mpr hnd'.1
      have hself : List.dlookup e.1 (e :: es) = some e.2 := List.dlookup_cons_eq es e.1 e.2
      simp [overlay, AList.lookup, hnone, hself, cell_applyUpdate]
    · simp [overlay, AList.lookup, List.dlookup_cons_ne es e h, cell_applyUpdate, h]

theorem lookup_recordVersion (t : TxnOCC ρ κ ν) (k k' : ρ × κ) (ver : Nat) :
    (t.recordVersion k ver).verCheckRead.lookup k' =
      if k' = k then some ((t.verCheckRead.lookup k).getD ver) else t.verCheckRead.lookup k' := by
  cases hk : t.verCheckRead.lookup k with
  | none =>
    by_cases h : k' = k
    · subst h
      simp [TxnOCC.recordVersion, hk]
    · simp [TxnOCC.recordVersion, hk, h, AList.lookup_insert_ne h]
  | some ver' =>
    by_cases h : k' = k
    · subst h
      simp [TxnOCC.recordVersion, hk]
    · simp [TxnOCC.recordVersion, hk, h]

theorem recordVersion_frame (t : TxnOCC ρ κ ν) (k : ρ × κ) (ver : Nat) :
    (t.recordVersion k ver).updates = t.updates ∧ (t.recordVersion k ver).log = t.log ∧
    (t.recordVersion k ver).verified = t.verified ∧
    (t.recordVersion k ver).debugAbort = t.debugAbort := by
  simp only [TxnOCC.recordVersion]
  split
  · exact ⟨rfl, rfl, rfl, rfl⟩
  · exact ⟨rfl, rfl, rfl, rfl⟩

theorem columnVer_of_versionCheck {db : Database ρ κ ν} {t : TxnOCC ρ κ ν}
    (h : t.versionCheck db = true) {k : ρ × κ} {ver : Nat}
    (hk : t.verCheckRead.lookup k = some ver) : ver = columnVer db k := by
  have hmem : (⟨k, ver⟩ : Σ _ : ρ × κ, Nat) ∈ t.verCheckRead.entries :=
    List.of_mem_dlookup (Option.mem_def.mpr hk)
  have heq := List.all_eq_true.mp h _ hmem
  exact (beq_iff_eq.mp heq).symm

variable [DecidableEq ν]

/-- A transaction in a state of the database. `vals` are the values of its recorded reads: they stand
in the database as long as the recorded versions do, and its history can be executed on any store
that holds them. -/
structure TxnInv (db : Database ρ κ ν) (o : LockOwner) (t : TxnOCC ρ κ ν) : Prop where
  reads : ∃ vals : ρ × κ → ν,
    (∀ k ver, t.verCheckRead.lookup k = some ver →
      ver ≤ columnVer db k ∧ (ver = columnVer db k → cell db k = vals k)) ∧
    (∀ m : ρ × κ → ν, (∀ k, (t.verCheckRead.lookup k).isSome → m k = vals k) →
      exec m t.log = some (overlay m t.updates))
  valid : t.verified = true → ∀ k ver, t.verCheckRead.lookup k = some ver → ver = columnVer db k
  readLocked : t.verified = true → ∀ k, (t.verCheckRead.lookup k).isSome → (db k.1).lock.Holds o
  writeLocked : t.verified = true → ∀ k, k ∈ t.updates.keys → (db k.1).lock.WHolds o
  unprepared : t.debugAbort = -1 → t.verified = false

structure Inv (db₀ : ρ × κ → ν) (s : State ρ κ ν) : Prop where
  exclusive : ∀ row, (s.db row).lock.Exclusive
  txns : ∀ o, TxnInv s.db o (s.getMdbTxn o)
  serial : execAll db₀ s.committed = some (cell s.db)

theorem txnInv_fresh (db : Database ρ κ ν) (o : LockOwner) : TxnInv db o {} where
  reads := ⟨cell db, by simp, fun m _ => rfl⟩
  valid h := by cases h
  readLocked h := by cases h
  writeLocked h := by cases h
  unprepared _ := rfl

theorem TxnInv.of_changedBy {db db' : Database ρ κ ν} {o p : LockOwner} {t : TxnOCC ρ κ ν}
    (h : TxnInv db p t) (hch : ChangedBy o db db') (hx : ∀ row, (db row).lock.Exclusive)
    (hp : p ≠ o) : TxnInv db' p t := by
  obtain ⟨vals, hvals, hexec⟩ := h.reads
  refine ⟨⟨vals, fun k ver hk => ?_, hexec⟩, fun hv k ver hk => ?_, fun hv k hk => ?_,
    fun hv k hk => ?_, h.unprepared⟩
  · obtain ⟨hle, hval⟩ := hvals k ver hk
    rcases hch.cells k with ⟨hcell, hver⟩ | ⟨hlt, -⟩
    · rw [hcell, hver]
      exact ⟨hle, hval⟩
    · exact ⟨by omega, fun heq => by omega⟩
  · have hlocked := h.readLocked hv k (by simp [hk])
    rcases hch.cells k with ⟨-, hver⟩ | ⟨-, hw⟩
    · rw [hver]
      exact h.valid hv k ver hk
    · exact absurd (RWLock.wholds_of_holds (hx k.1) hw hlocked) hp
  · exact (hch.locks k.1).holds p hp (h.readLocked hv k hk)
  · exact (hch.locks k.1).wholds p hp (h.writeLocked hv k hk)

theorem Inv.setTxn {db₀ : ρ × κ → ν} {s : State ρ κ ν} (h : Inv db₀ s) {o : LockOwner}
    {t : TxnOCC ρ κ ν} {db : Database ρ κ ν} (hdb : LocksChangedBy o s.db db)
    (ht : TxnInv db o t) : Inv db₀ { s.setTxn o t with db := db } where
  exclusive row := (hdb.locks row).exclusive (h.exclusive row)
  txns p := by
    by_cases hp : p = o
    · subst hp
      simpa [State.getMdbTxn, State.setTxn] using ht
    · have hkeep := (h.txns p).of_changedBy hdb.changedBy h.exclusive hp
      simpa [State.getMdbTxn, State.setTxn, hp] using hkeep
  serial := by
    have hcell : cell db = cell s.db := funext hdb.cell_eq
    rw [hcell]
    exact h.serial

/-- Before its prepare only the reads of a transaction have to be accounted for. -/
theorem TxnInv.of_unprepared {db : Database ρ κ ν} {o : LockOwner} {t : TxnOCC ρ κ ν}
    (hnot : t.verified = false) (vals : ρ × κ → ν)
    (hvals : ∀ k ver, t.verCheckRead.lookup k = some ver →
      ver ≤ columnVer db k ∧ (ver = columnVer db k → cell db k = vals k))
    (hexec : ∀ m : ρ × κ → ν, (∀ k, (t.verCheckRead.lookup k).isSome → m k = vals k) →
      exec m t.log = some (overlay m t.updates)) : TxnInv db o t where
  reads := ⟨vals, hvals, hexec⟩
  valid hv := absurd hv (by simp [hnot])
  readLocked hv := absurd hv (by simp [hnot])
  writeLocked hv := absurd hv (by simp [hnot])
  unprepared _ := hnot

/-- A read of the table. A version recorded earlier must still be the current one. -/
theorem TxnInv.readTable {db : Database ρ κ ν} {o : LockOwner} {t : TxnOCC ρ κ ν} {k : ρ × κ}
    (h : TxnInv db o t) (hnot : t.verified = false) (hnone : t.updates.lookup k = none)
    (hcheck : (t.recordVersion k (columnVer db k)).debugCheckReadVersion k (columnVer db k) = true) :
    TxnInv db o { t.recordVersion k (columnVer db k) with
      log := t.log ++ [.read k (cell db k)] } := by
  obtain ⟨vals, hvals, hexec⟩ := h.reads
  obtain ⟨hupd, -, hver, -⟩ := recordVersion_frame t k (columnVer db k)
  have hlookup := lookup_recordVersion t k
  have hknown : ∀ ver, t.verCheckRead.lookup k = some ver →
      ver ≤ columnVer db k ∧ cell db k = vals k := by
    intro ver hk
    obtain ⟨hle, hval⟩ := hvals k ver hk
    have hge : columnVer db k ≤ ver := by
      simpa [TxnOCC.debugCheckReadVersion, hlookup, hk] using hcheck
    exact ⟨hle, hval (le_antisymm hle hge)⟩
  refine TxnInv.of_unprepared (hver.trans hnot) (Function.update vals k (cell db k)) ?_ ?_
  · intro k' ver hk'
    rw [hlookup] at hk'
    by_cases hkk : k' = k
    · subst hkk
      refine ⟨?_, fun _ => by simp⟩
      cases hk : t.verCheckRead.lookup k' with
      | none =>
        rw [hk] at hk'
        simp at hk'
        exact hk'.ge
      | some ver' =>
        rw [hk] at hk'
        simp at hk'
        exact hk' ▸ (hknown ver' hk).1
    · simp only [hkk, if_false] at hk'
      simpa [hkk] using hvals k' ver hk'
  · intro m hm
    simp only [hlookup] at hm
    have hmk : m k = cell db k := by simpa using hm k
    have hold : ∀ k', (t.verCheckRead.lookup k').isSome → m k' = vals k' := by
      intro k' hk'
      by_cases hkk : k' = k
      · subst hkk
        obtain ⟨ver, hk⟩ := Option.isSome_iff_exists.mp hk'
        exact hmk.trans (hknown ver hk).2
      · simpa [hkk, hk'] using hm k'
    rw [hupd]
    exact exec_append_read (hexec m hold) (by simp [overlay, hnone, hmk])

theorem TxnInv.of_readColumn {db : Database ρ κ ν} {o : LockOwner} {t t' : TxnOCC ρ κ ν}
    {k : ρ × κ} {v : ν} (h : TxnInv db o t) (hopen : t.debugAbort = -1)
    (hread : t.readColumn db k = some (v, t')) : TxnInv db o t' := by
  have hnot := h.unprepared hopen
  simp only [TxnOCC.readColumn] at hread
  split at hread
  · next w hw =>
    cases hread
    obtain ⟨vals, hvals, hexec⟩ := h.reads
    refine TxnInv.of_unprepared hnot vals hvals (fun m hm => exec_append_read (hexec m hm) ?_)
    simp [overlay, hw]
  · next hnone =>
    split at hread
    · next hcheck =>
      cases hread
      have hlog := (recordVersion_frame t k (columnVer db k)).2.1
      rw [hlog]
      exact h.readTable hnot hnone hcheck
    · cases hread

theorem TxnInv.of_writeColumn {db : Database ρ κ ν} {o : LockOwner} {t t' : TxnOCC ρ κ ν}
    {k : ρ × κ} {v : ν} (h : TxnInv db o t) (hopen : t.debugAbort = -1)
    (hwrite : t.writeColumn db k v = some t') : TxnInv db o t' := by
  obtain ⟨vals, hvals, hexec⟩ := h.reads
  have hstaged : TxnInv db o
      { t with updates := t.updates.insert k v, log := t.log ++ [.write k v] } := by
    refine TxnInv.of_unprepared (h.unprepared hopen) vals hvals (fun m hm => ?_)
    rw [overlay_insert]
    exact exec_append_write k v (hexec m hm)
  simp only [TxnOCC.writeColumn] at hwrite
  split at hwrite
  · cases hwrite
    exact hstaged
  split at hwrite
  · cases hwrite
    exact hstaged
  · cases hwrite

theorem TxnInv.of_failed {db db' : Database ρ κ ν} {o : LockOwner} {t : TxnOCC ρ κ ν}
    {locks : List ρ} (h : TxnInv db o t) (hdb : LocksChangedBy o db db')
    (hnot : t.verified = false) : TxnInv db' o { t with locks := locks, debugAbort := 1 } := by
  obtain ⟨vals, hvals, hexec⟩ := h.reads
  refine TxnInv.of_unprepared hnot vals (fun k ver hk => ?_) hexec
  rw [hdb.cell_eq k, hdb.ver_eq k]
  exact hvals k ver hk

theorem doPrepare_spec {db db' : Database ρ κ ν} {o : LockOwner} {t t' : TxnOCC ρ κ ν} {ok : Bool}
    {readRows updateRows : List (ρ × κ)} (h : TxnInv db o t)
    (hreads : readRows.Perm t.verCheckRead.keys) (hupdates : updateRows.Perm t.updates.keys)
    (hprep : doPrepare true db o t readRows updateRows = some (ok, db', t')) :
    LocksChangedBy o db db' ∧ TxnInv db' o t' := by
  simp only [doPrepare] at hprep
  split at hprep
  · cases hprep
  next hnot =>
  have hnot' : t.verified = false := by simpa using hnot
  split at hprep
  · cases hprep
    exact ⟨LocksChangedBy.refl o db, h.of_failed (LocksChangedBy.refl o db) hnot'⟩
  next hcheck =>
  have hcheck' : t.versionCheck db = true := by simpa using hcheck
  have hr := rlockRows_changedBy o db t.locks (readRows.map Prod.fst)
  split at hprep
  · cases hprep
    exact ⟨hr, h.of_failed hr hnot'⟩
  next hrok =>
  have hrw := hr.trans (wlockRows_changedBy o _
    (rlockRows o db t.locks (readRows.map Prod.fst)).2.2 (updateRows.map Prod.fst))
  split at hprep
  · cases hprep
    exact ⟨hrw, h.of_failed hrw hnot'⟩
  next hwok =>
  cases hprep
  have hrok' : (rlockRows o db t.locks (readRows.map Prod.fst)).1 = true := by simpa using hrok
  have hwok' : (wlockRows o (rlockRows o db t.locks (readRows.map Prod.fst)).2.1
      (rlockRows o db t.locks (readRows.map Prod.fst)).2.2 (updateRows.map Prod.fst)).1 = true := by
    simpa using hwok
  obtain ⟨vals, hvals, hexec⟩ := h.reads
  refine ⟨hrw, ⟨vals, fun k ver hk => ?_, hexec⟩, fun _ k ver hk => ?_, fun _ k hk => ?_,
    fun _ k hk => ?_, fun hopen => absurd hopen (by simp)⟩
  · rw [hrw.cell_eq k, hrw.ver_eq k]
    exact hvals k ver hk
  · rw [hrw.ver_eq k]
    exact columnVer_of_versionCheck hcheck' hk
  · have hmem : k ∈ t.verCheckRead.keys := AList.mem_keys.mpr (AList.lookup_isSome.mp hk)
    refine wlockRows_holds hwok' (rlockRows_holds hrok' (Or.inl ?_))
    exact List.mem_map_of_mem (hreads.mem_iff.mpr hmem)
  · refine wlockRows_wholds hwok' (Or.inl ?_)
    exact List.mem_map_of_mem (hupdates.mem_iff.mpr hk)

theorem ChangedBy.doCommit {db : Database ρ κ ν} {o : LockOwner} {t : TxnOCC ρ κ ν}
    (h : TxnInv db o t) (hv : t.verified = true) :
    ChangedBy o db (unlockRows o (applyUpdates db t.updates.entries) t.locks) where
  locks row := by
    have hunlock := (unlockRows_changedBy o (applyUpdates db t.updates.entries) t.locks).locks row
    rwa [lock_applyUpdates] at hunlock
  cells k := by
    have hunlock := unlockRows_changedBy o (applyUpdates db t.updates.entries) t.locks
    rw [hunlock.cell_eq k, hunlock.ver_eq k]
    rcases applyUpdates_cases db t.updates.entries k with ⟨hmem, hlt⟩ | hsame
    · exact Or.inr ⟨hlt, h.writeLocked hv k hmem⟩
    · exact Or.inl hsame

/-- What a prepared transaction read is in the database when it commits. -/
theorem TxnInv.exec_log {db : Database ρ κ ν} {o : LockOwner} {t : TxnOCC ρ κ ν}
    (h : TxnInv db o t) (hv : t.verified = true) :
    exec (cell db) t.log = some (overlay (cell db) t.updates) := by
  obtain ⟨vals, hvals, hexec⟩ := h.reads
  refine hexec (cell db) (fun k hk => ?_)
  obtain ⟨ver, hver⟩ := Option.isSome_iff_exists.mp hk
  exact (hvals k ver hver).2 (h.valid hv k ver hver)

theorem Inv.removeMTxn {db₀ : ρ × κ → ν} {s : State ρ κ ν} (h : Inv db₀ s) {o : LockOwner}
    {db : Database ρ κ ν} {committed : List (List (Op (ρ × κ) ν))} (hdb : ChangedBy o s.db db)
    (hserial : execAll db₀ committed = some (cell db)) :
    Inv db₀ { s.removeMTxn o with db := db, committed := committed } where
  exclusive row := (hdb.locks row).exclusive (h.exclusive row)
  txns p := by
    by_cases hp : p = o
    · subst hp
      simpa [State.getMdbTxn, State.removeMTxn] using txnInv_fresh db p
    · have hkeep := (h.txns p).of_changedBy hdb h.exclusive hp
      simpa [State.getMdbTxn, State.removeMTxn, hp] using hkeep
  serial := hserial

theorem Inv.commit {db₀ : ρ × κ → ν} {s t : State ρ κ ν} (h : Inv db₀ s) {o : LockOwner}
    (hstep : Occ.step s (.commit o) = some t) : Inv db₀ t := by
  obtain ⟨db, hcommit, hstep⟩ := Option.bind_eq_some_iff.mp hstep
  cases hstep
  simp only [doCommit] at hcommit
  split at hcommit
  · cases hcommit
  split at hcommit
  · cases hcommit
  next hv =>
  cases hcommit
  have hv' : (s.getMdbTxn o).verified = true := by simpa using hv
  have htxn := h.txns o
  refine h.removeMTxn (ChangedBy.doCommit htxn hv') ?_
  have hunlock := unlockRows_changedBy o (applyUpdates s.db (s.getMdbTxn o).updates.entries)
    (s.getMdbTxn o).locks
  rw [execAll_append_singleton, h.serial, Option.bind_some, htxn.exec_log hv', funext hunlock.cell_eq,
    cell_applyUpdates s.db (s.getMdbTxn o).updates.nodupKeys]

theorem Inv.step {db₀ : ρ × κ → ν} {s t : State ρ κ ν} {e : Event ρ κ ν} (h : Inv db₀ s)
    (hstep : Occ.step s e = some t) : Inv db₀ t := by
  cases e with
  | read o k =>
    simp only [Occ.step] at hstep
    split at hstep
    · next hopen =>
      obtain ⟨⟨v, x⟩, hread, hstep⟩ := Option.bind_eq_some_iff.mp hstep
      cases hstep
      exact h.setTxn (LocksChangedBy.refl o s.db) ((h.txns o).of_readColumn hopen hread)
    · cases hstep
  | write o k v =>
    simp only [Occ.step] at hstep
    split at hstep
    · next hopen =>
      obtain ⟨x, hwrite, hstep⟩ := Option.bind_eq_some_iff.mp hstep
      cases hstep
      exact h.setTxn (LocksChangedBy.refl o s.db) ((h.txns o).of_writeColumn hopen hwrite)
    · cases hstep
  | prepare o readRows updateRows =>
    simp only [Occ.step] at hstep
    split at hstep
    · next hperm =>
      obtain ⟨hreads, hupdates⟩ := Bool.and_eq_true_iff.mp hperm
      obtain ⟨⟨ok, db, x⟩, hprep, hstep⟩ := Option.bind_eq_some_iff.mp hstep
      cases hstep
      obtain ⟨hdb, hx⟩ := doPrepare_spec (h.txns o) (List.isPerm_iff.mp hreads)
        (List.isPerm_iff.mp hupdates) hprep
      exact h.setTxn hdb hx
    · cases hstep
  | commit o => exact h.commit hstep
  | abort o =>
    cases hstep
    have hunlock := unlockRows_changedBy o s.db (s.getMdbTxn o).locks
    refine h.removeMTxn hunlock.changedBy ?_
    rw [SchedulerOcc.abort, funext hunlock.cell_eq]
    exact h.serial

def initial (column : ρ → κ → ν) (ver : ρ → κ → Nat) : State ρ κ ν :=
  { db := fun row => { column := column row, ver := ver row } }

theorem inv_initial (column : ρ → κ → ν) (ver : ρ → κ → Nat) :
    Inv (fun k => column k.1 k.2) (initial column ver) where
  exclusive row h := by cases h
  txns o := txnInv_fresh _ o
  serial := rfl

/-- In every state reached, executing the committed transactions one after another from the initial
database, in the order of their commits, returns to each of them the values it read, and ends in
the present database. -/
theorem committed_serializable {column : ρ → κ → ν} {ver : ρ → κ → Nat} {s : State ρ κ ν}
    (h : Reachable step (initial column ver) s) :
    execAll (fun k => column k.1 k.2) s.committed = some (cell s.db) :=
  (ReachableWhere.invariant (fun _ _ _ hi _ hstep => Inv.step hi hstep) h
    (inv_initial column ver)).serial

section Run

/-- Transaction 1 moves one from row 0 to row 1. Transaction 2 reads row 0 meanwhile, fails to
prepare, and transaction 3 reads what was committed. -/
def transfer : List (Event Nat Nat Int) :=
  [.read 1 (0, 0), .read 1 (1, 0), .read 2 (0, 0), .write 1 (0, 0) 9, .write 1 (1, 0) 11,
    .prepare 1 [(1, 0), (0, 0)] [(1, 0), (0, 0)], .write 2 (1, 0) 0,
    .prepare 2 [(0, 0)] [(1, 0)], .commit 1, .abort 2,
    .read 3 (0, 0), .write 3 (0, 0) 4, .prepare 3 [(0, 0)] [(0, 0)], .commit 3]

end Run

theorem committed_serializable_transfer :
    ∃ s : State Nat Nat Int, Reachable step (initial (fun _ _ => 10) fun _ _ => 0) s ∧
      s.committed = [[.read (0, 0) 10, .read (1, 0) 10, .write (0, 0) 9, .write (1, 0) 11],
        [.read (0, 0) 9, .write (0, 0) 4]] ∧
      execAll (fun _ => 10) s.committed = some (cell s.db) := by
  have hrun : (runWhere step (fun _ _ => True) (initial (fun _ _ => 10) fun _ _ => 0)
      transfer).any (fun s => s.committed ==
        [[.read (0, 0) 10, .read (1, 0) 10, .write (0, 0) 9, .write (1, 0) 11],
          [.read (0, 0) 9, .write (0, 0) 4]]) = true := by decide +kernel
  obtain ⟨s, hs, hp⟩ := exists_reachableWhere hrun
  exact ⟨s, hs, by simpa using hp, committed_serializable hs⟩

end Jetpack.Occ
