import Jetpack.Occ.Removal

/-! The leader of OCC transactions that remove rows: what its steps record in a transaction, and which
locks the prepared transactions hold. -/

namespace Jetpack.Occ

variable {ρ κ ν : Type} [DecidableEq ρ] [DecidableEq κ]

/-- The leader with `mdb_txns_`. -/
structure Leader (ρ κ ν : Type) extends Tables ρ κ ν where
  mdbTxns : LockOwner → Option (RemovalTxn ρ κ ν) := fun _ => none

inductive RemovalEvent (ρ κ ν : Type)
  | read (id : LockOwner) (k : ρ × κ)
  | write (id : LockOwner) (k : ρ × κ) (v : ν)
  | remove (id : LockOwner) (row : ρ)
  | prepare (id : LockOwner) (readRows updateRows : List (ρ × κ))
  | commit (id : LockOwner)
  | abort (id : LockOwner)

namespace Leader

def getMdbTxn (s : Leader ρ κ ν) (id : LockOwner) : RemovalTxn ρ κ ν := (s.mdbTxns id).getD {}

def setTxn (s : Leader ρ κ ν) (id : LockOwner) (t : RemovalTxn ρ κ ν) : Leader ρ κ ν :=
  { s with mdbTxns := Function.update s.mdbTxns id (some t) }

def removeMTxn (s : Leader ρ κ ν) (id : LockOwner) : Leader ρ κ ν :=
  { s with mdbTxns := Function.update s.mdbTxns id none }

def step (s : Leader ρ κ ν) : RemovalEvent ρ κ ν → Except Fault (Leader ρ κ ν)
  | .read id k => do
    let (_, t) ← (s.getMdbTxn id).readColumn s.toTables k
    return s.setTxn id t
  | .write id k v => do
    let (db, t) ← (s.getMdbTxn id).writeColumn s.toTables k v
    return { s.setTxn id t with db := db }
  | .remove id row => do
    let t ← (s.getMdbTxn id).removeRow s.toTables row
    return s.setTxn id t
  | .prepare id readRows updateRows => do
    let (_, db, t) ← (s.getMdbTxn id).doPrepare true s.db id readRows updateRows
    return { s.setTxn id t with db := db }
  | .commit id => do
    let tables ← (s.getMdbTxn id).doCommit s.toTables id
    return { s.removeMTxn id with toTables := tables }
  | .abort id => do
    let db ← (s.getMdbTxn id).abort s.db id
    return { s.removeMTxn id with db := db }

def next (s : Leader ρ κ ν) (e : RemovalEvent ρ κ ν) : Option (Leader ρ κ ν) := (s.step e).toOption

end Leader

/-- What the coordinator does: pieces run before the prepare, and a commit follows a prepare that
succeeded. The two lists enumerate the keys of the maps. -/
def Coordinated (s : Leader ρ κ ν) : RemovalEvent ρ κ ν → Prop
  | .read id _ => (s.getMdbTxn id).debugAbort = -1
  | .write id _ _ => (s.getMdbTxn id).debugAbort = -1
  | .remove id _ => (s.getMdbTxn id).debugAbort = -1
  | .prepare id readRows updateRows => (s.getMdbTxn id).verified = false ∧
    readRows.Perm (s.getMdbTxn id).verCheckRead.keys ∧ updateRows.Perm (s.getMdbTxn id).updates.keys
  | .commit id => (s.getMdbTxn id).verified = true
  | .abort _ => True

instance (s : Leader ρ κ ν) : DecidablePred (Coordinated s)
  | .read id _ => inferInstanceAs (Decidable ((s.getMdbTxn id).debugAbort = -1))
  | .write id _ _ => inferInstanceAs (Decidable ((s.getMdbTxn id).debugAbort = -1))
  | .remove id _ => inferInstanceAs (Decidable ((s.getMdbTxn id).debugAbort = -1))
  | .prepare id readRows updateRows => inferInstanceAs (Decidable
      ((s.getMdbTxn id).verified = false ∧ readRows.Perm (s.getMdbTxn id).verCheckRead.keys ∧
        updateRows.Perm (s.getMdbTxn id).updates.keys))
  | .commit id => inferInstanceAs (Decidable ((s.getMdbTxn id).verified = true))
  | .abort _ => isTrue trivial

namespace RemovalTxn

def reads (t : RemovalTxn ρ κ ν) (row : ρ) : Prop := row ∈ t.verCheckRead.keys.map Prod.fst

def writes (t : RemovalTxn ρ κ ν) (row : ρ) : Prop := row ∈ t.updates.keys.map Prod.fst

end RemovalTxn

/-- No row that a prepared transaction removes is written by another one that is prepared. -/
def RemovalsApart (s : Leader ρ κ ν) : Prop :=
  ∀ p q, p ≠ q → (s.getMdbTxn p).verified = true → (s.getMdbTxn q).verified = true →
    ∀ row ∈ (s.getMdbTxn p).removes, ¬ (s.getMdbTxn q).writes row

structure Marked (db : Database ρ κ ν) (o : LockOwner) (t : RemovalTxn ρ κ ν) : Prop where
  outcome : t.outcome = .none
  unprepared : t.debugAbort = -1 → t.verified = false
  prepared : t.verified = true → t.debugAbort = 0
  readLocked : t.verified = true → ∀ row, t.reads row → (db row).lock.Holds o
  writeLocked : t.verified = true → ∀ row, t.writes row → (db row).lock.WHolds o
  removesRead : t.verified = true → ∀ row ∈ t.removes, t.reads row

structure LeaderInv (s : Leader ρ κ ν) : Prop where
  exclusive : ∀ row, (s.db row).lock.Exclusive
  marked : ∀ o, Marked s.db o (s.getMdbTxn o)

omit [DecidableEq ρ] [DecidableEq κ] in
/-- Of two prepared transactions, one holds the lock of a row that it read and removes, and so the other
cannot write it. -/
theorem LeaderInv.removalsApart {s : Leader ρ κ ν} (h : LeaderInv s) : RemovalsApart s := by
  intro p q hpq hp hq row hrow hwrites
  have hread := (h.marked p).removesRead hp row hrow
  have hheld := (h.marked p).readLocked hp row hread
  have hwritten := (h.marked q).writeLocked hq row hwrites
  exact hpq (RWLock.wholds_of_holds (h.exclusive row) hwritten hheld)

def LocksKept (o : LockOwner) (db db' : Database ρ κ ν) : Prop :=
  ∀ row, RWLock.ChangedBy o (db row).lock (db' row).lock

omit [DecidableEq ρ] [DecidableEq κ] in
theorem Marked.of_unverified {db : Database ρ κ ν} {o : LockOwner} {t : RemovalTxn ρ κ ν}
    (houtcome : t.outcome = .none) (hnot : t.verified = false) : Marked db o t where
  outcome := houtcome
  unprepared _ := hnot
  prepared hv := by
    rw [hnot] at hv
    cases hv
  readLocked hv := by
    rw [hnot] at hv
    cases hv
  writeLocked hv := by
    rw [hnot] at hv
    cases hv
  removesRead hv := by
    rw [hnot] at hv
    cases hv

omit [DecidableEq ρ] [DecidableEq κ] in
theorem Marked.keep {db db' : Database ρ κ ν} {o p : LockOwner} {t : RemovalTxn ρ κ ν}
    (h : Marked db p t) (hkept : LocksKept o db db') (hp : p ≠ o) : Marked db' p t where
  outcome := h.outcome
  unprepared := h.unprepared
  prepared := h.prepared
  readLocked hv row hrow := (hkept row).holds p hp (h.readLocked hv row hrow)
  writeLocked hv row hrow := (hkept row).wholds p hp (h.writeLocked hv row hrow)
  removesRead := h.removesRead

omit [DecidableEq ρ] [DecidableEq κ] in
@[simp] theorem getMdbTxn_setTxn (s : Leader ρ κ ν) (id : LockOwner) (t : RemovalTxn ρ κ ν)
    (tables : Tables ρ κ ν) (p : LockOwner) :
    Leader.getMdbTxn { s.setTxn id t with toTables := tables } p =
      if p = id then t else s.getMdbTxn p := by
  by_cases hp : p = id
  · subst hp
    simp [Leader.getMdbTxn, Leader.setTxn]
  · simp [Leader.getMdbTxn, Leader.setTxn, hp]

omit [DecidableEq ρ] [DecidableEq κ] in
theorem LeaderInv.setTxn {s : Leader ρ κ ν} (h : LeaderInv s) {o : LockOwner}
    {t : RemovalTxn ρ κ ν} {d : Tables ρ κ ν} (hkept : LocksKept o s.db d.db)
    (ht : Marked d.db o t) : LeaderInv { s.setTxn o t with toTables := d } where
  exclusive row := (hkept row).exclusive (h.exclusive row)
  marked p := by
    rw [getMdbTxn_setTxn]
    by_cases hp : p = o
    · rw [if_pos hp, hp]
      exact ht
    · rw [if_neg hp]
      exact (h.marked p).keep hkept hp

omit [DecidableEq ρ] [DecidableEq κ] in
theorem getMdbTxn_removeMTxn (s : Leader ρ κ ν) (id : LockOwner) (d : Tables ρ κ ν) (p : LockOwner) :
    Leader.getMdbTxn { s.removeMTxn id with toTables := d } p =
      if p = id then {} else s.getMdbTxn p := by
  by_cases hp : p = id
  · subst hp
    simp [Leader.getMdbTxn, Leader.removeMTxn]
  · simp [Leader.getMdbTxn, Leader.removeMTxn, hp]

omit [DecidableEq ρ] [DecidableEq κ] in
theorem LeaderInv.removeMTxn {s : Leader ρ κ ν} (h : LeaderInv s) {o : LockOwner}
    {d : Tables ρ κ ν} (hkept : LocksKept o s.db d.db) :
    LeaderInv { s.removeMTxn o with toTables := d } where
  exclusive row := (hkept row).exclusive (h.exclusive row)
  marked p := by
    rw [getMdbTxn_removeMTxn]
    by_cases hp : p = o
    · rw [if_pos hp]
      exact .of_unverified rfl rfl
    · rw [if_neg hp]
      exact (h.marked p).keep hkept hp

/-- An access keeps the marks of a transaction, and records the current versions of columns that were
not recorded before. -/
structure Accessed (db : Database ρ κ ν) (t u : RemovalTxn ρ κ ν) : Prop where
  outcome : u.outcome = t.outcome
  verified : u.verified = t.verified
  read : ∀ k, u.verCheckRead.lookup k = t.verCheckRead.lookup k ∨
    t.verCheckRead.lookup k = none ∧ u.verCheckRead.lookup k = some (columnVer db k)

theorem Accessed.refl (db : Database ρ κ ν) (t : RemovalTxn ρ κ ν) : Accessed db t t :=
  ⟨rfl, rfl, fun _ => .inl rfl⟩

/-- The recorded version of a column that the transaction goes to the table for is not the current one. -/
def Behind (s : Tables ρ κ ν) (t : RemovalTxn ρ κ ν) (k : ρ × κ) : Prop :=
  s.inTable k.1 = true ∧ t.updates.lookup k = none ∧
    ∃ ver, t.verCheckRead.lookup k = some ver ∧ ver < columnVer s.db k

theorem debugCheckReadVersion_iff {t : TxnOCC ρ κ ν} {k : ρ × κ} {verNow : Nat} :
    t.debugCheckReadVersion k verNow = true ↔
      ¬ ∃ ver, t.verCheckRead.lookup k = some ver ∧ ver < verNow := by
  unfold TxnOCC.debugCheckReadVersion
  cases t.verCheckRead.lookup k with
  | none => simp
  | some ver => simp

theorem RemovalTxn.readColumn_cases {s : Tables ρ κ ν} {t : RemovalTxn ρ κ ν} {k : ρ × κ}
    (houtcome : t.outcome = .none) :
    (¬ Behind s t k ∧ ∃ v u, t.readColumn s k = .ok (v, u) ∧ Accessed s.db t u ∧
        u.verCheckWrite = t.verCheckWrite) ∨
      (Behind s t k ∧ t.readColumn s k = .error .verify) := by
  have hopen : ¬ t.outcome ≠ .none := fun hne => hne houtcome
  unfold readColumn Behind
  rw [if_neg hopen]
  by_cases hin : (!s.inTable k.1) = true
  · rw [if_pos hin]
    rw [Bool.not_eq_true'] at hin
    exact .inl ⟨fun h => by simp [hin] at h, _, t, rfl, .refl _ _, rfl⟩
  rw [if_neg hin]
  have hin : s.inTable k.1 = true := by simpa using hin
  cases hstaged : t.updates.lookup k with
  | some v =>
    simp only [TxnOCC.readColumn, hstaged]
    exact .inl ⟨fun h => by simp at h, _, _, rfl, ⟨rfl, rfl, fun _ => .inl rfl⟩, rfl⟩
  | none =>
    have hlookup := lookup_recordVersion t.toTxnOCC k
    obtain ⟨-, -, hverified, -⟩ := recordVersion_frame t.toTxnOCC k (columnVer s.db k)
    simp only [TxnOCC.readColumn, hstaged]
    split_ifs with hcheck
    · rw [debugCheckReadVersion_iff, hlookup, if_pos rfl] at hcheck
      refine .inl ⟨?_, _, _, rfl, ⟨rfl, hverified, fun k' => ?_⟩, rfl⟩
      · rintro ⟨-, -, ver, hver, hlt⟩
        exact hcheck ⟨ver, by rw [hver, Option.getD_some], hlt⟩
      · dsimp only
        rw [hlookup]
        split_ifs with hk
        · subst hk
          cases t.verCheckRead.lookup k' with
          | none => exact .inr ⟨rfl, rfl⟩
          | some ver => exact .inl rfl
        · exact .inl rfl
    · rw [debugCheckReadVersion_iff, not_not, hlookup, if_pos rfl] at hcheck
      obtain ⟨ver, hver, hlt⟩ := hcheck
      refine .inr ⟨⟨hin, trivial, ver, ?_, hlt⟩, rfl⟩
      cases hold : t.verCheckRead.lookup k with
      | none =>
        rw [hold, Option.getD_none] at hver
        cases hver
        exact absurd hlt (lt_irrefl _)
      | some old =>
        rw [hold, Option.getD_some] at hver
        exact hver

theorem RemovalTxn.writeColumn_cases {s : Tables ρ κ ν} {t : RemovalTxn ρ κ ν} {k : ρ × κ} {v : ν}
    (houtcome : t.outcome = .none) :
    (¬ Behind s t k ∧ ∃ db u, t.writeColumn s k v = .ok (db, u) ∧ Accessed s.db t u ∧
        u.verCheckWrite = t.verCheckWrite ∧ (∀ row, (db row).lock = (s.db row).lock) ∧
        ∀ k', columnVer db k' = columnVer s.db k') ∨
      (Behind s t k ∧ t.writeColumn s k v = .error .verify) := by
  have hopen : ¬ t.outcome ≠ .none := fun hne => hne houtcome
  unfold writeColumn Behind
  rw [if_neg hopen]
  by_cases hin : (!s.inTable k.1) = true
  · rw [if_pos hin]
    rw [Bool.not_eq_true'] at hin
    refine .inl ⟨fun h => by simp [hin] at h, _, t, rfl, .refl _ _, rfl, fun row => ?_, fun k' => ?_⟩
    · by_cases hrow : row = k.1
      · rw [hrow, Function.update_self]
      · rw [Function.update_of_ne hrow]
    · unfold columnVer
      by_cases hrow : k'.1 = k.1
      · rw [hrow, Function.update_self]
      · rw [Function.update_of_ne hrow]
  rw [if_neg hin]
  have hin : s.inTable k.1 = true := by simpa using hin
  cases hstaged : t.updates.lookup k with
  | some w =>
    simp only [TxnOCC.writeColumn, hstaged]
    exact .inl ⟨fun h => by simp at h, _, _, rfl, ⟨rfl, rfl, fun _ => .inl rfl⟩, rfl, fun _ => rfl,
      fun _ => rfl⟩
  | none =>
    simp only [TxnOCC.writeColumn, hstaged, Option.isSome_none, Bool.false_eq_true, if_false]
    by_cases hcheck : t.debugCheckReadVersion k (columnVer s.db k) = true
    · rw [if_pos hcheck]
      rw [debugCheckReadVersion_iff] at hcheck
      exact .inl ⟨fun h => hcheck h.2.2, _, _, rfl, ⟨rfl, rfl, fun _ => .inl rfl⟩, rfl,
        fun _ => rfl, fun _ => rfl⟩
    · rw [if_neg hcheck]
      rw [debugCheckReadVersion_iff, not_not] at hcheck
      exact .inr ⟨⟨hin, trivial, hcheck⟩, rfl⟩

theorem lookup_insertIntoMap (vers : AList fun _ : ρ × κ => Nat) (a k : ρ × κ) (ver : Nat) :
    (if (vers.lookup a).isSome then vers else vers.insert a ver).lookup k =
      (vers.lookup k).or (if k = a then some ver else none) := by
  by_cases hk : k = a
  · subst hk
    cases hver : vers.lookup k with
    | none => simp
    | some old => simp [hver]
  · rw [if_neg hk, Option.or_none]
    split_ifs
    · rfl
    · exact AList.lookup_insert_ne hk

theorem lookup_recordRow (db : Database ρ κ ν) (row : ρ) (vers : AList fun _ : ρ × κ => Nat)
    (cs : List κ) (k : ρ × κ) : (recordRow db row vers cs).lookup k =
      (vers.lookup k).or (if k.1 = row ∧ k.2 ∈ cs then some (columnVer db k) else none) := by
  induction cs generalizing vers with
  | nil => simp [recordRow]
  | cons c cs ih =>
    rw [recordRow, ih, lookup_insertIntoMap, Option.or_assoc]
    congr 1
    by_cases hk : k = (row, c)
    · subst hk
      simp
    · have hsame : (k.1 = row ∧ k.2 ∈ c :: cs) = (k.1 = row ∧ k.2 ∈ cs) := by
        refine propext ⟨fun h => ⟨h.1, (List.mem_cons.mp h.2).resolve_left fun hc => ?_⟩,
          fun h => ⟨h.1, List.mem_cons_of_mem c h.2⟩⟩
        exact hk (Prod.ext h.1 hc)
      rw [if_neg hk, Option.none_or]
      simp only [hsame]

theorem RemovalTxn.removeRow_spec {s : Tables ρ κ ν} {t : RemovalTxn ρ κ ν} (row : ρ)
    (houtcome : t.outcome = .none) : ∃ u, t.removeRow s row = .ok u ∧ Accessed s.db t u ∧
      ∀ k, u.verCheckWrite.lookup k = (t.verCheckWrite.lookup k).or
        (if k.1 = row ∧ k.2 ∈ s.columns row then some (columnVer s.db k) else none) := by
  have hopen : ¬ t.outcome ≠ .none := fun hne => hne houtcome
  unfold removeRow
  rw [if_neg hopen]
  exact ⟨_, rfl, ⟨rfl, rfl, fun _ => .inl rfl⟩, lookup_recordRow s.db row _ _⟩

omit [DecidableEq κ] in
theorem locking_spec {db : Database ρ κ ν} {o : LockOwner} {t : TxnOCC ρ κ ν}
    {readRows updateRows : List (ρ × κ)} (hnot : t.verified = false) :
    ∃ ok db' u, SchedulerOcc.doPrepare false db o t readRows updateRows = some (ok, db', u) ∧
      LocksChangedBy o db db' ∧ u.updates = t.updates ∧ u.verCheckRead = t.verCheckRead ∧
      u.verified = ok ∧ u.debugAbort = (if ok then 0 else 1) ∧
      (ok = true → (∀ k ∈ readRows, (db' k.1).lock.Holds o) ∧
        ∀ k ∈ updateRows, (db' k.1).lock.WHolds o) := by
  have hunverified : ¬ t.verified = true := by simp [hnot]
  have hr := rlockRows_changedBy o db t.locks (readRows.map Prod.fst)
  unfold SchedulerOcc.doPrepare
  rw [if_neg hunverified]
  simp only [Bool.false_and, Bool.false_eq_true, if_false]
  cases hrok : (rlockRows o db t.locks (readRows.map Prod.fst)).1 with
  | false => exact ⟨_, _, _, rfl, hr, rfl, rfl, hnot, rfl, fun hok => by cases hok⟩
  | true =>
    have hrw := hr.trans (wlockRows_changedBy o _
      (rlockRows o db t.locks (readRows.map Prod.fst)).2.2 (updateRows.map Prod.fst))
    cases hwok : (wlockRows o (rlockRows o db t.locks (readRows.map Prod.fst)).2.1
        (rlockRows o db t.locks (readRows.map Prod.fst)).2.2 (updateRows.map Prod.fst)).1 with
    | false => exact ⟨_, _, _, rfl, hrw, rfl, rfl, hnot, rfl, fun hok => by cases hok⟩
    | true =>
      refine ⟨_, _, _, rfl, hrw, rfl, rfl, rfl, rfl, fun _ => ⟨fun k hk => ?_, fun k hk => ?_⟩⟩
      · exact wlockRows_holds hwok (rlockRows_holds hrok (.inl (List.mem_map_of_mem hk)))
      · exact wlockRows_wholds hwok (.inl (List.mem_map_of_mem hk))

theorem RemovalTxn.debugVersionCheck_iff {t : RemovalTxn ρ κ ν} :
    t.debugVersionCheck = true ↔ ∀ k verRead verWrite, t.verCheckRead.lookup k = some verRead →
      t.verCheckWrite.lookup k = some verWrite → verWrite ≤ verRead := by
  unfold debugVersionCheck
  rw [List.all_eq_true]
  constructor
  · intro hall k verRead verWrite hread hwrite
    have hmem : (⟨k, verRead⟩ : Σ _ : ρ × κ, Nat) ∈ t.verCheckRead.entries :=
      List.of_mem_dlookup (Option.mem_def.mpr hread)
    have hle := hall _ hmem
    rw [hwrite] at hle
    simpa using hle
  · intro hle e he
    cases hwrite : t.verCheckWrite.lookup e.1 with
    | none => rfl
    | some verWrite =>
      have hread : t.verCheckRead.lookup e.1 = some e.2 :=
        Option.mem_def.mp (List.mem_dlookup t.verCheckRead.nodupKeys he)
      simpa using hle e.1 e.2 verWrite hread hwrite

/-- A prepare that passes the check of its own records either fails, and then the transaction stays
unprepared, or its versions are current and its locks are held. -/
theorem RemovalTxn.doPrepare_cases (db : Database ρ κ ν) (o : LockOwner) {t : RemovalTxn ρ κ ν}
    {readRows updateRows : List (ρ × κ)} (houtcome : t.outcome = .none) (hnot : t.verified = false)
    (hreads : readRows.Perm t.verCheckRead.keys) (hupdates : updateRows.Perm t.updates.keys)
    (hremoves : ∀ row ∈ t.removes, t.reads row) :
    (t.debugVersionCheck = true ∧ ∃ ok db' u,
      t.doPrepare true db o readRows updateRows = .ok (ok, db', u) ∧ LocksChangedBy o db db' ∧
        Marked db' o u ∧ u.verified = ok ∧ u.verCheckRead = t.verCheckRead ∧
        u.verCheckWrite = t.verCheckWrite ∧ (ok = true → t.versionCheck db = true)) ∨
      (t.debugVersionCheck = false ∧ t.doPrepare true db o readRows updateRows = .error .verify) := by
  have hopen : ¬ (t.outcome ≠ .none ∨ t.verified = true) := by simp [houtcome, hnot]
  unfold doPrepare
  rw [if_neg hopen]
  cases hdebug : t.debugVersionCheck with
  | false => exact .inr ⟨rfl, rfl⟩
  | true =>
    refine .inl ⟨rfl, ?_⟩
    rw [if_neg (by decide)]
    by_cases hversion : (true && !t.versionCheck db) = true
    · rw [if_pos hversion]
      exact ⟨false, db, { t with debugAbort := 1 }, rfl, .refl o db, .of_unverified houtcome hnot,
        hnot, rfl, rfl, fun hok => by cases hok⟩
    rw [if_neg hversion]
    obtain ⟨ok, db', u, hprepare, hkept, hu, hr, hv, ha, hheld⟩ :=
      @locking_spec _ _ _ _ db o t.toTxnOCC readRows updateRows hnot
    rw [hprepare]
    refine ⟨ok, db', { t with toTxnOCC := u }, rfl, hkept, ?_, hv, hr, rfl,
      fun _ => by simpa using hversion⟩
    cases ok with
    | false => exact .of_unverified houtcome hv
    | true =>
      obtain ⟨hholds, hwholds⟩ := hheld rfl
      refine ⟨houtcome, fun hno => ?_, fun _ => ha, fun _ row hrow => ?_, fun _ row hrow => ?_,
        fun _ row hrow => ?_⟩
      · rw [show u.debugAbort = 0 from ha] at hno
        cases hno
      · obtain ⟨k, hk, rfl⟩ := List.mem_map.mp hrow
        rw [show u.verCheckRead = t.verCheckRead from hr] at hk
        exact hholds k (hreads.mem_iff.mpr hk)
      · obtain ⟨k, hk, rfl⟩ := List.mem_map.mp hrow
        rw [show u.updates = t.updates from hu] at hk
        exact hwholds k (hupdates.mem_iff.mpr hk)
      · unfold RemovalTxn.reads
        rw [show u.verCheckRead = t.verCheckRead from hr]
        exact hremoves row hrow

/-- The columns whose versions the commit of a transaction raises. -/
def RemovalTxn.raised (t : RemovalTxn ρ κ ν) (columns : ρ → List κ) : List (ρ × κ) :=
  t.updates.keys ++ t.removes.flatMap fun row => (columns row).map (Prod.mk row)

theorem columnVer_applyUpdates (db : Database ρ κ ν) (es : List (Σ _ : ρ × κ, ν)) (k : ρ × κ) :
    columnVer (SchedulerOcc.applyUpdates db es) k = columnVer db k + es.keys.count k := by
  induction es generalizing db with
  | nil => rfl
  | cons e es ih =>
    rw [SchedulerOcc.applyUpdates, ih, columnVer_applyUpdate, List.keys_cons, List.count_cons]
    by_cases hk : k = e.1
    · subst hk
      simp
      omega
    · have hne : ¬ (e.1 == k) = true := by simpa using Ne.symm hk
      rw [Function.update_of_ne hk, if_neg hne, Nat.add_zero]

theorem raiseVersions_lock (s : Tables ρ κ ν) (removes : List ρ) (row : ρ) :
    (RemovalTxn.raiseVersions s removes row).lock = (s.db row).lock := by
  unfold RemovalTxn.raiseVersions
  split_ifs
  · rfl
  · rfl

theorem columnVer_raiseVersions (s : Tables ρ κ ν) (removes : List ρ) (k : ρ × κ) :
    columnVer (RemovalTxn.raiseVersions s removes) k =
      columnVer s.db k + if k.1 ∈ removes ∧ k.2 ∈ s.columns k.1 then 1 else 0 := by
  unfold columnVer RemovalTxn.raiseVersions
  by_cases hrow : k.1 ∈ removes
  · by_cases hcol : k.2 ∈ s.columns k.1
    · simp [hrow, hcol]
    · simp [hrow, hcol]
  · simp [hrow]

/-- A commit of a prepared transaction raises the versions of what it updates and removes, and of nothing
else, and gives back its own locks only; it may find an updated row without a table. -/
theorem RemovalTxn.doCommit_cases {s : Tables ρ κ ν} {o : LockOwner} {t : RemovalTxn ρ κ ν}
    (hmarked : Marked s.db o t) (hv : t.verified = true) :
    t.doCommit s o = .error .nullTable ∨ ∃ d, t.doCommit s o = .ok d ∧ LocksKept o s.db d.db ∧
      ∀ k, columnVer s.db k ≤ columnVer d.db k ∧
        (columnVer s.db k < columnVer d.db k ↔ k ∈ t.raised s.columns) := by
  have hready : ¬ (t.debugAbort ≠ 0 ∨ t.outcome ≠ .none ∨ (!t.verified) = true) := by
    simp [hmarked.prepared hv, hmarked.outcome, hv]
  unfold doCommit
  rw [if_neg hready]
  by_cases hnull : (!t.updates.keys.all fun k => s.inTable k.1) = true
  · rw [if_pos hnull]
    exact .inl rfl
  · rw [if_neg hnull]
    have hunlock := unlockRows_changedBy o (raiseVersions
      { s with db := SchedulerOcc.applyUpdates s.db t.updates.entries } t.removes)
      (t.locks.filter fun row => !t.removes.contains row)
    refine .inr ⟨_, rfl, fun row => ?_, fun k => ?_⟩
    · have hlocks := hunlock.locks row
      rw [raiseVersions_lock, lock_applyUpdates] at hlocks
      exact hlocks
    · dsimp only
      rw [hunlock.ver_eq, columnVer_raiseVersions, columnVer_applyUpdates]
      refine ⟨by omega, ?_⟩
      have hmem : k ∈ t.raised s.columns ↔
          k ∈ t.updates.keys ∨ (k.1 ∈ t.removes ∧ k.2 ∈ s.columns k.1) := by
        unfold raised
        rw [List.mem_append, List.mem_flatMap]
        refine or_congr Iff.rfl ⟨?_, fun h => ⟨k.1, h.1, List.mem_map.mpr ⟨k.2, h.2, rfl⟩⟩⟩
        rintro ⟨row, hrow, hk⟩
        obtain ⟨c, hc, rfl⟩ := List.mem_map.mp hk
        exact ⟨hrow, hc⟩
      have hcount : k ∈ t.updates.keys ↔ 0 < t.updates.entries.keys.count k :=
        List.count_pos_iff.symm
      rw [hmem, hcount]
      split_ifs with hremoved
      · exact ⟨fun _ => .inr hremoved, fun _ => by omega⟩
      · constructor
        · intro hlt
          exact .inl (by omega)
        · rintro (hpos | hno)
          · omega
          · exact absurd hno hremoved

end Jetpack.Occ
