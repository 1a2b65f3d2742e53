import Jetpack.Library.Transition
import Jetpack.Occ.Leader

/-! The checks that OCC makes of itself, over the runs of a leader. A transaction keeps the version of its
first access to a column, and a check compares it with the current one at each later access; a removed row
is not locked. -/

namespace Jetpack.Occ

open Transition

variable {ρ κ ν : Type} [DecidableEq ρ] [DecidableEq κ]

/-- The leader with what happened behind the back of each transaction: the columns that it has read and
another transaction has committed to since, and those of them that had changed so when it removed their
row. -/
structure Watched (ρ κ ν : Type) extends Leader ρ κ ν where
  dirty : LockOwner → List (ρ × κ) := fun _ => []
  late : LockOwner → List (ρ × κ) := fun _ => []

namespace Watched

/-- What a commit of `p` means for the columns that the other transactions have read. -/
def dirtied (w : Watched ρ κ ν) (p id : LockOwner) : List (ρ × κ) :=
  if id = p then []
  else w.dirty id ++ ((w.getMdbTxn p).raised w.columns).filter fun k =>
    ((w.getMdbTxn id).verCheckRead.lookup k).isSome

/-- The columns that change for a transaction before it removes their row. -/
def lateColumns (w : Watched ρ κ ν) (id : LockOwner) (row : ρ) : List (ρ × κ) :=
  ((w.columns row).map (Prod.mk row)).filter fun k =>
    ((w.getMdbTxn id).verCheckWrite.lookup k).isNone && (w.dirty id).contains k

def note (w : Watched ρ κ ν) (s : Leader ρ κ ν) : RemovalEvent ρ κ ν → Watched ρ κ ν
  | .remove id row =>
    ⟨s, w.dirty, Function.update w.late id (w.late id ++ w.lateColumns id row)⟩
  | .commit id => ⟨s, w.dirtied id, Function.update w.late id []⟩
  | .abort id => ⟨s, Function.update w.dirty id [], Function.update w.late id []⟩
  | .read _ _ | .write _ _ _ | .prepare _ _ _ => ⟨s, w.dirty, w.late⟩

def next (w : Watched ρ κ ν) (e : RemovalEvent ρ κ ν) : Option (Watched ρ κ ν) :=
  (w.toLeader.next e).map fun s => w.note s e

end Watched

/-- The steps that fail a check: a transaction goes to the table for a column that changed since it read
it, or is prepared after it has removed the row of such a column. -/
def Trips (w : Watched ρ κ ν) : RemovalEvent ρ κ ν → Prop
  | .read id k | .write id k _ =>
    w.inTable k.1 = true ∧ (w.getMdbTxn id).updates.lookup k = none ∧ k ∈ w.dirty id
  | .prepare id _ _ => w.late id ≠ []
  | .remove _ _ | .commit _ | .abort _ => False

instance (w : Watched ρ κ ν) : DecidablePred (Trips w)
  | .read id k => inferInstanceAs (Decidable (w.inTable k.1 = true ∧
      (w.getMdbTxn id).updates.lookup k = none ∧ k ∈ w.dirty id))
  | .write id k _ => inferInstanceAs (Decidable (w.inTable k.1 = true ∧
      (w.getMdbTxn id).updates.lookup k = none ∧ k ∈ w.dirty id))
  | .prepare id _ _ => inferInstanceAs (Decidable (w.late id ≠ []))
  | .remove _ _ | .commit _ | .abort _ => isFalse id

/-- A transaction has read the rows that it removes when it is prepared. -/
def RemovesRead (w : Watched ρ κ ν) : RemovalEvent ρ κ ν → Prop
  | .prepare id _ _ => ∀ row ∈ (w.getMdbTxn id).removes, (w.getMdbTxn id).reads row
  | _ => True

instance (w : Watched ρ κ ν) : DecidablePred (RemovesRead w)
  | .prepare id _ _ => inferInstanceAs (Decidable (∀ row ∈ (w.getMdbTxn id).removes,
      row ∈ (w.getMdbTxn id).verCheckRead.keys.map Prod.fst))
  | .read _ _ | .write _ _ _ | .remove _ _ | .commit _ | .abort _ => isTrue trivial

/-- The steps of the coordinator that trip no check and remove what was read. -/
def Guarded (w : Watched ρ κ ν) (e : RemovalEvent ρ κ ν) : Prop :=
  Coordinated w.toLeader e ∧ RemovesRead w e ∧ ¬ Trips w e

instance (w : Watched ρ κ ν) (e : RemovalEvent ρ κ ν) : Decidable (Guarded w e) :=
  inferInstanceAs (Decidable (_ ∧ _ ∧ ¬ _))

/-- The versions that a transaction has recorded, beside the columns that changed since then. -/
structure Seen (db : Database ρ κ ν) (t : RemovalTxn ρ κ ν) (dirty late : List (ρ × κ)) : Prop where
  recorded : ∀ k ∈ dirty, (t.verCheckRead.lookup k).isSome
  stale : ∀ k ver, t.verCheckRead.lookup k = some ver → k ∈ dirty → ver < columnVer db k
  current : ∀ k ver, t.verCheckRead.lookup k = some ver → k ∉ dirty → ver = columnVer db k
  removed : ∀ k ver, t.verCheckWrite.lookup k = some ver → ver ≤ columnVer db k
  apart : ∀ k ∈ late, ∃ verRead verWrite, t.verCheckRead.lookup k = some verRead ∧
    t.verCheckWrite.lookup k = some verWrite ∧ verRead < verWrite
  together : ∀ k verRead verWrite, t.verCheckRead.lookup k = some verRead →
    t.verCheckWrite.lookup k = some verWrite → k ∉ late → verWrite ≤ verRead

namespace Seen

variable {db db' : Database ρ κ ν} {t u : RemovalTxn ρ κ ν} {dirty late : List (ρ × κ)}

theorem empty (db : Database ρ κ ν) : Seen db {} [] [] where
  recorded k hk := by cases hk
  stale k ver hver := by cases hver
  current k ver hver := by cases hver
  removed k ver hver := by cases hver
  apart k hk := by cases hk
  together k verRead verWrite hread := by cases hread

theorem congr (h : Seen db t dirty late) (hread : u.verCheckRead = t.verCheckRead)
    (hwrite : u.verCheckWrite = t.verCheckWrite) (hver : ∀ k, columnVer db' k = columnVer db k) :
    Seen db' u dirty late := by
  obtain ⟨hrecorded, hstale, hcurrent, hremoved, hapart, htogether⟩ := h
  refine ⟨?_, ?_, ?_, ?_, ?_, ?_⟩ <;> simpa only [hread, hwrite, hver]

theorem lookup_accessed (h : Seen db t dirty late) (hu : Accessed db t u) {k : ρ × κ} {ver : Nat}
    (hver : u.verCheckRead.lookup k = some ver) :
    t.verCheckRead.lookup k = some ver ∨ k ∉ dirty ∧ ver = columnVer db k := by
  rcases hu.read k with hsame | ⟨hnone, hnew⟩
  · exact .inl (hsame.symm.trans hver)
  · refine .inr ⟨fun hk => ?_, Option.some.inj (hver.symm.trans hnew)⟩
    have hsome := h.recorded k hk
    rw [hnone] at hsome
    cases hsome

/-- An access records current versions of columns that were not recorded. `removal` says which versions of
rows to remove it records as well. -/
theorem access (h : Seen db t dirty late) (hu : Accessed db t u) {more : List (ρ × κ)}
    (removal : ∀ k, u.verCheckWrite.lookup k = t.verCheckWrite.lookup k ∧ k ∉ more ∨
      t.verCheckWrite.lookup k = none ∧ u.verCheckWrite.lookup k = some (columnVer db k) ∧
        (k ∈ more ↔ k ∈ dirty)) : Seen db u dirty (late ++ more) where
  recorded k hk := by
    obtain ⟨ver, hver⟩ := Option.isSome_iff_exists.mp (h.recorded k hk)
    rcases hu.read k with hsame | ⟨hnone, -⟩
    · rw [hsame, hver]
      rfl
    · rw [hnone] at hver
      cases hver
  stale k ver hver hk := by
    rcases h.lookup_accessed hu hver with hold | ⟨hclean, -⟩
    · exact h.stale k ver hold hk
    · exact absurd hk hclean
  current k ver hver hk := by
    rcases h.lookup_accessed hu hver with hold | ⟨-, hnew⟩
    · exact h.current k ver hold hk
    · exact hnew
  removed k ver hver := by
    rcases removal k with ⟨hsame, -⟩ | ⟨-, hnew, -⟩
    · exact h.removed k ver (hsame.symm.trans hver)
    · exact (Option.some.inj (hver.symm.trans hnew)).le
  apart k hk := by
    have hkept : ∀ ver, t.verCheckRead.lookup k = some ver → u.verCheckRead.lookup k = some ver := by
      intro ver hver
      rcases hu.read k with hsame | ⟨hnone, -⟩
      · exact hsame.trans hver
      · rw [hnone] at hver
        cases hver
    rcases List.mem_append.mp hk with hk | hk
    · obtain ⟨verRead, verWrite, hread, hwrite, hlt⟩ := h.apart k hk
      refine ⟨verRead, verWrite, hkept verRead hread, ?_, hlt⟩
      rcases removal k with ⟨hsame, -⟩ | ⟨hnone, -, -⟩
      · exact hsame.trans hwrite
      · rw [hnone] at hwrite
        cases hwrite
    · rcases removal k with ⟨-, hno⟩ | ⟨-, hnew, hiff⟩
      · exact absurd hk hno
      · obtain ⟨ver, hver⟩ := Option.isSome_iff_exists.mp (h.recorded k (hiff.mp hk))
        exact ⟨ver, _, hkept ver hver, hnew, h.stale k ver hver (hiff.mp hk)⟩
  together k verRead verWrite hread hwrite hk := by
    rw [List.mem_append, not_or] at hk
    rcases removal k with ⟨hsame, -⟩ | ⟨-, hnew, hiff⟩
    · have hwrite := hsame.symm.trans hwrite
      rcases h.lookup_accessed hu hread with hold | ⟨-, hcurrent⟩
      · exact h.together k verRead verWrite hold hwrite hk.1
      · exact hcurrent ▸ h.removed k verWrite hwrite
    · have hclean : k ∉ dirty := fun hdirty => hk.2 (hiff.mpr hdirty)
      obtain rfl := Option.some.inj (hwrite.symm.trans hnew)
      rcases h.lookup_accessed hu hread with hold | ⟨-, hcurrent⟩
      · exact (h.current k verRead hold hclean).ge
      · exact hcurrent.ge

theorem commit (h : Seen db t dirty late) {raised : List (ρ × κ)}
    (hraised : ∀ k, columnVer db k ≤ columnVer db' k ∧
      (columnVer db k < columnVer db' k ↔ k ∈ raised)) :
    Seen db' t (dirty ++ raised.filter fun k => (t.verCheckRead.lookup k).isSome) late where
  recorded k hk := by
    rcases List.mem_append.mp hk with hk | hk
    · exact h.recorded k hk
    · exact (List.mem_filter.mp hk).2
  stale k ver hver hk := by
    obtain ⟨hle, hlt⟩ := hraised k
    rcases List.mem_append.mp hk with hk | hk
    · exact (h.stale k ver hver hk).trans_le hle
    · by_cases hdirty : k ∈ dirty
      · exact (h.stale k ver hver hdirty).trans_le hle
      · rw [h.current k ver hver hdirty]
        exact hlt.mpr (List.mem_filter.mp hk).1
  current k ver hver hk := by
    obtain ⟨hle, hlt⟩ := hraised k
    rw [List.mem_append, not_or, List.mem_filter] at hk
    have hnot : ¬ columnVer db k < columnVer db' k :=
      fun hyes => hk.2 ⟨hlt.mp hyes, by rw [hver]; rfl⟩
    rw [h.current k ver hver hk.1]
    omega
  removed k ver hver := (h.removed k ver hver).trans (hraised k).1
  apart := h.apart
  together := h.together

/-- The check of the recorded versions against each other fails exactly for late columns. -/
theorem debugVersionCheck_iff (h : Seen db t dirty late) :
    t.debugVersionCheck = true ↔ late = [] := by
  rw [RemovalTxn.debugVersionCheck_iff]
  constructor
  · intro hle
    refine List.eq_nil_iff_forall_not_mem.mpr fun k hk => ?_
    obtain ⟨verRead, verWrite, hread, hwrite, hlt⟩ := h.apart k hk
    have := hle k verRead verWrite hread hwrite
    omega
  · rintro rfl k verRead verWrite hread hwrite
    exact h.together k verRead verWrite hread hwrite List.not_mem_nil

/-- A column that a transaction goes to the table for has changed exactly if it is among the dirty ones. -/
theorem behind_iff {s : Tables ρ κ ν} (h : Seen s.db t dirty late) {k : ρ × κ} :
    Behind s t k ↔ s.inTable k.1 = true ∧ t.updates.lookup k = none ∧ k ∈ dirty := by
  unfold Behind
  refine and_congr_right fun _ => and_congr_right fun _ => ⟨?_, fun hk => ?_⟩
  · rintro ⟨ver, hver, hlt⟩
    by_contra hk
    exact hlt.ne (h.current k ver hver hk)
  · obtain ⟨ver, hver⟩ := Option.isSome_iff_exists.mp (h.recorded k hk)
    exact ⟨ver, hver, h.stale k ver hver hk⟩

end Seen

structure WatchedInv (w : Watched ρ κ ν) : Prop extends LeaderInv w.toLeader where
  seen : ∀ id, Seen w.db (w.getMdbTxn id) (w.dirty id) (w.late id)

namespace WatchedInv

variable {w : Watched ρ κ ν}

theorem setTxn (h : WatchedInv w) {o : LockOwner} {t : RemovalTxn ρ κ ν} {d : Tables ρ κ ν}
    {late : List (ρ × κ)} (hinv : LeaderInv { w.setTxn o t with toTables := d })
    (hver : ∀ k, columnVer d.db k = columnVer w.db k) (ht : Seen w.db t (w.dirty o) late) :
    WatchedInv ⟨{ w.setTxn o t with toTables := d }, w.dirty, Function.update w.late o late⟩ where
  toLeaderInv := hinv
  seen id := by
    show Seen d.db (Leader.getMdbTxn { w.setTxn o t with toTables := d } id) (w.dirty id)
      (Function.update w.late o late id)
    rw [getMdbTxn_setTxn]
    by_cases hid : id = o
    · subst hid
      rw [if_pos rfl, Function.update_self]
      exact ht.congr rfl rfl hver
    · rw [if_neg hid, Function.update_of_ne hid]
      exact (h.seen id).congr rfl rfl hver

/-- A transaction that is not prepared goes to a column. -/
theorem access (h : WatchedInv w) {o : LockOwner} {t : RemovalTxn ρ κ ν} {db : Database ρ κ ν}
    (hopen : (w.getMdbTxn o).debugAbort = -1) (hu : Accessed w.db (w.getMdbTxn o) t)
    (hwrite : t.verCheckWrite = (w.getMdbTxn o).verCheckWrite)
    (hlocks : ∀ row, (db row).lock = (w.db row).lock)
    (hver : ∀ k, columnVer db k = columnVer w.db k) :
    WatchedInv ⟨{ w.setTxn o t with db := db }, w.dirty, w.late⟩ := by
  have hmarked := h.marked o
  have hkept : LocksKept o w.db db := fun row => hlocks row ▸ RWLock.changedBy_refl o _
  have hinv := h.toLeaderInv.setTxn (d := { w.toTables with db := db }) hkept
    (.of_unverified (hu.outcome.trans hmarked.outcome) (hu.verified.trans (hmarked.unprepared hopen)))
  have hseen : Seen w.db t (w.dirty o) (w.late o ++ []) :=
    (h.seen o).access hu fun k => .inl ⟨by rw [hwrite], List.not_mem_nil⟩
  have hset := h.setTxn hinv hver hseen
  rwa [List.append_nil, Function.update_eq_self] at hset

theorem remove (h : WatchedInv w) {id : LockOwner} {row : ρ} {t : RemovalTxn ρ κ ν}
    (hopen : (w.getMdbTxn id).debugAbort = -1) (hu : Accessed w.db (w.getMdbTxn id) t)
    (hwrite : ∀ k, t.verCheckWrite.lookup k = ((w.getMdbTxn id).verCheckWrite.lookup k).or
      (if k.1 = row ∧ k.2 ∈ w.columns row then some (columnVer w.db k) else none)) :
    WatchedInv (w.note (w.setTxn id t) (.remove id row)) := by
  have hmarked := h.marked id
  have hinv := h.toLeaderInv.setTxn (d := w.toTables) (fun row => RWLock.changedBy_refl id _)
    (.of_unverified (hu.outcome.trans hmarked.outcome) (hu.verified.trans (hmarked.unprepared hopen)))
  refine h.setTxn hinv (fun _ => rfl) ((h.seen id).access hu fun k => ?_)
  have hmem : k ∈ w.lateColumns id row ↔ (k.1 = row ∧ k.2 ∈ w.columns row) ∧
      (w.getMdbTxn id).verCheckWrite.lookup k = none ∧ k ∈ w.dirty id := by
    unfold Watched.lateColumns
    rw [List.mem_filter, List.mem_map, Bool.and_eq_true, Option.isNone_iff_eq_none,
      List.contains_iff_mem]
    refine and_congr_left fun _ => ⟨?_, fun hk => ⟨k.2, hk.2, Prod.ext hk.1.symm rfl⟩⟩
    rintro ⟨c, hc, rfl⟩
    exact ⟨rfl, hc⟩
  rw [hmem, hwrite k]
  cases hold : (w.getMdbTxn id).verCheckWrite.lookup k with
  | some ver => exact .inl ⟨rfl, fun hno => by cases hno.2.1⟩
  | none =>
    by_cases hrow : k.1 = row ∧ k.2 ∈ w.columns row
    · rw [if_pos hrow]
      exact .inr ⟨rfl, rfl, fun hk => hk.2.2, fun hk => ⟨hrow, rfl, hk⟩⟩
    · rw [if_neg hrow]
      exact .inl ⟨rfl, fun hno => hrow hno.1⟩

theorem prepare (h : WatchedInv w) {id : LockOwner} {readRows updateRows : List (ρ × κ)}
    (hco : Coordinated w.toLeader (.prepare id readRows updateRows))
    (hremoves : RemovesRead w (.prepare id readRows updateRows)) :
    (w.late id = [] ∧ ∃ s, w.step (.prepare id readRows updateRows) = .ok s ∧
        WatchedInv (w.note s (.prepare id readRows updateRows)) ∧
        ((s.getMdbTxn id).verified = true → (w.getMdbTxn id).versionCheck w.db = true)) ∨
      (w.late id ≠ [] ∧ w.step (.prepare id readRows updateRows) = .error .verify) := by
  obtain ⟨hnot, hreads, hupdates⟩ := hco
  have hseen := h.seen id
  rcases RemovalTxn.doPrepare_cases w.db id (h.marked id).outcome hnot hreads hupdates
    hremoves with ⟨hdebug, ok, db, u, hprepare, hkept, hmarked, hv, hr, hw, hversion⟩ |
      ⟨hdebug, hprepare⟩
  · refine .inl ⟨hseen.debugVersionCheck_iff.mp hdebug, { w.setTxn id u with db := db }, ?_, ?_, ?_⟩
    · simp only [Leader.step, hprepare]
      rfl
    · have hinv := h.toLeaderInv.setTxn (d := { w.toTables with db := db }) hkept.locks hmarked
      have hset := h.setTxn hinv hkept.ver_eq (hseen.congr hr hw fun _ => rfl)
      rwa [Function.update_eq_self] at hset
    · intro hverified
      have hget := getMdbTxn_setTxn w.toLeader id u { w.toTables with db := db } id
      rw [if_pos rfl] at hget
      exact hversion (hv.symm.trans ((congrArg (fun t => t.verified) hget).symm.trans hverified))
  · refine .inr ⟨fun hnil => ?_, ?_⟩
    · rw [hseen.debugVersionCheck_iff.mpr hnil] at hdebug
      cases hdebug
    · simp only [Leader.step, hprepare]
      rfl

theorem commit (h : WatchedInv w) {id : LockOwner} (hv : (w.getMdbTxn id).verified = true) :
    w.step (.commit id) = .error .nullTable ∨ ∃ s, w.step (.commit id) = .ok s ∧
      WatchedInv (w.note s (.commit id)) := by
  rcases RemovalTxn.doCommit_cases (h.marked id) hv with hnull | ⟨d, hd, hkept, hraised⟩
  · refine .inl ?_
    simp only [Leader.step, hnull]
    rfl
  · refine .inr ⟨{ w.removeMTxn id with toTables := d }, ?_, ?_⟩
    · simp only [Leader.step, hd]
      rfl
    · refine ⟨h.toLeaderInv.removeMTxn hkept, fun p => ?_⟩
      show Seen d.db (Leader.getMdbTxn { w.removeMTxn id with toTables := d } p) (w.dirtied id p)
        (Function.update w.late id [] p)
      rw [getMdbTxn_removeMTxn]
      unfold Watched.dirtied
      by_cases hp : p = id
      · rw [if_pos hp, if_pos hp, hp, Function.update_self]
        exact .empty d.db
      · rw [if_neg hp, if_neg hp, Function.update_of_ne hp]
        exact (h.seen p).commit hraised

theorem abort (h : WatchedInv w) (id : LockOwner) : ∃ s, w.step (.abort id) = .ok s ∧
    WatchedInv (w.note s (.abort id)) := by
  have hopen : ¬ (w.getMdbTxn id).outcome ≠ .none := fun hne => hne (h.marked id).outcome
  have hunlock := unlockRows_changedBy id w.db (w.getMdbTxn id).locks
  refine ⟨{ w.removeMTxn id with db := unlockRows id w.db (w.getMdbTxn id).locks }, ?_, ?_⟩
  · simp only [Leader.step, RemovalTxn.abort]
    rw [if_neg hopen]
    rfl
  · refine ⟨h.toLeaderInv.removeMTxn (d := { w.toTables with
      db := unlockRows id w.db (w.getMdbTxn id).locks }) hunlock.locks, fun p => ?_⟩
    show Seen _ (Leader.getMdbTxn { w.removeMTxn id with toTables := { w.toTables with
      db := unlockRows id w.db (w.getMdbTxn id).locks } } p) (Function.update w.dirty id [] p)
      (Function.update w.late id [] p)
    rw [getMdbTxn_removeMTxn]
    by_cases hp : p = id
    · rw [if_pos hp, hp, Function.update_self, Function.update_self]
      exact .empty _
    · rw [if_neg hp, Function.update_of_ne hp, Function.update_of_ne hp]
      exact (h.seen p).congr rfl rfl hunlock.ver_eq

/-- A step that the coordinator can make fails a check, or goes through, or finds a null table. -/
theorem step (h : WatchedInv w) {e : RemovalEvent ρ κ ν} (hco : Coordinated w.toLeader e)
    (hremoves : RemovesRead w e) :
    (Trips w e ∧ w.step e = .error .verify) ∨ (¬ Trips w e ∧
      (w.step e = .error .nullTable ∨ ∃ s, w.step e = .ok s ∧ WatchedInv (w.note s e))) := by
  cases e with
  | read id k =>
    have htrips : Behind w.toTables (w.getMdbTxn id) k ↔ Trips w (.read id k) :=
      (h.seen id).behind_iff
    rcases RemovalTxn.readColumn_cases (s := w.toTables) (k := k) (h.marked id).outcome with
      ⟨hcurrent, v, u, hread, hu, hwrite⟩ | ⟨hbehind, hread⟩
    · refine .inr ⟨fun hno => hcurrent (htrips.mpr hno), .inr ⟨w.setTxn id u, ?_, ?_⟩⟩
      · simp only [Leader.step, hread]
        rfl
      · exact WatchedInv.access h hco hu hwrite (fun _ => rfl) fun _ => rfl
    · refine .inl ⟨htrips.mp hbehind, ?_⟩
      simp only [Leader.step, hread]
      rfl
  | write id k v =>
    have htrips : Behind w.toTables (w.getMdbTxn id) k ↔ Trips w (.write id k v) :=
      (h.seen id).behind_iff
    rcases RemovalTxn.writeColumn_cases (s := w.toTables) (k := k) (v := v) (h.marked id).outcome with
      ⟨hcurrent, db, u, hstep, hu, hwrite, hlocks, hver⟩ | ⟨hbehind, hstep⟩
    · refine .inr ⟨fun hno => hcurrent (htrips.mpr hno),
        .inr ⟨{ w.setTxn id u with db := db }, ?_, ?_⟩⟩
      · simp only [Leader.step, hstep]
        rfl
      · exact h.access hco hu hwrite hlocks hver
    · refine .inl ⟨htrips.mp hbehind, ?_⟩
      simp only [Leader.step, hstep]
      rfl
  | remove id row =>
    obtain ⟨u, hremove, hu, hwrite⟩ :=
      RemovalTxn.removeRow_spec (s := w.toTables) row (h.marked id).outcome
    refine .inr ⟨fun hno => hno, .inr ⟨w.setTxn id u, ?_, h.remove hco hu hwrite⟩⟩
    simp only [Leader.step, hremove]
    rfl
  | prepare id readRows updateRows =>
    rcases h.prepare hco hremoves with
      ⟨hnil, s, hs, hinv, -⟩ | ⟨hlate, herror⟩
    · exact .inr ⟨fun hno => hno hnil, .inr ⟨s, hs, hinv⟩⟩
    · exact .inl ⟨hlate, herror⟩
  | commit id => exact .inr ⟨fun hno => hno, h.commit hco⟩
  | abort id => exact .inr ⟨fun hno => hno, .inr (h.abort id)⟩

end WatchedInv

structure Fresh (s : Leader ρ κ ν) : Prop where
  mdbTxns : ∀ id, s.mdbTxns id = none
  unlocked : ∀ row, (s.db row).lock = {}

theorem WatchedInv.of_reachable {s₀ : Leader ρ κ ν} {w : Watched ρ κ ν} (hfresh : Fresh s₀)
    (hs : ReachableWhere Watched.next Guarded { toLeader := s₀ } w) : WatchedInv w := by
  have hstart : WatchedInv ({ toLeader := s₀ } : Watched ρ κ ν) := by
    have hget : ∀ p, s₀.getMdbTxn p = {} := by
      intro p
      unfold Leader.getMdbTxn
      rw [hfresh.mdbTxns p]
      rfl
    refine ⟨⟨fun row => ?_, fun o => ?_⟩, fun id => ?_⟩
    · rw [hfresh.unlocked row]
      exact fun hw => by cases hw
    · rw [hget o]
      exact .of_unverified rfl rfl
    · rw [hget id]
      exact .empty s₀.db
  refine ReachableWhere.invariant (I := WatchedInv) (fun w e t h hok hstep => ?_) hs hstart
  obtain ⟨hco, hremoves, htrips⟩ := hok
  unfold Watched.next Leader.next at hstep
  rcases h.step hco hremoves with ⟨hno, -⟩ | ⟨-, hnull | ⟨s, hs, hinv⟩⟩
  · exact absurd hno htrips
  · rw [hnull] at hstep
    cases hstep
  · rw [hs] at hstep
    obtain rfl := Option.some.inj hstep
    exact hinv

/-- What the leader promises: exactly the steps that trip fail a `verify`, rows that a prepared
transaction removes are written by no other prepared one, and a transaction that has read a column which
another one has committed to since is rejected. -/
structure Checked (w : Watched ρ κ ν) : Prop where
  verifies : ∀ e, Coordinated w.toLeader e → RemovesRead w e →
    (w.step e = .error .verify ↔ Trips w e)
  apart : RemovalsApart w.toLeader
  rejects : ∀ id readRows updateRows, Guarded w (.prepare id readRows updateRows) →
    w.dirty id ≠ [] →
    ∃ s, w.step (.prepare id readRows updateRows) = .ok s ∧ (s.getMdbTxn id).verified = false

/-- OCC does not trip its own checks in a run whose steps are guarded. -/
theorem occ_checked {s₀ : Leader ρ κ ν} {w : Watched ρ κ ν} (hfresh : Fresh s₀)
    (hs : ReachableWhere Watched.next Guarded { toLeader := s₀ } w) : Checked w := by
  have h := WatchedInv.of_reachable hfresh hs
  refine ⟨fun e hco hremoves => ?_, h.toLeaderInv.removalsApart, ?_⟩
  · rcases h.step hco hremoves with ⟨htrips, herror⟩ | ⟨hno, hnull | ⟨t, ht, -⟩⟩
    · exact ⟨fun _ => htrips, fun _ => herror⟩
    · refine ⟨fun herror => ?_, fun htrips => absurd htrips hno⟩
      rw [hnull] at herror
      cases herror
    · refine ⟨fun herror => ?_, fun htrips => absurd htrips hno⟩
      rw [ht] at herror
      cases herror
  · rintro id readRows updateRows ⟨hco, hremoves, htrips⟩ hdirty
    rcases h.prepare hco hremoves with
      ⟨-, t, ht, -, hversion⟩ | ⟨hlate, -⟩
    · refine ⟨t, ht, ?_⟩
      by_contra hverified
      have hcheck := hversion (by simpa using hverified)
      unfold RemovalTxn.versionCheck at hcheck
      obtain ⟨k, hk⟩ := List.exists_mem_of_ne_nil _ hdirty
      obtain ⟨ver, hver⟩ := Option.isSome_iff_exists.mp ((h.seen id).recorded k hk)
      exact ((h.seen id).stale k ver hver hk).ne
        (columnVer_of_versionCheck (Bool.and_eq_true_iff.mp hcheck).1 hver)
    · exact absurd hlate htrips

def oneRow : Leader Unit Unit Nat :=
  { db := fun _ => { column := fun _ => 0, ver := fun _ => 0 }, columns := fun _ => [()] }

/-- Transaction 2 commits to a column that transaction 1 has read; transaction 3 reads the row, removes it
and is prepared. -/
def readAndRemoved : List (RemovalEvent Unit Unit Nat) :=
  [.read 1 ((), ()), .write 2 ((), ()) 5, .prepare 2 [] [((), ())], .commit 2,
    .read 3 ((), ()), .remove 3 (), .prepare 3 [((), ())] []]

theorem occ_checked_removal : ∃ w : Watched Unit Unit Nat,
    ReachableWhere Watched.next Guarded { toLeader := oneRow } w ∧ w.dirty 1 = [((), ())] ∧
      (w.getMdbTxn 3).verified = true ∧ (w.getMdbTxn 3).removes = [()] ∧ Checked w := by
  have hrun : (runWhere Watched.next Guarded { toLeader := oneRow } readAndRemoved).any (fun w =>
      decide (w.dirty 1 = [((), ())] ∧ (w.getMdbTxn 3).verified = true ∧
        (w.getMdbTxn 3).removes = [()])) = true := by decide +kernel
  obtain ⟨w, hw, hchecks⟩ := exists_reachableWhere hrun
  obtain ⟨hdirty, hverified, hremoves⟩ := of_decide_eq_true hchecks
  have hfresh : Fresh oneRow := ⟨fun _ => rfl, fun _ => rfl⟩
  exact ⟨w, hw, hdirty, hverified, hremoves, occ_checked hfresh hw⟩

/-- Transaction 1 reads a column again after transaction 2 has committed to it; and a row that
transaction 1 removes is written by transaction 2 when both are prepared. -/
theorem own_checks_trip :
    (∃ s : Leader Unit Unit Nat, ReachableWhere Leader.next Coordinated oneRow s ∧
      Coordinated s (.read 1 ((), ())) ∧ s.step (.read 1 ((), ())) = .error .verify) ∧
    ∃ s : Leader Unit Unit Nat, ReachableWhere Leader.next Coordinated oneRow s ∧
      ¬ RemovalsApart s := by
  constructor
  · have hread : StepWhere Leader.next Coordinated oneRow _ := ⟨.read 1 ((), ()), rfl, rfl⟩
    have hwrite := (Relation.ReflTransGen.single hread).tail ⟨.write 2 ((), ()) 5, rfl, rfl⟩
    have hprepare := hwrite.tail ⟨.prepare 2 [] [((), ())], ⟨rfl, .refl _, .refl _⟩, rfl⟩
    have hcommit := hprepare.tail ⟨.commit 2, rfl, rfl⟩
    exact ⟨_, hcommit, rfl, rfl⟩
  · have hremove : StepWhere Leader.next Coordinated oneRow _ := ⟨.remove 1 (), rfl, rfl⟩
    have hfirst := (Relation.ReflTransGen.single hremove).tail
      ⟨.prepare 1 [] [], ⟨rfl, .refl _, .refl _⟩, rfl⟩
    have hwrite := hfirst.tail ⟨.write 2 ((), ()) 5, rfl, rfl⟩
    have hsecond := hwrite.tail ⟨.prepare 2 [] [((), ())], ⟨rfl, .refl _, .refl _⟩, rfl⟩
    refine ⟨_, hsecond, fun hapart => ?_⟩
    exact hapart 1 2 (by decide) rfl rfl () (List.mem_singleton.mpr rfl) (List.mem_singleton.mpr rfl)

end Jetpack.Occ
