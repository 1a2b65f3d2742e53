import Jetpack.Library.Transition
import Jetpack.Tapir.Server

/-! What the columns hold of the undecided transactions. Reads are recorded and taken away again, as
long as no two transactions with one version are undecided together; a recorded write never reaches
the list it is looked for in. -/

namespace Jetpack.Tapir

open Transition

section Tables

variable {α : Type} {κ : Type} [DecidableEq κ]

theorem perm_cons_kerase {l : List (Sigma fun _ : κ => α)} {k : κ} {a : α}
    (h : l.dlookup k = some a) : l.Perm (⟨k, a⟩ :: l.kerase k) := by
  induction l with
  | nil => cases h
  | cons x l ih =>
    by_cases hk : k = x.1
    · obtain ⟨k', a'⟩ := x
      subst hk
      have ha : a' = a := by simpa using h
      subst ha
      simp
    · rw [List.dlookup_cons_ne l x hk] at h
      rw [List.kerase_cons_ne hk]
      exact ((ih h).cons x).trans (List.Perm.swap _ _ _)

end Tables

variable {κ ν : Type} [LinearOrder κ]

theorem inOrder_perm {α : Type} (m : AList (fun _ : κ => α)) : (inOrder m).Perm m.entries :=
  List.perm_insertionSort _ _

theorem inOrder_nodupKeys {α : Type} (m : AList (fun _ : κ => α)) : (inOrder m).NodupKeys :=
  (List.perm_nodupKeys (inOrder_perm m)).mpr m.nodupKeys

theorem dlookup_inOrder {α : Type} (m : AList (fun _ : κ => α)) (k : κ) :
    (inOrder m).dlookup k = m.lookup k :=
  List.perm_dlookup k (inOrder_nodupKeys m) (inOrder_perm m)

def records (f : TxTapir κ ν → AList (fun _ : κ => Version))
    (d : AList (fun _ : TxId => TxTapir κ ν)) (k : κ) : List Version :=
  d.entries.filterMap fun e => (f e.2).lookup k

/-- The two lists of every column are what the undecided transactions have recorded. -/
def Recorded (s : Replica κ ν) : Prop :=
  ∀ k, (s.column k).preparedRver.Perm (records TxTapir.preparedRvers s.dtxns k) ∧
    (s.column k).preparedWver.Perm (records TxTapir.preparedWvers s.dtxns k)

/-- A success is right: no other undecided transaction has prepared a write above a version that was
read, or a read above the timestamp of a column that is written. -/
def Justified (s : Replica κ ν) : Event κ ν → Prop
  | .onFastAccept tid txnCmds =>
    ∀ t, s.onFastAccept tid txnCmds = some (.success, t) →
      ∀ u tx, u ≠ tid → s.dtxns.lookup u = some tx →
        (∀ k v w, (s.getOrCreateTx tid).readVers.lookup k = some v →
          tx.preparedWvers.lookup k = some w → w ≤ v) ∧
        (∀ k b v w, (s.getOrCreateTx tid).writeBufs.lookup k = some b →
          tx.preparedRvers.lookup k = some v → txnCmds.head? = some w → v ≤ w)
  | _ => True

def passes (column : κ → Column ν) (x : Sigma fun _ : κ => Version) : Bool :=
  decide ((column x.1).ver ≤ x.2) && decide ((column x.1).minPreparedWver ≤ x.2)

/-- The reads of a transaction that are recorded before the validation ends. -/
def passing (s : Replica κ ν) (tx : TxTapir κ ν) : List (Sigma fun _ : κ => Version) :=
  (inOrder tx.readVers).takeWhile (passes s.column)

/-- A fast accept is careful when it records no write and no read of a column for which the
transaction has one recorded. A decision is careful when no other undecided transaction has recorded
the same version of the same column. -/
def Careful (s : Replica κ ν) : Event κ ν → Prop
  | .onFastAccept tid _ =>
    let tx := s.getOrCreateTx tid
    tx.abortedInDispatch = false →
      ((inOrder tx.readVers).all (passes s.column) = true → tx.writeBufs = ∅) ∧
      ∀ x ∈ passing s tx, tx.preparedRvers.lookup x.1 = none
  | .onDecide tid _ =>
    ∀ tx, s.dtxns.lookup tid = some tx → ∀ k v, tx.preparedRvers.lookup k = some v →
      ∀ u tx', s.dtxns.lookup u = some tx' → tx'.preparedRvers.lookup k = some v → u = tid
  | _ => True

section Records

variable (f : TxTapir κ ν → AList (fun _ : κ => Version))
  (d : AList (fun _ : TxId => TxTapir κ ν)) (tid : TxId) (k : κ)

theorem records_insert (tx : TxTapir κ ν) :
    records f (d.insert tid tx) k = ((f tx).lookup k).toList ++ records f (d.erase tid) k := by
  unfold records
  rw [AList.entries_insert, List.filterMap_cons]
  cases (f tx).lookup k <;> rfl

theorem records_perm_of_lookup {tx : TxTapir κ ν} (h : d.lookup tid = some tx) :
    (records f d k).Perm (((f tx).lookup k).toList ++ records f (d.erase tid) k) := by
  have hperm := (perm_cons_kerase h).filterMap fun e => (f e.2).lookup k
  rw [List.filterMap_cons] at hperm
  unfold records
  cases hlookup : (f tx).lookup k with
  | none =>
    simp only [hlookup] at hperm
    exact hperm
  | some v =>
    simp only [hlookup] at hperm
    exact hperm

theorem records_perm (hempty : f {} = ∅) :
    (records f d k).Perm
      (((f ((d.lookup tid).getD {})).lookup k).toList ++ records f (d.erase tid) k) := by
  cases h : d.lookup tid with
  | none =>
    have hnot : tid ∉ d.entries.keys := List.dlookup_eq_none.mp h
    have herase : (d.erase tid).entries = d.entries := List.kerase_of_notMem_keys hnot
    rw [Option.getD_none, hempty]
    unfold records
    rw [herase]
    exact List.Perm.refl _
  | some tx => exact records_perm_of_lookup f d tid k h

theorem mem_records_erase {u : TxId} {tx : TxTapir κ ν} {v : Version} (hu : u ≠ tid)
    (h : d.lookup u = some tx) (hv : (f tx).lookup k = some v) :
    v ∈ records f (d.erase tid) k := by
  have hlookup : (d.erase tid).lookup u = some tx := by
    rw [AList.lookup_erase_ne hu]
    exact h
  exact List.mem_filterMap.mpr ⟨⟨u, tx⟩, List.of_mem_dlookup hlookup, hv⟩

theorem of_mem_records_erase {v : Version} (h : v ∈ records f (d.erase tid) k) :
    ∃ u tx, u ≠ tid ∧ d.lookup u = some tx ∧ (f tx).lookup k = some v := by
  obtain ⟨⟨u, tx⟩, hmem, hv⟩ := List.mem_filterMap.mp h
  have hlookup : (d.erase tid).lookup u = some tx :=
    List.mem_dlookup (d.erase tid).nodupKeys hmem
  have hu : u ≠ tid := by
    intro hu
    rw [hu, AList.lookup_erase] at hlookup
    cases hlookup
  rw [AList.lookup_erase_ne hu] at hlookup
  exact ⟨u, tx, hu, hlookup, hv⟩

end Records

def recordReads (column : κ → Column ν) (reads : List (Sigma fun _ : κ => Version)) :
    κ → Column ν :=
  fun k =>
    match reads.dlookup k with
    | none => column k
    | some ver => (column k).insertPreparedRver ver

def putAll (m : AList (fun _ : κ => Version)) :
    List (Sigma fun _ : κ => Version) → AList (fun _ : κ => Version)
  | [] => m
  | x :: l => putAll (m.insert x.1 x.2) l

theorem lookup_putAll {l : List (Sigma fun _ : κ => Version)} (hl : l.NodupKeys)
    (m : AList (fun _ : κ => Version)) (k : κ) :
    (putAll m l).lookup k = (l.dlookup k).or (m.lookup k) := by
  induction l generalizing m with
  | nil => rfl
  | cons x l ih =>
    obtain ⟨hx, hl⟩ := List.nodupKeys_cons.mp hl
    rw [putAll, ih hl]
    by_cases hk : k = x.1
    · subst hk
      have hnone : l.dlookup x.1 = none := List.dlookup_eq_none.mpr hx
      have hhead : List.dlookup x.1 (x :: l) = some x.2 := List.dlookup_cons_eq l x.1 x.2
      rw [hnone, AList.lookup_insert, hhead]
      rfl
    · rw [AList.lookup_insert_ne hk, List.dlookup_cons_ne l x hk]

theorem recordReads_update {column : κ → Column ν} {k : κ} {ver : Version}
    {l : List (Sigma fun _ : κ => Version)} (hk : k ∉ l.keys) :
    recordReads (Function.update column k ((column k).insertPreparedRver ver)) l =
      recordReads column (⟨k, ver⟩ :: l) := by
  funext j
  unfold recordReads
  by_cases hj : j = k
  · subst hj
    have hnone : l.dlookup j = none := List.dlookup_eq_none.mpr hk
    simp [hnone]
  · rw [List.dlookup_cons_ne l ⟨k, ver⟩ hj, Function.update_of_ne hj]

theorem takeWhile_passes_update {f : κ → Column ν} {k : κ} {c : Column ν}
    {l : List (Sigma fun _ : κ => Version)} (hk : k ∉ l.keys) :
    l.takeWhile (passes (Function.update f k c)) = l.takeWhile (passes f) ∧
      l.all (passes (Function.update f k c)) = l.all (passes f) := by
  have hsame : ∀ x ∈ l, passes (Function.update f k c) x = passes f x := by
    intro x hx
    have hne : x.1 ≠ k := by
      intro heq
      exact hk (heq ▸ List.mem_keys_of_mem hx)
    unfold passes
    rw [Function.update_of_ne hne]
  induction l with
  | nil => exact ⟨rfl, rfl⟩
  | cons x l ih =>
    have hx := hsame x List.mem_cons_self
    have hrest := ih (fun h => hk (List.mem_cons_of_mem _ h))
      fun y hy => hsame y (List.mem_cons_of_mem x hy)
    rw [List.takeWhile_cons, List.takeWhile_cons, List.all_cons, List.all_cons, hx, hrest.1,
      hrest.2]
    exact ⟨rfl, rfl⟩

/-- The validation of the reads records the longest prefix that passes, and ends early when that is
not all of them. -/
theorem validateReads_spec (column : κ → Column ν) (tx : TxTapir κ ν)
    {reads : List (Sigma fun _ : κ => Version)} (hnodup : reads.NodupKeys) :
    ∃ ret, ret ≠ some .success ∧ (ret = none ↔ reads.all (passes column) = true) ∧
      Replica.validateReads column tx reads =
        (ret, recordReads column (reads.takeWhile (passes column)),
          { tx with
            preparedRvers := putAll tx.preparedRvers (reads.takeWhile (passes column)) }) := by
  induction reads generalizing column tx with
  | nil => exact ⟨none, by simp, by simp, rfl⟩
  | cons x reads ih =>
    obtain ⟨hx, hreads⟩ := List.nodupKeys_cons.mp hnodup
    obtain ⟨k, verRead⟩ := x
    unfold Replica.validateReads
    by_cases hver : verRead < (column k).ver
    · have hfails : passes column ⟨k, verRead⟩ = false := by
        have hlt : ¬ (column k).ver ≤ verRead := Nat.not_le.mpr hver
        simp [passes, hlt]
      refine ⟨some .reject, by simp, by simp [hfails], ?_⟩
      rw [if_pos hver, List.takeWhile_cons_of_neg (by simp [hfails])]
      rfl
    · by_cases hmin : verRead < (column k).minPreparedWver
      · have hfails : passes column ⟨k, verRead⟩ = false := by
          have hlt : ¬ (column k).minPreparedWver ≤ verRead := Nat.not_le.mpr hmin
          simp [passes, hlt]
        refine ⟨some .abstain, by simp, by simp [hfails], ?_⟩
        rw [if_neg hver, if_pos hmin, List.takeWhile_cons_of_neg (by simp [hfails])]
        rfl
      · have hpass : passes column ⟨k, verRead⟩ = true := by
          have hle : (column k).ver ≤ verRead := Nat.not_lt.mp hver
          have hle' : (column k).minPreparedWver ≤ verRead := Nat.not_lt.mp hmin
          simp [passes, hle, hle']
        obtain ⟨ret, hne, hret, heq⟩ :=
          ih (Function.update column k ((column k).insertPreparedRver verRead))
            { tx with preparedRvers := tx.preparedRvers.insert k verRead } hreads
        have hsame := takeWhile_passes_update (f := column)
          (c := (column k).insertPreparedRver verRead) hx
        rw [hsame.2] at hret
        rw [hsame.1] at heq
        have hkeys : k ∉ (reads.takeWhile (passes column)).keys := by
          intro h
          exact hx ((List.takeWhile_sublist _).map _ |>.subset h)
        refine ⟨ret, hne, by simp [hret, hpass], ?_⟩
        rw [if_neg hver, if_neg hmin, heq, List.takeWhile_cons_of_pos hpass,
          recordReads_update hkeys]
        rfl

theorem validateWrites_wver (ver : Version) (ret : Ret) (column : κ → Column ν) (tx : TxTapir κ ν)
    (writes : List (Sigma fun _ : κ => Buffered ν)) (j : κ) :
    ((Replica.validateWrites ver ret column tx writes).2.1 j).preparedWver =
      (column j).preparedWver := by
  induction writes generalizing ret column tx with
  | nil => rfl
  | cons x writes ih =>
    obtain ⟨k, b⟩ := x
    rw [Replica.validateWrites, ih]
    by_cases hj : j = k
    · subst hj
      rw [Function.update_self]
      rfl
    · rw [Function.update_of_ne hj]

theorem validateWrites_prepared (ver : Version) (ret : Ret) (column : κ → Column ν)
    (tx : TxTapir κ ν) (writes : List (Sigma fun _ : κ => Buffered ν)) {j : κ}
    (hj : j ∈ writes.keys ∨ tx.preparedWvers.lookup j ≠ none) :
    (Replica.validateWrites ver ret column tx writes).2.2.preparedWvers.lookup j ≠ none := by
  induction writes generalizing ret column tx with
  | nil =>
    rcases hj with hj | hj
    · cases hj
    · exact hj
  | cons x writes ih =>
    obtain ⟨k, b⟩ := x
    rw [Replica.validateWrites]
    apply ih
    by_cases hjk : j = k
    · subst hjk
      refine Or.inr ?_
      rw [AList.lookup_insert]
      simp
    · rcases hj with hj | hj
      · rcases List.mem_cons.mp hj with heq | hj
        · exact absurd heq hjk
        · exact Or.inl hj
      · refine Or.inr ?_
        rw [AList.lookup_insert_ne hjk]
        exact hj

namespace Replica

variable {s t : Replica κ ν} {tid : TxId} {txnCmds : List Version} {ret : Ret}

def withReads (s : Replica κ ν) (tx : TxTapir κ ν) : TxTapir κ ν :=
  { tx with preparedRvers := putAll tx.preparedRvers (passing s tx) }

theorem onFastAccept_cases (h : s.onFastAccept tid txnCmds = some (ret, t)) :
    ((s.getOrCreateTx tid).abortedInDispatch = true ∧ ret = .reject ∧
      t = s.setTx tid (s.getOrCreateTx tid)) ∨
    ((s.getOrCreateTx tid).abortedInDispatch = false ∧
      (inOrder (s.getOrCreateTx tid).readVers).all (passes s.column) = false ∧ ret ≠ .success ∧
      t = { s with column := recordReads s.column (passing s (s.getOrCreateTx tid)) }.setTx tid
        (s.withReads (s.getOrCreateTx tid))) ∨
    ((s.getOrCreateTx tid).abortedInDispatch = false ∧
      (inOrder (s.getOrCreateTx tid).readVers).all (passes s.column) = true ∧
      ∃ ver w, w = validateWrites ver .success
          (recordReads s.column (passing s (s.getOrCreateTx tid)))
          (s.withReads (s.getOrCreateTx tid)) (inOrder (s.getOrCreateTx tid).writeBufs) ∧
        ret = w.1 ∧ t = { s with column := w.2.1 }.setTx tid w.2.2) := by
  obtain ⟨early, hne, hall, heq⟩ :=
    validateReads_spec s.column (s.getOrCreateTx tid) (inOrder_nodupKeys (s.getOrCreateTx tid).readVers)
  have hreads : validateReads s.column (s.getOrCreateTx tid)
      (inOrder (s.getOrCreateTx tid).readVers) =
        (early, recordReads s.column (passing s (s.getOrCreateTx tid)),
          s.withReads (s.getOrCreateTx tid)) := heq
  unfold onFastAccept at h
  simp only [hreads] at h
  cases hdisp : (s.getOrCreateTx tid).fullyDispatched with
  | false => simp [hdisp] at h
  | true =>
    cases habort : (s.getOrCreateTx tid).abortedInDispatch with
    | true =>
      simp [hdisp, habort] at h
      exact Or.inl ⟨rfl, h.1.symm, h.2.symm⟩
    | false =>
      simp only [hdisp, habort, Bool.not_true, Bool.false_eq_true, if_false] at h
      cases early with
      | some early =>
        have hfails : (inOrder (s.getOrCreateTx tid).readVers).all (passes s.column) = false := by
          cases hpass : (inOrder (s.getOrCreateTx tid).readVers).all (passes s.column) with
          | false => rfl
          | true => exact absurd (hall.mpr hpass) (by simp)
        have hpair := Option.some.inj h
        have hret : early = ret := congrArg Prod.fst hpair
        refine Or.inr (Or.inl ⟨rfl, hfails, ?_, (congrArg Prod.snd hpair).symm⟩)
        intro hsuccess
        exact hne (by rw [hret, hsuccess])
      | none =>
        cases txnCmds with
        | nil => cases h
        | cons ver rest =>
          have hpair := Option.some.inj h
          exact Or.inr (Or.inr ⟨rfl, hall.mp rfl, ver, _, rfl, (congrArg Prod.fst hpair).symm,
            (congrArg Prod.snd hpair).symm⟩)

end Replica

/-- What is kept along a careful run: the records are right and no write is among them. -/
structure Clean (s : Replica κ ν) : Prop where
  recorded : Recorded s
  unwritten : ∀ k, (s.column k).preparedWver = []

section Steps

variable {s t : Replica κ ν} {tid : TxId}

theorem Clean.lookup_wver (hs : Clean s) {tx : TxTapir κ ν} (h : s.dtxns.lookup tid = some tx)
    (k : κ) : tx.preparedWvers.lookup k = none := by
  by_contra hsome
  obtain ⟨v, hv⟩ := Option.ne_none_iff_exists'.mp hsome
  have hperm := (hs.recorded k).2
  rw [hs.unwritten k] at hperm
  have hmem : v ∈ records TxTapir.preparedWvers s.dtxns k :=
    List.mem_filterMap.mpr ⟨⟨tid, tx⟩, List.of_mem_dlookup h, hv⟩
  exact absurd (hperm.mem_iff.mpr hmem) List.not_mem_nil

theorem records_setTx (f : TxTapir κ ν → AList (fun _ : κ => Version)) (hempty : f {} = ∅)
    (s : Replica κ ν) (tid : TxId) {t : TxTapir κ ν} {k : κ}
    (hsame : (f t).lookup k = (f (s.getOrCreateTx tid)).lookup k) :
    (records f (s.setTx tid t).dtxns k).Perm (records f s.dtxns k) := by
  have hafter := records_insert f s.dtxns tid k t
  have hbefore := records_perm f s.dtxns tid k hempty
  rw [hsame] at hafter
  unfold Replica.setTx
  rw [hafter]
  exact hbefore.symm

theorem Clean.setTx (hs : Clean s) {tx : TxTapir κ ν}
    (hr : tx.preparedRvers = (s.getOrCreateTx tid).preparedRvers)
    (hw : tx.preparedWvers = (s.getOrCreateTx tid).preparedWvers) : Clean (s.setTx tid tx) where
  recorded k :=
    ⟨(hs.recorded k).1.trans (records_setTx _ rfl s tid (by rw [hr])).symm,
      (hs.recorded k).2.trans (records_setTx _ rfl s tid (by rw [hw])).symm⟩
  unwritten := hs.unwritten

/-- Recording reads keeps the lists right exactly when no column has a record of the transaction. -/
theorem recorded_withReads_iff (hs : Clean s) :
    Recorded ({ s with column := recordReads s.column (passing s (s.getOrCreateTx tid)) }.setTx tid
        (s.withReads (s.getOrCreateTx tid))) ↔
      ∀ x ∈ passing s (s.getOrCreateTx tid),
        (s.getOrCreateTx tid).preparedRvers.lookup x.1 = none := by
  have hnodup : (passing s (s.getOrCreateTx tid)).NodupKeys :=
    (inOrder_nodupKeys _).sublist (List.takeWhile_sublist _)
  have hafter : ∀ k, records TxTapir.preparedRvers
      (s.dtxns.insert tid (s.withReads (s.getOrCreateTx tid))) k =
        (((passing s (s.getOrCreateTx tid)).dlookup k).or
          ((s.getOrCreateTx tid).preparedRvers.lookup k)).toList ++
        records TxTapir.preparedRvers (s.dtxns.erase tid) k := by
    intro k
    rw [records_insert, Replica.withReads, lookup_putAll hnodup]
  have hbefore : ∀ k, (s.column k).preparedRver.Perm
      (((s.getOrCreateTx tid).preparedRvers.lookup k).toList ++
        records TxTapir.preparedRvers (s.dtxns.erase tid) k) := fun k =>
    (hs.recorded k).1.trans (records_perm _ _ _ _ rfl)
  have hlist : ∀ k v, (passing s (s.getOrCreateTx tid)).dlookup k = some v →
      (recordReads s.column (passing s (s.getOrCreateTx tid)) k).preparedRver.Perm
        (v :: (((s.getOrCreateTx tid).preparedRvers.lookup k).toList ++
          records TxTapir.preparedRvers (s.dtxns.erase tid) k)) := by
    intro k v hv
    unfold recordReads
    rw [hv]
    refine (List.perm_insertionSort _ _).trans ?_
    exact (List.perm_append_singleton v _).trans ((hbefore k).cons v)
  constructor
  · intro h x hx
    have hv := List.mem_dlookup hnodup hx
    have hperm := (hlist x.1 x.2 hv).symm.trans ((h x.1).1)
    have hlen := hperm.length_eq
    simp only [Replica.setTx, hafter] at hlen
    cases hlookup : (s.getOrCreateTx tid).preparedRvers.lookup x.1 with
    | none => rfl
    | some w => simp [hlookup] at hlen
  · intro h k
    refine ⟨?_, ?_⟩
    · change ((recordReads s.column (passing s (s.getOrCreateTx tid))) k).preparedRver.Perm
        (records TxTapir.preparedRvers (s.dtxns.insert tid (s.withReads (s.getOrCreateTx tid))) k)
      rw [hafter]
      cases hv : (passing s (s.getOrCreateTx tid)).dlookup k with
      | none =>
        unfold recordReads
        rw [hv]
        exact hbefore k
      | some v =>
        have hmem := List.of_mem_dlookup hv
        have hperm := hlist k v hv
        rw [h ⟨k, v⟩ hmem] at hperm
        exact hperm
    · have hsame : ((recordReads s.column (passing s (s.getOrCreateTx tid))) k).preparedWver =
          (s.column k).preparedWver := by
        unfold recordReads
        split <;> rfl
      have hrecords := records_setTx TxTapir.preparedWvers rfl s tid (k := k)
        (t := s.withReads (s.getOrCreateTx tid)) rfl
      change ((recordReads s.column (passing s (s.getOrCreateTx tid))) k).preparedWver.Perm _
      rw [hsame]
      exact (hs.recorded k).2.trans hrecords.symm

theorem mergeWrites_prepared (column : κ → Column ν)
    (writes : List (Sigma fun _ : κ => Buffered ν)) (j : κ) :
    (Replica.mergeWrites column writes j).preparedRver = (column j).preparedRver ∧
      (Replica.mergeWrites column writes j).preparedWver = (column j).preparedWver := by
  induction writes generalizing column with
  | nil => exact ⟨rfl, rfl⟩
  | cons x writes ih =>
    obtain ⟨k, b⟩ := x
    have hrest := ih (Function.update column k { column k with value := b.value, ver := b.ver })
    rw [Replica.mergeWrites, hrest.1, hrest.2]
    by_cases hj : j = k
    · subst hj
      rw [Function.update_self]
      exact ⟨rfl, rfl⟩
    · rw [Function.update_of_ne hj]
      exact ⟨rfl, rfl⟩

theorem removeRvers_spec (column : κ → Column ν) {l : List (Sigma fun _ : κ => Version)}
    (hl : l.NodupKeys) (j : κ) :
    (Replica.removeRvers column l j).preparedRver =
        (match l.dlookup j with
        | none => (column j).preparedRver
        | some ver => (column j).preparedRver.filter (· ≠ ver)) ∧
      (Replica.removeRvers column l j).preparedWver = (column j).preparedWver := by
  induction l generalizing column with
  | nil => exact ⟨rfl, rfl⟩
  | cons x l ih =>
    obtain ⟨hx, hkeys⟩ := List.nodupKeys_cons.mp hl
    obtain ⟨k, ver⟩ := x
    have hrest := ih (Function.update column k ((column k).removePreparedRver ver)) hkeys
    rw [Replica.removeRvers, hrest.1, hrest.2]
    by_cases hj : j = k
    · subst hj
      have hnone : l.dlookup j = none := List.dlookup_eq_none.mpr hx
      rw [hnone, Function.update_self, List.dlookup_cons_eq]
      exact ⟨rfl, rfl⟩
    · rw [List.dlookup_cons_ne l ⟨k, ver⟩ hj, Function.update_of_ne hj]
      exact ⟨rfl, rfl⟩

theorem removeWvers_spec (column : κ → Column ν) (l : List (Sigma fun _ : κ => Version)) (j : κ)
    (hj : (column j).preparedWver = []) :
    (Replica.removeWvers column l j).preparedRver = (column j).preparedRver ∧
      (Replica.removeWvers column l j).preparedWver = [] := by
  induction l generalizing column with
  | nil => exact ⟨rfl, hj⟩
  | cons x l ih =>
    obtain ⟨k, ver⟩ := x
    rw [Replica.removeWvers]
    by_cases hjk : j = k
    · subst hjk
      have hrest := ih (Function.update column j ((column j).removePreparedWver ver))
        (by rw [Function.update_self, Column.removePreparedWver, hj]; rfl)
      rw [hrest.1, hrest.2, Function.update_self]
      exact ⟨rfl, rfl⟩
    · have hrest := ih (Function.update column k ((column k).removePreparedWver ver))
        (by rw [Function.update_of_ne hjk]; exact hj)
      rw [hrest.1, hrest.2, Function.update_of_ne hjk]
      exact ⟨rfl, rfl⟩

theorem onDecide_column (hs : Clean s) {d : Decision} (h : s.onDecide tid d = some t) :
    ∃ tx, s.dtxns.lookup tid = some tx ∧ t.dtxns = s.dtxns.erase tid ∧ ∀ k,
      (t.column k).preparedWver = [] ∧
      (t.column k).preparedRver =
        match tx.preparedRvers.lookup k with
        | none => (s.column k).preparedRver
        | some ver => (s.column k).preparedRver.filter (· ≠ ver) := by
  obtain ⟨tx, htx, h⟩ := Option.bind_eq_some_iff.mp h
  obtain ⟨column, hcolumn, h⟩ := Option.bind_eq_some_iff.mp h
  cases h
  have hmerged : ∀ k, (column k).preparedRver = (s.column k).preparedRver ∧
      (column k).preparedWver = [] := by
    intro k
    cases d with
    | unknown => cases hcolumn
    | abort =>
      cases hcolumn
      exact ⟨rfl, hs.unwritten k⟩
    | commit =>
      cases hcolumn
      have hmerge := mergeWrites_prepared s.column (inOrder tx.writeBufs) k
      exact ⟨hmerge.1, hmerge.2.trans (hs.unwritten k)⟩
  refine ⟨tx, htx, rfl, fun k => ?_⟩
  have hr := removeRvers_spec column (inOrder_nodupKeys tx.preparedRvers) k
  have hw := removeWvers_spec (Replica.removeRvers column (inOrder tx.preparedRvers))
    (inOrder tx.preparedWvers) k (hr.2.trans (hmerged k).2)
  refine ⟨hw.2, hw.1.trans ?_⟩
  rw [hr.1, dlookup_inOrder, (hmerged k).1]

/-- A decision leaves the lists right exactly when it is careful: `list::remove` takes away every
equal version. -/
theorem recorded_onDecide_iff (hs : Clean s) {d : Decision} (h : s.onDecide tid d = some t) :
    Recorded t ↔ Careful s (.onDecide tid d : Event κ ν) := by
  obtain ⟨tx, htx, hdtxns, hcolumn⟩ := onDecide_column hs h
  have hbefore : ∀ k, (s.column k).preparedRver.Perm
      ((tx.preparedRvers.lookup k).toList ++
        records TxTapir.preparedRvers (s.dtxns.erase tid) k) := fun k =>
    (hs.recorded k).1.trans (records_perm_of_lookup _ _ _ _ htx)
  constructor
  · intro ht tx' htx' k v hv u txu hu hvu
    rw [htx] at htx'
    cases htx'
    by_contra hne
    have hmem := mem_records_erase TxTapir.preparedRvers s.dtxns tid k hne hu hvu
    rw [← hdtxns] at hmem
    have hleft := (ht k).1.mem_iff.mpr hmem
    rw [(hcolumn k).2, hv] at hleft
    simp at hleft
  · intro hcareful k
    refine ⟨?_, ?_⟩
    · rw [(hcolumn k).2, hdtxns]
      cases hv : tx.preparedRvers.lookup k with
      | none =>
        have hperm := hbefore k
        rw [hv] at hperm
        exact hperm
      | some v =>
        have hperm : ((s.column k).preparedRver.filter (· ≠ v)).Perm
            ((records TxTapir.preparedRvers (s.dtxns.erase tid) k).filter (· ≠ v)) := by
          have hall := (hbefore k).filter (· ≠ v)
          rw [hv] at hall
          simpa using hall
        have hothers : (records TxTapir.preparedRvers (s.dtxns.erase tid) k).filter (· ≠ v) =
            records TxTapir.preparedRvers (s.dtxns.erase tid) k := by
          refine List.filter_eq_self.mpr fun w hw => ?_
          obtain ⟨u, txu, hne, hu, hvu⟩ := of_mem_records_erase _ _ _ _ hw
          have hwv : w ≠ v := fun heq => hne (hcareful tx htx k v hv u txu hu (heq ▸ hvu))
          simpa using hwv
        rw [hothers] at hperm
        exact hperm
    · rw [(hcolumn k).1, hdtxns]
      have hnone : records TxTapir.preparedWvers (s.dtxns.erase tid) k = [] := by
        refine List.eq_nil_iff_forall_not_mem.mpr fun w hw => ?_
        obtain ⟨u, txu, -, hu, hvu⟩ := of_mem_records_erase _ _ _ _ hw
        rw [hs.lookup_wver hu] at hvu
        cases hvu
      rw [hnone]

theorem onFastAccept_unwritten (hs : Clean s) {txnCmds : List Version} {ret : Ret}
    (h : s.onFastAccept tid txnCmds = some (ret, t))
    (hnone : (s.getOrCreateTx tid).abortedInDispatch = false →
      (inOrder (s.getOrCreateTx tid).readVers).all (passes s.column) = true →
        (s.getOrCreateTx tid).writeBufs = ∅) :
    ((s.getOrCreateTx tid).abortedInDispatch = true ∧ Clean t) ∨
    ((s.getOrCreateTx tid).abortedInDispatch = false ∧
      t = { s with column := recordReads s.column (passing s (s.getOrCreateTx tid)) }.setTx tid
        (s.withReads (s.getOrCreateTx tid))) := by
  obtain ⟨habort, -, rfl⟩ | ⟨habort, -, -, rfl⟩ | ⟨habort, hpass, ver, w, hw, -, rfl⟩ :=
    Replica.onFastAccept_cases h
  · exact Or.inl ⟨habort, hs.setTx rfl rfl⟩
  · exact Or.inr ⟨habort, rfl⟩
  · rw [hnone habort hpass] at hw
    subst hw
    exact Or.inr ⟨habort, rfl⟩

/-- A fast accept that reaches the writes puts them into the wrong list. -/
theorem not_recorded_of_write (hs : Clean s) {txnCmds : List Version} {ret : Ret}
    (h : s.onFastAccept tid txnCmds = some (ret, t))
    (habort : (s.getOrCreateTx tid).abortedInDispatch = false)
    (hpass : (inOrder (s.getOrCreateTx tid).readVers).all (passes s.column) = true)
    (hwrite : (s.getOrCreateTx tid).writeBufs ≠ ∅) : ¬ Recorded t := by
  intro ht
  obtain ⟨habort', -⟩ | ⟨-, hpass', -⟩ | ⟨-, -, ver, w, hw, -, rfl⟩ := Replica.onFastAccept_cases h
  · rw [habort] at habort'
    cases habort'
  · rw [hpass] at hpass'
    cases hpass'
  have hkeys : ∃ k, k ∈ (inOrder (s.getOrCreateTx tid).writeBufs).keys := by
    have hne : inOrder (s.getOrCreateTx tid).writeBufs ≠ [] := by
      intro hnil
      have hperm := inOrder_perm (s.getOrCreateTx tid).writeBufs
      rw [hnil] at hperm
      exact hwrite (AList.ext hperm.nil_eq.symm)
    obtain ⟨x, hx⟩ := List.exists_mem_of_ne_nil _ hne
    exact ⟨x.1, List.mem_keys_of_mem hx⟩
  obtain ⟨k, hk⟩ := hkeys
  have hprep := validateWrites_prepared ver .success
    (recordReads s.column (passing s (s.getOrCreateTx tid)))
    (s.withReads (s.getOrCreateTx tid)) (inOrder (s.getOrCreateTx tid).writeBufs) (Or.inl hk)
  have hwver := validateWrites_wver ver .success
    (recordReads s.column (passing s (s.getOrCreateTx tid)))
    (s.withReads (s.getOrCreateTx tid)) (inOrder (s.getOrCreateTx tid).writeBufs) k
  rw [← hw] at hprep hwver
  obtain ⟨v, hv⟩ := Option.ne_none_iff_exists'.mp hprep
  have hempty : (w.2.1 k).preparedWver = [] := by
    rw [hwver]
    unfold recordReads
    split
    · exact hs.unwritten k
    · exact hs.unwritten k
  have hperm := (ht k).2
  have hmem : v ∈ records TxTapir.preparedWvers (s.dtxns.insert tid w.2.2) k := by
    rw [records_insert, hv]
    exact List.mem_append_left _ List.mem_cons_self
  have hleft := hperm.mem_iff.mpr hmem
  rw [Replica.setTx, hempty] at hleft
  cases hleft

theorem unwritten_recordReads (hs : Clean s) (l : List (Sigma fun _ : κ => Version)) (k : κ) :
    (recordReads s.column l k).preparedWver = [] := by
  unfold recordReads
  split
  · exact hs.unwritten k
  · exact hs.unwritten k

theorem recorded_onFastAccept_iff (hs : Clean s) {txnCmds : List Version} {ret : Ret}
    (h : s.onFastAccept tid txnCmds = some (ret, t)) :
    Recorded t ↔ Careful s (.onFastAccept tid txnCmds : Event κ ν) := by
  have hwrites : Recorded t → (s.getOrCreateTx tid).abortedInDispatch = false →
      (inOrder (s.getOrCreateTx tid).readVers).all (passes s.column) = true →
        (s.getOrCreateTx tid).writeBufs = ∅ := by
    intro ht habort hpass
    by_contra hwrite
    exact not_recorded_of_write hs h habort hpass hwrite ht
  constructor
  · intro ht habort
    refine ⟨hwrites ht habort, ?_⟩
    obtain ⟨habort', -⟩ | ⟨-, rfl⟩ := onFastAccept_unwritten hs h (hwrites ht)
    · rw [habort] at habort'
      cases habort'
    · exact (recorded_withReads_iff hs).mp ht
  · intro hcareful
    obtain ⟨-, hclean⟩ | ⟨habort, rfl⟩ :=
      onFastAccept_unwritten hs h fun habort => (hcareful habort).1
    · exact hclean.recorded
    · exact (recorded_withReads_iff hs).mpr (hcareful habort).2

theorem justified_of_careful (hs : Clean s) {txnCmds : List Version}
    (hcareful : Careful s (.onFastAccept tid txnCmds : Event κ ν)) :
    Justified s (.onFastAccept tid txnCmds : Event κ ν) := by
  intro t h u tx hu htx
  refine ⟨fun k v w _ hw => ?_, fun k b v w hb _ _ => ?_⟩
  · rw [hs.lookup_wver htx] at hw
    cases hw
  · obtain ⟨-, hret, -⟩ | ⟨-, -, hret, -⟩ | ⟨habort, hpass, -⟩ := Replica.onFastAccept_cases h
    · cases hret
    · exact absurd rfl hret
    · rw [(hcareful habort).1 hpass] at hb
      cases hb

/-- The records stay right and a success is justified exactly at the careful steps. -/
theorem sound_iff_careful {e : Event κ ν} (hs : Clean s) (h : step s e = some t) :
    (Recorded t ∧ Justified s e) ↔ Careful s e := by
  cases e with
  | readColumn tid k =>
    cases h
    exact ⟨fun _ => trivial, fun _ => ⟨(hs.setTx rfl rfl).recorded, trivial⟩⟩
  | writeColumn tid k v =>
    cases h
    exact ⟨fun _ => trivial, fun _ => ⟨(hs.setTx rfl rfl).recorded, trivial⟩⟩
  | fullyDispatched tid =>
    cases h
    exact ⟨fun _ => trivial, fun _ => ⟨(hs.setTx rfl rfl).recorded, trivial⟩⟩
  | onFastAccept tid txnCmds =>
    obtain ⟨⟨ret, t'⟩, haccept, rfl⟩ := Option.map_eq_some_iff.mp h
    have hiff := recorded_onFastAccept_iff hs haccept
    exact ⟨fun hsound => hiff.mp hsound.1,
      fun hcareful => ⟨hiff.mpr hcareful, justified_of_careful hs hcareful⟩⟩
  | onDecide tid d =>
    have hiff := recorded_onDecide_iff hs h
    exact ⟨fun hsound => hiff.mp hsound.1, fun hcareful => ⟨hiff.mpr hcareful, trivial⟩⟩

theorem Clean.step {e : Event κ ν} (hs : Clean s) (h : Tapir.step s e = some t)
    (hcareful : Careful s e) : Clean t := by
  refine ⟨((sound_iff_careful hs h).mpr hcareful).1, ?_⟩
  cases e with
  | readColumn tid k =>
    cases h
    exact hs.unwritten
  | writeColumn tid k v =>
    cases h
    exact hs.unwritten
  | fullyDispatched tid =>
    cases h
    exact hs.unwritten
  | onFastAccept tid txnCmds =>
    obtain ⟨⟨ret, t'⟩, haccept, rfl⟩ := Option.map_eq_some_iff.mp h
    obtain ⟨-, hclean⟩ | ⟨-, heq⟩ :=
      onFastAccept_unwritten hs haccept fun habort => (hcareful habort).1
    · exact hclean.unwritten
    · rw [heq]
      exact unwritten_recordReads hs _
  | onDecide tid d =>
    obtain ⟨tx, -, -, hcolumn⟩ := onDecide_column hs h
    exact fun k => (hcolumn k).1

end Steps

def Replica.start (value : κ → ν) (ver : κ → Version) : Replica κ ν where
  column k := { value := value k, ver := ver k }

theorem clean_start (value : κ → ν) (ver : κ → Version) : Clean (Replica.start value ver) where
  recorded _ := ⟨List.Perm.refl _, List.Perm.refl _⟩
  unwritten _ := rfl

/-- In every run, the lists of every column are what the undecided transactions have recorded and
every success is justified, at each step, if and only if each step is careful. -/
theorem prepared_exact (value : κ → ν) (ver : κ → Version) (es : List (Event κ ν)) :
    EveryStep step (fun s e t => Recorded t ∧ Justified s e) (Replica.start value ver) es ↔
      EveryStep step (fun s e _ => Careful s e) (Replica.start value ver) es :=
  everyStep_iff (I := Clean) (fun _ _ _ hs h => sound_iff_careful hs h)
    (fun _ _ _ hs h hcareful => hs.step h hcareful) (clean_start value ver) es

/-- Transaction 0 reads the column, transaction 1 prepares a write of it with timestamp 5, and
transaction 2, which read the version below, is accepted. After three aborts the timestamp stays in
the list of the reads. -/
theorem prepared_write_missed :
    ∃ s t u : Replica Nat Nat,
      [Event.readColumn 0 0, .fullyDispatched 0, .onFastAccept 0 [1], .writeColumn 1 0 7,
        .fullyDispatched 1, .onFastAccept 1 [5], .readColumn 2 0, .fullyDispatched 2].foldlM step
          (Replica.start (fun _ => 0) fun _ => 0) = some s ∧
      (s.column 0).preparedRver = [0, 5] ∧ records TxTapir.preparedRvers s.dtxns 0 = [0] ∧
      (s.column 0).preparedWver = [] ∧ records TxTapir.preparedWvers s.dtxns 0 = [5] ∧
      ¬ Recorded s ∧ s.onFastAccept 2 [9] = some (.success, t) ∧
      ¬ Justified s (.onFastAccept 2 [9] : Event Nat Nat) ∧
      [Event.onDecide 0 .abort, .onDecide 1 .abort, .onDecide 2 .abort].foldlM step t = some u ∧
      u.dtxns = ∅ ∧ (u.column 0).preparedRver = [5] := by
  refine ⟨_, _, _, rfl, rfl, rfl, rfl, rfl, fun h => ?_, rfl, fun h => ?_, rfl, rfl, rfl⟩
  · have hlen := (h 0).2.length_eq
    revert hlen
    decide
  · obtain ⟨hread, -⟩ := h _ rfl 1 _ (by decide) rfl
    exact absurd (hread 0 0 5 rfl rfl) (by decide)

end Jetpack.Tapir
