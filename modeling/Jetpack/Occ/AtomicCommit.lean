import Jetpack.Occ.Cluster
import Jetpack.Occ.Serializability

/-! Attempts that commit at several partitions are serializable in the order in which their
coordinators decided. A prepared attempt holds its locks at every partition until the outcome arrives
there, so nothing that it read or will write changes in between. -/

namespace Jetpack.Occ

open SerialHistory Transition

variable {π ρ κ ν : Type}

def Event.owner : Event ρ κ ν → LockOwner
  | .read id _ | .write id _ _ | .prepare id _ _ | .commit id | .abort id => id

@[simp]
theorem State.getMdbTxn_setTxn (s : State ρ κ ν) (id : LockOwner) (t : TxnOCC ρ κ ν) :
    (s.setTxn id t).getMdbTxn id = t := by
  simp [State.getMdbTxn, State.setTxn]

theorem State.getMdbTxn_setTxn_ne (s : State ρ κ ν) {id j : LockOwner} (t : TxnOCC ρ κ ν) (h : j ≠ id) :
    (s.setTxn id t).getMdbTxn j = s.getMdbTxn j := by
  simp [State.getMdbTxn, State.setTxn, h]

theorem State.getMdbTxn_removeMTxn_ne (s : State ρ κ ν) {id j : LockOwner} (h : j ≠ id) :
    (s.removeMTxn id).getMdbTxn j = s.getMdbTxn j := by
  simp [State.getMdbTxn, State.removeMTxn, h]

namespace Cluster

variable {c c' : Cluster π ρ κ ν}

def txn (c : Cluster π ρ κ ν) (p : π) (id : LockOwner) : TxnOCC ρ κ ν := (c.server p).getMdbTxn id

variable [DecidableEq π]

/-- How an attempt and one partition stand to each other. -/
structure Linked (c : Cluster π ρ κ ν) (id : LockOwner) (p : π) : Prop where
  outside : p ∉ (c.attempt id).partitionIds → c.link p id = .idle ∧ part p (c.log id) = []
  dispatch : (c.attempt id).phase = .dispatch → c.link p id = .idle ∧ (c.txn p id).debugAbort = -1
  log : (c.attempt id).phase = .dispatch ∨ (c.attempt id).phase = .prepare →
    part p (c.log id) = (c.txn p id).log
  prepare : c.link p id = .prepare → (c.attempt id).phase = .prepare
  reply : ∀ ok, c.link p id = .reply ok → (c.attempt id).phase = .prepare ∧
    (ok = true → (c.txn p id).verified = true ∧ (c.txn p id).debugAbort = 0)
  acked : c.link p id = .acked → (c.attempt id).phase = .prepare ∧
    ((c.attempt id).aborted = false → (c.txn p id).verified = true ∧ (c.txn p id).debugAbort = 0)
  commit : c.link p id = .commit → (c.attempt id).phase = .committed ∧
    (c.txn p id).verified = true ∧ (c.txn p id).debugAbort = 0
  abort : c.link p id = .abort → (c.attempt id).phase = .aborted

theorem Linked.congr {id : LockOwner} {p : π} (h : c.Linked id p)
    (hattempt : c'.attempt id = c.attempt id) (hlink : c'.link p id = c.link p id)
    (htxn : c'.txn p id = c.txn p id) (hlog : part p (c'.log id) = part p (c.log id)) :
    c'.Linked id p := by
  constructor
  · rw [hattempt, hlink, hlog]
    exact h.outside
  · rw [hattempt, hlink, htxn]
    exact h.dispatch
  · rw [hattempt, hlog, htxn]
    exact h.log
  · rw [hattempt, hlink]
    exact h.prepare
  · rw [hattempt, hlink, htxn]
    exact h.reply
  · rw [hattempt, hlink, htxn]
    exact h.acked
  · rw [hattempt, hlink, htxn]
    exact h.commit
  · rw [hattempt, hlink]
    exact h.abort

/-- An attempt whose outcome is known, at a partition that is not to commit it. -/
theorem Linked.of_decided {id : LockOwner} {p : π}
    (hout : p ∉ (c.attempt id).partitionIds → c.link p id = .idle ∧ part p (c.log id) = [])
    (hphase : (c.attempt id).phase ≠ .dispatch ∧ (c.attempt id).phase ≠ .prepare)
    (hlink : c.link p id = .idle ∨ c.link p id = .done ∨
      c.link p id = .abort ∧ (c.attempt id).phase = .aborted) : c.Linked id p := by
  have hnot : ∀ l, l ≠ .idle → l ≠ .done → l ≠ .abort → c.link p id ≠ l := by
    intro l h₁ h₂ h₃ hl
    rw [hl] at hlink
    rcases hlink with hl | hl | hl
    · exact h₁ hl
    · exact h₂ hl
    · exact h₃ hl.1
  constructor
  · exact hout
  · exact fun h => absurd h hphase.1
  · exact fun h => absurd h (not_or.mpr hphase)
  · exact fun h => absurd h (hnot _ (by decide) (by decide) (by decide))
  · exact fun ok h => absurd h (hnot _ (fun hl => by cases hl) (fun hl => by cases hl)
      (fun hl => by cases hl))
  · exact fun h => absurd h (hnot _ (by decide) (by decide) (by decide))
  · exact fun h => absurd h (hnot _ (by decide) (by decide) (by decide))
  · intro h
    rcases hlink with hl | hl | hl
    · cases hl.symm.trans h
    · cases hl.symm.trans h
    · exact hl.2

theorem link_setLink {p : π} {id : LockOwner} {l : Link} (hl : l ≠ .commit)
    (hold : c.link p id ≠ .commit) (q : π) (j : LockOwner) :
    (c.setLink p id l).link q j = .commit ↔ c.link q j = .commit := by
  by_cases hto : q = p ∧ j = id
  · obtain ⟨rfl, rfl⟩ := hto
    simp [setLink, hl, hold]
  · simp [setLink, hto]

theorem link_broadcast {id : LockOwner} {l : Link} (hl : l ≠ .commit)
    (hold : ∀ p, c.link p id ≠ .commit) (q : π) (j : LockOwner) :
    (c.broadcast id l).link q j = .commit ↔ c.link q j = .commit := by
  by_cases hto : j = id ∧ q ∈ (c.attempt id).partitionIds
  · obtain ⟨rfl, hq⟩ := hto
    simp [broadcast, hl, hold, hq]
  · simp [broadcast, hto]

end Cluster

variable [DecidableEq ρ]

/-- `DoPrepare` answers yes when it leaves the transaction verified, and then it can be committed. -/
theorem doPrepare_verified {db db' : Database ρ κ ν} {o : LockOwner} {t t' : TxnOCC ρ κ ν} {ok : Bool}
    {hint : Bool} {readRows updateRows : List (ρ × κ)}
    (h : SchedulerOcc.doPrepare hint db o t readRows updateRows = some (ok, db', t')) :
    t'.verified = ok ∧ (ok = true → t'.debugAbort = 0) ∧ t'.log = t.log := by
  simp only [SchedulerOcc.doPrepare] at h
  split at h
  · cases h
  next hnot =>
  have hnot' : t.verified = false := by simpa using hnot
  split at h
  · cases h
    exact ⟨hnot', fun hok => absurd hok Bool.false_ne_true, rfl⟩
  split at h
  · cases h
    exact ⟨hnot', fun hok => absurd hok Bool.false_ne_true, rfl⟩
  split at h
  · cases h
    exact ⟨hnot', fun hok => absurd hok Bool.false_ne_true, rfl⟩
  · cases h
    exact ⟨rfl, fun _ => rfl, rfl⟩

variable [DecidableEq κ]

theorem getMdbTxn_step_ne {s t : State ρ κ ν} {e : Event ρ κ ν} (h : Occ.step s e = some t)
    {j : LockOwner} (hj : j ≠ e.owner) : t.getMdbTxn j = s.getMdbTxn j := by
  cases e with
  | read id k =>
    simp only [Occ.step] at h
    split at h
    · obtain ⟨⟨v, x⟩, -, h⟩ := Option.bind_eq_some_iff.mp h
      cases h
      exact State.getMdbTxn_setTxn_ne s x hj
    · cases h
  | write id k v =>
    simp only [Occ.step] at h
    split at h
    · obtain ⟨x, -, h⟩ := Option.bind_eq_some_iff.mp h
      cases h
      exact State.getMdbTxn_setTxn_ne s x hj
    · cases h
  | prepare id readRows updateRows =>
    simp only [Occ.step] at h
    split at h
    · obtain ⟨⟨ok, db, x⟩, -, h⟩ := Option.bind_eq_some_iff.mp h
      cases h
      exact State.getMdbTxn_setTxn_ne s x hj
    · cases h
  | commit id =>
    obtain ⟨db, -, h⟩ := Option.bind_eq_some_iff.mp h
    cases h
    exact State.getMdbTxn_removeMTxn_ne s hj
  | abort id =>
    cases h
    exact State.getMdbTxn_removeMTxn_ne s hj

theorem log_readColumn {db : Database ρ κ ν} {t t' : TxnOCC ρ κ ν} {k : ρ × κ} {v : ν}
    (h : t.readColumn db k = some (v, t')) :
    t'.log = t.log ++ [.read k v] ∧ t'.debugAbort = t.debugAbort := by
  simp only [TxnOCC.readColumn] at h
  split at h
  · cases h
    exact ⟨rfl, rfl⟩
  split at h
  · cases h
    obtain ⟨-, hlog, -, habort⟩ := recordVersion_frame t k (columnVer db k)
    exact ⟨by rw [hlog], habort⟩
  · cases h

theorem log_writeColumn {db : Database ρ κ ν} {t t' : TxnOCC ρ κ ν} {k : ρ × κ} {v : ν}
    (h : t.writeColumn db k v = some t') :
    t'.log = t.log ++ [.write k v] ∧ t'.debugAbort = t.debugAbort := by
  simp only [TxnOCC.writeColumn] at h
  split at h
  · cases h
    exact ⟨rfl, rfl⟩
  split at h
  · cases h
    exact ⟨rfl, rfl⟩
  · cases h

def Event.Piece : Event ρ κ ν → Prop
  | .read _ _ | .write _ _ _ => True
  | .prepare _ _ _ | .commit _ | .abort _ => False

theorem step_piece {s t : State ρ κ ν} {e : Event ρ κ ν} (he : e.Piece) (h : Occ.step s e = some t) :
    (s.getMdbTxn e.owner).debugAbort = -1 ∧ (t.getMdbTxn e.owner).debugAbort = -1 ∧ t.db = s.db ∧
      ∃ op, (t.getMdbTxn e.owner).log = (s.getMdbTxn e.owner).log ++ [op] := by
  cases e with
  | read id k =>
    simp only [Occ.step] at h
    split at h
    · next hopen =>
      obtain ⟨⟨v, x⟩, hread, h⟩ := Option.bind_eq_some_iff.mp h
      cases h
      obtain ⟨hlog, habort⟩ := log_readColumn hread
      simp only [Event.owner, State.getMdbTxn_setTxn]
      exact ⟨hopen, habort.trans hopen, rfl, _, hlog⟩
    · cases h
  | write id k v =>
    simp only [Occ.step] at h
    split at h
    · next hopen =>
      obtain ⟨x, hwrite, h⟩ := Option.bind_eq_some_iff.mp h
      cases h
      obtain ⟨hlog, habort⟩ := log_writeColumn hwrite
      simp only [Event.owner, State.getMdbTxn_setTxn]
      exact ⟨hopen, habort.trans hopen, rfl, _, hlog⟩
    · cases h
  | prepare | commit | abort => cases he

namespace Cluster

variable {c c' : Cluster π ρ κ ν} {db₀ : π → ρ × κ → ν}

/-- The value of a column after all decided attempts: the one in an update that is still to be
committed there, or else the present one. -/
def Stands (c : Cluster π ρ κ ν) (p : π) (k : ρ × κ) (v : ν) : Prop :=
  (∀ id, c.link p id = .commit → ∀ w, (c.txn p id).updates.lookup k = some w → v = w) ∧
    ((∀ id, c.link p id = .commit → (c.txn p id).updates.lookup k = none) →
      v = cell (c.server p).db k)

theorem Stands.congr {p : π} {k : ρ × κ} {v : ν} (h : c.Stands p k v)
    (hlink : ∀ id, c'.link p id = .commit ↔ c.link p id = .commit)
    (htxn : ∀ id, c.link p id = .commit → c'.txn p id = c.txn p id)
    (hcell : cell (c'.server p).db k = cell (c.server p).db k) : c'.Stands p k v := by
  obtain ⟨hstaged, hcurrent⟩ := h
  constructor
  · intro id hid w hw
    have hid' := (hlink id).mp hid
    rw [htxn id hid'] at hw
    exact hstaged id hid' w hw
  · intro hnone
    rw [hcell]
    apply hcurrent
    intro id hid
    rw [← htxn id hid]
    exact hnone id ((hlink id).mpr hid)

variable [DecidableEq π]

variable [DecidableEq ν]

structure Inv (db₀ : π → ρ × κ → ν) (c : Cluster π ρ κ ν) : Prop where
  server : ∀ p, Occ.Inv (db₀ p) (c.server p)
  linked : ∀ id p, c.Linked id p
  serial : ∃ m : π × ρ × κ → ν, execAll (fun k => db₀ k.1 k.2) c.decided = some m ∧
    ∀ p k, c.Stands p k (m (p, k))

/-- A step of one server for a transaction that has not been told to commit, and no new decision. -/
theorem Inv.of_server (h : c.Inv db₀) {p : π} {id : LockOwner} {e : Occ.Event ρ κ ν}
    {s : State ρ κ ν} (he : e.owner = id) (hs : Occ.step (c.server p) e = some s)
    (hserver : c'.server = Function.update c.server p s) (hdecided : c'.decided = c.decided)
    (hlink : ∀ q j, c'.link q j = .commit ↔ c.link q j = .commit) (hnot : c.link p id ≠ .commit)
    (hcell : cell s.db = cell (c.server p).db) (hlinked : ∀ j q, c'.Linked j q) : c'.Inv db₀ := by
  have hself : c'.server p = s := by rw [hserver, Function.update_self]
  have hother : ∀ q, q ≠ p → c'.server q = c.server q := by
    intro q hq
    rw [hserver, Function.update_of_ne hq]
  refine ⟨?_, hlinked, ?_⟩
  · intro q
    by_cases hq : q = p
    · rw [hq, hself]
      exact (h.server p).step hs
    · rw [hother q hq]
      exact h.server q
  · obtain ⟨m, hexec, hstands⟩ := h.serial
    refine ⟨m, hdecided ▸ hexec, ?_⟩
    intro q k
    by_cases hq : q = p
    · subst hq
      refine (hstands q k).congr (hlink q) ?_ ?_
      · intro j hj
        have hne : j ≠ e.owner := by
          rintro rfl
          exact hnot (he ▸ hj)
        rw [txn, txn, hself]
        exact getMdbTxn_step_ne hs hne
      · rw [hself, hcell]
    · exact (hstands q k).congr (hlink q) (fun j _ => by rw [txn, txn, hother q hq])
        (by rw [hother q hq])

theorem Inv.of_messages (h : c.Inv db₀) (hserver : c'.server = c.server)
    (hdecided : c'.decided = c.decided)
    (hlink : ∀ q j, c'.link q j = .commit ↔ c.link q j = .commit)
    (hlinked : ∀ j q, c'.Linked j q) : c'.Inv db₀ := by
  refine ⟨fun p => hserver ▸ h.server p, hlinked, ?_⟩
  obtain ⟨m, hexec, hstands⟩ := h.serial
  refine ⟨m, hdecided ▸ hexec, ?_⟩
  intro q k
  exact (hstands q k).congr (hlink q) (fun j _ => by rw [txn, txn, hserver]) (by rw [hserver])

theorem Inv.execute (h : c.Inv db₀) {id : LockOwner} {p : π} {e : Occ.Event ρ κ ν} (he : e.owner = id)
    (hpiece : e.Piece) (hc : c.execute id p e = some c') : c'.Inv db₀ := by
  simp only [Cluster.execute] at hc
  split at hc
  · next hphase =>
    obtain ⟨hdispatch, hmem⟩ := hphase
    obtain ⟨s, hs, hc⟩ := Option.bind_eq_some_iff.mp hc
    obtain ⟨op, hop, hc⟩ := Option.bind_eq_some_iff.mp hc
    cases hc
    subst he
    obtain ⟨-, hopen, hdb, op', hlog⟩ := step_piece hpiece hs
    obtain rfl : op' = op := by
      rw [hlog, List.getLast?_concat] at hop
      exact Option.some.inj hop
    have hidle := ((h.linked e.owner p).dispatch hdispatch).1
    refine h.of_server rfl hs rfl rfl (fun _ _ => Iff.rfl) (by rw [hidle]; decide) (by rw [hdb]) ?_
    intro j q
    by_cases hj : j = e.owner
    · subst hj
      by_cases hq : q = p
      · subst hq
        have hold := h.linked e.owner q
        have hrecord : part q (c.log e.owner ++ [op'.within q]) = (s.getMdbTxn e.owner).log := by
          rw [part_append, part_within_self, hold.log (Or.inl hdispatch), hlog]
          rfl
        constructor
        · exact fun hout => absurd hmem hout
        · intro _
          simpa [txn, setServer] using ⟨hidle, hopen⟩
        · intro _
          simpa [txn, setServer] using hrecord
        · exact hold.prepare
        · intro ok hok
          cases hidle.symm.trans hok
        · intro hok
          cases hidle.symm.trans hok
        · intro hok
          cases hidle.symm.trans hok
        · intro hok
          cases hidle.symm.trans hok
      · refine (h.linked e.owner q).congr rfl rfl ?_ ?_
        · simp [txn, setServer, hq]
        · simp [part_append, part_within_ne (Ne.symm hq)]
    · refine (h.linked j q).congr rfl rfl ?_ ?_
      · by_cases hq : q = p
        · subst hq
          simpa [txn, setServer] using getMdbTxn_step_ne hs hj
        · simp [txn, setServer, hq]
      · simp [hj]
  · cases hc

theorem Inv.dispatch (h : c.Inv db₀) {id : LockOwner} {p : π}
    (hc : c.step (.dispatch id p) = some c') : c'.Inv db₀ := by
  simp only [Cluster.step] at hc
  split at hc
  · cases hc
    refine h.of_messages rfl rfl (fun _ _ => Iff.rfl) ?_
    intro j q
    by_cases hj : j = id
    · subst hj
      have hold := h.linked j q
      constructor
      · intro hout
        apply hold.outside
        intro hin
        apply hout
        simpa [setAttempt] using Or.inr hin
      · simpa [setAttempt, txn] using hold.dispatch
      · simpa [setAttempt, txn] using hold.log
      · simpa [setAttempt] using hold.prepare
      · simpa [setAttempt, txn] using hold.reply
      · simpa [setAttempt, txn] using hold.acked
      · simpa [setAttempt, txn] using hold.commit
      · simpa [setAttempt] using hold.abort
    · exact (h.linked j q).congr (by simp [setAttempt, hj]) rfl rfl rfl
  · cases hc

theorem Inv.sendPrepare (h : c.Inv db₀) {id : LockOwner} (hc : c.step (.sendPrepare id) = some c') :
    c'.Inv db₀ := by
  simp only [Cluster.step] at hc
  split at hc
  · next hphase =>
    cases hc
    have hidle : ∀ q, c.link q id = .idle := fun q => ((h.linked id q).dispatch hphase).1
    have hnot : ∀ q, c.link q id ≠ .commit := by
      intro q
      rw [hidle q]
      decide
    refine h.of_messages rfl rfl (link_broadcast (by decide) hnot) ?_
    · intro j q
      by_cases hj : j = id
      · subst hj
        have hold := h.linked j q
        by_cases hq : q ∈ (c.attempt j).partitionIds
        · constructor
          · intro hout
            simp [setAttempt, broadcast, hq] at hout
          · intro hnot
            simp [setAttempt, broadcast] at hnot
          · intro _
            exact hold.log (Or.inl hphase)
          · intro _
            simp [setAttempt, broadcast]
          · intro ok hok
            simp [setAttempt, broadcast, hq] at hok
          · intro hok
            simp [setAttempt, broadcast, hq] at hok
          · intro hok
            simp [setAttempt, broadcast, hq] at hok
          · intro hok
            simp [setAttempt, broadcast, hq] at hok
        · constructor
          · intro _
            simpa [setAttempt, broadcast, hq] using hold.outside hq
          · intro hnot
            simp [setAttempt, broadcast] at hnot
          · intro _
            exact hold.log (Or.inl hphase)
          · intro _
            simp [setAttempt, broadcast]
          · intro ok hok
            simp [setAttempt, broadcast, hq, hidle q] at hok
          · intro hok
            simp [setAttempt, broadcast, hq, hidle q] at hok
          · intro hok
            simp [setAttempt, broadcast, hq, hidle q] at hok
          · intro hok
            simp [setAttempt, broadcast, hq, hidle q] at hok
      · exact (h.linked j q).congr (by simp [setAttempt, broadcast, hj])
          (by simp [setAttempt, broadcast, hj]) rfl rfl
  · cases hc

omit [DecidableEq ν] in
/-- What a step of a server for one attempt leaves to the other attempts and the other servers. -/
theorem txn_of_step {s : State ρ κ ν} {p q : π} {e : Occ.Event ρ κ ν} {j : LockOwner}
    (hs : Occ.step (c.server p) e = some s) (hne : ¬ (q = p ∧ j = e.owner)) :
    (Function.update c.server p s q).getMdbTxn j = c.txn q j := by
  by_cases hq : q = p
  · subst hq
    rw [Function.update_self]
    exact getMdbTxn_step_ne hs fun hj => hne ⟨rfl, hj⟩
  · rw [Function.update_of_ne hq]
    rfl

theorem Inv.prepare (h : c.Inv db₀) {id : LockOwner} {p : π} {readRows updateRows : List (ρ × κ)}
    (hc : c.step (.prepare id p readRows updateRows) = some c') : c'.Inv db₀ := by
  simp only [Cluster.step] at hc
  split at hc
  · next hlink =>
    obtain ⟨s, hs, hc⟩ := Option.bind_eq_some_iff.mp hc
    cases hc
    have hphase := (h.linked id p).prepare hlink
    have hmem : p ∈ (c.attempt id).partitionIds := by
      by_contra hout
      rw [((h.linked id p).outside hout).1] at hlink
      cases hlink
    have hstep := hs
    simp only [Occ.step] at hstep
    split at hstep
    · next hperm =>
      obtain ⟨⟨ok, db, t⟩, hprep, hstep⟩ := Option.bind_eq_some_iff.mp hstep
      cases hstep
      obtain ⟨hreads, hupdates⟩ := Bool.and_eq_true_iff.mp hperm
      obtain ⟨hdb, -⟩ := doPrepare_spec ((h.server p).txns id) (List.isPerm_iff.mp hreads)
        (List.isPerm_iff.mp hupdates) hprep
      obtain ⟨hok, hready, hlog⟩ := doPrepare_verified hprep
      have hself : (({ (c.server p).setTxn id t with db := db } : State ρ κ ν)).getMdbTxn id = t :=
        State.getMdbTxn_setTxn (c.server p) id t
      have hnot : c.link p id ≠ .commit := by
        rw [hlink]
        decide
      refine h.of_server (e := .prepare id readRows updateRows) rfl hs rfl rfl
        (link_setLink (fun hl => by cases hl) hnot) hnot (funext hdb.cell_eq) ?_
      · intro j q
        by_cases hto : q = p ∧ j = id
        · obtain ⟨rfl, rfl⟩ := hto
          have hold := h.linked j q
          constructor
          · exact fun hout => absurd hmem hout
          · intro hnot
            cases hphase.symm.trans hnot
          · intro _
            have hrecord := hold.log (Or.inr hphase)
            simpa [setLink, setServer, txn, hself, hlog] using hrecord
          · intro hl
            simp [setLink] at hl
          · intro ok' hl
            simp only [setLink, true_and, if_true, Link.reply.injEq] at hl
            rw [hself, hok] at hl
            refine ⟨hphase, fun hyes => ?_⟩
            rw [hyes] at hl
            simpa [setLink, setServer, txn, hself, hok, hl] using hready hl
          · intro hl
            simp [setLink] at hl
          · intro hl
            simp [setLink] at hl
          · intro hl
            simp [setLink] at hl
        · refine (h.linked j q).congr rfl ?_ (txn_of_step hs hto) rfl
          simp [setLink, hto, setServer]
    · cases hstep
  · cases hc

theorem Inv.ack (h : c.Inv db₀) {id : LockOwner} {p : π} (hc : c.step (.ack id p) = some c') :
    c'.Inv db₀ := by
  simp only [Cluster.step] at hc
  split at hc
  · next ok hlink =>
    cases hc
    have hmem : p ∈ (c.attempt id).partitionIds := by
      by_contra hout
      rw [((h.linked id p).outside hout).1] at hlink
      cases hlink
    have hnot : c.link p id ≠ .commit := by
      rw [hlink]
      exact fun hl => by cases hl
    refine h.of_messages rfl rfl (link_setLink (by decide) hnot) ?_
    · intro j q
      by_cases hj : j = id
      · subst hj
        have hold := h.linked j q
        obtain ⟨hphase, hyes⟩ := (h.linked j p).reply ok hlink
        by_cases hq : q = p
        · subst hq
          constructor
          · intro hout
            simp [setAttempt, setLink, hmem] at hout
          · intro hnot
            simp [setAttempt, setLink, hphase] at hnot
          · intro _
            exact hold.log (Or.inr hphase)
          · intro hl
            simp [setAttempt, setLink] at hl
          · intro ok' hl
            simp [setAttempt, setLink] at hl
          · intro _
            refine ⟨by simpa [setAttempt, setLink] using hphase, ?_⟩
            intro hnone
            simp only [setAttempt, Function.update_self, Bool.or_eq_false_iff,
              Bool.not_eq_false'] at hnone
            exact hyes hnone.2
          · intro hl
            simp [setAttempt, setLink] at hl
          · intro hl
            simp [setAttempt, setLink] at hl
        · constructor
          · simpa [setAttempt, setLink, hq] using hold.outside
          · simpa [setAttempt, setLink, hq, txn] using hold.dispatch
          · simpa [setAttempt, setLink, txn] using hold.log
          · simpa [setAttempt, setLink, hq] using hold.prepare
          · simpa [setAttempt, setLink, hq, txn] using hold.reply
          · intro hl
            obtain ⟨hp, hready⟩ := hold.acked (by simpa [setAttempt, setLink, hq] using hl)
            refine ⟨by simpa [setAttempt, setLink] using hp, ?_⟩
            intro hnone
            simp only [setAttempt, Function.update_self, Bool.or_eq_false_iff] at hnone
            exact hready hnone.1
          · simpa [setAttempt, setLink, hq, txn] using hold.commit
          · simpa [setAttempt, setLink, hq] using hold.abort
      · exact (h.linked j q).congr (by simp [setAttempt, setLink, hj])
          (by simp [setAttempt, setLink, hj]) rfl rfl
  · cases hc

def applied (c : Cluster π ρ κ ν) (id : LockOwner) (m : π × ρ × κ → ν) (k : π × ρ × κ) : ν :=
  if k.1 ∈ (c.attempt id).partitionIds then
    overlay (fun a => m (k.1, a)) (c.txn k.1 id).updates k.2
  else m k

/-- Two attempts do not hold the locks of the same row, when one of them is to commit there. -/
theorem Inv.lookup_eq_none (h : c.Inv db₀) {id j : LockOwner} {p : π} {k : ρ × κ}
    (hcommit : c.link p j = .commit) (hne : j ≠ id)
    (hholds : ((c.server p).db k.1).lock.Holds id) : (c.txn p j).updates.lookup k = none := by
  by_contra hsome
  obtain ⟨v, hv⟩ := Option.ne_none_iff_exists'.mp hsome
  have hverified := ((h.linked j p).commit hcommit).2.1
  have hkey : k ∈ (c.txn p j).updates.keys :=
    AList.mem_keys.mpr (AList.lookup_isSome.mp (Option.isSome_iff_exists.mpr ⟨v, hv⟩))
  have hw := ((h.server p).txns j).writeLocked hverified k hkey
  exact hne (RWLock.wholds_of_holds ((h.server p).exclusive k.1) hw hholds).symm

/-- An attempt that every partition has prepared can be executed after all those decided before. -/
theorem Inv.exec_log (h : c.Inv db₀) {id : LockOwner} {m : π × ρ × κ → ν}
    (hstands : ∀ p k, c.Stands p k (m (p, k))) (hphase : (c.attempt id).phase = .prepare)
    (hready : ∀ p ∈ (c.attempt id).partitionIds, c.link p id = .acked ∧ (c.txn p id).verified = true) :
    exec m (c.log id) = some (c.applied id m) := by
  apply exec_of_parts
  intro p
  by_cases hp : p ∈ (c.attempt id).partitionIds
  · obtain ⟨hlink, hverified⟩ := hready p hp
    have htxn := (h.server p).txns id
    obtain ⟨vals, hvals, hexec⟩ := htxn.reads
    rw [(h.linked id p).log (Or.inr hphase)]
    have hread : ∀ k, ((c.txn p id).verCheckRead.lookup k).isSome → m (p, k) = vals k := by
      intro k hk
      obtain ⟨ver, hver⟩ := Option.isSome_iff_exists.mp hk
      have hholds := htxn.readLocked hverified k hk
      have hcurrent : m (p, k) = cell (c.server p).db k := by
        apply (hstands p k).2
        intro j hj
        refine h.lookup_eq_none hj ?_ hholds
        rintro rfl
        cases hlink.symm.trans hj
      rw [hcurrent]
      exact (hvals k ver hver).2 (htxn.valid hverified k ver hver)
    have hlog := hexec (fun k => m (p, k)) hread
    have happlied : (fun a => c.applied id m (p, a)) =
        overlay (fun a => m (p, a)) (c.txn p id).updates := by
      funext a
      simp only [applied, if_pos hp]
    rw [happlied]
    exact hlog
  · have happlied : (fun a => c.applied id m (p, a)) = fun a => m (p, a) := by
      funext a
      simp only [applied, if_neg hp]
    rw [((h.linked id p).outside hp).2, happlied]
    rfl

theorem Inv.decide_abort (h : c.Inv db₀) {id : LockOwner} (hphase : (c.attempt id).phase = .prepare)
    (hacked : ∀ p ∈ (c.attempt id).partitionIds, c.link p id = .acked) :
    ((c.broadcast id .abort).setAttempt id { c.attempt id with phase := .aborted }).Inv db₀ := by
  have hnot : ∀ p, c.link p id ≠ .commit := by
    intro p hl
    cases hphase.symm.trans ((h.linked id p).commit hl).1
  refine h.of_messages rfl rfl (link_broadcast (by decide) hnot) ?_
  intro j q
  by_cases hj : j = id
  · subst hj
    apply Linked.of_decided
    · intro hq
      have hq' : q ∉ (c.attempt j).partitionIds := by simpa [setAttempt] using hq
      simpa [setAttempt, broadcast, hq'] using (h.linked j q).outside hq'
    · simp [setAttempt]
    · by_cases hq : q ∈ (c.attempt j).partitionIds
      · simp [setAttempt, broadcast, hq]
      · simp [setAttempt, broadcast, hq, ((h.linked j q).outside hq).1]
  · exact (h.linked j q).congr (by simp [setAttempt, broadcast, hj])
      (by simp [setAttempt, broadcast, hj]) rfl rfl

/-- The order to commit. The histories of the decided attempts still can be executed one after the
other, and the store they lead to has the values that the partitions will have. -/
theorem Inv.decide_commit (h : c.Inv db₀) {id : LockOwner} (hphase : (c.attempt id).phase = .prepare)
    (hacked : ∀ p ∈ (c.attempt id).partitionIds, c.link p id = .acked)
    (hyes : (c.attempt id).aborted = false) :
    ({ (c.broadcast id .commit).setAttempt id { c.attempt id with phase := .committed } with
      decided := c.decided ++ [c.log id] } : Cluster π ρ κ ν).Inv db₀ := by
  have hready : ∀ p ∈ (c.attempt id).partitionIds, c.link p id = .acked ∧
      (c.txn p id).verified = true ∧ (c.txn p id).debugAbort = 0 :=
    fun p hp => ⟨hacked p hp, ((h.linked id p).acked (hacked p hp)).2 hyes⟩
  have hnot : ∀ p, c.link p id ≠ .commit := by
    intro p hl
    cases hphase.symm.trans ((h.linked id p).commit hl).1
  refine ⟨h.server, ?_, ?_⟩
  · intro j q
    by_cases hj : j = id
    · subst hj
      by_cases hq : q ∈ (c.attempt j).partitionIds
      · constructor
        case commit =>
          intro _
          exact ⟨by simp [setAttempt], (hready q hq).2⟩
        case reply =>
          intro ok hl
          simp [setAttempt, broadcast, hq] at hl
        all_goals
          intro hl
          simp [setAttempt, broadcast, hq] at hl
      · apply Linked.of_decided
        · intro _
          simpa [setAttempt, broadcast, hq] using (h.linked j q).outside hq
        · simp [setAttempt]
        · simp [setAttempt, broadcast, hq, ((h.linked j q).outside hq).1]
    · exact (h.linked j q).congr (by simp [setAttempt, broadcast, hj])
        (by simp [setAttempt, broadcast, hj]) rfl rfl
  · obtain ⟨m, hexec, hstands⟩ := h.serial
    refine ⟨c.applied id m, ?_, ?_⟩
    · rw [execAll_append_singleton, hexec]
      exact h.exec_log hstands hphase fun p hp => ⟨(hready p hp).1, (hready p hp).2.1⟩
    · intro p k
      obtain ⟨hstaged, hcurrent⟩ := hstands p k
      by_cases hp : p ∈ (c.attempt id).partitionIds
      · have hlink : ∀ j, (c.broadcast id .commit).link p j = .commit ↔ j = id ∨ c.link p j = .commit := by
          intro j
          by_cases hj : j = id
          · simp [broadcast, hj, hp]
          · simp [broadcast, hj]
        have hvalue : c.applied id m (p, k) = ((c.txn p id).updates.lookup k).getD (m (p, k)) := by
          rw [applied, if_pos hp]
          rfl
        -- no other attempt that is to commit has written to what this one writes
        have hfree : ∀ j v, c.link p j = .commit → (c.txn p id).updates.lookup k = some v →
            (c.txn p j).updates.lookup k = none := by
          intro j v hj hv
          have hkey : k ∈ (c.txn p id).updates.keys :=
            AList.mem_keys.mpr (AList.lookup_isSome.mp (Option.isSome_iff_exists.mpr ⟨v, hv⟩))
          have hw := ((h.server p).txns id).writeLocked (hready p hp).2.1 k hkey
          refine h.lookup_eq_none hj ?_ (Or.inl hw)
          rintro rfl
          exact hnot p hj
        constructor
        · intro j hj w hw
          rw [hvalue]
          rcases (hlink j).mp hj with rfl | hold
          · rw [show (c.txn p j).updates.lookup k = some w from hw]
            rfl
          · cases hv : (c.txn p id).updates.lookup k with
            | none => exact hstaged j hold w hw
            | some v =>
              have hnone : (c.txn p j).updates.lookup k = none := hfree j v hold hv
              cases hnone.symm.trans hw
        · intro hnone
          have hself : (c.txn p id).updates.lookup k = none := hnone id ((hlink id).mpr (Or.inl rfl))
          rw [hvalue, hself]
          exact hcurrent fun j hj => hnone j ((hlink j).mpr (Or.inr hj))
      · have hlink : ∀ j, (c.broadcast id .commit).link p j = c.link p j := by
          intro j
          simp [broadcast, hp]
        have hvalue : c.applied id m (p, k) = m (p, k) := if_neg hp
        rw [hvalue]
        exact (hstands p k).congr (fun j => iff_of_eq (congrArg (· = Link.commit) (hlink j)))
          (fun _ _ => rfl) rfl

theorem Inv.decide (h : c.Inv db₀) {id : LockOwner} (hc : c.step (.decide id) = some c') :
    c'.Inv db₀ := by
  simp only [Cluster.step] at hc
  split at hc
  · next hall =>
    obtain ⟨hphase, hacked⟩ := hall
    split at hc
    · cases hc
      exact h.decide_abort hphase hacked
    · next hyes =>
      cases hc
      exact h.decide_commit hphase hacked (by simpa using hyes)
  · cases hc

theorem Inv.linked_done (h : c.Inv db₀) {id : LockOwner} {p : π} {e : Occ.Event ρ κ ν}
    {s : State ρ κ ν} (he : e.owner = id) (hs : Occ.step (c.server p) e = some s)
    (hphase : (c.attempt id).phase ≠ .dispatch ∧ (c.attempt id).phase ≠ .prepare)
    (hmem : p ∈ (c.attempt id).partitionIds) (j : LockOwner) (q : π) :
    ((c.setServer p s).setLink p id .done).Linked j q := by
  by_cases hto : q = p ∧ j = id
  · obtain ⟨rfl, rfl⟩ := hto
    apply Linked.of_decided
    · exact fun hout => absurd hmem hout
    · exact hphase
    · simp [setLink]
  · refine (h.linked j q).congr rfl ?_ (txn_of_step hs (he ▸ hto)) rfl
    simp [setLink, hto, setServer]

theorem Inv.commit (h : c.Inv db₀) {id : LockOwner} {p : π} (hc : c.step (.commit id p) = some c') :
    c'.Inv db₀ := by
  simp only [Cluster.step] at hc
  split at hc
  · next hlink =>
    obtain ⟨s, hs, hc⟩ := Option.bind_eq_some_iff.mp hc
    cases hc
    obtain ⟨hphase, hverified, -⟩ := (h.linked id p).commit hlink
    have hmem : p ∈ (c.attempt id).partitionIds := by
      by_contra hout
      cases hlink.symm.trans ((h.linked id p).outside hout).1
    refine ⟨?_, h.linked_done (e := .commit id) rfl hs (by rw [hphase]; decide) hmem, ?_⟩
    · intro q
      by_cases hq : q = p
      · subst hq
        simpa [setLink, setServer] using (h.server q).step hs
      · simpa [setLink, setServer, hq] using h.server q
    · obtain ⟨m, hexec, hstands⟩ := h.serial
      refine ⟨m, hexec, ?_⟩
      intro q k
      by_cases hq : q = p
      · subst hq
        have hcell : cell s.db = overlay (cell (c.server q).db) (c.txn q id).updates := by
          obtain ⟨db, hdb, hs'⟩ := Option.bind_eq_some_iff.mp hs
          cases hs'
          simp only [SchedulerOcc.doCommit] at hdb
          split at hdb
          · cases hdb
          split at hdb
          · cases hdb
          · cases hdb
            have hunlock := unlockRows_changedBy id (SchedulerOcc.applyUpdates (c.server q).db
              (c.txn q id).updates.entries) (c.txn q id).locks
            exact (funext hunlock.cell_eq).trans
              (cell_applyUpdates (c.server q).db (c.txn q id).updates.nodupKeys)
        obtain ⟨hstaged, hcurrent⟩ := hstands q k
        have hleft : ∀ j, ((c.setServer q s).setLink q id .done).link q j = .commit ↔
            j ≠ id ∧ c.link q j = .commit := by
          intro j
          by_cases hj : j = id
          · simp [setLink, hj]
          · simp [setLink, hj, setServer]
        have htxn : ∀ j, j ≠ id → ((c.setServer q s).setLink q id .done).txn q j = c.txn q j :=
          fun j hj => txn_of_step hs fun hto => hj hto.2
        have hserver : (((c.setServer q s).setLink q id .done).server q) = s := by
          simp [setLink, setServer]
        constructor
        · intro j hj w hw
          obtain ⟨hne, hold⟩ := (hleft j).mp hj
          rw [htxn j hne] at hw
          exact hstaged j hold w hw
        · intro hnone
          rw [hserver, hcell]
          cases hv : (c.txn q id).updates.lookup k with
          | some v =>
            rw [hstaged id hlink v hv, overlay, hv]
            rfl
          | none =>
            rw [overlay, hv]
            apply hcurrent
            intro j hj
            by_cases hne : j = id
            · exact hne ▸ hv
            · rw [← htxn j hne]
              exact hnone j ((hleft j).mpr ⟨hne, hj⟩)
      · refine (hstands q k).congr ?_ ?_ ?_
        · intro j
          simp [setLink, setServer, hq]
        · intro j _
          exact txn_of_step hs fun hto => hq hto.1
        · simp [setLink, setServer, hq]
  · cases hc

theorem Inv.abort (h : c.Inv db₀) {id : LockOwner} {p : π} (hc : c.step (.abort id p) = some c') :
    c'.Inv db₀ := by
  simp only [Cluster.step] at hc
  split at hc
  · next hlink =>
    obtain ⟨s, hs, hc⟩ := Option.bind_eq_some_iff.mp hc
    cases hc
    have hphase := (h.linked id p).abort hlink
    have hmem : p ∈ (c.attempt id).partitionIds := by
      by_contra hout
      cases hlink.symm.trans ((h.linked id p).outside hout).1
    have hnot : c.link p id ≠ .commit := by
      rw [hlink]
      decide
    refine h.of_server (e := .abort id) rfl hs rfl rfl (link_setLink (by decide) hnot) hnot ?_
      (h.linked_done (e := .abort id) rfl hs (by rw [hphase]; decide) hmem)
    cases hs
    exact funext (unlockRows_changedBy id (c.server p).db ((c.server p).getMdbTxn id).locks).cell_eq
  · cases hc

theorem Inv.step (h : c.Inv db₀) {e : Event π ρ κ ν} (hc : c.step e = some c') : c'.Inv db₀ := by
  cases e with
  | dispatch id p => exact h.dispatch hc
  | read id p k => exact h.execute (e := .read id k) rfl trivial hc
  | write id p k v => exact h.execute (e := .write id k v) rfl trivial hc
  | sendPrepare id => exact h.sendPrepare hc
  | prepare id p readRows updateRows => exact h.prepare hc
  | ack id p => exact h.ack hc
  | decide id => exact h.decide hc
  | commit id p => exact h.commit hc
  | abort id p => exact h.abort hc

theorem inv_initial (column : π → ρ → κ → ν) (ver : π → ρ → κ → Nat) :
    (initial column ver).Inv fun p k => column p k.1 k.2 := by
  refine ⟨fun p => Occ.inv_initial (column p) (ver p), ?_, ?_⟩
  · intro id p
    constructor
    case dispatch => exact fun _ => ⟨rfl, rfl⟩
    case outside => exact fun _ => ⟨rfl, rfl⟩
    case log => exact fun _ => rfl
    case reply =>
      intro ok hl
      cases hl
    all_goals
      intro hl
      cases hl
  · refine ⟨_, rfl, ?_⟩
    intro p k
    constructor
    · intro id hl
      cases hl
    · intro _
      rfl

theorem Inv.of_reachable {column : π → ρ → κ → ν} {ver : π → ρ → κ → Nat}
    (h : Reachable Cluster.step (initial column ver) c) : c.Inv fun p k => column p k.1 k.2 :=
  ReachableWhere.invariant (fun _ _ _ hi _ hstep => hi.step hstep) h (inv_initial column ver)

/-- In every state reached, the attempts that were decided to commit can be executed one after the
other, each reading what it read, and a partition that has no order to commit left holds what they
wrote. An attempt reads and writes columns of rows that exist; it adds and removes none. -/
theorem decided_serializable {column : π → ρ → κ → ν} {ver : π → ρ → κ → Nat}
    (h : Reachable Cluster.step (initial column ver) c) :
    ∃ m : π × ρ × κ → ν, execAll (fun k => column k.1 k.2.1 k.2.2) c.decided = some m ∧
      ∀ p, (∀ id, c.link p id ≠ .commit) → ∀ k, m (p, k) = cell (c.server p).db k := by
  obtain ⟨m, hexec, hstands⟩ := (Inv.of_reachable h).serial
  refine ⟨m, hexec, ?_⟩
  intro p hnone k
  exact (hstands p k).2 fun id hid => absurd hid (hnone id)

section Run

/-- Attempt 1 moves one from partition 0 to partition 1 and is committed at partition 0 so far. Attempt
2 reads the new value there and is decided next. -/
def transferBetween : List (Event Nat Nat Nat Int) :=
  [.dispatch 1 0, .read 1 0 (0, 0), .write 1 0 (0, 0) 9, .dispatch 1 1, .read 1 1 (0, 0),
    .write 1 1 (0, 0) 11, .sendPrepare 1, .prepare 1 1 [(0, 0)] [(0, 0)],
    .prepare 1 0 [(0, 0)] [(0, 0)], .ack 1 0, .ack 1 1, .decide 1, .commit 1 0,
    .dispatch 2 0, .read 2 0 (0, 0), .sendPrepare 2, .prepare 2 0 [(0, 0)] [], .ack 2 0, .decide 2]

end Run

theorem decided_serializable_transfer :
    ∃ c : Cluster Nat Nat Nat Int,
      Reachable Cluster.step (initial (fun _ _ _ => 10) fun _ _ _ => 0) c ∧
      c.decided = [[.read (0, 0, 0) 10, .write (0, 0, 0) 9, .read (1, 0, 0) 10, .write (1, 0, 0) 11],
        [.read (0, 0, 0) 9]] ∧
      ∃ m : Nat × Nat × Nat → Int, execAll (fun _ => 10) c.decided = some m ∧
        ∀ p, (∀ id, c.link p id ≠ .commit) → ∀ k, m (p, k) = cell (c.server p).db k := by
  have hrun : (runWhere Cluster.step (fun _ _ => True) (initial (fun _ _ _ => 10) fun _ _ _ => 0)
      transferBetween).any (fun c => c.decided ==
        [[.read (0, 0, 0) 10, .write (0, 0, 0) 9, .read (1, 0, 0) 10, .write (1, 0, 0) 11],
          [.read (0, 0, 0) 9]]) = true := by decide +kernel
  obtain ⟨c, hc, hp⟩ := exists_reachableWhere hrun
  exact ⟨c, hc, by simpa using hp, decided_serializable hc⟩

/-- An order to commit finds a prepared transaction: the fatal error of `DoCommit` is not reached. -/
theorem commit_never_refused {column : π → ρ → κ → ν} {ver : π → ρ → κ → Nat}
    (h : Reachable Cluster.step (initial column ver) c) {id : LockOwner} {p : π}
    (hlink : c.link p id = .commit) : (c.step (.commit id p)).isSome := by
  obtain ⟨-, hverified, habort⟩ := ((Inv.of_reachable h).linked id p).commit hlink
  have hv : ((c.server p).getMdbTxn id).verified = true := hverified
  have ha : ((c.server p).getMdbTxn id).debugAbort = 0 := habort
  simp [Cluster.step, hlink, Occ.step, SchedulerOcc.doCommit, hv, ha]

theorem commit_never_refused_transfer :
    ∃ c : Cluster Nat Nat Nat Int,
      Reachable Cluster.step (initial (fun _ _ _ => 10) fun _ _ _ => 0) c ∧
      c.link 1 1 = .commit ∧ (c.step (.commit 1 1)).isSome := by
  have hrun : (runWhere Cluster.step (fun _ _ => True) (initial (fun _ _ _ => 10) fun _ _ _ => 0)
      transferBetween).any (fun c => c.link 1 1 == .commit) = true := by decide +kernel
  obtain ⟨c, hc, hp⟩ := exists_reachableWhere hrun
  have hlink : c.link 1 1 = .commit := by simpa using hp
  exact ⟨c, hc, hlink, commit_never_refused hc hlink⟩

end Cluster

end Jetpack.Occ
