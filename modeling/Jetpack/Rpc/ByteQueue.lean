import Jetpack.Library.Stream
import Jetpack.Rpc.Chunks

/-! A marshal and the slices chopped off it are readers of one stream of bytes. -/

namespace Jetpack.Rpc

open SharedStream

/-- The marshal has these addresses still to read, and counts them right. -/
structure Marshal.Reads (h : Heap) (m : Marshal) (as : List Addr) : Prop where
  shape : Shape h m.chunks
  addrs : addrs m.chunks = as
  size : m.contentSize = as.length

namespace Marshal.Reads

variable {h h' : Heap} {m : Marshal} {as new : List Addr}

theorem mono (r : m.Reads h as) (hn : h.next ≤ h'.next)
    (hsz : ∀ d < h.next, h'.size d = h.size d) : m.Reads h' as :=
  ⟨r.shape.mono hn hsz, r.addrs, r.size⟩

theorem contentSizeChecked (r : m.Reads h as) : m.contentSizeChecked h = some as.length := by
  simp [Marshal.contentSizeChecked, contentSizeSlow_eq r.shape, r.addrs, r.size]

theorem headAsserted (r : m.Reads h as) : m.headAsserted h = some () := by
  have hsize := r.contentSizeChecked
  have hshape := r.shape
  have haddrs := r.addrs
  simp only [Marshal.headAsserted, hsize, Option.bind_eq_bind, Option.bind_some]
  split
  · rfl
  · next hne =>
    cases hcs : m.chunks with
    | nil =>
      rw [hcs, addrs_nil] at haddrs
      exact absurd (by simp [← haddrs]) hne
    | cons c cs =>
      rw [hcs] at hshape
      obtain ⟨hd, hr, hw, hlt⟩ := hshape.1
      have hne : (c.readIdx == h.size c.data) = false := by
        simp only [beq_eq_false_iff_ne]
        omega
      simp [Chunk.fullyRead_eq hr hw, hne]

theorem write (r : m.Reads h as) {p : List Byte} (hp : p ≠ []) :
    ∃ h' m' new, m.write h p = some (h', m') ∧ Extends h m.chunks h' m'.chunks new ∧
      m'.Reads h' (as ++ new) ∧ new.map h'.ptr = p := by
  obtain ⟨h', cs', new, hw, e, hnew⟩ := writeChunks_extends r.shape hp
  have hlen : p.length = new.length := by simp [← hnew]
  refine ⟨h', _, new, by simp [Marshal.write, hw]; rfl, e, ⟨e.shape, ?_, ?_⟩, hnew⟩
  · rw [e.addrs, r.addrs]
  · simp [r.size, hlen]

theorem read (r : m.Reads h as) (n : Nat) :
    ∃ m', m.read h n = some ((as.take n).map h.ptr, m') ∧ m'.Reads h (as.drop n) ∧
      ∀ a, Beyond h m'.chunks a → Beyond h m.chunks a := by
  obtain ⟨cs', hloop, ha, hshape, hback⟩ := readLoop_eq r.shape n
  rw [r.addrs] at hloop ha
  have hlen : ((as.take n).map h.ptr).length = min n as.length := by simp
  have hcond : ¬ (m.contentSize < min n as.length ∨ n < min n as.length) := by
    have := r.size
    omega
  let m' : Marshal := { m with chunks := cs', contentSize := m.contentSize - min n as.length }
  have r' : m'.Reads h (as.drop n) := by
    refine ⟨hshape, ha, ?_⟩
    simp only [m', r.size, List.length_drop]
    omega
  refine ⟨m', ?_, r', hback⟩
  have hafter := r'.headAsserted
  simp only [m'] at hafter
  simp only [Marshal.read, r.headAsserted, hloop, Option.bind_eq_bind, Option.bind_some, hlen,
    if_neg hcond, hafter]
  rfl

theorem peek (r : m.Reads h as) (n : Nat) : m.peek h n = some ((as.take n).map h.ptr) := by
  have hloop := peekLoop_eq r.shape n
  rw [r.addrs] at hloop
  have hlen : ((as.take n).map h.ptr).length = min n as.length := by simp
  have hcond : ¬ n < min n as.length := by omega
  simp [Marshal.peek, r.headAsserted, hloop, hcond]

theorem empty (h : Heap) : Marshal.Reads h {} [] := ⟨trivial, rfl, rfl⟩

/-- A slice chopped into a new marshal. Nothing is copied. -/
theorem readFromMarshal (r : m.Reads h as) {n : Nat} (hn : n ≤ as.length) :
    ∃ dest m', Marshal.readFromMarshal h {} m n = some (h, dest, m') ∧
      dest.Reads h (as.take n) ∧ m'.Reads h (as.drop n) ∧
      ∀ a, Beyond h m'.chunks a → Beyond h m.chunks a := by
  obtain ⟨shared, left, hloop, hsh, hl, hash, hal, hback⟩ :=
    shareLoop_eq r.shape (n := n) (by rw [r.addrs]; exact hn)
  rw [r.addrs] at hash hal
  let dest : Marshal := { chunks := shared, writeCnt := 0 + BitVec.ofNat 32 n, contentSize := 0 + n }
  let m' : Marshal := { m with chunks := left, contentSize := m.contentSize - n }
  have rd : dest.Reads h (as.take n) := by
    refine ⟨hsh, hash, ?_⟩
    simp only [dest, List.length_take]
    omega
  have rm : m'.Reads h (as.drop n) := by
    refine ⟨hl, hal, ?_⟩
    simp only [m', r.size, List.length_drop]
  have hsize : ¬ as.length < n := by omega
  have hcs : ¬ m.contentSize < n := by
    rw [r.size]
    omega
  have hshare : Marshal.share h {} m n = some (dest, m') := by
    simp only [Marshal.share, hloop, Option.bind_eq_bind, Option.bind_some, if_neg hcs,
      List.nil_append]
    rfl
  have htransfer : Marshal.transfer h {} m n = some (h, dest, m') := by
    show (Marshal.share h {} m n).map _ = _
    rw [hshare]
    rfl
  refine ⟨dest, m', ?_, rd, rm, hback⟩
  simp only [Marshal.readFromMarshal, r.contentSizeChecked, Option.bind_eq_bind, Option.bind_some,
    if_neg hsize, htransfer, rd.contentSizeChecked]
  rfl

theorem setBookmark (r : m.Reads h as) (hcnt : m.writeCnt = 0) (n : Nat) :
    ∃ new h' m', m.setBookmark h n = some (new, h', m') ∧ Extends h m.chunks h' m'.chunks new ∧
      m'.Reads h' (as ++ new) ∧ new.length = n := by
  obtain ⟨new, h', cs', hloop, e, hlen⟩ := bookmarkLoop_extends r.shape n
  let m' : Marshal := { m with chunks := cs', contentSize := m.contentSize + n }
  have r' : m'.Reads h' (as ++ new) := by
    refine ⟨e.shape, ?_, ?_⟩
    · rw [e.addrs, r.addrs]
    · simp [m', r.size, hlen]
  refine ⟨new, h', m', ?_, e, r', hlen⟩
  have hafter := r'.contentSizeChecked
  simp only [m'] at hafter
  simp only [Marshal.setBookmark, hcnt, ne_eq, not_true_eq_false, if_false, hloop,
    Option.bind_eq_bind, Option.bind_some]
  rw [hcnt] at hafter
  simp only [hafter, Option.bind_some]
  simp only [m', hcnt]
  rfl

end Marshal.Reads

/-- Distinct addresses take the bytes in order, and no other address changes. -/
theorem writeBookmark_eq (h : Heap) {bm : List Addr} {p : List Byte} (hnd : bm.Nodup)
    (hlen : p.length = bm.length) :
    (h.writeBookmark bm p).next = h.next ∧ (h.writeBookmark bm p).size = h.size ∧
      bm.map (h.writeBookmark bm p).ptr = p ∧
      ∀ a ∉ bm, (h.writeBookmark bm p).ptr a = h.ptr a := by
  induction bm generalizing h p with
  | nil =>
    have hp : p = [] := List.length_eq_zero_iff.mp hlen
    subst hp
    exact ⟨rfl, rfl, rfl, fun _ _ => rfl⟩
  | cons a as ih =>
    obtain ⟨b, p, rfl⟩ : ∃ b q, p = b :: q := by
      cases p with
      | nil => simp at hlen
      | cons b q => exact ⟨b, q, rfl⟩
    obtain ⟨ha, hnd⟩ := List.nodup_cons.mp hnd
    obtain ⟨hn, hsz, hm, hk⟩ := ih { h with ptr := Function.update h.ptr a b } hnd
      (by simpa using hlen)
    refine ⟨hn, hsz, ?_, ?_⟩
    · have hhead : (h.writeBookmark (a :: as) (b :: p)).ptr a = b :=
        (hk a ha).trans (Function.update_self _ _ _)
      rw [List.map_cons, hhead]
      exact congrArg (b :: ·) hm
    · intro x hx
      rw [List.mem_cons, not_or] at hx
      exact (hk x hx.2).trans (Function.update_of_ne hx.1 _ _)

/-- What a call does to the stream, and the bytes it returns. The bytes of a new bookmark are
whatever the buffer held. -/
inductive StreamStep : Stream Byte → Op → List Byte → Stream Byte → Prop
  | write (s : Stream Byte) (p : List Byte) : StreamStep s (.write p) [] (s.append p)
  | read (s : Stream Byte) (n : Nat) : StreamStep s (.read n) (s.unread.take n) (s.advance n)
  | peek (s : Stream Byte) (n : Nat) : StreamStep s (.peek n) (s.unread.take n) s
  | setBookmark (s : Stream Byte) (n : Nat) (old : List Byte) (hold : old.length = n) :
    StreamStep s (.setBookmark n) [] (s.reserve old)
  | writeBookmark (s : Stream Byte) (i : Nat) (p : List Byte) (r : Nat × Nat)
    (hr : s.reserved[i]? = some r) (hp : p.length = r.2) :
    StreamStep s (.writeBookmark i p) [] (s.fill r p)
  | getAndResetWriteCnt (s : Stream Byte) : StreamStep s .getAndResetWriteCnt [] s
  | chop (s : Stream Byte) (n : Nat) (hn : n ≤ s.unread.length) :
    StreamStep s (.chop n) [] (s.chop n)
  | readDest (s : Stream Byte) (i n : Nat) (v : Nat × Nat) (hv : s.slices[i]? = some v) :
    StreamStep s (.readDest i n) ((s.slice v).take n) (s.advanceSlice i v n)
  | peekDest (s : Stream Byte) (i n : Nat) (v : Nat × Nat) (hv : s.slices[i]? = some v) :
    StreamStep s (.peekDest i n) ((s.slice v).take n) s

inductive StreamRun : Stream Byte → List Op → List (List Byte) → Stream Byte → Prop
  | nil (s : Stream Byte) : StreamRun s [] [] s
  | cons {s t u : Stream Byte} {op : Op} {out : List Byte} {ops : List Op} {outs : List (List Byte)}
    (hstep : StreamStep s op out t) (hrun : StreamRun t ops outs u) :
    StreamRun s (op :: ops) (out :: outs) u

/-- The bytes of the stream lie at the addresses `A`, and each marshal reads its part of them. -/
structure Refines (A : List Addr) (w : World) (s : Stream Byte) : Prop where
  located : Located A w.heap.ptr s
  source : w.source.Reads w.heap (A.drop s.pos)
  dests : List.Forall₂ (fun m v => v.2 ≤ A.length ∧ m.Reads w.heap ((A.take v.2).drop v.1))
    w.dests s.slices
  bookmarks : List.Forall₂ (fun bm r => r.1 + r.2 ≤ A.length ∧ bm = (A.drop r.1).take r.2)
    w.bookmarks s.reserved
  settled : ∀ a ∈ A, ¬ Beyond w.heap w.source.chunks a

theorem forall₂_getElem? {α β : Type} {R : α → β → Prop} {l : List α} {l' : List β}
    (h : List.Forall₂ R l l') {i : Nat} {a : α} (ha : l[i]? = some a) :
    ∃ b, l'[i]? = some b ∧ R a b := by
  induction h generalizing i with
  | nil => simp at ha
  | cons hab _ ih =>
    cases i with
    | zero =>
      have he := Option.some.inj ha
      subst he
      exact ⟨_, rfl, hab⟩
    | succ i => exact ih ha

theorem forall₂_set {α β : Type} {R : α → β → Prop} {l : List α} {l' : List β}
    (h : List.Forall₂ R l l') (i : Nat) {a : α} {b : β} (hab : R a b) :
    List.Forall₂ R (l.set i a) (l'.set i b) := by
  induction h generalizing i with
  | nil => exact .nil
  | cons hxy htl ih =>
    cases i with
    | zero => exact .cons hab htl
    | succ i => exact .cons hxy (ih i)

namespace Refines

variable {A new : List Addr} {w : World} {s : Stream Byte}

theorem init (heap : Heap) : Refines [] { heap } {} where
  located := Located.empty _
  source := Marshal.Reads.empty heap
  dests := .nil
  bookmarks := .nil
  settled := by simp

theorem grow (r : Refines A w s) {h' : Heap} {m' : Marshal}
    (e : Extends w.heap w.source.chunks h' m'.chunks new)
    (hr : m'.Reads h' (A.drop s.pos ++ new)) :
    Refines (A ++ new) { w with heap := h', source := m' } (s.append (new.map h'.ptr)) := by
  have hdis : A.Disjoint new := by
    intro a ha hnew
    exact r.settled a ha (e.beyond a hnew)
  refine ⟨r.located.append e.nodup hdis e.kept, ?_, ?_, ?_, ?_⟩
  · have hpos := r.located.pos
    show m'.Reads h' ((A ++ new).drop s.pos)
    rw [List.drop_append_of_le_length hpos]
    exact hr
  · refine r.dests.imp ?_
    rintro m v ⟨hv, hm⟩
    refine ⟨?_, ?_⟩
    · rw [List.length_append]
      omega
    · rw [List.take_append_of_le_length hv]
      exact hm.mono e.next e.size
  · refine r.bookmarks.imp ?_
    rintro bm v ⟨hv, hbm⟩
    refine ⟨?_, ?_⟩
    · rw [List.length_append]
      omega
    · rw [hbm, List.drop_append_of_le_length (by omega),
        List.take_append_of_le_length (by rw [List.length_drop]; omega)]
  · intro a ha hb
    rcases List.mem_append.mp ha with ha | ha
    · exact r.settled a ha (e.back a hb)
    · exact e.settled a ha hb

theorem shrink (r : Refines A w s) {m' : Marshal} (n : Nat)
    (hr : m'.Reads w.heap ((A.drop s.pos).drop n))
    (hback : ∀ a, Beyond w.heap m'.chunks a → Beyond w.heap w.source.chunks a) :
    Refines A { w with source := m' } (s.advance n) := by
  refine ⟨r.located.advance n, ?_, r.dests, r.bookmarks, fun a ha hb => r.settled a ha (hback a hb)⟩
  show m'.Reads w.heap (A.drop (s.advance n).pos)
  rw [drop_advance r.located]
  exact hr

def Simulated (w : World) (s : Stream Byte) (op : Op) : Prop :=
  ∃ A w' out s', w.exec op = some (w', out) ∧ StreamStep s op out s' ∧ Refines A w' s'

theorem exec_write (r : Refines A w s) {p : List Byte} (hp : p ≠ []) :
    Simulated w s (.write p) := by
  obtain ⟨h', m', new, hw, e, hr, hnew⟩ := r.source.write hp
  have hg := r.grow e hr
  rw [hnew] at hg
  exact ⟨_, _, [], _, by simp only [World.exec, hw]; rfl, .write s p, hg⟩

theorem exec_read (r : Refines A w s) (n : Nat) : Simulated w s (.read n) := by
  obtain ⟨m', hread, hr, hback⟩ := r.source.read n
  refine ⟨A, _, _, _, by simp only [World.exec, hread]; rfl, ?_, r.shrink n hr hback⟩
  rw [List.map_take, ← r.located.unread]
  exact .read s n

theorem exec_peek (r : Refines A w s) (n : Nat) : Simulated w s (.peek n) := by
  refine ⟨A, w, _, s, by simp only [World.exec, r.source.peek]; rfl, ?_, r⟩
  rw [List.map_take, ← r.located.unread]
  exact .peek s n

theorem exec_setBookmark (r : Refines A w s) (hcnt : w.source.writeCnt = 0) (n : Nat) :
    Simulated w s (.setBookmark n) := by
  obtain ⟨new, h', m', hset, e, hr, hlen⟩ := r.source.setBookmark hcnt n
  have hg := r.grow e hr
  have hitems := r.located.length
  refine ⟨A ++ new,
    { w with heap := h', source := m', bookmarks := w.bookmarks ++ [new] }, [],
    s.reserve (new.map h'.ptr), by simp only [World.exec, hset]; rfl,
    .setBookmark s n _ (by simp [hlen]),
    ⟨hg.located.nodup, hg.located.items, hg.located.pos⟩, hg.source, hg.dests, ?_, hg.settled⟩
  refine List.rel_append hg.bookmarks (.cons ⟨?_, ?_⟩ .nil)
  · simp [hitems]
  · simp [hitems]

theorem exec_writeBookmark (r : Refines A w s) {i : Nat} {p : List Byte} {bm : List Addr}
    (hbm : w.bookmarks[i]? = some bm) (hp : p.length = bm.length)
    (hlive : (bm.all fun a => w.referenced a.1) = true) : Simulated w s (.writeBookmark i p) := by
  obtain ⟨v, hv, hle, hslice⟩ := forall₂_getElem? r.bookmarks hbm
  have hnd : bm.Nodup := by
    rw [hslice]
    exact (r.located.nodup.sublist (List.drop_sublist _ _)).sublist (List.take_sublist _ _)
  obtain ⟨hn, hsz, hptr, hkept⟩ := writeBookmark_eq w.heap hnd hp
  have hmono : ∀ m as, Marshal.Reads w.heap m as →
      Marshal.Reads (w.heap.writeBookmark bm p) m as := by
    intro m as hr
    exact hr.mono (Nat.le_of_eq hn.symm) (fun d _ => by rw [hsz])
  have hfill := r.located.fill v (w.heap.writeBookmark bm p).ptr (by rwa [← hslice])
  rw [← hslice, hptr] at hfill
  have hlen : bm.length = v.2 := by
    rw [hslice, List.length_take, List.length_drop]
    omega
  refine ⟨A, { w with heap := w.heap.writeBookmark bm p }, [], s.fill v p, ?_,
    .writeBookmark s i p v hv (hp.trans hlen), hfill, hmono _ _ r.source,
    r.dests.imp (fun m u hm => ⟨hm.1, hmono _ _ hm.2⟩), r.bookmarks, ?_⟩
  · simp only [World.exec, hbm, Option.bind_eq_bind, Option.bind_some, hp, hlive, and_self, if_true]
    rfl
  · intro a ha hb
    refine r.settled a ha ?_
    rcases hb with hb | hb
    · exact .inl (hn ▸ hb)
    · exact .inr hb

theorem exec_chop (r : Refines A w s) {n : Nat} (hn : n ≤ w.source.contentSize) :
    Simulated w s (.chop n) := by
  rw [r.source.size] at hn
  obtain ⟨dest, m', hchop, hd, hr, hback⟩ := r.source.readFromMarshal hn
  have hle : s.pos + n ≤ A.length := by
    have := r.located.pos
    rw [List.length_drop] at hn
    omega
  have hunread : n ≤ s.unread.length := by
    rw [r.located.unread, List.length_map]
    exact hn
  refine ⟨A, { w with source := m', dests := w.dests ++ [dest] }, [], s.chop n,
    by simp only [World.exec, hchop]; rfl, .chop s n hunread,
    ⟨r.located.nodup, r.located.items, hle⟩, ?_, ?_, r.bookmarks,
    fun a ha hb => r.settled a ha (hback a hb)⟩
  · show m'.Reads w.heap (A.drop (s.pos + n))
    rw [← List.drop_drop]
    exact hr
  · refine List.rel_append r.dests (.cons ⟨hle, ?_⟩ .nil)
    show dest.Reads w.heap ((A.take (s.pos + n)).drop s.pos)
    rw [← List.take_drop]
    exact hd

theorem exec_readDest (r : Refines A w s) {i : Nat} (hi : i < w.dests.length) (n : Nat) :
    Simulated w s (.readDest i n) := by
  obtain ⟨m, hm⟩ : ∃ m, w.dests[i]? = some m := ⟨_, List.getElem?_eq_getElem hi⟩
  obtain ⟨v, hv, hle, hr⟩ := forall₂_getElem? r.dests hm
  obtain ⟨m', hread, hr', -⟩ := hr.read n
  refine ⟨A, { w with dests := w.dests.set i m' },
    (((A.take v.2).drop v.1).take n).map w.heap.ptr, s.advanceSlice i v n, ?_, ?_,
    ⟨r.located.nodup, r.located.items, r.located.pos⟩, r.source,
    forall₂_set r.dests i ⟨hle, ?_⟩, r.bookmarks, r.settled⟩
  · simp only [World.exec, hm, Option.bind_eq_bind, Option.bind_some, hread]
    rfl
  · rw [List.map_take, ← r.located.slice]
    exact .readDest s i n v hv
  · show m'.Reads w.heap ((A.take v.2).drop (min (v.1 + n) v.2))
    rw [drop_advanceSlice]
    exact hr'

theorem exec_peekDest (r : Refines A w s) {i : Nat} (hi : i < w.dests.length) (n : Nat) :
    Simulated w s (.peekDest i n) := by
  obtain ⟨m, hm⟩ : ∃ m, w.dests[i]? = some m := ⟨_, List.getElem?_eq_getElem hi⟩
  obtain ⟨v, hv, hle, hr⟩ := forall₂_getElem? r.dests hm
  refine ⟨A, w, (((A.take v.2).drop v.1).take n).map w.heap.ptr, s, ?_, ?_, r⟩
  · simp only [World.exec, hm, Option.bind_eq_bind, Option.bind_some, hr.peek n]
    rfl
  · rw [List.map_take, ← r.located.slice]
    exact .peekDest s i n v hv

end Refines

/-- What the callers of a marshal see to: sizes are positive, a bookmark is set only after the write
counter was reset and written to only while its buffers live, and no more is chopped off than is
there. -/
def World.legal (w : World) : Op → Bool
  | .write p => !p.isEmpty
  | .read n => 0 < n
  | .peek n => 0 < n
  | .setBookmark n => 0 < n && w.source.writeCnt == 0
  | .writeBookmark i p =>
    match w.bookmarks[i]? with
    | some bm => p.length == bm.length && bm.all fun a => w.referenced a.1
    | none => false
  | .getAndResetWriteCnt => true
  | .chop n => 0 < n && n ≤ w.source.contentSize
  | .readDest i n => 0 < n && i < w.dests.length
  | .peekDest i n => 0 < n && i < w.dests.length

def World.legalRun (w : World) : List Op → Bool
  | [] => true
  | op :: ops =>
    w.legal op &&
      match w.exec op with
      | some (w', _) => legalRun w' ops
      | none => true

theorem Refines.exec {A : List Addr} {w : World} {s : Stream Byte} (r : Refines A w s) {op : Op}
    (hl : w.legal op = true) : Simulated w s op := by
  cases op with
  | write p => exact r.exec_write (by simpa [World.legal] using hl)
  | read n => exact r.exec_read n
  | peek n => exact r.exec_peek n
  | setBookmark n =>
    simp only [World.legal, Bool.and_eq_true, beq_iff_eq] at hl
    exact r.exec_setBookmark hl.2 n
  | writeBookmark i p =>
    simp only [World.legal] at hl
    cases hbm : w.bookmarks[i]? with
    | none => simp [hbm] at hl
    | some bm =>
      simp only [hbm, Bool.and_eq_true, beq_iff_eq] at hl
      exact r.exec_writeBookmark hbm hl.1 hl.2
  | getAndResetWriteCnt =>
    exact ⟨A, _, _, s, rfl, .getAndResetWriteCnt s, r.located,
      ⟨r.source.shape, r.source.addrs, r.source.size⟩, r.dests, r.bookmarks, r.settled⟩
  | chop n =>
    simp only [World.legal, Bool.and_eq_true, decide_eq_true_eq] at hl
    exact r.exec_chop hl.2
  | readDest i n =>
    simp only [World.legal, Bool.and_eq_true, decide_eq_true_eq] at hl
    exact r.exec_readDest hl.2 n
  | peekDest i n =>
    simp only [World.legal, Bool.and_eq_true, decide_eq_true_eq] at hl
    exact r.exec_peekDest hl.2 n

theorem Refines.run {A : List Addr} {w : World} {s : Stream Byte} (r : Refines A w s)
    {ops : List Op} (hl : w.legalRun ops = true) :
    ∃ A' w' outs s', w.run ops = some (w', outs) ∧ StreamRun s ops outs s' ∧ Refines A' w' s' := by
  induction ops generalizing A w s with
  | nil => exact ⟨A, w, [], s, rfl, .nil s, r⟩
  | cons op ops ih =>
    simp only [World.legalRun, Bool.and_eq_true] at hl
    obtain ⟨A', w', out, s', he, hstep, r'⟩ := r.exec hl.1
    rw [he] at hl
    obtain ⟨A'', w'', outs, s'', hrun, hsteps, r''⟩ := ih r' hl.2
    refine ⟨A'', w'', out :: outs, s'', ?_, .cons hstep hsteps, r''⟩
    simp only [World.run, he, hrun, Option.bind_eq_bind, Option.bind_some]
    rfl

/-- Every marshal is a queue of bytes: no assertion fails, the calls return the bytes of the stream
in order, and the content sizes count the bytes not yet read. -/
theorem marshal_byte_queue (heap : Heap) (ops : List Op)
    (hl : World.legalRun { heap } ops = true) :
    ∃ w outs s, World.run { heap } ops = some (w, outs) ∧ StreamRun {} ops outs s ∧
      w.source.contentSize = s.unread.length ∧
      List.Forall₂ (fun m v => m.contentSize = (s.slice v).length) w.dests s.slices := by
  obtain ⟨A, w, outs, s, hrun, hsteps, r⟩ := (Refines.init heap).run hl
  refine ⟨w, outs, s, hrun, hsteps, ?_, ?_⟩
  · rw [r.source.size, r.located.unread, List.length_map]
  · refine r.dests.imp ?_
    rintro m v ⟨-, hm⟩
    rw [hm.size, r.located.slice, List.length_map]

/-- A packet with its length in front that begins in one chunk and ends in the next. What is before it is
chopped off, and then the length. -/
def packet : List Op :=
  [.write (List.replicate 8191 1), .getAndResetWriteCnt, .setBookmark 2, .write [7, 8, 9],
    .writeBookmark 0 [3, 0], .chop 8190, .peek 9, .chop 3, .read 9, .readDest 1 2, .peekDest 1 9]

theorem marshal_byte_queue_packet :
    World.legalRun { heap := ⟨0, fun _ => 0, fun _ => 5⟩ } packet = true ∧
    ∃ w outs s, World.run { heap := ⟨0, fun _ => 0, fun _ => 5⟩ } packet = some (w, outs) ∧
      outs = [[], [], [], [], [], [], [1, 3, 0, 7, 8, 9], [], [7, 8, 9], [1, 3], [0]] ∧
      StreamRun {} packet outs s ∧ w.source.contentSize = s.unread.length ∧
      List.Forall₂ (fun m v => m.contentSize = (s.slice v).length) w.dests s.slices := by
  have hl : World.legalRun { heap := ⟨0, fun _ => 0, fun _ => 5⟩ } packet = true := by
    decide +kernel
  obtain ⟨w, outs, s, hrun, hrest⟩ := marshal_byte_queue _ packet hl
  have houts : (World.run { heap := ⟨0, fun _ => 0, fun _ => 5⟩ } packet).map Prod.snd =
      some [[], [], [], [], [], [], [1, 3, 0, 7, 8, 9], [], [7, 8, 9], [1, 3], [0]] := by
    decide +kernel
  rw [hrun] at houts
  exact ⟨hl, w, outs, s, hrun, Option.some.inj houts, hrest⟩

theorem bookmarkLoop_room {h : Heap} {c : Chunk} (hc : c.Fits h) {n : Nat}
    (hn : c.writeIdx + n ≤ h.size c.data) :
    bookmarkLoop h [c] n = some ((List.range' c.writeIdx n).map (Prod.mk c.data), h,
      [{ c with writeIdx := c.writeIdx + n }]) := by
  induction n generalizing c with
  | zero => rfl
  | succ n ih =>
    have hlt : c.writeIdx < h.size c.data := by omega
    have hne : (c.writeIdx == h.size c.data) = false := by
      rw [beq_eq_false_iff_ne]
      omega
    have hc' : Chunk.Fits h { c with writeIdx := c.writeIdx + 1 } :=
      ⟨hc.1, hc.2.1.trans (Nat.le_succ _), hlt, hc.2.2.2⟩
    have hrec := ih hc' (by simp only; omega)
    rw [bookmarkLoop]
    simp only [List.getLast?_singleton, Chunk.fullyWritten_eq hc, hne, Option.bind_eq_bind,
      Option.bind_some, Chunk.setBookmark_eq hc hlt, List.dropLast_singleton, List.nil_append, hrec,
      List.range'_succ, List.map_cons]
    rw [Nat.add_right_comm]
    rfl

theorem setBookmark_buffer (h : Heap) {k : Nat} (hk : minSize = k + 1) :
    Marshal.setBookmark h {} (k + 1) = some ((List.range' 0 (k + 1)).map (Prod.mk h.next),
      (newChunk h []).1, { chunks := [⟨h.next, 0, k + 1⟩], contentSize := k + 1 }) := by
  have hsize : (newChunk h []).1.size h.next = k + 1 := by
    rw [← hk]
    exact Function.update_self _ _ _
  have hroom : 0 < (newChunk h []).1.size h.next := by omega
  have hfits : Chunk.Fits (newChunk h []).1 ⟨h.next, 0, 0⟩ :=
    ⟨Nat.lt_succ_self _, Nat.le_refl _, Nat.zero_le _, hroom⟩
  have hfits' : Chunk.Fits (newChunk h []).1 ⟨h.next, 0, 1⟩ :=
    ⟨Nat.lt_succ_self _, Nat.zero_le _, hroom, hroom⟩
  have hset := Chunk.setBookmark_eq hfits hroom
  have hrest := bookmarkLoop_room (n := k) hfits' (by simp only [hsize]; omega)
  have hloop : bookmarkLoop h [] (k + 1) = some ((List.range' 0 (k + 1)).map (Prod.mk h.next),
      (newChunk h []).1, [⟨h.next, 0, k + 1⟩]) := by
    rw [bookmarkLoop]
    simp only [List.getLast?_nil, Option.bind_eq_bind]
    rw [show (newChunk h []).2 = ⟨h.next, 0, 0⟩ from rfl, hset]
    simp only [Option.bind_some, hrest, List.range'_succ, List.map_cons, Nat.add_comm 1 k]
    rfl
  have hcs : Chunk.contentSize (newChunk h []).1 ⟨h.next, 0, k + 1⟩ = some (k + 1) := by
    simp [Chunk.contentSize, Chunk.asserted, hsize]
  simp [Marshal.setBookmark, hloop, Marshal.contentSizeChecked, contentSizeSlow, hcs]

/-- A bookmark that is written to after its buffer was read to the end, and so freed. -/
theorem bookmark_outlives_buffer (h : Heap) (p : List Byte) :
    World.run { heap := h } [.setBookmark minSize, .read minSize, .writeBookmark 0 p] = none := by
  obtain ⟨k, hk⟩ : ∃ k, minSize = k + 1 := ⟨8191, rfl⟩
  have hsize : (newChunk h []).1.size h.next = k + 1 := by
    rw [← hk]
    exact Function.update_self _ _ _
  have hcs : Chunk.contentSize (newChunk h []).1 ⟨h.next, 0, k + 1⟩ = some (k + 1) := by
    simp [Chunk.contentSize, Chunk.asserted, hsize]
  have hread : Marshal.read (newChunk h []).1
      { chunks := [⟨h.next, 0, k + 1⟩], contentSize := k + 1 } (k + 1) =
      some ((newChunk h []).1.load h.next 0 (k + 1), {}) := by
    simp [Marshal.read, Marshal.headAsserted, Marshal.contentSizeChecked, contentSizeSlow, hcs,
      readLoop, Chunk.read, Chunk.fullyRead, Chunk.asserted, hsize, Heap.load]
  have hall : ((List.range' 0 (k + 1)).map (Prod.mk h.next)).all
      (fun a => World.referenced
        { heap := (newChunk h []).1
          bookmarks := [(List.range' 0 (k + 1)).map (Prod.mk h.next)] } a.1) = false := by
    simp [World.referenced, List.range'_succ]
  rw [hk]
  simp only [World.run, World.exec, setBookmark_buffer h hk, Option.bind_eq_bind, Option.bind_some,
    Option.pure_def, hread, List.nil_append, List.getElem?_cons_zero, hall]
  simp

/-- Three of the calls check what they need: a bookmark after a write without a reset of the write
counter, a slice longer than the content, and a write to a bookmark in a freed buffer all fail. -/
theorem unchecked_calls_fail :
    (World.run { heap := ⟨0, fun _ => 0, fun _ => 0⟩ }
      [.write [1], .setBookmark 4]).isNone = true ∧
    (World.run { heap := ⟨0, fun _ => 0, fun _ => 0⟩ } [.write [1], .chop 2]).isNone = true ∧
    (World.run { heap := ⟨0, fun _ => 0, fun _ => 0⟩ }
      [.setBookmark minSize, .read minSize,
        .writeBookmark 0 (List.replicate minSize 1)]).isNone = true := by
  refine ⟨by decide +kernel, by decide +kernel, ?_⟩
  rw [bookmark_outlives_buffer]
  rfl

end Jetpack.Rpc
