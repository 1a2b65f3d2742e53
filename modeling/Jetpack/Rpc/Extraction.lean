import Jetpack.Rpc.Connection

/-! Packets come out of the byte stream whole and in order, as long as no size wraps around and every
packet starts with a whole xid. -/

namespace Jetpack.Rpc

open LittleEndian SparseInt

/-- The marshal has these addresses still to read, and will not write to them again. -/
structure Marshal.Keeps (h : Heap) (m : Marshal) (as : List Addr) : Prop where
  reads : m.Reads h as
  settled : ∀ a ∈ as, ¬ Beyond h m.chunks a

theorem Extends.refl {h : Heap} {cs : List Chunk} (hs : Shape h cs) : Extends h cs h cs [] := by
  refine ⟨Nat.le_refl _, fun _ _ => rfl, hs, (List.append_nil _).symm, List.nodup_nil, ?_, ?_,
    fun _ hb => hb, fun _ _ => rfl⟩
  · exact fun a ha => absurd ha List.not_mem_nil
  · exact fun a ha => absurd ha List.not_mem_nil

namespace Marshal.Keeps

variable {h h' : Heap} {m m' : Marshal} {as new : List Addr}

theorem empty (h : Heap) : Marshal.Keeps h {} [] :=
  ⟨Marshal.Reads.empty h, fun _ ha => absurd ha List.not_mem_nil⟩

theorem extends_keeps (k : m.Keeps h as) (e : Extends h m.chunks h' m'.chunks new)
    (r : m'.Reads h' (as ++ new)) : m'.Keeps h' (as ++ new) ∧ as.map h'.ptr = as.map h.ptr := by
  refine ⟨⟨r, fun a ha hb => ?_⟩, List.map_congr_left fun _ ha => e.kept _ fun hn => ?_⟩
  · rcases List.mem_append.mp ha with ha | ha
    · exact k.settled a ha (e.back a hb)
    · exact e.settled a ha hb
  · exact k.settled _ ha (e.beyond _ hn)

theorem drop (k : m.Keeps h as) {n : Nat} (r : m'.Reads h (as.drop n))
    (hback : ∀ a, Beyond h m'.chunks a → Beyond h m.chunks a) : m'.Keeps h (as.drop n) :=
  ⟨r, fun a ha hb => k.settled a (List.mem_of_mem_drop ha) (hback a hb)⟩

end Marshal.Keeps

/-! What a read from the socket brings. -/

theorem withRoom_extends {h : Heap} {cs : List Chunk} (hs : Shape h cs) :
    ∃ h' cs' t, Marshal.withRoom h cs = some (h', cs' ++ [t]) ∧ Extends h cs h' (cs' ++ [t]) [] ∧
      t.writeIdx < h'.size t.data := by
  have hroom : (newChunk h []).2.writeIdx < (newChunk h []).1.size (newChunk h []).2.data := by
    show 0 < Function.update h.size h.next (max 0 minSize) h.next
    simp [minSize]
  cases cs using List.reverseRecOn with
  | nil => exact ⟨_, [], _, rfl, extends_newChunk hs (by simp) [], hroom⟩
  | append_singleton cs t =>
    have ht := (shape_concat.mp hs).2
    by_cases hf : t.writeIdx = h.size t.data
    · refine ⟨_, cs ++ [t], _, ?_, extends_newChunk hs (full_of_tail hs hf) [], hroom⟩
      simp [Marshal.withRoom, Chunk.fullyWritten_eq ht, hf]
    · have hne : (t.writeIdx == h.size t.data) = false := by simpa using hf
      refine ⟨h, cs, t, ?_, Extends.refl hs, lt_of_le_of_ne ht.2.2.1 hf⟩
      simp [Marshal.withRoom, Chunk.fullyWritten_eq ht, hne]

theorem fdLoop_extends {h : Heap} {cs : List Chunk} (hs : Shape h cs) {fuel : Nat} {p : List Byte}
    (hfuel : p.length < fuel) :
    ∃ h' cs' new, Marshal.fdLoop h cs fuel p = some (h', cs') ∧ Extends h cs h' cs' new ∧
      new.map h'.ptr = p := by
  induction fuel generalizing h cs p with
  | zero => omega
  | succ fuel ih =>
    obtain ⟨h₁, cs₁, t, hroom, e₁, hlt⟩ := withRoom_extends hs
    rw [Marshal.fdLoop, hroom]
    simp only [Option.bind_eq_bind, Option.bind_some]
    by_cases hp : p = []
    · refine ⟨h₁, cs₁ ++ [t], [], ?_, e₁, by rw [hp]; rfl⟩
      rw [if_pos hp]
      rfl
    · rw [if_neg hp]
      have hpos := List.length_pos_iff.mpr hp
      obtain ⟨k, hk⟩ : ∃ k, k = min p.length (h₁.size t.data - t.writeIdx) := ⟨_, rfl⟩
      have hlen : (p.take k).length = k := by
        rw [List.length_take]
        omega
      have hwrite := Chunk.write_eq (shape_concat.mp e₁.shape).2 p
      rw [← hk] at hwrite
      have etail := @extends_tail h₁ (h₁.store t.data t.writeIdx (p.take k)) cs₁ t k e₁.shape
        (by omega) rfl rfl (fun a ha => store_kept _ _ _ _ (by rw [hlen]; exact ha))
      have hfirst := map_ptr_store h₁ t.data t.writeIdx (p.take k)
      rw [hlen] at hfirst
      have hshort : (p.drop k).length < fuel := by
        rw [List.length_drop]
        omega
      obtain ⟨h₂, cs₂, new, hloop, e₂, hnew⟩ := ih etail.shape hshort
      refine ⟨h₂, cs₂, _, ?_, e₁.trans (etail.trans e₂), ?_⟩
      · simp only [List.getLast?_append, List.getLast?_singleton, Option.some_or, Option.bind_some,
          hwrite, List.dropLast_concat, hloop]
      · rw [List.nil_append, List.map_append, hnew]
        refine Eq.trans (congrArg (· ++ p.drop k) ?_) (List.take_append_drop k p)
        rw [← hfirst]
        apply List.map_congr_left
        intro a ha
        exact e₂.kept a fun hn => etail.settled a ha (e₂.beyond a hn)

theorem Marshal.Keeps.readFromFd {h : Heap} {m : Marshal} {as : List Addr} (k : m.Keeps h as)
    (p : List Byte) : ∃ h' m' new, m.readFromFd h p = some (h', m') ∧ m'.Keeps h' (as ++ new) ∧
      (as ++ new).map h'.ptr = as.map h.ptr ++ p ∧ Extends h m.chunks h' m'.chunks new := by
  obtain ⟨h', cs', new, hloop, e, hnew⟩ := fdLoop_extends k.reads.shape (Nat.lt_succ_self p.length)
  let m' : Marshal :=
    { chunks := cs'
      writeCnt := m.writeCnt + BitVec.ofNat 32 p.length
      contentSize := m.contentSize + p.length }
  have r' : m'.Reads h' (as ++ new) := by
    refine ⟨e.shape, ?_, ?_⟩
    · rw [e.addrs, k.reads.addrs]
    · show m.contentSize + p.length = _
      rw [List.length_append, k.reads.size, ← hnew, List.length_map]
  obtain ⟨k', hold⟩ := @Marshal.Keeps.extends_keeps h h' m m' as new k e r'
  refine ⟨h', m', new, ?_, k', ?_, e⟩
  · have hsize := r'.contentSizeChecked
    have hhead := r'.headAsserted
    simp only [m'] at hsize hhead
    simp only [Marshal.readFromFd, k.reads.headAsserted, hloop, hsize, hhead, Option.bind_eq_bind,
      Option.bind_some]
    rfl
  · rw [List.map_append, hold, hnew]

/-! The extraction of packets. -/

theorem Marshal.Reads.readI32 {h : Heap} {m : Marshal} {as : List Addr} (r : m.Reads h as)
    (hlen : 4 ≤ as.length) : ∃ m', m.readI32 h = some (packetSize (as.map h.ptr), m') ∧
      m'.Reads h (as.drop 4) ∧ ∀ a, Beyond h m'.chunks a → Beyond h m.chunks a := by
  obtain ⟨m', hread, r', hback⟩ := r.read 4
  refine ⟨m', ?_, r', hback⟩
  have hfull : ¬ ((as.map h.ptr).take 4).length ≠ 4 := by
    rw [List.length_take, List.length_map]
    omega
  simp only [Marshal.readI32, hread, Option.bind_eq_bind, Option.bind_some, packetSize,
    List.map_take, if_neg hfull]
  rfl

def xidOf (stale : Nat → Byte) (body : List Byte) : Int :=
  let bsize := bufSize (body.getD 0 0)
  (loadI64 (body.take bsize ++ (List.range' bsize (9 - bsize)).map stale)).getD 0

def argsOf (body : List Byte) : List Byte := body.drop (bufSize (body.getD 0 0))

theorem bufSize_le (b : Byte) : 1 ≤ bufSize b ∧ bufSize b ≤ 9 := by
  unfold bufSize
  split_ifs <;> omega

/-- A buffer of nine bytes is long enough for every first byte. -/
theorem loadI64_full {buf : List Byte} (hlen : buf.length = 9) :
    loadI64 buf = some ((loadI64 buf).getD 0) := by
  cases buf with
  | nil => cases hlen
  | cons b buf =>
    have hlong : ¬ (b :: buf).length ≤ 8 := by omega
    unfold loadI64 load
    simp only [List.getElem?_cons_zero, Option.bind_eq_bind, Option.bind_some]
    by_cases hshort : bufSize b < 8
    · have hfits : ¬ (b :: buf).length < bufSize b := by omega
      rw [if_pos hshort, if_neg hfits]
      split_ifs
      · rfl
      · rfl
    · rw [if_neg hshort, if_neg hlong]
      rfl

theorem Marshal.Reads.readV64 {h : Heap} {m : Marshal} {as : List Addr} (r : m.Reads h as)
    (stale : Nat → Byte) :
    (¬ HasXid (as.map h.ptr) ∧ m.readV64 stale h = none) ∨
      HasXid (as.map h.ptr) ∧ ∃ m' as', m.readV64 stale h = some (xidOf stale (as.map h.ptr), m') ∧
        m'.Reads h as' ∧ as'.map h.ptr = argsOf (as.map h.ptr) := by
  cases as with
  | nil =>
    left
    refine ⟨?_, ?_⟩
    · rintro ⟨b, hb, -⟩
      cases hb
    · unfold Marshal.readV64
      rw [r.peek 1]
      rfl
  | cons a as =>
    obtain ⟨m', hread, r', -⟩ := r.read (bufSize (h.ptr a))
    obtain ⟨hpos, hnine⟩ := bufSize_le (h.ptr a)
    have hhas : HasXid ((a :: as).map h.ptr) ↔ bufSize (h.ptr a) ≤ (a :: as).length := by
      simp [HasXid]
    have hstep : m.readV64 stale h =
        if (((a :: as).take (bufSize (h.ptr a))).map h.ptr).length ≠ bufSize (h.ptr a) then none
        else (loadI64 (((a :: as).take (bufSize (h.ptr a))).map h.ptr ++
          (List.range' (bufSize (h.ptr a)) (9 - bufSize (h.ptr a))).map stale)).map
            fun val => (val, m') := by
      unfold Marshal.readV64
      rw [r.peek 1]
      simp only [List.take_succ_cons, List.take_zero, List.map_cons, List.map_nil,
        List.getElem?_cons_zero, Option.bind_eq_bind, Option.bind_some, hread]
      split_ifs
      · rfl
      · rw [Option.map_eq_bind]
        rfl
    by_cases hlen : bufSize (h.ptr a) ≤ (a :: as).length
    · right
      have htake : (((a :: as).take (bufSize (h.ptr a))).map h.ptr).length = bufSize (h.ptr a) := by
        rw [List.length_map, List.length_take]
        omega
      have hbuf : (((a :: as).take (bufSize (h.ptr a))).map h.ptr ++
          (List.range' (bufSize (h.ptr a)) (9 - bufSize (h.ptr a))).map stale).length = 9 := by
        rw [List.length_append, htake, List.length_map, List.length_range']
        omega
      refine ⟨hhas.mpr hlen, m', _, ?_, r', ?_⟩
      · rw [hstep, if_neg (not_not.mpr htake), loadI64_full hbuf, List.map_take]
        rfl
      · rw [List.map_drop]
        rfl
    · left
      refine ⟨mt hhas.mp hlen, ?_⟩
      rw [hstep, if_pos]
      rw [List.length_map, List.length_take]
      omega

/-- The request has the packet's xid, and the bytes after it still to read. -/
def Request.Carries (h : Heap) (stale : Nat → Byte) (req : Request) (body : List Byte) : Prop :=
  req.xid = xidOf stale body ∧ ∃ as, req.m.Reads h as ∧ as.map h.ptr = argsOf body

namespace ServerConnection

/-- The pass stops at an incomplete packet, fails at a size that wraps around or a packet without an
xid, and takes any other packet off the front. -/
theorem extractOne_spec {h : Heap} {m : Marshal} {as : List Addr} (k : m.Keeps h as)
    (stale : Nat → Byte) :
    (nextPacket (as.map h.ptr) = none ∧ ¬ Wraps (as.map h.ptr) ∧
      extractOne stale h m = some none) ∨
    (nextPacket (as.map h.ptr) = none ∧ Wraps (as.map h.ptr) ∧ extractOne stale h m = none) ∨
    ∃ body rest, nextPacket (as.map h.ptr) = some (body, rest) ∧
      ((¬ HasXid body ∧ extractOne stale h m = none) ∨
        HasXid body ∧ ∃ req m' as', extractOne stale h m = some (some (req, h, m')) ∧
          req.Carries h stale body ∧ m'.Keeps h as' ∧ as'.map h.ptr = rest) := by
  have hpeek := k.reads.peek 4
  have hlen : (as.map h.ptr).length = as.length := List.length_map _
  have hpeeked : (((as.take 4).map h.ptr).length = 4) ↔ 4 ≤ as.length := by
    rw [List.length_map, List.length_take]
    omega
  have hsize : ofSigned 4 ((as.take 4).map h.ptr) = packetSize (as.map h.ptr) := by
    rw [packetSize, List.map_take]
  have hstep : extractOne stale h m =
      if 4 ≤ as.length ∧ (sizeT (packetSize (as.map h.ptr)) + 4) % 2 ^ 64 ≤ as.length then do
        let size ← m.readI32 h
        let body ← Marshal.readFromMarshal h {} size.2 (sizeT size.1)
        let xid ← body.2.1.readV64 stale body.1
        return some ({ m := xid.2, xid := xid.1 }, body.1, body.2.2)
      else some none := by
    unfold extractOne
    simp only [hpeek, k.reads.contentSizeChecked, Option.bind_eq_bind, Option.bind_some, hsize,
      hpeeked]
    rfl
  have hmod := Nat.mod_le (sizeT (packetSize (as.map h.ptr)) + 4) (2 ^ 64)
  rw [hstep]
  by_cases htest : 4 ≤ as.length ∧ (sizeT (packetSize (as.map h.ptr)) + 4) % 2 ^ 64 ≤ as.length
  · rw [if_pos htest]
    obtain ⟨m₁, hread, r₁, hback₁⟩ := k.reads.readI32 htest.1
    have k₁ := k.drop r₁ hback₁
    simp only [hread, Option.bind_eq_bind, Option.bind_some]
    right
    by_cases hfits : sizeT (packetSize (as.map h.ptr)) ≤ (as.drop 4).length
    · right
      obtain ⟨dest, m₂, hslice, rdest, r₂, hback₂⟩ := k₁.reads.readFromMarshal hfits
      rw [List.length_drop] at hfits
      refine ⟨_, _, if_pos (by rw [hlen]; omega), ?_⟩
      have hbody : ((as.drop 4).take (sizeT (packetSize (as.map h.ptr)))).map h.ptr =
          ((as.map h.ptr).drop 4).take (sizeT (packetSize (as.map h.ptr))) := by
        rw [List.map_take, List.map_drop]
      simp only [hslice, Option.bind_some]
      rw [← hbody]
      rcases rdest.readV64 stale with ⟨hno, hnone⟩ | ⟨hxid, m', as', hsome, r', hargs⟩
      · left
        rw [hnone]
        exact ⟨hno, rfl⟩
      · right
        rw [hsome]
        refine ⟨hxid, _, m₂, _, rfl, ⟨rfl, as', r', hargs⟩, k₁.drop r₂ hback₂, ?_⟩
        rw [List.map_drop, List.map_drop]
    · left
      have hfail : Marshal.readFromMarshal h {} m₁ (sizeT (packetSize (as.map h.ptr))) = none := by
        simp only [Marshal.readFromMarshal, r₁.contentSizeChecked, Option.bind_eq_bind,
          Option.bind_some, if_pos (not_le.mp hfits)]
      rw [List.length_drop] at hfits
      refine ⟨if_neg (by rw [hlen]; omega), ⟨?_, ?_, ?_⟩, ?_⟩
      · rw [hlen]
        exact htest.1
      · rw [hlen]
        exact htest.2
      · rw [hlen]
        omega
      · rw [hfail]
        rfl
  · left
    refine ⟨if_neg ?_, ?_, if_neg htest⟩
    · rw [hlen]
      intro hle
      exact htest ⟨by omega, by omega⟩
    · rintro ⟨hfour, hwrap, -⟩
      rw [hlen] at hfour hwrap
      exact htest ⟨hfour, hwrap⟩

end ServerConnection

theorem nextPacket_some {bs body rest : List Byte} (h : nextPacket bs = some (body, rest)) :
    4 + sizeT (packetSize bs) ≤ bs.length ∧ body = (bs.drop 4).take (sizeT (packetSize bs)) ∧
      rest = (bs.drop 4).drop (sizeT (packetSize bs)) := by
  unfold nextPacket at h
  split_ifs at h with hle
  obtain ⟨rfl, rfl⟩ := Prod.mk.inj (Option.some.inj h)
  exact ⟨hle, rfl, rfl⟩

def packets : Framing Byte (List Byte) where
  next := nextPacket
  consumes bs body rest h := by
    obtain ⟨hle, -, rfl⟩ := nextPacket_some h
    rw [List.length_drop, List.length_drop]
    omega
  stable bs body rest more h := by
    obtain ⟨hle, rfl, rfl⟩ := nextPacket_some h
    have hsize : packetSize (bs ++ more) = packetSize bs := by
      rw [packetSize, packetSize, List.take_append_of_le_length (by omega)]
    have hfour : (bs ++ more).drop 4 = bs.drop 4 ++ more :=
      List.drop_append_of_le_length (by omega)
    have hlen : sizeT (packetSize bs) ≤ (bs.drop 4).length := by
      rw [List.length_drop]
      omega
    unfold nextPacket
    rw [hsize, hfour, if_pos (by rw [List.length_append]; omega),
      List.take_append_of_le_length hlen, List.drop_append_of_le_length hlen]

/-- What the code relies on in the bytes that it has: each complete packet starts with a whole xid,
and the size after the last one does not wrap around. -/
def Sound (bs : List Byte) : Prop :=
  (∀ body ∈ (packets.frames bs).1, HasXid body) ∧ ¬ Wraps (packets.frames bs).2

theorem sound_none {bs : List Byte} (h : nextPacket bs = none) : Sound bs ↔ ¬ Wraps bs := by
  have hframes : packets.frames bs = ([], bs) := Framing.frames_none h
  unfold Sound
  rw [hframes]
  simp

theorem sound_some {bs body rest : List Byte} (h : nextPacket bs = some (body, rest)) :
    Sound bs ↔ HasXid body ∧ Sound rest := by
  have hframes : packets.frames bs = (body :: (packets.frames rest).1, (packets.frames rest).2) :=
    Framing.frames_some h
  unfold Sound
  rw [hframes]
  simp only [List.forall_mem_cons]
  exact and_assoc

namespace ServerConnection

theorem extractLoop_spec {h : Heap} {m : Marshal} {as : List Addr} (k : m.Keeps h as)
    (stale : Nat → Byte) {fuel : Nat} (hfuel : as.length < fuel) (reqs : List Request) :
    (¬ Sound (as.map h.ptr) ∧ extractLoop stale fuel h m reqs = .error .check) ∨
    Sound (as.map h.ptr) ∧ ∃ m' as' new, extractLoop stale fuel h m reqs = .ok (h, m', reqs ++ new) ∧
      m'.Keeps h as' ∧ as'.map h.ptr = (packets.frames (as.map h.ptr)).2 ∧
      List.Forall₂ (Request.Carries h stale) new (packets.frames (as.map h.ptr)).1 := by
  induction fuel generalizing m as reqs with
  | zero => omega
  | succ fuel ih =>
    rcases extractOne_spec k stale with ⟨hnext, hwraps, hone⟩ | ⟨hnext, hwraps, hone⟩ |
      ⟨body, rest, hnext, hone⟩
    · -- no complete packet
      right
      have hframes : packets.frames (as.map h.ptr) = ([], as.map h.ptr) :=
        Framing.frames_none hnext
      rw [hframes]
      refine ⟨(sound_none hnext).mpr hwraps, m, as, [], ?_, k, rfl, .nil⟩
      rw [extractLoop, hone, List.append_nil]
      rfl
    · left
      refine ⟨fun hsound => (sound_none hnext).mp hsound hwraps, ?_⟩
      rw [extractLoop, hone]
      rfl
    · have hframes : packets.frames (as.map h.ptr) =
          (body :: (packets.frames rest).1, (packets.frames rest).2) :=
        Framing.frames_some hnext
      rcases hone with ⟨hxid, hone⟩ | ⟨hxid, req, m', as', hone, hreq, k', hrest⟩
      · left
        refine ⟨fun hsound => hxid ((sound_some hnext).mp hsound).1, ?_⟩
        rw [extractLoop, hone]
        rfl
      · have hshort : as'.length < fuel := by
          have hlt := packets.consumes _ _ _ hnext
          rw [← hrest, List.length_map, List.length_map] at hlt
          omega
        have hstep : extractLoop stale (fuel + 1) h m reqs =
            extractLoop stale fuel h m' (reqs ++ [req]) := by
          rw [extractLoop, hone]
          rfl
        rw [hstep, sound_some hnext, hframes]
        rcases ih k' hshort (reqs ++ [req]) with ⟨hbad, herror⟩ |
          ⟨hgood, m₂, as₂, new, hok, k₂, hleft, hall⟩
        · left
          rw [hrest] at hbad
          exact ⟨fun hsound => hbad hsound.2, herror⟩
        · right
          rw [hrest] at hgood hleft hall
          refine ⟨⟨hxid, hgood⟩, m₂, as₂, req :: new, ?_, k₂, hleft, .cons hreq hall⟩
          rw [hok, List.append_assoc]
          rfl

end ServerConnection

/-! The replies. -/

def replyBytes (xid errorCode : Int) (payload : List Byte) : List Byte :=
  let body := dumpI64 xid ++ dumpI32 errorCode ++ payload
  toBytes 4 (BitVec.ofNat 32 body.length).toInt ++ body

theorem dumpI64_ne_nil (val : Int) : dumpI64 val ≠ [] := by
  unfold dumpI64 dumpShort
  split_ifs
  all_goals simp

theorem dumpI32_ne_nil (val : Int) : dumpI32 val ≠ [] := by
  unfold dumpI32 dumpShort
  split_ifs
  all_goals simp

theorem Marshal.writeCnt_write {h h' : Heap} {m m' : Marshal} {p : List Byte}
    (hw : m.write h p = some (h', m')) : m'.writeCnt = m.writeCnt + BitVec.ofNat 32 p.length := by
  unfold Marshal.write at hw
  obtain ⟨⟨g, cs⟩, -, hrest⟩ := Option.bind_eq_some_iff.mp hw
  obtain ⟨-, rfl⟩ := Prod.mk.inj (Option.some.inj hrest)
  rfl

theorem Marshal.writeCnt_setBookmark {h h' : Heap} {m m' : Marshal} {n : Nat} {bm : List Addr}
    (hset : m.setBookmark h n = some (bm, h', m')) : m'.writeCnt = m.writeCnt := by
  unfold Marshal.setBookmark at hset
  split_ifs at hset
  obtain ⟨⟨as, g, cs⟩, -, hrest⟩ := Option.bind_eq_some_iff.mp hset
  obtain ⟨size, -, hrest⟩ := Option.bind_eq_some_iff.mp hrest
  obtain ⟨-, hrest⟩ := Prod.mk.inj (Option.some.inj hrest)
  obtain ⟨-, rfl⟩ := Prod.mk.inj hrest
  rfl

theorem Marshal.Keeps.write {h : Heap} {m : Marshal} {as : List Addr} (k : m.Keeps h as)
    {p : List Byte} (hp : p ≠ []) : ∃ h' m' new, m.write h p = some (h', m') ∧
      Extends h m.chunks h' m'.chunks new ∧ m'.Keeps h' (as ++ new) ∧
      as.map h'.ptr = as.map h.ptr ∧ new.map h'.ptr = p ∧
      m'.writeCnt = m.writeCnt + BitVec.ofNat 32 p.length := by
  obtain ⟨h', m', new, hw, e, r', hnew⟩ := k.reads.write hp
  obtain ⟨k', hold⟩ := k.extends_keeps e r'
  exact ⟨h', m', new, hw, e, k', hold, hnew, Marshal.writeCnt_write hw⟩

theorem Marshal.Keeps.writeBookmark {h : Heap} {m : Marshal} {as bm new : List Addr} {p : List Byte}
    (k : m.Keeps h (as ++ bm ++ new)) (hnodup : (bm ++ new).Nodup) (has : ∀ a ∈ as, a ∉ bm)
    (hlen : p.length = bm.length) : m.Keeps (h.writeBookmark bm p) (as ++ bm ++ new) ∧
      (as ++ bm ++ new).map (h.writeBookmark bm p).ptr = as.map h.ptr ++ p ++ new.map h.ptr := by
  obtain ⟨hbm, -, hdisjoint⟩ := List.nodup_append'.mp hnodup
  obtain ⟨hnext, hsize, hfill, hkept⟩ := writeBookmark_eq h hbm hlen
  refine ⟨⟨k.reads.mono hnext.ge fun d _ => by rw [hsize], fun a ha hb => k.settled a ha ?_⟩, ?_⟩
  · rcases hb with hb | hb
    · exact .inl (hnext ▸ hb)
    · exact .inr hb
  · rw [List.map_append, List.map_append, hfill]
    have hold : as.map (h.writeBookmark bm p).ptr = as.map h.ptr :=
      List.map_congr_left fun a ha => hkept a (has a ha)
    have hrest : new.map (h.writeBookmark bm p).ptr = new.map h.ptr :=
      List.map_congr_left fun a ha => hkept a fun hmem => hdisjoint hmem ha
    rw [hold, hrest]

namespace ServerConnection

/-- The connection is open, and has these bytes to send. -/
structure Sends (c : ServerConnection) (bytes : List Byte) : Prop where
  connected : c.connected = true
  counted : c.out_.writeCnt = 0
  out : ∃ as, c.out_.Keeps c.outHeap as ∧ as.map c.outHeap.ptr = bytes

theorem reply_spec {c : ServerConnection} {bytes : List Byte} (s : c.Sends bytes)
    (xid errorCode : Int) (payload : List Byte) :
    ∃ c', c.reply xid errorCode payload = some c' ∧ c'.Sends (bytes ++ replyBytes xid errorCode payload) ∧
      c' = { c with outHeap := c'.outHeap, out_ := c'.out_ } := by
  obtain ⟨hopen, hcnt, as, k, hbytes⟩ := s
  obtain ⟨bm, h₁, m₁, hset, e₁, r₁, hlen⟩ := k.reads.setBookmark hcnt 4
  obtain ⟨k₁, hold₁⟩ := k.extends_keeps e₁ r₁
  obtain ⟨h₂, m₂, x, hw₂, e₂, k₂, hold₂, hx, hcnt₂⟩ := k₁.write (dumpI64_ne_nil xid)
  obtain ⟨h₃, m₃, y, hw₃, e₃, k₃, hold₃, hy, hcnt₃⟩ := k₂.write (dumpI32_ne_nil errorCode)
  have hbegin : c.beginReply xid errorCode = some ({ c with outHeap := h₃, out_ := m₃ }, bm) := by
    simp only [beginReply, hopen, Bool.not_true, Bool.false_eq_true, if_false, hset, hw₂, hw₃,
      Option.bind_eq_bind, Option.bind_some]
    rfl
  have hput : ∃ h₄ m₄ z, put { c with outHeap := h₃, out_ := m₃ } payload =
      some { c with outHeap := h₄, out_ := m₄ } ∧ Extends h₃ m₃.chunks h₄ m₄.chunks z ∧
      m₄.Keeps h₄ (as ++ bm ++ x ++ y ++ z) ∧
      (as ++ bm ++ x ++ y).map h₄.ptr = (as ++ bm ++ x ++ y).map h₃.ptr ∧ z.map h₄.ptr = payload ∧
      m₄.writeCnt = m₃.writeCnt + BitVec.ofNat 32 payload.length := by
    by_cases hp : payload = []
    · refine ⟨h₃, m₃, [], ?_, Extends.refl k₃.reads.shape, ?_, rfl, hp.symm, ?_⟩
      · exact if_pos hp
      · rw [List.append_nil]
        exact k₃
      · rw [hp]
        simp
    · obtain ⟨h₄, m₄, z, hw₄, e₄, k₄, hold₄, hz, hcnt₄⟩ := k₃.write hp
      refine ⟨h₄, m₄, z, ?_, e₄, k₄, hold₄, hz, hcnt₄⟩
      simp only [put, if_neg hp, hw₄, Option.bind_eq_bind, Option.bind_some]
      rfl
  obtain ⟨h₄, m₄, z, hp, e₄, k₄, hold₄, hz, hcnt₄⟩ := hput
  have e := e₁.trans (e₂.trans (e₃.trans e₄))
  have hcount : m₄.writeCnt =
      BitVec.ofNat 32 (dumpI64 xid ++ dumpI32 errorCode ++ payload).length := by
    rw [hcnt₄, hcnt₃, hcnt₂, Marshal.writeCnt_setBookmark hset, hcnt]
    simp only [List.length_append, BitVec.ofNat_add]
    exact congrArg (· + _ + _) (BitVec.zero_add _)
  have hbody : (x ++ (y ++ z)).map h₄.ptr = dumpI64 xid ++ dumpI32 errorCode ++ payload := by
    have hx₄ : x.map h₄.ptr = dumpI64 xid := by
      rw [← hx]
      apply List.map_congr_left
      intro a ha
      rw [List.map_inj_left.mp hold₄ a (by simp [ha]), List.map_inj_left.mp hold₃ a (by simp [ha])]
    have hy₄ : y.map h₄.ptr = dumpI32 errorCode := by
      rw [← hy]
      apply List.map_congr_left
      intro a ha
      rw [List.map_inj_left.mp hold₄ a (by simp [ha])]
    rw [List.map_append, List.map_append, hx₄, hy₄, hz, List.append_assoc]
  have hold : as.map h₄.ptr = bytes := by
    rw [← hbytes]
    apply List.map_congr_left
    intro a ha
    exact e.kept a fun hmem => k.settled a ha (e.beyond a hmem)
  have hfresh : ∀ a ∈ as, a ∉ bm := fun a ha hmem => k.settled a ha (e₁.beyond a hmem)
  have k₄' : m₄.Keeps h₄ (as ++ bm ++ (x ++ (y ++ z))) := by
    simpa only [List.append_assoc] using k₄
  have hsize : (toBytes 4 m₄.writeCnt.toInt).length = bm.length := by
    rw [length_toBytes, hlen]
  obtain ⟨k₅, hfinal⟩ := k₄'.writeBookmark e.nodup hfresh hsize
  rw [hold, hbody, hcount] at hfinal
  refine ⟨{ c with
      outHeap := h₄.writeBookmark bm (toBytes 4 m₄.writeCnt.toInt)
      out_ := { m₄ with writeCnt := 0 } }, ?_, ⟨hopen, rfl, _, ⟨⟨k₅.reads.shape, k₅.reads.addrs,
    k₅.reads.size⟩, k₅.settled⟩, ?_⟩, rfl⟩
  · unfold reply
    simp only [hbegin, hp, Option.bind_eq_bind, Option.bind_some]
    unfold endReply
    simp only [hopen, Bool.not_true, Bool.false_eq_true, if_false]
    rfl
  · show List.map (h₄.writeBookmark bm (toBytes 4 m₄.writeCnt.toInt)).ptr _ = _
    rw [hcount, hfinal, List.append_assoc]
    rfl

end ServerConnection

def respond (handlers : Handlers) (stale : Nat → Byte) (body : List Byte) : Served × List Byte :=
  let xid := xidOf stale body
  let rest := argsOf body
  if rest.length < 4 then (.noRpcId xid, replyBytes xid EINVAL [])
  else
    let rpcId := ofSigned 4 (rest.take 4)
    match handlers rpcId with
    | some handler =>
      (.called xid rpcId (rest.drop 4),
        match handler xid (rest.drop 4) with
        | some (errorCode, payload) => replyBytes xid errorCode payload
        | none => [])
    | none => (.noHandler xid rpcId, replyBytes xid ENOENT [])

namespace ServerConnection

variable {handlers : Handlers} {stale : Nat → Byte}

theorem serve_spec {c : ServerConnection} {bytes body : List Byte} (s : c.Sends bytes)
    {req : Request} (hreq : req.Carries c.heap stale body) :
    ∃ c', c.serve handlers req = some c' ∧ c'.Sends (bytes ++ (respond handlers stale body).2) ∧
      c'.served = c.served ++ [(respond handlers stale body).1] ∧ c'.heap = c.heap ∧
      c'.in_ = c.in_ := by
  obtain ⟨hxid, as, r, hargs⟩ := hreq
  have hlen : (argsOf body).length = as.length := by
    rw [← hargs, List.length_map]
  unfold serve respond
  simp only [r.contentSizeChecked, Option.bind_eq_bind, Option.bind_some, hlen, hxid]
  by_cases hshort : as.length < 4
  · -- no rpc id
    obtain ⟨c', hreply, s', heq⟩ := reply_spec s (xidOf stale body) EINVAL []
    rw [if_pos hshort, if_pos hshort, hreply]
    refine ⟨_, rfl, ⟨s'.connected, s'.counted, s'.out⟩, ?_, ?_, ?_⟩
    all_goals rw [heq]
  · rw [if_neg hshort, if_neg hshort]
    obtain ⟨m, hread, r', -⟩ := r.readI32 (not_lt.mp hshort)
    have hrpc : packetSize (as.map c.heap.ptr) = ofSigned 4 ((argsOf body).take 4) := by
      rw [packetSize, hargs]
    rw [hrpc] at hread
    simp only [hread, Option.bind_some]
    cases hhandler : handlers (ofSigned 4 ((argsOf body).take 4)) with
    | none =>
      obtain ⟨c', hreply, s', heq⟩ := reply_spec s (xidOf stale body) ENOENT []
      dsimp only
      rw [hreply]
      refine ⟨_, rfl, ⟨s'.connected, s'.counted, s'.out⟩, ?_, ?_, ?_⟩
      all_goals rw [heq]
    | some handler =>
      have hrest : m.peek c.heap m.contentSize = some ((argsOf body).drop 4) := by
        rw [r'.peek, r'.size, List.take_length, List.map_drop, hargs]
      have hopen : (!c.connected) = false := by rw [s.connected, Bool.not_true]
      dsimp only
      simp only [hopen, Bool.false_eq_true, if_false, hrest, Option.bind_some]
      have s₁ : Sends { c with
          served := c.served ++ [.called (xidOf stale body) (ofSigned 4 ((argsOf body).take 4))
            ((argsOf body).drop 4)] } bytes := ⟨s.connected, s.counted, s.out⟩
      cases hcall : handler (xidOf stale body) ((argsOf body).drop 4) with
      | none =>
        refine ⟨_, rfl, ?_, rfl, rfl, rfl⟩
        rw [List.append_nil]
        exact s₁
      | some sent =>
        obtain ⟨errorCode, payload⟩ := sent
        dsimp only
        obtain ⟨c', hreply, s', heq⟩ := reply_spec s₁ (xidOf stale body) errorCode payload
        refine ⟨c', hreply, s', ?_, ?_, ?_⟩
        all_goals rw [heq]

theorem serveAll_spec {c : ServerConnection} {bytes : List Byte} (s : c.Sends bytes)
    {reqs : List Request} {bodies : List (List Byte)}
    (hall : List.Forall₂ (Request.Carries c.heap stale) reqs bodies) :
    ∃ c', c.serveAll handlers reqs = some c' ∧
      c'.Sends (bytes ++ bodies.flatMap fun body => (respond handlers stale body).2) ∧
      c'.served = c.served ++ bodies.map (fun body => (respond handlers stale body).1) ∧
      c'.heap = c.heap ∧ c'.in_ = c.in_ := by
  induction reqs generalizing c bytes bodies with
  | nil =>
    cases hall
    refine ⟨c, rfl, ?_, (List.append_nil _).symm, rfl, rfl⟩
    rw [List.flatMap_nil, List.append_nil]
    exact s
  | cons req reqs ih =>
    cases hall with
    | cons hreq hrest =>
      obtain ⟨c₁, hserve, s₁, hserved₁, hheap₁, hin₁⟩ := @serve_spec handlers stale c bytes _ s req hreq
      rw [← hheap₁] at hrest
      obtain ⟨c₂, hserve₂, s₂, hserved₂, hheap₂, hin₂⟩ := ih s₁ hrest
      refine ⟨c₂, ?_, ?_, ?_, hheap₂.trans hheap₁, hin₂.trans hin₁⟩
      · rw [serveAll, hserve]
        exact hserve₂
      · rw [List.flatMap_cons, ← List.append_assoc]
        exact s₂
      · rw [hserved₂, hserved₁, List.append_assoc]
        rfl

/-- The connection has these bytes still to cut into packets, and has served these packets. -/
structure Holds (handlers : Handlers) (stale : Nat → Byte) (c : ServerConnection)
    (left : List Byte) (bodies : List (List Byte)) : Prop where
  sends : c.Sends (bodies.flatMap fun body => (respond handlers stale body).2)
  served : c.served = bodies.map fun body => (respond handlers stale body).1
  pending : ∃ as, c.in_.Keeps c.heap as ∧ as.map c.heap.ptr = left

def Silent (block : List Byte) : Prop := block.length % 2 ^ 32 = 0

instance (block : List Byte) : Decidable (Silent block) :=
  inferInstanceAs (Decidable (block.length % 2 ^ 32 = 0))

theorem handleRead_spec {c : ServerConnection} {left : List Byte} {bodies : List (List Byte)}
    (hc : c.Holds handlers stale left bodies) (block : List Byte) :
    (Silent block ∧ ∃ c', c.handleRead handlers stale block = .ok c' ∧
      c'.Holds handlers stale (left ++ block) bodies) ∨
    (¬ Silent block ∧ ¬ Sound (left ++ block) ∧
      c.handleRead handlers stale block = .error .check) ∨
    (¬ Silent block ∧ Sound (left ++ block) ∧ ∃ c', c.handleRead handlers stale block = .ok c' ∧
      c'.Holds handlers stale (packets.frames (left ++ block)).2
        (bodies ++ (packets.frames (left ++ block)).1)) := by
  obtain ⟨s, hserved, as, k, hleft⟩ := hc
  obtain ⟨h₁, m₁, new, hread, k₁, hbytes, -⟩ := k.readFromFd block
  rw [hleft] at hbytes
  have hstep : c.handleRead handlers stale block =
      if Silent block then .ok { c with heap := h₁, in_ := m₁ }
      else (extractLoop stale (m₁.contentSize + 1) h₁ m₁ [] >>= fun r =>
        verify (serveAll handlers { c with heap := r.1, in_ := r.2.1 } r.2.2)) := by
    have hopen : (!c.connected) = false := by rw [s.connected, Bool.not_true]
    unfold handleRead
    rw [hread, hopen]
    rfl
  rw [hstep]
  by_cases hsilent : Silent block
  · left
    rw [if_pos hsilent]
    exact ⟨hsilent, _, rfl, ⟨s.connected, s.counted, s.out⟩, hserved, as ++ new, k₁, hbytes⟩
  · right
    rw [if_neg hsilent]
    have hfuel : (as ++ new).length < m₁.contentSize + 1 := by
      rw [k₁.reads.size]
      omega
    rcases extractLoop_spec k₁ stale hfuel [] with ⟨hbad, herror⟩ |
      ⟨hsound, m₂, as₂, reqs, hok, k₂, hrest, hall⟩
    · left
      rw [hbytes] at hbad
      refine ⟨hsilent, hbad, ?_⟩
      rw [herror]
      rfl
    · right
      rw [hbytes] at hsound hrest hall
      refine ⟨hsilent, hsound, ?_⟩
      obtain ⟨c', hserve, s', hserved', hheap, hin⟩ :=
        @serveAll_spec handlers stale { c with heap := h₁, in_ := m₂ } _
          ⟨s.connected, s.counted, s.out⟩ _ _ hall
      refine ⟨c', ?_, ?_, ?_, as₂, ?_, ?_⟩
      · rw [hok]
        show verify (serveAll handlers { c with heap := h₁, in_ := m₂ } reqs) = _
        rw [hserve]
        rfl
      · rw [List.flatMap_append]
        exact s'
      · rw [hserved', List.map_append, ← hserved]
      · rw [hheap, hin]
        exact k₂
      · rw [hheap]
        exact hrest

theorem run_append (c : ServerConnection) (blocks : List (List Byte)) (block : List Byte) :
    c.run handlers stale (blocks ++ [block]) =
      (c.run handlers stale blocks >>= fun c' => c'.handleRead handlers stale block) := by
  induction blocks generalizing c with
  | nil =>
    show (c.handleRead handlers stale block >>= fun c' => .ok c') = _
    exact bind_pure _
  | cons first blocks ih =>
    show (c.handleRead handlers stale first >>= fun c' => c'.run handlers stale (blocks ++ [block])) =
      ((c.handleRead handlers stale first >>= fun c' => c'.run handlers stale blocks) >>= _)
    rw [bind_assoc]
    congr 1
    funext c'
    exact ih c'

/-- What was received up to the last read that was looked at, and what came after it. -/
def heard (blocks : List (List Byte)) : List Byte :=
  (blocks.rdropWhile fun block => decide (Silent block)).flatten

def unheard (blocks : List (List Byte)) : List Byte :=
  (blocks.rtakeWhile fun block => decide (Silent block)).flatten

theorem heard_unheard (blocks : List (List Byte)) : heard blocks ++ unheard blocks = blocks.flatten := by
  unfold heard unheard
  rw [← List.flatten_append]
  congr 1
  unfold List.rdropWhile List.rtakeWhile
  rw [← List.reverse_append, List.takeWhile_append_dropWhile, List.reverse_reverse]

theorem heard_concat (blocks : List (List Byte)) (block : List Byte) :
    (Silent block → heard (blocks ++ [block]) = heard blocks ∧
      unheard (blocks ++ [block]) = unheard blocks ++ block) ∧
    (¬ Silent block → heard (blocks ++ [block]) = blocks.flatten ++ block ∧
      unheard (blocks ++ [block]) = []) := by
  unfold heard unheard
  constructor
  · intro hsilent
    have htrue : (fun block => decide (Silent block)) block = true := decide_eq_true hsilent
    rw [List.rdropWhile_concat_pos (fun block => decide (Silent block)) blocks block htrue,
      List.rtakeWhile_concat_pos (fun block => decide (Silent block)) blocks block htrue]
    simp
  · intro hsilent
    have hfalse : ¬ (fun block => decide (Silent block)) block = true := by simpa using hsilent
    rw [List.rdropWhile_concat_neg (fun block => decide (Silent block)) blocks block hfalse,
      List.rtakeWhile_concat_neg (fun block => decide (Silent block)) blocks block hfalse]
    simp

/-- After each read, what has come so far is sound. -/
def WellFormed (blocks : List (List Byte)) : Prop :=
  ∀ front block, front ++ [block] <+: blocks → ¬ Silent block → Sound (front.flatten ++ block)

theorem wellFormed_concat (blocks : List (List Byte)) (block : List Byte) :
    WellFormed (blocks ++ [block]) ↔
      WellFormed blocks ∧ (¬ Silent block → Sound (blocks.flatten ++ block)) := by
  constructor
  · intro h
    exact ⟨fun front last hpre => h front last (hpre.trans (List.prefix_append _ _)),
      h blocks block (List.prefix_refl _)⟩
  · rintro ⟨hwell, hlast⟩ front last hpre
    rcases List.prefix_concat_iff.mp hpre with heq | hpre
    · obtain ⟨rfl, hsingle⟩ := List.append_inj' heq rfl
      obtain rfl : last = block := by simpa using hsingle
      exact hlast
    · exact hwell front last hpre

/-- The packets that are complete are served in order and the rest is kept, whatever blocks the stream
came in. -/
def Extracts (handlers : Handlers) (stale : Nat → Byte) (c : ServerConnection)
    (blocks : List (List Byte)) : Prop :=
  ∃ c', c.run handlers stale blocks = .ok c' ∧
    c'.Holds handlers stale ((packets.frames (heard blocks)).2 ++ unheard blocks)
      (packets.frames (heard blocks)).1

def accepted (heap outHeap : Heap) : ServerConnection := { heap, outHeap }

theorem run_spec (handlers : Handlers) (stale : Nat → Byte) (heap outHeap : Heap)
    (blocks : List (List Byte)) :
    (¬ WellFormed blocks ∧ (accepted heap outHeap).run handlers stale blocks = .error .check) ∨
    (WellFormed blocks ∧ Extracts handlers stale (accepted heap outHeap) blocks ∧
      ∀ body ∈ (packets.frames (heard blocks)).1, HasXid body) := by
  induction blocks using List.reverseRecOn with
  | nil =>
    right
    have hframes : packets.frames [] = ([], []) := Framing.frames_none (by decide)
    have hnil : packets.frames (heard []) = ([], []) := hframes
    refine ⟨fun front block hpre => ?_, ⟨_, rfl, ?_⟩, ?_⟩
    · have hempty := List.prefix_nil.mp hpre
      simp at hempty
    · rw [hnil]
      exact ⟨⟨rfl, rfl, [], Marshal.Keeps.empty _, rfl⟩, rfl, [], Marshal.Keeps.empty _, rfl⟩
    · rw [hnil]
      exact fun body hbody => absurd hbody List.not_mem_nil
  | append_singleton blocks block ih =>
    rw [wellFormed_concat, run_append]
    rcases ih with ⟨hbad, herror⟩ | ⟨hwell, ⟨c, hok, hc⟩, hxids⟩
    · left
      refine ⟨fun h => hbad h.1, ?_⟩
      rw [herror]
      rfl
    · have hrun : ((accepted heap outHeap).run handlers stale blocks >>= fun c' =>
          c'.handleRead handlers stale block) = c.handleRead handlers stale block := by
        rw [hok]
        rfl
      have hflat : (packets.frames (blocks.flatten ++ block)) =
          ((packets.frames (heard blocks)).1 ++
            (packets.frames ((packets.frames (heard blocks)).2 ++ unheard blocks ++ block)).1,
          (packets.frames ((packets.frames (heard blocks)).2 ++ unheard blocks ++ block)).2) := by
        rw [← heard_unheard blocks, List.append_assoc, Framing.frames_append, List.append_assoc]
      have hsound : Sound (blocks.flatten ++ block) ↔
          Sound ((packets.frames (heard blocks)).2 ++ unheard blocks ++ block) := by
        unfold Sound
        rw [hflat]
        simp only [List.forall_mem_append]
        constructor
        · rintro ⟨⟨-, hnew⟩, hleft⟩
          exact ⟨hnew, hleft⟩
        · rintro ⟨hnew, hleft⟩
          exact ⟨⟨hxids, hnew⟩, hleft⟩
      obtain ⟨hheard, hheard'⟩ := heard_concat blocks block
      rw [hrun]
      rcases handleRead_spec hc block with ⟨hsilent, c', hok', hc'⟩ | ⟨hsilent, hbad, herror⟩ |
        ⟨hsilent, hgood, c', hok', hc'⟩
      · -- the read was not looked at
        right
        obtain ⟨hsame, hmore⟩ := hheard hsilent
        rw [hsame]
        refine ⟨⟨hwell, fun hnot => absurd hsilent hnot⟩, ⟨c', ?_, ?_⟩, hxids⟩
        · rw [run_append, hrun]
          exact hok'
        · rw [hsame, hmore, ← List.append_assoc]
          exact hc'
      · left
        exact ⟨fun h => hbad (hsound.mp (h.2 hsilent)), herror⟩
      · right
        obtain ⟨hall, hnone⟩ := hheard' hsilent
        have hsound' := hsound.mpr hgood
        rw [hall]
        refine ⟨⟨hwell, fun _ => hsound'⟩, ⟨c', ?_, ?_⟩, hsound'.1⟩
        · rw [run_append, hrun]
          exact hok'
        · rw [hall, hnone, hflat, List.append_nil]
          exact hc'

/-- The loop always ends. It takes out the packets of the stream, and no check fails, as long as the
stream is well formed after each read: no packet without a whole xid, no size that wraps around. -/
theorem handle_read_extracts_iff (handlers : Handlers) (stale : Nat → Byte) (heap outHeap : Heap)
    (blocks : List (List Byte)) :
    (accepted heap outHeap).run handlers stale blocks ≠ .error .steps ∧
      (Extracts handlers stale (accepted heap outHeap) blocks ↔ WellFormed blocks) := by
  rcases run_spec handlers stale heap outHeap blocks with ⟨hbad, herror⟩ | ⟨hwell, hex, -⟩
  · constructor
    · rw [herror]
      simp
    · refine ⟨fun ⟨c, hok, _⟩ => ?_, fun hwell => absurd hwell hbad⟩
      rw [herror] at hok
      cases hok
  · refine ⟨fun hsteps => ?_, fun _ => hwell, fun _ => hex⟩
    obtain ⟨c, hok, -⟩ := hex
    rw [hok] at hsteps
    cases hsteps

theorem not_extracts {handlers : Handlers} {stale : Nat → Byte} {heap outHeap : Heap}
    {block : List Byte} (hsilent : ¬ Silent block) (hbad : ¬ Sound block) :
    ¬ Extracts handlers stale (accepted heap outHeap) [block] := by
  rintro ⟨c, hok, -⟩
  rcases run_spec handlers stale heap outHeap [block] with ⟨-, herror⟩ | ⟨hwell, -⟩
  · rw [herror] at hok
    cases hok
  · exact hbad (hwell [] block (List.prefix_refl _) hsilent)

def noHeap : Heap := ⟨0, fun _ => 0, fun _ => 0⟩

/-- A size of -1, a packet of no bytes, and a packet that ends within its xid. -/
theorem malformed_packets_fail :
    ¬ Extracts (fun _ => none) (fun _ => 0) (accepted noHeap noHeap) [[0xFF, 0xFF, 0xFF, 0xFF]] ∧
    ¬ Extracts (fun _ => none) (fun _ => 0) (accepted noHeap noHeap) [[0, 0, 0, 0]] ∧
    ¬ Extracts (fun _ => none) (fun _ => 0) (accepted noHeap noHeap) [[1, 0, 0, 0, 0x80]] := by
  have hempty : nextPacket [0, 0, 0, 0] = some ([], []) := by decide
  have hcut : nextPacket [1, 0, 0, 0, 0x80] = some ([0x80], []) := by decide
  refine ⟨not_extracts (by decide) fun hsound => ?_, not_extracts (by decide) fun hsound => ?_,
    not_extracts (by decide) fun hsound => ?_⟩
  · exact (sound_none (by decide)).mp hsound (by decide)
  · exact absurd ((sound_some hempty).mp hsound).1 (by decide)
  · exact absurd ((sound_some hcut).mp hsound).1 (by decide)

end ServerConnection

end Jetpack.Rpc
