import Jetpack.Rpc.Client

/-! What the calls of the client do with the bytes of its queues. -/

namespace Jetpack.Rpc

open LittleEndian SparseInt

def Marshal.Contains (h : Heap) (m : Marshal) (bytes : List Byte) : Prop :=
  ∃ as, m.Keeps h as ∧ as.map h.ptr = bytes

/-- A slice that was taken from `in_`, and is not written to when `in_` grows. -/
def Marshal.Slice (h : Heap) (in_ m : Marshal) (bytes : List Byte) : Prop :=
  ∃ as, m.Reads h as ∧ (∀ a ∈ as, ¬ Beyond h in_.chunks a) ∧ as.map h.ptr = bytes

theorem fdOutLoop_eq {h : Heap} {cs : List Chunk} (hs : Shape h cs) (k : Nat) :
    Marshal.fdOutLoop h cs k = readLoop h cs k := by
  induction cs generalizing k with
  | nil => rfl
  | cons c cs ih =>
    obtain ⟨hc, hfull, hs'⟩ := hs
    have hread := Chunk.read_eq hc k
    obtain ⟨j, hj⟩ : ∃ j, j = min k (c.writeIdx - c.readIdx) := ⟨_, rfl⟩
    rw [← hj] at hread
    have hlen : ((c.addrs.take k).map h.ptr).length = j := by
      rw [List.length_map, List.length_take, Chunk.length_addrs, hj]
    have hend : Chunk.fullyRead h { c with readIdx := c.readIdx + j } =
        some (c.readIdx + j == h.size c.data) := by
      refine Chunk.fullyRead_eq ?_ hc.2.2.1
      have hle := hc.2.1
      show c.readIdx + j ≤ c.writeIdx
      omega
    have hsize := Chunk.contentSize_eq hc
    rw [Marshal.fdOutLoop, readLoop]
    simp only [hread, hend, hsize, Option.bind_eq_bind, Option.bind_some]
    by_cases hj0 : j = 0
    · -- nothing is sent
      have hnone : (c.readIdx + j == h.size c.data) = false := by
        have hlt := hc.2.2.2
        rw [beq_eq_false_iff_ne]
        omega
      have hempty : (c.addrs.take k).map h.ptr = [] := List.length_eq_zero_iff.mp (hlen.trans hj0)
      have hsame : ({ c with readIdx := c.readIdx + j } : Chunk) = c := by rw [hj0]; rfl
      rw [hnone, hempty, hsame]
      by_cases hk : k = 0
      · rw [if_pos hk]
        rfl
      · have hz : c.writeIdx - c.readIdx = 0 := by omega
        rw [if_neg hk, if_pos hz]
        rfl
    · have hk : k ≠ 0 := by omega
      have hz : c.writeIdx - c.readIdx ≠ 0 := by omega
      have hsome : (c.addrs.take k).map h.ptr ≠ [] := fun hnil => hj0 (by rw [← hlen, hnil]; rfl)
      rw [if_neg hk, if_neg hz, ih hs', if_neg hsome]

namespace Marshal.Contains

variable {h : Heap} {m : Marshal} {bytes : List Byte}

theorem empty (h : Heap) : Marshal.Contains h {} [] := ⟨[], Marshal.Keeps.empty h, rfl⟩

theorem size (hm : m.Contains h bytes) : m.contentSize = bytes.length := by
  obtain ⟨as, k, rfl⟩ := hm
  rw [k.reads.size, List.length_map]

theorem resetWriteCnt (hm : m.Contains h bytes) : m.getAndResetWriteCnt.2.Contains h bytes := by
  obtain ⟨as, k, hbytes⟩ := hm
  exact ⟨as, ⟨⟨k.reads.shape, k.reads.addrs, k.reads.size⟩, k.settled⟩, hbytes⟩

theorem writeToFd (hm : m.Contains h bytes) (k : Nat) :
    ∃ m', m.writeToFd h k = some (bytes.take k, m') ∧ m'.Contains h (bytes.drop k) ∧
      m'.writeCnt = m.writeCnt := by
  obtain ⟨as, keep, hbytes⟩ := hm
  have r := keep.reads
  have hsize := r.contentSizeChecked
  by_cases hempty : as.length = 0
  · obtain rfl := List.length_eq_zero_iff.mp hempty
    obtain rfl : bytes = [] := hbytes.symm
    refine ⟨m, ?_, ⟨[], keep, ?_⟩, rfl⟩
    · simp only [Marshal.writeToFd, hsize, Option.bind_eq_bind, Option.bind_some]
      rw [if_pos hempty, List.take_nil]
      rfl
    · rw [List.drop_nil]
      rfl
  · obtain ⟨cs', hloop, ha, hshape, hback⟩ := readLoop_eq r.shape k
    rw [r.addrs] at hloop ha
    have hlen : ((as.take k).map h.ptr).length ≤ m.contentSize := by
      rw [List.length_map, List.length_take, r.size]
      exact Nat.min_le_right _ _
    let m' : Marshal :=
      { m with chunks := cs', contentSize := m.contentSize - ((as.take k).map h.ptr).length }
    have r' : m'.Reads h (as.drop k) := by
      refine ⟨hshape, ha, ?_⟩
      show m.contentSize - ((as.take k).map h.ptr).length = _
      rw [List.length_map, List.length_take, List.length_drop, r.size]
      omega
    have hsize' := r'.contentSizeChecked
    simp only [m'] at hsize'
    refine ⟨m', ?_, ⟨_, keep.drop r' hback, ?_⟩, rfl⟩
    · simp only [Marshal.writeToFd, hsize, Option.bind_eq_bind, Option.bind_some]
      rw [if_neg hempty, fdOutLoop_eq r.shape, hloop]
      simp only [Option.bind_some]
      rw [if_neg (not_lt.mpr hlen), hsize']
      show some ((as.take k).map h.ptr, m') = some (bytes.take k, m')
      rw [← hbytes, List.map_take]
    · rw [List.map_drop, hbytes]

theorem readFromFd (hm : m.Contains h bytes) (p : List Byte) :
    ∃ h' m', m.readFromFd h p = some (h', m') ∧ m'.Contains h' (bytes ++ p) ∧
      ∀ reply content, Marshal.Slice h m reply content → Marshal.Slice h' m' reply content := by
  obtain ⟨as, k, hbytes⟩ := hm
  obtain ⟨h', m', new, hread, k', hmap, e⟩ := k.readFromFd p
  refine ⟨h', m', hread, ⟨as ++ new, k', by rw [hmap, hbytes]⟩, ?_⟩
  rintro reply content ⟨bs, r, hsettled, hcontent⟩
  refine ⟨bs, r.mono e.next e.size, fun a ha hb => hsettled a ha (e.back a hb), ?_⟩
  rw [← hcontent]
  exact List.map_congr_left fun a ha => e.kept a fun hn => hsettled a ha (e.beyond a hn)

end Marshal.Contains

/-! The packets that are written. -/

def frame (body : List Byte) : List Byte :=
  toBytes 4 (BitVec.ofNat 32 body.length).toInt ++ body

theorem replyBytes_eq (xid errorCode : Int) (payload : List Byte) :
    replyBytes xid errorCode payload = frame (dumpI64 xid ++ dumpI32 errorCode ++ payload) := rfl

theorem packetSize_frame {body : List Byte} (more : List Byte) (hlen : body.length < 2 ^ 31) :
    packetSize (frame body ++ more) = body.length := by
  have hint : (BitVec.ofNat 32 body.length).toInt = body.length := by
    have hnat : (BitVec.ofNat 32 body.length).toNat = body.length := by
      rw [BitVec.toNat_ofNat]
      omega
    rw [BitVec.toInt_eq_toNat_of_lt (by omega), hnat]
  unfold packetSize frame
  rw [hint, List.append_assoc, List.take_left' (length_toBytes 4 _)]
  exact ofSigned_toBytes (by omega) (by omega)

/-- Every packet whose size is an `int` is cut off as it was written. -/
theorem packets_encodes : packets.Encodes frame fun body => body.length < 2 ^ 31 := by
  intro body more hlen
  have hsize := packetSize_frame more hlen
  have hcount : sizeT (body.length : Int) = body.length := by
    unfold sizeT
    omega
  have hdrop : (frame body ++ more).drop 4 = body ++ more := by
    unfold frame
    rw [List.append_assoc, List.drop_left' (length_toBytes 4 _)]
  have hnext : packets.next = nextPacket := rfl
  rw [hnext, nextPacket, hsize, hcount, hdrop, List.take_left, List.drop_left, if_pos]
  rw [frame, List.length_append, List.length_append, length_toBytes]
  omega

theorem not_wraps {bodies : List (List Byte)} (hok : ∀ body ∈ bodies, body.length < 2 ^ 31)
    {bs rest : List Byte} (hbs : bs ++ rest = bodies.flatMap frame) : ¬ Wraps bs := by
  rintro ⟨hfour, hwrap, hlong⟩
  cases bodies with
  | nil =>
    obtain ⟨rfl, -⟩ := List.append_eq_nil_iff.mp hbs
    exact absurd hfour (by decide)
  | cons body bodies =>
    have hlen := hok body List.mem_cons_self
    have hsize : packetSize bs = packetSize (frame body ++ bodies.flatMap frame) := by
      rw [← List.flatMap_cons, ← hbs]
      unfold packetSize
      rw [List.take_append_of_le_length hfour]
    rw [hsize, packetSize_frame _ hlen] at hwrap hlong
    have hcount : sizeT (body.length : Int) = body.length := by
      unfold sizeT
      omega
    rw [hcount] at hwrap hlong
    omega

theorem Marshal.writeAll_append (h : Heap) (m : Marshal) (ps qs : List (List Byte)) :
    m.writeAll h (ps ++ qs) = (m.writeAll h ps).bind fun r => r.2.writeAll r.1 qs := by
  induction ps generalizing h m with
  | nil => rfl
  | cons p ps ih =>
    rw [List.cons_append, Marshal.writeAll, Marshal.writeAll]
    by_cases hp : p = []
    · rw [if_pos hp, if_pos hp, ih]
    · rw [if_neg hp, if_neg hp]
      simp only [Option.bind_eq_bind, Option.bind_assoc, ih]

theorem Marshal.Keeps.writeAll {h : Heap} {m : Marshal} {as : List Addr} (k : m.Keeps h as)
    (ps : List (List Byte)) : ∃ h' m' new, m.writeAll h ps = some (h', m') ∧
      Extends h m.chunks h' m'.chunks new ∧ m'.Keeps h' (as ++ new) ∧
      as.map h'.ptr = as.map h.ptr ∧ new.map h'.ptr = ps.flatten ∧
      m'.writeCnt = m.writeCnt + BitVec.ofNat 32 ps.flatten.length := by
  induction ps generalizing h m as with
  | nil =>
    refine ⟨h, m, [], rfl, Extends.refl k.reads.shape, ?_, rfl, rfl, ?_⟩
    · rw [List.append_nil]
      exact k
    · simp
  | cons p ps ih =>
    by_cases hp : p = []
    · obtain ⟨h', m', new, hwrite, hrest⟩ := ih k
      refine ⟨h', m', new, ?_, ?_⟩
      · rw [Marshal.writeAll, if_pos hp, hwrite]
      · rw [hp, List.flatten_cons, List.nil_append]
        exact hrest
    · obtain ⟨h₁, m₁, x, hw₁, e₁, k₁, hold₁, hx, hcnt₁⟩ := k.write hp
      obtain ⟨h₂, m₂, y, hw₂, e₂, k₂, hold₂, hy, hcnt₂⟩ := ih k₁
      rw [List.map_append, List.map_append] at hold₂
      obtain ⟨hold, hkept⟩ := List.append_inj hold₂ (by rw [List.length_map, List.length_map])
      refine ⟨h₂, m₂, x ++ y, ?_, e₁.trans e₂, ?_, hold.trans hold₁, ?_, ?_⟩
      · rw [Marshal.writeAll, if_neg hp, hw₁]
        exact hw₂
      · rw [← List.append_assoc]
        exact k₂
      · rw [List.map_append, hkept, hx, hy, List.flatten_cons]
      · rw [hcnt₂, hcnt₁, List.flatten_cons, List.length_append, BitVec.ofNat_add, BitVec.add_assoc]

/-- A bookmark, what is written after it, and the count filled in: a packet with its size in front. -/
theorem Marshal.Contains.packet {h : Heap} {m : Marshal} {bytes : List Byte}
    (hm : m.Contains h bytes) (hcnt : m.writeCnt = 0) (ps : List (List Byte)) :
    ∃ bm h₁ m₁ h₂ m₂, m.setBookmark h 4 = some (bm, h₁, m₁) ∧ m₁.writeAll h₁ ps = some (h₂, m₂) ∧
      m₂.getAndResetWriteCnt.2.Contains (h₂.writeBookmark bm (toBytes 4 m₂.writeCnt.toInt))
        (bytes ++ frame ps.flatten) := by
  obtain ⟨as, k, hbytes⟩ := hm
  obtain ⟨bm, h₁, m₁, hset, e₁, r₁, hlen⟩ := k.reads.setBookmark hcnt 4
  obtain ⟨k₁, hold₁⟩ := k.extends_keeps e₁ r₁
  obtain ⟨h₂, m₂, new, hwrite, e₂, k₂, hold₂, hnew, hcnt₂⟩ := k₁.writeAll ps
  have e := e₁.trans e₂
  have hfresh : ∀ a ∈ as, a ∉ bm := fun a ha hmem => k.settled a ha (e₁.beyond a hmem)
  have hold : as.map h₂.ptr = bytes := by
    rw [← hbytes]
    apply List.map_congr_left
    intro a ha
    exact e.kept a fun hmem => k.settled a ha (e.beyond a hmem)
  have hcount : m₂.writeCnt = BitVec.ofNat 32 ps.flatten.length := by
    rw [hcnt₂, Marshal.writeCnt_setBookmark hset, hcnt]
    exact BitVec.zero_add _
  have hsize : (toBytes 4 m₂.writeCnt.toInt).length = bm.length := by
    rw [length_toBytes, hlen]
  obtain ⟨k₃, hfinal⟩ := k₂.writeBookmark e.nodup hfresh hsize
  refine ⟨bm, h₁, m₁, h₂, m₂, hset, hwrite, Marshal.Contains.resetWriteCnt ⟨_, k₃, ?_⟩⟩
  rw [hfinal, hold, hnew, hcount, List.append_assoc]
  rfl

namespace Client

theorem request_spec {c : Client} {bytes : List Byte} (hopen : c.connected = true)
    (hout : c.out_.Contains c.outHeap bytes) (hcnt : c.out_.writeCnt = 0) (rpcId : Int)
    (callback : Bool) (args : List Byte) :
    ∃ h out, c.request rpcId callback args = some { c with
        outHeap := h
        out_ := out
        xidCounter := c.xidCounter + 1
        pendingFu := (c.pendingFu.filter fun p => p.1 ≠ c.xidCounter) ++
          [(c.xidCounter, c.futures.length)]
        futures := c.futures ++ [{ xid := c.xidCounter, callback }] } ∧
      out.Contains h (bytes ++ frame (dumpI64 c.xidCounter ++ toBytes 4 rpcId ++ args)) ∧
      out.writeCnt = 0 := by
  obtain ⟨bm, h₁, m₁, h₂, m₂, hset, hwrite, hfinal⟩ :=
    hout.packet hcnt ([dumpI64 c.xidCounter, toBytes 4 rpcId] ++ [args])
  rw [Marshal.writeAll_append] at hwrite
  obtain ⟨⟨h₃, m₃⟩, hhead, hargs⟩ := Option.bind_eq_some_iff.mp hwrite
  refine ⟨_, m₂.getAndResetWriteCnt.2, ?_, by simpa using hfinal, rfl⟩
  · have hnot : (!c.connected) = false := by rw [hopen, Bool.not_true]
    have hput : m₃.writeAll h₃ [args] = some (h₂, m₂) := hargs
    simp only [request, hnot, Bool.false_eq_true, if_false, beginRequest, put, hset, hhead, hput,
      Option.bind_eq_bind, Option.bind_some, Option.pure_def]
    rfl

end Client

/-! The packets that are read. -/

theorem bufSize_dump {load : List Byte → Option Int} {dump : Int → List Byte} {val : Int}
    (hback : ∀ rest, LoadsBack load dump val rest) {h : Heap} {as : List Addr} {more : List Byte}
    (hbytes : as.map h.ptr = dump val ++ more) (hne : dump val ≠ []) :
    ∃ b, ((as.take 1).map h.ptr)[0]? = some b ∧ bufSize b = valSize val ∧
      (as.take (valSize val)).map h.ptr = dump val ∧
      (as.drop (valSize val)).map h.ptr = more := by
  obtain ⟨hsize, hmark, -⟩ := hback []
  obtain ⟨b, bs, hdump⟩ := List.exists_cons_of_ne_nil hne
  rw [hdump, List.head?_cons, Option.map_some, Option.some.injEq] at hmark
  refine ⟨b, ?_, hmark, ?_, ?_⟩
  · rw [List.map_take, hbytes, hdump]
    rfl
  · rw [List.map_take, hbytes, List.take_left' hsize]
  · rw [List.map_drop, hbytes, List.drop_left' hsize]

theorem Marshal.Keeps.readV64_dump {h : Heap} {m : Marshal} {as : List Addr} (k : m.Keeps h as)
    (stale : Nat → Byte) {val : Int} (hlo : -2 ^ 63 ≤ val) (hhi : val < 2 ^ 63)
    (hkept : ¬ LosesByte val) {more : List Byte} (hbytes : as.map h.ptr = dumpI64 val ++ more) :
    ∃ m', m.readV64 stale h = some (val, m') ∧ m'.Keeps h (as.drop (valSize val)) ∧
      (as.drop (valSize val)).map h.ptr = more ∧
      ∀ a, Beyond h m'.chunks a → Beyond h m.chunks a := by
  have hback := fun rest => loadsBack_i64 hlo hhi hkept rest
  obtain ⟨b, hfirst, hmark, hdump, hmore⟩ := bufSize_dump hback hbytes (dumpI64_ne_nil val)
  obtain ⟨m', hread, r', hbeyond⟩ := k.reads.read (valSize val)
  refine ⟨m', ?_, k.drop r' hbeyond, hmore, hbeyond⟩
  have hlen : ¬ (dumpI64 val).length ≠ valSize val := not_not.mpr (hback []).1
  unfold Marshal.readV64
  simp only [k.reads.peek 1, Option.bind_eq_bind, Option.bind_some, hfirst, hmark, hread, hdump,
    if_neg hlen, (hback _).2.2]
  rfl

theorem valSize_le_five {val : Int} (hlo : -2 ^ 31 ≤ val) (hhi : val < 2 ^ 31) : valSize val ≤ 5 := by
  unfold valSize
  split_ifs <;> omega

theorem Marshal.Keeps.readSparse_dump {h : Heap} {m : Marshal} {as : List Addr} (k : m.Keeps h as)
    {val : Int} (hlo : -2 ^ 31 ≤ val) (hhi : val < 2 ^ 31) {more : List Byte}
    (hbytes : as.map h.ptr = dumpI32 val ++ more) :
    ∃ m', m.readSparse 5 loadI32 h = some (val, m') ∧ m'.Keeps h (as.drop (valSize val)) ∧
      (as.drop (valSize val)).map h.ptr = more ∧
      ∀ a, Beyond h m'.chunks a → Beyond h m.chunks a := by
  have hback := fun rest => loadsBack_i32 hlo hhi rest
  obtain ⟨b, hfirst, hmark, hdump, hmore⟩ := bufSize_dump hback hbytes (dumpI32_ne_nil val)
  obtain ⟨m', hread, r', hbeyond⟩ := k.reads.read (valSize val)
  refine ⟨m', ?_, k.drop r' hbeyond, hmore, hbeyond⟩
  have hlen : ¬ (dumpI32 val).length ≠ valSize val := not_not.mpr (hback []).1
  have hcap : ¬ 5 < valSize val := not_lt.mpr (valSize_le_five hlo hhi)
  have hload : loadI32 (dumpI32 val) = some val := by
    have hall := (hback []).2.2
    rw [List.append_nil] at hall
    exact hall
  unfold Marshal.readSparse
  simp only [k.reads.peek 1, Option.bind_eq_bind, Option.bind_some, hfirst, hmark, hread, hdump,
    if_neg hlen, if_neg hcap, hload]
  rfl

structure Answer where
  xid : Int
  errorCode : Int
  payload : List Byte
  deriving Repr, DecidableEq

def Answer.body (a : Answer) : List Byte := dumpI64 a.xid ++ dumpI32 a.errorCode ++ a.payload

/-- Every xid below 2^48 is read as it was written. -/
def Answer.Fits (a : Answer) : Prop :=
  (0 ≤ a.xid ∧ a.xid < 2 ^ 48) ∧ (-2 ^ 31 ≤ a.errorCode ∧ a.errorCode < 2 ^ 31) ∧
    a.body.length < 2 ^ 31

instance (a : Answer) : Decidable a.Fits := inferInstanceAs (Decidable ((_ ∧ _) ∧ (_ ∧ _) ∧ _))

namespace Client

theorem readReply_incomplete {c : Client} {left : List Byte} (hin : c.in_.Contains c.heap left)
    (hnone : nextPacket left = none) (hwraps : ¬ Wraps left) (skips : Bool) (stale : Nat → Byte) :
    c.readReply skips stale = some none := by
  obtain ⟨as, k, hbytes⟩ := hin
  have hlen : left.length = as.length := by
    rw [← hbytes, List.length_map]
  have htest : ¬ (((as.take 4).map c.heap.ptr).length = 4 ∧
      (sizeT (ofSigned 4 ((as.take 4).map c.heap.ptr)) + 4) % 2 ^ 64 ≤ as.length) := by
    rintro ⟨hfour, hle⟩
    rw [List.length_map, List.length_take] at hfour
    have hsize : ofSigned 4 ((as.take 4).map c.heap.ptr) = packetSize left := by
      rw [packetSize, ← hbytes, List.map_take]
    rw [hsize] at hle
    refine hwraps ⟨by omega, by omega, ?_⟩
    by_contra hlong
    rw [nextPacket, if_pos (not_lt.mp hlong)] at hnone
    cases hnone
  unfold readReply
  simp only [k.reads.peek 4, k.reads.contentSizeChecked, Option.bind_eq_bind, Option.bind_some]
  rw [if_neg htest]
  rfl

/-- A reply completes the future that waits for it, with the rest of the packet as its bytes. -/
theorem readReply_spec {c : Client} {a : Answer} {more : List Byte}
    (hin : c.in_.Contains c.heap (frame a.body ++ more)) (ha : a.Fits) {i : Nat} {fu : Future}
    (hlookup : c.pendingFu.lookup a.xid = some i) (hfu : c.futures[i]? = some fu)
    (hxid : fu.xid = a.xid) (hempty : fu.reply = {}) (skips : Bool) (stale : Nat → Byte) :
    ∃ in' reply, c.readReply skips stale = some (some { c with
        in_ := in'
        pendingFu := c.pendingFu.filter fun p => p.1 ≠ a.xid
        futures := c.futures.set i { fu with errorCode := a.errorCode, reply }.notifyReady }) ∧
      in'.Contains c.heap more ∧ Marshal.Slice c.heap in' reply a.payload ∧
      ∀ other content, Marshal.Slice c.heap c.in_ other content →
        Marshal.Slice c.heap in' other content := by
  obtain ⟨⟨hpos, hlt⟩, ⟨hlo, hhi⟩, hshort⟩ := ha
  obtain ⟨as, k, hbytes⟩ := hin
  have hkept : ¬ LosesByte a.xid := by
    rintro ⟨-, -, hlarge⟩
    omega
  have hfour : 4 ≤ as.length := by
    rw [← List.length_map (f := c.heap.ptr), hbytes, frame]
    simp only [List.length_append, length_toBytes]
    omega
  have hsize : packetSize (as.map c.heap.ptr) = a.body.length := by
    rw [hbytes]
    exact packetSize_frame more hshort
  have hcount : sizeT (a.body.length : Int) = a.body.length := by
    unfold sizeT
    omega
  have htotal : as.length = 4 + a.body.length + more.length := by
    rw [← List.length_map (f := c.heap.ptr), hbytes, frame]
    simp only [List.length_append, length_toBytes]
  have htest : ((as.take 4).map c.heap.ptr).length = 4 ∧
      (sizeT (ofSigned 4 ((as.take 4).map c.heap.ptr)) + 4) % 2 ^ 64 ≤ as.length := by
    have hfirst : ofSigned 4 ((as.take 4).map c.heap.ptr) = a.body.length := by
      rw [← hsize, packetSize, List.map_take]
    rw [hfirst, hcount, List.length_map, List.length_take]
    omega
  obtain ⟨m₁, hread₁, r₁, hback₁⟩ := k.reads.readI32 hfour
  have hbytes₁ : (as.drop 4).map c.heap.ptr =
      dumpI64 a.xid ++ (dumpI32 a.errorCode ++ (a.payload ++ more)) := by
    rw [List.map_drop, hbytes, frame, List.append_assoc, List.drop_left' (length_toBytes 4 _),
      Answer.body]
    simp only [List.append_assoc]
  obtain ⟨m₂, hread₂, k₂, hbytes₂, hback₂⟩ :=
    (k.drop r₁ hback₁).readV64_dump stale (by omega) (by omega) hkept hbytes₁
  obtain ⟨m₃, hread₃, k₃, hbytes₃, hback₃⟩ := k₂.readSparse_dump hlo hhi hbytes₂
  have hxidSize := (loadsBack_i64 (by omega) (by omega) hkept []).1
  have hcodeSize := (loadsBack_i32 hlo hhi []).1
  have hn : replySize (packetSize (as.map c.heap.ptr)) a.xid a.errorCode = a.payload.length := by
    have hbody : a.body.length = valSize a.xid + valSize a.errorCode + a.payload.length := by
      rw [Answer.body, List.length_append, List.length_append, hxidSize, hcodeSize]
    rw [replySize, hsize, hcount]
    omega
  have hrest := congrArg List.length hbytes₃
  rw [List.length_map, List.length_append] at hrest
  obtain ⟨reply, m₄, hslice, rreply, r₄, hback₄⟩ :=
    k₃.reads.readFromMarshal (n := a.payload.length) (by omega)
  have hback : ∀ b, Beyond c.heap m₄.chunks b → Beyond c.heap c.in_.chunks b := fun b hb =>
    hback₁ b (hback₂ b (hback₃ b (hback₄ b hb)))
  refine ⟨m₄, reply, ?_, ⟨_, k₃.drop r₄ hback₄, ?_⟩, ⟨_, rreply, ?_, ?_⟩, ?_⟩
  · unfold readReply
    simp only [k.reads.peek 4, k.reads.contentSizeChecked, Option.bind_eq_bind, Option.bind_some]
    rw [if_pos htest]
    simp only [hread₁, hread₂, hread₃, hn, Option.bind_some, hlookup, hfu, hempty, hslice]
    rw [if_neg (not_not.mpr hxid)]
    rfl
  · rw [List.map_drop, hbytes₃, List.drop_left]
  · intro b hb hbeyond
    exact k₃.settled b (List.mem_of_mem_take hb) (hback₄ b hbeyond)
  · rw [List.map_take, hbytes₃, List.take_left]
  · rintro other content ⟨bs, r, hsettled, hcontent⟩
    exact ⟨bs, r, fun b hb hbeyond => hsettled b hb (hback b hbeyond), hcontent⟩

end Client

end Jetpack.Rpc
