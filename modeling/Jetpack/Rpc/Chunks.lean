import Jetpack.Rpc.Marshal

/-! What the chunk loops do to the addresses a marshal has still to read. -/

namespace Jetpack.Rpc

def Chunk.addrs (c : Chunk) : List Addr :=
  (List.range' c.readIdx (c.writeIdx - c.readIdx)).map (Prod.mk c.data)

def addrs (cs : List Chunk) : List Addr := cs.flatMap Chunk.addrs

def Chunk.Fits (h : Heap) (c : Chunk) : Prop :=
  c.data < h.next ∧ c.readIdx ≤ c.writeIdx ∧ c.writeIdx ≤ h.size c.data ∧
    c.readIdx < h.size c.data

/-- Every chunk but the last is fully written, and none is fully read. -/
def Shape (h : Heap) : List Chunk → Prop
  | [] => True
  | c :: cs => c.Fits h ∧ (cs ≠ [] → c.writeIdx = h.size c.data) ∧ Shape h cs

/-- The addresses that the marshal may still write to. -/
def Beyond (h : Heap) (cs : List Chunk) (a : Addr) : Prop :=
  h.next ≤ a.1 ∨ ∃ t, cs.getLast? = some t ∧ a.1 = t.data ∧ t.writeIdx ≤ a.2

@[simp] theorem Chunk.length_addrs (c : Chunk) : c.addrs.length = c.writeIdx - c.readIdx := by
  simp [Chunk.addrs]

@[simp] theorem addrs_nil : addrs [] = [] := rfl

@[simp] theorem addrs_cons (c : Chunk) (cs : List Chunk) : addrs (c :: cs) = c.addrs ++ addrs cs := by
  simp [addrs]

@[simp] theorem addrs_append (cs ds : List Chunk) : addrs (cs ++ ds) = addrs cs ++ addrs ds := by
  simp [addrs]

theorem Chunk.asserted_eq {h : Heap} {c : Chunk} (hr : c.readIdx ≤ c.writeIdx)
    (hw : c.writeIdx ≤ h.size c.data) : c.asserted h = some c := by
  simp [Chunk.asserted, hr, hw]

theorem Chunk.contentSize_eq {h : Heap} {c : Chunk} (hc : c.Fits h) :
    c.contentSize h = some (c.writeIdx - c.readIdx) := by
  simp [Chunk.contentSize, Chunk.asserted_eq hc.2.1 hc.2.2.1]

theorem Chunk.fullyWritten_eq {h : Heap} {c : Chunk} (hc : c.Fits h) :
    c.fullyWritten h = some (c.writeIdx == h.size c.data) := by
  simp [Chunk.fullyWritten, Chunk.asserted_eq hc.2.1 hc.2.2.1]

theorem Chunk.load_addrs (h : Heap) (c : Chunk) (n : Nat) :
    h.load c.data c.readIdx (min n (c.writeIdx - c.readIdx)) = (c.addrs.take n).map h.ptr := by
  have ht : (List.range' c.readIdx (c.writeIdx - c.readIdx)).take n =
      List.range' c.readIdx (min n (c.writeIdx - c.readIdx)) := by
    rcases Nat.le_total n (c.writeIdx - c.readIdx) with hn | hn
    · rw [List.take_range'_of_length_ge hn, Nat.min_eq_left hn]
    · rw [List.take_range'_of_length_le hn, Nat.min_eq_right hn]
  rw [Chunk.addrs, ← List.map_take, ht, List.map_map]
  rfl

theorem Chunk.drop_addrs (c : Chunk) (n : Nat) :
    Chunk.addrs { c with readIdx := c.readIdx + n } = c.addrs.drop n := by
  have hs : c.writeIdx - (c.readIdx + n) = c.writeIdx - c.readIdx - n := by omega
  rw [Chunk.addrs, Chunk.addrs, ← List.map_drop, List.drop_range']
  simp [hs]

theorem contentSizeSlow_eq {h : Heap} {cs : List Chunk} (hs : Shape h cs) :
    contentSizeSlow h cs = some (addrs cs).length := by
  induction cs with
  | nil => rfl
  | cons c cs ih =>
    have hc := Chunk.contentSize_eq hs.1
    simp [contentSizeSlow, hc, ih hs.2.2]

theorem beyond_cons {h : Heap} {c : Chunk} {cs : List Chunk} {a : Addr} (hb : Beyond h cs a) :
    Beyond h (c :: cs) a := by
  rcases hb with hb | ⟨t, ht, hb⟩
  · exact .inl hb
  · refine .inr ⟨t, ?_, hb⟩
    rw [List.getLast?_cons, ht]
    rfl

theorem beyond_head {h : Heap} {c c' : Chunk} {cs : List Chunk} {a : Addr}
    (hd : c'.data = c.data) (hw : c'.writeIdx = c.writeIdx) (hb : Beyond h (c' :: cs) a) :
    Beyond h (c :: cs) a := by
  rcases hb with hb | ⟨t, ht, hb⟩
  · exact .inl hb
  · refine .inr ?_
    cases cs with
    | nil =>
      have ht' : c' = t := by simpa using ht
      subst ht'
      exact ⟨c, rfl, hd ▸ hb.1, hw ▸ hb.2⟩
    | cons d cs => exact ⟨t, by simpa using ht, hb⟩

theorem Chunk.Fits.advance {h : Heap} {c : Chunk} {n : Nat} (hc : c.Fits h)
    (hn : n ≤ c.writeIdx - c.readIdx) (hf : c.readIdx + n ≠ h.size c.data) :
    Chunk.Fits h { c with readIdx := c.readIdx + n } := by
  obtain ⟨hd, hr, hw, hs⟩ := hc
  exact ⟨hd, by simp only; omega, hw, by simp only; omega⟩

theorem Chunk.read_eq {h : Heap} {c : Chunk} (hc : c.Fits h) (n : Nat) :
    c.read h n = some ((c.addrs.take n).map h.ptr,
      { c with readIdx := c.readIdx + min n (c.writeIdx - c.readIdx) }) := by
  have hr := hc.2.1
  have ha := Chunk.asserted_eq hr hc.2.2.1
  have ha' : Chunk.asserted h
      { c with readIdx := c.readIdx + min n (c.writeIdx - c.readIdx) } =
      some { c with readIdx := c.readIdx + min n (c.writeIdx - c.readIdx) } := by
    apply Chunk.asserted_eq
    · simp only
      omega
    · exact hc.2.2.1
  simp only [Chunk.read, ha, Option.bind_eq_bind, Option.bind_some, ha', Chunk.load_addrs]
  rfl

theorem Chunk.fullyRead_eq {h : Heap} {c : Chunk} (hr : c.readIdx ≤ c.writeIdx)
    (hw : c.writeIdx ≤ h.size c.data) : c.fullyRead h = some (c.readIdx == h.size c.data) := by
  simp [Chunk.fullyRead, Chunk.asserted_eq hr hw]

/-- Reading takes addresses off the front; the frontier does not move back. -/
theorem readLoop_eq {h : Heap} {cs : List Chunk} (hs : Shape h cs) (n : Nat) :
    ∃ cs', readLoop h cs n = some (((addrs cs).take n).map h.ptr, cs') ∧
      addrs cs' = (addrs cs).drop n ∧ Shape h cs' ∧ ∀ a, Beyond h cs' a → Beyond h cs a := by
  induction cs generalizing n with
  | nil => exact ⟨[], by simp [readLoop], by simp, trivial, fun _ h => h⟩
  | cons c cs ih =>
    obtain ⟨hc, hfull, hs'⟩ := hs
    by_cases hn : n = 0
    · subst hn
      exact ⟨c :: cs, by simp [readLoop], by simp, ⟨hc, hfull, hs'⟩, fun _ h => h⟩
    by_cases hz : c.writeIdx - c.readIdx = 0
    · -- a chunk with nothing to read is the last one
      have hcs : cs = [] := by
        by_contra hne
        have := hfull hne
        have := hc.2.2.2
        omega
      subst hcs
      have he : addrs [c] = [] := List.length_eq_zero_iff.mp (by simp [hz])
      refine ⟨[c], ?_, by simp [he], ⟨hc, hfull, hs'⟩, fun _ h => h⟩
      simp [readLoop, hn, Chunk.contentSize_eq hc, hz, he]
    · set c' : Chunk := { c with readIdx := c.readIdx + min n (c.writeIdx - c.readIdx) } with hc'
      have hmin : min n (c.writeIdx - c.readIdx) ≤ c.writeIdx - c.readIdx := Nat.min_le_right _ _
      have hread := Chunk.read_eq hc n
      have hr := hc.2.1
      have hw := hc.2.2.1
      have hfr : c'.fullyRead h = some (c'.readIdx == h.size c.data) :=
        Chunk.fullyRead_eq (by simp only [hc']; omega) hw
      have hlen : ((c.addrs.take n).map h.ptr).length = min n (c.writeIdx - c.readIdx) := by simp
      by_cases hf : c'.readIdx = h.size c.data
      · have hfin : c.writeIdx - c.readIdx ≤ n := by
          simp only [hc'] at hf
          omega
        obtain ⟨cs', hloop, ha, hshape, hback⟩ := ih hs' (n - (c.writeIdx - c.readIdx))
        have htake : c.addrs.take n = c.addrs := List.take_of_length_le (by simpa using hfin)
        refine ⟨cs', ?_, ?_, hshape, fun a hb => beyond_cons (hback a hb)⟩
        · have hsub : n - min n (c.writeIdx - c.readIdx) = n - (c.writeIdx - c.readIdx) := by omega
          rw [readLoop, if_neg hn]
          simp only [Chunk.contentSize_eq hc, Option.bind_eq_bind, Option.bind_some, if_neg hz,
            hread, ← hc', hfr, hf, hlen, hsub, hloop, beq_self_eq_true, if_true]
          simp [List.take_append, htake]
        · rw [ha, addrs_cons, List.drop_append]
          simp [List.drop_of_length_le, hfin]
      · -- the loop stops inside this chunk, or the chunk is the last one
        have hstop : n ≤ c.writeIdx - c.readIdx ∨ cs = [] := by
          by_contra hcon
          push Not at hcon
          have := hfull hcon.2
          simp only [hc'] at hf
          omega
        have hsplit : (c.addrs ++ addrs cs).take n = c.addrs.take n ∧
            (c.addrs ++ addrs cs).drop n = c.addrs.drop n ++ addrs cs := by
          rcases hstop with hle | hnil
          · have hz : n - (c.writeIdx - c.readIdx) = 0 := by omega
            simp [List.take_append, List.drop_append, hz]
          · simp [hnil]
        have hdrop : c'.addrs = c.addrs.drop n := by
          rw [hc', Chunk.drop_addrs]
          rcases Nat.le_total n (c.writeIdx - c.readIdx) with hle | hle
          · rw [Nat.min_eq_left hle]
          · rw [Nat.min_eq_right hle, List.drop_of_length_le (by simp),
              List.drop_of_length_le (by simpa using hle)]
        refine ⟨c' :: cs, ?_, ?_, ⟨hc.advance hmin hf, hfull, hs'⟩,
          fun a hb => beyond_head (by rfl) (by rfl) hb⟩
        · have hne : (c'.readIdx == h.size c.data) = false := by simpa using hf
          rw [readLoop, if_neg hn]
          simp only [Chunk.contentSize_eq hc, Option.bind_eq_bind, Option.bind_some, if_neg hz,
            hread, ← hc', hfr, hne, addrs_cons, hsplit.1]
          rfl
        · rw [addrs_cons, addrs_cons, hdrop, hsplit.2]

theorem peekLoop_eq {h : Heap} {cs : List Chunk} (hs : Shape h cs) (n : Nat) :
    peekLoop h cs n = some (((addrs cs).take n).map h.ptr) := by
  induction cs generalizing n with
  | nil => simp [peekLoop]
  | cons c cs ih =>
    obtain ⟨hc, hfull, hs'⟩ := hs
    by_cases hn : n = 0
    · simp [peekLoop, hn]
    have hpeek : c.peek h n = some ((c.addrs.take n).map h.ptr) := by
      simp [Chunk.peek, Chunk.asserted_eq hc.2.1 hc.2.2.1, Chunk.load_addrs]
    rw [peekLoop, if_neg hn]
    simp only [hpeek, Option.bind_eq_bind, Option.bind_some]
    by_cases he : (c.addrs.take n).map h.ptr = []
    · -- a chunk with nothing to read is the last one
      have hz : c.addrs = [] := by
        have := List.map_eq_nil_iff.mp he
        rcases List.take_eq_nil_iff.mp this with h0 | h0
        · exact absurd h0 hn
        · exact h0
      have hcs : cs = [] := by
        by_contra hne
        have hl := congrArg List.length hz
        have := hfull hne
        have := hc.2.2.2
        simp at hl
        omega
      simp [hz, hcs]
    · rw [if_neg he, ih hs', addrs_cons, List.take_append]
      simp
      omega

theorem Chunk.discard_eq {h : Heap} {c : Chunk} {n : Nat} (hc : c.Fits h)
    (hn : n ≤ c.writeIdx - c.readIdx) :
    c.discard h n = some (n, { c with readIdx := c.readIdx + n }) := by
  have hr := hc.2.1
  have ha := Chunk.asserted_eq hr hc.2.2.1
  have ha' : Chunk.asserted h { c with readIdx := c.readIdx + n } =
      some { c with readIdx := c.readIdx + n } := by
    apply Chunk.asserted_eq
    · simp only
      omega
    · exact hc.2.2.1
  simp [Chunk.discard, ha, Nat.min_eq_left hn, ha']

theorem Chunk.take_addrs {c : Chunk} {n : Nat} (hn : n ≤ c.writeIdx - c.readIdx) :
    Chunk.addrs { c with writeIdx := c.readIdx + n } = c.addrs.take n := by
  rw [Chunk.addrs, Chunk.addrs, ← List.map_take, List.take_range'_of_length_ge hn]
  simp

/-- One round of the sharing loop, `k` bytes of the first chunk. -/
theorem shareLoop_cons {h : Heap} {c : Chunk} (cs : List Chunk) {n k : Nat} (hc : c.Fits h)
    (hk : k = min (c.writeIdx - c.readIdx) (n + 1)) (hpos : 0 < k) :
    shareLoop h (c :: cs) (n + 1) =
      if c.readIdx + k = h.size c.data then
        (shareLoop h cs (n + 1 - k)).map fun r =>
          ({ c with writeIdx := c.readIdx + k } :: r.1, r.2)
      else if k = n + 1 then
        some ([{ c with writeIdx := c.readIdx + k }], { c with readIdx := c.readIdx + k } :: cs)
      else none := by
  obtain ⟨hd, hr, hw, hlt⟩ := id hc
  have hchnk : (if c.writeIdx - c.readIdx > n + 1 then
      { c with writeIdx := c.writeIdx - (c.writeIdx - c.readIdx - (n + 1)) } else c) =
      { c with writeIdx := c.readIdx + k } := by
    split
    · congr 1
      omega
    · have : c.readIdx + k = c.writeIdx := by omega
      rw [this]
  have hcnt : Chunk.contentSize h { c with writeIdx := c.readIdx + k } = some k := by
    have := Chunk.asserted_eq (h := h) (c := { c with writeIdx := c.readIdx + k })
      (by simp) (by simp only; omega)
    simp [Chunk.contentSize, this]
  have hdis := Chunk.discard_eq hc (n := k) (by omega)
  have hfr : Chunk.fullyRead h { c with readIdx := c.readIdx + k } =
      some (c.readIdx + k == h.size c.data) :=
    Chunk.fullyRead_eq (by simp only; omega) hw
  have hk0 : k ≠ 0 := by omega
  rw [shareLoop]
  simp only [Chunk.contentSize_eq hc, Option.bind_eq_bind, Option.bind_some, hchnk, hcnt, hdis,
    hfr, if_neg hk0, ne_eq, not_true_eq_false, if_false, beq_iff_eq]
  split
  · cases shareLoop h cs (n + 1 - k) <;> rfl
  · rfl

/-- The shared chunks hold the first `n` addresses and the other marshal keeps the rest. -/
theorem shareLoop_eq {h : Heap} {cs : List Chunk} (hs : Shape h cs) {n : Nat}
    (hn : n ≤ (addrs cs).length) :
    ∃ shared left, shareLoop h cs n = some (shared, left) ∧ Shape h shared ∧ Shape h left ∧
      addrs shared = (addrs cs).take n ∧ addrs left = (addrs cs).drop n ∧
      ∀ a, Beyond h left a → Beyond h cs a := by
  induction cs generalizing n with
  | nil =>
    have h0 : n = 0 := by simpa using hn
    subst h0
    exact ⟨[], [], rfl, trivial, trivial, rfl, rfl, fun _ h => h⟩
  | cons c cs ih =>
    obtain ⟨hc, hfull, hs'⟩ := hs
    obtain ⟨hd, hr, hw, hlt⟩ := id hc
    cases n with
    | zero =>
      exact ⟨[], c :: cs, rfl, trivial, ⟨hc, hfull, hs'⟩, rfl, rfl, fun _ h => h⟩
    | succ n =>
      have hpos : 0 < c.writeIdx - c.readIdx := by
        by_contra h0
        have hcs : cs = [] := by
          by_contra hne
          have := hfull hne
          omega
        subst hcs
        simp at hn
        omega
      obtain ⟨k, hk⟩ : ∃ k, k = min (c.writeIdx - c.readIdx) (n + 1) := ⟨_, rfl⟩
      have hkle : k ≤ c.writeIdx - c.readIdx := by omega
      have hcons := shareLoop_cons cs hc hk (by omega)
      have htake := Chunk.take_addrs hkle
      have hfits : Chunk.Fits h { c with writeIdx := c.readIdx + k } :=
        ⟨hd, by simp, by simp only; omega, hlt⟩
      by_cases hf : c.readIdx + k = h.size c.data
      · -- the whole chunk is shared, and the source drops it
        have hlen : c.addrs.length = k := by
          simp
          omega
        have hall : c.addrs.take k = c.addrs := List.take_of_length_le (Nat.le_of_eq hlen)
        obtain ⟨shared, left, hloop, hsh, hl, hash, hal, hback⟩ :=
          ih hs' (n := n + 1 - k) (by simp at hn; omega)
        refine ⟨{ c with writeIdx := c.readIdx + k } :: shared, left, ?_, ⟨hfits, fun _ => hf, hsh⟩,
          hl, ?_, ?_, fun a hb => beyond_cons (hback a hb)⟩
        · rw [hcons, if_pos hf, hloop]
          rfl
        · have hfst : c.addrs.take (n + 1) = c.addrs := List.take_of_length_le (by omega)
          rw [addrs_cons, addrs_cons, htake, hall, hash, List.take_append, hfst, hlen]
        · have hfst : c.addrs.drop (n + 1) = [] := List.drop_of_length_le (by omega)
          rw [addrs_cons, hal, List.drop_append, hfst, hlen, List.nil_append]
      · -- the sharing stops inside this chunk
        have hkn : k = n + 1 := by
          by_contra hne
          have hlast : cs ≠ [] := by
            rintro rfl
            simp at hn
            omega
          have := hfull hlast
          omega
        have hz : k - c.addrs.length = 0 := by
          simp
          omega
        rw [← hkn] at hcons ⊢
        rw [if_neg hf, if_pos rfl] at hcons
        refine ⟨[{ c with writeIdx := c.readIdx + k }], { c with readIdx := c.readIdx + k } :: cs,
          hcons, ⟨hfits, by simp, trivial⟩, ⟨hc.advance hkle hf, hfull, hs'⟩, ?_, ?_,
          fun a hb => beyond_head (by rfl) (by rfl) hb⟩
        · simp only [addrs_cons, addrs_nil, List.append_nil, htake, List.take_append, hz,
            List.take_zero]
        · simp only [addrs_cons, Chunk.drop_addrs, List.drop_append, hz, List.drop_zero]

/-- The marshal gained the addresses `new` at its end, in memory that it alone could write to. -/
structure Extends (h : Heap) (cs : List Chunk) (h' : Heap) (cs' : List Chunk)
    (new : List Addr) : Prop where
  next : h.next ≤ h'.next
  size : ∀ d < h.next, h'.size d = h.size d
  shape : Shape h' cs'
  addrs : addrs cs' = addrs cs ++ new
  nodup : new.Nodup
  beyond : ∀ a ∈ new, Beyond h cs a
  settled : ∀ a ∈ new, ¬ Beyond h' cs' a
  back : ∀ a, Beyond h' cs' a → Beyond h cs a
  kept : ∀ a ∉ new, h'.ptr a = h.ptr a

theorem Extends.trans {h h' h'' : Heap} {cs cs' cs'' : List Chunk} {new new' : List Addr}
    (e : Extends h cs h' cs' new) (e' : Extends h' cs' h'' cs'' new') :
    Extends h cs h'' cs'' (new ++ new') where
  next := e.next.trans e'.next
  size d hd := (e'.size d (hd.trans_le e.next)).trans (e.size d hd)
  shape := e'.shape
  addrs := by rw [e'.addrs, e.addrs, List.append_assoc]
  nodup := by
    refine List.nodup_append'.mpr ⟨e.nodup, e'.nodup, ?_⟩
    intro a ha ha'
    exact e.settled a ha (e'.beyond a ha')
  beyond a ha := by
    rcases List.mem_append.mp ha with ha | ha
    · exact e.beyond a ha
    · exact e.back a (e'.beyond a ha)
  settled a ha hb := by
    rcases List.mem_append.mp ha with ha | ha
    · exact e.settled a ha (e'.back a hb)
    · exact e'.settled a ha hb
  back a hb := e.back a (e'.back a hb)
  kept a ha := by
    rw [List.mem_append, not_or] at ha
    rw [e'.kept a ha.2, e.kept a ha.1]

theorem Shape.fits {h : Heap} {cs : List Chunk} (hs : Shape h cs) : ∀ c ∈ cs, c.Fits h := by
  induction cs with
  | nil => simp
  | cons c cs ih =>
    intro d hd
    rcases List.mem_cons.mp hd with rfl | hd
    · exact hs.1
    · exact ih hs.2.2 d hd

theorem shape_concat {h : Heap} {cs : List Chunk} {t : Chunk} :
    Shape h (cs ++ [t]) ↔
      (∀ c ∈ cs, c.Fits h ∧ c.writeIdx = h.size c.data) ∧ t.Fits h := by
  induction cs with
  | nil => simp [Shape]
  | cons c cs ih =>
    have hne : cs ++ [t] ≠ [] := by simp
    simp only [List.cons_append, Shape, ih, List.forall_mem_cons]
    constructor
    · rintro ⟨hc, hf, hcs, ht⟩
      exact ⟨⟨⟨hc, hf hne⟩, hcs⟩, ht⟩
    · rintro ⟨⟨⟨hc, hf⟩, hcs⟩, ht⟩
      exact ⟨hc, fun _ => hf, hcs, ht⟩

theorem Chunk.Fits.mono {h h' : Heap} {c : Chunk} (hn : h.next ≤ h'.next)
    (hsz : ∀ d < h.next, h'.size d = h.size d) (hc : c.Fits h) : c.Fits h' := by
  obtain ⟨hd, hr, hw, hlt⟩ := hc
  have he := hsz c.data hd
  exact ⟨hd.trans_le hn, hr, he ▸ hw, he ▸ hlt⟩

theorem Shape.mono {h h' : Heap} {cs : List Chunk} (hn : h.next ≤ h'.next)
    (hsz : ∀ d < h.next, h'.size d = h.size d) (hs : Shape h cs) : Shape h' cs := by
  induction cs with
  | nil => trivial
  | cons c cs ih =>
    have he := hsz c.data hs.1.1
    exact ⟨hs.1.mono hn hsz, fun hne => (hs.2.1 hne).trans he.symm, ih hs.2.2⟩

theorem extends_tail {h : Heap} (h' : Heap) {cs : List Chunk} {t : Chunk} {k : Nat}
    (hs : Shape h (cs ++ [t])) (hk : t.writeIdx + k ≤ h.size t.data)
    (hnext : h'.next = h.next) (hsize : h'.size = h.size)
    (hkept : ∀ a ∉ (List.range' t.writeIdx k).map (Prod.mk t.data), h'.ptr a = h.ptr a) :
    Extends h (cs ++ [t]) h' (cs ++ [{ t with writeIdx := t.writeIdx + k }])
      ((List.range' t.writeIdx k).map (Prod.mk t.data)) := by
  obtain ⟨hcs, ht⟩ := shape_concat.mp hs
  obtain ⟨hd, hr, hw, hlt⟩ := id ht
  have hmono : ∀ c : Chunk, c.Fits h → c.Fits h' := by
    intro c hc
    exact hc.mono (Nat.le_of_eq hnext.symm) (fun d _ => by rw [hsize])
  refine ⟨Nat.le_of_eq hnext.symm, fun d _ => by rw [hsize], ?_, ?_, ?_, ?_, ?_, ?_, hkept⟩
  · refine shape_concat.mpr ⟨fun c hc => ⟨hmono c (hcs c hc).1, by rw [hsize]; exact (hcs c hc).2⟩, ?_⟩
    exact ⟨hnext ▸ hd, by simp only; omega, by simp only [hsize]; exact hk, hsize ▸ hlt⟩
  · have hrange : List.range' t.readIdx (t.writeIdx + k - t.readIdx) =
        List.range' t.readIdx (t.writeIdx - t.readIdx) ++ List.range' t.writeIdx k := by
      have h1 : t.writeIdx + k - t.readIdx = t.writeIdx - t.readIdx + k := by omega
      have h2 : t.readIdx + (t.writeIdx - t.readIdx) = t.writeIdx := by omega
      rw [h1, ← List.range'_append_1, h2]
    simp [Chunk.addrs, hrange]
  · exact (List.nodup_range' 1).map (fun _ _ h => (Prod.mk.inj h).2)
  · intro a ha
    obtain ⟨o, ho, rfl⟩ := List.mem_map.mp ha
    exact .inr ⟨t, by simp, rfl, (List.mem_range'_1.mp ho).1⟩
  · intro a ha hb
    obtain ⟨o, ho, rfl⟩ := List.mem_map.mp ha
    have ho' := (List.mem_range'_1.mp ho).2
    rcases hb with hb | ⟨t', ht', -, hb⟩
    · simp only [hnext] at hb
      omega
    · have : { t with writeIdx := t.writeIdx + k } = t' := by simpa using ht'
      subst this
      simp only at hb
      omega
  · intro a hb
    rcases hb with hb | ⟨t', ht', hda, hb⟩
    · exact .inl (hnext ▸ hb)
    · have : { t with writeIdx := t.writeIdx + k } = t' := by simpa using ht'
      subst this
      simp only at hb
      exact .inr ⟨t, by simp, hda, by omega⟩

theorem extends_newChunk {h : Heap} {cs : List Chunk} (hs : Shape h cs)
    (hfull : ∀ c ∈ cs, c.writeIdx = h.size c.data) (p : List Byte) :
    Extends h cs (newChunk h p).1 (cs ++ [(newChunk h p).2])
      ((List.range' 0 p.length).map (Prod.mk h.next)) := by
  have hsz : ∀ d < h.next, (newChunk h p).1.size d = h.size d := by
    intro d hd
    exact Function.update_of_ne (Nat.ne_of_lt hd) _ _
  have hnew : (newChunk h p).1.size h.next = max p.length minSize := Function.update_self _ _ _
  have hmin : 0 < minSize := by decide
  refine ⟨Nat.le_succ _, hsz, ?_, ?_, ?_, ?_, ?_, ?_, ?_⟩
  · refine shape_concat.mpr ⟨fun c hc => ?_, ?_⟩
    · have hf := hs.fits c hc
      exact ⟨hf.mono (Nat.le_succ _) hsz, (hfull c hc).trans (hsz _ hf.1).symm⟩
    · refine ⟨Nat.lt_succ_self _, Nat.zero_le _, ?_, ?_⟩
      · show p.length ≤ (newChunk h p).1.size h.next
        omega
      · show 0 < (newChunk h p).1.size h.next
        omega
  · simp [newChunk, Chunk.addrs]
  · exact (List.nodup_range' 1).map (fun _ _ h => (Prod.mk.inj h).2)
  · intro a ha
    obtain ⟨o, ho, rfl⟩ := List.mem_map.mp ha
    exact .inl (Nat.le_refl _)
  · intro a ha hb
    obtain ⟨o, ho, rfl⟩ := List.mem_map.mp ha
    have ho' := (List.mem_range'_1.mp ho).2
    rcases hb with hb | ⟨t', ht', -, hb⟩
    · exact absurd hb (Nat.not_succ_le_self _)
    · have : (newChunk h p).2 = t' := by simpa using ht'
      subst this
      simp only [newChunk] at hb
      omega
  · intro a hb
    rcases hb with hb | ⟨t', ht', hda, hb⟩
    · exact .inl ((Nat.le_succ _).trans hb)
    · have : (newChunk h p).2 = t' := by simpa using ht'
      subst this
      exact .inl (Nat.le_of_eq hda.symm)
  · intro a ha
    show (if a.1 = h.next ∧ 0 ≤ a.2 ∧ a.2 < 0 + p.length then _ else _) = _
    rw [if_neg]
    · rfl
    · rintro ⟨h1, -, h2⟩
      exact ha (List.mem_map.mpr ⟨a.2, by simp; omega, by rw [← h1]⟩)

theorem map_ptr_store (h : Heap) (data offset : Nat) (p : List Byte) :
    ((List.range' offset p.length).map (Prod.mk data)).map (h.store data offset p).ptr = p := by
  apply List.ext_getElem
  · simp
  · intro i hi hi'
    simp [Heap.store, hi', List.getD_eq_getElem?_getD]

theorem store_kept (h : Heap) (data offset : Nat) (p : List Byte) {a : Addr}
    (ha : a ∉ (List.range' offset p.length).map (Prod.mk data)) :
    (h.store data offset p).ptr a = h.ptr a := by
  refine if_neg ?_
  rintro ⟨h1, h2, h3⟩
  exact ha (List.mem_map.mpr ⟨a.2, List.mem_range'_1.mpr ⟨h2, h3⟩, by rw [← h1]⟩)

theorem full_of_tail {h : Heap} {cs : List Chunk} {t : Chunk} (hs : Shape h (cs ++ [t]))
    (ht : t.writeIdx = h.size t.data) : ∀ c ∈ cs ++ [t], c.writeIdx = h.size c.data := by
  intro c hc
  rcases List.mem_append.mp hc with hc | hc
  · exact ((shape_concat.mp hs).1 c hc).2
  · rw [List.mem_singleton.mp hc]
    exact ht

theorem Chunk.write_eq {h : Heap} {c : Chunk} (hc : c.Fits h) (p : List Byte) :
    c.write h p = some (min p.length (h.size c.data - c.writeIdx),
      h.store c.data c.writeIdx (p.take (min p.length (h.size c.data - c.writeIdx))),
      { c with writeIdx := c.writeIdx + min p.length (h.size c.data - c.writeIdx) }) := by
  obtain ⟨hd, hr, hw, hlt⟩ := hc
  have ha := Chunk.asserted_eq hr hw
  have ha' : Chunk.asserted
      (h.store c.data c.writeIdx (p.take (min p.length (h.size c.data - c.writeIdx))))
      { c with writeIdx := c.writeIdx + min p.length (h.size c.data - c.writeIdx) } =
      some { c with writeIdx := c.writeIdx + min p.length (h.size c.data - c.writeIdx) } := by
    apply Chunk.asserted_eq
    · simp only
      omega
    · show c.writeIdx + min p.length (h.size c.data - c.writeIdx) ≤ h.size c.data
      omega
  simp only [Chunk.write, ha, Option.bind_eq_bind, Option.bind_some, ha']
  rfl

theorem writeChunks_extends {h : Heap} {cs : List Chunk} (hs : Shape h cs) {p : List Byte}
    (hp : p ≠ []) :
    ∃ h' cs' new, writeChunks h cs p = some (h', cs') ∧ Extends h cs h' cs' new ∧
      new.map h'.ptr = p := by
  have hpos := List.length_pos_iff.mpr hp
  cases cs using List.reverseRecOn with
  | nil =>
    exact ⟨_, _, _, rfl, extends_newChunk hs (by simp) p, map_ptr_store _ _ _ _⟩
  | append_singleton cs t =>
    have ht := (shape_concat.mp hs).2
    obtain ⟨hd, hr, hw, hlt⟩ := id ht
    by_cases hf : t.writeIdx = h.size t.data
    · refine ⟨_, _, _, ?_, extends_newChunk hs (full_of_tail hs hf) p, map_ptr_store _ _ _ _⟩
      simp [writeChunks, Chunk.fullyWritten_eq ht, hf]
    · have hne : (t.writeIdx == h.size t.data) = false := by simpa using hf
      obtain ⟨k, hk⟩ : ∃ k, k = min p.length (h.size t.data - t.writeIdx) := ⟨_, rfl⟩
      have hlen : (p.take k).length = k := by
        rw [List.length_take]
        omega
      have hwrite := Chunk.write_eq ht p
      rw [← hk] at hwrite
      have etail := extends_tail (h.store t.data t.writeIdx (p.take k)) (k := k) hs
        (by omega) rfl rfl (fun a ha => store_kept _ _ _ _ (by rw [hlen]; exact ha))
      have hfirst := map_ptr_store h t.data t.writeIdx (p.take k)
      rw [hlen] at hfirst
      have hk0 : k ≠ 0 := by omega
      have hunfold : writeChunks h (cs ++ [t]) p =
          if k < p.length then
            some ((newChunk (h.store t.data t.writeIdx (p.take k)) (p.drop k)).1,
              cs ++ [{ t with writeIdx := t.writeIdx + k }] ++
                [(newChunk (h.store t.data t.writeIdx (p.take k)) (p.drop k)).2])
          else some (h.store t.data t.writeIdx (p.take k),
            cs ++ [{ t with writeIdx := t.writeIdx + k }]) := by
        simp only [writeChunks, List.getLast?_append, List.getLast?_singleton, Option.some_or,
          Chunk.fullyWritten_eq ht, Option.bind_eq_bind, Option.bind_some, hne, hwrite,
          if_neg hk0, List.dropLast_concat, List.append_assoc]
        rfl
      by_cases hlt' : k < p.length
      · -- the last chunk is filled up, and the rest goes to a new one
        have hfull : ∀ c ∈ cs ++ [{ t with writeIdx := t.writeIdx + k }],
            c.writeIdx = (h.store t.data t.writeIdx (p.take k)).size c.data :=
          full_of_tail etail.shape (show t.writeIdx + k = h.size t.data by omega)
        have enew := extends_newChunk etail.shape hfull (p.drop k)
        refine ⟨_, _, _, by rw [hunfold, if_pos hlt'], etail.trans enew, ?_⟩
        have hkeep : ((List.range' t.writeIdx k).map (Prod.mk t.data)).map
            (newChunk (h.store t.data t.writeIdx (p.take k)) (p.drop k)).1.ptr = p.take k := by
          refine Eq.trans (List.map_congr_left ?_) hfirst
          intro a ha
          apply enew.kept
          intro ha'
          exact etail.settled a ha (enew.beyond a ha')
        rw [List.map_append, hkeep]
        have hsecond := map_ptr_store ((h.store t.data t.writeIdx (p.take k)).alloc (p.drop k).length)
          h.next 0 (p.drop k)
        have hsecond' : ((List.range' 0 (p.drop k).length).map (Prod.mk h.next)).map
            (newChunk (h.store t.data t.writeIdx (p.take k)) (p.drop k)).1.ptr = p.drop k := hsecond
        exact (congrArg (p.take k ++ ·) hsecond').trans (List.take_append_drop k p)
      · refine ⟨_, _, _, by rw [hunfold, if_neg hlt'], etail, ?_⟩
        rw [hfirst]
        exact List.take_of_length_le (by omega)

theorem Chunk.setBookmark_eq {h : Heap} {c : Chunk} (hc : c.Fits h)
    (hlt : c.writeIdx < h.size c.data) :
    c.setBookmark h = some ((c.data, c.writeIdx), { c with writeIdx := c.writeIdx + 1 }) := by
  have ha := Chunk.asserted_eq hc.2.1 hc.2.2.1
  have ha' : Chunk.asserted h { c with writeIdx := c.writeIdx + 1 } =
      some { c with writeIdx := c.writeIdx + 1 } :=
    Chunk.asserted_eq (hc.2.1.trans (Nat.le_succ _)) hlt
  simp [Chunk.setBookmark, ha, ha']

theorem extends_bookmark {h : Heap} {cs : List Chunk} {t : Chunk} (hs : Shape h (cs ++ [t]))
    (hlt : t.writeIdx < h.size t.data) :
    Extends h (cs ++ [t]) h (cs ++ [{ t with writeIdx := t.writeIdx + 1 }])
      [(t.data, t.writeIdx)] :=
  extends_tail h (k := 1) hs hlt rfl rfl (fun _ _ => rfl)

theorem bookmarkLoop_extends {h : Heap} {cs : List Chunk} (hs : Shape h cs) (n : Nat) :
    ∃ as h' cs', bookmarkLoop h cs n = some (as, h', cs') ∧ Extends h cs h' cs' as ∧
      as.length = n := by
  induction n generalizing h cs with
  | zero =>
    refine ⟨[], h, cs, rfl, ?_, rfl⟩
    exact ⟨Nat.le_refl _, fun _ _ => rfl, hs, by simp, List.nodup_nil, by simp, by simp,
      fun _ h => h, fun _ _ => rfl⟩
  | succ n ih =>
    -- the byte goes to the end of the last chunk, which is a new one where there is no room
    have hnew : (∀ c ∈ cs, c.writeIdx = h.size c.data) →
        ∃ a t', (newChunk h []).2.setBookmark (newChunk h []).1 = some (a, t') ∧
          Extends h cs (newChunk h []).1 (cs ++ [t']) [a] := by
      intro hfull
      have enew := extends_newChunk hs hfull []
      have hroom : (newChunk h []).2.writeIdx < (newChunk h []).1.size (newChunk h []).2.data := by
        show 0 < Function.update h.size h.next (max 0 minSize) h.next
        simp [minSize]
      have hfit := (shape_concat.mp enew.shape).2
      have ebm := enew.trans (extends_bookmark enew.shape hroom)
      exact ⟨_, _, Chunk.setBookmark_eq hfit hroom, ebm⟩
    cases cs using List.reverseRecOn with
    | nil =>
      obtain ⟨a, t', hset, e⟩ := hnew (by simp)
      obtain ⟨as, h', cs', hloop, e', hl⟩ := ih e.shape
      refine ⟨a :: as, h', cs', ?_, e.trans e', by simp [hl]⟩
      rw [bookmarkLoop]
      simp only [List.getLast?_nil, hset, Option.bind_eq_bind, Option.bind_some]
      rw [List.nil_append] at hloop
      simp [hloop]
    | append_singleton cs t =>
      have ht := (shape_concat.mp hs).2
      by_cases hf : t.writeIdx = h.size t.data
      · obtain ⟨a, t', hset, e⟩ := hnew (full_of_tail hs hf)
        obtain ⟨as, h', cs', hloop, e', hl⟩ := ih e.shape
        refine ⟨a :: as, h', cs', ?_, e.trans e', by simp [hl]⟩
        rw [bookmarkLoop]
        simp only [List.getLast?_append, List.getLast?_singleton, Option.some_or,
          Chunk.fullyWritten_eq ht, hf, beq_self_eq_true, if_true, Option.bind_eq_bind,
          Option.bind_some, hset, hloop]
        rfl
      · have hne : (t.writeIdx == h.size t.data) = false := by simpa using hf
        have hlt : t.writeIdx < h.size t.data := Nat.lt_of_le_of_ne ht.2.2.1 hf
        have e := extends_bookmark hs hlt
        obtain ⟨as, h', cs', hloop, e', hl⟩ := ih e.shape
        refine ⟨(t.data, t.writeIdx) :: as, h', cs', ?_, e.trans e', by simp [hl]⟩
        rw [bookmarkLoop]
        simp only [List.getLast?_append, List.getLast?_singleton, Option.some_or,
          Chunk.fullyWritten_eq ht, hne, Option.bind_eq_bind, Option.bind_some,
          Chunk.setBookmark_eq ht hlt, List.dropLast_concat, hloop]
        rfl

end Jetpack.Rpc
