import Jetpack.Library.Voting

/-! Logs that one leader extends in each term. The entries of a term are those that its leader has
appended, so two logs with entries of one term in one slot are equal up to there; and what a quorum
has of the leader of its own term is in the log of every later leader. -/

namespace Leadership

open QuorumVoting

variable {ι ε : Type}

/-- A leader's log has the slots from 1 to `last`; it was elected with the first `start` of them. -/
structure Reign (ι ε : Type) where
  leader : ι
  log : Nat → ε
  start : Nat
  last : Nat

/-- The leaders by term, and the slots in which a member has agreed with one. -/
structure Chronicle (ι ε : Type) where
  reign : Nat → Option (Reign ι ε) := fun _ => none
  acked : ι → Nat → Nat := fun _ _ => 0

def Agrees (log log' : Nat → ε) (k : Nat) : Prop := ∀ j, 0 < j → j ≤ k → log j = log' j

theorem Agrees.symm {log log' : Nat → ε} {k : Nat} (h : Agrees log log' k) : Agrees log' log k :=
  fun j hpos hj => (h j hpos hj).symm

theorem Agrees.trans {log log' log'' : Nat → ε} {k : Nat} (h : Agrees log log' k)
    (h' : Agrees log' log'' k) : Agrees log log'' k :=
  fun j hpos hj => (h j hpos hj).trans (h' j hpos hj)

theorem Agrees.mono {log log' : Nat → ε} {k l : Nat} (h : Agrees log log' k) (hl : l ≤ k) :
    Agrees log log' l :=
  fun j hpos hj => h j hpos (hj.trans hl)

/-- The first `k` slots of the second log are among the `len` slots of the first. -/
structure Holds (log : Nat → ε) (len : Nat) (log' : Nat → ε) (k : Nat) : Prop where
  le : k ≤ len
  agrees : Agrees log log' k

theorem Holds.mono {log log' : Nat → ε} {len k l : Nat} (h : Holds log len log' k) (hl : l ≤ k) :
    Holds log len log' l :=
  ⟨hl.trans h.le, h.agrees.mono hl⟩

theorem Holds.trans {log log' log'' : Nat → ε} {len len' k : Nat} (h : Holds log len log' k)
    (h' : Holds log' len' log'' k) : Holds log len log'' k :=
  ⟨h.le, h.agrees.trans h'.agrees⟩

namespace Chronicle

variable {termOf : ε → Nat} {c c' : Chronicle ι ε}

/-- Every entry is one of the leader of its term, and so is all that comes before it. -/
def Follows (termOf : ε → Nat) (c : Chronicle ι ε) (log : Nat → ε) (len : Nat) : Prop :=
  ∀ i, 0 < i → i ≤ len →
    ∃ R, c.reign (termOf (log i)) = some R ∧ i ≤ R.last ∧ Agrees log R.log i

structure Sound (termOf : ε → Nat) (c : Chronicle ι ε) : Prop where
  follows : ∀ {t R}, c.reign t = some R → c.Follows termOf R.log R.last
  start_le : ∀ {t R}, c.reign t = some R → R.start ≤ R.last
  before : ∀ {t R i}, c.reign t = some R → 0 < i → i ≤ R.start → termOf (R.log i) < t
  within : ∀ {t R i}, c.reign t = some R → R.start < i → i ≤ R.last → termOf (R.log i) = t
  acked_none : ∀ {t v}, c.reign t = none → c.acked v t = 0
  acked_le : ∀ {t R v}, c.reign t = some R → c.acked v t ≤ R.last

/-- The leaders of the terms between were all elected with these slots. -/
def Spared (c : Chronicle ι ε) (t u : Nat) (log : Nat → ε) (k : Nat) : Prop :=
  ∀ t' R, t < t' → t' < u → c.reign t' = some R → Holds R.log R.start log k

/-- This log of a member has what the member agreed on in terms before `u`, unless a leader between
did not have it. -/
def Keeps (c : Chronicle ι ε) (v : ι) (u : Nat) (log : Nat → ε) (len : Nat) : Prop :=
  ∀ t R k, t < u → c.reign t = some R → k ≤ c.acked v t → c.Spared t u R.log k →
    Holds log len R.log k

/-- The same of a log that the member has voted for, and of slots that end with an entry of the term
itself. -/
def Backs (termOf : ε → Nat) (c : Chronicle ι ε) (v : ι) (u : Nat) (log : Nat → ε) (len : Nat) :
    Prop :=
  ∀ t R k, t < u → c.reign t = some R → 0 < k → k ≤ c.acked v t → termOf (R.log k) = t →
    c.Spared t u R.log k → Holds log len R.log k

/-- A quorum agreed with the leader up to an entry of its own term. -/
structure Chosen (termOf : ε → Nat) (q : QuorumSystem ι) (c : Chronicle ι ε) (t : Nat)
    (R : Reign ι ε) (k : Nat) : Prop where
  reign : c.reign t = some R
  pos : 0 < k
  le : k ≤ R.last
  term : termOf (R.log k) = t
  acked : ∃ Q, q.IsQuorum Q ∧ ∀ v ∈ Q, k ≤ c.acked v t

/-- Each leader was elected by a quorum that backs it. -/
def Backed (termOf : ε → Nat) (q : QuorumSystem ι) (c : Chronicle ι ε) : Prop :=
  ∀ {t R}, c.reign t = some R → ∃ Q, q.IsQuorum Q ∧ ∀ v ∈ Q, c.Backs termOf v t R.log R.start

theorem Keeps.backs {v : ι} {u : Nat} {log : Nat → ε} {len : Nat} (h : c.Keeps v u log len) :
    c.Backs termOf v u log len :=
  fun t R k hlt hR _ hk _ hspared => h t R k hlt hR hk hspared

theorem Sound.term_le (h : c.Sound termOf) {t i : Nat} {R : Reign ι ε} (hR : c.reign t = some R)
    (hpos : 0 < i) (hi : i ≤ R.last) : termOf (R.log i) ≤ t := by
  rcases Nat.lt_or_ge R.start i with hlt | hle
  · exact (h.within hR hlt hi).le
  · exact (h.before hR hpos hle).le

theorem Follows.matching {log log' : Nat → ε} {len len' i : Nat} (h : c.Follows termOf log len)
    (h' : c.Follows termOf log' len') (hpos : 0 < i) (hi : i ≤ len) (hi' : i ≤ len')
    (hterm : termOf (log i) = termOf (log' i)) : Agrees log log' i := by
  obtain ⟨R, hR, -, hagrees⟩ := h i hpos hi
  obtain ⟨R', hR', -, hagrees'⟩ := h' i hpos hi'
  rw [hterm, hR'] at hR
  obtain rfl := Option.some.inj hR
  exact hagrees.trans hagrees'.symm

theorem Follows.of_agrees {log log' : Nat → ε} {len len' : Nat} (h : c.Follows termOf log' len')
    (hlen : len ≤ len') (hagrees : Agrees log log' len) : c.Follows termOf log len := by
  intro i hpos hi
  obtain ⟨R, hR, hle, hlog⟩ := h i hpos (hi.trans hlen)
  refine ⟨R, ?_, hle, (hagrees.mono hi).trans hlog⟩
  rw [hagrees i hpos hi]
  exact hR

/-- A candidate whose log is not behind a voter's has what the voter has, if no leader between lost
it. -/
theorem Sound.holds_of_upToDate (h : c.Sound termOf) {t u k li : Nat} {R : Reign ι ε}
    {voterLog log : Nat → ε} {voterLen len : Nat} (hR : c.reign t = some R) (hpos : 0 < k)
    (hterm : termOf (R.log k) = t) (hspared : c.Spared t u R.log k)
    (hvoter : c.Follows termOf voterLog voterLen) (hholds : Holds voterLog voterLen R.log k)
    (hlog : c.Follows termOf log len) (hli : li ≤ len) (hlipos : 0 < li)
    (holder : termOf (log li) < u)
    (hupto : termOf (voterLog voterLen) < termOf (log li) ∨
      termOf (log li) = termOf (voterLog voterLen) ∧ voterLen ≤ li) :
    Holds log len R.log k := by
  have hvoterpos : 0 < voterLen := hpos.trans_le hholds.le
  obtain ⟨R₁, hR₁, hlast₁, hagrees₁⟩ := hvoter voterLen hvoterpos (le_refl _)
  -- The voter's last entry is no older than the slot it holds.
  have hlast : t ≤ termOf (voterLog voterLen) := by
    rw [← hterm, ← hholds.agrees k hpos (le_refl k), hagrees₁ k hpos hholds.le]
    exact h.term_le hR₁ hpos (hholds.le.trans hlast₁)
  obtain ⟨R₂, hR₂, hlast₂, hagrees₂⟩ := hlog li hlipos hli
  have hle : t ≤ termOf (log li) := by
    rcases hupto with hlt | ⟨heq, -⟩
    · exact hlast.trans hlt.le
    · exact hlast.trans heq.ge
  rcases Nat.lt_or_eq_of_le hle with hlt | heq
  · -- The candidate's last entry is of a leader between, which had the slots when it was elected.
    have hbetween := hspared _ R₂ hlt holder hR₂
    have hbehind : R₂.start < li := by
      by_contra hbefore
      have hbad := h.before hR₂ hlipos (Nat.not_lt.mp hbefore)
      rw [← hagrees₂ li hlipos (le_refl li)] at hbad
      exact absurd hbad (lt_irrefl _)
    have hk : k ≤ li := hbetween.le.trans hbehind.le
    exact ⟨hk.trans hli, (hagrees₂.mono hk).trans hbetween.agrees⟩
  · have hk : k ≤ li := by
      rcases hupto with hlt | ⟨-, hlen⟩
      · omega
      · exact hholds.le.trans hlen
    rw [← heq, hR] at hR₂
    obtain rfl := Option.some.inj hR₂
    exact ⟨hk.trans hli, hagrees₂.mono hk⟩

/-- What a quorum agreed on is in the log with which every later leader was elected. -/
theorem Chosen.complete {q : QuorumSystem ι} {t k : Nat} {R : Reign ι ε}
    (h : c.Chosen termOf q t R k) (hbacked : c.Backed termOf q) {u : Nat} {R' : Reign ι ε}
    (hR' : c.reign u = some R') (hlt : t < u) : Holds R'.log R'.start R.log k := by
  induction u using Nat.strong_induction_on generalizing R' with
  | _ u ih =>
    obtain ⟨Q, hQ, hacked⟩ := h.acked
    obtain ⟨P, hP, hbacks⟩ := hbacked hR'
    obtain ⟨v, hvQ, hvP⟩ := q.inter hQ hP
    refine hbacks v hvP t R k hlt h.reign h.pos (hacked v hvQ) h.term ?_
    exact fun t' R₁ hgt hbefore hR₁ => ih t' hbefore hR₁ hgt

theorem Chosen.holds {q : QuorumSystem ι} {t k : Nat} {R : Reign ι ε}
    (h : c.Chosen termOf q t R k) (hsound : c.Sound termOf) (hbacked : c.Backed termOf q) {u : Nat}
    {R' : Reign ι ε} (hR' : c.reign u = some R') (hle : t ≤ u) : Holds R'.log R'.last R.log k := by
  rcases Nat.lt_or_eq_of_le hle with hlt | rfl
  · have hstart := h.complete hbacked hR' hlt
    exact ⟨hstart.le.trans (hsound.start_le hR'), hstart.agrees⟩
  · rw [h.reign] at hR'
    obtain rfl := Option.some.inj hR'
    exact ⟨h.le, fun _ _ _ => rfl⟩

theorem Chosen.agree {q : QuorumSystem ι} {t t' k k' : Nat} {R R' : Reign ι ε}
    (h : c.Chosen termOf q t R k) (h' : c.Chosen termOf q t' R' k') (hsound : c.Sound termOf)
    (hbacked : c.Backed termOf q) : Agrees R.log R'.log (min k k') := by
  rcases Nat.le_total t t' with hle | hle
  · exact ((h.holds hsound hbacked h'.reign hle).agrees.mono (min_le_left k k')).symm
  · exact (h'.holds hsound hbacked h.reign hle).agrees.mono (min_le_right k k')

end Chronicle

/-! Leaders append to their logs, and new leaders come. -/

structure Reign.Extends (R R' : Reign ι ε) : Prop where
  leader : R'.leader = R.leader
  start : R'.start = R.start
  last : R.last ≤ R'.last
  agrees : Agrees R'.log R.log R.last

def Reign.append (R : Reign ι ε) (e : ε) : Reign ι ε :=
  { R with log := Function.update R.log (R.last + 1) e, last := R.last + 1 }

theorem Reign.append_new (R : Reign ι ε) (e : ε) : (R.append e).log (R.last + 1) = e :=
  Function.update_self ..

theorem Reign.append_old (R : Reign ι ε) (e : ε) {j : Nat} (h : j ≤ R.last) :
    (R.append e).log j = R.log j :=
  Function.update_of_ne (by omega) _ _

theorem Reign.extends_append (R : Reign ι ε) (e : ε) : R.Extends (R.append e) :=
  ⟨rfl, rfl, Nat.le_succ _, fun _ _ hj => R.append_old e hj⟩

theorem Reign.Extends.refl (R : Reign ι ε) : R.Extends R := ⟨rfl, rfl, le_refl _, fun _ _ _ => rfl⟩

theorem Reign.Extends.trans {R R' R'' : Reign ι ε} (h : R.Extends R') (h' : R'.Extends R'') :
    R.Extends R'' :=
  ⟨h'.leader.trans h.leader, h'.start.trans h.start, h.last.trans h'.last,
    (h'.agrees.mono h.last).trans h.agrees⟩

theorem Holds.extends {log : Nat → ε} {len k : Nat} {R R' : Reign ι ε} (h : R.Extends R')
    (hk : k ≤ R.last) : Holds log len R'.log k ↔ Holds log len R.log k :=
  ⟨fun hh => ⟨hh.le, hh.agrees.trans (h.agrees.mono hk)⟩,
    fun hh => ⟨hh.le, hh.agrees.trans (h.agrees.mono hk).symm⟩⟩

namespace Chronicle

variable {termOf : ε → Nat} {c c' : Chronicle ι ε}

structure Grows (c c' : Chronicle ι ε) : Prop where
  reign : ∀ {t R}, c.reign t = some R → ∃ R', c'.reign t = some R' ∧ R.Extends R'
  acked : ∀ v t, c.acked v t ≤ c'.acked v t

theorem Grows.refl (c : Chronicle ι ε) : c.Grows c := ⟨fun h => ⟨_, h, .refl _⟩, fun _ _ => le_refl _⟩

theorem Grows.trans {c'' : Chronicle ι ε} (h : c.Grows c') (h' : c'.Grows c'') : c.Grows c'' := by
  refine ⟨fun hR => ?_, fun v t => (h.acked v t).trans (h'.acked v t)⟩
  obtain ⟨R', hR', hext⟩ := h.reign hR
  obtain ⟨R'', hR'', hext'⟩ := h'.reign hR'
  exact ⟨R'', hR'', hext.trans hext'⟩

theorem Follows.grows {log : Nat → ε} {len : Nat} (h : c.Follows termOf log len)
    (hgrows : c.Grows c') : c'.Follows termOf log len := by
  intro i hpos hi
  obtain ⟨R, hR, hle, hagrees⟩ := h i hpos hi
  obtain ⟨R', hR', hext⟩ := hgrows.reign hR
  exact ⟨R', hR', hle.trans hext.last, hagrees.trans (hext.agrees.mono hle).symm⟩

theorem Spared.of_grows {t u k : Nat} {R R' : Reign ι ε} (hsound : c.Sound termOf)
    (hgrows : c.Grows c') (hext : R.Extends R') (hk : k ≤ R.last)
    (h : c'.Spared t u R'.log k) : c.Spared t u R.log k := by
  intro t' R₁ hgt hlt hR₁
  obtain ⟨R₁', hR₁', hext₁⟩ := hgrows.reign hR₁
  have hholds := (Holds.extends hext hk).mp (h t' R₁' hgt hlt hR₁')
  rw [hext₁.start] at hholds
  have hle := hholds.le.trans (hsound.start_le hR₁)
  exact ⟨hholds.le, (hext₁.agrees.mono hle).symm.trans hholds.agrees⟩

/-- A reign that is new has not been agreed with. -/
theorem Sound.exists_reign (h : c.Sound termOf) (hgrows : c.Grows c') {t k : Nat} {v : ι}
    {R' : Reign ι ε} (hR' : c'.reign t = some R') (hpos : 0 < k) (hk : k ≤ c.acked v t) :
    ∃ R, c.reign t = some R ∧ R.Extends R' ∧ k ≤ R.last := by
  cases hR : c.reign t with
  | none =>
    have hnone := h.acked_none (v := v) hR
    omega
  | some R =>
    obtain ⟨R₁, hR₁, hext⟩ := hgrows.reign hR
    rw [hR'] at hR₁
    obtain rfl := Option.some.inj hR₁
    exact ⟨R, rfl, hext, hk.trans (h.acked_le hR)⟩

theorem Keeps.holds_of_grows {v : ι} {t u k len : Nat} {log : Nat → ε} {R' : Reign ι ε}
    (h : c.Keeps v u log len) (hsound : c.Sound termOf) (hgrows : c.Grows c') (hlt : t < u)
    (hR' : c'.reign t = some R') (hk : k ≤ c.acked v t) (hspared : c'.Spared t u R'.log k) :
    Holds log len R'.log k := by
  rcases Nat.eq_zero_or_pos k with rfl | hpos
  · exact ⟨Nat.zero_le _, fun j hj hle => by omega⟩
  · obtain ⟨R, hR, hext, hkR⟩ := hsound.exists_reign hgrows hR' hpos hk
    exact (Holds.extends hext hkR).mpr
      (h t R k hlt hR hk (Spared.of_grows hsound hgrows hext hkR hspared))

theorem Keeps.grows {v : ι} {u len : Nat} {log : Nat → ε} (h : c.Keeps v u log len)
    (hsound : c.Sound termOf) (hgrows : c.Grows c')
    (hacked : ∀ t, t < u → c'.acked v t = c.acked v t) : c'.Keeps v u log len := by
  intro t R' k hlt hR' hk hspared
  rw [hacked t hlt] at hk
  exact h.holds_of_grows hsound hgrows hlt hR' hk hspared

theorem Backs.grows {v : ι} {u len : Nat} {log : Nat → ε} (h : c.Backs termOf v u log len)
    (hsound : c.Sound termOf) (hgrows : c.Grows c')
    (hacked : ∀ t, t < u → c'.acked v t = c.acked v t) : c'.Backs termOf v u log len := by
  intro t R' k hlt hR' hpos hk hterm hspared
  rw [hacked t hlt] at hk
  obtain ⟨R, hR, hext, hkR⟩ := hsound.exists_reign hgrows hR' hpos hk
  have hterm' : termOf (R.log k) = t := by
    rw [← hext.agrees k hpos hkR]
    exact hterm
  exact (Holds.extends hext hkR).mpr
    (h t R k hlt hR hpos hk hterm' (Spared.of_grows hsound hgrows hext hkR hspared))

/-- A member that moves to a later term has not agreed with the leaders in between. -/
theorem Keeps.later {v : ι} {u u' len : Nat} {log : Nat → ε} (h : c.Keeps v u log len)
    (hle : u ≤ u') (hnone : ∀ t, u ≤ t → c.acked v t = 0) : c.Keeps v u' log len := by
  intro t R k hlt hR hk hspared
  rcases Nat.lt_or_ge t u with hold | hnew
  · exact h t R k hold hR hk fun t' R₁ hgt hbefore => hspared t' R₁ hgt (hbefore.trans_le hle)
  · rw [hnone t hnew] at hk
    obtain rfl := Nat.le_zero.mp hk
    exact ⟨Nat.zero_le _, fun j hj hle => by omega⟩

theorem Chosen.grows {q : QuorumSystem ι} {t k : Nat} {R : Reign ι ε}
    (h : c.Chosen termOf q t R k) (hgrows : c.Grows c') :
    ∃ R', R.Extends R' ∧ c'.Chosen termOf q t R' k := by
  obtain ⟨R', hR', hext⟩ := hgrows.reign h.reign
  obtain ⟨Q, hQ, hacked⟩ := h.acked
  refine ⟨R', hext, hR', h.pos, h.le.trans hext.last, ?_, Q, hQ, fun v hv => ?_⟩
  · rw [hext.agrees k h.pos h.le]
    exact h.term
  · exact (hacked v hv).trans (hgrows.acked v t)

def put (c : Chronicle ι ε) (t : Nat) (R : Reign ι ε) : Chronicle ι ε :=
  { c with reign := Function.update c.reign t (some R) }

theorem put_self (c : Chronicle ι ε) (t : Nat) (R : Reign ι ε) : (c.put t R).reign t = some R :=
  Function.update_self ..

theorem put_of_ne (c : Chronicle ι ε) {t u : Nat} (R : Reign ι ε) (h : u ≠ t) :
    (c.put t R).reign u = c.reign u :=
  Function.update_of_ne h _ _

theorem grows_put_new {t : Nat} (R : Reign ι ε) (h : c.reign t = none) : c.Grows (c.put t R) := by
  refine ⟨fun {u R'} hR' => ⟨R', ?_, .refl R'⟩, fun _ _ => le_refl _⟩
  have hne : u ≠ t := by
    rintro rfl
    rw [h] at hR'
    cases hR'
  rw [c.put_of_ne R hne]
  exact hR'

theorem grows_put {t : Nat} {R R' : Reign ι ε} (h : c.reign t = some R) (hext : R.Extends R') :
    c.Grows (c.put t R') := by
  refine ⟨fun {u R₁} hR₁ => ?_, fun _ _ => le_refl _⟩
  by_cases hu : u = t
  · subst hu
    rw [h] at hR₁
    obtain rfl := Option.some.inj hR₁
    exact ⟨R', c.put_self u R', hext⟩
  · exact ⟨R₁, (c.put_of_ne R' hu).trans hR₁, .refl R₁⟩

theorem eq_of_put {t u : Nat} {R R' : Reign ι ε} (h : (c.put t R).reign u = some R') :
    (u = t ∧ R' = R) ∨ (u ≠ t ∧ c.reign u = some R') := by
  by_cases hu : u = t
  · subst hu
    rw [put_self] at h
    exact .inl ⟨rfl, (Option.some.inj h).symm⟩
  · rw [c.put_of_ne R hu] at h
    exact .inr ⟨hu, h⟩

theorem none_of_put {t u : Nat} {R : Reign ι ε} (h : (c.put t R).reign u = none) :
    c.reign u = none := by
  by_cases hu : u = t
  · subst hu
    rw [put_self] at h
    cases h
  · rwa [c.put_of_ne R hu] at h

theorem Sound.elect (h : c.Sound termOf) {t : Nat} {R : Reign ι ε} (hnone : c.reign t = none)
    (hstart : R.start = R.last) (hfollows : c.Follows termOf R.log R.last)
    (holder : ∀ i, 0 < i → i ≤ R.last → termOf (R.log i) < t) : (c.put t R).Sound termOf where
  follows hR' := by
    obtain ⟨rfl, rfl⟩ | ⟨-, hold⟩ := eq_of_put hR'
    · exact hfollows.grows (grows_put_new _ hnone)
    · exact (h.follows hold).grows (grows_put_new _ hnone)
  start_le hR' := by
    obtain ⟨-, rfl⟩ | ⟨-, hold⟩ := eq_of_put hR'
    · exact hstart.le
    · exact h.start_le hold
  before hR' hpos hi := by
    obtain ⟨rfl, rfl⟩ | ⟨-, hold⟩ := eq_of_put hR'
    · exact holder _ hpos (hi.trans hstart.le)
    · exact h.before hold hpos hi
  within hR' hlt hi := by
    obtain ⟨-, rfl⟩ | ⟨-, hold⟩ := eq_of_put hR'
    · omega
    · exact h.within hold hlt hi
  acked_none hnone' := h.acked_none (none_of_put hnone')
  acked_le {u R' v} hR' := by
    obtain ⟨rfl, -⟩ | ⟨-, hold⟩ := eq_of_put hR'
    · exact (h.acked_none hnone).le.trans (Nat.zero_le _)
    · exact h.acked_le hold

theorem Sound.append (h : c.Sound termOf) {t : Nat} {R : Reign ι ε} (hR : c.reign t = some R) {e : ε}
    (he : termOf e = t) : (c.put t (R.append e)).Sound termOf where
  follows {u R'} hR' := by
    have hgrows := grows_put hR (R.extends_append e)
    obtain ⟨rfl, rfl⟩ | ⟨-, hold⟩ := eq_of_put hR'
    · intro i hpos hi
      rcases Nat.lt_or_ge R.last i with hnew | hle
      · obtain rfl : i = R.last + 1 := Nat.le_antisymm hi hnew
        refine ⟨R.append e, ?_, le_refl _, fun _ _ _ => rfl⟩
        rw [R.append_new, he]
        exact c.put_self u _
      · have hfollows : (c.put u (R.append e)).Follows termOf (R.append e).log R.last :=
          ((h.follows hR).grows hgrows).of_agrees (le_refl _) (R.extends_append e).agrees
        exact hfollows i hpos hle
    · exact (h.follows hold).grows hgrows
  start_le hR' := by
    obtain ⟨-, rfl⟩ | ⟨-, hold⟩ := eq_of_put hR'
    · exact (h.start_le hR).trans (Nat.le_succ _)
    · exact h.start_le hold
  before hR' hpos hi := by
    obtain ⟨rfl, rfl⟩ | ⟨-, hold⟩ := eq_of_put hR'
    · have hstart := (h.start_le hR).trans' hi
      rw [R.append_old e hstart]
      exact h.before hR hpos hi
    · exact h.before hold hpos hi
  within {u R' i} hR' hlt hi := by
    obtain ⟨rfl, rfl⟩ | ⟨-, hold⟩ := eq_of_put hR'
    · rcases Nat.lt_or_ge R.last i with hnew | hle
      · obtain rfl : i = R.last + 1 := Nat.le_antisymm hi hnew
        rw [R.append_new]
        exact he
      · rw [R.append_old e hle]
        exact h.within hR hlt hle
    · exact h.within hold hlt hi
  acked_none hnone := h.acked_none (none_of_put hnone)
  acked_le {u R' v} hR' := by
    obtain ⟨rfl, rfl⟩ | ⟨-, hold⟩ := eq_of_put hR'
    · exact (h.acked_le hR).trans (Nat.le_succ _)
    · exact h.acked_le hold

variable [DecidableEq ι]

/-- The chronicle when `v` has agreed with the leader of a term up to `k`. -/
def ack (c : Chronicle ι ε) (v : ι) (t k : Nat) : Chronicle ι ε :=
  { c with acked := fun w u => if w = v ∧ u = t then max (c.acked w u) k else c.acked w u }

theorem ack_self (c : Chronicle ι ε) (v : ι) (t k : Nat) :
    (c.ack v t k).acked v t = max (c.acked v t) k :=
  if_pos ⟨rfl, rfl⟩

theorem ack_of_ne (c : Chronicle ι ε) {v w : ι} {t u : Nat} (k : Nat) (h : ¬ (w = v ∧ u = t)) :
    (c.ack v t k).acked w u = c.acked w u :=
  if_neg h

theorem grows_ack (c : Chronicle ι ε) (v : ι) (t k : Nat) : c.Grows (c.ack v t k) := by
  refine ⟨fun h => ⟨_, h, .refl _⟩, fun w u => ?_⟩
  by_cases h : w = v ∧ u = t
  · obtain ⟨rfl, rfl⟩ := h
    rw [ack_self]
    exact le_max_left _ _
  · exact (c.ack_of_ne k h).ge

theorem Sound.ack (h : c.Sound termOf) {v : ι} {t k : Nat} {R : Reign ι ε}
    (hR : c.reign t = some R) (hk : k ≤ R.last) : (c.ack v t k).Sound termOf where
  follows := h.follows
  start_le := h.start_le
  before := h.before
  within := h.within
  acked_none {u w} hnone := by
    have hne : ¬ (w = v ∧ u = t) := by
      rintro ⟨-, rfl⟩
      rw [show c.reign u = none from hnone] at hR
      cases hR
    rw [c.ack_of_ne k hne]
    exact h.acked_none hnone
  acked_le {u R' w} hR' := by
    by_cases hsame : w = v ∧ u = t
    · obtain ⟨rfl, rfl⟩ := hsame
      rw [show c.reign u = some R' from hR'] at hR
      obtain rfl := Option.some.inj hR
      rw [ack_self]
      exact max_le (h.acked_le hR') hk
    · rw [c.ack_of_ne k hsame]
      exact h.acked_le hR'

end Chronicle

end Leadership
