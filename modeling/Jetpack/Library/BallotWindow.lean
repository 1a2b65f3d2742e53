import Jetpack.Library.Voting

/-! Agreement on one value when a proposal is accepted at a ballot other than the prepared one. Two
proposals of different values are told apart by their windows, the ballots from the prepared to the
accepted one: if windows of different values never overlap, at most one value is chosen. -/

namespace BallotWindow

open QuorumVoting

structure Proposal (ρ ν : Type) where
  round : ρ
  prepared : Int
  ballot : Int
  value : ν
  deriving DecidableEq

variable {ι ρ ν : Type}

/-- The proposals made, who accepted which, and the ballots at which an acceptor accepts nothing any
more. -/
structure History (ι ρ ν : Type) where
  proposed : Proposal ρ ν → Prop
  accepted : ι → Proposal ρ ν → Prop
  closed : ι → Int → Prop

def Apart (p p' : Proposal ρ ν) : Prop :=
  p.value ≠ p'.value → p.ballot < p'.prepared ∨ p'.ballot < p.prepared

instance [DecidableEq ν] (p p' : Proposal ρ ν) : Decidable (Apart p p') :=
  inferInstanceAs (Decidable (_ → _))

namespace History

def Chosen (q : QuorumSystem ι) (h : History ι ρ ν) (p : Proposal ρ ν) : Prop :=
  ∃ Q, q.IsQuorum Q ∧ ∀ v ∈ Q, h.accepted v p

def Dead (q : QuorumSystem ι) (h : History ι ρ ν) (p : Proposal ρ ν) : Prop :=
  ∃ Q, q.IsQuorum Q ∧ ∀ v ∈ Q, h.closed v p.ballot ∧ ¬ h.accepted v p

def Promised (q : QuorumSystem ι) (h : History ι ρ ν) (ballot : Int) : Prop :=
  ∃ Q, q.IsQuorum Q ∧ ∀ v ∈ Q, ∀ b < ballot, h.closed v b

structure Safe (q : QuorumSystem ι) (h : History ι ρ ν) : Prop where
  window : ∀ {p}, h.proposed p → p.prepared ≤ p.ballot
  apart : ∀ {p p'}, h.proposed p → h.proposed p' → Apart p p'
  promised : ∀ {p}, h.proposed p → h.Promised q p.prepared
  dead : ∀ {p p'}, h.proposed p → h.proposed p' → p.value ≠ p'.value →
    p.ballot < p'.prepared → h.Dead q p

variable {q : QuorumSystem ι} {h h' : History ι ρ ν}

theorem Dead.not_chosen {p : Proposal ρ ν} (hdead : h.Dead q p) : ¬ h.Chosen q p := by
  rintro ⟨P, hP, haccepted⟩
  obtain ⟨Q, hQ, hclosed⟩ := hdead
  obtain ⟨v, hvP, hvQ⟩ := q.inter hP hQ
  exact (hclosed v hvQ).2 (haccepted v hvP)

theorem Safe.agree (hs : h.Safe q) {p p' : Proposal ρ ν} (hp : h.proposed p) (hp' : h.proposed p')
    (hc : h.Chosen q p) (hc' : h.Chosen q p') : p.value = p'.value := by
  by_contra hne
  rcases hs.apart hp hp' hne with hlt | hlt
  · exact (hs.dead hp hp' hne hlt).not_chosen hc
  · exact (hs.dead hp' hp (Ne.symm hne) hlt).not_chosen hc'

structure Grows (h h' : History ι ρ ν) : Prop where
  proposed : ∀ {p}, h'.proposed p ↔ h.proposed p
  accepted_keep : ∀ {v p}, h.accepted v p → h'.accepted v p
  accepted_new : ∀ {v p}, h.proposed p → h'.accepted v p → h.accepted v p ∨ ¬ h.closed v p.ballot
  closed : ∀ {v b}, h.closed v b → h'.closed v b

theorem Chosen.grows {p : Proposal ρ ν} (hc : h.Chosen q p) (hg : h.Grows h') : h'.Chosen q p := by
  obtain ⟨Q, hQ, haccepted⟩ := hc
  exact ⟨Q, hQ, fun v hv => hg.accepted_keep (haccepted v hv)⟩

theorem Safe.grows (hs : h.Safe q) (hg : h.Grows h') : h'.Safe q := by
  refine ⟨fun hp => hs.window (hg.proposed.mp hp),
    fun hp hp' => hs.apart (hg.proposed.mp hp) (hg.proposed.mp hp'), fun hp => ?_, ?_⟩
  · obtain ⟨Q, hQ, hclosed⟩ := hs.promised (hg.proposed.mp hp)
    exact ⟨Q, hQ, fun v hv b hb => hg.closed (hclosed v hv b hb)⟩
  · intro p p' hp hp' hne hlt
    obtain ⟨Q, hQ, hdead⟩ := hs.dead (hg.proposed.mp hp) (hg.proposed.mp hp') hne hlt
    refine ⟨Q, hQ, fun v hv => ⟨hg.closed (hdead v hv).1, fun hacc => ?_⟩⟩
    rcases hg.accepted_new (hg.proposed.mp hp) hacc with hold | hopen
    · exact (hdead v hv).2 hold
    · exact hopen (hdead v hv).1

/-- Where a reported value comes from: a proposal of the reported ballot, or one that was chosen. -/
def Source (q : QuorumSystem ι) (h : History ι ρ ν) (b : Int) (x : ν) : Prop :=
  (∃ p, h.proposed p ∧ p.ballot = b ∧ p.value = x) ∨ ∃ p, h.proposed p ∧ h.Chosen q p ∧ p.value = x

/-- What the answers of a quorum to a prepare call tell about the value to propose: they found no
accepted proposal below the prepared ballot, or the value comes from a ballot no lower than any
they accepted. -/
def Reported (q : QuorumSystem ι) (h : History ι ρ ν) (prepared : Int) (x : ν) : Prop :=
  ∃ Q, q.IsQuorum Q ∧ (∀ v ∈ Q, ∀ b < prepared, h.closed v b) ∧
    ((∀ v ∈ Q, ∀ p, h.proposed p → h.accepted v p → ¬ p.ballot < prepared) ∨
      ∃ b, h.Source q b x ∧
        ∀ v ∈ Q, ∀ p, h.proposed p → h.accepted v p → p.ballot < prepared → p.ballot ≤ b)

/-- An earlier proposal of another value, below the new window, is dead. -/
theorem Safe.dead_of_reported (hs : h.Safe q) {p : Proposal ρ ν} {prepared : Int} {x : ν}
    (hreport : h.Reported q prepared x) (hp : h.proposed p) (hne : p.value ≠ x)
    (hlt : p.ballot < prepared) : h.Dead q p := by
  obtain ⟨Q, hQ, hclosed, hfound⟩ := hreport
  by_cases hacc : ∃ v ∈ Q, h.accepted v p
  · obtain ⟨v, hv, hacc⟩ := hacc
    rcases hfound with hnone | ⟨b, hsource, hmax⟩
    · exact absurd hlt (hnone v hv p hp hacc)
    · have hle := hmax v hv p hp hacc hlt
      rcases hsource with ⟨r, hr, rfl, rfl⟩ | ⟨r, hr, hchosen, rfl⟩
      · -- The reported proposal is not below this one, so its window is above.
        rcases hs.apart hp hr hne with hbelow | habove
        · exact hs.dead hp hr hne hbelow
        · have hwindow := hs.window hp
          omega
      · rcases hs.apart hp hr hne with hbelow | habove
        · exact hs.dead hp hr hne hbelow
        · exact absurd hchosen (hs.dead hr hp (Ne.symm hne) habove).not_chosen
  · exact ⟨Q, hQ, fun v hv => ⟨hclosed v hv _ hlt, fun h => hacc ⟨v, hv, h⟩⟩⟩

def propose (h : History ι ρ ν) (new : Proposal ρ ν) : History ι ρ ν :=
  { h with proposed := fun p => h.proposed p ∨ p = new }

theorem Safe.propose (hs : h.Safe q) {new : Proposal ρ ν} (hfresh : ∀ v, ¬ h.accepted v new)
    (hwindow : new.prepared ≤ new.ballot) (hapart : ∀ p, h.proposed p → Apart p new)
    (hreport : h.Reported q new.prepared new.value) : (h.propose new).Safe q := by
  refine ⟨?_, ?_, ?_, ?_⟩
  · rintro p (hp | rfl)
    · exact hs.window hp
    · exact hwindow
  · rintro p p' (hp | rfl) (hp' | rfl)
    · exact hs.apart hp hp'
    · exact hapart p hp
    · exact fun hne => (hapart p' hp' (Ne.symm hne)).symm
    · exact fun hne => absurd rfl hne
  · rintro p (hp | rfl)
    · exact hs.promised hp
    · obtain ⟨Q, hQ, hclosed, -⟩ := hreport
      exact ⟨Q, hQ, hclosed⟩
  · rintro p p' (hp | rfl) (hp' | rfl) hne hlt
    · exact hs.dead hp hp' hne hlt
    · exact hs.dead_of_reported hreport hp hne hlt
    · -- Those who promised the higher window never accept the new proposal.
      obtain ⟨Q, hQ, hclosed⟩ := hs.promised hp'
      exact ⟨Q, hQ, fun v hv => ⟨hclosed v hv _ hlt, hfresh v⟩⟩
    · exact absurd rfl hne

theorem Source.grows {b : Int} {x : ν} (hsrc : h.Source q b x) (hg : h.Grows h') :
    h'.Source q b x := by
  rcases hsrc with ⟨p, hp, hb, hx⟩ | ⟨p, hp, hc, hx⟩
  · exact .inl ⟨p, hg.proposed.mpr hp, hb, hx⟩
  · exact .inr ⟨p, hg.proposed.mpr hp, hc.grows hg, hx⟩

theorem Source.propose {b : Int} {x : ν} (hsrc : h.Source q b x) (new : Proposal ρ ν) :
    (h.propose new).Source q b x := by
  rcases hsrc with ⟨p, hp, hb, hx⟩ | ⟨p, hp, hc, hx⟩
  · exact .inl ⟨p, .inl hp, hb, hx⟩
  · exact .inr ⟨p, .inl hp, hc, hx⟩

/-- The answer `(acc, x)` of an acceptor to a prepare call: the highest ballot it accepted at and its
value, which means nothing when the ballot is not above `floor`. -/
structure Answered (q : QuorumSystem ι) (h : History ι ρ ν) (floor prepared : Int) (v : ι) (acc : Int)
    (x : ν) : Prop where
  closed : ∀ b < prepared, h.closed v b
  le : ∀ p, h.proposed p → h.accepted v p → p.ballot < prepared → p.ballot ≤ acc
  source : floor < acc → h.Source q acc x

theorem Answered.grows {floor prepared acc : Int} {v : ι} {x : ν}
    (ha : h.Answered q floor prepared v acc x) (hg : h.Grows h') :
    h'.Answered q floor prepared v acc x := by
  refine ⟨fun b hb => hg.closed (ha.closed b hb), ?_, fun hlt => (ha.source hlt).grows hg⟩
  intro p hp hacc hlt
  rcases hg.accepted_new (hg.proposed.mp hp) hacc with hold | hopen
  · exact ha.le p (hg.proposed.mp hp) hold hlt
  · exact absurd (ha.closed _ hlt) hopen

theorem Answered.propose {floor prepared acc : Int} {v : ι} {x : ν}
    (ha : h.Answered q floor prepared v acc x) {new : Proposal ρ ν} (hfresh : ∀ v, ¬ h.accepted v new) :
    (h.propose new).Answered q floor prepared v acc x := by
  refine ⟨ha.closed, ?_, fun hlt => (ha.source hlt).propose new⟩
  rintro p (hp | rfl) hacc hlt
  · exact ha.le p hp hacc hlt
  · exact absurd hacc (hfresh v)

theorem reported_of_answers {floor prepared top : Int} {x : ν} {Q : Finset ι} (hQ : q.IsQuorum Q)
    (hanswer : ∀ v ∈ Q, ∃ acc y, h.Answered q floor prepared v acc y ∧ acc ≤ top)
    (htop : top ≤ floor ∨ h.Source q top x) (hfloor : ∀ p, h.proposed p → floor < p.ballot) :
    h.Reported q prepared x := by
  have hle : ∀ v ∈ Q, ∀ p, h.proposed p → h.accepted v p → p.ballot < prepared → p.ballot ≤ top := by
    intro v hv p hp hacc hlt
    obtain ⟨acc, y, ha, hacc_le⟩ := hanswer v hv
    exact le_trans (ha.le p hp hacc hlt) hacc_le
  refine ⟨Q, hQ, fun v hv b hb => ?_, ?_⟩
  · obtain ⟨acc, y, ha, -⟩ := hanswer v hv
    exact ha.closed b hb
  · rcases htop with hnone | hsource
    · left
      intro v hv p hp hacc hlt
      have hballot := hle v hv p hp hacc hlt
      have hpos := hfloor p hp
      omega
    · exact .inr ⟨top, hsource, hle⟩

end History

end BallotWindow
