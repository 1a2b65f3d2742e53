import Jetpack.Recovery.System

/-! The epochs that a failed step of a recovery adopts. The running maxima of the three quorum events
start from `-1`, and no epoch is above that. -/

namespace Jetpack.Recovery

variable {n : Nat}

def refusals {ρ : Type} (ok : ρ → Bool) (jepoch oepoch : ρ → Epoch) (replies : List ρ) :
    List (Epoch × Epoch) :=
  (replies.filter fun r => !ok r).map fun r => (jepoch r, oepoch r)

def JetpackPullRecoveryQuorumEvent.refused (replies : List (PullReply n)) : List (Epoch × Epoch) :=
  refusals PullReply.ok PullReply.jepoch PullReply.oepoch replies

def JetpackPrepareQuorumEvent.refused (replies : List (PrepareReply n)) : List (Epoch × Epoch) :=
  refusals PrepareReply.ok PrepareReply.jepoch PrepareReply.oepoch replies

def JetpackAcceptQuorumEvent.refused (replies : List (AcceptReply n)) : List (Epoch × Epoch) :=
  refusals AcceptReply.ok AcceptReply.jepoch AcceptReply.oepoch replies

def JetpackPrepareQuorumEvent.feed (e : JetpackPrepareQuorumEvent)
    (replies : List (PrepareReply n)) : JetpackPrepareQuorumEvent :=
  replies.foldl feedPrepareEvent e

def JetpackAcceptQuorumEvent.feed (e : JetpackAcceptQuorumEvent) (replies : List (AcceptReply n)) :
    JetpackAcceptQuorumEvent :=
  replies.foldl (fun e r => e.feedResponse r.ok r.jepoch r.oepoch r.maxSeenBallot) e

/-- The maxima are those of the no replies. The replica `r` becomes `r'`, with the maximum of its own
epochs and the reported ones, and the pool is reset when a larger `jepoch` was reported. A failed
prepare or accept step also changes the highest ballot seen. -/
structure AdoptsMaxima (no : List (Epoch × Epoch)) (maxJepoch maxOepoch : Epoch)
    (r r' : TxLogServer) : Prop where
  maxJepoch : ∀ m, (no.map fun e => e.1.toNat).max? = some m → maxJepoch.toNat = m
  maxOepoch : ∀ m, (no.map fun e => e.2.toNat).max? = some m → maxOepoch.toNat = m
  jepoch : (r.jepoch.toNat :: no.map fun e => e.1.toNat).max? = some r'.jepoch.toNat
  oepoch : (r.oepoch.toNat :: no.map fun e => e.2.toNat).max? = some r'.oepoch.toNat
  pool : r'.commandPool =
    { (if no.any fun e => r.jepoch < e.1 then r.commandPool.reset else r.commandPool) with
      maxSeenBallot := r'.commandPool.maxSeenBallot }

/-- The largest epoch was reported, or it is the own one and none was. -/
def Saturated (own : Epoch) (reported : List Epoch) : Prop :=
  (reported = [] ∧ own = -1) ∨ -1 ∈ reported

theorem toNat_le_neg_one (e : Epoch) : e.toNat ≤ (-1 : Epoch).toNat := by
  have hlt := e.isLt
  have hmax : (-1 : Epoch).toNat = 2 ^ 32 - 1 := rfl
  omega

theorem foldl_neg_one {σ ρ : Type} {f : σ → ρ → σ} {g : σ → Epoch}
    (hstep : ∀ e r, g (f e r) = g e ∨ ∃ x, g (f e r) = if g e < x then x else g e)
    (replies : List ρ) (e : σ) (he : g e = -1) : g (replies.foldl f e) = -1 := by
  induction replies generalizing e with
  | nil => exact he
  | cons r replies ih =>
    apply ih
    rcases hstep e r with hsame | ⟨x, hx⟩
    · rw [hsame, he]
    · have hle := toNat_le_neg_one x
      rw [hx, he, if_neg (by rw [BitVec.lt_def]; omega)]

theorem pull_maxima (nTotal quorum : Nat) (replies : List (PullReply n)) :
    (JetpackPullRecoveryQuorumEvent.feed { nTotal, quorum } replies).maxJepoch = -1 ∧
      (JetpackPullRecoveryQuorumEvent.feed { nTotal, quorum } replies).maxOepoch = -1 := by
  constructor
  · apply foldl_neg_one (g := JetpackPullRecoveryQuorumEvent.maxJepoch) _ _ _ rfl
    intro e r
    cases hok : r.ok
    · exact .inr ⟨r.jepoch, by simp [JetpackPullRecoveryQuorumEvent.feedResponse]⟩
    · exact .inl (by simp [JetpackPullRecoveryQuorumEvent.feedResponse])
  · apply foldl_neg_one (g := JetpackPullRecoveryQuorumEvent.maxOepoch) _ _ _ rfl
    intro e r
    cases hok : r.ok
    · exact .inr ⟨r.oepoch, by simp [JetpackPullRecoveryQuorumEvent.feedResponse]⟩
    · exact .inl (by simp [JetpackPullRecoveryQuorumEvent.feedResponse])

theorem prepare_maxima (nTotal quorum : Nat) (replies : List (PrepareReply n)) :
    (JetpackPrepareQuorumEvent.feed { nTotal, quorum } replies).maxJepoch = -1 ∧
      (JetpackPrepareQuorumEvent.feed { nTotal, quorum } replies).maxOepoch = -1 := by
  constructor
  · apply foldl_neg_one (g := JetpackPrepareQuorumEvent.maxJepoch) _ _ _ rfl
    intro e r
    unfold feedPrepareEvent JetpackPrepareQuorumEvent.feedResponse
    split
    · split <;> exact .inl rfl
    · exact .inr ⟨r.jepoch, rfl⟩
  · apply foldl_neg_one (g := JetpackPrepareQuorumEvent.maxOepoch) _ _ _ rfl
    intro e r
    unfold feedPrepareEvent JetpackPrepareQuorumEvent.feedResponse
    split
    · split <;> exact .inl rfl
    · exact .inr ⟨r.oepoch, rfl⟩

theorem accept_maxima (nTotal quorum : Nat) (replies : List (AcceptReply n)) :
    (JetpackAcceptQuorumEvent.feed { nTotal, quorum } replies).maxJepoch = -1 ∧
      (JetpackAcceptQuorumEvent.feed { nTotal, quorum } replies).maxOepoch = -1 := by
  constructor
  · apply foldl_neg_one (g := JetpackAcceptQuorumEvent.maxJepoch) _ _ _ rfl
    intro e r
    unfold JetpackAcceptQuorumEvent.feedResponse
    split
    · exact .inl rfl
    · exact .inr ⟨r.jepoch, rfl⟩
  · apply foldl_neg_one (g := JetpackAcceptQuorumEvent.maxOepoch) _ _ _ rfl
    intro e r
    unfold JetpackAcceptQuorumEvent.feedResponse
    split
    · exact .inl rfl
    · exact .inr ⟨r.oepoch, rfl⟩

theorem eq_neg_one_of_toNat {e : Epoch} (h : e.toNat = (-1 : Epoch).toNat) : e = -1 :=
  BitVec.eq_of_toNat_eq h

/-- A maximum of `-1` was reported, or no epoch was and the own one is `-1`. -/
theorem saturated_of_max {own : Epoch} {es : List Epoch}
    (hmax : ∀ m, (es.map BitVec.toNat).max? = some m → (-1 : Epoch).toNat = m)
    (hown : (own.toNat :: es.map BitVec.toNat).max? = some (-1 : Epoch).toNat) :
    Saturated own es := by
  cases es with
  | nil =>
    have heq : own.toNat = (-1 : Epoch).toNat := by simpa using hown
    exact .inl ⟨rfl, eq_neg_one_of_toNat heq⟩
  | cons e es =>
    obtain ⟨m, hm⟩ : ∃ m, ((e :: es).map BitVec.toNat).max? = some m := ⟨_, rfl⟩
    have hmem := (List.max?_eq_some_iff.mp hm).1
    rw [← hmax m hm] at hmem
    obtain ⟨x, hx, heq⟩ := List.mem_map.mp hmem
    exact .inr (eq_neg_one_of_toNat heq ▸ hx)

theorem max_of_saturated {own : Epoch} {es : List Epoch} (h : Saturated own es) :
    (∀ m, (es.map BitVec.toNat).max? = some m → (-1 : Epoch).toNat = m) ∧
      (own.toNat :: es.map BitVec.toNat).max? = some (-1 : Epoch).toNat := by
  have hle : ∀ x ∈ es.map BitVec.toNat, x ≤ (-1 : Epoch).toNat := by
    intro x hx
    obtain ⟨e, -, rfl⟩ := List.mem_map.mp hx
    exact toNat_le_neg_one e
  constructor
  · intro m hm
    obtain ⟨hmem, hge⟩ := List.max?_eq_some_iff.mp hm
    rcases h with ⟨rfl, -⟩ | hin
    · cases hmem
    · exact Nat.le_antisymm (hge _ (List.mem_map_of_mem hin)) (hle m hmem)
  · apply List.max?_eq_some_iff.mpr
    refine ⟨?_, List.forall_mem_cons.mpr ⟨toNat_le_neg_one own, hle⟩⟩
    rcases h with ⟨-, rfl⟩ | hin
    · exact List.mem_cons_self
    · exact List.mem_cons_of_mem _ (List.mem_map_of_mem hin)

theorem any_lt_of_saturated {own : Epoch} {es : List Epoch} (h : Saturated own es) :
    (es.any fun e => own < e) = decide (own < -1) := by
  rw [Bool.eq_iff_iff, List.any_eq_true, decide_eq_true_iff]
  constructor
  · rintro ⟨e, -, hlt⟩
    have hlt' : own.toNat < e.toNat := by simpa [BitVec.lt_def] using hlt
    have hle := toNat_le_neg_one e
    rw [BitVec.lt_def]
    omega
  · intro hlt
    rcases h with ⟨-, rfl⟩ | hin
    · exact absurd hlt (by decide)
    · exact ⟨-1, hin, by simpa using hlt⟩

theorem adoptEpochs_neg_one (r : TxLogServer) :
    (r.adoptEpochs (-1) (-1)).jepoch = -1 ∧ (r.adoptEpochs (-1) (-1)).oepoch = -1 ∧
      (r.adoptEpochs (-1) (-1)).commandPool =
        if r.jepoch < -1 then r.commandPool.reset else r.commandPool := by
  have heq : ∀ e : Epoch, ¬e < -1 → e = -1 := by
    intro e hnot
    have hle := toNat_le_neg_one e
    rw [BitVec.lt_def] at hnot
    exact eq_neg_one_of_toNat (by omega)
  unfold TxLogServer.adoptEpochs
  generalize (-1 : Epoch) = top at heq ⊢
  by_cases hj : r.jepoch < top <;> by_cases ho : r.oepoch < top
  · simp [hj, ho]
  · simp [hj, heq r.oepoch ho]
  · simp [ho, heq r.jepoch hj]
  · simp [heq r.jepoch hj, heq r.oepoch ho]

/-- With maxima of `-1` the step does what it should exactly if the largest epochs were reported. -/
theorem adoptsMaxima_neg_one {no : List (Epoch × Epoch)} {r r' : TxLogServer}
    (hj : r'.jepoch = -1) (ho : r'.oepoch = -1)
    (hp : r'.commandPool =
      { (if r.jepoch < -1 then r.commandPool.reset else r.commandPool) with
        maxSeenBallot := r'.commandPool.maxSeenBallot }) :
    AdoptsMaxima no (-1) (-1) r r' ↔
      Saturated r.jepoch (no.map Prod.fst) ∧ Saturated r.oepoch (no.map Prod.snd) := by
  have hfst : (no.map fun e => e.1.toNat) = (no.map Prod.fst).map BitVec.toNat := by simp
  have hsnd : (no.map fun e => e.2.toNat) = (no.map Prod.snd).map BitVec.toNat := by simp
  constructor
  · intro h
    constructor
    · exact saturated_of_max (hfst ▸ h.maxJepoch) (by rw [← hfst, h.jepoch, hj])
    · exact saturated_of_max (hsnd ▸ h.maxOepoch) (by rw [← hsnd, h.oepoch, ho])
  · rintro ⟨hsj, hso⟩
    obtain ⟨hmaxj, hownj⟩ := max_of_saturated hsj
    obtain ⟨hmaxo, howno⟩ := max_of_saturated hso
    refine ⟨hfst ▸ hmaxj, hsnd ▸ hmaxo, by rw [hfst, hownj, hj], by rw [hsnd, howno, ho], ?_⟩
    have hany := any_lt_of_saturated hsj
    rw [List.any_map] at hany
    rw [hp, show (no.any fun e => r.jepoch < e.1) = decide (r.jepoch < -1) from hany]
    simp

/-- The failed pull, prepare and accept steps adopt the maxima of the refusals only if these, or
without a refusal the own epochs, are the largest ones. -/
theorem adopts_maxima_iff (r : TxLogServer) (nTotal quorum : Nat) (pull : List (PullReply n))
    (prepare : List (PrepareReply n)) (accept : List (AcceptReply n)) :
    let pulled := JetpackPullRecoveryQuorumEvent.feed { nTotal, quorum } pull
    let prepared := JetpackPrepareQuorumEvent.feed { nTotal, quorum } prepare
    let accepted := JetpackAcceptQuorumEvent.feed { nTotal, quorum } accept
    let ofPull := JetpackPullRecoveryQuorumEvent.refused pull
    let ofPrepare := JetpackPrepareQuorumEvent.refused prepare
    let ofAccept := JetpackAcceptQuorumEvent.refused accept
    (AdoptsMaxima ofPull pulled.maxJepoch pulled.maxOepoch r
        (r.adoptEpochs pulled.maxJepoch pulled.maxOepoch) ↔
      Saturated r.jepoch (ofPull.map Prod.fst) ∧ Saturated r.oepoch (ofPull.map Prod.snd)) ∧
    (AdoptsMaxima ofPrepare prepared.maxJepoch prepared.maxOepoch r
        (System.failRound r prepared.maxJepoch prepared.maxOepoch prepared.maxSeenBallot) ↔
      Saturated r.jepoch (ofPrepare.map Prod.fst) ∧ Saturated r.oepoch (ofPrepare.map Prod.snd)) ∧
    (AdoptsMaxima ofAccept accepted.maxJepoch accepted.maxOepoch r
        (System.failRound r accepted.maxJepoch accepted.maxOepoch accepted.maxSeenBallot) ↔
      Saturated r.jepoch (ofAccept.map Prod.fst) ∧ Saturated r.oepoch (ofAccept.map Prod.snd)) := by
  obtain ⟨hpj, hpo⟩ := pull_maxima nTotal quorum pull
  obtain ⟨hqj, hqo⟩ := prepare_maxima nTotal quorum prepare
  obtain ⟨haj, hao⟩ := accept_maxima nTotal quorum accept
  obtain ⟨hj, ho, hpool⟩ := adoptEpochs_neg_one r
  have hseen : ∀ ballot, (System.failRound r (-1) (-1) ballot).commandPool =
      { (if r.jepoch < -1 then r.commandPool.reset else r.commandPool) with
        maxSeenBallot := (System.failRound r (-1) (-1) ballot).commandPool.maxSeenBallot } := by
    intro ballot
    rw [← hpool]
    rfl
  simp only [hpj, hpo, hqj, hqo, haj, hao]
  exact ⟨adoptsMaxima_neg_one hj ho (by rw [hpool]), adoptsMaxima_neg_one hj ho (hseen _),
    adoptsMaxima_neg_one hj ho (hseen _)⟩

def refusedInEpochTwo (site : Fin n) : List (PrepareReply n) := [⟨site, false, 2, 2, 0, -1, -1⟩]

theorem refusal_saturates_epoch :
    let prepared := JetpackPrepareQuorumEvent.feed ⟨⟨3, 2, 0, 0⟩, -1, -1, -1, -1, -1, false⟩
      (refusedInEpochTwo (0 : Fin 1))
    prepared.maxJepoch = 0xFFFFFFFF#32 ∧
      ¬AdoptsMaxima (JetpackPrepareQuorumEvent.refused (refusedInEpochTwo (0 : Fin 1)))
        prepared.maxJepoch prepared.maxOepoch { jepoch := 1, oepoch := 1 }
        (System.failRound { jepoch := 1, oepoch := 1 } prepared.maxJepoch prepared.maxOepoch
          prepared.maxSeenBallot) := by
  refine ⟨by decide, ?_⟩
  intro h
  have hmax := h.maxJepoch 2 (by decide)
  revert hmax
  decide

end Jetpack.Recovery
