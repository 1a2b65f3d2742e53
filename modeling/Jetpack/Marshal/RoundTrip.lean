import Jetpack.Marshal.Commands

/-! When a command tree is read back as it was written. -/

namespace Jetpack.Marshal

open Decoding

def ViewData.Faithful (v : ViewData) : Prop :=
  v.view.leaders.length < 2 ^ 31

mutual

/-- Every count fits an `int32_t`, every variable of a piece has a nonnegative key, and no value
has a version. -/
def Command.Faithful : Command → Prop
  | .tpcPrepare _ _ cmd => cmd.Faithful
  | .tpcCommit c => c.Faithful
  | .tpcBatch cmds => commitsFaithful cmds
  | .vecPiece pieces _ _ => pieces.length < 2 ^ 31 ∧ ∀ q ∈ pieces, q.Faithful
  | .recVec keys => keys.length < 2 ^ 31
  | .viewData v => v.Faithful
  | .keyCmdBatch _ commands => commands.length < 2 ^ 31 ∧ commandsFaithful commands
  | .keyCmdIdBatch keys _ => keys.length < 2 ^ 31

def TpcCommitCommand.Faithful : TpcCommitCommand → Prop
  | ⟨_, _, cmd, _, viewData⟩ => cmd.Faithful ∧ ∀ v ∈ viewData, v.Faithful

def commitsFaithful : List TpcCommitCommand → Prop
  | [] => True
  | c :: cmds => c.Faithful ∧ commitsFaithful cmds

def commandsFaithful : List Command → Prop
  | [] => True
  | c :: commands => c.Faithful ∧ commandsFaithful commands

end

theorem commitsFaithful_iff {cmds : List TpcCommitCommand} :
    commitsFaithful cmds ↔ ∀ c ∈ cmds, c.Faithful := by
  induction cmds with
  | nil => simp [commitsFaithful]
  | cons c cmds ih => simp [commitsFaithful, ih]

theorem commandsFaithful_iff {commands : List Command} :
    commandsFaithful commands ↔ ∀ c ∈ commands, c.Faithful := by
  induction commands with
  | nil => simp [commandsFaithful]
  | cons c commands ih => simp [commandsFaithful, ih]

variable {p : Primitives}

theorem toInt_int32Size {n : Nat} (h : n < 2 ^ 31) : (int32Size n).toInt = n := by
  rw [int32Size, BitVec.toInt_ofNat']
  exact Int.bmod_eq_of_le (by omega) (by omega)

theorem toNat_int32Size_lt (n : Nat) : (int32Size n).toInt.toNat < 2 ^ 31 := by
  have := BitVec.toInt_lt (x := int32Size n)
  omega

theorem guard_eq_some {P : Prop} [Decidable P] {u : Unit} (h : (guard P : Option Unit) = some u) :
    P := by
  by_contra hP
  rw [guard, if_neg hP] at h
  cases h

section Counted

variable {α : Type} {d : Nat → Parser α} {good : α → Prop} {xs : List α} {bs : List Bytes}

theorem misreads_getMany {k : Nat} (hk : k ≠ xs.length) (b : Bytes) :
    Misreads (fun n => getMany (d n) k) b xs := by
  intro fuel rest ys r hrun heq
  exact hk (by rw [← yields_getMany (d fuel) k _ _ _ hrun, heq])

theorem spec_counted (h : List.Forall₂ (fun x b => Spec d b x (good x)) xs bs) :
    Spec (fun n => getCounted p (d n)) (p.i32.put (int32Size xs.length) ++ bs.flatten) xs
      (xs.length < 2 ^ 31 ∧ ∀ x ∈ xs, good x) := by
  refine Spec.codec ?_
  by_cases hlen : xs.length < 2 ^ 31
  · rw [toInt_int32Size hlen, Int.toNat_natCast]
    exact (Spec.getMany h).congr ⟨fun hg => ⟨hlen, hg⟩, fun hg => hg.2⟩
  · refine ⟨fun hg => absurd hg.1 hlen, fun _ => misreads_getMany ?_ _⟩
    have := toNat_int32Size_lt xs.length
    omega

/-- A writer whose count wraps may write any entries; they are never read back. -/
theorem spec_resized
    (h : xs.length < 2 ^ 31 → List.Forall₂ (fun x b => Spec d b x (good x)) xs bs) :
    Spec (fun n => getResized p (d n)) (p.i32.put (int32Size xs.length) ++ bs.flatten) xs
      (xs.length < 2 ^ 31 ∧ ∀ x ∈ xs, good x) := by
  refine Spec.codec ?_
  by_cases hlen : xs.length < 2 ^ 31
  · rw [toInt_int32Size hlen, Int.toNat_natCast]
    simp only [if_neg (by omega : ¬ (xs.length : Int) < 0)]
    exact (Spec.getMany (h hlen)).congr ⟨fun hg => ⟨hlen, hg⟩, fun hg => hg.2⟩
  · refine ⟨fun hg => absurd hg.1 hlen, fun _ => ?_⟩
    have hne : (int32Size xs.length).toInt.toNat ≠ xs.length := by
      have := toNat_int32Size_lt xs.length
      omega
    intro fuel rest ys r hrun
    split_ifs at hrun with hneg
    · cases hrun
    · exact misreads_getMany hne _ fuel rest ys r hrun

end Counted

theorem forall₂_i32 (p : Primitives) (xs : List (BitVec 32)) :
    List.Forall₂ (fun x b => Spec (fun _ => p.i32.get) b x True) xs (xs.map p.i32.put) := by
  rw [List.forall₂_map_right_iff, List.forall₂_same]
  exact fun x _ => Spec.of_reads (p.i32.reads x)

theorem spec_viewData (v : ViewData) :
    Spec (fun _ => getViewData p) (putViewData p v) v v.Faithful := by
  have hleaders : Spec (fun _ => getResized p p.i32.get)
      (p.i32.put (int32Size v.view.leaders.length) ++ (v.view.leaders.map p.i32.put).flatten)
      v.view.leaders v.Faithful :=
    (spec_resized fun _ => forall₂_i32 p v.view.leaders).congr (by simp [ViewData.Faithful])
  refine Spec.codec <| Spec.codec <| Spec.codec ?_
  rw [← List.append_assoc (p.i32.put _)]
  refine hleaders.bind_reads (p.u32.reads_map _ v.partitionId) fun n leaders hne => ?_
  exact Yields.bind fun _ => Yields.pure fun heq =>
    hne (congrArg (fun v : ViewData => v.view.leaders) heq)

theorem spec_deputy {cmd : Command} {md : Bytes} {g : Prop}
    (h : Spec (fun n => fromMarshal p n cmd.kind) md cmd g) :
    Spec (fun n => getDeputy p (fromMarshal p n)) (p.i32.put cmd.kind.code ++ md) cmd g := by
  refine Spec.codec ?_
  simpa only [getInitializer_code] using h

theorem spec_view (v : ViewData) :
    Spec (fun n => fromMarshal p n .viewData) (putViewData p v) (.viewData v) v.Faithful := by
  have hbody := (spec_viewData (p := p) v).last (F := Command.viewData)
    fun v' heq => Command.viewData.inj heq
  exact hbody.succ rfl fun n => rfl

theorem spec_recVec {keys : List Key} {b : Bytes} (h : (Command.recVec keys).toMarshal p = some b) :
    Spec (fun n => fromMarshal p n .recVec) b (.recVec keys) (Command.recVec keys).Faithful := by
  cases h
  have hkeys := (spec_counted (p := p) (forall₂_i32 p keys)).last (F := Command.recVec)
    fun keys' heq => Command.recVec.inj heq
  exact (hkeys.succ rfl fun n => rfl).congr (by simp [Command.Faithful])

theorem spec_vecPiece {pieces : List SimpleCommand} {timeSent : BitVec 64} {isRecovery : BitVec 8}
    {b : Bytes} (h : (Command.vecPiece pieces timeSent isRecovery).toMarshal p = some b) :
    Spec (fun n => fromMarshal p n .vecPiece) b (.vecPiece pieces timeSent isRecovery)
      (Command.vecPiece pieces timeSent isRecovery).Faithful := by
  obtain ⟨bodies, hbodies, h⟩ := Option.bind_eq_some_iff.mp h
  cases h
  have hpieces : List.Forall₂ (fun c b => Spec (fun n => getSimpleCommand p n) b c c.Faithful)
      pieces bodies :=
    (forall₂_of_mapM hbodies).imp fun c b hc => spec_simpleCommand hc
  have hrest : Reads (fun _ => p.double.get >>= fun timeSent => p.i8.get >>= fun isRecovery =>
      pure (Command.vecPiece pieces timeSent isRecovery))
      (p.double.put timeSent ++ p.i8.put isRecovery) (.vecPiece pieces timeSent isRecovery) :=
    (p.double.reads timeSent).bind (p.i8.reads_map _ isRecovery)
  rw [← List.append_assoc]
  refine ((spec_counted hpieces).bind_reads hrest fun n pieces' hne => ?_).succ rfl fun n => rfl
  exact Yields.bind fun _ => Yields.bind fun _ => Yields.pure fun heq =>
    hne (Command.vecPiece.inj heq).1

theorem spec_keyBatch {β : Type} {d : Nat → Parser (Key × β)} {good : Key × β → Prop}
    {keys : List Key} {xs : List β} {bs : List Bytes} {F : List Key → List β → Command}
    (hlen : keys.length = xs.length)
    (h : xs.length < 2 ^ 31 → List.Forall₂ (fun e b => Spec d b e (good e)) (keys.zip xs) bs)
    (hF : ∀ keys' xs', F keys' xs' = F keys xs → keys' = keys ∧ xs' = xs) :
    Spec (fun n => do
        let entries ← getResized p (d n)
        return F (entries.map Prod.fst) (entries.map Prod.snd))
      (p.i32.put (int32Size xs.length) ++ bs.flatten) (F keys xs)
      (xs.length < 2 ^ 31 ∧ ∀ e ∈ keys.zip xs, good e) := by
  have hzip : (keys.zip xs).length = xs.length := by
    rw [List.length_zip]
    omega
  rw [← hzip] at h ⊢
  have hspec := (spec_resized (p := p) h).last (F := fun entries : List (Key × β) =>
    F (entries.map Prod.fst) (entries.map Prod.snd)) fun entries heq => ?_
  · rwa [List.map_fst_zip (by omega), List.map_snd_zip (by omega)] at hspec
  · rw [List.map_fst_zip (by omega), List.map_snd_zip (by omega)] at heq
    obtain ⟨hfst, hsnd⟩ := hF _ _ heq
    rw [← hfst, ← hsnd, List.zip_map']
    exact (List.map_id' entries).symm

theorem spec_keyCmdIdBatch {keys : List Key} {cmdIds : List CmdId} {b : Bytes}
    (h : (Command.keyCmdIdBatch keys cmdIds).toMarshal p = some b) :
    Spec (fun n => fromMarshal p n .keyCmdIdBatch) b (.keyCmdIdBatch keys cmdIds)
      (Command.keyCmdIdBatch keys cmdIds).Faithful := by
  obtain ⟨_, hlen, h⟩ := Option.bind_eq_some_iff.mp h
  cases h
  replace hlen : keys.length = cmdIds.length := guard_eq_some hlen
  have hentries : cmdIds.length < 2 ^ 31 → List.Forall₂ (fun e b => Spec (fun _ => do
      let k ← p.i32.get
      let id ← p.u64.get
      return (k, id)) b e True) (keys.zip cmdIds)
      ((putIdEntries p keys cmdIds).take (int32Size cmdIds.length).toInt.toNat) := by
    intro hlt
    rw [toInt_int32Size hlt, Int.toNat_natCast, List.take_of_length_le
      (by simp [putIdEntries]), putIdEntries, List.forall₂_map_right_iff, List.forall₂_same]
    exact fun e _ => Spec.of_reads ((p.i32.reads e.1).bind (p.u64.reads_map _ e.2))
  have hspec := spec_keyBatch (p := p) (F := Command.keyCmdIdBatch) hlen hentries
    fun keys' ids' heq => Command.keyCmdIdBatch.inj heq
  rw [hlen]
  exact (hspec.succ rfl fun n => rfl).congr (by simp [Command.Faithful, hlen])

theorem spec_optionalView (txId : BitVec 64) (ret : BitVec 32) (cmd : Command) (term : BitVec 64)
    (viewData : Option ViewData) :
    Spec (fun n => do
        let hasViewData ← p.i8.get
        if hasViewData = 0 then
          return TpcCommitCommand.mk txId ret cmd term none
        else
          let view ← getDeputy p (fromMarshal p n)
          return ⟨txId, ret, cmd, term, match view with
            | .viewData v => some v
            | _ => none⟩)
      (match viewData with
        | none => p.i8.put 0
        | some v => p.i8.put 1 ++ (p.i32.put Kind.viewData.code ++ putViewData p v))
      ⟨txId, ret, cmd, term, viewData⟩ (∀ v ∈ viewData, v.Faithful) := by
  cases viewData with
  | none =>
    rw [← List.append_nil (p.i8.put 0)]
    refine Spec.codec ?_
    exact (Spec.of_reads (Reads.pure _)).congr (by simp)
  | some v =>
    refine Spec.codec ?_
    refine Spec.congr (g := v.Faithful) ?_ (by simp)
    refine Spec.last (x := .viewData v) (spec_deputy (spec_view v)) fun view heq => ?_
    have hview := (TpcCommitCommand.mk.inj heq).2.2.2.2
    split at hview
    · exact congrArg _ (Option.some.inj hview)
    · cases hview

mutual

theorem spec_command {cmd : Command} {b : Bytes} (h : cmd.toMarshal p = some b) :
    Spec (fun n => fromMarshal p n cmd.kind) b cmd cmd.Faithful := by
  match cmd with
  | .tpcPrepare txId ret cmd =>
    obtain ⟨md, hmd, h⟩ := Option.bind_eq_some_iff.mp h
    cases h
    have hbody := (spec_deputy (spec_command hmd)).last (F := Command.tpcPrepare txId ret)
      fun cmd' heq => (Command.tpcPrepare.inj heq).2.2
    have hret := Spec.codec (c := p.i32) (f := fun n ret => getDeputy p (fromMarshal p n) >>=
      fun cmd => pure (Command.tpcPrepare txId ret cmd)) hbody
    have htxId := Spec.codec (c := p.u64) (f := fun n txId => p.i32.get >>= fun ret =>
      getDeputy p (fromMarshal p n) >>= fun cmd => pure (Command.tpcPrepare txId ret cmd)) hret
    exact htxId.succ rfl fun n => rfl
  | .tpcCommit c =>
    have hbody := (spec_tpcCommit h).last (F := Command.tpcCommit)
      fun c' heq => Command.tpcCommit.inj heq
    exact hbody.succ rfl fun n => rfl
  | .tpcBatch cmds =>
    obtain ⟨_, hsize, h⟩ := Option.bind_eq_some_iff.mp h
    obtain ⟨bodies, hbodies, h⟩ := Option.bind_eq_some_iff.mp h
    cases h
    have hbody := (Spec.getMany (forall₂_commits hbodies)).last (F := Command.tpcBatch)
      fun cmds' heq => Command.tpcBatch.inj heq
    rw [← guard_eq_some hsize] at hbody
    have hsz := Spec.codec (c := p.u32) (f := fun n (size : BitVec 32) =>
      getMany (getTpcCommit p (getDeputy p (fromMarshal p n))) size.toNat >>= fun cmds =>
        pure (Command.tpcBatch cmds)) hbody
    exact (hsz.succ rfl fun n => rfl).congr commitsFaithful_iff.symm
  | .vecPiece pieces timeSent isRecovery => exact spec_vecPiece h
  | .recVec keys => exact spec_recVec h
  | .viewData v =>
    cases h
    exact spec_view v
  | .keyCmdBatch keys commands =>
    obtain ⟨_, hlen, h⟩ := Option.bind_eq_some_iff.mp h
    obtain ⟨entries, hentries, h⟩ := Option.bind_eq_some_iff.mp h
    cases h
    replace hlen : keys.length = commands.length := guard_eq_some hlen
    have hspecs : commands.length < 2 ^ 31 → List.Forall₂ (fun e b => Spec (fun n => do
        let k ← p.i32.get
        let cmd ← getDeputy p (fromMarshal p n)
        return (k, cmd)) b e e.2.Faithful) (keys.zip commands) entries := by
      intro hlt
      have hforall := forall₂_entries hentries
      rwa [toInt_int32Size hlt, Int.toNat_natCast, List.take_of_length_le (by simp)] at hforall
    have hspec := spec_keyBatch (p := p) (F := Command.keyCmdBatch) hlen hspecs
      fun keys' commands' heq => Command.keyCmdBatch.inj heq
    have hgood : (∀ e ∈ keys.zip commands, e.2.Faithful) ↔ commandsFaithful commands := by
      rw [commandsFaithful_iff, ← List.forall_mem_map (P := Command.Faithful),
        List.map_snd_zip (by omega)]
    exact (hspec.succ rfl fun n => rfl).congr (and_congr_right fun _ => hgood)
  | .keyCmdIdBatch keys cmdIds => exact spec_keyCmdIdBatch h

theorem spec_tpcCommit {c : TpcCommitCommand} {b : Bytes} (h : c.toMarshal p = some b) :
    Spec (fun n => getTpcCommit p (getDeputy p (fromMarshal p n))) b c c.Faithful := by
  match c with
  | ⟨txId, ret, cmd, term, viewData⟩ =>
    obtain ⟨md, hmd, h⟩ := Option.bind_eq_some_iff.mp h
    cases h
    refine Spec.codec <| Spec.codec <| Spec.codec ?_
    rw [← List.append_assoc (p.i32.put _)]
    refine (spec_deputy (spec_command hmd)).bind (spec_optionalView txId ret cmd term viewData) ?_
    intro n cmd' hne
    refine Yields.bind fun hasViewData => ?_
    split_ifs
    · exact Yields.pure fun heq => hne (TpcCommitCommand.mk.inj heq).2.2.1
    · exact Yields.bind fun view => Yields.pure fun heq => hne (TpcCommitCommand.mk.inj heq).2.2.1

theorem forall₂_commits {cmds : List TpcCommitCommand} {bodies : List Bytes}
    (h : commitsToMarshal p cmds = some bodies) :
    List.Forall₂ (fun c b => Spec (fun n => getTpcCommit p (getDeputy p (fromMarshal p n))) b c
      c.Faithful) cmds bodies := by
  match cmds with
  | [] =>
    cases h
    exact .nil
  | c :: cmds =>
    obtain ⟨body, hbody, h⟩ := Option.bind_eq_some_iff.mp h
    obtain ⟨bodies, hbodies, h⟩ := Option.bind_eq_some_iff.mp h
    cases h
    exact .cons (spec_tpcCommit hbody) (forall₂_commits hbodies)

theorem forall₂_entries {n : Nat} {keys : List Key} {commands : List Command} {entries : List Bytes}
    (h : entriesToMarshal p n keys commands = some entries) :
    List.Forall₂ (fun e b => Spec (fun m => do
      let k ← p.i32.get
      let cmd ← getDeputy p (fromMarshal p m)
      return (k, cmd)) b e e.2.Faithful) ((keys.zip commands).take n) entries := by
  match n, keys, commands with
  | n + 1, k :: keys, c :: commands =>
    obtain ⟨md, hmd, h⟩ := Option.bind_eq_some_iff.mp h
    obtain ⟨entries, hentries, h⟩ := Option.bind_eq_some_iff.mp h
    cases h
    have hentry := (spec_deputy (spec_command hmd)).last (F := fun cmd => (k, cmd))
      fun cmd heq => (Prod.mk.inj heq).2
    exact .cons (Spec.codec (c := p.i32) (x := k) hentry) (forall₂_entries hentries)
  | 0, _, _ =>
    simp only [entriesToMarshal, Option.some.injEq] at h
    simp [← h]
  | n + 1, [], _ =>
    simp only [entriesToMarshal, Option.some.injEq] at h
    simp [← h]
  | n + 1, _ :: _, [] =>
    simp only [entriesToMarshal, Option.some.injEq] at h
    simp [← h]

end

/-- With enough fuel the tree is read back, and what follows its bytes is left. -/
def RoundTrips (p : Primitives) (cmd : Command) (b : Bytes) : Prop :=
  ∃ N, ∀ fuel, N ≤ fuel → ∀ rest, (fromMarshal p fuel cmd.kind).run (b ++ rest) = some (cmd, rest)

theorem not_roundTrips {cmd : Command} {b : Bytes} (h : cmd.toMarshal p = some b)
    (hbad : ¬ cmd.Faithful) : ¬ RoundTrips p cmd b := by
  rintro ⟨N, hN⟩
  exact (spec_command h).2 hbad N [] cmd [] (hN N le_rfl []) rfl

theorem roundTrips_iff_faithful {cmd : Command} {b : Bytes} (h : cmd.toMarshal p = some b) :
    RoundTrips p cmd b ↔ cmd.Faithful := by
  refine ⟨fun hround => ?_, fun hgood => ((spec_command h).1 hgood).1⟩
  by_contra hbad
  exact not_roundTrips h hbad hround

section LittleEndian

def putRaw : Nat → Nat → Bytes
  | 0, _ => []
  | k + 1, n => UInt8.ofNat n :: putRaw k (n / 256)

def getByte : Parser UInt8 := fun s =>
  match s with
  | [] => none
  | b :: rest => some (b, rest)

def getRaw : Nat → Parser Nat
  | 0 => pure 0
  | k + 1 => do
    let b ← getByte
    let n ← getRaw k
    return b.toNat + 256 * n

theorem getRaw_putRaw (k n : Nat) (rest : Bytes) :
    (getRaw k).run (putRaw k n ++ rest) = some (n % 256 ^ k, rest) := by
  induction k generalizing n with
  | zero => simp [getRaw, putRaw, Nat.mod_one]
  | succ k ih =>
    have hb : getByte.run (putRaw (k + 1) n ++ rest) =
        some (UInt8.ofNat n, putRaw k (n / 256) ++ rest) := rfl
    rw [getRaw, run_bind_of_eq hb, run_bind_of_eq (ih (n / 256)), StateT.run_pure]
    rw [Nat.pow_succ', Nat.mod_mul]
    simp

def rawInt (k w : Nat) (h : 2 ^ w = 256 ^ k) : Codec (BitVec w) where
  put x := putRaw k x.toNat
  get := do
    let n ← getRaw k
    return BitVec.ofNat w n
  get_put x rest := by
    rw [run_bind_of_eq (getRaw_putRaw k x.toNat rest), ← h, Nat.mod_eq_of_lt x.isLt]
    simp

/-- The first byte of a `v64` below 64 is the value; how the codec writes a greater value only
matters for what is written with it. -/
def putLength (n : Nat) : Bytes :=
  List.replicate (n / 64) 255 ++ [UInt8.ofNat (n % 64)]

def getLength : Bytes → Option (Nat × Bytes)
  | [] => none
  | b :: rest =>
    if b = 255 then (getLength rest).map fun (n, r) => (n + 64, r) else some (b.toNat, rest)

theorem getLength_putLength (n : Nat) (rest : Bytes) :
    getLength (putLength n ++ rest) = some (n, rest) := by
  have hlast : ∀ m, m < 64 → UInt8.ofNat m ≠ 255 ∧ (UInt8.ofNat m).toNat = m := by decide
  obtain ⟨hne, hval⟩ := hlast (n % 64) (Nat.mod_lt n (by omega))
  have hrep : ∀ k, getLength (List.replicate k 255 ++ [UInt8.ofNat (n % 64)] ++ rest) =
      some (n % 64 + 64 * k, rest) := by
    intro k
    induction k with
    | zero => simp [getLength, hne, hval]
    | succ k ih => simp_all [List.replicate_succ, getLength]; omega
  rw [putLength, hrep, Nat.mod_add_div]

def lengthCodec : Codec Nat where
  put := putLength
  get := getLength
  get_put := getLength_putLength

theorem getMany_getByte (bs rest : Bytes) :
    (getMany getByte bs.length).run (bs ++ rest) = some (bs, rest) := by
  induction bs with
  | nil => rfl
  | cons b bs ih =>
    have hb : getByte.run (b :: bs ++ rest) = some (b, bs ++ rest) := rfl
    rw [List.length_cons, getMany, run_bind_of_eq hb, run_bind_of_eq ih]
    rfl

def stringCodec : Codec String where
  put s := lengthCodec.put s.toByteArray.data.toList.length ++ s.toByteArray.data.toList
  get := do
    let n ← lengthCodec.get
    let bytes ← getMany getByte n
    match String.fromUTF8? ⟨bytes.toArray⟩ with
    | some s => return s
    | none => failure
  get_put s rest := by
    have hutf8 : String.fromUTF8? ⟨s.toByteArray.data.toList.toArray⟩ = some s := by
      rw [Array.toArray_toList]
      exact dif_pos s.isValidUTF8
    rw [List.append_assoc, run_bind_of_eq (lengthCodec.get_put _ _),
      run_bind_of_eq (getMany_getByte _ rest), hutf8]
    rfl

def littleEndian : Primitives where
  i8 := rawInt 1 8 rfl
  i32 := rawInt 4 32 rfl
  u32 := rawInt 4 32 rfl
  i64 := rawInt 8 64 rfl
  u64 := rawInt 8 64 rfl
  double := rawInt 8 64 rfl
  str := stringCodec
  length := lengthCodec

end LittleEndian

/-- A piece that carries a value read from a row of version 7. -/
def versionedRead : Command :=
  .vecPiece [{ input := ⟨⟨[(0, some ⟨7, .i32 5⟩)], by decide⟩⟩, rank := 0 }] 0 0

theorem versionedRead_lost :
    ∃ b, versionedRead.toMarshal littleEndian = some b ∧
      ¬ RoundTrips littleEndian versionedRead b := by
  refine ⟨_, rfl, not_roundTrips rfl ?_⟩
  rintro ⟨-, hpieces⟩
  have hinput := (hpieces _ List.mem_cons_self).1
  exact absurd (hinput 0 ⟨7, .i32 5⟩ List.mem_cons_self).2 (by decide)

def nestedBatch : Command :=
  let piece : SimpleCommand :=
    { input := ⟨⟨[(0, some ⟨0, .i32 5⟩), (1, none)], by decide⟩⟩, rank := 0 }
  .keyCmdBatch [3] [.tpcBatch [⟨1, 0, .vecPiece [piece] 0 0, 2, some ⟨⟨3, [0, 1], 2, 9⟩, 4⟩⟩]]

theorem roundTrips_iff_faithful_nestedBatch :
    ∃ b, nestedBatch.toMarshal littleEndian = some b ∧
      RoundTrips littleEndian nestedBatch b := by
  refine ⟨_, rfl, (roundTrips_iff_faithful rfl).mpr ?_⟩
  simp [nestedBatch, Command.Faithful, commandsFaithful, commitsFaithful,
    TpcCommitCommand.Faithful, ViewData.Faithful, SimpleCommand.Faithful, TxWorkspace.Faithful,
    KeyMap.empty]

end Jetpack.Marshal
