import Jetpack.Library.Components

/-! The execution of EPaxos instances. A depth-first search through the dependencies executes each
strongly connected component when it is complete, and gives up at a dependency that is not committed.
`none` is a read behind the end of a dependency vector, or a search deeper than was allowed for. -/

namespace Jetpack.EPaxos

open Components

inductive Status
  | none
  | preaccepted
  | preacceptedEq
  | accepted
  | committed
  | executed
  deriving Repr, DecidableEq

def Status.toNat : Status → Nat
  | .none => 0
  | .preaccepted => 1
  | .preacceptedEq => 2
  | .accepted => 3
  | .committed => 4
  | .executed => 5

structure InstanceKey where
  replica : Int
  inst : Int
  deriving Repr, DecidableEq

structure EPaxosInstance (γ : Type) where
  cmd : Option γ := none
  ballot : Nat := 0
  status : Status := .none
  seq : Int := 0
  deps : List Int := []
  proposeTime : Int := 0
  preAcceptOks : Nat := 0
  allEqual : Bool := true

abbrev Instances (γ : Type) := AList fun _ : InstanceKey => EPaxosInstance γ

variable {γ : Type}

/-- `GetInstance` gives an instance without dependencies a vector of -1. -/
def getInstance (nReplica : Nat) (instances : Instances γ) (key : InstanceKey) :
    Instances γ × EPaxosInstance γ :=
  let inst := (instances.lookup key).getD {}
  let inst := if inst.deps = [] then { inst with deps := List.replicate nReplica (-1) } else inst
  (instances.insert key inst, inst)

/-- The state of a search. `executed` lists the instances that it executes, of which those with a
command are handed to `app_next_`. -/
structure Dfs (γ : Type) extends Search InstanceKey where
  instances : Instances γ
  executed : List InstanceKey := []

def before (instances : Instances γ) (a b : InstanceKey) : Bool :=
  let ia := (instances.lookup a).getD {}
  let ib := (instances.lookup b).getD {}
  if ia.seq ≠ ib.seq then ia.seq < ib.seq
  else if a.replica ≠ b.replica then a.replica < b.replica
  else ia.proposeTime < ib.proposeTime

namespace Dfs

def executeInstance (s : Dfs γ) (key : InstanceKey) : Dfs γ :=
  let inst := (s.instances.lookup key).getD {}
  if inst.status = .executed then s
  else { s with
    instances := s.instances.insert key { inst with status := .executed }
    executed := s.executed ++ [key] }

def executeAll (s : Dfs γ) : List InstanceKey → Dfs γ
  | [] => s
  | key :: keys => executeAll (s.executeInstance key) keys

variable (sort : (InstanceKey → InstanceKey → Bool) → List InstanceKey → List InstanceKey)

def popComponent (s : Dfs γ) (key : InstanceKey) : Dfs γ :=
  executeAll { s with toSearch := s.pop key } (sort (before s.instances) (s.component key))

def visitDeps (connect : Dfs γ → InstanceKey → Option (Bool × Dfs γ)) (key : InstanceKey)
    (deps : List Int) : List Nat → Dfs γ → Option (Bool × Dfs γ)
  | [], s => some (true, s)
  | q :: qs, s =>
    if (q : Int) = key.replica then visitDeps connect key deps qs s
    else
      match deps[q]? with
      | none => none
      | some depInst =>
        let dep : InstanceKey := ⟨q, depInst⟩
        if depInst < 0 then visitDeps connect key deps qs s
        else
          match s.instances.lookup dep with
          | none => some (false, s)
          | some depInstance =>
            if depInstance.status.toNat < Status.committed.toNat then some (false, s)
            else if (s.index dep).isNone then
              match connect s dep with
              | none => none
              | some (false, t) => some (false, t)
              | some (true, t) =>
                visitDeps connect key deps qs { t with toSearch := t.lower key (t.lowlink dep) }
            else if s.onStack dep then
              visitDeps connect key deps qs { s with toSearch := s.lower key (s.idx dep) }
            else visitDeps connect key deps qs s

def strongconnect (nReplica : Nat) : Nat → Dfs γ → InstanceKey → Option (Bool × Dfs γ)
  | 0, _, _ => none
  | fuel + 1, s, key =>
    let s : Dfs γ := { s with toSearch := s.push key }
    match s.instances.lookup key with
    | none => some (false, s)
    | some cur =>
      match visitDeps (strongconnect nReplica fuel) key cur.deps (List.range nReplica) s with
      | none => none
      | some (false, t) => some (false, t)
      | some (true, t) =>
        some (true, if t.lowlink key = t.idx key then t.popComponent sort key else t)

end Dfs

/-- The instances and what is executed. A search visits each known instance at most once. -/
def tryExecute (sort : (InstanceKey → InstanceKey → Bool) → List InstanceKey → List InstanceKey)
    (nReplica : Nat) (instances : Instances γ) (key : InstanceKey) :
    Option (Instances γ × List InstanceKey) :=
  let (instances, inst) := getInstance nReplica instances key
  if inst.status ≠ .committed then some (instances, [])
  else
    (Dfs.strongconnect sort nReplica instances.keys.length { instances := instances } key).map
      fun (_, s) => (s.instances, s.executed)

/-! What a search may do, in terms of the dependencies. -/

def Edge (nReplica : Nat) (instances : Instances γ) (a b : InstanceKey) : Prop :=
  ∃ inst q depInst, instances.lookup a = some inst ∧ q < nReplica ∧ (q : Int) ≠ a.replica ∧
    inst.deps[q]? = some depInst ∧ 0 ≤ depInst ∧ b = ⟨q, depInst⟩

def Ready (instances : Instances γ) (key : InstanceKey) : Prop :=
  ∃ inst, instances.lookup key = some inst ∧ (inst.status = .committed ∨ inst.status = .executed)

def Done (instances : Instances γ) (key : InstanceKey) : Prop :=
  ∃ inst, instances.lookup key = some inst ∧ inst.status = .executed

/-- What a call executes, in the instance space that it starts with. -/
structure Executes (nReplica : Nat) (instances : Instances γ) (key : InstanceKey)
    (instances' : Instances γ) (executed : List InstanceKey) : Prop where
  space : ∀ k, instances'.lookup k = (instances.lookup k).map fun inst =>
    if k ∈ executed then { inst with status := .executed } else inst
  once : executed.Nodup ∧ ∀ k ∈ executed, ¬ Done instances k
  ready : ∀ a ∈ executed, ∀ b, Relation.ReflTransGen (Edge nReplica instances) a b →
    Ready instances b
  order : ∀ front a back, executed = front ++ a :: back →
    ∀ b, Relation.ReflTransGen (Edge nReplica instances) a b →
      ¬ Relation.ReflTransGen (Edge nReplica instances) b a → Done instances b ∨ b ∈ front
  complete : ∀ a ∈ executed, ∀ b, Relation.ReflTransGen (Edge nReplica instances) a b →
    Done instances b ∨ b ∈ executed
  progress : (∀ b, Relation.ReflTransGen (Edge nReplica instances) key b → Ready instances b) →
    Done instances key ∨ key ∈ executed

end Jetpack.EPaxos
