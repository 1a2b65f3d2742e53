import Jetpack.Library.Components

/-! The dependency graph of the transactions and the search for its strongly connected components.
A vertex is named by its id. -/

namespace Jetpack.Rcc

open Components

variable {V : Type} [LinearOrder V]

inductive Rank where
  | I
  | D

/-- The ids in `parents` are those of the parent edges. A vertex that is created during the search
for a parent has none. -/
structure Deps (V : Type) where
  vertices : Finset V
  parents : Rank → V → List V
  created : ∀ rank v, v ∉ vertices → parents rank v = []

def Deps.Edge (deps : Deps V) (rank : Rank) (v w : V) : Prop := w ∈ deps.parents rank v

/-- What the vertices keep for one rank. A vertex has a vector for its component, and a pointer to
the vector of the vertex `scc`, at first its own. -/
structure SccHelper (V : Type) where
  index : V → Option Nat := fun _ => none
  lowlink : V → Nat := fun _ => 0
  onStack : V → Bool := fun _ => false
  scc : V → V := id
  vectors : V → List V := fun _ => []

structure Graph (V : Type) where
  vertexIndex : Finset V
  helper : Rank → SccHelper V := fun _ => {}
  nextIndex : Nat := 1
  stack : List V := []
  searchStack : List (V × Nat) := []

structure Dfs (V : Type) extends Search V where
  vertexIndex : Finset V
  scc : V → V := id
  vectors : V → List V := fun _ => []

namespace Dfs

def sccOf (s : Dfs V) (v : V) : List V := s.vectors (s.scc v)

def findOrCreate (s : Dfs V) (v : V) : Dfs V := { s with vertexIndex := insert v s.vertexIndex }

/-- The root of a component gives its vector to all members. -/
def complete (v : V) (s : Dfs V) : Option (Dfs V) :=
  if s.lowlink v = s.idx v then
    match s.sccOf v with
    | [] =>
      some { s with
        toSearch := s.pop v
        vectors := Function.update s.vectors (s.scc v) ((s.component v).insertionSort (· ≤ ·))
        scc := fun w => if (s.component v).contains w then s.scc v else s.scc w }
    | _ :: _ => none
  else some s

def scanParents (connect : V → Dfs V → Option (Dfs V)) (v : V) : List V → Dfs V → Option (Dfs V)
  | [], s => some s
  | p :: ps, s =>
    let s := s.findOrCreate p
    if s.sccOf p ≠ [] then scanParents connect v ps s
    else
      match s.index p with
      | none =>
        (connect p s).bind fun s =>
          scanParents connect v ps { s with toSearch := s.lower v (s.lowlink p) }
      | some i =>
        scanParents connect v ps (if s.onStack p then { s with toSearch := s.lower v i } else s)

def strongConnectPred (deps : Deps V) (rank : Rank) : Nat → V → Dfs V → Option (Dfs V)
  | 0, _, _ => none
  | fuel + 1, v, s =>
    match s.index v with
    | some _ => none
    | none =>
      (scanParents (strongConnectPred deps rank fuel) v (deps.parents rank v)
        { s with toSearch := s.push v }).bind (complete v)

/-- The loop over the parents from position `i` on. It stops at a parent to be searched first, with
the position to resume from. -/
def scanFrom (v : V) : Nat → List V → Dfs V → Option (V × Nat) × Dfs V
  | _, [], s => (none, s)
  | i, p :: ps, s =>
    let s := s.findOrCreate p
    if s.sccOf p ≠ [] then scanFrom v (i + 1) ps s
    else
      match s.index p with
      | none => (some (p, i + 1), s)
      | some j =>
        scanFrom v (i + 1) ps (if s.onStack p then { s with toSearch := s.lower v j } else s)

/-- A vertex that is done passes its lowest index on to the one below it. -/
def passDown (v : V) (stack : List (V × Nat)) (s : Dfs V) : Dfs V :=
  match stack with
  | [] => s
  | (u, _) :: _ => { s with toSearch := s.lower u (s.lowlink v) }

def resume (deps : Deps V) (rank : Rank) (v : V) (i : Nat) (rest : List (V × Nat)) (s : Dfs V) :
    Option (List (V × Nat) × Dfs V) :=
  match scanFrom v i ((deps.parents rank v).drop i) s with
  | (some (w, j), s) => some ((w, 0) :: (v, j) :: rest, s)
  | (none, s) => (complete v s).map fun s => (rest, passDown v rest s)

def turn (deps : Deps V) (rank : Rank) (v : V) (i : Nat) (rest : List (V × Nat)) (s : Dfs V) :
    Option (List (V × Nat) × Dfs V) :=
  if i = 0 then
    match s.index v with
    | some _ => none
    | none => resume deps rank v i rest { s with toSearch := s.push v }
  else resume deps rank v i rest s

def loop (deps : Deps V) (rank : Rank) : Nat → List (V × Nat) → Dfs V →
    Option (List (V × Nat) × Dfs V)
  | _, [], s => some ([], s)
  | 0, _ :: _, _ => none
  | fuel + 1, (v, i) :: rest, s =>
    (turn deps rank v i rest s).bind fun x => loop deps rank fuel x.1 x.2

end Dfs

namespace Graph

def load (g : Graph V) (rank : Rank) : Dfs V where
  vertexIndex := g.vertexIndex
  stack := g.stack
  onStack := (g.helper rank).onStack
  index := (g.helper rank).index
  lowlink := (g.helper rank).lowlink
  nextIndex := g.nextIndex
  scc := (g.helper rank).scc
  vectors := (g.helper rank).vectors

def store (g : Graph V) (rank : Rank) (s : Dfs V) : Graph V where
  vertexIndex := s.vertexIndex
  helper := fun r => match rank, r with
    | .I, .I | .D, .D =>
      { index := s.index, lowlink := s.lowlink, onStack := s.onStack, scc := s.scc,
        vectors := s.vectors }
    | .I, .D | .D, .I => g.helper r
  nextIndex := s.nextIndex
  stack := s.stack
  searchStack := g.searchStack

def strongConnectPredNonRecursive (deps : Deps V) (fuel : Nat) (g : Graph V) (v : V)
    (rank : Rank) : Option (Graph V) :=
  match g.searchStack with
  | [] =>
    (Dfs.loop deps rank fuel [(v, 0)] (g.load rank)).map fun x =>
      { g.store rank x.2 with searchStack := x.1 }
  | _ :: _ => none

def findSccPred (deps : Deps V) (fuel : Nat) (g : Graph V) (v : V) (rank : Rank) :
    Option (List V × Graph V) :=
  if (g.load rank).sccOf v ≠ [] then some ((g.load rank).sccOf v, g)
  else
    (strongConnectPredNonRecursive deps fuel g v rank).map fun g => ((g.load rank).sccOf v, g)

end Graph

end Jetpack.Rcc
