import Mathlib.Logic.Function.Basic
import Mathlib.Data.Option.Basic

/-! Histories of reads and writes on a store. Executing a history one operation after another fails
where a read did not return what the store holds. -/

namespace SerialHistory

variable {α β : Type}

inductive Op (α β : Type)
  | read (a : α) (v : β)
  | write (a : α) (v : β)
  deriving DecidableEq

section Exec

variable [DecidableEq α] [DecidableEq β]

def exec (m : α → β) : List (Op α β) → Option (α → β)
  | [] => some m
  | .read a v :: ops => if m a = v then exec m ops else none
  | .write a v :: ops => exec (Function.update m a v) ops

def execAll (m : α → β) : List (List (Op α β)) → Option (α → β)
  | [] => some m
  | t :: ts => (exec m t).bind fun m' => execAll m' ts

theorem exec_append (m : α → β) (xs ys : List (Op α β)) :
    exec m (xs ++ ys) = (exec m xs).bind fun m' => exec m' ys := by
  induction xs generalizing m with
  | nil => rfl
  | cons x xs ih =>
    cases x with
    | read a v =>
      by_cases h : m a = v
      · simpa [exec, h] using ih m
      · simp [exec, h]
    | write a v => exact ih _

theorem exec_append_read {m m' : α → β} {xs : List (Op α β)} {a : α} {v : β}
    (h : exec m xs = some m') (ha : m' a = v) : exec m (xs ++ [.read a v]) = some m' := by
  rw [exec_append, h]
  simp [exec, ha]

theorem exec_append_write {m m' : α → β} {xs : List (Op α β)} (a : α) (v : β)
    (h : exec m xs = some m') :
    exec m (xs ++ [.write a v]) = some (Function.update m' a v) := by
  rw [exec_append, h]
  rfl

theorem execAll_append_singleton (m : α → β) (ts : List (List (Op α β))) (t : List (Op α β)) :
    execAll m (ts ++ [t]) = (execAll m ts).bind fun m' => exec m' t := by
  induction ts generalizing m with
  | nil =>
    cases h : exec m t with
    | none => simp [execAll, h]
    | some m' => simp [execAll, h]
  | cons x ts ih =>
    cases h : exec m x with
    | none => simp [execAll, h]
    | some m' => simpa [execAll, h] using ih m'

end Exec

section Parts

variable {π : Type}

/-- The same operation on the part `p` of a store that is divided into parts. -/
def Op.within (p : π) : Op α β → Op (π × α) β
  | .read a v => .read (p, a) v
  | .write a v => .write (p, a) v

variable [DecidableEq π]

def Op.inPart (p : π) : Op (π × α) β → Option (Op α β)
  | .read a v => if a.1 = p then some (.read a.2 v) else none
  | .write a v => if a.1 = p then some (.write a.2 v) else none

def part (p : π) (ops : List (Op (π × α) β)) : List (Op α β) := ops.filterMap (Op.inPart p)

theorem part_append (p : π) (xs ys : List (Op (π × α) β)) :
    part p (xs ++ ys) = part p xs ++ part p ys := List.filterMap_append

@[simp]
theorem part_within_self (p : π) (op : Op α β) : part p [op.within p] = [op] := by
  cases op <;> simp [part, Op.within, Op.inPart]

theorem part_within_ne {p q : π} (h : p ≠ q) (op : Op α β) : part q [op.within p] = [] := by
  cases op <;> simp [part, Op.within, Op.inPart, h]

variable [DecidableEq α] [DecidableEq β]

/-- A history can be executed when each part of it can, on its own part of the store. -/
theorem exec_of_parts {m m' : π × α → β} {ops : List (Op (π × α) β)}
    (h : ∀ p, exec (fun a => m (p, a)) (part p ops) = some fun a => m' (p, a)) :
    exec m ops = some m' := by
  induction ops generalizing m with
  | nil =>
    have hsame : m = m' := by
      funext k
      exact congrFun (Option.some.inj (h k.1)) k.2
    rw [hsame]
    rfl
  | cons op ops ih =>
    have hcons : ∀ p, part p (op :: ops) = part p [op] ++ part p ops := fun p => part_append p [op] ops
    cases op with
    | read k v =>
      have hself := h k.1
      simp only [part, Op.inPart, List.filterMap_cons, if_true, exec] at hself
      split at hself
      · next hval =>
        rw [exec, if_pos hval]
        apply ih
        intro p
        by_cases hp : k.1 = p
        · subst hp
          exact hself
        · have hother := h p
          simpa [hcons, part, Op.inPart, hp] using hother
      · cases hself
    | write k v =>
      rw [exec]
      apply ih
      intro p
      have hpart := h p
      by_cases hp : k.1 = p
      · subst hp
        have hupdate : (fun a => Function.update m k v (k.1, a)) =
            Function.update (fun a => m (k.1, a)) k.2 v := by
          funext a
          by_cases ha : a = k.2
          · subst ha
            simp
          · have hne : (k.1, a) ≠ k := fun heq => ha (congrArg Prod.snd heq)
            simp [ha, hne]
        rw [hupdate]
        simpa [hcons, part, Op.inPart, exec] using hpart
      · have hupdate : (fun a => Function.update m k v (p, a)) = fun a => m (p, a) := by
          funext a
          have hne : (p, a) ≠ k := fun heq => hp (congrArg Prod.fst heq).symm
          simp [hne]
        rw [hupdate]
        simpa [hcons, part, Op.inPart, hp] using hpart

end Parts

end SerialHistory
