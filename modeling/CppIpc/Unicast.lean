import CppIpc.ProdCons

/-! # `prod_cons_impl<single, single, unicast>`

The queue of a one-to-one connection. The connection word counts receivers, and
nobody reads it but `force_push`, which gives the only reader up. -/
namespace CppIpc.Unicast
open CppIpc.Def CppIpc.ProdCons

structure Queue (α : Type) where
  elems : BitVec 8 → α
  rd : U2
  wt : U2

variable {α : Type}

def Queue.init [Inhabited α] : Queue α := ⟨fun _ => default, 0, 0⟩

/-- `push`; one slot stays free. -/
def Queue.push (q : Queue α) (x : α) : Option (Queue α) :=
  let curWt := indexOf q.wt
  if curWt = indexOf (q.rd - 1) then none
  else some { q with elems := fun σ => if σ = curWt then x else q.elems σ, wt := q.wt + 1 }

/-- `pop`; the only reader is always the last. -/
def Queue.pop (q : Queue α) : Option (α × Bool × Queue α) :=
  let curRd := indexOf q.rd
  if curRd = indexOf q.wt then none
  else some (q.elems curRd, true, { q with rd := q.rd + 1 })

/-- The policy; `force_push` disconnects every receiver and returns false. -/
def unicast [Inhabited α] : Policy α where
  multi := false
  Queue := Queue α
  init := .init
  cursor _ := 0
  push q _ x := q.push x
  forcePush q _ _ := (q, 0, none)
  pop q _ _ := q.pop

end CppIpc.Unicast
