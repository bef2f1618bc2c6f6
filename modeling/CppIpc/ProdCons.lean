import CppIpc.Def
import CppIpc.Lib.Window
import Mathlib.Logic.Function.Basic

/-! # Queue policies

A `Policy` is what `elem_array` asks of a `prod_cons_impl`, each operation run by
one process alone. A `Broadcast` is a policy with the reading its head and blocks
have: which receivers still have to read a slot, what the slot holds, and whether
the slot belongs to the current epoch. -/
namespace CppIpc.ProdCons
open CppIpc.Def
open CppIpc.Lib.Window (slot)

/-- `multi` is `is_multi_producer`. `push` returns `none` for false. `forcePush`
returns the connection word that its `disconnect_receiver` leaves, and where it
returns true the old content of the slot, to which the caller's `prep` is applied.
`pop` returns the value and the argument of `out`. -/
structure Policy (α : Type) where
  multi : Bool
  Queue : Type
  init : Queue
  cursor : Queue → U2
  push : Queue → CC → α → Option Queue
  forcePush : Queue → CC → α → Queue × CC × Option α
  pop : Queue → CC → U2 → Option (α × Bool × Queue)

/-- `Ok q w` holds of the queues reached with `w` messages pushed. -/
structure Broadcast (α : Type) extends Policy α where
  pend : Queue → BitVec 8 → CC
  data : Queue → BitVec 8 → α
  current : Queue → BitVec 8 → Prop
  Ok : Queue → Nat → Prop
  init_ok : Ok init 0
  init_pend : ∀ σ, pend init σ = 0#32
  init_current : ∀ σ, current init σ
  cursor_eq : ∀ {q w}, Ok q w → cursor q = BitVec.ofNat 32 w
  push_some : ∀ {q w cc x q'}, Ok q w → push q cc x = some q' →
    cc ≠ 0#32 ∧ (cc &&& pend q (slot 8 w) ≠ 0#32 → ¬ current q (slot 8 w)) ∧
    Ok q' (w + 1) ∧ pend q' = Function.update (pend q) (slot 8 w) cc ∧
    data q' = Function.update (data q) (slot 8 w) x ∧
    ∀ σ, current q σ ∨ σ = slot 8 w → current q' σ
  push_none : ∀ {q w cc x}, Ok q w → (multi = true → w < 2 ^ 32) → (push q cc x = none ↔
    cc = 0#32 ∨ (cc &&& pend q (slot 8 w) ≠ 0#32 ∧ current q (slot 8 w)))
  force_some : ∀ {q w cc x q' cc' y}, Ok q w → forcePush q cc x = (q', cc', some y) →
    cc' = cc &&& ~~~pend q (slot 8 w) ∧ cc' ≠ 0#32 ∧ y = data q (slot 8 w) ∧
    Ok q' (w + 1) ∧ pend q' = Function.update (pend q) (slot 8 w) cc' ∧
    data q' = Function.update (data q) (slot 8 w) x
  force_none : ∀ {q w cc x q' cc'}, Ok q w → forcePush q cc x = (q', cc', none) →
    cc' = cc &&& ~~~pend q (slot 8 w) ∧ cc' = 0#32 ∧
    Ok q' w ∧ pend q' = pend q ∧ data q' = data q
  pop_some : ∀ {q w id cur x last q'}, Ok q w → pop q id cur = some (x, last, q') →
    x = data q (indexOf cur) ∧ Ok q' w ∧
    pend q' = Function.update (pend q) (indexOf cur) (pend q (indexOf cur) &&& ~~~id) ∧
    data q' = data q ∧ current q' = current q
  /-- A message that is still in its slot and pending for somebody is found. -/
  pop_ready : ∀ {q w i} (id : CC), Ok q w → i < w → w ≤ i + 256 → pend q (slot 8 i) ≠ 0#32 →
    pop q id (BitVec.ofNat 32 i) ≠ none
  pop_empty : ∀ {q w id}, Ok q w → pop q id (BitVec.ofNat 32 w) = none

end CppIpc.ProdCons
