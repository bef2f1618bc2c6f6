import Mathlib.Data.List.Nodup
import Mathlib.Logic.Function.Basic

/-! # Circular doubly linked lists in memory

A head and the nodes behind it, linked both ways. The links are written one at a time,
so each direction has a definition of its own: who only follows `next` finds its way
between any two writes. -/
namespace CppIpc.Lib.Rings

variable {α : Type} {next next' prev prev' : α → α} {a b m z : α} {l r : List α}

/-- Following `next` from `a` meets exactly `l` and then `z`. -/
def Fwd (next : α → α) : α → List α → α → Prop
  | a, [], z => next a = z
  | a, b :: l, z => next a = b ∧ Fwd next b l z

/-- `prev` leads from each node of `l` to the one before it, and from the first to `a`. -/
def Bwd (prev : α → α) : α → List α → Prop
  | _, [] => True
  | a, b :: l => prev b = a ∧ Bwd prev b l

/-! ## Reading -/

theorem fwd_append : Fwd next a (l ++ m :: r) z ↔ Fwd next a l m ∧ Fwd next m r z := by
  induction l generalizing a with
  | nil => exact Iff.rfl
  | cons b l ih =>
    simp only [List.cons_append, Fwd]
    rw [ih, and_assoc]

theorem bwd_append : Bwd prev a (l ++ r) ↔ Bwd prev a l ∧ Bwd prev (l.getLastD a) r := by
  induction l generalizing a with
  | nil => simp [Bwd]
  | cons b l ih =>
    rw [List.cons_append, List.getLastD_cons]
    simp only [Bwd]
    rw [ih, and_assoc]

theorem Fwd.mid (h : Fwd next a (l ++ m :: r) z) : next m = r.headD z := by
  have hr := (fwd_append.mp h).2
  cases r with
  | nil => exact hr
  | cons b r => exact hr.1

theorem Bwd.mid (h : Bwd prev a (l ++ m :: r)) : prev m = l.getLastD a :=
  (bwd_append.mp h).2.1

/-- The same links lead on from any node that points where `a` does. -/
theorem Fwd.from (h : Fwd next a l z) (he : next b = next a) : Fwd next b l z := by
  cases l with
  | nil => exact he.trans h
  | cons c l => exact ⟨he.trans h.1, h.2⟩

theorem Fwd.congr (h : Fwd next a l z) (he : ∀ b ∈ a :: l, next' b = next b) :
    Fwd next' a l z := by
  induction l generalizing a with
  | nil => exact (he a List.mem_cons_self).trans h
  | cons b l ih =>
    refine ⟨(he a List.mem_cons_self).trans h.1, ih h.2 fun c hc => ?_⟩
    exact he c (List.mem_cons_of_mem a hc)

theorem Bwd.congr (h : Bwd prev a l) (he : ∀ b ∈ l, prev' b = prev b) : Bwd prev' a l := by
  induction l generalizing a with
  | nil => trivial
  | cons b l ih =>
    refine ⟨(he b List.mem_cons_self).trans h.1, ih h.2 fun c hc => ?_⟩
    exact he c (List.mem_cons_of_mem b hc)

/-- At most `n` nodes from `p` on, as far as `z`. -/
def walk [DecidableEq α] (next : α → α) (z : α) : Nat → α → List α
  | 0, _ => []
  | n + 1, p => if p = z then [] else p :: walk next z n (next p)

theorem Fwd.walk [DecidableEq α] (h : Fwd next a l z) (hz : z ∉ l) (n : Nat) :
    walk next z n (next a) = l.take n := by
  induction n generalizing a l with
  | zero => rw [List.take_zero]; rfl
  | succ n ih =>
    cases l with
    | nil => rw [h, List.take_nil, Rings.walk, if_pos rfl]
    | cons b l =>
      have hb : b ≠ z := fun he => hz (he ▸ List.mem_cons_self)
      have hl : z ∉ l := fun hm => hz (List.mem_cons_of_mem b hm)
      rw [h.1, Rings.walk, if_neg hb, ih h.2 hl, List.take_succ_cons]

/-! ## Writing -/

variable [DecidableEq α]

theorem Fwd.write (h : Fwd next a l z) (hm : m ∉ a :: l) (b : α) :
    Fwd (Function.update next m b) a l z :=
  h.congr fun c hc => Function.update_of_ne (fun he : c = m => hm (he ▸ hc)) b next

theorem Bwd.write (h : Bwd prev a l) (hm : m ∉ l) (b : α) :
    Bwd (Function.update prev m b) a l :=
  h.congr fun c hc => Function.update_of_ne (fun he : c = m => hm (he ▸ hc)) b prev

/-- A node that points at the first one becomes the first by one write. -/
theorem Fwd.push (h : Fwd next a l z) (hm : next m = next a) (ha : a ∉ m :: l) :
    Fwd (Function.update next a m) a (m :: l) z := by
  refine ⟨Function.update_self .., ?_⟩
  exact (h.from hm).write ha m

/-- One write takes a node out. -/
theorem Fwd.unlink (h : Fwd next a (l ++ m :: r) z) (hn : (a :: (l ++ m :: r)).Nodup) :
    Fwd (Function.update next (l.getLastD a) (next m)) a (l ++ r) z := by
  induction l generalizing a with
  | nil =>
    have ha : a ∉ r := fun ha => (List.nodup_cons.mp hn).1 (List.mem_cons_of_mem m ha)
    have hm : Fwd (Function.update next a (next m)) m r z := by
      refine h.2.write (fun hm => ?_) _
      rcases List.mem_cons.mp hm with rfl | hm
      · exact (List.nodup_cons.mp hn).1 List.mem_cons_self
      · exact ha hm
    have hne : m ≠ a := fun he => (List.nodup_cons.mp hn).1 (he ▸ List.mem_cons_self)
    refine hm.from ?_
    exact (Function.update_self ..).trans (Function.update_of_ne hne ..).symm
  | cons b l ih =>
    have hne : l.getLastD b ≠ a := by
      intro he
      have hmem : l.getLastD b ∈ b :: (l ++ m :: r) := by
        rw [← List.cons_append]
        exact List.mem_append_left _ List.getLastD_mem_cons
      exact (List.nodup_cons.mp hn).1 (he ▸ hmem)
    rw [List.getLastD_cons]
    exact ⟨(Function.update_of_ne (Ne.symm hne) _ _).trans h.1, ih h.2 (List.nodup_cons.mp hn).2⟩

end CppIpc.Lib.Rings
