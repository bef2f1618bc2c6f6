import Mathlib.Data.List.Nodup
import Mathlib.Logic.Function.Basic

/-! # Null-terminated chains in memory

A link for each address; a chain is what one meets when following the links from a
pointer to null. -/
namespace CppIpc.Lib.Chains

variable {α : Type} {next next' : α → Option α} {p q : Option α} {a b : α} {l m : List α}

/-- Following `next` from `p` meets exactly `l` and then null. -/
def Chain (next : α → Option α) : Option α → List α → Prop
  | p, [] => p = none
  | p, a :: l => p = some a ∧ Chain next (next a) l

theorem chain_none : Chain next none l ↔ l = [] := by
  cases l with
  | nil => simp [Chain]
  | cons a l => simp [Chain]

theorem chain_some : Chain next (some a) l ↔ ∃ m, l = a :: m ∧ Chain next (next a) m := by
  cases l with
  | nil => simp [Chain]
  | cons b m =>
    simp only [Chain, Option.some.injEq, List.cons.injEq]
    constructor
    · rintro ⟨rfl, h⟩
      exact ⟨m, ⟨rfl, rfl⟩, h⟩
    · rintro ⟨m, ⟨rfl, rfl⟩, h⟩
      exact ⟨rfl, h⟩

theorem Chain.head (h : Chain next p (a :: l)) : p = some a := h.1

theorem Chain.tail (h : Chain next p (a :: l)) : Chain next (next a) l := h.2

/-- The links determine the chain. -/
theorem Chain.unique (h : Chain next p l) (h' : Chain next p m) : l = m := by
  induction l generalizing p m with
  | nil => rw [h] at h'; exact (chain_none.mp h').symm
  | cons a l ih =>
    rw [h.head] at h'
    obtain ⟨m, rfl, hm⟩ := chain_some.mp h'
    rw [ih h.tail hm]

/-- What follows an address on a chain. -/
theorem Chain.suffix (h : Chain next p (m ++ a :: l)) : Chain next (some a) (a :: l) := by
  induction m generalizing p with
  | nil => exact ⟨rfl, h.tail⟩
  | cons b m ih => exact ih h.tail

/-- A chain that ends does not come back. -/
theorem Chain.nodup (h : Chain next p l) : l.Nodup := by
  induction l generalizing p with
  | nil => exact List.nodup_nil
  | cons a l ih =>
    refine List.nodup_cons.mpr ⟨fun ha => ?_, ih h.tail⟩
    obtain ⟨m, n, rfl⟩ := List.append_of_mem ha
    have hlong : Chain next (some a) (a :: (m ++ a :: n)) := by rw [← h.head]; exact h
    have := congrArg List.length (h.tail.suffix.unique hlong)
    simp at this
    omega

/-- Links off the chain do not matter. -/
theorem Chain.congr (h : Chain next p l) (he : ∀ a ∈ l, next' a = next a) : Chain next' p l := by
  induction l generalizing p with
  | nil => exact h
  | cons a l ih =>
    refine ⟨h.head, ?_⟩
    rw [he a List.mem_cons_self]
    exact ih h.tail fun b hb => he b (List.mem_cons_of_mem _ hb)

section Update
variable [DecidableEq α]

theorem Chain.update (h : Chain next p l) (hb : b ∉ l) (q : Option α) :
    Chain (Function.update next b q) p l :=
  h.congr fun a ha => Function.update_of_ne (fun he : a = b => hb (he ▸ ha)) _ _

theorem Chain.push (h : Chain next p l) (hb : b ∉ l) :
    Chain (Function.update next b p) (some b) (b :: l) := by
  refine ⟨rfl, ?_⟩
  rw [Function.update_self]
  exact h.update hb p

end Update

end CppIpc.Lib.Chains
