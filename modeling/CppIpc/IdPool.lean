import CppIpc.Def
import CppIpc.Lib.FreeList

/-! # `id_pool`

`next_` and `cursor_` are unsigned bytes; an index is at most 32, so they are
numbers here. A pool lives in zero-filled shared memory and is built by the first
`prepare`. -/
namespace CppIpc.IdPool
open CppIpc.Def CppIpc.Lib.FreeList

/-- `max_count`: the smaller of `large_msg_cache` and 255. -/
def maxCount : Nat := min largeMsgCache 255

structure Pool where
  next : Nat → Nat
  cursor : Nat
  prepared : Bool

/-- Zero-filled memory. -/
def Pool.zero : Pool := ⟨fun _ => 0, 0, false⟩

def Pool.setNext (p : Pool) (i v : Nat) : Pool :=
  { p with next := fun j => if j = i then v else p.next j }

/-- `init`. -/
def Pool.init (p : Pool) : Pool :=
  (List.range maxCount).foldl (fun p i => p.setNext i (i + 1)) p

/-- `invalid`: the object is all zero bytes. -/
def Pool.invalid (p : Pool) : Bool :=
  (∀ i < maxCount, p.next i = 0) ∧ p.cursor = 0 ∧ p.prepared = false

/-- `prepare`. -/
def Pool.prepare (p : Pool) : Pool :=
  let p := if ¬ p.prepared ∧ p.invalid then p.init else p
  { p with prepared := true }

/-- `acquire`; -1 if there is no free id. -/
def Pool.acquire (p : Pool) : Int × Pool :=
  if p.cursor = maxCount then (-1, p)
  else (p.cursor, { p with cursor := p.next p.cursor })

/-- `release`. -/
def Pool.release (p : Pool) (id : Int) : Pool :=
  if id < 0 then p
  else { p.setNext id.toNat p.cursor with cursor := id.toNat }

/-- The free ids of a pool, which is prepared before it is used. A corrupted list
that runs in a circle repeats an id within the bound. -/
def Pool.free (p : Pool) : List Nat :=
  walk maxCount p.prepare.next (maxCount + 1) p.prepare.cursor

/-- The free list is a list without repetition. -/
def Pool.Sound (p : Pool) (l : List Nat) : Prop :=
  Links maxCount p.prepare.next p.prepare.cursor l ∧ l.Nodup

variable {p : Pool} {l : List Nat}

theorem Pool.init_next (p : Pool) (i : Nat) :
    p.init.next i = if i < maxCount then i + 1 else p.next i := by
  have hfold : ∀ n, ((List.range n).foldl (fun p i => Pool.setNext p i (i + 1)) p).next i =
      if i < n then i + 1 else p.next i := by
    intro n
    induction n with
    | zero => simp
    | succ n ih =>
      rw [List.range_succ, List.foldl_append]
      change (if i = n then n + 1 else (List.foldl _ p (List.range n)).next i) = _
      rw [ih]
      by_cases he : i = n
      · simp [he]
      · have : i < n ↔ i < n + 1 := by omega
        simp only [he, if_false, this]
  exact hfold maxCount

/-- Only the first call does anything. -/
theorem Pool.prepare_eq (h : p.prepared = true) : p.prepare = p := by
  have hc : ¬ (¬ p.prepared = true ∧ p.invalid = true) := fun hc => hc.1 h
  rw [Pool.prepare, if_neg hc, ← h]

@[simp] theorem Pool.free_prepare (p : Pool) : p.prepare.free = p.free := by
  rw [Pool.free, Pool.prepare_eq rfl, Pool.free]

theorem Pool.Sound.free_eq (h : p.Sound l) : p.free = l :=
  h.1.walk_eq (Nat.le_succ_of_le (h.1.length_le h.2))

theorem Pool.Sound.lt (h : p.Sound l) {i : Nat} (hi : i ∈ l) : i < maxCount := h.1.lt hi

theorem links_range (n k : Nat) (next : Nat → Nat)
    (hn : ∀ i, k ≤ i → i < k + n → next i = i + 1) :
    Links (k + n) next k (List.range' k n) := by
  induction n generalizing k with
  | zero => simp [Links]
  | succ n ih =>
    refine ⟨rfl, by omega, ?_⟩
    rw [hn k (Nat.le_refl _) (by omega), show k + (n + 1) = k + 1 + n by omega]
    exact ih (k + 1) fun i h₁ h₂ => hn i (by omega) (by omega)

/-- A fresh pool has all ids free. -/
theorem Pool.zero_sound : Pool.zero.Sound (List.range' 0 maxCount) := by
  refine ⟨?_, List.nodup_range'⟩
  have hp : Pool.zero.prepare = { Pool.zero.init with prepared := true } := by
    have hc : ¬ Pool.zero.prepared = true ∧ Pool.zero.invalid = true := by decide
    rw [Pool.prepare, if_pos hc]
  have hc : Pool.zero.prepare.cursor = 0 := by
    rw [hp]
    decide
  rw [hc]
  have := links_range maxCount 0 Pool.zero.prepare.next (by
    intro i _ hi
    rw [hp]
    simp only [Pool.init_next]
    rw [if_pos (by omega)])
  simpa using this

/-- `acquire` takes the head of the free list. -/
theorem Pool.Sound.acquire (h : p.Sound l) :
    (l = [] ∧ p.prepare.acquire = (-1, p.prepare)) ∨
    ∃ i r, l = i :: r ∧ p.prepare.acquire.1 = (i : Int) ∧ p.prepare.acquire.2.Sound r := by
  unfold Pool.acquire
  cases l with
  | nil =>
    have : p.prepare.cursor = maxCount := h.1
    exact .inl ⟨rfl, by simp [this]⟩
  | cons i r =>
    obtain ⟨hc, hlt, hl⟩ := h.1
    refine .inr ⟨i, r, rfl, ?_⟩
    have hne : p.prepare.cursor ≠ maxCount := by omega
    simp only [if_neg hne]
    refine ⟨by rw [hc], ?_, (List.nodup_cons.mp h.2).2⟩
    rw [Pool.prepare_eq rfl, hc]
    exact hl

/-- `release` of an id that is not free puts it back. -/
theorem Pool.Sound.release (h : p.Sound l) (hprep : p.prepared = true) {i : Nat} (hi : i ∉ l)
    (hlt : i < maxCount) : (p.release i).Sound (i :: l) := by
  have hneg : ¬ ((i : Int) < 0) := by omega
  have hr : p.release i = { p.setNext i p.cursor with cursor := i } := by
    rw [Pool.release, if_neg hneg, Int.toNat_natCast]
  have hl := h.1
  rw [Pool.prepare_eq hprep] at hl
  have hrprep : (p.release i).prepared = true := by rw [hr]; exact hprep
  refine ⟨?_, List.nodup_cons.mpr ⟨hi, h.2⟩⟩
  rw [Pool.prepare_eq hrprep, hr]
  exact hl.push hi hlt

end CppIpc.IdPool
