import Mathlib.Data.Set.Card

/-! # A log with a bounded number of readers, each a bounded way behind

What a broadcast ring is for: appended entries are kept, every reader reads all that is
appended after it has joined, in order, and an append waits for the slowest reader. A
forced append drops the readers that it would have to wait for. -/
namespace CppIpc.Lib.BoundedLog

/-- `pos` is the index of the entry that a reader reads next, for those who have joined. -/
structure Log (ι α : Type) where
  entries : List α
  pos : ι → Option Nat

inductive Op (ι α : Type) where
  | join (i : ι)
  | leave (i : ι)
  | append (x : α)
  | force (x : α)
  | read (i : ι)

/-- What an operation returns. -/
inductive Out (α : Type) where
  | joined (b : Bool)
  | left (b : Bool)
  | appended (b : Bool)
  | read (x : Option α)
deriving DecidableEq

variable {ι α : Type}

def Log.empty : Log ι α := ⟨[], fun _ => none⟩

def Log.readers (l : Log ι α) : Set ι := {i | l.pos i ≠ none}

/-- The reader has `cap` entries still to read. -/
def Log.Lagging (cap : Nat) (l : Log ι α) (i : ι) : Prop :=
  ∃ p, l.pos i = some p ∧ l.entries.length = p + cap

open Classical in
/-- The readers that a forced append leaves. -/
noncomputable def Log.spared (cap : Nat) (l : Log ι α) : Log ι α :=
  { l with pos := fun i => if l.Lagging cap i then none else l.pos i }

variable [DecidableEq ι]

open Classical in
/-- `cap` entries for the slowest reader, `seats` readers. -/
noncomputable def Log.step (cap seats : Nat) (l : Log ι α) : Op ι α → Log ι α × Out α
  | .join i =>
    if l.pos i ≠ none then (l, .joined true)
    else if l.readers.ncard < seats then
      ({ l with pos := Function.update l.pos i (some l.entries.length) }, .joined true)
    else (l, .joined false)
  | .leave i => ({ l with pos := Function.update l.pos i none }, .left (l.pos i).isSome)
  | .append x =>
    if l.readers.Nonempty ∧ ∀ i, ¬ l.Lagging cap i then
      ({ l with entries := l.entries ++ [x] }, .appended true)
    else (l, .appended false)
  | .force x =>
    if (l.spared cap).readers.Nonempty then
      ({ l.spared cap with entries := l.entries ++ [x] }, .appended true)
    else (l.spared cap, .appended false)
  | .read i =>
    match (l.pos i).bind fun p => l.entries[p]? with
    | some x => ({ l with pos := Function.update l.pos i ((l.pos i).map (· + 1)) }, .read (some x))
    | none => (l, .read none)

/-- The results of a run, and the log after it. -/
noncomputable def Log.run (cap seats : Nat) : Log ι α → List (Op ι α) → List (Out α) × Log ι α
  | l, [] => ([], l)
  | l, a :: as =>
    let (l', o) := l.step cap seats a
    let (os, l'') := Log.run cap seats l' as
    (o :: os, l'')

section Lemmas
variable {l : Log ι α} {cap seats : Nat}

omit [DecidableEq ι] in
theorem spared_of_lagging {i : ι} (h : l.Lagging cap i) : (l.spared cap).pos i = none := if_pos h

omit [DecidableEq ι] in
theorem spared_of_not_lagging {i : ι} (h : ¬ l.Lagging cap i) :
    (l.spared cap).pos i = l.pos i := if_neg h

theorem run_cons {l' : Log ι α} {a : Op ι α} {o : Out α} (h : l.step cap seats a = (l', o))
    (as : List (Op ι α)) :
    l.run cap seats (a :: as) =
      (o :: (l'.run cap seats as).1, (l'.run cap seats as).2) := by
  rw [Log.run, h]

end Lemmas

end CppIpc.Lib.BoundedLog
