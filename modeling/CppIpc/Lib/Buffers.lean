import Mathlib.Data.List.Induction

/-! # What writes leave in a buffer

A buffer maps each place to what was last written there, `none` standing for a
place that no write has reached. No write takes a place back to `none`, so the
places that a piece of code has written can be read off at its end. -/
namespace CppIpc.Lib.Buffers

variable {α : Type*}

abbrev Buffer (α : Type*) := Nat → Option α

def blank : Buffer α := fun _ => none

def set (m : Buffer α) (p : Nat) (x : α) : Buffer α := fun i => if i = p then some x else m i

/-- The list `l` from place `p` on. -/
def put (m : Buffer α) (p : Nat) : List α → Buffer α
  | [] => m
  | x :: l => put (set m p x) (p + 1) l

/-- What stands in the first `n` places. -/
def contents (m : Buffer α) (n : Nat) : List α := (List.range n).filterMap m

@[simp] theorem blank_apply (i : Nat) : (blank : Buffer α) i = none := rfl

@[simp] theorem set_self (m : Buffer α) (p : Nat) (x : α) : set m p x p = some x := by simp [set]

theorem set_of_ne (m : Buffer α) {p i : Nat} (x : α) (h : i ≠ p) : set m p x i = m i := by
  simp [set, h]

theorem set_comm (m : Buffer α) {p q : Nat} (x y : α) (h : p ≠ q) :
    set (set m p x) q y = set (set m q y) p x := by
  funext i
  by_cases hp : i = p
  · subst hp
    rw [set_of_ne _ _ h, set_self, set_self]
  · by_cases hq : i = q
    · subst hq
      rw [set_self, set_of_ne _ _ hp, set_self]
    · rw [set_of_ne _ _ hq, set_of_ne _ _ hp, set_of_ne _ _ hp, set_of_ne _ _ hq]

@[simp] theorem put_nil (m : Buffer α) (p : Nat) : put m p [] = m := rfl

theorem put_cons (m : Buffer α) (p : Nat) (x : α) (l : List α) :
    put m p (x :: l) = put (set m p x) (p + 1) l := rfl

theorem put_append (m : Buffer α) (p : Nat) (l l' : List α) :
    put m p (l ++ l') = put (put m p l) (p + l.length) l' := by
  induction l generalizing m p with
  | nil => rfl
  | cons x l ih =>
    have hp : p + 1 + l.length = p + (x :: l).length := by simp only [List.length_cons]; omega
    rw [List.cons_append, put_cons, put_cons, ih, hp]

/-- A write before the list may as well come after it. -/
theorem set_put (m : Buffer α) {p q : Nat} (x : α) (l : List α) (h : p < q) :
    set (put m q l) p x = put (set m p x) q l := by
  induction l generalizing m q with
  | nil => rfl
  | cons y l ih => rw [put_cons, put_cons, ih _ (by omega), set_comm _ _ _ (by omega)]

/-- A write behind the list may as well come after it. -/
theorem put_set (m : Buffer α) {p q : Nat} (x : α) (l : List α) (h : p + l.length ≤ q) :
    put (set m q x) p l = set (put m p l) q x := by
  induction l generalizing m p with
  | nil => rfl
  | cons y l ih =>
    simp only [List.length_cons] at h
    rw [put_cons, put_cons, set_comm _ _ _ (by omega), ih _ (by omega)]

/-- The places before the list keep what they held. -/
theorem put_of_lt (m : Buffer α) {p i : Nat} (l : List α) (h : i < p) : put m p l i = m i := by
  induction l generalizing m p with
  | nil => rfl
  | cons x l ih => rw [put_cons, ih _ (by omega), set_of_ne _ _ (by omega)]

theorem put_apply_add (m : Buffer α) (p i : Nat) (l : List α) :
    put m p l (p + i) = l[i]?.or (m (p + i)) := by
  induction l generalizing m p i with
  | nil => rfl
  | cons x l ih =>
    rw [put_cons]
    cases i with
    | zero => rw [put_of_lt _ _ (by omega)]; simp
    | succ i =>
      have hp : p + (i + 1) = p + 1 + i := by omega
      rw [hp, ih, set_of_ne _ _ (by omega), List.getElem?_cons_succ]

/-- The places behind the list keep what they held. -/
theorem put_of_ge (m : Buffer α) {p i : Nat} (l : List α) (h : p + l.length ≤ i) :
    put m p l i = m i := by
  obtain ⟨j, rfl⟩ := Nat.exists_eq_add_of_le (show p ≤ i by omega)
  rw [put_apply_add, List.getElem?_eq_none (by omega), Option.none_or]

/-- No write takes a place back. -/
theorem set_isSome {m : Buffer α} {i : Nat} (h : (m i).isSome = true) (p : Nat) (x : α) :
    (set m p x i).isSome = true := by
  by_cases hi : i = p
  · rw [hi, set_self]
    rfl
  · rwa [set_of_ne _ _ hi]

theorem put_isSome {m : Buffer α} {i : Nat} (h : (m i).isSome = true) (p : Nat) (l : List α) :
    (put m p l i).isSome = true := by
  induction l generalizing m p with
  | nil => exact h
  | cons x l ih => exact ih (set_isSome h p x) (p + 1)

@[simp] theorem put_blank_apply (l : List α) (i : Nat) : put blank 0 l i = l[i]? := by
  have h := put_apply_add (blank : Buffer α) 0 i l
  simpa using h

theorem put_blank_isSome (l : List α) (i : Nat) :
    (put blank 0 l i).isSome = true ↔ i < l.length := by simp

theorem contents_succ (m : Buffer α) (n : Nat) :
    contents m (n + 1) = contents m n ++ (m n).toList := by
  rw [contents, contents, List.range_succ, List.filterMap_append]
  cases h : m n <;> simp [h]

/-- A buffer that begins with `l` shows `l` in as many places. -/
theorem contents_eq (m : Buffer α) (l : List α) (h : ∀ i < l.length, m i = l[i]?) :
    contents m l.length = l := by
  induction l using List.reverseRecOn with
  | nil => rfl
  | append_singleton l x ih =>
    have hl : contents m l.length = l := by
      apply ih
      intro i hi
      rw [h i (by simp only [List.length_append]; omega), List.getElem?_append_left hi]
    have hx : m l.length = some x := by simpa using h l.length (by simp)
    rw [List.length_append, List.length_singleton, contents_succ, hl, hx, Option.toList_some]

@[simp] theorem contents_put_blank (l : List α) : contents (put blank 0 l) l.length = l :=
  contents_eq _ l fun i _ => put_blank_apply l i

end CppIpc.Lib.Buffers
