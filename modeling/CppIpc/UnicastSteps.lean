import CppIpc.Lib.Logs
import CppIpc.Lib.Runs
import CppIpc.Lib.Window
import CppIpc.Unicast

/-! # The one-to-one queue, access by access

One producer running `push` and one consumer running `pop`, any number of times.
Each step is one atomic access or one access to the data of a slot. The indices may
start at any 32-bit value, and the queue refines a FIFO of at most 255 elements. -/
namespace CppIpc.UnicastSteps
open CppIpc.Def CppIpc.Unicast
open CppIpc.Lib.Runs (run)
open CppIpc.Lib.Window (slot)

/-! ## The machine -/

/-- The producer between two calls, or before the named access of `push`. -/
inductive ProdPc (α : Type) where
  | idle
  | loadWt (x : α)
  | loadRd (x : α) (curWt : BitVec 8)
  | writeData (x : α) (curWt : BitVec 8)
  | addWt (x : α)

/-- The consumer between two calls, or before the named access of `pop`. -/
inductive ConsPc (α : Type) where
  | idle
  | loadRd
  | loadWt (curRd : BitVec 8)
  | readData (curRd : BitVec 8)
  | addRd (x : α)

/-- With the values of the pushes and pops whose index was updated. -/
structure St (α : Type) where
  q : Queue α
  prod : ProdPc α
  cons : ConsPc α
  pushed : List α
  popped : List α

/-- A call begins, or one side makes its next access. -/
inductive Act (α : Type) where
  | push (x : α)
  | prod
  | pop
  | cons

variable {α : Type}

/-- An empty queue with both indices at `i` and anything in its slots. -/
def St.init (elems : BitVec 8 → α) (i : U2) : St α := ⟨⟨elems, i, i⟩, .idle, .idle, [], []⟩

def stepProd (s : St α) : Option (St α) :=
  match s.prod with
  | .idle => none
  | .loadWt x => some { s with prod := .loadRd x (indexOf s.q.wt) }
  | .loadRd x curWt =>
    some { s with prod := if curWt = indexOf (s.q.rd - 1) then .idle else .writeData x curWt }
  | .writeData x curWt =>
    some { s with
      q := { s.q with elems := fun σ => if σ = curWt then x else s.q.elems σ }, prod := .addWt x }
  | .addWt x =>
    some { s with q := { s.q with wt := s.q.wt + 1 }, prod := .idle, pushed := s.pushed ++ [x] }

def stepCons (s : St α) : Option (St α) :=
  match s.cons with
  | .idle => none
  | .loadRd => some { s with cons := .loadWt (indexOf s.q.rd) }
  | .loadWt curRd =>
    some { s with cons := if curRd = indexOf s.q.wt then .idle else .readData curRd }
  | .readData curRd => some { s with cons := .addRd (s.q.elems curRd) }
  | .addRd x =>
    some { s with q := { s.q with rd := s.q.rd + 1 }, cons := .idle, popped := s.popped ++ [x] }

def step (s : St α) : Act α → Option (St α)
  | .push x => match s.prod with
    | .idle => some { s with prod := .loadWt x }
    | _ => none
  | .prod => stepProd s
  | .pop => match s.cons with
    | .idle => some { s with cons := .loadRd }
    | _ => none
  | .cons => stepCons s

/-- A call of `push` whose steps nobody interrupts. -/
theorem push_alone {s : St α} (hp : s.prod = .idle) (x : α) :
    match s.q.push x with
    | some q => run step s [.push x, .prod, .prod, .prod, .prod] =
        some { s with q := q, pushed := s.pushed ++ [x] }
    | none => run step s [.push x, .prod, .prod] = some s := by
  obtain ⟨q, p, c, ps, qs⟩ := s
  obtain rfl : p = .idle := hp
  unfold Queue.push
  by_cases he : indexOf q.wt = indexOf (q.rd - 1#32)
  · simp [run, step, stepProd, he]
  · simp [run, step, stepProd, he]

/-- A call of `pop` whose steps nobody interrupts. -/
theorem pop_alone {s : St α} (hc : s.cons = .idle) :
    match s.q.pop with
    | some (x, _, q) => run step s [.pop, .cons, .cons, .cons, .cons] =
        some { s with q := q, popped := s.popped ++ [x] }
    | none => run step s [.pop, .cons, .cons] = some s := by
  obtain ⟨q, p, c, ps, qs⟩ := s
  obtain rfl : c = .idle := hc
  unfold Queue.pop
  by_cases he : indexOf q.rd = indexOf q.wt
  · simp [run, step, stepCons, he]
  · simp [run, step, stepCons, he]

/-! ## The FIFO -/

/-- A FIFO of at most `n` elements. -/
inductive FifoStep (n : Nat) : List α → List α → Prop where
  | stay (l : List α) : FifoStep n l l
  | enqueue (l : List α) (x : α) (h : l.length < n) : FifoStep n l (l ++ [x])
  | dequeue (x : α) (l : List α) : FifoStep n (x :: l) l

/-- The elements stored: pushed and not popped. -/
def St.stored (s : St α) : List α := s.pushed.drop s.popped.length

structure Fifo (s : St α) : Prop where
  /-- The indices are as far apart as there are elements, also past `2 ^ 32`. -/
  distance : (s.q.wt - s.q.rd).toNat = s.stored.length ∧ s.stored.length ≤ 255
  inOrder : s.popped <+: s.pushed
  /-- `push` is about to return false. -/
  full : ∀ x curWt, s.prod = .loadRd x curWt → curWt = indexOf (s.q.rd - 1) →
    s.stored.length = 255
  /-- `pop` is about to return false. -/
  empty : ∀ curRd, s.cons = .loadWt curRd → curRd = indexOf s.q.wt → s.stored = []
  untorn : ∀ x curWt curRd, s.prod = .writeData x curWt → s.cons = .readData curRd →
    curWt ≠ curRd
  refines : ∀ a t, step s a = some t → FifoStep 255 s.stored t.stored

/-! ## The invariant -/

def ProdOk (s : St α) (room : Prop) : Prop :=
  match s.prod with
  | .idle | .loadWt _ => True
  | .loadRd _ curWt => curWt = indexOf s.q.wt
  | .writeData _ curWt => curWt = indexOf s.q.wt ∧ room
  | .addWt x => s.q.elems (indexOf s.q.wt) = x ∧ room

def ConsOk (s : St α) : Prop :=
  match s.cons with
  | .idle | .loadRd => True
  | .loadWt curRd => curRd = indexOf s.q.rd
  | .readData curRd => curRd = indexOf s.q.rd ∧ s.popped.length < s.pushed.length
  | .addRd x => s.pushed[s.popped.length]? = some x

/-- `b` is where the indices started. -/
structure Inv (b : Nat) (s : St α) : Prop where
  rd : s.q.rd = BitVec.ofNat 32 (b + s.popped.length)
  wt : s.q.wt = BitVec.ofNat 32 (b + s.pushed.length)
  room : s.popped.length ≤ s.pushed.length ∧ s.pushed.length ≤ s.popped.length + 255
  inOrder : s.popped <+: s.pushed
  data : ∀ i v, s.popped.length ≤ i → s.pushed[i]? = some v → s.q.elems (slot 8 (b + i)) = v
  prodOk : ProdOk s (s.pushed.length < s.popped.length + 255)
  consOk : ConsOk s

variable {b : Nat} {s t : St α}

theorem init_inv (elems : BitVec 8 → α) (i : U2) : Inv i.toNat (St.init elems i) := by
  refine ⟨?_, ?_, by simp [St.init], by simp [St.init], fun _ _ _ h => by simp [St.init] at h,
    trivial, trivial⟩
  · simp [St.init]
  · simp [St.init]

theorem Inv.indexOf_wt (hi : Inv b s) : indexOf s.q.wt = slot 8 (b + s.pushed.length) := by
  rw [hi.wt, indexOf_ofNat]

theorem Inv.indexOf_rd (hi : Inv b s) : indexOf s.q.rd = slot 8 (b + s.popped.length) := by
  rw [hi.rd, indexOf_ofNat]

/-- The test of `push`, on indices of at most 255 elements. -/
theorem Inv.full_iff (hi : Inv b s) :
    indexOf s.q.wt = indexOf (s.q.rd - 1) ↔ s.pushed.length = s.popped.length + 255 := by
  have hroom := hi.room
  have h1 : (1 : U2).toNat = 1 := rfl
  rw [hi.wt, hi.rd, ← BitVec.toNat_inj, indexOf_toNat, indexOf_toNat, BitVec.toNat_sub,
    BitVec.toNat_ofNat, BitVec.toNat_ofNat, h1]
  omega

/-- The test of `pop`. -/
theorem Inv.empty_iff (hi : Inv b s) :
    indexOf s.q.rd = indexOf s.q.wt ↔ s.pushed.length = s.popped.length := by
  have hroom := hi.room
  rw [hi.wt, hi.rd, ← BitVec.toNat_inj, indexOf_toNat, indexOf_toNat, BitVec.toNat_ofNat,
    BitVec.toNat_ofNat]
  omega

/-! ## The steps keep it -/

/-- A step of the producer that touches no memory. -/
theorem Inv.prodLocal (hi : Inv b s) (p : ProdPc α)
    (hp : ProdOk { s with prod := p } (s.pushed.length < s.popped.length + 255)) :
    Inv b { s with prod := p } := { hi with prodOk := hp }

/-- A step of the consumer that touches no memory. -/
theorem Inv.consLocal (hi : Inv b s) (c : ConsPc α) (hc : ConsOk { s with cons := c }) :
    Inv b { s with cons := c } := { hi with consOk := hc }

/-- The write of the data: the slot holds no element. -/
theorem Inv.write (hi : Inv b s) {x : α} {curWt : BitVec 8} (hp : s.prod = .writeData x curWt) :
    Inv b { s with
      q := { s.q with elems := fun σ => if σ = curWt then x else s.q.elems σ }, prod := .addWt x } := by
  have hok := hi.prodOk
  simp only [ProdOk, hp] at hok
  obtain ⟨rfl, hroom⟩ := hok
  refine { hi with data := ?_, prodOk := ⟨by simp, hroom⟩ }
  intro i v hle hv
  have hle : s.popped.length ≤ i := hle
  have hlt : i < s.pushed.length := (List.getElem?_eq_some_iff.mp hv).1
  rw [← hi.data i v hle hv, hi.indexOf_wt]
  refine if_neg fun he => ?_
  have := Lib.Window.eq_of_slot_eq he (by omega) (by omega)
  omega

/-- The update of `wt_`: the element is stored. -/
theorem Inv.publish (hi : Inv b s) {x : α} (hp : s.prod = .addWt x) :
    Inv b { s with q := { s.q with wt := s.q.wt + 1 }, prod := .idle, pushed := s.pushed ++ [x] } := by
  have hok := hi.prodOk
  simp only [ProdOk, hp] at hok
  obtain ⟨hx, hroom⟩ := hok
  refine ⟨hi.rd, ?_, ?_, hi.inOrder.trans (List.prefix_append _ _), ?_, trivial, ?_⟩
  · simp only [hi.wt, List.length_append, List.length_singleton, ← Nat.add_assoc, ofNat_add_one]
  · have := hi.room
    simp only [List.length_append, List.length_singleton]
    omega
  · intro i v hle hv
    rcases Lib.Logs.getElem?_snoc_cases hv with hv | ⟨rfl, rfl⟩
    · exact hi.data i v hle hv
    · rw [← hx, hi.indexOf_wt]
  · have hc := hi.consOk
    unfold ConsOk at hc ⊢
    cases hcons : s.cons with
    | idle | loadRd => trivial
    | loadWt curRd => simp only [hcons] at hc; exact hc
    | readData curRd =>
      simp only [hcons] at hc
      exact ⟨hc.1, by simp only [List.length_append]; omega⟩
    | addRd y =>
      simp only [hcons] at hc
      exact Lib.Logs.getElem?_snoc hc

/-- The update of `rd_`: the element is popped. -/
theorem Inv.consume (hi : Inv b s) {x : α} (hc : s.cons = .addRd x) :
    Inv b { s with q := { s.q with rd := s.q.rd + 1 }, cons := .idle, popped := s.popped ++ [x] } := by
  have hok := hi.consOk
  simp only [ConsOk, hc] at hok
  have hlt : s.popped.length < s.pushed.length := (List.getElem?_eq_some_iff.mp hok).1
  have hroom := hi.room
  refine ⟨?_, hi.wt, ?_, Lib.Logs.prefix_snoc hi.inOrder hok, ?_, ?_, trivial⟩
  · simp only [hi.rd, List.length_append, List.length_singleton, ← Nat.add_assoc, ofNat_add_one]
  · simp only [List.length_append, List.length_singleton]
    omega
  · intro i v hle hv
    simp only [List.length_append, List.length_singleton] at hle
    exact hi.data i v (by omega) hv
  · have hp := hi.prodOk
    unfold ProdOk at hp ⊢
    simp only [List.length_append, List.length_singleton]
    cases hprod : s.prod with
    | idle | loadWt x => trivial
    | loadRd x curWt => simp only [hprod] at hp; exact hp
    | writeData x curWt => simp only [hprod] at hp; exact ⟨hp.1, by omega⟩
    | addWt x => simp only [hprod] at hp; exact ⟨hp.1, by omega⟩

theorem step_inv {a : Act α} (hi : Inv b s) (h : step s a = some t) : Inv b t := by
  have hp := hi.prodOk
  have hc := hi.consOk
  unfold ProdOk at hp
  unfold ConsOk at hc
  cases a with
  | push x =>
    simp only [step] at h
    split at h
    · cases h; exact hi.prodLocal _ trivial
    · cases h
  | pop =>
    simp only [step] at h
    split at h
    · cases h; exact hi.consLocal _ trivial
    · cases h
  | prod =>
    simp only [step, stepProd] at h
    split at h
    · cases h
    · cases h; exact hi.prodLocal _ rfl
    · rename_i x curWt hpc
      cases h
      simp only [hpc] at hp
      refine hi.prodLocal _ ?_
      by_cases he : curWt = indexOf (s.q.rd - 1)
      · simp [ProdOk, he]
      · simp only [ProdOk, he, if_false]
        refine ⟨hp, ?_⟩
        have hne := mt hi.full_iff.mpr (hp ▸ he)
        have := hi.room
        omega
    · rename_i hpc; cases h; exact hi.write hpc
    · rename_i hpc; cases h; exact hi.publish hpc
  | cons =>
    simp only [step, stepCons] at h
    split at h
    · cases h
    · cases h; exact hi.consLocal _ rfl
    · rename_i curRd hpc
      cases h
      simp only [hpc] at hc
      refine hi.consLocal _ ?_
      by_cases he : curRd = indexOf s.q.wt
      · simp [ConsOk, he]
      · simp only [ConsOk, he, if_false]
        refine ⟨hc, ?_⟩
        have hne := mt hi.empty_iff.mpr (hc ▸ he)
        have := hi.room
        omega
    · rename_i curRd hpc
      cases h
      simp only [hpc] at hc
      refine hi.consLocal _ ?_
      obtain ⟨rfl, hlt⟩ := hc
      have hv := List.getElem?_eq_getElem hlt
      simp only [ConsOk]
      rw [hi.indexOf_rd, hi.data _ _ (Nat.le_refl _) hv, hv]
    · rename_i hpc; cases h; exact hi.consume hpc

/-! ## What it gives -/

theorem Inv.stored_length (hi : Inv b s) : s.stored.length + s.popped.length = s.pushed.length := by
  have := hi.room
  rw [St.stored, List.length_drop]
  omega

/-- The elements stored are those between the two indices. -/
theorem Inv.distance (hi : Inv b s) : (s.q.wt - s.q.rd).toNat = s.stored.length := by
  have hroom := hi.room
  have hlen := hi.stored_length
  rw [hi.wt, hi.rd, BitVec.toNat_sub, BitVec.toNat_ofNat, BitVec.toNat_ofNat]
  omega

theorem Inv.refines (hi : Inv b s) {a : Act α} (h : step s a = some t) :
    FifoStep 255 s.stored t.stored := by
  have hp := hi.prodOk
  have hc := hi.consOk
  have hlen := hi.stored_length
  unfold ProdOk at hp
  unfold ConsOk at hc
  cases a with
  | push x | pop =>
    simp only [step] at h
    split at h
    · cases h; exact .stay _
    · cases h
  | prod =>
    simp only [step, stepProd] at h
    split at h
    · cases h
    · cases h; exact .stay _
    · cases h; exact .stay _
    · cases h; exact .stay _
    · rename_i x hpc
      cases h
      simp only [hpc] at hp
      have he : (s.pushed ++ [x]).drop s.popped.length = s.stored ++ [x] :=
        List.drop_append_of_le_length hi.room.1
      simp only [St.stored, he]
      exact .enqueue _ x (by rw [List.length_drop]; omega)
  | cons =>
    simp only [step, stepCons] at h
    split at h
    · cases h
    · cases h; exact .stay _
    · cases h; exact .stay _
    · cases h; exact .stay _
    · rename_i x hcc
      cases h
      simp only [hcc] at hc
      obtain ⟨hlt, hx⟩ := List.getElem?_eq_some_iff.mp hc
      have he : s.stored = x :: s.pushed.drop (s.popped ++ [x]).length := by
        rw [St.stored, List.drop_eq_getElem_cons hlt, hx, List.length_append, List.length_singleton]
      rw [he]
      exact .dequeue x _

theorem Inv.fifo (hi : Inv b s) : Fifo s := by
  have hroom := hi.room
  have hlen := hi.stored_length
  have hp := hi.prodOk
  have hc := hi.consOk
  unfold ProdOk at hp
  unfold ConsOk at hc
  refine ⟨⟨hi.distance, by omega⟩, hi.inOrder, ?_, ?_, ?_, fun a t h => hi.refines h⟩
  · intro x curWt hpc he
    simp only [hpc] at hp
    have := hi.full_iff.mp (hp ▸ he)
    omega
  · intro curRd hcc he
    simp only [hcc] at hc
    have := hi.empty_iff.mp (hc ▸ he)
    exact List.length_eq_zero_iff.mp (by omega)
  · intro x curWt curRd hpc hcc he
    simp only [hpc] at hp
    simp only [hcc] at hc
    rw [hp.1, hc.1, eq_comm, hi.empty_iff] at he
    omega

/-- Every interleaving of one producer and one consumer, of any length, from an empty
queue with its indices anywhere. -/
theorem fifo_of_run {elems : BitVec 8 → α} {i : U2} {acts : List (Act α)} {s : St α}
    (hr : run step (St.init elems i) acts = some s) : Fifo s :=
  Inv.fifo (Lib.Runs.run_invariant' (fun _ _ _ hi h => step_inv hi h) (init_inv elems i) hr)

/-- A push and a pop across the wrap of the indices, the pop beginning before the push
has ended. -/
def across : List (Act Nat) :=
  [.push 7, .prod, .prod, .prod, .pop, .cons, .prod, .cons, .cons, .cons, .push 8, .prod, .prod]

theorem fifo_across : ∃ s, run step (St.init (fun _ => 0) (BitVec.ofNat 32 (2 ^ 32 - 1))) across =
    some s ∧ s.popped = [7] ∧ s.pushed = [7] ∧ s.q.wt = 0 ∧ Fifo s := by
  have hs : ((run step (St.init (fun _ => 0) (BitVec.ofNat 32 (2 ^ 32 - 1))) across).map fun s =>
      (s.popped, s.pushed, s.q.wt)) = some ([7], [7], 0) := by
    decide +kernel
  obtain ⟨s, hr, hp⟩ := Option.map_eq_some_iff.mp hs
  obtain ⟨h₀, hp⟩ := Prod.mk.inj hp
  obtain ⟨h₁, h₂⟩ := Prod.mk.inj hp
  exact ⟨s, hr, h₀, h₁, h₂, fifo_of_run hr⟩

end CppIpc.UnicastSteps
