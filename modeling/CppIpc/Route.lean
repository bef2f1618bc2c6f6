import CppIpc.ReadCounter

/-! # `prod_cons_impl<single, multi, broadcast>`

The queue behind `ipc::route`. `push`, `forcePush` and `pop` are the operations
as one process runs them alone; `RouteSteps` has their single accesses. -/
namespace CppIpc.Route
open CppIpc.Def CppIpc.ReadCounter CppIpc.ReadCounter.Route

/-- `elem_t`. -/
structure Elem (α : Type) where
  data : α
  rc : RC

/-- The head and the blocks in shared memory. -/
structure Queue (α : Type) where
  elems : BitVec 8 → Elem α
  wt : U2
  epoch : RC

variable {α : Type}

/-- Zero-filled memory; `default` is what zero bytes mean as an `α`. -/
def Queue.init [Inhabited α] : Queue α := ⟨fun _ => ⟨default, 0⟩, 0, 0⟩

/-- `cursor()`. -/
def Queue.cursor (q : Queue α) : U2 := q.wt

def Queue.setData (q : Queue α) (σ : BitVec 8) (x : α) : Queue α :=
  { q with elems := fun τ => if τ = σ then { q.elems τ with data := x } else q.elems τ }

def Queue.setRc (q : Queue α) (σ : BitVec 8) (rc : RC) : Queue α :=
  { q with elems := fun τ => if τ = σ then { q.elems τ with rc := rc } else q.elems τ }

def Queue.addWt (q : Queue α) : Queue α := { q with wt := q.wt + 1 }

/-- The test of `push`: some of `cc` have not read the slot, under this epoch. -/
def blocked (cc : CC) (rc epoch : RC) : Bool :=
  cc &&& pend (rc &&& epMask) ≠ 0 ∧ rc &&& ~~~epMask = epoch

/-- `push`; `none` is the return of false. -/
def Queue.push (q : Queue α) (cc : CC) (x : α) : Option (Queue α) :=
  let σ := indexOf q.wt
  if cc = 0 then none
  else if blocked cc (q.elems σ).rc q.epoch then none
  else some (((q.setRc σ (q.epoch ||| cc.setWidth 64)).setData σ x).addWt)

/-- `force_push`: the queue and the connection word after it. It returns true with
the old content of the slot, which is what the caller's `clear_message` is
applied to before `x` is constructed there. -/
def Queue.forcePush (q : Queue α) (cc : CC) (x : α) : Queue α × CC × Option α :=
  let q := { q with epoch := q.epoch + epIncr }
  let σ := indexOf q.wt
  if cc = 0 then (q, cc, none)
  else
    let rem := pend ((q.elems σ).rc &&& epMask)
    -- `disconnect_receiver(rem_cc)`
    let cc' := if cc &&& rem ≠ 0 then cc &&& ~~~rem else cc
    if cc' = 0 then (q, cc', none)
    else
      (((q.setRc σ (q.epoch ||| cc'.setWidth 64)).setData σ x).addWt, cc',
        some (q.elems σ).data)

/-- `pop` by a receiver with id `id` and cursor `cur`: the value, whether it was
reported as the last read, and the queue; the cursor is advanced by one. -/
def Queue.pop (q : Queue α) (id : CC) (cur : U2) : Option (α × Bool × Queue α) :=
  if cur = q.cursor then none
  else
    let σ := indexOf cur
    let rc := (q.elems σ).rc
    if rc &&& epMask = 0 then some ((q.elems σ).data, true, q)
    else
      let nxt := rc &&& ~~~id.setWidth 64
      some ((q.elems σ).data, nxt &&& epMask = 0, q.setRc σ nxt)

section Access
variable (q : Queue α) (σ τ : BitVec 8) (x : α) (rc : RC)

@[simp] theorem setRc_rc : ((q.setRc σ rc).elems τ).rc = if τ = σ then rc else (q.elems τ).rc := by
  unfold Queue.setRc; dsimp only; split <;> rfl
@[simp] theorem setRc_data : ((q.setRc σ rc).elems τ).data = (q.elems τ).data := by
  unfold Queue.setRc; dsimp only; split <;> rfl
@[simp] theorem setData_rc : ((q.setData σ x).elems τ).rc = (q.elems τ).rc := by
  unfold Queue.setData; dsimp only; split <;> rfl
@[simp] theorem setData_data :
    ((q.setData σ x).elems τ).data = if τ = σ then x else (q.elems τ).data := by
  unfold Queue.setData; dsimp only; split <;> rfl
@[simp] theorem setRc_wt : (q.setRc σ rc).wt = q.wt := rfl
@[simp] theorem setRc_epoch : (q.setRc σ rc).epoch = q.epoch := rfl
@[simp] theorem setData_wt : (q.setData σ x).wt = q.wt := rfl
@[simp] theorem setData_epoch : (q.setData σ x).epoch = q.epoch := rfl
@[simp] theorem addWt_elems : q.addWt.elems = q.elems := rfl
@[simp] theorem addWt_wt : q.addWt.wt = q.wt + 1 := rfl
@[simp] theorem addWt_epoch : q.addWt.epoch = q.epoch := rfl

end Access

theorem blocked_eq_false {cc : CC} {rc epoch : RC} (ht : rc &&& ~~~epMask = epoch) :
    blocked cc rc epoch = false ↔ cc &&& pend rc = 0 := by
  simp only [blocked, ht]
  simp [epMask]

end CppIpc.Route
