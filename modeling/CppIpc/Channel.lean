import CppIpc.ReadCounter

/-! # `prod_cons_impl<multi, multi, broadcast>`

The queue behind `ipc::channel`. `push`, `forcePush` and `pop` are the operations
as one process runs them alone; `ChannelSteps` has their single accesses. -/
namespace CppIpc.Channel
open CppIpc.Def CppIpc.ReadCounter CppIpc.ReadCounter.Channel

/-- `flag_t`. -/
abbrev Flag := BitVec 64

/-- `elem_t`. -/
structure Elem (α : Type) where
  data : α
  rc : RC
  fCt : Flag

/-- The head and the blocks in shared memory. -/
structure Queue (α : Type) where
  elems : BitVec 8 → Elem α
  ct : U2
  epoch : RC

variable {α : Type}

/-- Zero-filled memory; `default` is what zero bytes mean as an `α`. -/
def Queue.init [Inhabited α] : Queue α := ⟨fun _ => ⟨default, 0, 0⟩, 0, 0⟩

/-- `cursor()`. -/
def Queue.cursor (q : Queue α) : U2 := q.ct

def Queue.setData (q : Queue α) (σ : BitVec 8) (x : α) : Queue α :=
  { q with elems := fun τ => if τ = σ then { q.elems τ with data := x } else q.elems τ }

def Queue.setRc (q : Queue α) (σ : BitVec 8) (rc : RC) : Queue α :=
  { q with elems := fun τ => if τ = σ then { q.elems τ with rc := rc } else q.elems τ }

def Queue.setFl (q : Queue α) (σ : BitVec 8) (fl : Flag) : Queue α :=
  { q with elems := fun τ => if τ = σ then { q.elems τ with fCt := fl } else q.elems τ }

def Queue.setCt (q : Queue α) (ct : U2) : Queue α := { q with ct := ct }

/-- The commit flag of index `ct`. -/
def committed (ct : U2) : Flag := ~~~ct.setWidth 64

/-- The flag of the last reader, whose cursor is already advanced: the index that
may be written next. -/
def freed (cur : U2) : Flag := cur.setWidth 64 + 256 - 1

/-- The first test of `push`: some of `cc` have not read the slot, under this epoch. -/
def blocked (cc : CC) (rc epoch : RC) : Bool :=
  cc &&& pend (rc &&& rcMask) ≠ 0 ∧ rc &&& ~~~epMask = epoch

/-- The second test, made where nobody has to read the slot: an index is being
committed there. -/
def occupied (ct : U2) (fl : Flag) : Bool := fl ≠ ct.setWidth 64 ∧ fl ≠ 0

/-- The claim of a slot and the stores after it. -/
def Queue.place (q : Queue α) (epoch : RC) (cc : CC) (x : α) : Queue α :=
  let σ := indexOf q.ct
  (((q.setRc σ (mark epoch (q.elems σ).rc cc)).setCt (q.ct + 1)).setData σ x).setFl σ
    (committed q.ct)

/-- `push`; `none` is the return of false. -/
def Queue.push (q : Queue α) (cc : CC) (x : α) : Option (Queue α) :=
  let el := q.elems (indexOf q.ct)
  if cc = 0 then none
  else if blocked cc el.rc q.epoch then none
  else if pend (el.rc &&& rcMask) = 0 ∧ occupied q.ct el.fCt then none
  else some (q.place q.epoch cc x)

/-- `force_push`: the queue and the connection word after it, and the old content
of the slot where it returns true. -/
def Queue.forcePush (q : Queue α) (cc : CC) (x : α) : Queue α × CC × Option α :=
  let q := { q with epoch := q.epoch + epIncr }
  let el := q.elems (indexOf q.ct)
  if cc = 0 then (q, cc, none)
  else
    let rem := pend (el.rc &&& rcMask)
    -- `disconnect_receiver(rem_cc)`
    let cc' := if cc &&& rem ≠ 0 then cc &&& ~~~rem else cc
    if cc' = 0 then (q, cc', none)
    else (q.place q.epoch cc' x, cc', some el.data)

/-- `pop` by a receiver with id `id` and cursor `cur`: the value, whether it was
reported as the last read, and the queue; the cursor is advanced by one. -/
def Queue.pop (q : Queue α) (id : CC) (cur : U2) : Option (α × Bool × Queue α) :=
  let σ := indexOf cur
  let el := q.elems σ
  if el.fCt ≠ committed cur then none
  else if el.rc &&& rcMask = 0 then some (el.data, true, q.setFl σ (freed (cur + 1)))
  else
    let nxt := incRc el.rc &&& ~~~id.setWidth 64
    if nxt &&& rcMask = 0 then
      some (el.data, true, (q.setFl σ (freed (cur + 1))).setRc σ nxt)
    else some (el.data, false, q.setRc σ nxt)

section Access
variable (q : Queue α) (σ τ : BitVec 8) (x : α) (rc : RC) (fl : Flag) (ct : U2)

@[simp] theorem setRc_rc : ((q.setRc σ rc).elems τ).rc = if τ = σ then rc else (q.elems τ).rc := by
  unfold Queue.setRc; dsimp only; split <;> rfl
@[simp] theorem setRc_data : ((q.setRc σ rc).elems τ).data = (q.elems τ).data := by
  unfold Queue.setRc; dsimp only; split <;> rfl
@[simp] theorem setRc_fCt : ((q.setRc σ rc).elems τ).fCt = (q.elems τ).fCt := by
  unfold Queue.setRc; dsimp only; split <;> rfl
@[simp] theorem setData_rc : ((q.setData σ x).elems τ).rc = (q.elems τ).rc := by
  unfold Queue.setData; dsimp only; split <;> rfl
@[simp] theorem setData_data :
    ((q.setData σ x).elems τ).data = if τ = σ then x else (q.elems τ).data := by
  unfold Queue.setData; dsimp only; split <;> rfl
@[simp] theorem setData_fCt : ((q.setData σ x).elems τ).fCt = (q.elems τ).fCt := by
  unfold Queue.setData; dsimp only; split <;> rfl
@[simp] theorem setFl_rc : ((q.setFl σ fl).elems τ).rc = (q.elems τ).rc := by
  unfold Queue.setFl; dsimp only; split <;> rfl
@[simp] theorem setFl_data : ((q.setFl σ fl).elems τ).data = (q.elems τ).data := by
  unfold Queue.setFl; dsimp only; split <;> rfl
@[simp] theorem setFl_fCt :
    ((q.setFl σ fl).elems τ).fCt = if τ = σ then fl else (q.elems τ).fCt := by
  unfold Queue.setFl; dsimp only; split <;> rfl
@[simp] theorem setCt_elems : (q.setCt ct).elems = q.elems := rfl
@[simp] theorem setRc_ct : (q.setRc σ rc).ct = q.ct := rfl
@[simp] theorem setData_ct : (q.setData σ x).ct = q.ct := rfl
@[simp] theorem setFl_ct : (q.setFl σ fl).ct = q.ct := rfl
@[simp] theorem setCt_ct : (q.setCt ct).ct = ct := rfl
@[simp] theorem setRc_epoch : (q.setRc σ rc).epoch = q.epoch := rfl
@[simp] theorem setData_epoch : (q.setData σ x).epoch = q.epoch := rfl
@[simp] theorem setFl_epoch : (q.setFl σ fl).epoch = q.epoch := rfl
@[simp] theorem setCt_epoch : (q.setCt ct).epoch = q.epoch := rfl

end Access

theorem blocked_eq_false {cc : CC} {rc epoch : RC} (ht : rc &&& ~~~epMask = epoch) :
    blocked cc rc epoch = false ↔ cc &&& pend rc = 0 := by
  simp only [blocked, ht]
  simp [rcMask]

/-! ## The two kinds of flags as numbers -/

theorem committed_toNat (ct : U2) : (committed ct).toNat = 2 ^ 64 - 1 - ct.toNat := by
  rw [committed, BitVec.toNat_not, BitVec.toNat_setWidth]
  omega

theorem freed_toNat (cur : U2) : (freed cur).toNat = cur.toNat + 255 := by
  have h256 : (256 : Flag).toNat = 256 := rfl
  have h1 : (1 : Flag).toNat = 1 := rfl
  rw [freed, BitVec.toNat_sub, BitVec.toNat_add, BitVec.toNat_setWidth, h256, h1]
  omega

theorem committed_ne_zero (ct : U2) : committed ct ≠ 0 := by
  intro h
  have h := congrArg BitVec.toNat h
  have := ct.isLt
  rw [committed_toNat] at h
  simp at h
  omega

theorem freed_ne_committed (cur ct : U2) : freed cur ≠ committed ct := by
  intro h
  have h := congrArg BitVec.toNat h
  have h₁ := cur.isLt
  have h₂ := ct.isLt
  rw [committed_toNat, freed_toNat] at h
  omega

theorem committed_inj {ct ct' : U2} (h : committed ct = committed ct') : ct = ct' := by
  have h := congrArg BitVec.toNat h
  have h₁ := ct.isLt
  have h₂ := ct'.isLt
  rw [committed_toNat, committed_toNat] at h
  exact BitVec.eq_of_toNat_eq (by omega)

end CppIpc.Channel
