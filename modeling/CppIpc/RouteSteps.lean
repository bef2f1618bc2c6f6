import CppIpc.Lib.Logs
import CppIpc.Lib.Runs
import CppIpc.Lib.Window
import CppIpc.Route

/-! # The route queue, access by access

One producer running `push` any number of times and a fixed set of receivers
running `pop`. Each step is one atomic access or one access to the data of a
slot; a weak compare-exchange may fail although the values agree. The receivers
are the set bits of the connection word, whose connects are over. -/
namespace CppIpc.RouteSteps
open CppIpc.Def CppIpc.ReadCounter CppIpc.ReadCounter.Route CppIpc.Route
open CppIpc.Lib.Logs
open CppIpc.Lib.Window (slot Owes)

/-! ## The machine -/

/-- The producer between two calls, or before the named access of `push`. -/
inductive ProdPc (α : Type) where
  | idle
  | loadCc (x : α)
  | loadWt (x : α) (cc : CC)
  | loadRc (x : α) (cc : CC) (wt : U2)
  | casRc (x : α) (cc : CC) (wt : U2) (rc : RC)
  | writeData (x : α) (wt : U2)
  | addWt (x : α)

/-- A receiver between two calls, or before the named access of `pop`. -/
inductive RecvPc (α : Type) where
  | idle
  | loadWt
  | readData (σ : BitVec 8)
  | loadRc (x : α) (σ : BitVec 8)
  | casRc (x : α) (σ : BitVec 8) (rc : RC)

/-- A receiver's private cursor, and the values it has popped so far, each with
the argument of `out`. -/
structure Receiver (α : Type) where
  cur : U2
  pc : RecvPc α
  popped : List (α × Bool)

structure St (α : Type) where
  q : Queue α
  cc : CC
  prod : ProdPc α
  recv : Fin 32 → Receiver α
  pushed : List α

variable {α : Type}

/-- A call begins, or the producer or a receiver makes its next access; `ok` is
false where a weak compare-exchange fails spuriously. -/
inductive Act (α : Type) where
  | push (x : α)
  | prod (ok : Bool)
  | pop (r : Fin 32)
  | recv (r : Fin 32) (ok : Bool)

def St.init [Inhabited α] (cc : CC) : St α := ⟨.init, cc, .idle, fun _ => ⟨0, .idle, []⟩, []⟩

def St.setRecv (s : St α) (r : Fin 32) (c : Receiver α) : St α :=
  { s with recv := fun r' => if r' = r then c else s.recv r' }

/-- The return of `pop` after `out(last)`. -/
def St.finishPop (s : St α) (r : Fin 32) (x : α) (last : Bool) : St α :=
  s.setRecv r { s.recv r with pc := .idle, popped := (s.recv r).popped ++ [(x, last)] }

def stepProd (s : St α) (ok : Bool) : Option (St α) :=
  match s.prod with
  | .idle => none
  | .loadCc x => some { s with prod := if s.cc = 0 then .idle else .loadWt x s.cc }
  | .loadWt x cc => some { s with prod := .loadRc x cc s.q.wt }
  | .loadRc x cc wt =>
    let rc := (s.q.elems (indexOf wt)).rc
    some { s with prod := if blocked cc rc s.q.epoch then .idle else .casRc x cc wt rc }
  | .casRc x cc wt rc =>
    if ok ∧ (s.q.elems (indexOf wt)).rc = rc then
      some { s with
        q := s.q.setRc (indexOf wt) (s.q.epoch ||| cc.setWidth 64), prod := .writeData x wt }
    else some { s with prod := .loadCc x }
  | .writeData x wt => some { s with q := s.q.setData (indexOf wt) x, prod := .addWt x }
  | .addWt x => some { s with q := s.q.addWt, prod := .idle, pushed := s.pushed ++ [x] }

def stepRecv (s : St α) (r : Fin 32) (ok : Bool) : Option (St α) :=
  let c := s.recv r
  match c.pc with
  | .idle => none
  | .loadWt =>
    if c.cur = s.q.cursor then some (s.setRecv r { c with pc := .idle })
    else some (s.setRecv r { c with cur := c.cur + 1, pc := .readData (indexOf c.cur) })
  | .readData σ => some (s.setRecv r { c with pc := .loadRc (s.q.elems σ).data σ })
  | .loadRc x σ =>
    let rc := (s.q.elems σ).rc
    if rc &&& epMask = 0 then some (s.finishPop r x true)
    else some (s.setRecv r { c with pc := .casRc x σ rc })
  | .casRc x σ rc =>
    let nxt := rc &&& ~~~(idOf r).setWidth 64
    if ok ∧ (s.q.elems σ).rc = rc then
      some ({ s with q := s.q.setRc σ nxt }.finishPop r x (nxt &&& epMask = 0))
    else some (s.setRecv r { c with pc := .loadRc x σ })

def step (s : St α) : Act α → Option (St α)
  | .push x => match s.prod with
    | .idle => some { s with prod := .loadCc x }
    | _ => none
  | .prod ok => stepProd s ok
  | .pop r => match (s.recv r).pc with
    | .idle => if s.cc.getLsbD r then some (s.setRecv r { s.recv r with pc := .loadWt }) else none
    | _ => none
  | .recv r ok => stepRecv s r ok

/-! ## The invariant -/

/-- The number of values receiver `r` has popped. -/
def St.done (s : St α) (r : Fin 32) : Nat := (s.recv r).popped.length

/-- The number of slots marked so far: one more than the pushes while the
producer is between its compare-exchange and its update of `wt_`. -/
def St.marked (s : St α) : Nat :=
  s.pushed.length + match s.prod with
    | .writeData .. | .addWt .. => 1
    | _ => 0

def ProdOk (cc : CC) (q : Queue α) : ProdPc α → Prop
  | .idle | .loadCc _ => True
  | .loadWt _ c => c = cc
  | .loadRc _ c wt => c = cc ∧ wt = q.wt
  | .casRc _ c wt rc => c = cc ∧ wt = q.wt ∧ cc &&& pend rc = 0
  | .writeData _ wt => wt = q.wt
  | .addWt x => (q.elems (indexOf q.wt)).data = x

/-- Inside `pop` the cursor is already one ahead of the values popped. -/
def RecvOk (pushed : List α) (c : Receiver α) : Prop :=
  let n := c.popped.length
  match c.pc with
  | .idle | .loadWt => c.cur = BitVec.ofNat 32 n
  | .readData σ => c.cur = BitVec.ofNat 32 (n + 1) ∧ σ = slot 8 n ∧ n < pushed.length
  | .loadRc x σ | .casRc x σ _ =>
    c.cur = BitVec.ofNat 32 (n + 1) ∧ σ = slot 8 n ∧ pushed[n]? = some x

/-- Of the pops of one message exactly the one that comes last reports it. -/
structure LastOk (cc : CC) (popped : Fin 32 → List (α × Bool)) : Prop where
  after : ∀ r, Conn cc r → ∀ (i : Nat) v, (popped r)[i]? = some (v, true) →
    ∀ r', Conn cc r' → i < (popped r').length
  unique : ∀ r r', Conn cc r → Conn cc r' → ∀ (i : Nat) v v',
    (popped r)[i]? = some (v, true) → (popped r')[i]? = some (v', true) → r = r'
  reported : ∀ i, (∀ r, Conn cc r → i < (popped r).length) →
    ∃ r, Conn cc r ∧ ∃ v, (popped r)[i]? = some (v, true)

structure Inv (cc : CC) (s : St α) : Prop where
  conns : s.cc = cc
  epoch : s.q.epoch = 0
  wt : s.q.wt = BitVec.ofNat 32 s.pushed.length
  tag : ∀ σ, (s.q.elems σ).rc &&& ~~~epMask = 0
  only : ∀ σ i, (pend (s.q.elems σ).rc).getLsbD i = true → cc.getLsbD i = true
  room : ∀ r, Conn cc r →
    s.done r ≤ s.pushed.length ∧ s.marked ≤ s.done r + 256
  pending : ∀ r, Conn cc r → ∀ σ,
    (pend (s.q.elems σ).rc).getLsbD r = true ↔ Owes 8 (s.done r) s.marked σ
  data : ∀ i v, s.pushed[i]? = some v → s.marked ≤ i + 256 →
    (s.q.elems (slot 8 i)).data = v
  vals : ∀ r, Conn cc r → (s.recv r).popped.map Prod.fst <+: s.pushed
  prodOk : ProdOk cc s.q s.prod
  recvOk : ∀ r, Conn cc r → RecvOk s.pushed (s.recv r)
  off : ∀ r, ¬ Conn cc r → (s.recv r).pc = .idle
  last : LastOk cc fun r => (s.recv r).popped

section Steps
variable {cc : CC} {s t : St α}

theorem init_inv [Inhabited α] (h0 : cc ≠ 0) : Inv cc (St.init (α := α) cc) := by
  obtain ⟨r₀, h₀⟩ := exists_conn h0
  refine ⟨rfl, rfl, rfl, ?_, ?_, ?_, ?_, ?_, ?_, trivial, fun _ _ => rfl, fun _ _ => rfl, ?_⟩
  · intro σ; simp [St.init, Queue.init]
  · intro σ i h; simp [St.init, Queue.init, pend] at h
  · intro r _; simp [St.init, St.done, St.marked]
  · intro r _ σ
    have : ¬ Owes 8 0 0 σ := Lib.Window.not_owes_self
    simpa [St.init, St.done, St.marked, Queue.init, pend] using this
  · intro i v h; simp [St.init] at h
  · intro r _; simp [St.init]
  · refine ⟨?_, ?_, ?_⟩
    · intro r _ i v h; simp [St.init] at h
    · intro r r' _ _ i v v' h; simp [St.init] at h
    · intro i h; simpa [St.init] using h r₀ h₀

/-- A step of the producer that touches no memory. -/
theorem Inv.prodLocal (hi : Inv cc s) (p : ProdPc α) (hp : ProdOk cc s.q p)
    (hm : ({ s with prod := p } : St α).marked = s.marked) : Inv cc { s with prod := p } :=
  { hi with
    room := by rw [hm]; exact hi.room
    pending := by rw [hm]; exact hi.pending
    data := by rw [hm]; exact hi.data
    prodOk := hp }

theorem setRecv_popped {r : Fin 32} {c : Receiver α} (h : c.popped = (s.recv r).popped)
    (r' : Fin 32) : ((s.setRecv r c).recv r').popped = (s.recv r').popped := by
  unfold St.setRecv
  dsimp only
  split
  · rename_i he; rw [h, he]
  · rfl

/-- A step of a receiver that touches no memory and does not return a value. -/
theorem Inv.recvLocal (hi : Inv cc s) {r : Fin 32} {c : Receiver α} (hr : Conn cc r)
    (hpop : c.popped = (s.recv r).popped) (hc : RecvOk s.pushed c) : Inv cc (s.setRecv r c) := by
  have hsame := setRecv_popped (s := s) hpop
  have hdone : ∀ r', (s.setRecv r c).done r' = s.done r' := fun r' => by simp only [St.done, hsame]
  refine { hi with room := ?_, pending := ?_, vals := ?_, recvOk := ?_, off := ?_, last := ?_ }
  · intro r' hr'; rw [hdone]; exact hi.room r' hr'
  · intro r' hr' σ; rw [hdone]; exact hi.pending r' hr' σ
  · intro r' hr'; rw [hsame]; exact hi.vals r' hr'
  · intro r' hr'
    simp only [St.setRecv]
    split
    · exact hc
    · exact hi.recvOk r' hr'
  · intro r' hr'
    simp only [St.setRecv]
    split
    · rename_i he; exact absurd (he ▸ hr) hr'
    · exact hi.off r' hr'
  · simp only [hsame]; exact hi.last

/-- The compare-exchange of `push`: every receiver now owes a read of the slot. -/
theorem Inv.mark (hi : Inv cc s) {x : α} {c : CC} {wt : U2} {rc : RC}
    (hp : s.prod = .casRc x c wt rc) (hrc : (s.q.elems (indexOf wt)).rc = rc) :
    Inv cc { s with
      q := s.q.setRc (indexOf wt) (s.q.epoch ||| c.setWidth 64), prod := .writeData x wt } := by
  have hok := hi.prodOk
  rw [hp] at hok
  obtain ⟨rfl, rfl, hfree⟩ := hok
  have hσ : indexOf s.q.wt = slot 8 s.pushed.length := by rw [hi.wt, indexOf_ofNat]
  have hm : s.marked = s.pushed.length := by simp [St.marked, hp]
  have hp0 : pend s.q.epoch = 0#32 := by rw [hi.epoch]; decide
  have hnew : pend (s.q.epoch ||| c.setWidth 64) = c := pend_or c hp0
  have hunread : ∀ r, Conn c r → ¬ Owes 8 (s.done r) s.pushed.length (slot 8 s.pushed.length) := by
    intro r hr howes
    have hbit := (hi.pending r hr (slot 8 s.pushed.length)).mpr (by rw [hm]; exact howes)
    rw [← hσ, hrc, Lib.Bits.and_eq_zero_iff.mp hfree r hr] at hbit
    cases hbit
  refine { hi with tag := ?_, only := ?_, room := ?_, pending := ?_, data := ?_, prodOk := rfl }
  · intro σ
    rw [setRc_rc]
    split
    · rw [tag_or c hp0, hi.epoch]
    · exact hi.tag σ
  · intro σ i
    rw [setRc_rc]
    split
    · rw [hnew]; exact id
    · exact hi.only σ i
  · intro r hr
    refine ⟨(hi.room r hr).1, ?_⟩
    have hroom := (hi.room r hr).2
    rw [hm] at hroom
    exact Lib.Window.room_of_not_owes (hunread r hr) hroom
  · intro r hr σ
    change _ ↔ Owes 8 (s.done r) (s.pushed.length + 1) σ
    rw [Lib.Window.owes_succ_hi (hi.room r hr).1, setRc_rc, hσ]
    split
    · rename_i he
      rw [hnew, he]
      exact ⟨fun _ => .inr rfl, fun _ => hr⟩
    · rename_i hne
      rw [hi.pending r hr σ, hm]
      exact ⟨.inl, fun h => h.resolve_right (Ne.symm hne)⟩
  · intro i v hv hle
    rw [setRc_data]
    apply hi.data i v hv
    have : s.pushed.length + 1 ≤ i + 256 := hle
    omega

/-- The write of the data: no message still to be read is in that slot. -/
theorem Inv.write (hi : Inv cc s) {x : α} {wt : U2} (hp : s.prod = .writeData x wt) :
    Inv cc { s with q := s.q.setData (indexOf wt) x, prod := .addWt x } := by
  have hok := hi.prodOk
  rw [hp] at hok
  subst hok
  have hσ : indexOf s.q.wt = slot 8 s.pushed.length := by rw [hi.wt, indexOf_ofNat]
  have hm : s.marked = s.pushed.length + 1 := by simp [St.marked, hp]
  refine { hi with tag := ?_, only := ?_, room := ?_, pending := ?_, data := ?_, prodOk := ?_ }
  · intro σ; rw [setData_rc]; exact hi.tag σ
  · intro σ i; rw [setData_rc]; exact hi.only σ i
  · intro r hr
    have := hi.room r hr
    rwa [hm] at this
  · intro r hr σ
    rw [setData_rc, hi.pending r hr σ, hm]
    rfl
  · intro i v hv hle
    have hle : s.pushed.length + 1 ≤ i + 256 := hle
    have hlt : i < s.pushed.length := (List.getElem?_eq_some_iff.mp hv).1
    rw [setData_data, hσ, if_neg]
    · exact hi.data i v hv (by omega)
    · intro he
      have := Lib.Window.eq_of_slot_eq he (by omega) (by omega)
      omega
  · change ((s.q.setData (indexOf s.q.wt) x).elems (indexOf s.q.wt)).data = x
    rw [setData_data, if_pos rfl]

/-- The update of `wt_`: the message is pushed. -/
theorem Inv.publish (hi : Inv cc s) {x : α} (hp : s.prod = .addWt x) :
    Inv cc { s with q := s.q.addWt, prod := .idle, pushed := s.pushed ++ [x] } := by
  have hdata := hi.prodOk
  rw [hp] at hdata
  have hσ : indexOf s.q.wt = slot 8 s.pushed.length := by rw [hi.wt, indexOf_ofNat]
  have hm : s.marked = s.pushed.length + 1 := by simp [St.marked, hp]
  have hm' : ({ s with q := s.q.addWt, prod := .idle, pushed := s.pushed ++ [x] } : St α).marked =
      s.marked := by simp [St.marked, hp]
  refine { hi with
    wt := ?_, room := ?_, pending := ?_, data := ?_, vals := ?_, prodOk := trivial, recvOk := ?_ }
  · simp only [addWt_wt, hi.wt, List.length_append, List.length_singleton]
    rw [← BitVec.ofNat_add_ofNat]
    rfl
  · intro r hr
    rw [hm']
    have := hi.room r hr
    exact ⟨by simp only [List.length_append]; exact Nat.le_succ_of_le this.1, this.2⟩
  · rw [hm']; exact hi.pending
  · rw [hm']
    intro i v hv hle
    rcases getElem?_snoc_cases hv with hv | ⟨rfl, rfl⟩
    · exact hi.data i v hv hle
    · rw [← hσ]
      exact hdata
  · exact fun r hr => (hi.vals r hr).trans (List.prefix_append _ _)
  · intro r hr
    have := hi.recvOk r hr
    unfold RecvOk at this ⊢
    have hget : ∀ y, s.pushed[(s.recv r).popped.length]? = some y →
        (s.pushed ++ [x])[(s.recv r).popped.length]? = some y := fun _ => getElem?_snoc
    cases hpc : (s.recv r).pc with
    | idle | loadWt => simpa only [hpc] using this
    | readData σ =>
      simp only [hpc] at this ⊢
      exact ⟨this.1, this.2.1, by simp only [List.length_append]; omega⟩
    | loadRc y σ | casRc y σ _ =>
      simp only [hpc] at this ⊢
      exact ⟨this.1, this.2.1, hget y this.2.2⟩

theorem LastOk.append {popped : Fin 32 → List (α × Bool)} (hl : LastOk cc popped) {r : Fin 32}
    (hr : Conn cc r) {x : α} {b : Bool}
    (hb : b = true ↔ ∀ r', Conn cc r' → r' ≠ r → (popped r).length < (popped r').length) :
    LastOk cc fun r' => if r' = r then popped r ++ [(x, b)] else popped r' := by
  -- an entry of the new lists is an old one or the one just appended
  have hcases : ∀ (r' : Fin 32) (i : Nat) v,
      (if r' = r then popped r ++ [(x, b)] else popped r')[i]? = some (v, true) →
      (popped r')[i]? = some (v, true) ∨ (r' = r ∧ i = (popped r).length ∧ b = true) := by
    intro r' i v h
    split at h
    · rename_i he
      subst he
      rcases getElem?_snoc_cases h with h | ⟨rfl, he⟩
      · exact .inl h
      · exact .inr ⟨rfl, rfl, (Prod.mk.inj he).2.symm⟩
    · exact .inl h
  have hgrow : ∀ r', (popped r').length ≤
      (if r' = r then popped r ++ [(x, b)] else popped r').length := by
    intro r'
    split
    · rename_i he; subst he; simp
    · exact Nat.le_refl _
  refine ⟨?_, ?_, ?_⟩
  · intro r₁ h₁ i v h r₂ h₂
    rcases hcases r₁ i v h with hold | ⟨_, rfl, hnew⟩
    · exact Nat.lt_of_lt_of_le (hl.after r₁ h₁ i v hold r₂ h₂) (hgrow r₂)
    · by_cases he : r₂ = r
      · simp [he]
      · simpa [he] using hb.mp hnew r₂ h₂ he
  · intro r₁ r₂ h₁ h₂ i v v' hv hv'
    rcases hcases r₁ i v hv with hold | ⟨he, hlen, _⟩ <;>
      rcases hcases r₂ i v' hv' with hold' | ⟨he', hlen', _⟩
    · exact hl.unique r₁ r₂ h₁ h₂ i v v' hold hold'
    · have := hl.after r₁ h₁ i v hold r hr
      omega
    · have := hl.after r₂ h₂ i v' hold' r hr
      omega
    · exact he.trans he'.symm
  · intro i hall
    have hlen := hall r hr
    simp only [if_true, List.length_append, List.length_singleton] at hlen
    have hother : ∀ r', Conn cc r' → r' ≠ r → i < (popped r').length := fun r' hr' hne => by
      simpa [hne] using hall r' hr'
    by_cases hi : i = (popped r).length
    · refine ⟨r, hr, x, ?_⟩
      simp [hi, hb.mpr (hi ▸ hother)]
    · obtain ⟨r₁, h₁, v, hv⟩ := hl.reported i (fun r' hr' => by
        by_cases he : r' = r
        · rw [he]; omega
        · exact hother r' hr' he)
      refine ⟨r₁, h₁, v, ?_⟩
      split
      · rename_i he
        rw [List.getElem?_append_left (by omega), ← he]
        exact hv
      · exact hv

theorem finishPop_done (s : St α) (r r' : Fin 32) (x : α) (last : Bool) :
    (s.finishPop r x last).done r' = if r' = r then s.done r + 1 else s.done r' := by
  simp only [St.done, St.finishPop, St.setRecv]
  split <;> simp

/-- The compare-exchange of `pop`: receiver `r` has read its oldest message. -/
theorem Inv.clear (hi : Inv cc s) {r : Fin 32} {x : α} {σ : BitVec 8} {rc : RC}
    (hr : Conn cc r) (hpc : (s.recv r).pc = .casRc x σ rc) (hrc : (s.q.elems σ).rc = rc) :
    Inv cc ({ s with q := s.q.setRc σ (rc &&& ~~~(idOf r).setWidth 64) }.finishPop r x
      (rc &&& ~~~(idOf r).setWidth 64 &&& epMask = 0)) := by
  have hok := hi.recvOk r hr
  simp only [RecvOk, hpc] at hok
  obtain ⟨hcur, hσ, hx⟩ := hok
  change σ = slot 8 (s.done r) at hσ
  have hlt : s.done r < s.pushed.length := (List.getElem?_eq_some_iff.mp hx).1
  have hroom := (hi.room r hr).2
  have hmk : s.pushed.length ≤ s.marked := by unfold St.marked; omega
  have howes : ∀ r', Owes 8 (s.done r') s.marked (slot 8 (s.done r)) ↔ s.done r' ≤ s.done r :=
    fun r' => Lib.Window.owes_slot_iff (by omega) hroom
  have hlast : (rc &&& ~~~(idOf r).setWidth 64) &&& epMask = 0 ↔
      ∀ r', Conn cc r' → r' ≠ r → s.done r < s.done r' := by
    rw [epMask, and_lowMask_eq_zero, pend_and_not, ← hrc, hσ]
    constructor
    · intro h r' hr' hne
      by_contra hc
      have hbit := (hi.pending r' hr' _).mpr ((howes r').mpr (by omega))
      exact hne (and_not_idOf_eq_zero.mp h r' hbit)
    · intro h
      refine and_not_idOf_eq_zero.mpr fun r' hbit => ?_
      by_contra hne
      have hc : Conn cc r' := hi.only _ r' hbit
      have hread := h r' hc hne
      have hle := (howes _).mp ((hi.pending r' hc _).mp hbit)
      omega
  have hdone : ∀ r', ({ s with q := s.q.setRc σ (rc &&& ~~~(idOf r).setWidth 64) }.finishPop r x
      (rc &&& ~~~(idOf r).setWidth 64 &&& epMask = 0)).done r' =
      if r' = r then s.done r + 1 else s.done r' := fun r' => finishPop_done _ r r' x _
  refine { hi with
    tag := ?_, only := ?_, room := ?_, pending := ?_, data := ?_, vals := ?_, prodOk := ?_,
    recvOk := ?_, off := ?_, last := ?_ }
  · intro σ
    simp only [St.finishPop, St.setRecv, setRc_rc]
    split
    · rw [tag_and_not, ← hrc]; exact hi.tag _
    · exact hi.tag σ
  · intro σ i
    simp only [St.finishPop, St.setRecv, setRc_rc]
    split
    · rw [pend_and_not, Lib.Bits.getLsbD_and_not, ← hrc]
      intro h
      exact hi.only _ i (Bool.and_eq_true_iff.mp h).1
    · exact hi.only σ i
  · intro r' hr'
    rw [hdone]
    have := hi.room r' hr'
    split
    · exact ⟨hlt, Nat.le_trans hroom (by omega)⟩
    · exact this
  · intro r' hr' τ
    rw [hdone]
    simp only [St.finishPop, St.setRecv, setRc_rc]
    change _ ↔ Owes 8 _ s.marked τ
    by_cases hne : r' = r
    · subst hne
      rw [if_pos rfl, Lib.Window.owes_succ_lo hroom, ← hi.pending r' hr' τ, ← hσ]
      split
      · rename_i he; simp [he]
      · rename_i he; simp [Ne.symm he]
    · have hnr : (r : Nat) ≠ r' := fun he => hne (Fin.ext he).symm
      rw [if_neg hne, ← hi.pending r' hr' τ]
      split
      · rename_i he
        rw [he, ← hrc, pend_and_not, Lib.Bits.getLsbD_and_not, getLsbD_idOf]
        simp [hnr]
      · rfl
  · intro i v hv hle
    simp only [St.finishPop, St.setRecv, setRc_data]
    exact hi.data i v hv hle
  · intro r' hr'
    simp only [St.finishPop, St.setRecv]
    split
    · rw [List.map_append]
      refine prefix_snoc (hi.vals r hr) ?_
      simpa using hx
    · exact hi.vals r' hr'
  · have hprod := hi.prodOk
    simp only [St.finishPop, St.setRecv]
    cases hp : s.prod <;> simp only [hp, ProdOk, setRc_wt, setRc_data] at hprod ⊢ <;> exact hprod
  · intro r' hr'
    simp only [St.finishPop, St.setRecv]
    split
    · simpa [RecvOk] using hcur
    · exact hi.recvOk r' hr'
  · intro r' hr'
    simp only [St.finishPop, St.setRecv]
    split
    · rfl
    · exact hi.off r' hr'
  · have := hi.last.append hr (x := x)
      (b := decide (rc &&& ~~~(idOf r).setWidth 64 &&& epMask = 0)) (by
        rw [decide_eq_true_iff]; exact hlast)
    simpa only [St.finishPop, St.setRecv, apply_ite Receiver.popped] using this

theorem stepProd_inv (hi : Inv cc s) {ok : Bool} (h : stepProd s ok = some t) : Inv cc t := by
  have hok := hi.prodOk
  unfold stepProd at h
  cases hp : s.prod with
  | idle => simp [hp] at h
  | loadCc x =>
    simp only [hp, Option.some.injEq] at h
    subst h
    apply hi.prodLocal
    · split
      · trivial
      · exact hi.conns
    · split <;> simp [St.marked, hp]
  | loadWt x c =>
    simp only [hp, ProdOk, Option.some.injEq] at h hok
    subst h
    exact hi.prodLocal _ ⟨hok, rfl⟩ (by simp [St.marked, hp])
  | loadRc x c wt =>
    simp only [hp, ProdOk, Option.some.injEq] at h hok
    obtain ⟨rfl, rfl⟩ := hok
    subst h
    have htag := (hi.tag (indexOf s.q.wt)).trans hi.epoch.symm
    apply hi.prodLocal
    · split
      · trivial
      · rename_i hb
        exact ⟨rfl, rfl, (blocked_eq_false htag).mp (by simpa using hb)⟩
    · split <;> simp [St.marked, hp]
  | casRc x c wt rc =>
    simp only [hp] at h
    split at h
    · rename_i hc
      cases h
      exact hi.mark hp hc.2
    · cases h
      exact hi.prodLocal _ trivial (by simp [St.marked, hp])
  | writeData x wt =>
    simp only [hp, Option.some.injEq] at h
    subst h
    exact hi.write hp
  | addWt x =>
    simp only [hp, Option.some.injEq] at h
    subst h
    exact hi.publish hp

/-- The slot a receiver is reading still has its bit, so the branch of `pop` for
a slot without pending bits is never taken. -/
theorem Inv.reading_pending (hi : Inv cc s) {r : Fin 32} (hr : Conn cc r)
    (hlt : s.done r < s.pushed.length) :
    (s.q.elems (slot 8 (s.done r))).rc &&& epMask ≠ 0 := by
  have hmk : s.pushed.length ≤ s.marked := by unfold St.marked; omega
  have hbit := (hi.pending r hr (slot 8 (s.done r))).mpr ⟨s.done r, Nat.le_refl _, by omega, rfl⟩
  intro h0
  rw [Lib.Bits.eq_zero_iff.mp (and_lowMask_eq_zero.mp h0) r] at hbit
  cases hbit

theorem stepRecv_inv (hi : Inv cc s) {r : Fin 32} {ok : Bool} (hr : Conn cc r)
    (h : stepRecv s r ok = some t) : Inv cc t := by
  have hok := hi.recvOk r hr
  unfold stepRecv at h
  unfold RecvOk at hok
  cases hpc : (s.recv r).pc with
  | idle => simp [hpc] at h
  | loadWt =>
    simp only [hpc] at h hok
    split at h
    · cases h
      exact hi.recvLocal hr rfl hok
    · rename_i hne
      cases h
      have hlt : (s.recv r).popped.length < s.pushed.length := by
        refine Nat.lt_of_le_of_ne (hi.room r hr).1 fun he => hne ?_
        rw [hok, Queue.cursor, hi.wt]
        exact congrArg _ he
      refine hi.recvLocal hr rfl ⟨?_, ?_, hlt⟩
      · rw [hok, ← BitVec.ofNat_add_ofNat]; rfl
      · rw [hok]; exact indexOf_ofNat _
  | readData σ =>
    simp only [hpc, Option.some.injEq] at h hok
    subst h
    obtain ⟨hcur, rfl, hlt⟩ := hok
    refine hi.recvLocal hr rfl ⟨hcur, rfl, ?_⟩
    obtain ⟨v, hv⟩ : ∃ v, s.pushed[(s.recv r).popped.length]? = some v :=
      ⟨_, List.getElem?_eq_getElem hlt⟩
    rw [hi.data _ v hv (hi.room r hr).2]
    exact hv
  | loadRc x σ =>
    simp only [hpc] at h hok
    split at h
    · rename_i h0
      rw [hok.2.1] at h0
      exact absurd h0 (hi.reading_pending hr (List.getElem?_eq_some_iff.mp hok.2.2).1)
    · cases h
      exact hi.recvLocal hr rfl hok
  | casRc x σ rc =>
    simp only [hpc] at h hok
    split at h
    · rename_i hc
      cases h
      exact hi.clear hr hpc hc.2
    · cases h
      exact hi.recvLocal hr rfl hok

theorem step_inv (hi : Inv cc s) {a : Act α} (h : step s a = some t) : Inv cc t := by
  cases a with
  | push x =>
    simp only [step] at h
    split at h
    · rename_i hp
      cases h
      exact hi.prodLocal _ trivial (by simp [St.marked, hp])
    · cases h
  | prod ok => exact stepProd_inv hi h
  | pop r =>
    simp only [step] at h
    split at h
    · rename_i hpc
      split at h
      · rename_i hr
        cases h
        have hr : Conn cc r := hi.conns ▸ hr
        have hok := hi.recvOk r hr
        simp only [RecvOk, hpc] at hok
        exact hi.recvLocal hr rfl hok
      · cases h
    · cases h
  | recv r ok =>
    by_cases hr : Conn cc r
    · exact stepRecv_inv hi hr h
    · simp [step, stepRecv, hi.off r hr] at h

end Steps

/-! ## What every run delivers -/

/-- The guarantee of the queue towards the receivers of `cc`. -/
structure Broadcasts (cc : CC) (s : St α) : Prop where
  /-- No duplication, no reordering. -/
  inOrder : ∀ r, Conn cc r → (s.recv r).popped.map Prod.fst <+: s.pushed
  /-- No loss: a `pop` about to return false has nothing left to return. -/
  complete : ∀ r, Conn cc r → (s.recv r).pc = .loadWt → (s.recv r).cur = s.q.cursor →
    (s.recv r).popped.map Prod.fst = s.pushed
  /-- A slot is not written while a receiver reads it. -/
  untorn : ∀ r, Conn cc r → ∀ σ x wt, (s.recv r).pc = .readData σ → s.prod = .writeData x wt →
    indexOf wt ≠ σ
  /-- Nor does the slot hold a message that a receiver still has to read. -/
  kept : ∀ r, Conn cc r → ∀ x wt, s.prod = .writeData x wt → s.pushed.length < s.done r + 256
  distance : ∀ r, Conn cc r → (s.q.wt - (s.recv r).cur).toNat ≤ 256
  last : ∀ i, (∀ r, Conn cc r → i < (s.recv r).popped.length) →
    ∃! r, Conn cc r ∧ ∃ v, (s.recv r).popped[i]? = some (v, true)

section Delivery
variable {cc : CC} {s : St α}

/-- Two 32-bit counters at most 256 apart, also across a wrap of the words. -/
theorem toNat_sub_ofNat {m n : Nat} (h : n ≤ m) (hd : m ≤ n + 256) :
    (BitVec.ofNat 32 m - BitVec.ofNat 32 n).toNat ≤ 256 := by
  rw [BitVec.toNat_sub, BitVec.toNat_ofNat, BitVec.toNat_ofNat]
  omega

theorem Inv.distance (hi : Inv cc s) {r : Fin 32} (hr : Conn cc r) :
    (s.q.wt - (s.recv r).cur).toNat ≤ 256 := by
  have hroom := hi.room r hr
  have hmk : s.pushed.length ≤ s.marked := by unfold St.marked; omega
  have hok := hi.recvOk r hr
  unfold RecvOk at hok
  rw [hi.wt]
  cases hpc : (s.recv r).pc with
  | idle | loadWt =>
    simp only [hpc] at hok
    rw [hok]
    exact toNat_sub_ofNat hroom.1 (Nat.le_trans hmk hroom.2)
  | readData σ =>
    simp only [hpc] at hok
    rw [hok.1]
    exact toNat_sub_ofNat hok.2.2 (Nat.le_trans hmk (Nat.le_trans hroom.2 (by unfold St.done; omega)))
  | loadRc x σ | casRc x σ rc =>
    simp only [hpc] at hok
    rw [hok.1]
    have hlt := (List.getElem?_eq_some_iff.mp hok.2.2).1
    exact toNat_sub_ofNat hlt (Nat.le_trans hmk (Nat.le_trans hroom.2 (by unfold St.done; omega)))

theorem Inv.complete (hi : Inv cc s) {r : Fin 32} (hr : Conn cc r)
    (hpc : (s.recv r).pc = .loadWt) (hcur : (s.recv r).cur = s.q.cursor) :
    (s.recv r).popped.map Prod.fst = s.pushed := by
  have hroom := hi.room r hr
  have hmk : s.pushed.length ≤ s.marked := by unfold St.marked; omega
  have hok := hi.recvOk r hr
  simp only [RecvOk, hpc] at hok
  rw [hok, Queue.cursor, hi.wt, ← BitVec.toNat_inj, BitVec.toNat_ofNat, BitVec.toNat_ofNat] at hcur
  refine (hi.vals r hr).eq_of_length ?_
  rw [List.length_map]
  unfold St.done at hroom
  omega

theorem Inv.broadcasts (hi : Inv cc s) : Broadcasts cc s := by
  have hmk : ∀ x wt, s.prod = .writeData x wt → s.marked = s.pushed.length + 1 := by
    intro x wt hp
    simp [St.marked, hp]
  refine ⟨hi.vals, fun r hr => hi.complete hr, ?_, ?_, fun r hr => hi.distance hr, ?_⟩
  · intro r hr σ x wt hpc hp he
    have hok := hi.recvOk r hr
    have hw := hi.prodOk
    have hroom := hi.room r hr
    simp only [RecvOk, hpc] at hok
    simp only [hp, ProdOk] at hw
    rw [hmk x wt hp] at hroom
    obtain ⟨_, hσ, hlt⟩ := hok
    rw [hw, hi.wt, indexOf_ofNat, hσ] at he
    unfold St.done at hroom
    have := Lib.Window.eq_of_slot_eq he (by omega) (by omega)
    omega
  · intro r hr x wt hp
    have hroom := hi.room r hr
    rw [hmk x wt hp] at hroom
    omega
  · intro i hall
    obtain ⟨r, hr, v, hv⟩ := hi.last.reported i hall
    refine ⟨r, ⟨hr, v, hv⟩, ?_⟩
    rintro r' ⟨hr', v', hv'⟩
    exact hi.last.unique r' r hr' hr i v' v hv' hv

end Delivery

/-- Every interleaving of one producer and the receivers of `cc`, of any length. -/
theorem broadcasts_of_run [Inhabited α] {cc : CC} (h0 : cc ≠ 0) {acts : List (Act α)} {s : St α}
    (hr : Lib.Runs.run step (St.init cc) acts = some s) : Broadcasts cc s :=
  Inv.broadcasts (Lib.Runs.run_invariant' (fun _ _ _ hi h => step_inv hi h) (init_inv h0) hr)

-- for the numerals in the runs below
local instance neZero_ccBits : NeZero 32 := ⟨by decide⟩

/-- One push and one pop by each of two receivers; the second reader is the last. -/
def pushPop : List (Act Nat) :=
  .push 7 :: List.replicate 6 (.prod true) ++
    .pop 0 :: List.replicate 4 (.recv 0 true) ++ .pop 1 :: List.replicate 4 (.recv 1 true)

theorem broadcasts_pushPop : ∃ s, Lib.Runs.run step (St.init 3) pushPop = some s ∧
    (s.recv 0).popped = [(7, false)] ∧ (s.recv 1).popped = [(7, true)] ∧ Broadcasts 3 s := by
  have hs : ((Lib.Runs.run step (St.init 3) pushPop).map fun s =>
      ((s.recv 0).popped, (s.recv 1).popped)) = some ([(7, false)], [(7, true)]) := by
    decide +kernel
  obtain ⟨s, hr, hp⟩ := Option.map_eq_some_iff.mp hs
  obtain ⟨h₀, h₁⟩ := Prod.mk.inj hp
  exact ⟨s, hr, h₀, h₁, broadcasts_of_run (by decide) hr⟩

end CppIpc.RouteSteps
