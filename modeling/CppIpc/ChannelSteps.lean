import CppIpc.Channel
import CppIpc.Lib.Logs
import CppIpc.Lib.Runs
import CppIpc.Lib.Window
import Mathlib.Data.List.Induction

/-! # The channel queue, access by access

Any number of producers running `push` and a fixed set of receivers running
`pop`. Each step is one atomic access or one access to the data of a slot; a weak
compare-exchange may fail although the values agree. The receivers are the set
bits of the connection word, whose connects are over. -/
namespace CppIpc.ChannelSteps
open CppIpc.Def CppIpc.ReadCounter CppIpc.ReadCounter.Channel CppIpc.Channel
open CppIpc.Lib.Logs
open CppIpc.Lib.Window (slot Owes)

/-! ## The machine -/

/-- A producer between two calls, or before the named access of `push`. -/
inductive ProdPc (α : Type) where
  | idle
  | loadEpoch (x : α)
  | loadCc (x : α) (epoch : RC)
  | loadCt (x : α) (epoch : RC) (cc : CC)
  | loadRc (x : α) (epoch : RC) (cc : CC) (ct : U2)
  | loadFl (x : α) (epoch : RC) (cc : CC) (ct : U2) (rc : RC)
  | casRc (x : α) (epoch : RC) (cc : CC) (ct : U2) (rc : RC)
  | casEpoch (x : α) (epoch : RC) (ct : U2)
  | storeCt (x : α) (ct : U2)
  | writeData (x : α) (ct : U2)
  | storeFl (x : α) (ct : U2)

/-- A receiver between two calls, or before the named access of `pop`; `storeFree`
is the store of the branch for a slot without pending bits. -/
inductive RecvPc (α : Type) where
  | idle
  | loadFl
  | readData (σ : BitVec 8)
  | loadRc (x : α) (σ : BitVec 8)
  | storeFree (x : α) (σ : BitVec 8)
  | storeFl (x : α) (σ : BitVec 8) (rc : RC)
  | casRc (x : α) (σ : BitVec 8) (rc : RC) (last : Bool)

/-- `seen` is the number of updates of `rc_` before this producer's last load of it. -/
structure Producer (α : Type) where
  pc : ProdPc α
  seen : Nat

/-- A receiver's private cursor, and the values it has popped so far, each with
the argument of `out`. -/
structure Receiver (α : Type) where
  cur : U2
  pc : RecvPc α
  popped : List (α × Bool)

/-- The shared memory with its history: how often `ct_` was stored, whether a slot
was marked since, the updates of each `rc_`, and the value of every `push` that
returned true under its commit index. -/
structure Mem (α : Type) where
  q : Queue α
  claimed : Nat
  armed : Bool
  upd : BitVec 8 → Nat
  commit : Nat → Option α

structure St (α : Type) where
  mem : Mem α
  cc : CC
  prod : Nat → Producer α
  recv : Fin 32 → Receiver α

variable {α : Type}

/-- A call begins, or a producer or a receiver makes its next access; `ok` is
false where a weak compare-exchange fails spuriously. -/
inductive Act (α : Type) where
  | push (p : Nat) (x : α)
  | prod (p : Nat) (ok : Bool)
  | pop (r : Fin 32)
  | recv (r : Fin 32) (ok : Bool)

def St.init [Inhabited α] (cc : CC) : St α where
  mem := ⟨.init, 0, false, fun _ => 0, fun _ => none⟩
  cc := cc
  prod := fun _ => ⟨.idle, 0⟩
  recv := fun _ => ⟨0, .idle, []⟩

def St.setProd (s : St α) (p : Nat) (c : Producer α) : St α :=
  { s with prod := fun p' => if p' = p then c else s.prod p' }

def St.setRecv (s : St α) (r : Fin 32) (c : Receiver α) : St α :=
  { s with recv := fun r' => if r' = r then c else s.recv r' }

/-- The return of `pop` after `out(last)`. -/
def St.finishPop (s : St α) (r : Fin 32) (x : α) (last : Bool) : St α :=
  s.setRecv r { s.recv r with pc := .idle, popped := (s.recv r).popped ++ [(x, last)] }

/-- An update of `rc_`. -/
def Mem.setRc (m : Mem α) (σ : BitVec 8) (rc : RC) : Mem α :=
  { m with q := m.q.setRc σ rc, upd := fun τ => if τ = σ then m.upd τ + 1 else m.upd τ }

def Mem.setFl (m : Mem α) (σ : BitVec 8) (fl : Flag) : Mem α := { m with q := m.q.setFl σ fl }

def stepProd (s : St α) (p : Nat) (ok : Bool) : Option (St α) :=
  let c := s.prod p
  let m := s.mem
  let goto (pc : ProdPc α) : St α := s.setProd p { c with pc := pc }
  match c.pc with
  | .idle => none
  | .loadEpoch x => some (goto (.loadCc x m.q.epoch))
  | .loadCc x epoch => some (goto (if s.cc = 0 then .idle else .loadCt x epoch s.cc))
  | .loadCt x epoch cc => some (goto (.loadRc x epoch cc m.q.ct))
  | .loadRc x epoch cc ct =>
    let rc := (m.q.elems (indexOf ct)).rc
    some (s.setProd p ⟨
      if blocked cc rc epoch then .idle
      else if pend (rc &&& rcMask) = 0 then .loadFl x epoch cc ct rc
      else .casRc x epoch cc ct rc, m.upd (indexOf ct)⟩)
  | .loadFl x epoch cc ct rc =>
    some (goto (if occupied ct (m.q.elems (indexOf ct)).fCt then .idle
      else .casRc x epoch cc ct rc))
  | .casRc x epoch cc ct rc =>
    if ok ∧ (m.q.elems (indexOf ct)).rc = rc then
      some ({ s with mem := { m.setRc (indexOf ct) (mark epoch rc cc) with armed := true } }.setProd
        p { c with pc := .casEpoch x epoch ct })
    else some (goto (.loadCc x epoch))
  | .casEpoch x epoch ct =>
    -- the slot stays marked when this one fails
    some (goto (if ok ∧ m.q.epoch = epoch then .storeCt x ct else .loadCc x m.q.epoch))
  | .storeCt x ct =>
    some ({ s with mem :=
      { m with q := m.q.setCt (ct + 1), claimed := m.claimed + 1, armed := false } }.setProd
        p { c with pc := .writeData x ct })
  | .writeData x ct =>
    some ({ s with mem := { m with q := m.q.setData (indexOf ct) x } }.setProd
      p { c with pc := .storeFl x ct })
  | .storeFl x ct =>
    some ({ s with mem := { m.setFl (indexOf ct) (committed ct) with
      commit := fun i => if i = ct.toNat then some x else m.commit i } }.setProd
        p { c with pc := .idle })

def stepRecv (s : St α) (r : Fin 32) (ok : Bool) : Option (St α) :=
  let c := s.recv r
  let m := s.mem
  match c.pc with
  | .idle => none
  | .loadFl =>
    if (m.q.elems (indexOf c.cur)).fCt ≠ committed c.cur then
      some (s.setRecv r { c with pc := .idle })
    else some (s.setRecv r { c with cur := c.cur + 1, pc := .readData (indexOf c.cur) })
  | .readData σ => some (s.setRecv r { c with pc := .loadRc (m.q.elems σ).data σ })
  | .loadRc x σ =>
    let rc := (m.q.elems σ).rc
    let nxt := incRc rc &&& ~~~(idOf r).setWidth 64
    some (s.setRecv r { c with
      pc := if rc &&& rcMask = 0 then .storeFree x σ
        else if nxt &&& rcMask = 0 then .storeFl x σ rc else .casRc x σ rc false })
  | .storeFree x σ => some ({ s with mem := m.setFl σ (freed c.cur) }.finishPop r x true)
  | .storeFl x σ rc =>
    some ({ s with mem := m.setFl σ (freed c.cur) }.setRecv r { c with pc := .casRc x σ rc true })
  | .casRc x σ rc last =>
    if ok ∧ (m.q.elems σ).rc = rc then
      some ({ s with mem := m.setRc σ (incRc rc &&& ~~~(idOf r).setWidth 64) }.finishPop r x last)
    else some (s.setRecv r { c with pc := .loadRc x σ })

def step (s : St α) : Act α → Option (St α)
  | .push p x => match (s.prod p).pc with
    | .idle => some (s.setProd p { s.prod p with pc := .loadEpoch x })
    | _ => none
  | .prod p ok => stepProd s p ok
  | .pop r => match (s.recv r).pc with
    | .idle => if s.cc.getLsbD r then some (s.setRecv r { s.recv r with pc := .loadFl }) else none
    | _ => none
  | .recv r ok => stepRecv s r ok

/-- The updates of `rc_` between a producer's load of it and its compare-exchange. -/
def updatesSince (s : St α) : Act α → Nat
  | .prod p _ => match (s.prod p).pc with
    | .casRc _ _ _ ct _ => s.mem.upd (indexOf ct) - (s.prod p).seen
    | _ => 0
  | _ => 0

/-- So few that the counter inside the word shows them. -/
abbrev Timely (s : St α) (a : Act α) : Prop := updatesSince s a < 2 ^ 24

/-! ## The invariant -/

/-- The number of values receiver `r` has popped. -/
def St.done (s : St α) (r : Fin 32) : Nat := (s.recv r).popped.length

/-- The number of slots marked so far, stored in `ct_` or not. -/
def Mem.marked (m : Mem α) : Nat := m.claimed + m.armed.toNat

/-- What the words of a slot say about the indices that fall on it, with `done r`
the number of values receiver `r` has popped. -/
structure MemOk (cc : CC) (m : Mem α) (done : Fin 32 → Nat) : Prop where
  readers : ∃ r, Conn cc r
  small : m.claimed < 2 ^ 32
  epoch : m.q.epoch = 0
  ct : m.q.ct = BitVec.ofNat 32 m.claimed
  tag : ∀ σ, (m.q.elems σ).rc &&& ~~~epMask = 0
  only : ∀ σ i, (pend (m.q.elems σ).rc).getLsbD i = true → cc.getLsbD i = true
  count : ∀ σ, ReadCounter.Channel.count (m.q.elems σ).rc = BitVec.ofNat 24 (m.upd σ)
  room : ∀ r, Conn cc r → done r ≤ m.claimed ∧ m.marked ≤ done r + 256
  pending : ∀ r, Conn cc r → ∀ σ,
    (pend (m.q.elems σ).rc).getLsbD r = true ↔ Owes 8 (done r) m.marked σ
  commit : ∀ i v, m.commit i = some v → i < m.claimed
  got : ∀ r, Conn cc r → ∀ i < done r, m.commit i ≠ none
  flag : ∀ σ i, i < 2 ^ 32 → (m.q.elems σ).fCt.toNat = 2 ^ 64 - 1 - i →
    m.commit i ≠ none ∧ slot 8 i = σ
  free : ∀ i < m.claimed, m.claimed ≤ i + 256 → (∀ r, Conn cc r → i < done r) →
    (m.q.elems (slot 8 i)).fCt.toNat = i + 256
  data : ∀ i v, m.commit i = some v → m.claimed ≤ i + 256 → (m.q.elems (slot 8 i)).data = v

/-- What a producer knows after its load of `rc_`; the last field also says what
an unchanged update count will mean at the compare-exchange. -/
structure Loaded (cc : CC) (m : Mem α) (seen : Nat) (epoch : RC) (c : CC) (ct : U2) (rc : RC) :
    Prop where
  epoch0 : epoch = 0
  conns : c = cc
  le : ct.toNat ≤ m.claimed
  count : ReadCounter.Channel.count rc = BitVec.ofNat 24 seen
  since : seen ≤ m.upd (indexOf ct)
  clear : m.upd (indexOf ct) = seen → pend (m.q.elems (indexOf ct)).rc = 0

def ProdOk (cc : CC) (m : Mem α) (seen : Nat) : ProdPc α → Prop
  | .idle | .loadEpoch _ => True
  | .loadCc _ epoch => epoch = 0
  | .loadCt _ epoch c => epoch = 0 ∧ c = cc
  | .loadRc _ epoch c ct => epoch = 0 ∧ c = cc ∧ ct.toNat ≤ m.claimed
  | .loadFl _ epoch c ct rc => Loaded cc m seen epoch c ct rc
  | .casRc _ epoch c ct rc =>
    Loaded cc m seen epoch c ct rc ∧ (m.upd (indexOf ct) = seen → m.marked ≤ ct.toNat)
  | .casEpoch _ epoch ct => epoch = 0 ∧ m.armed = true ∧ ct.toNat = m.claimed
  | .storeCt _ ct => m.armed = true ∧ ct.toNat = m.claimed
  | .writeData _ ct => ct.toNat < m.claimed ∧ m.commit ct.toNat = none
  | .storeFl x ct =>
    ct.toNat < m.claimed ∧ m.commit ct.toNat = none ∧ (m.q.elems (indexOf ct)).data = x

/-- Between a successful compare-exchange and the store of `ct_`. -/
def ProdPc.claims : ProdPc α → Bool
  | .casEpoch .. | .storeCt .. => true
  | _ => false

/-- The index whose data or flag the producer is about to write. -/
def ProdPc.writing : ProdPc α → Option U2
  | .writeData _ ct | .storeFl _ ct => some ct
  | _ => none

/-- Inside `pop` the cursor is already one ahead of the values popped, and a reader
that takes itself for the last is the only one left. -/
def RecvOk (cc : CC) (m : Mem α) (done : Fin 32 → Nat) (r : Fin 32) (c : Receiver α) : Prop :=
  let reading (σ : BitVec 8) := c.cur = BitVec.ofNat 32 (done r + 1) ∧ σ = slot 8 (done r)
  let alone := ∀ r', Conn cc r' → r' ≠ r → done r < done r'
  match c.pc with
  | .idle | .loadFl => c.cur = BitVec.ofNat 32 (done r)
  | .readData σ => reading σ ∧ m.commit (done r) ≠ none
  | .loadRc x σ => reading σ ∧ m.commit (done r) = some x
  | .storeFree .. => False
  | .storeFl x σ _ => reading σ ∧ m.commit (done r) = some x ∧ alone
  | .casRc x σ rc last => reading σ ∧ m.commit (done r) = some x ∧
    (last = true → alone ∧ (m.q.elems σ).fCt.toNat = done r + 256) ∧
    (last = false → incRc rc &&& ~~~(idOf r).setWidth 64 &&& rcMask ≠ 0)

/-- Before the data is read, no reader has replaced the commit flag. -/
def RecvPc.early : RecvPc α → Bool
  | .idle | .loadFl | .readData _ => true
  | _ => false

/-- A committed message that `r` still has to find carries its commit flag. -/
def Kept (m : Mem α) (done : Fin 32 → Nat) (r : Fin 32) (pc : RecvPc α) : Prop :=
  ∀ i v, m.commit i = some v → done r ≤ i → (done r = i → pc.early = true) →
    (m.q.elems (slot 8 i)).fCt.toNat = 2 ^ 64 - 1 - i

structure Inv (cc : CC) (s : St α) : Prop where
  conns : s.cc = cc
  mem : MemOk cc s.mem s.done
  prodOk : ∀ p, ProdOk cc s.mem (s.prod p).seen (s.prod p).pc
  claims : ∀ p p', (s.prod p).pc.claims = true → (s.prod p').pc.claims = true → p = p'
  writes : ∀ p p' ct, (s.prod p).pc.writing = some ct → (s.prod p').pc.writing = some ct → p = p'
  vals : ∀ r, Conn cc r → ∀ (i : Nat) v b, (s.recv r).popped[i]? = some (v, b) →
    s.mem.commit i = some v
  recvOk : ∀ r, Conn cc r → RecvOk cc s.mem s.done r (s.recv r)
  kept : ∀ r, Conn cc r → Kept s.mem s.done r (s.recv r).pc
  off : ∀ r, ¬ Conn cc r → (s.recv r).pc = .idle

section Window
variable {cc : CC} {m : Mem α} {done : Fin 32 → Nat}

/-- An index that is claimed but not committed is still to be read by everyone. -/
theorem MemOk.unread (hm : MemOk cc m done) {r : Fin 32} (hr : Conn cc r) {i : Nat}
    (h : m.commit i = none) : done r ≤ i := by
  by_contra hc
  exact hm.got r hr i (by omega) h

/-- Two marked indices that receiver `r` still has to read are on different slots. -/
theorem MemOk.eq_of_slot (hm : MemOk cc m done) {r : Fin 32} (hr : Conn cc r) {i j : Nat}
    (hi : done r ≤ i) (hi' : i < m.marked) (hj : done r ≤ j) (hj' : j < m.marked)
    (h : slot 8 i = slot 8 j) : i = j := by
  have := (hm.room r hr).2
  exact Lib.Window.eq_of_slot_eq h (by omega) (by omega)

theorem Mem.claimed_le (m : Mem α) : m.claimed ≤ m.marked := Nat.le_add_right _ _

theorem indexOf_eq_slot (ct : U2) : indexOf ct = slot 8 ct.toNat := by
  rw [slot, ← indexOf_ofNat, BitVec.ofNat_toNat, BitVec.setWidth_eq]

/-- The index in `ct_` is the number of its stores. -/
theorem MemOk.ct_toNat (hm : MemOk cc m done) : m.q.ct.toNat = m.claimed := by
  have := hm.small
  rw [hm.ct, BitVec.toNat_ofNat]
  omega

end Window

theorem init_inv [Inhabited α] {cc : CC} (h0 : cc ≠ 0) : Inv cc (St.init (α := α) cc) := by
  refine ⟨rfl, ?_, fun _ => trivial, ?_, ?_, ?_, fun _ _ => rfl, ?_, fun _ _ => rfl⟩
  · refine ⟨exists_conn h0, by simp [St.init], rfl, rfl, ?_, ?_, ?_, ?_, ?_, ?_, ?_, ?_, ?_, ?_⟩
    · intro σ; simp [St.init, Queue.init]
    · intro σ i h; simp [St.init, Queue.init, pend] at h
    · intro σ; simp [St.init, Queue.init, ReadCounter.Channel.count]
    · intro r _; simp [St.init, St.done, Mem.marked]
    · intro r _ σ
      have : ¬ Owes 8 0 0 σ := Lib.Window.not_owes_self
      simpa [St.init, St.done, Mem.marked, Queue.init, pend] using this
    · intro i v h; simp [St.init] at h
    · intro r _ i h; simp [St.init, St.done] at h
    · intro σ i hi h
      simp only [St.init, Queue.init, BitVec.ofNat_eq_ofNat, BitVec.toNat_zero] at h
      omega
    · intro i h; simp [St.init] at h
    · intro i v h; simp [St.init] at h
  · intro p p' h; simp [St.init, ProdPc.claims] at h
  · intro p p' ct h; simp [St.init, ProdPc.writing] at h
  · intro r _ i v b h; simp [St.init] at h
  · intro r _ i v h; simp [St.init] at h

/-! ## What a step leaves alone -/

section Frame
variable {cc : CC} {s : St α} {m m' : Mem α} {done done' : Fin 32 → Nat}

/-- A producer does not notice a step of somebody else. -/
theorem ProdOk.frame {seen : Nat} {pc : ProdPc α} (h : ProdOk cc m seen pc)
    (hclaimed : m.claimed ≤ m'.claimed) (hupd : ∀ σ, m.upd σ ≤ m'.upd σ)
    (hrc : ∀ σ, m'.upd σ = m.upd σ → (m'.q.elems σ).rc = (m.q.elems σ).rc)
    (hmark : ∀ ct : U2, m'.upd (indexOf ct) = m.upd (indexOf ct) → m.marked ≤ ct.toNat →
      ct.toNat ≤ m.claimed → m'.marked ≤ ct.toNat)
    (hclaim : pc.claims = true → m'.armed = m.armed ∧ m'.claimed = m.claimed)
    (hcommit : ∀ ct, pc.writing = some ct → m.commit ct.toNat = none → m'.commit ct.toNat = none)
    (hdata : ∀ ct, pc.writing = some ct → m.commit ct.toNat = none → ct.toNat < m.claimed →
      (m'.q.elems (indexOf ct)).data = (m.q.elems (indexOf ct)).data) :
    ProdOk cc m' seen pc := by
  have hload : ∀ {epoch c ct rc}, Loaded cc m seen epoch c ct rc →
      Loaded cc m' seen epoch c ct rc := by
    intro epoch c ct rc hl
    refine { hl with le := Nat.le_trans hl.le hclaimed, since := ?_, clear := ?_ }
    · exact Nat.le_trans hl.since (hupd _)
    · intro he
      have hsame : m'.upd (indexOf ct) = m.upd (indexOf ct) := by
        have h₁ := hl.since
        have h₂ := hupd (indexOf ct)
        omega
      rw [hrc _ hsame]
      exact hl.clear (hsame ▸ he)
  cases pc with
  | idle | loadEpoch _ => trivial
  | loadCc _ _ => exact h
  | loadCt _ _ _ => exact h
  | loadRc _ _ _ ct => exact ⟨h.1, h.2.1, Nat.le_trans h.2.2 hclaimed⟩
  | loadFl _ _ _ _ _ => exact hload h
  | casRc _ _ _ ct _ =>
    refine ⟨hload h.1, fun he => ?_⟩
    have hsame : m'.upd (indexOf ct) = m.upd (indexOf ct) := by
      have h₁ := h.1.since
      have h₂ := hupd (indexOf ct)
      omega
    exact hmark ct hsame (h.2 (hsame ▸ he)) h.1.le
  | casEpoch _ _ ct =>
    obtain ⟨ha, hc⟩ := hclaim rfl
    exact ⟨h.1, ha.trans h.2.1, h.2.2.trans hc.symm⟩
  | storeCt _ ct =>
    obtain ⟨ha, hc⟩ := hclaim rfl
    exact ⟨ha.trans h.1, h.2.trans hc.symm⟩
  | writeData _ ct => exact ⟨Nat.lt_of_lt_of_le h.1 hclaimed, hcommit ct rfl h.2⟩
  | storeFl _ ct =>
    exact ⟨Nat.lt_of_lt_of_le h.1 hclaimed, hcommit ct rfl h.2.1,
      (hdata ct rfl h.2.1 h.1).trans h.2.2⟩

/-- A receiver does not notice a step of somebody else. -/
theorem RecvOk.frame {r : Fin 32} {c : Receiver α} (h : RecvOk cc m done r c)
    (hdone : done' r = done r) (hle : ∀ r', done r' ≤ done' r')
    (hcommit : ∀ i v, m.commit i = some v → m'.commit i = some v)
    (hfl : ∀ x, m.commit (done r) = some x → (∀ r', Conn cc r' → r' ≠ r → done r < done r') →
      (m'.q.elems (slot 8 (done r))).fCt = (m.q.elems (slot 8 (done r))).fCt) :
    RecvOk cc m' done' r c := by
  have halone : (∀ r', Conn cc r' → r' ≠ r → done r < done r') →
      ∀ r', Conn cc r' → r' ≠ r → done' r < done' r' := by
    intro ha r' hr' hne
    rw [hdone]
    exact Nat.lt_of_lt_of_le (ha r' hr' hne) (hle r')
  unfold RecvOk at h ⊢
  cases hpc : c.pc with
  | idle | loadFl => simpa only [hpc, hdone] using h
  | readData σ =>
    simp only [hpc, hdone] at h ⊢
    refine ⟨h.1, ?_⟩
    obtain ⟨v, hv⟩ := Option.ne_none_iff_exists'.mp h.2
    simp [hcommit _ v hv]
  | loadRc x σ =>
    simp only [hpc, hdone] at h ⊢
    exact ⟨h.1, hcommit _ x h.2⟩
  | storeFree x σ => simp only [hpc] at h
  | storeFl x σ rc =>
    simp only [hpc] at h ⊢
    refine ⟨hdone ▸ h.1, hdone ▸ hcommit _ x h.2.1, halone h.2.2⟩
  | casRc x σ rc last =>
    simp only [hpc] at h ⊢
    refine ⟨hdone ▸ h.1, hdone ▸ hcommit _ x h.2.1, fun hl => ?_, h.2.2.2⟩
    obtain ⟨ha, hf⟩ := h.2.2.1 hl
    refine ⟨halone ha, ?_⟩
    rw [hdone, ← hf, h.1.2, hfl x h.2.1 ha]

/-- A step of producer `p`. -/
theorem Inv.ofProd (hi : Inv cc s) {p : Nat} {c : Producer α} (hmem : MemOk cc m s.done)
    (hown : ProdOk cc m c.seen c.pc)
    (hother : ∀ p', p' ≠ p → ProdOk cc m (s.prod p').seen (s.prod p').pc)
    (hclaims : c.pc.claims = true → ∀ p', p' ≠ p → (s.prod p').pc.claims = false)
    (hwrites : ∀ ct, c.pc.writing = some ct → ∀ p', p' ≠ p → (s.prod p').pc.writing ≠ some ct)
    (hcommit : ∀ i v, s.mem.commit i = some v → m.commit i = some v)
    (hrecv : ∀ r, Conn cc r → RecvOk cc m s.done r (s.recv r))
    (hkept : ∀ r, Conn cc r → Kept m s.done r (s.recv r).pc) :
    Inv cc ({ s with mem := m }.setProd p c) := by
  refine ⟨hi.conns, hmem, ?_, ?_, ?_, ?_, hrecv, hkept, hi.off⟩
  · intro p'
    by_cases he : p' = p
    · simpa [St.setProd, he] using hown
    · simpa [St.setProd, he] using hother p' he
  · intro p₁ p₂
    by_cases h₁ : p₁ = p <;> by_cases h₂ : p₂ = p
    · intro _ _; rw [h₁, h₂]
    · simp only [St.setProd, h₁, h₂, if_true, if_false]
      intro hc hc'
      exact absurd hc' (by simp [hclaims hc p₂ h₂])
    · simp only [St.setProd, h₁, h₂, if_true, if_false]
      intro hc hc'
      exact absurd hc (by simp [hclaims hc' p₁ h₁])
    · simp only [St.setProd, h₁, h₂, if_false]
      exact hi.claims p₁ p₂
  · intro p₁ p₂ ct
    by_cases h₁ : p₁ = p <;> by_cases h₂ : p₂ = p
    · intro _ _; rw [h₁, h₂]
    · simp only [St.setProd, h₁, h₂, if_true, if_false]
      intro hc hc'
      exact absurd hc' (hwrites ct hc p₂ h₂)
    · simp only [St.setProd, h₁, h₂, if_true, if_false]
      intro hc hc'
      exact absurd hc (hwrites ct hc' p₁ h₁)
    · simp only [St.setProd, h₁, h₂, if_false]
      exact hi.writes p₁ p₂ ct
  · exact fun r hr i v b h => hcommit i v (hi.vals r hr i v b h)

/-- A step of producer `p` that touches no memory. -/
theorem Inv.prodLocal (hi : Inv cc s) {p : Nat} {c : Producer α}
    (hown : ProdOk cc s.mem c.seen c.pc)
    (hclaims : c.pc.claims = true → (s.prod p).pc.claims = true)
    (hwrites : c.pc.writing = none) : Inv cc (s.setProd p c) := by
  refine hi.ofProd hi.mem hown (fun p' _ => hi.prodOk p') ?_ ?_ (fun _ _ h => h) hi.recvOk hi.kept
  · intro hc p' hne
    by_contra hc'
    exact hne (hi.claims p' p (by simpa using hc') (hclaims hc))
  · intro ct h; rw [hwrites] at h; cases h

theorem setRecv_done {r : Fin 32} {c : Receiver α} (h : c.popped = (s.recv r).popped) :
    (s.setRecv r c).done = s.done := by
  funext r'
  simp only [St.done, St.setRecv]
  split
  · rename_i he; rw [h, he]
  · rfl

/-- A step of receiver `r` that does not return a value. -/
theorem Inv.ofRecv (hi : Inv cc s) {r : Fin 32} {c : Receiver α} (hr : Conn cc r)
    (hpop : c.popped = (s.recv r).popped) (hcommit : m.commit = s.mem.commit)
    (hmem : MemOk cc m s.done)
    (hprod : ∀ p, ProdOk cc m (s.prod p).seen (s.prod p).pc)
    (hown : RecvOk cc m s.done r c)
    (hother : ∀ r', Conn cc r' → r' ≠ r → RecvOk cc m s.done r' (s.recv r'))
    (hkept : Kept m s.done r c.pc)
    (hkept' : ∀ r', Conn cc r' → r' ≠ r → Kept m s.done r' (s.recv r').pc) :
    Inv cc ({ s with mem := m }.setRecv r c) := by
  have hdone : (({ s with mem := m } : St α).setRecv r c).done = s.done :=
    setRecv_done (s := { s with mem := m }) hpop
  refine ⟨hi.conns, by rw [hdone]; exact hmem, hprod, hi.claims, hi.writes, ?_, ?_, ?_, ?_⟩
  · intro r' hr' i v b
    simp only [St.setRecv, hcommit]
    split
    · rw [hpop]; exact hi.vals r hr i v b
    · exact hi.vals r' hr' i v b
  · intro r' hr'
    rw [hdone]
    by_cases he : r' = r
    · subst he; simpa [St.setRecv] using hown
    · simpa [St.setRecv, he] using hother r' hr' he
  · intro r' hr'
    rw [hdone]
    by_cases he : r' = r
    · subst he; simpa [St.setRecv] using hkept
    · simpa [St.setRecv, he] using hkept' r' hr' he
  · intro r' hr'
    have hne : r' ≠ r := fun he => hr' (he ▸ hr)
    simpa [St.setRecv, hne] using hi.off r' hr'

/-- A step of receiver `r` that touches no memory. -/
theorem Inv.recvLocal (hi : Inv cc s) {r : Fin 32} {c : Receiver α} (hr : Conn cc r)
    (hpop : c.popped = (s.recv r).popped) (hown : RecvOk cc s.mem s.done r c)
    (hearly : c.pc.early = true → (s.recv r).pc.early = true) : Inv cc (s.setRecv r c) :=
  hi.ofRecv hr hpop rfl hi.mem hi.prodOk hown (fun r' hr' _ => hi.recvOk r' hr')
    (fun i v hv hle he => hi.kept r hr i v hv hle fun heq => hearly (he heq))
    fun r' hr' _ => hi.kept r' hr'

end Frame

/-! ## The steps that write -/

section Steps
variable {cc : CC} {s t : St α}

theorem Inv.armed_of_claims (hi : Inv cc s) {p : Nat} (h : (s.prod p).pc.claims = true) :
    s.mem.armed = true := by
  have hok := hi.prodOk p
  cases hpc : (s.prod p).pc <;> simp only [hpc, ProdPc.claims, Bool.false_eq_true] at h
  · rw [hpc] at hok; exact hok.2.1
  · rw [hpc] at hok; exact hok.1

/-- The compare-exchange of `push`. An unchanged word means an unchanged update
count, so what the producer saw is still true: the slot is free and is the next. -/
theorem Inv.mark (hi : Inv cc s) {p : Nat} {x : α} {epoch : RC} {c : CC} {ct : U2} {rc : RC}
    (hp : (s.prod p).pc = .casRc x epoch c ct rc) (hrc : (s.mem.q.elems (indexOf ct)).rc = rc)
    (hlt : s.mem.upd (indexOf ct) - (s.prod p).seen < 2 ^ 24) :
    Inv cc ({ s with mem := { s.mem.setRc (indexOf ct) (mark epoch rc c) with armed := true } }.setProd
      p { s.prod p with pc := .casEpoch x epoch ct }) := by
  have hm := hi.mem
  have hok := hi.prodOk p
  rw [hp] at hok
  obtain ⟨hl, hnext⟩ := hok
  obtain ⟨rfl, rfl⟩ := And.intro hl.epoch0 hl.conns
  have hupd : s.mem.upd (indexOf ct) = (s.prod p).seen := by
    have h := hl.count
    rw [← hrc, hm.count, ← BitVec.toNat_inj, BitVec.toNat_ofNat, BitVec.toNat_ofNat] at h
    have := hl.since
    omega
  have hclear := hl.clear hupd
  have hle := hnext hupd
  have hclaimed := s.mem.claimed_le
  have harmed : s.mem.armed = false := by
    have := hl.le
    unfold Mem.marked at hle
    cases h : s.mem.armed with
    | false => rfl
    | true => simp only [h, Bool.toNat_true] at hle; omega
  have hct : ct.toNat = s.mem.claimed := Nat.le_antisymm hl.le (Nat.le_trans hclaimed hle)
  have hmk : s.mem.marked = s.mem.claimed := by simp [Mem.marked, harmed]
  have hσ : indexOf ct = slot 8 s.mem.claimed := by rw [indexOf_eq_slot, hct]
  have hfree : ∀ r, Conn c r → ¬ Owes 8 (s.done r) s.mem.claimed (slot 8 s.mem.claimed) := by
    intro r hr howes
    have := (hm.pending r hr (indexOf ct)).mpr (by rw [hσ, hmk]; exact howes)
    rw [hclear] at this
    simp at this
  refine hi.ofProd ?_ ⟨rfl, rfl, hct⟩ ?_ ?_ ?_ (fun _ _ h => h) ?_ ?_
  · refine { hm with
      tag := ?_, only := ?_, count := ?_, room := ?_, pending := ?_, flag := ?_, free := ?_,
      data := ?_ }
    · intro σ
      simp only [Mem.setRc, setRc_rc]
      split
      · exact tag_mark rc c (by decide)
      · exact hm.tag σ
    · intro σ i
      simp only [Mem.setRc, setRc_rc]
      split
      · rw [pend_mark]; exact id
      · exact hm.only σ i
    · intro σ
      simp only [Mem.setRc, setRc_rc]
      split
      · rename_i he
        rw [count_mark rc c (by decide), ← hrc, hm.count, he, ← BitVec.ofNat_add_ofNat]
      · exact hm.count σ
    · intro r hr
      have := hm.room r hr
      rw [hmk] at this
      exact ⟨this.1, Lib.Window.room_of_not_owes (hfree r hr) this.2⟩
    · intro r hr σ
      change _ ↔ Owes 8 (s.done r) (s.mem.claimed + 1) σ
      simp only [Mem.setRc, setRc_rc]
      rw [Lib.Window.owes_succ_hi (hm.room r hr).1, hσ]
      split
      · rename_i he
        rw [pend_mark, he]
        exact ⟨fun _ => .inr rfl, fun _ => hr⟩
      · rename_i hne
        rw [hm.pending r hr σ, hmk]
        exact ⟨.inl, fun h => h.resolve_right (Ne.symm hne)⟩
    · intro σ i; simp only [Mem.setRc, setRc_fCt]; exact hm.flag σ i
    · intro i; simp only [Mem.setRc, setRc_fCt]; exact hm.free i
    · intro i v; simp only [Mem.setRc, setRc_data]; exact hm.data i v
  · intro p' hne
    refine (hi.prodOk p').frame (Nat.le_refl _) ?_ ?_ ?_ ?_ (fun _ _ h => h) ?_
    · intro σ; simp only [Mem.setRc]; split <;> omega
    · intro σ; simp only [Mem.setRc, setRc_rc]; split
      · omega
      · intro _; rfl
    · intro ct' hsame hle' hcl
      by_cases he : ct' = ct
      · subst he; simp [Mem.setRc] at hsame
      · have hne' : ct'.toNat ≠ ct.toNat := fun h => he (BitVec.eq_of_toNat_eq h)
        omega
    · intro hc; exact absurd (hi.armed_of_claims hc) (by simp [harmed])
    · intro ct' _ _ _; simp [Mem.setRc]
  · intro _ p' _
    cases hc : (s.prod p').pc.claims with
    | false => rfl
    | true => exact absurd (hi.armed_of_claims hc) (by simp [harmed])
  · intro ct' h; simp [ProdPc.writing] at h
  · intro r hr
    refine (hi.recvOk r hr).frame rfl (fun _ => Nat.le_refl _) (fun _ _ h => h) ?_
    intro _ _ _; simp [Mem.setRc]
  · intro r hr i v; simp only [Mem.setRc, setRc_fCt]; exact hi.kept r hr i v

theorem Inv.writing_lt (hi : Inv cc s) {p : Nat} {ct : U2}
    (h : (s.prod p).pc.writing = some ct) :
    ct.toNat < s.mem.claimed ∧ s.mem.commit ct.toNat = none := by
  have hok := hi.prodOk p
  cases hpc : (s.prod p).pc <;> simp only [hpc, ProdPc.writing, reduceCtorEq] at h
  all_goals
    cases h
    rw [hpc] at hok
  · exact hok
  · exact ⟨hok.1, hok.2.1⟩

/-- The store of `ct_`, which only the producer that marked the slot makes. -/
theorem Inv.advance (hi : Inv cc s) {p : Nat} {x : α} {ct : U2}
    (hp : (s.prod p).pc = .storeCt x ct) (hsmall : s.mem.claimed + 1 < 2 ^ 32) :
    Inv cc ({ s with mem :=
      { s.mem with q := s.mem.q.setCt (ct + 1), claimed := s.mem.claimed + 1, armed := false }
      }.setProd p { s.prod p with pc := .writeData x ct }) := by
  have hm := hi.mem
  have hok := hi.prodOk p
  rw [hp] at hok
  obtain ⟨harmed, hct⟩ := hok
  have hmk : s.mem.marked = s.mem.claimed + 1 := by simp [Mem.marked, harmed]
  have hnone : s.mem.commit ct.toNat = none := by
    cases h : s.mem.commit ct.toNat with
    | none => rfl
    | some v => have := hm.commit _ v h; omega
  have hclaim : (s.prod p).pc.claims = true := by rw [hp]; rfl
  refine hi.ofProd ?_ ⟨by simp [hct], hnone⟩ ?_ ?_ ?_ (fun _ _ h => h) ?_ hi.kept
  · refine { hm with
      small := hsmall, ct := ?_, room := ?_, pending := ?_, commit := ?_, free := ?_, data := ?_ }
    · apply BitVec.eq_of_toNat_eq
      have h1 : (1 : U2).toNat = 1 := rfl
      rw [setCt_ct, BitVec.toNat_add, BitVec.toNat_ofNat, hct, h1]
    · intro r hr
      have := hm.room r hr
      rw [hmk] at this
      exact ⟨by simp only; omega, this.2⟩
    · intro r hr σ
      have := hm.pending r hr σ
      rwa [hmk] at this
    · intro i v h; exact Nat.lt_succ_of_lt (hm.commit i v h)
    · intro i hlt hlap hall
      simp only at hlt hlap
      by_cases he : i < s.mem.claimed
      · exact hm.free i he (by omega) hall
      · obtain ⟨r, hr⟩ := hm.readers
        have h₁ := hall r hr
        have h₂ := (hm.room r hr).1
        omega
    · intro i v h hlap
      exact hm.data i v h (by simp only at hlap; omega)
  · intro p' hne
    refine (hi.prodOk p').frame (Nat.le_succ _) (fun _ => Nat.le_refl _) (fun _ _ => rfl) ?_ ?_
      (fun _ _ h => h) (fun _ _ _ _ => rfl)
    · intro ct' _ h hle
      omega
    · intro hc; exact absurd (hi.claims p' p hc hclaim) hne
  · intro h; simp [ProdPc.claims] at h
  · intro ct' h p' _ hw
    cases h
    have := (hi.writing_lt hw).1
    omega
  · intro r hr
    exact (hi.recvOk r hr).frame rfl (fun _ => Nat.le_refl _) (fun _ _ h => h) (fun _ _ _ => rfl)

/-- The index a producer writes is on no slot of another index that is claimed and
not read by everyone. -/
theorem Inv.writing_slot (hi : Inv cc s) {p : Nat} {ct : U2}
    (h : (s.prod p).pc.writing = some ct) {r : Fin 32} (hr : Conn cc r) {i : Nat}
    (hle : s.done r ≤ i) (hlt : i < s.mem.claimed) (hslot : slot 8 i = indexOf ct) :
    i = ct.toNat := by
  have hm := hi.mem
  have hclaimed := s.mem.claimed_le
  obtain ⟨hw, hnone⟩ := hi.writing_lt h
  rw [indexOf_eq_slot] at hslot
  exact hm.eq_of_slot hr hle (by omega) (hm.unread hr hnone) (by omega) hslot

/-- The write of the data. -/
theorem Inv.write (hi : Inv cc s) {p : Nat} {x : α} {ct : U2}
    (hp : (s.prod p).pc = .writeData x ct) :
    Inv cc ({ s with mem := { s.mem with q := s.mem.q.setData (indexOf ct) x } }.setProd
      p { s.prod p with pc := .storeFl x ct }) := by
  have hm := hi.mem
  have hw : (s.prod p).pc.writing = some ct := by rw [hp]; rfl
  obtain ⟨hlt, hnone⟩ := hi.writing_lt hw
  have hclaimed := s.mem.claimed_le
  obtain ⟨r₀, h₀⟩ := hm.readers
  refine hi.ofProd ?_ ⟨hlt, hnone, ?_⟩ ?_ ?_ ?_ (fun _ _ h => h) ?_ ?_
  · refine { hm with
      tag := ?_, only := ?_, count := ?_, pending := ?_, flag := ?_, free := ?_, data := ?_ }
    · intro σ; rw [setData_rc]; exact hm.tag σ
    · intro σ i; rw [setData_rc]; exact hm.only σ i
    · intro σ; rw [setData_rc]; exact hm.count σ
    · intro r hr σ; rw [setData_rc]; exact hm.pending r hr σ
    · intro σ i; rw [setData_fCt]; exact hm.flag σ i
    · intro i; rw [setData_fCt]; exact hm.free i
    · intro i v hv hlap
      rw [setData_data, if_neg]
      · exact hm.data i v hv hlap
      · intro he
        have hi' := hm.commit i v hv
        have hle := hm.unread h₀ hnone
        have hroom := (hm.room r₀ h₀).2
        have heq : i = ct.toNat := by
          rw [indexOf_eq_slot] at he
          exact Lib.Window.eq_of_slot_eq he (by omega) (by simp only at hlap; omega)
        rw [heq, hnone] at hv
        cases hv
  · rw [setData_data, if_pos rfl]
  · intro p' hne
    refine (hi.prodOk p').frame (Nat.le_refl _) (fun _ => Nat.le_refl _) ?_ (fun _ _ h _ => h)
      (fun _ => ⟨rfl, rfl⟩) (fun _ _ h => h) ?_
    · intro σ _; rw [setData_rc]
    · intro ct' hw' hnone' hlt'
      rw [setData_data, if_neg]
      intro he
      have heq := hi.writing_slot hw h₀ (hm.unread h₀ hnone') hlt' (by rw [← he, indexOf_eq_slot])
      have : ct' = ct := BitVec.eq_of_toNat_eq heq
      exact hne (hi.writes p' p ct (this ▸ hw') hw)
  · intro h; simp [ProdPc.claims] at h
  · intro ct' h p' hne hw'
    cases h
    exact hne (hi.writes p' p ct hw' hw)
  · intro r hr
    refine (hi.recvOk r hr).frame rfl (fun _ => Nat.le_refl _) (fun _ _ h => h) ?_
    intro _ _ _; rw [setData_fCt]
  · intro r hr i v; simp only [setData_fCt]; exact hi.kept r hr i v

/-- The store of the commit flag: the push returns true. -/
theorem Inv.commit (hi : Inv cc s) {p : Nat} {x : α} {ct : U2}
    (hp : (s.prod p).pc = .storeFl x ct) :
    Inv cc ({ s with mem := { s.mem.setFl (indexOf ct) (committed ct) with
      commit := fun i => if i = ct.toNat then some x else s.mem.commit i } }.setProd
        p { s.prod p with pc := .idle }) := by
  have hm := hi.mem
  have hw : (s.prod p).pc.writing = some ct := by rw [hp]; rfl
  obtain ⟨hlt, hnone⟩ := hi.writing_lt hw
  have hdata := hi.prodOk p
  rw [hp] at hdata
  have hclaimed := s.mem.claimed_le
  obtain ⟨r₀, h₀⟩ := hm.readers
  have hmono : ∀ i v, s.mem.commit i = some v →
      (if i = ct.toNat then some x else s.mem.commit i) = some v := by
    intro i v hv
    rw [if_neg]
    · exact hv
    · intro he; rw [he, hnone] at hv; cases hv
  refine hi.ofProd ?_ trivial ?_ ?_ ?_ hmono ?_ ?_
  · refine { hm with
      tag := ?_, only := ?_, count := ?_, pending := ?_, commit := ?_, got := ?_, flag := ?_,
      free := ?_, data := ?_ }
    · intro σ; simp only [Mem.setFl, setFl_rc]; exact hm.tag σ
    · intro σ i; simp only [Mem.setFl, setFl_rc]; exact hm.only σ i
    · intro σ; simp only [Mem.setFl, setFl_rc]; exact hm.count σ
    · intro r hr σ; simp only [Mem.setFl, setFl_rc]; exact hm.pending r hr σ
    · intro i v
      simp only
      split
      · rename_i he; intro _; rw [he]; exact hlt
      · exact hm.commit i v
    · intro r hr i hi'
      simp only
      split
      · simp
      · exact hm.got r hr i hi'
    · intro σ i hsmall
      simp only [Mem.setFl, setFl_fCt]
      split
      · rename_i he
        intro hf
        have : i = ct.toNat := by
          rw [committed_toNat] at hf
          have := ct.isLt
          omega
        rw [if_pos this, this, he]
        exact ⟨by simp, (indexOf_eq_slot ct).symm⟩
      · intro hf
        obtain ⟨hc, hs⟩ := hm.flag σ i hsmall hf
        refine ⟨?_, hs⟩
        split
        · simp
        · exact hc
    · intro i hi' hlap hall
      simp only [Mem.setFl, setFl_fCt]
      rw [if_neg]
      · exact hm.free i hi' hlap hall
      · intro he
        -- everyone has read `i`, so `i` is before the index being committed
        have h₁ := hall r₀ h₀
        have h₂ := hm.unread h₀ hnone
        rw [indexOf_eq_slot] at he
        simp only [Mem.setFl] at hlap
        have := Lib.Window.eq_of_slot_eq he (by omega) (by omega)
        omega
    · intro i v hv hlap
      simp only [Mem.setFl, setFl_data]
      simp only at hv
      split at hv
      · rename_i he
        cases hv
        rw [he, ← indexOf_eq_slot]
        exact hdata.2.2
      · exact hm.data i v hv hlap
  · intro p' hne
    refine (hi.prodOk p').frame (Nat.le_refl _) (fun _ => Nat.le_refl _) ?_ (fun _ _ h _ => h)
      (fun _ => ⟨rfl, rfl⟩) ?_ ?_
    · intro σ _; simp [Mem.setFl]
    · intro ct' hw' h
      simp only
      rw [if_neg]
      · exact h
      · intro he
        have : ct' = ct := BitVec.eq_of_toNat_eq he
        exact hne (hi.writes p' p ct (this ▸ hw') hw)
    · intro _ _ _ _; simp [Mem.setFl]
  · intro h; simp [ProdPc.claims] at h
  · intro ct' h; simp [ProdPc.writing] at h
  · intro r hr
    refine (hi.recvOk r hr).frame rfl (fun _ => Nat.le_refl _) hmono ?_
    intro y hy _
    simp only [Mem.setFl, setFl_fCt]
    rw [if_neg]
    intro he
    have := hi.writing_slot hw hr (Nat.le_refl _) (hm.commit _ y hy) he
    rw [this, hnone] at hy
    cases hy
  · intro r hr i v hv hle hearly
    simp only [Mem.setFl, setFl_fCt]
    simp only at hv
    by_cases he : i = ct.toNat
    · rw [he, ← indexOf_eq_slot, if_pos rfl, committed_toNat]
    · rw [if_neg he] at hv
      rw [if_neg]
      · exact hi.kept r hr i v hv hle hearly
      · exact fun hs => he (hi.writing_slot hw hr hle (hm.commit i v hv) hs)

/-- The store of the last reader, which leaves the slot to the next index. -/
theorem Inv.release (hi : Inv cc s) {r : Fin 32} {x : α} {σ : BitVec 8} {rc : RC}
    (hr : Conn cc r) (hpc : (s.recv r).pc = .storeFl x σ rc) :
    Inv cc ({ s with mem := s.mem.setFl σ (freed (s.recv r).cur) }.setRecv
      r { s.recv r with pc := .casRc x σ rc true }) := by
  have hm := hi.mem
  have hok := hi.recvOk r hr
  simp only [RecvOk, hpc] at hok
  obtain ⟨⟨hcur, hσ⟩, hx, halone⟩ := hok
  have hlt : s.done r < s.mem.claimed := hm.commit _ x hx
  have hclaimed := s.mem.claimed_le
  have hroom := (hm.room r hr).2
  have hfl : (freed (s.recv r).cur).toNat = s.done r + 256 := by
    have := hm.small
    rw [freed_toNat, hcur, BitVec.toNat_ofNat]
    omega
  -- no other index that is claimed and at or after `done r` is on this slot
  have hslot : ∀ i, s.done r ≤ i → i < s.mem.claimed → slot 8 i = σ → i = s.done r := by
    intro i hle hlt' he
    exact hm.eq_of_slot hr hle (by omega) (Nat.le_refl _) (by omega) (he.trans hσ)
  refine hi.ofRecv hr rfl rfl ?_ ?_ ?_ ?_ ?_ ?_
  · refine { hm with
      tag := ?_, only := ?_, count := ?_, pending := ?_, flag := ?_, free := ?_, data := ?_ }
    · intro τ; simp only [Mem.setFl, setFl_rc]; exact hm.tag τ
    · intro τ i; simp only [Mem.setFl, setFl_rc]; exact hm.only τ i
    · intro τ; simp only [Mem.setFl, setFl_rc]; exact hm.count τ
    · intro r' hr' τ; simp only [Mem.setFl, setFl_rc]; exact hm.pending r' hr' τ
    · intro τ i hsmall
      simp only [Mem.setFl, setFl_fCt]
      split
      · intro hf
        have := hm.small
        omega
      · exact hm.flag τ i hsmall
    · intro i hi' hlap hall
      simp only [Mem.setFl, setFl_fCt]
      rw [if_neg]
      · exact hm.free i hi' hlap hall
      · intro he
        have h₁ := hall r hr
        simp only [Mem.setFl] at hlap
        have := Lib.Window.eq_of_slot_eq (he.trans hσ) (by omega) (by omega)
        omega
    · intro i v; simp only [Mem.setFl, setFl_data]; exact hm.data i v
  · intro p
    refine (hi.prodOk p).frame (Nat.le_refl _) (fun _ => Nat.le_refl _) ?_ (fun _ _ h _ => h)
      (fun _ => ⟨rfl, rfl⟩) (fun _ _ h => h) ?_
    · intro τ _; simp [Mem.setFl]
    · intro _ _ _ _; simp [Mem.setFl]
  · refine ⟨⟨hcur, hσ⟩, hx, fun _ => ⟨halone, ?_⟩, nofun⟩
    simp only [Mem.setFl, setFl_fCt, if_true]
    exact hfl
  · intro r' hr' hne
    refine (hi.recvOk r' hr').frame rfl (fun _ => Nat.le_refl _) (fun _ _ h => h) ?_
    intro _ _ halone'
    have h₁ := halone r' hr' hne
    have h₂ := halone' r hr (Ne.symm hne)
    omega
  · intro i v hv hle hearly
    have hne : s.done r ≠ i := fun he => by simp [RecvPc.early] at hearly; exact hearly he
    simp only [Mem.setFl, setFl_fCt]
    rw [if_neg]
    · exact hi.kept r hr i v hv hle fun he => absurd he hne
    · exact fun he => hne (hslot i hle (hm.commit i v hv) he).symm
  · intro r' hr' hne i v hv hle hearly
    have hgt := halone r' hr' hne
    simp only [Mem.setFl, setFl_fCt]
    rw [if_neg]
    · exact hi.kept r' hr' i v hv hle hearly
    · intro he
      have := hslot i (by omega) (hm.commit i v hv) he
      omega

theorem finishPop_done (s : St α) (r r' : Fin 32) (x : α) (last : Bool) :
    (s.finishPop r x last).done r' = if r' = r then s.done r + 1 else s.done r' := by
  simp only [St.done, St.finishPop, St.setRecv]
  split <;> simp

/-- The memory after the compare-exchange of `pop`. -/
theorem MemOk.clear {m : Mem α} {done done' : Fin 32 → Nat} (hm : MemOk cc m done) {r : Fin 32}
    (hr : Conn cc r) {rc : RC} (hrc : (m.q.elems (slot 8 (done r))).rc = rc)
    (hx : m.commit (done r) ≠ none)
    (hlast : (∀ r', Conn cc r' → r' ≠ r → done r < done r') →
      (m.q.elems (slot 8 (done r))).fCt.toNat = done r + 256)
    (hdone : ∀ r', done' r' = if r' = r then done r + 1 else done r') :
    MemOk cc (m.setRc (slot 8 (done r)) (incRc rc &&& ~~~(idOf r).setWidth 64)) done' := by
  obtain ⟨v₀, hv₀⟩ := Option.ne_none_iff_exists'.mp hx
  have hlt := hm.commit _ v₀ hv₀
  refine { hm with
    tag := ?_, only := ?_, count := ?_, room := ?_, pending := ?_, got := ?_, flag := ?_,
    free := ?_, data := ?_ }
  · intro σ
    simp only [Mem.setRc, setRc_rc]
    split
    · rw [tag_clear, ← hrc]; exact hm.tag _
    · exact hm.tag σ
  · intro σ i
    simp only [Mem.setRc, setRc_rc]
    split
    · rw [pend_and_not, pend_incRc, Lib.Bits.getLsbD_and_not, ← hrc]
      exact fun h => hm.only _ i (Bool.and_eq_true_iff.mp h).1
    · exact hm.only σ i
  · intro σ
    simp only [Mem.setRc, setRc_rc]
    split
    · rename_i he
      rw [count_and_not, count_incRc, ← hrc, hm.count, he, ← BitVec.ofNat_add_ofNat]
    · exact hm.count σ
  · intro r' hr'
    have := hm.room r' hr'
    rw [hdone]
    change _ ∧ m.marked ≤ _
    split
    · rename_i he
      rw [he] at this
      exact ⟨hlt, by omega⟩
    · exact this
  · intro r' hr' τ
    change _ ↔ Owes 8 _ m.marked τ
    simp only [Mem.setRc, setRc_rc]
    rw [hdone]
    by_cases hne : r' = r
    · subst hne
      rw [if_pos rfl, Lib.Window.owes_succ_lo (hm.room r' hr').2, ← hm.pending r' hr' τ]
      split
      · rename_i he; simp [he]
      · rename_i he; simp [Ne.symm he]
    · have hnr : (r : Nat) ≠ r' := fun he => hne (Fin.ext he).symm
      rw [if_neg hne, ← hm.pending r' hr' τ]
      split
      · rename_i he
        rw [he, ← hrc, pend_and_not, pend_incRc, Lib.Bits.getLsbD_and_not, getLsbD_idOf]
        simp [hnr]
      · rfl
  · intro r' hr' i
    rw [hdone]
    split
    · intro hi
      by_cases he : i = done r
      · rw [he]; exact hx
      · exact hm.got r hr i (by omega)
    · exact hm.got r' hr' i
  · intro σ i; simp only [Mem.setRc, setRc_fCt]; exact hm.flag σ i
  · intro i hi' hlap hall
    simp only [Mem.setRc, setRc_fCt]
    have hall' : ∀ r', Conn cc r' → r' ≠ r → i < done r' := by
      intro r' hr' hne
      simpa [hdone, hne] using hall r' hr'
    by_cases he : i = done r
    · rw [he]; exact hlast (he ▸ hall')
    · refine hm.free i hi' hlap fun r' hr' => ?_
      by_cases hne : r' = r
      · have := hall r hr
        rw [hdone, if_pos rfl] at this
        rw [hne]
        omega
      · exact hall' r' hr' hne
  · intro i v; simp only [Mem.setRc, setRc_data]; exact hm.data i v

/-- The compare-exchange of `pop`: receiver `r` has read its oldest message. -/
theorem Inv.clear (hi : Inv cc s) {r : Fin 32} {x : α} {σ : BitVec 8} {rc : RC} {last : Bool}
    (hr : Conn cc r) (hpc : (s.recv r).pc = .casRc x σ rc last)
    (hrc : (s.mem.q.elems σ).rc = rc) :
    Inv cc ({ s with mem := s.mem.setRc σ (incRc rc &&& ~~~(idOf r).setWidth 64) }.finishPop
      r x last) := by
  have hm := hi.mem
  have hok := hi.recvOk r hr
  simp only [RecvOk, hpc] at hok
  obtain ⟨⟨hcur, hσ⟩, hx, hlast, hnot⟩ := hok
  have hlt : s.done r < s.mem.claimed := hm.commit _ x hx
  have hclaimed := s.mem.claimed_le
  have hroom := (hm.room r hr).2
  have hdone : ∀ r', (St.finishPop
      { s with mem := s.mem.setRc σ (incRc rc &&& ~~~(idOf r).setWidth 64) } r x last).done r' =
      if r' = r then s.done r + 1 else s.done r' := fun r' => finishPop_done _ r r' x last
  have hfree : (∀ r', Conn cc r' → r' ≠ r → s.done r < s.done r') →
      (s.mem.q.elems (slot 8 (s.done r))).fCt.toNat = s.done r + 256 := by
    intro hall
    cases last with
    | true => rw [← hσ]; exact (hlast rfl).2
    | false =>
      -- a bit that stays is one of a receiver that has not read the slot
      refine absurd ?_ (hnot rfl)
      rw [rcMask, and_lowMask_eq_zero, pend_and_not, pend_incRc, ← hrc]
      refine and_not_idOf_eq_zero.mpr fun r' hbit => ?_
      by_contra hne
      have hc : Conn cc r' := hm.only _ r' hbit
      have hread := hall r' hc hne
      have howes := (hm.pending r' hc _).mp hbit
      rw [hσ, Lib.Window.owes_slot_iff (by omega) hroom] at howes
      omega
  refine ⟨hi.conns, ?_, ?_, hi.claims, hi.writes, ?_, ?_, ?_, ?_⟩
  · subst hσ
    exact hm.clear hr hrc (by rw [hx]; simp) hfree hdone
  · intro p
    refine (hi.prodOk p).frame (Nat.le_refl _) ?_ ?_ (fun _ _ h _ => h)
      (fun _ => ⟨rfl, rfl⟩) (fun _ _ h => h) ?_
    · intro τ; simp only [St.finishPop, St.setRecv, Mem.setRc]; split <;> omega
    · intro τ
      simp only [St.finishPop, St.setRecv, Mem.setRc, setRc_rc]
      split
      · omega
      · intro _; rfl
    · intro _ _ _ _; simp [St.finishPop, St.setRecv, Mem.setRc]
  · intro r' hr' i v b
    simp only [St.finishPop, St.setRecv]
    split
    · intro h
      rcases getElem?_snoc_cases h with h | ⟨rfl, he⟩
      · exact hi.vals r hr i v b h
      · rw [(Prod.mk.inj he).1]
        exact hx
    · exact hi.vals r' hr' i v b
  · intro r' hr'
    rw [funext hdone]
    by_cases he : r' = r
    · subst he
      simpa [RecvOk, St.finishPop, St.setRecv] using hcur
    · have : RecvOk cc (s.mem.setRc σ (incRc rc &&& ~~~(idOf r).setWidth 64))
          (fun r' => if r' = r then s.done r + 1 else s.done r') r' (s.recv r') :=
        (hi.recvOk r' hr').frame (if_neg he) (fun r₁ => by split <;> simp [*])
        (fun _ _ h => h) (fun _ _ _ => by simp [Mem.setRc])
      simpa [St.finishPop, St.setRecv, he] using this
  · intro r' hr' i v hv hle hearly
    rw [hdone] at hle
    simp only [St.finishPop, St.setRecv, Mem.setRc, setRc_fCt]
    by_cases he : r' = r
    · rw [if_pos he] at hle
      exact hi.kept r hr i v hv (by omega) fun h => by omega
    · rw [if_neg he] at hle
      refine hi.kept r' hr' i v hv hle fun h => ?_
      have := hearly (by rw [hdone, if_neg he]; exact h)
      simpa [St.finishPop, St.setRecv, he] using this
  · intro r' hr'
    have hne : r' ≠ r := fun he => hr' (he ▸ hr)
    simpa [St.finishPop, St.setRecv, hne] using hi.off r' hr'

/-- If nobody has to read the slot and its flag admits `ct`, the index `ct` was not
marked before: otherwise the last reader of the slot would have left a later one. -/
theorem MemOk.unmarked {m : Mem α} {done : Fin 32 → Nat} (hm : MemOk cc m done) {ct : U2}
    (hclear : pend (m.q.elems (indexOf ct)).rc = 0)
    (hfl : occupied ct (m.q.elems (indexOf ct)).fCt = false) : m.marked ≤ ct.toNat := by
  by_contra hc
  obtain ⟨j, hle, hlt, hlap, hslot⟩ := Lib.Window.exists_last (w := 8) (Nat.lt_of_not_le hc)
  have hread : ∀ r, Conn cc r → j < done r := by
    intro r hr
    by_contra hj
    have := (hm.pending r hr (indexOf ct)).mpr
      ⟨j, by omega, hlt, hslot.trans (indexOf_eq_slot ct).symm⟩
    rw [hclear] at this
    simp at this
  obtain ⟨r₀, h₀⟩ := hm.readers
  have hj : j < m.claimed := Nat.lt_of_lt_of_le (hread r₀ h₀) (hm.room r₀ h₀).1
  have hfree := hm.free j hj (Nat.le_trans m.claimed_le hlap) hread
  rw [hslot, ← indexOf_eq_slot] at hfree
  have hocc : occupied ct (m.q.elems (indexOf ct)).fCt = true := by
    have hct : (ct.setWidth 64 : Flag).toNat = ct.toNat := by
      rw [BitVec.toNat_setWidth]
      have := ct.isLt
      omega
    simp only [occupied, decide_eq_true_iff]
    constructor
    · intro h; rw [h, hct] at hfree; omega
    · intro h; rw [h] at hfree; simp at hfree
  rw [hocc] at hfl
  cases hfl

theorem stepProd_inv (hi : Inv cc s) {p : Nat} {ok : Bool} (hg : Timely s (.prod p ok))
    (h : stepProd s p ok = some t) (hsmall : t.mem.claimed < 2 ^ 32) : Inv cc t := by
  have hm := hi.mem
  have hok := hi.prodOk p
  unfold stepProd at h
  simp only [Timely, updatesSince] at hg
  cases hp : (s.prod p).pc with
  | idle => simp [hp] at h
  | loadEpoch x =>
    simp only [hp, Option.some.injEq] at h
    subst h
    exact hi.prodLocal hm.epoch (by simp [ProdPc.claims]) rfl
  | loadCc x epoch =>
    simp only [hp, Option.some.injEq] at h hok
    subst h
    split
    · exact hi.prodLocal trivial (by simp [ProdPc.claims]) rfl
    · exact hi.prodLocal ⟨hok, hi.conns⟩ (by simp [ProdPc.claims]) rfl
  | loadCt x epoch c =>
    simp only [hp, Option.some.injEq] at h hok
    subst h
    exact hi.prodLocal ⟨hok.1, hok.2, Nat.le_of_eq hm.ct_toNat⟩ (by simp [ProdPc.claims]) rfl
  | loadRc x epoch c ct =>
    simp only [hp, Option.some.injEq] at h hok
    subst h
    split
    · exact hi.prodLocal trivial (by simp [ProdPc.claims]) rfl
    · rename_i hb
      obtain ⟨rfl, rfl, hle⟩ := hok
      have hfree := (blocked_eq_false (hm.tag (indexOf ct))).mp (by simpa using hb)
      have hclear : pend (s.mem.q.elems (indexOf ct)).rc = 0 := by
        apply Lib.Bits.eq_zero_iff.mpr
        intro i
        cases hbit : (pend (s.mem.q.elems (indexOf ct)).rc).getLsbD i with
        | false => rfl
        | true =>
          rw [Lib.Bits.and_eq_zero_iff.mp hfree i (hm.only _ i hbit)] at hbit
          cases hbit
      rw [if_pos (by rw [rcMask, pend_and_lowMask]; exact hclear)]
      exact hi.prodLocal ⟨rfl, rfl, hle, hm.count _, Nat.le_refl _, fun _ => hclear⟩
        (by simp [ProdPc.claims]) rfl
  | loadFl x epoch c ct rc =>
    simp only [hp, Option.some.injEq] at h hok
    subst h
    split
    · exact hi.prodLocal trivial (by simp [ProdPc.claims]) rfl
    · rename_i hfl
      exact hi.prodLocal ⟨hok, fun he => hm.unmarked (hok.clear he) (by simpa using hfl)⟩
        (by simp [ProdPc.claims]) rfl
  | casRc x epoch c ct rc =>
    simp only [hp] at h hok hg
    split at h
    · rename_i hc
      cases h
      exact hi.mark hp hc.2 hg
    · cases h
      exact hi.prodLocal hok.1.epoch0 (by simp [ProdPc.claims]) rfl
  | casEpoch x epoch ct =>
    simp only [hp, Option.some.injEq] at h hok
    subst h
    split
    · exact hi.prodLocal hok.2 (by simp [hp, ProdPc.claims]) rfl
    · exact hi.prodLocal hm.epoch (by simp [ProdPc.claims]) rfl
  | storeCt x ct =>
    simp only [hp, Option.some.injEq] at h
    subst h
    exact hi.advance hp hsmall
  | writeData x ct =>
    simp only [hp, Option.some.injEq] at h
    subst h
    exact hi.write hp
  | storeFl x ct =>
    simp only [hp, Option.some.injEq] at h
    subst h
    exact hi.commit hp

/-- The slot a receiver is reading still has its bit, so the branch of `pop` for
a slot without pending bits is never taken. -/
theorem MemOk.reading_pending {m : Mem α} {done : Fin 32 → Nat} (hm : MemOk cc m done)
    {r : Fin 32} (hr : Conn cc r) (hlt : done r < m.claimed) :
    (m.q.elems (slot 8 (done r))).rc &&& rcMask ≠ 0 := by
  have hmk := m.claimed_le
  have hbit := (hm.pending r hr (slot 8 (done r))).mpr ⟨done r, Nat.le_refl _, by omega, rfl⟩
  intro h0
  rw [Lib.Bits.eq_zero_iff.mp (and_lowMask_eq_zero.mp h0) r] at hbit
  cases hbit

/-- A reader that would clear the last bit is the only one that has not read the slot. -/
theorem MemOk.alone {m : Mem α} {done : Fin 32 → Nat} (hm : MemOk cc m done)
    {r : Fin 32} (hr : Conn cc r) (hlt : done r < m.claimed)
    (h0 : incRc (m.q.elems (slot 8 (done r))).rc &&& ~~~(idOf r).setWidth 64 &&& rcMask = 0)
    {r' : Fin 32} (hr' : Conn cc r') (hne : r' ≠ r) : done r < done r' := by
  have hmk := m.claimed_le
  rw [rcMask, and_lowMask_eq_zero, pend_and_not, pend_incRc] at h0
  by_contra hc
  have howes : Owes 8 (done r') m.marked (slot 8 (done r)) :=
    (Lib.Window.owes_slot_iff (by omega) (hm.room r hr).2).mpr (by omega)
  exact hne (and_not_idOf_eq_zero.mp h0 r' ((hm.pending r' hr' _).mpr howes))

theorem stepRecv_inv (hi : Inv cc s) {r : Fin 32} {ok : Bool} (hr : Conn cc r)
    (h : stepRecv s r ok = some t) : Inv cc t := by
  have hm := hi.mem
  have hok := hi.recvOk r hr
  unfold stepRecv at h
  unfold RecvOk at hok
  cases hpc : (s.recv r).pc with
  | idle => simp [hpc] at h
  | loadFl =>
    simp only [hpc] at h hok
    split at h
    · cases h
      exact hi.recvLocal hr rfl hok (by simp [hpc, RecvPc.early])
    · rename_i hfl
      cases h
      have hdone : s.done r < 2 ^ 32 := Nat.lt_of_le_of_lt (hm.room r hr).1 hm.small
      have hσ : indexOf (s.recv r).cur = slot 8 (s.done r) := by rw [hok, indexOf_ofNat]
      have hflag : (s.mem.q.elems (slot 8 (s.done r))).fCt.toNat = 2 ^ 64 - 1 - s.done r := by
        have hcur : (s.recv r).cur.toNat = s.done r := by
          rw [hok, BitVec.toNat_ofNat]
          omega
        rw [← hσ, not_not.mp hfl, committed_toNat, hcur]
      refine hi.recvLocal hr rfl ⟨⟨?_, hσ⟩, ?_⟩ (by simp [hpc, RecvPc.early])
      · rw [hok, ← BitVec.ofNat_add_ofNat]; rfl
      · exact (hm.flag _ _ hdone hflag).1
  | readData σ =>
    simp only [hpc, Option.some.injEq] at h hok
    subst h
    refine hi.recvLocal hr rfl ⟨hok.1, ?_⟩ (by simp [RecvPc.early])
    obtain ⟨v, hv⟩ := Option.ne_none_iff_exists'.mp hok.2
    have hroom := (hm.room r hr).2
    have hdata := hm.data _ v hv (Nat.le_trans s.mem.claimed_le hroom)
    rw [hv, hok.1.2, hdata]
  | loadRc x σ =>
    simp only [hpc, Option.some.injEq] at h hok
    subst h
    obtain ⟨⟨hcur, rfl⟩, hx⟩ := hok
    have hlt := hm.commit _ x hx
    rw [if_neg (hm.reading_pending hr hlt)]
    split
    · rename_i h0
      exact hi.recvLocal hr rfl ⟨⟨hcur, rfl⟩, hx, fun r' hr' hne => hm.alone hr hlt h0 hr' hne⟩
        (by simp [RecvPc.early])
    · rename_i h0
      exact hi.recvLocal hr rfl ⟨⟨hcur, rfl⟩, hx, nofun, fun _ => h0⟩
        (by simp [RecvPc.early])
  | storeFree x σ => simp [hpc] at hok
  | storeFl x σ rc =>
    simp only [hpc, Option.some.injEq] at h
    subst h
    exact hi.release hr hpc
  | casRc x σ rc last =>
    simp only [hpc] at h hok
    split at h
    · rename_i hc
      cases h
      exact hi.clear hr hpc hc.2
    · cases h
      exact hi.recvLocal hr rfl ⟨hok.1, hok.2.1⟩ (by simp [RecvPc.early])

theorem step_inv (hi : Inv cc s) {a : Act α} (hg : Timely s a) (h : step s a = some t)
    (hsmall : t.mem.claimed < 2 ^ 32) : Inv cc t := by
  cases a with
  | push p x =>
    simp only [step] at h
    split at h
    · cases h
      exact hi.prodLocal trivial (by simp [ProdPc.claims]) rfl
    · cases h
  | prod p ok => exact stepProd_inv hi hg h hsmall
  | pop r =>
    simp only [step] at h
    split at h
    · rename_i hpc
      split at h
      · rename_i hr
        cases h
        have hr : Conn cc r := hi.conns ▸ hr
        have hok := hi.recvOk r hr
        simp only [RecvOk, hpc] at hok
        exact hi.recvLocal hr rfl hok (by simp [hpc, RecvPc.early])
      · cases h
    · cases h
  | recv r ok =>
    by_cases hr : Conn cc r
    · exact stepRecv_inv hi hr h
    · simp [step, stepRecv, hi.off r hr] at h

theorem claimed_mono {a : Act α} (h : step s a = some t) : s.mem.claimed ≤ t.mem.claimed := by
  cases a with
  | push p x =>
    simp only [step] at h
    split at h <;> cases h
    exact Nat.le_refl _
  | prod p ok =>
    simp only [step, stepProd] at h
    split at h
    case h_1 => cases h
    case h_9 => cases h; exact Nat.le_succ _
    case h_7 => split at h <;> cases h <;> exact Nat.le_refl _
    all_goals
      cases h
      exact Nat.le_refl _
  | pop r =>
    simp only [step] at h
    split at h
    · split at h <;> cases h
      exact Nat.le_refl _
    · cases h
  | recv r ok =>
    simp only [step, stepRecv] at h
    split at h
    case h_1 => cases h
    case h_2 | h_7 => split at h <;> cases h <;> exact Nat.le_refl _
    all_goals
      cases h
      exact Nat.le_refl _

end Steps

/-! ## What every run delivers -/

/-- The values of the pushes that returned true, by commit index. -/
def St.pushed (s : St α) : List α := (List.range s.mem.claimed).filterMap s.mem.commit

/-- The guarantee of the queue towards the receivers of `cc`. -/
structure Broadcasts (cc : CC) (s : St α) : Prop where
  /-- No duplication, no reordering. -/
  inOrder : ∀ r, Conn cc r → (s.recv r).popped.map Prod.fst <+: s.pushed
  /-- No loss: where `pop` is about to return false, the index it waits for is not
  committed. -/
  complete : ∀ r, Conn cc r → (s.recv r).pc = .loadFl →
    (s.mem.q.elems (indexOf (s.recv r).cur)).fCt ≠ committed (s.recv r).cur →
    s.mem.commit (s.recv r).popped.length = none
  /-- A push that is about to return true has a commit index of its own. -/
  fresh : ∀ p x ct, (s.prod p).pc = .storeFl x ct → s.mem.commit ct.toNat = none
  /-- A message is overwritten only after everyone has read it. -/
  kept : ∀ p x ct, (s.prod p).pc = .writeData x ct → ∀ i v, s.mem.commit i = some v →
    slot 8 i = indexOf ct → ∀ r, Conn cc r → i < (s.recv r).popped.length
  /-- A slot is not written while a receiver reads it. -/
  untorn : ∀ p x ct, (s.prod p).pc = .writeData x ct → ∀ r, Conn cc r → ∀ σ,
    (s.recv r).pc = .readData σ → indexOf ct ≠ σ

theorem filterMap_range_prefix {f : Nat → Option α} {l : List α} {n : Nat} (hn : l.length ≤ n)
    (h : ∀ (i : Nat) v, l[i]? = some v → f i = some v) : l <+: (List.range n).filterMap f := by
  have hl : (List.range l.length).filterMap f = l := by
    clear hn
    induction l using List.reverseRecOn with
    | nil => rfl
    | append_singleton l a ih =>
      have hlast : f l.length = some a := h _ a (by simp)
      have hinit := ih fun i v hv => h i v (getElem?_snoc hv)
      rw [List.length_append, List.length_singleton, List.range_succ, List.filterMap_append, hinit]
      simp [hlast]
  obtain ⟨k, rfl⟩ := Nat.exists_eq_add_of_le hn
  rw [List.range_add, List.filterMap_append, hl]
  exact List.prefix_append _ _

theorem Inv.broadcasts {cc : CC} {s : St α} (hi : Inv cc s) : Broadcasts cc s := by
  have hm := hi.mem
  refine ⟨?_, ?_, ?_, ?_, ?_⟩
  · intro r hr
    refine filterMap_range_prefix ?_ ?_
    · rw [List.length_map]; exact (hm.room r hr).1
    · intro i v h
      rw [List.getElem?_map, Option.map_eq_some_iff] at h
      obtain ⟨⟨w, b⟩, hw, rfl⟩ := h
      exact hi.vals r hr i w b hw
  · intro r hr hpc hne
    have hok := hi.recvOk r hr
    simp only [RecvOk, hpc] at hok
    have hdone : s.done r < 2 ^ 32 := Nat.lt_of_le_of_lt (hm.room r hr).1 hm.small
    cases hc : s.mem.commit (s.recv r).popped.length with
    | none => rfl
    | some v =>
      refine absurd ?_ hne
      have hk := hi.kept r hr (s.done r) v hc (Nat.le_refl _) (fun _ => by rw [hpc]; rfl)
      apply BitVec.eq_of_toNat_eq
      rw [hok, indexOf_ofNat, hk, committed_toNat, BitVec.toNat_ofNat]
      omega
  · intro p x ct hp
    have hok := hi.prodOk p
    rw [hp] at hok
    exact hok.2.1
  · intro p x ct hp i v hv hs r hr
    have hw : (s.prod p).pc.writing = some ct := by rw [hp]; rfl
    by_contra hc
    have heq := hi.writing_slot hw hr (Nat.le_of_not_lt hc) (hm.commit i v hv) hs
    rw [heq, (hi.writing_lt hw).2] at hv
    cases hv
  · intro p x ct hp r hr σ hpc he
    have hw : (s.prod p).pc.writing = some ct := by rw [hp]; rfl
    have hok := hi.recvOk r hr
    simp only [RecvOk, hpc] at hok
    obtain ⟨v, hv⟩ := Option.ne_none_iff_exists'.mp hok.2
    have heq := hi.writing_slot hw hr (Nat.le_refl _) (hm.commit _ v hv) (he ▸ hok.1.2).symm
    rw [heq, (hi.writing_lt hw).2] at hv
    cases hv

/-- Every interleaving of any number of producers and the receivers of `cc`, with
fewer than `2 ^ 32` messages and without an unseen wrap of an update count. -/
theorem broadcasts_of_timely_run [Inhabited α] {cc : CC} (h0 : cc ≠ 0) {acts : List (Act α)}
    {s : St α} (hr : Lib.Runs.run step (St.init cc) acts = some s)
    (htimely : Lib.Runs.Meets step Timely (St.init cc) acts) (hsmall : s.mem.claimed < 2 ^ 32) :
    Broadcasts cc s := by
  have hinv : s.mem.claimed < 2 ^ 32 → Inv cc s :=
    Lib.Runs.run_invariant (P := fun s : St α => s.mem.claimed < 2 ^ 32 → Inv cc s)
      (fun _ _ _ hi hg h hs => step_inv (hi (Nat.lt_of_le_of_lt (claimed_mono h) hs)) hg h hs)
      (fun _ => init_inv h0) hr htimely
  exact (hinv hsmall).broadcasts

/-- Two producers push, the second overtaking the first between its claim and its
commit; receiver 0 finds nothing until the first commits. -/
def overtaking : List (Act Nat) :=
  .push 0 7 :: List.replicate 8 (.prod 0 true) ++ .push 1 8 :: List.replicate 10 (.prod 1 true) ++
    .pop 0 :: .recv 0 true :: List.replicate 2 (.prod 0 true) ++
    .pop 0 :: List.replicate 5 (.recv 0 true) ++ .pop 0 :: List.replicate 5 (.recv 0 true)

theorem broadcasts_overtaking : ∃ s, Lib.Runs.run step (St.init 1) overtaking = some s ∧
    s.mem.claimed = 2 ∧ (s.recv 0).popped = [(7, true), (8, true)] ∧ Broadcasts 1 s := by
  have hs : ((Lib.Runs.run step (St.init 1) overtaking).map fun s =>
      (s.mem.claimed, (s.recv 0).popped)) = some (2, [(7, true), (8, true)]) := by
    decide +kernel
  obtain ⟨s, hr, hp⟩ := Option.map_eq_some_iff.mp hs
  obtain ⟨h₀, h₁⟩ := Prod.mk.inj hp
  exact ⟨s, hr, h₀, h₁, broadcasts_of_timely_run (by decide) hr (by decide +kernel) (by omega)⟩

end CppIpc.ChannelSteps
