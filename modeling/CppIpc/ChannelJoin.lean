import CppIpc.Channel
import CppIpc.ChannelSteps
import CppIpc.RouteJoin

/-! # Connecting to a channel while it is written

The same with any number of producers. They agree on the next index by their
compare-exchange of `rc_`, so the receiver that a push does not know is not the
only thing that can go wrong: a weak compare-exchange of `epoch_` that fails leaves
its slot marked, and an index or a read counter may come round to an old value. -/
namespace CppIpc.ChannelJoin
open CppIpc.Def CppIpc.ReadCounter CppIpc.ReadCounter.Channel CppIpc.Channel
open CppIpc.ChannelSteps (indexOf_eq_slot)
open CppIpc.RouteJoin (Recv RecvsOk)
open CppIpc.Lib.Joining (Board Status)
open CppIpc.Lib.Runs (run Meets)
open CppIpc.Lib.Window (slot Owes)

/-! ## The machine -/

/-- A producer between two calls, or before the named access of `push`. -/
inductive ProdPc (α : Type) where
  | idle
  | loadEpoch (x : α)
  | loadCc (x : α) (epoch : RC)
  | loadCt (x : α) (epoch : RC) (cc : CC)
  | loadRc (x : α) (epoch : RC) (cc : CC) (ct : U2)
  | loadFl (x : α) (epoch : RC) (cc : CC) (ct : U2) (rc : RC)
  | casRc (x : α) (epoch : RC) (cc : CC) (ct : U2) (rc : RC)
  | casEpoch (x : α) (epoch : RC) (cc : CC) (ct : U2)
  | storeCt (x : α) (cc : CC) (ct : U2)
  | writeData (x : α) (ct : U2)
  | storeFl (ct : U2)

/-- `seen` is the number of updates of `rc_` before this producer's last load of it,
`idx` the number of claims before its last load of `ct_`. -/
structure Producer (α : Type) where
  pc : ProdPc α
  seen : Nat
  idx : Nat

/-- `claimed` counts the stores of `ct_`, `upd` the updates of each `rc_`, and `marked`
is the producer that marked the slot of the next index, with its connection word. -/
structure Mem (α : Type) where
  q : Queue α
  claimed : Nat
  upd : BitVec 8 → Nat
  marked : Option (Nat × CC)

structure St (α : Type) where
  mem : Mem α
  cc : CC
  prod : Nat → Producer α
  recv : Fin 32 → Recv

inductive Act (α : Type) where
  | push (p : Nat) (x : α)
  | prod (p : Nat) (ok : Bool)
  | setBit (r : Fin 32)
  | readCursor (r : Fin 32)
  | pop (r : Fin 32)

variable {α : Type}

def St.init [Inhabited α] : St α where
  mem := ⟨.init, 0, fun _ => 0, none⟩
  cc := 0
  prod := fun _ => ⟨.idle, 0, 0⟩
  recv := fun _ => .absent

def St.setProd (s : St α) (p : Nat) (c : Producer α) : St α :=
  { s with prod := Function.update s.prod p c }

def St.setRecv (s : St α) (r : Fin 32) (c : Recv) : St α :=
  { s with recv := Function.update s.recv r c }

/-- An update of `rc_`. -/
def Mem.setRc (m : Mem α) (σ : BitVec 8) (rc : RC) : Mem α :=
  { m with q := m.q.setRc σ rc, upd := Function.update m.upd σ (m.upd σ + 1) }

/-- The accesses of `push`; `ok` is false where a weak compare-exchange fails
spuriously. -/
def stepProd (s : St α) (p : Nat) (ok : Bool) : Option (St α) :=
  let c := s.prod p
  let m := s.mem
  let goto (pc : ProdPc α) : St α := s.setProd p { c with pc := pc }
  match c.pc with
  | .idle => none
  | .loadEpoch x => some (goto (.loadCc x m.q.epoch))
  | .loadCc x epoch => some (goto (if s.cc = 0 then .idle else .loadCt x epoch s.cc))
  | .loadCt x epoch cc =>
    some (s.setProd p { c with pc := .loadRc x epoch cc m.q.ct, idx := m.claimed })
  | .loadRc x epoch cc ct =>
    let rc := (m.q.elems (indexOf ct)).rc
    let pc := if blocked cc rc epoch then .idle
      else if pend (rc &&& rcMask) = 0 then .loadFl x epoch cc ct rc
      else .casRc x epoch cc ct rc
    some (s.setProd p { c with pc := pc, seen := m.upd (indexOf ct) })
  | .loadFl x epoch cc ct rc =>
    some (goto (if occupied ct (m.q.elems (indexOf ct)).fCt then .idle
      else .casRc x epoch cc ct rc))
  | .casRc x epoch cc ct rc =>
    if ok ∧ (m.q.elems (indexOf ct)).rc = rc then
      let m := { m.setRc (indexOf ct) (mark epoch rc cc) with marked := some (p, cc) }
      some ({ s with mem := m }.setProd p { c with pc := .casEpoch x epoch cc ct })
    else some (goto (.loadCc x epoch))
  | .casEpoch x epoch cc ct =>
    -- the slot stays marked when this one fails
    some (goto (if ok ∧ m.q.epoch = epoch then .storeCt x cc ct else .loadCc x m.q.epoch))
  | .storeCt x _ ct =>
    let m := { m with q := m.q.setCt (ct + 1), claimed := m.claimed + 1, marked := none }
    some ({ s with mem := m }.setProd p { c with pc := .writeData x ct })
  | .writeData x ct =>
    some ({ s with mem := { m with q := m.q.setData (indexOf ct) x } }.setProd
      p { c with pc := .storeFl ct })
  | .storeFl ct =>
    some ({ s with mem := { m with q := m.q.setFl (indexOf ct) (committed ct) } }.setProd
      p { c with pc := .idle })

def step (s : St α) : Act α → Option (St α)
  | .push p x => match (s.prod p).pc with
    | .idle => some (s.setProd p { s.prod p with pc := .loadEpoch x })
    | _ => none
  | .prod p ok => stepProd s p ok
  | .setBit r =>
    if (Receivers.connect s.cc).2 = idOf r then
      some { s.setRecv r .joining with cc := (Receivers.connect s.cc).1 }
    else none
  | .readCursor r => match s.recv r with
    | .joining => some (s.setRecv r (.joined s.mem.q.cursor s.mem.claimed))
    | _ => none
  | .pop r => match s.recv r with
    | .joined cur pos => match s.mem.q.pop (idOf r) cur with
      | some (_, _, q) =>
        let σ := indexOf cur
        -- a slot without pending bits is left without an update
        let n := if (s.mem.q.elems σ).rc &&& rcMask = 0 then s.mem.upd σ else s.mem.upd σ + 1
        some { s.setRecv r (.joined (cur + 1) (pos + 1)) with
          mem := { s.mem with q := q, upd := Function.update s.mem.upd σ n } }
      | none => some s
    | _ => none

/-- At an access of `push`, as on a route. Besides, no exchange of `epoch_` fails, and
a compare-exchange of `rc_` succeeds only while the counter inside the word shows its
updates and the index loaded has not come round. -/
def ApartAt (s : St α) (c : Producer α) (ok : Bool) : ProdPc α → Prop
  | .casRc _ _ cc ct rc => ok = true → (s.mem.q.elems (indexOf ct)).rc = rc →
    (∀ r, (s.recv r).isJoined = true → Conn cc r) ∧
    s.mem.upd (indexOf ct) < c.seen + 2 ^ 24 ∧ s.mem.claimed + 256 ≤ c.idx + 2 ^ 32
  | .casEpoch .. => ok = true
  | .storeCt _ cc _ => ∀ r, s.recv r = .joining → ¬ Conn cc r
  | _ => True

/-- The steps of a connect and those of a push do not enclose one another. -/
def Apart (s : St α) : Act α → Prop
  | .prod p ok => ApartAt s (s.prod p) ok (s.prod p).pc
  | .readCursor r => ∀ m, s.mem.marked = some m → Conn m.2 r
  | _ => True

instance (s : St α) (c : Producer α) (ok : Bool) : (pc : ProdPc α) → Decidable (ApartAt s c ok pc)
  | .casRc _ _ cc ct rc => inferInstanceAs (Decidable (ok = true →
    (s.mem.q.elems (indexOf ct)).rc = rc → (∀ r, (s.recv r).isJoined = true → Conn cc r) ∧
      s.mem.upd (indexOf ct) < c.seen + 2 ^ 24 ∧ s.mem.claimed + 256 ≤ c.idx + 2 ^ 32))
  | .casEpoch .. => inferInstanceAs (Decidable (ok = true))
  | .storeCt _ cc _ => inferInstanceAs (Decidable (∀ r, s.recv r = .joining → ¬ Conn cc r))
  | .idle | .loadEpoch _ | .loadCc _ _ | .loadCt _ _ _ | .loadRc _ _ _ _ | .loadFl _ _ _ _ _
  | .writeData _ _ | .storeFl _ => isTrue trivial

instance (s : St α) : (a : Act α) → Decidable (Apart s a)
  | .prod p ok => inferInstanceAs (Decidable (ApartAt s (s.prod p) ok (s.prod p).pc))
  | .readCursor r => match h : s.mem.marked with
    | none => isTrue fun _ hm => nomatch h.symm.trans hm
    | some m => decidable_of_iff (Conn m.2 r)
      ⟨fun hr _ hm => Option.some.inj (h.symm.trans hm) ▸ hr, fun ha => ha m h⟩
  | .push _ _ | .setBit _ | .pop _ => isTrue trivial

/-- While no push is in progress, a connected receiver is pending in the slots of
exactly the messages it has not read. -/
def Guards (s : St α) : Prop :=
  (∀ p, (s.prod p).pc = .idle) → s.mem.q.ct = BitVec.ofNat 32 s.mem.claimed ∧
    ∀ r cur pos, s.recv r = .joined cur pos →
      cur = BitVec.ofNat 32 pos ∧ pos ≤ s.mem.claimed ∧ s.mem.claimed ≤ pos + 256 ∧
      ∀ m, m < s.mem.claimed → s.mem.claimed ≤ m + 256 →
        (Conn (pend (s.mem.q.elems (slot 8 m)).rc) r ↔ pos ≤ m)

/-! ## The invariant -/

/-- The receivers that a push has marked its slot for, until it stores `ct_`. -/
def ProdPc.marking : ProdPc α → Option CC
  | .casEpoch _ _ cc _ | .storeCt _ cc _ => some cc
  | _ => none

/-- The index whose data or flag the producer is about to write. -/
def Producer.writing (c : Producer α) : Option Nat :=
  match c.pc with
  | .writeData .. | .storeFl _ => some c.idx
  | _ => none

/-- The value of `cc_` that a push works with. -/
def ProdPc.loaded : ProdPc α → Option CC
  | .loadCt _ _ cc | .loadRc _ _ cc _ | .loadFl _ _ cc _ _ | .casRc _ _ cc _ _
  | .casEpoch _ _ cc _ | .storeCt _ cc _ => some cc
  | _ => none

def St.board (s : St α) : Board 8 (Fin 32) where
  pending := fun σ r => Conn (pend (s.mem.q.elems σ).rc) r
  index := s.mem.claimed
  mark := s.mem.marked.map fun m r => Conn m.2 r
  status := fun r => (s.recv r).status

/-- What a producer knows after its load of `rc_`. -/
structure Loaded (m : Mem α) (c : Producer α) (epoch : RC) (ct : U2) (rc : RC) : Prop where
  epoch0 : epoch = 0
  ct : ct = BitVec.ofNat 32 c.idx
  le : c.idx ≤ m.claimed
  count : ReadCounter.Channel.count rc = BitVec.ofNat 24 c.seen
  since : c.seen ≤ m.upd (slot 8 c.idx)
  same : m.upd (slot 8 c.idx) = c.seen → (m.q.elems (slot 8 c.idx)).rc = rc

/-- After the load of the flag, an unchanged update count means that the index is
still the next one. -/
def ProdOk (m : Mem α) (c : Producer α) : Prop :=
  match c.pc with
  | .idle | .loadEpoch _ => True
  | .loadCc _ epoch | .loadCt _ epoch _ => epoch = 0
  | .loadRc _ epoch _ ct => epoch = 0 ∧ ct = BitVec.ofNat 32 c.idx ∧ c.idx ≤ m.claimed
  | .loadFl _ epoch _ ct rc => Loaded m c epoch ct rc ∧ pend rc = 0
  | .casRc _ epoch cc ct rc => Loaded m c epoch ct rc ∧ cc &&& pend rc = 0 ∧
    (pend rc = 0 → m.upd (slot 8 c.idx) = c.seen → m.claimed + 256 ≤ c.idx + 2 ^ 32 →
      m.marked = none ∧ m.claimed = c.idx)
  | .casEpoch _ epoch _ ct => epoch = 0 ∧ ct = BitVec.ofNat 32 c.idx ∧ c.idx = m.claimed
  | .storeCt _ _ ct => ct = BitVec.ofNat 32 c.idx ∧ c.idx = m.claimed
  | .writeData _ ct | .storeFl ct => ct = BitVec.ofNat 32 c.idx

structure MemOk (m : Mem α) : Prop where
  ct : m.q.ct = BitVec.ofNat 32 m.claimed
  epoch : m.q.epoch = 0
  tag : ∀ σ, (m.q.elems σ).rc &&& ~~~epMask = 0
  count : ∀ σ, ReadCounter.Channel.count (m.q.elems σ).rc = BitVec.ofNat 24 (m.upd σ)
  /-- The last reader of an index has left its flag. -/
  free : ∀ i, i < m.claimed → m.claimed ≤ i + 256 → pend (m.q.elems (slot 8 i)).rc = 0 →
    (m.q.elems (slot 8 i)).fCt = freed (BitVec.ofNat 32 (i + 1))

/-- Somebody has yet to read index `i`. -/
def St.Wanted (s : St α) (i : Nat) : Prop := ∃ r cur pos, s.recv r = .joined cur pos ∧ pos ≤ i

/-- A commit flag is the one of an index that is written and has yet to be read. -/
def St.FlagOk (s : St α) (σ : BitVec 8) : Prop :=
  (∀ ct, (s.mem.q.elems σ).fCt ≠ committed ct) ∨ ∃ i, i < s.mem.claimed ∧
    s.mem.claimed ≤ i + 256 ∧ slot 8 i = σ ∧
    (s.mem.q.elems σ).fCt = committed (BitVec.ofNat 32 i) ∧ s.Wanted i ∧ ∀ p, (s.prod p).writing ≠ some i

structure Inv (s : St α) : Prop where
  mem : MemOk s.mem
  recvs : RecvsOk s.cc s.recv
  /-- Bit 0 is the first one given out, and is never given back. -/
  first : s.cc = 0 ∨ Conn s.cc 0
  loaded : ∀ p cc, (s.prod p).pc.loaded = some cc → Conn cc 0 ∧ ∀ r, Conn cc r → Conn s.cc r
  prodOk : ∀ p, ProdOk s.mem (s.prod p)
  marking : ∀ p cc, (s.prod p).pc.marking = some cc ↔ s.mem.marked = some (p, cc)
  writes : ∀ p p' i, (s.prod p).writing = some i → (s.prod p').writing = some i → p = p'
  writing : ∀ p i, (s.prod p).writing = some i → i < s.mem.claimed ∧ s.Wanted i
  flags : ∀ σ, s.FlagOk σ
  board : s.board.Ok

theorem init_inv [Inhabited α] : Inv (St.init (α := α)) where
  mem :=
    { ct := rfl
      epoch := rfl
      tag := fun σ => by simp [St.init, Queue.init]
      count := fun σ => by simp [St.init, Queue.init, ReadCounter.Channel.count]
      free := fun i h => absurd h (Nat.not_lt_zero i) }
  recvs := ⟨fun r => by simp [St.init], fun _ _ _ h => by cases h⟩
  first := .inl rfl
  loaded := fun _ _ h => by cases h
  prodOk := fun _ => trivial
  marking := fun p cc => by simp [St.init, ProdPc.marking]
  writes := fun _ _ _ h => by cases h
  writing := fun _ _ h => by cases h
  flags := fun σ => .inl fun ct => (committed_ne_zero ct).symm
  board :=
    { absent := fun r _ =>
        ⟨fun σ h => by simp [St.board, St.init, Queue.init, pend, Conn] at h, fun _ h => by cases h⟩
      joining := fun _ h => by cases h
      joined := fun _ _ h => by cases h }

/-! ## What a step leaves alone -/

section Frame
variable {s : St α} {m : Mem α} {p : Nat} {c : Producer α}

@[simp] theorem setProd_self : (s.setProd p c).prod p = c := Function.update_self ..

@[simp] theorem setProd_of_ne {p' : Nat} (h : p' ≠ p) : (s.setProd p c).prod p' = s.prod p' :=
  Function.update_of_ne h _ _

/-- A producer does not notice a step of somebody else. -/
theorem ProdOk.frame {m' : Mem α} (h : ProdOk m c) (hclaimed : m.claimed ≤ m'.claimed)
    (hupd : ∀ σ, m.upd σ ≤ m'.upd σ)
    (hrc : ∀ σ, m'.upd σ = m.upd σ → (m'.q.elems σ).rc = (m.q.elems σ).rc)
    (hnext : ∀ i, m'.upd (slot 8 i) = m.upd (slot 8 i) → m.marked = none → m.claimed = i →
      m'.marked = none ∧ m'.claimed = i)
    (hmark : c.pc.marking ≠ none → m'.claimed = m.claimed) : ProdOk m' c := by
  have hsame : c.seen ≤ m.upd (slot 8 c.idx) → m'.upd (slot 8 c.idx) = c.seen →
      m'.upd (slot 8 c.idx) = m.upd (slot 8 c.idx) := by
    intro h₁ h₂
    have := hupd (slot 8 c.idx)
    omega
  have hload : ∀ {epoch ct rc}, Loaded m c epoch ct rc → Loaded m' c epoch ct rc := by
    intro epoch ct rc hl
    refine { hl with le := Nat.le_trans hl.le hclaimed, since := ?_, same := ?_ }
    · exact Nat.le_trans hl.since (hupd _)
    · intro he
      have hu := hsame hl.since he
      rw [hrc _ hu]
      exact hl.same (hu.symm.trans he)
  unfold ProdOk at h ⊢
  cases hpc : c.pc with
  | idle | loadEpoch _ => trivial
  | loadCc _ _ | loadCt _ _ _ => simpa only [hpc] using h
  | loadRc _ _ _ ct =>
    simp only [hpc] at h
    exact ⟨h.1, h.2.1, Nat.le_trans h.2.2 hclaimed⟩
  | loadFl _ _ _ _ _ =>
    simp only [hpc] at h
    exact ⟨hload h.1, h.2⟩
  | casRc _ _ _ _ _ =>
    simp only [hpc] at h
    refine ⟨hload h.1, h.2.1, fun h0 he hle => ?_⟩
    have hu := hsame h.1.since he
    obtain ⟨hn, hc⟩ := h.2.2 h0 (hu.symm.trans he) (by omega)
    exact hnext _ hu hn hc
  | casEpoch _ _ _ _ =>
    simp only [hpc] at h
    exact ⟨h.1, h.2.1, h.2.2.trans (hmark (by simp [hpc, ProdPc.marking])).symm⟩
  | storeCt _ _ _ =>
    simp only [hpc] at h
    exact ⟨h.1, h.2.trans (hmark (by simp [hpc, ProdPc.marking])).symm⟩
  | writeData _ _ | storeFl _ => simpa only [hpc] using h

/-- A step of producer `p`, which leaves the memory `m`. -/
theorem Inv.ofProd (hi : Inv s) (hmem : MemOk m) (hclaimed : s.mem.claimed ≤ m.claimed)
    (hload : ∀ cc, c.pc.loaded = some cc → Conn cc 0 ∧ ∀ r, Conn cc r → Conn s.cc r)
    (hown : ProdOk m c) (hother : ∀ p', p' ≠ p → ProdOk m (s.prod p'))
    (hmark : ∀ cc, c.pc.marking = some cc ↔ m.marked = some (p, cc))
    (hmark' : ∀ p' cc, p' ≠ p → ((s.prod p').pc.marking = some cc ↔ m.marked = some (p', cc)))
    (hwrite : ∀ i, c.writing = some i →
      (i < m.claimed ∧ s.Wanted i) ∧ ∀ p', p' ≠ p → (s.prod p').writing ≠ some i)
    (hflags : ∀ σ, (({ s with mem := m } : St α).setProd p c).FlagOk σ)
    (hboard : ({ s with mem := m } : St α).board.Ok) :
    Inv ({ s with mem := m }.setProd p c) := by
  refine { hi with
    mem := hmem, loaded := ?_, prodOk := ?_, marking := ?_, writes := ?_, writing := ?_
    flags := hflags, board := hboard }
  · intro p' cc
    by_cases he : p' = p
    · subst he; rw [setProd_self]; exact hload cc
    · rw [setProd_of_ne he]; exact hi.loaded p' cc
  · intro p'
    by_cases he : p' = p
    · subst he; rw [setProd_self]; exact hown
    · rw [setProd_of_ne he]; exact hother p' he
  · intro p' cc
    by_cases he : p' = p
    · subst he; rw [setProd_self]; exact hmark cc
    · rw [setProd_of_ne he]; exact hmark' p' cc he
  · intro p₁ p₂ i
    by_cases h₁ : p₁ = p <;> by_cases h₂ : p₂ = p
    · intro _ _; rw [h₁, h₂]
    · subst h₁
      rw [setProd_self, setProd_of_ne h₂]
      exact fun hw hw' => absurd hw' ((hwrite i hw).2 p₂ h₂)
    · subst h₂
      rw [setProd_self, setProd_of_ne h₁]
      exact fun hw hw' => absurd hw ((hwrite i hw').2 p₁ h₁)
    · rw [setProd_of_ne h₁, setProd_of_ne h₂]
      exact hi.writes p₁ p₂ i
  · intro p' i
    by_cases he : p' = p
    · subst he; rw [setProd_self]; exact fun hw => (hwrite i hw).1
    · rw [setProd_of_ne he]
      intro hw
      obtain ⟨hlt, hwant⟩ := hi.writing p' i hw
      exact ⟨Nat.lt_of_lt_of_le hlt hclaimed, hwant⟩

/-- A flag that stays, of an index that the producer does not begin to write. -/
theorem St.FlagOk.setProd {σ : BitVec 8} (h : s.FlagOk σ) (hclaimed : m.claimed = s.mem.claimed)
    (hfl : (m.q.elems σ).fCt = (s.mem.q.elems σ).fCt)
    (hw : ∀ i, c.writing = some i → (s.prod p).writing = some i) :
    (({ s with mem := m } : St α).setProd p c).FlagOk σ := by
  obtain hno | ⟨i, hlt, hlap, hσ, hfi, hwant, hnot⟩ := h
  · exact .inl fun ct => by
      show (m.q.elems σ).fCt ≠ committed ct
      rw [hfl]
      exact hno ct
  · refine .inr ⟨i, hclaimed ▸ hlt, hclaimed ▸ hlap, hσ, hfl.trans hfi, hwant, fun p' => ?_⟩
    by_cases he : p' = p
    · subst he
      rw [setProd_self]
      exact fun h => hnot p' (hw i h)
    · rw [setProd_of_ne he]
      exact hnot p'

/-- A step of producer `p` that touches no memory. -/
theorem Inv.prodLocal (hi : Inv s)
    (hload : ∀ cc, c.pc.loaded = some cc → Conn cc 0 ∧ ∀ r, Conn cc r → Conn s.cc r)
    (hown : ProdOk s.mem c) (hmark : c.pc.marking = (s.prod p).pc.marking)
    (hwrite : c.writing = none) : Inv (s.setProd p c) :=
  hi.ofProd hi.mem (Nat.le_refl _) hload hown (fun p' _ => hi.prodOk p')
    (fun cc => by rw [hmark]; exact hi.marking p cc) (fun p' cc _ => hi.marking p' cc)
    (fun i h => by rw [hwrite] at h; cases h)
    (fun σ => (hi.flags σ).setProd rfl rfl fun i h => by rw [hwrite] at h; cases h) hi.board

end Frame

/-! ## What the board says -/

section Steps
variable {s t : St α} {p : Nat} {r : Fin 32}

theorem loaded_of_marking {pc : ProdPc α} {cc : CC} (h : pc.marking = some cc) :
    pc.loaded = some cc := by
  cases pc with
  | casEpoch _ _ _ _ | storeCt _ _ _ => exact h
  | _ => cases h

/-- The slot of the next index, once marked, is pending for everybody it was marked for. -/
theorem Inv.pending_of_marked (hi : Inv s) {cc : CC} (hm : s.mem.marked = some (p, cc))
    (hr : Conn cc r) : Conn (pend (s.mem.q.elems (slot 8 s.mem.claimed)).rc) r := by
  have hmark : s.board.mark = some fun r => Conn cc r := by simp [St.board, hm]
  cases hst : s.board.status r with
  | absent => exact absurd hr ((hi.board.absent r hst).2 _ hmark)
  | joining => exact (hi.board.joining r hst _).mpr ⟨_, hmark, hr, rfl⟩
  | joined pos =>
    obtain ⟨hle, -, -, hown⟩ := hi.board.joined r pos hst
    refine (hown _).mpr ⟨s.mem.claimed, hle, ?_, rfl⟩
    rw [Lib.Joining.top_of_mark hmark]
    exact Nat.lt_succ_self _

theorem Inv.first_of_marked (hi : Inv s) {cc : CC} (hm : s.mem.marked = some (p, cc)) :
    Conn cc 0 := (hi.loaded p cc (loaded_of_marking ((hi.marking p cc).mpr hm))).1

/-- A marked index somebody has yet to read is in the ring, and its slot is pending. -/
theorem Inv.wanted (hi : Inv s) {i : Nat} (hw : s.Wanted i) :
    s.board.top ≤ i + 256 ∧ (i < s.mem.claimed → pend (s.mem.q.elems (slot 8 i)).rc ≠ 0) := by
  obtain ⟨r, cur, pos, hr, hle⟩ := hw
  obtain ⟨-, hroom, -, hown⟩ := hi.board.joined r pos (congrArg Recv.status hr)
  refine ⟨by omega, fun hlt h0 => ?_⟩
  have hbit : Conn (pend (s.mem.q.elems (slot 8 i)).rc) r :=
    (hown _).mpr ⟨i, hle, Nat.lt_of_lt_of_le hlt s.board.index_le_top, rfl⟩
  exact not_conn_zero r (h0 ▸ hbit)

/-- A free slot whose flag lets an index pass belongs to the next index. -/
theorem Inv.next (hi : Inv s) {i : Nat} (hle : i ≤ s.mem.claimed)
    (hage : s.mem.claimed + 256 ≤ i + 2 ^ 32) (h0 : pend (s.mem.q.elems (slot 8 i)).rc = 0)
    (hfl : occupied (BitVec.ofNat 32 i) (s.mem.q.elems (slot 8 i)).fCt = false) :
    s.mem.marked = none ∧ s.mem.claimed = i := by
  have heq : s.mem.claimed = i := by
    obtain ⟨j, hcl, hj, hs⟩ | ⟨j, hcl, hlap, hs⟩ := Lib.Window.slot_cases s.mem.claimed (slot 8 i)
    · have := Lib.Window.eq_of_slot_eq hs (by omega) (by omega)
      omega
    · have hfree := hi.mem.free j hcl hlap (by rw [hs]; exact h0)
      rw [hs] at hfree
      rw [hfree] at hfl
      have hflag : freed (BitVec.ofNat 32 (j + 1)) = (BitVec.ofNat 32 i).setWidth 64 := by
        by_contra hne
        have hz : freed (BitVec.ofNat 32 (j + 1)) = 0 := by
          simpa [occupied, hne] using hfl
        have := congrArg BitVec.toNat hz
        rw [freed_toNat] at this
        simp at this
      have hn := congrArg BitVec.toNat hflag
      rw [freed_toNat, BitVec.toNat_setWidth, BitVec.toNat_ofNat, BitVec.toNat_ofNat] at hn
      omega
  refine ⟨?_, heq⟩
  cases hm : s.mem.marked with
  | none => rfl
  | some m =>
    have hbit := hi.pending_of_marked hm (hi.first_of_marked hm)
    rw [heq, h0] at hbit
    exact absurd hbit (not_conn_zero 0)

/-- What a compare-exchange of a push that knows everybody finds free for its own
receivers is free for all. -/
theorem Inv.clear (hi : Inv s) {cc : CC} {σ : BitVec 8} (h0 : Conn cc 0)
    (hall : ∀ r, (s.recv r).isJoined = true → Conn cc r)
    (hcc : cc &&& pend (s.mem.q.elems σ).rc = 0) : pend (s.mem.q.elems σ).rc = 0 := by
  by_contra hne
  obtain ⟨r, hr⟩ := exists_conn hne
  cases hst : s.board.status r with
  | absent => exact (hi.board.absent r hst).1 σ hr
  | joining =>
    obtain ⟨c, hm, -, hσ⟩ := (hi.board.joining r hst σ).mp hr
    obtain ⟨m, hm, -⟩ := Option.map_eq_some_iff.mp hm
    -- both words have bit 0, which is pending where the other push marked
    have hbit := hi.pending_of_marked hm (hi.first_of_marked hm)
    exact not_conn_of_and hcc h0 (hσ ▸ hbit)
  | joined pos =>
    obtain ⟨cur, hrecv⟩ := Recv.status_eq_joined hst
    exact not_conn_of_and hcc (hall r (by rw [hrecv]; rfl)) hr

/-! ## The steps that write -/

@[simp] theorem Mem.setRc_rc (m : Mem α) (σ τ : BitVec 8) (rc : RC) :
    ((m.setRc σ rc).q.elems τ).rc = if τ = σ then rc else (m.q.elems τ).rc :=
  Channel.setRc_rc m.q σ τ rc

theorem Mem.setRc_upd (m : Mem α) (σ τ : BitVec 8) (rc : RC) :
    (m.setRc σ rc).upd τ = if τ = σ then m.upd τ + 1 else m.upd τ := by
  unfold Mem.setRc
  dsimp only
  rw [Function.update_apply]
  split
  · rename_i he; rw [he]
  · rfl

/-- The compare-exchange of `push`. An unchanged word means an unchanged update
count, so what the producer saw is still true: the slot is free and is the next. -/
theorem Inv.mark (hi : Inv s) {x : α} {epoch : RC} {cc : CC} {ct : U2} {rc : RC}
    (hp : (s.prod p).pc = .casRc x epoch cc ct rc) (hrc : (s.mem.q.elems (indexOf ct)).rc = rc)
    (hall : ∀ r, (s.recv r).isJoined = true → Conn cc r)
    (hupd : s.mem.upd (indexOf ct) < (s.prod p).seen + 2 ^ 24)
    (hage : s.mem.claimed + 256 ≤ (s.prod p).idx + 2 ^ 32) :
    Inv ({ s with mem :=
      { s.mem.setRc (indexOf ct) (mark epoch rc cc) with marked := some (p, cc) } }.setProd
        p { s.prod p with pc := .casEpoch x epoch cc ct }) := by
  have hok := hi.prodOk p
  simp only [ProdOk, hp] at hok
  obtain ⟨hl, hcc, hnext⟩ := hok
  obtain ⟨rfl, rfl⟩ := And.intro hl.epoch0 hl.ct
  obtain ⟨h0, hsub⟩ := hi.loaded p cc (by rw [hp]; rfl)
  have hσ : indexOf (BitVec.ofNat 32 (s.prod p).idx) = slot 8 (s.prod p).idx := indexOf_ofNat _
  rw [hσ] at hrc hupd ⊢
  have hsame : s.mem.upd (slot 8 (s.prod p).idx) = (s.prod p).seen := by
    have h := hl.count
    rw [← hrc, hi.mem.count, ← BitVec.toNat_inj, BitVec.toNat_ofNat, BitVec.toNat_ofNat] at h
    have := hl.since
    omega
  have hclear := hi.clear h0 hall (hrc ▸ hcc)
  obtain ⟨hnone, hidx⟩ := hnext (hrc ▸ hclear) hsame hage
  rw [← hidx] at hrc hclear ⊢
  have hne : cc ≠ 0 := fun h => not_conn_zero 0 (h ▸ h0)
  have hmark : s.board.mark = none := by simp [St.board, hnone]
  have hupd' := fun τ =>
    s.mem.setRc_upd (slot 8 s.mem.claimed) τ (ReadCounter.Channel.mark 0 rc cc)
  refine hi.ofProd ?_ (Nat.le_refl _) (fun c hc => ?_) ⟨rfl, by rw [hidx], hidx.symm⟩ ?_ ?_ ?_ ?_ ?_ ?_
  · refine { hi.mem with tag := ?_, count := ?_, free := ?_ }
    · intro σ
      rw [Mem.setRc_rc]
      split
      · exact tag_mark rc cc (by decide)
      · exact hi.mem.tag σ
    · intro σ
      rw [Mem.setRc_rc, hupd']
      split
      · rename_i he
        rw [count_mark rc cc (by decide), ← hrc, hi.mem.count, he, ← BitVec.ofNat_add_ofNat]
      · exact hi.mem.count σ
    · intro i hlt hlap hpend
      rw [Mem.setRc_rc] at hpend
      split at hpend
      · rw [pend_mark] at hpend
        exact absurd hpend hne
      · exact (setRc_fCt ..).trans (hi.mem.free i hlt hlap hpend)
  · obtain rfl := Option.some.inj hc
    exact ⟨h0, hsub⟩
  · intro p' _
    refine (hi.prodOk p').frame (Nat.le_refl _) ?_ ?_ ?_ fun _ => rfl
    · intro σ
      rw [hupd']
      split <;> omega
    · intro σ
      rw [hupd', Mem.setRc_rc]
      split
      · omega
      · exact fun _ => rfl
    · rintro i hu - rfl
      rw [hupd', if_pos rfl] at hu
      omega
  · intro c
    simp [ProdPc.marking]
  · intro p' c hp'
    have hno := hi.marking p' c
    rw [hnone] at hno
    simp only [reduceCtorEq, iff_false] at hno
    simp [hno, Ne.symm hp']
  · intro i h; cases h
  · exact fun σ => (hi.flags σ).setProd rfl (setRc_fCt ..) fun i h => (nomatch h)
  · refine hi.board.place (c := fun r => Conn cc r) hmark ?_ ?_ ?_ ?_ rfl rfl rfl
    · intro r pos h
      obtain ⟨cur, hr⟩ := Recv.status_eq_joined h
      exact hall r (by rw [hr]; rfl)
    · exact fun r h hc => (hi.recvs.conns r).mp (hsub r hc) (Recv.status_eq_absent h)
    · intro r pos _ hbit
      exact not_conn_zero r (hclear ▸ hbit)
    · intro σ r
      show Conn (pend ((s.mem.setRc _ _).q.elems σ).rc) r ↔
        if σ = slot 8 s.mem.claimed then Conn cc r else Conn (pend (s.mem.q.elems σ).rc) r
      rw [Mem.setRc_rc]
      by_cases he : σ = slot 8 s.mem.claimed
      · rw [if_pos he, if_pos he, pend_mark]
      · rw [if_neg he, if_neg he]

/-- The store of `ct_`, which only the producer that marked the slot makes. The
receivers it knows have their cursors by now, and one of them has yet to read. -/
theorem Inv.advance (hi : Inv s) {x : α} {cc : CC} {ct : U2}
    (hp : (s.prod p).pc = .storeCt x cc ct) (hdone : ∀ r, s.recv r = .joining → ¬ Conn cc r) :
    Inv ({ s with mem :=
      { s.mem with q := s.mem.q.setCt (ct + 1), claimed := s.mem.claimed + 1, marked := none }
      }.setProd p { s.prod p with pc := .writeData x ct }) := by
  have hok := hi.prodOk p
  simp only [ProdOk, hp] at hok
  obtain ⟨rfl, hidx⟩ := hok
  have hm : s.mem.marked = some (p, cc) := (hi.marking p cc).mp (by rw [hp]; rfl)
  have hmark : s.board.mark = some fun r => Conn cc r := by simp [St.board, hm]
  have h0 := hi.first_of_marked hm
  have hwant : s.Wanted s.mem.claimed := by
    cases hr : s.recv 0 with
    | absent => exact absurd h0 ((hi.board.absent 0 (congrArg Recv.status hr)).2 _ hmark)
    | joining => exact absurd h0 (hdone 0 hr)
    | joined cur pos =>
      exact ⟨0, cur, pos, hr, (hi.board.joined 0 pos (congrArg Recv.status hr)).1⟩
  refine hi.ofProd ?_ (Nat.le_succ _) (fun c hc => (nomatch hc)) rfl ?_ ?_ ?_ ?_ ?_ ?_
  · refine { hi.mem with ct := ?_, free := ?_ }
    · rw [setCt_ct, hidx, ofNat_add_one]
    · intro i hlt hlap hpend
      simp only at hlt hlap
      by_cases he : i = s.mem.claimed
      · subst he
        exact absurd (hi.pending_of_marked hm h0) (hpend ▸ not_conn_zero 0)
      · exact hi.mem.free i (by omega) (by omega) hpend
  · intro p' hne
    refine (hi.prodOk p').frame (Nat.le_succ _) (fun _ => Nat.le_refl _) (fun _ _ => rfl) ?_ ?_
    · intro i _ hnone
      rw [hm] at hnone
      cases hnone
    · intro hmk
      obtain ⟨c, hc⟩ := Option.ne_none_iff_exists'.mp hmk
      have := (hi.marking p' c).mp hc
      rw [hm] at this
      exact absurd (congrArg Prod.fst (Option.some.inj this)).symm hne
  · intro c; simp [ProdPc.marking]
  · intro p' c hne
    have := hi.marking p' c
    rw [hm] at this
    simpa [Ne.symm hne] using this
  · intro i h
    obtain rfl : (s.prod p).idx = i := Option.some.inj h
    rw [hidx]
    refine ⟨⟨Nat.lt_succ_self _, hwant⟩, fun p' _ hw => ?_⟩
    exact absurd (hi.writing p' _ hw).1 (Nat.lt_irrefl _)
  · intro σ
    obtain hno | ⟨i, hlt, -, hσ, hfl, hw, hnot⟩ := hi.flags σ
    · exact .inl hno
    · have hroom := (hi.wanted hw).1
      rw [Lib.Joining.top_of_mark hmark] at hroom
      refine .inr ⟨i, Nat.lt_succ_of_lt hlt, hroom, hσ, hfl, hw, fun p' => ?_⟩
      by_cases he : p' = p
      · subst he
        rw [setProd_self]
        intro h
        obtain rfl : (s.prod p').idx = i := Option.some.inj h
        omega
      · rw [setProd_of_ne he]; exact hnot p'
  · exact hi.board.publish hmark (fun r h => hdone r (Recv.status_eq_joining h))
      (fun _ _ => Iff.rfl) rfl rfl rfl

theorem Inv.board_of_rc (hi : Inv s) {m : Mem α}
    (hrc : ∀ σ, (m.q.elems σ).rc = (s.mem.q.elems σ).rc) (hclaimed : m.claimed = s.mem.claimed)
    (hmarked : m.marked = s.mem.marked) : ({ s with mem := m } : St α).board.Ok := by
  have he : ({ s with mem := m } : St α).board = s.board := by
    simp only [St.board, hrc, hclaimed, hmarked]
  rw [he]
  exact hi.board

/-- The write of the data. -/
theorem Inv.write (hi : Inv s) {x : α} {ct : U2} (hp : (s.prod p).pc = .writeData x ct) :
    Inv ({ s with mem := { s.mem with q := s.mem.q.setData (indexOf ct) x } }.setProd
      p { s.prod p with pc := .storeFl ct }) := by
  have hok := hi.prodOk p
  simp only [ProdOk, hp] at hok
  have hw : (s.prod p).writing = some (s.prod p).idx := by simp [Producer.writing, hp]
  have hmark := hi.marking p
  rw [hp] at hmark
  refine hi.ofProd ?_ (Nat.le_refl _) (fun c hc => (nomatch hc)) hok ?_ hmark
    (fun p' c _ => hi.marking p' c) ?_ ?_ ?_
  · refine { hi.mem with tag := ?_, count := ?_, free := ?_ }
    · intro σ; rw [setData_rc]; exact hi.mem.tag σ
    · intro σ; rw [setData_rc]; exact hi.mem.count σ
    · intro i; rw [setData_rc, setData_fCt]; exact hi.mem.free i
  · intro p' _
    exact (hi.prodOk p').frame (Nat.le_refl _) (fun _ => Nat.le_refl _)
      (fun σ _ => setData_rc ..) (fun _ _ h₁ h₂ => ⟨h₁, h₂⟩) fun _ => rfl
  · intro i h
    have hw : (s.prod p).writing = some i := hw.trans h
    exact ⟨hi.writing p i hw, fun p' hne h' => hne (hi.writes p' p i h' hw)⟩
  · exact fun σ => (hi.flags σ).setProd rfl (setData_fCt ..) fun i h => hw.trans h
  · exact hi.board_of_rc (fun σ => setData_rc ..) rfl rfl

/-- The store of the commit flag: the push returns true. -/
theorem Inv.commit (hi : Inv s) {ct : U2} (hp : (s.prod p).pc = .storeFl ct) :
    Inv ({ s with mem := { s.mem with q := s.mem.q.setFl (indexOf ct) (committed ct) } }.setProd
      p { s.prod p with pc := .idle }) := by
  have hok := hi.prodOk p
  simp only [ProdOk, hp] at hok
  subst hok
  have hσ : indexOf (BitVec.ofNat 32 (s.prod p).idx) = slot 8 (s.prod p).idx := indexOf_ofNat _
  rw [hσ]
  have hw : (s.prod p).writing = some (s.prod p).idx := by simp [Producer.writing, hp]
  obtain ⟨hlt, hwant⟩ := hi.writing p _ hw
  obtain ⟨hroom, hpend⟩ := hi.wanted hwant
  have hlap := Nat.le_trans s.board.index_le_top hroom
  have hmark := hi.marking p
  rw [hp] at hmark
  refine hi.ofProd ?_ (Nat.le_refl _) (fun c hc => (nomatch hc)) trivial ?_ hmark
    (fun p' c _ => hi.marking p' c) (fun i h => (nomatch h)) ?_ ?_
  · refine { hi.mem with tag := ?_, count := ?_, free := ?_ }
    · intro σ; rw [setFl_rc]; exact hi.mem.tag σ
    · intro σ; rw [setFl_rc]; exact hi.mem.count σ
    · intro i hlt' hlap' h
      rw [setFl_rc] at h
      rw [setFl_fCt, if_neg]
      · exact hi.mem.free i hlt' hlap' h
      · exact fun he => hpend hlt (he ▸ h)
  · intro p' _
    exact (hi.prodOk p').frame (Nat.le_refl _) (fun _ => Nat.le_refl _)
      (fun σ _ => setFl_rc ..) (fun _ _ h₁ h₂ => ⟨h₁, h₂⟩) fun _ => rfl
  · intro σ
    by_cases he : σ = slot 8 (s.prod p).idx
    · refine .inr ⟨(s.prod p).idx, hlt, hlap, he.symm, ?_, hwant, fun p' h => ?_⟩
      · exact (setFl_fCt ..).trans (if_pos he)
      · by_cases hne : p' = p
        · subst hne; rw [setProd_self] at h; cases h
        · rw [setProd_of_ne hne] at h
          exact hne (hi.writes p' p _ h hw)
    · exact (hi.flags σ).setProd rfl ((setFl_fCt ..).trans (if_neg he)) fun i h => (nomatch h)
  · exact hi.board_of_rc (fun σ => setFl_rc ..) rfl rfl

theorem stepProd_inv (hi : Inv s) {ok : Bool} (ha : Apart s (.prod p ok))
    (h : stepProd s p ok = some t) : Inv t := by
  have hok := hi.prodOk p
  have hload := hi.loaded p
  unfold stepProd at h
  unfold Apart ApartAt at ha
  unfold ProdOk at hok
  cases hp : (s.prod p).pc with
  | idle => simp only [hp] at h; cases h
  | loadEpoch x =>
    simp only [hp] at h
    cases h
    exact hi.prodLocal (fun _ h => by cases h) hi.mem.epoch (by rw [hp]; rfl) rfl
  | loadCc x epoch =>
    simp only [hp] at h hok
    cases h
    split
    · exact hi.prodLocal (fun _ h => by cases h) trivial (by rw [hp]; rfl) rfl
    · rename_i hne
      refine hi.prodLocal (fun c hc => ?_) hok (by rw [hp]; rfl) rfl
      obtain rfl := Option.some.inj hc
      exact ⟨hi.first.resolve_left hne, fun _ h => h⟩
  | loadCt x epoch cc =>
    simp only [hp] at h hok hload
    cases h
    exact hi.prodLocal hload ⟨hok, hi.mem.ct, Nat.le_refl _⟩ (by rw [hp]; rfl) rfl
  | loadRc x epoch cc ct =>
    simp only [hp] at h hok hload
    cases h
    obtain ⟨rfl, rfl, hle⟩ := hok
    have hσ : indexOf (BitVec.ofNat 32 (s.prod p).idx) = slot 8 (s.prod p).idx := indexOf_ofNat _
    rw [hσ]
    have hl : Loaded s.mem { s.prod p with seen := s.mem.upd (slot 8 (s.prod p).idx) } 0
        (BitVec.ofNat 32 (s.prod p).idx) (s.mem.q.elems (slot 8 (s.prod p).idx)).rc :=
      ⟨rfl, rfl, hle, hi.mem.count _, Nat.le_refl _, fun _ => rfl⟩
    split
    · exact hi.prodLocal (fun _ h => by cases h) trivial (by rw [hp]; rfl) rfl
    · rename_i hb
      have hfree := (blocked_eq_false (hi.mem.tag _)).mp (by simpa using hb)
      split
      · rename_i h0
        rw [rcMask, pend_and_lowMask] at h0
        exact hi.prodLocal hload ⟨{ hl with }, h0⟩ (by rw [hp]; rfl) rfl
      · rename_i h0
        rw [rcMask, pend_and_lowMask] at h0
        exact hi.prodLocal hload ⟨{ hl with }, hfree, fun h => absurd h h0⟩ (by rw [hp]; rfl) rfl
  | loadFl x epoch cc ct rc =>
    simp only [hp] at h hok hload
    cases h
    obtain ⟨hl, h0⟩ := hok
    split
    · exact hi.prodLocal (fun _ h => by cases h) trivial (by rw [hp]; rfl) rfl
    · rename_i hfl
      refine hi.prodLocal hload ⟨{ hl with }, ?_, fun _ hu hage => ?_⟩ (by rw [hp]; rfl) rfl
      · rw [h0]; exact BitVec.and_zero
      · rw [hl.ct, indexOf_ofNat] at hfl
        exact hi.next hl.le hage (by rw [hl.same hu]; exact h0) (by simpa using hfl)
  | casRc x epoch cc ct rc =>
    simp only [hp] at h ha hok
    split at h
    · rename_i hc
      cases h
      obtain ⟨hall, hupd, hage⟩ := ha hc.1 hc.2
      exact hi.mark hp hc.2 hall hupd hage
    · cases h
      exact hi.prodLocal (fun _ h => by cases h) hok.1.epoch0 (by rw [hp]; rfl) rfl
  | casEpoch x epoch cc ct =>
    simp only [hp] at h ha hok hload
    rw [if_pos ⟨ha, hi.mem.epoch.trans hok.1.symm⟩] at h
    cases h
    exact hi.prodLocal hload hok.2 (by rw [hp]; rfl) rfl
  | storeCt x cc ct => simp only [hp] at h ha; cases h; exact hi.advance hp ha
  | writeData x ct => simp only [hp] at h; cases h; exact hi.write hp
  | storeFl ct => simp only [hp] at h; cases h; exact hi.commit hp

/-! ## The steps of the receivers -/

@[simp] theorem setRecv_self (c : Recv) : (s.setRecv r c).recv r = c := Function.update_self ..

@[simp] theorem setRecv_of_ne {r' : Fin 32} (h : r' ≠ r) (c : Recv) :
    (s.setRecv r c).recv r' = s.recv r' := Function.update_of_ne h _ _

/-- What is wanted stays so while a receiver connects. -/
theorem St.Wanted.setRecv {i : Nat} (hw : s.Wanted i) {c : Recv}
    (hr : ∀ cur pos, s.recv r ≠ .joined cur pos) : (s.setRecv r c).Wanted i := by
  obtain ⟨r', cur, pos, hj, hle⟩ := hw
  have hne : r' ≠ r := by rintro rfl; exact hr cur pos hj
  exact ⟨r', cur, pos, (setRecv_of_ne hne _).trans hj, hle⟩

/-- A step of a receiver that has no cursor yet. -/
theorem Inv.ofJoin (hi : Inv s) {c : Recv} {cc : CC} (hr : ∀ cur pos, s.recv r ≠ .joined cur pos)
    (hcc : ∀ r', Conn s.cc r' → Conn cc r') (hfirst : cc = 0 ∨ Conn cc 0)
    (hrecvs : RecvsOk cc (s.setRecv r c).recv) (hboard : (s.setRecv r c).board.Ok) :
    Inv { s.setRecv r c with cc := cc } := by
  refine { hi with
    recvs := hrecvs, first := hfirst, loaded := ?_, writing := ?_, flags := ?_, board := hboard }
  · intro p c' h
    obtain ⟨h0, hsub⟩ := hi.loaded p c' h
    exact ⟨h0, fun r' h => hcc r' (hsub r' h)⟩
  · intro p i h
    obtain ⟨hlt, hw⟩ := hi.writing p i h
    exact ⟨hlt, hw.setRecv hr⟩
  · intro σ
    obtain hno | ⟨i, hlt, hlap, hσ, hfl, hw, hnot⟩ := hi.flags σ
    · exact .inl hno
    · exact .inr ⟨i, hlt, hlap, hσ, hfl, hw.setRecv hr, hnot⟩

theorem Inv.setBit (hi : Inv s) (hid : (Receivers.connect s.cc).2 = idOf r) :
    Inv { s.setRecv r .joining with cc := (Receivers.connect s.cc).1 } := by
  obtain ⟨habs, hconn, hrecvs⟩ := hi.recvs.connect hid
  refine hi.ofJoin ?_ (fun r' h => (hconn r').mpr (.inl h)) (.inr ?_) hrecvs ?_
  · rw [habs]; exact fun _ _ h => nomatch h
  · obtain h0 | h0 := hi.first
    · -- nobody is connected, so this is bit 0
      have hr : r = 0 := by
        rw [h0] at hid
        exact idOf_inj (hid.symm.trans (by decide))
      exact (hconn 0).mpr (.inr hr)
    · exact (hconn 0).mpr (.inl h0)
  · refine hi.board.announce (r := r) (congrArg Recv.status habs) (fun _ _ => Iff.rfl) rfl rfl
      (congrArg Recv.status (setRecv_self _)) fun r' hne => ?_
    exact congrArg Recv.status (setRecv_of_ne hne _)

theorem Inv.readCursor (hi : Inv s) (hr : s.recv r = .joining)
    (hknown : ∀ m, s.mem.marked = some m → Conn m.2 r) :
    Inv (s.setRecv r (.joined s.mem.q.cursor s.mem.claimed)) := by
  rw [Queue.cursor, hi.mem.ct]
  have habs : s.recv r ≠ .absent := by rw [hr]; exact fun h => nomatch h
  refine hi.ofJoin ?_ (fun _ h => h) hi.first (hi.recvs.place habs s.mem.claimed) ?_
  · rw [hr]; exact fun _ _ h => nomatch h
  · refine hi.board.position (r := r) (congrArg Recv.status hr) ?_ (fun _ _ => Iff.rfl) rfl rfl
      (congrArg Recv.status (setRecv_self _)) fun r' hne => ?_
    · intro c hc
      obtain ⟨m, hm, rfl⟩ := Option.map_eq_some_iff.mp hc
      exact hknown m hm
    · exact congrArg Recv.status (setRecv_of_ne hne _)

/-- The word that a pop of receiver `r` leaves in a slot. -/
abbrev cleared (r : Fin 32) (rc : RC) : RC := incRc rc &&& ~~~(idOf r).setWidth 64

theorem pend_cleared (rc : RC) : pend (cleared r rc) = pend rc &&& ~~~idOf r := by
  rw [pend_and_not, pend_incRc]

theorem conn_cleared {r' : Fin 32} (rc : RC) :
    Conn (pend (cleared r rc)) r' ↔ Conn (pend rc) r' ∧ r' ≠ r := by
  rw [pend_cleared, Conn, Lib.Bits.getLsbD_and_not, getLsbD_idOf, Bool.and_eq_true,
    Bool.not_eq_true', decide_eq_false_iff_not]
  exact and_congr_right fun _ => ⟨fun h he => h (he ▸ rfl), fun h he => h (Fin.ext he).symm⟩

/-- What a pop of index `pos` by receiver `r` does to the memory, where `r` is
pending in the slot. -/
structure Popped (m m' : Mem α) (r : Fin 32) (pos : Nat) : Prop where
  claimed : m'.claimed = m.claimed
  marked : m'.marked = m.marked
  ct : m'.q.ct = m.q.ct
  epoch : m'.q.epoch = m.q.epoch
  rc : ∀ τ, (m'.q.elems τ).rc =
    if τ = slot 8 pos then cleared r (m.q.elems τ).rc else (m.q.elems τ).rc
  fCt : ∀ τ, (m'.q.elems τ).fCt =
    if τ = slot 8 pos ∧ pend (cleared r (m.q.elems τ).rc) = 0 then freed (BitVec.ofNat 32 (pos + 1))
    else (m.q.elems τ).fCt
  upd : ∀ τ, m'.upd τ = if τ = slot 8 pos then m.upd τ + 1 else m.upd τ

theorem pop_popped {m : Mem α} {q : Queue α} {pos n : Nat} {x : α} {last : Bool}
    (h : m.q.pop (idOf r) (BitVec.ofNat 32 pos) = some (x, last, q))
    (hbit : Conn (pend (m.q.elems (slot 8 pos)).rc) r)
    (hn : n = if (m.q.elems (slot 8 pos)).rc &&& rcMask = 0 then m.upd (slot 8 pos)
      else m.upd (slot 8 pos) + 1) :
    Popped m { m with q := q, upd := Function.update m.upd (slot 8 pos) n } r pos := by
  have hmask : ¬ (m.q.elems (slot 8 pos)).rc &&& rcMask = 0 := fun h =>
    not_conn_zero r (and_lowMask_eq_zero.mp h ▸ hbit)
  have hupd : ∀ τ, Function.update m.upd (slot 8 pos) n τ =
      if τ = slot 8 pos then m.upd τ + 1 else m.upd τ := by
    intro τ
    rw [Function.update_apply, hn, if_neg hmask]
    split
    · rename_i he; rw [he]
    · rfl
  unfold Queue.pop at h
  rw [indexOf_ofNat, ofNat_add_one] at h
  dsimp only at h
  split at h
  · cases h
  · split at h
    · rename_i h0
      have h0 : pend (cleared r (m.q.elems (slot 8 pos)).rc) = 0 := and_lowMask_eq_zero.mp h0
      cases h
      refine ⟨rfl, rfl, rfl, rfl, fun τ => ?_, fun τ => ?_, hupd⟩
      · rw [setRc_rc, setFl_rc]
        by_cases he : τ = slot 8 pos
        · rw [if_pos he, if_pos he, he]
        · rw [if_neg he, if_neg he]
      · rw [setRc_fCt, setFl_fCt]
        by_cases he : τ = slot 8 pos
        · rw [if_pos he, if_pos ⟨he, he ▸ h0⟩]
        · rw [if_neg he, if_neg fun h => he h.1]
    · rename_i h0
      have h0 : ¬ pend (cleared r (m.q.elems (slot 8 pos)).rc) = 0 := fun he =>
        h0 (and_lowMask_eq_zero.mpr he)
      cases h
      refine ⟨rfl, rfl, rfl, rfl, fun τ => ?_, fun τ => ?_, hupd⟩
      · rw [setRc_rc]
        by_cases he : τ = slot 8 pos
        · rw [if_pos he, if_pos he, he]
        · rw [if_neg he, if_neg he]
      · rw [setRc_fCt, if_neg]
        rintro ⟨rfl, he⟩
        exact h0 he

theorem MemOk.popped {m m' : Mem α} {pos : Nat} (hm : MemOk m) (h : Popped m m' r pos)
    (hlt : pos < m.claimed) (hlap : m.claimed ≤ pos + 256) : MemOk m' := by
  refine ⟨by rw [h.ct, h.claimed, hm.ct], h.epoch.trans hm.epoch, ?_, ?_, ?_⟩
  · intro τ
    rw [h.rc]
    split
    · rw [tag_clear]; exact hm.tag τ
    · exact hm.tag τ
  · intro τ
    rw [h.rc, h.upd]
    split
    · rw [count_and_not, count_incRc, hm.count, ← BitVec.ofNat_add_ofNat]
    · exact hm.count τ
  · intro i hi hi' h0
    rw [h.claimed] at hi hi'
    rw [h.rc] at h0
    rw [h.fCt]
    by_cases he : slot 8 i = slot 8 pos
    · rw [if_pos he] at h0
      obtain rfl := Lib.Window.eq_of_slot_eq he (by omega) (by omega)
      rw [if_pos ⟨rfl, h0⟩]
    · rw [if_neg he] at h0
      rw [if_neg fun h => he h.1]
      exact hm.free i hi hi' h0

/-- The index that a receiver finds committed is its own, and is written. -/
theorem Inv.found (hi : Inv s) {pos : Nat} (hr : s.recv r = .joined (BitVec.ofNat 32 pos) pos)
    (hfl : (s.mem.q.elems (slot 8 pos)).fCt = committed (BitVec.ofNat 32 pos)) :
    pos < s.mem.claimed ∧ ∀ p, (s.prod p).writing ≠ some pos := by
  obtain ⟨hle, hroom, -, -⟩ := hi.board.joined r pos (congrArg Recv.status hr)
  have hle : pos ≤ s.mem.claimed := hle
  have hroom : s.mem.claimed ≤ pos + 256 := Nat.le_trans s.board.index_le_top hroom
  obtain hno | ⟨i, hlt, hlap, -, hfi, -, hnot⟩ := hi.flags (slot 8 pos)
  · exact absurd hfl (hno _)
  · have heq : i = pos := by
      have hn := congrArg BitVec.toNat (hfi.symm.trans hfl)
      rw [committed_toNat, committed_toNat, BitVec.toNat_ofNat, BitVec.toNat_ofNat] at hn
      omega
    exact ⟨heq ▸ hlt, heq ▸ hnot⟩

/-- Whoever else is pending in the slot of an index that `r` has yet to read has yet
to read the same index. -/
theorem Inv.others (hi : Inv s) {r' : Fin 32} {cur : U2} {pos : Nat}
    (hr : s.recv r = .joined cur pos) (hlt : pos < s.mem.claimed)
    (hbit : Conn (pend (s.mem.q.elems (slot 8 pos)).rc) r') :
    ∃ cur' pos', s.recv r' = .joined cur' pos' ∧ pos' ≤ pos := by
  obtain ⟨-, hroom, -, -⟩ := hi.board.joined r pos (congrArg Recv.status hr)
  cases hst : s.board.status r' with
  | absent => exact absurd hbit ((hi.board.absent r' hst).1 _)
  | joining =>
    obtain ⟨c, hm, -, hσ⟩ := (hi.board.joining r' hst _).mp hbit
    have hσ : slot 8 pos = slot 8 s.mem.claimed := hσ
    have htop : s.mem.claimed + 1 ≤ pos + 256 := by
      rw [Lib.Joining.top_of_mark hm] at hroom
      exact hroom
    have := Lib.Window.eq_of_slot_eq hσ (by omega) (by omega)
    omega
  | joined pos' =>
    obtain ⟨cur', hr'⟩ := Recv.status_eq_joined hst
    obtain ⟨-, -, -, hown⟩ := hi.board.joined r' pos' hst
    obtain ⟨j, hle, hj, hs⟩ := (hown _).mp hbit
    refine ⟨cur', pos', hr', ?_⟩
    by_contra hc
    have := Lib.Window.eq_of_slot_eq hs (by omega) (by omega)
    omega

/-- What somebody has yet to read besides the index popped is still to be read. -/
theorem St.Wanted.pop {i pos : Nat} {cur cur' : U2} (hw : s.Wanted i) (hne : i ≠ pos)
    (hr : s.recv r = .joined cur pos) : (s.setRecv r (.joined cur' (pos + 1))).Wanted i := by
  obtain ⟨r', cur', pos', hr', hle⟩ := hw
  by_cases he : r' = r
  · subst he
    rw [hr] at hr'
    obtain ⟨-, rfl⟩ := Recv.joined.inj hr'
    exact ⟨r', _, _, setRecv_self _, by omega⟩
  · exact ⟨r', cur', pos', (setRecv_of_ne he _).trans hr', hle⟩

/-- The flags after a pop: the last reader replaces the commit flag of its index. -/
theorem Inv.flags_popped (hi : Inv s) {m : Mem α} {pos : Nat} {cur : U2}
    (hr : s.recv r = .joined (BitVec.ofNat 32 pos) pos) (hlt : pos < s.mem.claimed)
    (hnot : ∀ p, (s.prod p).writing ≠ some pos) (h : Popped s.mem m r pos)
    (hfl : (s.mem.q.elems (slot 8 pos)).fCt = committed (BitVec.ofNat 32 pos)) (τ : BitVec 8) :
    ({ s.setRecv r (.joined cur (pos + 1)) with mem := m } : St α).FlagOk τ := by
  have hlap : s.mem.claimed ≤ pos + 256 := by
    obtain ⟨-, hroom, -, -⟩ := hi.board.joined r pos (congrArg Recv.status hr)
    exact Nat.le_trans s.board.index_le_top hroom
  by_cases he : τ = slot 8 pos
  · subst he
    by_cases h0 : pend (cleared r (s.mem.q.elems (slot 8 pos)).rc) = 0
    · refine .inl fun ct => ?_
      show (m.q.elems _).fCt ≠ _
      rw [h.fCt, if_pos ⟨rfl, h0⟩]
      exact freed_ne_committed _ _
    · refine .inr ⟨pos, h.claimed ▸ hlt, h.claimed ▸ hlap, rfl, ?_, ?_, hnot⟩
      · exact (h.fCt _).trans ((if_neg fun h => h0 h.2).trans hfl)
      · obtain ⟨r', hr'⟩ := exists_conn h0
        obtain ⟨hbit, hne⟩ := (conn_cleared _).mp hr'
        obtain ⟨cur', pos', hj, hle⟩ := hi.others hr hlt hbit
        exact ⟨r', cur', pos', (setRecv_of_ne hne _).trans hj, hle⟩
  · have hsame : (m.q.elems τ).fCt = (s.mem.q.elems τ).fCt := by
      rw [h.fCt, if_neg fun h => he h.1]
    obtain hno | ⟨i, hi', hlap', hs, hfi, hw, hnot'⟩ := hi.flags τ
    · exact .inl fun ct => hsame ▸ hno ct
    · refine .inr ⟨i, h.claimed ▸ hi', h.claimed ▸ hlap', hs, hsame.trans hfi, hw.pop ?_ hr, hnot'⟩
      rintro rfl
      exact he hs.symm

theorem Inv.pop (hi : Inv s) {cur : U2} {pos n : Nat} (hr : s.recv r = .joined cur pos) {x : α}
    {last : Bool} {q : Queue α} (hpop : s.mem.q.pop (idOf r) cur = some (x, last, q))
    (hn : n = if (s.mem.q.elems (indexOf cur)).rc &&& rcMask = 0 then s.mem.upd (indexOf cur)
      else s.mem.upd (indexOf cur) + 1) :
    Inv { s.setRecv r (.joined (cur + 1) (pos + 1)) with
      mem := { s.mem with q := q, upd := Function.update s.mem.upd (indexOf cur) n } } := by
  obtain rfl := hi.recvs.cursor r cur pos hr
  have hσ : indexOf (BitVec.ofNat 32 pos) = slot 8 pos := indexOf_ofNat _
  have habs : s.recv r ≠ .absent := by rw [hr]; exact fun h => nomatch h
  have hfl : (s.mem.q.elems (slot 8 pos)).fCt = committed (BitVec.ofNat 32 pos) := by
    rw [← hσ]
    unfold Queue.pop at hpop
    dsimp only at hpop
    split at hpop
    · cases hpop
    · rename_i h; exact not_not.mp h
  obtain ⟨hlt, hnot⟩ := hi.found hr hfl
  obtain ⟨-, hroom, -, hown⟩ := hi.board.joined r pos (congrArg Recv.status hr)
  have hbit : Conn (pend (s.mem.q.elems (slot 8 pos)).rc) r :=
    (hown _).mpr ⟨pos, Nat.le_refl _, Nat.lt_of_lt_of_le hlt s.board.index_le_top, rfl⟩
  rw [hσ] at hn ⊢
  rw [ofNat_add_one]
  have h := pop_popped hpop hbit hn
  generalize ({ s.mem with q := q, upd := Function.update s.mem.upd (slot 8 pos) n } : Mem α) = m
    at h ⊢
  refine { hi with
    mem := hi.mem.popped h hlt (Nat.le_trans s.board.index_le_top hroom)
    recvs := hi.recvs.place habs (pos + 1), prodOk := ?_, marking := ?_, writing := ?_
    flags := hi.flags_popped hr hlt hnot h hfl, board := ?_ }
  · intro p
    refine (hi.prodOk p).frame (Nat.le_of_eq h.claimed.symm) ?_ ?_ ?_ fun _ => h.claimed
    · intro τ
      rw [h.upd]
      split <;> omega
    · intro τ
      rw [h.upd, h.rc]
      split
      · omega
      · exact fun _ => rfl
    · exact fun i _ h₁ h₂ => ⟨h.marked.trans h₁, h.claimed.trans h₂⟩
  · intro p cc
    show (s.prod p).pc.marking = some cc ↔ m.marked = some (p, cc)
    rw [h.marked]
    exact hi.marking p cc
  · intro p i hw
    obtain ⟨hi', hwant⟩ := hi.writing p i hw
    exact ⟨h.claimed ▸ hi', hwant.pop (fun he => hnot p (he ▸ hw)) hr⟩
  · refine hi.board.take (r := r) (congrArg Recv.status hr) hlt ?_ h.claimed ?_
      (congrArg Recv.status (setRecv_self _)) fun r' hne => ?_
    · intro τ r'
      show Conn (pend (m.q.elems τ).rc) r' ↔
        Conn (pend (s.mem.q.elems τ).rc) r' ∧ ¬ (r' = r ∧ τ = slot 8 pos)
      rw [h.rc]
      by_cases he : τ = slot 8 pos
      · rw [if_pos he, conn_cleared]
        exact and_congr_right fun _ => ⟨fun h he => h he.1, fun h hr => h ⟨hr, he⟩⟩
      · rw [if_neg he]
        exact ⟨fun h => ⟨h, fun hr => he hr.2⟩, And.left⟩
    · simp only [St.board, h.marked]
    · exact congrArg Recv.status (setRecv_of_ne hne _)

theorem step_inv {a : Act α} (hi : Inv s) (ha : Apart s a) (h : step s a = some t) : Inv t := by
  cases a with
  | push p x =>
    simp only [step] at h
    split at h
    · rename_i hp
      cases h
      exact hi.prodLocal (fun _ h => nomatch h) trivial (by rw [hp]; rfl) rfl
    · cases h
  | prod p ok => exact stepProd_inv hi ha h
  | setBit r =>
    simp only [step] at h
    split at h
    · rename_i hid; cases h; exact hi.setBit hid
    · cases h
  | readCursor r =>
    simp only [step] at h
    split at h
    · rename_i hr; cases h; exact hi.readCursor hr ha
    · cases h
  | pop r =>
    simp only [step] at h
    split at h
    · rename_i cur pos hr
      split at h
      · rename_i hpop; cases h; exact hi.pop hr hpop rfl
      · cases h; exact hi
    · cases h

theorem Inv.guards (hi : Inv s) : Guards s := by
  intro hp
  have hnone : s.mem.marked = none := by
    cases hm : s.mem.marked with
    | none => rfl
    | some m =>
      have := (hi.marking m.1 m.2).mpr hm
      rw [hp] at this
      cases this
  have hm : s.board.mark = none := by simp [St.board, hnone]
  refine ⟨hi.mem.ct, fun r cur pos hr => ?_⟩
  have hst : s.board.status r = .joined pos := congrArg Recv.status hr
  obtain ⟨hle, hroom, -, -⟩ := hi.board.joined r pos hst
  rw [Lib.Joining.top_of_none hm] at hroom
  exact ⟨hi.recvs.cursor r cur pos hr, hle, hroom, fun m hlt hlap =>
    hi.board.pending_iff hm hst hlt hlap⟩

/-- Every run of the producers and the receivers that keeps connects and pushes apart. -/
theorem guards_of_run [Inhabited α] {acts : List (Act α)} (hr : run step St.init acts = some s)
    (hm : Meets step Apart St.init acts) : Guards s :=
  (Lib.Runs.run_invariant (fun _ _ _ hi ha h => step_inv hi ha h) init_inv hr hm).guards

end Steps

/-! ## Both policies -/

/-- On a route and on a channel: where connects and pushes are kept apart, a receiver
whose connect has finished is pending in exactly the messages it has not read. -/
theorem guards_of_apart [Inhabited α] :
    (∀ acts (s : RouteJoin.St α), run RouteJoin.step .init acts = some s →
      Meets RouteJoin.step RouteJoin.Apart .init acts → RouteJoin.Guards s) ∧
    ∀ acts (s : St α), run step .init acts = some s → Meets step Apart .init acts → Guards s :=
  ⟨fun _ _ hr hm => RouteJoin.guards_of_run hr hm, fun _ _ hr hm => guards_of_run hr hm⟩

/-- A push of the route's producer, from the call to its return. -/
def routePush (x : Nat) : List (RouteJoin.Act Nat) :=
  .push x :: List.replicate 6 (.prod true)

/-- A push of producer `p` through a slot that was not used yet. -/
def channelPush (p x : Nat) : List (Act Nat) :=
  .push p x :: List.replicate 10 (.prod p true)

-- for the numerals in the runs below
local instance neZero_ccBits : NeZero 32 := ⟨by decide⟩

/-- The second receiver connects after the first message; the first reads it. -/
def routeApart : List (RouteJoin.Act Nat) :=
  [.setBit 0, .readCursor 0] ++ routePush 7 ++ [.setBit 1, .readCursor 1] ++ routePush 8 ++ [.pop 0]

def channelApart : List (Act Nat) :=
  [.setBit 0, .readCursor 0] ++ channelPush 0 7 ++ [.setBit 1, .readCursor 1] ++ channelPush 1 8 ++
    [.pop 0]

theorem guards_two_receivers :
    (∃ s, run RouteJoin.step .init routeApart = some s ∧ s.written = 2 ∧
      s.recv 0 = .joined 1 1 ∧ s.recv 1 = .joined 1 1 ∧ RouteJoin.Guards s) ∧
    ∃ s, run step .init channelApart = some s ∧ s.mem.claimed = 2 ∧
      s.recv 0 = .joined 1 1 ∧ s.recv 1 = .joined 1 1 ∧ Guards s := by
  constructor
  · have hs : ((run RouteJoin.step .init routeApart).map fun s =>
        (s.written, s.recv 0, s.recv 1)) = some (2, .joined 1 1, .joined 1 1) := by decide +kernel
    obtain ⟨s, hr, hp⟩ := Option.map_eq_some_iff.mp hs
    simp only [Prod.mk.injEq] at hp
    exact ⟨s, hr, hp.1, hp.2.1, hp.2.2, guards_of_apart.1 _ s hr (by decide +kernel)⟩
  · have hs : ((run step .init channelApart).map fun s =>
        (s.mem.claimed, s.recv 0, s.recv 1)) = some (2, .joined 1 1, .joined 1 1) := by
      decide +kernel
    obtain ⟨s, hr, hp⟩ := Option.map_eq_some_iff.mp hs
    simp only [Prod.mk.injEq] at hp
    exact ⟨s, hr, hp.1, hp.2.1, hp.2.2, guards_of_apart.2 _ s hr (by decide +kernel)⟩

/-- The push begins and ends between the two steps of the connect: the bit it leaves
is behind the cursor. -/
def routeInside : List (RouteJoin.Act Nat) := [.setBit 0] ++ routePush 7 ++ [.readCursor 0]

def channelInside : List (Act Nat) := [.setBit 0] ++ channelPush 0 7 ++ [.readCursor 0]

/-- The second receiver connects after `push` has loaded `cc_`: the message is before
its cursor and not marked for it. -/
def routeAround : List (RouteJoin.Act Nat) :=
  [.setBit 0, .readCursor 0, .push 7, .prod true, .setBit 1, .readCursor 1] ++
    List.replicate 5 (.prod true)

def channelAround : List (Act Nat) :=
  [.setBit 0, .readCursor 0, .push 0 7, .prod 0 true, .prod 0 true, .setBit 1, .readCursor 1] ++
    List.replicate 8 (.prod 0 true)

theorem not_guards_route {s : RouteJoin.St Nat} {r : Fin 32} {pos : Nat} {b : Bool}
    (h : ((match s.prod with | .idle => true | _ => false), s.written, s.recv r,
      (pend (s.q.elems 0).rc).getLsbD r) = (true, 1, .joined (BitVec.ofNat 32 pos) pos, b))
    (hne : ¬ (b = true ↔ pos ≤ 0)) : ¬ RouteJoin.Guards s := by
  simp only [Prod.mk.injEq] at h
  obtain ⟨hp, hw, hr, hb⟩ := h
  intro hg
  have hidle : s.prod = .idle := by
    cases hpc : s.prod with
    | idle => rfl
    | _ => rw [hpc] at hp; cases hp
  obtain ⟨-, hall⟩ := hg hidle
  obtain ⟨-, -, -, hiff⟩ := hall r _ pos hr
  have h := hiff 0 (by omega) (by omega)
  rw [Conn, show slot 8 0 = 0 from rfl, hb] at h
  exact hne h

/-- Nobody else runs a push. -/
theorem idle_of_run {s t : St Nat} {p : Nat} {acts : List (Act Nat)}
    (hacts : ∀ a ∈ acts, (∀ x, a ≠ .push p x) ∧ ∀ ok, a ≠ .prod p ok)
    (hr : run step s acts = some t) (hs : (s.prod p).pc = .idle) : (t.prod p).pc = .idle := by
  induction acts generalizing s with
  | nil => cases hr; exact hs
  | cons a as ih =>
    obtain ⟨u, hu, hr⟩ := Lib.Runs.run_cons hr
    refine ih (fun b hb => hacts b (List.mem_cons_of_mem _ hb)) hr ?_
    obtain ⟨hpush, hprod⟩ := hacts a (List.mem_cons_self ..)
    have hsame : u.prod p = s.prod p := by
      cases a with
      | push p' x =>
        have hne : p ≠ p' := by rintro rfl; exact hpush x rfl
        simp only [step] at hu
        split at hu <;> cases hu
        exact setProd_of_ne hne
      | prod p' ok =>
        have hne : p ≠ p' := by rintro rfl; exact hprod ok rfl
        simp only [step, stepProd] at hu
        split at hu <;> (try split at hu) <;> cases hu <;> exact setProd_of_ne hne
      | setBit r => simp only [step] at hu; split at hu <;> cases hu; rfl
      | readCursor r => simp only [step] at hu; split at hu <;> cases hu; rfl
      | pop r =>
        simp only [step] at hu
        split at hu
        · split at hu <;> cases hu <;> rfl
        · cases hu
    rw [hsame]
    exact hs

theorem not_guards_channel {s : St Nat} {acts : List (Act Nat)} {r : Fin 32} {pos : Nat} {b : Bool}
    (hrun : run step .init acts = some s)
    (hacts : ∀ a ∈ acts, ∀ p, p ≠ 0 → (∀ x, a ≠ .push p x) ∧ ∀ ok, a ≠ .prod p ok)
    (h : ((match (s.prod 0).pc with | .idle => true | _ => false), s.mem.claimed, s.recv r,
      (pend (s.mem.q.elems 0).rc).getLsbD r) = (true, 1, .joined (BitVec.ofNat 32 pos) pos, b))
    (hne : ¬ (b = true ↔ pos ≤ 0)) : ¬ Guards s := by
  simp only [Prod.mk.injEq] at h
  obtain ⟨hp, hw, hr, hb⟩ := h
  intro hg
  have hidle : ∀ p, (s.prod p).pc = .idle := by
    intro p
    by_cases h0 : p = 0
    · subst h0
      cases hpc : (s.prod 0).pc with
      | idle => rfl
      | _ => rw [hpc] at hp; cases hp
    · exact idle_of_run (fun a ha => hacts a ha p h0) hrun rfl
  obtain ⟨-, hall⟩ := hg hidle
  obtain ⟨-, -, -, hiff⟩ := hall r _ pos hr
  have h := hiff 0 (by omega) (by omega)
  rw [Conn, show slot 8 0 = 0 from rfl, hb] at h
  exact hne h

/-- Either order breaks either policy. -/
theorem not_guards_enclosed :
    (∃ s, run RouteJoin.step .init routeInside = some s ∧ ¬ RouteJoin.Guards s) ∧
    (∃ s, run RouteJoin.step .init routeAround = some s ∧ ¬ RouteJoin.Guards s) ∧
    (∃ s, run step .init channelInside = some s ∧ ¬ Guards s) ∧
    ∃ s, run step .init channelAround = some s ∧ ¬ Guards s := by
  refine ⟨?_, ?_, ?_, ?_⟩
  · have hs : ((run RouteJoin.step .init routeInside).map fun s =>
        ((match s.prod with | .idle => true | _ => false), s.written, s.recv 0,
          (pend (s.q.elems 0).rc).getLsbD 0)) = some (true, 1, .joined 1 1, true) := by
      decide +kernel
    obtain ⟨s, hr, hp⟩ := Option.map_eq_some_iff.mp hs
    exact ⟨s, hr, not_guards_route (r := 0) hp (by decide)⟩
  · have hs : ((run RouteJoin.step .init routeAround).map fun s =>
        ((match s.prod with | .idle => true | _ => false), s.written, s.recv 1,
          (pend (s.q.elems 0).rc).getLsbD 1)) = some (true, 1, .joined 0 0, false) := by
      decide +kernel
    obtain ⟨s, hr, hp⟩ := Option.map_eq_some_iff.mp hs
    exact ⟨s, hr, not_guards_route (r := 1) hp (by decide)⟩
  · have hs : ((run step .init channelInside).map fun s =>
        ((match (s.prod 0).pc with | .idle => true | _ => false), s.mem.claimed, s.recv 0,
          (pend (s.mem.q.elems 0).rc).getLsbD 0)) = some (true, 1, .joined 1 1, true) := by
      decide +kernel
    obtain ⟨s, hr, hp⟩ := Option.map_eq_some_iff.mp hs
    refine ⟨s, hr, not_guards_channel (r := 0) hr ?_ hp (by decide)⟩
    intro a ha p hne
    simp only [channelInside, channelPush, List.replicate] at ha
    constructor <;> rintro _ rfl <;> simp [hne] at ha
  · have hs : ((run step .init channelAround).map fun s =>
        ((match (s.prod 0).pc with | .idle => true | _ => false), s.mem.claimed, s.recv 1,
          (pend (s.mem.q.elems 0).rc).getLsbD 1)) = some (true, 1, .joined 0 0, false) := by
      decide +kernel
    obtain ⟨s, hr, hp⟩ := Option.map_eq_some_iff.mp hs
    refine ⟨s, hr, not_guards_channel (r := 1) hr ?_ hp (by decide)⟩
    intro a ha p hne
    simp only [channelAround, List.replicate] at ha
    constructor <;> rintro _ rfl <;> simp [hne] at ha

end CppIpc.ChannelJoin
