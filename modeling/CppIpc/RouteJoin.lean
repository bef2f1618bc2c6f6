import CppIpc.Lib.Joining
import CppIpc.Lib.Runs
import CppIpc.Receivers
import CppIpc.Route

/-! # Connecting to a route while it is written

One producer running `push`, access by access, and receivers that connect and pop.
`queue_conn::connect` is two steps: the bit in `cc_`, then the cursor. Nothing ties
the two together, nor the load of `cc_` in `push` to its update of `wt_`. -/
namespace CppIpc.RouteJoin
open CppIpc.Def CppIpc.ReadCounter CppIpc.ReadCounter.Route CppIpc.Route
open CppIpc.Lib.Joining (Board Status)
open CppIpc.Lib.Runs (run Meets)
open CppIpc.Lib.Window (slot)

/-! ## The machine -/

/-- The producer between two calls, or before the named access of `push`. -/
inductive ProdPc (α : Type) where
  | idle
  | loadCc (x : α)
  | loadWt (x : α) (cc : CC)
  | loadRc (x : α) (cc : CC) (wt : U2)
  | casRc (x : α) (cc : CC) (wt : U2) (rc : RC)
  | writeData (x : α) (cc : CC) (wt : U2)
  | addWt (cc : CC)

/-- The holder of one bit of `cc_`, between its two steps or connected with a cursor;
`pos` is the index that `cur` is modulo `2 ^ 32`. -/
inductive Recv where
  | absent
  | joining
  | joined (cur : U2) (pos : Nat)
deriving DecidableEq

/-- The connect has finished. -/
def Recv.isJoined : Recv → Bool
  | .joined .. => true
  | _ => false

/-- `written` counts the pushes that returned true. -/
structure St (α : Type) where
  q : Queue α
  cc : CC
  prod : ProdPc α
  recv : Fin 32 → Recv
  written : Nat

inductive Act (α : Type) where
  | push (x : α)
  | prod (ok : Bool)
  | setBit (r : Fin 32)
  | readCursor (r : Fin 32)
  | pop (r : Fin 32)

variable {α : Type}

def St.init [Inhabited α] : St α := ⟨.init, 0, .idle, fun _ => .absent, 0⟩

def St.setRecv (s : St α) (r : Fin 32) (c : Recv) : St α :=
  { s with recv := Function.update s.recv r c }

/-- The accesses of `push`; `ok` is false where the weak compare-exchange fails
spuriously. -/
def stepProd (s : St α) (ok : Bool) : Option (St α) :=
  match s.prod with
  | .idle => none
  | .loadCc x => some { s with prod := if s.cc = 0 then .idle else .loadWt x s.cc }
  | .loadWt x cc => some { s with prod := .loadRc x cc s.q.wt }
  | .loadRc x cc wt =>
    let rc := (s.q.elems (indexOf wt)).rc
    some { s with prod := if blocked cc rc s.q.epoch then .idle else .casRc x cc wt rc }
  | .casRc x cc wt rc =>
    if ok ∧ (s.q.elems (indexOf wt)).rc = rc then
      some { s with
        q := s.q.setRc (indexOf wt) (s.q.epoch ||| cc.setWidth 64), prod := .writeData x cc wt }
    else some { s with prod := .loadCc x }
  | .writeData x cc wt => some { s with q := s.q.setData (indexOf wt) x, prod := .addWt cc }
  | .addWt _ => some { s with q := s.q.addWt, prod := .idle, written := s.written + 1 }

/-- `connect` gives out the lowest clear bit; a receiver that got none is not
connected. -/
def step (s : St α) : Act α → Option (St α)
  | .push x => match s.prod with
    | .idle => some { s with prod := .loadCc x }
    | _ => none
  | .prod ok => stepProd s ok
  | .setBit r =>
    if (Receivers.connect s.cc).2 = idOf r then
      some { s.setRecv r .joining with cc := (Receivers.connect s.cc).1 }
    else none
  | .readCursor r => match s.recv r with
    | .joining => some (s.setRecv r (.joined s.q.cursor s.written))
    | _ => none
  | .pop r => match s.recv r with
    | .joined cur pos => match s.q.pop (idOf r) cur with
      | some (_, _, q) => some { s.setRecv r (.joined (cur + 1) (pos + 1)) with q := q }
      | none => some s
    | _ => none

/-- The receivers that the push has marked its slot for, until it updates `wt_`. -/
def St.marking (s : St α) : Option CC :=
  match s.prod with
  | .writeData _ cc _ | .addWt cc => some cc
  | _ => none

/-- At an access of `push`: a compare-exchange succeeds only with a `cc` that knows
all that are connected, and `wt_` is updated only where those it knows have read
their cursors. -/
def ApartAt (s : St α) (ok : Bool) : ProdPc α → Prop
  | .casRc _ cc wt rc => ok = true → (s.q.elems (indexOf wt)).rc = rc →
    ∀ r, (s.recv r).isJoined = true → Conn cc r
  | .addWt cc => ∀ r, s.recv r = .joining → ¬ Conn cc r
  | _ => True

/-- The steps of a connect and those of a push, from its load of `cc_` on, do not
enclose one another; so a cursor is read only where the push under way knows the
receiver. -/
def Apart (s : St α) : Act α → Prop
  | .prod ok => ApartAt s ok s.prod
  | .readCursor r => ∀ cc, s.marking = some cc → Conn cc r
  | _ => True

instance (s : St α) (ok : Bool) : (pc : ProdPc α) → Decidable (ApartAt s ok pc)
  | .casRc _ cc wt rc => inferInstanceAs (Decidable (ok = true → (s.q.elems (indexOf wt)).rc = rc →
    ∀ r, (s.recv r).isJoined = true → Conn cc r))
  | .addWt cc => inferInstanceAs (Decidable (∀ r, s.recv r = .joining → ¬ Conn cc r))
  | .idle | .loadCc _ | .loadWt _ _ | .loadRc _ _ _ | .writeData _ _ _ => isTrue trivial

instance (s : St α) : (a : Act α) → Decidable (Apart s a)
  | .prod ok => inferInstanceAs (Decidable (ApartAt s ok s.prod))
  | .readCursor r => match h : s.marking with
    | none => isTrue fun _ hc => nomatch h.symm.trans hc
    | some cc => decidable_of_iff (Conn cc r)
      ⟨fun hr _ hc => Option.some.inj (h.symm.trans hc) ▸ hr, fun ha => ha cc h⟩
  | .push _ | .setBit _ | .pop _ => isTrue trivial

/-- While no push is in progress, a connected receiver is pending in the slots of
exactly the messages it has not read. -/
def Guards (s : St α) : Prop :=
  s.prod = .idle → s.q.wt = BitVec.ofNat 32 s.written ∧
    ∀ r cur pos, s.recv r = .joined cur pos →
      cur = BitVec.ofNat 32 pos ∧ pos ≤ s.written ∧ s.written ≤ pos + 256 ∧
      ∀ m, m < s.written → s.written ≤ m + 256 →
        (Conn (pend (s.q.elems (slot 8 m)).rc) r ↔ pos ≤ m)

/-! ## The invariant -/

def Recv.status : Recv → Status
  | .absent => .absent
  | .joining => .joining
  | .joined _ pos => .joined pos

theorem Recv.status_eq_absent {c : Recv} (h : c.status = .absent) : c = .absent := by
  cases c with
  | absent => rfl
  | _ => cases h

theorem Recv.status_eq_joining {c : Recv} (h : c.status = .joining) : c = .joining := by
  cases c with
  | joining => rfl
  | _ => cases h

theorem Recv.status_eq_joined {c : Recv} {pos : Nat} (h : c.status = .joined pos) :
    ∃ cur, c = .joined cur pos := by
  cases c with
  | joined cur p => obtain rfl := Status.joined.inj h; exact ⟨cur, rfl⟩
  | _ => cases h

/-! ### The receivers' records beside the connection word -/

/-- The holders of the bits, and what they have for a cursor. -/
structure RecvsOk (cc : CC) (recv : Fin 32 → Recv) : Prop where
  conns : ∀ r, Conn cc r ↔ recv r ≠ .absent
  cursor : ∀ r cur pos, recv r = .joined cur pos → cur = BitVec.ofNat 32 pos

section Recvs
variable {cc : CC} {recv : Fin 32 → Recv} {r : Fin 32}

/-- `connect` gives out a bit that nobody has. -/
theorem RecvsOk.connect (h : RecvsOk cc recv) (hid : (Receivers.connect cc).2 = idOf r) :
    recv r = .absent ∧ (∀ r', Conn (Receivers.connect cc).1 r' ↔ Conn cc r' ∨ r = r') ∧
      RecvsOk (Receivers.connect cc).1 (Function.update recv r .joining) := by
  obtain hfull | ⟨b, hfree, hb, hbits⟩ := Receivers.connect_cases cc
  · rw [hfull] at hid
    exact absurd hid.symm (idOf_ne_zero r)
  · obtain rfl := idOf_inj (hid.symm.trans hb)
    have habs : recv r = .absent := by
      by_contra hne
      exact hfree ((h.conns r).mpr hne)
    have hconn : ∀ r', Conn (Receivers.connect cc).1 r' ↔ Conn cc r' ∨ r = r' := by
      intro r'
      rw [Conn, hbits r', Bool.or_eq_true, decide_eq_true_iff, Fin.val_inj]
    refine ⟨habs, hconn, fun r' => ?_, fun r' cur pos hr => ?_⟩
    · rw [hconn]
      by_cases hne : r' = r
      · subst hne; simp
      · rw [Function.update_of_ne hne, h.conns r']
        exact ⟨fun h => h.resolve_right fun he => hne he.symm, .inl⟩
    · by_cases hne : r' = r
      · subst hne; rw [Function.update_self] at hr; cases hr
      · rw [Function.update_of_ne hne] at hr; exact h.cursor r' cur pos hr

/-- A receiver that has a bit gets a cursor, or another one. -/
theorem RecvsOk.place (h : RecvsOk cc recv) (hr : recv r ≠ .absent) (pos : Nat) :
    RecvsOk cc (Function.update recv r (.joined (BitVec.ofNat 32 pos) pos)) := by
  refine ⟨fun r' => ?_, fun r' cur' pos' hr' => ?_⟩
  · rw [h.conns r']
    by_cases hne : r' = r
    · subst hne; simp [hr]
    · rw [Function.update_of_ne hne]
  · by_cases hne : r' = r
    · subst hne
      rw [Function.update_self] at hr'
      obtain ⟨rfl, rfl⟩ := Recv.joined.inj hr'
      rfl
    · rw [Function.update_of_ne hne] at hr'; exact h.cursor r' cur' pos' hr'

end Recvs

def St.board (s : St α) : Board 8 (Fin 32) where
  pending := fun σ r => Conn (pend (s.q.elems σ).rc) r
  index := s.written
  mark := s.marking.map fun cc r => Conn cc r
  status := fun r => (s.recv r).status

/-- The value of `cc_` that a push works with. -/
def ProdPc.loaded : ProdPc α → Option CC
  | .loadWt _ cc | .loadRc _ cc _ | .casRc _ cc _ _ | .writeData _ cc _ | .addWt cc => some cc
  | _ => none

def ProdOk (q : Queue α) : ProdPc α → Prop
  | .loadRc _ _ wt | .writeData _ _ wt => wt = q.wt
  | .casRc _ cc wt rc => wt = q.wt ∧ cc &&& pend rc = 0
  | _ => True

structure Inv (s : St α) : Prop where
  wt : s.q.wt = BitVec.ofNat 32 s.written
  epoch : s.q.epoch = 0
  tag : ∀ σ, (s.q.elems σ).rc &&& ~~~epMask = 0
  recvs : RecvsOk s.cc s.recv
  loaded : ∀ cc, s.prod.loaded = some cc → ∀ r, Conn cc r → Conn s.cc r
  prodOk : ProdOk s.q s.prod
  board : s.board.Ok

theorem init_inv [Inhabited α] : Inv (St.init (α := α)) where
  wt := rfl
  epoch := rfl
  tag := fun σ => by simp [St.init, Queue.init]
  recvs := ⟨fun r => by simp [St.init], fun _ _ _ h => by cases h⟩
  loaded := fun _ h => by cases h
  prodOk := trivial
  board :=
    { absent := fun r _ =>
        ⟨fun σ h => by simp [St.board, St.init, Queue.init, pend, Conn] at h, fun _ h => by cases h⟩
      joining := fun _ h => by cases h
      joined := fun _ _ h => by cases h }

section Steps
variable {s t : St α} {r : Fin 32}

/-- A step of the producer that touches no memory and is not part of a marked write. -/
theorem Inv.prodLocal (hi : Inv s) {p : ProdPc α} (hm : s.marking = none)
    (hm' : ({ s with prod := p } : St α).marking = none)
    (hl : ∀ cc, p.loaded = some cc → ∀ r, Conn cc r → Conn s.cc r) (hp : ProdOk s.q p) :
    Inv { s with prod := p } := by
  refine { hi with loaded := hl, prodOk := hp, board := ?_ }
  have he : ({ s with prod := p } : St α).board = s.board := by
    simp only [St.board, hm, hm']
  rw [he]
  exact hi.board

/-- The compare-exchange of `push`. -/
theorem Inv.mark (hi : Inv s) {x : α} {cc : CC} {wt : U2} {rc : RC}
    (hp : s.prod = .casRc x cc wt rc) (hrc : (s.q.elems (indexOf wt)).rc = rc)
    (hall : ∀ r, (s.recv r).isJoined = true → Conn cc r) :
    Inv { s with
      q := s.q.setRc (indexOf wt) (s.q.epoch ||| cc.setWidth 64), prod := .writeData x cc wt } := by
  have hok := hi.prodOk
  rw [hp] at hok
  obtain ⟨rfl, hfree⟩ := hok
  have hσ : indexOf s.q.wt = slot 8 s.written := by rw [hi.wt, indexOf_ofNat]
  have hp0 : pend s.q.epoch = 0#32 := by rw [hi.epoch]; decide
  have hnew : pend (s.q.epoch ||| cc.setWidth 64) = cc := pend_or cc hp0
  have hsub := hi.loaded cc (by rw [hp]; rfl)
  have hjoined : ∀ r pos, s.board.status r = .joined pos → Conn cc r := by
    intro r pos h
    obtain ⟨cur, hr⟩ := Recv.status_eq_joined h
    exact hall r (by rw [hr]; rfl)
  refine { hi with tag := ?_, loaded := ?_, prodOk := rfl, board := ?_ }
  · intro σ
    rw [setRc_rc]
    split
    · rw [tag_or cc hp0, hi.epoch]
    · exact hi.tag σ
  · intro c hc
    obtain rfl := Option.some.inj hc
    exact hsub
  · refine hi.board.place (c := fun r => Conn cc r) (by simp [St.board, St.marking, hp]) hjoined
      ?_ ?_ ?_ rfl rfl rfl
    · exact fun r h hc => (hi.recvs.conns r).mp (hsub r hc) (Recv.status_eq_absent h)
    · intro r pos h hpend
      have hbit := Lib.Bits.and_eq_zero_iff.mp hfree r (hjoined r pos h)
      rw [← hrc, hσ] at hbit
      exact absurd (hpend.symm.trans hbit) (by decide)
    · intro σ r
      show Conn (pend ((s.q.setRc (indexOf s.q.wt) _).elems σ).rc) r ↔
        if σ = slot 8 s.written then Conn cc r else Conn (pend (s.q.elems σ).rc) r
      rw [setRc_rc, hσ]
      by_cases he : σ = slot 8 s.written
      · rw [if_pos he, if_pos he, hnew]
      · rw [if_neg he, if_neg he]

theorem Inv.write (hi : Inv s) {x : α} {cc : CC} {wt : U2} (hp : s.prod = .writeData x cc wt) :
    Inv { s with q := s.q.setData (indexOf wt) x, prod := .addWt cc } := by
  refine { hi with tag := ?_, loaded := ?_, prodOk := trivial, board := ?_ }
  · intro σ; rw [setData_rc]; exact hi.tag σ
  · exact fun c hc => hi.loaded c (by rw [hp]; exact hc)
  · have he : ({ s with q := s.q.setData (indexOf wt) x, prod := .addWt cc } : St α).board =
        s.board := by
      simp only [St.board, setData_rc, St.marking, hp]
    rw [he]
    exact hi.board

theorem Inv.publish (hi : Inv s) {cc : CC} (hp : s.prod = .addWt cc)
    (hdone : ∀ r, s.recv r = .joining → ¬ Conn cc r) :
    Inv { s with q := s.q.addWt, prod := .idle, written := s.written + 1 } := by
  refine { hi with wt := ?_, loaded := fun _ h => (nomatch h), prodOk := trivial, board := ?_ }
  · show s.q.wt + 1 = BitVec.ofNat 32 (s.written + 1)
    rw [hi.wt, ofNat_add_one]
  · exact hi.board.publish (c := fun r => Conn cc r) (by simp [St.board, St.marking, hp])
      (fun r h => hdone r (Recv.status_eq_joining h)) (fun _ _ => Iff.rfl) rfl rfl rfl

theorem stepProd_inv (hi : Inv s) {ok : Bool} (ha : Apart s (.prod ok))
    (h : stepProd s ok = some t) : Inv t := by
  have hok := hi.prodOk
  unfold stepProd at h
  unfold Apart ApartAt at ha
  cases hp : s.prod with
  | idle => simp only [hp] at h; cases h
  | loadCc x =>
    simp only [hp] at h
    cases h
    split
    · exact hi.prodLocal (by simp [St.marking, hp]) rfl (fun _ h => nomatch h) trivial
    · refine hi.prodLocal (by simp [St.marking, hp]) rfl ?_ trivial
      intro c hc
      obtain rfl := Option.some.inj hc
      exact fun _ h => h
  | loadWt x cc =>
    simp only [hp] at h
    cases h
    exact hi.prodLocal (by simp [St.marking, hp]) rfl
      (fun c hc => hi.loaded c (by rw [hp]; exact hc)) rfl
  | loadRc x cc wt =>
    simp only [hp] at h hok
    cases h
    obtain rfl : wt = s.q.wt := hok
    have htag := (hi.tag (indexOf s.q.wt)).trans hi.epoch.symm
    split
    · exact hi.prodLocal (by simp [St.marking, hp]) rfl (fun _ h => nomatch h) trivial
    · rename_i hb
      exact hi.prodLocal (by simp [St.marking, hp]) rfl
        (fun c hc => hi.loaded c (by rw [hp]; exact hc))
        ⟨rfl, (blocked_eq_false htag).mp (by simpa using hb)⟩
  | casRc x cc wt rc =>
    simp only [hp] at h ha
    split at h
    · rename_i hc
      cases h
      exact hi.mark hp hc.2 (ha hc.1 hc.2)
    · cases h
      exact hi.prodLocal (by simp [St.marking, hp]) rfl (fun _ h => nomatch h) trivial
  | writeData x cc wt => simp only [hp] at h; cases h; exact hi.write hp
  | addWt cc => simp only [hp] at h ha; cases h; exact hi.publish hp ha

@[simp] theorem setRecv_self (c : Recv) : (s.setRecv r c).recv r = c := Function.update_self ..

@[simp] theorem setRecv_of_ne {r' : Fin 32} (h : r' ≠ r) (c : Recv) :
    (s.setRecv r c).recv r' = s.recv r' := Function.update_of_ne h _ _

theorem Inv.setBit (hi : Inv s) (hid : (Receivers.connect s.cc).2 = idOf r) :
    Inv { s.setRecv r .joining with cc := (Receivers.connect s.cc).1 } := by
  obtain ⟨habs, hconn, hrecvs⟩ := hi.recvs.connect hid
  refine { hi with recvs := hrecvs, loaded := ?_, board := ?_ }
  · exact fun cc hc r' h => (hconn r').mpr (.inl (hi.loaded cc hc r' h))
  · refine hi.board.announce (r := r) (congrArg Recv.status habs) (fun _ _ => Iff.rfl) rfl rfl
      (congrArg Recv.status (setRecv_self _)) fun r' hne => ?_
    exact congrArg Recv.status (setRecv_of_ne hne _)

theorem Inv.readCursor (hi : Inv s) (hr : s.recv r = .joining)
    (hknown : ∀ cc, s.marking = some cc → Conn cc r) :
    Inv (s.setRecv r (.joined s.q.cursor s.written)) := by
  rw [Queue.cursor, hi.wt]
  have habs : s.recv r ≠ .absent := by rw [hr]; exact fun h => nomatch h
  refine { hi with recvs := hi.recvs.place habs s.written, board := ?_ }
  · refine hi.board.position (r := r) (congrArg Recv.status hr) ?_ (fun _ _ => Iff.rfl) rfl rfl
      (congrArg Recv.status (setRecv_self _)) fun r' hne => ?_
    · intro c hc
      obtain ⟨cc, hcc, rfl⟩ := Option.map_eq_some_iff.mp hc
      exact hknown cc hcc
    · exact congrArg Recv.status (setRecv_of_ne hne _)

/-- A receiver that finds something has its bit in the slot. -/
theorem Inv.pop (hi : Inv s) {cur : U2} {pos : Nat} (hr : s.recv r = .joined cur pos) {x : α}
    {last : Bool} {q : Queue α} (hpop : s.q.pop (idOf r) cur = some (x, last, q)) :
    Inv { s.setRecv r (.joined (cur + 1) (pos + 1)) with q := q } := by
  obtain rfl := hi.recvs.cursor r cur pos hr
  have habs : s.recv r ≠ .absent := by rw [hr]; exact fun h => nomatch h
  obtain ⟨hle, hroom, -, hown⟩ := hi.board.joined r pos (congrArg Recv.status hr)
  have hle : pos ≤ s.written := hle
  have htop := s.board.index_le_top
  unfold Queue.pop at hpop
  rw [Queue.cursor, hi.wt] at hpop
  split at hpop
  · cases hpop
  · rename_i hne
    have hlt : pos < s.written := Nat.lt_of_le_of_ne hle fun he => hne (by rw [he])
    have hbit : Conn (pend (s.q.elems (slot 8 pos)).rc) r :=
      (hown (slot 8 pos)).mpr ⟨pos, Nat.le_refl _, Nat.lt_of_lt_of_le hlt htop, rfl⟩
    rw [indexOf_ofNat] at hpop
    dsimp only at hpop
    split at hpop
    · rename_i h0
      exact absurd (Lib.Bits.eq_zero_iff.mp (and_lowMask_eq_zero.mp h0) r) (by rw [hbit]; decide)
    · cases hpop
      rw [ofNat_add_one]
      refine { hi with
        tag := ?_, recvs := hi.recvs.place habs (pos + 1), prodOk := ?_, board := ?_ }
      · intro σ
        rw [setRc_rc]
        split
        · rw [tag_and_not]; exact hi.tag _
        · exact hi.tag σ
      · have hprod := hi.prodOk
        cases hp : s.prod <;> simp only [hp, ProdOk, St.setRecv, setRc_wt] at hprod ⊢ <;> exact hprod
      · refine hi.board.take (r := r) (congrArg Recv.status hr) hlt ?_ rfl rfl
          (congrArg Recv.status (setRecv_self _)) fun r' hne => ?_
        · intro σ r'
          simp only [St.board, setRc_rc]
          by_cases he : σ = slot 8 pos
          · subst he
            rw [if_pos rfl, pend_and_not, Conn, Lib.Bits.getLsbD_and_not, getLsbD_idOf]
            by_cases hrr : r' = r
            · simp [hrr]
            · have : ¬ (r : Nat) = r' := fun hv => hrr (Fin.ext hv).symm
              simp [hrr, this]
          · simp [he]
        · exact congrArg Recv.status (setRecv_of_ne hne _)

theorem step_inv {a : Act α} (hi : Inv s) (ha : Apart s a) (h : step s a = some t) : Inv t := by
  cases a with
  | push x =>
    simp only [step] at h
    split at h
    · rename_i hp
      cases h
      exact hi.prodLocal (by simp [St.marking, hp]) rfl (fun _ h => nomatch h) trivial
    · cases h
  | prod ok => exact stepProd_inv hi ha h
  | setBit r =>
    simp only [step] at h
    split at h
    · rename_i hid; cases h; exact hi.setBit hid
    · cases h
  | readCursor r =>
    simp only [step] at h
    split at h
    · rename_i hr; cases h; exact hi.readCursor hr ha
    · cases h
  | pop r =>
    simp only [step] at h
    split at h
    · rename_i cur pos hr
      split at h
      · rename_i hpop; cases h; exact hi.pop hr hpop
      · cases h; exact hi
    · cases h

theorem Inv.guards (hi : Inv s) : Guards s := by
  intro hp
  have hm : s.board.mark = none := by simp [St.board, St.marking, hp]
  refine ⟨hi.wt, fun r cur pos hr => ?_⟩
  have hst : s.board.status r = .joined pos := congrArg Recv.status hr
  obtain ⟨hle, hroom, -, -⟩ := hi.board.joined r pos hst
  rw [Lib.Joining.top_of_none hm] at hroom
  exact ⟨hi.recvs.cursor r cur pos hr, hle, hroom, fun m hlt hlap =>
    hi.board.pending_iff hm hst hlt hlap⟩

/-- Every run of the producer and the receivers that keeps connects and pushes apart. -/
theorem guards_of_run [Inhabited α] {acts : List (Act α)} (hr : run step St.init acts = some s)
    (hm : Meets step Apart St.init acts) : Guards s :=
  (Lib.Runs.run_invariant (fun _ _ _ hi ha h => step_inv hi ha h) init_inv hr hm).guards

end Steps

end CppIpc.RouteJoin
