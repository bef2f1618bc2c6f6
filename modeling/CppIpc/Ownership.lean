import CppIpc.ChannelSteps
import CppIpc.Receivers
import Mathlib.Data.Fintype.Basic

/-! # Who owns a slot of the channel queue

Any number of producers running `push` and `force_push`, and of handles that
connect, disconnect and pop, each step one atomic access or one access to the data.
A producer owns a slot from the compare-exchange of `rc_` after which it leaves its
loop to its store of `f_ct_`. Nothing reserves the slot but the pending bits in
`rc_`, the connection word they are compared with, and the epoch. -/
namespace CppIpc.Ownership
open CppIpc.Def CppIpc.ReadCounter CppIpc.ReadCounter.Channel CppIpc.Channel
open CppIpc.ChannelSteps (indexOf_eq_slot)
open CppIpc.Lib.Runs (run Meets)
open CppIpc.Lib.Window (slot)

/-! ## The machine -/

/-- A call of `push`, one made by `force_push`, or `force_push` itself. -/
inductive Kind where
  | plain
  | nested
  | force
deriving DecidableEq

/-- A producer between two calls, or before the named access. `addEpoch` is the
`fetch_add` of `force_push`, `kick` its `disconnect_receiver`, `loadFl` is made by
`push` only, and `check` is the second half of the condition to leave the loop. -/
inductive Pc where
  | idle
  | addEpoch
  | loadEpoch
  | loadCc
  | loadCt
  | loadRc
  | loadFl
  | kick
  | casRc
  | check
  | storeCt
  | writeData
  | storeFl
deriving DecidableEq

/-- The local variables of a call. `seen` is the number of updates of `rc_` before
its last load, `ver` the number of writes of `cc_` before `cc` was read from it, and
`adds` the number of increments of `epoch_` before `epoch` was. -/
structure Producer (α : Type) where
  pc : Pc
  kind : Kind
  x : α
  epoch : RC
  cc : CC
  ct : U2
  rc : RC
  seen : Nat
  ver : Nat
  adds : Nat

/-- A handle between two calls, or before the named access: of `connect` from
`testConn` to `readCursor`, of `disconnect` from `testDisc` on, of `pop` from `loadFl`
on. -/
inductive HandlePc where
  | idle
  | testConn
  | loadConn
  | casConn
  | testId
  | readCursor
  | testDisc
  | fetchAnd
  | loadFl
  | readData
  | loadRc
  | storeFree
  | storeFl
  | casRc
deriving DecidableEq

/-- `connected_`, `cursor_`, and the local variables of a call. -/
structure Handle (α : Type) where
  pc : HandlePc
  id : CC
  cur : U2
  curr : CC
  el : BitVec 8
  x : α
  rc : RC
  nxt : RC

/-- The shared words with their history: the index of every store of `ct_`, the
indices whose flag was stored, the producer and the index of the last
compare-exchange a producer won on each slot, the updates of each `rc_`, and the
writes of `cc_` and `epoch_`. -/
structure Mem (α P : Type) where
  q : Queue α
  cc : CC
  claims : List U2
  commit : U2 → Bool
  last : BitVec 8 → Option (P × U2)
  upd : BitVec 8 → Nat
  ver : Nat
  adds : Nat

structure St (α P H : Type) where
  mem : Mem α P
  prod : P → Producer α
  handle : H → Handle α

/-- A call begins, or a producer or a handle makes its next access; `ok` is false
where a weak compare-exchange fails spuriously. -/
inductive Act (α P H : Type) where
  | push (p : P) (x : α)
  | forcePush (p : P) (x : α)
  | prod (p : P) (ok : Bool)
  | connect (h : H)
  | disconnect (h : H)
  | pop (h : H)
  | handle (h : H) (ok : Bool)

variable {α P H : Type}

def St.init [Inhabited α] : St α P H where
  mem := ⟨.init, 0, [], fun _ => false, fun _ => none, fun _ => 0, 0, 0⟩
  prod := fun _ => ⟨.idle, .plain, default, 0, 0, 0, 0, 0, 0, 0⟩
  handle := fun _ => ⟨.idle, 0, 0, 0, 0, default, 0, 0⟩

section Machine
variable [DecidableEq P] [DecidableEq H]

def St.setProd (s : St α P H) (p : P) (m : Mem α P) (c : Producer α) : St α P H :=
  { s with mem := m, prod := Function.update s.prod p c }

def St.setHandle (s : St α P H) (h : H) (m : Mem α P) (c : Handle α) : St α P H :=
  { s with mem := m, handle := Function.update s.handle h c }

/-- An update of `rc_`. -/
def Mem.setRc (m : Mem α P) (σ : BitVec 8) (rc : RC) : Mem α P :=
  { m with q := m.q.setRc σ rc, upd := Function.update m.upd σ (m.upd σ + 1) }

def Mem.setFl (m : Mem α P) (σ : BitVec 8) (fl : Flag) : Mem α P := { m with q := m.q.setFl σ fl }

/-- A write of `cc_`. -/
def Mem.setCc (m : Mem α P) (cc : CC) : Mem α P := { m with cc := cc, ver := m.ver + 1 }

/-- A compare-exchange of `rc_` that producer `p` wins. -/
def Mem.win (m : Mem α P) (p : P) (c : Producer α) : Mem α P :=
  { m.setRc (indexOf c.ct) (mark c.epoch c.rc c.cc) with
    last := Function.update m.last (indexOf c.ct) (some (p, c.ct)) }

/-- The store of `ct_`. -/
def Mem.advance (m : Mem α P) (ct : U2) : Mem α P :=
  { m with q := m.q.setCt (ct + 1), claims := m.claims ++ [ct] }

/-- The store of the commit flag. -/
def Mem.publish (m : Mem α P) (ct : U2) : Mem α P :=
  { m.setFl (indexOf ct) (committed ct) with commit := Function.update m.commit ct true }

/-- The return of false, after which `force_push` starts over. -/
def Producer.fail (c : Producer α) : Producer α :=
  { c with pc := if c.kind = .nested then .addEpoch else .idle }

def stepProd (s : St α P H) (p : P) (ok : Bool) : Option (St α P H) :=
  let c := s.prod p
  let m := s.mem
  let el := m.q.elems (indexOf c.ct)
  match c.pc with
  | .idle => none
  | .addEpoch =>
    let epoch := m.q.epoch + epIncr
    some (s.setProd p { m with q := { m.q with epoch := epoch }, adds := m.adds + 1 }
      { c with pc := .loadCc, kind := .force, epoch := epoch, adds := m.adds + 1 })
  | .loadEpoch =>
    some (s.setProd p m { c with pc := .loadCc, epoch := m.q.epoch, adds := m.adds })
  | .loadCc =>
    some (s.setProd p m
      (if m.cc = 0 then c.fail else { c with pc := .loadCt, cc := m.cc, ver := m.ver }))
  | .loadCt => some (s.setProd p m { c with pc := .loadRc, ct := m.q.ct })
  | .loadRc =>
    let rem := pend (el.rc &&& rcMask)
    let c := { c with rc := el.rc, seen := m.upd (indexOf c.ct) }
    some (s.setProd p m
      (if c.kind = .force then { c with pc := if c.cc &&& rem ≠ 0 then .kick else .casRc }
      else if blocked c.cc el.rc c.epoch then c.fail
      else { c with pc := if rem = 0 then .loadFl else .casRc }))
  | .loadFl => some (s.setProd p m (if occupied c.ct el.fCt then c.fail else { c with pc := .casRc }))
  | .kick =>
    let cc := Receivers.disconnect m.cc (pend (c.rc &&& rcMask))
    some (s.setProd p (m.setCc cc) (if cc = 0 then { c with pc := .idle }
      else { c with pc := .casRc, cc := cc, ver := m.ver + 1 }))
  | .casRc =>
    if ok ∧ el.rc = c.rc then some (s.setProd p (m.win p c) { c with pc := .check })
    else some (s.setProd p m { c with pc := .loadCc })
  | .check =>
    if c.kind = .force then
      some (s.setProd p m (if c.epoch = m.q.epoch then { c with pc := .storeCt }
        else { c with pc := .loadEpoch, kind := .nested }))
    else
      some (s.setProd p m (if ok ∧ m.q.epoch = c.epoch then { c with pc := .storeCt }
        else { c with pc := .loadCc, epoch := m.q.epoch, adds := m.adds }))
  | .storeCt => some (s.setProd p (m.advance c.ct) { c with pc := .writeData })
  | .writeData =>
    some (s.setProd p { m with q := m.q.setData (indexOf c.ct) c.x } { c with pc := .storeFl })
  | .storeFl => some (s.setProd p (m.publish c.ct) { c with pc := .idle })

def stepHandle (s : St α P H) (h : H) (ok : Bool) : Option (St α P H) :=
  let c := s.handle h
  let m := s.mem
  let goto (pc : HandlePc) : St α P H := s.setHandle h m { c with pc := pc }
  match c.pc with
  | .idle => none
  | .testConn => some (goto (if Receivers.connected m.cc c.id then .idle else .loadConn))
  | .loadConn =>
    some (s.setHandle h m (if m.cc ||| (m.cc + 1) = m.cc then { c with pc := .testId, id := 0 }
      else { c with pc := .casConn, curr := m.cc }))
  | .casConn =>
    let next := c.curr ||| (c.curr + 1)
    if ok ∧ m.cc = c.curr then
      some (s.setHandle h (m.setCc next) { c with pc := .testId, id := next ^^^ c.curr })
    else some (goto .loadConn)
  | .testId =>
    -- the cursor of a handle that is not connected is loaded and dropped
    some (goto (if Receivers.connected m.cc c.id then .readCursor else .idle))
  | .readCursor => some (s.setHandle h m { c with pc := .idle, cur := m.q.cursor })
  | .testDisc => some (goto (if Receivers.connected m.cc c.id then .fetchAnd else .idle))
  | .fetchAnd =>
    some (s.setHandle h (m.setCc (Receivers.disconnect m.cc c.id)) { c with pc := .idle, id := 0 })
  | .loadFl =>
    some (s.setHandle h m (if (m.q.elems (indexOf c.cur)).fCt ≠ committed c.cur
      then { c with pc := .idle }
      else { c with pc := .readData, cur := c.cur + 1, el := indexOf c.cur }))
  | .readData => some (s.setHandle h m { c with pc := .loadRc, x := (m.q.elems c.el).data })
  | .loadRc =>
    let rc := (m.q.elems c.el).rc
    let nxt := incRc rc &&& ~~~c.id.setWidth 64
    some (s.setHandle h m { c with
      pc := if rc &&& rcMask = 0 then .storeFree else if nxt &&& rcMask = 0 then .storeFl else .casRc
      rc := rc, nxt := nxt })
  | .storeFree => some (s.setHandle h (m.setFl c.el (freed c.cur)) { c with pc := .idle })
  | .storeFl => some (s.setHandle h (m.setFl c.el (freed c.cur)) { c with pc := .casRc })
  | .casRc =>
    if ok ∧ (m.q.elems c.el).rc = c.rc then
      some (s.setHandle h (m.setRc c.el c.nxt) { c with pc := .idle })
    else some (goto .loadRc)

def step (s : St α P H) : Act α P H → Option (St α P H)
  | .push p x =>
    if (s.prod p).pc = .idle then
      some (s.setProd p s.mem { s.prod p with pc := .loadEpoch, kind := .plain, x := x })
    else none
  | .forcePush p x =>
    if (s.prod p).pc = .idle then
      some (s.setProd p s.mem { s.prod p with pc := .addEpoch, kind := .force, x := x })
    else none
  | .prod p ok => stepProd s p ok
  | .connect h =>
    if (s.handle h).pc = .idle then
      some (s.setHandle h s.mem { s.handle h with pc := .testConn })
    else none
  | .disconnect h =>
    if (s.handle h).pc = .idle then
      some (s.setHandle h s.mem { s.handle h with pc := .testDisc })
    else none
  | .pop h =>
    if (s.handle h).pc = .idle then some (s.setHandle h s.mem { s.handle h with pc := .loadFl })
    else none
  | .handle h ok => stepHandle s h ok

end Machine

/-! ## The claim and its condition -/

/-- From the compare-exchange of `rc_` to the store of `f_ct_`; a producer that is
about to fail its check does not leave its loop. -/
def St.Owns (s : St α P H) (p : P) : Prop :=
  match (s.prod p).pc with
  | .check => (s.prod p).epoch = s.mem.q.epoch
  | .storeCt | .writeData | .storeFl => True
  | _ => False

/-- No two producers own a slot, no compare-exchange on it was won since by anybody
else, and no two stores of `ct_` use one index. -/
structure Exclusive (s : St α P H) : Prop where
  slot : ∀ p p', s.Owns p → s.Owns p' →
    indexOf (s.prod p).ct = indexOf (s.prod p').ct → p = p'
  won : ∀ p, s.Owns p → (s.mem.last (indexOf (s.prod p).ct)).map Prod.fst = some p
  index : s.mem.claims.Nodup

/-- A write of `cc_` spares the receivers that a slot under way is marked for: it is
not made between the compare-exchange and the store of `ct_`, and after that it
leaves one of them connected or nobody. -/
def Spares (s : St α P H) (cc : CC) (c : Producer α) : Prop :=
  match c.pc with
  | .check => c.epoch ≠ s.mem.q.epoch
  | .storeCt => False
  | .writeData | .storeFl => cc = 0 ∨ cc &&& pend (s.mem.q.elems (indexOf c.ct)).rc ≠ 0
  | _ => True

/-- `force_push` takes its epoch while nobody is past the check, and not one that
somebody waits to compare. -/
def Quiet (s : St α P H) (c : Producer α) : Prop :=
  match c.pc with
  | .check => c.epoch ≠ s.mem.q.epoch + epIncr
  | .storeCt | .writeData | .storeFl => False
  | _ => True

/-- What was loaded is still true when the compare-exchange of `rc_` succeeds: the
connection word, the epoch, the counter inside the word, and for `force_push`, which
does not look at the flag, the index. -/
def Fresh (s : St α P H) (c : Producer α) : Prop :=
  c.ver = s.mem.ver ∧ c.adds = s.mem.adds ∧ s.mem.upd (indexOf c.ct) < c.seen + 2 ^ 24 ∧
    (c.kind = .force → c.ct = s.mem.q.ct)

/-- A pop stores to its slot only while the slot was last marked for its index. -/
def Current (s : St α P H) (c : Handle α) : Prop :=
  (s.mem.last c.el).map Prod.snd = some (c.cur - 1)

def GoodProd (s : St α P H) (c : Producer α) (ok : Bool) : Prop :=
  match c.pc with
  | .addEpoch => ∀ p, Quiet s (s.prod p)
  | .kick => ∀ p, Spares s (Receivers.disconnect s.mem.cc (pend (c.rc &&& rcMask))) (s.prod p)
  | .casRc => ok = true → (s.mem.q.elems (indexOf c.ct)).rc = c.rc → Fresh s c
  | .storeCt => s.mem.claims.length + 1 < 2 ^ 32
  | _ => True

def GoodHandle (s : St α P H) (c : Handle α) (ok : Bool) : Prop :=
  match c.pc with
  | .casConn => ok = true → s.mem.cc = c.curr →
    ∀ p, Spares s (c.curr ||| (c.curr + 1)) (s.prod p)
  | .fetchAnd => ∀ p, Spares s (Receivers.disconnect s.mem.cc c.id) (s.prod p)
  | .storeFree | .storeFl => Current s c
  | .casRc => ok = true → (s.mem.q.elems c.el).rc = c.rc → Current s c
  | _ => True

def Good (s : St α P H) : Act α P H → Prop
  | .prod p ok => GoodProd s (s.prod p) ok
  | .handle h ok => GoodHandle s (s.handle h) ok
  | _ => True

section Decide
variable (s : St α P H) (c : Producer α) (d : Handle α) (cc : CC) (ok : Bool)

instance : Decidable (Spares s cc c) :=
  match h : c.pc with
  | .check => decidable_of_iff (c.epoch ≠ s.mem.q.epoch) (by simp only [Spares, h])
  | .storeCt => isFalse (by simp only [Spares, h, not_false_eq_true])
  | .writeData | .storeFl =>
    decidable_of_iff (cc = 0 ∨ cc &&& pend (s.mem.q.elems (indexOf c.ct)).rc ≠ 0)
      (by simp only [Spares, h])
  | .idle | .addEpoch | .loadEpoch | .loadCc | .loadCt | .loadRc | .loadFl | .kick | .casRc =>
    isTrue (by simp only [Spares, h])

instance : Decidable (Quiet s c) :=
  match h : c.pc with
  | .check => decidable_of_iff (c.epoch ≠ s.mem.q.epoch + epIncr) (by simp only [Quiet, h])
  | .storeCt | .writeData | .storeFl => isFalse (by simp only [Quiet, h, not_false_eq_true])
  | .idle | .addEpoch | .loadEpoch | .loadCc | .loadCt | .loadRc | .loadFl | .kick | .casRc =>
    isTrue (by simp only [Quiet, h])

instance : Decidable (Fresh s c) := inferInstanceAs (Decidable (_ ∧ _ ∧ _ ∧ _))

instance : Decidable (Current s d) := inferInstanceAs (Decidable (_ = _))

variable [Fintype P]

instance : Decidable (GoodProd s c ok) :=
  match h : c.pc with
  | .addEpoch => decidable_of_iff (∀ p, Quiet s (s.prod p)) (by simp only [GoodProd, h])
  | .kick =>
    decidable_of_iff
      (∀ p, Spares s (Receivers.disconnect s.mem.cc (pend (c.rc &&& rcMask))) (s.prod p))
      (by simp only [GoodProd, h])
  | .casRc =>
    decidable_of_iff (ok = true → (s.mem.q.elems (indexOf c.ct)).rc = c.rc → Fresh s c)
      (by simp only [GoodProd, h])
  | .storeCt => decidable_of_iff (s.mem.claims.length + 1 < 2 ^ 32) (by simp only [GoodProd, h])
  | .idle | .loadEpoch | .loadCc | .loadCt | .loadRc | .loadFl | .check | .writeData | .storeFl =>
    isTrue (by simp only [GoodProd, h])

instance : Decidable (GoodHandle s d ok) :=
  match h : d.pc with
  | .casConn =>
    decidable_of_iff
      (ok = true → s.mem.cc = d.curr → ∀ p, Spares s (d.curr ||| (d.curr + 1)) (s.prod p))
      (by simp only [GoodHandle, h])
  | .fetchAnd =>
    decidable_of_iff (∀ p, Spares s (Receivers.disconnect s.mem.cc d.id) (s.prod p))
      (by simp only [GoodHandle, h])
  | .storeFree | .storeFl => decidable_of_iff (Current s d) (by simp only [GoodHandle, h])
  | .casRc =>
    decidable_of_iff (ok = true → (s.mem.q.elems d.el).rc = d.rc → Current s d)
      (by simp only [GoodHandle, h])
  | .idle | .testConn | .loadConn | .testId | .readCursor | .testDisc | .loadFl | .readData
  | .loadRc => isTrue (by simp only [GoodHandle, h])

instance : (a : Act α P H) → Decidable (Good s a)
  | .prod p ok => inferInstanceAs (Decidable (GoodProd s (s.prod p) ok))
  | .handle h ok => inferInstanceAs (Decidable (GoodHandle s (s.handle h) ok))
  | .push _ _ | .forcePush _ _ | .connect _ | .disconnect _ | .pop _ => isTrue trivial

end Decide

/-! ## The invariant -/

/-- The number of indices given out. -/
def Mem.claimed (m : Mem α P) : Nat := m.claims.length

def Mem.rc (m : Mem α P) (ct : U2) : RC := (m.q.elems (indexOf ct)).rc

def Mem.fl (m : Mem α P) (ct : U2) : Flag := (m.q.elems (indexOf ct)).fCt

structure MemOk (m : Mem α P) : Prop where
  small : m.claimed < 2 ^ 32
  ct : m.q.ct.toNat = m.claimed
  claims : ∀ x ∈ m.claims, x.toNat < m.claimed
  nodup : m.claims.Nodup
  epoch : m.q.epoch &&& epMask = 0
  count : ∀ σ, ReadCounter.Channel.count (m.q.elems σ).rc = BitVec.ofNat 24 (m.upd σ)
  commit : ∀ x, m.commit x = true → x.toNat < m.claimed
  found : ∀ σ x, (m.q.elems σ).fCt = committed x → m.commit x = true
  /-- The flag of the last index of a slot. -/
  flag : ∀ x, x.toNat < m.claimed → m.claimed ≤ x.toNat + 256 → m.commit x = true →
    m.fl x = committed x ∨ m.fl x = freed (x + 1)
  last : ∀ σ p x, m.last σ = some (p, x) →
    indexOf x = σ ∧ x.toNat ≤ m.claimed ∧ m.claimed ≤ x.toNat + 256
  marked : ∀ p x, m.last (indexOf x) = some (p, x) → x.toNat = m.claimed → pend (m.rc x) ≠ 0

/-- Before the store of `ct_`. -/
structure Pre (m : Mem α P) (p : P) (ct : U2) : Prop where
  next : ct.toNat = m.claimed
  last : m.last (indexOf ct) = some (p, ct)
  tag : m.rc ct &&& ~~~epMask = m.q.epoch
  pend : ReadCounter.pend (m.rc ct) = m.cc

/-- Between the stores of `ct_` and `f_ct_`. -/
structure Post (m : Mem α P) (p : P) (ct : U2) : Prop where
  lt : ct.toNat < m.claimed
  last : m.last (indexOf ct) = some (p, ct)
  tag : m.rc ct &&& ~~~epMask = m.q.epoch
  unwritten : m.commit ct = false
  pend : m.cc = 0 ∨ m.cc &&& ReadCounter.pend (m.rc ct) ≠ 0

structure EpochOk (m : Mem α P) (c : Producer α) : Prop where
  low : c.epoch &&& epMask = 0
  le : c.adds ≤ m.adds
  same : c.adds = m.adds → c.epoch = m.q.epoch

structure CcOk (m : Mem α P) (c : Producer α) : Prop where
  ne : c.cc ≠ 0
  le : c.ver ≤ m.ver
  same : c.ver = m.ver → c.cc = m.cc

/-- An index that was given out since `push` loaded it was marked under the epoch and
for the receivers that `push` knows, if these are still the same. -/
structure CtOk (m : Mem α P) (c : Producer α) : Prop where
  le : c.ct.toNat ≤ m.claimed
  tag : c.kind ≠ .force → c.ct.toNat < m.claimed → c.adds = m.adds →
    m.rc c.ct &&& ~~~epMask = m.q.epoch
  pend : c.kind ≠ .force → c.ct.toNat < m.claimed → c.ver = m.ver →
    ReadCounter.pend (m.rc c.ct) &&& ~~~m.cc = 0

structure Loaded (m : Mem α P) (c : Producer α) : Prop where
  epoch : EpochOk m c
  cc : CcOk m c
  ct : CtOk m c
  count : ReadCounter.Channel.count c.rc = BitVec.ofNat 24 c.seen
  since : c.seen ≤ m.upd (indexOf c.ct)
  same : m.upd (indexOf c.ct) = c.seen → m.rc c.ct = c.rc

/-- What the load of the flag says of a free slot. -/
def Next (m : Mem α P) (c : Producer α) : Prop :=
  c.kind ≠ .force → pend c.rc = 0 → m.upd (indexOf c.ct) = c.seen → c.adds = m.adds →
    c.ver = m.ver → c.ct.toNat = m.claimed ∧ ∀ p, m.last (indexOf c.ct) ≠ some (p, c.ct)

def ProdOk (m : Mem α P) (p : P) (c : Producer α) : Prop :=
  match c.pc with
  | .idle | .addEpoch | .loadEpoch => True
  | .loadCc => EpochOk m c
  | .loadCt => EpochOk m c ∧ CcOk m c
  | .loadRc => EpochOk m c ∧ CcOk m c ∧ CtOk m c
  | .loadFl => Loaded m c ∧ c.kind ≠ .force ∧ pend c.rc = 0
  | .kick => Loaded m c ∧ c.kind = .force
  | .casRc => Loaded m c ∧
    (c.cc &&& pend c.rc = 0 ∨ c.kind ≠ .force ∧ c.rc &&& ~~~epMask ≠ c.epoch) ∧ Next m c
  | .check => EpochOk m c ∧ (c.epoch = m.q.epoch → Pre m p c.ct)
  | .storeCt => Pre m p c.ct
  | .writeData | .storeFl => Post m p c.ct

/-- Inside a pop. -/
def HandlePc.popping : HandlePc → Bool
  | .readData | .loadRc | .storeFree | .storeFl | .casRc => true
  | _ => false

structure HandleOk (m : Mem α P) (c : Handle α) : Prop where
  taken : c.pc.popping = true → m.commit (c.cur - 1) = true ∧ c.el = indexOf (c.cur - 1)
  nxt : c.pc = .storeFl ∨ c.pc = .casRc → ∃ id : CC, c.nxt = incRc c.rc &&& ~~~id.setWidth 64

/-- Between the stores of `ct_` and `f_ct_`. -/
def Pc.writing : Pc → Bool
  | .writeData | .storeFl => true
  | _ => false

structure Inv (s : St α P H) : Prop where
  mem : MemOk s.mem
  prod : ∀ p, ProdOk s.mem p (s.prod p)
  handle : ∀ h, HandleOk s.mem (s.handle h)
  writer : ∀ x : U2, x.toNat < s.mem.claimed → s.mem.commit x = false →
    ∃ p, (s.prod p).pc.writing = true ∧ (s.prod p).ct = x

theorem init_inv [Inhabited α] : Inv (St.init : St α P H) where
  mem :=
    { small := by simp [St.init, Mem.claimed]
      ct := rfl
      claims := fun _ h => by cases h
      nodup := List.nodup_nil
      epoch := by simp [St.init, Queue.init]
      count := fun σ => by simp [St.init, Queue.init, ReadCounter.Channel.count]
      commit := fun _ h => by cases h
      found := fun σ x h => absurd h.symm (committed_ne_zero x)
      flag := fun x h => absurd h (Nat.not_lt_zero _)
      last := fun _ _ _ h => by cases h
      marked := fun _ _ h => by cases h }
  prod := fun _ => trivial
  handle := fun _ => ⟨fun h => (nomatch h), fun h => h.elim (nomatch ·) (nomatch ·)⟩
  writer := fun x h => absurd h (Nat.not_lt_zero _)

/-! ## What a step leaves alone -/

section Frame
variable {m m' : Mem α P} {p : P} {c : Producer α}

/-- A change of the memory that a producer in its loop does not mind. An index given
out meanwhile was marked under the epoch and the connection word of the time. -/
structure Later (m m' : Mem α P) : Prop where
  claimed : m.claimed ≤ m'.claimed
  adds : m.adds ≤ m'.adds
  epoch : m'.adds = m.adds → m'.q.epoch = m.q.epoch
  ver : m.ver ≤ m'.ver
  cc : m'.ver = m.ver → m'.cc = m.cc
  upd : ∀ σ, m.upd σ ≤ m'.upd σ
  rc : ∀ σ, m'.upd σ = m.upd σ → (m'.q.elems σ).rc = (m.q.elems σ).rc
  tag : m'.adds = m.adds → ∀ x : U2, x.toNat < m'.claimed →
    (x.toNat < m.claimed → m.rc x &&& ~~~epMask = m.q.epoch) →
    m'.rc x &&& ~~~epMask = m'.q.epoch
  pend : m'.ver = m.ver → ∀ x : U2, x.toNat < m'.claimed →
    (x.toNat < m.claimed → ReadCounter.pend (m.rc x) &&& ~~~m.cc = 0) →
    ReadCounter.pend (m'.rc x) &&& ~~~m'.cc = 0
  next : ∀ x : U2, m'.upd (indexOf x) = m.upd (indexOf x) → x.toNat = m.claimed →
    (∀ p, m.last (indexOf x) ≠ some (p, x)) →
    x.toNat = m'.claimed ∧ ∀ p, m'.last (indexOf x) ≠ some (p, x)

theorem EpochOk.later (h : EpochOk m c) (hl : Later m m') : EpochOk m' c := by
  refine ⟨h.low, Nat.le_trans h.le hl.adds, fun he => ?_⟩
  have hle := h.le
  have hadds := hl.adds
  rw [hl.epoch (by omega)]
  exact h.same (by omega)

theorem CcOk.later (h : CcOk m c) (hl : Later m m') : CcOk m' c := by
  refine ⟨h.ne, Nat.le_trans h.le hl.ver, fun he => ?_⟩
  have hle := h.le
  have hver := hl.ver
  rw [hl.cc (by omega)]
  exact h.same (by omega)

theorem CtOk.later (h : CtOk m c) (hl : Later m m') (he : EpochOk m c) (hc : CcOk m c) :
    CtOk m' c := by
  refine ⟨Nat.le_trans h.le hl.claimed, fun hk hlt ha => ?_, fun hk hlt hv => ?_⟩
  · have h₁ := he.le
    have h₂ := hl.adds
    exact hl.tag (by omega) c.ct hlt fun h' => h.tag hk h' (by omega)
  · have h₁ := hc.le
    have h₂ := hl.ver
    exact hl.pend (by omega) c.ct hlt fun h' => h.pend hk h' (by omega)

theorem Loaded.updates (h : Loaded m c) (hl : Later m m') (he : m'.upd (indexOf c.ct) = c.seen) :
    m'.upd (indexOf c.ct) = m.upd (indexOf c.ct) := by
  have h₁ := h.since
  have h₂ := hl.upd (indexOf c.ct)
  omega

theorem Loaded.later (h : Loaded m c) (hl : Later m m') : Loaded m' c := by
  refine ⟨h.epoch.later hl, h.cc.later hl, h.ct.later hl h.epoch h.cc, h.count,
    Nat.le_trans h.since (hl.upd _), fun he => ?_⟩
  have hu := h.updates hl he
  exact (hl.rc _ hu).trans (h.same (hu.symm.trans he))

theorem Next.later (h : Next m c) (hl : Later m m') (hload : Loaded m c) : Next m' c := by
  intro hk h0 hu ha hv
  have hsame := hload.updates hl hu
  have h₁ := hload.epoch.le
  have h₂ := hl.adds
  have h₃ := hload.cc.le
  have h₄ := hl.ver
  obtain ⟨hct, hlast⟩ := h hk h0 (hsame.symm.trans hu) (by omega) (by omega)
  exact hl.next c.ct hsame hct hlast

/-- A producer does not notice a step of somebody else, unless it owns a slot. -/
theorem ProdOk.later (h : ProdOk m p c) (hl : Later m m')
    (hcheck : c.pc = .check → c.epoch = m'.q.epoch → c.epoch = m.q.epoch)
    (hpre : c.pc = .check ∧ c.epoch = m'.q.epoch ∨ c.pc = .storeCt → Pre m p c.ct → Pre m' p c.ct)
    (hpost : c.pc.writing = true → Post m p c.ct → Post m' p c.ct) : ProdOk m' p c := by
  unfold ProdOk at h ⊢
  cases hpc : c.pc with
  | idle | addEpoch | loadEpoch => trivial
  | loadCc => simp only [hpc] at h; exact h.later hl
  | loadCt => simp only [hpc] at h; exact ⟨h.1.later hl, h.2.later hl⟩
  | loadRc =>
    simp only [hpc] at h
    exact ⟨h.1.later hl, h.2.1.later hl, h.2.2.later hl h.1 h.2.1⟩
  | loadFl | kick => simp only [hpc] at h; exact ⟨h.1.later hl, h.2⟩
  | casRc => simp only [hpc] at h; exact ⟨h.1.later hl, h.2.1, h.2.2.later hl h.1⟩
  | check =>
    simp only [hpc] at h
    exact ⟨h.1.later hl, fun he => hpre (.inl ⟨hpc, he⟩) (h.2 (hcheck hpc he))⟩
  | storeCt => simp only [hpc] at h; exact hpre (.inr hpc) h
  | writeData | storeFl => simp only [hpc] at h; exact hpost (by rw [hpc]; rfl) h

end Frame

section Frame
variable {s : St α P H} {m : Mem α P} {p : P} {c : Producer α} {h : H} {d : Handle α}

section Prod
variable [DecidableEq P]

@[simp] theorem setProd_self : (s.setProd p m c).prod p = c := Function.update_self ..

@[simp] theorem setProd_of_ne {p' : P} (h : p' ≠ p) : (s.setProd p m c).prod p' = s.prod p' :=
  Function.update_of_ne h _ _

/-- A step of producer `p`. -/
theorem Inv.ofProd (hi : Inv s) (hmem : MemOk m) (hown : ProdOk m p c)
    (hother : ∀ p', p' ≠ p → ProdOk m p' (s.prod p'))
    (hcommit : ∀ x, s.mem.commit x = true → m.commit x = true)
    (hwriter : ∀ x : U2, x.toNat < m.claimed → m.commit x = false →
      (c.pc.writing = true ∧ c.ct = x) ∨
      x.toNat < s.mem.claimed ∧ ¬ ((s.prod p).pc.writing = true ∧ (s.prod p).ct = x)) :
    Inv (s.setProd p m c) := by
  refine ⟨hmem, fun p' => ?_, fun h => ⟨fun hp => ?_, (hi.handle h).nxt⟩, fun x hx hc => ?_⟩
  · by_cases he : p' = p
    · subst he; rw [setProd_self]; exact hown
    · rw [setProd_of_ne he]; exact hother p' he
  · obtain ⟨hcm, hel⟩ := (hi.handle h).taken hp
    exact ⟨hcommit _ hcm, hel⟩
  · obtain hw | ⟨hx', hne⟩ := hwriter x hx hc
    · exact ⟨p, by rw [setProd_self]; exact hw⟩
    · have hc' : s.mem.commit x = false := by
        cases h : s.mem.commit x with
        | false => rfl
        | true => exact absurd (hc.symm.trans (hcommit x h)) (by decide)
      obtain ⟨p', hw⟩ := hi.writer x hx' hc'
      have he : p' ≠ p := by rintro rfl; exact hne hw
      exact ⟨p', by rw [setProd_of_ne he]; exact hw⟩

/-- A step of producer `p` that touches no memory. -/
theorem Inv.prodLocal (hi : Inv s) (hown : ProdOk s.mem p c)
    (hw : (s.prod p).pc.writing = false) : Inv (s.setProd p s.mem c) :=
  hi.ofProd hi.mem hown (fun p' _ => hi.prod p') (fun _ h => h)
    fun _ hx _ => .inr ⟨hx, fun h => by rw [hw] at h; cases h.1⟩

end Prod

section Handle
variable [DecidableEq H]

@[simp] theorem setHandle_self : (s.setHandle h m d).handle h = d := Function.update_self ..

@[simp] theorem setHandle_of_ne {h' : H} (hne : h' ≠ h) :
    (s.setHandle h m d).handle h' = s.handle h' := Function.update_of_ne hne _ _

/-- A step of handle `h`. -/
theorem Inv.ofHandle (hi : Inv s) (hmem : MemOk m) (hprod : ∀ p, ProdOk m p (s.prod p))
    (hcommit : m.commit = s.mem.commit) (hclaims : m.claims = s.mem.claims)
    (hown : HandleOk s.mem d) : Inv (s.setHandle h m d) := by
  refine ⟨hmem, hprod, fun h' => ?_, fun x hx hc => ?_⟩
  · show HandleOk m ((s.setHandle h m d).handle h')
    by_cases he : h' = h
    · subst he; rw [setHandle_self]
      exact ⟨fun hp => by rw [hcommit]; exact hown.taken hp, hown.nxt⟩
    · rw [setHandle_of_ne he]
      exact ⟨fun hp => by rw [hcommit]; exact (hi.handle h').taken hp, (hi.handle h').nxt⟩
  · refine hi.writer x ?_ (by rw [← hcommit]; exact hc)
    have hx : x.toNat < m.claims.length := hx
    rw [hclaims] at hx
    exact hx

/-- A step of handle `h` that touches no memory. -/
theorem Inv.handleLocal (hi : Inv s) (hown : HandleOk s.mem d) : Inv (s.setHandle h s.mem d) :=
  hi.ofHandle hi.mem hi.prod rfl rfl hown

end Handle

end Frame

/-! ## Owners -/

section Owners
variable {s : St α P H} {m : Mem α P} {p p' : P} {c : Producer α} {x y : U2}

/-- What an owner knows of its slot all the time. -/
structure Held (m : Mem α P) (p : P) (ct : U2) : Prop where
  last : m.last (indexOf ct) = some (p, ct)
  tag : m.rc ct &&& ~~~epMask = m.q.epoch
  pend : m.cc = 0 ∨ m.cc &&& ReadCounter.pend (m.rc ct) ≠ 0

theorem Pre.held (h : Pre m p x) : Held m p x := by
  refine ⟨h.last, h.tag, ?_⟩
  rw [h.pend, BitVec.and_self]
  exact Decidable.em _

theorem Post.held (h : Post m p x) : Held m p x := ⟨h.last, h.tag, h.pend⟩

theorem ProdOk.held (h : ProdOk s.mem p (s.prod p)) (ho : s.Owns p) :
    Held s.mem p (s.prod p).ct := by
  unfold ProdOk at h
  unfold St.Owns at ho
  cases hpc : (s.prod p).pc <;> simp only [hpc] at h ho
  · exact (h.2 ho).held
  · exact h.held
  · exact h.held
  · exact h.held

theorem eq_of_toNat {n : Nat} (hx : x.toNat = n) (hy : y.toNat = n) : x = y :=
  BitVec.eq_of_toNat_eq (hx.trans hy.symm)

/-- Two indices of one lap on the same slot. -/
theorem eq_of_indexOf (h : indexOf x = indexOf y) (hxy : x.toNat < y.toNat + 256)
    (hyx : y.toNat < x.toNat + 256) : x = y := by
  rw [indexOf_eq_slot, indexOf_eq_slot] at h
  exact BitVec.eq_of_toNat_eq (Lib.Window.eq_of_slot_eq h hxy hyx)

theorem MemOk.uncommitted (hm : MemOk m) (h : m.claimed ≤ x.toNat) : m.commit x = false := by
  cases hc : m.commit x with
  | false => rfl
  | true => have := hm.commit x hc; omega

/-- What a compare-exchange of `rc_` that succeeds on fresh values has found. -/
structure Wins (m : Mem α P) (c : Producer α) : Prop where
  rc : m.rc c.ct = c.rc
  cc : c.cc = m.cc
  ne : c.cc ≠ 0
  epoch : c.epoch = m.q.epoch
  low : c.epoch &&& epMask = 0
  next : c.ct.toNat = m.claimed
  free : ∀ p x, Held m p x → indexOf x ≠ indexOf c.ct

theorem Inv.wins (hi : Inv s) (hpc : (s.prod p).pc = .casRc) (hf : Fresh s (s.prod p))
    (hrc : s.mem.rc (s.prod p).ct = (s.prod p).rc) : Wins s.mem (s.prod p) := by
  have hok := hi.prod p
  simp only [ProdOk, hpc] at hok
  obtain ⟨hl, hfree, hnext⟩ := hok
  obtain ⟨hver, hadds, hupd, hforce⟩ := hf
  have hcc := hl.cc.same hver
  have hepoch := hl.epoch.same hadds
  have hsame : s.mem.upd (indexOf (s.prod p).ct) = (s.prod p).seen := by
    have h := hl.count
    rw [← hrc, Mem.rc, hi.mem.count, ← BitVec.toNat_inj, BitVec.toNat_ofNat,
      BitVec.toNat_ofNat] at h
    have := hl.since
    omega
  -- a slot marked under this epoch passes the test for its bits only
  have hbits : s.mem.rc (s.prod p).ct &&& ~~~epMask = s.mem.q.epoch →
      s.mem.cc &&& pend (s.mem.rc (s.prod p).ct) = 0 := by
    intro htag
    rw [← hcc, hrc]
    exact hfree.resolve_right fun h => h.2 (by rw [← hrc, htag, hepoch])
  refine ⟨hrc, hcc, hl.cc.ne, hepoch, hl.epoch.low, ?_, ?_⟩
  · by_cases hk : (s.prod p).kind = .force
    · rw [hforce hk, hi.mem.ct]
    · by_contra hne
      have hlt := Nat.lt_of_le_of_ne hl.ct.le hne
      have h0 := hbits (hl.ct.tag hk hlt hadds)
      have hsub := hl.ct.pend hk hlt hver
      have hclear : pend (s.mem.rc (s.prod p).ct) = 0 := by
        apply Lib.Bits.eq_zero_iff.mpr
        intro i
        cases hb : (pend (s.mem.rc (s.prod p).ct)).getLsbD i with
        | false => rfl
        | true =>
          have h₁ := Lib.Bits.eq_zero_iff.mp hsub i
          have h₂ := Lib.Bits.eq_zero_iff.mp h0 i
          rw [Lib.Bits.getLsbD_and_not, hb] at h₁
          rw [BitVec.getLsbD_and, hb] at h₂
          cases hc : s.mem.cc.getLsbD i <;> simp [hc] at h₁ h₂
      exact hne (hnext hk (hrc ▸ hclear) hsame hadds hver).1
  · intro p' x hh he
    have hx : s.mem.rc x = s.mem.rc (s.prod p).ct := by rw [Mem.rc, Mem.rc, he]
    have h0 := hbits (hx ▸ hh.tag)
    rcases hh.pend with h | h
    · exact hl.cc.ne (hcc.trans h)
    · exact h (hx ▸ h0)

end Owners

/-! ## The steps that write -/

section Words
variable (m : Mem α P) (σ : BitVec 8) (rc : RC) (fl : Flag) (x : U2)

@[simp] theorem setRc_claimed : (m.setRc σ rc).claimed = m.claimed := rfl
@[simp] theorem setFl_claimed : (m.setFl σ fl).claimed = m.claimed := rfl

theorem setRc_elem : (m.setRc σ rc).rc x = if indexOf x = σ then rc else m.rc x :=
  setRc_rc m.q σ (indexOf x) rc

theorem setRc_upd (τ : BitVec 8) :
    (m.setRc σ rc).upd τ = if τ = σ then m.upd τ + 1 else m.upd τ := by
  unfold Mem.setRc
  dsimp only
  rw [Function.update_apply]
  split
  · rename_i he; rw [he]
  · rfl

end Words

section Steps
variable {s t : St α P H} {m : Mem α P} {p : P} {c : Producer α}

theorem Mem.win_rc (x : U2) :
    (m.win p c).rc x = if indexOf x = indexOf c.ct then mark c.epoch c.rc c.cc else m.rc x :=
  setRc_elem m _ _ x

theorem Mem.win_last (σ : BitVec 8) :
    (m.win p c).last σ = if σ = indexOf c.ct then some (p, c.ct) else m.last σ :=
  Function.update_apply ..

theorem Mem.win_upd (τ : BitVec 8) :
    (m.win p c).upd τ = if τ = indexOf c.ct then m.upd τ + 1 else m.upd τ :=
  setRc_upd m _ (mark c.epoch c.rc c.cc) τ

theorem MemOk.win (hm : MemOk m) (hw : Wins m c) : MemOk (m.win p c) := by
  refine { hm with count := ?_, found := ?_, flag := ?_, last := ?_, marked := ?_ }
  · intro σ
    show ReadCounter.Channel.count ((m.q.setRc _ _).elems σ).rc = _
    rw [setRc_rc, Mem.win_upd]
    split
    · rename_i he
      rw [count_mark c.rc c.cc hw.low, ← hw.rc, Mem.rc, hm.count, he, ← BitVec.ofNat_add_ofNat]
    · exact hm.count σ
  · intro σ x h
    exact hm.found σ x ((setRc_fCt ..).symm.trans h)
  · intro x hlt hlap hc
    exact (hm.flag x hlt hlap hc).imp (fun h => (setRc_fCt ..).trans h)
      fun h => (setRc_fCt ..).trans h
  · intro σ p' x h
    rw [Mem.win_last] at h
    split at h
    · rename_i he
      cases h
      exact ⟨he.symm, Nat.le_of_eq hw.next, by rw [hw.next]; exact Nat.le_add_right ..⟩
    · exact hm.last σ p' x h
  · intro p' x h hn
    rw [Mem.win_last] at h
    rw [Mem.win_rc]
    split at h
    · rename_i he
      rw [if_pos he, pend_mark]
      exact hw.ne
    · rename_i he
      rw [if_neg he]
      exact hm.marked p' x h hn

theorem Later.win (hw : Wins m c) : Later m (m.win p c) where
  claimed := Nat.le_refl _
  adds := Nat.le_refl _
  epoch := fun _ => rfl
  ver := Nat.le_refl _
  cc := fun _ => rfl
  upd := fun σ => by rw [Mem.win_upd]; split <;> omega
  rc := fun σ h => by
    rw [Mem.win_upd] at h
    have hne : σ ≠ indexOf c.ct := by
      intro he
      rw [if_pos he] at h
      omega
    exact (setRc_rc ..).trans (if_neg hne)
  tag := fun _ x hlt h => by
    rw [Mem.win_rc]
    split
    · rw [tag_mark c.rc c.cc hw.low]; exact hw.epoch
    · exact h hlt
  pend := fun _ x hlt h => by
    rw [Mem.win_rc]
    split
    · rw [pend_mark, hw.cc]; exact BitVec.and_not_self _
    · exact h hlt
  next := fun x hu hx _ => by
    rw [eq_of_toNat hx hw.next, Mem.win_upd, if_pos rfl] at hu
    omega

theorem Inv.win [DecidableEq P] (hi : Inv s) (hpc : (s.prod p).pc = .casRc)
    (hw : Wins s.mem (s.prod p)) :
    Inv (s.setProd p (s.mem.win p (s.prod p)) { s.prod p with pc := .check }) := by
  have hok := hi.prod p
  simp only [ProdOk, hpc] at hok
  refine hi.ofProd (hi.mem.win hw) ⟨?_, fun _ => ⟨hw.next, ?_, ?_, ?_⟩⟩ ?_ (fun _ h => h) ?_
  · exact { hok.1.epoch with }
  · exact (Mem.win_last _).trans (if_pos rfl)
  · rw [Mem.win_rc, if_pos rfl, tag_mark _ _ hw.low]
    exact hw.epoch
  · rw [Mem.win_rc, if_pos rfl, pend_mark]
    exact hw.cc
  · intro p' _
    refine (hi.prod p').later (Later.win hw) (fun _ h => h) (fun _ h => ?_) (fun _ h => ?_)
    · exact absurd (by rw [eq_of_toNat h.next hw.next]) (hw.free _ _ h.held)
    · have hne := hw.free _ _ h.held
      have hrc : (s.mem.win p (s.prod p)).rc (s.prod p').ct = s.mem.rc (s.prod p').ct := by
        rw [Mem.win_rc, if_neg hne]
      exact ⟨h.lt, by rw [Mem.win_last, if_neg hne]; exact h.last, by rw [hrc]; exact h.tag,
        h.unwritten, by rw [hrc]; exact h.pend⟩
  · exact fun x hx _ => .inr ⟨hx, fun h => by rw [hpc] at h; cases h.1⟩

/-! ### The stores of `ct_` and `f_ct_` -/

theorem Mem.advance_claimed (ct : U2) : (m.advance ct).claimed = m.claimed + 1 := by
  simp [Mem.advance, Mem.claimed]

theorem MemOk.advance (hm : MemOk m) {ct : U2} (h : Pre m p ct) (hsmall : m.claimed + 1 < 2 ^ 32) :
    MemOk (m.advance ct) := by
  have hn := m.advance_claimed ct
  have hnext := h.next
  refine { hm with
    small := by rw [hn]; exact hsmall, ct := ?_, claims := ?_, nodup := ?_, commit := ?_
    flag := ?_, last := ?_, marked := ?_ }
  · show (ct + 1).toNat = _
    have h1 : (1 : U2).toNat = 1 := rfl
    rw [hn, BitVec.toNat_add, h1, hnext]
    omega
  · intro x hx
    rw [hn]
    rcases List.mem_append.mp hx with hx | hx
    · have := hm.claims x hx
      omega
    · obtain rfl := List.mem_singleton.mp hx
      omega
  · refine List.Nodup.append hm.nodup (List.nodup_singleton ct) fun x hx hx' => ?_
    obtain rfl := List.mem_singleton.mp hx'
    have := hm.claims x hx
    omega
  · intro x hx
    have := hm.commit x hx
    omega
  · intro x hlt hlap hc
    have := hm.commit x hc
    exact hm.flag x (by omega) (by omega) hc
  · intro σ p' x hx
    have hx : m.last σ = some (p', x) := hx
    obtain ⟨hσ, hle, hlap⟩ := hm.last σ p' x hx
    refine ⟨hσ, by omega, ?_⟩
    -- the slot of the index given out was marked for this very index
    by_contra hc
    have hslot : indexOf x = indexOf ct := by
      rw [indexOf_eq_slot, indexOf_eq_slot, hnext, show m.claimed = x.toNat + 2 ^ 8 by omega,
        Lib.Window.slot_add_lap]
    have hlast := h.last
    rw [← hslot, hσ, hx] at hlast
    obtain ⟨-, rfl⟩ := Prod.mk.inj (Option.some.inj hlast)
    omega
  · intro p' x hx hxn
    obtain ⟨-, hle, -⟩ := hm.last _ p' x hx
    omega

theorem Later.advance {ct : U2} (h : Pre m p ct) : Later m (m.advance ct) where
  claimed := by rw [Mem.advance_claimed]; omega
  adds := Nat.le_refl _
  epoch := fun _ => rfl
  ver := Nat.le_refl _
  cc := fun _ => rfl
  upd := fun _ => Nat.le_refl _
  rc := fun _ _ => rfl
  tag := fun _ x hlt hx => by
    rw [Mem.advance_claimed] at hlt
    by_cases he : x.toNat < m.claimed
    · exact hx he
    · rw [eq_of_toNat (x := x) (by omega) h.next]
      exact h.tag
  pend := fun _ x hlt hx => by
    rw [Mem.advance_claimed] at hlt
    by_cases he : x.toNat < m.claimed
    · exact hx he
    · rw [eq_of_toNat (x := x) (by omega) h.next]
      show ReadCounter.pend (m.rc ct) &&& ~~~m.cc = 0
      rw [h.pend]
      exact BitVec.and_not_self _
  next := fun x _ hx hno => by
    rw [eq_of_toNat hx h.next] at hno
    exact absurd h.last (hno p)

theorem Inv.advance [DecidableEq P] (hi : Inv s) (hpc : (s.prod p).pc = .storeCt)
    (hsmall : s.mem.claimed + 1 < 2 ^ 32) :
    Inv (s.setProd p (s.mem.advance (s.prod p).ct) { s.prod p with pc := .writeData }) := by
  have h := hi.prod p
  simp only [ProdOk, hpc] at h
  have hn := s.mem.advance_claimed (s.prod p).ct
  have hheld := h.held
  refine hi.ofProd (hi.mem.advance h hsmall) ?_ ?_ (fun _ h => h) ?_
  · refine ⟨?_, h.last, h.tag, hi.mem.uncommitted (Nat.le_of_eq h.next.symm), hheld.pend⟩
    show (s.prod p).ct.toNat < _
    rw [hn, h.next]
    exact Nat.lt_succ_self _
  · intro p' hne
    refine (hi.prod p').later (Later.advance h) (fun _ h => h) (fun _ h' => ?_) (fun _ h' => ?_)
    · have hlast := h'.last
      rw [eq_of_toNat h'.next h.next, h.last] at hlast
      exact absurd (congrArg Prod.fst (Option.some.inj hlast)).symm hne
    · exact ⟨by rw [hn]; exact Nat.lt_succ_of_lt h'.lt, h'.last, h'.tag, h'.unwritten, h'.pend⟩
  · intro x hx _
    rw [hn] at hx
    by_cases he : x.toNat < s.mem.claimed
    · exact .inr ⟨he, fun hw => by rw [hpc] at hw; cases hw.1⟩
    · exact .inl ⟨rfl, eq_of_toNat h.next (by omega)⟩

/-- Memories that differ in data and flags only. -/
structure Alike (m m' : Mem α P) : Prop where
  rc : ∀ σ, (m'.q.elems σ).rc = (m.q.elems σ).rc
  epoch : m'.q.epoch = m.q.epoch
  cc : m'.cc = m.cc
  claims : m'.claims = m.claims
  last : m'.last = m.last
  upd : m'.upd = m.upd
  ver : m'.ver = m.ver
  adds : m'.adds = m.adds

section Alike
variable {m' : Mem α P} {x : U2}

theorem Alike.claimed (h : Alike m m') : m'.claimed = m.claimed := congrArg List.length h.claims

theorem Alike.later (h : Alike m m') : Later m m' where
  claimed := Nat.le_of_eq h.claimed.symm
  adds := Nat.le_of_eq h.adds.symm
  epoch := fun _ => h.epoch
  ver := Nat.le_of_eq h.ver.symm
  cc := fun _ => h.cc
  upd := fun σ => by rw [h.upd]
  rc := fun σ _ => h.rc σ
  tag := fun _ x hlt hx => by
    rw [Mem.rc, h.rc, h.epoch]
    exact hx (h.claimed ▸ hlt)
  pend := fun _ x hlt hx => by
    rw [Mem.rc, h.rc, h.cc]
    exact hx (h.claimed ▸ hlt)
  next := fun x _ hx hno => ⟨hx.trans h.claimed.symm, by rw [h.last]; exact hno⟩

theorem Pre.alike (hp : Pre m p x) (h : Alike m m') : Pre m' p x :=
  ⟨hp.next.trans h.claimed.symm, by rw [h.last]; exact hp.last,
    by rw [Mem.rc, h.rc, h.epoch]; exact hp.tag, by rw [Mem.rc, h.rc, h.cc]; exact hp.pend⟩

theorem Post.alike (hp : Post m p x) (h : Alike m m') (hc : m'.commit x = false) : Post m' p x :=
  ⟨by rw [h.claimed]; exact hp.lt, by rw [h.last]; exact hp.last,
    by rw [Mem.rc, h.rc, h.epoch]; exact hp.tag, hc, by rw [Mem.rc, h.rc, h.cc]; exact hp.pend⟩

/-- A producer does not notice a write of data or of a flag. -/
theorem ProdOk.alike (hp : ProdOk m p c) (h : Alike m m')
    (hc : c.pc.writing = true → Post m p c.ct → m'.commit c.ct = false) : ProdOk m' p c :=
  hp.later h.later (fun _ he => he.trans h.epoch) (fun _ hp => hp.alike h)
    fun hw hp => hp.alike h (hc hw hp)

theorem MemOk.alike (hm : MemOk m) (h : Alike m m') (hct : m'.q.ct = m.q.ct)
    (hcommit : ∀ x, m'.commit x = true → x.toNat < m.claimed)
    (hfound : ∀ σ x, (m'.q.elems σ).fCt = committed x → m'.commit x = true)
    (hflag : ∀ x, x.toNat < m.claimed → m.claimed ≤ x.toNat + 256 → m'.commit x = true →
      m'.fl x = committed x ∨ m'.fl x = freed (x + 1)) : MemOk m' where
  small := by rw [h.claimed]; exact hm.small
  ct := by rw [hct, h.claimed]; exact hm.ct
  claims := by rw [h.claims, h.claimed]; exact hm.claims
  nodup := by rw [h.claims]; exact hm.nodup
  epoch := by rw [h.epoch]; exact hm.epoch
  count := fun σ => by rw [h.rc, h.upd]; exact hm.count σ
  commit := by rw [h.claimed]; exact hcommit
  found := hfound
  flag := by rw [h.claimed]; exact hflag
  last := by rw [h.last, h.claimed]; exact hm.last
  marked := by
    rw [h.last, h.claimed]
    intro p x hx hn
    rw [Mem.rc, h.rc]
    exact hm.marked p x hx hn

end Alike

/-- The write of the data. -/
theorem Inv.write [DecidableEq P] (hi : Inv s) (hpc : (s.prod p).pc = .writeData) :
    Inv (s.setProd p { s.mem with q := s.mem.q.setData (indexOf (s.prod p).ct) (s.prod p).x }
      { s.prod p with pc := .storeFl }) := by
  have h := hi.prod p
  simp only [ProdOk, hpc] at h
  have ha : Alike s.mem
      { s.mem with q := s.mem.q.setData (indexOf (s.prod p).ct) (s.prod p).x } :=
    ⟨fun σ => setData_rc .., rfl, rfl, rfl, rfl, rfl, rfl, rfl⟩
  refine hi.ofProd (hi.mem.alike ha rfl hi.mem.commit ?_ ?_) (h.alike ha h.unwritten) ?_
    (fun _ h => h) ?_
  · exact fun σ x hx => hi.mem.found σ x ((setData_fCt ..).symm.trans hx)
  · intro x hlt hlap hc
    rw [Mem.fl, setData_fCt]
    exact hi.mem.flag x hlt hlap hc
  · exact fun p' _ => (hi.prod p').alike ha fun _ h => h.unwritten
  · intro x hx _
    by_cases he : (s.prod p).ct = x
    · exact .inl ⟨rfl, he⟩
    · exact .inr ⟨hx, fun hw => he hw.2⟩

/-- The store of the commit flag: the push returns true. -/
theorem Inv.commit [DecidableEq P] (hi : Inv s) (hpc : (s.prod p).pc = .storeFl) :
    Inv (s.setProd p (s.mem.publish (s.prod p).ct) { s.prod p with pc := .idle }) := by
  have h := hi.prod p
  simp only [ProdOk, hpc] at h
  obtain ⟨-, -, hlap⟩ := hi.mem.last _ _ _ h.last
  have ha : Alike s.mem (s.mem.publish (s.prod p).ct) :=
    ⟨fun σ => setFl_rc .., rfl, rfl, rfl, rfl, rfl, rfl, rfl⟩
  have hcm : ∀ x, (s.mem.publish (s.prod p).ct).commit x =
      if x = (s.prod p).ct then true else s.mem.commit x := fun x => Function.update_apply ..
  have hmono : ∀ x, s.mem.commit x = true → (s.mem.publish (s.prod p).ct).commit x = true := by
    intro x hx
    rw [hcm]
    split
    · rfl
    · exact hx
  refine hi.ofProd (hi.mem.alike ha rfl ?_ ?_ ?_) trivial ?_ hmono ?_
  · intro x hx
    rw [hcm] at hx
    split at hx
    · rename_i he; rw [he]; exact h.lt
    · exact hi.mem.commit x hx
  · intro σ x hx
    rw [Mem.publish, Mem.setFl, setFl_fCt] at hx
    split at hx
    · rw [← committed_inj hx, hcm, if_pos rfl]
    · exact hmono x (hi.mem.found σ x hx)
  · intro x hlt hlap' hx
    rw [Mem.fl, Mem.publish, Mem.setFl, setFl_fCt]
    rw [hcm] at hx
    by_cases he : x = (s.prod p).ct
    · subst he; rw [if_pos rfl]; exact .inl rfl
    · rw [if_neg he] at hx
      rw [if_neg]
      · exact hi.mem.flag x hlt hlap' hx
      · intro hs
        have := h.lt
        exact he (eq_of_indexOf hs (by omega) (by omega))
  · refine fun p' hne => (hi.prod p').alike ha fun _ h' => ?_
    rw [hcm, if_neg]
    · exact h'.unwritten
    · intro he
      have hlast := h'.last
      rw [he, h.last] at hlast
      exact hne (congrArg Prod.fst (Option.some.inj hlast)).symm
  · intro x hx hc
    refine .inr ⟨hx, fun hw => ?_⟩
    rw [hcm, if_pos hw.2.symm] at hc
    cases hc

/-! ### The epoch and the connection word -/

/-- The `fetch_add` of `force_push`: nobody is past its check, and those before it fail. -/
theorem Inv.setEpoch [DecidableEq P] (hi : Inv s) (hpc : (s.prod p).pc = .addEpoch) {epoch : RC}
    (hlow : epoch &&& epMask = 0)
    (hcheck : ∀ p', (s.prod p').pc = .check → (s.prod p').epoch ≠ epoch)
    (hquiet : ∀ p', (s.prod p').pc ≠ .storeCt ∧ (s.prod p').pc.writing = false) :
    Inv (s.setProd p
      { s.mem with q := { s.mem.q with epoch := epoch }, adds := s.mem.adds + 1 }
      { s.prod p with pc := .loadCc, kind := .force, epoch := epoch, adds := s.mem.adds + 1 }) := by
  have hl : Later s.mem
      { s.mem with q := { s.mem.q with epoch := epoch }, adds := s.mem.adds + 1 } :=
    { claimed := Nat.le_refl _
      adds := Nat.le_succ _
      epoch := fun h => absurd h (Nat.succ_ne_self _)
      ver := Nat.le_refl _
      cc := fun _ => rfl
      upd := fun _ => Nat.le_refl _
      rc := fun _ _ => rfl
      tag := fun h => absurd h (Nat.succ_ne_self _)
      pend := fun _ _ hlt h => h hlt
      next := fun _ _ hx hno => ⟨hx, hno⟩ }
  refine hi.ofProd { hi.mem with epoch := hlow } ⟨hlow, Nat.le_refl _, fun _ => rfl⟩ ?_
    (fun _ h => h) fun x hx _ => .inr ⟨hx, fun h => by rw [hpc] at h; cases h.1⟩
  intro p' _
  refine (hi.prod p').later hl (fun hc he => absurd he (hcheck p' hc)) (fun hc _ => ?_)
    (fun hw _ => by rw [(hquiet p').2] at hw; cases hw)
  rcases hc with ⟨hc, he⟩ | hc
  · exact absurd he (hcheck p' hc)
  · exact absurd hc (hquiet p').1

theorem Inv.addEpoch [DecidableEq P] (hi : Inv s) (hpc : (s.prod p).pc = .addEpoch)
    (hq : ∀ p', Quiet s (s.prod p')) :
    Inv (s.setProd p
      { s.mem with q := { s.mem.q with epoch := s.mem.q.epoch + epIncr }, adds := s.mem.adds + 1 }
      { s.prod p with
        pc := .loadCc, kind := .force, epoch := s.mem.q.epoch + epIncr, adds := s.mem.adds + 1 }) := by
  refine hi.setEpoch hpc (epoch_add_epIncr hi.mem.epoch) (fun p' hc => ?_) (fun p' => ?_)
  · have hp' := hq p'
    simp only [Quiet, hc] at hp'
    exact hp'
  · have hp' := hq p'
    unfold Quiet at hp'
    cases hc : (s.prod p').pc <;> simp only [hc] at hp' <;> exact ⟨by decide, rfl⟩

theorem MemOk.setCc (hm : MemOk m) (cc : CC) : MemOk (m.setCc cc) := { hm with }

theorem Later.setCc (cc : CC) : Later m (m.setCc cc) where
  claimed := Nat.le_refl _
  adds := Nat.le_refl _
  epoch := fun _ => rfl
  ver := Nat.le_succ _
  cc := fun h => absurd h (Nat.succ_ne_self _)
  upd := fun _ => Nat.le_refl _
  rc := fun _ _ => rfl
  tag := fun _ _ hlt h => h hlt
  pend := fun h => absurd h (Nat.succ_ne_self _)
  next := fun _ _ hx hno => ⟨hx, hno⟩

/-- A write of `cc_` that spares the slots under way. -/
theorem Inv.setCc (hi : Inv s) {cc : CC} (hs : Spares s cc (s.prod p)) :
    ProdOk (s.mem.setCc cc) p (s.prod p) := by
  unfold Spares at hs
  refine (hi.prod p).later (Later.setCc cc) (fun _ he => he) (fun hc _ => ?_) (fun hw hp => ?_)
  · rcases hc with ⟨hc, he⟩ | hc
    · simp only [hc] at hs
      exact absurd he hs
    · simp only [hc] at hs
  · refine ⟨hp.lt, hp.last, hp.tag, hp.unwritten, ?_⟩
    cases hc : (s.prod p).pc <;> simp only [hc] at hw hs <;> first | exact hs | cases hw

/-! ### The stores of `pop` -/

section Pops
variable {h : H} {d : Handle α}

/-- The slot that a pop may store to is nobody's: its index is written. -/
theorem Inv.current (hi : Inv s) (hpop : (s.handle h).pc.popping = true)
    (hc : Current s (s.handle h)) : ∃ x p, (s.handle h).cur = x + 1 ∧ s.mem.commit x = true ∧
      (s.handle h).el = indexOf x ∧ s.mem.last (indexOf x) = some (p, x) ∧
      ∀ p' y, Held s.mem p' y → indexOf y = indexOf x → y = x := by
  obtain ⟨hcm, hel⟩ := (hi.handle h).taken hpop
  obtain ⟨⟨p, x⟩, hlast, hx⟩ := Option.map_eq_some_iff.mp hc
  obtain rfl : x = (s.handle h).cur - 1 := hx
  rw [hel] at hlast
  refine ⟨_, p, (BitVec.sub_add_cancel ..).symm, hcm, hel, hlast, fun p' y hy he => ?_⟩
  have := hy.last
  rw [he, hlast] at this
  exact (congrArg Prod.snd (Option.some.inj this)).symm

/-- The flag of the last reader. -/
theorem Inv.free (hi : Inv s) (hpop : (s.handle h).pc.popping = true)
    (hc : Current s (s.handle h)) :
    MemOk (s.mem.setFl (s.handle h).el (freed (s.handle h).cur)) ∧
      ∀ p, ProdOk (s.mem.setFl (s.handle h).el (freed (s.handle h).cur)) p (s.prod p) := by
  obtain ⟨x, p, hcur, hcm, hel, hlast, -⟩ := hi.current hpop hc
  obtain ⟨-, -, hlap⟩ := hi.mem.last _ _ _ hlast
  have hlt := hi.mem.commit x hcm
  rw [hcur, hel]
  have ha : Alike s.mem (s.mem.setFl (indexOf x) (freed (x + 1))) :=
    ⟨fun σ => setFl_rc .., rfl, rfl, rfl, rfl, rfl, rfl, rfl⟩
  refine ⟨hi.mem.alike ha rfl hi.mem.commit ?_ ?_, fun p => ?_⟩
  · intro σ y hy
    rw [Mem.setFl, setFl_fCt] at hy
    split at hy
    · exact absurd hy (freed_ne_committed _ _)
    · exact hi.mem.found σ y hy
  · intro y hy hylap hyc
    rw [Mem.fl, Mem.setFl, setFl_fCt]
    by_cases he : indexOf y = indexOf x
    · rw [if_pos he, eq_of_indexOf he (by omega) (by omega)]
      exact .inr rfl
    · rw [if_neg he]
      exact hi.mem.flag y hy hylap hyc
  · exact (hi.prod p).alike ha fun _ h => h.unwritten

/-- The compare-exchange of `pop`. -/
theorem Inv.clear (hi : Inv s) (hpc : (s.handle h).pc = .casRc) (hc : Current s (s.handle h))
    (hrc : (s.mem.q.elems (s.handle h).el).rc = (s.handle h).rc) :
    MemOk (s.mem.setRc (s.handle h).el (s.handle h).nxt) ∧
      ∀ p, ProdOk (s.mem.setRc (s.handle h).el (s.handle h).nxt) p (s.prod p) := by
  have hpop : (s.handle h).pc.popping = true := by rw [hpc]; rfl
  obtain ⟨x, p, -, hcm, hel, hlast, hheld⟩ := hi.current hpop hc
  obtain ⟨id, hnxt⟩ := (hi.handle h).nxt (.inr hpc)
  have hlt := hi.mem.commit x hcm
  rw [hel] at hrc ⊢
  rw [hnxt, ← hrc]
  generalize hm : s.mem.setRc (indexOf x)
    (incRc (s.mem.q.elems (indexOf x)).rc &&& ~~~id.setWidth 64) = m
  have hrc' : ∀ y, m.rc y = if indexOf y = indexOf x
      then incRc (s.mem.rc y) &&& ~~~id.setWidth 64 else s.mem.rc y := by
    intro y
    rw [← hm, setRc_elem]
    split
    · rename_i he; rw [Mem.rc, he]
    · rfl
  have hupd : ∀ τ, m.upd τ = if τ = indexOf x then s.mem.upd τ + 1 else s.mem.upd τ := by
    intro τ
    rw [← hm, setRc_upd]
  have hl : Later s.mem m := by
    subst hm
    exact
      { claimed := Nat.le_refl _
        adds := Nat.le_refl _
        epoch := fun _ => rfl
        ver := Nat.le_refl _
        cc := fun _ => rfl
        upd := fun σ => by rw [hupd]; split <;> omega
        rc := fun σ hu => by
          rw [hupd] at hu
          have hne : σ ≠ indexOf x := by
            intro he
            rw [if_pos he] at hu
            omega
          exact (setRc_rc ..).trans (if_neg hne)
        tag := fun _ y hy h => by
          rw [hrc']
          split
          · rw [tag_clear]; exact h hy
          · exact h hy
        pend := fun _ y hy h => by
          rw [hrc']
          split
          · rw [pend_and_not, pend_incRc, BitVec.and_assoc, BitVec.and_comm (~~~id),
              ← BitVec.and_assoc]
            exact (congrArg (· &&& ~~~id) (h hy)).trans BitVec.zero_and
          · exact h hy
        next := fun _ _ hx hno => ⟨hx, hno⟩ }
  have hkeep : ∀ y, indexOf y ≠ indexOf x → m.rc y = s.mem.rc y := fun y hne => by
    rw [hrc', if_neg hne]
  have hclaimed : m.claimed = s.mem.claimed := by rw [← hm]; rfl
  refine ⟨?_, fun p' => ?_⟩
  · subst hm
    refine { hi.mem with count := ?_, found := ?_, flag := ?_, marked := ?_ }
    · intro σ
      show ReadCounter.Channel.count ((s.mem.q.setRc _ _).elems σ).rc = _
      rw [setRc_rc, hupd]
      split
      · rename_i he
        rw [he, count_and_not, count_incRc, hi.mem.count, ← BitVec.ofNat_add_ofNat]
      · exact hi.mem.count σ
    · exact fun σ y hy => hi.mem.found σ y ((setRc_fCt ..).symm.trans hy)
    · intro y hy hylap hyc
      exact (hi.mem.flag y hy hylap hyc).imp (fun h => (setRc_fCt ..).trans h)
        fun h => (setRc_fCt ..).trans h
    · intro p' y hy hn
      have hy : s.mem.last (indexOf y) = some (p', y) := hy
      rw [hkeep]
      · exact hi.mem.marked p' y hy hn
      · intro he
        rw [he, hlast] at hy
        obtain ⟨-, rfl⟩ := Prod.mk.inj (Option.some.inj hy)
        exact absurd hn (Nat.ne_of_lt hlt)
  · have hepoch : m.q.epoch = s.mem.q.epoch := by rw [← hm]; rfl
    have hcc : m.cc = s.mem.cc := by rw [← hm]; rfl
    have hlast' : m.last = s.mem.last := by rw [← hm]; rfl
    refine (hi.prod p').later hl (fun _ he => he.trans hepoch) (fun _ hp => ?_) (fun _ hp => ?_)
    · have hne : indexOf (s.prod p').ct ≠ indexOf x := by
        intro he
        have := hp.next
        rw [hheld _ _ hp.held he] at this
        omega
      exact ⟨hp.next.trans hclaimed.symm, by rw [hlast']; exact hp.last,
        by rw [hkeep _ hne, hepoch]; exact hp.tag, by rw [hkeep _ hne, hcc]; exact hp.pend⟩
    · have hne : indexOf (s.prod p').ct ≠ indexOf x := by
        intro he
        have := hp.unwritten
        rw [hheld _ _ hp.held he, hcm] at this
        cases this
      have hcommit : m.commit = s.mem.commit := by rw [← hm]; rfl
      exact ⟨by rw [hclaimed]; exact hp.lt, by rw [hlast']; exact hp.last,
        by rw [hkeep _ hne, hepoch]; exact hp.tag, by rw [hcommit]; exact hp.unwritten,
        by rw [hkeep _ hne, hcc]; exact hp.pend⟩

end Pops

/-! ## Every step -/

/-- A slot without pending bits whose flag lets the index pass belongs to the next index. -/
theorem Inv.next (hi : Inv s) (hpc : (s.prod p).pc = .loadFl)
    (hfl : occupied (s.prod p).ct (s.mem.fl (s.prod p).ct) = false) : Next s.mem (s.prod p) := by
  have hok := hi.prod p
  simp only [ProdOk, hpc] at hok
  obtain ⟨hl, -, -⟩ := hok
  intro _ h0 hupd _ hver
  have hm := hi.mem
  have hcc := hl.cc.same hver
  have hclear : pend (s.mem.rc (s.prod p).ct) = 0 := by rw [hl.same hupd]; exact h0
  have hnext : (s.prod p).ct.toNat = s.mem.claimed := by
    by_contra hne
    have hlt := Nat.lt_of_le_of_ne hl.ct.le hne
    obtain ⟨i, hle, hi', hlap, hslot⟩ := Lib.Window.exists_last (w := 8) hlt
    have hx : (BitVec.ofNat 32 i).toNat = i := by
      have := hm.small
      rw [BitVec.toNat_ofNat]
      omega
    have hsl : indexOf (BitVec.ofNat 32 i) = indexOf (s.prod p).ct := by
      rw [indexOf_ofNat, indexOf_eq_slot]
      exact hslot
    cases hc : s.mem.commit (BitVec.ofNat 32 i) with
    | false =>
      -- somebody still writes it, and those it was marked for are connected
      obtain ⟨p', hw, hct⟩ := hi.writer _ (by rw [hx]; exact hi') hc
      have howns : s.Owns p' := by
        unfold St.Owns
        cases hpc' : (s.prod p').pc <;> rw [hpc'] at hw <;> trivial
      have hh := (hi.prod p').held howns
      rw [hct] at hh
      have hrc : s.mem.rc (BitVec.ofNat 32 i) = s.mem.rc (s.prod p).ct := by
        rw [Mem.rc, Mem.rc, hsl]
      rcases hh.pend with h | h
      · exact hl.cc.ne (hcc.trans h)
      · rw [hrc, hclear] at h
        exact h BitVec.and_zero
    | true =>
      have hflag := hm.flag _ (by rw [hx]; exact hi') (by rw [hx]; exact hlap) hc
      have hsame : s.mem.fl (s.prod p).ct = s.mem.fl (BitVec.ofNat 32 i) := by
        rw [Mem.fl, Mem.fl, hsl]
      have hpass : s.mem.fl (s.prod p).ct = (s.prod p).ct.setWidth 64 ∨
          s.mem.fl (s.prod p).ct = 0 := by
        by_contra hno
        rw [not_or] at hno
        simp [occupied, hno.1] at hfl
        exact hno.2 hfl
      have hlen := (s.prod p).ct.isLt
      have hsmall := hm.small
      rcases hflag with hf | hf <;> rcases hpass with hq | hq
      · have h := congrArg BitVec.toNat ((hsame.trans hf).symm.trans hq)
        rw [committed_toNat, BitVec.toNat_setWidth, hx] at h
        omega
      · exact committed_ne_zero _ ((hsame.trans hf).symm.trans hq)
      · have h := congrArg BitVec.toNat ((hsame.trans hf).symm.trans hq)
        rw [freed_toNat, ofNat_add_one, BitVec.toNat_setWidth, BitVec.toNat_ofNat] at h
        omega
      · have h := congrArg BitVec.toNat ((hsame.trans hf).symm.trans hq)
        rw [freed_toNat] at h
        simp at h
  exact ⟨hnext, fun p' hlast => hm.marked p' _ hlast hnext hclear⟩

theorem fail_ok (c : Producer α) : ProdOk m p c.fail := by
  unfold Producer.fail
  split <;> trivial

theorem stepProd_inv [DecidableEq P] (hi : Inv s) {ok : Bool} (hg : GoodProd s (s.prod p) ok)
    (h : stepProd s p ok = some t) : Inv t := by
  have hok := hi.prod p
  unfold stepProd at h
  unfold GoodProd at hg
  unfold ProdOk at hok
  have hwr : ∀ {pc}, (s.prod p).pc = pc → pc.writing = false → (s.prod p).pc.writing = false :=
    fun h h' => by rw [h]; exact h'
  cases hpc : (s.prod p).pc with
  | idle => simp only [hpc] at h; cases h
  | addEpoch => simp only [hpc] at h hg; cases h; exact hi.addEpoch hpc hg
  | loadEpoch =>
    simp only [hpc] at h
    cases h
    exact hi.prodLocal ⟨hi.mem.epoch, Nat.le_refl _, fun _ => rfl⟩ (hwr hpc rfl)
  | loadCc =>
    simp only [hpc] at h hok
    cases h
    refine hi.prodLocal ?_ (hwr hpc rfl)
    split
    · exact fail_ok _
    · rename_i hne
      exact ⟨{ hok with }, hne, Nat.le_refl _, fun _ => rfl⟩
  | loadCt =>
    simp only [hpc] at h hok
    cases h
    refine hi.prodLocal ⟨{ hok.1 with }, { hok.2 with }, ?_, ?_, ?_⟩ (hwr hpc rfl)
    · exact Nat.le_of_eq hi.mem.ct
    · exact fun _ hlt => absurd hlt (by rw [hi.mem.ct]; exact Nat.lt_irrefl _)
    · exact fun _ hlt => absurd hlt (by rw [hi.mem.ct]; exact Nat.lt_irrefl _)
  | loadRc =>
    simp only [hpc] at h hok
    cases h
    obtain ⟨he, hc, hct⟩ := hok
    have hl : ∀ pc, Loaded s.mem { s.prod p with
        pc := pc
        rc := (s.mem.q.elems (indexOf (s.prod p).ct)).rc
        seen := s.mem.upd (indexOf (s.prod p).ct) } := fun pc =>
      ⟨{ he with }, { hc with }, { hct with }, hi.mem.count _, Nat.le_refl _, fun _ => rfl⟩
    refine hi.prodLocal ?_ (hwr hpc rfl)
    split
    · rename_i hk
      split
      · exact ⟨hl _, hk⟩
      · rename_i hfree
        rw [rcMask, pend_and_lowMask, not_not] at hfree
        exact ⟨hl _, .inl hfree, fun hne => absurd hk hne⟩
    · rename_i hk
      split
      · exact fail_ok _
      · rename_i hb
        split
        · rename_i h0
          rw [rcMask, pend_and_lowMask] at h0
          exact ⟨hl _, hk, h0⟩
        · rename_i h0
          rw [rcMask, pend_and_lowMask] at h0
          refine ⟨hl _, ?_, fun _ h => absurd h h0⟩
          simp only [blocked, rcMask, pend_and_lowMask, decide_eq_true_eq, not_and_or, not_not] at hb
          exact hb.imp id fun h => ⟨hk, h⟩
  | loadFl =>
    simp only [hpc] at h hok
    cases h
    refine hi.prodLocal ?_ (hwr hpc rfl)
    split
    · exact fail_ok _
    · rename_i hfl
      obtain ⟨hl, hk, h0⟩ := hok
      refine ⟨⟨{ hl.epoch with }, { hl.cc with }, { hl.ct with }, hl.count, hl.since, hl.same⟩,
        .inl ?_, hi.next hpc (Bool.not_eq_true _ ▸ hfl)⟩
      show (s.prod p).cc &&& pend (s.prod p).rc = 0
      rw [h0]
      exact BitVec.and_zero
  | kick =>
    simp only [hpc] at h hg hok
    cases h
    obtain ⟨hl, hk⟩ := hok
    refine hi.ofProd (hi.mem.setCc _) ?_ (fun p' _ => hi.setCc (hg p')) (fun _ h => h)
      fun x hx _ => .inr ⟨hx, fun h => by rw [hpc] at h; cases h.1⟩
    split
    · trivial
    · rename_i hne
      refine ⟨⟨{ hl.epoch with }, ⟨hne, Nat.le_refl _, fun _ => rfl⟩,
        ⟨hl.ct.le, fun h => absurd hk h, fun h => absurd hk h⟩, hl.count, hl.since, hl.same⟩,
        .inl ?_, fun h => absurd hk h⟩
      show Receivers.disconnect s.mem.cc (pend ((s.prod p).rc &&& rcMask)) &&& pend (s.prod p).rc = 0
      rw [rcMask, pend_and_lowMask, Receivers.disconnect, BitVec.and_assoc, BitVec.not_and_self]
      exact BitVec.and_zero
  | casRc =>
    simp only [hpc] at h hg hok
    split at h
    · rename_i hcas
      cases h
      exact hi.win hpc (hi.wins hpc (hg hcas.1 hcas.2) hcas.2)
    · cases h
      exact hi.prodLocal { hok.1.epoch with } (hwr hpc rfl)
  | check =>
    simp only [hpc] at h hok
    have hagain : EpochOk s.mem { s.prod p with
        pc := .loadCc, epoch := s.mem.q.epoch, adds := s.mem.adds } :=
      ⟨hi.mem.epoch, Nat.le_refl _, fun _ => rfl⟩
    split at h <;> cases h <;> refine hi.prodLocal ?_ (hwr hpc rfl) <;> split
    · rename_i he; exact hok.2 he
    · trivial
    · rename_i he; exact hok.2 he.2.symm
    · exact hagain
  | storeCt => simp only [hpc] at h hg; cases h; exact hi.advance hpc hg
  | writeData => simp only [hpc] at h; cases h; exact hi.write hpc
  | storeFl => simp only [hpc] at h; cases h; exact hi.commit hpc

/-- A handle outside a pop promises nothing. -/
theorem HandleOk.outside {d : Handle α} (hd : d.pc.popping = false) : HandleOk m d := by
  constructor
  · intro h; rw [hd] at h; cases h
  · intro h; rcases h with h | h <;> rw [h] at hd <;> cases hd

theorem stepHandle_inv [DecidableEq H] (hi : Inv s) {h : H} {ok : Bool}
    (hg : GoodHandle s (s.handle h) ok) (ht : stepHandle s h ok = some t) : Inv t := by
  have hok := hi.handle h
  unfold stepHandle at ht
  unfold GoodHandle at hg
  cases hpc : (s.handle h).pc with
  | idle => simp only [hpc] at ht; cases ht
  | testConn | testId | testDisc =>
    simp only [hpc] at ht
    cases ht
    refine hi.handleLocal (.outside ?_)
    dsimp only
    split <;> rfl
  | loadConn =>
    simp only [hpc] at ht
    cases ht
    refine hi.handleLocal (.outside ?_)
    split <;> rfl
  | casConn =>
    simp only [hpc] at ht hg
    split at ht
    · rename_i hc
      cases ht
      exact hi.ofHandle (hi.mem.setCc _) (fun p => hi.setCc (hg hc.1 hc.2 p)) rfl rfl (.outside rfl)
    · cases ht
      exact hi.handleLocal (.outside rfl)
  | readCursor => simp only [hpc] at ht; cases ht; exact hi.handleLocal (.outside rfl)
  | fetchAnd =>
    simp only [hpc] at ht hg
    cases ht
    exact hi.ofHandle (hi.mem.setCc _) (fun p => hi.setCc (hg p)) rfl rfl (.outside rfl)
  | loadFl =>
    simp only [hpc] at ht
    cases ht
    refine hi.handleLocal ?_
    split
    · exact .outside rfl
    · rename_i hfl
      refine ⟨fun _ => ?_, fun h => h.elim (nomatch ·) (nomatch ·)⟩
      show s.mem.commit ((s.handle h).cur + 1 - 1) = true ∧
        indexOf (s.handle h).cur = indexOf ((s.handle h).cur + 1 - 1)
      rw [BitVec.add_sub_cancel]
      exact ⟨hi.mem.found _ _ (not_not.mp hfl), rfl⟩
  | readData =>
    simp only [hpc] at ht
    cases ht
    exact hi.handleLocal
      ⟨fun _ => hok.taken (by rw [hpc]; rfl), fun h => h.elim (nomatch ·) (nomatch ·)⟩
  | loadRc =>
    simp only [hpc] at ht
    cases ht
    exact hi.handleLocal ⟨fun _ => hok.taken (by rw [hpc]; rfl), fun _ => ⟨_, rfl⟩⟩
  | storeFree =>
    simp only [hpc] at ht hg
    cases ht
    obtain ⟨hmem, hprod⟩ := hi.free (by rw [hpc]; rfl) hg
    exact hi.ofHandle hmem hprod rfl rfl (.outside rfl)
  | storeFl =>
    simp only [hpc] at ht hg
    cases ht
    obtain ⟨hmem, hprod⟩ := hi.free (by rw [hpc]; rfl) hg
    exact hi.ofHandle hmem hprod rfl rfl
      ⟨fun _ => hok.taken (by rw [hpc]; rfl), fun _ => hok.nxt (.inl hpc)⟩
  | casRc =>
    simp only [hpc] at ht hg
    split at ht
    · rename_i hc
      cases ht
      obtain ⟨hmem, hprod⟩ := hi.clear hpc (hg hc.1 hc.2) hc.2
      exact hi.ofHandle hmem hprod rfl rfl (.outside rfl)
    · cases ht
      exact hi.handleLocal
        ⟨fun _ => hok.taken (by rw [hpc]; rfl), fun h => h.elim (nomatch ·) (nomatch ·)⟩

theorem step_inv [DecidableEq P] [DecidableEq H] {a : Act α P H} (hi : Inv s) (hg : Good s a)
    (h : step s a = some t) : Inv t := by
  cases a with
  | push p x | forcePush p x =>
    simp only [step] at h
    split at h
    · rename_i hpc
      cases h
      exact hi.prodLocal trivial (by rw [hpc]; rfl)
    · cases h
  | prod p ok => exact stepProd_inv hi hg h
  | connect d | disconnect d | pop d =>
    simp only [step] at h
    split at h
    · cases h
      exact hi.handleLocal (.outside rfl)
    · cases h
  | handle d ok => exact stepHandle_inv hi hg h

theorem Inv.exclusive (hi : Inv s) : Exclusive s where
  slot := fun p p' ho ho' he => by
    have h := ((hi.prod p).held ho).last
    have h' := ((hi.prod p').held ho').last
    rw [he, h'] at h
    exact (congrArg Prod.fst (Option.some.inj h)).symm
  won := fun p ho => by
    rw [((hi.prod p).held ho).last]
    rfl
  index := hi.mem.nodup

/-- In every run whose steps meet the condition, only one producer touches a slot at
one time. -/
theorem one_owner_of_run [DecidableEq P] [DecidableEq H] [Inhabited α] {acts : List (Act α P H)}
    (hr : run step St.init acts = some s) (hm : Meets step Good St.init acts) : Exclusive s :=
  (Lib.Runs.run_invariant (fun _ _ _ hi hg h => step_inv hi hg h) init_inv hr hm).exclusive

end Steps

-- for the numerals in the runs below
local instance neZero_two : NeZero 2 := ⟨by decide⟩

/-- One receiver; two pushes overlap, a message is read, and then one is forced. -/
def overlapping : List (Act Nat (Fin 2) (Fin 2)) :=
  .connect 0 :: List.replicate 5 (.handle 0 true) ++
    .push 0 7 :: List.replicate 8 (.prod 0 true) ++ .push 1 8 :: List.replicate 10 (.prod 1 true) ++
    List.replicate 2 (.prod 0 true) ++ .pop 0 :: List.replicate 5 (.handle 0 true) ++
    .forcePush 1 9 :: List.replicate 8 (.prod 1 true)

theorem one_owner_overlapping : ∃ s, run step .init overlapping = some s ∧
    s.mem.claims = [0, 1, 2] ∧ s.Owns 1 ∧ Exclusive s := by
  have hs : ((run step .init overlapping).map fun s => (s.mem.claims, (s.prod 1).pc)) =
      some ([0, 1, 2], .storeFl) := by decide +kernel
  obtain ⟨s, hr, hp⟩ := Option.map_eq_some_iff.mp hs
  simp only [Prod.mk.injEq] at hp
  refine ⟨s, hr, hp.1, ?_, one_owner_of_run hr (by decide +kernel)⟩
  simp only [St.Owns, hp.2]

/-- Producer 0 has marked slot 0 for receiver 0 and not stored `ct_` yet. Receiver 1
connects and receiver 0 leaves, so producer 1 finds none of its receivers pending. -/
def joinAndLeave : List (Act Nat (Fin 2) (Fin 2)) :=
  .connect 0 :: List.replicate 5 (.handle 0 true) ++
    .push 0 7 :: List.replicate 7 (.prod 0 true) ++
    .connect 1 :: List.replicate 5 (.handle 1 true) ++
    .disconnect 0 :: List.replicate 2 (.handle 0 true) ++
    .push 1 8 :: List.replicate 6 (.prod 1 true)

/-- Both own slot 0 and will use index 0. -/
theorem two_owners_of_slot : ∃ s, run step .init joinAndLeave = some s ∧ ¬ Exclusive s := by
  have hs : ((run step .init joinAndLeave).map fun s =>
      ((s.prod 0).pc, (s.prod 1).pc, (s.prod 0).ct, (s.prod 1).ct)) =
      some (.storeCt, .storeCt, 0, 0) := by decide +kernel
  obtain ⟨s, hr, hp⟩ := Option.map_eq_some_iff.mp hs
  simp only [Prod.mk.injEq] at hp
  obtain ⟨h0, h1, hc0, hc1⟩ := hp
  refine ⟨s, hr, fun he => ?_⟩
  have h := he.slot 0 1 (by simp only [St.Owns, h0]) (by simp only [St.Owns, h1])
    (by rw [hc0, hc1])
  exact absurd h (by decide)

end CppIpc.Ownership
