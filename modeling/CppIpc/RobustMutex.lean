import CppIpc.Def
import CppIpc.Lib.Rings
import CppIpc.Lib.Runs
import Mathlib.Data.Finset.Card

/-! # `a0_mtx_t`

A robust, priority-inheriting mutex in shared memory: one futex word, and two links that
put a held mutex on a list of its owner. The kernel reads the list when the owner dies.
Every access to shared or kernel-visible memory is one step, a thread can die before any
of them, and what the kernel answers and writes is in the action; `Documented` says what
futex(2) promises of it. -/
namespace CppIpc.RobustMutex
open CppIpc.Lib.Rings (walk)

/-- `a0_ftx_t`. -/
abbrev Word := BitVec 32

def futexWaiters : Word := 0x80000000#32

def futexOwnerDied : Word := 0x40000000#32

def futexTidMask : Word := 0x3fffffff#32

def ftxTid (ftx : Word) : Word := ftx &&& futexTidMask

def ftxOwnerDied (ftx : Word) : Bool := ftx &&& futexOwnerDied != 0

/-- `FTX_NOTRECOVERABLE`. -/
def notRecoverable : Word := futexTidMask ||| futexOwnerDied

def ftxNotRecoverable (ftx : Word) : Bool := ftx &&& notRecoverable == notRecoverable

/-- `new_val` of `a0_mtx_unlock`. -/
def newVal (died : Bool) : Word := if died then notRecoverable else 0

/-- `ROBUST_LIST_LIMIT` of the kernel. -/
def robustListLimit : Nat := 2048

/-- What a call returns: `ok`, or the error code. -/
inductive Errno where
  | ok
  | eperm
  | esrch
  | eintr
  | eagain
  | enomem
  | ebusy
  | einval
  | edeadlk
  | enosys
  | etimedout
  | eownerdead
  | enotrecoverable
deriving DecidableEq

/-- The caller has the lock. -/
def Errno.Locked (e : Errno) : Prop := e = .ok ∨ e = .eownerdead

/-- `a0_tid` of each thread: what the kernel writes for an owner, so no two alike. -/
structure Tids (T : Type) where
  tid : T → Word
  injective : Function.Injective tid
  masked : ∀ t, ftxTid (tid t) = tid t
  ne_zero : ∀ t, tid t ≠ 0
  ne_mask : ∀ t, tid t ≠ futexTidMask

/-- An `a0_mtx_t *`: a mutex, or `a0_robust_head` of a thread. -/
inductive Ptr (T M : Type) where
  | head (t : T)
  | mtx (m : M)
deriving DecidableEq

inductive Op (M : Type) where
  | lock (m : M)
  | tryLock (m : M)
  | consistent (m : M)
  | unlock (m : M)
deriving DecidableEq

/-- Who called `robust_op_add`: `a0_mtx_timedlock_impl` with the result that it is going
to return, or one of the two calls in `a0_mtx_trylock_impl`. -/
inductive Adding where
  | lock (e : Errno)
  | tryFast
  | trySlow
deriving DecidableEq

/-- The next access of a thread. `Pi` are the calls of the kernel, `add` and `del` the
writes of `robust_op_add` and `robust_op_del`. -/
inductive Pc (T M : Type) where
  | idle
  | lockStart (m : M)
  | lockLoad (m : M)
  | lockCas (m : M)
  | lockPi (m : M)
  | lockCheck (m : M)
  | tryStart (m : M)
  | tryCas (m : M)
  | tryPi (m : M)
  | tryCheck (m : M)
  | addPrev (m : M) (k : Adding)
  | addNext (m : M) (k : Adding) (old : Ptr T M)
  | addHead (m : M) (k : Adding) (old : Ptr T M)
  | addBack (m : M) (k : Adding) (old : Ptr T M)
  | consistentLoad (m : M)
  | consistentAnd (m : M)
  | unlockLoad (m : M)
  | unlockStart (m : M) (died : Bool)
  | delNext (m : M) (died : Bool)
  | delPrev (m : M) (died : Bool) (p q : Ptr T M)
  | unlockCas (m : M) (died : Bool)
  | unlockPi (m : M) (died : Bool)
  | unlockOr (m : M)
  | opEnd (op : Op M) (e : Errno)
  | dead
deriving DecidableEq

variable {T M : Type}

/-- `next (head t)` and `pending t` are what thread `t` registered with the kernel.
`doomed` are the mutexes the kernel still has to look at for a dead thread. `holds` and
`dirty` are history: who has acquired and not released a word, and whose holder died
since it was last made consistent. -/
structure St (T M : Type) where
  ftx : M → Word
  next : Ptr T M → Ptr T M
  prev : Ptr T M → Ptr T M
  robustInit : T → Bool
  pending : T → Option M
  pc : T → Pc T M
  ret : T → Option (Op M × Errno)
  doomed : T → List M
  holds : T → Finset M
  dirty : Finset M

/-- Every mutex is free; its links and the heads of the threads are whatever they are. -/
def St.init (next prev : Ptr T M → Ptr T M) : St T M where
  ftx _ := 0
  next := next
  prev := prev
  robustInit _ := false
  pending _ := none
  pc _ := .idle
  ret _ := none
  doomed _ := []
  holds _ := ∅
  dirty := ∅

inductive Act (T M : Type) where
  | call (t : T) (op : Op M)
  /-- The next access of `t`, which is none of the kernel's. -/
  | code (t : T)
  /-- `t` goes to sleep in `FUTEX_LOCK_PI`. -/
  | queue (t : T) (w : Word)
  | granted (t : T) (w : Word)
  | refused (t : T) (e : Errno) (w : Word)
  /-- `FUTEX_UNLOCK_PI`, to a sleeper if there is one. -/
  | released (t : T) (heir : Option T) (w : Word)
  /-- `FUTEX_UNLOCK_PI` of a word that is not the thread's any more. -/
  | kept (t : T)
  /-- The thread is gone, and the kernel has `l` to look at. -/
  | die (t : T) (l : List M)
  | recover (t : T) (m : M) (w : Word)
  /-- A new thread with the number of one that is gone. -/
  | spawn (t : T)
deriving DecidableEq

section Step
variable [DecidableEq T]

def St.goto (s : St T M) (t : T) (pc : Pc T M) : St T M :=
  { s with pc := Function.update s.pc t pc }

/-- `return`. -/
def St.done (s : St T M) (t : T) (op : Op M) (e : Errno) : St T M :=
  { s with pc := Function.update s.pc t .idle, ret := Function.update s.ret t (some (op, e)) }

@[simp] theorem St.goto_pc (s : St T M) (t : T) (pc : Pc T M) : (s.goto t pc).pc t = pc :=
  Function.update_self ..

@[simp] theorem St.goto_holds (s : St T M) (t : T) (pc : Pc T M) :
    (s.goto t pc).holds = s.holds := rfl

@[simp] theorem St.goto_ret (s : St T M) (t : T) (pc : Pc T M) : (s.goto t pc).ret = s.ret := rfl

theorem St.goto_pc_of_ne (s : St T M) (pc : Pc T M) {t b : T} (h : b ≠ t) :
    (s.goto t pc).pc b = s.pc b := Function.update_of_ne h ..

@[simp] theorem St.done_pc (s : St T M) (t : T) (op : Op M) (e : Errno) :
    (s.done t op e).pc t = .idle := Function.update_self ..

variable [DecidableEq M]

def St.store (s : St T M) (m : M) (w : Word) : St T M :=
  { s with ftx := Function.update s.ftx m w }

def St.setNext (s : St T M) (p q : Ptr T M) : St T M :=
  { s with next := Function.update s.next p q }

def St.setPrev (s : St T M) (p q : Ptr T M) : St T M :=
  { s with prev := Function.update s.prev p q }

/-- `t` gets the word. -/
def St.take (s : St T M) (t : T) (m : M) (w : Word) : St T M :=
  { s with
    ftx := Function.update s.ftx m w
    holds := Function.update s.holds t (insert m (s.holds t)) }

/-- `t` gives the word up. -/
def St.drop (s : St T M) (t : T) (m : M) (w : Word) : St T M :=
  { s with
    ftx := Function.update s.ftx m w
    holds := Function.update s.holds t ((s.holds t).erase m) }

/-- `robust_op_start`; the first one of a thread registers the list. -/
def St.opStart (s : St T M) (t : T) (m : M) (pc : Pc T M) : St T M :=
  if s.robustInit t then { s.goto t pc with pending := Function.update s.pending t (some m) }
  else { s.setNext (.head t) (.head t) with
    robustInit := Function.update s.robustInit t true
    pending := Function.update s.pending t none }

def Op.entry : Op M → Pc T M
  | .lock m => .lockStart m
  | .tryLock m => .tryStart m
  | .consistent m => .consistentLoad m
  | .unlock m => .unlockLoad m

def Adding.after (m : M) : Adding → Pc T M
  | .lock e => .opEnd (.lock m) e
  | .tryFast => .opEnd (.tryLock m) .ok
  | .trySlow => .tryCheck m

def code (K : Tids T) (s : St T M) (t : T) : Option (St T M) :=
  match s.pc t with
  | .lockStart m => some (s.opStart t m (.lockLoad m))
  | .lockLoad m =>
    some (s.goto t
      (if ftxNotRecoverable (s.ftx m) then .opEnd (.lock m) .enotrecoverable else .lockCas m))
  | .lockCas m =>
    some (if s.ftx m = 0 then (s.take t m (K.tid t)).goto t (.addPrev m (.lock .ok))
      else s.goto t (.lockPi m))
  | .lockCheck m =>
    some (s.goto t (.addPrev m (.lock (if ftxOwnerDied (s.ftx m) then .eownerdead else .ok))))
  | .tryStart m => some (s.opStart t m (.tryCas m))
  | .tryCas m =>
    some (if s.ftx m = 0 then (s.take t m (K.tid t)).goto t (.addPrev m .tryFast)
      else if ftxNotRecoverable (s.ftx m) then s.goto t (.opEnd (.tryLock m) .enotrecoverable)
      else if ¬ ftxOwnerDied (s.ftx m) then s.goto t (.opEnd (.tryLock m) .ebusy)
      else s.goto t (.tryPi m))
  | .tryCheck m =>
    some (s.goto t (.opEnd (.tryLock m) (if ftxOwnerDied (s.ftx m) then .eownerdead else .ok)))
  | .addPrev m k =>
    some ((s.setPrev (.mtx m) (.head t)).goto t (.addNext m k (s.next (.head t))))
  | .addNext m k old => some ((s.setNext (.mtx m) old).goto t (.addHead m k old))
  | .addHead m k old =>
    some ((s.setNext (.head t) (.mtx m)).goto t
      (if old = .head t then k.after m else .addBack m k old))
  | .addBack m k old => some ((s.setPrev old (.mtx m)).goto t (k.after m))
  | .consistentLoad m =>
    some (if ¬ ftxOwnerDied (s.ftx m) then s.done t (.consistent m) .einval
      else if ftxTid (s.ftx m) ≠ K.tid t then s.done t (.consistent m) .eperm
      else s.goto t (.consistentAnd m))
  | .consistentAnd m =>
    some { (s.store m (s.ftx m &&& ~~~ futexOwnerDied)).done t (.consistent m) .ok with
      dirty := s.dirty.erase m }
  | .unlockLoad m =>
    some (if ftxTid (s.ftx m) ≠ K.tid t then s.done t (.unlock m) .eperm
      else s.goto t (.unlockStart m (ftxOwnerDied (s.ftx m))))
  | .unlockStart m died => some (s.opStart t m (.delNext m died))
  | .delNext m died =>
    -- the two links are the thread's own
    let p := s.prev (.mtx m)
    let q := s.next (.mtx m)
    some ((s.setNext p q).goto t (if q = .head t then .unlockCas m died else .delPrev m died p q))
  | .delPrev m died p q => some ((s.setPrev q p).goto t (.unlockCas m died))
  | .unlockCas m died =>
    some (if s.ftx m = K.tid t then (s.drop t m (newVal died)).goto t (.opEnd (.unlock m) .ok)
      else s.goto t (.unlockPi m died))
  | .unlockOr m => some ((s.store m (s.ftx m ||| notRecoverable)).goto t (.opEnd (.unlock m) .ok))
  | .opEnd op e => some { s.done t op e with pending := Function.update s.pending t none }
  | .idle | .lockPi _ | .tryPi _ | .unlockPi .. | .dead => none

/-- After `a0_ftx_unlock_pi`. -/
def Pc.afterPi (m : M) (died : Bool) : Pc T M :=
  if died then .unlockOr m else .opEnd (.unlock m) .ok

def step (K : Tids T) (s : St T M) : Act T M → Option (St T M)
  | .call t op => if s.pc t = .idle then some (s.goto t op.entry) else none
  | .code t => code K s t
  | .queue t w =>
    match s.pc t with
    | .lockPi m => some (s.store m w)
    | _ => none
  | .granted t w =>
    match s.pc t with
    | .lockPi m => some ((s.take t m w).goto t (.lockCheck m))
    | .tryPi m => some ((s.take t m w).goto t (.addPrev m .trySlow))
    | _ => none
  | .refused t e w =>
    if e = .ok then none else
    match s.pc t with
    | .lockPi m =>
      some ((s.store m w).goto t (if e = .eintr then .lockLoad m else .opEnd (.lock m) e))
    | .tryPi m =>
      some ((s.store m w).goto t
        (.opEnd (.tryLock m) (if e = .eagain then .ebusy else .enotrecoverable)))
    | _ => none
  | .released t heir w =>
    match s.pc t with
    | .unlockPi m died =>
      let s' := (s.drop t m w).goto t (.afterPi m died)
      match heir with
      | none => some s'
      | some u =>
        if s.pc u = .lockPi m then some ((s'.take u m w).goto u (.lockCheck m)) else none
    | _ => none
  | .kept t =>
    match s.pc t with
    | .unlockPi m died => some ((s.drop t m (s.ftx m)).goto t (.afterPi m died))
    | _ => none
  | .die t l =>
    if s.pc t = .dead then none
    else some { s.goto t .dead with
      doomed := Function.update s.doomed t l
      holds := Function.update s.holds t ∅
      dirty := s.dirty ∪ s.holds t }
  | .recover t m w =>
    if s.pc t = .dead ∧ m ∈ s.doomed t then
      some { s.store m w with doomed := Function.update s.doomed t ((s.doomed t).erase m) }
    else none
  | .spawn t =>
    if s.pc t = .dead ∧ s.doomed t = [] then
      some { s.goto t .idle with
        robustInit := Function.update s.robustInit t false
        pending := Function.update s.pending t none
        ret := Function.update s.ret t none }
    else none

end Step

/-! ## What the kernel promises -/

def Ptr.mtx? : Ptr T M → Option M
  | .mtx m => some m
  | .head _ => none

/-- The mutex whose word a call of the kernel works on. -/
def Pc.futex : Pc T M → Option M
  | .lockPi m | .tryPi m | .unlockPi m _ => some m
  | _ => none

/-- At most `FUTEX_WAITERS` differs. -/
def SameOwner (w w' : Word) : Prop := ftxTid w' = ftxTid w ∧ ftxOwnerDied w' = ftxOwnerDied w

instance (w w' : Word) : Decidable (SameOwner w w') := inferInstanceAs (Decidable (_ ∧ _))

/-- The kernel gives a word only to who asks for it, and only while it has no owner; it
keeps `FUTEX_OWNER_DIED` for the next owner, and drops it when the owner unlocks. Of a
thread that dies it looks at the pending mutex and at the list, as far as the limit, and
marks those that the thread owns. -/
def Documented [DecidableEq T] [DecidableEq M] (K : Tids T) (s : St T M) : Act T M → Prop
  | .queue t w => ∀ m ∈ (s.pc t).futex, SameOwner (s.ftx m) w
  | .granted t w => ∀ m ∈ (s.pc t).futex,
    ftxTid (s.ftx m) = 0 ∧ ftxTid w = K.tid t ∧ ftxOwnerDied w = ftxOwnerDied (s.ftx m)
  | .refused t e w => e ≠ .eownerdead ∧ ∀ m ∈ (s.pc t).futex, SameOwner (s.ftx m) w
  | .released t heir w => ∀ m ∈ (s.pc t).futex, ftxTid (s.ftx m) = K.tid t ∧
    (heir = none → w = 0) ∧ ∀ u ∈ heir, ftxTid w = K.tid u ∧ ftxOwnerDied w = false
  | .kept t => ∀ m ∈ (s.pc t).futex, ftxTid (s.ftx m) ≠ K.tid t
  | .die t l => s.robustInit t → (∀ m ∈ s.pending t, m ∈ l) ∧
    ∀ m ∈ (walk s.next (.head t) robustListLimit (s.next (.head t))).filterMap Ptr.mtx?, m ∈ l
  | .recover t m w =>
    if ftxTid (s.ftx m) = K.tid t then ftxTid w = 0 ∧ ftxOwnerDied w else w = s.ftx m
  | .call .. | .code _ | .spawn _ => True

instance Documented.decidable [DecidableEq T] [DecidableEq M] (K : Tids T) (s : St T M) :
    (a : Act T M) → Decidable (Documented K s a)
  | .queue t w => inferInstanceAs (Decidable (∀ m ∈ (s.pc t).futex, SameOwner (s.ftx m) w))
  | .granted t w => inferInstanceAs (Decidable (∀ m ∈ (s.pc t).futex,
    ftxTid (s.ftx m) = 0 ∧ ftxTid w = K.tid t ∧ ftxOwnerDied w = ftxOwnerDied (s.ftx m)))
  | .refused t e w => inferInstanceAs (Decidable
    (e ≠ .eownerdead ∧ ∀ m ∈ (s.pc t).futex, SameOwner (s.ftx m) w))
  | .released t heir w => inferInstanceAs (Decidable (∀ m ∈ (s.pc t).futex,
    ftxTid (s.ftx m) = K.tid t ∧ (heir = none → w = 0) ∧
      ∀ u ∈ heir, ftxTid w = K.tid u ∧ ftxOwnerDied w = false))
  | .kept t => inferInstanceAs (Decidable (∀ m ∈ (s.pc t).futex, ftxTid (s.ftx m) ≠ K.tid t))
  | .die t l => inferInstanceAs (Decidable (s.robustInit t → (∀ m ∈ s.pending t, m ∈ l) ∧
    ∀ m ∈ (walk s.next (.head t) robustListLimit (s.next (.head t))).filterMap Ptr.mtx?, m ∈ l))
  | .recover t m w => inferInstanceAs (Decidable
    (if ftxTid (s.ftx m) = K.tid t then ftxTid w = 0 ∧ ftxOwnerDied w else w = s.ftx m))
  | .call .. | .code _ | .spawn _ => isTrue trivial

/-! ## The word -/

section Words
variable {w w' : Word} {K : Tids T} {t v : T}

@[simp] theorem ftxTid_zero : ftxTid 0 = 0 := rfl

@[simp] theorem ftxOwnerDied_zero : ftxOwnerDied 0 = false := rfl

@[simp] theorem ftxTid_notRecoverable : ftxTid notRecoverable = futexTidMask := rfl

theorem futexTidMask_ne_zero : futexTidMask ≠ 0 := by decide

theorem ftxTid_and_not_died (w : Word) : ftxTid (w &&& ~~~ futexOwnerDied) = ftxTid w := by
  have hm : ~~~ futexOwnerDied &&& futexTidMask = futexTidMask := rfl
  rw [ftxTid, BitVec.and_assoc, hm, ftxTid]

theorem ftxOwnerDied_and_not_died (w : Word) :
    ftxOwnerDied (w &&& ~~~ futexOwnerDied) = false := by
  have hm : ~~~ futexOwnerDied &&& futexOwnerDied = 0 := rfl
  rw [ftxOwnerDied, BitVec.and_assoc, hm]
  simp

theorem ftxTid_or_notRecoverable (w : Word) : ftxTid (w ||| notRecoverable) = futexTidMask := by
  have hm : notRecoverable &&& futexTidMask = futexTidMask := rfl
  rw [ftxTid, BitVec.and_or_distrib_right, hm]
  ext i
  simp only [BitVec.getElem_or, BitVec.getElem_and]
  exact Bool.or_eq_right_iff_imp.mpr fun h => (Bool.and_eq_true_iff.mp h).2

theorem ftxTid_of_notRecoverable (h : ftxNotRecoverable w) : ftxTid w = futexTidMask := by
  have hm : notRecoverable &&& futexTidMask = futexTidMask := rfl
  have hw : w &&& notRecoverable = notRecoverable := beq_iff_eq.mp h
  rw [ftxTid, ← hm, ← BitVec.and_assoc, hw]

theorem ftxOwnerDied_tid (t : T) : ftxOwnerDied (K.tid t) = false := by
  have hm : futexTidMask &&& futexOwnerDied = 0 := rfl
  rw [ftxOwnerDied, ← K.masked t, ftxTid, BitVec.and_assoc, hm]
  simp

theorem SameOwner.refl (w : Word) : SameOwner w w := ⟨rfl, rfl⟩

/-- A word that `t` may still believe to have: `t` is in it, or nobody can get it. -/
def Owned (K : Tids T) (t : T) (w : Word) : Prop := ftxTid w = K.tid t ∨ ftxTid w = futexTidMask

theorem Owned.of_tid (h : Owned K t w) (he : ftxTid w' = ftxTid w) : Owned K t w' := by
  rw [Owned, he]
  exact h

theorem not_owned_of_zero (h : ftxTid w = 0) : ¬ Owned K t w := by
  rw [Owned, h]
  rintro (he | he)
  · exact K.ne_zero t he.symm
  · exact futexTidMask_ne_zero he.symm

theorem Owned.eq (h : Owned K v w) (ht : ftxTid w = K.tid t) : v = t := by
  rw [Owned, ht] at h
  rcases h with h | h
  · exact K.injective h.symm
  · exact absurd h (K.ne_mask t)

end Words

/-! ## What one step does to the words -/

/-- The mutex that a thread is about to get. -/
def Pc.asks : Pc T M → Option M
  | .lockCas m | .lockPi m | .tryCas m | .tryPi m => some m
  | _ => none

/-- The words, who holds them and whose holder died, before and after a step. -/
inductive Change (K : Tids T) [DecidableEq M] (s : St T M) (a : Act T M) (u : St T M) : Prop where
  | quiet (word : ∀ m, SameOwner (s.ftx m) (u.ftx m)) (holds : u.holds = s.holds)
    (dirty : u.dirty = s.dirty)
  | mend (t : T) (m : M) (act : a = .code t) (pc : s.pc t = .consistentAnd m)
    (word : u.ftx = Function.update s.ftx m (s.ftx m &&& ~~~ futexOwnerDied))
    (holds : u.holds = s.holds) (dirty : u.dirty = s.dirty.erase m)
  | wreck (t : T) (m : M) (pc : s.pc t = .unlockOr m)
    (word : u.ftx = Function.update s.ftx m (s.ftx m ||| notRecoverable))
    (holds : u.holds = s.holds) (dirty : u.dirty = s.dirty)
  | acquire (t : T) (m : M) (w : Word) (pc : (s.pc t).asks = some m)
    (free : ftxTid (s.ftx m) = 0)
    (word : u.ftx = Function.update s.ftx m w) (tid : ftxTid w = K.tid t)
    (died : ftxOwnerDied w = ftxOwnerDied (s.ftx m))
    (holds : ∀ b x, x ∈ u.holds b ↔ x ∈ s.holds b ∨ (b = t ∧ x = m)) (dirty : u.dirty = s.dirty)
  | release (t : T) (m : M) (d : Bool) (w : Word)
    (pc : s.pc t = .unlockCas m d ∨ s.pc t = .unlockPi m d) (own : ftxTid (s.ftx m) = K.tid t)
    (word : u.ftx = Function.update s.ftx m w) (new : w = 0 ∨ w = newVal d)
    (holds : ∀ b x, x ∈ u.holds b ↔ x ∈ s.holds b ∧ ¬ (b = t ∧ x = m)) (dirty : u.dirty = s.dirty)
  | handOver (t v : T) (m : M) (d : Bool) (w : Word) (pc : s.pc t = .unlockPi m d)
    (heir : s.pc v = .lockPi m) (own : ftxTid (s.ftx m) = K.tid t)
    (word : u.ftx = Function.update s.ftx m w) (tid : ftxTid w = K.tid v)
    (died : ftxOwnerDied w = false)
    (holds : ∀ b x, x ∈ u.holds b ↔ (x ∈ s.holds b ∧ ¬ (b = t ∧ x = m)) ∨ (b = v ∧ x = m))
    (dirty : u.dirty = s.dirty)
  | abandon (t : T) (m : M) (lost : ftxTid (s.ftx m) ≠ K.tid t) (word : u.ftx = s.ftx)
    (holds : ∀ b x, x ∈ u.holds b ↔ x ∈ s.holds b ∧ ¬ (b = t ∧ x = m)) (dirty : u.dirty = s.dirty)
  | die (t : T) (l : List M) (act : a = .die t l) (word : u.ftx = s.ftx)
    (holds : ∀ b x, x ∈ u.holds b ↔ x ∈ s.holds b ∧ b ≠ t)
    (dirty : u.dirty = s.dirty ∪ s.holds t)
  | recover (t : T) (m : M) (w : Word) (pc : s.pc t = .dead) (own : ftxTid (s.ftx m) = K.tid t)
    (word : u.ftx = Function.update s.ftx m w) (tid : ftxTid w = 0)
    (died : ftxOwnerDied w = true) (holds : u.holds = s.holds) (dirty : u.dirty = s.dirty)

section Changes
variable [DecidableEq M] {K : Tids T} {s u : St T M} {a : Act T M} {t : T} {m : M} {w : Word}

theorem Change.still (hw : u.ftx = s.ftx) (hh : u.holds = s.holds) (hd : u.dirty = s.dirty) :
    Change K s a u :=
  .quiet (fun m => by rw [hw]; exact .refl _) hh hd

theorem sameOwner_store (h : SameOwner (s.ftx m) w) (x : M) :
    SameOwner (s.ftx x) (Function.update s.ftx m w x) := by
  by_cases hx : x = m
  · rw [hx, Function.update_self]
    exact h
  · rw [Function.update_of_ne hx]
    exact .refl _

variable [DecidableEq T]

theorem mem_take (s : St T M) (w : Word) {b : T} {x : M} :
    x ∈ (s.take t m w).holds b ↔ x ∈ s.holds b ∨ (b = t ∧ x = m) := by
  by_cases ha : b = t
  · subst ha
    simp [St.take, or_comm]
  · simp [St.take, ha]

theorem mem_drop (s : St T M) (w : Word) {b : T} {x : M} :
    x ∈ (s.drop t m w).holds b ↔ x ∈ s.holds b ∧ ¬ (b = t ∧ x = m) := by
  by_cases ha : b = t
  · subst ha
    simp [St.drop, and_comm]
  · simp [St.drop, ha]

theorem opStart_still (pc : Pc T M) : Change K s a (s.opStart t m pc) := by
  rw [St.opStart]
  split
  · exact .still rfl rfl rfl
  · exact .still rfl rfl rfl

theorem take_change (pc : Pc T M) (ha : (s.pc t).asks = some m) (hs : ftxTid (s.ftx m) = 0) (ht : ftxTid w = K.tid t)
    (hd : ftxOwnerDied w = ftxOwnerDied (s.ftx m)) : Change K s a ((s.take t m w).goto t pc) :=
  .acquire t m w ha hs rfl ht hd (fun _ _ => mem_take s w) rfl

theorem cas_change (pc : Pc T M) (ha : (s.pc t).asks = some m) (h : s.ftx m = 0) :
    Change K s a ((s.take t m (K.tid t)).goto t pc) :=
  take_change pc ha (by rw [h]; rfl) (K.masked t) (by rw [h, ftxOwnerDied_tid]; rfl)

theorem code_change (h : code K s t = some u) : Change K s (.code t) u := by
  cases hpc : s.pc t with
  | idle | lockPi | tryPi | unlockPi | dead => simp [code, hpc] at h
  | lockStart m | tryStart m | unlockStart m d =>
    simp only [code, hpc, Option.some.injEq] at h
    exact h ▸ opStart_still _
  | lockCas m =>
    simp only [code, hpc, Option.some.injEq] at h
    subst h
    split
    · exact cas_change _ (by rw [hpc]; rfl) ‹_›
    · exact .still rfl rfl rfl
  | tryCas m =>
    simp only [code, hpc, Option.some.injEq] at h
    subst h
    split
    · exact cas_change _ (by rw [hpc]; rfl) ‹_›
    · split
      · exact .still rfl rfl rfl
      · split
        · exact .still rfl rfl rfl
        · exact .still rfl rfl rfl
  | lockLoad | lockCheck | tryCheck | addPrev | addNext | addHead | addBack | delNext | delPrev
  | opEnd =>
    simp only [code, hpc, Option.some.injEq] at h
    subst h
    exact .still rfl rfl rfl
  | consistentLoad m =>
    simp only [code, hpc, Option.some.injEq] at h
    subst h
    split
    · exact .still rfl rfl rfl
    · split
      · exact .still rfl rfl rfl
      · exact .still rfl rfl rfl
  | consistentAnd m =>
    simp only [code, hpc, Option.some.injEq] at h
    subst h
    exact .mend t m rfl hpc rfl rfl rfl
  | unlockLoad m =>
    simp only [code, hpc, Option.some.injEq] at h
    subst h
    split
    · exact .still rfl rfl rfl
    · exact .still rfl rfl rfl
  | unlockCas m d =>
    simp only [code, hpc, Option.some.injEq] at h
    subst h
    split
    · rename_i hw
      exact .release t m d (newVal d) (.inl hpc) (by rw [hw, K.masked]) rfl (.inr rfl)
        (fun _ _ => mem_drop s (newVal d)) rfl
    · exact .still rfl rfl rfl
  | unlockOr m =>
    simp only [code, hpc, Option.some.injEq] at h
    subst h
    exact .wreck t m hpc rfl rfl rfl

/-- Every step that the kernel's promises allow is one of these. -/
theorem step_change (hd : Documented K s a) (h : step K s a = some u) :
    Change K s a u := by
  cases a with
  | call t op =>
    simp only [step, Option.ite_none_right_eq_some, Option.some.injEq] at h
    exact h.2 ▸ .still rfl rfl rfl
  | code t => exact code_change h
  | queue t w =>
    cases hpc : s.pc t with
    | lockPi m =>
      simp only [step, hpc, Option.some.injEq] at h
      simp only [Documented, hpc, Pc.futex, Option.mem_some_iff, forall_eq'] at hd
      subst h
      exact .quiet (sameOwner_store hd) rfl rfl
    | _ => simp [step, hpc] at h
  | granted t w =>
    cases hpc : s.pc t with
    | lockPi m | tryPi m =>
      simp only [step, hpc, Option.some.injEq] at h
      simp only [Documented, hpc, Pc.futex, Option.mem_some_iff, forall_eq'] at hd
      exact h ▸ take_change _ (by rw [hpc]; rfl) hd.1 hd.2.1 hd.2.2
    | _ => simp [step, hpc] at h
  | refused t e w =>
    simp only [step] at h
    split at h
    · cases h
    · cases hpc : s.pc t with
      | lockPi m | tryPi m =>
        simp only [hpc, Option.some.injEq] at h
        simp only [Documented, hpc, Pc.futex, Option.mem_some_iff, forall_eq'] at hd
        subst h
        exact .quiet (sameOwner_store hd.2) rfl rfl
      | _ => simp [hpc] at h
  | released t heir w =>
    cases hpc : s.pc t with
    | unlockPi m d =>
      simp only [Documented, hpc, Pc.futex, Option.mem_some_iff, forall_eq'] at hd
      cases heir with
      | none =>
        simp only [step, hpc, Option.some.injEq] at h
        subst h
        exact .release t m d w (.inr hpc) hd.1 rfl (.inl (hd.2.1 rfl)) (fun _ _ => mem_drop s w) rfl
      | some v =>
        simp only [step, hpc, Option.ite_none_right_eq_some, Option.some.injEq] at h
        obtain ⟨hv, rfl⟩ := h
        obtain ⟨htid, hdied⟩ := hd.2.2 v rfl
        refine .handOver t v m d w hpc hv hd.1 (Function.update_idem ..) htid hdied ?_ rfl
        intro a x
        exact (mem_take _ w).trans (or_congr_left (mem_drop s w))
    | _ => simp [step, hpc] at h
  | kept t =>
    cases hpc : s.pc t with
    | unlockPi m d =>
      simp only [step, hpc, Option.some.injEq] at h
      simp only [Documented, hpc, Pc.futex, Option.mem_some_iff, forall_eq'] at hd
      subst h
      exact .abandon t m hd (Function.update_eq_self ..) (fun _ _ => mem_drop s (s.ftx m)) rfl
    | _ => simp [step, hpc] at h
  | die t l =>
    simp only [step, Option.ite_none_left_eq_some, Option.some.injEq] at h
    obtain ⟨-, rfl⟩ := h
    refine .die t l rfl rfl (fun a x => ?_) rfl
    by_cases ha : a = t
    · simp [ha]
    · simp [ha]
  | recover t m w =>
    simp only [step, Option.ite_none_right_eq_some, Option.some.injEq] at h
    obtain ⟨⟨hpc, -⟩, rfl⟩ := h
    rw [Documented] at hd
    split at hd
    · exact .recover t m w hpc ‹_› rfl hd.1 hd.2 rfl rfl
    · exact .quiet (sameOwner_store (hd ▸ .refl _)) rfl rfl
  | spawn t =>
    simp only [step, Option.ite_none_right_eq_some, Option.some.injEq] at h
    exact h.2 ▸ .still rfl rfl rfl

/-! ## Who moves -/

/-- Thread `b` stands where it stood. -/
structure Frame (s u : St T M) (b : T) : Prop where
  pc : u.pc b = s.pc b
  holds : u.holds b = s.holds b
  pending : u.pending b = s.pending b
  robustInit : u.robustInit b = s.robustInit b
  doomed : u.doomed b = s.doomed b
  ret : u.ret b = s.ret b

/-- The thread that acts, and the one that is given a word. -/
def Act.threads : Act T M → List T
  | .released t heir _ => t :: heir.toList
  | .call t _ | .code t | .queue t _ | .granted t _ | .refused t _ _ | .kept t | .die t _
  | .recover t _ _ | .spawn t => [t]

theorem code_frame {b : T} (h : code K s t = some u) (hb : b ≠ t) : Frame s u b := by
  cases hpc : s.pc t with
  | idle | lockPi | tryPi | unlockPi | dead => simp [code, hpc] at h
  | lockStart m | tryStart m | unlockStart m d =>
    simp only [code, hpc, Option.some.injEq, St.opStart] at h
    subst h
    split
    · constructor <;> simp [St.goto, hb]
    · constructor <;> simp [St.setNext, hb]
  | tryCas m =>
    simp only [code, hpc, Option.some.injEq] at h
    subst h
    split
    · constructor <;> simp [St.goto, St.take, hb]
    · split
      · constructor <;> simp [St.goto, hb]
      · split
        · constructor <;> simp [St.goto, hb]
        · constructor <;> simp [St.goto, hb]
  | consistentLoad m =>
    simp only [code, hpc, Option.some.injEq] at h
    subst h
    split
    · constructor <;> simp [St.done, hb]
    · split
      · constructor <;> simp [St.done, hb]
      · constructor <;> simp [St.goto, hb]
  | lockCas m | unlockLoad m | unlockCas m d =>
    simp only [code, hpc, Option.some.injEq] at h
    subst h
    split
    · constructor <;> simp [St.goto, St.done, St.take, St.drop, hb]
    · constructor <;> simp [St.goto, hb]
  | lockLoad | lockCheck | tryCheck | addPrev | addNext | addHead | addBack | delNext | delPrev
  | opEnd | consistentAnd | unlockOr =>
    simp only [code, hpc, Option.some.injEq] at h
    subst h
    constructor <;> simp [St.goto, St.done, St.setNext, St.setPrev, St.store, hb]

theorem step_frame {b : T} (h : step K s a = some u) (hb : b ∉ a.threads) :
    Frame s u b := by
  cases a with
  | code t => exact code_frame h (by simpa [Act.threads] using hb)
  | call t op | spawn t | recover t m w | die t l =>
    simp only [Act.threads, List.mem_singleton] at hb
    simp only [step, Option.ite_none_right_eq_some, Option.ite_none_left_eq_some,
      Option.some.injEq] at h
    obtain ⟨-, rfl⟩ := h
    constructor <;> simp [St.goto, St.store, hb]
  | queue t w | granted t w | kept t =>
    simp only [Act.threads, List.mem_singleton] at hb
    simp only [step] at h
    split at h <;> cases h
    all_goals constructor <;> simp [St.goto, St.store, St.take, St.drop, hb]
  | refused t e w =>
    simp only [Act.threads, List.mem_singleton] at hb
    simp only [step] at h
    split at h
    · cases h
    · split at h <;> cases h
      all_goals constructor <;> simp [St.goto, St.store, hb]
  | released t heir w =>
    simp only [Act.threads, List.mem_cons, not_or] at hb
    simp only [step] at h
    split at h
    · cases heir with
      | none =>
        cases h
        constructor <;> simp [St.goto, St.drop, hb]
      | some v =>
        have hv : b ≠ v := by simpa using hb.2
        simp only [Option.ite_none_right_eq_some, Option.some.injEq] at h
        obtain ⟨-, rfl⟩ := h
        constructor <;> simp [St.goto, St.drop, St.take, hb.1, hv]
    · cases h

end Changes

/-! ## Two threads -/

def pairTid (t : Bool) : Word := if t then 2 else 1

theorem pairTid_injective : Function.Injective pairTid := by
  intro a b h
  cases a <;> cases b <;> first | rfl | exact absurd h (by decide)

theorem pairTid_spec : (∀ t, ftxTid (pairTid t) = pairTid t) ∧ (∀ t, pairTid t ≠ 0) ∧
    ∀ t, pairTid t ≠ futexTidMask := by decide

def pairTids : Tids Bool where
  tid := pairTid
  injective := pairTid_injective
  masked := pairTid_spec.1
  ne_zero := pairTid_spec.2.1
  ne_mask := pairTid_spec.2.2

/-- `n` accesses of one thread. -/
def codes {T M : Type} (t : T) (n : Nat) : List (Act T M) := List.replicate n (.code t)

def blank : St Bool Unit := St.init (fun _ => .head false) fun _ => .head false

end CppIpc.RobustMutex
