import CppIpc.Lib.Monitor

/-! # `a0_cnd_t` under a `waiter`

A condition variable in shared memory is a counter. A waiter reads it, gives the lock
back and asks the kernel to sleep on it, which the kernel does only if the counter is
still what was read; a notifier counts up and asks the kernel to move the sleepers to
the lock. `wait_if`, `broadcast` and `quit_waiting` of `waiter` are here access by
access. Of the lock only this is used: one owner at a time, and nobody dies. -/
namespace CppIpc.Condition
open CppIpc.Lib.Monitor (Client Laws)
open CppIpc.Lib.Places (of_update_eq update_cases exists_moved exists_there)
open CppIpc.Lib.Runs (run Meets run_step run_invariant)

/-- `a0_cnd_t`. -/
abbrev Cnd := BitVec 32

/-- Where a notifier stands: after a change, in the empty critical section of
`waiter::broadcast`, after it, and in the loop of `a0_cnd_wake`. -/
inductive Npc where
  | idle
  | changed
  | barrier
  | passed
  | waking (val : Cnd)
  | reloading
deriving DecidableEq

/-- A change has been made, and the counter has not moved since. -/
def Npc.Early : Npc → Prop
  | .changed | .barrier | .passed => True
  | .idle | .waking _ | .reloading => False

/-- The counter has moved, and the sleepers have not. -/
def Npc.Late : Npc → Prop
  | .waking _ | .reloading => True
  | .idle | .changed | .barrier | .passed => False

theorem Npc.Late.not_early {n : Npc} (h : n.Late) : ¬ n.Early := by
  cases n with
  | waking | reloading => exact id
  | idle | changed | barrier | passed => exact h.elim

theorem Npc.Late.ne_changed {n : Npc} (h : n.Late) : n ≠ .changed := by
  rintro rfl
  exact h

/-- Where a waiter stands: outside, before the lock, before its read of `quit_`, before
the predicate, in `a0_cnd_timedwait_impl`, and before the unlock at the end of `wait_if`.
The kernel's calls are `calling`, `parked` on the counter and `requeued` on the lock. -/
inductive Wpc where
  | out
  | entering
  | testing
  | evaluating
  | loading
  | unlocking (initCnd : Cnd)
  | calling (initCnd : Cnd)
  | parked (initCnd : Cnd)
  | requeued
  | relocking (timedOut : Bool)
  | leaving (ret : Bool)
deriving DecidableEq

/-- The waiter has the lock. After a kernel call that failed it need not have it. -/
def Wpc.Inside : Wpc → Prop
  | .testing | .evaluating | .loading | .unlocking _ | .leaving true => True
  | .out | .entering | .calling _ | .parked _ | .requeued | .relocking _ | .leaving false => False

/-- The last evaluation of the predicate has failed. -/
def Wpc.Failed : Wpc → Prop
  | .loading | .unlocking _ | .calling _ | .parked _ => True
  | .out | .entering | .testing | .evaluating | .requeued | .relocking _ | .leaving _ => False

/-- `init_cnd`, once it is read. -/
def Wpc.initCnd : Wpc → Option Cnd
  | .unlocking c | .calling c | .parked c => some c
  | _ => none

/-- In `FUTEX_WAIT_REQUEUE_PI`. -/
def Wpc.inCall : Wpc → Bool
  | .calling _ | .parked _ | .requeued => true
  | _ => false

/-- `quit` are the flags of the `waiter` objects, which are in no shared memory. `wakes`
and `seen` are history: how often the counter has moved, and how often it had when a
waiter last read it. `ret` is what `wait_if` returned. -/
structure St (X S R O : Type) where
  shared : X
  quit : O → Bool
  lock : Option (S ⊕ R)
  cnd : Cnd
  npc : S → Npc
  wpc : R → Wpc
  wakes : Nat
  seen : R → Nat
  ret : R → Option Bool

inductive Act (S R A B O : Type) where
  | change (s : S) (a : A)
  /-- `quit_.store(true)`. -/
  | quit (s : S) (o : O)
  /-- `waiter::open`. -/
  | reopen (o : O)
  | lock (s : S)
  | unlock (s : S)
  | add (s : S)
  /-- `FUTEX_CMP_REQUEUE_PI`. -/
  | requeue (s : S)
  /-- `EAGAIN` for another reason than the counter. -/
  | again (s : S)
  | failed (s : S)
  | reload (s : S)
  | own (r : R) (b : B)
  | poll (r : R)
  | enter (r : R)
  | acquire (r : R)
  | test (r : R)
  | eval (r : R)
  | load (r : R)
  | release (r : R)
  /-- `FUTEX_WAIT_REQUEUE_PI`. -/
  | sleep (r : R)
  /-- `EINTR`, and the call is made again. -/
  | interrupt (r : R)
  /-- `EAGAIN` for another reason than the counter. -/
  | spurious (r : R)
  | timeout (r : R)
  | refuse (r : R)
  /-- The kernel gives the lock to a sleeper. -/
  | granted (r : R)
  /-- `a0_mtx_timedlock_robust` after `EAGAIN` or `ETIMEDOUT`. -/
  | relock (r : R)
  | leave (r : R)
deriving DecidableEq

variable {X S R A B O : Type}

def St.start (x : X) : St X S R O :=
  ⟨x, fun _ => false, none, 0, fun _ => .idle, fun _ => .out, 0, fun _ => 0, fun _ => none⟩

/-- A sleeper is moved to the lock. All of them are: threads are fewer than `INT_MAX`. -/
def Wpc.requeue : Wpc → Wpc
  | .parked _ => .requeued
  | w => w

section Step
variable [DecidableEq S] [DecidableEq R] [DecidableEq O]

/-- A notifier goes on. -/
def St.notifier (t : St X S R O) (s : S) (n : Npc) : St X S R O :=
  { t with npc := Function.update t.npc s n }

/-- A waiter goes on. -/
def St.waiter (t : St X S R O) (r : R) (w : Wpc) : St X S R O :=
  { t with wpc := Function.update t.wpc r w }

/-- `obj` is the `waiter` object through which a thread waits. -/
def step (C : Client X R A B) (obj : R → O) (t : St X S R O) :
    Act S R A B O → Option (St X S R O)
  | .change s a =>
    if t.npc s = .idle then
      let (x, announce) := C.change t.shared a
      some { t with
        shared := x
        npc := if announce then Function.update t.npc s .changed else t.npc }
    else none
  | .quit s o =>
    if t.npc s = .idle then
      some { t.notifier s .changed with quit := Function.update t.quit o true }
    else none
  | .reopen o => some { t with quit := Function.update t.quit o false }
  | .lock s =>
    if t.npc s = .changed ∧ t.lock = none then
      some { t.notifier s .barrier with lock := some (.inl s) }
    else none
  | .unlock s =>
    if t.npc s = .barrier then some { t.notifier s .passed with lock := none } else none
  | .add s =>
    if t.npc s = .passed then
      some { t.notifier s (.waking (t.cnd + 1)) with cnd := t.cnd + 1, wakes := t.wakes + 1 }
    else none
  | .requeue s =>
    match t.npc s with
    | .waking val =>
      some (if t.cnd = val then { t.notifier s .idle with wpc := fun r => (t.wpc r).requeue }
        else t.notifier s .reloading)
    | _ => none
  | .again s =>
    match t.npc s with
    | .waking _ => some (t.notifier s .reloading)
    | _ => none
  | .failed s =>
    match t.npc s with
    | .waking _ => some (t.notifier s .idle)
    | _ => none
  | .reload s => if t.npc s = .reloading then some (t.notifier s (.waking t.cnd)) else none
  | .own r b => if t.wpc r = .out then some { t with shared := C.own t.shared r b } else none
  | .poll r => if t.wpc r = .out then some { t with shared := (C.test t.shared r).1 } else none
  | .enter r => if t.wpc r = .out then some (t.waiter r .entering) else none
  | .acquire r =>
    if t.wpc r = .entering ∧ t.lock = none then
      some { t.waiter r .testing with lock := some (.inr r) }
    else none
  | .test r =>
    if t.wpc r = .testing then
      some (t.waiter r (if t.quit (obj r) then .leaving true else .evaluating))
    else none
  | .eval r =>
    if t.wpc r = .evaluating then
      let (x, ok) := C.test t.shared r
      some { t.waiter r (if ok then .leaving true else .loading) with shared := x }
    else none
  | .load r =>
    if t.wpc r = .loading then
      some { t.waiter r (.unlocking t.cnd) with seen := Function.update t.seen r t.wakes }
    else none
  | .release r =>
    match t.wpc r with
    | .unlocking c => some { t.waiter r (.calling c) with lock := none }
    | _ => none
  | .sleep r =>
    match t.wpc r with
    | .calling c => some (t.waiter r (if t.cnd = c then .parked c else .relocking false))
    | _ => none
  | .interrupt r =>
    match t.wpc r with
    | .parked c => some (t.waiter r (.calling c))
    | _ => none
  | .spurious r =>
    if (t.wpc r).inCall then some (t.waiter r (.relocking false)) else none
  | .timeout r => if (t.wpc r).inCall then some (t.waiter r (.relocking true)) else none
  | .refuse r => if (t.wpc r).inCall then some (t.waiter r (.leaving false)) else none
  | .granted r =>
    if t.wpc r = .requeued ∧ t.lock = none then
      some { t.waiter r .testing with lock := some (.inr r) }
    else none
  | .relock r =>
    match t.wpc r with
    | .relocking timedOut =>
      if t.lock = none then
        some { t.waiter r (if timedOut then .leaving false else .testing) with
          lock := some (.inr r) }
      else none
    | _ => none
  | .leave r =>
    match t.wpc r with
    | .leaving b =>
      -- only the owner can unlock
      some { t.waiter r .out with
        lock := if t.lock = some (.inr r) then none else t.lock
        ret := Function.update t.ret r (some b) }
    | _ => none

end Step

/-! ## What a sleeper misses -/

/-- What `Lib.Monitor.Laws` asks, of the changes that are calm and the tests that are apt: a
mild change lets nobody's test begin to succeed without an announcement. -/
structure Calms (C : Client X R A B) (Good : X → Prop) (Quiet : X → R → Prop)
    (Calm Mild : X → A → Prop) (Apt : X → R → Prop) : Prop where
  good_change : ∀ {x} a, Good x → Calm x a → Good (C.change x a).1
  good_own : ∀ {x} r b, Good x → Good (C.own x r b)
  good_test : ∀ {x} r, Good x → Apt x r → Good (C.test x r).1
  quiet_failed : ∀ {x r}, Good x → (C.test x r).2 = false → Quiet (C.test x r).1 r
  quiet_change : ∀ {x r} a, Good x → Quiet x r → Calm x a → Mild x a →
    (C.change x a).2 = false → Quiet (C.change x a).1 r
  quiet_own : ∀ {x r} q b, Good x → Quiet x r → r ≠ q → Quiet (C.own x q b) r
  quiet_test : ∀ {x r} q, Good x → Apt x q → Quiet x r → r ≠ q → Quiet (C.test x q).1 r

theorem calms_of_laws {C : Client X R A B} {Good : X → Prop} {Quiet : X → R → Prop}
    (hL : Laws C Good Quiet) :
    Calms C Good Quiet (fun _ _ => True) (fun _ _ => True) fun _ _ => True where
  good_change a hx _ := hL.good_change a hx
  good_own := hL.good_own
  good_test r hx _ := hL.good_test r hx
  quiet_failed := hL.quiet_failed
  quiet_change a hx hq _ _ := hL.quiet_change a hx hq
  quiet_own := hL.quiet_own
  quiet_test q hx _ := hL.quiet_test q hx

/-- Fewer than `2 ^ 32` broadcasts pass between the read of the counter and the kernel's
comparison, no broadcast ends with an error, and what is not mild happens while nobody is
about to sleep. -/
def Careful (Calm Mild : X → A → Prop) (Apt : X → R → Prop) (t : St X S R O) :
    Act S R A B O → Prop
  | .change _ a => Calm t.shared a ∧ (Mild t.shared a ∨ ∀ r, ¬ (t.wpc r).Failed)
  | .poll r | .eval r => Apt t.shared r
  | .sleep r => t.wakes < t.seen r + 4294967296
  | .failed _ => False
  | _ => True

/-- `Careful`, where every change is announced that anybody waits for. -/
def Timely (t : St X S R O) (a : Act S R A B O) : Prop :=
  Careful (fun _ _ => True) (fun _ _ => True) (fun _ _ => True) t a

instance Timely.decidable (t : St X S R O) : (a : Act S R A B O) → Decidable (Timely t a)
  | .sleep r => inferInstanceAs (Decidable (t.wakes < t.seen r + 4294967296))
  | .failed _ => isFalse id
  | .change .. => isTrue ⟨trivial, .inl trivial⟩
  | .quit .. | .reopen _ | .lock _ | .unlock _ | .add _ | .requeue _ | .again _ | .reload _
  | .own .. | .poll _ | .enter _ | .acquire _ | .test _ | .eval _ | .load _ | .release _
  | .interrupt _ | .spurious _ | .timeout _ | .refuse _ | .granted _ | .relock _ | .leave _ =>
    isTrue trivial

/-- The test of `r` fails, and `wait_if` evaluates it. -/
def Still (Quiet : X → R → Prop) (obj : R → O) (t : St X S R O) (r : R) : Prop :=
  Quiet t.shared r ∧ t.quit (obj r) = false

/-- What a waiter has missed at its place, if anything. -/
def Owed (Quiet : X → R → Prop) (obj : R → O) (t : St X S R O) (r : R) : Wpc → Prop
  | .evaluating => t.quit (obj r) = false ∨ ∃ s, t.npc s = .changed
  | .loading | .unlocking _ => Still Quiet obj t r ∨ ∃ s, t.npc s = .changed
  | .calling _ => t.seen r = t.wakes → Still Quiet obj t r ∨ ∃ s, (t.npc s).Early
  | .parked _ => (Still Quiet obj t r ∨ ∃ s, (t.npc s).Early) ∨
      t.seen r < t.wakes ∧ ∃ s, (t.npc s).Late
  | .out | .entering | .testing | .requeued | .relocking _ | .leaving _ => True

/-- A change that a waiter has missed is before the barrier while the waiter has the lock,
before the counter has moved as long as the kernel could let it sleep, and before the
sleepers are moved once it sleeps. -/
structure Inv (Good : X → Prop) (Quiet : X → R → Prop) (obj : R → O) (t : St X S R O) : Prop where
  good : Good t.shared
  cnd : t.cnd = BitVec.ofNat 32 t.wakes
  seen : ∀ r, t.seen r ≤ t.wakes
  loaded : ∀ r, ∀ c ∈ (t.wpc r).initCnd, c = BitVec.ofNat 32 (t.seen r)
  barrier : ∀ s, t.npc s = .barrier → t.lock = some (.inl s)
  inside : ∀ r, (t.wpc r).Inside → t.lock = some (.inr r)
  owed : ∀ r, Owed Quiet obj t r (t.wpc r)

section Shared
variable {Good : X → Prop} {Quiet : X → R → Prop} {obj : R → O} {t t' : St X S R O} {r : R}
  {w : Wpc}

theorem Inv.start {x : X} (hx : Good x) :
    Inv Good Quiet obj (.start x : St X S R O) where
  good := hx
  cnd := rfl
  seen _ := Nat.le_refl _
  loaded _ _ h := by cases h
  barrier _ h := by cases h
  inside _ h := h.elim
  owed _ := trivial

/-- Where the state around a waiter has moved and the waiter has not. -/
theorem Owed.mono (h : Owed Quiet obj t r w) (hseen : t'.seen r = t.seen r)
    (hwakes : t'.wakes = t.wakes) (hlate : (∃ s, (t.npc s).Late) → ∃ s, (t'.npc s).Late)
    (hearly : (∃ s, (t.npc s).Early) → ∃ s, (t'.npc s).Early)
    (hchanged : w.Inside → (∃ s, t.npc s = .changed) → ∃ s, t'.npc s = .changed)
    (hquit : t.quit (obj r) = false → t'.quit (obj r) = false ∨ ∃ s, t'.npc s = .changed)
    (hstill : w.Failed → Still Quiet obj t r →
      Still Quiet obj t' r ∨ ∃ s, t'.npc s = .changed) :
    Owed Quiet obj t' r w := by
  have hearly' : w.Failed → (Still Quiet obj t r ∨ ∃ s, (t.npc s).Early) →
      Still Quiet obj t' r ∨ ∃ s, (t'.npc s).Early := by
    rintro hw (hq | he)
    · exact (hstill hw hq).imp_right fun ⟨s, hs⟩ => ⟨s, by rw [hs]; trivial⟩
    · exact .inr (hearly he)
  have hchanged' : w.Inside → w.Failed → (Still Quiet obj t r ∨ ∃ s, t.npc s = .changed) →
      Still Quiet obj t' r ∨ ∃ s, t'.npc s = .changed := by
    rintro hi hw (hq | he)
    · exact hstill hw hq
    · exact .inr (hchanged hi he)
  cases w with
  | out | entering | testing | requeued | relocking | leaving => trivial
  | evaluating => exact h.elim hquit fun he => .inr (hchanged trivial he)
  | loading => exact hchanged' trivial trivial h
  | unlocking c => exact hchanged' trivial trivial h
  | calling c =>
    intro he
    rw [hseen, hwakes] at he
    exact hearly' trivial (h he)
  | parked c =>
    refine h.imp (hearly' trivial) fun ⟨hlt, hl⟩ => ⟨?_, hlate hl⟩
    rw [hseen, hwakes]
    exact hlt

/-- With nobody inside, a waiter only sees whether a change is on its way. -/
theorem Inv.nobody (hi : Inv Good Quiet obj t) (hl : ∀ r, t.lock ≠ some (.inr r)) (r : R) :
    ¬ (t.wpc r).Inside := fun hr => hl r (hi.inside r hr)

/-- The shared state moves, or the flags do; a waiter outside may notice anything. -/
theorem Inv.shared (hi : Inv Good Quiet obj t) {x : X} {q : O → Bool} (hx : Good x)
    (hquit : ∀ o, t.quit o = false → q o = false)
    (hstill : ∀ r, (t.wpc r).Failed → Quiet t.shared r → Quiet x r) :
    Inv Good Quiet obj { t with shared := x, quit := q } where
  good := hx
  cnd := hi.cnd
  seen := hi.seen
  loaded := hi.loaded
  barrier := hi.barrier
  inside := hi.inside
  owed r := (hi.owed r).mono rfl rfl id id (fun _ => id) (fun h => .inl (hquit _ h))
    fun hr h => .inl ⟨hstill r hr h.1, hquit _ h.2⟩

end Shared

section Moves
variable [DecidableEq S] [DecidableEq R]
variable {Good : X → Prop} {Quiet : X → R → Prop} {obj : R → O} {t t' : St X S R O} {s : S} {r : R}

omit [DecidableEq R] in
/-- A change that is going to be announced, of the shared state or of a flag. -/
theorem Inv.announce (hi : Inv Good Quiet obj t) (hs : t.npc s = .idle) {x : X} {q : O → Bool}
    (hx : Good x) : Inv Good Quiet obj { t.notifier s .changed with shared := x, quit := q } where
  good := hx
  cnd := hi.cnd
  seen := hi.seen
  loaded := hi.loaded
  barrier s' hs' := hi.barrier s' (of_update_eq hs' (by simp)).2
  inside := hi.inside
  owed r := by
    have hc : ∃ s', (t.notifier s .changed).npc s' = .changed :=
      exists_there (P := fun n => n = Npc.changed) t.npc s rfl
    have he : ∃ s', ((t.notifier s .changed).npc s').Early := exists_there (P := Npc.Early) t.npc s trivial
    exact (hi.owed r).mono rfl rfl (exists_moved _ (by rw [hs]; exact id)) (fun _ => he)
      (fun _ _ => hc) (fun _ => .inr hc) fun _ _ => .inr hc

omit [DecidableEq R] in
/-- A notifier passes the barrier, or leaves it. -/
theorem Inv.cross (hi : Inv Good Quiet obj t) {n : Npc} {l : Option (S ⊕ R)} (hn : n.Early)
    (hs : ¬ (t.npc s).Late) (hout : ∀ r, ¬ (t.wpc r).Inside)
    (hl : ∀ s', ((t.notifier s n).npc s') = .barrier → l = some (.inl s')) :
    Inv Good Quiet obj { t.notifier s n with lock := l } where
  good := hi.good
  cnd := hi.cnd
  seen := hi.seen
  loaded := hi.loaded
  barrier := hl
  inside r hr := absurd hr (hout r)
  owed r := (hi.owed r).mono rfl rfl (exists_moved _ hs)
    (fun _ => exists_there (P := Npc.Early) _ _ hn) (fun hw => absurd hw (hout r))
    .inl fun _ => .inl

omit [DecidableEq R] in
/-- A notifier in the loop of `a0_cnd_wake` goes on with it. -/
theorem Inv.again (hi : Inv Good Quiet obj t) {n : Npc} (hs : (t.npc s).Late) (hn : n.Late) :
    Inv Good Quiet obj (t.notifier s n) where
  good := hi.good
  cnd := hi.cnd
  seen := hi.seen
  loaded := hi.loaded
  barrier s' hs' := hi.barrier s' (of_update_eq hs' fun he => by rw [he] at hn; exact hn).2
  inside := hi.inside
  owed r := (hi.owed r).mono rfl rfl (fun _ => exists_there (P := Npc.Late) _ _ hn)
    (exists_moved _ hs.not_early) (fun _ => exists_moved (P := fun n => n = Npc.changed) _ hs.ne_changed) .inl
    fun _ => .inl

omit [DecidableEq R] in
theorem Owed.add {w : Wpc} (h : Owed Quiet obj t r w) (hs : t.npc s = .passed)
    (hseen : t.seen r ≤ t.wakes) :
    Owed Quiet obj { t.notifier s (.waking (t.cnd + 1)) with
      cnd := t.cnd + 1, wakes := t.wakes + 1 } r w := by
  have hc : (∃ s', t.npc s' = .changed) →
      ∃ s', Function.update t.npc s (.waking (t.cnd + 1)) s' = .changed :=
    exists_moved (P := fun n => n = Npc.changed) _ (by rw [hs]; simp)
  cases w with
  | out | entering | testing | requeued | relocking | leaving => trivial
  | evaluating => exact h.imp id hc
  | loading => exact h.imp id hc
  | unlocking c => exact h.imp id hc
  | calling c =>
    intro (he : t.seen r = t.wakes + 1)
    omega
  | parked c =>
    exact .inr ⟨Nat.lt_succ_of_le hseen, exists_there (P := Npc.Late) t.npc s trivial⟩

omit [DecidableEq R] in
/-- The counter moves: who has read it and does not sleep yet is not going to. -/
theorem Inv.add (hi : Inv Good Quiet obj t) (hs : t.npc s = .passed) :
    Inv Good Quiet obj { t.notifier s (.waking (t.cnd + 1)) with
      cnd := t.cnd + 1, wakes := t.wakes + 1 } where
  good := hi.good
  cnd := by rw [hi.cnd, BitVec.ofNat_add]; rfl
  seen r := Nat.le_succ_of_le (hi.seen r)
  loaded := hi.loaded
  barrier s' hs' := hi.barrier s' (of_update_eq hs' (by simp)).2
  inside := hi.inside
  owed r := (hi.owed r).add hs (hi.seen r)

theorem Wpc.requeue_initCnd {w : Wpc} {c : Cnd} (h : c ∈ w.requeue.initCnd) : c ∈ w.initCnd := by
  cases w with
  | parked => cases h
  | _ => exact h

theorem Wpc.Inside.of_requeue {w : Wpc} (h : w.requeue.Inside) : w.Inside := by
  cases w with
  | parked => exact h.elim
  | _ => exact h

omit [DecidableEq R] in
/-- Nobody who does not sleep needs the notifier that has moved the sleepers. -/
theorem Owed.requeue {w : Wpc} (h : Owed Quiet obj t r w) (hs : (t.npc s).Late) :
    Owed Quiet obj { t.notifier s .idle with wpc := fun r => (t.wpc r).requeue } r w.requeue := by
  have he := exists_moved (P := Npc.Early) Npc.idle hs.not_early
  have hc := exists_moved (P := fun n => n = Npc.changed) Npc.idle hs.ne_changed
  cases w with
  | out | entering | testing | parked | requeued | relocking | leaving => trivial
  | evaluating => exact h.imp id hc
  | loading => exact h.imp id hc
  | unlocking c => exact h.imp id hc
  | calling c => exact fun hseen => (h hseen).imp id he

omit [DecidableEq R] in
theorem Inv.requeue (hi : Inv Good Quiet obj t) (hs : (t.npc s).Late) :
    Inv Good Quiet obj { t.notifier s .idle with wpc := fun r => (t.wpc r).requeue } where
  good := hi.good
  cnd := hi.cnd
  seen := hi.seen
  loaded r c hc := hi.loaded r c (Wpc.requeue_initCnd hc)
  barrier s' hs' := hi.barrier s' (of_update_eq hs' (by simp)).2
  inside r hr := hi.inside r hr.of_requeue
  owed r := (hi.owed r).requeue hs

omit [DecidableEq S] in
/-- A waiter goes on, perhaps with the lock. -/
theorem Inv.moved (hi : Inv Good Quiet obj t) {w : Wpc} {l : Option (S ⊕ R)} {q : R → Option Bool}
    (hw : ∀ c ∈ w.initCnd, c = BitVec.ofNat 32 (t.seen r))
    (hb : ∀ s, t.npc s = .barrier → l = some (.inl s)) (hself : w.Inside → l = some (.inr r))
    (hother : ∀ r', r' ≠ r → (t.wpc r').Inside → l = some (.inr r'))
    (ho : Owed Quiet obj t r w) :
    Inv Good Quiet obj { t.waiter r w with lock := l, ret := q } where
  good := hi.good
  cnd := hi.cnd
  seen := hi.seen
  loaded r' := by
    rcases eq_or_ne r' r with rfl | hne
    · simpa only [St.waiter, Function.update_self] using hw
    · simpa only [St.waiter, Function.update_of_ne hne] using hi.loaded r'
  barrier := hb
  inside r' := by
    rcases eq_or_ne r' r with rfl | hne
    · simpa only [St.waiter, Function.update_self] using hself
    · simpa only [St.waiter, Function.update_of_ne hne] using hother r' hne
  owed r' := by
    rcases eq_or_ne r' r with rfl | hne
    · simp only [St.waiter, Function.update_self]
      exact ho.mono rfl rfl id id (fun _ => id) .inl fun _ => .inl
    · simp only [St.waiter, Function.update_of_ne hne]
      exact (hi.owed r').mono rfl rfl id id (fun _ => id) .inl fun _ => .inl

omit [DecidableEq S] in
/-- A waiter goes on, and leaves the lock alone. -/
theorem Inv.waiter (hi : Inv Good Quiet obj t) {w : Wpc} {q : R → Option Bool}
    (hw : ∀ c ∈ w.initCnd, c = BitVec.ofNat 32 (t.seen r))
    (hself : w.Inside → t.lock = some (.inr r)) (ho : Owed Quiet obj t r w) :
    Inv Good Quiet obj { t.waiter r w with ret := q } :=
  hi.moved hw hi.barrier hself (fun r' _ => hi.inside r') ho

omit [DecidableEq S] in
/-- A waiter gets the free lock, or gives it back. -/
theorem Inv.switched (hi : Inv Good Quiet obj t) {w : Wpc} {l : Option (S ⊕ R)}
    {q : R → Option Bool} (hl : t.lock = none ∨ t.lock = some (.inr r))
    (hw : ∀ c ∈ w.initCnd, c = BitVec.ofNat 32 (t.seen r)) (hself : w.Inside → l = some (.inr r))
    (ho : Owed Quiet obj t r w) : Inv Good Quiet obj { t.waiter r w with lock := l, ret := q } := by
  refine hi.moved hw (fun s hs => ?_) hself (fun r' hne hr' => ?_) ho
  · rcases hl with hl | hl <;> cases hl.symm.trans (hi.barrier s hs)
  · rcases hl with hl | hl
    · cases hl.symm.trans (hi.inside r' hr')
    · cases hl.symm.trans (hi.inside r' hr')
      exact absurd rfl hne

omit [DecidableEq S] in
/-- The counter is read under the lock. -/
theorem Inv.load (hi : Inv Good Quiet obj t) (hr : t.wpc r = .loading) :
    Inv Good Quiet obj { t.waiter r (.unlocking t.cnd) with
      seen := Function.update t.seen r t.wakes } where
  good := hi.good
  cnd := hi.cnd
  seen r' := by
    rcases eq_or_ne r' r with rfl | hne
    · simp [St.waiter]
    · simpa [St.waiter, hne] using hi.seen r'
  loaded r' := by
    rcases eq_or_ne r' r with rfl | hne
    · simpa [St.waiter, Wpc.initCnd] using hi.cnd
    · simpa [St.waiter, hne] using hi.loaded r'
  barrier := hi.barrier
  inside r' := by
    rcases eq_or_ne r' r with rfl | hne
    · exact fun _ => hi.inside r' (by rw [hr]; trivial)
    · simpa [St.waiter, hne] using hi.inside r'
  owed r' := by
    rcases eq_or_ne r' r with rfl | hne
    · have ho := hi.owed r'
      rw [hr] at ho
      simp only [St.waiter, Function.update_self]
      exact ho
    · have hseen : Function.update t.seen r t.wakes r' = t.seen r' := Function.update_of_ne hne ..
      simp only [St.waiter, Function.update_of_ne hne]
      exact (hi.owed r').mono hseen rfl id id (fun _ => id) .inl fun _ => .inl

end Moves

section Steps
variable [DecidableEq S] [DecidableEq R] [DecidableEq O]
variable {C : Client X R A B} {Good : X → Prop} {Quiet : X → R → Prop} {Calm Mild : X → A → Prop}
  {Apt : X → R → Prop} {obj : R → O} {t t' : St X S R O} {s : S} {r : R}

theorem Inv.change (hL : Calms C Good Quiet Calm Mild Apt) (hi : Inv Good Quiet obj t) {a : A}
    (ha : Calm t.shared a ∧ (Mild t.shared a ∨ ∀ r, ¬ (t.wpc r).Failed))
    (h : step C obj t (.change s a) = some t') :
    Inv Good Quiet obj t' := by
  simp only [step] at h
  split at h
  · rename_i hs
    cases h
    have hx := hL.good_change a hi.good ha.1
    cases hann : (C.change t.shared a).2 with
    | false =>
      simp only [Bool.false_eq_true, if_false]
      refine hi.shared hx (fun _ => id) fun r hr hq => ?_
      exact hL.quiet_change a hi.good hq ha.1 (ha.2.resolve_right fun hno => hno r hr) hann
    | true => exact hi.announce hs hx
  · cases h

theorem Inv.lock (hi : Inv Good Quiet obj t) (h : step C obj t (.lock s) = some t') :
    Inv Good Quiet obj t' := by
  simp only [step] at h
  split at h
  · rename_i hs
    cases h
    refine hi.cross trivial (by rw [hs.1]; exact id) (hi.nobody (by simp [hs.2])) ?_
    intro s' hs'
    rcases update_cases hs' with ⟨rfl, -⟩ | ⟨-, hs'⟩
    · rfl
    · cases hs.2.symm.trans (hi.barrier s' hs')
  · cases h

theorem Inv.unlock (hi : Inv Good Quiet obj t) (h : step C obj t (.unlock s) = some t') :
    Inv Good Quiet obj t' := by
  simp only [step] at h
  split at h
  · rename_i hs
    cases h
    have hlock := hi.barrier s hs
    refine hi.cross trivial (by rw [hs]; exact id) (hi.nobody (by simp [hlock])) ?_
    intro s' hs'
    obtain ⟨hne, hs'⟩ := of_update_eq hs' (by simp)
    cases hlock.symm.trans (hi.barrier s' hs')
    exact absurd rfl hne
  · cases h

/-- What `a0_cnd_wake` does, as long as the kernel answers. -/
theorem Inv.wake (hi : Inv Good Quiet obj t) {a : Act S R A B O}
    (ha : a = .add s ∨ a = .requeue s ∨ a = .again s ∨ a = .reload s)
    (h : step C obj t a = some t') : Inv Good Quiet obj t' := by
  rcases ha with rfl | rfl | rfl | rfl <;> simp only [step] at h <;> split at h
  · cases h
    exact hi.add ‹_›
  · cases h
  · rename_i val hs
    cases h
    split
    · exact hi.requeue (by rw [hs]; trivial)
    · exact hi.again (by rw [hs]; trivial) trivial
  · cases h
  · rename_i val hs
    cases h
    exact hi.again (by rw [hs]; trivial) trivial
  · cases h
  · rename_i hs
    cases h
    exact hi.again (by rw [hs]; trivial) trivial
  · cases h

omit [DecidableEq S] [DecidableEq R] [DecidableEq O] in
/-- The predicate is evaluated, in `wait_if` or in the first turns of `wait_for`. -/
theorem Inv.test (hL : Calms C Good Quiet Calm Mild Apt) (hi : Inv Good Quiet obj t)
    (ha : Apt t.shared r) (hr : ¬ (t.wpc r).Failed) :
    Inv Good Quiet obj { t with shared := (C.test t.shared r).1 } :=
  hi.shared (hL.good_test r hi.good ha) (fun _ => id) fun _ hr' hq =>
    hL.quiet_test r hi.good ha hq fun he => hr (he ▸ hr')

theorem Inv.eval (hL : Calms C Good Quiet Calm Mild Apt) (hi : Inv Good Quiet obj t)
    (ha : Apt t.shared r) (h : step C obj t (.eval r) = some t') : Inv Good Quiet obj t' := by
  simp only [step] at h
  split at h
  · rename_i hr
    cases h
    have hlock := hi.inside r (by rw [hr]; trivial)
    have ho := hi.owed r
    rw [hr] at ho
    have hit := hi.test hL ha (by rw [hr]; exact id)
    cases hok : (C.test t.shared r).2 with
    | true => exact hit.waiter (by simp [Wpc.initCnd]) (fun _ => hlock) trivial
    | false =>
      refine hit.waiter (by simp [Wpc.initCnd]) (fun _ => hlock) ?_
      exact ho.imp_left fun hq => ⟨hL.quiet_failed hi.good hok, hq⟩
  · cases h

/-- The kernel lets a waiter sleep only if the counter has not moved. -/
theorem Inv.sleep (hi : Inv Good Quiet obj t) (hr : t.wakes < t.seen r + 4294967296)
    (h : step C obj t (.sleep r) = some t') : Inv Good Quiet obj t' := by
  simp only [step] at h
  split at h
  · rename_i c hc
    cases h
    have hloaded := hi.loaded r c (by simp [hc, Wpc.initCnd])
    split
    · rename_i heq
      have hseen : t.seen r = t.wakes := by
        have := congrArg BitVec.toNat (hi.cnd.symm.trans (heq.trans hloaded))
        simp only [BitVec.toNat_ofNat] at this
        have := hi.seen r
        omega
      refine hi.waiter (by simpa [Wpc.initCnd] using hloaded) False.elim ?_
      have ho := hi.owed r
      rw [hc] at ho
      exact .inl (ho hseen)
    · exact hi.waiter (by simp [Wpc.initCnd]) False.elim trivial
  · cases h

theorem Inv.interrupt (hi : Inv Good Quiet obj t) (h : step C obj t (.interrupt r) = some t') :
    Inv Good Quiet obj t' := by
  simp only [step] at h
  split at h
  · rename_i c hc
    cases h
    refine hi.waiter (fun c' hc' => hi.loaded r c' (by rw [hc]; exact hc')) False.elim fun hseen => ?_
    have ho := hi.owed r
    rw [hc] at ho
    exact ho.resolve_right fun hlt => absurd hseen (Nat.ne_of_lt hlt.1)
  · cases h

/-- A waiter leaves the kernel without the lock. -/
theorem Inv.woken (hi : Inv Good Quiet obj t) {a : Act S R A B O}
    (ha : a = .spurious r ∨ a = .timeout r ∨ a = .refuse r)
    (h : step C obj t a = some t') : Inv Good Quiet obj t' := by
  have hno (w : Wpc) (hw : w.initCnd = none) (hin : ¬ w.Inside) (ho : Owed Quiet obj t r w) :
      Inv Good Quiet obj (t.waiter r w) :=
    hi.waiter (by rw [hw]; simp) (fun h => absurd h hin) ho
  rcases ha with rfl | rfl | rfl <;> simp only [step] at h <;> split at h <;> cases h
  · exact hno _ rfl id trivial
  · exact hno _ rfl id trivial
  · exact hno _ rfl id trivial

/-- A waiter gets the lock. -/
theorem Inv.locked (hi : Inv Good Quiet obj t) {a : Act S R A B O}
    (ha : a = .acquire r ∨ a = .granted r ∨ a = .relock r) (h : step C obj t a = some t') :
    Inv Good Quiet obj t' := by
  have hno (w : Wpc) (hw : w.initCnd = none) (ho : Owed Quiet obj t r w) (hl : t.lock = none) :
      Inv Good Quiet obj { t.waiter r w with lock := some (.inr r) } :=
    hi.switched (.inl hl) (by rw [hw]; simp) (fun _ => rfl) ho
  rcases ha with rfl | rfl | rfl
  · simp only [step] at h
    split at h
    · rename_i hr
      cases h
      exact hno _ rfl trivial hr.2
    · cases h
  · simp only [step] at h
    split at h
    · rename_i hr
      cases h
      exact hno _ rfl trivial hr.2
    · cases h
  · simp only [step] at h
    split at h
    · split at h
      · rename_i timedOut _ hl
        cases h
        cases timedOut with
        | false => exact hno _ rfl trivial hl
        | true => exact hno _ rfl trivial hl
      · cases h
    · cases h

theorem Inv.release (hi : Inv Good Quiet obj t) (h : step C obj t (.release r) = some t') :
    Inv Good Quiet obj t' := by
  simp only [step] at h
  split at h
  · rename_i c hc
    cases h
    have ho := hi.owed r
    rw [hc] at ho
    refine hi.switched (.inr (hi.inside r (by rw [hc]; trivial)))
      (fun c' hc' => hi.loaded r c' (by rw [hc]; exact hc')) False.elim fun _ => ?_
    exact ho.imp_right fun ⟨s, hs⟩ => ⟨s, by rw [hs]; trivial⟩
  · cases h

theorem Inv.leave (hi : Inv Good Quiet obj t) (h : step C obj t (.leave r) = some t') :
    Inv Good Quiet obj t' := by
  simp only [step] at h
  split at h
  · cases h
    split
    · exact hi.switched (.inr ‹_›) (by simp [Wpc.initCnd]) False.elim trivial
    · exact hi.waiter (by simp [Wpc.initCnd]) False.elim trivial
  · cases h

theorem Inv.step (hL : Calms C Good Quiet Calm Mild Apt) (hi : Inv Good Quiet obj t) {a : Act S R A B O}
    (ha : Careful Calm Mild Apt t a) (h : Condition.step C obj t a = some t') : Inv Good Quiet obj t' := by
  cases a with
  | change s a => exact hi.change hL ha h
  | lock s => exact hi.lock h
  | unlock s => exact hi.unlock h
  | add s => exact hi.wake (.inl rfl) h
  | requeue s => exact hi.wake (.inr (.inl rfl)) h
  | again s => exact hi.wake (.inr (.inr (.inl rfl))) h
  | reload s => exact hi.wake (.inr (.inr (.inr rfl))) h
  | failed s => exact ha.elim
  | eval r => exact hi.eval hL ha h
  | sleep r => exact hi.sleep ha h
  | interrupt r => exact hi.interrupt h
  | spurious r => exact hi.woken (.inl rfl) h
  | timeout r => exact hi.woken (.inr (.inl rfl)) h
  | refuse r => exact hi.woken (.inr (.inr rfl)) h
  | acquire r => exact hi.locked (.inl rfl) h
  | granted r => exact hi.locked (.inr (.inl rfl)) h
  | relock r => exact hi.locked (.inr (.inr rfl)) h
  | release r => exact hi.release h
  | leave r => exact hi.leave h
  | quit s o =>
    simp only [Condition.step] at h
    split at h
    · cases h
      exact hi.announce ‹_› hi.good
    · cases h
  | reopen o =>
    cases h
    refine hi.shared hi.good (fun o' ho' => ?_) fun _ _ => id
    by_cases he : o' = o
    · rw [he, Function.update_self]
    · rw [Function.update_of_ne he, ho']
  | own r b =>
    simp only [Condition.step] at h
    split at h
    · rename_i hr
      cases h
      refine hi.shared (hL.good_own r b hi.good) (fun _ => id) fun _ hr' hq =>
        hL.quiet_own r b hi.good hq fun he => ?_
      rw [he, hr] at hr'
      exact hr'
    · cases h
  | poll r =>
    simp only [Condition.step] at h
    split at h
    · rename_i hr
      cases h
      exact hi.test hL ha (by rw [hr]; exact id)
    · cases h
  | enter r =>
    simp only [Condition.step] at h
    split at h
    · cases h
      exact hi.waiter (by simp [Wpc.initCnd]) False.elim trivial
    · cases h
  | test r =>
    simp only [Condition.step] at h
    split at h
    · rename_i hr
      cases h
      have hlock := hi.inside r (by rw [hr]; trivial)
      cases hq : t.quit (obj r) with
      | true => exact hi.waiter (by simp [Wpc.initCnd]) (fun _ => hlock) trivial
      | false => exact hi.waiter (by simp [Wpc.initCnd]) (fun _ => hlock) (.inl hq)
    · cases h
  | load r =>
    simp only [Condition.step] at h
    split at h
    · cases h
      exact hi.load ‹_›
    · cases h

theorem inv_of_run (hL : Calms C Good Quiet Calm Mild Apt) {x : X} (hx : Good x)
    {acts : List (Act S R A B O)} (h : run (Condition.step C obj) (.start x) acts = some t)
    (hm : Meets (Condition.step C obj) (Careful Calm Mild Apt) (.start x) acts) : Inv Good Quiet obj t :=
  run_invariant (fun _ _ _ hi ha h => hi.step hL ha h) (.start hx) h hm

omit [DecidableEq S] [DecidableEq R] [DecidableEq O] in
/-- Whoever sleeps although its test would succeed has a notifier on its way. -/
theorem Inv.pending (hi : Inv Good Quiet obj t) {c : Cnd} (hr : t.wpc r = .parked c) :
    Still Quiet obj t r ∨ ∃ s, t.npc s ≠ .idle := by
  have ho := hi.owed r
  rw [hr] at ho
  rcases ho with (hq | ⟨s, hs⟩) | ⟨-, s, hs⟩
  · exact .inl hq
  · exact .inr ⟨s, fun he => by rw [he] at hs; exact hs⟩
  · exact .inr ⟨s, fun he => by rw [he] at hs; exact hs⟩

end Steps

/-! ## What is left of a broadcast -/

section Rest
variable [DecidableEq S] [DecidableEq R] [DecidableEq O] {C : Client X R A B} {obj : R → O}
  {t : St X S R O} {s : S} {r : R} {c : Cnd}

/-- The steps that a notifier has still to take, if it is left alone. -/
def rest (t : St X S R O) (s : S) : List (Act S R A B O) :=
  match t.npc s with
  | .idle => []
  | .changed => [.lock s, .unlock s, .add s, .requeue s]
  | .barrier => [.unlock s, .add s, .requeue s]
  | .passed => [.add s, .requeue s]
  | .waking val => if t.cnd = val then [.requeue s] else [.requeue s, .reload s, .requeue s]
  | .reloading => [.reload s, .requeue s]

/-- The broadcast is over, and the sleeper waits for the lock. -/
def Reaches (C : Client X R A B) (obj : R → O) (t : St X S R O) (s : S) (r : R)
    (acts : List (Act S R A B O)) : Prop :=
  ∃ t', run (step C obj) t acts = some t' ∧ t'.npc s = .idle ∧ t'.wpc r = .requeued

theorem reaches_requeue (hs : t.npc s = .waking t.cnd) (hr : t.wpc r = .parked c) :
    Reaches C obj t s r [.requeue s] := by
  refine ⟨_, by simp only [run, step, hs, if_true, Option.bind_some]; rfl, ?_, ?_⟩
  · exact Function.update_self ..
  · change (t.wpc r).requeue = .requeued
    rw [hr]
    rfl

theorem reaches_cons {a : Act S R A B O} {acts : List (Act S R A B O)} {t' : St X S R O}
    (h : step C obj t a = some t') (ht : Reaches C obj t' s r acts) :
    Reaches C obj t s r (a :: acts) := by
  obtain ⟨u, hu, hend⟩ := ht
  exact ⟨u, by rw [run_step h, hu], hend⟩

theorem reaches_reload (hs : t.npc s = .reloading) (hr : t.wpc r = .parked c) :
    Reaches C obj t s r [.reload s, .requeue s] := by
  have h : step C obj t (.reload s) = some (t.notifier s (.waking t.cnd)) := by
    simp only [step, hs, if_true]
  exact reaches_cons h (reaches_requeue (Function.update_self ..) hr)

theorem reaches_add (hs : t.npc s = .passed) (hr : t.wpc r = .parked c) :
    Reaches C obj t s r [.add s, .requeue s] := by
  have h : step C obj t (.add s) = some { t.notifier s (.waking (t.cnd + 1)) with
      cnd := t.cnd + 1, wakes := t.wakes + 1 } := by
    simp only [step, hs, if_true]
  exact reaches_cons h (reaches_requeue (Function.update_self ..) hr)

theorem reaches_unlock (hs : t.npc s = .barrier) (hr : t.wpc r = .parked c) :
    Reaches C obj t s r [.unlock s, .add s, .requeue s] := by
  have h : step C obj t (.unlock s) = some { t.notifier s .passed with lock := none } := by
    simp only [step, hs, if_true]
  exact reaches_cons h (reaches_add (Function.update_self ..) hr)

/-- Left alone, a notifier gets to the end, unless it needs a lock that somebody has. -/
theorem reaches_rest (hs : t.npc s ≠ .idle) (hl : t.npc s = .changed → t.lock = none)
    (hr : t.wpc r = .parked c) : Reaches C obj t s r (rest t s) := by
  unfold rest
  cases h : t.npc s with
  | idle => exact absurd h hs
  | changed =>
    have hlock : step C obj t (.lock s) =
        some { t.notifier s .barrier with lock := some (.inl s) } := by
      simp only [step, h, hl h, and_self, if_true]
    exact reaches_cons hlock (reaches_unlock (Function.update_self ..) hr)
  | barrier => exact reaches_unlock h hr
  | passed => exact reaches_add h hr
  | waking val =>
    by_cases hv : t.cnd = val
    · simp only [hv, if_true]
      exact reaches_requeue (by rw [h, hv]) hr
    · have hagain : step C obj t (.requeue s) = some (t.notifier s .reloading) := by
        simp only [step, h, hv, if_false]
      simp only [hv, if_false]
      exact reaches_cons hagain (reaches_reload (Function.update_self ..) hr)
  | reloading => exact reaches_reload h hr

end Rest

end CppIpc.Condition
