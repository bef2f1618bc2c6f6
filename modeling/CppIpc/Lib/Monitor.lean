import CppIpc.Lib.Places
import CppIpc.Lib.Runs

/-! # A condition variable whose state changes outside the lock

Notifiers change a shared state at any time, then pass through the lock once and
then broadcast. Waiters test the state under the lock and go to sleep if the test
fails. Of the lock and the condition only this is assumed: one owner at a time,
releasing the lock and falling asleep are one step, and a broadcast wakes
everybody who sleeps. A sleeper may also wake for no reason. -/
namespace CppIpc.Lib.Monitor
open CppIpc.Lib.Places (of_update of_update_eq)
open CppIpc.Lib.Runs (run run_invariant')

/-- A state `X` as notifiers and waiters `R` see it. `change` tells whether the
notifier is going to announce it, `test` whether the waiter need not sleep, and `own`
is what a waiter does outside the monitor. -/
structure Client (X R A B : Type) where
  change : X → A → X × Bool
  own : X → R → B → X
  test : X → R → X × Bool

/-- Where a notifier stands: after a change, inside its empty critical section, and
after that before the broadcast. -/
inductive Npc where
  | idle
  | changed
  | barrier
  | passed
deriving DecidableEq

/-- A change has been made and its broadcast has not. -/
def Npc.Pending (n : Npc) : Prop := n ≠ .idle

/-- Where a waiter stands: before the lock, with the lock before a test, after a
test that failed, asleep, awake before the lock, and after a test that did not fail. -/
inductive Wpc where
  | out
  | entering
  | testing
  | blocking
  | asleep
  | woken
  | leaving
deriving DecidableEq

/-- The waiter has the lock. -/
def Wpc.Inside : Wpc → Prop
  | .testing | .blocking | .leaving => True
  | .out | .entering | .asleep | .woken => False

structure State (X S R : Type) where
  shared : X
  lock : Option (S ⊕ R)
  npc : S → Npc
  wpc : R → Wpc

inductive Act (S R A B : Type) where
  | change (s : S) (a : A)
  | lock (s : S)
  | unlock (s : S)
  | broadcast (s : S)
  | own (r : R) (b : B)
  | poll (r : R)
  | enter (r : R)
  | acquire (r : R)
  | test (r : R)
  | sleep (r : R)
  | wake (r : R)
  | leave (r : R)

variable {X S R A B : Type}

def State.start (x : X) : State X S R := ⟨x, none, fun _ => .idle, fun _ => .out⟩

/-- The sleepers are awake. -/
def wakeAll (wpc : R → Wpc) : R → Wpc := fun r => if wpc r = .asleep then .woken else wpc r

def step [DecidableEq S] [DecidableEq R] (C : Client X R A B) (t : State X S R) :
    Act S R A B → Option (State X S R)
  | .change s a =>
    if t.npc s = .idle then
      let (x, announce) := C.change t.shared a
      some { t with
        shared := x
        npc := if announce then Function.update t.npc s .changed else t.npc }
    else none
  | .lock s =>
    if t.npc s = .changed ∧ t.lock = none then
      some { t with lock := some (.inl s), npc := Function.update t.npc s .barrier }
    else none
  | .unlock s =>
    if t.npc s = .barrier then
      some { t with lock := none, npc := Function.update t.npc s .passed }
    else none
  | .broadcast s =>
    if t.npc s = .passed then
      some { t with npc := Function.update t.npc s .idle, wpc := wakeAll t.wpc }
    else none
  | .own r b =>
    if t.wpc r = .out then some { t with shared := C.own t.shared r b } else none
  | .poll r =>
    if t.wpc r = .out then some { t with shared := (C.test t.shared r).1 } else none
  | .enter r =>
    if t.wpc r = .out then some { t with wpc := Function.update t.wpc r .entering } else none
  | .acquire r =>
    if (t.wpc r = .entering ∨ t.wpc r = .woken) ∧ t.lock = none then
      some { t with lock := some (.inr r), wpc := Function.update t.wpc r .testing }
    else none
  | .test r =>
    if t.wpc r = .testing then
      let (x, ok) := C.test t.shared r
      some { t with
        shared := x
        wpc := Function.update t.wpc r (if ok then .leaving else .blocking) }
    else none
  | .sleep r =>
    if t.wpc r = .blocking then
      some { t with lock := none, wpc := Function.update t.wpc r .asleep }
    else none
  | .wake r =>
    if t.wpc r = .asleep then some { t with wpc := Function.update t.wpc r .woken } else none
  | .leave r =>
    if t.wpc r = .leaving then
      some { t with lock := none, wpc := Function.update t.wpc r .out }
    else none

/-- `Quiet x r`: the test of `r` fails, and goes on failing until a change that is
announced. `Good` is an invariant of the shared state. -/
structure Laws (C : Client X R A B) (Good : X → Prop) (Quiet : X → R → Prop) : Prop where
  good_change : ∀ {x} a, Good x → Good (C.change x a).1
  good_own : ∀ {x} r b, Good x → Good (C.own x r b)
  good_test : ∀ {x} r, Good x → Good (C.test x r).1
  quiet_failed : ∀ {x r}, Good x → (C.test x r).2 = false → Quiet (C.test x r).1 r
  quiet_change : ∀ {x r} a, Good x → Quiet x r → (C.change x a).2 = false →
    Quiet (C.change x a).1 r
  quiet_own : ∀ {x r} q b, Good x → Quiet x r → r ≠ q → Quiet (C.own x q b) r
  quiet_test : ∀ {x r} q, Good x → Quiet x r → r ≠ q → Quiet (C.test x q).1 r
  quiet_fails : ∀ {x r}, Good x → Quiet x r → (C.test x r).2 = false

/-- While a waiter is between its test and its sleep, no notifier gets past the lock:
a change that it has missed is still before the barrier. -/
structure Inv (Good : X → Prop) (Quiet : X → R → Prop) (t : State X S R) : Prop where
  good : Good t.shared
  barrier : ∀ s, t.npc s = .barrier → t.lock = some (.inl s)
  inside : ∀ r, (t.wpc r).Inside → t.lock = some (.inr r)
  blocking : ∀ r, t.wpc r = .blocking → Quiet t.shared r ∨ ∃ s, t.npc s = .changed
  asleep : ∀ r, t.wpc r = .asleep → Quiet t.shared r ∨ ∃ s, (t.npc s).Pending

section Shared
variable {Good : X → Prop} {Quiet : X → R → Prop} {t : State X S R}

theorem Inv.start {x : X} (hx : Good x) : Inv Good Quiet (.start x : State X S R) where
  good := hx
  barrier := fun _ h => nomatch h
  inside := fun _ h => h.elim
  blocking := fun _ h => nomatch h
  asleep := fun _ h => nomatch h

/-- Only the shared state moves. -/
theorem Inv.shared (hi : Inv Good Quiet t) {x : X} (hx : Good x)
    (hq : ∀ r, t.wpc r ≠ .out → Quiet t.shared r → Quiet x r) :
    Inv Good Quiet { t with shared := x } where
  good := hx
  barrier := hi.barrier
  inside := hi.inside
  blocking := fun r (hr : t.wpc r = .blocking) =>
    (hi.blocking r hr).imp_left (hq r (by rw [hr]; nofun))
  asleep := fun r (hr : t.wpc r = .asleep) =>
    (hi.asleep r hr).imp_left (hq r (by rw [hr]; nofun))

/-- A waiter outside the monitor acts on the shared state. -/
theorem Inv.outside (hi : Inv Good Quiet t) {q : R} (hq : t.wpc q = .out) {x : X} (hx : Good x)
    (hx' : ∀ r, r ≠ q → Quiet t.shared r → Quiet x r) :
    Inv Good Quiet { t with shared := x } :=
  hi.shared hx fun r hr => hx' r fun he => hr (he ▸ hq)

/-- With a notifier in the critical section nobody is between a test and its sleep. -/
theorem Inv.nobody (hi : Inv Good Quiet t) (hl : ∀ r, t.lock ≠ some (.inr r)) (r : R) :
    ¬ (t.wpc r).Inside := fun hr => hl r (hi.inside r hr)

theorem wakeAll_ne_asleep (wpc : R → Wpc) (r : R) : wakeAll wpc r ≠ .asleep := by
  unfold wakeAll
  split
  · nofun
  · assumption

/-- A waiter who is not asleep does not notice a broadcast. -/
theorem wakeAll_eq {wpc : R → Wpc} {r : R} (h : wakeAll wpc r ≠ .woken) :
    wakeAll wpc r = wpc r := by
  unfold wakeAll at *
  split at h
  · exact absurd rfl h
  · rename_i hne
    rw [if_neg hne]

end Shared

section Steps
variable [DecidableEq S] [DecidableEq R]
variable {C : Client X R A B} {Good : X → Prop} {Quiet : X → R → Prop} {t t' : State X S R}

theorem Inv.change (hL : Laws C Good Quiet) (hi : Inv Good Quiet t) {s : S} {a : A}
    (h : step C t (.change s a) = some t') : Inv Good Quiet t' := by
  simp only [step] at h
  split at h
  · cases h
    cases ha : (C.change t.shared a).2 with
    | false =>
      simp only [Bool.false_eq_true, if_false]
      exact hi.shared (hL.good_change a hi.good) fun r _ hr => hL.quiet_change a hi.good hr ha
    | true =>
      simp only [if_true]
      refine ⟨hL.good_change a hi.good, fun s' hs' => ?_, hi.inside, fun r _ => ?_, fun r _ => ?_⟩
      · exact hi.barrier s' (of_update_eq hs' nofun).2
      · exact .inr ⟨s, by simp⟩
      · exact .inr ⟨s, by simp [Npc.Pending]⟩
  · cases h

theorem Inv.lock (hi : Inv Good Quiet t) {s : S}
    (h : step C t (.lock s) = some t') : Inv Good Quiet t' := by
  simp only [step] at h
  split at h
  · rename_i hs
    cases h
    have hout := hi.nobody fun r => by rw [hs.2]; nofun
    refine ⟨hi.good, fun s' hs' => ?_, fun r hr => absurd hr (hout r), fun r hr => ?_,
      fun r hr => ?_⟩
    · by_cases he : s' = s
      · rw [he]
      · have := hi.barrier s' (by simpa [Function.update_of_ne he] using hs')
        rw [hs.2] at this
        cases this
    · have hr : t.wpc r = .blocking := hr
      exact absurd (by rw [hr]; trivial) (hout r)
    · exact (hi.asleep r hr).imp_right fun _ => ⟨s, by simp [Npc.Pending]⟩
  · cases h

theorem Inv.unlock (hi : Inv Good Quiet t) {s : S}
    (h : step C t (.unlock s) = some t') : Inv Good Quiet t' := by
  simp only [step] at h
  split at h
  · rename_i hs
    cases h
    have hlock := hi.barrier s hs
    have hout := hi.nobody fun r => by rw [hlock]; nofun
    refine ⟨hi.good, fun s' hs' => ?_, fun r hr => absurd hr (hout r), fun r hr => ?_,
      fun r hr => ?_⟩
    · obtain ⟨hne, hs'⟩ := of_update_eq hs' nofun
      have := hi.barrier s' hs'
      rw [hlock] at this
      cases this
      exact absurd rfl hne
    · have hr : t.wpc r = .blocking := hr
      exact absurd (by rw [hr]; trivial) (hout r)
    · exact (hi.asleep r hr).imp_right fun _ => ⟨s, by simp [Npc.Pending]⟩
  · cases h

theorem Inv.broadcast (hi : Inv Good Quiet t) {s : S}
    (h : step C t (.broadcast s) = some t') : Inv Good Quiet t' := by
  simp only [step] at h
  split at h
  · rename_i hs
    cases h
    refine ⟨hi.good, fun s' hs' => ?_, fun r hr => ?_, fun r hr => ?_, fun r hr => ?_⟩
    · exact hi.barrier s' (of_update_eq hs' nofun).2
    · have hr : (wakeAll t.wpc r).Inside := hr
      rw [wakeAll_eq fun he => by rw [he] at hr; exact hr] at hr
      exact hi.inside r hr
    · have hr : wakeAll t.wpc r = .blocking := hr
      rw [wakeAll_eq (by rw [hr]; nofun)] at hr
      -- the change that it has missed is not the one announced here
      refine (hi.blocking r hr).imp_right fun ⟨s', hs'⟩ => ⟨s', ?_⟩
      have hne : s' ≠ s := fun he => by rw [he, hs] at hs'; cases hs'
      simpa only [Function.update_of_ne hne] using hs'
    · exact absurd hr (wakeAll_ne_asleep _ r)
  · cases h

omit [DecidableEq S] in
/-- A waiter moves between two places where it has no lock and is not asleep. -/
theorem Inv.move (hi : Inv Good Quiet t) {q : R} {w : Wpc} (hw : ¬ w.Inside) (ha : w ≠ .asleep) :
    Inv Good Quiet { t with wpc := Function.update t.wpc q w } where
  good := hi.good
  barrier := hi.barrier
  inside := fun r hr => hi.inside r (of_update hr hw).2
  blocking := fun r hr => hi.blocking r
    (of_update_eq hr fun he => hw (by rw [he]; trivial)).2
  asleep := fun r hr => hi.asleep r (of_update_eq hr ha).2

theorem Inv.acquire (hi : Inv Good Quiet t) {q : R}
    (h : step C t (.acquire q) = some t') : Inv Good Quiet t' := by
  simp only [step] at h
  split at h
  · rename_i hq
    cases h
    have hfree := hq.2
    refine ⟨hi.good, fun s hs => ?_, fun r hr => ?_, fun r hr => ?_, fun r hr => ?_⟩
    · have := hi.barrier s hs
      rw [hfree] at this
      cases this
    · by_cases he : r = q
      · rw [he]
      · have := hi.inside r (by simpa only [Function.update_of_ne he] using hr)
        rw [hfree] at this
        cases this
    · exact hi.blocking r (of_update_eq hr nofun).2
    · exact hi.asleep r (of_update_eq hr nofun).2
  · cases h

theorem Inv.test (hL : Laws C Good Quiet) (hi : Inv Good Quiet t) {q : R}
    (h : step C t (.test q) = some t') : Inv Good Quiet t' := by
  simp only [step] at h
  split at h
  · rename_i hq
    cases h
    have hlock := hi.inside q (by rw [hq]; trivial)
    refine ⟨hL.good_test q hi.good, hi.barrier, fun r hr => ?_, fun r hr => ?_, fun r hr => ?_⟩
    · by_cases he : r = q
      · rw [he]; exact hlock
      · exact hi.inside r (by simpa only [Function.update_of_ne he] using hr)
    · by_cases he : r = q
      · subst he
        cases hb : (C.test t.shared r).2 with
        | false => exact .inl (hL.quiet_failed hi.good hb)
        | true => simp [hb] at hr
      · refine (hi.blocking r ?_).imp_left fun hr => hL.quiet_test q hi.good hr he
        simpa only [Function.update_of_ne he] using hr
    · obtain ⟨he, hr⟩ := of_update_eq hr (by split <;> nofun)
      exact (hi.asleep r hr).imp_left fun hr => hL.quiet_test q hi.good hr he
  · cases h

omit [DecidableEq S] in
/-- A waiter gives the lock back. -/
theorem Inv.release (hi : Inv Good Quiet t) {q : R} (hq : (t.wpc q).Inside) {w : Wpc}
    (hw : ¬ w.Inside)
    (ha : w = .asleep → Quiet t.shared q ∨ ∃ s, (t.npc s).Pending) :
    Inv Good Quiet { t with lock := none, wpc := Function.update t.wpc q w } where
  good := hi.good
  barrier := fun s hs => by
    have := hi.barrier s hs
    rw [hi.inside q hq] at this
    cases this
  inside := fun r hr => by
    obtain ⟨hne, hr⟩ := of_update hr hw
    have := hi.inside r hr
    rw [hi.inside q hq] at this
    cases this
    exact absurd rfl hne
  blocking := fun r hr => hi.blocking r
    (of_update_eq hr fun he => hw (by rw [he]; trivial)).2
  asleep := fun r hr => by
    by_cases he : r = q
    · subst he
      exact ha (by simpa using hr)
    · exact hi.asleep r (by simpa only [Function.update_of_ne he] using hr)

theorem Inv.step (hL : Laws C Good Quiet) (hi : Inv Good Quiet t) {a : Act S R A B}
    (h : Monitor.step C t a = some t') : Inv Good Quiet t' := by
  cases a with
  | change s a => exact hi.change hL h
  | lock s => exact hi.lock h
  | unlock s => exact hi.unlock h
  | broadcast s => exact hi.broadcast h
  | acquire r => exact hi.acquire h
  | test r => exact hi.test hL h
  | own r b =>
    simp only [Monitor.step] at h
    split at h
    · rename_i hr
      cases h
      exact hi.outside hr (hL.good_own r b hi.good) fun q hq hx => hL.quiet_own r b hi.good hx hq
    · cases h
  | poll r =>
    simp only [Monitor.step] at h
    split at h
    · rename_i hr
      cases h
      exact hi.outside hr (hL.good_test r hi.good) fun q hq hx => hL.quiet_test r hi.good hx hq
    · cases h
  | enter r =>
    simp only [Monitor.step] at h
    split at h
    · cases h
      exact hi.move id nofun
    · cases h
  | sleep r =>
    simp only [Monitor.step] at h
    split at h
    · rename_i hr
      cases h
      refine hi.release (by rw [hr]; trivial) id fun _ => ?_
      exact (hi.blocking r hr).imp_right fun ⟨s, hs⟩ => ⟨s, by rw [hs]; nofun⟩
    · cases h
  | wake r =>
    simp only [Monitor.step] at h
    split at h
    · cases h
      exact hi.move id nofun
    · cases h
  | leave r =>
    simp only [Monitor.step] at h
    split at h
    · rename_i hr
      cases h
      exact hi.release (by rw [hr]; trivial) id nofun
    · cases h

/-- Whoever sleeps although its test would succeed is going to be woken. -/
theorem pending_of_asleep (hL : Laws C Good Quiet) {x : X} (hx : Good x) {acts : List (Act S R A B)}
    (h : run (Monitor.step C) (.start x) acts = some t) {r : R} (hr : t.wpc r = .asleep)
    (ht : (C.test t.shared r).2 = true) : ∃ s, (t.npc s).Pending := by
  have hi : Inv Good Quiet t := run_invariant' (fun _ _ _ hi h => hi.step hL h) (.start hx) h
  rcases hi.asleep r hr with hq | hs
  · rw [hL.quiet_fails hi.good hq] at ht
    cases ht
  · exact hs

end Steps

end CppIpc.Lib.Monitor
