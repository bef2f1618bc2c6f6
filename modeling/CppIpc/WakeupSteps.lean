import CppIpc.Condition
import CppIpc.Wakeup

/-! # Waking the receivers, access by access

The queue of `Wakeup` with the counter of `Condition` under its `rd_waiter_`: releasing
the lock and falling asleep are no longer one step, the broadcast is a loop, a wait can
time out or fail, and `quit_waiting` ends it. -/
namespace CppIpc.WakeupSteps
open CppIpc.Message CppIpc.FailedSend
open CppIpc.Condition (Act Cnd Reaches Timely rest step)
open CppIpc.Wakeup (Offer Shared client)
open CppIpc.Lib.Runs (run Meets)

variable {fl : Flag} {S R O : Type} [DecidableEq S] [DecidableEq R] [DecidableEq O] {obj : R → O}

abbrev St (fl : Flag) (S R O : Type) := Condition.St (Shared fl R) S R O

def init (fl : Flag) (S R O : Type) : St fl S R O := .start (.init fl R)

/-- A receiver asleep in the kernel whose `pop` would succeed, or whose handle has been told
to quit, has a sender on its way whose remaining steps, once the lock that it is about to take
is free, take it off the counter. No broadcast fails, and fewer than `2 ^ 32` of them pass
before the kernel compares. -/
theorem broadcast_reaches {acts : List (Act S R Offer Unit O)} {t : St fl S R O}
    (h : run (step (client fl R) obj) (init fl S R O) acts = some t)
    (hm : Meets (step (client fl R) obj) Timely (init fl S R O) acts) {r : R} {c : Cnd}
    (hr : t.wpc r = .parked c)
    (hw : t.quit (obj r) = true ∨ (t.shared.tryPop r).2 = true) :
    ∃ s, t.npc s ≠ .idle ∧
      ((t.npc s = .changed → t.lock = none) → Reaches (client fl R) obj t s r (rest t s)) := by
  have hi := Condition.inv_of_run (Condition.calms_of_laws (Wakeup.laws fl R))
    (Wakeup.reached_init fl) h hm
  rcases hi.pending hr with ⟨hq, hquit⟩ | ⟨s, hs⟩
  · have hfail := (Wakeup.laws fl R).quiet_fails hi.good hq
    rcases hw with hw | hw
    · rw [hquit] at hw
      cases hw
    · cases hfail.symm.trans hw
  · exact ⟨s, hs, fun hl => Condition.reaches_rest hs hl hr⟩

/-- A sender pushes between the receiver's read of the counter and its sleep. -/
def missed : List (Act Unit Unit Offer Unit Unit) :=
  [.own () (), .enter (), .acquire (), .test (), .eval (), .load (), .change () (.push .zero),
    .release (), .sleep ()]

theorem broadcast_reaches_missed : ∃ t,
    run (step (client (.broadcast .multi) Unit) fun _ => ())
      (init (.broadcast .multi) Unit Unit Unit) missed = some t ∧
    t.wpc () = .parked 0 ∧ ∃ s, t.npc s ≠ .idle ∧
      ((t.npc s = .changed → t.lock = none) →
        Reaches (client (.broadcast .multi) Unit) (fun _ => ()) t s () (rest t s)) := by
  have hs : ((run (step (client (.broadcast .multi) Unit) fun _ => ())
      (init (.broadcast .multi) Unit Unit Unit) missed).map fun t =>
      (t.wpc (), (t.shared.tryPop ()).2)) = some (.parked 0, true) := by
    decide +kernel
  have hm : Meets (step (client (.broadcast .multi) Unit) fun _ => ()) Timely
      (init (.broadcast .multi) Unit Unit Unit) missed := by
    decide +kernel
  obtain ⟨t, hr, he⟩ := Option.map_eq_some_iff.mp hs
  obtain ⟨hsleep, hpop⟩ := Prod.mk.inj he
  exact ⟨t, hr, hsleep, broadcast_reaches hr hm hsleep (.inr hpop)⟩

end CppIpc.WakeupSteps
