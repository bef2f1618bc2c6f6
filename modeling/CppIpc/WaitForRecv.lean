import CppIpc.Condition
import CppIpc.Connections
import CppIpc.Wakeup

/-! # `wait_for_recv`

A caller waits in `cc_waiter_.wait_if` until enough receivers are connected. `reconnect`
announces there a receiver that connects, and so does every `recv` that connects again;
`disconnect` announces as well. -/
namespace CppIpc.WaitForRecv
open CppIpc.Def CppIpc.FailedSend
open CppIpc.Condition (Act Cnd Reaches Timely rest step)
open CppIpc.Connections (connCount connCount_eq)
open CppIpc.Lib.Bits (ones mem_ones)
open CppIpc.Lib.Monitor (Client Laws)
open CppIpc.Lib.Runs (run Meets)
open CppIpc.Wakeup (Conns connectReceiver flagAfter)

variable {fl : Flag} {R : Type}

/-- `conn_head::conn_count`. -/
def countOf : Flag → CC → Nat
  | .unicast, cc => cc.toNat
  | .broadcast _, cc => connCount cc

/-- `elem_array::disconnect_receiver`. -/
def disconnectReceiver (fl : Flag) (c : Conns) (id : CC) : Conns where
  cc := match fl with
    | .unicast => if id = ~~~0#32 then 0 else c.cc - 1
    | .broadcast _ => Receivers.disconnect c.cc id
  flag := flagAfter fl c.flag

/-- The connection word, `connected_` of each handle, and what each caller waits for. -/
structure Shared (R : Type) where
  conns : Conns
  connected : Nat → CC
  count : R → Nat

inductive Change where
  | connect (h : Nat)
  | disconnect (h : Nat)
  /-- `disconnect_receiver` in a `force_push`. -/
  | kick (rem : CC)

/-- The connections after a change, and whether `cc_waiter_.broadcast()` follows. -/
def Shared.change (fl : Flag) (x : Shared R) : Change → Shared R × Bool
  | .connect h =>
    if Wakeup.connected fl x.conns.cc (x.connected h) then (x, true)
    else
      let (conns, id) := connectReceiver fl x.conns
      ({ x with conns := conns, connected := Function.update x.connected h id },
        Wakeup.connected fl conns.cc id)
  | .disconnect h =>
    (if Wakeup.connected fl x.conns.cc (x.connected h) then
      { x with
        conns := disconnectReceiver fl x.conns (x.connected h)
        connected := Function.update x.connected h 0 }
    else x, true)
  | .kick rem =>
    let id := match fl with
      | .unicast => ~~~0#32
      | .broadcast _ => rem
    ({ x with conns := disconnectReceiver fl x.conns id }, false)

/-- The predicate of `wait_for_recv` evaluated to false. -/
def Shared.enough (fl : Flag) (x : Shared R) (r : R) : Bool := x.count r ≤ countOf fl x.conns.cc

def client (fl : Flag) (R : Type) [DecidableEq R] : Client (Shared R) R Change Nat where
  change := Shared.change fl
  own x r n := { x with count := Function.update x.count r n }
  test x r := (x, x.enough fl r)

/-! ## The count grows only with a receiver that connects -/

theorem connCount_mono {cc cc' : CC} (h : ∀ i, cc'.getLsbD i = true → cc.getLsbD i = true) :
    connCount cc' ≤ connCount cc := by
  rw [connCount_eq, connCount_eq]
  refine Finset.card_le_card fun i hi => ?_
  rw [mem_ones] at hi ⊢
  exact h i hi

theorem countOf_kick (fl : Flag) (c : Conns) (rem : CC) :
    countOf fl (disconnectReceiver fl c (match fl with
      | .unicast => ~~~0#32
      | .broadcast _ => rem)).cc ≤ countOf fl c.cc := by
  cases fl with
  | unicast => simp [disconnectReceiver, countOf]
  | broadcast rp =>
    refine connCount_mono fun i hi => ?_
    rw [disconnectReceiver, Receivers.disconnect, Lib.Bits.getLsbD_and_not, Bool.and_eq_true] at hi
    exact hi.1

/-- A receiver that gets no id is not counted. -/
theorem countOf_refused {c : Conns} (h : Wakeup.connected fl (connectReceiver fl c).1.cc
    (connectReceiver fl c).2 = false) : countOf fl (connectReceiver fl c).1.cc ≤ countOf fl c.cc := by
  cases fl with
  | unicast =>
    unfold connectReceiver at h ⊢
    dsimp only at h ⊢
    split
    · exact Nat.le_refl _
    · rename_i hf
      rw [if_neg hf] at h
      simp only [Wakeup.connected, decide_eq_false_iff_not, and_self, not_not] at h
      simp only [countOf]
      rw [h]
      exact Nat.zero_le _
  | broadcast rp =>
    unfold connectReceiver at h ⊢
    dsimp only at h ⊢
    rcases Receivers.connect_cases c.cc with he | ⟨b, hclear, hid, hbits⟩
    · rw [he]
    · simp only [Wakeup.connected, hid, Bool.eq_false_iff] at h
      refine absurd ((Receivers.connected_idOf _ b).mpr ?_) h
      rw [ReadCounter.Conn, hbits]
      simp

theorem quiet_change {x : Shared R} {r : R} {a : Change} (hq : x.enough fl r = false)
    (ha : (x.change fl a).2 = false) : (x.change fl a).1.enough fl r = false := by
  have hle {y : Shared R} (hc : y.count = x.count)
      (h : countOf fl y.conns.cc ≤ countOf fl x.conns.cc) : y.enough fl r = false := by
    simp only [Shared.enough, decide_eq_false_iff_not, hc] at hq ⊢
    omega
  cases a with
  | disconnect h => cases ha
  | kick rem => exact hle rfl (countOf_kick fl x.conns rem)
  | connect h =>
    unfold Shared.change at ha ⊢
    dsimp only at ha ⊢
    split at ha
    · cases ha
    · rename_i hc
      rw [if_neg hc]
      exact hle rfl (countOf_refused ha)

theorem laws (fl : Flag) (R : Type) [DecidableEq R] :
    Laws (client fl R) (fun _ => True) fun x r => x.enough fl r = false where
  good_change _ _ := trivial
  good_own _ _ _ := trivial
  good_test _ _ := trivial
  quiet_failed _ h := h
  quiet_change _ _ hq ha := quiet_change hq ha
  quiet_own := by
    intro x r q n _ hq hne
    simp only [client, Shared.enough, Function.update_of_ne hne] at hq ⊢
    exact hq
  quiet_test _ _ hq _ := hq
  quiet_fails _ hq := hq

/-! ## Nobody sleeps on while enough are connected -/

section Runs
variable {S O : Type} [DecidableEq S] [DecidableEq R] [DecidableEq O] {obj : R → O}

abbrev St (S R O : Type) := Condition.St (Shared R) S R O

def init (S R O : Type) : St S R O := .start ⟨⟨0, false⟩, fun _ => 0, fun _ => 0⟩

/-- A caller asleep in the kernel with enough receivers, or whose handle has been told to
quit, has somebody on its way whose remaining steps wake it. No broadcast fails, and fewer
than `2 ^ 32` of them pass before the kernel compares. -/
theorem enough_announced {acts : List (Act S R Change Nat O)} {t : St S R O}
    (h : run (step (client fl R) obj) (init S R O) acts = some t)
    (hm : Meets (step (client fl R) obj) Timely (init S R O) acts)
    {r : R} {c : Cnd} (hr : t.wpc r = .parked c)
    (hw : t.quit (obj r) = true ∨ t.shared.count r ≤ countOf fl t.shared.conns.cc) :
    ∃ s, t.npc s ≠ .idle ∧
      ((t.npc s = .changed → t.lock = none) → Reaches (client fl R) obj t s r (rest t s)) := by
  have hi := Condition.inv_of_run (Condition.calms_of_laws (laws fl R)) trivial h hm
  rcases hi.pending hr with ⟨hq, hquit⟩ | ⟨s, hs⟩
  · rcases hw with hw | hw
    · cases hquit.symm.trans hw
    · rw [Shared.enough, decide_eq_false_iff_not] at hq
      exact absurd hw hq
  · exact ⟨s, hs, fun hl => Condition.reaches_rest hs hl hr⟩

/-- A receiver connects between the caller's count and its sleep. -/
def late : List (Act Unit Unit Change Nat Unit) :=
  [.own () 1, .enter (), .acquire (), .test (), .eval (), .change () (.connect 0), .load (), .release (),
    .sleep ()]

theorem enough_announced_late : ∃ t,
    run (step (client .unicast Unit) fun _ => ()) (init Unit Unit Unit) late = some t ∧
    t.wpc () = .parked 0 ∧ ∃ s, t.npc s ≠ .idle ∧ ((t.npc s = .changed → t.lock = none) →
      Reaches (client .unicast Unit) (fun _ => ()) t s () (rest t s)) := by
  have hs : ((run (step (client .unicast Unit) fun _ => ()) (init Unit Unit Unit)
      late).map fun t => (t.wpc (), t.shared.count (), t.shared.conns.cc)) =
      some (.parked 0, 1, 1) := by
    decide +kernel
  have hm : Meets (step (client .unicast Unit) fun _ => ()) Timely
      (init Unit Unit Unit) late := by
    decide +kernel
  obtain ⟨t, hr, he⟩ := Option.map_eq_some_iff.mp hs
  simp only [Prod.mk.injEq] at he
  obtain ⟨hsleep, hcount, hcc⟩ := he
  have henough : t.shared.count () ≤ countOf .unicast t.shared.conns.cc := by
    rw [hcount, hcc]
    decide
  exact ⟨t, hr, hsleep, enough_announced hr hm hsleep (.inr henough)⟩

end Runs

end CppIpc.WaitForRecv
