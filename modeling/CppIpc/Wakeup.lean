import CppIpc.FailedSend
import CppIpc.Lib.Monitor
import CppIpc.Receivers

/-! # Waking the receivers

`send` pushes and then calls `rd_waiter_.broadcast()`; `recv` waits in
`rd_waiter_.wait_if` for its `pop` to succeed. A push, a forced push and an
evaluation of the predicate are one step each, and so is every use of the lock and
of the condition. -/
namespace CppIpc.Wakeup
open CppIpc.Def CppIpc.Message CppIpc.ProdCons CppIpc.FailedSend
open CppIpc.Receivers (Handle)
open CppIpc.Lib.Monitor (Client Laws State Act)
open CppIpc.Lib.Runs (run)

/-! ## The queue and its receivers -/

/-- The connection word, and the flag of `receiver_checker<P, false>`, which only the
unicast policy has. -/
structure Conns where
  cc : CC
  flag : Bool

/-- `elem_array::connect_receiver`: the connections and the connected id. -/
def connectReceiver : Flag → Conns → Conns × CC
  | .unicast, c => if c.flag then (c, 0) else (⟨c.cc + 1, true⟩, c.cc + 1)
  | .broadcast _, c =>
    let (cc, id) := Receivers.connect c.cc
    (⟨cc, c.flag⟩, id)

/-- `conn_head::connected`. -/
def connected : Flag → CC → CC → Bool
  | .unicast, cc, id => cc ≠ 0 ∧ id ≠ 0
  | .broadcast _, cc, id => Receivers.connected cc id

/-- What `disconnect_receiver` leaves of the flag in `force_push`. -/
def flagAfter : Flag → Bool → Bool
  | .unicast, _ => false
  | .broadcast _, flag => flag

/-- The cursor after a `pop`; the unicast policy has no use for it. -/
def advance : Flag → U2 → U2
  | .unicast, cur => cur
  | .broadcast _, cur => cur + 1

/-- The shared memory and the receiving sides of the handles. -/
structure Shared (fl : Flag) (R : Type) where
  que : fl.policy.Queue
  conns : Conns
  handle : R → Handle

variable {fl : Flag} {R : Type} [DecidableEq R]

def Shared.init (fl : Flag) (R : Type) : Shared fl R := ⟨fl.policy.init, ⟨0, false⟩, fun _ => ⟨0, 0⟩⟩

/-- `queue_base::connected`. -/
def Shared.connected (x : Shared fl R) (r : R) : Bool :=
  Wakeup.connected fl x.conns.cc (x.handle r).connected

/-- `queue_base::connect`. -/
def Shared.connect (x : Shared fl R) (r : R) : Shared fl R :=
  if x.connected r then x
  else
    let (conns, id) := connectReceiver fl x.conns
    if Wakeup.connected fl conns.cc id then
      { x with
        conns := conns
        handle := Function.update x.handle r ⟨id, fl.policy.cursor x.que⟩ }
    else
      { x with
        conns := conns
        handle := Function.update x.handle r { x.handle r with connected := id } }

/-- `queue_base::pop`. -/
def Shared.pop (x : Shared fl R) (r : R) : Option (Shared fl R) :=
  (fl.policy.pop x.que (x.handle r).connected (x.handle r).cursor).map fun (_, _, q) =>
    { x with
      que := q
      handle := Function.update x.handle r
        { x.handle r with cursor := advance fl (x.handle r).cursor } }

/-- `recv` reconnects where the connection has been lost. -/
def Shared.ready (x : Shared fl R) (r : R) : Shared fl R :=
  if x.connected r then x else x.connect r

/-- The predicate of `recv`, and whether its `pop` succeeded. -/
def Shared.tryPop (x : Shared fl R) (r : R) : Shared fl R × Bool :=
  match (x.ready r).pop r with
  | some x' => (x', true)
  | none => (x.ready r, false)

/-- What `try_push` of a sender does before `rd_waiter_.broadcast()`. -/
inductive Offer where
  | push (msg : MsgT)
  | forcePush (msg : MsgT)

/-- `try_push` goes on to the broadcast if the message is in the queue. -/
def Shared.offer (x : Shared fl R) : Offer → Shared fl R × Bool
  | .push msg =>
    match fl.policy.push x.que x.conns.cc msg with
    | some q => ({ x with que := q }, true)
    | none => (x, false)
  | .forcePush msg =>
    let (q, cc, old) := fl.policy.forcePush x.que x.conns.cc msg
    ({ x with que := q, conns := ⟨cc, flagAfter fl x.conns.flag⟩ }, old.isSome)

/-- `rd_waiter_` between the senders and the receivers. A receiver outside `wait_if`
evaluates the predicate, in the first turns of `wait_for`, or connects. -/
def client (fl : Flag) (R : Type) [DecidableEq R] : Client (Shared fl R) R Offer Unit where
  change := Shared.offer
  own x r _ := x.connect r
  test := Shared.tryPop

/-! ## Who finds nothing goes on finding nothing -/

/-- The queues that the policy reaches. -/
def Reached : (fl : Flag) → fl.policy.Queue → Prop
  | .unicast, _ => True
  | .broadcast rp, q => ∃ w, (Policies.policy rp).Ok q w

section Queue
variable {q q' : fl.policy.Queue} {id id' cc cc' : CC} {cur cur' : U2} {msg y : MsgT} {last : Bool}

theorem reached_init (fl : Flag) : Reached fl fl.policy.init := by
  cases fl with
  | unicast => trivial
  | broadcast rp => exact ⟨0, (Policies.policy rp).init_ok⟩

theorem Reached.push (h : Reached fl q) (hp : fl.policy.push q cc msg = some q') :
    Reached fl q' := by
  cases fl with
  | unicast => trivial
  | broadcast rp =>
    obtain ⟨w, hw⟩ := h
    exact ⟨w + 1, ((Policies.policy rp).push_some hw hp).2.2.1⟩

theorem Reached.pop (h : Reached fl q) (hp : fl.policy.pop q id cur = some (y, last, q')) :
    Reached fl q' := by
  cases fl with
  | unicast => trivial
  | broadcast rp =>
    obtain ⟨w, hw⟩ := h
    exact ⟨w, ((Policies.policy rp).pop_some hw hp).2.1⟩

theorem Reached.force {old : Option MsgT} (h : Reached fl q)
    (hf : fl.policy.forcePush q cc msg = (q', cc', old)) : Reached fl q' := by
  cases fl with
  | unicast => trivial
  | broadcast rp =>
    obtain ⟨w, hw⟩ := h
    cases old with
    | none => exact ⟨w, ((Policies.policy rp).force_none hw hf).2.2.1⟩
    | some y => exact ⟨w + 1, ((Policies.policy rp).force_some hw hf).2.2.2.1⟩

/-- `pop` does not look at the connected id to find a message. -/
theorem pop_none_id (h : fl.policy.pop q id cur = none) : fl.policy.pop q id' cur = none := by
  cases fl with
  | unicast => exact h
  | broadcast rp =>
    cases rp with
    | single => exact Policies.Route.pop_eq_none.mpr (Policies.Route.pop_eq_none.mp h)
    | multi => exact Policies.Channel.pop_eq_none.mpr (Policies.Channel.pop_eq_none.mp h)

/-- A receiver that starts at the cursor of the queue finds no more than before. -/
theorem pop_none_cursor (hq : Reached fl q) (h : fl.policy.pop q id cur = none) :
    fl.policy.pop q id' (fl.policy.cursor q) = none := by
  cases fl with
  | unicast => exact h
  | broadcast rp =>
    obtain ⟨w, hw⟩ := hq
    have he : (Policies.policy rp).pop q id' (BitVec.ofNat 32 w) = none :=
      (Policies.policy rp).pop_empty hw
    rw [← (Policies.policy rp).cursor_eq hw] at he
    exact he

/-- Another receiver's `pop` puts nothing under this cursor. -/
theorem pop_none_pop (hq : Reached fl q) (h : fl.policy.pop q id cur = none)
    (hp : fl.policy.pop q id' cur' = some (y, last, q')) : fl.policy.pop q' id cur = none := by
  cases fl with
  | unicast =>
    have h : Unicast.Queue.pop q = none := h
    have hp : Unicast.Queue.pop q = some (y, last, q') := hp
    rw [h] at hp
    cases hp
  | broadcast rp =>
    cases rp with
    | single =>
      obtain ⟨-, hwt, -⟩ := Policies.Route.pop_eq_some hp
      exact Policies.Route.pop_eq_none.mpr (by rw [hwt]; exact Policies.Route.pop_eq_none.mp h)
    | multi =>
      obtain ⟨w, hw⟩ := hq
      obtain ⟨-, -, -, -, -, -, hfl⟩ := Policies.Channel.pop_eq_some hw hp
      refine Policies.Channel.pop_eq_none.mpr ?_
      rw [hfl]
      split
      · exact Channel.freed_ne_committed _ _
      · exact Policies.Channel.pop_eq_none.mp h

/-- A forced push that gives up puts nothing anywhere. -/
theorem pop_none_force (h : fl.policy.pop q id cur = none)
    (hf : fl.policy.forcePush q cc msg = (q', cc', none)) : fl.policy.pop q' id cur = none := by
  cases fl with
  | unicast => cases hf; exact h
  | broadcast rp =>
    cases rp with
    | single =>
      obtain ⟨-, -, rfl⟩ := Policies.Route.force_eq_none hf
      have h : cur = q.wt := Policies.Route.pop_eq_none.mp h
      exact Policies.Route.pop_eq_none.mpr h
    | multi =>
      obtain ⟨-, -, rfl⟩ := Policies.Channel.force_eq_none hf
      have h : (q.elems (indexOf cur)).fCt ≠ Channel.committed cur :=
        Policies.Channel.pop_eq_none.mp h
      exact Policies.Channel.pop_eq_none.mpr h

end Queue

/-- There is nothing to read under the cursor of `r`. -/
def Shared.Quiet (x : Shared fl R) (r : R) : Prop := x.pop r = none

section Steps
variable {x x' : Shared fl R} {r q : R}

theorem quiet_iff : x.Quiet r ↔
    fl.policy.pop x.que (x.handle r).connected (x.handle r).cursor = none := by
  rw [Shared.Quiet, Shared.pop, Option.map_eq_none_iff]

theorem connect_que (x : Shared fl R) (r : R) : (x.connect r).que = x.que := by
  unfold Shared.connect
  split
  · rfl
  · dsimp only
    split <;> rfl

theorem connect_handle_ne (x : Shared fl R) (h : r ≠ q) :
    (x.connect q).handle r = x.handle r := by
  unfold Shared.connect
  split
  · rfl
  · dsimp only
    split <;> exact Function.update_of_ne h _ _

/-- Reconnecting leaves the cursor or puts it at the end. -/
theorem connect_cursor (x : Shared fl R) (r : R) :
    ((x.connect r).handle r).cursor = (x.handle r).cursor ∨
      ((x.connect r).handle r).cursor = fl.policy.cursor x.que := by
  unfold Shared.connect
  split
  · exact .inl rfl
  · dsimp only
    split
    · exact .inr (by simp only [Function.update_self])
    · exact .inl (by simp only [Function.update_self])

theorem Shared.Quiet.connect_self (hx : Reached fl x.que) (h : x.Quiet r) :
    (x.connect r).Quiet r := by
  rw [quiet_iff, connect_que]
  rw [quiet_iff] at h
  rcases connect_cursor x r with hc | hc
  · rw [hc]; exact pop_none_id h
  · rw [hc]; exact pop_none_cursor hx h

theorem Shared.Quiet.connect_other (h : x.Quiet r) (hne : r ≠ q) : (x.connect q).Quiet r := by
  rw [quiet_iff, connect_que, connect_handle_ne x hne]
  exact quiet_iff.mp h

theorem pop_eq_some (h : x.pop r = some x') : ∃ y last q',
    fl.policy.pop x.que (x.handle r).connected (x.handle r).cursor = some (y, last, q') ∧
      x'.que = q' ∧ ∀ q, q ≠ r → x'.handle q = x.handle q := by
  obtain ⟨⟨y, last, q'⟩, hp, rfl⟩ := Option.map_eq_some_iff.mp h
  exact ⟨y, last, q', hp, rfl, fun q hne => Function.update_of_ne hne _ _⟩

theorem Shared.Quiet.pop_other (hx : Reached fl x.que) (h : x.Quiet r) (hne : r ≠ q)
    (hp : x.pop q = some x') : x'.Quiet r := by
  obtain ⟨y, last, q', hp, hq, hh⟩ := pop_eq_some hp
  rw [quiet_iff, hq, hh r hne]
  exact pop_none_pop hx (quiet_iff.mp h) hp

theorem ready_cases (x : Shared fl R) (r : R) : x.ready r = x ∨ x.ready r = x.connect r := by
  unfold Shared.ready
  split
  · exact .inl rfl
  · exact .inr rfl

theorem tryPop_cases (x : Shared fl R) (r : R) :
    (x.tryPop r = (x.ready r, false) ∧ (x.ready r).Quiet r) ∨
    ∃ x', x.tryPop r = (x', true) ∧ (x.ready r).pop r = some x' := by
  unfold Shared.tryPop
  cases h : (x.ready r).pop r with
  | none => exact .inl ⟨rfl, h⟩
  | some x' => exact .inr ⟨x', rfl, rfl⟩

theorem ready_que (x : Shared fl R) (r : R) : (x.ready r).que = x.que := by
  rcases ready_cases x r with h | h
  · rw [h]
  · rw [h, connect_que]

theorem Shared.Quiet.ready_self (hx : Reached fl x.que) (h : x.Quiet r) : (x.ready r).Quiet r := by
  rcases ready_cases x r with he | he
  · rw [he]; exact h
  · rw [he]; exact h.connect_self hx

theorem Shared.Quiet.ready_other (h : x.Quiet r) (hne : r ≠ q) : (x.ready q).Quiet r := by
  rcases ready_cases x q with he | he
  · rw [he]; exact h
  · rw [he]; exact h.connect_other hne

theorem reached_tryPop (hx : Reached fl x.que) (r : R) : Reached fl (x.tryPop r).1.que := by
  rcases tryPop_cases x r with ⟨he, -⟩ | ⟨x', he, hp⟩
  · rw [he, ready_que]; exact hx
  · obtain ⟨y, last, q', hp, hq, -⟩ := pop_eq_some hp
    rw [he, hq]
    rw [ready_que] at hp
    exact hx.pop hp

theorem Shared.Quiet.tryPop_other (hx : Reached fl x.que) (h : x.Quiet r) (hne : r ≠ q) :
    (x.tryPop q).1.Quiet r := by
  rcases tryPop_cases x q with ⟨he, -⟩ | ⟨x', he, hp⟩
  · rw [he]; exact h.ready_other hne
  · rw [he]
    exact (h.ready_other hne).pop_other (by rw [ready_que]; exact hx) hne hp

theorem Shared.Quiet.tryPop_self (hx : Reached fl x.que) (h : x.Quiet r) :
    (x.tryPop r).2 = false := by
  rcases tryPop_cases x r with ⟨he, -⟩ | ⟨x', -, hp⟩
  · rw [he]
  · have hn : (x.ready r).pop r = none := h.ready_self hx
    rw [hn] at hp
    cases hp

omit [DecidableEq R] in
theorem reached_offer (hx : Reached fl x.que) (o : Offer) : Reached fl (x.offer o).1.que := by
  cases o with
  | push msg =>
    cases hp : fl.policy.push x.que x.conns.cc msg with
    | none => simpa only [Shared.offer, hp] using hx
    | some q => simpa only [Shared.offer, hp] using hx.push hp
  | forcePush msg => exact hx.force rfl

/-- A sender that does not go on to the broadcast has left nothing to read. -/
theorem Shared.Quiet.offer (h : x.Quiet r) {o : Offer} (ho : (x.offer o).2 = false) :
    (x.offer o).1.Quiet r := by
  cases o with
  | push msg =>
    cases hp : fl.policy.push x.que x.conns.cc msg with
    | none => simpa only [Shared.offer, hp] using h
    | some q => simp [Shared.offer, hp] at ho
  | forcePush msg =>
    rcases hf : fl.policy.forcePush x.que x.conns.cc msg with ⟨q, cc, old⟩
    simp only [Shared.offer, hf, Option.isSome_eq_false_iff, Option.isNone_iff_eq_none] at ho ⊢
    rw [ho] at hf
    have h : fl.policy.pop x.que (x.handle r).connected (x.handle r).cursor = none :=
      quiet_iff.mp h
    exact quiet_iff.mpr (pop_none_force h hf)

theorem laws (fl : Flag) (R : Type) [DecidableEq R] :
    Laws (client fl R) (fun x => Reached fl x.que) Shared.Quiet where
  good_change o hx := reached_offer hx o
  good_own r _ hx := by
    change Reached fl (Shared.connect _ r).que
    rw [connect_que]
    exact hx
  good_test r hx := reached_tryPop hx r
  quiet_failed := by
    intro x r hx ht
    rcases tryPop_cases x r with ⟨he, hq⟩ | ⟨x', he, -⟩
    · change (x.tryPop r).1.Quiet r
      rw [he]
      exact hq
    · change (x.tryPop r).2 = false at ht
      rw [he] at ht
      cases ht
  quiet_change o _ h ho := h.offer ho
  quiet_own q _ _ h hne := h.connect_other hne
  quiet_test q hx h hne := h.tryPop_other hx hne
  quiet_fails hx h := h.tryPop_self hx

end Steps

/-! ## No wake-up is lost -/

section Runs
variable {S : Type} [DecidableEq S]

abbrev St (fl : Flag) (S R : Type) := State (Shared fl R) S R

def init (fl : Flag) (S R : Type) : St fl S R := .start (.init fl R)

def step (s : St fl S R) : Act S R Offer Unit → Option (St fl S R) :=
  Lib.Monitor.step (client fl R) s

/-- A receiver asleep in `wait_if` whose `pop` would succeed has a sender between its
push and its broadcast. -/
theorem broadcast_pending {acts : List (Act S R Offer Unit)} {s : St fl S R}
    (h : run step (init fl S R) acts = some s) {r : R} (hr : s.wpc r = .asleep)
    (hp : (s.shared.tryPop r).2 = true) : ∃ p, (s.npc p).Pending :=
  Lib.Monitor.pending_of_asleep (laws fl R) (reached_init fl) h hr hp

/-- A sender pushes between the test of a receiver and its sleep. -/
def missed : List (Act (Fin 1) (Fin 1) Offer Unit) :=
  [.own 0 (), .enter 0, .acquire 0, .test 0, .change 0 (.push .zero), .sleep 0]

theorem broadcast_pending_missed :
    ∃ s, run step (init (.broadcast .multi) (Fin 1) (Fin 1)) missed = some s ∧
      s.wpc 0 = .asleep ∧ (s.shared.tryPop 0).2 = true ∧ ∃ p, (s.npc p).Pending := by
  have hs : ((run step (init (.broadcast .multi) (Fin 1) (Fin 1)) missed).map fun s =>
      (s.wpc 0, (s.shared.tryPop 0).2)) = some (.asleep, true) := by
    decide +kernel
  obtain ⟨s, hr, he⟩ := Option.map_eq_some_iff.mp hs
  obtain ⟨hsleep, hpop⟩ := Prod.mk.inj he
  exact ⟨s, hr, hsleep, hpop, broadcast_pending hr hsleep hpop⟩

end Runs

end CppIpc.Wakeup
