import CppIpc.Policies
import CppIpc.Unicast

/-! # `push` under weak compare-exchanges

`compare_exchange_weak` may fail although the values agree. One call of `push`, run
without interference, against a list of outcomes: one for each exchange that it
comes to, false where the exchange fails spuriously. The result is `none` while the
call is still in its loop after the last of them, and else what it returns with the
queue it leaves. -/
namespace CppIpc.WeakExchange
open CppIpc.Def CppIpc.ReadCounter

variable {α : Type}

/-- `prod_cons_impl<single, single, unicast>::push`, which has no exchange. -/
def Unicast.push (q : Unicast.Queue α) (x : α) : List Bool → Option (Bool × Unicast.Queue α) :=
  fun _ => match q.push x with
    | some q => some (true, q)
    | none => some (false, q)

/-- The returns of false at the head of the loop. -/
def Route.refuses (q : Route.Queue α) (cc : CC) : Bool :=
  cc = 0 ∨ Route.blocked cc (q.elems (indexOf q.wt)).rc q.epoch

/-- `prod_cons_impl<single, multi, broadcast>::push`. -/
def Route.push (q : Route.Queue α) (cc : CC) (x : α) :
    List Bool → Option (Bool × Route.Queue α)
  | [] => if refuses q cc then some (false, q) else none
  | false :: outs => if refuses q cc then some (false, q) else Route.push q cc x outs
  | true :: _ =>
    if refuses q cc then some (false, q)
    else
      let σ := indexOf q.wt
      some (true, ((q.setRc σ (q.epoch ||| cc.setWidth 64)).setData σ x).addWt)

/-- The returns of false at the head of the loop. -/
def Channel.refuses (q : Channel.Queue α) (cc : CC) : Bool :=
  let el := q.elems (indexOf q.ct)
  cc = 0 ∨ Channel.blocked cc el.rc q.epoch ∨
    (pend (el.rc &&& Channel.rcMask) = 0 ∧ Channel.occupied q.ct el.fCt)

/-- The queue after the exchange of `rc_`. -/
def Channel.marked (q : Channel.Queue α) (cc : CC) : Channel.Queue α :=
  let σ := indexOf q.ct
  q.setRc σ (Channel.mark q.epoch (q.elems σ).rc cc)

/-- `prod_cons_impl<multi, multi, broadcast>::push`: the exchange of `rc_`, and where
it succeeds that of `epoch_`. -/
def Channel.push (cc : CC) (x : α) :
    Channel.Queue α → List Bool → Option (Bool × Channel.Queue α)
  | q, [] => if refuses q cc then some (false, q) else none
  | q, false :: outs => if refuses q cc then some (false, q) else Channel.push cc x q outs
  | q, [true] => if refuses q cc then some (false, q) else none
  | q, true :: false :: outs =>
    if refuses q cc then some (false, q) else Channel.push cc x (marked q cc) outs
  | q, true :: true :: _ =>
    if refuses q cc then some (false, q)
    else
      let σ := indexOf q.ct
      some (true, (((marked q cc).setCt (q.ct + 1)).setData σ x).setFl σ (Channel.committed q.ct))

/-! ## Without spurious failures -/

theorem Route.queue_push (q : Route.Queue α) (cc : CC) (x : α) : q.push cc x =
    if refuses q cc then none
    else some (((q.setRc (indexOf q.wt) (q.epoch ||| cc.setWidth 64)).setData
      (indexOf q.wt) x).addWt) := by
  simp only [refuses, Route.Queue.push, decide_eq_true_iff]
  by_cases h0 : cc = 0
  · rw [if_pos h0, if_pos (.inl h0)]
  · by_cases hb : Route.blocked cc (q.elems (indexOf q.wt)).rc q.epoch = true
    · rw [if_neg h0, if_pos hb, if_pos (.inr hb)]
    · rw [if_neg h0, if_neg hb, if_neg (not_or.mpr ⟨h0, hb⟩)]

theorem Channel.queue_push (q : Channel.Queue α) (cc : CC) (x : α) : q.push cc x =
    if refuses q cc then none else some (q.place q.epoch cc x) := by
  simp only [refuses, Channel.Queue.push, decide_eq_true_iff]
  by_cases h0 : cc = 0
  · rw [if_pos h0, if_pos (.inl h0)]
  · by_cases hb : Channel.blocked cc (q.elems (indexOf q.ct)).rc q.epoch = true
    · rw [if_neg h0, if_pos hb, if_pos (.inr (.inl hb))]
    · rw [if_neg h0, if_neg hb]
      by_cases hf : pend ((q.elems (indexOf q.ct)).rc &&& Channel.rcMask) = 0 ∧
          Channel.occupied q.ct (q.elems (indexOf q.ct)).fCt = true
      · rw [if_pos hf, if_pos (.inr (.inr hf))]
      · rw [if_neg hf, if_neg (not_or.mpr ⟨h0, not_or.mpr ⟨hb, hf⟩⟩)]

/-- Where no exchange fails, the calls are those that one process makes alone. -/
theorem push_true (q : Route.Queue α) (q' : Channel.Queue α) (cc : CC) (x : α) (outs : List Bool) :
    Route.push q cc x (true :: outs) = some ((q.push cc x).isSome, (q.push cc x).getD q) ∧
    Channel.push cc x q' (true :: true :: outs) =
      some ((q'.push cc x).isSome, (q'.push cc x).getD q') := by
  refine ⟨?_, ?_⟩
  · rw [Route.queue_push, Route.push]
    split <;> rfl
  · rw [Channel.queue_push, Channel.push]
    split <;> rfl

/-! ## The queue after a return of false -/

theorem Unicast.push_false {q q' : Unicast.Queue α} {x : α} {outs : List Bool}
    (h : Unicast.push q x outs = some (false, q')) : q' = q := by
  unfold Unicast.push at h
  cases hp : q.push x with
  | none => rw [hp] at h; cases h; rfl
  | some _ => rw [hp] at h; cases h

theorem Route.push_false {q q' : Route.Queue α} {cc : CC} {x : α} {outs : List Bool}
    (h : Route.push q cc x outs = some (false, q')) : q' = q := by
  induction outs with
  | nil =>
    rw [Route.push] at h
    split at h
    · cases h; rfl
    · cases h
  | cons o outs ih =>
    cases o with
    | false =>
      rw [Route.push] at h
      split at h
      · cases h; rfl
      · exact ih h
    | true =>
      rw [Route.push] at h
      split at h
      · cases h; rfl
      · cases h

/-- The first exchange of `rc_` that succeeds is followed by an exchange of `epoch_`
that does not. -/
def torn : List Bool → Bool
  | false :: outs => torn outs
  | true :: false :: _ => true
  | _ => false

section Channel
variable {q q' : Channel.Queue α} {cc : CC} {x : α} {outs : List Bool}

theorem Channel.push_refused (hq : refuses q cc = true) :
    Channel.push cc x q outs = some (false, q) := by
  match outs with
  | [] => rw [Channel.push, if_pos hq]
  | false :: _ => rw [Channel.push, if_pos hq]
  | [true] => rw [Channel.push, if_pos hq]
  | true :: false :: _ => rw [Channel.push, if_pos hq]
  | true :: true :: _ => rw [Channel.push, if_pos hq]

/-- A queue that takes the push comes to false only over a torn exchange. -/
theorem Channel.not_false_of_not_torn (hq : refuses q cc = false) (ht : torn outs = false) :
    Channel.push cc x q outs ≠ some (false, q') := by
  induction outs with
  | nil => simp [Channel.push, hq]
  | cons o outs ih =>
    cases o with
    | false =>
      rw [Channel.push, hq]
      exact ih ht
    | true =>
      match outs with
      | [] => simp [Channel.push, hq]
      | false :: outs => cases ht
      | true :: outs => simp [Channel.push, hq]

/-- The mark blocks the caller itself. -/
theorem Channel.refuses_marked (he : q.epoch &&& Channel.epMask = 0#64) (h0 : cc ≠ 0) :
    refuses (marked q cc) cc = true := by
  have hb : Channel.blocked cc ((marked q cc).elems (indexOf q.ct)).rc (marked q cc).epoch = true := by
    rw [Policies.Channel.blocked_iff, marked, Channel.setRc_rc, if_pos rfl, Channel.pend_mark,
      BitVec.and_self]
    exact ⟨h0, Channel.tag_mark _ cc he⟩
  rw [refuses, decide_eq_true_iff]
  exact .inr (.inl hb)

theorem Channel.marked_ne (he : q.epoch &&& Channel.epMask = 0#64) : marked q cc ≠ q := by
  intro h
  have hrc := congrArg (fun q => ReadCounter.Channel.count (q.elems (indexOf q.ct)).rc) h
  simp only [marked, Channel.setRc_ct, Channel.setRc_rc, if_true, Channel.count_mark _ cc he] at hrc
  bv_omega

theorem Channel.false_of_torn (he : q.epoch &&& Channel.epMask = 0#64)
    (hq : refuses q cc = false) (ht : torn outs = true) :
    Channel.push cc x q outs = some (false, marked q cc) := by
  have h0 : cc ≠ 0 := by
    intro h0
    rw [refuses, decide_eq_false_iff_not] at hq
    exact hq (.inl h0)
  induction outs with
  | nil => cases ht
  | cons o outs ih =>
    cases o with
    | false =>
      rw [Channel.push, hq]
      exact ih ht
    | true =>
      match outs with
      | [] => cases ht
      | true :: outs => cases ht
      | false :: outs =>
        -- the next turn of the loop meets the mark of this one
        rw [Channel.push, hq]
        exact push_refused (refuses_marked he h0)

end Channel

/-- For every queue, every connection word and every list of outcomes: the unicast and
the route queue are left as they were by a call that returns false, and the channel
queue if and only if it refuses the call at once or no exchange of `epoch_` fails
after the exchange of `rc_`. The epoch is a multiple of `ep_incr`, as `force_push`
leaves it. -/
theorem push_false_same_iff (u : Unicast.Queue α) (r : Route.Queue α) (c : Channel.Queue α)
    (he : c.epoch &&& Channel.epMask = 0) (cc : CC) (x : α) (outs : List Bool) :
    (∀ u', Unicast.push u x outs = some (false, u') → u' = u) ∧
    (∀ r', Route.push r cc x outs = some (false, r') → r' = r) ∧
    ((∀ c', Channel.push cc x c outs = some (false, c') → c' = c) ↔
      c.push cc x = none ∨ torn outs = false) := by
  refine ⟨fun _ => Unicast.push_false, fun _ => Route.push_false, ?_⟩
  rw [Channel.queue_push]
  cases hq : Channel.refuses c cc with
  | true =>
    refine ⟨fun _ => .inl rfl, fun _ c' hc => ?_⟩
    rw [Channel.push_refused hq] at hc
    cases hc
    rfl
  | false =>
    constructor
    · intro hsame
      right
      cases ht : torn outs with
      | false => rfl
      | true => exact absurd (hsame _ (Channel.false_of_torn he hq ht)) (Channel.marked_ne he)
    · rintro (hn | ht) c' hc
      · cases hn
      · exact absurd hc (Channel.not_false_of_not_torn hq ht)

/-- Full queues, with one receiver that has read nothing. -/
def Unicast.full : Unicast.Queue Nat := ⟨fun _ => 0, 0, 255⟩

def Route.full : Route.Queue Nat := ⟨fun _ => ⟨0, 1⟩, 0, 0⟩

def Channel.full : Channel.Queue Nat := ⟨fun _ => ⟨0, 1, 0⟩, 0, 0⟩

/-- The calls are refused before any exchange, and the full queues stay as they are. -/
theorem push_false_same_full :
    Unicast.push Unicast.full 7 [true, false] = some (false, Unicast.full) ∧
    Route.push Route.full 1 7 [true, false] = some (false, Route.full) ∧
    Channel.push 1 7 Channel.full [true, false] = some (false, Channel.full) := by
  have he : Channel.full.epoch &&& Channel.epMask = 0 := by decide +kernel
  obtain ⟨hu, hr, hc⟩ :=
    push_false_same_iff Unicast.full Route.full Channel.full he 1 7 [true, false]
  have hrefused : Channel.full.push 1 7 = none := by
    rw [Channel.queue_push, if_pos (by decide +kernel)]
  have hfalse {β : Type} {r : Option (Bool × β)} (h : r.map (·.1) = some false) :
      ∃ q, r = some (false, q) := by
    obtain ⟨⟨_, q⟩, hr, rfl⟩ := Option.map_eq_some_iff.mp h
    exact ⟨q, hr⟩
  obtain ⟨u', hu'⟩ := hfalse (r := Unicast.push Unicast.full 7 [true, false]) (by decide +kernel)
  obtain ⟨r', hr'⟩ := hfalse (r := Route.push Route.full 1 7 [true, false]) (by decide +kernel)
  obtain ⟨c', hc'⟩ := hfalse (r := Channel.push 1 7 Channel.full [true, false])
    (by decide +kernel)
  refine ⟨?_, ?_, ?_⟩
  · rw [hu', hu u' hu']
  · rw [hr', hr r' hr']
  · rw [hc', hc.mpr (.inl hrefused) c' hc']

/-- One receiver, an empty queue, and an exchange of `epoch_` that fails spuriously: the
call returns false and the slot stays marked, so that the next call is refused too. -/
theorem push_false_marks : ∃ c', Channel.push 1 7 (.init : Channel.Queue Nat) [true, false] =
    some (false, c') ∧ c' ≠ .init ∧ ((.init : Channel.Queue Nat).push 1 7).isSome = true ∧
      c'.push 1 7 = none := by
  have hq : Channel.refuses (.init : Channel.Queue Nat) 1 = false := by decide +kernel
  have he : (.init : Channel.Queue Nat).epoch &&& Channel.epMask = 0 := by decide +kernel
  refine ⟨_, Channel.false_of_torn he hq rfl, Channel.marked_ne he, ?_, ?_⟩
  · rw [Channel.queue_push, hq]
    rfl
  · rw [Channel.queue_push, Channel.refuses_marked he (by decide)]
    rfl

end CppIpc.WeakExchange
