import CppIpc.Condition
import CppIpc.ForcedPush
import CppIpc.Debts

/-! # Waking the senders

`send` waits in `wt_waiter_.wait_if` for its `push` to succeed. `recv` announces a `pop`
there and `disconnect` a receiver that leaves; a receiver that connects and a forced push,
which both change what a `push` finds, are announced to others only. -/
namespace CppIpc.SenderWakeup
open CppIpc.Def CppIpc.ReadCounter CppIpc.ProdCons CppIpc.Policies
open CppIpc.Receivers (Sys connected)
open CppIpc.Condition (Act Calms Careful Cnd Reaches rest step)
open CppIpc.Lib.Monitor (Client)
open CppIpc.Lib.Runs (run Meets)
open CppIpc.Lib.Window (slot)

variable {α : Type} {R : Type}

/-- The queue, and what each sender has for it. -/
structure Shared (B : Broadcast α) (R : Type) where
  sys : Sys B
  msg : R → α

/-- What others do to the queue while senders wait. -/
inductive Change (α : Type) where
  | connect (h : Nat)
  | disconnect (h : Nat)
  | pop (h : Nat)
  | forcePush (x : α)

variable {B : Broadcast α}

def Shared.init (B : Broadcast α) (msg : R → α) : Shared B R := ⟨.init B, msg⟩

/-- The queue after a change, and whether `wt_waiter_.broadcast()` follows. -/
def Shared.change (x : Shared B R) : Change α → Shared B R × Bool
  | .connect h => ({ x with sys := x.sys.connect h }, false)
  | .disconnect h => ({ x with sys := x.sys.disconnect h }, true)
  | .pop h =>
    match x.sys.pop h with
    | some (_, _, s) => ({ x with sys := s }, true)
    | none => (x, false)
  | .forcePush v => ({ x with sys := (x.sys.forcePush v).1 }, false)

/-- The predicate of `send`, and whether its `push` succeeded. -/
def Shared.tryPush (x : Shared B R) (r : R) : Shared B R × Bool :=
  match x.sys.push (x.msg r) with
  | some s => ({ x with sys := s }, true)
  | none => (x, false)

/-- `wt_waiter_` between the senders and everybody else. -/
def client (B : Broadcast α) (R : Type) [DecidableEq R] : Client (Shared B R) R (Change α) α where
  change := Shared.change
  own x r v := { x with msg := Function.update x.msg r v }
  test := Shared.tryPush

/-! ## Whoever finds no room goes on finding none, or somebody reads -/

/-- The queue admits nothing. -/
def Refuses (s : Sys B) : Prop := ∀ v, s.push v = none

/-- A connected receiver whose `pop` is going to succeed. -/
def Unread (s : Sys B) : Prop := ∃ h, s.member h ∧ (s.pop h).isSome

/-- Every bit of the connection word has its receiver. -/
structure Manned (s : Sys B) : Prop where
  inv : Receivers.Inv s
  owned : ∀ b, Conn s.cc b → ∃ h, s.member h ∧ (s.handle h).connected = idOf b

/-- No handle acts under an id that is not its own. -/
def Calm (x : Shared B R) : Change α → Prop
  | .disconnect h | .pop h => connected x.sys.cc (x.sys.handle h).connected = true → x.sys.member h
  | .connect _ | .forcePush _ => True

/-- Nobody connects to a queue without receivers. -/
def Mild (x : Shared B R) : Change α → Prop
  | .connect _ => x.sys.cc ≠ 0
  | .disconnect _ | .pop _ | .forcePush _ => True

/-- A `push` takes no slot of a receiver a whole lap behind. -/
def Apt (x : Shared B R) (_ : R) : Prop := ∀ h, x.sys.member h →
  x.sys.log.length = x.sys.done h + 256 → B.current x.sys.que (slot 8 x.sys.log.length)

section Queue
variable {s t : Sys B} {h : Nat} {v : α}

theorem unread_iff (hi : Receivers.Inv s) :
    Unread s ↔ ∃ h, s.member h ∧ s.done h < s.log.length := by
  refine exists_congr fun h => and_congr_right fun hm => ?_
  have hpop := congrArg Option.isSome (hi.pop_eq hm)
  rw [Option.isSome_map] at hpop
  rw [hpop]
  simp

theorem init_manned (B : Broadcast α) : Manned (Sys.init B) :=
  ⟨Receivers.init_inv B, by simp [Sys.init, Conn]⟩

theorem Manned.connect (hs : Manned s) (h : Nat) : Manned (s.connect h) := by
  refine ⟨hs.inv.connect h, ?_⟩
  rcases s.connect_cases h with ⟨_, he⟩ | ⟨hc, _, he⟩ | ⟨hc, b, cc, _, _, hbits, he⟩
  · rw [he]
    exact hs.owned
  all_goals
    have hne : ∀ h', s.member h' → h' ≠ h := by
      rintro h' hm rfl
      cases hc.symm.trans (hs.inv.connected_of_member hm)
    rw [he]
    intro b' hb'
  · obtain ⟨h', hm, hh⟩ := hs.owned b' hb'
    exact ⟨h', hm, by simpa [Function.update_of_ne (hne h' hm)] using hh⟩
  · rw [Conn, hbits, Bool.or_eq_true, decide_eq_true_iff] at hb'
    rcases hb' with hold | hnew
    · obtain ⟨h', hm, hh⟩ := hs.owned b' hold
      exact ⟨h', by simpa [Sys.member, Function.update_of_ne (hne h' hm)] using hm,
        by simpa [Function.update_of_ne (hne h' hm)] using hh⟩
    · exact ⟨h, by simp [Sys.member], by simp [Fin.ext hnew]⟩

theorem Manned.disconnect (hs : Manned s)
    (hown : connected s.cc (s.handle h).connected = true → s.member h) :
    Manned (s.disconnect h) := by
  refine ⟨hs.inv.disconnect hown, ?_⟩
  unfold Sys.disconnect
  split
  · rename_i hc
    obtain ⟨b, hb, _⟩ := hs.inv.ids h (hown hc)
    intro b' hb'
    simp only [Conn, Receivers.disconnect, hb, Lib.Bits.getLsbD_and_not, getLsbD_idOf,
      Bool.and_eq_true, Bool.not_eq_true', decide_eq_false_iff_not] at hb'
    obtain ⟨h', hm, hh⟩ := hs.owned b' hb'.1
    have hne : h' ≠ h := by
      rintro rfl
      exact hb'.2 (congrArg Fin.val (idOf_inj (hb.symm.trans hh)))
    exact ⟨h', by simpa [Sys.member, Function.update_of_ne hne] using hm,
      by simpa [Function.update_of_ne hne] using hh⟩
  · exact hs.owned

theorem Manned.push (hs : Manned s) (hp : s.push v = some t)
    (hlap : ∀ h, s.member h → s.log.length = s.done h + 256 →
      B.current s.que (slot 8 s.log.length)) : Manned t := by
  refine ⟨hs.inv.push hp hlap, ?_⟩
  obtain ⟨q, _, rfl⟩ := Option.map_eq_some_iff.mp hp
  exact hs.owned

theorem Manned.forcePush (hs : Manned s) (v : α) : Manned (s.forcePush v).1 := by
  refine ⟨hs.inv.forcePush, fun b hb => ?_⟩
  obtain ⟨hsub, hhandle, hmem⟩ := Debts.forcePush_conn hs.inv (t := (s.forcePush v).1) rfl
  obtain ⟨h, hm, hh⟩ := hs.owned b (hsub b hb)
  refine ⟨h, (hmem h).mpr ⟨hm, ?_⟩, by rw [hhandle]; exact hh⟩
  rw [hh, Receivers.connected_idOf]
  exact hb

theorem Manned.pop (hs : Manned s) {last : Bool} (hp : s.pop h = some (v, last, t))
    (hown : connected s.cc (s.handle h).connected = true → s.member h) : Manned t :=
  ⟨hs.inv.pop hp hown, Debts.owned_of_pop hp hs.owned⟩

/-- A queue with receivers has one whose id it is. -/
theorem Manned.exists_member (hs : Manned s) (hcc : s.cc ≠ 0#32) : ∃ h, s.member h := by
  obtain ⟨i, hi⟩ := Lib.Bits.ne_zero_iff.mp hcc
  obtain ⟨h, hm, _⟩ := hs.owned ⟨i, BitVec.lt_of_getLsbD hi⟩ hi
  exact ⟨h, hm⟩

/-- After a push every receiver has something to read. -/
theorem Manned.unread_push (hs : Manned s) (hp : s.push v = some t) (ht : Manned t) :
    Unread t := by
  have hlog := Debts.push_log hp
  obtain ⟨q, hq, rfl⟩ := Option.map_eq_some_iff.mp hp
  obtain ⟨h, hm⟩ := hs.exists_member (B.push_some hs.inv.ok hq).1
  refine (unread_iff ht.inv).mpr ⟨h, hm, ?_⟩
  have hroom : s.done h ≤ s.log.length := (hs.inv.room h hm).1
  rw [hlog, List.length_append]
  exact Nat.lt_succ_of_le hroom

end Queue

/-! ## Both policies -/

section Policies
variable [Inhabited α] {rp : Relat} {s t : Sys (policy rp : Broadcast α)} {h : Nat} {v : α}

/-- A queue that refuses a message refuses any, and with more receivers too. -/
theorem push_none_more {q : (policy rp : Broadcast α).Queue} {cc cc' : CC} {x y : α}
    (h : (policy rp).push q cc x = none) (hcc : cc ≠ 0#32)
    (hsub : ∀ i, cc.getLsbD i = true → cc'.getLsbD i = true) : (policy rp).push q cc' y = none := by
  have hmore : ∀ rem : CC, cc &&& rem ≠ 0#32 → cc' &&& rem ≠ 0#32 := by
    intro rem hr
    obtain ⟨i, hi⟩ := Lib.Bits.ne_zero_iff.mp hr
    rw [BitVec.getLsbD_and, Bool.and_eq_true] at hi
    exact Lib.Bits.ne_zero_iff.mpr ⟨i, by rw [BitVec.getLsbD_and, hsub i hi.1, hi.2]; rfl⟩
  cases rp with
  | single =>
    rcases Policies.Route.push_eq_none.mp h with h0 | hb
    · exact absurd h0 hcc
    · refine Policies.Route.push_eq_none.mpr (.inr ?_)
      rw [Policies.Route.blocked_iff] at hb ⊢
      exact ⟨hmore _ hb.1, hb.2⟩
  | multi =>
    change Channel.Queue.push q cc' y = none
    have h : Channel.Queue.push q cc x = none := h
    have hcc : ¬ cc = 0 := hcc
    simp only [Channel.Queue.push, hcc, if_false] at h ⊢
    split
    · rfl
    · split at h
      · rename_i hb
        have hb' : Channel.blocked cc' (q.elems (indexOf q.ct)).rc q.epoch = true := by
          rw [Policies.Channel.blocked_iff] at hb ⊢
          exact ⟨hmore _ hb.1, hb.2⟩
        rw [if_pos hb']
      · split at h
        · split <;> rfl
        · cases h

/-- A queue without receivers refuses every message. -/
theorem refuses_empty (h : s.cc = 0#32) : Refuses s := by
  intro v
  rw [Sys.push, Option.map_eq_none_iff, h]
  cases rp with
  | single => rfl
  | multi => rfl

theorem push_none_other (h : s.push v = none) (w : α) : s.push w = none := by
  by_cases hcc : s.cc = 0#32
  · exact refuses_empty hcc w
  · rw [Sys.push, Option.map_eq_none_iff] at h ⊢
    exact push_none_more h hcc fun _ => id

/-- Nobody finds room where nobody did, because of a receiver that connects. -/
theorem refuses_connect (hr : Refuses s) (hcc : s.cc ≠ 0#32) : Refuses (s.connect h) := by
  intro v
  have hv := hr v
  rw [Sys.push, Option.map_eq_none_iff] at hv
  rcases s.connect_cases h with ⟨_, he⟩ | ⟨_, _, he⟩ | ⟨_, b, cc, _, _, hbits, he⟩
  · rw [he]
    exact hr v
  · rw [he, Sys.push, Option.map_eq_none_iff]
    exact hv
  · rw [he, Sys.push, Option.map_eq_none_iff]
    exact push_none_more hv hcc fun i hi => by rw [hbits, hi]; rfl

/-- A receiver that connects takes nothing from what the others have to read. -/
theorem unread_connect (hs : Manned s) (hu : Unread s) : Unread (s.connect h) := by
  obtain ⟨h', hm, hp⟩ := hu
  rcases s.connect_cases h with ⟨_, he⟩ | ⟨hc, _, he⟩ | ⟨hc, _, _, _, _, _, he⟩
  · rw [he]
    exact ⟨h', hm, hp⟩
  all_goals
    have hne : h' ≠ h := by
      rintro rfl
      cases hc.symm.trans (hs.inv.connected_of_member hm)
    rw [he]
    refine ⟨h', ?_, ?_⟩
  · exact hm
  · simpa [Sys.pop, Function.update_of_ne hne] using hp
  · simpa [Sys.member, Function.update_of_ne hne] using hm
  · simpa [Sys.pop, Function.update_of_ne hne] using hp

/-- A forced push leaves no receivers, or each of them something to read. -/
theorem forcePush_quiet (hs : Manned s) :
    Refuses (s.forcePush v).1 ∨ Unread (s.forcePush v).1 := by
  have ht := hs.forcePush v
  rcases hf : s.forcePush v with ⟨t, old⟩
  rw [hf] at ht
  have hcases := Receivers.forcePush_cases hf
  cases old with
  | none =>
    exact .inl (refuses_empty ((policy rp).force_none hs.inv.ok hcases.1).2.1)
  | some y =>
    obtain ⟨-, hne, -⟩ := (policy rp).force_some hs.inv.ok hcases.1
    obtain ⟨h, hm⟩ := ht.exists_member hne
    refine .inr ((unread_iff ht.inv).mpr ⟨h, hm, ?_⟩)
    obtain ⟨hms, -, hd, -⟩ := Debts.member_of_forcePush hf hm
    rw [hd, Debts.forcePush_some_log hf, List.length_append]
    exact Nat.lt_succ_of_le (hs.inv.room h hms).1

omit [Inhabited α] in
theorem tryPush_cases {B : Broadcast α} (x : Shared B R) (r : R) :
    (x.sys.push (x.msg r) = none ∧ x.tryPush r = (x, false)) ∨
    ∃ s, x.sys.push (x.msg r) = some s ∧ x.tryPush r = ({ x with sys := s }, true) := by
  unfold Shared.tryPush
  cases x.sys.push (x.msg r) with
  | none => exact .inl ⟨rfl, rfl⟩
  | some s => exact .inr ⟨s, rfl, rfl⟩

omit [Inhabited α] in
theorem pop_cases {B : Broadcast α} (x : Shared B R) (h : Nat) :
    x.change (.pop h) = (x, false) ∨
    ∃ v last s, x.sys.pop h = some (v, last, s) ∧ x.change (.pop h) = ({ x with sys := s }, true) := by
  cases hp : x.sys.pop h with
  | none => exact .inl (by simp [Shared.change, hp])
  | some r =>
    obtain ⟨v, last, s⟩ := r
    exact .inr ⟨v, last, s, rfl, by simp [Shared.change, hp]⟩

omit [Inhabited α] in
theorem Manned.tryPush {B : Broadcast α} {x : Shared B R} (hx : Manned x.sys) {r : R}
    (ha : Apt x r) : Manned (x.tryPush r).1.sys := by
  rcases tryPush_cases x r with ⟨-, he⟩ | ⟨s, hp, he⟩
  · rw [he]
    exact hx
  · rw [he]
    exact hx.push hp ha

omit [Inhabited α] in
theorem Manned.change {B : Broadcast α} {x : Shared B R} (hx : Manned x.sys) {a : Change α}
    (ha : Calm x a) : Manned (x.change a).1.sys := by
  cases a with
  | connect h => exact hx.connect h
  | disconnect h => exact hx.disconnect ha
  | forcePush v => exact hx.forcePush v
  | pop h =>
    rcases pop_cases x h with he | ⟨v, last, s, hp, he⟩
    · rw [he]
      exact hx
    · rw [he]
      exact hx.pop hp ha

theorem quiet_change {x : Shared (policy rp : Broadcast α) R} (hx : Manned x.sys)
    (hq : Refuses x.sys ∨ Unread x.sys) {a : Change α} (ha : Mild x a)
    (hann : (x.change a).2 = false) : Refuses (x.change a).1.sys ∨ Unread (x.change a).1.sys := by
  cases a with
  | connect h => exact hq.imp (fun hr => refuses_connect hr ha) fun hu => unread_connect hx hu
  | disconnect h => cases hann
  | forcePush v => exact forcePush_quiet hx
  | pop h =>
    rcases pop_cases x h with he | ⟨v, last, s, -, he⟩
    · rw [he]
      exact hq
    · rw [he] at hann
      cases hann

theorem calms (rp : Relat) (R : Type) [DecidableEq R] :
    Calms (client (policy rp : Broadcast α) R) (fun x => Manned x.sys)
      (fun x _ => Refuses x.sys ∨ Unread x.sys) Calm Mild Apt where
  good_change _ hx ha := hx.change ha
  good_own _ _ hx := hx
  good_test _ hx ha := hx.tryPush ha
  quiet_failed := by
    intro x r _ ht
    change (x.tryPush r).2 = false at ht
    change Refuses (x.tryPush r).1.sys ∨ Unread (x.tryPush r).1.sys
    rcases tryPush_cases x r with ⟨hp, he⟩ | ⟨s, -, he⟩
    · rw [he]
      exact .inl (push_none_other hp)
    · rw [he] at ht
      cases ht
  quiet_change _ hx hq _ ha hann := quiet_change hx hq ha hann
  quiet_own _ _ _ h _ := h
  quiet_test := by
    intro x r q hx ha hq _
    change Refuses (x.tryPush q).1.sys ∨ Unread (x.tryPush q).1.sys
    rcases tryPush_cases x q with ⟨-, he⟩ | ⟨s, hp, he⟩
    · rw [he]
      exact hq
    · rw [he]
      exact .inr (hx.unread_push hp (hx.push hp ha))

end Policies

/-! ## No sender is left asleep -/

section Runs
variable [Inhabited α] {S O : Type} [DecidableEq S] [DecidableEq R] [DecidableEq O] {rp : Relat}
  {obj : R → O}

abbrev St (rp : Relat) (α S R O : Type) [Inhabited α] :=
  Condition.St (Shared (policy rp : Broadcast α) R) S R O

/-- Every sender starts with some message. -/
def init (rp : Relat) (α S R O : Type) [Inhabited α] : St rp α S R O :=
  .start (.init (policy rp) fun _ => default)

/-- A sender asleep in the kernel whose `push` would succeed, or whose handle has been told
to quit, has somebody on its way who wakes it, or a receiver has still to `pop` and will. No
broadcast fails, fewer than `2 ^ 32` of them pass before the kernel compares, handles act under
their own ids, nobody connects to a queue without receivers while a sender is about to sleep or
asleep, and no push takes the slot of a receiver a lap behind. -/
theorem room_announced {acts : List (Act S R (Change α) α O)} {t : St rp α S R O}
    (h : run (step (client (policy rp) R) obj) (init rp α S R O) acts = some t)
    (hm : Meets (step (client (policy rp) R) obj) (Careful Calm Mild Apt) (init rp α S R O) acts)
    {r : R} {c : Cnd} (hr : t.wpc r = .parked c)
    (hw : t.quit (obj r) = true ∨ (t.shared.tryPush r).2 = true) :
    (∃ s, t.npc s ≠ .idle ∧ ((t.npc s = .changed → t.lock = none) →
      Reaches (client (policy rp) R) obj t s r (rest t s))) ∨
    ∃ h, t.shared.sys.member h ∧ (t.shared.sys.pop h).isSome := by
  have hi := Condition.inv_of_run (calms rp R) (init_manned _) h hm
  rcases hi.pending hr with ⟨hq, hquit⟩ | ⟨s, hs⟩
  · refine .inr (hq.resolve_left fun hrefuse => ?_)
    rcases hw with hw | hw
    · rw [hquit] at hw
      cases hw
    · rw [Shared.tryPush, hrefuse] at hw
      cases hw
  · exact .inl ⟨s, hs, fun hl => Condition.reaches_rest hs hl hr⟩

/-- Two receivers and `n` messages that nobody has popped. -/
def filled (n : Nat) : St .single Nat Bool Unit Unit :=
  { init .single Nat Bool Unit Unit with shared := ⟨ForcedPush.filled n, fun _ => 0⟩ }

theorem step_filled {n : Nat} (hn : n < 256) :
    step (client (policy .single) Unit) (fun _ => ()) (filled n) (.poll ()) =
      some (filled (n + 1)) := by
  have hp : (filled n).shared.sys.push ((filled n).shared.msg ()) =
      some (ForcedPush.filled (n + 1)) := ForcedPush.push_filled hn
  have ht : (filled n).shared.tryPush () = ((filled (n + 1)).shared, true) := by
    rw [Shared.tryPush, hp]
    rfl
  have hout : (filled n).wpc () = .out := rfl
  simp only [step, hout, if_true, client, ht]
  rfl

theorem run_filled {n k : Nat} (hn : k + n ≤ 256) :
    run (step (client (policy .single) Unit) fun _ => ()) (filled k)
      (List.replicate n (.poll ())) = some (filled (k + n)) := by
  induction n generalizing k with
  | zero => rfl
  | succ n ih =>
    rw [List.replicate_succ, Lib.Runs.run_step (step_filled (by omega)), ih (by omega)]
    congr 2
    omega

theorem meets_filled {n k : Nat} (hn : k + n ≤ 256) :
    Meets (step (client (policy .single) Unit) fun _ => ()) (Careful Calm Mild Apt)
      (filled k) (List.replicate n (.poll ())) := by
  induction n generalizing k with
  | zero => trivial
  | succ n ih =>
    refine ⟨fun h _ hlap => ?_, fun t ht => ?_⟩
    · have hlog : (filled k).shared.sys.log.length = k := List.length_replicate
      omega
    · rw [step_filled (by omega)] at ht
      cases ht
      exact ih (by omega)

/-- The queue is full, a sender sleeps, and both receivers pop. -/
def full : List (Act Bool Unit (Change Nat) Nat Unit) :=
  [.enter (), .acquire (), .test (), .eval (), .load (), .release (), .sleep (), .change false (.pop 0),
    .change true (.pop 1)]

/-- What there is to check of the other steps. -/
def Checked (t : St .single Nat Bool Unit Unit) :
    Act Bool Unit (Change Nat) Nat Unit → Prop
  | .change _ (.connect _) => ∀ r, ¬ (t.wpc r).Failed
  | .change _ (.pop h) => t.shared.sys.member h
  | .eval _ => Policies.Route.current t.shared.sys.que (slot 8 t.shared.sys.log.length)
  | .sleep r => t.wakes < t.seen r + 4294967296
  | .enter _ | .acquire _ | .test _ | .load _ | .release _ => True
  | _ => False

instance Wpc.Failed.decidable : (w : Condition.Wpc) → Decidable w.Failed
  | .loading | .unlocking _ | .calling _ | .parked _ => isTrue trivial
  | .out | .entering | .testing | .evaluating | .requeued | .relocking _ | .leaving _ => isFalse id

instance Checked.decidable (t : St .single Nat Bool Unit Unit) :
    (a : Act Bool Unit (Change Nat) Nat Unit) → Decidable (Checked t a)
  | .change _ (.connect _) => inferInstanceAs (Decidable (∀ r, ¬ (t.wpc r).Failed))
  | .change _ (.pop h) => inferInstanceAs (Decidable (t.shared.sys.member h))
  | .eval _ => inferInstanceAs (Decidable (_ &&& _ = _))
  | .sleep r => inferInstanceAs (Decidable (t.wakes < t.seen r + 4294967296))
  | .enter _ | .acquire _ | .test _ | .load _ | .release _ => isTrue trivial
  | .change _ (.disconnect _) | .change _ (.forcePush _) | .quit .. | .reopen _ | .lock _
  | .unlock _ | .add _ | .requeue _ | .again _ | .failed _ | .reload _ | .own .. | .poll _
  | .interrupt _ | .spurious _ | .timeout _ | .refuse _ | .granted _ | .relock _ | .leave _ =>
    isFalse id

theorem Checked.careful {t : St .single Nat Bool Unit Unit}
    {a : Act Bool Unit (Change Nat) Nat Unit} (h : Checked t a) :
    Careful Calm Mild Apt t a := by
  cases a with
  | change s a =>
    cases a with
    | connect n => exact ⟨trivial, .inr h⟩
    | pop n => exact ⟨fun _ => h, .inl trivial⟩
    | disconnect n => exact h.elim
    | forcePush v => exact h.elim
  | eval r => exact fun _ _ _ => h
  | sleep r => exact h
  | poll r => exact h.elim
  | failed s => exact h.elim
  | _ => trivial

theorem careful_of_checked {t : St .single Nat Bool Unit Unit}
    {acts : List (Act Bool Unit (Change Nat) Nat Unit)}
    (h : Meets (step (client (policy .single) Unit) fun _ => ()) Checked t acts) :
    Meets (step (client (policy .single) Unit) fun _ => ()) (Careful Calm Mild Apt) t acts :=
  h.imp (P := fun _ => True) (fun _ _ _ _ _ _ => trivial) (fun _ _ _ h => h.careful) trivial

/-- Both receivers connect, and the sender fills the queue. -/
def filling : List (Act Bool Unit (Change Nat) Nat Unit) :=
  [.change false (.connect 0), .change true (.connect 1)] ++ List.replicate 256 (.poll ())

theorem room_announced_full : ∃ t,
    run (step (client (policy .single) Unit) fun _ => ())
      (init .single Nat Bool Unit Unit) (filling ++ full) = some t ∧
    t.wpc () = .parked 0 ∧ (t.shared.tryPush ()).2 = true ∧
    ((∃ s, t.npc s ≠ .idle ∧ ((t.npc s = .changed → t.lock = none) →
      Reaches (client (policy .single) Unit) (fun _ => ()) t s () (rest t s))) ∨
    ∃ h, t.shared.sys.member h ∧ (t.shared.sys.pop h).isSome) := by
  have hconnect : run (step (client (policy .single) Unit) fun _ => ())
      (init .single Nat Bool Unit Unit) [.change false (.connect 0), .change true (.connect 1)] =
      some (filled 0) := rfl
  have hfill : run (step (client (policy .single) Unit) fun _ => ())
      (init .single Nat Bool Unit Unit) filling = some (filled 256) := by
    rw [filling, Lib.Runs.run_append, hconnect, Option.bind_some, run_filled (Nat.le_refl _)]
  have hs : ((run (step (client (policy .single) Unit) fun _ => ()) (filled 256) full).map
      fun t => (t.wpc (), (t.shared.tryPush ()).2)) = some (.parked 0, true) := by
    decide +kernel
  have hm : Meets (step (client (policy .single) Unit) fun _ => ()) Checked
      (init .single Nat Bool Unit Unit)
      [.change false (.connect 0), .change true (.connect 1)] := by
    decide +kernel
  have hm' : Meets (step (client (policy .single) Unit) fun _ => ()) Checked
      (filled 256) full := by
    decide +kernel
  obtain ⟨t, hr, he⟩ := Option.map_eq_some_iff.mp hs
  obtain ⟨hsleep, hpush⟩ := Prod.mk.inj he
  have hrun : run (step (client (policy .single) Unit) fun _ => ())
      (init .single Nat Bool Unit Unit) (filling ++ full) = some t := by
    rw [Lib.Runs.run_append, hfill, Option.bind_some, hr]
  refine ⟨t, hrun, hsleep, hpush, room_announced hrun ?_ hsleep (.inr hpush)⟩
  refine Meets.append (Meets.append (careful_of_checked hm) fun u hu => ?_) fun u hu => ?_
  · cases hconnect.symm.trans hu
    exact meets_filled (Nat.le_refl _)
  · cases hfill.symm.trans hu
    exact careful_of_checked hm'

/-- A sender sleeps on a queue without receivers, and a receiver connects. -/
def joined : List (Act Unit Unit (Change Nat) Nat Unit) :=
  [.enter (), .acquire (), .test (), .eval (), .load (), .release (), .sleep (), .change () (.connect 0)]

/-- Nobody wakes it, although its `push` would succeed. -/
theorem not_announced_joined : ∃ t,
    run (step (client (policy .single) Unit) fun _ => ())
      (init .single Nat Unit Unit Unit) joined = some t ∧
    t.wpc () = .parked 0 ∧ (t.shared.tryPush ()).2 = true ∧ t.shared.sys.log = [] ∧
      ∀ s, t.npc s = .idle := by
  have hs : ((run (step (client (policy .single) Unit) fun _ => ())
      (init .single Nat Unit Unit Unit) joined).map fun t =>
      (t.wpc (), (t.shared.tryPush ()).2, t.shared.sys.log, t.npc ())) =
      some (.parked 0, true, [], .idle) := by
    decide +kernel
  obtain ⟨t, hr, he⟩ := Option.map_eq_some_iff.mp hs
  simp only [Prod.mk.injEq] at he
  obtain ⟨hsleep, hpush, hlog, hidle⟩ := he
  exact ⟨t, hr, hsleep, hpush, hlog, fun s => Subsingleton.elim () s ▸ hidle⟩

end Runs

end CppIpc.SenderWakeup
