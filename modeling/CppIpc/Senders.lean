import CppIpc.Ipc
import CppIpc.Policies

/-! # The sender of a single-producer queue

`ready_sending` and `shut_sending` by any number of handles on one queue. The
permission is kept twice: in the flag of `sender_checker<P, false>`, which is
shared, and in `sender_flag_` of each handle, which `shut_sending` leaves as it is.
The state also keeps the history of each handle: whether its last `ready_sending`
returned true with no `shut_sending` since. -/
namespace CppIpc.Senders
open CppIpc.Message CppIpc.Send
open CppIpc.Lib.Runs (run Meets)

/-- `shut_sending`. -/
def shutSending {σ : Type} (Q : Out σ) (h : Sender) (w : World σ) : World σ :=
  if h.senderFlag ∧ ¬ Q.multi then { w with flag := false } else w

/-- It is what `disconnect` and `reconnect` call. -/
theorem chan_shutSending {B : ProdCons.Broadcast MsgT} (s : Ipc.Chan B) (h : Nat) :
    s.shutSending h = { s with world := shutSending (Ipc.queue B) (s.sender h) s.world } := by
  have hq : (Ipc.queue B).multi = B.multi := rfl
  unfold Ipc.Chan.shutSending shutSending
  rw [hq]
  split <;> rfl

structure Sys (σ : Type) where
  world : World σ
  sender : Nat → Sender
  sending : Nat → Bool

variable {σ : Type}

/-- The flag of the queue is clear and no handle has sent yet. -/
def Sys.start (w : World σ) (snd : Nat → Sender) : Sys σ where
  world := { w with flag := false }
  sender := fun h => { snd h with senderFlag := false }
  sending := fun _ => false

inductive Act where
  | readySending (h : Nat)
  | shutSending (h : Nat)

variable (Q : Out σ)

/-- What `ready_sending` of handle `h` would return. -/
def Sys.admits (s : Sys σ) (h : Nat) : Bool := (readySending Q (s.sender h) s.world).1

def Sys.readySending (s : Sys σ) (h : Nat) : Sys σ :=
  let (ok, snd, w) := Send.readySending Q (s.sender h) s.world
  { world := w
    sender := Function.update s.sender h snd
    sending := Function.update s.sending h ok }

def Sys.shutSending (s : Sys σ) (h : Nat) : Sys σ :=
  { s with
    world := Senders.shutSending Q (s.sender h) s.world
    sending := Function.update s.sending h false }

def step (s : Sys σ) : Act → Option (Sys σ)
  | .readySending h => some (s.readySending Q h)
  | .shutSending h => some (s.shutSending Q h)

/-- The handle was shut but remembers that it was once let in. -/
def Sys.Stale (s : Sys σ) (h : Nat) : Prop := (s.sender h).senderFlag = true ∧ s.sending h = false

/-- A handle that was shut does not ask again, and is not shut again while another
one sends. -/
def Careful (s : Sys σ) : Act → Prop
  | .readySending h => ¬ s.Stale h
  | .shutSending h => s.Stale h → ∀ h', s.sending h' = false

/-- At most one handle sends, and a `shut_sending` made with care leaves those out
that were kept out by another handle. -/
structure Exclusive (s : Sys σ) : Prop where
  one : ∀ h h', s.sending h = true → s.sending h' = true → h = h'
  shut : ∀ h, Careful s (.shutSending h) → ∀ h', h' ≠ h → s.sending h' = true →
    ∀ h'', s.admits Q h'' = false → (s.shutSending Q h).admits Q h'' = false

/-! ## The flag belongs to the sender -/

/-- Whoever sends has been let in and keeps the flag up, alone. -/
structure Inv (s : Sys σ) : Prop where
  own : ∀ h, s.sending h = true → (s.sender h).senderFlag = true
  flag : ∀ h, s.sending h = true → s.world.flag = true
  one : ∀ h h', s.sending h = true → s.sending h' = true → h = h'

variable {Q} {s t : Sys σ} {h : Nat}

theorem start_inv (w : World σ) (snd : Nat → Sender) : Inv (Sys.start w snd) :=
  ⟨fun _ h => (nomatch h), fun _ h => (nomatch h), fun _ _ h => (nomatch h)⟩

theorem readySending_cases (hq : Q.multi = false) (s : Sys σ) (h : Nat) :
    ((s.sender h).senderFlag = true ∧ s.admits Q h = true ∧
      s.readySending Q h = { s with sending := Function.update s.sending h true }) ∨
    ((s.sender h).senderFlag = false ∧ s.admits Q h = (!s.world.flag) ∧ s.readySending Q h =
      { world := { s.world with flag := true }
        sender := Function.update s.sender h { s.sender h with senderFlag := !s.world.flag }
        sending := Function.update s.sending h (!s.world.flag) }) := by
  unfold Sys.admits Sys.readySending Send.readySending
  cases hf : (s.sender h).senderFlag with
  | true => exact .inl ⟨rfl, rfl, by simp⟩
  | false => exact .inr ⟨rfl, by simp [hq], by simp [hq]⟩

theorem Inv.ready (hi : Inv s) (hq : Q.multi = false) (hc : Careful s (.readySending h)) :
    Inv (s.readySending Q h) := by
  obtain ⟨hf, -, ht⟩ | ⟨hf, -, ht⟩ := readySending_cases hq s h
  · -- the handle is the sender already
    have hs : s.sending h = true := by
      cases hs : s.sending h with
      | true => rfl
      | false => exact absurd ⟨hf, hs⟩ hc
    rw [ht, ← hs, Function.update_eq_self]
    exact hi
  · rw [ht]
    have hold : ∀ h', (Function.update s.sending h (!s.world.flag)) h' = true →
        (h' = h ∧ s.world.flag = false) ∨ (h' ≠ h ∧ s.sending h' = true) := by
      intro h' hs
      by_cases he : h' = h
      · subst he
        rw [Function.update_self] at hs
        exact .inl ⟨rfl, by simpa using hs⟩
      · rw [Function.update_of_ne he] at hs
        exact .inr ⟨he, hs⟩
    refine ⟨fun h' hs => ?_, fun _ _ => rfl, fun h₁ h₂ hs₁ hs₂ => ?_⟩
    · obtain ⟨rfl, hd⟩ | ⟨hne, hs⟩ := hold h' hs
      · simp [hd]
      · simpa [hne] using hi.own h' hs
    · obtain ⟨rfl, hd⟩ | ⟨-, hs₁⟩ := hold h₁ hs₁
      · obtain ⟨rfl, -⟩ | ⟨-, hs₂⟩ := hold h₂ hs₂
        · rfl
        · exact absurd (hi.flag h₂ hs₂) (by simp [hd])
      · obtain ⟨-, hd⟩ | ⟨-, hs₂⟩ := hold h₂ hs₂
        · exact absurd (hi.flag h₁ hs₁) (by simp [hd])
        · exact hi.one h₁ h₂ hs₁ hs₂

/-- After `shut_sending` the others that send are those that sent before. -/
theorem sending_of_shut {h' : Nat} (hs : (s.shutSending Q h).sending h' = true) :
    h' ≠ h ∧ s.sending h' = true := by
  by_cases he : h' = h
  · subst he
    simp [Sys.shutSending] at hs
  · exact ⟨he, by simpa [Sys.shutSending, he] using hs⟩

/-- A handle that may be shut while another one sends has never been let in. -/
theorem Inv.shut_flag (hi : Inv s) (hc : Careful s (.shutSending h)) {h' : Nat} (hne : h' ≠ h)
    (hs : s.sending h' = true) : (s.sender h).senderFlag = false := by
  cases hf : (s.sender h).senderFlag with
  | false => rfl
  | true =>
    cases hsend : s.sending h with
    | true => exact absurd (hi.one h' h hs hsend) hne
    | false => rw [hc ⟨hf, hsend⟩ h'] at hs; cases hs

theorem shut_world (hf : (s.sender h).senderFlag = false) :
    (s.shutSending Q h).world = s.world := by
  simp [Sys.shutSending, shutSending, hf]

theorem Inv.shut (hi : Inv s) (hc : Careful s (.shutSending h)) : Inv (s.shutSending Q h) := by
  refine ⟨fun h' hs => ?_, fun h' hs => ?_, fun h₁ h₂ hs₁ hs₂ => ?_⟩
  · exact hi.own h' (sending_of_shut hs).2
  · obtain ⟨hne, hs⟩ := sending_of_shut hs
    rw [shut_world (hi.shut_flag hc hne hs)]
    exact hi.flag h' hs
  · exact hi.one h₁ h₂ (sending_of_shut hs₁).2 (sending_of_shut hs₂).2

theorem step_inv (hq : Q.multi = false) {a : Act} (hi : Inv s) (hc : Careful s a)
    (ht : step Q s a = some t) : Inv t := by
  cases a with
  | readySending h => cases ht; exact hi.ready hq hc
  | shutSending h => cases ht; exact hi.shut hc

theorem Inv.exclusive (hi : Inv s) : Exclusive Q s := by
  refine ⟨hi.one, fun h hc h' hne hs h'' hno => ?_⟩
  unfold Sys.admits at hno ⊢
  rw [shut_world (hi.shut_flag hc hne hs)]
  exact hno

/-- Every order of calls by any number of handles. -/
theorem exclusive_of_run (hq : Q.multi = false) (w : World σ) (snd : Nat → Sender)
    {acts : List Act} {s : Sys σ} (hr : run (step Q) (Sys.start w snd) acts = some s)
    (hc : Meets (step Q) Careful (Sys.start w snd) acts) : Exclusive Q s :=
  Inv.exclusive (Lib.Runs.run_invariant (fun _ _ _ hi hg ht => step_inv hq hi hg ht)
    (start_inv w snd) hr hc)

/-- The queue of `ipc::route`. -/
abbrev routeQueue : Out (Receivers.Sys (Policies.policy (α := MsgT) .single)) :=
  Ipc.queue (Policies.policy .single)

/-- Zero-filled shared memory and handles that have not sent. -/
def fresh : Sys (Receivers.Sys (Policies.policy (α := MsgT) .single)) :=
  .start ⟨.init _, .zero, 0, false⟩ fun _ => ⟨0, true, true, false, false⟩

/-- The first handle hands over to the second, as the tests of the queue do. -/
def handsOver : List Act :=
  [.readySending 0, .readySending 1, .shutSending 0, .shutSending 0, .readySending 1]

theorem exclusive_handsOver : ∃ s, run (step routeQueue) fresh handsOver = some s ∧
    s.sending 0 = false ∧ s.sending 1 = true ∧ Exclusive routeQueue s := by
  have hc : Meets (step routeQueue) Careful fresh handsOver := by
    refine ⟨fun hs => (nomatch hs.1), ?_⟩
    rintro _ ⟨⟩
    refine ⟨fun hs => (nomatch hs.1), ?_⟩
    rintro _ ⟨⟩
    refine ⟨fun hs => (nomatch hs.2), ?_⟩
    rintro _ ⟨⟩
    refine ⟨fun _ h' => ?_, ?_⟩
    · -- nobody sends between the two
      by_cases h0 : h' = 0
      · subst h0; rfl
      · by_cases h1 : h' = 1
        · subst h1; rfl
        · simp [Sys.shutSending, Sys.readySending, fresh, Sys.start, h0, h1]
    rintro _ ⟨⟩
    exact ⟨fun hs => (nomatch hs.1), fun _ _ => trivial⟩
  exact ⟨_, rfl, rfl, rfl, exclusive_of_run rfl _ _ rfl hc⟩

/-- A handle that was shut is let in by its own flag while another one sends, and
shutting it once more clears the flag of the other one. -/
theorem shut_handle_returns :
    (∃ s, run (step routeQueue) fresh
        [.readySending 0, .shutSending 0, .readySending 1, .readySending 0] = some s ∧
      s.sending 0 = true ∧ s.sending 1 = true) ∧
    ∃ s, run (step routeQueue) fresh [.readySending 0, .shutSending 0, .readySending 1] = some s ∧
      s.sending 1 = true ∧ s.admits routeQueue 2 = false ∧
      (s.shutSending routeQueue 0).admits routeQueue 2 = true :=
  ⟨⟨_, rfl, rfl, rfl⟩, _, rfl, rfl, rfl, rfl⟩

end CppIpc.Senders
