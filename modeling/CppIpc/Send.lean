import CppIpc.ProdCons
import CppIpc.Storage

/-! # `detail_impl::send` and `try_send`

One call, run by one process alone: the checks, the storage path and the fragment
path, with the push, the wait and the forced push behind `try_push`. -/
namespace CppIpc.Send
open CppIpc.Def CppIpc.Message CppIpc.Storage

/-- What `send` uses of its queue: `connections()`, whether the policy is for many
producers, and the two pushes; `forcePush` gives the old content of the slot where
it returns true. -/
structure Out (σ : Type) where
  multi : Bool
  conns : σ → CC
  push : σ → MsgT → Option σ
  forcePush : σ → MsgT → σ × Option MsgT

/-- The shared memory a send works on: the queue, the chunk pools, the message
counter `acc` and the flag of `sender_checker`. -/
structure World (σ : Type) where
  que : σ
  store : Storages
  acc : MsgId
  flag : Bool

/-- The sending handle: `opened` if the queue and its elements are there, `hasAcc` if
`acc()` is, `senderFlag` is `sender_flag_`, and `quit` is `quit_` of `wt_waiter_`. -/
structure Sender where
  ccId : MsgId
  opened : Bool
  hasAcc : Bool
  senderFlag : Bool
  quit : Bool

variable {σ : Type} (Q : Out σ)

/-- `ready_sending`: the flag of the handle, else that of the queue. -/
def readySending (h : Sender) (w : World σ) : Bool × Sender × World σ :=
  if h.senderFlag then (true, h, w)
  else
    let ok := Q.multi || !w.flag
    (ok, { h with senderFlag := ok }, if Q.multi then w else { w with flag := true })

/-- The closure of `send` (`force`) or of `try_send`. A push that is refused is
refused again until the wait ends: with false at the time-out, and with true if
`quit_` is up by then. -/
def tryPush (force : Bool) (tm : Nat) (h : Sender) (w : World σ) (msg : MsgT) : World σ × Bool :=
  match Q.push w.que msg with
  | some q => ({ w with que := q }, true)
  | none =>
    if tm ≠ 0 ∧ h.quit then (w, true)
    else if force then
      match Q.forcePush w.que msg with
      | (q, some old) => ({ w with que := q, store := clearMessage w.store old }, true)
      | (q, none) => ({ w with que := q }, false)
    else (w, false)

/-- The calls of `try_push` up to the first that returns false. -/
def tryPushes (force : Bool) (tm : Nat) (h : Sender) : World σ → List MsgT → World σ × Bool
  | w, [] => (w, true)
  | w, msg :: msgs =>
    match tryPush Q force tm h w msg with
    | (w, true) => tryPushes force tm h w msgs
    | (w, false) => (w, false)

/-- The storage of a large message, with the bytes in it; `none` for a small message,
and where the pool has no free id. -/
def takeStorage (w : World σ) (conns : CC) (data : List Byte) : Option Nat × World σ :=
  if data.length > largeMsgLimit then
    match acquireStorage w.store data.length conns with
    | (some id, st) => (some id, { w with store := writeChunk st id data })
    | (none, st) => (none, { w with store := st })
  else (none, w)

/-- What is pushed for one message: the id of its storage, or its fragments. -/
def messages (ccId msgId : MsgId) (data : List Byte) (sid : Option Nat) : List MsgT :=
  (pushes data (sid.map Int.ofNat)).map (MsgT.make ccId msgId)

/-- `send` (`force`) and `try_send`. -/
def send (force : Bool) (tm : Nat) (h : Sender) (w : World σ) (data : List Byte) :
    World σ × Sender × Bool :=
  if data.length = 0 ∨ h.opened = false then (w, h, false)
  else
    let (ok, h, w) := readySending Q h w
    if ok = false then (w, h, false)
    else
      let conns := Q.conns w.que
      if conns = 0 ∨ h.hasAcc = false then (w, h, false)
      else
        let msgId := w.acc
        let (sid, w) := takeStorage { w with acc := w.acc + 1 } conns data
        let (w, ok) := tryPushes Q force tm h w (messages h.ccId msgId data sid)
        (w, h, ok)

/-- The state in which the pushes of a call start, with the id of its storage. -/
def begun (h : Sender) (w : World σ) (data : List Byte) : Option Nat × World σ :=
  let w := (readySending Q h w).2.2
  takeStorage { w with acc := w.acc + 1 } (Q.conns w.que) data

/-- The queue elements of a call. -/
def elements (h : Sender) (w : World σ) (data : List Byte) : List MsgT :=
  messages h.ccId w.acc data (begun Q h w data).1

/-- No check of `send` turns the call away. -/
def Passes (h : Sender) (w : World σ) (data : List Byte) : Prop :=
  data.length ≠ 0 ∧ h.opened = true ∧ (readySending Q h w).1 = true ∧
    Q.conns w.que ≠ 0 ∧ h.hasAcc = true

section Cases
variable {Q} {h : Sender} {w : World σ} {data : List Byte}

theorem readySending_que (h : Sender) (w : World σ) :
    (readySending Q h w).2.2.que = w.que ∧ (readySending Q h w).2.2.store = w.store ∧
    (readySending Q h w).2.2.acc = w.acc ∧ (readySending Q h w).2.1.ccId = h.ccId ∧
    (readySending Q h w).2.1.hasAcc = h.hasAcc ∧ (readySending Q h w).2.1.quit = h.quit := by
  unfold readySending
  split
  · exact ⟨rfl, rfl, rfl, rfl, rfl, rfl⟩
  · dsimp only
    split <;> exact ⟨rfl, rfl, rfl, rfl, rfl, rfl⟩

theorem begun_que (h : Sender) (w : World σ) (data : List Byte) :
    (begun Q h w data).2.que = w.que := by
  obtain ⟨hq, _⟩ := readySending_que (Q := Q) h w
  unfold begun takeStorage
  dsimp only
  split
  · split <;> exact hq
  · exact hq

/-- A call that is turned away touches neither the queue nor the storage. -/
theorem send_of_not_passes (force : Bool) (tm : Nat) (hp : ¬ Passes Q h w data) :
    (send Q force tm h w data).2.2 = false ∧ (send Q force tm h w data).1.que = w.que ∧
      (send Q force tm h w data).1.store = w.store := by
  obtain ⟨hq, hs, _, _, hacc, _⟩ := readySending_que (Q := Q) h w
  unfold send
  split
  · exact ⟨rfl, rfl, rfl⟩
  · rename_i h0
    dsimp only
    split
    · exact ⟨rfl, hq, hs⟩
    · rename_i hr
      split
      · exact ⟨rfl, hq, hs⟩
      · rename_i hc
        rw [not_or] at h0 hc
        rw [hq, hacc] at hc
        exact absurd ⟨h0.1, by simpa using h0.2, by simpa using hr, hc.1, by simpa using hc.2⟩ hp

/-- A call that passes takes its storage and makes its pushes. -/
theorem send_eq (force : Bool) (tm : Nat) (hp : Passes Q h w data) :
    send Q force tm h w data =
      (let r := tryPushes Q force tm (readySending Q h w).2.1 (begun Q h w data).2
        (elements Q h w data)
       (r.1, (readySending Q h w).2.1, r.2)) := by
  obtain ⟨hq, _, ha, hid, hacc, _⟩ := readySending_que (Q := Q) h w
  obtain ⟨h0, ho, hr, hc, hh⟩ := hp
  unfold send elements begun
  rw [if_neg (by simp [h0, ho])]
  dsimp only
  rw [if_neg (by simp [hr]), if_neg (by rw [hq, hacc]; simpa [hh] using hc), hid, ha]

theorem send_of_passes (force : Bool) (tm : Nat) (hp : Passes Q h w data) :
    ∃ (h' : Sender) (w' : World σ),
    h'.ccId = h.ccId ∧ h'.quit = h.quit ∧ w'.que = w.que ∧ w'.store = w.store ∧
    ((send Q force tm h w data).1, (send Q force tm h w data).2.2) =
      tryPushes Q force tm h' (takeStorage w' (Q.conns w.que) data).2
        (messages h.ccId w.acc data (takeStorage w' (Q.conns w.que) data).1) := by
  obtain ⟨hq, hs, _, hid, _, hquit⟩ := readySending_que (Q := Q) h w
  refine ⟨(readySending Q h w).2.1,
    { (readySending Q h w).2.2 with acc := (readySending Q h w).2.2.acc + 1 }, hid, hquit, hq, hs, ?_⟩
  rw [send_eq force tm hp, ← hq]
  rfl

end Cases

/-! ## Rules for the pushes of one call -/

section Pushes
variable {Q} {force : Bool} {tm : Nat} {h : Sender}

/-- `good` holds of the state before each push of the call. -/
def Along (Q : Out σ) (force : Bool) (tm : Nat) (h : Sender) (good : World σ → MsgT → Prop) :
    World σ → List MsgT → Prop
  | _, [] => True
  | w, msg :: msgs => good w msg ∧
    ((tryPush Q force tm h w msg).2 = true →
      Along Q force tm h good (tryPush Q force tm h w msg).1 msgs)

/-- The push is refused, the wait runs out, and `force_push` is called. -/
def Forces (Q : Out σ) (force : Bool) (tm : Nat) (h : Sender) (w : World σ) (msg : MsgT) : Prop :=
  force = true ∧ Q.push w.que msg = none ∧ ¬ (tm ≠ 0 ∧ h.quit = true)

/-- All that one `try_push` can do. -/
theorem tryPush_cases (Q : Out σ) (force : Bool) (tm : Nat) (h : Sender) (w : World σ)
    (msg : MsgT) :
    (∃ q, Q.push w.que msg = some q ∧ tryPush Q force tm h w msg = ({ w with que := q }, true)) ∨
    (¬ Forces Q force tm h w msg ∧ ∃ ok, tryPush Q force tm h w msg = (w, ok)) ∨
    (∃ q, Forces Q force tm h w msg ∧ Q.forcePush w.que msg = (q, none) ∧
      tryPush Q force tm h w msg = ({ w with que := q }, false)) ∨
    ∃ q old, Forces Q force tm h w msg ∧ Q.forcePush w.que msg = (q, some old) ∧
      tryPush Q force tm h w msg =
        ({ w with que := q, store := clearMessage w.store old }, true) := by
  unfold tryPush
  cases hp : Q.push w.que msg with
  | some q => exact .inl ⟨q, rfl, rfl⟩
  | none =>
    right
    dsimp only
    by_cases hq : tm ≠ 0 ∧ h.quit = true
    · rw [if_pos hq]
      exact .inl ⟨fun hf => hf.2.2 hq, true, rfl⟩
    · rw [if_neg hq]
      cases force with
      | false => exact .inl ⟨fun hf => (nomatch hf.1), false, rfl⟩
      | true =>
        right
        cases hf : Q.forcePush w.que msg with
        | mk q old =>
          cases old with
          | none => exact .inl ⟨q, ⟨rfl, hp, hq⟩, rfl, rfl⟩
          | some old => exact .inr ⟨q, old, ⟨rfl, hp, hq⟩, rfl, rfl⟩

theorem tryPushes_cons (w : World σ) (msg : MsgT) (msgs : List MsgT) :
    tryPushes Q force tm h w (msg :: msgs) =
      if (tryPush Q force tm h w msg).2 = true
      then tryPushes Q force tm h (tryPush Q force tm h w msg).1 msgs
      else ((tryPush Q force tm h w msg).1, false) := by
  rw [tryPushes]
  cases tryPush Q force tm h w msg with
  | mk w' ok => cases ok <;> rfl

theorem tryPushes_singleton {w : World σ} {msg : MsgT} :
    tryPushes Q force tm h w [msg] = tryPush Q force tm h w msg := by
  unfold tryPushes
  cases hp : tryPush Q force tm h w msg with
  | mk w' ok => cases ok <;> rfl

/-- What a push preserves, a call preserves. -/
theorem tryPushes_invariant {P : World σ → Prop} {good : World σ → MsgT → Prop}
    {msgs : List MsgT} {w : World σ}
    (hstep : ∀ w, ∀ msg ∈ msgs, P w → good w msg → P (tryPush Q force tm h w msg).1)
    (h0 : P w) (ha : Along Q force tm h good w msgs) : P (tryPushes Q force tm h w msgs).1 := by
  induction msgs generalizing w with
  | nil => exact h0
  | cons msg msgs ih =>
    have h1 := hstep w msg List.mem_cons_self h0 ha.1
    rw [tryPushes_cons]
    split
    · rename_i hok
      exact ih (fun w m hm => hstep w m (List.mem_cons_of_mem _ hm)) h1 (ha.2 hok)
    · exact h1

/-- What the invariant and the condition give before each push. -/
theorem Along.imp {P : World σ → Prop} {good safe : World σ → MsgT → Prop} {msgs : List MsgT}
    {w : World σ}
    (hstep : ∀ w, ∀ msg ∈ msgs, P w → good w msg → P (tryPush Q force tm h w msg).1 ∧ safe w msg)
    (h0 : P w) (ha : Along Q force tm h good w msgs) : Along Q force tm h safe w msgs := by
  induction msgs generalizing w with
  | nil => trivial
  | cons msg msgs ih =>
    obtain ⟨h1, hs⟩ := hstep w msg List.mem_cons_self h0 ha.1
    exact ⟨hs, fun hok => ih (fun w m hm => hstep w m (List.mem_cons_of_mem _ hm)) h1 (ha.2 hok)⟩

theorem along_true (w : World σ) (msgs : List MsgT) :
    Along Q force tm h (fun _ _ => True) w msgs := by
  induction msgs generalizing w with
  | nil => trivial
  | cons msg msgs ih => exact ⟨trivial, fun _ => ih _⟩

end Pushes

end CppIpc.Send
