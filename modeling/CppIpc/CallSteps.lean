import CppIpc.Fragments
import CppIpc.Reclaim
import CppIpc.SizeLimits

/-! # Calls of `send` push by push

The channel of `Ipc` with any number of calls of `send` and `try_send` under way at once:
a call takes its checks, its message id and its storage in one step and each `try_push` in
a step of its own, between the steps of all others. For the statements the machine keeps
which call each message of the log is from, and what each handle has been given. -/
namespace CppIpc.CallSteps
open CppIpc.Def CppIpc.Message CppIpc.Storage CppIpc.Send CppIpc.Fragments
open CppIpc.ProdCons CppIpc.Receivers CppIpc.Ipc
open CppIpc.Lib.Runs (run)

variable {B : Broadcast MsgT}

/-- A call that passed its checks: `sid` is the id of its storage, and `rest` is what it
has still to push. -/
structure Call where
  handle : Nat
  force : Bool
  tm : Nat
  sent : Sent
  sid : Option Nat
  rest : List MsgT

/-- The call where `rest` is left to push. -/
def Call.left (c : Call) (rest : List MsgT) : Call := { c with rest := rest }

structure Net (B : Broadcast MsgT) where
  chan : Chan B
  calls : List Call
  /-- For each message of the log, the number of its call. -/
  origin : List Nat
  /-- The contents of the buffers that `recv` returned since the handle connected. -/
  out : Nat → List Bytes

/-- Zero-filled shared memory, and handles with the given `cc_id_`. -/
def Net.init (B : Broadcast MsgT) (ccId : Nat → MsgId) : Net B where
  chan := Chan.init B ccId
  calls := []
  origin := []
  out := fun _ => []

instance Passes.decidable {σ : Type} (Q : Out σ) (h : Sender) (w : World σ) (data : List Byte) :
    Decidable (Passes Q h w data) := inferInstanceAs (Decidable (_ ∧ _ ∧ _ ∧ _ ∧ _))

/-- A call up to its first push. One that does not pass its checks returns false at once. -/
def Net.start (s : Net B) (force : Bool) (tm h : Nat) (data : List Byte) : Net B :=
  let snd := s.chan.sender h
  let w := s.chan.world
  if Passes (queue B) snd w data then
    { s with
      chan := { s.chan with
        world := (begun (queue B) snd w data).2
        sender := Function.update s.chan.sender h (readySending (queue B) snd w).2.1 }
      calls := s.calls ++ [⟨h, force, tm, ⟨snd.ccId, w.acc, data⟩, (begun (queue B) snd w data).1,
        elements (queue B) snd w data⟩] }
  else { s with chan := s.chan.send force tm h data }

/-- The next `try_push` of call `n`; the call is over where it returns false. -/
def Net.push (s : Net B) (n : Nat) : Net B :=
  match s.calls[n]? with
  | none => s
  | some c =>
    match c.rest with
    | [] => s
    | msg :: rest =>
      let (w, ok) := tryPush (queue B) c.force c.tm (s.chan.sender c.handle) s.chan.world msg
      { s with
        chan := { s.chan with world := w }
        calls := s.calls.set n (c.left (if ok then rest else []))
        origin := s.origin ++ List.replicate (w.que.log.length - s.chan.world.que.log.length) n }

/-- The bytes of the buffer that a turn returns, if it returns one that is not empty. -/
def contents (st : Storages) : Turn → Option Bytes
  | .again _ => none
  | .ret .empty _ => none
  | .ret (.cache bytes) _ => some bytes
  | .ret (.storage id size) _ =>
    some ((((st (calcChunkSize size)).data id.toNat).take size).map some)

/-- What a turn of `recv` gives its caller, beside the change of `Chan.recv`. -/
def given (s : Chan B) (t tm h : Nat) : Option Bytes :=
  if s.connected h = false then none
  else
    match s.world.que.pop h with
    | some (msg, _, _) => contents s.world.store (recvMsg (s.ctx h) (s.cache t) msg)
    | none =>
      if tm ≠ 0 ∧ (s.sender h).quit then
        contents s.world.store (recvMsg (s.ctx h) (s.cache t) MsgT.zero)
      else none

def Net.recv (s : Net B) (t tm h : Nat) : Net B :=
  { s with
    chan := s.chan.recv t tm h
    out := Function.update s.out h (s.out h ++ (given s.chan t tm h).toList) }

/-- A handle that connects has been given nothing yet. -/
def Net.reconnect (s : Net B) (t h : Nat) (startToRecv : Bool) : Net B :=
  { s with
    chan := s.chan.reconnect t h startToRecv
    out := if s.chan.connected h then s.out else Function.update s.out h [] }

inductive Act where
  | reconnect (t h : Nat) (startToRecv : Bool)
  | disconnect (t h : Nat)
  | start (force : Bool) (tm h : Nat) (data : List Byte)
  | push (n : Nat)
  | recv (t tm h : Nat)
  | drop (n : Nat)

def step (s : Net B) : Act → Option (Net B)
  | .reconnect t h startToRecv => some (s.reconnect t h startToRecv)
  | .disconnect t h => some { s with chan := s.chan.disconnect t h }
  | .start force tm h data => some (s.start force tm h data)
  | .push n => some (s.push n)
  | .recv t tm h => some (s.recv t tm h)
  | .drop n => some { s with chan := s.chan.drop n }

/-! ## The elements of a call -/

section Elements
variable {c : Call} {id : Nat} {msg : MsgT}

/-- What is pushed for the call. -/
def Call.elems (c : Call) : List MsgT := messages c.sent.ccId c.sent.id c.sent.bytes c.sid

/-- Its chunk. -/
def Call.chunk (c : Call) : Option (Nat × Nat) :=
  c.sid.map fun id => (calcChunkSize c.sent.bytes.length, id)

structure Call.Ok (c : Call) : Prop where
  size : c.sent.bytes.length < 2 ^ 31
  rest : c.rest <:+ c.elems
  large : ∀ id, c.sid = some id → largeMsgLimit < c.sent.bytes.length ∧ id < 2 ^ 31

theorem Call.Ok.elems_large (hc : c.Ok) (hs : c.sid = some id) :
    c.elems = [MsgT.make c.sent.ccId c.sent.id
      ⟨int32 (int32 c.sent.bytes.length - dataLength), .storageId id⟩] := by
  simp only [Call.elems, hs, messages, pushes, Option.map_some, (hc.large id hs).1, if_true,
    List.map_cons, List.map_nil, Int.ofNat_eq_natCast]

theorem Call.Ok.chunk_eq (hc : c.Ok) (hm : msg ∈ c.elems) : chunkOf msg = c.chunk := by
  cases hs : c.sid with
  | none =>
    rw [Call.elems, hs] at hm
    rw [messages_fragment hc.size hm, Call.chunk, hs, Option.map_none]
  | some id =>
    obtain ⟨hl, hid⟩ := hc.large id hs
    obtain ⟨msg', he, -, hch⟩ := messages_chunk c.sent.ccId c.sent.id hl hc.size hid
    rw [Call.elems, hs, he, List.mem_singleton] at hm
    rw [hm, hch, Call.chunk, hs, Option.map_some]

/-- A turn that returns a buffer on a chunk has popped the element of a large message. -/
theorem Call.Ok.size_of (hc : c.Ok) (hm : msg ∈ c.elems) {h : RecvCtx} {rc rc' : RecvCache}
    {sid : Int} {size : Nat} (hr : recvMsg h rc msg = .ret (.storage sid size) rc') :
    sid = sid.toNat ∧ c.sid = some sid.toNat ∧ size = c.sent.bytes.length := by
  obtain ⟨hpos, hch⟩ := recvMsg_storage hr
  cases hs : c.sid with
  | none =>
    rw [hc.chunk_eq hm, Call.chunk, hs, Option.map_none] at hch
    cases hch
  | some id =>
    obtain ⟨hl, hid⟩ := hc.large id hs
    rw [hc.elems_large hs, List.mem_singleton] at hm
    have hcc : ¬ (h.acc = true ∧ c.sent.ccId = h.ccId) := by
      intro hown
      rw [hm, recvMsg, if_pos (by rw [MsgT.make_ccId]; exact hown)] at hr
      cases hr
    rw [hm, SizeLimits.recvMsg_large rc hcc (Nat.zero_lt_of_lt hl) hc.size hid] at hr
    obtain ⟨hb, -⟩ := Turn.ret.inj hr
    obtain ⟨rfl, rfl⟩ := Buff.storage.inj hb
    exact ⟨rfl, rfl, rfl⟩

end Elements

/-! ## A call alone is `Chan.send` -/

section Alone
variable {s t : Net B} {n : Nat} {c : Call}

theorem push_over (hc : s.calls[n]? = some c) (hr : c.rest = []) : s.push n = s := by
  simp only [Net.push, hc, hr]

theorem pushes_over {k : Nat} (hc : s.calls[n]? = some c) (hr : c.rest = []) :
    run step s (List.replicate k (.push n)) = some s := by
  induction k with
  | zero => rfl
  | succ k ih =>
    rw [List.replicate_succ, Lib.Runs.run_step (u := s) (by rw [step, push_over hc hr])]
    exact ih

/-- The pushes of a call that nothing comes between. -/
theorem pushes_alone {msgs : List MsgT} (hc : s.calls[n]? = some c) (hr : c.rest = msgs) :
    ∃ t, run step s (List.replicate msgs.length (.push n)) = some t ∧
      t.chan = { s.chan with world := (tryPushes (queue B) c.force c.tm (s.chan.sender c.handle)
        s.chan.world msgs).1 } := by
  induction msgs generalizing s c with
  | nil => exact ⟨s, rfl, rfl⟩
  | cons msg msgs ih =>
    have hn : n < s.calls.length := (List.getElem?_eq_some_iff.mp hc).1
    rw [List.length_cons, List.replicate_succ, Lib.Runs.run_step (u := s.push n) rfl,
      tryPushes_cons]
    have hchan : (s.push n).chan = { s.chan with world := (tryPush (queue B) c.force c.tm
        (s.chan.sender c.handle) s.chan.world msg).1 } := by
      simp only [Net.push, hc, hr]
    have hcall : (s.push n).calls[n]? = some (c.left
        (if (tryPush (queue B) c.force c.tm (s.chan.sender c.handle) s.chan.world msg).2
          then msgs else [])) := by
      simp only [Net.push, hc, hr, List.getElem?_set_self hn]
    by_cases hok : (tryPush (queue B) c.force c.tm (s.chan.sender c.handle)
        s.chan.world msg).2 = true
    · rw [if_pos hok] at hcall ⊢
      obtain ⟨t, ht, hchan'⟩ := ih hcall rfl
      refine ⟨t, ht, hchan'.trans ?_⟩
      rw [hchan]
      rfl
    · rw [if_neg hok] at hcall ⊢
      exact ⟨_, pushes_over hcall rfl, hchan⟩

/-- What `Chan.send` does is what the steps of a call do that runs alone. -/
theorem send_alone (s : Net B) (force : Bool) (tm h : Nat) (data : List Byte) :
    ∃ k t, run step s (.start force tm h data :: List.replicate k (.push s.calls.length)) =
      some t ∧ t.chan = s.chan.send force tm h data := by
  by_cases hp : Passes (queue B) (s.chan.sender h) s.chan.world data
  · have hstart : step s (.start force tm h data) = some (s.start force tm h data) := rfl
    have hcall : (s.start force tm h data).calls[s.calls.length]? = some ⟨h, force, tm,
        ⟨(s.chan.sender h).ccId, s.chan.world.acc, data⟩,
        (begun (queue B) (s.chan.sender h) s.chan.world data).1,
        elements (queue B) (s.chan.sender h) s.chan.world data⟩ := by
      simp only [Net.start, if_pos hp, List.getElem?_concat_length]
    obtain ⟨t, ht, hchan⟩ := pushes_alone hcall rfl
    refine ⟨_, t, (Lib.Runs.run_step hstart).trans ht, hchan.trans ?_⟩
    rw [Chan.send, send_eq force tm hp]
    simp only [Net.start, if_pos hp, Function.update_self]
  · refine ⟨0, _, Lib.Runs.run_step rfl, ?_⟩
    simp only [Net.start, if_neg hp]

end Alone

end CppIpc.CallSteps
