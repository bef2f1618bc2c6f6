import CppIpc.Fragments
import CppIpc.Lib.Runs
import CppIpc.Receivers
import CppIpc.Send

/-! # A channel in use

`ipc.cpp` for one broadcast channel: its handles connect and disconnect, send, receive
and drop the buffers of large messages, each call run by one process alone. `recv` is
one turn of its loop, so a call is a row of turns of one handle. The shared memory is
there and `recycle_t` is always allocated. -/
namespace CppIpc.Ipc
open CppIpc.Def CppIpc.Message CppIpc.Storage CppIpc.Send CppIpc.ProdCons CppIpc.Receivers

/-- What `send` uses of the queue. -/
def queue (B : Broadcast MsgT) : Out (Sys B) where
  multi := B.multi
  conns := (·.cc)
  push := Sys.push
  forcePush := Sys.forcePush

/-- A buffer on a chunk: `recycle_t` and the size that its deleter gets; `index` is
the number of the message it came from. -/
structure Held where
  index : Nat
  storageId : Int
  size : Nat
  currConns : CC
  connId : CC
deriving DecidableEq

/-- The handles are numbered, with `quit_` of all their waiters in `sender`; the
receive caches are those of the threads. -/
structure Chan (B : Broadcast MsgT) where
  world : World (Sys B)
  sender : Nat → Sender
  cache : Nat → RecvCache
  held : List Held

variable {B : Broadcast MsgT}

/-- Zero-filled shared memory, and handles with the given `cc_id_`. -/
def Chan.init (B : Broadcast MsgT) (ccId : Nat → MsgId) : Chan B where
  world := ⟨Sys.init B, .zero, 0, false⟩
  sender := fun h => ⟨ccId h, true, true, false, false⟩
  cache := fun _ => []
  held := []

/-- `que->connected()`. -/
def Chan.connected (s : Chan B) (h : Nat) : Bool :=
  Receivers.connected s.world.que.cc (s.world.que.handle h).connected

def Chan.setQue (s : Chan B) (q : Sys B) : Chan B := { s with world := { s.world with que := q } }

/-- `shut_sending`; the handle keeps its own flag. -/
def Chan.shutSending (s : Chan B) (h : Nat) : Chan B :=
  if (s.sender h).senderFlag ∧ ¬ B.multi then
    { s with world := { s.world with flag := false } }
  else s

/-- `disconnect_receiver`, called by thread `t`. -/
def Chan.disconnectReceiver (s : Chan B) (t h : Nat) : Chan B :=
  { s.setQue (s.world.que.disconnect h) with
    sender := Function.update s.sender h { s.sender h with quit := true }
    cache := if s.connected h then Function.update s.cache t [] else s.cache }

def Chan.disconnect (s : Chan B) (t h : Nat) : Chan B :=
  (s.shutSending h).disconnectReceiver t h

def Chan.readySending (s : Chan B) (h : Nat) : Chan B :=
  let (_, snd, w) := Send.readySending (queue B) (s.sender h) s.world
  { s with world := w, sender := Function.update s.sender h snd }

/-- `reconnect`, as `connect` calls it for a handle that is there. -/
def Chan.reconnect (s : Chan B) (t h : Nat) (startToRecv : Bool) : Chan B :=
  if startToRecv then
    let s := s.shutSending h
    s.setQue (s.world.que.connect h)
  else (if s.connected h then s.disconnectReceiver t h else s).readySending h

def Chan.send (s : Chan B) (force : Bool) (tm h : Nat) (data : List Byte) : Chan B :=
  let (w, snd, _) := Send.send (queue B) force tm (s.sender h) s.world data
  { s with world := w, sender := Function.update s.sender h snd }

/-- The handle as `recv` sees it. -/
def Chan.ctx (s : Chan B) (h : Nat) : RecvCtx := ⟨(s.sender h).hasAcc, (s.sender h).ccId⟩

/-- What a turn of `recv` does with message number `index`. -/
def Chan.receive (s : Chan B) (t h index : Nat) (msg : MsgT) : Chan B :=
  match recvMsg (s.ctx h) (s.cache t) msg with
  | .again rc => { s with cache := Function.update s.cache t rc }
  | .ret (.storage id size) rc =>
    { s with
      cache := Function.update s.cache t rc
      held := s.held ++
        [⟨index, id, size, s.world.que.cc, (s.world.que.handle h).connected⟩] }
  | .ret _ rc => { s with cache := Function.update s.cache t rc }

/-- One turn of `recv`. A wait that ends with true although nothing was popped leaves
`msg` zero. -/
def Chan.recv (s : Chan B) (t tm h : Nat) : Chan B :=
  if s.connected h = false then s
  else
    match s.world.que.pop h with
    | some (msg, _, q) => (s.setQue q).receive t h (s.world.que.done h) msg
    | none =>
      if tm ≠ 0 ∧ (s.sender h).quit then s.receive t h (s.world.que.done h) MsgT.zero else s

/-- The deleter of buffer `n`. -/
def Chan.drop (s : Chan B) (n : Nat) : Chan B :=
  match s.held[n]? with
  | none => s
  | some k =>
    { s with
      world := { s.world with
        store := recycleStorage s.world.store k.storageId k.size k.currConns k.connId }
      held := s.held.eraseIdx n }

inductive Act where
  | reconnect (t h : Nat) (startToRecv : Bool)
  | disconnect (t h : Nat)
  | send (force : Bool) (tm h : Nat) (data : List Byte)
  | recv (t tm h : Nat)
  | drop (n : Nat)

def step (s : Chan B) : Act → Option (Chan B)
  | .reconnect t h startToRecv => some (s.reconnect t h startToRecv)
  | .disconnect t h => some (s.disconnect t h)
  | .send force tm h data => some (s.send force tm h data)
  | .recv t tm h => some (s.recv t tm h)
  | .drop n => some (s.drop n)

/-- `good` holds before each push of a call of `send`. -/
def Chan.EachPush (s : Chan B) (force : Bool) (tm h : Nat) (data : List Byte)
    (good : World (Sys B) → MsgT → Prop) : Prop :=
  Passes (queue B) (s.sender h) s.world data →
    Along (queue B) force tm (Send.readySending (queue B) (s.sender h) s.world).2.1 good
      (begun (queue B) (s.sender h) s.world data).2 (elements (queue B) (s.sender h) s.world data)

/-- No call of `send` comes to a `force_push`. -/
def Unforced (s : Chan B) : Act → Prop
  | .send force tm h data => s.EachPush force tm h data fun w msg =>
    ¬ Forces (queue B) force tm (Send.readySending (queue B) (s.sender h) s.world).2.1 w msg
  | _ => True

/-- `try_send` does not. -/
theorem unforced_try (s : Chan B) (tm h : Nat) (data : List Byte) :
    Unforced s (.send false tm h data) := fun _ =>
  Along.imp (P := fun _ => True) (fun _ _ _ _ _ => ⟨trivial, fun hf => by cases hf.1⟩) trivial
    (along_true _ _)

/-! ## The chunk of a message -/

/-- The chunk that a queue element refers to, as `recv` and `clear_message` find it. -/
def chunkOf (msg : MsgT) : Option (Nat × Nat) :=
  if msg.storage = true ∧ 0 < int32 (dataLength + msg.remain) ∧ 0 ≤ loadId msg.data then
    some (calcChunkSize (int32 (dataLength + msg.remain)).toNat, (loadId msg.data).toNat)
  else none

/-- `recv` passes over a message with the `cc_id_` of its own handle. -/
def Skips (h : RecvCtx) (msg : MsgT) : Prop := h.acc = true ∧ msg.ccId = h.ccId

section Chunk
variable {msg : MsgT} {h : RecvCtx} {rc rc' : RecvCache}

theorem recvMsg_storage {id : Int} {size : Nat}
    (hr : recvMsg h rc msg = .ret (.storage id size) rc') :
    0 ≤ id ∧ chunkOf msg = some (calcChunkSize size, id.toNat) := by
  have hd := recvMsg_outcome h rc msg
  generalize recvMsg h rc msg = r at hd hr
  cases hd with
  | large hst hsize hid =>
    obtain ⟨hb, -⟩ := Turn.ret.inj hr
    obtain ⟨rfl, rfl⟩ := Buff.storage.inj hb
    exact ⟨hid, if_pos ⟨hst, hsize, hid⟩⟩
  | own | wrong | negative | whole | opened | last | more => cases hr

theorem recvMsg_chunk (rc : RecvCache) {c : Nat × Nat} (hc : chunkOf msg = some c)
    (hs : ¬ Skips h msg) :
    ∃ id size, recvMsg h rc msg = .ret (.storage id size) rc := by
  unfold chunkOf at hc
  split at hc
  · rename_i hst
    have hid : ¬ loadId msg.data < 0 := by omega
    have hpos : ¬ int32 (dataLength + msg.remain) ≤ 0 := by omega
    refine ⟨loadId msg.data, (int32 (dataLength + msg.remain)).toNat, ?_⟩
    unfold recvMsg
    rw [if_neg (show ¬ (h.acc = true ∧ msg.ccId = h.ccId) from hs)]
    dsimp only
    rw [if_neg hpos, if_pos hst.1, if_neg hid]
  · cases hc

/-- `clear_message` releases the chunk, if there is one. -/
theorem clearMessage_eq (st : Storages) (msg : MsgT) :
    (chunkOf msg = none ∧ clearMessage st msg = st) ∨ ∃ size id : Nat,
      chunkOf msg = some (calcChunkSize size, id) ∧
      clearMessage st msg = releaseStorage st id size := by
  unfold clearMessage chunkOf
  by_cases hst : msg.storage = true
  · by_cases hpos : 0 < int32 (dataLength + msg.remain)
    · rw [if_pos hst, if_neg (Int.not_le.mpr hpos)]
      by_cases hid : 0 ≤ loadId msg.data
      · right
        refine ⟨(int32 (dataLength + msg.remain)).toNat, (loadId msg.data).toNat, ?_, ?_⟩
        · rw [if_pos ⟨hst, hpos, hid⟩]
        · rw [Int.toNat_of_nonneg hid]
      · left
        refine ⟨if_neg fun h => hid h.2.2, ?_⟩
        unfold releaseStorage
        rw [if_pos (Int.not_le.mp hid)]
    · left
      rw [if_pos hst, if_pos (Int.not_lt.mp hpos)]
      exact ⟨if_neg fun h => hpos h.2.1, rfl⟩
  · left
    rw [if_neg hst]
    exact ⟨if_neg fun h => hst h.1, rfl⟩

/-- The element of a large message refers to the chunk that was acquired for it. -/
theorem messages_chunk {data : List Byte} {id : Nat} (ccId msgId : MsgId)
    (hl : largeMsgLimit < data.length) (hu : data.length < 2 ^ 31) (hid : id < 2 ^ 31) :
    ∃ msg, messages ccId msgId data (some id) = [msg] ∧ msg.ccId = ccId ∧
      chunkOf msg = some (calcChunkSize data.length, id) := by
  have hsize : int32 data.length = data.length := int32_of_range (by omega) (by omega)
  have hrem : int32 (int32 data.length - dataLength) = data.length - 64 := by
    rw [hsize, int32_of_range] <;> simp only [dataLength] <;> omega
  have hback : int32 (dataLength + (data.length - 64)) = data.length := by
    rw [int32_of_range] <;> simp only [dataLength] <;> omega
  have hload : loadId (fillData (idBytes id)) = id := loadId_idBytes (by omega) (by omega)
  refine ⟨MsgT.make ccId msgId
    ⟨int32 (int32 data.length - dataLength), .storageId (Int.ofNat id)⟩, ?_, rfl, ?_⟩
  · simp only [messages, pushes, Option.map_some, hl, if_true, List.map_cons,
      List.map_nil]
  simp only [MsgT.make, chunkOf, hrem, hback, Int.ofNat_eq_natCast]
  rw [hload, if_pos ⟨trivial, by omega, by omega⟩]
  simp

/-- A fragment refers to no chunk. -/
theorem messages_fragment {data : List Byte} {ccId msgId : MsgId} (hu : data.length < 2 ^ 31)
    (hm : msg ∈ messages ccId msgId data none) : chunkOf msg = none := by
  have he : messages ccId msgId data none = (Fragments.Sent.mk ccId msgId data).elems := rfl
  rw [he, Fragments.Sent.elems_eq hu] at hm
  obtain ⟨j, hj, rfl⟩ := List.mem_map.mp hm
  rw [chunkOf, if_neg]
  intro hst
  rw [Fragments.Sent.elemAt_storage (List.mem_range.mp hj)] at hst
  cases hst.1

theorem chunkOf_zero : chunkOf MsgT.zero = none := rfl

end Chunk

/-! ## What the calls change -/

section Frames
variable (s : Chan B) (t tm h : Nat)

theorem shutSending_frame : (s.shutSending h).world.que = s.world.que ∧
    (s.shutSending h).world.store = s.world.store ∧ (s.shutSending h).held = s.held ∧
    (s.shutSending h).sender = s.sender := by
  unfold Chan.shutSending
  split <;> exact ⟨rfl, rfl, rfl, rfl⟩

theorem disconnect_frame : (s.disconnect t h).world.que = s.world.que.disconnect h ∧
    (s.disconnect t h).world.store = s.world.store ∧ (s.disconnect t h).held = s.held := by
  obtain ⟨hq, hs, hh, _⟩ := shutSending_frame s h
  refine ⟨?_, hs, hh⟩
  change (s.shutSending h).world.que.disconnect h = _
  rw [hq]

theorem readySending_frame : (s.readySending h).world.que = s.world.que ∧
    (s.readySending h).world.store = s.world.store ∧ (s.readySending h).held = s.held := by
  obtain ⟨hq, hs, _⟩ := readySending_que (Q := queue B) (s.sender h) s.world
  exact ⟨hq, hs, rfl⟩

theorem reconnect_frame (startToRecv : Bool) :
    (s.reconnect t h startToRecv).world.store = s.world.store ∧
    (s.reconnect t h startToRecv).held = s.held ∧
    ((startToRecv = true ∧ (s.reconnect t h startToRecv).sender = s.sender ∧
        (s.reconnect t h startToRecv).world.que = s.world.que.connect h) ∨
      (startToRecv = false ∧ ((s.reconnect t h startToRecv).world.que = s.world.que ∨
        (s.reconnect t h startToRecv).world.que = s.world.que.disconnect h))) := by
  unfold Chan.reconnect
  cases startToRecv with
  | true =>
    obtain ⟨hq, hs, hh, hsnd⟩ := shutSending_frame s h
    refine ⟨hs, hh, .inl ⟨rfl, hsnd, ?_⟩⟩
    change (s.shutSending h).world.que.connect h = _
    rw [hq]
  | false =>
    simp only [Bool.false_eq_true, if_false, false_and, false_or, true_and]
    split
    · obtain ⟨hq, hs, hh⟩ := readySending_frame (s.disconnectReceiver t h) h
      exact ⟨hs, hh, .inr hq⟩
    · obtain ⟨hq, hs, hh⟩ := readySending_frame s h
      exact ⟨hs, hh, .inl hq⟩

theorem disconnectReceiver_ctx (h' : Nat) : (s.disconnectReceiver t h).ctx h' = s.ctx h' := by
  by_cases hne : h' = h
  · subst hne
    simp [Chan.ctx, Chan.disconnectReceiver]
  · simp [Chan.ctx, Chan.disconnectReceiver, Function.update_of_ne hne]

theorem readySending_ctx (h' : Nat) : (s.readySending h).ctx h' = s.ctx h' := by
  obtain ⟨_, _, _, hid, hacc, _⟩ := readySending_que (Q := queue B) (s.sender h) s.world
  by_cases hne : h' = h
  · subst hne
    simp [Chan.ctx, Chan.readySending, hid, hacc]
  · simp [Chan.ctx, Chan.readySending, Function.update_of_ne hne]

theorem disconnect_ctx : (s.disconnect t h).ctx = s.ctx := by
  funext h'
  rw [Chan.disconnect, disconnectReceiver_ctx, Chan.ctx, (shutSending_frame s h).2.2.2]
  rfl

theorem reconnect_ctx (startToRecv : Bool) : (s.reconnect t h startToRecv).ctx = s.ctx := by
  funext h'
  unfold Chan.reconnect
  split
  · rw [Chan.ctx, Chan.setQue, (shutSending_frame s h).2.2.2]
    rfl
  · rw [readySending_ctx]
    split
    · exact disconnectReceiver_ctx s t h h'
    · rfl

/-- The handles keep what `recv` reads of them. -/
theorem send_ctx (force : Bool) (data : List Byte) (h' : Nat) :
    (s.send force tm h data).ctx h' = s.ctx h' := by
  have hsnd : (Send.send (queue B) force tm (s.sender h) s.world data).2.1.hasAcc =
      (s.sender h).hasAcc ∧ (Send.send (queue B) force tm (s.sender h) s.world data).2.1.ccId =
      (s.sender h).ccId := by
    obtain ⟨_, _, _, hid, hacc, _⟩ := readySending_que (Q := queue B) (s.sender h) s.world
    unfold Send.send
    dsimp only
    split
    · exact ⟨rfl, rfl⟩
    · split
      · exact ⟨hacc, hid⟩
      · split <;> exact ⟨hacc, hid⟩
  by_cases hne : h' = h
  · subst hne
    simp [Chan.ctx, Chan.send, hsnd]
  · simp [Chan.ctx, Chan.send, Function.update_of_ne hne]

variable (index : Nat) (msg : MsgT)

theorem receive_frame : (s.receive t h index msg).world = s.world ∧
    (s.receive t h index msg).sender = s.sender ∧
    (((s.receive t h index msg).held = s.held ∧ (chunkOf msg ≠ none → Skips (s.ctx h) msg)) ∨
      ∃ id size, 0 ≤ id ∧ chunkOf msg = some (calcChunkSize size, id.toNat) ∧
        (s.receive t h index msg).held = s.held ++
          [⟨index, id, size, s.world.que.cc, (s.world.que.handle h).connected⟩]) := by
  have hskip : ∀ {b rc}, recvMsg (s.ctx h) (s.cache t) msg = .ret b rc ∨
      recvMsg (s.ctx h) (s.cache t) msg = .again rc → (∀ id size, b ≠ .storage id size) →
      chunkOf msg ≠ none → Skips (s.ctx h) msg := by
    intro b rc hr hb hc
    by_contra hns
    obtain ⟨c, hc⟩ := Option.ne_none_iff_exists'.mp hc
    obtain ⟨id, size, hr'⟩ := recvMsg_chunk (s.cache t) hc hns
    rw [hr'] at hr
    rcases hr with hr | hr
    · exact hb id size (Turn.ret.inj hr).1.symm
    · cases hr
  unfold Chan.receive
  cases hr : recvMsg (s.ctx h) (s.cache t) msg with
  | again rc => exact ⟨rfl, rfl, .inl ⟨rfl, hskip (b := .empty) (.inr hr) nofun⟩⟩
  | ret b rc =>
    cases b with
    | empty => exact ⟨rfl, rfl, .inl ⟨rfl, hskip (.inl hr) nofun⟩⟩
    | cache bytes => exact ⟨rfl, rfl, .inl ⟨rfl, hskip (.inl hr) nofun⟩⟩
    | storage id size =>
      obtain ⟨hid, hc⟩ := recvMsg_storage hr
      exact ⟨rfl, rfl, .inr ⟨id, size, hid, hc, rfl⟩⟩

/-- A turn of `recv` that finds no message changes neither queue nor buffers. -/
theorem recv_frame : (s.recv t tm h).world.store = s.world.store ∧
    (s.recv t tm h).sender = s.sender ∧
    (((s.recv t tm h).world.que = s.world.que ∧ (s.recv t tm h).held = s.held) ∨
      (s.connected h = true ∧ ∃ msg last q, s.world.que.pop h = some (msg, last, q) ∧
        (s.recv t tm h).world.que = q ∧
        (((s.recv t tm h).held = s.held ∧ (chunkOf msg ≠ none → Skips (s.ctx h) msg)) ∨
          ∃ id size, 0 ≤ id ∧ chunkOf msg = some (calcChunkSize size, id.toNat) ∧
            (s.recv t tm h).held = s.held ++
              [⟨s.world.que.done h, id, size, q.cc, (q.handle h).connected⟩]))) := by
  unfold Chan.recv
  split
  · exact ⟨rfl, rfl, .inl ⟨rfl, rfl⟩⟩
  · rename_i hc
    cases hp : s.world.que.pop h with
    | some r =>
      obtain ⟨msg, last, q⟩ := r
      obtain ⟨hw, hsnd, hcases⟩ := receive_frame (s.setQue q) t h (s.world.que.done h) msg
      exact ⟨congrArg (·.store) hw, hsnd, .inr ⟨by simpa using hc, msg, last, q, rfl,
        congrArg (·.que) hw, hcases⟩⟩
    | none =>
      dsimp only
      split
      · obtain ⟨hw, hsnd, hcases⟩ := receive_frame s t h (s.world.que.done h) MsgT.zero
        refine ⟨congrArg (·.store) hw, hsnd, .inl ⟨congrArg (·.que) hw, ?_⟩⟩
        rcases hcases with ⟨hh, _⟩ | ⟨_, _, _, hc, _⟩
        · exact hh
        · rw [chunkOf_zero] at hc
          cases hc
      · exact ⟨rfl, rfl, .inl ⟨rfl, rfl⟩⟩

end Frames

end CppIpc.Ipc
