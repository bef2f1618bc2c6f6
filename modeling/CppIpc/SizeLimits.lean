import CppIpc.FailedSend
import CppIpc.Fragments

/-! # `send` at the limits of its 32-bit sizes

The size of a message reaches the receiver as a signed 32-bit remainder. Here are
the elements that a call has in the queue when it returns true, and the buffers a
receiver makes of them, for messages of any size. -/
namespace CppIpc.SizeLimits
open CppIpc.Def CppIpc.Message CppIpc.Fragments CppIpc.IdPool CppIpc.Storage CppIpc.Send
open CppIpc.ProdCons CppIpc.FailedSend

/-! ## The buffers a receiver obtains -/

/-- `buff_t::size`. -/
def buffSize : Buff → Nat
  | .empty => 0
  | .cache bytes => bytes.length
  | .storage _ size => size

/-- The buffers that calls of `recv` return while these elements are popped. -/
def obtained (r : RecvCtx) : RecvCache → List MsgT → List Buff
  | _, [] => []
  | rc, msg :: msgs =>
    (recvMsg r rc msg).buff.toList ++ obtained r (recvMsg r rc msg).cache msgs

/-- They are one buffer, of `size` bytes. -/
def Honest (r : RecvCtx) (rc : RecvCache) (msgs : List MsgT) (size : Nat) : Prop :=
  ∃ b, obtained r rc msgs = [b] ∧ buffSize b = size

theorem int32_lt (x : Int) : int32 x < 2 ^ 31 := Int.bmod_lt (by decide)

theorem makeCache_length_le (data : List Byte) (size : Nat) :
    (makeCache data size).length ≤ size := by
  simp only [makeCache, List.length_append, List.length_map, List.length_take,
    List.length_replicate]
  omega

theorem append_length_le (c : CacheT) (data : List Byte) (size : Nat) :
    (c.append data size).buff.length ≤ c.buff.length := by
  unfold CacheT.append
  split
  · exact Nat.le_refl _
  · simp only [List.length_append, List.length_map, List.length_take, List.length_drop]
    omega

section Recv
variable {r : RecvCtx} {rc : RecvCache} {msg : MsgT} {msgs : List MsgT} {id : MsgId}

/-- The entry under `id`, if there is one, has a size that `r_size` can have. -/
def Small (id : MsgId) (rc : RecvCache) : Prop :=
  ∀ c, rc.find id = some c → c.buff.length < 2 ^ 31

/-- Every buffer is as large as some `r_size`. -/
theorem recvMsg_small (hs : Small msg.id rc) :
    Small msg.id (recvMsg r rc msg).cache ∧
      ∀ b, (recvMsg r rc msg).buff = some b → buffSize b < 2 ^ 31 := by
  have hsize : (int32 (dataLength + msg.remain)).toNat < 2 ^ 31 := by
    have := int32_lt (dataLength + msg.remain)
    omega
  have hmake := makeCache_length_le msg.data (int32 (dataLength + msg.remain)).toNat
  have hd := recvMsg_outcome r rc msg
  generalize recvMsg r rc msg = t at hd ⊢
  cases hd with
  | own | negative => exact ⟨hs, fun b hb => by cases hb⟩
  | wrong =>
    refine ⟨hs, fun b hb => ?_⟩
    cases hb
    exact Nat.two_pow_pos 31
  | large =>
    refine ⟨hs, fun b hb => ?_⟩
    cases hb
    exact hsize
  | whole =>
    refine ⟨hs, fun b hb => ?_⟩
    cases hb
    exact Nat.lt_of_le_of_lt hmake hsize
  | opened =>
    refine ⟨fun c hc => ?_, fun b hb => by cases hb⟩
    rw [Turn.cache, RecvCache.find_cons, if_pos rfl] at hc
    cases hc
    exact Nat.lt_of_le_of_lt hmake hsize
  | last hr cac hf =>
    refine ⟨fun c hc => ?_, fun b hb => ?_⟩
    · rw [Turn.cache, RecvCache.find_erase, if_pos rfl] at hc
      cases hc
    · cases hb
      exact Nat.lt_of_le_of_lt (append_length_le ..) (hs cac hf)
  | more hr cac hf =>
    refine ⟨fun c hc => ?_, fun b hb => by cases hb⟩
    rw [Turn.cache, RecvCache.find_update, if_pos rfl, hf] at hc
    cases hc
    exact Nat.lt_of_le_of_lt (append_length_le ..) (hs cac hf)

theorem obtained_small (hid : ∀ m ∈ msgs, m.id = id) (hs : Small id rc) :
    ∀ b ∈ obtained r rc msgs, buffSize b < 2 ^ 31 := by
  induction msgs generalizing rc with
  | nil => intro b hb; cases hb
  | cons msg msgs ih =>
    intro b hb
    obtain ⟨hmsg, hrest⟩ := List.forall_mem_cons.mp hid
    obtain ⟨hcache, hbuff⟩ := recvMsg_small (r := r) (hmsg.symm ▸ hs)
    rcases List.mem_append.mp hb with hb | hb
    · exact hbuff b (Option.mem_toList.mp hb)
    · exact ih hrest (hmsg ▸ hcache) b hb

/-- No element of a list yields a buffer, whatever the cache. -/
theorem obtained_nil (hnone : ∀ m ∈ msgs, ∀ rc, (recvMsg r rc m).buff = none) :
    obtained r rc msgs = [] := by
  induction msgs generalizing rc with
  | nil => rfl
  | cons msg msgs ih =>
    obtain ⟨hmsg, hrest⟩ := List.forall_mem_cons.mp hnone
    rw [obtained, hmsg rc, ih hrest]
    rfl

/-- From fragment `j` on, with the ones before in the cache. -/
theorem obtained_fragments {m : Sent} {j k : Nat} (hu : m.bytes.length < 2 ^ 31)
    (hcc : ¬ (r.acc = true ∧ m.ccId = r.ccId)) (hk : j + (k + 1) = fragCount m.bytes.length)
    (hf : HoldsFirst rc m j) :
    obtained r rc ((List.range' j (k + 1)).map m.elemAt) = [.cache (m.bytes.map some)] := by
  induction k generalizing rc j with
  | zero =>
    rw [List.range'_one, List.map_singleton, obtained, (recvMsg_last hu hcc hk hf).1]
    rfl
  | succ k ih =>
    rw [List.range'_succ, List.map_cons, obtained, recvMsg_more hu hcc (by omega),
      ih (by omega) (recvMsg_next hu hcc (by omega) hf)]
    rfl

/-- The element of a large message. -/
theorem recvMsg_large {ccId msgId : MsgId} {size id : Nat} (rc : RecvCache)
    (hcc : ¬ (r.acc = true ∧ ccId = r.ccId)) (h0 : 0 < size) (hu : size < 2 ^ 31)
    (hid : id < 2 ^ 31) :
    recvMsg r rc (MsgT.make ccId msgId ⟨int32 (int32 size - dataLength), .storageId id⟩) =
      .ret (.storage id size) rc := by
  have hsize : int32 size = size := int32_of_range (by omega) (by omega)
  have hrem : int32 (int32 size - dataLength) = size - 64 := by
    rw [hsize, int32_of_range] <;> simp only [dataLength] <;> omega
  have hback : int32 (dataLength + (size - 64)) = size := by
    rw [int32_of_range] <;> simp only [dataLength] <;> omega
  have hload : loadId (fillData (idBytes id)) = id := loadId_idBytes (by omega) (by omega)
  unfold recvMsg
  simp only [MsgT.make, hrem, hback, hload]
  rw [if_neg hcc, if_neg (by omega), if_pos trivial, if_neg (by omega), Int.toNat_natCast]

end Recv

/-! ## The elements a call has pushed -/

section Pushes
variable {σ : Type} (Q : Out σ) (force : Bool) (tm : Nat) (h : Sender)

/-- `quit_` ends the wait for a push that is refused, and `try_push` returns true
without one. -/
def GivesUp (w : World σ) (msg : MsgT) : Prop :=
  Q.push w.que msg = none ∧ tm ≠ 0 ∧ h.quit = true

instance (w : World σ) (msg : MsgT) : Decidable (GivesUp Q tm h w msg) :=
  inferInstanceAs (Decidable (_ ∧ _ ∧ _))

/-- The elements that went into the queue, forced or not. -/
def pushed : World σ → List MsgT → List MsgT
  | _, [] => []
  | w, msg :: msgs =>
    if (tryPush Q force tm h w msg).2 = true then
      if GivesUp Q tm h w msg then pushed (tryPush Q force tm h w msg).1 msgs
      else msg :: pushed (tryPush Q force tm h w msg).1 msgs
    else []

/-- Whether a push is refused does not depend on the message. -/
def Uniform : Prop := ∀ que msg msg', Q.push que msg = none → Q.push que msg' = none

variable {Q} {force} {tm} {h} {w : World σ} {msg : MsgT} {msgs : List MsgT}

theorem tryPush_givesUp (hg : GivesUp Q tm h w msg) :
    tryPush Q force tm h w msg = (w, true) := by
  simp only [tryPush, hg.1, if_pos hg.2]

theorem pushed_subset : ∀ m ∈ pushed Q force tm h w msgs, m ∈ msgs := by
  induction msgs generalizing w with
  | nil => intro m hm; cases hm
  | cons msg msgs ih =>
    intro m hm
    unfold pushed at hm
    split at hm
    · split at hm
      · exact List.mem_cons_of_mem _ (ih m hm)
      · rcases List.mem_cons.mp hm with rfl | hm
        · exact List.mem_cons_self
        · exact List.mem_cons_of_mem _ (ih m hm)
    · cases hm

/-- A call that returns true and gives no push up has pushed everything. -/
theorem pushed_eq (hs : (tryPushes Q force tm h w msgs).2 = true)
    (hn : Along Q force tm h (fun w msg => ¬ GivesUp Q tm h w msg) w msgs) :
    pushed Q force tm h w msgs = msgs := by
  induction msgs generalizing w with
  | nil => rfl
  | cons msg msgs ih =>
    rw [tryPushes_cons] at hs
    split at hs
    · rename_i hok
      rw [pushed, if_pos hok, if_neg hn.1, ih hs (hn.2 hok)]
    · cases hs

/-- After a push that was given up the others are given up as well. -/
theorem pushed_nil_of_givesUp (hQ : Uniform Q) (hg : GivesUp Q tm h w msg) :
    pushed Q force tm h w msgs = [] := by
  induction msgs with
  | nil => rfl
  | cons msg' msgs ih =>
    have hg' : GivesUp Q tm h w msg' := ⟨hQ _ _ _ hg.1, hg.2⟩
    rw [pushed, tryPush_givesUp hg', if_pos rfl, if_pos hg', ih]

/-- A call that returns true and gives a push up has pushed what came before it. -/
theorem pushed_take (hQ : Uniform Q) (hs : (tryPushes Q force tm h w msgs).2 = true)
    (hn : ¬ Along Q force tm h (fun w msg => ¬ GivesUp Q tm h w msg) w msgs) :
    ∃ k < msgs.length, pushed Q force tm h w msgs = msgs.take k := by
  induction msgs generalizing w with
  | nil => exact absurd trivial hn
  | cons msg msgs ih =>
    by_cases hg : GivesUp Q tm h w msg
    · exact ⟨0, Nat.succ_pos _, by rw [pushed_nil_of_givesUp hQ hg, List.take_zero]⟩
    · rw [tryPushes_cons] at hs
      split at hs
      · rename_i hok
        obtain ⟨k, hk, he⟩ := ih hs fun ha => hn ⟨hg, fun _ => ha⟩
        refine ⟨k + 1, Nat.succ_lt_succ hk, ?_⟩
        rw [pushed, if_pos hok, if_neg hg, he, List.take_succ_cons]
      · cases hs

end Pushes

/-- The three policies refuse a push by their indices and bits alone. -/
theorem out_uniform (flag : Flag) : Uniform (out flag.policy) := by
  intro que msg msg' hn
  have hn := Option.map_eq_none_iff.mp hn
  refine Option.map_eq_none_iff.mpr ?_
  cases flag with
  | unicast =>
    change Unicast.Queue.push que.1 msg = none at hn
    change Unicast.Queue.push que.1 msg' = none
    unfold Unicast.Queue.push at hn ⊢
    simpa using hn
  | broadcast rp =>
    cases rp with
    | single => exact Policies.Route.push_eq_none.mpr (Policies.Route.push_eq_none.mp hn)
    | multi =>
      change Channel.Queue.push que.1 que.2 msg = none at hn
      change Channel.Queue.push que.1 que.2 msg' = none
      unfold Channel.Queue.push at hn ⊢
      simpa using hn

/-! ## One call -/

section Call
variable {flag : Flag} {force : Bool} {tm : Nat} {h : Sender}
  {w : World (flag.policy.Queue × CC)} {data : List Byte}

/-- The state in which the pushes of a call start. -/
def start (flag : Flag) (h : Sender) (w : World (flag.policy.Queue × CC)) (data : List Byte) :
    Sender × World (flag.policy.Queue × CC) :=
  ((readySending (out flag.policy) h w).2.1, (begun (out flag.policy) h w data).2)

/-- What a call has pushed. -/
def sent (flag : Flag) (force : Bool) (tm : Nat) (h : Sender)
    (w : World (flag.policy.Queue × CC)) (data : List Byte) : List MsgT :=
  pushed (out flag.policy) force tm (start flag h w data).1 (start flag h w data).2
    (elements (out flag.policy) h w data)

/-- At no push of the call is the queue full and `quit_` up. -/
def NeverGivesUp (flag : Flag) (force : Bool) (tm : Nat) (h : Sender)
    (w : World (flag.policy.Queue × CC)) (data : List Byte) : Prop :=
  Along (out flag.policy) force tm (start flag h w data).1
    (fun w' msg => ¬ GivesUp (out flag.policy) tm (start flag h w data).1 w' msg)
    (start flag h w data).2 (elements (out flag.policy) h w data)

theorem passes_of_true (hs : (send (out flag.policy) force tm h w data).2.2 = true) :
    Passes (out flag.policy) h w data := by
  by_contra hp
  rw [(send_of_not_passes force tm hp).1] at hs
  cases hs

theorem tryPushes_of_true (hs : (send (out flag.policy) force tm h w data).2.2 = true) :
    (tryPushes (out flag.policy) force tm (start flag h w data).1 (start flag h w data).2
      (elements (out flag.policy) h w data)).2 = true := by
  rwa [send_eq force tm (passes_of_true hs)] at hs

/-- The elements are fragments, or one element for a storage whose id is a byte. -/
theorem elements_cases (h : Sender) (data : List Byte)
    (hb : ∀ cs, (w.store cs).pool.prepare.cursor < 256) :
    elements (out flag.policy) h w data = (Sent.mk h.ccId w.acc data).elems ∨
    ∃ id < 256, largeMsgLimit < data.length ∧ elements (out flag.policy) h w data =
      [MsgT.make h.ccId w.acc ⟨int32 (int32 data.length - dataLength), .storageId (id : Nat)⟩] := by
  obtain ⟨_, hstore, _⟩ := readySending_que (Q := out flag.policy) h w
  unfold elements begun takeStorage
  dsimp only
  rw [hstore]
  by_cases hl : data.length > largeMsgLimit
  · rw [if_pos hl]
    by_cases hc : (w.store (calcChunkSize data.length)).pool.prepare.cursor = maxCount
    · rw [acquireStorage_empty hc]
      exact .inl rfl
    · rw [acquireStorage_cursor hc]
      refine .inr ⟨_, hb (calcChunkSize data.length), hl, ?_⟩
      simp only [messages, pushes, Option.map_some, if_pos hl, List.map_singleton]
      rfl
  · rw [if_neg hl]
    exact .inl rfl

theorem elements_id {msg : MsgT} (hm : msg ∈ elements (out flag.policy) h w data) :
    msg.id = w.acc := by
  obtain ⟨t, _, rfl⟩ := List.mem_map.mp hm
  exact MsgT.make_id ..

variable {r : RecvCtx} {rc : RecvCache}

/-- No receiver gets a buffer of 2 GiB. -/
theorem Honest.length_lt (hfree : rc.find w.acc = none)
    (hh : Honest r rc (sent flag force tm h w data) data.length) : data.length < 2 ^ 31 := by
  obtain ⟨b, hb, hsize⟩ := hh
  have hids : ∀ m ∈ sent flag force tm h w data, m.id = w.acc := fun m hm =>
    elements_id (pushed_subset m hm)
  have hsmall : Small w.acc rc := fun c hc =>
    absurd (hfree.symm.trans hc) (Option.some_ne_none c).symm
  rw [← hsize]
  exact obtained_small hids hsmall b (by rw [hb]; exact List.mem_singleton_self b)

/-- All the elements of a call give the message. -/
theorem obtained_elements (hb : ∀ cs, (w.store cs).pool.prepare.cursor < 256)
    (hother : ¬ (r.acc = true ∧ h.ccId = r.ccId)) (hfree : rc.find w.acc = none)
    (h0 : 0 < data.length) (hu : data.length < 2 ^ 31) :
    Honest r rc (elements (out flag.policy) h w data) data.length := by
  rcases elements_cases h data hb with he | ⟨id, hid, -, he⟩
  · obtain ⟨k, hk⟩ : ∃ k, 0 + (k + 1) = fragCount data.length :=
      ⟨fragCount data.length - 1, by unfold fragCount; omega⟩
    refine ⟨.cache (data.map some), ?_, List.length_map some⟩
    rw [he, Sent.elems_eq hu, List.range_eq_range', ← hk, Nat.zero_add]
    exact obtained_fragments hu hother hk hfree
  · refine ⟨.storage id data.length, ?_, rfl⟩
    rw [he, obtained, recvMsg_large rc hother h0 hu (by omega)]
    rfl

/-- Without the last of its elements a message gives no buffer. -/
theorem obtained_take (hb : ∀ cs, (w.store cs).pool.prepare.cursor < 256)
    (hother : ¬ (r.acc = true ∧ h.ccId = r.ccId)) (hu : data.length < 2 ^ 31) {k : Nat}
    (hk : k < (elements (out flag.policy) h w data).length) :
    obtained r rc ((elements (out flag.policy) h w data).take k) = [] := by
  apply obtained_nil
  rcases elements_cases h data hb with he | ⟨id, -, -, he⟩
  · intro m hm rc'
    rw [he, Sent.elems_length hu] at hk
    change k < fragCount data.length at hk
    rw [he, Sent.elems_eq hu, ← List.map_take, List.take_range] at hm
    obtain ⟨j, hj, rfl⟩ := List.mem_map.mp hm
    have hj : j < min k (fragCount data.length) := List.mem_range.mp hj
    exact recvMsg_more hu hother (by change j + 1 < fragCount data.length; omega)
  · intro m hm rc'
    have h0 : k = 0 := by
      rw [he, List.length_singleton] at hk
      omega
    rw [h0, List.take_zero] at hm
    cases hm

end Call

/-- **`send` and `try_send` are honest** up to 2 GiB, and only up to there. For every
policy, state of the queue and of the pools, message and time-out: when the call returns
true, a receiver that pops exactly what it pushed obtains one buffer of the right
size just when the message has less than 2^31 bytes and no push was given up. -/
theorem send_honest_iff (flag : Flag) (force : Bool) (tm : Nat) (h : Sender)
    (w : World (flag.policy.Queue × CC)) (data : List Byte)
    (hb : ∀ cs, (w.store cs).pool.prepare.cursor < 256)
    (hs : (send (out flag.policy) force tm h w data).2.2 = true)
    (r : RecvCtx) (rc : RecvCache) (hother : ¬ (r.acc = true ∧ h.ccId = r.ccId))
    (hfree : rc.find w.acc = none) :
    Honest r rc (sent flag force tm h w data) data.length ↔
      data.length < 2 ^ 31 ∧ NeverGivesUp flag force tm h w data := by
  have hpush := tryPushes_of_true hs
  constructor
  · intro hh
    have hu := hh.length_lt hfree
    refine ⟨hu, ?_⟩
    by_contra hn
    obtain ⟨k, hk, he⟩ := pushed_take (out_uniform flag) hpush hn
    obtain ⟨b, hobt, -⟩ := hh
    rw [sent, he, obtained_take hb hother hu hk] at hobt
    cases hobt
  · rintro ⟨hu, hn⟩
    rw [sent, pushed_eq hpush hn]
    exact obtained_elements hb hother hfree (Nat.pos_of_ne_zero (passes_of_true hs).1) hu

/-! ## A message of 2 GiB -/

/-- On an empty route `try_send` takes the chunk 0 and pushes the one element. -/
theorem send_oneReader {data : List Byte} (hl : largeMsgLimit < data.length) :
    (send (out (Flag.broadcast .single).policy) false 0 freshSender (oneReader 0) data).2.2 =
      true := by
  have hc : HasChunk (oneReader 0).store data.length := by
    change Pool.zero.prepare.cursor ≠ maxCount
    decide +kernel
  obtain ⟨msg, hm⟩ := messages_some freshSender.ccId (oneReader 0).acc hl
    (headId (oneReader 0).store data.length)
  have hp : Passes (out (Flag.broadcast .single).policy) freshSender (oneReader 0) data :=
    ⟨Nat.ne_of_gt (Nat.zero_lt_of_lt hl), rfl, rfl, by decide, rfl⟩
  exact (send_large false 0 hl hp hc hm).1.mpr (.inl (Option.isSome_iff_ne_none.mp rfl))

theorem oneReader_cursor (cs : Nat) : ((oneReader 0).store cs).pool.prepare.cursor < 256 := by
  change Pool.zero.prepare.cursor < 256
  decide +kernel

theorem honest_oneReader :
    Honest ⟨true, 2⟩ [] (sent (.broadcast .single) false 0 freshSender (oneReader 0) largeData)
        largeData.length ↔
      largeData.length < 2 ^ 31 ∧
        NeverGivesUp (.broadcast .single) false 0 freshSender (oneReader 0) largeData :=
  send_honest_iff (.broadcast .single) false 0 freshSender (oneReader 0) largeData oneReader_cursor
    (send_oneReader (by decide)) ⟨true, 2⟩ [] (by decide) rfl

def hugeData : List Byte := List.replicate (2 ^ 31) 0

/-- The call returns true, and what it pushed is of no use. -/
theorem not_honest_huge :
    (send (out (Flag.broadcast .single).policy) false 0 freshSender (oneReader 0) hugeData).2.2 =
      true ∧
    ¬ Honest ⟨true, 2⟩ [] (sent (.broadcast .single) false 0 freshSender (oneReader 0) hugeData)
      hugeData.length := by
  have hlen : hugeData.length = 2 ^ 31 := List.length_replicate
  refine ⟨send_oneReader (by rw [hlen]; decide), fun hh => ?_⟩
  have hlt := hh.length_lt rfl
  rw [hlen] at hlt
  exact Nat.lt_irrefl _ hlt

end CppIpc.SizeLimits
