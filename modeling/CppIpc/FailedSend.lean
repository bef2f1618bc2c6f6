import CppIpc.Ipc
import CppIpc.Policies
import CppIpc.Unicast

/-! # What a failed send leaves behind -/
namespace CppIpc.FailedSend
open CppIpc.Def CppIpc.IdPool CppIpc.Message CppIpc.Storage CppIpc.Send
open CppIpc.ProdCons CppIpc.Policies
open CppIpc.Ipc (chunkOf clearMessage_eq)

/-- A policy with its connection word, as `send` uses them. -/
def out (P : Policy MsgT) : Out (P.Queue × CC) where
  multi := P.multi
  conns s := s.2
  push s msg := (P.push s.1 s.2 msg).map (·, s.2)
  forcePush s msg :=
    let (q, cc, old) := P.forcePush s.1 s.2 msg
    ((q, cc), old)

/-- The three policies that `ipc.cpp` instantiates. -/
inductive Flag where
  | unicast
  | broadcast (rp : Relat)

def Flag.policy : Flag → Policy MsgT
  | .unicast => Unicast.unicast
  | .broadcast rp => (Policies.policy rp).toPolicy

section Conditions
variable {σ : Type} (Q : Out σ) (force : Bool) (tm : Nat) (quit : Bool)

/-- The queue takes the message: pushed, given up with true, or pushed by force. -/
def Takes (que : σ) (msg : MsgT) : Prop :=
  Q.push que msg ≠ none ∨ (tm ≠ 0 ∧ quit = true) ∨
    (force = true ∧ (Q.forcePush que msg).2 ≠ none)

/-- The chunks that the forced pushes among these calls give back, by size and id. -/
def givenBack : σ → List MsgT → List (Nat × Nat)
  | _, [] => []
  | que, msg :: msgs =>
    match Q.push que msg with
    | some q => givenBack q msgs
    | none =>
      if tm ≠ 0 ∧ quit = true then givenBack que msgs
      else if force = true then
        match Q.forcePush que msg with
        | (q, some old) => (chunkOf old).toList ++ givenBack q msgs
        | (_, none) => []
      else []

/-- The same ids are free. -/
def SameFree (st st' : Storages) : Prop := ∀ cs i, i ∈ st'.free cs ↔ i ∈ st.free cs

end Conditions

section Effects
variable {σ : Type} {Q : Out σ} {force : Bool} {tm : Nat} {h : Sender} {w : World σ}
  {data : List Byte}

theorem tryPush_true_iff {msg : MsgT} :
    (tryPush Q force tm h w msg).2 = true ↔ Takes Q force tm h.quit w.que msg := by
  unfold tryPush Takes
  cases hp : Q.push w.que msg with
  | some q => simp
  | none =>
    simp only [ne_eq, not_true_eq_false, false_or]
    split
    · rename_i hq; simp [hq]
    · rename_i hq
      rw [or_iff_right hq]
      cases force with
      | false => simp
      | true =>
        cases hf : Q.forcePush w.que msg with
        | mk q old => cases old <;> simp

/-- A refused push, forced or not, leaves the storage alone. -/
theorem tryPush_refused {msg : MsgT} (hr : (tryPush Q force tm h w msg).2 = false) :
    (tryPush Q force tm h w msg).1.store = w.store := by
  rcases tryPush_cases Q force tm h w msg with
    ⟨q, -, he⟩ | ⟨-, ok, he⟩ | ⟨q, -, -, he⟩ | ⟨q, old, -, -, he⟩
  · rw [he] at hr
    cases hr
  · rw [he]
  · rw [he]
  · rw [he] at hr
    cases hr

/-- `release` of the chunk `c`. -/
def giveBack (st : Storages) (c : Nat × Nat) : Storages :=
  Function.update st c.1 { st c.1 with pool := (st c.1).pool.release c.2 }

theorem clearMessage_giveBack (st : Storages) (old : MsgT) :
    clearMessage st old = (chunkOf old).toList.foldl giveBack st := by
  rcases clearMessage_eq st old with ⟨hc, hst⟩ | ⟨size, id, hc, hst⟩
  · rw [hst, hc]
    rfl
  · rw [hst, hc, releaseStorage, if_neg (by omega)]
    rfl

/-- The pushes of a call reach the storage by what their forced pushes give back. -/
theorem tryPushes_store (msgs : List MsgT) : (tryPushes Q force tm h w msgs).1.store =
    (givenBack Q force tm h.quit w.que msgs).foldl giveBack w.store := by
  induction msgs generalizing w with
  | nil => rfl
  | cons msg msgs ih =>
    unfold givenBack tryPushes tryPush
    cases hp : Q.push w.que msg with
    | some q => exact ih
    | none =>
      dsimp only
      by_cases hq : tm ≠ 0 ∧ h.quit = true
      · rw [if_pos hq, if_pos hq]
        exact ih
      rw [if_neg hq, if_neg hq]
      cases force with
      | false => rfl
      | true =>
        rw [if_pos rfl, if_pos rfl]
        cases hf : Q.forcePush w.que msg with
        | mk q old =>
          cases old with
          | none => rfl
          | some old =>
            dsimp only
            rw [List.foldl_append, ← clearMessage_giveBack]
            exact ih

theorem givenBack_unforced (que : σ) (msgs : List MsgT) (quit : Bool) :
    givenBack Q false tm quit que msgs = [] := by
  induction msgs generalizing que with
  | nil => rfl
  | cons msg msgs ih =>
    unfold givenBack
    cases Q.push que msg with
    | some q => exact ih q
    | none =>
      dsimp only
      split
      · exact ih que
      · simp

/-! ## Chunks given back -/

/-- The chunks are in use, each by one message. -/
structure InUse (st : Storages) (chunks : List (Nat × Nat)) : Prop where
  nodup : chunks.Nodup
  prepared : ∀ c ∈ chunks, (st c.1).pool.prepared = true
  lt : ∀ c ∈ chunks, c.2 < maxCount
  taken : ∀ c ∈ chunks, c.2 ∉ st.free c.1

section GiveBack
variable {st : Storages} {c d : Nat × Nat} {chunks : List (Nat × Nat)}

theorem giveBack_apply (st : Storages) (c : Nat × Nat) (cs : Nat) : (giveBack st c cs).pool =
    if cs = c.1 then (st cs).pool.release c.2 else (st cs).pool := by
  simp only [giveBack, Function.update_apply]
  split
  · rename_i hcs; rw [hcs]
  · rfl

theorem giveBack_prepared (cs : Nat) (hp : (st cs).pool.prepared = true) :
    (giveBack st c cs).pool.prepared = true := by
  rw [giveBack_apply]
  split
  · rw [Pool.release, if_neg (by omega)]
    exact hp
  · exact hp

/-- A chunk in use is put in front of the free ids of its size. -/
theorem giveBack_sound {cs : Nat} {l : List Nat} (hs : (st cs).pool.Sound l)
    (hu : InUse st (c :: chunks)) :
    (giveBack st c cs).pool.Sound (if cs = c.1 then c.2 :: l else l) := by
  rw [giveBack_apply]
  split
  · rename_i hcs
    subst hcs
    have hout := hu.taken c List.mem_cons_self
    rw [Storages.free, hs.free_eq] at hout
    exact hs.release (hu.prepared c List.mem_cons_self) hout (hu.lt c List.mem_cons_self)
  · exact hs

theorem mem_free_giveBack (hs : ∀ cs, ∃ l, (st cs).pool.Sound l) (hu : InUse st (c :: chunks)) :
    d.2 ∈ (giveBack st c).free d.1 ↔ d = c ∨ d.2 ∈ st.free d.1 := by
  obtain ⟨l, hl⟩ := hs d.1
  rw [Storages.free, Storages.free, (giveBack_sound hl hu).free_eq, hl.free_eq, Prod.ext_iff]
  by_cases hd : d.1 = c.1
  · rw [if_pos hd, List.mem_cons]
    simp [hd]
  · rw [if_neg hd]
    simp [hd]

/-- The chunks that are still to be given back stay in use. -/
theorem InUse.giveBack (hs : ∀ cs, ∃ l, (st cs).pool.Sound l) (hu : InUse st (c :: chunks)) :
    InUse (FailedSend.giveBack st c) chunks where
  nodup := (List.nodup_cons.mp hu.nodup).2
  prepared d hd := giveBack_prepared d.1 (hu.prepared d (List.mem_cons_of_mem _ hd))
  lt d hd := hu.lt d (List.mem_cons_of_mem _ hd)
  taken d hd := by
    rw [mem_free_giveBack hs hu, not_or]
    exact ⟨fun he => (List.nodup_cons.mp hu.nodup).1 (he ▸ hd),
      hu.taken d (List.mem_cons_of_mem _ hd)⟩

/-- Exactly the chunks given back are free in addition. -/
theorem mem_free_foldl (hs : ∀ cs, ∃ l, (st cs).pool.Sound l) (hu : InUse st chunks) :
    d.2 ∈ Storages.free (chunks.foldl giveBack st) d.1 ↔ d ∈ chunks ∨ d.2 ∈ st.free d.1 := by
  induction chunks generalizing st with
  | nil => simp
  | cons c chunks ih =>
    have hs' : ∀ cs, ∃ l, (giveBack st c cs).pool.Sound l := fun cs =>
      let ⟨_, hl⟩ := hs cs
      ⟨_, giveBack_sound hl hu⟩
    rw [List.foldl_cons, ih hs' (hu.giveBack hs), mem_free_giveBack hs hu, List.mem_cons]
    exact or_left_comm.trans (or_assoc).symm

end GiveBack

/-! ## Pools prepared meanwhile -/

/-- The same pools, prepared or not. -/
def SamePools (st st' : Storages) : Prop :=
  ∀ cs, (st' cs).pool = (st cs).pool ∨ (st' cs).pool = (st cs).pool.prepare

section SamePools
variable {st st' : Storages} {chunks : List (Nat × Nat)}

theorem SamePools.sound (hst : SamePools st st') (hs : ∀ cs, ∃ l, (st cs).pool.Sound l)
    (cs : Nat) : ∃ l, (st' cs).pool.Sound l := by
  obtain ⟨l, hl⟩ := hs cs
  refine ⟨l, ?_⟩
  rcases hst cs with he | he
  · rw [he]; exact hl
  · rw [he, Pool.Sound, Pool.prepare_eq rfl]; exact hl

theorem SamePools.free_eq (hst : SamePools st st') (cs : Nat) : st'.free cs = st.free cs := by
  unfold Storages.free
  rcases hst cs with he | he
  · rw [he]
  · rw [he, Pool.free_prepare]

theorem SamePools.inUse (hst : SamePools st st') (hu : InUse st chunks) : InUse st' chunks where
  nodup := hu.nodup
  prepared c hc := by
    rcases hst c.1 with he | he
    · rw [he]; exact hu.prepared c hc
    · rw [he]; rfl
  lt := hu.lt
  taken c hc := by
    rw [hst.free_eq]
    exact hu.taken c hc

end SamePools

/-! ## One call -/

/-- The id that `acquire` would take. -/
def headId (st : Storages) (size : Nat) : Nat := (st (calcChunkSize size)).pool.prepare.cursor

/-- The chunks that a call on an empty pool gives back. -/
def fragmentsBack (Q : Out σ) (force : Bool) (tm : Nat) (h : Sender) (w : World σ)
    (data : List Byte) : List (Nat × Nat) :=
  givenBack Q force tm h.quit w.que (messages h.ccId w.acc data none)

/-- A call that is turned away, or that finds the pool empty and forces nothing over a
large message. -/
def Condition (Q : Out σ) (force : Bool) (tm : Nat) (h : Sender) (w : World σ)
    (data : List Byte) : Prop :=
  ¬ Passes Q h w data ∨
    (¬ HasChunk w.store data.length ∧ fragmentsBack Q force tm h w data = [])

/-- The storage path makes one push. -/
theorem messages_some (ccId msgId : MsgId) (hl : largeMsgLimit < data.length) (id : Nat) :
    ∃ msg, messages ccId msgId data (some id) = [msg] := by
  simp [messages, pushes, hl]

/-- The pool of the message's chunk size after its head was taken. -/
theorem free_of_taken {st : Storages} {l : List Nat} (conns : CC)
    (hs : (st (calcChunkSize data.length)).pool.Sound l) (hc : HasChunk st data.length) :
    headId st data.length ∈ l ∧ headId st data.length ∉
      Storages.free (writeChunk (acquireStorage st data.length conns).2 (headId st data.length)
        data) (calcChunkSize data.length) := by
  rcases hs.acquire with ⟨rfl, _⟩ | ⟨i, r, rfl, hid, hr⟩
  · exact absurd hs.1 hc
  · have hi : headId st data.length = i := by
      have : ((headId st data.length : Nat) : Int) = i := by
        simpa [Pool.acquire, if_neg hc, headId] using hid
      exact Int.ofNat_inj.mp this
    rw [hi]
    refine ⟨List.mem_cons_self, ?_⟩
    rw [Storages.free, writeChunk_pool, acquireStorage_cursor hc]
    simp only [Function.update_self, hr.free_eq]
    exact (List.nodup_cons.mp hs.2).1

/-- Storage path: the call returns what the one push returns, and a refusal leaves the
id taken. -/
theorem send_large (force : Bool) (tm : Nat) (hl : largeMsgLimit < data.length)
    (hp : Passes Q h w data) (hc : HasChunk w.store data.length) {msg : MsgT}
    (hm : messages h.ccId w.acc data (some (headId w.store data.length)) = [msg]) :
    ((send Q force tm h w data).2.2 = true ↔ Takes Q force tm h.quit w.que msg) ∧
    ((send Q force tm h w data).2.2 = false → (send Q force tm h w data).1.store =
      writeChunk (acquireStorage w.store data.length (Q.conns w.que)).2
        (headId w.store data.length) data) := by
  obtain ⟨h', w', _, hquit, hque, hstore, he⟩ := send_of_passes force tm hp
  obtain ⟨st, hst⟩ : ∃ st, st = writeChunk (acquireStorage w.store data.length (Q.conns w.que)).2
      (headId w.store data.length) data := ⟨_, rfl⟩
  have htake : takeStorage w' (Q.conns w.que) data =
      (some (headId w.store data.length), { w' with store := st }) := by
    rw [takeStorage, if_pos hl, hstore, hst, acquireStorage_cursor hc]
    rfl
  rw [htake, hm, tryPushes_singleton] at he
  have h₁ := congrArg Prod.fst he
  have h₂ := congrArg Prod.snd he
  dsimp only at h₁ h₂
  rw [h₁, h₂, tryPush_true_iff, hquit, hque]
  exact ⟨Iff.rfl, fun hr => (tryPush_refused hr).trans hst⟩

/-- Fragment path: the pushes start from the pools as they were, the empty one prepared. -/
theorem send_fragments (force : Bool) (tm : Nat) (hl : largeMsgLimit < data.length)
    (hp : Passes Q h w data) (hc : ¬ HasChunk w.store data.length) : ∃ st : Storages,
    SamePools w.store st ∧
    (send Q force tm h w data).1.store = (fragmentsBack Q force tm h w data).foldl giveBack st := by
  obtain ⟨h', w', _, hquit, hque, hstore, he⟩ := send_of_passes force tm hp
  have hempty : (w.store (calcChunkSize data.length)).pool.prepare.cursor = maxCount :=
    not_not.mp hc
  have htake : takeStorage w' (Q.conns w.que) data =
      (none, { w' with store := (acquireStorage w.store data.length (Q.conns w.que)).2 }) := by
    rw [takeStorage, if_pos hl, hstore, acquireStorage_empty hempty]
  have h₁ := congrArg Prod.fst he
  rw [htake] at h₁
  dsimp only at h₁
  refine ⟨(acquireStorage w.store data.length (Q.conns w.que)).2, fun cs => ?_, ?_⟩
  · simp only [acquireStorage_empty hempty, Function.update_apply]
    split
    · rename_i hcs
      exact .inr (by rw [hcs])
    · exact .inl rfl
  · rw [h₁, tryPushes_store, fragmentsBack, ← hquit, ← hque]

end Effects

/-- All three policies, every queue, every state of the pools, every message above 64
bytes and every time-out: a call that returns false leaves the free ids as they were
if the condition holds. Where the pools are sound it does so only then, as long as the
large messages that a call on an empty pool forces its fragments over still own their
chunks. -/
theorem send_false_same_free (flag : Flag) (force : Bool) (tm : Nat) (h : Sender)
    (w : World (flag.policy.Queue × CC)) (data : List Byte) (hl : largeMsgLimit < data.length)
    (hfalse : (send (out flag.policy) force tm h w data).2.2 = false) :
    (Condition (out flag.policy) force tm h w data →
      SameFree w.store (send (out flag.policy) force tm h w data).1.store) ∧
    ((∀ cs, ∃ l, (w.store cs).pool.Sound l) →
      (force = true → Passes (out flag.policy) h w data → ¬ HasChunk w.store data.length →
        InUse w.store (fragmentsBack (out flag.policy) force tm h w data)) →
      (SameFree w.store (send (out flag.policy) force tm h w data).1.store ↔
        Condition (out flag.policy) force tm h w data)) := by
  have hsuff : Condition (out flag.policy) force tm h w data →
      SameFree w.store (send (out flag.policy) force tm h w data).1.store := by
    rintro (hp | ⟨hc, hback⟩) cs i
    · rw [(send_of_not_passes force tm hp).2.2]
    · by_cases hp : Passes (out flag.policy) h w data
      · obtain ⟨st, hst, hstore⟩ := send_fragments force tm hl hp hc
        rw [hstore, hback, List.foldl_nil, hst.free_eq]
      · rw [(send_of_not_passes force tm hp).2.2]
  refine ⟨hsuff, fun hsound huse => ⟨fun hsame => ?_, hsuff⟩⟩
  by_cases hp : Passes (out flag.policy) h w data
  · right
    by_cases hc : HasChunk w.store data.length
    · -- the head of the list is taken and nothing puts it back
      obtain ⟨msg, hm⟩ := messages_some h.ccId w.acc hl (headId w.store data.length)
      rw [(send_large force tm hl hp hc hm).2 hfalse] at hsame
      obtain ⟨l, hs⟩ := hsound (calcChunkSize data.length)
      obtain ⟨hin, hout⟩ := free_of_taken ((out flag.policy).conns w.que) hs hc
      refine absurd ((hsame _ _).mpr ?_) hout
      rw [Storages.free, hs.free_eq]
      exact hin
    · refine ⟨hc, ?_⟩
      cases force with
      | false => exact givenBack_unforced _ _ _
      | true =>
        have huse := huse rfl hp hc
        obtain ⟨st, hst, hstore⟩ := send_fragments true tm hl hp hc
        rw [hstore] at hsame
        refine List.eq_nil_iff_forall_not_mem.mpr fun c hback => ?_
        have hfree := (hsame c.1 c.2).mp
          ((mem_free_foldl (hst.sound hsound) (hst.inUse huse)).mpr (.inl hback))
        exact huse.taken c hback hfree
  · exact .inl hp

/-! ## A call that leaks -/

section Leak

/-- A route and its only receiver, whose bit is up in all slots if `rc` is 1 and in
none if `rc` is 0. -/
def oneReader (rc : ReadCounter.RC) : World ((Flag.broadcast .single).policy.Queue × CC) where
  que := ((⟨fun _ => ⟨default, rc⟩, 0, 0⟩ : Route.Queue MsgT), 1)
  store := .zero
  acc := 0
  flag := false

def freshSender : Sender := ⟨1, true, true, false, false⟩

def largeData : List Byte := List.replicate 65 0

/-- Pools with no free id. -/
def usedUp : Storages := fun _ => ⟨⟨fun _ => 0, maxCount, true⟩, fun _ => 0, fun _ => []⟩

/-- `send` on the full queue with the pools used up: the forced push gives the only
receiver up and is refused, and no id is lost. -/
theorem send_usedUp_same_free :
    (send (out (Flag.broadcast .single).policy) true 0 freshSender
      { oneReader 1 with store := usedUp } largeData).2.2 = false ∧
    SameFree usedUp (send (out (Flag.broadcast .single).policy) true 0 freshSender
      { oneReader 1 with store := usedUp } largeData).1.store := by
  have hfalse : (send (out (Flag.broadcast .single).policy) true 0 freshSender
      { oneReader 1 with store := usedUp } largeData).2.2 = false := by decide +kernel
  have hback : fragmentsBack (out (Flag.broadcast .single).policy) true 0 freshSender
      { oneReader 1 with store := usedUp } largeData = [] := by decide +kernel
  have hnone : ¬ HasChunk usedUp largeData.length := not_not.mpr rfl
  have huse : InUse usedUp [] := ⟨List.nodup_nil, by simp, by simp, by simp⟩
  exact ⟨hfalse, ((send_false_same_free (.broadcast .single) true 0 freshSender
    { oneReader 1 with store := usedUp } largeData (by decide) hfalse).2
      (fun _ => ⟨[], rfl, List.nodup_nil⟩) (fun _ _ _ => hback ▸ huse)).mpr (.inr ⟨hnone, hback⟩)⟩

/-- `try_send` with the queue full returns false, and the id 0 is lost. -/
theorem try_send_leaks :
    (send (out (Flag.broadcast .single).policy) false 0 freshSender (oneReader 1) largeData).2.2 =
      false ∧
    ¬ SameFree (oneReader 1).store
      (send (out (Flag.broadcast .single).policy) false 0 freshSender (oneReader 1)
        largeData).1.store := by
  refine ⟨by decide +kernel, fun hs => ?_⟩
  have hin : 0 ∈ (oneReader 1).store.free (calcChunkSize 65) := by decide +kernel
  have hout := (hs (calcChunkSize 65) 0).mpr hin
  revert hout
  decide +kernel

end Leak

end CppIpc.FailedSend
