import CppIpc.CallSteps
import CppIpc.Recycling

/-! # The bytes under a buffer

A buffer on a chunk is the chunk itself, not a copy. Here the calls of `send` are run push
by push, so that chunks are taken, referred to and given back in any order; what is asked of
the steps is that no `force_push` is made, that no receiver joins while a chunk waits for
its push, and that snapshots are whole where a buffer is dropped. -/
namespace CppIpc.ChunkBytes
open CppIpc.Def CppIpc.Message CppIpc.ReadCounter CppIpc.Storage CppIpc.Send CppIpc.Fragments
open CppIpc.ProdCons CppIpc.Policies CppIpc.Debts CppIpc.Ledger CppIpc.CallSteps
open CppIpc.Reclaim hiding Inv
open CppIpc.Recycling hiding Careful step_good
open CppIpc.Ipc hiding Act step
open CppIpc.Receivers hiding Act step Inv
open CppIpc.Lib.Runs (run Meets)

variable {B : Broadcast MsgT}

/-! ## Who writes the bytes of a chunk -/

/-- From `st` to `st'` the bytes of the chunks are left alone, the one of `e` apart. -/
def SameBytes (st st' : Storages) (e : Option (Nat × Nat)) : Prop :=
  ∀ cs id, e ≠ some (cs, id) → (st' cs).data id = (st cs).data id

section Bytes
variable {st st' st'' : Storages} {e : Option (Nat × Nat)}

theorem SameBytes.refl (st : Storages) : SameBytes st st none := fun _ _ _ => rfl

theorem SameBytes.trans (h : SameBytes st st' none) (h' : SameBytes st' st'' e) :
    SameBytes st st'' e := fun cs id hne => (h' cs id hne).trans (h cs id (by simp))

/-- One chunk size is written, and there no bytes. -/
theorem SameBytes.update {cs : Nat} {info : ChunkInfo} (hd : info.data = (st cs).data) :
    SameBytes st (Function.update st cs info) none := by
  intro cs' id _
  by_cases hc : cs' = cs
  · subst hc
    rw [Function.update_self, hd]
  · rw [Function.update_of_ne hc]

theorem acquireStorage_bytes (st : Storages) (size : Nat) (conns : CC) :
    SameBytes st (acquireStorage st size conns).2 none := by
  unfold acquireStorage
  dsimp only
  split <;> exact SameBytes.update rfl

theorem recycleStorage_bytes (st : Storages) (id : Int) (size : Nat) (currConns connId : CC) :
    SameBytes st (recycleStorage st id size currConns connId) none := by
  unfold recycleStorage
  split
  · exact SameBytes.refl st
  · dsimp only
    split <;> exact SameBytes.update rfl

theorem writeChunk_bytes (st : Storages) (id : Nat) (data : List Byte) :
    SameBytes st (writeChunk st id data) (some (calcChunkSize data.length, id)) ∧
      (writeChunk st id data (calcChunkSize data.length)).data id = data := by
  refine ⟨fun cs id' hne => ?_, by simp [writeChunk]⟩
  by_cases hc : cs = calcChunkSize data.length
  · subst hc
    have hid : id' ≠ id := fun he => hne (by rw [he])
    simp [writeChunk, hid]
  · simp [writeChunk, Function.update_of_ne hc]

end Bytes

/-! ## The invariant -/

/-- The bytes that the call of message `i` was given. -/
def bytesOf (s : Net B) (i : Nat) : Option (List Byte) :=
  s.origin[i]?.bind fun n => s.calls[n]?.map (·.sent.bytes)

/-- Call `n` still has something to push. -/
def Pending (s : Net B) (n : Nat) (c : Call) : Prop := s.calls[n]? = some c ∧ c.rest ≠ []

abbrev parties (s : Chan B) : Nat → Fin 32 → Prop := party s.world.que s.held

/-- The chunk that a call has yet to push: nobody else has it, every receiver has a bit in
its mask, and the bytes are there. -/
structure Waits (s : Chan B) (c : Call) (cs id : Nat) : Prop where
  mine : Reserved s.world.store (chunkAt s.world.que) (parties s) cs id
    ((s.world.store cs).conns id)
  mask : ∀ b, Conn s.world.que.cc b → ((s.world.store cs).conns id).getLsbD b = true
  bytes : (s.world.store cs).data id = c.sent.bytes

structure Inv (s : Net B) : Prop where
  good : Good s.chan
  calls : ∀ (n : Nat) (c : Call), s.calls[n]? = some c → c.Ok
  length : s.origin.length = s.chan.world.que.log.length
  origin : ∀ (i n : Nat) msg, s.origin[i]? = some n → s.chan.world.que.log[i]? = some msg →
    ∃ c : Call, s.calls[n]? = some c ∧ msg ∈ c.elems
  bytes : ∀ i b cs id, parties s.chan i b → chunkAt s.chan.world.que i = some (cs, id) →
    bytesOf s i = some ((s.chan.world.store cs).data id)
  sizes : ∀ k ∈ s.chan.held, (bytesOf s k.index).map List.length = some k.size
  waits : ∀ n (c : Call) cs id, Pending s n c → c.chunk = some (cs, id) → Waits s.chan c cs id
  apart : ∀ n n' (c c' : Call) e, Pending s n c → Pending s n' c' → c.chunk = some e →
    c'.chunk = some e → n = n'

theorem init_inv (B : Broadcast MsgT) (ccId : Nat → MsgId) : Inv (Net.init B ccId) where
  good := init_good B ccId
  calls := by simp [Net.init]
  length := rfl
  origin := by simp [Net.init]
  bytes := by simp [Net.init, Chan.init, Sys.init, chunkAt]
  sizes := by simp [Net.init, Chan.init]
  waits := by simp [Net.init, Pending]
  apart := by simp [Net.init, Pending]

/-! ## Steps that push nothing -/

section Steps
variable {s t : Net B} {e : Option (Nat × Nat)}

/-- The calls are left alone, and the only chunk that changes is one that somebody has. -/
theorem Inv.keep (hi : Inv s) (hg : Good t.chan) (hcalls : t.calls = s.calls)
    (horigin : t.origin = s.origin) (hlog : t.chan.world.que.log = s.chan.world.que.log)
    (hch : Changes s.chan.world.store t.chan.world.store e)
    (hbytes : SameBytes s.chan.world.store t.chan.world.store none)
    (hparty : ∀ i b, parties t.chan i b → parties s.chan i b)
    (he : ∀ c, e = some c → ∃ i b, parties s.chan i b ∧ chunkAt s.chan.world.que i = some c)
    (hcc : ∀ n (c : Call), Pending s n c → c.chunk ≠ none → ∀ b, Conn t.chan.world.que.cc b →
      Conn s.chan.world.que.cc b)
    (hheld : ∀ k ∈ t.chan.held, (bytesOf s k.index).map List.length = some k.size) : Inv t := by
  have hof : bytesOf t = bytesOf s := by
    funext i
    rw [bytesOf, bytesOf, hcalls, horigin]
  have hat : chunkAt t.chan.world.que = chunkAt s.chan.world.que := funext (chunkAt_congr hlog)
  have hpend : ∀ n c, Pending t n c ↔ Pending s n c := by
    intro n c
    rw [Pending, Pending, hcalls]
  refine ⟨hg, by rw [hcalls]; exact hi.calls, by rw [horigin, hlog]; exact hi.length, ?_, ?_,
    by rw [hof]; exact hheld, ?_, ?_⟩
  · rw [horigin, hlog, hcalls]
    exact hi.origin
  · intro i b cs id hp hc
    rw [hat] at hc
    rw [hof, hbytes cs id (by simp)]
    exact hi.bytes i b cs id (hparty i b hp) hc
  · intro n c cs id hp hc
    have hp := (hpend n c).mp hp
    obtain ⟨hm, hmask, hb⟩ := hi.waits n c cs id hp hc
    -- what changes is in use by a party, so it is not the chunk that waits
    have hne : e ≠ some (cs, id) := by
      intro hx
      obtain ⟨i, b, hpar, hat'⟩ := he _ hx
      exact hm.unused i b hpar hat'
    refine ⟨⟨hch.taken hne hm.taken, rfl, fun i b hpar => ?_⟩, fun b hb => ?_, ?_⟩
    · rw [hat]
      exact hm.unused i b (hparty i b hpar)
    · rw [hch.conns hne]
      exact hmask b (hcc n c hp (by rw [hc]; exact Option.some_ne_none _) b hb)
    · rw [hbytes cs id (by simp)]
      exact hb
  · intro n n' c c' x hp hp'
    exact hi.apart n n' c c' x ((hpend n c).mp hp) ((hpend n' c').mp hp')

theorem conn_of_disconnect {q : Sys B} {h : Nat} {b : Fin 32} (hc : Conn (q.disconnect h).cc b) :
    Conn q.cc b := by
  unfold Sys.disconnect at hc
  split at hc
  · rw [Conn, Receivers.disconnect, Lib.Bits.getLsbD_and_not, Bool.and_eq_true] at hc
    exact hc.1
  · exact hc

theorem parties_of_owing {q : Sys B} {i : Nat} {b : Fin 32}
    (ho : Owing q i b → Owing s.chan.world.que i b) (hp : party q s.chan.held i b) :
    parties s.chan i b := hp.imp_left ho

theorem Inv.disconnect (hi : Inv s) (th h : Nat) :
    Inv { s with chan := s.chan.disconnect th h } := by
  obtain ⟨hq, hs, hh⟩ := disconnect_frame s.chan th h
  have hg : Good (s.chan.disconnect th h) :=
    ⟨by rw [hs, hh, hq]; exact hi.good.inv.disconnect (hi.good.calm.own h),
      by rw [hq]; exact hi.good.calm.disconnect h⟩
  refine hi.keep (e := none) hg rfl rfl ?_ ?_ ?_ ?_ (by simp) ?_ ?_ <;> dsimp only
  · rw [hq, disconnect_log]
  · rw [hs]
    exact Changes.refl hi.good.inv.covers.sound none
  · rw [hs]
    exact SameBytes.refl _
  · intro i b hp
    rw [parties, hq, hh] at hp
    exact parties_of_owing Owing.of_disconnect hp
  · intro n c _ _ b hb
    rw [hq] at hb
    exact conn_of_disconnect hb
  · rw [hh]
    exact hi.sizes

/-- A receiver may join while no call has a chunk to push. -/
def Settled (s : Net B) : Prop := ∀ c ∈ s.calls, c.rest ≠ [] → c.sid = none

theorem Inv.reconnect (hi : Inv s) (th h : Nat) (startToRecv : Bool)
    (hset : startToRecv = true → s.chan.connected h = false → Settled s) :
    Inv (s.reconnect th h startToRecv) := by
  obtain ⟨hs, hh, hq⟩ := reconnect_frame s.chan th h startToRecv
  have howing : ∀ i b, Owing (s.chan.reconnect th h startToRecv).world.que i b →
      Owing s.chan.world.que i b := by
    intro i b ho
    rcases hq with ⟨_, _, hq⟩ | ⟨_, hq | hq⟩ <;> rw [hq] at ho
    · exact ho.of_connect hi.good.inv.queue
    · exact ho
    · exact ho.of_disconnect
  refine hi.keep (e := none) (hi.good.reconnect th h startToRecv) rfl rfl ?_ ?_ ?_ ?_
    (by simp) ?_ ?_ <;> dsimp only [Net.reconnect]
  · rcases hq with ⟨_, _, hq⟩ | ⟨_, hq | hq⟩ <;> rw [hq]
    · exact connect_log _ h
    · exact disconnect_log _ h
  · rw [hs]
    exact Changes.refl hi.good.inv.covers.sound none
  · rw [hs]
    exact SameBytes.refl _
  · intro i b hp
    rw [parties, hh] at hp
    exact parties_of_owing (howing i b) hp
  · intro n c hp hc b hb
    rcases hq with ⟨hr, _, hq⟩ | ⟨_, hq | hq⟩ <;> rw [hq] at hb
    · by_cases hconn : s.chan.connected h = true
      · have hconn : connected s.chan.world.que.cc (s.chan.world.que.handle h).connected = true :=
          hconn
        rw [Sys.connect, if_pos hconn] at hb
        exact hb
      · have hnone := hset hr (by simpa using hconn) c (List.mem_of_getElem? hp.1) hp.2
        rw [Call.chunk, hnone] at hc
        exact absurd rfl hc
    · exact hb
    · exact conn_of_disconnect hb
  · rw [hh]
    exact hi.sizes

theorem Inv.drop (hi : Inv s) {n : Nat} (hs : Snapshot s.chan.held n) :
    Inv { s with chan := s.chan.drop n } := by
  have hg : Good (s.chan.drop n) :=
    ⟨inv_drop hi.good.inv hs, by rw [drop_que]; exact hi.good.calm⟩
  cases hk : s.chan.held[n]? with
  | none =>
    have hsame : s.chan.drop n = s.chan := by rw [Chan.drop, hk]
    rw [hsame]
    exact hi
  | some k =>
    have hmem : k ∈ s.chan.held := List.mem_of_getElem? hk
    obtain ⟨⟨b, hb⟩, hid, hc⟩ := hi.good.inv.buffers k hmem
    have hdrop : s.chan.drop n = { s.chan with
        world := { s.chan.world with
          store := recycleStorage s.chan.world.store k.storageId k.size k.currConns k.connId }
        held := s.chan.held.eraseIdx n } := by rw [Chan.drop, hk]
    rw [hdrop] at hg ⊢
    have hch := ((hi.good.inv.taken hmem).recycle hi.good.inv.covers.sound k.currConns
      k.connId).1
    rw [show ((chunk k).2 : Int) = k.storageId from Int.toNat_of_nonneg hid] at hch
    refine hi.keep (e := some (chunk k)) hg rfl rfl rfl hch (recycleStorage_bytes _ _ _ _ _) ?_ ?_
      (fun _ _ _ _ _ hb => hb) fun k' hk' => hi.sizes k' (List.mem_of_mem_eraseIdx hk')
    · rintro i b' (ho | ⟨k', hk', hi', hb'⟩)
      · exact .inl ho
      · exact .inr ⟨k', List.mem_of_mem_eraseIdx hk', hi', hb'⟩
    · rintro c ⟨⟩
      exact ⟨k.index, b, .inr ⟨k, hmem, rfl, hb⟩, hc⟩

/-- A buffer on a chunk comes from a turn that popped the element of its message. -/
theorem recv_held {s : Chan B} {th tm h : Nat} {k : Held} (hk : k ∈ (s.recv th tm h).held) :
    k ∈ s.held ∨ s.connected h = true ∧ ∃ msg last q rc, s.world.que.pop h = some (msg, last, q) ∧
      recvMsg (s.ctx h) (s.cache th) msg = .ret (.storage k.storageId k.size) rc ∧
      k.index = s.world.que.done h ∧ k.connId = (q.handle h).connected := by
  -- the buffers after a turn that looks at `msg`
  have hreceive : ∀ (c : Chan B) (index : Nat) (msg : MsgT),
      k ∈ (c.receive th h index msg).held → k ∈ c.held ∨ ∃ rc,
        recvMsg (c.ctx h) (c.cache th) msg = .ret (.storage k.storageId k.size) rc ∧
        k.index = index ∧ k.connId = (c.world.que.handle h).connected := by
    intro c index msg hk
    unfold Chan.receive at hk
    split at hk
    · exact .inl hk
    · rename_i id size rc hr
      rcases List.mem_append.mp hk with hk | hk
      · exact .inl hk
      · cases List.mem_singleton.mp hk
        exact .inr ⟨rc, hr, rfl, rfl⟩
    · exact .inl hk
  unfold Chan.recv at hk
  split at hk
  · exact .inl hk
  · rename_i hc
    split at hk
    · rename_i msg last q hp
      rcases hreceive _ _ _ hk with hk | ⟨rc, hr, hidx, hcid⟩
      · exact .inl hk
      · exact .inr ⟨by simpa using hc, msg, last, q, rc, hp, hr, hidx, hcid⟩
    · split at hk
      · rcases hreceive _ _ _ hk with hk | ⟨rc, hr, _⟩
        · exact .inl hk
        · have hz := (recvMsg_storage hr).2
          rw [chunkOf_zero] at hz
          cases hz
      · exact .inl hk

theorem parties_recv {s : Chan B} (hg : Good s) {th tm h i : Nat} {b : Fin 32}
    (hp : parties (s.recv th tm h) i b) : parties s i b := by
  have howing : Owing (s.recv th tm h).world.que i b → Owing s.world.que i b := by
    intro ho
    obtain ⟨_, _, ⟨hq, _⟩ | ⟨hc, _, _, q, hpop, hq, _⟩⟩ := recv_frame s th tm h <;> rw [hq] at ho
    · exact ho
    · exact (ho.of_pop hg.inv.queue (hg.calm.own h hc) hpop).1
  rcases hp with ho | ⟨k, hk, hi, hb⟩
  · exact .inl (howing ho)
  · rcases recv_held hk with hk | ⟨hc, msg, last, q, rc, hpop, _, hidx, hcid⟩
    · exact .inr ⟨k, hk, hi, hb⟩
    · -- the receiver has just popped the message
      have hm := hg.calm.own h hc
      have hlog := pop_eq_log hg.inv.queue hm hpop
      obtain ⟨b', hb', ho⟩ := Owing.of_member hg.inv.queue hm (Nat.le_refl _)
        (List.getElem?_eq_some_iff.mp hlog).1
      rw [hcid, (member_of_pop hpop h).2.1, hb'] at hb
      obtain rfl := idOf_inj hb
      rw [← hi, hidx]
      exact .inl ho

theorem Inv.recv (hi : Inv s) (th tm h : Nat) : Inv (s.recv th tm h) := by
  obtain ⟨hs, _, hq⟩ := recv_frame s.chan th tm h
  refine hi.keep (e := none) (hi.good.recv th tm h) rfl rfl ?_ ?_ ?_
    (fun i b hp => parties_recv hi.good hp) (by simp) ?_ ?_ <;> dsimp only [Net.recv]
  · rcases hq with ⟨hq, _⟩ | ⟨_, _, _, q, hpop, hq, _⟩ <;> rw [hq]
    exact pop_log hpop
  · rw [hs]
    exact Changes.refl hi.good.inv.covers.sound none
  · rw [hs]
    exact SameBytes.refl _
  · intro n c _ _ b hb
    rcases hq with ⟨hq, _⟩ | ⟨_, _, _, q, hpop, hq, _⟩ <;> rw [hq] at hb
    · exact hb
    · rw [pop_cc hpop] at hb
      exact hb
  · intro k hk
    rcases recv_held hk with hk | ⟨hc, msg, last, q, rc, hpop, hr, hidx, _⟩
    · exact hi.sizes k hk
    · have hlog := pop_eq_log hi.good.inv.queue (hi.good.calm.own h hc) hpop
      have hlt : s.chan.world.que.done h < s.origin.length := by
        rw [hi.length]
        exact (List.getElem?_eq_some_iff.mp hlog).1
      obtain ⟨c, hcall, hmem⟩ := hi.origin _ _ _ (List.getElem?_eq_getElem hlt) hlog
      have hsize := ((hi.calls _ c hcall).size_of hmem hr).2.2
      rw [bytesOf, hidx, List.getElem?_eq_getElem hlt, Option.bind_some, hcall, hsize]
      rfl

end Steps

/-! ## The start of a call -/

section Start
variable {s : Net B}

/-- What a call has after its checks: no chunk, or one that was free, with its bytes. -/
theorem begun_spec (h : Sender) {w : World (Sys B)} {held : List Held} (data : List Byte)
    (hi : Reclaim.Inv w.que w.store held) :
    Reclaim.Inv w.que (begun (queue B) h w data).2.store held ∧ ∃ e,
      Changes w.store (begun (queue B) h w data).2.store e ∧
      SameBytes w.store (begun (queue B) h w data).2.store e ∧
      (∀ cs id, e = some (cs, id) → id ∈ w.store.free cs) ∧
      ((begun (queue B) h w data).1.map fun id => (calcChunkSize data.length, id)) = e ∧
      ∀ id, (begun (queue B) h w data).1 = some id →
        largeMsgLimit < data.length ∧ id < 2 ^ 31 ∧
        Reserved (begun (queue B) h w data).2.store (chunkAt w.que) (party w.que held)
          (calcChunkSize data.length) id w.que.cc ∧
        ((begun (queue B) h w data).2.store (calcChunkSize data.length)).data id = data := by
  obtain ⟨hq, hs, _⟩ := readySending_que (Q := queue B) h w
  unfold begun takeStorage
  dsimp only
  rw [hq, hs]
  by_cases hl : data.length > largeMsgLimit
  · rw [if_pos hl]
    cases ha : acquireStorage w.store data.length ((queue B).conns w.que) with
    | mk sid st =>
      have hst : SameBytes w.store st none := by
        have := acquireStorage_bytes w.store data.length ((queue B).conns w.que)
        rwa [ha] at this
      cases sid with
      | none =>
        exact ⟨{ hi with covers := hi.covers.acquire_none ha }, none,
          acquireStorage_none_changes hi.covers.sound ha, hst, by simp, rfl, by simp⟩
      | some id =>
        obtain ⟨hcov, hres⟩ := hi.covers.acquire ha data
        obtain ⟨hch, _, _, hfree⟩ := acquireStorage_some_changes hi.covers.sound ha
        obtain ⟨hwrite, hdata⟩ := writeChunk_bytes st id data
        refine ⟨{ hi with covers := hcov }, some (calcChunkSize data.length, id),
          hch.trans (writeChunk_changes hch.sound id data), hst.trans hwrite, ?_, rfl, ?_⟩
        · rintro cs id' ⟨⟩
          exact hfree
        · rintro id' ⟨⟩
          exact ⟨hl, Nat.lt_trans hres.taken.lt (by decide), hres, hdata⟩
  · rw [if_neg hl]
    exact ⟨hi, none, Changes.refl hi.covers.sound none, SameBytes.refl _, by simp, rfl, by simp⟩

/-- The calls that there are keep their numbers. -/
theorem Inv.bytesOf_append (hi : Inv s) {t : Net B} {c : Call} (hcalls : t.calls = s.calls ++ [c])
    (horigin : t.origin = s.origin) : bytesOf t = bytesOf s := by
  funext i
  rw [bytesOf, bytesOf, hcalls, horigin]
  cases ho : s.origin[i]? with
  | none => rfl
  | some n =>
    have hlt := (List.getElem?_eq_some_iff.mp ho).1
    rw [hi.length] at hlt
    obtain ⟨c', hc', _⟩ := hi.origin i n _ ho (List.getElem?_eq_getElem hlt)
    rw [Option.bind_some, Option.bind_some,
      List.getElem?_append_left (List.getElem?_eq_some_iff.mp hc').1]

theorem pending_append {t : Net B} {c c' : Call} {n : Nat} (hcalls : t.calls = s.calls ++ [c])
    (hp : Pending t n c') : Pending s n c' ∨ (n = s.calls.length ∧ c' = c) := by
  rw [Pending, hcalls] at hp
  rcases Lib.Logs.getElem?_snoc_cases hp.1 with h | ⟨hn, hc⟩
  · exact .inl ⟨h, hp.2⟩
  · exact .inr ⟨hn, hc⟩

/-- One more call, with a chunk that was free or with none. -/
theorem Inv.add (hi : Inv s) {t : Net B} {c : Call} {e : Option (Nat × Nat)}
    (hcalls : t.calls = s.calls ++ [c]) (horigin : t.origin = s.origin)
    (hque : t.chan.world.que = s.chan.world.que) (hheld : t.chan.held = s.chan.held)
    (hinv : Reclaim.Inv s.chan.world.que t.chan.world.store s.chan.held)
    (hch : Changes s.chan.world.store t.chan.world.store e)
    (hbytes : SameBytes s.chan.world.store t.chan.world.store e)
    (hfree : ∀ cs id, e = some (cs, id) → id ∈ s.chan.world.store.free cs) (hok : c.Ok)
    (he : c.chunk = e) (hnew : ∀ cs id, e = some (cs, id) →
      Reserved t.chan.world.store (chunkAt s.chan.world.que) (parties s.chan) cs id
        s.chan.world.que.cc ∧ (t.chan.world.store cs).data id = c.sent.bytes) : Inv t := by
  have hof := hi.bytesOf_append hcalls horigin
  have hparties : parties t.chan = parties s.chan := by rw [parties, parties, hque, hheld]
  -- a chunk that waits already is not the new one
  have hold : ∀ n (c' : Call) cs id, Pending s n c' → c'.chunk = some (cs, id) →
      e ≠ some (cs, id) := by
    intro n c' cs id hp hc' hx
    exact (hi.waits n c' cs id hp hc').mine.taken.notFree (hfree cs id hx)
  refine ⟨⟨by rw [hque, hheld]; exact hinv, by rw [hque]; exact hi.good.calm⟩, ?_, ?_, ?_, ?_, ?_,
    ?_, ?_⟩
  · intro n c' hc'
    rw [hcalls] at hc'
    rcases Lib.Logs.getElem?_snoc_cases hc' with h' | ⟨_, rfl⟩
    · exact hi.calls n c' h'
    · exact hok
  · rw [horigin, hque]
    exact hi.length
  · intro i n msg ho hl
    rw [horigin] at ho
    rw [hque] at hl
    obtain ⟨c', hc', hm⟩ := hi.origin i n msg ho hl
    exact ⟨c', by rw [hcalls]; exact Lib.Logs.getElem?_snoc hc', hm⟩
  · intro i b cs id hp hat
    rw [hparties] at hp
    rw [hque] at hat
    have hne : e ≠ some (cs, id) := fun hx =>
      (hi.good.inv.covers.taken hp hat).notFree (hfree cs id hx)
    rw [hof, hbytes cs id hne]
    exact hi.bytes i b cs id hp hat
  · rw [hof, hheld]
    exact hi.sizes
  · intro n c' cs id hp hc'
    rcases pending_append hcalls hp with hp | ⟨_, rfl⟩
    · obtain ⟨hm, hmask, hb⟩ := hi.waits n c' cs id hp hc'
      have hne := hold n c' cs id hp hc'
      refine ⟨⟨hch.taken hne hm.taken, rfl, ?_⟩, ?_, ?_⟩
      · rw [hque, hparties]
        exact hm.unused
      · rw [hque, hch.conns hne]
        exact hmask
      · rw [hbytes cs id hne]
        exact hb
    · obtain ⟨hres, hdata⟩ := hnew cs id (he.symm.trans hc')
      refine ⟨⟨hres.taken, rfl, ?_⟩, ?_, hdata⟩
      · rw [hque, hparties]
        exact hres.unused
      · rw [hque, hres.conns]
        exact fun b hb => hb
  · rintro n n' c₁ c₂ ⟨cs, id⟩ hp₁ hp₂ hx₁ hx₂
    rcases pending_append hcalls hp₁ with hp₁ | ⟨hn₁, rfl⟩ <;>
      rcases pending_append hcalls hp₂ with hp₂ | ⟨hn₂, rfl⟩
    · exact hi.apart n n' c₁ c₂ _ hp₁ hp₂ hx₁ hx₂
    · exact absurd (he.symm.trans hx₂) (hold n c₁ cs id hp₁ hx₁)
    · exact absurd (he.symm.trans hx₁) (hold n' c₂ cs id hp₂ hx₂)
    · rw [hn₁, hn₂]

theorem Inv.start (hi : Inv s) (force : Bool) (tm h : Nat) {data : List Byte}
    (hu : data.length < 2 ^ 31) : Inv (s.start force tm h data) := by
  by_cases hp : Passes (queue B) (s.chan.sender h) s.chan.world data
  · obtain ⟨hinv, e, hch, hbytes, hfree, he, hsome⟩ :=
      begun_spec (s.chan.sender h) data hi.good.inv
    have hque := begun_que (Q := queue B) (s.chan.sender h) s.chan.world data
    rw [Net.start]
    dsimp only
    rw [if_pos hp]
    refine hi.add (c := ⟨h, force, tm, ⟨(s.chan.sender h).ccId, s.chan.world.acc, data⟩, _, _⟩)
      rfl rfl hque rfl hinv hch hbytes hfree ⟨hu, List.suffix_rfl, fun id hs => ?_⟩ he ?_
    · exact ⟨(hsome id hs).1, (hsome id hs).2.1⟩
    · intro cs id hx
      obtain ⟨id', hid, heq⟩ := Option.map_eq_some_iff.mp (he.trans hx)
      cases heq
      exact (hsome id hid).2.2
  · obtain ⟨_, hq, hst⟩ := send_of_not_passes force tm hp
    have hstart : s.start force tm h data = { s with chan := s.chan.send force tm h data } := by
      rw [Net.start]
      dsimp only
      rw [if_neg hp]
    have hque : (s.chan.send force tm h data).world.que = s.chan.world.que := hq
    have hstore : (s.chan.send force tm h data).world.store = s.chan.world.store := hst
    rw [hstart]
    refine hi.keep (e := none) ⟨?_, ?_⟩ rfl rfl ?_ ?_ ?_ ?_ (by simp) ?_ hi.sizes <;> dsimp only
    · rw [hque, hstore]
      exact hi.good.inv
    · rw [hque]
      exact hi.good.calm
    · rw [hque]
    · rw [hstore]
      exact Changes.refl hi.good.inv.covers.sound none
    · rw [hstore]
      exact SameBytes.refl _
    · intro i b hpar
      rw [parties, hque] at hpar
      exact hpar
    · intro n c _ _ b hb
      rwa [hque] at hb

end Start

/-! ## The pushes of a call -/

section Push
variable {s : Net B} {n : Nat} {c : Call} {msg : MsgT}

def shorten (s : Net B) (n : Nat) (c : Call) (rest : List MsgT) : Net B :=
  { s with calls := s.calls.set n (c.left rest) }

theorem shorten_cases {rest : List MsgT} {n' : Nat} {c' : Call} (hc : s.calls[n]? = some c)
    (h : (shorten s n c rest).calls[n']? = some c') :
    (n' = n ∧ c' = c.left rest) ∨ (n' ≠ n ∧ s.calls[n']? = some c') := by
  have hn := (List.getElem?_eq_some_iff.mp hc).1
  by_cases hne : n' = n
  · subst hne
    rw [shorten, List.getElem?_set_self hn] at h
    exact .inl ⟨rfl, (Option.some.inj h).symm⟩
  · rw [shorten, List.getElem?_set_ne (Ne.symm hne)] at h
    exact .inr ⟨hne, h⟩

/-- What there is of a call after one of them has got shorter. -/
theorem shorten_call (rest : List MsgT) {n' : Nat} {c' : Call} (hc : s.calls[n]? = some c)
    (h : s.calls[n']? = some c') : ∃ r, (shorten s n c rest).calls[n']? = some (c'.left r) := by
  have hn := (List.getElem?_eq_some_iff.mp hc).1
  by_cases hne : n' = n
  · subst hne
    rw [hc] at h
    cases h
    exact ⟨rest, List.getElem?_set_self hn⟩
  · exact ⟨c'.rest, by rw [shorten, List.getElem?_set_ne (Ne.symm hne)]; exact h⟩

theorem bytesOf_shorten {rest : List MsgT} (hc : s.calls[n]? = some c) :
    bytesOf (shorten s n c rest) = bytesOf s := by
  funext i
  unfold bytesOf
  congr 1
  funext n'
  cases h : s.calls[n']? with
  | none =>
    have hlen : s.calls.length ≤ n' := List.getElem?_eq_none_iff.mp h
    rw [shorten, List.getElem?_eq_none (by rw [List.length_set]; exact hlen)]
  | some c' =>
    obtain ⟨r, hr⟩ := shorten_call rest hc h
    rw [hr]
    rfl

/-- A call that pushes less than it might has nothing to push that it had not before. -/
theorem Inv.shorten (hi : Inv s) {rest : List MsgT} (hc : s.calls[n]? = some c)
    (hr : rest <:+ c.rest) : Inv (shorten s n c rest) := by
  have hpend : ∀ n' c', Pending (ChunkBytes.shorten s n c rest) n' c' →
      ∃ c'', Pending s n' c'' ∧ c'.chunk = c''.chunk ∧ c'.sent = c''.sent := by
    rintro n' c' ⟨h, hne⟩
    rcases shorten_cases hc h with ⟨rfl, rfl⟩ | ⟨_, h⟩
    · refine ⟨c, ⟨hc, fun h0 => hne ?_⟩, rfl, rfl⟩
      rw [h0, List.suffix_nil] at hr
      exact hr
    · exact ⟨c', ⟨h, hne⟩, rfl, rfl⟩
  refine ⟨hi.good, fun n' c' h => ?_, hi.length, fun i n' m ho hl => ?_,
    by rw [bytesOf_shorten hc]; exact hi.bytes, by rw [bytesOf_shorten hc]; exact hi.sizes,
    fun n' c' cs id hp hx => ?_, fun n₁ n₂ c₁ c₂ e hp₁ hp₂ hx₁ hx₂ => ?_⟩
  · rcases shorten_cases hc h with ⟨rfl, rfl⟩ | ⟨_, h⟩
    · have hok := hi.calls _ c hc
      exact ⟨hok.size, hr.trans hok.rest, hok.large⟩
    · exact hi.calls n' c' h
  · obtain ⟨c', h, hm⟩ := hi.origin i n' m ho hl
    obtain ⟨r, hr⟩ := shorten_call rest hc h
    exact ⟨_, hr, hm⟩
  · obtain ⟨c'', hp, hch, hsent⟩ := hpend n' c' hp
    obtain ⟨hm, hmask, hb⟩ := hi.waits n' c'' cs id hp (hch.symm.trans hx)
    exact ⟨hm, hmask, by rw [hsent]; exact hb⟩
  · obtain ⟨c₁', hp₁, hch₁, _⟩ := hpend n₁ c₁ hp₁
    obtain ⟨c₂', hp₂, hch₂, _⟩ := hpend n₂ c₂ hp₂
    exact hi.apart n₁ n₂ c₁' c₂' e hp₁ hp₂ (hch₁.symm.trans hx₁) (hch₂.symm.trans hx₂)

/-- An element of call `n` goes into the queue. -/
theorem Inv.append (hi : Inv s) {q : Sys B} (hp : s.chan.world.que.push msg = some q)
    (hc : s.calls[n]? = some c) (hm : msg ∈ c.elems)
    (hmine : ∀ cs id, c.chunk = some (cs, id) → Waits s.chan c cs id)
    (hother : ∀ n' c' e, Pending s n' c' → Call.chunk c' = some e → c.chunk ≠ some e) :
    Inv { s with chan := s.chan.setQue q, origin := s.origin ++ [n] } := by
  have hlog := push_log hp
  have hq := hi.good.inv.queue
  have hok := hi.calls n c hc
  have hchunk := hok.chunk_eq hm
  have hcc : q.cc = s.chan.world.que.cc := by
    obtain ⟨_, _, rfl⟩ := Option.map_eq_some_iff.mp hp
    rfl
  have howing : ∀ i b, Owing q i b → (i < s.chan.world.que.log.length ∧
      Owing s.chan.world.que i b) ∨ (i = s.chan.world.que.log.length ∧
      Conn s.chan.world.que.cc b) := by
    intro i b ho
    rcases ho.of_push hq hp with ⟨ho, hlt⟩ | h
    · exact .inl ⟨hlt, ho⟩
    · exact .inr h
  have hparty : ∀ i b, party q s.chan.held i b → (i < s.chan.world.que.log.length ∧
      parties s.chan i b) ∨ (i = s.chan.world.que.log.length ∧ Conn s.chan.world.que.cc b) := by
    rintro i b (ho | ⟨k, hk, rfl, hb⟩)
    · exact (howing i b ho).imp_left fun h => ⟨h.1, .inl h.2⟩
    · exact .inl ⟨hi.good.inv.lt hk, .inr ⟨k, hk, rfl, hb⟩⟩
  have hcov : Covers s.chan.world.store (chunkAt q) (party q s.chan.held) := by
    have hall : ∀ cc, Ready s.chan.world.store (chunkAt s.chan.world.que) (parties s.chan) cc msg →
        (∀ b, Conn s.chan.world.que.cc b → Conn cc b) →
        Covers s.chan.world.store (chunkAt q) (party q s.chan.held) := by
      intro cc hready hsub
      refine covers_append hi.good.inv.covers hready hlog (fun i b h => ?_) fun b h => ?_
      · exact (hparty i b h).symm.imp_left (·.1)
      · rcases hparty _ b h with ⟨hlt, _⟩ | ⟨_, hb⟩
        · omega
        · exact hsub b hb
    cases hx : c.chunk with
    | none => exact hall _ (.inl (hchunk.trans hx)) fun _ h => h
    | some e =>
      obtain ⟨cs, id⟩ := e
      have hw := hmine cs id hx
      exact hall _ (.inr ⟨cs, id, hchunk.trans hx, hw.mine⟩) hw.mask
  have hinv : Reclaim.Inv q s.chan.world.store s.chan.held :=
    hi.good.inv.append (hq.push hp fun _ _ _ => hi.good.calm.current _) hlog
      (fun i b ho hlt => by
        rcases howing i b ho with h | ⟨rfl, _⟩
        · exact h.2
        · omega) hcov
  have hlen : s.origin.length = s.chan.world.que.log.length := hi.length
  have hold : ∀ i, i < s.chan.world.que.log.length →
      bytesOf { s with chan := s.chan.setQue q, origin := s.origin ++ [n] } i = bytesOf s i := by
    intro i hlt
    simp only [bytesOf]
    rw [List.getElem?_append_left (by rw [hlen]; exact hlt)]
  refine ⟨⟨hinv, hi.good.calm.push hp⟩, hi.calls, ?_, fun i n' m ho hl => ?_,
    fun i b cs id hpar hat => ?_, fun k hk => ?_, fun n' c' cs id hpn hx => ?_, hi.apart⟩
  · simp [Chan.setQue, hlog, hlen]
  · simp only [Chan.setQue, hlog] at hl
    rcases Lib.Logs.getElem?_snoc_cases ho with ho | ⟨he, rfl⟩
    · rcases Lib.Logs.getElem?_snoc_cases hl with hl | ⟨he, _⟩
      · exact hi.origin i n' m ho hl
      · have := (List.getElem?_eq_some_iff.mp ho).1
        omega
    · rcases Lib.Logs.getElem?_snoc_cases hl with hl | ⟨_, rfl⟩
      · have := (List.getElem?_eq_some_iff.mp hl).1
        omega
      · exact ⟨c, hc, hm⟩
  · rcases hparty i b hpar with ⟨hlt, hpar⟩ | ⟨rfl, _⟩
    · rw [hold i hlt]
      exact hi.bytes i b cs id hpar ((chunkAt_append hlog hlt).symm.trans hat)
    · have hx : c.chunk = some (cs, id) := by
        rw [← hchunk, ← hat]
        exact (chunkAt_last hlog).symm
      have hb := (hmine cs id hx).bytes
      simp only [bytesOf, Chan.setQue]
      rw [← hlen, List.getElem?_concat_length, Option.bind_some, hc, Option.map_some, hb]
  · rw [hold _ (hi.good.inv.lt hk)]
    exact hi.sizes k hk
  · obtain ⟨hmn, hmask, hb⟩ := hi.waits n' c' cs id hpn hx
    refine ⟨⟨hmn.taken, rfl, fun i b hpar => ?_⟩, ?_, hb⟩
    · rcases hparty i b hpar with ⟨hlt, hpar⟩ | ⟨rfl, _⟩ <;> dsimp only [Chan.setQue]
      · rw [chunkAt_append hlog hlt]
        exact hmn.unused i b hpar
      · rw [chunkAt_last hlog, hchunk]
        exact hother n' c' _ hpn hx
    · simp only [Chan.setQue, hcc]
      exact hmask

/-- All that a push can do which is not forced: nothing, the next element is in the queue, or
it was refused and the call gives up, or goes on as if it had not been. -/
theorem push_cases (hf : ∀ c, s.calls[n]? = some c → ∀ msg ∈ c.rest.head?,
    ¬ Forces (queue B) c.force c.tm (s.chan.sender c.handle) s.chan.world msg) :
    s.push n = s ∨ ∃ c msg rest, s.calls[n]? = some c ∧ c.rest = msg :: rest ∧
      ((∃ q, s.chan.world.que.push msg = some q ∧ s.push n = { shorten s n c rest with
          chan := s.chan.setQue q, origin := s.origin ++ [n] }) ∨
        (s.chan.world.que.push msg = none ∧
          (s.push n = shorten s n c [] ∨
            (c.tm ≠ 0 ∧ (s.chan.sender c.handle).quit = true) ∧ s.push n = shorten s n c rest))) := by
  unfold Net.push
  split
  · exact .inl rfl
  · rename_i c hc
    split
    · exact .inl rfl
    · rename_i msg rest hr
      have hf := hf c hc msg (by rw [hr]; rfl)
      refine .inr ⟨c, msg, rest, hc, hr, ?_⟩
      unfold tryPush
      cases hp : (queue B).push s.chan.world.que msg with
      | some q =>
        have hlog : q.log.length - s.chan.world.que.log.length = 1 := by
          rw [push_log hp, List.length_append, List.length_singleton]
          omega
        refine .inl ⟨q, hp, ?_⟩
        simp only [hlog, List.replicate_one, if_true]
        rfl
      | none =>
        refine .inr ⟨hp, ?_⟩
        by_cases hq : c.tm ≠ 0 ∧ (s.chan.sender c.handle).quit = true
        · refine .inr ⟨hq, ?_⟩
          simp only [if_pos hq, Nat.sub_self, List.replicate_zero, List.append_nil, if_true]
          rfl
        · have hforce : c.force = false := by
            by_contra hforce
            exact hf ⟨by simpa using hforce, hp, hq⟩
          left
          simp only [if_neg hq, hforce, Nat.sub_self, List.replicate_zero, List.append_nil,
            Bool.false_eq_true, if_false]
          rfl

theorem Inv.push (hi : Inv s) (hf : ∀ c, s.calls[n]? = some c → ∀ msg ∈ c.rest.head?,
    ¬ Forces (queue B) c.force c.tm (s.chan.sender c.handle) s.chan.world msg) :
    Inv (s.push n) := by
  rcases push_cases hf with he | ⟨c, msg, rest, hc, hr, ⟨q, hp, he⟩ | ⟨_, he | ⟨_, he⟩⟩⟩ <;> rw [he]
  · exact hi
  · have hok := hi.calls n c hc
    have hmem : msg ∈ c.elems := hok.rest.subset (by rw [hr]; exact List.mem_cons_self)
    have hpend : Pending s n c := ⟨hc, by rw [hr]; exact List.cons_ne_nil _ _⟩
    have hn := (List.getElem?_eq_some_iff.mp hc).1
    refine (hi.shorten hc (by rw [hr]; exact List.suffix_cons msg rest)).append (c := c.left rest) hp
      (List.getElem?_set_self hn) hmem (fun cs id hx => ?_) fun n' c' e hpn hx hx' => ?_
    · obtain ⟨hm, hmask, hb⟩ := hi.waits n c cs id hpend hx
      exact ⟨hm, hmask, hb⟩
    · obtain ⟨hcall, hne⟩ := hpn
      rcases shorten_cases hc hcall with ⟨rfl, rfl⟩ | ⟨hne', hcall⟩
      · -- a large message is one element
        obtain ⟨sid, hsid, _⟩ := Option.map_eq_some_iff.mp hx
        have hlen := hok.rest.length_le
        rw [hok.elems_large hsid, hr, List.length_singleton, List.length_cons] at hlen
        exact hne (List.length_eq_zero_iff.mp (by change rest.length = 0; omega))
      · exact hne' (hi.apart n' n c' c e ⟨hcall, hne⟩ hpend hx hx')
  · exact hi.shorten hc List.nil_suffix
  · exact hi.shorten hc (by rw [hr]; exact List.suffix_cons msg rest)

end Push

/-! ## Runs -/

/-- No receiver joins between the taking of a chunk and its push, a message has fewer than
`2 ^ 31` bytes, no push is forced, and a buffer is dropped with a snapshot of all who hold
one on the same chunk. -/
def Careful (s : Net B) : Act → Prop
  | .reconnect _ h startToRecv => startToRecv = true → s.chan.connected h = false → Settled s
  | .start _ _ _ data => data.length < 2 ^ 31
  | .push n => ∀ c ∈ s.calls[n]?, ∀ msg ∈ c.rest.head?,
    ¬ Forces (queue B) c.force c.tm (s.chan.sender c.handle) s.chan.world msg
  | .drop n => Snapshot s.chan.held n
  | .disconnect _ _ | .recv _ _ _ => True

theorem step_inv {s t : Net B} {a : Act} (hi : Inv s) (hc : Careful s a) (h : step s a = some t) :
    Inv t := by
  cases a with
  | reconnect th h' startToRecv => cases h; exact hi.reconnect th h' startToRecv hc
  | disconnect th h' => cases h; exact hi.disconnect th h'
  | start force tm h' data => cases h; exact hi.start force tm h' hc
  | push n => cases h; exact hi.push hc
  | recv th tm h' => cases h; exact hi.recv th tm h'
  | drop n => cases h; exact hi.drop hc

structure Intact (s : Net B) : Prop where
  /-- Whoever has yet to pop a large message or holds a buffer on it finds its bytes. -/
  bytes : ∀ i b cs id, parties s.chan i b → chunkAt s.chan.world.que i = some (cs, id) →
    id ∉ s.chan.world.store.free cs ∧ bytesOf s i = some ((s.chan.world.store cs).data id)
  /-- A buffer that is held shows the bytes that `send` was given, all of them. -/
  held : ∀ k ∈ s.chan.held, (chunk k).2 ∉ s.chan.world.store.free (chunk k).1 ∧
    ((s.chan.world.store (chunk k).1).data (chunk k).2).length = k.size ∧
    bytesOf s k.index = some ((s.chan.world.store (chunk k).1).data (chunk k).2)

theorem Inv.intact {s : Net B} (hi : Inv s) : Intact s := by
  have hbytes : ∀ i b cs id, parties s.chan i b → chunkAt s.chan.world.que i = some (cs, id) →
      id ∉ s.chan.world.store.free cs ∧
      bytesOf s i = some ((s.chan.world.store cs).data id) := fun i b cs id hp hc =>
    ⟨(hi.good.inv.covers.taken hp hc).notFree, hi.bytes i b cs id hp hc⟩
  refine ⟨hbytes, fun k hk => ?_⟩
  obtain ⟨⟨b, hb⟩, _, hc⟩ := hi.good.inv.buffers k hk
  obtain ⟨hfree, hof⟩ := hbytes _ b _ _ (.inr ⟨k, hk, rfl, hb⟩) hc
  have hsize := hi.sizes k hk
  rw [hof] at hsize
  exact ⟨hfree, Option.some.inj hsize, hof⟩

/-- Both policies, any interleaving of pushes, receives and drops whose steps are careful:
no join between the taking of a chunk and its push, no message of `2 ^ 31` bytes, no forced
push, whole snapshots. -/
theorem intact_of_run (rp : Relat) (ccId : Nat → MsgId) {acts : List Act} {s : Net (policy rp)}
    (hr : run step (Net.init (policy rp) ccId) acts = some s)
    (hc : Meets step Careful (Net.init (policy rp) ccId) acts) : Intact s :=
  Inv.intact (Lib.Runs.run_invariant (fun _ _ _ hi hc h => step_inv hi hc h) (init_inv _ ccId) hr hc)

instance Careful.decidable (s : Net B) : (a : Act) → Decidable (Careful s a)
  | .reconnect _ h startToRecv =>
    inferInstanceAs (Decidable (startToRecv = true → s.chan.connected h = false →
      ∀ c ∈ s.calls, c.rest ≠ [] → c.sid = none))
  | .start _ _ _ data => inferInstanceAs (Decidable (data.length < 2 ^ 31))
  | .push n => inferInstanceAs (Decidable (∀ c ∈ s.calls[n]?, ∀ msg ∈ c.rest.head?,
    ¬ (c.force = true ∧ (queue B).push s.chan.world.que msg = none ∧
      ¬ (c.tm ≠ 0 ∧ (s.chan.sender c.handle).quit = true))))
  | .drop n => inferInstanceAs (Decidable (∀ k ∈ s.chan.held[n]?, ∀ k' ∈ s.chan.held.eraseIdx n,
    k'.index = k.index → connected k.currConns k'.connId = true))
  | .disconnect _ _ | .recv _ _ _ => isTrue trivial

def large (x : Byte) : List Byte := List.replicate 65 x

/-- Two large messages at once, the second pushed first; handle 0 has dropped its buffer on
it and handle 1 holds both. -/
def crossed : List Act :=
  [.reconnect 0 0 true, .reconnect 1 1 true, .start false 0 2 (large 1), .start true 0 3 (large 2),
    .push 1, .push 0, .recv 0 0 0, .recv 1 0 1, .drop 0, .recv 1 0 1]

theorem intact_crossed : ∃ s : Net (policy .multi),
    run step (Net.init _ handleIds) crossed = some s ∧ s.chan.held.length = 2 ∧ Intact s := by
  have hr : run step (Net.init (policy .multi) handleIds) crossed = some _ := rfl
  exact ⟨_, hr, by decide +kernel, intact_of_run .multi handleIds hr (by decide +kernel)⟩

/-- Handle 1 joins between the taking of the chunk and the push. Its bit is not in the mask,
so handle 0 gives the chunk back, and the next message is written into the buffer. -/
def joined : List Act :=
  [.reconnect 0 0 true, .start false 0 2 (large 1), .reconnect 1 1 true, .push 0, .recv 0 0 0,
    .drop 0, .recv 1 0 1, .start false 0 2 (large 2)]

theorem not_intact_joined : ∃ s : Net (policy .multi),
    run step (Net.init _ handleIds) joined = some s ∧
      ∃ k ∈ s.chan.held, bytesOf s k.index = some (large 1) ∧
        (s.chan.world.store (chunk k).1).data (chunk k).2 = large 2 :=
  ⟨_, rfl, by decide +kernel⟩

end CppIpc.ChunkBytes
