import CppIpc.Debts
import CppIpc.Ipc
import CppIpc.Ledger

/-! # Chunks and the receivers that need them

The invariant of a channel in use: who has yet to pop a large message or holds a buffer
on it has a bit in the mask of its chunk, and the snapshot of the connections in a
buffer has the bits of all who have yet to pop. -/
namespace CppIpc.Reclaim
open CppIpc.Def CppIpc.Message CppIpc.ReadCounter CppIpc.Storage CppIpc.Send
open CppIpc.ProdCons CppIpc.Receivers CppIpc.Debts CppIpc.Ledger CppIpc.Ipc
open CppIpc.Lib.Window (slot)

variable {B : Broadcast MsgT}

/-- The chunk of message `i`. -/
def chunkAt (q : Sys B) (i : Nat) : Option (Nat × Nat) := q.log[i]?.bind chunkOf

/-- The receiver with bit `b` has yet to pop message `i` or holds a buffer on it. -/
def party (q : Sys B) (held : List Held) (i : Nat) (b : Fin 32) : Prop :=
  Owing q i b ∨ ∃ k ∈ held, k.index = i ∧ k.connId = idOf b

/-- The chunk that a buffer is on. -/
def chunk (k : Held) : Nat × Nat := (calcChunkSize k.size, k.storageId.toNat)

structure Inv (q : Sys B) (st : Storages) (held : List Held) : Prop where
  queue : Receivers.Inv q
  covers : Covers st (chunkAt q) (party q held)
  buffers : ∀ k ∈ held, (∃ b, k.connId = idOf b) ∧ 0 ≤ k.storageId ∧
    chunkAt q k.index = some (chunk k)
  distinct : held.Pairwise fun k k' => k.index = k'.index → k.connId ≠ k'.connId
  unread : ∀ k ∈ held, ∀ b, Owing q k.index b →
    k.connId ≠ idOf b ∧ k.currConns.getLsbD b = true

section Log
variable {q t : Sys B} {i : Nat} {msg : MsgT} {c : Nat × Nat}

theorem chunkAt_lt (h : chunkAt q i = some c) : i < q.log.length := by
  obtain ⟨_, hv, _⟩ := Option.bind_eq_some_iff.mp h
  exact (List.getElem?_eq_some_iff.mp hv).1

theorem chunkAt_of_log (h : q.log[i]? = some msg) : chunkAt q i = chunkOf msg := by
  rw [chunkAt, h, Option.bind_some]

theorem chunkAt_congr (h : t.log = q.log) (i : Nat) : chunkAt t i = chunkAt q i := by
  rw [chunkAt, chunkAt, h]

theorem chunkAt_append (h : t.log = q.log ++ [msg]) (hlt : i < q.log.length) :
    chunkAt t i = chunkAt q i := by
  rw [chunkAt, chunkAt, h, List.getElem?_append_left hlt]

theorem chunkAt_last (h : t.log = q.log ++ [msg]) : chunkAt t q.log.length = chunkOf msg :=
  chunkAt_of_log (by rw [h]; simp)

theorem conn_of_owing (hi : Receivers.Inv q) {b : Fin 32} (ho : Owing q i b) : Conn q.cc b := by
  obtain ⟨h, hm, hb, _⟩ := ho
  obtain ⟨b', hb', hc⟩ := hi.ids h hm
  exact idOf_inj (hb'.symm.trans hb) ▸ hc

end Log

/-! ## Steps that write no message -/

section Steps
variable {q t : Sys B} {st : Storages} {held : List Held} {h : Nat} {msg : MsgT} {last : Bool}

theorem Inv.lt (hi : Inv q st held) {k : Held} (hk : k ∈ held) : k.index < q.log.length :=
  chunkAt_lt (hi.buffers k hk).2.2

/-- Receivers may come and go. -/
theorem Inv.mono (hi : Inv q st held) (ht : Receivers.Inv t) (hlog : t.log = q.log)
    (hsub : ∀ i b, Owing t i b → Owing q i b) : Inv t st held := by
  refine ⟨ht, hi.covers.mono fun i b c hp hc => ⟨hp.imp_left (hsub i b), ?_⟩, fun k hk => ?_,
    hi.distinct, fun k hk b ho => hi.unread k hk b (hsub _ b ho)⟩
  · rw [← chunkAt_congr hlog]
    exact hc
  · rw [chunkAt_congr hlog]
    exact hi.buffers k hk

theorem Inv.connect (hi : Inv q st held) (h : Nat) : Inv (q.connect h) st held :=
  hi.mono (hi.queue.connect h) (connect_log q h) fun _ _ ho => ho.of_connect hi.queue

theorem Inv.disconnect (hi : Inv q st held)
    (hown : connected q.cc (q.handle h).connected = true → q.member h) :
    Inv (q.disconnect h) st held :=
  hi.mono (hi.queue.disconnect hown) (disconnect_log q h) fun _ _ ho => ho.of_disconnect

/-- A message is popped and nothing is kept of it. -/
theorem Inv.skip (hi : Inv q st held) (hm : q.member h) (hp : q.pop h = some (msg, last, t)) :
    Inv t st held :=
  hi.mono (hi.queue.pop hp fun _ => hm) (pop_log hp) fun _ _ ho => (ho.of_pop hi.queue hm hp).1

/-- A large message is popped and its buffer kept. -/
theorem Inv.hold (hi : Inv q st held) (hm : q.member h) (hp : q.pop h = some (msg, last, t))
    {id : Int} {size : Nat} (hid : 0 ≤ id)
    (hc : chunkOf msg = some (calcChunkSize size, id.toNat)) :
    Inv t st (held ++ [⟨q.done h, id, size, t.cc, (t.handle h).connected⟩]) := by
  have hlog := pop_eq_log hi.queue hm hp
  have hlt : q.done h < q.log.length := (List.getElem?_eq_some_iff.mp hlog).1
  have hconn : (t.handle h).connected = (q.handle h).connected := (member_of_pop hp h).2.1
  obtain ⟨b, hb, howing⟩ := Owing.of_member hi.queue hm (Nat.le_refl _) hlt
  have hskip := hi.skip hm hp
  rw [hconn, hb]
  refine ⟨hskip.queue, hi.covers.mono fun i b' c hparty hchunk => ?_, fun k hk => ?_, ?_,
    fun k hk b' ho => ?_⟩
  · refine ⟨?_, by rw [← chunkAt_congr (pop_log hp)]; exact hchunk⟩
    rcases hparty with ho | ⟨k, hk, hi', hcb⟩
    · exact .inl (ho.of_pop hi.queue hm hp).1
    · rcases List.mem_append.mp hk with hk | hk
      · exact .inr ⟨k, hk, hi', hcb⟩
      · cases List.mem_singleton.mp hk
        obtain rfl := idOf_inj hcb
        subst hi'
        exact .inl howing
  · rcases List.mem_append.mp hk with hk | hk
    · exact hskip.buffers k hk
    · cases List.mem_singleton.mp hk
      refine ⟨⟨b, rfl⟩, hid, ?_⟩
      rw [chunkAt_congr (pop_log hp), chunkAt_of_log hlog]
      exact hc
  · refine List.pairwise_append.mpr ⟨hi.distinct, List.pairwise_singleton _ _, ?_⟩
    intro k hk k' hk' he
    cases List.mem_singleton.mp hk'
    exact (hi.unread k hk b (by rw [he]; exact howing)).1
  · rcases List.mem_append.mp hk with hk | hk
    · exact hskip.unread k hk b' ho
    · cases List.mem_singleton.mp hk
      obtain ⟨_, hne⟩ := ho.of_pop hi.queue hm hp
      rw [hb] at hne
      exact ⟨hne rfl, conn_of_owing hskip.queue ho⟩

/-- The other buffers on the chunk are in the snapshot of the one that is dropped. -/
def Snapshot (held : List Held) (n : Nat) : Prop := ∀ k ∈ held[n]?,
  ∀ k' ∈ held.eraseIdx n, k'.index = k.index → connected k.currConns k'.connId = true

/-- Who needs what without buffer `n`. -/
theorem Inv.dropped (hi : Inv q st held) {n : Nat} {k : Held} {b : Fin 32}
    (hk : held[n]? = some k) (hb : k.connId = idOf b) (hs : Snapshot held n) :
    (∀ j b', party q (held.eraseIdx n) j b' → party q held j b') ∧
    ¬ party q (held.eraseIdx n) k.index b ∧
    (∀ j b', party q held j b' → (j = k.index → b' ≠ b) → party q (held.eraseIdx n) j b') ∧
    ∀ b', party q (held.eraseIdx n) k.index b' → k.currConns.getLsbD b' = true := by
  have hmem : k ∈ held := List.mem_of_getElem? hk
  obtain ⟨hn, hkn⟩ := List.getElem?_eq_some_iff.mp hk
  refine ⟨?_, ?_, ?_, ?_⟩
  · rintro j b' (ho | ⟨k', hk', hj, hb'⟩)
    · exact .inl ho
    · exact .inr ⟨k', List.mem_of_mem_eraseIdx hk', hj, hb'⟩
  · rintro (ho | ⟨k', hk', hj, hb'⟩)
    · exact (hi.unread k hmem b ho).1 hb
    · -- another buffer of the same receiver on the same message
      obtain ⟨j, hjl, hne, rfl⟩ := List.mem_eraseIdx_iff_getElem.mp hk'
      subst hkn
      rcases Nat.lt_or_gt_of_ne hne with hlt | hlt
      · exact List.pairwise_iff_getElem.mp hi.distinct j n hjl hn hlt hj (hb'.trans hb.symm)
      · exact List.pairwise_iff_getElem.mp hi.distinct n j hn hjl hlt hj.symm (hb.trans hb'.symm)
  · rintro j b' (ho | ⟨k', hk', hj, hb'⟩) hne
    · exact .inl ho
    · refine .inr ⟨k', List.mem_eraseIdx_iff_getElem.mpr ?_, hj, hb'⟩
      obtain ⟨m, hm, rfl⟩ := List.getElem_of_mem hk'
      refine ⟨m, hm, ?_, rfl⟩
      rintro rfl
      rw [hkn] at hj hb'
      exact hne hj.symm (idOf_inj (hb'.symm.trans hb))
  · rintro b' (ho | ⟨k', hk', hj, hb'⟩)
    · exact (hi.unread k hmem b' ho).2
    · have := hs k hk k' hk' hj
      rw [hb', connected_idOf] at this
      exact this

theorem Inv.drop (hi : Inv q st held) {n : Nat} {k : Held} (hk : held[n]? = some k)
    (hs : Snapshot held n) :
    Inv q (recycleStorage st k.storageId k.size k.currConns k.connId) (held.eraseIdx n) := by
  have hmem : k ∈ held := List.mem_of_getElem? hk
  have hsub : ∀ k' ∈ held.eraseIdx n, k' ∈ held := fun k' hk' => List.mem_of_mem_eraseIdx hk'
  obtain ⟨⟨b, hb⟩, hid, hc⟩ := hi.buffers k hmem
  obtain ⟨hparty, hself, _, hcurr⟩ := hi.dropped hk hb hs
  refine ⟨hi.queue, ?_, fun k' hk' => hi.buffers k' (hsub k' hk'),
    hi.distinct.sublist (List.eraseIdx_sublist held n), fun k' hk' => hi.unread k' (hsub k' hk')⟩
  rw [hb, ← Int.toNat_of_nonneg hid]
  exact hi.covers.recycle (.inr ⟨k, hmem, rfl, hb⟩) hc hparty hself hcurr

end Steps

/-! ## Pushes -/

section Pushes
variable {q t : Sys B} {st : Storages} {held : List Held} {msg : MsgT} {cc : CC}
  {party₀ : Nat → Fin 32 → Prop}

/-- A queue element refers to no chunk, or to one acquired for it. -/
def Ready (st : Storages) (chunk : Nat → Option (Nat × Nat)) (party : Nat → Fin 32 → Prop)
    (cc : CC) (msg : MsgT) : Prop :=
  chunkOf msg = none ∨ ∃ cs id, chunkOf msg = some (cs, id) ∧ Reserved st chunk party cs id cc

/-- A message is written: its parties are connected, the others had it before. -/
theorem covers_append (hc : Covers st (chunkAt q) party₀)
    (hready : Ready st (chunkAt q) party₀ cc msg) (hlog : t.log = q.log ++ [msg])
    (hold : ∀ i b, party t held i b → i = q.log.length ∨ (i < q.log.length ∧ party₀ i b))
    (hnew : ∀ b, party t held q.log.length b → Conn cc b) :
    Covers st (chunkAt t) (party t held) := by
  have hprev : ∀ i b c, i ≠ q.log.length → party t held i b → chunkAt t i = some c →
      party₀ i b ∧ chunkAt q i = some c := by
    intro i b c hne hp hi
    obtain ⟨hlt, hp⟩ := (hold i b hp).resolve_left hne
    exact ⟨hp, by rw [← chunkAt_append hlog hlt]; exact hi⟩
  rcases hready with hnone | ⟨cs, id, hsome, hres⟩
  · refine hc.mono fun i b c hp hi => hprev i b c ?_ hp hi
    rintro rfl
    rw [chunkAt_last hlog, hnone] at hi
    cases hi
  · exact hc.add hres (by rw [chunkAt_last hlog, hsome]) hnew hprev

/-- The rest of the invariant after a message is written. -/
theorem Inv.append {st' : Storages} (hi : Inv q st held) (ht : Receivers.Inv t)
    (hlog : t.log = q.log ++ [msg])
    (howing : ∀ i b, Owing t i b → i < q.log.length → Owing q i b)
    (hcov : Covers st' (chunkAt t) (party t held)) : Inv t st' held := by
  refine ⟨ht, hcov, fun k hk => ?_, hi.distinct, fun k hk b ho => ?_⟩
  · rw [chunkAt_append hlog (hi.lt hk)]
    exact hi.buffers k hk
  · exact hi.unread k hk b (howing _ b ho (hi.lt hk))

theorem Inv.push (hi : Inv q st held) (hp : q.push msg = some t)
    (hlap : ∀ h, q.member h → q.log.length = q.done h + 256 →
      B.current q.que (slot 8 q.log.length))
    (hready : Ready st (chunkAt q) (party q held) q.cc msg) : Inv t st held := by
  have hlog := push_log hp
  refine hi.append (hi.queue.push hp hlap) hlog (fun i b ho hlt => ?_)
    (covers_append hi.covers hready hlog ?_ ?_)
  · rcases ho.of_push hi.queue hp with ⟨ho, _⟩ | ⟨rfl, _⟩
    · exact ho
    · omega
  · rintro i b (ho | ⟨k, hk, rfl, hb⟩)
    · rcases ho.of_push hi.queue hp with ⟨ho, hlt⟩ | ⟨he, _⟩
      · exact .inr ⟨hlt, .inl ho⟩
      · exact .inl he
    · exact .inr ⟨hi.lt hk, .inr ⟨k, hk, rfl, hb⟩⟩
  · rintro b (ho | ⟨k, hk, he, _⟩)
    · rcases ho.of_push hi.queue hp with ⟨_, hlt⟩ | ⟨_, hc⟩
      · omega
      · exact hc
    · have := hi.lt hk
      omega

theorem Inv.force_none (hi : Inv q st held) (hp : q.forcePush msg = (t, none)) :
    Inv t st held := by
  have ht : Receivers.Inv t := by
    have := hi.queue.forcePush (x := msg)
    rw [hp] at this
    exact this
  exact hi.mono ht (forcePush_none_log hp) fun _ _ ho => ho.of_forcePush_none hp

/-- The chunk of the message that a forced push overwrites is in use, and by no buffer
of another message. -/
theorem Inv.overwritten (hi : Inv q st held) {old : MsgT} {i cs id : Nat} {b : Fin 32}
    (hp : q.forcePush msg = (t, some old)) (hlap : i + 256 = q.log.length) (ho : Owing q i b)
    (hc : chunkOf old = some (cs, id)) :
    Taken st cs id ∧ ∀ k ∈ held, chunk k = (cs, id) → k.index = i := by
  have hchunk : chunkAt q i = some (cs, id) := by
    rw [chunkAt_of_log (forcePush_old hi.queue hp hlap), hc]
  refine ⟨hi.covers.taken (.inl ho) hchunk, fun k hk he => ?_⟩
  obtain ⟨⟨b', hb'⟩, _, hck⟩ := hi.buffers k hk
  rw [he] at hck
  exact hi.covers.apart (.inr ⟨k, hk, rfl, hb'⟩) (.inl ho) hck hchunk

/-- A forced push over a message that somebody has yet to pop and nobody holds. -/
theorem Inv.force (hi : Inv q st held) {old : MsgT} {i : Nat} {b : Fin 32}
    (hp : q.forcePush msg = (t, some old)) (hlap : i + 256 = q.log.length) (ho : Owing q i b)
    (hheld : ∀ k ∈ held, k.index ≠ i)
    (hready : Ready st (chunkAt q) (party q held) q.cc msg) :
    Inv t (clearMessage st old) held := by
  have ht : Receivers.Inv t := by
    have := hi.queue.forcePush (x := msg)
    rw [hp] at this
    exact this
  have hlog := forcePush_some_log hp
  have hchunk := chunkAt_of_log (forcePush_old hi.queue hp hlap)
  -- whoever is left after the push needs another message
  have hleft : ∀ j b', party t held j b' →
      j = q.log.length ∨ (j < q.log.length ∧ party q held j b' ∧ j ≠ i) := by
    rintro j b' (ho' | ⟨k, hk, rfl, hb'⟩)
    · rcases ho'.of_forcePush hi.queue hp with ⟨ho', hlt, hne⟩ | ⟨he, _⟩
      · exact .inr ⟨hlt, .inl ho', by omega⟩
      · exact .inl he
    · exact .inr ⟨hi.lt hk, .inr ⟨k, hk, rfl, hb'⟩, hheld k hk⟩
  have hnew : ∀ b', party t held q.log.length b' → Conn q.cc b' := by
    rintro b' (ho' | ⟨k, hk, he, _⟩)
    · rcases ho'.of_forcePush hi.queue hp with ⟨_, hlt, _⟩ | ⟨_, hc⟩
      · omega
      · exact hc
    · have := hi.lt hk
      omega
  refine hi.append ht hlog (fun j b' ho' hlt => ?_) ?_
  · rcases ho'.of_forcePush hi.queue hp with ⟨ho', _⟩ | ⟨rfl, _⟩
    · exact ho'
    · omega
  · rcases clearMessage_eq st old with ⟨_, hst⟩ | ⟨size, id, hc, hst⟩
    · rw [hst]
      exact covers_append hi.covers hready hlog
        (fun j b' hp' => (hleft j b' hp').imp_right fun h => ⟨h.1, h.2.1⟩) hnew
    · rw [hst]
      rw [hc] at hchunk
      have hrel : Covers (releaseStorage st id size) (chunkAt q)
          (fun j b' => party q held j b' ∧ j ≠ i) ∧ _ :=
        hi.covers.release (.inl ho) hchunk (fun _ _ h => h.1) (fun _ h => h.2 rfl)
      obtain ⟨hcov, hch⟩ := hrel
      refine covers_append hcov ?_ hlog hleft hnew
      rcases hready with hnone | ⟨cs', id', hsome, hres⟩
      · exact .inl hnone
      · have hne : some (calcChunkSize size, id) ≠ some (cs', id') := fun he =>
          hres.unused i b (.inl ho) (hchunk.trans he)
        exact .inr ⟨cs', id', hsome, hch.taken hne hres.taken,
          by rw [hch.conns hne, hres.conns], fun j b' h => hres.unused j b' h.1⟩

/-- What is asked of a `try_push`: no push over an older epoch finds a receiver a whole lap
behind, and a forced push is over a message that is still owed and not held. -/
structure PushGood (force : Bool) (tm : Nat) (h : Sender) (held : List Held) (w : World (Sys B))
    (msg : MsgT) : Prop where
  lap : w.que.push msg ≠ none → ∀ h, w.que.member h → w.que.log.length = w.que.done h + 256 →
    B.current w.que.que (slot 8 w.que.log.length)
  owed : Forces (queue B) force tm h w msg → (w.que.forcePush msg).2 ≠ none →
    ∃ i b, i + 256 = w.que.log.length ∧ Owing w.que i b
  free : Forces (queue B) force tm h w msg → (w.que.forcePush msg).2 ≠ none →
    ∀ k ∈ held, k.index + 256 ≠ w.que.log.length

theorem inv_tryPush {force : Bool} {tm : Nat} {h : Sender} {w : World (Sys B)}
    (hi : Inv w.que w.store held) (hg : PushGood force tm h held w msg)
    (hready : Ready w.store (chunkAt w.que) (party w.que held) w.que.cc msg) :
    Inv (tryPush (queue B) force tm h w msg).1.que
      (tryPush (queue B) force tm h w msg).1.store held := by
  rcases tryPush_cases (queue B) force tm h w msg with
    ⟨q, hp, he⟩ | ⟨_, ok, he⟩ | ⟨q, _, hp, he⟩ | ⟨q, old, hf, hp, he⟩
  · rw [he]
    have hp : w.que.push msg = some q := hp
    exact hi.push hp (hg.lap (by simp [hp])) hready
  · rw [he]
    exact hi
  · rw [he]
    exact hi.force_none hp
  · rw [he]
    have hp : w.que.forcePush msg = (q, some old) := hp
    have hsome : (w.que.forcePush msg).2 ≠ none := by simp [hp]
    obtain ⟨i, b, hlap, ho⟩ := hg.owed hf hsome
    refine hi.force hp hlap ho (fun k hk hki => hg.free hf hsome k hk ?_) hready
    omega

end Pushes

/-! ## Calls -/

section Calls
variable {s : Chan B} {h : Nat}

theorem inv_recv (hi : Inv s.world.que s.world.store s.held)
    (hown : s.connected h = true → s.world.que.member h) (t tm : Nat) :
    Inv (s.recv t tm h).world.que (s.recv t tm h).world.store (s.recv t tm h).held := by
  obtain ⟨hs, _, ⟨hq, hh⟩ | ⟨hc, msg, last, q, hp, hq, hcases⟩⟩ := recv_frame s t tm h
  · rw [hs, hh, hq]
    exact hi
  · have hm := hown hc
    rcases hcases with ⟨hh, _⟩ | ⟨id, size, hid, hchunk, hh⟩
    · rw [hs, hh, hq]
      exact hi.skip hm hp
    · rw [hs, hh, hq]
      exact hi.hold hm hp hid hchunk

theorem drop_que (s : Chan B) (n : Nat) : (s.drop n).world.que = s.world.que := by
  unfold Chan.drop
  split <;> rfl

theorem inv_drop (hi : Inv s.world.que s.world.store s.held) {n : Nat} (hs : Snapshot s.held n) :
    Inv (s.drop n).world.que (s.drop n).world.store (s.drop n).held := by
  unfold Chan.drop
  cases hk : s.held[n]? with
  | none => exact hi
  | some k => exact hi.drop hk hs

theorem Inv.taken (hi : Inv s.world.que s.world.store s.held) {k : Held} (hk : k ∈ s.held) :
    Taken s.world.store (chunk k).1 (chunk k).2 := by
  obtain ⟨⟨b, hb⟩, _, hc⟩ := hi.buffers k hk
  exact hi.covers.taken (.inr ⟨k, hk, rfl, hb⟩) hc

/-- The drop of buffer `n` releases no chunk that is free already. -/
def DropsOnce (s : Chan B) (n : Nat) : Prop := ∀ k ∈ s.held[n]?,
  (s.drop n).world.store.free (chunk k).1 = s.world.store.free (chunk k).1 ∨
  ((chunk k).2 ∉ s.world.store.free (chunk k).1 ∧
    (s.drop n).world.store.free (chunk k).1 = (chunk k).2 :: s.world.store.free (chunk k).1)

theorem dropsOnce (hi : Inv s.world.que s.world.store s.held) (n : Nat) : DropsOnce s n := by
  intro k hk
  have hmem : k ∈ s.held := List.mem_of_getElem? hk
  obtain ⟨_, hzero, hmore⟩ := (hi.taken hmem).recycle hi.covers.sound k.currConns k.connId
  have hdrop : (s.drop n).world.store =
      recycleStorage s.world.store (chunk k).2 k.size k.currConns k.connId := by
    have hid : ((chunk k).2 : Int) = k.storageId := Int.toNat_of_nonneg (hi.buffers k hmem).2.1
    rw [Chan.drop, Option.mem_def.mp hk, hid]
  rw [hdrop]
  by_cases h0 : remaining s.world.store (chunk k).1 (chunk k).2 k.currConns k.connId = 0#32
  · exact .inr ⟨(hi.taken hmem).notFree, hzero h0⟩
  · exact .inl (hmore h0).1

end Calls

/-! ## Calls of `send` -/

section Send
variable {held : List Held} {h : Sender} {w : World (Sys B)} {data : List Byte}

/-- The elements of a call that are fragments, or the element of a large message. -/
theorem begun_cases (hi : Inv w.que w.store held) (hu : data.length < 2 ^ 31) :
    Inv w.que (begun (queue B) h w data).2.store held ∧
    (∃ e, Changes w.store (begun (queue B) h w data).2.store e ∧
      ∀ i b, party w.que held i b → chunkAt w.que i = e → e = none) ∧
    ((∀ msg ∈ elements (queue B) h w data, chunkOf msg = none) ∨
      (largeMsgLimit < data.length ∧ HasChunk w.store data.length) ∧
      ∃ msg cs id, elements (queue B) h w data = [msg] ∧ msg.ccId = h.ccId ∧
        chunkOf msg = some (cs, id) ∧
        Reserved (begun (queue B) h w data).2.store (chunkAt w.que) (party w.que held) cs id
          w.que.cc) := by
  obtain ⟨hq, hs, _⟩ := readySending_que (Q := queue B) h w
  unfold elements begun takeStorage
  dsimp only
  rw [hq, hs]
  by_cases hl : data.length > largeMsgLimit
  · rw [if_pos hl]
    cases ha : acquireStorage w.store data.length ((queue B).conns w.que) with
    | mk sid st =>
      cases sid with
      | none =>
        exact ⟨{ hi with covers := hi.covers.acquire_none ha },
          ⟨none, acquireStorage_none_changes hi.covers.sound ha, fun _ _ _ _ => rfl⟩,
          .inl fun msg hm => messages_fragment hu hm⟩
      | some id =>
        obtain ⟨hcov, hres⟩ := hi.covers.acquire ha data
        have hid : id < 2 ^ 31 := Nat.lt_trans hres.taken.lt (by decide)
        obtain ⟨msg, hm, hcc, hc⟩ := messages_chunk h.ccId w.acc hl hu hid
        obtain ⟨hch, _⟩ := acquireStorage_some_changes hi.covers.sound ha
        have hchunk : HasChunk w.store data.length := fun hempty => by
          rw [acquireStorage_empty hempty] at ha
          cases ha
        exact ⟨{ hi with covers := hcov },
          ⟨_, hch.trans (writeChunk_changes hch.sound id data),
            fun i b hp he => absurd he (hres.unused i b hp)⟩,
          .inr ⟨⟨hl, hchunk⟩, msg, _, id, hm, hcc, hc, hres⟩⟩
  · rw [if_neg hl]
    exact ⟨hi, ⟨none, Changes.refl hi.covers.sound none, fun _ _ _ _ => rfl⟩,
      .inl fun msg hm => messages_fragment hu hm⟩

/-- A call of `send` keeps the invariant, with whatever `X` its pushes keep, and each
of its pushes is `safe`. -/
theorem inv_send (X : Sys B → Storages → Prop) (good safe : World (Sys B) → MsgT → Prop)
    (force : Bool) (tm : Nat) (hi : Inv w.que w.store held) (hu : data.length < 2 ^ 31)
    (hX : X w.que w.store ∧ X w.que (begun (queue B) h w data).2.store)
    (hpush : ∀ w' : World (Sys B), ∀ msg ∈ elements (queue B) h w data,
      Inv w'.que w'.store held →
      Ready w'.store (chunkAt w'.que) (party w'.que held) w'.que.cc msg →
      X w'.que w'.store → good w' msg →
      PushGood force tm (readySending (queue B) h w).2.1 held w' msg ∧ safe w' msg ∧
      X (tryPush (queue B) force tm (readySending (queue B) h w).2.1 w' msg).1.que
        (tryPush (queue B) force tm (readySending (queue B) h w).2.1 w' msg).1.store)
    (hg : Passes (queue B) h w data →
      Along (queue B) force tm (readySending (queue B) h w).2.1 good
        (begun (queue B) h w data).2 (elements (queue B) h w data)) :
    (Inv (Send.send (queue B) force tm h w data).1.que
        (Send.send (queue B) force tm h w data).1.store held ∧
      X (Send.send (queue B) force tm h w data).1.que
        (Send.send (queue B) force tm h w data).1.store) ∧
    (Passes (queue B) h w data →
      Along (queue B) force tm (readySending (queue B) h w).2.1 safe
        (begun (queue B) h w data).2 (elements (queue B) h w data)) := by
  have hque := begun_que (Q := queue B) h w data
  obtain ⟨hbegun, _, hcases⟩ := begun_cases (h := h) hi hu
  have h0 : Inv (begun (queue B) h w data).2.que (begun (queue B) h w data).2.store held ∧
      X (begun (queue B) h w data).2.que (begun (queue B) h w data).2.store := by
    rw [hque]
    exact ⟨hbegun, hX.2⟩
  by_cases hp : Passes (queue B) h w data
  · have hg := hg hp
    rw [send_eq force tm hp]
    generalize (readySending (queue B) h w).2.1 = snd at hpush hg ⊢
    rcases hcases with hfrag | ⟨_, msg, cs, id, hel, _, hc, hres⟩
    · -- fragments: the invariant goes from push to push
      have hstep : ∀ w' : World (Sys B), ∀ msg ∈ elements (queue B) h w data,
          (Inv w'.que w'.store held ∧ X w'.que w'.store) → good w' msg →
          (Inv (tryPush (queue B) force tm snd w' msg).1.que
              (tryPush (queue B) force tm snd w' msg).1.store held ∧
            X (tryPush (queue B) force tm snd w' msg).1.que
              (tryPush (queue B) force tm snd w' msg).1.store) ∧ safe w' msg := by
        intro w' msg hm hP hgood
        have hready : Ready w'.store (chunkAt w'.que) (party w'.que held) w'.que.cc msg :=
          .inl (hfrag msg hm)
        obtain ⟨hpg, hsafe, hX'⟩ := hpush w' msg hm hP.1 hready hP.2 hgood
        exact ⟨⟨inv_tryPush hP.1 hpg hready, hX'⟩, hsafe⟩
      exact ⟨tryPushes_invariant (fun w' msg hm hP hgood => (hstep w' msg hm hP hgood).1) h0 hg,
        fun _ => Along.imp hstep h0 hg⟩
    · -- a large message: one push, which uses the chunk
      rw [hel] at hg hpush ⊢
      rw [tryPushes_singleton]
      rw [← hque] at hres
      have hready : Ready _ _ _ _ msg := .inr ⟨cs, id, hc, hres⟩
      obtain ⟨hpg, hsafe, hX'⟩ := hpush _ msg List.mem_cons_self h0.1 hready h0.2 hg.1
      exact ⟨⟨inv_tryPush h0.1 hpg hready, hX'⟩, fun _ => ⟨hsafe, fun _ => trivial⟩⟩
  · obtain ⟨_, hq, hs⟩ := send_of_not_passes force tm hp
    rw [hq, hs]
    exact ⟨⟨hi, hX.1⟩, fun h => absurd h hp⟩

end Send

end CppIpc.Reclaim
