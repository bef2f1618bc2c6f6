import CppIpc.Recycling

/-! # When storage comes back

Runs without `force_push` in which no connected receiver leaves: the mask of a chunk is
exactly the set of those who still need it, so the last drop finds it empty. -/
namespace CppIpc.Returning
open CppIpc.Def CppIpc.Message CppIpc.ReadCounter CppIpc.Storage CppIpc.Send CppIpc.ProdCons
open CppIpc.Policies CppIpc.Debts CppIpc.Ledger CppIpc.Ipc CppIpc.Reclaim
open CppIpc.Receivers hiding Act step

variable {B : Broadcast MsgT}

/-- No receiver that is connected disconnects. -/
def Stays (s : Chan B) : Act → Prop
  | .disconnect _ h => s.connected h = false
  | .reconnect _ h startToRecv => startToRecv = false → s.connected h = false
  | _ => True

/-- The size of a message is an `int32_t`, and a message that gets a chunk is sent by a
handle whose `cc_id_` no connected receiver has. -/
def Foreign (s : Chan B) : Act → Prop
  | .send _ _ h data => data.length < 2 ^ 31 ∧
    (largeMsgLimit < data.length → HasChunk s.world.store data.length →
      ∀ h', s.connected h' = true → (s.sender h').ccId ≠ (s.sender h).ccId)
  | _ => True

/-- Every receiver that was connected when message `i` was sent has popped it, and every
buffer on it is dropped. -/
def Settled (s : Chan B) (i : Nat) : Prop :=
  (∀ h, s.world.que.member h → (s.world.que.reader h).since ≤ i → i < s.world.que.done h) ∧
    ∀ k ∈ s.held, k.index ≠ i

/-- The step after which a large message is settled leaves its id in the free list. -/
def Returned (s : Chan B) (a : Act) : Prop := ∀ t, step s a = some t → ∀ i cs id,
  chunkAt t.world.que i = some (cs, id) → Settled t i →
  chunkAt s.world.que i = none ∨ ¬ Settled s i → id ∈ t.world.store.free cs

/-- The invariant, for handles that `recv` sees as `ctx`. -/
structure Kept (ctx : Nat → RecvCtx) (q : Sys B) (st : Storages) (held : List Held) : Prop where
  inv : Reclaim.Inv q st held
  calm : Calm q
  tight : Tight st (chunkAt q) (party q held)
  present : ∀ k ∈ held, connected q.cc k.connId = true
  seen : ∀ k ∈ held, ∀ k' ∈ held, k'.index = k.index → connected k.currConns k'.connId = true
  unskipped : ∀ i msg, q.log[i]? = some msg → chunkOf msg ≠ none → ∀ h, q.member h →
    q.done h ≤ i → ¬ Skips (ctx h) msg

/-- Nobody stops needing a large message. -/
structure Grows (q : Sys B) (held : List Held) (q' : Sys B) (held' : List Held) : Prop where
  chunks : ∀ i c, chunkAt q i = some c → chunkAt q' i = some c
  parties : ∀ i b c, chunkAt q i = some c → party q held i b → party q' held' i b
  fresh : ∀ i c, chunkAt q i = none → chunkAt q' i = some c → ∃ b, party q' held' i b

section Grows
variable {q q' q'' : Sys B} {held held' held'' : List Held}

theorem Grows.refl (q : Sys B) (held : List Held) : Grows q held q held :=
  ⟨fun _ _ h => h, fun _ _ _ _ h => h, fun _ _ h h' => by rw [h] at h'; cases h'⟩

theorem Grows.trans (h₁ : Grows q held q' held') (h₂ : Grows q' held' q'' held'') :
    Grows q held q'' held'' := by
  refine ⟨fun i c h => h₂.chunks i c (h₁.chunks i c h),
    fun i b c hc hp => h₂.parties i b c (h₁.chunks i c hc) (h₁.parties i b c hc hp),
    fun i c hn hc => ?_⟩
  cases hc' : chunkAt q' i with
  | none => exact h₂.fresh i c hc' hc
  | some c' =>
    obtain ⟨b, hb⟩ := h₁.fresh i c' hn hc'
    exact ⟨b, h₂.parties i b c' hc' hb⟩

end Grows

theorem settled_iff {s : Chan B} (hi : Reclaim.Inv s.world.que s.world.store s.held) {i : Nat}
    (hlt : i < s.world.que.log.length) :
    Settled s i ↔ ∀ b, ¬ party s.world.que s.held i b := by
  constructor
  · rintro ⟨hpop, hdrop⟩ b (⟨h, hm, _, hle, _⟩ | ⟨k, hk, he, _⟩)
    · have := hpop h hm (by unfold Sys.done at hle; omega)
      omega
    · exact hdrop k hk he
  · intro hno
    refine ⟨fun h hm _ => ?_, fun k hk he => ?_⟩
    · by_contra hge
      obtain ⟨b, _, ho⟩ := Owing.of_member hi.queue hm (Nat.le_of_not_lt hge) hlt
      exact hno b (.inl ho)
    · obtain ⟨⟨b, hb⟩, _⟩ := hi.buffers k hk
      exact hno b (.inr ⟨k, hk, he, hb⟩)

/-- A step that takes no large message from anybody settles none. -/
theorem returned_of_grows {s t : Chan B} {a : Act} (hs : step s a = some t)
    (hi : Reclaim.Inv s.world.que s.world.store s.held)
    (ht : Reclaim.Inv t.world.que t.world.store t.held)
    (hg : Grows s.world.que s.held t.world.que t.held) : Returned s a := by
  intro t' ht' i cs id hc hset hnew
  rw [hs] at ht'
  cases ht'
  have hno := (settled_iff ht (chunkAt_lt hc)).mp hset
  cases hc' : chunkAt s.world.que i with
  | none =>
    obtain ⟨b, hb⟩ := hg.fresh i _ hc' hc
    exact absurd hb (hno b)
  | some c =>
    rcases hnew with hn | hns
    · rw [hc'] at hn
      cases hn
    · rw [settled_iff hi (chunkAt_lt hc')] at hns
      exact absurd (fun b hb => hno b (hg.parties i b c hc' hb)) hns

section Steps
variable {ctx : Nat → RecvCtx} {q t : Sys B} {st : Storages} {held : List Held} {h : Nat}
  {msg : MsgT} {last : Bool}

theorem Kept.snapshot (hk : Kept ctx q st held) (n : Nat) : Snapshot held n := fun k hk' k' hk'' he =>
  hk.seen k (List.mem_of_getElem? hk') k' (List.mem_of_mem_eraseIdx hk'') he

theorem Kept.connect (hk : Kept ctx q st held) (h : Nat) :
    Kept ctx (q.connect h) st held ∧ Grows q held (q.connect h) held := by
  have hchunk := fun i => chunkAt_congr (connect_log q h) i
  have hgrow : ∀ i b, party q held i b → party (q.connect h) held i b :=
    fun i b hp => hp.imp_left fun ho => ho.connect hk.inv.queue h
  refine ⟨⟨hk.inv.connect h, hk.calm.connect h, ?_, fun k hmem => ?_, hk.seen, ?_⟩, ?_⟩
  · refine hk.tight.change (Changes.refl hk.inv.covers.sound none) ?_ (by simp)
    intro i b c hp hc _
    exact ⟨by rw [← hchunk]; exact hc, hp.imp_left fun ho => ho.of_connect hk.inv.queue,
      hgrow i⟩
  · obtain ⟨⟨b, hb⟩, _⟩ := hk.inv.buffers k hmem
    have := hk.present k hmem
    rw [hb, connected_idOf] at this ⊢
    exact conn_connect this h
  · intro i msg hlog hc h' hm hle
    rw [connect_log] at hlog
    have hlt : i < q.log.length := (List.getElem?_eq_some_iff.mp hlog).1
    obtain ⟨hm, _, hle⟩ := member_of_connect hk.inv.queue hm hle hlt
    exact hk.unskipped i msg hlog hc h' hm hle
  · exact ⟨fun i c hc => by rw [hchunk]; exact hc, fun i b _ _ => hgrow i b,
      fun i c hn hc => by rw [hchunk, hn] at hc; cases hc⟩

/-- The connected receivers, of which there is one, need the new message. -/
theorem Kept.push (hk : Kept ctx q st held) (hp : q.push msg = some t)
    (hready : Ready st (chunkAt q) (party q held) q.cc msg)
    (hnew : chunkOf msg ≠ none → ∀ h, q.member h → ¬ Skips (ctx h) msg) :
    Kept ctx t st held ∧ Grows q held t held := by
  have hlog := push_log hp
  have hinv : Reclaim.Inv t st held := hk.inv.push hp (fun _ _ _ => hk.calm.current _) hready
  have hgrow : ∀ i b, party q held i b → party t held i b :=
    fun i b hp' => hp'.imp_left fun ho => ho.push hp
  -- a bit of the connection word owes the new message
  have howes : ∀ b, Conn q.cc b → party t held q.log.length b := by
    intro b hb
    obtain ⟨h, hm, hh⟩ := hk.calm.owned b hb
    have hle := (hk.inv.queue.room h hm).1
    refine .inl ⟨h, ?_, ?_, ?_, by rw [hlog]; simp⟩ <;>
      obtain ⟨q', _, rfl⟩ := Option.map_eq_some_iff.mp hp
    · exact hm
    · exact hh
    · exact hle
  have hne : q.cc ≠ 0#32 := by
    obtain ⟨q', hq', rfl⟩ := Option.map_eq_some_iff.mp hp
    exact (B.push_some hk.inv.queue.ok hq').1
  have hcc : t.cc = q.cc := by
    obtain ⟨q', _, rfl⟩ := Option.map_eq_some_iff.mp hp
    rfl
  have hback : ∀ i b, i < q.log.length → party t held i b → party q held i b := by
    rintro i b hlt (ho | hb)
    · rcases ho.of_push hk.inv.queue hp with ⟨ho, _⟩ | ⟨rfl, _⟩
      · exact .inl ho
      · omega
    · exact .inr hb
  have hcases : ∀ i c, chunkAt t i = some c →
      (i < q.log.length ∧ chunkAt q i = some c) ∨ (i = q.log.length ∧ chunkOf msg = some c) := by
    intro i c hc
    have hlt := chunkAt_lt hc
    rw [hlog, List.length_append, List.length_singleton] at hlt
    by_cases he : i = q.log.length
    · subst he
      rw [chunkAt_last hlog] at hc
      exact .inr ⟨rfl, hc⟩
    · have hlt : i < q.log.length := by omega
      rw [chunkAt_append hlog hlt] at hc
      exact .inl ⟨hlt, hc⟩
  refine ⟨⟨hinv, hk.calm.push hp, ?_, fun k hmem => by rw [hcc]; exact hk.present k hmem, hk.seen,
    ?_⟩, fun i c hc => ?_, fun i b _ _ => hgrow i b, fun i c hn hc => ?_⟩
  · intro i cs id b hi hb b' hbit
    rcases hcases i _ hi with ⟨hlt, hi⟩ | ⟨rfl, hc⟩
    · exact hgrow i b' (hk.tight i cs id b hi (hback i b hlt hb) b' hbit)
    · rcases hready with hnone | ⟨cs', id', hsome, hres⟩
      · rw [hnone] at hc
        cases hc
      · rw [hsome] at hc
        cases hc
        rw [hres.conns] at hbit
        exact howes b' hbit
  · intro i m hm hc h' hmem hle
    rw [hlog] at hm
    have hmem' : q.member h' ∧ q.done h' ≤ i := by
      obtain ⟨q', _, rfl⟩ := Option.map_eq_some_iff.mp hp
      exact ⟨hmem, hle⟩
    by_cases he : i < q.log.length
    · rw [List.getElem?_append_left he] at hm
      exact hk.unskipped i m hm hc h' hmem'.1 hmem'.2
    · rw [List.getElem?_append_right (by omega)] at hm
      obtain rfl : msg = m := by
        have := List.mem_of_getElem? hm
        simpa [eq_comm] using this
      exact hnew hc h' hmem'.1
  · rw [chunkAt_append hlog (chunkAt_lt hc)]
    exact hc
  · rcases hcases i c hc with ⟨_, hc'⟩ | ⟨rfl, _⟩
    · rw [hn] at hc'
      cases hc'
    · obtain ⟨b, hb⟩ := Lib.Bits.ne_zero_iff.mp hne
      exact ⟨⟨b, BitVec.lt_of_getLsbD hb⟩, howes _ hb⟩

/-- A pop after which the same receivers need the same large messages. -/
theorem Kept.pop (hk : Kept ctx q st held) (hp : q.pop h = some (msg, last, t))
    {held' : List Held} (hinv : Reclaim.Inv t st held')
    (hparty : ∀ i b c, chunkAt q i = some c → (party t held' i b ↔ party q held i b))
    (hpresent : ∀ k ∈ held', connected q.cc k.connId = true)
    (hseen : ∀ k ∈ held', ∀ k' ∈ held', k'.index = k.index →
      connected k.currConns k'.connId = true) :
    Kept ctx t st held' ∧ Grows q held t held' := by
  have hchunk := fun i => chunkAt_congr (pop_log hp) i
  refine ⟨⟨hinv, hk.calm.pop hp, ?_, by rw [pop_cc hp]; exact hpresent, hseen, ?_⟩, ?_⟩
  · refine hk.tight.change (Changes.refl hk.inv.covers.sound none) ?_ (by simp)
    intro i b c hb hc _
    rw [hchunk] at hc
    exact ⟨hc, (hparty i b c hc).mp hb, fun b' => (hparty i b' c hc).mpr⟩
  · intro i m hlog hc h' hm hle
    obtain ⟨hmem, _, hdone⟩ := member_of_pop hp h'
    rw [pop_log hp] at hlog
    refine hk.unskipped i m hlog hc h' (hmem.mp hm) (Nat.le_trans ?_ hle)
    rw [hdone]
    split
    · rename_i he; rw [he]; exact Nat.le_succ _
    · exact Nat.le_refl _
  · exact ⟨fun i c hc => by rw [hchunk]; exact hc, fun i b c hc => (hparty i b c hc).mpr,
      fun i c hn hc => by rw [hchunk, hn] at hc; cases hc⟩

/-- A fragment is popped. -/
theorem Kept.skip (hk : Kept ctx q st held) (hm : q.member h)
    (hp : q.pop h = some (msg, last, t)) (hc : chunkOf msg = none) :
    Kept ctx t st held ∧ Grows q held t held := by
  refine hk.pop hp (hk.inv.skip hm hp) (fun i b c hi => ?_) hk.present hk.seen
  have hne : i ≠ q.done h := by
    rintro rfl
    rw [chunkAt_of_log (pop_eq_log hk.inv.queue hm hp), hc] at hi
    cases hi
  refine or_congr_left ⟨fun ho => (ho.of_pop hk.inv.queue hm hp).1, fun ho => ?_⟩
  exact (ho.pop hp).resolve_right fun he => hne he.1

/-- A large message is popped and its buffer kept: the receiver needs it as before. -/
theorem Kept.hold (hk : Kept ctx q st held) (hm : q.member h)
    (hp : q.pop h = some (msg, last, t)) {id : Int} {size : Nat} (hid : 0 ≤ id)
    (hc : chunkOf msg = some (calcChunkSize size, id.toNat)) :
    Kept ctx t st (held ++ [⟨q.done h, id, size, t.cc, (t.handle h).connected⟩]) ∧
      Grows q held t (held ++ [⟨q.done h, id, size, t.cc, (t.handle h).connected⟩]) := by
  have hlt : q.done h < q.log.length :=
    (List.getElem?_eq_some_iff.mp (pop_eq_log hk.inv.queue hm hp)).1
  have hconn : (t.handle h).connected = (q.handle h).connected := (member_of_pop hp h).2.1
  obtain ⟨b, hb, howing⟩ := Owing.of_member hk.inv.queue hm (Nat.le_refl _) hlt
  have hmine : connected q.cc (t.handle h).connected = true := by
    rw [hconn]
    exact hk.inv.queue.connected_of_member hm
  refine hk.pop hp (hk.inv.hold hm hp hid hc) (fun i b' c _ => ⟨?_, ?_⟩) (fun k hmem => ?_)
    fun k hmem k' hmem' he => ?_
  · rintro (ho | ⟨k, hmem, hki, hkb⟩)
    · exact .inl (ho.of_pop hk.inv.queue hm hp).1
    · rcases List.mem_append.mp hmem with hmem | hmem
      · exact .inr ⟨k, hmem, hki, hkb⟩
      · cases List.mem_singleton.mp hmem
        rw [hconn, hb] at hkb
        obtain rfl := idOf_inj hkb
        subst hki
        exact .inl howing
  · rintro (ho | ⟨k, hmem, hki, hkb⟩)
    · rcases ho.pop hp with ho | ⟨rfl, hb'⟩
      · exact .inl ho
      · exact .inr ⟨_, List.mem_append_right _ (List.mem_singleton_self _), rfl, hconn.trans hb'⟩
    · exact .inr ⟨k, List.mem_append_left _ hmem, hki, hkb⟩
  · rcases List.mem_append.mp hmem with hmem | hmem
    · exact hk.present k hmem
    · cases List.mem_singleton.mp hmem
      exact hmine
  · rcases List.mem_append.mp hmem with hmem | hmem <;>
      rcases List.mem_append.mp hmem' with hmem' | hmem'
    · exact hk.seen k hmem k' hmem' he
    · cases List.mem_singleton.mp hmem'
      have he : q.done h = k.index := he
      rw [hconn, hb, connected_idOf]
      exact (hk.inv.unread k hmem b (he ▸ howing)).2
    · cases List.mem_singleton.mp hmem
      rw [pop_cc hp]
      exact hk.present k' hmem'
    · cases List.mem_singleton.mp hmem
      cases List.mem_singleton.mp hmem'
      rw [pop_cc hp]
      exact hmine

/-- The last drop gives the chunk back. -/
theorem Kept.drop (hk : Kept ctx q st held) {n : Nat} {k : Held} (hkn : held[n]? = some k) :
    Kept ctx q (recycleStorage st k.storageId k.size k.currConns k.connId) (held.eraseIdx n) ∧
    ∀ i cs id, chunkAt q i = some (cs, id) → (∃ b, party q held i b) →
      (∀ b, ¬ party q (held.eraseIdx n) i b) →
      id ∈ (recycleStorage st k.storageId k.size k.currConns k.connId).free cs := by
  have hmem : k ∈ held := List.mem_of_getElem? hkn
  have hsub : ∀ k' ∈ held.eraseIdx n, k' ∈ held := fun k' hk' => List.mem_of_mem_eraseIdx hk'
  obtain ⟨⟨b, hb⟩, hid, hc⟩ := hk.inv.buffers k hmem
  obtain ⟨hparty, hself, hstay, hcurr⟩ := hk.inv.dropped hkn hb (hk.snapshot n)
  have hinv := hk.inv.drop hkn (hk.snapshot n)
  rw [hb, ← Int.toNat_of_nonneg hid] at hinv ⊢
  obtain ⟨htight, hfree⟩ := hk.tight.recycle hk.inv.covers (.inr ⟨k, hmem, rfl, hb⟩) hc hparty
    hself hstay hcurr
  refine ⟨⟨hinv, hk.calm, htight, fun k' hk' => hk.present k' (hsub k' hk'),
    fun k₁ h₁ k₂ h₂ => hk.seen k₁ (hsub k₁ h₁) k₂ (hsub k₂ h₂), hk.unskipped⟩, ?_⟩
  rintro i cs id hi ⟨b', hb'⟩ hno
  obtain rfl : i = k.index := by
    by_contra hne
    exact hno b' (hstay i b' hb' fun he => absurd he hne)
  rw [hc] at hi
  cases hi
  exact hfree hno

end Steps

/-! ## Calls -/

section Calls
variable {s t : Chan B} {a : Act}

/-- What is asked of a push, for handles that `recv` sees as `ctx`. -/
def PushForeign (ctx : Nat → RecvCtx) (force : Bool) (tm : Nat) (h : Sender) (w : World (Sys B))
    (msg : MsgT) : Prop :=
  ¬ Forces (queue B) force tm h w msg ∧
    (chunkOf msg ≠ none → ∀ h', w.que.member h' → ¬ Skips (ctx h') msg)

/-- The invariant of the runs. -/
def Keeps (s : Chan B) : Prop := Kept s.ctx s.world.que s.world.store s.held

theorem Keeps.own (hk : Keeps s) (h : Nat) (hc : s.connected h = true) : s.world.que.member h :=
  hk.calm.own h hc

theorem init_keeps (B : Broadcast MsgT) (ccId : Nat → MsgId) : Keeps (Chan.init B ccId) := by
  have hg := Recycling.init_good B ccId
  refine ⟨hg.inv, hg.calm, fun i cs id b hc => ?_, ?_, ?_, ?_⟩
  · simp [Chan.init, Sys.init, chunkAt] at hc
  all_goals simp [Chan.init, Sys.init]

/-- Each push of the call is of a message that no connected receiver skips. -/
theorem pushes_foreign (hk : Keeps s) {force : Bool} {tm h : Nat} {data : List Byte}
    (hu : Unforced s (.send force tm h data)) (hf : Foreign s (.send force tm h data)) :
    s.EachPush force tm h data (PushForeign s.ctx force tm
      (Send.readySending (queue B) (s.sender h) s.world).2.1) := by
  intro hp
  have ha := hu hp
  obtain ⟨_, _, hfrag | ⟨hlarge, msg, cs, id, hel, hcc, _, _⟩⟩ :=
    begun_cases (h := s.sender h) hk.inv hf.1
  · refine Along.imp (P := fun _ => True) (fun w msg hm _ hnf => ⟨trivial, hnf, fun hc => ?_⟩) trivial
      ha
    exact absurd (hfrag msg hm) hc
  · rw [hel] at ha ⊢
    refine ⟨⟨ha.1, fun _ h' hm hskip => ?_⟩, fun _ => trivial⟩
    rw [begun_que] at hm
    have hconn : s.connected h' = true := hk.inv.queue.connected_of_member hm
    exact hf.2 hlarge.1 hlarge.2 h' hconn (hskip.2.symm.trans hcc)

theorem Keeps.send (hk : Keeps s) {force : Bool} {tm h : Nat} {data : List Byte}
    (hu : Unforced s (.send force tm h data)) (hf : Foreign s (.send force tm h data)) :
    Keeps (s.send force tm h data) ∧
      Grows s.world.que s.held (s.send force tm h data).world.que s.held := by
  have hbegun : Kept s.ctx s.world.que (begun (queue B) (s.sender h) s.world data).2.store
      s.held := by
    obtain ⟨hinv, ⟨e, hch, hunused⟩, _⟩ := begun_cases (h := s.sender h) hk.inv hf.1
    refine { hk with inv := hinv, tight := hk.tight.change hch ?_ ?_ }
    · intro i b c hp hc _
      exact ⟨hc, hp, fun _ h => h⟩
    · intro i b cs id hp hc he
      have := hunused i b hp (hc.trans he.symm)
      rw [he] at this
      cases this
  have hsend := inv_send
    (fun q st => Kept s.ctx q st s.held ∧ Grows s.world.que s.held q s.held) _
    (fun _ _ => True) force tm hk.inv hf.1 ⟨⟨hk, .refl _ _⟩, ⟨hbegun, .refl _ _⟩⟩
    (fun w msg _ _ hready hX hg => by
      refine ⟨(Recycling.calm_tryPush s.held hX.1.calm hg.1).1, trivial, ?_⟩
      rcases tryPush_cases (queue B) force tm _ w msg with
        ⟨q, hp, he⟩ | ⟨_, ok, he⟩ | ⟨_, h, _⟩ | ⟨_, _, h, _⟩
      · rw [he]
        obtain ⟨hkept, hgrows⟩ := hX.1.push hp hready hg.2
        exact ⟨hkept, hX.2.trans hgrows⟩
      · rw [he]
        exact hX
      · exact absurd h hg.1
      · exact absurd h hg.1)
    (pushes_foreign hk hu hf)
  obtain ⟨⟨_, hkept, hgrows⟩, _⟩ := hsend
  refine ⟨?_, hgrows⟩
  have hctx : (s.send force tm h data).ctx = s.ctx := funext fun h' => send_ctx s tm h force data h'
  rw [Keeps, hctx]
  exact hkept

theorem Keeps.recv (hk : Keeps s) (th tm h : Nat) :
    Keeps (s.recv th tm h) ∧
      Grows s.world.que s.held (s.recv th tm h).world.que (s.recv th tm h).held := by
  obtain ⟨hs, hsnd, hcases⟩ := recv_frame s th tm h
  have hctx : (s.recv th tm h).ctx = s.ctx := by
    funext h'
    simp only [Chan.ctx, hsnd]
  rw [Keeps, hs, hctx]
  rcases hcases with ⟨hq, hh⟩ | ⟨hc, msg, last, q, hp, hq, hcases⟩
  · rw [hq, hh]
    exact ⟨hk, .refl _ _⟩
  · have hm := hk.own h hc
    rw [hq]
    rcases hcases with ⟨hh, hskip⟩ | ⟨id, size, hid, hchunk, hh⟩
    · rw [hh]
      refine hk.skip hm hp ?_
      by_contra hne
      exact hk.unskipped _ msg (pop_eq_log hk.inv.queue hm hp) hne h hm (Nat.le_refl _) (hskip hne)
    · rw [hh]
      exact hk.hold hm hp hid hchunk

/-- A step that leaves queue, storage and buffers alone. -/
theorem Keeps.same (hk : Keeps s) (hq : t.world.que = s.world.que)
    (hs : t.world.store = s.world.store) (hh : t.held = s.held) (hctx : t.ctx = s.ctx) :
    Keeps t ∧ Grows s.world.que s.held t.world.que t.held := by
  rw [Keeps, hq, hs, hh, hctx]
  exact ⟨hk, .refl _ _⟩

theorem disconnect_eq {q : Sys B} {h : Nat} (hc : connected q.cc (q.handle h).connected = false) :
    q.disconnect h = q := by
  rw [Sys.disconnect, if_neg (by simp [hc])]

theorem Keeps.reconnect (hk : Keeps s) {th h : Nat} {startToRecv : Bool}
    (hs : Stays s (.reconnect th h startToRecv)) :
    Keeps (s.reconnect th h startToRecv) ∧
      Grows s.world.que s.held (s.reconnect th h startToRecv).world.que
        (s.reconnect th h startToRecv).held := by
  obtain ⟨hst, hh, ⟨_, _, hq⟩ | ⟨hfalse, hq⟩⟩ := reconnect_frame s th h startToRecv
  · rw [Keeps, hst, hh, hq, reconnect_ctx]
    exact Kept.connect hk h
  · have hsame : (s.reconnect th h startToRecv).world.que = s.world.que := by
      rcases hq with hq | hq
      · exact hq
      · rw [hq, disconnect_eq (hs hfalse)]
    exact hk.same hsame hst hh (reconnect_ctx s th h startToRecv)

theorem Keeps.disconnect (hk : Keeps s) {th h : Nat} (hs : Stays s (.disconnect th h)) :
    Keeps (s.disconnect th h) ∧
      Grows s.world.que s.held (s.disconnect th h).world.que (s.disconnect th h).held := by
  obtain ⟨hq, hst, hh⟩ := disconnect_frame s th h
  exact hk.same (by rw [hq, disconnect_eq hs]) hst hh (disconnect_ctx s th h)

theorem Keeps.drop (hk : Keeps s) (n : Nat) : Keeps (s.drop n) ∧ Returned s (.drop n) := by
  cases hkn : s.held[n]? with
  | none =>
    have hd : s.drop n = s := by rw [Chan.drop, hkn]
    have hs : step s (.drop n) = some s := by rw [step, hd]
    rw [hd]
    exact ⟨hk, returned_of_grows hs hk.inv hk.inv (.refl _ _)⟩
  | some k =>
    obtain ⟨hkept, hfree⟩ := Kept.drop hk hkn
    have hd : s.drop n = { s with
        world := { s.world with
          store := recycleStorage s.world.store k.storageId k.size k.currConns k.connId }
        held := s.held.eraseIdx n } := by rw [Chan.drop, hkn]
    rw [hd]
    refine ⟨hkept, fun t ht i cs id hc hset hnew => ?_⟩
    rw [step, hd] at ht
    cases ht
    have hlt := chunkAt_lt hc
    have hno := (settled_iff hkept.inv hlt).mp hset
    rcases hnew with hn | hns
    · rw [show chunkAt s.world.que i = some (cs, id) from hc] at hn
      cases hn
    · rw [settled_iff hk.inv hlt, not_forall] at hns
      obtain ⟨b, hb⟩ := hns
      exact hfree i cs id hc ⟨b, not_not.mp hb⟩ hno

/-- All that is asked of a step. -/
def Allowed (s : Chan B) (a : Act) : Prop := Unforced s a ∧ Stays s a ∧ Foreign s a

theorem step_keeps (hk : Keeps s) (ha : Allowed s a) (h : step s a = some t) :
    Keeps t ∧ Returned s a := by
  obtain ⟨hu, hs, hf⟩ := ha
  have hgrows : ∀ {t'}, step s a = some t' → Keeps t' ∧
      Grows s.world.que s.held t'.world.que t'.held → Keeps t' ∧ Returned s a :=
    fun ht hk' => ⟨hk'.1, returned_of_grows ht hk.inv hk'.1.inv hk'.2⟩
  cases a with
  | reconnect th h' startToRecv => cases h; exact hgrows rfl (hk.reconnect hs)
  | disconnect th h' => cases h; exact hgrows rfl (hk.disconnect hs)
  | send force tm h' data => cases h; exact hgrows rfl (hk.send hu hf)
  | recv th tm h' => cases h; exact hgrows rfl (hk.recv th tm h')
  | drop n => cases h; exact hk.drop n

end Calls

/-- Both policies, every run without a forced push in which no connected receiver
leaves. -/
theorem returned_of_run (rp : Relat) (ccId : Nat → MsgId) {acts : List Act}
    (hu : Lib.Runs.Meets step Unforced (Chan.init (policy rp) ccId) acts)
    (hs : Lib.Runs.Meets step Stays (Chan.init (policy rp) ccId) acts)
    (hf : Lib.Runs.Meets step Foreign (Chan.init (policy rp) ccId) acts) :
    Lib.Runs.Meets step Returned (Chan.init (policy rp) ccId) acts := by
  have hstep : ∀ (s : Chan (policy rp)) a, ∃ t, step s a = some t := by
    intro s a
    cases a <;> exact ⟨_, rfl⟩
  refine Lib.Runs.Meets.imp (P := Keeps) (fun _ _ _ hk ha h => (step_keeps hk ha h).1)
    (fun s a hk ha => ?_) (init_keeps _ ccId) (hu.inter (hs.inter hf))
  obtain ⟨t, ht⟩ := hstep s a
  exact (step_keeps hk ha ht).2

/-! ## A message to others, and one to oneself too -/

section Example

instance Stays.decidable (s : Chan B) : (a : Act) → Decidable (Stays s a)
  | .disconnect _ h => inferInstanceAs (Decidable (s.connected h = false))
  | .reconnect _ h startToRecv =>
    inferInstanceAs (Decidable (startToRecv = false → s.connected h = false))
  | .send _ _ _ _ | .recv _ _ _ | .drop _ => isTrue trivial

/-- Handles 0 and 1 receive what handle `h` sends, and one buffer is held in the end. -/
def sentBy (h : Nat) : List Act :=
  [.reconnect 0 0 true, .reconnect 1 1 true, .send false 0 h (List.replicate 65 0), .recv 0 0 0,
    .recv 1 0 1]

theorem unforced_sentBy (h : Nat) : Lib.Runs.Meets step Unforced
    (Chan.init (policy .single) Recycling.handleIds) (sentBy h ++ [.drop 0, .drop 0]) :=
  Recycling.meets_unforced (by simp [sentBy, Recycling.Tries])

theorem foreign_sentBy : Lib.Runs.Meets step Foreign
    (Chan.init (policy .single) Recycling.handleIds) (sentBy 2 ++ [.drop 0, .drop 0]) := by
  refine ⟨trivial, ?_⟩
  rintro _ ⟨⟩
  refine ⟨trivial, ?_⟩
  rintro _ ⟨⟩
  refine ⟨⟨by decide, fun _ _ h' hc => ?_⟩, ?_⟩
  · match h' with
    | 0 => decide +kernel
    | 1 => decide +kernel
    | h + 2 => exact absurd ((connected_zero _).symm.trans hc) (by decide)
  · rintro _ ⟨⟩
    refine ⟨trivial, ?_⟩
    rintro _ ⟨⟩
    refine ⟨trivial, ?_⟩
    rintro _ ⟨⟩
    exact ⟨trivial, fun _ _ => ⟨trivial, fun _ _ => trivial⟩⟩

/-- Handle 2 sends: after the second drop the id is free. -/
theorem returned_sentBy : ∃ s : Chan (policy .single),
    Lib.Runs.run step (Chan.init _ Recycling.handleIds) (sentBy 2 ++ [.drop 0, .drop 0]) = some s ∧
      s.held = [] ∧ chunkAt s.world.que 0 = some (calcChunkSize 65, 0) ∧
      0 ∈ s.world.store.free (calcChunkSize 65) ∧
      Lib.Runs.Meets step Returned (Chan.init (policy .single) Recycling.handleIds)
        (sentBy 2 ++ [.drop 0, .drop 0]) :=
  ⟨_, rfl, by decide +kernel, by decide +kernel, by decide +kernel,
    returned_of_run .single Recycling.handleIds (unforced_sentBy 2) (by decide +kernel)
      foreign_sentBy⟩

/-- Handle 0 sends, and passes over its own message without a buffer: the drop of the
only buffer leaves its bit in the mask. -/
theorem not_returned_sentBy :
    Lib.Runs.Meets step Unforced (Chan.init (policy .single) Recycling.handleIds)
      (sentBy 0 ++ [.drop 0]) ∧
    Lib.Runs.Meets step Stays (Chan.init (policy .single) Recycling.handleIds)
      (sentBy 0 ++ [.drop 0]) ∧
    ¬ Lib.Runs.Meets step Returned (Chan.init (policy .single) Recycling.handleIds)
      (sentBy 0 ++ [.drop 0]) := by
  refine ⟨Recycling.meets_unforced (by simp [sentBy, Recycling.Tries]), by decide +kernel,
    fun hm => ?_⟩
  have hlast := hm.of_append rfl
  have hin : 0 ∈ _ := hlast.1 _ rfl 0 (calcChunkSize 65) 0 (by decide +kernel) ⟨?_, ?_⟩ (.inr ?_)
  · revert hin
    decide +kernel
  · intro h hmem _
    rcases h with - | - | h
    · decide +kernel
    · decide +kernel
    · cases hmem
  · decide +kernel
  · intro hset
    have := hset.2
    revert this
    decide +kernel

end Example

end CppIpc.Returning
