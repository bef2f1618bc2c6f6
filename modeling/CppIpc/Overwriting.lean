import CppIpc.Recycling

/-! # Storage and forced pushes

Runs on a channel with a fixed set of receivers, of which a `force_push` removes those
that have yet to read the slot it takes. `clear_message` looks at the slot only; that
nobody uses the chunk any more is not its doing. -/
namespace CppIpc.Overwriting
open CppIpc.Def CppIpc.Message CppIpc.Storage CppIpc.Send CppIpc.ProdCons CppIpc.Policies
open CppIpc.Debts CppIpc.Ledger CppIpc.Ipc CppIpc.Reclaim
open CppIpc.Receivers hiding Act step
open CppIpc.Lib.Window (slot)

variable {B : Broadcast MsgT}

/-- The handles that connect before anything else happens. -/
def connects (hs : List Nat) : List Act := hs.map fun h => .reconnect 0 h true

/-- `send`, `try_send`, `recv`, and the drop of a buffer. -/
def Works : Act → Prop
  | .send _ _ _ _ | .recv _ _ _ | .drop _ => True
  | .reconnect _ _ _ | .disconnect _ _ => False

/-- A push does not take the slot of a receiver a whole lap behind because the slot is of
an older epoch; a forced push is, with many producers, among the first `2 ^ 32` messages,
and all who have popped the message that it overwrites have dropped it. -/
structure PushHarmless (force : Bool) (tm : Nat) (h : Sender) (held : List Held)
    (w : World (Sys B)) (msg : MsgT) : Prop where
  lap : w.que.push msg ≠ none → ∀ h, w.que.member h →
    w.que.log.length = w.que.done h + 256 → B.current w.que.que (slot 8 w.que.log.length)
  count : Forces (queue B) force tm h w msg → B.multi = true → w.que.log.length < 2 ^ 32
  free : Forces (queue B) force tm h w msg → (w.que.forcePush msg).2 ≠ none →
    ∀ k ∈ held, k.index + 256 ≠ w.que.log.length

def Harmless (s : Chan B) : Act → Prop
  | .send force tm h data => data.length < 2 ^ 31 ∧ s.EachPush force tm h data
    (PushHarmless force tm (readySending (queue B) (s.sender h) s.world).2.1 s.held)
  | .drop n => Snapshot s.held n
  | _ => True

/-- The chunk that a forced push releases is not free and nobody holds a buffer on it. -/
def PushClears (force : Bool) (tm : Nat) (h : Sender) (held : List Held) (w : World (Sys B))
    (msg : MsgT) : Prop :=
  Forces (queue B) force tm h w msg → ∀ old cs id, (w.que.forcePush msg).2 = some old →
    chunkOf old = some (cs, id) → id ∉ w.store.free cs ∧ ∀ k ∈ held, chunk k ≠ (cs, id)

/-- No release is of a chunk that is free: neither that of a forced push nor that of a
later drop. -/
def Clears (s : Chan B) : Act → Prop
  | .send force tm h data => s.EachPush force tm h data
    (PushClears force tm (readySending (queue B) (s.sender h) s.world).2.1 s.held)
  | .drop n => DropsOnce s n
  | _ => True

/-- The invariant once nobody connects any more. -/
structure Guarded (s : Chan B) : Prop where
  inv : Reclaim.Inv s.world.que s.world.store s.held
  steady : Steady s.world.que

section Steps
variable {s t : Chan B} {a : Act} {force : Bool} {tm : Nat} {h : Sender} {held : List Held}
  {w : World (Sys B)} {msg : MsgT}

/-- A forced push that goes through finds a receiver. -/
theorem cc_ne_zero {q t : Sys B} (hi : Receivers.Inv q) {old : MsgT}
    (hp : q.forcePush msg = (t, some old)) : q.cc ≠ 0#32 := by
  obtain ⟨hcc, hne, _⟩ := B.force_some hi.ok (forcePush_cases hp).1
  intro h0
  rw [h0, BitVec.zero_and] at hcc
  exact hne hcc

theorem PushHarmless.good (hg : PushHarmless force tm h held w msg) (hs : Steady w.que) :
    PushGood force tm h held w msg := by
  refine ⟨hg.lap, fun hf hne => ?_, hg.free⟩
  obtain ⟨old, hold⟩ := Option.ne_none_iff_exists'.mp hne
  have hp : w.que.forcePush msg = ((w.que.forcePush msg).1, some old) := by rw [← hold]
  exact hs.blocked (hg.count hf) hf.2.1 (cc_ne_zero hs.inv hp)

theorem steady_tryPush (hs : Steady w.que) (hg : PushHarmless force tm h held w msg) :
    Steady (tryPush (queue B) force tm h w msg).1.que := by
  rcases tryPush_cases (queue B) force tm h w msg with
    ⟨q, hp, he⟩ | ⟨_, ok, he⟩ | ⟨q, _, hp, he⟩ | ⟨q, old, _, hp, he⟩
  · rw [he]
    have hp : w.que.push msg = some q := hp
    exact hs.push hp (hg.lap (by simp [hp]))
  · rw [he]
    exact hs
  · rw [he]
    exact hs.forcePush hp
  · rw [he]
    exact hs.forcePush hp

theorem PushHarmless.clears (hg : PushHarmless force tm h held w msg) (hs : Steady w.que)
    (hi : Reclaim.Inv w.que w.store held) : PushClears force tm h held w msg := by
  intro hf old cs id hold hc
  have hp : w.que.forcePush msg = ((w.que.forcePush msg).1, some old) := by rw [← hold]
  obtain ⟨i, b, hlap, ho⟩ := hs.blocked (hg.count hf) hf.2.1 (cc_ne_zero hs.inv hp)
  obtain ⟨ht, hsame⟩ := hi.overwritten hp hlap ho hc
  refine ⟨ht.notFree, fun k hk he => hg.free hf (by simp [hold]) k hk ?_⟩
  rw [hsame k hk he, hlap]

theorem Guarded.send (hg : Guarded s) {h : Nat} {data : List Byte}
    (hh : Harmless s (.send force tm h data)) :
    Guarded (s.send force tm h data) ∧ Clears s (.send force tm h data) := by
  have hsend := inv_send (fun q _ => Steady q) _ _ force tm hg.inv hh.1 ⟨hg.steady, hg.steady⟩
    (fun w msg _ hi _ hs hp => ⟨hp.good hs, hp.clears hs hi, steady_tryPush hs hp⟩) hh.2
  exact ⟨⟨hsend.1.1, hsend.1.2⟩, hsend.2⟩

theorem Guarded.recv (hg : Guarded s) (th tm h : Nat) : Guarded (s.recv th tm h) := by
  refine ⟨inv_recv hg.inv (hg.steady.own h) th tm, ?_⟩
  obtain ⟨_, _, ⟨hq, _⟩ | ⟨_, _, _, _, hp, hq, _⟩⟩ := recv_frame s th tm h
  · rw [hq]
    exact hg.steady
  · rw [hq]
    exact hg.steady.pop hp

theorem step_guarded (hg : Guarded s) (hw : Works a) (hh : Harmless s a)
    (h : step s a = some t) : Guarded t := by
  cases a with
  | reconnect th h' startToRecv => cases hw
  | disconnect th h' => cases hw
  | send force tm h' data => cases h; exact (hg.send hh).1
  | recv th tm h' => cases h; exact hg.recv th tm h'
  | drop n => cases h; exact ⟨inv_drop hg.inv hh, by rw [drop_que]; exact hg.steady⟩

theorem Guarded.clears (hg : Guarded s) (hw : Works a) (hh : Harmless s a) : Clears s a := by
  cases a with
  | reconnect th h' startToRecv => cases hw
  | disconnect th h' => cases hw
  | send force tm h' data => exact (hg.send hh).2
  | recv th tm h' => trivial
  | drop n => exact dropsOnce hg.inv n

end Steps

/-! ## The receivers connect -/

/-- Nothing has been pushed yet. -/
structure Opened (s : Chan B) : Prop where
  good : Recycling.Good s
  fresh : ∀ σ, B.pend s.world.que.que σ = 0#32

theorem Opened.guarded {s : Chan B} (ho : Opened s) : Guarded s := by
  refine ⟨ho.good.inv, ho.good.calm.inv, ho.good.calm.own, ho.good.calm.owned, ?_⟩
  intro h _ b _ σ hbit
  rw [ho.fresh] at hbit
  simp at hbit

theorem connect_que (q : Sys B) (h : Nat) : (q.connect h).que = q.que := by
  rcases q.connect_cases h with ⟨_, he⟩ | ⟨_, _, he⟩ | ⟨_, _, _, _, _, _, he⟩ <;> rw [he]

theorem Opened.connect {s : Chan B} (ho : Opened s) (th h : Nat) :
    Opened (s.reconnect th h true) := by
  refine ⟨ho.good.reconnect th h true, fun σ => ?_⟩
  obtain ⟨_, _, ⟨_, _, hq⟩ | ⟨hf, _⟩⟩ := reconnect_frame s th h true
  · rw [hq, connect_que]
    exact ho.fresh σ
  · cases hf

theorem init_opened (B : Broadcast MsgT) (ccId : Nat → MsgId) : Opened (Chan.init B ccId) :=
  ⟨Recycling.init_good B ccId, B.init_pend⟩

theorem run_connects {s t : Chan B} {hs : List Nat} (ho : Opened s)
    (hr : Lib.Runs.run step s (connects hs) = some t) : Opened t := by
  induction hs generalizing s with
  | nil => cases hr; exact ho
  | cons h hs ih => exact ih (ho.connect 0 h) hr

theorem meets_connects {good : Chan B → Act → Prop} (hgood : ∀ s h, good s (.reconnect 0 h true))
    (s : Chan B) (hs : List Nat) : Lib.Runs.Meets step good s (connects hs) := by
  induction hs generalizing s with
  | nil => trivial
  | cons h hs ih => exact ⟨hgood s h, fun t _ => ih t⟩

/-- Both policies, every set of receivers and every run. -/
theorem clears_of_run (rp : Relat) (ccId : Nat → MsgId) (hs : List Nat) {acts : List Act}
    (hw : ∀ a ∈ acts, Works a)
    (hh : Lib.Runs.Meets step Harmless (Chan.init (policy rp) ccId) (connects hs ++ acts)) :
    Lib.Runs.Meets step Clears (Chan.init (policy rp) ccId) (connects hs ++ acts) := by
  refine (meets_connects (fun _ _ => trivial) _ hs).append fun s hr => ?_
  have hg : Guarded s := (run_connects (init_opened _ ccId) hr).guarded
  exact Lib.Runs.Meets.imp (P := Guarded) (fun _ _ _ hg h hs => step_guarded hg h.2 h.1 hs)
    (fun _ _ hg h => hg.clears h.2 h.1) hg ((hh.of_append hr).and hw)

/-! ## A queue that is full -/

/-- Messages pushed and none popped. -/
structure Filling (n : Nat) (q : Sys B) : Prop where
  calm : Calm q
  noStale : NoStale q
  len : q.log.length = n
  done : ∀ h, q.member h → q.done h = 0

section Filling
variable {n : Nat} {q : Sys B} {msg : MsgT}

theorem Filling.steady (hf : Filling n q) : Steady q :=
  ⟨hf.calm.inv, hf.calm.own, hf.calm.owned, hf.noStale⟩

theorem Filling.push (hf : Filling n q) (hn : n < 256) (hcc : q.cc ≠ 0#32) (msg : MsgT) :
    ∃ t, q.push msg = some t ∧ Filling (n + 1) t ∧ t.cc = q.cc ∧ t.handle = q.handle ∧
      t.reader = q.reader ∧ t.log = q.log ++ [msg] := by
  cases hp : q.push msg with
  | none =>
    obtain ⟨i, _, hlap, _⟩ := hf.steady.blocked (fun _ => by rw [hf.len]; omega) hp hcc
    rw [hf.len] at hlap
    omega
  | some t =>
    have hcalm := hf.calm.push hp
    have hstale := hf.noStale.push hf.calm.inv hp
    have hlog := push_log hp
    obtain ⟨q', _, rfl⟩ := Option.map_eq_some_iff.mp hp
    exact ⟨_, rfl, ⟨hcalm, hstale, by rw [hlog, List.length_append, hf.len]; rfl, hf.done⟩,
      rfl, rfl, rfl, rfl⟩

theorem Opened.filling {s : Chan B} (ho : Opened s) (hlog : s.world.que.log = []) :
    Filling 0 s.world.que := by
  refine ⟨ho.good.calm, ho.guarded.steady.noStale, by rw [hlog]; rfl, fun h hm => ?_⟩
  have := (ho.good.calm.inv.room h hm).1
  rw [hlog] at this
  exact Nat.le_zero.mp this

/-- One receiver a whole lap behind blocks the push, and another keeps the forced push
from failing. -/
theorem forces_of_lap (hs : Steady q) (hcur : ∀ σ, B.current q.que σ) (hlen : q.log.length = 256)
    {h h' : Nat} (hm : q.member h) (hd : q.done h = 0) (hm' : q.member h') (hd' : q.done h' ≠ 0)
    (msg : MsgT) :
    q.push msg = none ∧ ∃ t old, q.forcePush msg = (t, some old) ∧ q.log[0]? = some old := by
  obtain ⟨b, hb, hcb⟩ := hs.inv.ids h hm
  obtain ⟨b', hb', hcb'⟩ := hs.inv.ids h' hm'
  constructor
  · rw [Sys.push, Option.map_eq_none_iff, B.push_none hs.inv.ok fun _ => by rw [hlen]; decide]
    refine .inr ⟨Lib.Bits.ne_zero_iff.mpr ⟨b, ?_⟩, hcur _⟩
    rw [BitVec.getLsbD_and, hcb, hs.inv.lap_pending hm hb (by rw [hlen, hd])]
    rfl
  · have hnot : (B.pend q.que (slot 8 q.log.length)).getLsbD b' = false := by
      by_contra hbit
      have := hs.noStale.lap hs.inv hm' hb' (by simpa using hbit)
      omega
    cases hf : q.forcePush msg with
    | mk t old =>
      cases old with
      | some old => exact ⟨t, old, rfl, forcePush_old hs.inv hf (by rw [hlen])⟩
      | none =>
        exfalso
        unfold Sys.forcePush at hf
        cases hf' : B.forcePush q.que q.cc msg with
        | mk q' r =>
          obtain ⟨cc, old'⟩ := r
          rw [hf'] at hf
          cases old' with
          | some y => cases hf
          | none =>
            obtain ⟨hcc, h0, _⟩ := B.force_none hs.inv.ok hf'
            refine Lib.Bits.ne_zero_iff.mpr ⟨b', ?_⟩ (hcc.symm.trans h0)
            rw [Lib.Bits.getLsbD_and_not, hcb', hnot]
            rfl

end Filling

/-! ## Two receivers and a lap of messages -/

section Lap
variable {n : Nat} {s : Chan (policy .single)}

/-- The element of the large message, and that of a message of one byte. -/
def largeMsg : MsgT := MsgT.make 3 0 ⟨1, .storageId 0⟩
def smallMsg (id : MsgId) : MsgT := MsgT.make 3 id ⟨-63, .bytes [0]⟩

/-- Handle 2 after its first call. -/
def talker : Sender := ⟨3, true, true, true, false⟩

/-- Handles 0 and 1 have `n` messages to pop, of which the first is large. -/
structure Filled (n : Nat) (s : Chan (policy .single)) : Prop where
  filling : Filling n s.world.que
  cc : s.world.que.cc = 3
  members : s.world.que.member 0 ∧ s.world.que.member 1
  first : s.world.que.log[0]? = some largeMsg
  held : s.held = []
  talker : s.sender 2 = talker
  ctx : s.ctx 0 = ⟨true, 1⟩

/-- What a call with one byte pushes. -/
theorem elements_small (hsnd : s.sender 2 = talker) :
    Send.readySending (queue (policy .single)) (s.sender 2) s.world = (true, talker, s.world) ∧
    elements (queue (policy .single)) (s.sender 2) s.world [0] = [smallMsg s.world.acc] := by
  rw [hsnd]
  exact ⟨rfl, rfl⟩

theorem passes_small (hsnd : s.sender 2 = talker) (hcc : s.world.que.cc ≠ 0#32) :
    Passes (queue (policy .single)) (s.sender 2) s.world [0] := by
  refine ⟨by simp, by rw [hsnd]; rfl, by rw [(elements_small hsnd).1], hcc, by rw [hsnd]; rfl⟩

/-- A call that makes one push. -/
theorem send_single {force : Bool} {tm h : Nat} {data : List Byte} {msg : MsgT}
    (hp : Passes (queue (policy .single)) (s.sender h) s.world data)
    (hel : elements (queue (policy .single)) (s.sender h) s.world data = [msg]) :
    (s.send force tm h data).world = (tryPush (queue (policy .single)) force tm
      (Send.readySending (queue (policy .single)) (s.sender h) s.world).2.1
      (begun (queue (policy .single)) (s.sender h) s.world data).2 msg).1 ∧
    (s.send force tm h data).sender h =
      (Send.readySending (queue (policy .single)) (s.sender h) s.world).2.1 := by
  have he := send_eq force tm hp
  rw [hel, tryPushes_singleton] at he
  unfold Chan.send
  rw [he]
  exact ⟨rfl, by simp⟩

theorem send_pushed (force : Bool) (tm : Nat) {h : Nat} {data : List Byte} {msg : MsgT}
    {t : Sys (policy .single)}
    (hp : Passes (queue (policy .single)) (s.sender h) s.world data)
    (hel : elements (queue (policy .single)) (s.sender h) s.world data = [msg])
    (hpush : s.world.que.push msg = some t) : (s.send force tm h data).world.que = t := by
  have hpush' : (queue (policy .single)).push
      (begun (queue (policy .single)) (s.sender h) s.world data).2.que msg = some t := by
    rw [begun_que]
    exact hpush
  rw [(send_single hp hel).1, tryPush, hpush']

/-- A call that makes one push while nobody holds a buffer. -/
theorem harmless_single {force : Bool} {tm h : Nat} {data : List Byte} {msg : MsgT}
    (hcur : ∀ σ, (policy .single).current s.world.que.que σ)
    (hlen : s.world.que.log.length < 2 ^ 32) (hheld : s.held = []) (hu : data.length < 2 ^ 31)
    (hel : elements (queue (policy .single)) (s.sender h) s.world data = [msg]) :
    Harmless s (.send force tm h data) := by
  refine ⟨hu, fun _ => ?_⟩
  rw [hel]
  refine ⟨⟨fun _ h' _ _ => ?_, fun _ _ => ?_, fun _ _ k hk => ?_⟩, fun _ => trivial⟩
  · rw [begun_que]
    exact hcur _
  · rw [begun_que]
    exact hlen
  · rw [hheld] at hk
    cases hk

theorem Filled.send (hf : Filled n s) (hn : n < 256) :
    Filled (n + 1) (s.send true 0 2 [0]) ∧ Harmless s (.send true 0 2 [0]) := by
  have hcc : s.world.que.cc ≠ 0#32 := by rw [hf.cc]; decide
  obtain ⟨t, hp, hfill, htcc, _, htr, htl⟩ := hf.filling.push hn hcc (smallMsg s.world.acc)
  obtain ⟨hr, hel⟩ := elements_small hf.talker
  have hpass := passes_small hf.talker hcc
  have hque : (s.send true 0 2 [0]).world.que = t := send_pushed true 0 hpass hel hp
  refine ⟨⟨by rw [hque]; exact hfill, by rw [hque, htcc, hf.cc], ?_, ?_, hf.held, ?_,
    (send_ctx s 0 2 true [0] 0).trans hf.ctx⟩, ?_⟩
  · rw [hque]
    simp only [Sys.member, htr]
    exact hf.members
  · rw [hque, htl]
    exact Lib.Logs.getElem?_snoc hf.first
  · rw [(send_single hpass hel).2, hr]
  · exact harmless_single hf.filling.calm.current (by rw [hf.filling.len]; omega) hf.held (by simp)
      hel

/-- The channel with both receivers connected. -/
def opened : Chan (policy .single) :=
  ((Chan.init _ Recycling.handleIds).reconnect 0 0 true).reconnect 0 1 true

theorem filled_large : Filled 1 (opened.send true 0 2 (List.replicate 65 0)) ∧
    Harmless opened (.send true 0 2 (List.replicate 65 0)) := by
  have ho : Opened opened :=
    ((init_opened (policy .single) Recycling.handleIds).connect 0 0).connect 0 1
  have hfill := ho.filling rfl
  have hel : elements (queue (policy .single)) (opened.sender 2) opened.world
      (List.replicate 65 0) = [largeMsg] := by decide +kernel
  have hpass : Passes (queue (policy .single)) (opened.sender 2) opened.world
      (List.replicate 65 0) :=
    ⟨by decide, by decide +kernel, by decide +kernel, by decide +kernel, by decide +kernel⟩
  obtain ⟨t, hp, hfill', htcc, _, htr, htl⟩ := hfill.push (by decide) (by decide +kernel) largeMsg
  have hque := send_pushed true 0 hpass hel hp
  refine ⟨⟨by rw [hque]; exact hfill', ?_, ?_, ?_, rfl, ?_, ?_⟩, ?_⟩
  · rw [hque, htcc]
    decide +kernel
  · rw [hque]
    simp only [Sys.member, htr]
    decide +kernel
  · rw [hque, htl]
    rfl
  · rw [(send_single hpass hel).2]
    rfl
  · rw [send_ctx]
    rfl
  · exact harmless_single hfill.calm.current (by decide +kernel) rfl (by decide) hel

theorem Filled.run {m : Nat} (hf : Filled n s) (hm : n + m ≤ 256) :
    ∃ t, Lib.Runs.run step s (List.replicate m (.send true 0 2 [0])) = some t ∧
      Filled (n + m) t ∧
      Lib.Runs.Meets step Harmless s (List.replicate m (.send true 0 2 [0])) := by
  induction m generalizing n s with
  | zero => exact ⟨s, rfl, hf, trivial⟩
  | succ m ih =>
    obtain ⟨hf', hh⟩ := hf.send (by omega)
    obtain ⟨t, hr, hft, hmeets⟩ := ih hf' (by omega)
    refine ⟨t, hr, by rw [show n + (m + 1) = n + 1 + m by omega]; exact hft, hh, ?_⟩
    rintro _ ⟨⟩
    exact hmeets

/-- A lap of messages, the first of them large. -/
def lap : List Act :=
  .send true 0 2 (List.replicate 65 0) :: List.replicate 255 (.send true 0 2 [0])

theorem filled_lap : ∃ s, Lib.Runs.run step opened lap = some s ∧ Filled 256 s ∧
    Lib.Runs.Meets step Harmless opened lap := by
  obtain ⟨hf, hh⟩ := filled_large
  obtain ⟨s, hr, hfs, hmeets⟩ := hf.run (m := 255) (by decide)
  have hs : step opened (.send true 0 2 (List.replicate 65 0)) =
      some (opened.send true 0 2 (List.replicate 65 0)) := rfl
  unfold lap
  refine ⟨s, by rw [Lib.Runs.run_step hs, hr], hfs, hh, fun t ht => ?_⟩
  obtain rfl := Option.some.inj (hs.symm.trans ht)
  exact hmeets

/-- Handle 0 has popped the first message, handle 1 none. -/
structure Lapped (s : Chan (policy .single)) : Prop where
  steady : Steady s.world.que
  current : ∀ σ, (policy .single).current s.world.que.que σ
  cc : s.world.que.cc = 3
  len : s.world.que.log.length = 256
  first : s.world.que.log[0]? = some largeMsg
  fast : s.world.que.member 0 ∧ s.world.que.done 0 = 1
  slow : s.world.que.member 1 ∧ s.world.que.done 1 = 0
  talker : s.sender 2 = talker

theorem Filled.recv (hf : Filled 256 s) :
    Lapped (s.recv 0 0 0) ∧ ∃ k, (s.recv 0 0 0).held = [k] ∧ chunk k = (calcChunkSize 65, 0) := by
  have hm := hf.members.1
  have hinv := hf.filling.calm.inv
  have hd := hf.filling.done
  -- what handle 0 pops
  obtain ⟨last, q, hp⟩ : ∃ last q, s.world.que.pop 0 = some (largeMsg, last, q) := by
    have heq := hinv.pop_eq hm
    rw [hd 0 hm, hf.first] at heq
    obtain ⟨⟨x, last, q⟩, hq, rfl⟩ := Option.map_eq_some_iff.mp heq
    exact ⟨last, q, hq⟩
  have hconn : s.connected 0 = true := hinv.connected_of_member hm
  have hrecv : s.recv 0 0 0 = (s.setQue q).receive 0 0 (s.world.que.done 0) largeMsg := by
    rw [Chan.recv, if_neg (by simp [hconn]), hp]
  obtain ⟨hw, hsnd, hcases⟩ := receive_frame (s.setQue q) 0 0 (s.world.que.done 0) largeMsg
  rw [← hrecv] at hw hsnd hcases
  have hq : (s.recv 0 0 0).world.que = q := congrArg (·.que) hw
  have hsteady := hf.filling.steady.pop hp
  have hmem := fun h => member_of_pop hp h
  refine ⟨⟨by rw [hq]; exact hsteady, by rw [hq]; exact (hf.filling.calm.pop hp).current,
    by rw [hq, pop_cc hp, hf.cc], by rw [hq, pop_log hp, hf.filling.len],
    by rw [hq, pop_log hp, hf.first], ?_, ?_, by rw [hsnd]; exact hf.talker⟩, ?_⟩
  · rw [hq]
    exact ⟨(hmem 0).1.mpr hm, by rw [(hmem 0).2.2, if_pos rfl, hd 0 hm]⟩
  · rw [hq]
    exact ⟨(hmem 1).1.mpr hf.members.2, by rw [(hmem 1).2.2, if_neg (by decide), hd 1 hf.members.2]⟩
  · have hc : chunkOf largeMsg = some (calcChunkSize 65, 0) := by decide +kernel
    rcases hcases with ⟨_, hskip⟩ | ⟨id, size, _, hchunk, hh⟩
    · have hctx : (s.setQue q).ctx 0 = ⟨true, 1⟩ := hf.ctx
      have := (hskip (by rw [hc]; simp)).2
      rw [hctx] at this
      exact absurd this (by decide +kernel)
    · refine ⟨_, by rw [hh, show (s.setQue q).held = [] from hf.held]; rfl, ?_⟩
      rw [hc, Option.some.injEq] at hchunk
      exact hchunk.symm

theorem Lapped.drop (hl : Lapped s) (m : Nat) : Lapped (s.drop m) := by
  have hq := drop_que s m
  have hsnd : (s.drop m).sender = s.sender := by
    unfold Chan.drop
    split <;> rfl
  exact ⟨hq ▸ hl.steady, hq ▸ hl.current, hq ▸ hl.cc, hq ▸ hl.len, hq ▸ hl.first, hq ▸ hl.fast,
    hq ▸ hl.slow, hsnd ▸ hl.talker⟩

/-- The next call comes to a forced push over the large message. -/
theorem Lapped.forces (hl : Lapped s) (msg : MsgT) : s.world.que.push msg = none ∧
    ∃ t, s.world.que.forcePush msg = (t, some largeMsg) := by
  obtain ⟨hnone, t, old, hf, hold⟩ := forces_of_lap hl.steady hl.current hl.len hl.slow.1
    hl.slow.2 hl.fast.1 (by rw [hl.fast.2]; decide) msg
  rw [hl.first] at hold
  cases hold
  exact ⟨hnone, t, hf⟩

theorem Lapped.send (hl : Lapped s) : (s.send true 0 2 [0]).world.que.log.length = 257 := by
  have hpass := passes_small hl.talker (by rw [hl.cc]; decide)
  obtain ⟨hr, hel⟩ := elements_small hl.talker
  obtain ⟨hnone, t, hforce⟩ := hl.forces (smallMsg s.world.acc)
  have hque := begun_que (Q := queue (policy .single)) (s.sender 2) s.world [0]
  rw [← hque] at hnone hforce
  have hlen : t.log.length = 257 := by
    rw [forcePush_some_log hforce, hque, List.length_append, hl.len]
    rfl
  rw [(send_single hpass hel).1, hr]
  rcases tryPush_cases (queue (policy .single)) true 0 Overwriting.talker
      (begun (queue (policy .single)) (s.sender 2) s.world [0]).2 (smallMsg s.world.acc) with
    ⟨q, hp, _⟩ | ⟨hno, _⟩ | ⟨q, _, hp, _⟩ | ⟨q, old, _, hp, he⟩
  · cases hnone.symm.trans hp
  · exact absurd ⟨rfl, hnone, by simp⟩ hno
  · cases hforce.symm.trans hp
  · rw [he]
    cases hforce.symm.trans hp
    exact hlen

/-- Handle 0 drops its buffer before the forced push. -/
def dropsBefore : List Act := lap ++ [.recv 0 0 0, .drop 0, .send true 0 2 [0]]

theorem clears_dropsBefore : ∃ s : Chan (policy .single),
    Lib.Runs.run step (Chan.init _ Recycling.handleIds) (connects [0, 1] ++ dropsBefore) = some s ∧
      s.world.que.log.length = 257 ∧
      Lib.Runs.Meets step Clears (Chan.init (policy .single) Recycling.handleIds)
        (connects [0, 1] ++ dropsBefore) := by
  obtain ⟨s, hr, hf, hmeets⟩ := filled_lap
  obtain ⟨hl, k, hheld, _⟩ := hf.recv
  have hl' := hl.drop 0
  have hopened : Lib.Runs.run step (Chan.init (policy .single) Recycling.handleIds)
      (connects [0, 1]) = some opened := rfl
  have hheld' : ((s.recv 0 0 0).drop 0).held = [] := by simp [Chan.drop, hheld]
  have hlast : Lib.Runs.Meets step Harmless s [.recv 0 0 0, .drop 0, .send true 0 2 [0]] := by
    refine ⟨trivial, fun t ht => ?_⟩
    obtain rfl : s.recv 0 0 0 = t := Option.some.inj ht
    refine ⟨fun k' _ k'' hk'' => ?_, fun t ht => ?_⟩
    · rw [hheld] at hk''
      cases hk''
    obtain rfl : (s.recv 0 0 0).drop 0 = t := Option.some.inj ht
    exact ⟨harmless_single hl'.current (by rw [hl'.len]; decide) hheld' (by simp)
      (elements_small hl'.talker).2, fun _ _ => trivial⟩
  refine ⟨((s.recv 0 0 0).drop 0).send true 0 2 [0], ?_, hl'.send,
    clears_of_run .single Recycling.handleIds [0, 1] ?_ ?_⟩
  · rw [Lib.Runs.run_append, hopened, Option.bind_some, dropsBefore, Lib.Runs.run_append, hr]
    rfl
  · intro a ha
    simp only [dropsBefore, lap, List.mem_append, List.mem_cons, List.mem_replicate,
      List.not_mem_nil, or_false] at ha
    rcases ha with (rfl | ⟨_, rfl⟩) | rfl | rfl | rfl <;> trivial
  · refine (meets_connects (fun _ _ => trivial) _ [0, 1]).append fun t ht => ?_
    obtain rfl := Option.some.inj (hopened.symm.trans ht)
    refine hmeets.append fun t ht => ?_
    obtain rfl := Option.some.inj (hr.symm.trans ht)
    exact hlast

/-- Handle 0 holds its buffer. -/
def dropsLater : List Act := lap ++ [.recv 0 0 0, .send true 0 2 [0]]

/-- The forced push removes handle 1 and releases the chunk under the buffer. -/
theorem not_clears_dropsLater : (∀ a ∈ dropsLater, Works a) ∧
    ¬ Lib.Runs.Meets step Clears (Chan.init (policy .single) Recycling.handleIds)
      (connects [0, 1] ++ dropsLater) := by
  constructor
  · intro a ha
    simp only [dropsLater, lap, List.mem_append, List.mem_cons, List.mem_replicate,
      List.not_mem_nil, or_false] at ha
    rcases ha with (rfl | ⟨_, rfl⟩) | rfl | rfl <;> trivial
  · intro hm
    obtain ⟨s, hr, hf, _⟩ := filled_lap
    obtain ⟨hl, k, hheld, hchunk⟩ := hf.recv
    have hopened : Lib.Runs.run step (Chan.init (policy .single) Recycling.handleIds)
        (connects [0, 1]) = some opened := rfl
    obtain ⟨hnone, t, hforce⟩ := hl.forces (smallMsg (s.recv 0 0 0).world.acc)
    have hpush := (((hm.of_append hopened).of_append hr).2 (s.recv 0 0 0) rfl).1
      (passes_small hl.talker (by rw [hl.cc]; decide))
    rw [(elements_small hl.talker).2] at hpush
    have hque := begun_que (Q := queue (policy .single)) ((s.recv 0 0 0).sender 2)
      (s.recv 0 0 0).world [0]
    rw [← hque] at hnone hforce
    have hfree := hpush.1 ⟨rfl, hnone, by simp⟩ largeMsg (calcChunkSize 65) 0
      (by rw [hforce]) (by decide +kernel)
    exact hfree.2 k (by rw [hheld]; exact List.mem_cons_self) hchunk

end Lap

end CppIpc.Overwriting
