import CppIpc.ChunkBytes
import CppIpc.Lib.Logs

/-! # What a receiver is given

From the bytes that `send` is handed to the buffers that `recv` returns, with the calls of
all senders and receivers interleaved push by push and turn by turn. Every message whose
last element a receiver has popped since it connected is given to it once, in the order of
these last elements; of a message that was under way when the receiver connected it gets the
bytes from there on. -/
namespace CppIpc.Delivery
open CppIpc.Def CppIpc.Message CppIpc.Storage CppIpc.Send CppIpc.Fragments
open CppIpc.ProdCons CppIpc.Policies CppIpc.Debts CppIpc.CallSteps
open CppIpc.ChunkBytes hiding Inv Careful step_inv init_inv
open CppIpc.Reclaim hiding Inv
open CppIpc.Ipc hiding Act step
open CppIpc.Receivers hiding Act step Inv
open CppIpc.Recycling hiding Careful step_good
open CppIpc.Lib.Runs (run Meets)
open CppIpc.Lib.Logs

variable {B : Broadcast MsgT}

/-! ## What is due to a handle -/

/-- Handle `h` passes over what its own connection sends. -/
def Own (s : Net B) (h : Nat) (c : Call) : Prop :=
  (s.chan.ctx h).acc = true ∧ c.sent.ccId = (s.chan.ctx h).ccId

instance Own.decidable (s : Net B) (h : Nat) (c : Call) : Decidable (Own s h c) :=
  inferInstanceAs (Decidable (_ ∧ _))

/-- How many elements of call `n` were in the log when handle `h` connected. -/
def missed (s : Net B) (h n : Nat) : Nat := rank s.origin (s.chan.world.que.reader h).since n

/-- How many of them are before what the handle pops next. -/
def seen (s : Net B) (h n : Nat) : Nat := rank s.origin (s.chan.world.que.done h) n

/-- Some elements of call `n` have been popped, but not the last one. -/
def Half (s : Net B) (h n : Nat) : Prop := ∃ c ∈ s.calls[n]?,
  ¬ Own s h c ∧ missed s h n < seen s h n ∧ seen s h n < c.elems.length

/-- The calls whose last element the handle has popped, in the order of these elements. -/
def finished (s : Net B) (h : Nat) : List Nat :=
  (List.range' (s.chan.world.que.reader h).since
    (s.chan.world.que.reader h).popped.length).filterMap fun i =>
      (s.origin[i]?).filter fun n => decide (∃ c ∈ s.calls[n]?,
        ¬ Own s h c ∧ rank s.origin i n + 1 = c.elems.length)

/-- The message of call `n`, or what was still to be pushed of it when `h` connected. -/
def content (s : Net B) (h n : Nat) : Bytes :=
  match s.calls[n]? with
  | none => []
  | some c => (c.sent.bytes.drop (64 * missed s h n)).map some

/-! ## The invariant -/

/-- The elements of a call are in the log in order, and those it has yet to push come next. -/
structure Placed (s : Net B) : Prop where
  elem : ∀ (i n : Nat) (c : Call), s.origin[i]? = some n → s.calls[n]? = some c →
    s.chan.world.que.log[i]? = c.elems[rank s.origin i n]?
  rest : ∀ (n : Nat) (c : Call), Pending s n c → c.rest = c.elems.drop (s.origin.count n)

/-- The cache of a handle's thread has the messages that are half popped, and what the handle
was given is what is due. -/
structure Kept (s : Net B) (h : Nat) : Prop where
  found : ∀ (n : Nat) (c : Call), s.calls[n]? = some c → Half s h n →
    (s.chan.cache h).find c.sent.id =
      some (entry (c.sent.bytes.drop (64 * missed s h n)) (seen s h n - missed s h n))
  keys : ∀ k ∈ (s.chan.cache h).map Prod.fst, ∃ (n : Nat) (c : Call),
    s.calls[n]? = some c ∧ Half s h n ∧ c.sent.id = k
  one : ∀ (n n' : Nat) (c c' : Call), s.calls[n]? = some c → s.calls[n']? = some c' →
    Half s h n → Half s h n' → c.sent.id = c'.sent.id → n = n'
  given : s.out h = (finished s h).map (content s h)

structure Inv (s : Net B) : Prop where
  chunks : ChunkBytes.Inv s
  placed : Placed s
  kept : ∀ h, s.chan.world.que.member h → Kept s h
  idle : ∀ h, ¬ s.chan.world.que.member h → s.chan.cache h = []

section Frame
variable {s t : Net B} {h n i : Nat}

theorem Inv.since_le (hi : ChunkBytes.Inv s) (hm : s.chan.world.que.member h) :
    (s.chan.world.que.reader h).since ≤ s.chan.world.que.done h ∧
      s.chan.world.que.done h ≤ s.origin.length :=
  ⟨Nat.le_add_right _ _, by rw [hi.length]; exact (hi.good.inv.queue.room h hm).1⟩

/-- What is in the log comes from a call. -/
theorem call_of_origin (hi : ChunkBytes.Inv s) (ho : s.origin[i]? = some n) :
    ∃ c, s.calls[n]? = some c ∧ ∃ msg ∈ c.elems, s.chan.world.que.log[i]? = some msg := by
  have hlt := (List.getElem?_eq_some_iff.mp ho).1
  rw [hi.length] at hlt
  obtain ⟨c, hc, hm⟩ := hi.origin i n _ ho (List.getElem?_eq_getElem hlt)
  exact ⟨c, hc, _, hm, List.getElem?_eq_getElem hlt⟩

theorem call_of_rank (hi : ChunkBytes.Inv s) (hr : 0 < rank s.origin i n) :
    ∃ c, s.calls[n]? = some c := by
  obtain ⟨j, hj⟩ := List.mem_iff_getElem?.mp (mem_of_rank_pos hr)
  obtain ⟨c, hc, _⟩ := call_of_origin hi hj
  exact ⟨c, hc⟩

/-- Nothing has happened to handle `h`, whatever the others did. -/
structure Ahead (s t : Net B) (h : Nat) : Prop where
  calls : ∀ (n : Nat) (c : Call), s.calls[n]? = some c → ∃ r, t.calls[n]? = some (c.left r)
  origin : s.origin <+: t.origin
  reader : t.chan.world.que.reader h = s.chan.world.que.reader h
  ctx : t.chan.ctx h = s.chan.ctx h
  cache : t.chan.cache h = s.chan.cache h
  out : t.out h = s.out h

section Same
variable (ha : Ahead s t h) (hi : ChunkBytes.Inv s) (hm : s.chan.world.que.member h)
include ha

theorem Ahead.done_eq : t.chan.world.que.done h = s.chan.world.que.done h := by
  rw [Sys.done, Sys.done, ha.reader]

theorem Ahead.own_iff (c : Call) (r : List MsgT) : Own t h (c.left r) ↔ Own s h c := by
  rw [Own, ha.ctx]
  rfl

include hi hm

theorem Ahead.rank_eq (hle : i ≤ s.chan.world.que.done h) (n : Nat) :
    rank t.origin i n = rank s.origin i n := by
  obtain ⟨r, hr⟩ := ha.origin
  rw [← hr, rank_append _ _ (Nat.le_trans hle (Inv.since_le hi hm).2)]

theorem Ahead.missed_eq (n : Nat) : missed t h n = missed s h n := by
  rw [missed, ha.reader, ha.rank_eq hi hm (Inv.since_le hi hm).1, missed]

theorem Ahead.seen_eq (n : Nat) : seen t h n = seen s h n := by
  rw [seen, ha.done_eq, ha.rank_eq hi hm (Nat.le_refl _), seen]

theorem Ahead.half_iff : Half t h n ↔ Half s h n := by
  rw [Half, Half, ha.missed_eq hi hm, ha.seen_eq hi hm]
  constructor
  · rintro ⟨c, hc, hown, hlt, hlen⟩
    obtain ⟨c', hc'⟩ := call_of_rank hi (Nat.zero_lt_of_lt hlt)
    obtain ⟨r, hr⟩ := ha.calls n c' hc'
    rw [hr] at hc
    cases hc
    exact ⟨c', hc', fun h => hown ((ha.own_iff c' r).mpr h), hlt, hlen⟩
  · rintro ⟨c, hc, hown, hlt, hlen⟩
    obtain ⟨r, hr⟩ := ha.calls n c hc
    exact ⟨_, hr, fun h => hown ((ha.own_iff c r).mp h), hlt, hlen⟩

theorem Ahead.finished_eq : finished t h = finished s h := by
  unfold finished
  rw [ha.reader]
  refine List.filterMap_congr fun i hir => ?_
  have hlt : i < s.chan.world.que.done h := (List.mem_range'_1.mp hir).2
  have hlen := Nat.lt_of_lt_of_le hlt (Inv.since_le hi hm).2
  obtain ⟨n, hn⟩ : ∃ n, s.origin[i]? = some n := ⟨_, List.getElem?_eq_getElem hlen⟩
  have hn' : t.origin[i]? = some n := getElem?_of_prefix ha.origin hn
  rw [hn', hn]
  obtain ⟨c, hc, _⟩ := call_of_origin hi hn
  obtain ⟨r, hr⟩ := ha.calls n c hc
  simp only [Option.filter_some, hr, hc, Option.mem_def, Option.some.injEq, exists_eq_left',
    ha.own_iff c r, ha.rank_eq hi hm (Nat.le_of_lt hlt)]
  rfl

theorem Ahead.content_eq {c : Call} (hc : s.calls[n]? = some c) : content t h n = content s h n := by
  obtain ⟨r, hr⟩ := ha.calls n c hc
  simp only [content, hr, hc, ha.missed_eq hi hm]
  rfl

end Same

theorem call_of_finished (hi : ChunkBytes.Inv s) (hn : n ∈ finished s h) :
    ∃ c, s.calls[n]? = some c := by
  obtain ⟨i, _, hf⟩ := List.mem_filterMap.mp hn
  obtain ⟨ho, _⟩ := Option.filter_eq_some_iff.mp hf
  obtain ⟨c, hc, _⟩ := call_of_origin hi ho
  exact ⟨c, hc⟩

theorem Kept.keep (hk : Kept s h) (ha : Ahead s t h) (hi : ChunkBytes.Inv s)
    (hm : s.chan.world.que.member h) : Kept t h := by
  -- a call that is half popped was there before
  have hold : ∀ {n : Nat} {c : Call}, t.calls[n]? = some c → Half t h n →
      ∃ c', s.calls[n]? = some c' ∧ Half s h n ∧ c'.sent = c.sent := by
    intro n c hc hh
    have hs := (ha.half_iff hi hm).mp hh
    have ⟨c', hc', _⟩ := hs
    obtain ⟨r, hr⟩ := ha.calls n c' hc'
    rw [hr] at hc
    cases hc
    exact ⟨c', hc', hs, rfl⟩
  refine ⟨fun n c hc hh => ?_, fun k hkey => ?_, fun n n' c c' hc hc' hh hh' he => ?_, ?_⟩
  · obtain ⟨c', hc', hh, hs⟩ := hold hc hh
    rw [ha.cache, ha.missed_eq hi hm, ha.seen_eq hi hm, ← hs]
    exact hk.found n c' hc' hh
  · rw [ha.cache] at hkey
    obtain ⟨n, c, hc, hh, hid⟩ := hk.keys k hkey
    obtain ⟨r, hr⟩ := ha.calls n c hc
    exact ⟨n, _, hr, (ha.half_iff hi hm).mpr hh, hid⟩
  · obtain ⟨d, hd, hh, hs⟩ := hold hc hh
    obtain ⟨d', hd', hh', hs'⟩ := hold hc' hh'
    exact hk.one n n' d d' hd hd' hh hh' (by rw [hs, hs', he])
  · rw [ha.out, ha.finished_eq hi hm, hk.given]
    refine List.map_congr_left fun n hn => ?_
    obtain ⟨c, hc⟩ := call_of_finished hi hn
    exact (ha.content_eq hi hm hc).symm

/-- A handle that has just connected. -/
theorem kept_fresh (hp : (s.chan.world.que.reader h).popped = []) (hc : s.chan.cache h = [])
    (ho : s.out h = []) : Kept s h := by
  have hnone : ∀ n, ¬ Half s h n := by
    rintro n ⟨_, _, _, hlt, _⟩
    rw [seen, Sys.done, hp, List.length_nil, Nat.add_zero, missed] at hlt
    exact Nat.lt_irrefl _ hlt
  refine ⟨fun n _ _ hh => absurd hh (hnone n), ?_, fun n _ _ _ _ _ hh => absurd hh (hnone n), ?_⟩
  · rw [hc]
    intro k hk
    cases hk
  · rw [ho, finished, hp]
    rfl

end Frame

/-! ## The elements in the log -/

section Log
variable {s t : Net B} {h n : Nat}

theorem Placed.same (hp : Placed s) (hc : t.calls = s.calls) (ho : t.origin = s.origin)
    (hl : t.chan.world.que.log = s.chan.world.que.log) : Placed t := by
  refine ⟨?_, ?_⟩
  · rw [hc, ho, hl]
    exact hp.elem
  · intro n c hpend
    rw [Pending, hc] at hpend
    rw [ho]
    exact hp.rest n c hpend

/-- The start of a call. -/
theorem start_cases (s : Net B) (force : Bool) (tm h : Nat) (data : List Byte) :
    (s.start force tm h data).origin = s.origin ∧ (s.start force tm h data).out = s.out ∧
    (s.start force tm h data).chan.cache = s.chan.cache ∧
    (s.start force tm h data).chan.world.que = s.chan.world.que ∧
    (s.start force tm h data).chan.ctx = s.chan.ctx ∧
    ((s.start force tm h data).calls = s.calls ∨ ∃ c : Call,
      (s.start force tm h data).calls = s.calls ++ [c] ∧ c.rest = c.elems) := by
  by_cases hp : Passes (queue B) (s.chan.sender h) s.chan.world data
  · have hque := begun_que (Q := queue B) (s.chan.sender h) s.chan.world data
    rw [Net.start]
    dsimp only
    rw [if_pos hp]
    refine ⟨rfl, rfl, rfl, hque, ?_, .inr ⟨_, rfl, rfl⟩⟩
    obtain ⟨_, _, _, hid, hacc, _⟩ := readySending_que (Q := queue B) (s.chan.sender h) s.chan.world
    funext h'
    by_cases hne : h' = h
    · subst hne
      simp [Chan.ctx, hid, hacc]
    · simp [Chan.ctx, Function.update_of_ne hne]
  · have hque := (send_of_not_passes force tm hp).2.1
    have hctx := fun h' => send_ctx s.chan tm h force data h'
    rw [Net.start]
    dsimp only
    rw [if_neg hp]
    exact ⟨rfl, rfl, rfl, hque, funext hctx, .inl rfl⟩

theorem Placed.start (hp : Placed s) (hi : ChunkBytes.Inv s) (force : Bool) (tm h : Nat)
    (data : List Byte) : Placed (s.start force tm h data) := by
  obtain ⟨ho, _, _, hque, _, hc | ⟨c, hc, hrest⟩⟩ := start_cases s force tm h data
  · exact hp.same hc ho (by rw [hque])
  · refine ⟨fun i n d hi' hd => ?_, fun n d hpend => ?_⟩
    · rw [ho] at hi' ⊢
      rw [hque]
      obtain ⟨c', hc', _⟩ := call_of_origin hi hi'
      rw [hc, List.getElem?_append_left (List.getElem?_eq_some_iff.mp hc').1] at hd
      exact hp.elem i n d hi' hd
    · rw [ho]
      rcases pending_append hc hpend with hpend | ⟨rfl, rfl⟩
      · exact hp.rest n d hpend
      · -- nothing of the new call is in the log
        have hzero : s.origin.count s.calls.length = 0 := by
          rw [List.count_eq_zero]
          intro hmem
          obtain ⟨i, hi'⟩ := List.mem_iff_getElem?.mp hmem
          obtain ⟨_, hc', _⟩ := call_of_origin hi hi'
          exact Nat.lt_irrefl _ (List.getElem?_eq_some_iff.mp hc').1
        rw [hzero, List.drop_zero, hrest]

/-- A refused push ends with false: it is not forced, and no `quit_` makes the wait for it end
with true. -/
def Steady (s : Net B) (n : Nat) : Prop := ∀ c ∈ s.calls[n]?, ∀ msg ∈ c.rest.head?,
  s.chan.world.que.push msg = none → c.force = false ∧
    ¬ (c.tm ≠ 0 ∧ (s.chan.sender c.handle).quit = true)

theorem Steady.unforced (hs : Steady s n) : ∀ c, s.calls[n]? = some c → ∀ msg ∈ c.rest.head?,
    ¬ Forces (queue B) c.force c.tm (s.chan.sender c.handle) s.chan.world msg := by
  intro c hc msg hm hf
  have hforce := (hs c hc msg hm hf.2.1).1
  rw [hf.1] at hforce
  cases hforce

/-- One more element is in the log, or a call has given up. -/
theorem push_steady (hs : Steady s n) : s.push n = s ∨ ∃ c, s.calls[n]? = some c ∧
    (s.push n = shorten s n c [] ∨ ∃ msg rest q, c.rest = msg :: rest ∧
      s.chan.world.que.push msg = some q ∧ s.push n = { shorten s n c rest with
        chan := s.chan.setQue q, origin := s.origin ++ [n] }) := by
  rcases push_cases hs.unforced with he | ⟨c, msg, rest, hc, hr, ⟨q, hp, he⟩ | ⟨hp, he | ⟨hq, _⟩⟩⟩
  · exact .inl he
  · exact .inr ⟨c, hc, .inr ⟨msg, rest, q, hr, hp, he⟩⟩
  · exact .inr ⟨c, hc, .inl he⟩
  · exact absurd hq (hs c hc msg (by rw [hr]; rfl) hp).2

theorem Placed.shorten (hp : Placed s) {c : Call} (hc : s.calls[n]? = some c) :
    Placed (shorten s n c []) := by
  refine ⟨fun i n' c' ho h => ?_, fun n' c' hpend => ?_⟩
  · rcases shorten_cases hc h with ⟨rfl, rfl⟩ | ⟨_, h⟩
    · exact hp.elem i n' c ho hc
    · exact hp.elem i n' c' ho h
  · rcases shorten_cases hc hpend.1 with ⟨_, rfl⟩ | ⟨_, h⟩
    · exact absurd rfl hpend.2
    · exact hp.rest n' c' ⟨h, hpend.2⟩

theorem Placed.push (hp : Placed s) (hi : ChunkBytes.Inv s) (hs : Steady s n) :
    Placed (s.push n) := by
  rcases push_steady hs with he | ⟨c, hc, he | ⟨msg, rest, q, hr, hq, he⟩⟩ <;> rw [he]
  · exact hp
  · exact hp.shorten hc
  · have hpend : Pending s n c := ⟨hc, by rw [hr]; exact List.cons_ne_nil _ _⟩
    have hlog := push_log hq
    have hrest := hp.rest n c hpend
    rw [hr] at hrest
    have hhead : c.elems[s.origin.count n]? = some msg := by
      rw [← List.head?_drop, ← hrest]
      rfl
    refine ⟨fun i n' c' ho h => ?_, fun n' c' hpend' => ?_⟩
    · have hcall : ∃ d, s.calls[n']? = some d ∧ c'.elems = d.elems := by
        rcases shorten_cases hc h with ⟨rfl, rfl⟩ | ⟨_, h⟩
        · exact ⟨c, hc, rfl⟩
        · exact ⟨c', h, rfl⟩
      obtain ⟨d, hd, hel⟩ := hcall
      simp only [Chan.setQue, hlog]
      rw [hel]
      rcases getElem?_snoc_cases ho with ho | ⟨rfl, rfl⟩
      · have hlt := (List.getElem?_eq_some_iff.mp ho).1
        rw [rank_append _ _ (Nat.le_of_lt hlt), ← hp.elem i n' d ho hd,
          List.getElem?_append_left (by rw [← hi.length]; exact hlt)]
      · rw [hc] at hd
        cases hd
        rw [rank_append _ _ (Nat.le_refl _), rank_length, hhead, hi.length,
          List.getElem?_concat_length]
    · obtain ⟨h, hne⟩ := hpend'
      rw [List.count_append, List.count_singleton]
      rcases shorten_cases hc h with ⟨rfl, rfl⟩ | ⟨hn, h⟩
      · simp only [beq_self_eq_true, if_true]
        rw [← List.drop_drop]
        change rest = (c.elems.drop _).drop 1
        rw [← hrest]
        rfl
      · rw [if_neg (by simpa using Ne.symm hn), Nat.add_zero]
        exact hp.rest n' c' ⟨h, hne⟩

end Log

/-! ## A turn of `recv` -/

/-- What is left of a message after its first `j` fragments. -/
def tail (m : Sent) (j : Nat) : Sent := ⟨m.ccId, m.id, m.bytes.drop (64 * j)⟩

theorem fragCount_tail {m : Sent} {j : Nat} (hj : j ≤ fragCount m.bytes.length) :
    fragCount (tail m j).bytes.length = fragCount m.bytes.length - j := by
  rw [tail, List.length_drop]
  unfold fragCount at hj ⊢
  omega

theorem elemAt_tail {m : Sent} {j k : Nat} (hjk : j ≤ k) (hk : k < fragCount m.bytes.length) :
    (tail m j).elemAt (k - j) = m.elemAt k := by
  have hlt : 64 * k < m.bytes.length := by
    unfold fragCount at hk
    omega
  have hrem : ((m.bytes.drop (64 * j)).length : Int) - 64 * (k - j : Nat) - 64 =
      m.bytes.length - 64 * (k : Nat) - 64 := by
    rw [List.length_drop]
    omega
  have hdrop : (m.bytes.drop (64 * j)).drop (64 * (k - j)) = m.bytes.drop (64 * k) := by
    rw [List.drop_drop]
    congr 1
    omega
  rw [Sent.elemAt, Sent.elemAt, fragAt, fragAt, tail, hrem, hdrop]

section Turn
variable {s : Net B} {h n : Nat} {c : Call} {msg : MsgT}

/-- Call `n` may be mistaken for no other that is half popped. -/
def Alone (s : Net B) (h n : Nat) : Prop := ∀ (n' : Nat) (c c' : Call), s.calls[n]? = some c →
  s.calls[n']? = some c' → Half s h n' → c'.sent.id = c.sent.id → n' = n

theorem missed_le (s : Net B) (h n : Nat) : missed s h n ≤ seen s h n :=
  rank_mono _ _ (Nat.le_add_right _ _)

theorem Kept.find_eq (hk : Kept s h) (hc : s.calls[n]? = some c) (ha : Alone s h n)
    (hown : ¬ Own s h c) (hlt : seen s h n < c.elems.length) :
    (s.chan.cache h).find c.sent.id = if seen s h n = missed s h n then none
      else some (entry (c.sent.bytes.drop (64 * missed s h n)) (seen s h n - missed s h n)) := by
  by_cases hseen : seen s h n = missed s h n
  · rw [if_pos hseen, RecvCache.find_eq_none]
    intro hkey
    obtain ⟨n', c', hc', hh, hid⟩ := hk.keys _ hkey
    obtain rfl := ha n' c c' hc hc' hh hid
    obtain ⟨_, _, _, hlt', _⟩ := hh
    omega
  · rw [if_neg hseen]
    have := missed_le s h n
    exact hk.found n c hc ⟨c, hc, hown, by omega, hlt⟩

/-- A popped fragment: the turn goes on until the last one, and the entry of the message is
as it was described. -/
theorem turn_fragment (hk : Kept s h) (hok : c.Ok) (hc : s.calls[n]? = some c)
    (ha : Alone s h n) (hown : ¬ Own s h c) (hs : c.sid = none)
    (hmsg : c.elems[seen s h n]? = some msg) :
    let r := recvMsg (s.chan.ctx h) (s.chan.cache h) msg
    msg.id = c.sent.id ∧
    r.buff = (if seen s h n + 1 = c.elems.length then some (.cache (content s h n)) else none) ∧
    r.cache.find c.sent.id = if seen s h n + 1 < c.elems.length then
      some (entry (c.sent.bytes.drop (64 * missed s h n)) (seen s h n + 1 - missed s h n))
      else none := by
  have hel : c.elems = c.sent.elems := by rw [Call.elems, hs]; rfl
  have hlen : c.elems.length = fragCount c.sent.bytes.length := by
    rw [hel, Sent.elems_length hok.size]
  have hlt := (List.getElem?_eq_some_iff.mp hmsg).1
  have hfind := hk.find_eq hc ha hown hlt
  have hle := missed_le s h n
  have hcontent : content s h n = (c.sent.bytes.drop (64 * missed s h n)).map some := by
    rw [content, hc]
  rw [hcontent]
  generalize missed s h n = j at hfind hle ⊢
  generalize seen s h n = k at hmsg hlt hfind hle ⊢
  rw [hlen] at hlt ⊢
  have hmsg : msg = (tail c.sent j).elemAt (k - j) := by
    rw [elemAt_tail hle hlt]
    rw [hel, Sent.elems_eq hok.size, List.getElem?_map, List.getElem?_range hlt] at hmsg
    exact (Option.some.inj hmsg).symm
  have hcount := fragCount_tail (m := c.sent) (j := j) (by omega)
  have hu : (tail c.sent j).bytes.length < 2 ^ 31 :=
    Nat.lt_of_le_of_lt (by rw [tail, List.length_drop]; exact Nat.sub_le _ _) hok.size
  have hold : HoldsFirst (s.chan.cache h) (tail c.sent j) (k - j) := by
    rw [HoldsFirst]
    change (s.chan.cache h).find c.sent.id = _
    rw [hfind]
    by_cases hkj : k = j
    · rw [if_pos hkj, if_pos (by omega)]
    · rw [if_neg hkj, if_neg (by omega)]
      rfl
  have hown' : ¬ ((s.chan.ctx h).acc = true ∧ (tail c.sent j).ccId = (s.chan.ctx h).ccId) := hown
  rw [hmsg]
  refine ⟨rfl, ?_⟩
  by_cases hlast : k + 1 = fragCount c.sent.bytes.length
  · rw [if_pos hlast, if_neg (by omega)]
    exact recvMsg_last hu hown' (by rw [hcount]; omega) hold
  · have hmore : k - j + 1 < fragCount (tail c.sent j).bytes.length := by rw [hcount]; omega
    rw [if_neg hlast, if_pos (by omega), show k + 1 - j = k - j + 1 by omega]
    refine ⟨recvMsg_more hu hown' hmore, ?_⟩
    have hnext := recvMsg_next hu hown' hmore hold
    rw [HoldsFirst, if_neg (Nat.succ_ne_zero _)] at hnext
    exact hnext

/-- Handle `h` has popped the next message of the log, which is of call `n`. -/
structure Popped (s t : Net B) (h n : Nat) : Prop where
  calls : t.calls = s.calls
  origin : t.origin = s.origin
  ctx : t.chan.ctx h = s.chan.ctx h
  since : (t.chan.world.que.reader h).since = (s.chan.world.que.reader h).since
  popped : (t.chan.world.que.reader h).popped.length =
    (s.chan.world.que.reader h).popped.length + 1
  here : s.origin[s.chan.world.que.done h]? = some n

section Popped
variable {t : Net B} (hp : Popped s t h n)
include hp

theorem Popped.own_iff (c : Call) : Own t h c ↔ Own s h c := by rw [Own, Own, hp.ctx]

theorem Popped.missed_eq (n' : Nat) : missed t h n' = missed s h n' := by
  rw [missed, missed, hp.since, hp.origin]

theorem Popped.seen_eq (n' : Nat) : seen t h n' = seen s h n' + if n = n' then 1 else 0 := by
  have hdone : t.chan.world.que.done h = s.chan.world.que.done h + 1 := by
    rw [Sys.done, Sys.done, hp.since, hp.popped, Nat.add_assoc]
  rw [seen, hdone, hp.origin, rank_succ hp.here, seen]

theorem Popped.half_other {n' : Nat} (hne : n' ≠ n) : Half t h n' ↔ Half s h n' := by
  simp only [Half, hp.calls, hp.own_iff, hp.missed_eq, hp.seen_eq, if_neg (Ne.symm hne),
    Nat.add_zero]

theorem Popped.half_self (hc : s.calls[n]? = some c) :
    Half t h n ↔ ¬ Own s h c ∧ seen s h n + 1 < c.elems.length := by
  have := missed_le s h n
  simp only [Half, hp.calls, hc, hp.own_iff, hp.missed_eq, hp.seen_eq, if_true, Option.mem_def,
    Option.some.injEq, exists_eq_left']
  exact ⟨fun h => ⟨h.1, h.2.2⟩, fun h => ⟨h.1, by omega, h.2⟩⟩

theorem Popped.content_eq : content t h = content s h := by
  funext n'
  rw [content, content, hp.calls, hp.missed_eq]

theorem Popped.finished_eq (hc : s.calls[n]? = some c) : finished t h = finished s h ++
    if ¬ Own s h c ∧ seen s h n + 1 = c.elems.length then [n] else [] := by
  unfold finished
  rw [hp.since, hp.popped, List.range'_concat, Nat.one_mul, List.filterMap_append, hp.origin]
  simp only [hp.calls, hp.own_iff]
  congr 1
  change List.filterMap _ [s.chan.world.que.done h] = _
  rw [List.filterMap_cons, hp.here, Option.filter_some]
  simp only [hc, Option.mem_def, Option.some.injEq, exists_eq_left', decide_eq_true_iff]
  by_cases hd : ¬ Own s h c ∧ seen s h n + 1 = c.elems.length
  · rw [if_pos hd, if_pos (show ¬ Own s h c ∧ rank _ _ n + 1 = _ from hd)]
    rfl
  · rw [if_neg hd, if_neg (show ¬ (¬ Own s h c ∧ rank _ _ n + 1 = _) from hd)]
    rfl

/-- The turn treats its message as described and no other. -/
theorem Kept.step (hk : Kept s h) (hc : s.calls[n]? = some c)
    (hown : Own s h c → t.chan.cache h = s.chan.cache h)
    (ha : ¬ Own s h c → Alone s h n)
    (hother : ∀ k, k ≠ c.sent.id → (t.chan.cache h).find k = (s.chan.cache h).find k)
    (hfind : ¬ Own s h c → (t.chan.cache h).find c.sent.id =
      if seen s h n + 1 < c.elems.length then
        some (entry (c.sent.bytes.drop (64 * missed s h n)) (seen s h n + 1 - missed s h n))
      else none)
    (hout : t.out h = s.out h ++
      if ¬ Own s h c ∧ seen s h n + 1 = c.elems.length then [content s h n] else []) :
    Kept t h := by
  have hid : ∀ {n' : Nat} {c' : Call}, n' ≠ n → s.calls[n']? = some c' → Half s h n' →
      ¬ Own s h c → c'.sent.id ≠ c.sent.id := fun hne hc' hh hno he =>
    hne (ha hno _ c _ hc hc' hh he)
  have hcalls : ∀ n' : Nat, t.calls[n']? = s.calls[n']? := fun n' => by rw [hp.calls]
  refine ⟨fun n' c' hc' hh => ?_, fun k hkey => ?_, fun n₁ n₂ c₁ c₂ hc₁ hc₂ hh₁ hh₂ he => ?_, ?_⟩
  · rw [hcalls] at hc'
    rw [hp.missed_eq, hp.seen_eq]
    by_cases hne : n' = n
    · subst hne
      rw [hc] at hc'
      cases hc'
      obtain ⟨hno, hlt⟩ := (hp.half_self hc).mp hh
      rw [if_pos rfl, hfind hno, if_pos hlt]
    · have hh := (hp.half_other hne).mp hh
      rw [if_neg (Ne.symm hne), Nat.add_zero, ← hk.found n' c' hc' hh]
      by_cases ho : Own s h c
      · rw [hown ho]
      · exact hother _ (hid hne hc' hh ho)
  · by_cases hck : k = c.sent.id ∧ ¬ Own s h c
    · obtain ⟨rfl, hno⟩ := hck
      by_cases hlt : seen s h n + 1 < c.elems.length
      · exact ⟨n, c, by rw [hcalls]; exact hc, (hp.half_self hc).mpr ⟨hno, hlt⟩, rfl⟩
      · have hnone := hfind hno
        rw [if_neg hlt, RecvCache.find_eq_none] at hnone
        exact absurd hkey hnone
    · -- the entry was there before
      have hold : k ∈ (s.chan.cache h).map Prod.fst := by
        by_cases ho : Own s h c
        · rwa [hown ho] at hkey
        · by_contra hn
          refine RecvCache.find_eq_none.mp ?_ hkey
          rw [hother k fun h => hck ⟨h, ho⟩]
          exact RecvCache.find_eq_none.mpr hn
      obtain ⟨n', c', hc', hh, hkid⟩ := hk.keys k hold
      have hne : n' ≠ n := by
        rintro rfl
        rw [hc] at hc'
        cases hc'
        obtain ⟨_, hd, hno, _⟩ := hh
        rw [hc] at hd
        cases hd
        exact hck ⟨hkid.symm, hno⟩
      exact ⟨n', c', by rw [hcalls]; exact hc', (hp.half_other hne).mpr hh, hkid⟩
  · rw [hcalls] at hc₁ hc₂
    -- the message of the turn is confused with no other
    have hself : ∀ {n' : Nat} {c' : Call}, s.calls[n']? = some c' → Half t h n → Half t h n' →
        c'.sent.id = c.sent.id → n' = n := by
      intro n' c' hc' hh hh' he
      by_contra hne
      exact hid hne hc' ((hp.half_other hne).mp hh') ((hp.half_self hc).mp hh).1 he
    by_cases h₁ : n₁ = n
    · subst h₁
      rw [hc] at hc₁
      cases hc₁
      exact (hself hc₂ hh₁ hh₂ he.symm).symm
    · by_cases h₂ : n₂ = n
      · subst h₂
        rw [hc] at hc₂
        cases hc₂
        exact hself hc₁ hh₂ hh₁ he
      · exact hk.one n₁ n₂ c₁ c₂ hc₁ hc₂ ((hp.half_other h₁).mp hh₁) ((hp.half_other h₂).mp hh₂) he
  · rw [hout, hp.finished_eq hc, hp.content_eq, hk.given, List.map_append]
    split <;> rfl

end Popped

end Turn

/-! ## What the steps of the channel leave alone -/

section Frames
variable {s : Net B} {h : Nat}

theorem receive_cache (c : Chan B) (t h index : Nat) (msg : MsgT) :
    (c.receive t h index msg).cache =
      Function.update c.cache t (recvMsg (c.ctx h) (c.cache t) msg).cache := by
  unfold Chan.receive
  cases recvMsg (c.ctx h) (c.cache t) msg with
  | again rc => rfl
  | ret b rc => cases b <;> rfl

/-- A turn that `quit_` does not end returns nothing or works on a popped message. -/
theorem recv_cases (t tm h : Nat) (hq : s.chan.world.que.pop h = none →
    ¬ (tm ≠ 0 ∧ (s.chan.sender h).quit = true)) :
    s.recv t tm h = s ∨ s.chan.connected h = true ∧ ∃ msg last q,
      s.chan.world.que.pop h = some (msg, last, q) ∧ (s.recv t tm h).chan.world.que = q ∧
      (s.recv t tm h).chan.cache = Function.update s.chan.cache t
        (recvMsg (s.chan.ctx h) (s.chan.cache t) msg).cache ∧
      (s.recv t tm h).out = Function.update s.out h (s.out h ++ (contents s.chan.world.store
        (recvMsg (s.chan.ctx h) (s.chan.cache t) msg)).toList) := by
  unfold Net.recv Chan.recv given
  by_cases hc : s.chan.connected h = false
  · simp [hc]
  · have hc' : s.chan.connected h = true := by simpa using hc
    simp only [if_neg hc]
    cases hp : s.chan.world.que.pop h with
    | none => simp [if_neg (hq hp)]
    | some r =>
      obtain ⟨msg, last, q⟩ := r
      refine .inr ⟨hc', msg, last, q, rfl, ?_, receive_cache _ t h _ msg, rfl⟩
      exact congrArg (·.que) (receive_frame (s.chan.setQue q) t h _ msg).1

theorem pop_reader {q q' : Sys B} {msg : MsgT} {last : Bool} (hp : q.pop h = some (msg, last, q')) :
    q'.reader = Function.update q.reader h
      { q.reader h with popped := (q.reader h).popped ++ [msg] } := by
  obtain ⟨_, _, he⟩ := Option.map_eq_some_iff.mp hp
  cases he
  rfl

theorem connect_reader (q : Sys B) {h h' : Nat} (hne : h ≠ h') :
    (q.connect h').reader h = q.reader h := by
  rcases q.connect_cases h' with ⟨_, he⟩ | ⟨_, _, he⟩ | ⟨_, _, _, _, _, _, he⟩ <;> rw [he]
  exact Function.update_of_ne hne _ _

theorem disconnect_reader (q : Sys B) {h h' : Nat} (hne : h ≠ h') :
    (q.disconnect h').reader h = q.reader h := by
  unfold Sys.disconnect
  split
  · exact Function.update_of_ne hne _ _
  · rfl

theorem push_reader {q q' : Sys B} {msg : MsgT} (hp : q.push msg = some q') :
    q'.reader = q.reader := by
  obtain ⟨_, _, rfl⟩ := Option.map_eq_some_iff.mp hp
  rfl

/-- The caches after `disconnect` and `reconnect`: that of the thread is cleared where the
handle was connected and does not stay so. -/
theorem disconnect_cache (c : Chan B) (t h : Nat) : (c.disconnect t h).cache =
    if c.connected h then Function.update c.cache t [] else c.cache := by
  unfold Chan.disconnect Chan.disconnectReceiver Chan.shutSending Chan.connected
  split <;> rfl

theorem reconnect_cache (c : Chan B) (t h : Nat) (startToRecv : Bool) :
    (c.reconnect t h startToRecv).cache =
      if startToRecv = false ∧ c.connected h then Function.update c.cache t [] else c.cache := by
  unfold Chan.reconnect
  cases startToRecv with
  | true =>
    simp only [if_true, Bool.true_eq_false, false_and, if_false]
    unfold Chan.shutSending
    split <;> rfl
  | false =>
    simp only [Bool.false_eq_true, if_false, true_and]
    by_cases hc : c.connected h = true
    · simp only [if_pos hc, Chan.readySending, Chan.disconnectReceiver]
    · simp only [if_neg hc, Chan.readySending]

theorem reconnect_que (c : Chan B) (t h : Nat) (startToRecv : Bool) :
    (c.reconnect t h startToRecv).world.que =
      if startToRecv then c.world.que.connect h else c.world.que.disconnect h := by
  unfold Chan.reconnect
  cases startToRecv with
  | true =>
    simp only [if_true]
    exact congrArg (·.connect h) (shutSending_frame c h).1
  | false =>
    simp only [Bool.false_eq_true, if_false]
    by_cases hc : c.connected h = true
    · rw [if_pos hc]
      exact (readySending_frame (c.disconnectReceiver t h) h).1
    · have hc' : ¬ Receivers.connected c.world.que.cc (c.world.que.handle h).connected = true := hc
      rw [if_neg hc, (readySending_frame c h).1, Sys.disconnect, if_neg hc']

end Frames

/-! ## The steps keep it -/

section Steps
variable {s t : Net B} {h n : Nat} {c : Call} {msg : MsgT}

theorem ccId_of_elems (hm : msg ∈ c.elems) : msg.ccId = c.sent.ccId := by
  obtain ⟨_, _, rfl⟩ := List.mem_map.mp hm
  exact MsgT.make_ccId _ _ _

/-- What is popped is the next element of its call. -/
theorem Inv.popped (hi : Inv s) (hm : s.chan.world.que.member h) {last : Bool} {q : Sys B}
    (hp : s.chan.world.que.pop h = some (msg, last, q)) : ∃ (n : Nat) (c : Call),
      s.origin[s.chan.world.que.done h]? = some n ∧ s.calls[n]? = some c ∧
      c.elems[seen s h n]? = some msg := by
  have hlog := pop_eq_log hi.chunks.good.inv.queue hm hp
  have hlt := (List.getElem?_eq_some_iff.mp hlog).1
  rw [← hi.chunks.length] at hlt
  have ho := List.getElem?_eq_getElem hlt
  obtain ⟨c, hc, _⟩ := hi.chunks.origin _ _ _ ho hlog
  exact ⟨_, c, ho, hc, by rw [seen, ← hi.placed.elem _ _ c ho hc, hlog]⟩

theorem contents_of_buff {st : Storages} {r : Turn} {b : Bytes}
    (hb : r.buff = some (.cache b)) : contents st r = some b := by
  cases r with
  | again rc => cases hb
  | ret b' rc => cases hb; rfl

theorem contents_of_none {st : Storages} {r : Turn} (hb : r.buff = none) : contents st r = none := by
  cases r with
  | again rc => rfl
  | ret b' rc => cases hb

/-- A large message is given as it lies in its chunk. -/
theorem Inv.large (hi : Inv s) (hm : s.chan.world.que.member h) (hc : s.calls[n]? = some c)
    (ho : s.origin[s.chan.world.que.done h]? = some n) (hmsg : c.elems[seen s h n]? = some msg)
    (hlog : s.chan.world.que.log[s.chan.world.que.done h]? = some msg)
    (hown : ¬ Own s h c) {id : Nat} (hs : c.sid = some id) :
    c.elems.length = 1 ∧ seen s h n = 0 ∧
    recvMsg (s.chan.ctx h) (s.chan.cache h) msg =
      .ret (.storage id c.sent.bytes.length) (s.chan.cache h) ∧
    contents s.chan.world.store (recvMsg (s.chan.ctx h) (s.chan.cache h) msg) =
      some (content s h n) := by
  have hok := hi.chunks.calls n c hc
  have hel := hok.elems_large hs
  obtain ⟨hl, hid⟩ := hok.large id hs
  have hlen : c.elems.length = 1 := by rw [hel]; rfl
  have hseen : seen s h n = 0 := by
    have := (List.getElem?_eq_some_iff.mp hmsg).1
    omega
  have hmem : msg ∈ c.elems := List.mem_of_getElem? hmsg
  have hturn : recvMsg (s.chan.ctx h) (s.chan.cache h) msg =
      .ret (.storage id c.sent.bytes.length) (s.chan.cache h) := by
    rw [hel, List.mem_singleton] at hmem
    rw [hmem, SizeLimits.recvMsg_large _ hown (Nat.zero_lt_of_lt hl) hok.size hid]
  refine ⟨hlen, hseen, hturn, ?_⟩
  -- the receiver still needs the message, so the bytes are there
  obtain ⟨b, _, howing⟩ := Owing.of_member hi.chunks.good.inv.queue hm (Nat.le_refl _)
    (List.getElem?_eq_some_iff.mp hlog).1
  have hchunk : chunkAt s.chan.world.que (s.chan.world.que.done h) =
      some (calcChunkSize c.sent.bytes.length, id) := by
    rw [chunkAt_of_log hlog, hok.chunk_eq hmem, Call.chunk, hs, Option.map_some]
  have hbytes := hi.chunks.bytes _ b _ _ (.inl howing) hchunk
  rw [bytesOf, ho, Option.bind_some, hc, Option.map_some, Option.some.injEq] at hbytes
  have hmissed : missed s h n = 0 := by
    have := missed_le s h n
    omega
  have hcontent : content s h n = c.sent.bytes.map some := by
    simp only [content, hc, hmissed, Nat.mul_zero, List.drop_zero]
  rw [hturn, contents, hcontent, Int.toNat_natCast, ← hbytes, List.take_length]

/-- A turn of the handle's own thread. -/
theorem Inv.kept_recv (hi : Inv s) (hm : s.chan.world.que.member h) {last : Bool} {q : Sys B}
    (hpop : s.chan.world.que.pop h = some (msg, last, q)) (hroom : (s.chan.cache h).length ≤ 1024)
    (ha : ∀ n ∈ s.origin[s.chan.world.que.done h]?, Alone s h n)
    (hque : t.chan.world.que = q) (hcalls : t.calls = s.calls) (horigin : t.origin = s.origin)
    (hctx : t.chan.ctx h = s.chan.ctx h)
    (hcache : t.chan.cache h = (recvMsg (s.chan.ctx h) (s.chan.cache h) msg).cache)
    (hout : t.out h = s.out h ++ (contents s.chan.world.store
      (recvMsg (s.chan.ctx h) (s.chan.cache h) msg)).toList) : Kept t h := by
  have hk := hi.kept h hm
  have hlog := pop_eq_log hi.chunks.good.inv.queue hm hpop
  obtain ⟨n, c, ho, hc, hmsg⟩ := hi.popped hm hpop
  have hok := hi.chunks.calls n c hc
  have hmem : msg ∈ c.elems := List.mem_of_getElem? hmsg
  have hlt := (List.getElem?_eq_some_iff.mp hmsg).1
  have hreader := congrFun (pop_reader hpop) h
  rw [Function.update_self, ← hque] at hreader
  have hpopped : Popped s t h n := ⟨hcalls, horigin, hctx, by rw [hreader],
    by rw [hreader, List.length_append, List.length_singleton], ho⟩
  have hother : ∀ k, k ≠ msg.id → (t.chan.cache h).find k = (s.chan.cache h).find k := by
    intro k hk
    rw [hcache, find_other hk, if_neg fun hcol => absurd hcol.2.1 (Nat.not_lt.mpr hroom)]
  by_cases hown : Own s h c
  · have hturn : recvMsg (s.chan.ctx h) (s.chan.cache h) msg = .again (s.chan.cache h) := by
      rw [recvMsg, if_pos ⟨hown.1, (ccId_of_elems hmem).trans hown.2⟩]
    rw [hturn] at hcache hout
    refine hk.step hpopped hc (fun _ => hcache) (fun h => absurd hown h) (fun k _ => by rw [hcache]; rfl)
      (fun h => absurd hown h) ?_
    rw [hout, if_neg fun h => h.1 hown]
    rfl
  · have ha := ha n ho
    cases hs : c.sid with
    | none =>
      obtain ⟨hid, hbuff, hfind⟩ := turn_fragment hk hok hc ha hown hs hmsg
      rw [hid] at hother
      refine hk.step hpopped hc (fun h => absurd h hown) (fun _ => ha) hother
        (fun _ => by rw [hcache]; exact hfind) ?_
      rw [hout]
      by_cases hlast : seen s h n + 1 = c.elems.length
      · rw [if_pos hlast] at hbuff
        rw [contents_of_buff hbuff, if_pos ⟨hown, hlast⟩]
        rfl
      · rw [if_neg hlast] at hbuff
        rw [contents_of_none hbuff, if_neg fun h => hlast h.2]
        rfl
    | some id =>
      obtain ⟨hlen, hseen, hturn, hcont⟩ := hi.large hm hc ho hmsg hlog hown hs
      have hmissed := missed_le s h n
      rw [hcont] at hout
      rw [hturn] at hcache
      refine hk.step hpopped hc (fun h => absurd h hown) (fun _ => ha)
        (fun k _ => by rw [hcache]; rfl) (fun _ => ?_) ?_
      · have hfind := hk.find_eq hc ha hown hlt
        rw [if_pos (by omega)] at hfind
        rw [hcache, if_neg (by omega)]
        exact hfind
      · rw [hout, if_pos ⟨hown, by omega⟩]
        rfl

theorem Inv.recv (hi : Inv s) {tm : Nat} (hq : s.chan.world.que.pop h = none →
    ¬ (tm ≠ 0 ∧ (s.chan.sender h).quit = true)) (hroom : (s.chan.cache h).length ≤ 1024)
    (ha : ∀ n ∈ s.origin[s.chan.world.que.done h]?, Alone s h n) : Inv (s.recv h tm h) := by
  rcases recv_cases h tm h hq with he | ⟨hc, msg, last, q, hpop, hque, hcache, hout⟩
  · rw [he]
    exact hi
  · have hm := hi.chunks.good.calm.own h hc
    have hctx : ∀ h', (s.recv h tm h).chan.ctx h' = s.chan.ctx h' := by
      intro h'
      change (s.chan.recv h tm h).ctx h' = _
      rw [Chan.ctx, (recv_frame s.chan h tm h).2.1, Chan.ctx]
    refine ⟨hi.chunks.recv h tm h, hi.placed.same rfl rfl (by rw [hque]; exact pop_log hpop),
      fun h' hm' => ?_, fun h' hm' => ?_⟩
    · rw [hque, (member_of_pop hpop h').1] at hm'
      by_cases hne : h' = h
      · subst hne
        exact hi.kept_recv hm hpop hroom ha hque rfl rfl (hctx h')
          (by rw [hcache, Function.update_self]) (by rw [hout, Function.update_self])
      · refine (hi.kept h' hm').keep ⟨fun n c hc => ⟨c.rest, hc⟩, List.prefix_rfl, ?_, hctx h', ?_,
          ?_⟩ hi.chunks hm'
        · rw [hque, pop_reader hpop, Function.update_of_ne hne]
        · rw [hcache, Function.update_of_ne hne]
        · rw [hout, Function.update_of_ne hne]
    · rw [hque, (member_of_pop hpop h').1] at hm'
      have hne : h' ≠ h := fun he => hm' (he ▸ hm)
      rw [hcache, Function.update_of_ne hne]
      exact hi.idle h' hm'

theorem not_member_disconnect {q : Sys B} (hi : Receivers.Inv q) (h : Nat) :
    ¬ (q.disconnect h).member h := by
  unfold Sys.disconnect
  split
  · simp [Sys.member]
  · rename_i hc
    exact fun hm => hc (hi.connected_of_member hm)

/-- A step that is about handle `h` and its thread only, and leaves the history alone. -/
structure Only (s t : Net B) (h : Nat) : Prop where
  calls : t.calls = s.calls
  origin : t.origin = s.origin
  log : t.chan.world.que.log = s.chan.world.que.log
  ctx : t.chan.ctx = s.chan.ctx
  reader : ∀ h', h' ≠ h → t.chan.world.que.reader h' = s.chan.world.que.reader h'
  cache : ∀ h', h' ≠ h → t.chan.cache h' = s.chan.cache h'
  out : ∀ h', h' ≠ h → t.out h' = s.out h'

theorem Inv.only (hi : Inv s) (ho : Only s t h) (hch : ChunkBytes.Inv t)
    (hkept : t.chan.world.que.member h → Kept t h)
    (hidle : ¬ t.chan.world.que.member h → t.chan.cache h = []) : Inv t := by
  have hmem : ∀ h', h' ≠ h → (t.chan.world.que.member h' ↔ s.chan.world.que.member h') := by
    intro h' hne
    rw [Sys.member, ho.reader h' hne]
  refine ⟨hch, hi.placed.same ho.calls ho.origin ho.log, fun h' hm => ?_, fun h' hm => ?_⟩
  · by_cases hne : h' = h
    · subst hne
      exact hkept hm
    · rw [hmem h' hne] at hm
      exact (hi.kept h' hm).keep ⟨fun n c hc => ⟨c.rest, by rw [ho.calls]; exact hc⟩,
        by rw [ho.origin], ho.reader h' hne, by rw [ho.ctx], ho.cache h' hne, ho.out h' hne⟩
        hi.chunks hm
  · by_cases hne : h' = h
    · subst hne
      exact hidle hm
    · rw [hmem h' hne] at hm
      rw [ho.cache h' hne]
      exact hi.idle h' hm

theorem Inv.disconnect (hi : Inv s) (h : Nat) : Inv { s with chan := s.chan.disconnect h h } := by
  have hque := (disconnect_frame s.chan h h).1
  have hcache := disconnect_cache s.chan h h
  refine hi.only (h := h) ⟨rfl, rfl, ?_, disconnect_ctx s.chan h h, fun h' hne => ?_,
    fun h' hne => ?_, fun _ _ => rfl⟩ (hi.chunks.disconnect h h) (fun hm => ?_) fun _ => ?_
  · dsimp only
    rw [hque, disconnect_log]
  · dsimp only
    rw [hque, disconnect_reader _ hne]
  · dsimp only
    rw [hcache]
    split
    · exact Function.update_of_ne hne _ _
    · rfl
  · dsimp only at hm
    rw [hque] at hm
    exact absurd hm (not_member_disconnect hi.chunks.good.inv.queue h)
  · dsimp only
    rw [hcache]
    split
    · exact Function.update_self ..
    · rename_i hc
      exact hi.idle h fun hm => hc (hi.chunks.good.inv.queue.connected_of_member hm)

theorem Inv.reconnect (hi : Inv s) (h : Nat) (startToRecv : Bool)
    (hset : startToRecv = true → s.chan.connected h = false → Settled s) :
    Inv (s.reconnect h h startToRecv) := by
  have hque : (s.reconnect h h startToRecv).chan.world.que = _ :=
    reconnect_que s.chan h h startToRecv
  have hcache : (s.reconnect h h startToRecv).chan.cache = _ :=
    reconnect_cache s.chan h h startToRecv
  have hconn : s.chan.world.que.member h → s.chan.connected h = true :=
    fun hm => hi.chunks.good.inv.queue.connected_of_member hm
  refine hi.only (h := h) ⟨rfl, rfl, ?_, reconnect_ctx s.chan h h startToRecv, fun h' hne => ?_,
    fun h' hne => ?_, fun h' hne => ?_⟩ (hi.chunks.reconnect h h startToRecv hset) (fun hm => ?_)
    fun hm => ?_
  · rw [hque]
    split
    · exact connect_log _ h
    · exact disconnect_log _ h
  · rw [hque]
    split
    · exact connect_reader _ hne
    · exact disconnect_reader _ hne
  · rw [hcache]
    split
    · exact Function.update_of_ne hne _ _
    · rfl
  · rw [Net.reconnect]
    dsimp only
    split
    · rfl
    · exact Function.update_of_ne hne _ _
  · rw [hque] at hm
    cases startToRecv with
    | false => exact absurd hm (not_member_disconnect hi.chunks.good.inv.queue h)
    | true =>
      simp only [if_true] at hm hque
      simp only [Bool.true_eq_false, false_and, if_false] at hcache
      rcases s.chan.world.que.connect_cases h with ⟨hc, he⟩ | ⟨hc, _, he⟩ | ⟨hc, b, cc, _, _, _, he⟩
      · -- it was connected already
        rw [he] at hm hque
        refine (hi.kept h hm).keep ⟨fun n c hc => ⟨c.rest, hc⟩, List.prefix_rfl, by rw [hque],
          congrFun (reconnect_ctx s.chan h h true) h, by rw [hcache], ?_⟩ hi.chunks hm
        rw [Net.reconnect]
        dsimp only
        rw [if_pos (hconn hm)]
      · rw [he] at hm
        have hc' : s.chan.connected h = false := hc
        rw [hconn hm] at hc'
        cases hc'
      · have hc' : s.chan.connected h = false := hc
        refine kept_fresh (by rw [hque, he]; simp) ?_ ?_
        · rw [hcache]
          refine hi.idle h fun hm => ?_
          rw [hconn hm] at hc'
          cases hc'
        · rw [Net.reconnect]
          dsimp only
          rw [hc', if_neg Bool.false_ne_true, Function.update_self]
  · rw [hcache]
    split
    · exact Function.update_self ..
    · rename_i hc
      refine hi.idle h fun hms => ?_
      cases startToRecv with
      | false => exact hc ⟨rfl, hconn hms⟩
      | true =>
        have hc' : Receivers.connected s.chan.world.que.cc (s.chan.world.que.handle h).connected =
            true := hconn hms
        rw [hque, if_pos rfl, Sys.connect, if_pos hc'] at hm
        exact hm hms

/-- The calls of other parties. -/
theorem Inv.ahead (hi : Inv s) (hch : ChunkBytes.Inv t) (hp : Placed t)
    (ha : ∀ h, Ahead s t h) : Inv t := by
  refine ⟨hch, hp, fun h hm => ?_, fun h hm => ?_⟩ <;> rw [Sys.member, (ha h).reader] at hm
  · exact (hi.kept h hm).keep (ha h) hi.chunks hm
  · rw [(ha h).cache]
    exact hi.idle h hm

theorem Inv.start (hi : Inv s) (force : Bool) (tm h : Nat) {data : List Byte}
    (hu : data.length < 2 ^ 31) : Inv (s.start force tm h data) := by
  refine hi.ahead (hi.chunks.start force tm h hu) (hi.placed.start hi.chunks force tm h data)
    fun h' => ?_
  obtain ⟨ho, hout, hcache, hque, hctx, hc⟩ := start_cases s force tm h data
  refine ⟨fun n c hn => ⟨c.rest, ?_⟩, by rw [ho], by rw [hque], by rw [hctx], by rw [hcache],
    by rw [hout]⟩
  rcases hc with hc | ⟨d, hc, _⟩ <;> rw [hc]
  · exact hn
  · exact getElem?_snoc hn

theorem Inv.push (hi : Inv s) (hs : Steady s n) : Inv (s.push n) := by
  refine hi.ahead (hi.chunks.push hs.unforced) (hi.placed.push hi.chunks hs) fun h => ?_
  rcases push_steady hs with he | ⟨c, hc, he | ⟨msg, rest, q, _, hq, he⟩⟩ <;> rw [he]
  · exact ⟨fun n c hc => ⟨c.rest, hc⟩, List.prefix_rfl, rfl, rfl, rfl, rfl⟩
  · exact ⟨fun _ _ h => shorten_call _ hc h, List.prefix_rfl, rfl, rfl, rfl, rfl⟩
  · exact ⟨fun _ _ h => shorten_call _ hc h, List.prefix_append _ _,
      congrFun (push_reader hq) h, rfl, rfl, rfl⟩

theorem Inv.drop (hi : Inv s) (hs : Snapshot s.chan.held n) :
    Inv { s with chan := s.chan.drop n } := by
  have hsame : (s.chan.drop n).world.que = s.chan.world.que ∧
      (s.chan.drop n).cache = s.chan.cache ∧ (s.chan.drop n).sender = s.chan.sender := by
    unfold Chan.drop
    split <;> exact ⟨rfl, rfl, rfl⟩
  obtain ⟨hque, hcache, hsnd⟩ := hsame
  have hch := hi.chunks.drop hs
  refine hi.ahead hch (hi.placed.same rfl rfl (by rw [hque])) fun h => ?_
  refine ⟨fun n c hc => ⟨c.rest, hc⟩, List.prefix_rfl, by rw [hque], ?_, by rw [hcache], rfl⟩
  rw [Chan.ctx, hsnd, Chan.ctx]

end Steps

/-! ## Runs -/

/-- Every handle connects, disconnects and receives in a thread of its own, whose cache is not
collected and has no other message under the id of the one that is popped. No receiver joins
between the taking of a chunk and its push, a message has fewer than `2 ^ 31` bytes, no push is
forced, no wait is ended by `quit_`, and a buffer is dropped with a snapshot of all who hold one
on the same chunk. -/
def Careful (s : Net B) : Act → Prop
  | .reconnect t h startToRecv =>
    t = h ∧ (startToRecv = true → s.chan.connected h = false → Settled s)
  | .disconnect t h => t = h
  | .start _ _ _ data => data.length < 2 ^ 31
  | .push n => Steady s n
  | .recv t tm h => t = h ∧ (s.chan.world.que.pop h = none →
      ¬ (tm ≠ 0 ∧ (s.chan.sender h).quit = true)) ∧ (s.chan.cache h).length ≤ 1024 ∧
    ∀ n ∈ s.origin[s.chan.world.que.done h]?, Alone s h n
  | .drop n => Snapshot s.chan.held n

theorem init_inv (B : Broadcast MsgT) (ccId : Nat → MsgId) : Inv (Net.init B ccId) where
  chunks := ChunkBytes.init_inv B ccId
  placed := ⟨by simp [Net.init], by simp [Net.init, Pending]⟩
  kept := by simp [Net.init, Chan.init, Sys.init, Sys.member]
  idle := fun _ _ => rfl

theorem step_inv {s t : Net B} {a : Act} (hi : Inv s) (hc : Careful s a) (h : step s a = some t) :
    Inv t := by
  cases a with
  | reconnect th h' startToRecv =>
    cases h
    obtain ⟨rfl, hset⟩ := hc
    exact hi.reconnect th startToRecv hset
  | disconnect th h' =>
    cases h
    obtain rfl : th = h' := hc
    exact hi.disconnect th
  | start force tm h' data => cases h; exact hi.start force tm h' hc
  | push n => cases h; exact hi.push hc
  | recv th tm h' =>
    cases h
    obtain ⟨rfl, hq, hroom, ha⟩ := hc
    exact hi.recv hq hroom ha
  | drop n => cases h; exact hi.drop hc

section Delivered
variable {s : Net B} {h : Nat}

end Delivered

instance Half.decidable (s : Net B) (h n : Nat) : Decidable (Half s h n) :=
  inferInstanceAs (Decidable (∃ c ∈ s.calls[n]?,
    ¬ Own s h c ∧ missed s h n < seen s h n ∧ seen s h n < c.elems.length))

instance Alone.decidable (s : Net B) (h n : Nat) : Decidable (Alone s h n) :=
  decidable_of_iff (∀ n' ∈ List.range s.calls.length, ∀ c ∈ s.calls[n]?, ∀ c' ∈ s.calls[n']?,
      Half s h n' → c'.sent.id = c.sent.id → n' = n)
    ⟨fun ha n' c c' hc hc' => ha n' (List.mem_range.mpr (List.getElem?_eq_some_iff.mp hc').1) c hc
      c' hc', fun ha n' _ c hc c' hc' => ha n' c c' hc hc'⟩

instance Careful.decidable (s : Net B) : (a : Act) → Decidable (Careful s a)
  | .reconnect t h startToRecv => inferInstanceAs (Decidable (t = h ∧ (startToRecv = true →
    s.chan.connected h = false → ∀ c ∈ s.calls, c.rest ≠ [] → c.sid = none)))
  | .disconnect t h => inferInstanceAs (Decidable (t = h))
  | .start _ _ _ data => inferInstanceAs (Decidable (data.length < 2 ^ 31))
  | .push n => inferInstanceAs (Decidable (∀ c ∈ s.calls[n]?, ∀ msg ∈ c.rest.head?,
    s.chan.world.que.push msg = none → c.force = false ∧
      ¬ (c.tm ≠ 0 ∧ (s.chan.sender c.handle).quit = true)))
  | .recv t tm h => inferInstanceAs (Decidable (t = h ∧ (s.chan.world.que.pop h = none →
      ¬ (tm ≠ 0 ∧ (s.chan.sender h).quit = true)) ∧ (s.chan.cache h).length ≤ 1024 ∧
    ∀ n ∈ s.origin[s.chan.world.que.done h]?, Alone s h n))
  | .drop n => inferInstanceAs (Decidable (∀ k ∈ s.chan.held[n]?, ∀ k' ∈ s.chan.held.eraseIdx n,
    k'.index = k.index → connected k.currConns k'.connId = true))

end CppIpc.Delivery
