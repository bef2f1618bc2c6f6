import CppIpc.Blocking

/-! # The channel queue and the wrap of its index

`ct_` has 32 bits and `f_ct_` has 64. The mark with which the last reader gives a
slot back, `cur + N - 1`, is computed in 64 bits and does not wrap with the index.
Runs of `push` and `pop` by a fixed set of receivers, each operation run alone. -/
namespace CppIpc.WrapAround
open CppIpc.Def CppIpc.ReadCounter CppIpc.ProdCons CppIpc.Policies CppIpc.Receivers
open CppIpc.Lib.Runs (run Meets)
open CppIpc.Lib.Window (slot)

variable {α : Type}

def connects (hs : List Nat) : List (Act α) := hs.map .connect

section
variable {B : Broadcast α}

/-- The receivers stay, and only they pop. -/
def Uses (s : Sys B) : Act α → Prop
  | .push _ => True
  | .pop h => s.member h
  | _ => False

/-- Every receiver has popped the message before the next one in its slot, if there
was one. -/
def Drained (s : Sys B) : Prop := ∀ h, s.member h → s.log.length < s.done h + 256

/-- The receivers are connected and nothing was pushed. -/
structure Opened (s : Sys B) : Prop where
  exact : Blocking.Exact s
  blank : ∀ σ, B.pend s.que σ = 0#32
  log : s.log = []

theorem init_opened (B : Broadcast α) : Opened (Sys.init B) :=
  ⟨Blocking.init_exact B, B.init_pend, rfl⟩

theorem Opened.connect {s : Sys B} (ho : Opened s) (h : Nat) :
    Opened (s.connect h) ∧ (s.connect h).cc ≠ 0 := by
  have hex : Blocking.Exact (s.connect h) := by
    refine ho.exact.connect fun _ σ => ?_
    rw [ho.blank]
    simp [connected]
  rcases s.connect_cases h with ⟨hc, he⟩ | ⟨_, h0, he⟩ | ⟨_, b, cc, _, _, hbits, he⟩
  · rw [he]
    refine ⟨ho, fun h0 => ?_⟩
    rw [h0] at hc
    simp [connected] at hc
  · rw [he] at hex ⊢
    refine ⟨⟨hex, ho.blank, ho.log⟩, fun hcc => ?_⟩
    have hcc : s.cc = 0 := hcc
    rw [hcc] at h0
    exact absurd h0 (by decide +kernel)
  · rw [he] at hex ⊢
    refine ⟨⟨hex, ho.blank, ho.log⟩, Lib.Bits.ne_zero_iff.mpr ⟨b, ?_⟩⟩
    rw [hbits, decide_eq_true rfl, Bool.or_true]

theorem opened_connects {s t : Sys B} {hs : List Nat} (ho : Opened s)
    (hr : run step s (connects hs) = some t) : Opened t ∧ (hs ≠ [] ∨ s.cc ≠ 0 → t.cc ≠ 0) := by
  induction hs generalizing s with
  | nil =>
    cases hr
    exact ⟨ho, fun h => h.elim (absurd rfl) id⟩
  | cons h hs ih =>
    obtain ⟨ho', hcc⟩ := ho.connect h
    obtain ⟨ht, hne⟩ := ih ho' hr
    exact ⟨ht, fun _ => hne (.inr hcc)⟩

/-- Only the receivers are asked to read. -/
structure Fixed (s : Sys B) : Prop where
  exact : Blocking.Exact s
  only : ∀ σ i, (B.pend s.que σ).getLsbD i = true → s.cc.getLsbD i = true
  conns : s.cc ≠ 0

theorem Opened.fixed {s : Sys B} (ho : Opened s) (h0 : s.cc ≠ 0) : Fixed s := by
  refine ⟨ho.exact, fun σ i h => ?_, h0⟩
  rw [ho.blank] at h
  simp at h

section Steps
variable {s t : Sys B} {x : α} {h : Nat}

theorem Fixed.push (hf : Fixed s) (hp : s.push x = some t) : Fixed t := by
  have hex := hf.exact.push hp
  obtain ⟨q, hq, rfl⟩ := Option.map_eq_some_iff.mp hp
  obtain ⟨_, _, _, hpend, _⟩ := B.push_some hf.exact.calm.inv.ok hq
  refine ⟨hex, fun σ i hb => ?_, hf.conns⟩
  simp only [hpend, Function.update_apply] at hb
  split at hb
  · exact hb
  · exact hf.only σ i hb

theorem Fixed.pop (hf : Fixed s) {last : Bool} (hp : s.pop h = some (x, last, t)) : Fixed t := by
  have hex := hf.exact.pop hp
  obtain ⟨⟨x', last', q⟩, hq, he⟩ := Option.map_eq_some_iff.mp hp
  cases he
  obtain ⟨_, _, hpend, _⟩ := B.pop_some hf.exact.calm.inv.ok hq
  refine ⟨hex, fun σ i hb => ?_, hf.conns⟩
  simp only [hpend, Function.update_apply] at hb
  split at hb
  · rename_i hσ
    rw [Lib.Bits.getLsbD_and_not, Bool.and_eq_true] at hb
    exact hf.only _ i hb.1
  · exact hf.only σ i hb

/-- A slot that is asked for blocks the push; otherwise nobody is asked. -/
theorem Fixed.drained_iff (hf : Fixed s) :
    Drained s ↔ B.pend s.que (slot 8 s.log.length) = 0#32 := by
  have hinv := hf.exact.calm.inv
  constructor
  · intro hd
    by_contra hne
    obtain ⟨i, hi⟩ := Lib.Bits.ne_zero_iff.mp hne
    have hlt : i < 32 := BitVec.lt_of_getLsbD hi
    obtain ⟨h, hm, hh⟩ := hf.exact.calm.owned ⟨i, hlt⟩ (hf.only _ i hi)
    have hlap := hf.exact.noStale.lap hinv hm hh hi
    have := hd h hm
    omega
  · intro h0 h hm
    by_contra hc
    have hroom := hinv.room h hm
    obtain ⟨b, hb, _⟩ := hinv.ids h hm
    have hbit := hinv.lap_pending hm hb (show s.log.length = s.done h + 256 by omega)
    rw [h0] at hbit
    simp at hbit

/-- Before the wrap a drained slot takes the push. -/
theorem Fixed.push_isSome (hf : Fixed s) (hd : Drained s) (hw : s.log.length < 2 ^ 32) (x : α) :
    (s.push x).isSome = true := by
  rw [Option.isSome_iff_ne_none, ne_eq, Sys.push, Option.map_eq_none_iff,
    B.push_none hf.exact.calm.inv.ok fun _ => hw, hf.drained_iff.mp hd]
  rintro (h0 | ⟨hne, _⟩)
  · exact hf.conns h0
  · simp at hne

end Steps

end

/-! ## The channel policy -/

/-- Index `2 ^ 32` is 0 in `ct_`, and the slot it falls on was given back with
`2 ^ 32` in `f_ct_`. -/
theorem occupied_at_wrap {q : Channel.Queue α} (h : Policies.Channel.Ok q (2 ^ 32))
    (h0 : pend (q.elems (slot 8 (2 ^ 32))).rc = 0#32) :
    Channel.occupied q.ct (q.elems (slot 8 (2 ^ 32))).fCt = true := by
  have hslot : slot 8 (2 ^ 32) = slot 8 (2 ^ 32 - 256) := by decide +kernel
  rw [hslot] at h0 ⊢
  rcases h.held (2 ^ 32 - 256) (by omega) (by omega) with ⟨hne, _⟩ | ⟨_, hf⟩
  · exact absurd h0 hne
  · rw [hf, h.ct]
    decide +kernel

section Channel
variable [Inhabited α] {s t : Sys (policy .multi : Broadcast α)}

/-- There the push is refused, by a reader or by the flag. -/
theorem Fixed.push_at_wrap (hf : Fixed s) (hw : s.log.length = 2 ^ 32) (x : α) :
    s.push x = none := by
  have hok : Policies.Channel.Ok s.que (2 ^ 32) := hw ▸ hf.exact.calm.inv.ok
  have hcur : Policies.Channel.current s.que (slot 8 (2 ^ 32)) := hf.exact.calm.current _
  have hq : Channel.Queue.push s.que s.cc x = none := by
    simp only [Channel.Queue.push, hok.slot_eq, ReadCounter.Channel.rcMask, pend_and_lowMask]
    rw [if_neg hf.conns]
    by_cases h0 : pend (s.que.elems (slot 8 (2 ^ 32))).rc = 0#32
    · split
      · rfl
      · rw [if_pos ⟨h0, occupied_at_wrap hok h0⟩]
    · -- only receivers are pending
      obtain ⟨i, hi⟩ := Lib.Bits.ne_zero_iff.mp h0
      have hblocked : Channel.blocked s.cc (s.que.elems (slot 8 (2 ^ 32))).rc s.que.epoch = true := by
        refine Policies.Channel.blocked_iff.mpr ⟨Lib.Bits.ne_zero_iff.mpr ⟨i, ?_⟩, hcur⟩
        rw [BitVec.getLsbD_and, hi, hf.only _ i hi]
        rfl
      rw [if_pos hblocked]
  exact Option.map_eq_none_iff.mpr hq

/-- No run gets past the wrap. -/
structure Bounded (s : Sys (policy .multi : Broadcast α)) : Prop where
  fixed : Fixed s
  small : s.log.length ≤ 2 ^ 32

theorem Bounded.step {a : Act α} (hb : Bounded s) (hu : Uses s a) (ht : step s a = some t) :
    Bounded t := by
  cases a with
  | connect h | disconnect h | forcePush x => exact hu.elim
  | push x =>
    cases ht
    cases hp : s.push x with
    | none => exact hb
    | some t =>
      refine ⟨hb.fixed.push hp, ?_⟩
      have hne : s.log.length ≠ 2 ^ 32 := fun hw => by
        rw [hb.fixed.push_at_wrap hw] at hp
        cases hp
      have hlt := Nat.lt_of_le_of_ne hb.small hne
      rw [Option.getD_some, Debts.push_log hp, List.length_append, List.length_singleton]
      exact hlt
  | pop h =>
    cases ht
    cases hp : s.pop h with
    | none => exact hb
    | some r =>
      refine ⟨hb.fixed.pop hp, ?_⟩
      simp only [Option.map_some, Option.getD_some]
      rw [Debts.pop_log hp]
      exact hb.small

/-- A slot that every receiver has drained takes the next push exactly as long as the
index has not wrapped. -/
theorem push_drained_iff {hs : List Nat} (hne : hs ≠ []) {acts : List (Act α)}
    {s₀ s : Sys (policy .multi : Broadcast α)}
    (h₀ : run step (Sys.init (policy .multi)) (connects hs) = some s₀)
    (hr : run step s₀ acts = some s) (hu : Meets step Uses s₀ acts) (hd : Drained s) (x : α) :
    (s.push x).isSome = true ↔ s.log.length < 2 ^ 32 := by
  obtain ⟨ho, hcc⟩ := opened_connects (init_opened _) h₀
  have hb₀ : Bounded s₀ := ⟨ho.fixed (hcc (.inl hne)), by rw [ho.log]; exact Nat.zero_le _⟩
  have hb : Bounded s := Lib.Runs.run_invariant (fun _ _ _ hb hu ht => hb.step hu ht) hb₀ hr hu
  constructor
  · intro hp
    refine Nat.lt_of_le_of_ne hb.small fun hw => ?_
    rw [hb.fixed.push_at_wrap hw] at hp
    cases hp
  · exact fun hw => hb.fixed.push_isSome hd hw x

end Channel

/-! ## Up to the wrap -/

/-- The state after the connect of handle 0. -/
def opened : Sys (policy .multi : Broadcast Nat) := (Sys.init _).connect 0

theorem run_opened : run step (Sys.init _) (connects [0]) = some opened := rfl

theorem push_drained_once : ∃ s, run step opened [.push 5, .pop 0] = some s ∧
      Drained s ∧ ((s.push 6).isSome = true ↔ s.log.length < 2 ^ 32) := by
  obtain ⟨s, hs⟩ : ∃ s, run step opened [.push 5, .pop 0] = some s := ⟨_, rfl⟩
  have hlen : s.log.length = 1 := by
    obtain rfl := Option.some.inj (hs.symm.trans rfl)
    decide +kernel
  have hd : Drained s := fun h _ => by omega
  have hu : Meets step Uses opened [.push 5, .pop 0] := by
    refine ⟨trivial, ?_⟩
    rintro _ ⟨⟩
    refine ⟨?_, fun _ _ => trivial⟩
    change Sys.member _ 0
    decide +kernel
  exact ⟨s, hs, hd, push_drained_iff (by decide) run_opened hs hu hd 6⟩

/-- Handle 0 is the only receiver and has popped all `n` messages. -/
structure Even (n : Nat) (s : Sys (policy .multi : Broadcast Nat)) : Prop where
  fixed : Fixed s
  member : s.member 0
  alone : ∀ h, s.member h → h = 0
  log : s.log.length = n
  done : s.done 0 = n

theorem Even.drained {n : Nat} {s : Sys (policy .multi : Broadcast Nat)} (he : Even n s) :
    Drained s := by
  intro h hm
  rw [he.alone h hm, he.log, he.done]
  omega

theorem opened_even : Even 0 opened := by
  obtain ⟨ho, hcc⟩ := opened_connects (init_opened _) run_opened
  refine ⟨ho.fixed (hcc (.inl (by decide))), by decide +kernel, fun h hm => ?_, by decide +kernel,
    by decide +kernel⟩
  match h, hm with
  | 0, _ => rfl
  | h + 1, hm =>
    have hm : false = true := hm
    cases hm

theorem Even.next {n : Nat} {s : Sys (policy .multi : Broadcast Nat)} (he : Even n s)
    (hn : n < 2 ^ 32) : ∃ t, run step s [.push 0, .pop 0] = some t ∧
      Meets step Uses s [.push 0, .pop 0] ∧ Even (n + 1) t := by
  obtain ⟨u, hu⟩ := Option.isSome_iff_exists.mp (he.fixed.push_isSome he.drained (he.log ▸ hn) 0)
  have hfu := he.fixed.push hu
  have hlog : u.log = s.log ++ [0] := Debts.push_log hu
  have hreader : u.reader = s.reader := by
    obtain ⟨q, _, rfl⟩ := Option.map_eq_some_iff.mp hu
    rfl
  have hmem : u.member 0 := by rw [Sys.member, hreader]; exact he.member
  have hdone : u.done 0 = n := by rw [Sys.done, hreader]; exact he.done
  -- the new message is there to be popped
  have hnext : (u.pop 0).map (·.1) = some 0 := by
    rw [hfu.exact.calm.inv.pop_eq hmem, hdone, hlog, ← he.log]
    simp
  obtain ⟨⟨x, last, t⟩, hp, _⟩ := Option.map_eq_some_iff.mp hnext
  have hu' : step s (.push 0) = some u := by rw [step, hu, Option.getD_some]
  have ht : step u (.pop 0) = some t := by rw [step, hp]; rfl
  refine ⟨t, ?_, ⟨trivial, fun v hv => ⟨?_, fun _ _ => trivial⟩⟩, hfu.pop hp, ?_, ?_, ?_, ?_⟩
  · rw [Lib.Runs.run_step hu', Lib.Runs.run_step ht]
    rfl
  · obtain rfl := Option.some.inj (hu'.symm.trans hv)
    exact hmem
  · exact (Debts.member_of_pop hp 0).1.mpr hmem
  · intro h hm
    have hm := (Debts.member_of_pop hp h).1.mp hm
    rw [Sys.member, hreader] at hm
    exact he.alone h hm
  · rw [Debts.pop_log hp, hlog, List.length_append, he.log, List.length_singleton]
  · rw [(Debts.member_of_pop hp 0).2.2, if_pos rfl, hdone]

theorem run_even {n : Nat} (hn : n ≤ 2 ^ 32) : ∃ acts s, run step opened acts = some s ∧
    Meets step Uses opened acts ∧ Even n s := by
  induction n with
  | zero => exact ⟨[], opened, rfl, trivial, opened_even⟩
  | succ n ih =>
    obtain ⟨acts, s, hr, hm, he⟩ := ih (by omega)
    obtain ⟨t, hr', hm', he'⟩ := he.next (by omega)
    refine ⟨acts ++ [.push 0, .pop 0], t, ?_, ?_, he'⟩
    · rw [Lib.Runs.run_append, hr, Option.bind_some, hr']
    · refine hm.append fun u hu => ?_
      obtain rfl := Option.some.inj (hr.symm.trans hu)
      exact hm'

/-- One receiver that pops every message at once: after `2 ^ 32` of them its slot is
drained and the push is refused. -/
theorem wrap_refused : ∃ acts s, run step opened acts = some s ∧ Meets step Uses opened acts ∧
    s.member 0 ∧ s.log.length = 2 ^ 32 ∧ s.done 0 = 2 ^ 32 ∧ Drained s ∧
      ∀ x, s.push x = none := by
  obtain ⟨acts, s, hr, hm, he⟩ := run_even (Nat.le_refl _)
  exact ⟨acts, s, hr, hm, he.member, he.log, he.done, he.drained,
    he.fixed.push_at_wrap he.log⟩

end CppIpc.WrapAround
