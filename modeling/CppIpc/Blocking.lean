import CppIpc.Debts
import CppIpc.Policies

/-! # Who blocks a sender

Runs of `connect`, `disconnect`, `push` and `pop` on one queue, each operation run
alone. The pending bit of a slot belongs to an id, and an id is handed out again
after a disconnect; the invariant is that no connected receiver has inherited one. -/
namespace CppIpc.Blocking
open CppIpc.Def CppIpc.ReadCounter CppIpc.ProdCons CppIpc.Policies CppIpc.Receivers
open CppIpc.Debts
open CppIpc.Lib.Window (slot Owes)

variable {α : Type} {B : Broadcast α}

/-- The id that `connect` hands out is pending on no slot. -/
def Fresh (s : Sys B) : Act α → Prop
  | .connect h => connected s.cc (s.handle h).connected = false →
    ∀ σ, connected (B.pend s.que σ) (Receivers.connect s.cc).2 = false
  | _ => True

/-- The bits of the connected receivers say exactly what they owe, and every bit of
the connection word has its receiver. -/
structure Exact (s : Sys B) : Prop where
  calm : Calm s
  noStale : NoStale s

section Steps
variable {s t : Sys B} {h : Nat} {x : α}

theorem init_exact (B : Broadcast α) : Exact (Sys.init B) :=
  ⟨init_calm B, fun _ hm => by simp [Sys.init, Sys.member] at hm⟩

theorem Exact.connect (he : Exact s) (hf : Fresh s (.connect h)) : Exact (s.connect h) := by
  refine ⟨he.calm.connect h, ?_⟩
  rcases s.connect_cases h with ⟨_, heq⟩ | ⟨hc, _, heq⟩ | ⟨hc, b, cc, hid, hclear, hbits, heq⟩
  · rw [heq]; exact he.noStale
  · rw [heq]
    intro h' hm'
    have hne : h' ≠ h := by
      rintro rfl
      rw [he.calm.inv.connected_of_member hm'] at hc
      cases hc
    simp only [Function.update_of_ne hne]
    exact he.noStale h' hm'
  · rw [heq]
    intro h' hm' b' hb' σ hbit
    by_cases hne : h' = h
    · subst hne
      simp only [Function.update_self] at hb'
      have := hf hc σ
      rw [hid, hb'] at this
      rw [← Bool.not_eq_true, connected_idOf] at this
      exact absurd hbit this
    · simp only [Sys.member, Sys.done, Function.update_of_ne hne] at hm' hb' ⊢
      exact he.noStale h' hm' b' hb' σ hbit

theorem Exact.disconnect (he : Exact s) : Exact (s.disconnect h) := by
  refine ⟨he.calm.disconnect h, ?_⟩
  unfold Sys.disconnect
  split
  · intro h' hm' b' hb' σ hbit
    by_cases hne : h' = h
    · subst hne
      simp [Sys.member] at hm'
    · simp only [Sys.member, Sys.done, Function.update_of_ne hne] at hm' hb' ⊢
      exact he.noStale h' hm' b' hb' σ hbit
  · exact he.noStale

theorem Exact.push (he : Exact s) (hp : s.push x = some t) : Exact t :=
  ⟨he.calm.push hp, he.noStale.push he.calm.inv hp⟩

theorem Exact.pop (he : Exact s) {last : Bool} (hp : s.pop h = some (x, last, t)) : Exact t :=
  ⟨he.calm.pop hp, he.noStale.pop he.calm.inv hp⟩

theorem step_exact {a : Act α} (he : Exact s) (hf : Fresh s a)
    (hforce : ∀ x, a ≠ .forcePush x) (h : step s a = some t) : Exact t := by
  cases a with
  | connect n => cases h; exact he.connect hf
  | disconnect n => cases h; exact he.disconnect
  | push x =>
    cases h
    cases hp : s.push x with
    | none => exact he
    | some t => exact he.push hp
  | forcePush x => exact absurd rfl (hforce x)
  | pop n =>
    cases h
    cases hp : s.pop n with
    | none => exact he
    | some r => exact he.pop hp

/-- A receiver that owes the slot about to be reused is exactly one lap behind. -/
theorem Exact.blocked_iff (he : Exact s) (hw : s.log.length < 2 ^ 32) (x : α) :
    s.push x = none ↔ s.cc = 0 ∨ ∃ h, connected s.cc (s.handle h).connected = true ∧
      B.cursor s.que - (s.handle h).cursor = 256 := by
  have hcur := B.cursor_eq he.calm.inv.ok
  rw [Sys.push, Option.map_eq_none_iff, B.push_none he.calm.inv.ok fun _ => hw]
  refine or_congr Iff.rfl ?_
  constructor
  · rintro ⟨hne, _⟩
    obtain ⟨i, hi⟩ := Lib.Bits.ne_zero_iff.mp hne
    rw [BitVec.getLsbD_and, Bool.and_eq_true] at hi
    have hlt : i < 32 := BitVec.lt_of_getLsbD hi.1
    obtain ⟨h, hm, hh⟩ := he.calm.owned ⟨i, hlt⟩ hi.1
    have hlap := he.noStale.lap he.calm.inv hm hh hi.2
    refine ⟨h, he.calm.inv.connected_of_member hm, ?_⟩
    rw [hcur, he.calm.inv.cursor h hm, hlap, ← BitVec.ofNat_add_ofNat, BitVec.add_comm,
      BitVec.add_sub_cancel]
    rfl
  · rintro ⟨h, hc, hbehind⟩
    have hm := he.calm.own h hc
    obtain ⟨b, hb, hcb⟩ := he.calm.inv.ids h hm
    have hroom := he.calm.inv.room h hm
    have hlap : s.log.length = s.done h + 256 := by
      rw [hcur, he.calm.inv.cursor h hm] at hbehind
      have := congrArg BitVec.toNat hbehind
      have h256 : (256 : U2).toNat = 256 := rfl
      rw [BitVec.toNat_sub, BitVec.toNat_ofNat, BitVec.toNat_ofNat, h256] at this
      omega
    refine ⟨?_, he.calm.current _⟩
    refine Lib.Bits.ne_zero_iff.mpr ⟨b, ?_⟩
    rw [BitVec.getLsbD_and, hcb, he.calm.inv.lap_pending hm hb hlap]
    rfl

end Steps

/-- Both policies, every run with fewer than `2 ^ 32` messages. -/
theorem push_blocked_iff [Inhabited α] (rp : Relat) {acts : List (Act α)} {s : Sys (policy rp)}
    (hr : Lib.Runs.run step (Sys.init (policy rp)) acts = some s)
    (hforce : ∀ a ∈ acts, ∀ x, a ≠ .forcePush x)
    (hf : Lib.Runs.Meets step Fresh (Sys.init (policy rp)) acts)
    (hw : s.log.length < 2 ^ 32) (x : α) :
    s.push x = none ↔ s.cc = 0 ∨ ∃ h, connected s.cc (s.handle h).connected = true ∧
      (policy rp).cursor s.que - (s.handle h).cursor = 256 := by
  have he : Exact s := Lib.Runs.run_invariant
    (fun _ _ _ he hg h => step_exact he hg.1 hg.2 h) (init_exact _) hr (hf.and hforce)
  exact he.blocked_iff hw x

theorem push_blocked_once : ∃ s : Sys (policy .multi : Broadcast Nat),
    Lib.Runs.run step (Sys.init _) [.connect 0, .push 5] = some s ∧ (s.push 6).isSome = true ∧
      (s.push 6 = none ↔ s.cc = 0 ∨ ∃ h, connected s.cc (s.handle h).connected = true ∧
        (policy .multi).cursor s.que - (s.handle h).cursor = 256) := by
  have hf : Lib.Runs.Meets step Fresh (Sys.init (policy .multi : Broadcast Nat))
      [.connect 0, .push 5] := by
    refine ⟨fun _ σ => ?_, fun _ _ => ⟨trivial, fun _ _ => trivial⟩⟩
    rw [show (Sys.init (policy .multi : Broadcast Nat)).que = (policy .multi).init from rfl,
      (policy .multi).init_pend]
    decide +kernel
  exact ⟨_, rfl, by decide +kernel, push_blocked_iff .multi rfl (by simp) hf (by decide +kernel) 6⟩

/-! ## A sender blocked by a receiver that left -/

section Stale

/-- Slot 0 has the bit of a receiver that left; the receiver that got its id has
popped the `n` messages after that one. -/
structure Stale (n : Nat) (q : Route.Queue Nat) (s : Sys (policy .single : Broadcast Nat)) :
    Prop where
  que : s.que = q
  cc : s.cc = 1
  log : s.log.length = n + 1
  handle : s.handle 1 = ⟨1, BitVec.ofNat 32 (n + 1)⟩
  others : ∀ h, h ≠ 1 → (s.handle h).connected = 0
  wt : q.wt = BitVec.ofNat 32 (n + 1)
  epoch : q.epoch = 0
  rc : ∀ σ, (q.elems σ).rc = if σ = 0 then 1 else 0

/-- The first receiver leaves before it has popped anything. -/
def leave : List (Act Nat) := [.connect 0, .push 0, .disconnect 0, .connect 1]

theorem stale_leave : ∃ s, Lib.Runs.run step (Sys.init (policy .single)) leave = some s ∧
    ∃ q, Stale 0 q s := by
  refine ⟨_, rfl, _, rfl, by decide +kernel, by decide +kernel, by decide +kernel, ?_,
    by decide +kernel, by decide +kernel, by decide +kernel⟩
  intro h hne
  match h with
  | 0 => decide +kernel
  | 1 => exact absurd rfl hne
  | h + 2 => rfl

theorem Stale.next {n : Nat} {q : Route.Queue Nat} {s : Sys (policy .single : Broadcast Nat)}
    (hs : Stale n q s) (hn : n + 1 < 256) :
    ∃ t, Lib.Runs.run step s [.push 0, .pop 1] = some t ∧ ∃ q, Stale (n + 1) q t := by
  have hσ : indexOf q.wt = slot 8 (n + 1) := by rw [hs.wt, indexOf_ofNat]
  have hσ0 : slot 8 (n + 1) ≠ 0 := by
    intro h0
    have := congrArg BitVec.toNat h0
    rw [BitVec.toNat_ofNat] at this
    simp only [BitVec.ofNat_eq_ofNat, BitVec.toNat_zero] at this
    omega
  have hrc : (q.elems (slot 8 (n + 1))).rc = 0 := by rw [hs.rc, if_neg hσ0]
  -- the push marks the slot for the only receiver
  have hpush : q.push 1 0 = some (Policies.Route.place q 1 0) := by
    have hfree : Route.blocked 1 0 0 = false := by decide +kernel
    simp only [Route.Queue.push, hσ, hrc, hs.epoch, hfree]
    rw [if_neg (by decide), if_neg (by simp), Policies.Route.place, hσ, hs.epoch]
  obtain ⟨q₁, hq₁⟩ : ∃ q₁, q₁ = Policies.Route.place q 1 0 := ⟨_, rfl⟩
  have hwt₁ : q₁.wt = BitVec.ofNat 32 (n + 2) := by
    rw [hq₁, show n + 2 = n + 1 + 1 from rfl, ← BitVec.ofNat_add_ofNat (n + 1) 1, ← hs.wt]
    rfl
  have hrc₁ : ∀ σ, (q₁.elems σ).rc = if σ = slot 8 (n + 1) then 1 else if σ = 0 then 1 else 0 := by
    intro σ
    rw [hq₁, Policies.Route.place]
    simp only [Route.addWt_elems, Route.setData_rc, Route.setRc_rc, hσ, hs.epoch, hs.rc]
    rfl
  -- and the pop clears it
  have hpop : ∃ x last, q₁.pop 1 (BitVec.ofNat 32 (n + 1)) =
      some (x, last, q₁.setRc (slot 8 (n + 1)) 0) := by
    have hne : BitVec.ofNat 32 (n + 1) ≠ q₁.cursor := by
      rw [Route.Queue.cursor, hwt₁]
      intro he
      have := congrArg BitVec.toNat he
      rw [BitVec.toNat_ofNat, BitVec.toNat_ofNat] at this
      omega
    have h1 : (q₁.elems (slot 8 (n + 1))).rc = 1 := by rw [hrc₁, if_pos rfl]
    have hbit : (1 : RC) &&& ReadCounter.Route.epMask ≠ 0 := by decide +kernel
    have hclr : (1 : RC) &&& ~~~(1 : CC).setWidth 64 = 0 := by decide +kernel
    simp only [Route.Queue.pop, indexOf_ofNat, h1, hclr]
    rw [if_neg hne, if_neg hbit]
    exact ⟨_, _, rfl⟩
  obtain ⟨x, last, hpop⟩ := hpop
  obtain ⟨s₁, hs₁⟩ : ∃ s₁ : Sys (policy .single : Broadcast Nat),
      s₁ = { s with que := q₁, log := s.log ++ [0] } := ⟨_, rfl⟩
  have hp₁ : s.push 0 = some s₁ := by
    have : (policy .single : Broadcast Nat).push s.que s.cc 0 = some q₁ := by
      rw [hs.que, hs.cc, hq₁]; exact hpush
    rw [Sys.push, this, hs₁]
    rfl
  have hp₂ : s₁.pop 1 = some (x, last,
      { s₁ with
        que := q₁.setRc (slot 8 (n + 1)) 0
        handle := Function.update s₁.handle 1
          { s₁.handle 1 with cursor := (s₁.handle 1).cursor + 1 }
        reader := Function.update s₁.reader 1
          { s₁.reader 1 with popped := (s₁.reader 1).popped ++ [x] } }) := by
    have : (policy .single : Broadcast Nat).pop s₁.que (s₁.handle 1).connected
        (s₁.handle 1).cursor = some (x, last, q₁.setRc (slot 8 (n + 1)) 0) := by
      rw [hs₁]
      simp only [hs.handle]
      exact hpop
    rw [Sys.pop, this]
    rfl
  refine ⟨_, by simp only [Lib.Runs.run, step, hp₁, Option.bind_some, Option.getD_some, hp₂]; rfl,
    q₁.setRc (slot 8 (n + 1)) 0, rfl, ?_, ?_, ?_, ?_, hwt₁, ?_, ?_⟩
  · rw [hs₁]; exact hs.cc
  · rw [hs₁]; simp [hs.log]
  · rw [hs₁]
    simp only [hs.handle, Option.map_some, Option.getD_some, Function.update_self]
    rw [show n + 2 = n + 1 + 1 from rfl, ← BitVec.ofNat_add_ofNat (n + 1) 1]
    rfl
  · intro h hne
    rw [hs₁]
    simpa [Function.update_of_ne hne] using hs.others h hne
  · rw [hq₁]; exact hs.epoch
  · intro σ
    rw [Route.setRc_rc, hrc₁]
    by_cases he : σ = slot 8 (n + 1)
    · rw [if_pos he, he, if_neg hσ0]
    · rw [if_neg he, if_neg he]

theorem stale_run {n : Nat} (hn : n < 256) :
    ∃ s, Lib.Runs.run step (Sys.init (policy .single))
      (leave ++ (List.replicate n [Act.push 0, .pop 1]).flatten) = some s ∧ ∃ q, Stale n q s := by
  induction n with
  | zero => simpa using stale_leave
  | succ n ih =>
    obtain ⟨s, hr, q, hs⟩ := ih (by omega)
    obtain ⟨t, ht, hst⟩ := hs.next hn
    refine ⟨t, ?_, hst⟩
    rw [List.replicate_succ', List.flatten_append, ← List.append_assoc, Lib.Runs.run_append, hr]
    simpa using ht

/-- The push to slot 0 is refused although the only connected receiver has popped
everything. -/
theorem blocked_by_absent : ∃ s : Sys (policy .single : Broadcast Nat),
    Lib.Runs.run step (Sys.init _)
      (leave ++ (List.replicate 255 [Act.push 0, .pop 1]).flatten) = some s ∧
    s.log.length < 2 ^ 32 ∧ s.push 0 = none ∧
    ¬ (s.cc = 0 ∨ ∃ h, connected s.cc (s.handle h).connected = true ∧
      (policy .single).cursor s.que - (s.handle h).cursor = 256) := by
  obtain ⟨s, hr, q, hs⟩ := stale_run (n := 255) (by omega)
  have hσ : indexOf q.wt = 0 := by rw [hs.wt]; decide +kernel
  refine ⟨s, hr, by rw [hs.log]; decide, ?_, ?_⟩
  · have hrc : (q.elems 0).rc = 1 := by rw [hs.rc, if_pos rfl]
    have hblocked : Route.blocked 1 1 0 = true := by decide +kernel
    have : (policy .single : Broadcast Nat).push s.que s.cc 0 = none := by
      rw [hs.que, hs.cc]
      change q.push 1 0 = none
      simp only [Route.Queue.push, hσ, hrc, hs.epoch, hblocked, if_true]
      split <;> rfl
    rw [Sys.push, this]
    rfl
  · rintro (h0 | ⟨h, hc, hd⟩)
    · rw [hs.cc] at h0
      cases h0
    · by_cases hne : h = 1
      · subst hne
        rw [hs.handle, hs.que] at hd
        change q.wt - _ = _ at hd
        rw [hs.wt] at hd
        simp at hd
      · rw [hs.others h hne, connected_zero] at hc
        cases hc

end Stale

end CppIpc.Blocking
