import CppIpc.ForcedPush

/-! # Who owns a receiver slot

Connects, disconnects and forced pushes by any number of handles on one queue, each
run by one process alone. A forced push removes receivers behind the back of their
handles, which keep their `connected_`. -/
namespace CppIpc.Owners
open CppIpc.Def CppIpc.ReadCounter CppIpc.ProdCons CppIpc.Policies CppIpc.Receivers
open CppIpc.Lib.Runs (run Meets)

/-! ## The broadcast policies -/

section Broadcast
variable {α : Type} {B : Broadcast α} {s t : Sys B} {h : Nat}

/-- `queue_base::connected` of handle `h`. -/
def Connected (s : Sys B) (h : Nat) : Prop := connected s.cc (s.handle h).connected = true

/-- Connected handles have different ids, and the disconnect of one leaves the others
connected. -/
structure OneOwner (s : Sys B) : Prop where
  unique : ∀ h h', Connected s h → Connected s h' →
    (s.handle h).connected = (s.handle h').connected → h = h'
  leave : ∀ h h', h' ≠ h → Connected s h' → Connected (s.disconnect h) h'

/-- A connect does not hand out an id that another handle still keeps. -/
def Careful (s : Sys B) : Act α → Prop
  | .connect h => ¬ Connected s h → (connect s.cc).2 ≠ 0 →
    ∀ h', h' ≠ h → (s.handle h').connected ≠ (connect s.cc).2
  | _ => True

/-- An id is one bit or none. -/
structure Ids (s : Sys B) : Prop where
  ok : B.Ok s.que s.log.length
  bit : ∀ h, (s.handle h).connected = 0 ∨ ∃ b, (s.handle h).connected = idOf b

/-- With the ids of connected handles different. -/
structure Inv (s : Sys B) : Prop extends Ids s where
  unique : ∀ h h', Connected s h → Connected s h' →
    (s.handle h).connected = (s.handle h').connected → h = h'

theorem Ids.conn (hi : Ids s) (hc : Connected s h) :
    ∃ b, (s.handle h).connected = idOf b ∧ Conn s.cc b := by
  unfold Connected at hc
  rcases hi.bit h with h0 | ⟨b, hb⟩
  · rw [h0, connected_zero] at hc; cases hc
  · exact ⟨b, hb, (connected_idOf _ b).mp (hb ▸ hc)⟩

theorem init_inv (B : Broadcast α) : Inv (Sys.init B) := by
  refine ⟨⟨B.init_ok, fun _ => .inl rfl⟩, fun h h' hc => ?_⟩
  rw [Connected, Sys.init, connected_zero] at hc
  cases hc

/-- Fewer connections with the same ids. -/
theorem Inv.shrink (hi : Inv s) (hids : Ids t) (hc : ∀ h, Connected t h →
    Connected s h ∧ (t.handle h).connected = (s.handle h).connected) : Inv t := by
  refine ⟨hids, fun h h' hh hh' he => ?_⟩
  obtain ⟨hs, hid⟩ := hc h hh
  obtain ⟨hs', hid'⟩ := hc h' hh'
  exact hi.unique h h' hs hs' (hid.symm.trans (he.trans hid'))

/-- The connections left by `disconnect_receiver`. -/
theorem conn_disconnect {cc id : CC} {b : Fin 32} :
    Conn (disconnect cc id) b ↔ Conn cc b ∧ id.getLsbD b = false := by
  rw [Conn, disconnect, Lib.Bits.getLsbD_and_not, Bool.and_eq_true, Bool.not_eq_true']

/-- A handle that is connected after a disconnect was connected before, under
another id. -/
theorem connected_disconnect (hi : Ids s) {h' : Nat} :
    Connected (s.disconnect h) h' ↔ Connected s h' ∧
      (Connected s h → (s.handle h').connected ≠ (s.handle h).connected) := by
  have hz : ∀ cc, connected cc 0#32 = false := connected_zero
  by_cases hc : Connected s h
  · obtain ⟨b, hb, -⟩ := hi.conn hc
    have ht : s.disconnect h =
        { s with
          cc := disconnect s.cc (s.handle h).connected
          handle := Function.update s.handle h { s.handle h with connected := 0 }
          reader := Function.update s.reader h { s.reader h with member := false } } := if_pos hc
    rw [ht]
    by_cases he : h' = h
    · subst he
      simp [Connected, hz]
    · simp only [Connected, Function.update_of_ne he, hb]
      rcases hi.bit h' with h0 | ⟨b', hb'⟩
      · simp [h0, hz]
      · have hne : idOf b' ≠ idOf b ↔ decide ((b : Nat) = b') = false := by
          rw [decide_eq_false_iff_not, not_iff_not]
          exact ⟨fun he => congrArg Fin.val (idOf_inj he).symm, fun he => by rw [Fin.ext he]⟩
        rw [hb', connected_idOf, connected_idOf, conn_disconnect, getLsbD_idOf, hne]
        exact and_congr_right fun _ => ⟨fun hd _ => hd, fun hd => hd (hb ▸ hc)⟩
  · have ht : s.disconnect h = s := if_neg hc
    rw [ht]
    exact ⟨fun h => ⟨h, fun h => absurd h hc⟩, And.left⟩

theorem Inv.oneOwner (hi : Inv s) : OneOwner s := by
  refine ⟨hi.unique, fun h h' hne hc => (connected_disconnect hi.toIds).mpr ⟨hc, fun hh he => ?_⟩⟩
  exact hne (hi.unique h' h hc hh he)

/-! ### The operations -/

theorem Ids.step {a : Act α} (hi : Ids s) (ht : step s a = some t) : Ids t := by
  cases a with
  | connect h =>
    cases ht
    rcases s.connect_cases h with ⟨_, he⟩ | ⟨_, _, he⟩ | ⟨_, b, cc, _, _, _, he⟩
    · rw [he]; exact hi
    · rw [he]
      refine ⟨hi.ok, fun h' => ?_⟩
      by_cases hh : h' = h
      · subst hh; exact .inl (by simp)
      · simpa only [Function.update_of_ne hh] using hi.bit h'
    · rw [he]
      refine ⟨hi.ok, fun h' => ?_⟩
      by_cases hh : h' = h
      · subst hh; exact .inr ⟨b, by simp⟩
      · simpa only [Function.update_of_ne hh] using hi.bit h'
  | disconnect h =>
    cases ht
    unfold Sys.disconnect
    split
    · refine ⟨hi.ok, fun h' => ?_⟩
      by_cases hh : h' = h
      · subst hh; exact .inl (by simp)
      · simpa only [Function.update_of_ne hh] using hi.bit h'
    · exact hi
  | push x =>
    cases ht
    cases hp : s.push x with
    | none => exact hi
    | some u =>
      obtain ⟨q, hq, rfl⟩ := Option.map_eq_some_iff.mp hp
      exact ⟨by simpa using (B.push_some hi.ok hq).2.2.1, hi.bit⟩
  | forcePush x =>
    cases ht
    unfold Sys.forcePush
    rcases hf : B.forcePush s.que s.cc x with ⟨q, cc, _ | y⟩
    · exact ⟨(B.force_none hi.ok hf).2.2.1, hi.bit⟩
    · exact ⟨by simpa using (B.force_some hi.ok hf).2.2.2.1, hi.bit⟩
  | pop h =>
    cases ht
    cases hp : s.pop h with
    | none => exact hi
    | some u =>
      obtain ⟨⟨x, last, q⟩, hq, rfl⟩ := Option.map_eq_some_iff.mp hp
      refine ⟨(B.pop_some hi.ok hq).2.1, fun h' => ?_⟩
      by_cases hh : h' = h
      · subst hh; simpa using hi.bit h'
      · simpa [hh] using hi.bit h'

/-- Handing out the id of bit `b`. -/
theorem Inv.give (hi : Inv s) {b : Fin 32}
    (hbits : ∀ i, t.cc.getLsbD i = (s.cc.getLsbD i || decide ((b : Nat) = i)))
    (hself : (t.handle h).connected = idOf b)
    (hother : ∀ h', h' ≠ h → (t.handle h').connected = (s.handle h').connected) :
    (∀ h₁ h₂, Connected t h₁ → Connected t h₂ →
      (t.handle h₁).connected = (t.handle h₂).connected → h₁ = h₂) ↔
    ∀ h', h' ≠ h → (s.handle h').connected ≠ idOf b := by
  -- under the new word the old ids are what they were, and `b` is connected
  have hconn : ∀ b', Conn t.cc b' ↔ Conn s.cc b' ∨ b' = b := by
    intro b'
    rw [Conn, hbits, Bool.or_eq_true, decide_eq_true_iff]
    exact or_congr_right ⟨fun he => (Fin.ext he).symm, fun he => by rw [he]⟩
  have hnew : ∀ h', (t.handle h').connected = idOf b → Connected t h' := by
    intro h' he
    rw [Connected, he, connected_idOf, hconn]
    exact .inr rfl
  have hold : ∀ h', h' ≠ h → (s.handle h').connected ≠ idOf b → Connected t h' →
      Connected s h' := by
    intro h' hh hne hc
    rw [Connected, hother h' hh] at hc
    rcases hi.bit h' with h0 | ⟨b', hb'⟩
    · rw [h0, connected_zero] at hc; cases hc
    · rw [hb', connected_idOf, hconn] at hc
      rw [Connected, hb', connected_idOf]
      exact hc.resolve_right fun he => hne (he ▸ hb')
  constructor
  · intro hu h' hne he
    have he := (hother h' hne).trans he
    exact hne (hu h' h (hnew h' he) (hnew h hself) (he.trans hself.symm))
  · intro hne h₁ h₂ hc₁ hc₂ he
    by_cases h₁h : h₁ = h <;> by_cases h₂h : h₂ = h
    · rw [h₁h, h₂h]
    · rw [h₁h, hself, hother h₂ h₂h] at he
      exact absurd he.symm (hne h₂ h₂h)
    · rw [h₂h, hself, hother h₁ h₁h] at he
      exact absurd he (hne h₁ h₁h)
    · rw [hother h₁ h₁h, hother h₂ h₂h] at he
      exact hi.unique h₁ h₂ (hold h₁ h₁h (hne h₁ h₁h) hc₁) (hold h₂ h₂h (hne h₂ h₂h) hc₂) he

theorem inv_connect (hi : Inv s) (h : Nat) :
    Inv (s.connect h) ↔ Careful s (.connect h : Act α) := by
  have hids : Ids (s.connect h) := hi.toIds.step (a := .connect h) rfl
  rcases s.connect_cases h with ⟨hc, he⟩ | ⟨hc, h0, he⟩ | ⟨hc, b, cc, hid, _, hbits, he⟩
  · rw [he]
    exact ⟨fun _ hn => absurd hc hn, fun _ => hi⟩
  · refine ⟨fun _ _ hne => absurd h0 hne, fun _ => hi.shrink hids fun h' hc' => ?_⟩
    rw [he] at hc' ⊢
    by_cases hh : h' = h
    · subst hh
      simp only [Connected, Function.update_self, connected_zero] at hc'
      cases hc'
    · simp only [Connected, Function.update_of_ne hh] at hc' ⊢
      exact ⟨hc', trivial⟩
  · have hn : ¬ Connected s h := by rw [Connected, hc]; simp
    have hg : (∀ h₁ h₂, Connected (s.connect h) h₁ → Connected (s.connect h) h₂ →
        ((s.connect h).handle h₁).connected = ((s.connect h).handle h₂).connected → h₁ = h₂) ↔
        ∀ h', h' ≠ h → (s.handle h').connected ≠ idOf b := by
      refine hi.give ?_ ?_ ?_
      · rw [he]; exact hbits
      · rw [he]; simp
      · intro h' hh; rw [he]; simp [hh]
    constructor
    · intro ht _ _
      rw [hid]
      exact hg.mp ht.unique
    · intro hcare
      have hcare := hcare hn (by rw [hid]; exact idOf_ne_zero b)
      rw [hid] at hcare
      exact ⟨hids, hg.mpr hcare⟩

/-- The other operations hand out no id. -/
theorem Inv.other (hi : Inv s) {a : Act α} (ha : ∀ h, a ≠ .connect h) (ht : step s a = some t) :
    Inv t := by
  refine hi.shrink (hi.toIds.step ht) fun h' hc => ?_
  cases a with
  | connect h => exact absurd rfl (ha h)
  | disconnect h =>
    cases ht
    obtain ⟨hc', hne⟩ := (connected_disconnect hi.toIds).mp hc
    refine ⟨hc', ?_⟩
    unfold Sys.disconnect
    split
    · rename_i hcon
      have hh : h' ≠ h := fun he => hne hcon (he ▸ rfl)
      simp [hh]
    · rfl
  | push x =>
    cases ht
    cases hp : s.push x with
    | none => rw [hp] at hc; exact ⟨hc, rfl⟩
    | some u =>
      rw [hp] at hc
      obtain ⟨q, hq, rfl⟩ := Option.map_eq_some_iff.mp hp
      exact ⟨hc, rfl⟩
  | forcePush x =>
    cases ht
    -- the word only loses bits
    have hsub : ∃ rem, (s.forcePush x).1.cc = disconnect s.cc rem ∧
        (s.forcePush x).1.handle = s.handle := by
      unfold Sys.forcePush
      rcases hf : B.forcePush s.que s.cc x with ⟨q, cc, _ | y⟩
      · exact ⟨_, (B.force_none hi.ok hf).1, rfl⟩
      · exact ⟨_, (B.force_some hi.ok hf).1, rfl⟩
    obtain ⟨rem, hcc, hh⟩ := hsub
    rw [Connected, hcc, hh] at hc
    rw [hh, Connected]
    rcases hi.bit h' with h0 | ⟨b, hb⟩
    · rw [h0, connected_zero] at hc; cases hc
    · rw [hb, connected_idOf] at hc ⊢
      exact ⟨(conn_disconnect.mp hc).1, rfl⟩
  | pop h =>
    cases ht
    cases hp : s.pop h with
    | none => rw [hp] at hc; exact ⟨hc, rfl⟩
    | some u =>
      rw [hp] at hc
      obtain ⟨⟨x, last, q⟩, hq, rfl⟩ := Option.map_eq_some_iff.mp hp
      by_cases hh : h' = h
      · subst hh; simpa [Connected] using hc
      · simpa [Connected, hh] using hc

theorem inv_step_iff (hi : Inv s) {a : Act α} (ht : step s a = some t) : Inv t ↔ Careful s a := by
  by_cases ha : ∃ h, a = .connect h
  · obtain ⟨h, rfl⟩ := ha
    cases ht
    exact inv_connect hi h
  · have ha : ∀ h, a ≠ .connect h := fun h he => ha ⟨h, he⟩
    refine ⟨fun _ => ?_, fun _ => hi.other ha ht⟩
    cases a with
    | connect h => exact absurd rfl (ha h)
    | disconnect _ | push _ | forcePush _ | pop _ => trivial

/-- The step ends in a state where each slot has one owner. -/
def Owned (s : Sys B) (a : Act α) : Prop := ∀ t, step s a = some t → OneOwner t

theorem owned_iff (hi : Inv s) (a : Act α) : Owned s a ↔ Careful s a := by
  obtain ⟨t, ht⟩ : ∃ t, step s a = some t := by cases a <;> exact ⟨_, rfl⟩
  rw [← inv_step_iff hi ht]
  constructor
  · exact fun ho => ⟨hi.toIds.step ht, (ho t ht).unique⟩
  · intro hu t' ht'
    obtain rfl := Option.some.inj (ht.symm.trans ht')
    exact hu.oneOwner

end Broadcast

/-! ## The single consumer

`conn_head<P, false>` counts its connections, and `receiver_checker<P, false>` has a
flag that only one receiver can set. -/

namespace Single

structure Sys where
  flag : Bool
  cc : CC
  connected : Nat → CC

def Sys.init : Sys := ⟨false, 0, fun _ => 0⟩

/-- `conn_head<P, false>::connected`. -/
def connected (cc id : CC) : Bool := cc ≠ 0 ∧ id ≠ 0

/-- `queue_base::connected` of handle `h`. -/
def Sys.Connected (s : Sys) (h : Nat) : Prop := Single.connected s.cc (s.connected h) = true

/-- `queue_base::connect`, with `fetch_add` behind the `test_and_set`. -/
def Sys.connect (s : Sys) (h : Nat) : Sys :=
  if Single.connected s.cc (s.connected h) then s
  else if s.flag then { s with connected := Function.update s.connected h 0 }
  else ⟨true, s.cc + 1, Function.update s.connected h (s.cc + 1)⟩

/-- `receiver_checker<P, false>::disconnect`; the id of all bits clears the count. -/
def Sys.disconnectReceiver (s : Sys) (id : CC) : Sys :=
  { s with flag := false, cc := if id = ~~~0 then 0 else s.cc - 1 }

/-- `queue_base::disconnect`. -/
def Sys.disconnect (s : Sys) (h : Nat) : Sys :=
  if Single.connected s.cc (s.connected h) then
    { s with connected := Function.update s.connected h 0 }.disconnectReceiver (s.connected h)
  else s

inductive Act where
  | connect (h : Nat)
  | disconnect (h : Nat)
  | forcePush

def step (s : Sys) : Act → Option Sys
  | .connect h => some (s.connect h)
  | .disconnect h => some (s.disconnect h)
  | .forcePush => some (s.disconnectReceiver (~~~0))

/-- At most one handle is connected, and the disconnect of another one leaves it so. -/
structure OneOwner (s : Sys) : Prop where
  unique : ∀ h h', s.Connected h → s.Connected h' → h = h'
  leave : ∀ h h', h' ≠ h → s.Connected h' → (s.disconnect h).Connected h'

/-- A connect does not take the flag while another handle still keeps an id. -/
def Careful (s : Sys) : Act → Prop
  | .connect h => s.flag = false → ∀ h', h' ≠ h → s.connected h' = 0
  | _ => True

structure Inv (s : Sys) : Prop where
  count : s.cc = if s.flag then 1 else 0
  unique : ∀ h h', s.Connected h → s.Connected h' → h = h'

variable {s t : Sys} {h : Nat}

theorem Inv.connected_iff (hi : Inv s) (h : Nat) :
    s.Connected h ↔ s.flag = true ∧ s.connected h ≠ 0 := by
  rw [Sys.Connected, Single.connected, decide_eq_true_iff, hi.count]
  cases s.flag <;> simp

theorem init_inv : Inv Sys.init := by
  refine ⟨rfl, fun _ _ hc => ?_⟩
  simp [Sys.Connected, Sys.init, connected] at hc

theorem disconnectReceiver_cc (hi : Inv s) (hf : s.flag = true) (id : CC) :
    (s.disconnectReceiver id).cc = 0 := by
  have hcc : s.cc = 1 := by rw [hi.count, hf, if_pos rfl]
  simp only [Sys.disconnectReceiver, hcc]
  split <;> rfl

/-- Without the flag nobody is connected. -/
theorem inv_of_count (hf : t.flag = false) (hcc : t.cc = 0) : Inv t := by
  refine ⟨by rw [hf, hcc]; rfl, fun _ _ hc => ?_⟩
  simp [Sys.Connected, connected, hcc] at hc

theorem Inv.disconnect (hi : Inv s) (h : Nat) : Inv (s.disconnect h) := by
  unfold Sys.disconnect
  split
  · rename_i hc
    have hf := ((hi.connected_iff h).mp hc).1
    exact inv_of_count rfl (disconnectReceiver_cc hi hf _)
  · exact hi

theorem Inv.leave (hi : Inv s) {h' : Nat} (hne : h' ≠ h) (hc : s.Connected h') :
    (s.disconnect h).Connected h' := by
  unfold Sys.disconnect
  rw [if_neg]
  · exact hc
  · exact fun hh => hne (hi.unique h' h hc hh)

theorem inv_connect (hi : Inv s) (h : Nat) : Inv (s.connect h) ↔ Careful s (.connect h) := by
  cases hf : s.flag with
  | true =>
    refine ⟨fun _ hn => (nomatch hf.symm.trans hn), fun _ => ?_⟩
    unfold Sys.connect
    split
    · exact hi
    · refine ⟨hi.count, fun h₁ h₂ => ?_⟩
      have hold : ∀ h', Sys.Connected { s with connected := Function.update s.connected h 0 } h' →
          s.Connected h' := by
        intro h' hc
        by_cases he : h' = h
        · subst he
          simp [Sys.Connected, connected] at hc
        · simpa [Sys.Connected, he] using hc
      exact fun hc₁ hc₂ => hi.unique h₁ h₂ (hold h₁ hc₁) (hold h₂ hc₂)
  | false =>
    have hcc : s.cc = 0 := by rw [hi.count, hf]; rfl
    have ht : s.connect h = ⟨true, 1, Function.update s.connected h 1⟩ := by
      simp [Sys.connect, connected, hcc, hf]
    rw [ht]
    have hc : ∀ h', Sys.Connected ⟨true, 1, Function.update s.connected h 1⟩ h' ↔
        h' = h ∨ s.connected h' ≠ 0 := by
      intro h'
      by_cases he : h' = h
      · subst he; simp [Sys.Connected, connected]
      · simp [Sys.Connected, connected, he]
    constructor
    · intro hinv _ h' hne
      by_contra h0
      exact hne (hinv.unique h' h ((hc h').mpr (.inr h0)) ((hc h).mpr (.inl rfl)))
    · intro hcare
      refine ⟨rfl, fun h₁ h₂ hc₁ hc₂ => ?_⟩
      have hself : ∀ h', h' = h ∨ s.connected h' ≠ 0 → h' = h := fun h' ho =>
        ho.elim id fun hn => by_contra fun he => hn (hcare hf h' he)
      rw [hself h₁ ((hc h₁).mp hc₁), hself h₂ ((hc h₂).mp hc₂)]

/-- The step ends in a state with one owner. -/
def Owned (s : Sys) (a : Act) : Prop := ∀ t, step s a = some t → OneOwner t

theorem inv_step_iff (hi : Inv s) {a : Act} (ht : step s a = some t) : Inv t ↔ Careful s a := by
  cases a with
  | connect h => cases ht; exact inv_connect hi h
  | disconnect h => cases ht; exact ⟨fun _ => trivial, fun _ => hi.disconnect h⟩
  | forcePush => cases ht; exact ⟨fun _ => trivial, fun _ => inv_of_count rfl rfl⟩

/-- The count is right after every step. -/
theorem Inv.count_step (hi : Inv s) {a : Act} (ht : step s a = some t) :
    t.cc = if t.flag then 1 else 0 := by
  cases a with
  | connect h =>
    cases ht
    unfold Sys.connect
    split
    · exact hi.count
    · split
      · rename_i hf
        exact hi.count.trans (if_pos hf)
      · rename_i hf
        rw [hi.count, if_neg hf]
        rfl
  | disconnect h => cases ht; exact (hi.disconnect h).count
  | forcePush => cases ht; rfl

theorem owned_iff (hi : Inv s) (a : Act) : Owned s a ↔ Careful s a := by
  obtain ⟨t, ht⟩ : ∃ t, step s a = some t := by cases a <;> exact ⟨_, rfl⟩
  rw [← inv_step_iff hi ht]
  constructor
  · exact fun ho => ⟨hi.count_step ht, (ho t ht).unique⟩
  · intro hu t' ht'
    obtain rfl := Option.some.inj (ht.symm.trans ht')
    exact ⟨hu.unique, fun _ _ hne hc => hu.leave hne hc⟩

end Single

/-- Every run of the broadcast queues and every run of the unicast queue: all states
it reaches have one owner for each slot if and only if all its connects are careful. -/
theorem one_owner_iff {α : Type} [Inhabited α] (rp : Relat) (acts : List (Act α))
    (acts' : List Single.Act) :
    (Meets step Owned (Sys.init (policy rp)) acts ↔
      Meets step Careful (Sys.init (policy rp)) acts) ∧
    (Meets Single.step Single.Owned .init acts' ↔
      Meets Single.step Single.Careful .init acts') := by
  refine ⟨?_, ?_⟩
  · exact Lib.Runs.meets_congr (P := Inv) (fun _ a hi => owned_iff hi a)
      (fun _ a _ hi ho ht => (inv_step_iff hi ht).mpr ((owned_iff hi a).mp ho)) (init_inv _)
  · exact Lib.Runs.meets_congr (P := Single.Inv) (fun _ a hi => Single.owned_iff hi a)
      (fun _ a _ hi ho ht => (Single.inv_step_iff hi ht).mpr ((Single.owned_iff hi a).mp ho))
      Single.init_inv

/-- A lap is pushed and nobody pops, the forced push removes both receivers, and a
third one connects. -/
def takesOver : List (Act Nat) :=
  [.connect 0, .connect 1] ++ List.replicate 256 (.push 0) ++ [.forcePush 7, .connect 2]

/-- Handle 0 is connected again under the id of handle 2, and its disconnect removes
that one. -/
theorem two_owners :
    (∃ s : Sys (policy .single : Broadcast Nat), run step (Sys.init _) takesOver = some s ∧
      Connected s 0 ∧ Connected s 2 ∧ (s.handle 0).connected = (s.handle 2).connected ∧
      ¬ Connected (s.disconnect 0) 2) ∧
    ∃ s, run Single.step .init [.connect 0, .forcePush, .connect 1] = some s ∧
      s.Connected 0 ∧ s.Connected 1 ∧ ¬ (s.disconnect 0).Connected 1 := by
  have hr : run step (Sys.init (policy .single : Broadcast Nat)) takesOver =
      run step (ForcedPush.filled 256) [.forcePush 7, .connect 2] := by
    rw [takesOver, Lib.Runs.run_append, Lib.Runs.run_append, ForcedPush.run_connects,
      Option.bind_some, ForcedPush.run_fill (Nat.le_refl _), Option.bind_some]
  refine ⟨⟨_, hr, ?_, ?_, ?_, ?_⟩, _, rfl, ?_, ?_, ?_⟩
  · unfold Connected; decide +kernel
  · unfold Connected; decide +kernel
  · decide +kernel
  · unfold Connected; decide +kernel
  · unfold Single.Sys.Connected; decide +kernel
  · unfold Single.Sys.Connected; decide +kernel
  · unfold Single.Sys.Connected; decide +kernel

end CppIpc.Owners
