import CppIpc.Receivers

/-! # Who has yet to pop what

The history of a queue as its users need it: which receivers have not popped a message
yet, whose the bits of the connection word are, and which pending bits are stale. -/
namespace CppIpc.Debts
open CppIpc.Def CppIpc.ReadCounter CppIpc.ProdCons CppIpc.Receivers
open CppIpc.Lib.Window (slot Owes)

variable {α : Type} {B : Broadcast α}

/-- The receiver with bit `b` has yet to pop message `i`. -/
def Owing (s : Sys B) (i : Nat) (b : Fin 32) : Prop :=
  ∃ h, s.member h ∧ (s.handle h).connected = idOf b ∧ s.done h ≤ i ∧ i < s.log.length

section Owing
variable {s t : Sys B} {h i : Nat} {b : Fin 32} {x : α}

@[simp] theorem connect_log (s : Sys B) (h : Nat) : (s.connect h).log = s.log := by
  rcases s.connect_cases h with ⟨_, he⟩ | ⟨_, _, he⟩ | ⟨_, _, _, _, _, _, he⟩ <;> rw [he]

@[simp] theorem disconnect_log (s : Sys B) (h : Nat) : (s.disconnect h).log = s.log := by
  unfold Sys.disconnect
  split <;> rfl

/-- A receiver that has just connected has nothing to pop. -/
theorem member_of_connect (hi : Inv s) {h' : Nat} (hm : (s.connect h).member h')
    (hle : (s.connect h).done h' ≤ i) (hlt : i < s.log.length) :
    s.member h' ∧ ((s.connect h).handle h').connected = (s.handle h').connected ∧
      s.done h' ≤ i := by
  rcases s.connect_cases h with ⟨_, he⟩ | ⟨hc, _, he⟩ | ⟨hc, b', cc, _, _, _, he⟩
  · rw [he] at hm hle ⊢
    exact ⟨hm, rfl, hle⟩
  · rw [he] at hm hle ⊢
    have hne : h' ≠ h := by
      rintro rfl
      rw [hi.connected_of_member hm] at hc
      cases hc
    exact ⟨hm, by simp [Function.update_of_ne hne], hle⟩
  · rw [he] at hm hle ⊢
    by_cases hne : h' = h
    · subst hne
      simp only [Sys.done, Function.update_self, List.length_nil] at hle
      omega
    · simp only [Sys.member, Sys.done, Function.update_of_ne hne] at hm hle ⊢
      exact ⟨hm, trivial, hle⟩

theorem Owing.of_connect (hi : Inv s) (ho : Owing (s.connect h) i b) : Owing s i b := by
  obtain ⟨h', hm, hb, hle, hlt⟩ := ho
  rw [connect_log] at hlt
  obtain ⟨hm, hconn, hle⟩ := member_of_connect hi hm hle hlt
  exact ⟨h', hm, hconn.symm.trans hb, hle, hlt⟩

theorem conn_connect {b : Fin 32} (hc : Conn s.cc b) (h : Nat) : Conn (s.connect h).cc b := by
  rcases s.connect_cases h with ⟨_, he⟩ | ⟨_, _, he⟩ | ⟨_, b', cc, _, _, hbits, he⟩
  · rw [he]; exact hc
  · rw [he]; exact hc
  · rw [he, Conn, hbits, hc]
    rfl

/-- Receivers that connect take nothing from the others. -/
theorem Owing.connect (hi : Inv s) (ho : Owing s i b) (h : Nat) : Owing (s.connect h) i b := by
  obtain ⟨h', hm, hb, hle, hlt⟩ := ho
  rcases s.connect_cases h with ⟨_, he⟩ | ⟨hc, _, he⟩ | ⟨hc, b', cc, _, _, _, he⟩
  · rw [he]
    exact ⟨h', hm, hb, hle, hlt⟩
  all_goals
    have hne : h' ≠ h := by
      rintro rfl
      rw [hi.connected_of_member hm] at hc
      cases hc
    rw [he]
    refine ⟨h', ?_, ?_, ?_, hlt⟩
  · exact hm
  · simpa [Function.update_of_ne hne] using hb
  · exact hle
  · simpa [Sys.member, Function.update_of_ne hne] using hm
  · simpa [Function.update_of_ne hne] using hb
  · simpa [Sys.done, Function.update_of_ne hne] using hle

theorem Owing.of_disconnect (ho : Owing (s.disconnect h) i b) : Owing s i b := by
  obtain ⟨h', hm, hb, hle, hlt⟩ := ho
  rw [disconnect_log] at hlt
  unfold Sys.disconnect at hm hb hle
  split at hm
  · rename_i hc
    rw [if_pos hc] at hb hle
    have hne : h' ≠ h := by
      rintro rfl
      simp [Sys.member] at hm
    simp only [Sys.member, Sys.done, Function.update_of_ne hne] at hm hb hle
    exact ⟨h', hm, hb, hle, hlt⟩
  · rename_i hc
    rw [if_neg hc] at hb hle
    exact ⟨h', hm, hb, hle, hlt⟩

theorem push_log (hp : s.push x = some t) : t.log = s.log ++ [x] := by
  obtain ⟨q, _, rfl⟩ := Option.map_eq_some_iff.mp hp
  rfl

/-- The connected receivers owe the new message. -/
theorem Owing.of_push (hi : Inv s) (hp : s.push x = some t) (ho : Owing t i b) :
    (Owing s i b ∧ i < s.log.length) ∨ (i = s.log.length ∧ Conn s.cc b) := by
  obtain ⟨h, hm, hb, hle, hlt⟩ := ho
  rw [push_log hp, List.length_append, List.length_singleton] at hlt
  obtain ⟨q, _, rfl⟩ := Option.map_eq_some_iff.mp hp
  by_cases he : i = s.log.length
  · obtain ⟨b', hb', hcb⟩ := hi.ids h hm
    exact .inr ⟨he, idOf_inj (hb'.symm.trans hb) ▸ hcb⟩
  · exact .inl ⟨⟨h, hm, hb, hle, by omega⟩, by omega⟩

theorem Owing.push (ho : Owing s i b) (hp : s.push x = some t) : Owing t i b := by
  obtain ⟨h, hm, hb, hle, hlt⟩ := ho
  have hlog := push_log hp
  obtain ⟨q, _, rfl⟩ := Option.map_eq_some_iff.mp hp
  refine ⟨h, hm, hb, hle, ?_⟩
  rw [hlog, List.length_append]
  omega

theorem forcePush_none_log (hp : s.forcePush x = (t, none)) : t.log = s.log :=
  (forcePush_cases hp).2.2.2

theorem forcePush_some_log {y : α} (hp : s.forcePush x = (t, some y)) : t.log = s.log ++ [x] :=
  (forcePush_cases hp).2.2.2

/-- Members after a forced push were members before, with the same history. -/
theorem member_of_forcePush {old : Option α} (hp : s.forcePush x = (t, old)) (hm : t.member h) :
    s.member h ∧ t.handle h = s.handle h ∧ t.done h = s.done h ∧
      connected t.cc (s.handle h).connected = true := by
  obtain ⟨-, hh, hr, -⟩ := forcePush_cases hp
  simp only [Sys.member, hr, Bool.and_eq_true] at hm
  refine ⟨hm.1, congrFun hh h, ?_, hm.2⟩
  simp only [Sys.done, hr]

theorem Owing.of_forcePush_none (hp : s.forcePush x = (t, none)) (ho : Owing t i b) :
    Owing s i b := by
  obtain ⟨h, hm, hb, hle, hlt⟩ := ho
  obtain ⟨hm, hh, hd, _⟩ := member_of_forcePush hp hm
  rw [forcePush_none_log hp] at hlt
  exact ⟨h, hm, hh ▸ hb, hd ▸ hle, hlt⟩

/-- Nobody who stays owes the message that was in the slot. -/
theorem Owing.of_forcePush (hi : Inv s) {y : α} (hp : s.forcePush x = (t, some y))
    (ho : Owing t i b) :
    (Owing s i b ∧ i < s.log.length ∧ i + 256 ≠ s.log.length) ∨
      (i = s.log.length ∧ Conn s.cc b) := by
  obtain ⟨h, hmt, hb, hle, hlt⟩ := ho
  have hit : Inv t := by
    have := hi.forcePush (x := x)
    rw [hp] at this
    exact this
  have hroom := (hit.room h hmt).2
  obtain ⟨hm, hh, hd, _⟩ := member_of_forcePush hp hmt
  rw [hd] at hle hroom
  rw [hh] at hb
  rw [forcePush_some_log hp, List.length_append, List.length_singleton] at hlt hroom
  by_cases he : i = s.log.length
  · obtain ⟨b', hb', hcb⟩ := hi.ids h hm
    exact .inr ⟨he, idOf_inj (hb'.symm.trans hb) ▸ hcb⟩
  · exact .inl ⟨⟨h, hm, hb, hle, by omega⟩, by omega, by omega⟩

/-- The message in the slot that a forced push takes is the one a lap before. -/
theorem forcePush_old (hi : Inv s) {y : α} (hp : s.forcePush x = (t, some y))
    (hlt : i + 256 = s.log.length) : s.log[i]? = some y := by
  have hin : i < s.log.length := by omega
  rw [List.getElem?_eq_getElem hin, Option.some.injEq]
  have hdata := hi.data i _ (List.getElem?_eq_getElem hin) (by omega)
  obtain ⟨_, _, hy, _⟩ := B.force_some hi.ok (forcePush_cases hp).1
  have hs : slot 8 (i + 2 ^ 8) = slot 8 i := Lib.Window.slot_add_lap
  rw [← hlt, show 256 = 2 ^ 8 from rfl, hs, hdata] at hy
  exact hy.symm

theorem pop_log {last : Bool} (hp : s.pop h = some (x, last, t)) : t.log = s.log := by
  obtain ⟨_, _, he⟩ := Option.map_eq_some_iff.mp hp
  cases he
  rfl

/-- What a pop does to the members and their histories. -/
theorem member_of_pop {last : Bool} (hp : s.pop h = some (x, last, t)) (h' : Nat) :
    (t.member h' ↔ s.member h') ∧ (t.handle h').connected = (s.handle h').connected ∧
      t.done h' = if h' = h then s.done h + 1 else s.done h' := by
  obtain ⟨_, _, he⟩ := Option.map_eq_some_iff.mp hp
  cases he
  by_cases hne : h' = h
  · subst hne
    refine ⟨by simp [Sys.member], by simp, ?_⟩
    simp [Sys.done, Nat.add_assoc]
  · refine ⟨by simp [Sys.member, Function.update_of_ne hne], by simp [Function.update_of_ne hne], ?_⟩
    simp [Sys.done, hne]

theorem pop_eq_log (hi : Inv s) (hm : s.member h) {last : Bool} (hp : s.pop h = some (x, last, t)) :
    s.log[s.done h]? = some x := by
  rw [← hi.pop_eq hm, hp]
  rfl

/-- A receiver that pops a message does not owe it any more. -/
theorem Owing.of_pop {last : Bool} (hi : Inv s) (hm : s.member h)
    (hp : s.pop h = some (x, last, t)) (ho : Owing t i b) :
    Owing s i b ∧ (i = s.done h → (s.handle h).connected ≠ idOf b) := by
  obtain ⟨h', hm', hb, hle, hlt⟩ := ho
  obtain ⟨hmem, hconn, hdone⟩ := member_of_pop hp h'
  rw [pop_log hp] at hlt
  rw [hconn] at hb
  have hms := hmem.mp hm'
  by_cases hne : h' = h
  · subst hne
    rw [hdone, if_pos rfl] at hle
    exact ⟨⟨h', hms, hb, by omega, hlt⟩, fun he => by omega⟩
  · rw [hdone, if_neg hne] at hle
    exact ⟨⟨h', hms, hb, hle, hlt⟩, fun _ hb' => hne (hi.inj h' h hms hm (hb.trans hb'.symm))⟩

theorem Owing.pop {last : Bool} (ho : Owing s i b) (hp : s.pop h = some (x, last, t)) :
    Owing t i b ∨ (i = s.done h ∧ (s.handle h).connected = idOf b) := by
  obtain ⟨h', hm, hb, hle, hlt⟩ := ho
  obtain ⟨hmem, hconn, hdone⟩ := member_of_pop hp h'
  by_cases hne : h' = h
  · subst hne
    by_cases he : i = s.done h'
    · exact .inr ⟨he, hb⟩
    · refine .inl ⟨h', hmem.mpr hm, hconn.trans hb, ?_, by rw [pop_log hp]; exact hlt⟩
      rw [hdone, if_pos rfl]
      omega
  · refine .inl ⟨h', hmem.mpr hm, hconn.trans hb, ?_, by rw [pop_log hp]; exact hlt⟩
    rw [hdone, if_neg hne]
    exact hle

theorem Owing.of_member (hi : Inv s) (hm : s.member h) (hlt : s.done h ≤ i)
    (hlen : i < s.log.length) : ∃ b, (s.handle h).connected = idOf b ∧ Owing s i b := by
  obtain ⟨b, hb, _⟩ := hi.ids h hm
  exact ⟨b, hb, h, hm, hb, hlt, hlen⟩

end Owing

/-! ## Without forced pushes -/

/-- No bit of the connection word is without its receiver, a handle that is no member
has no id, and no slot is of an older epoch. -/
structure Calm (s : Sys B) : Prop where
  inv : Inv s
  off : ∀ h, ¬ s.member h → (s.handle h).connected = 0
  owned : ∀ b, Conn s.cc b → ∃ h, s.member h ∧ (s.handle h).connected = idOf b
  current : ∀ σ, B.current s.que σ

section Calm
variable {s t : Sys B} {h : Nat} {x : α}

theorem init_calm (B : Broadcast α) : Calm (Sys.init B) := by
  refine ⟨Receivers.init_inv B, fun _ _ => rfl, ?_, B.init_current⟩
  simp [Sys.init, Conn]

/-- A handle can act only under an id of its own. -/
theorem Calm.own (hc : Calm s) (h : Nat) (hconn : connected s.cc (s.handle h).connected = true) :
    s.member h := by
  by_contra hm
  rw [hc.off h hm, connected_zero] at hconn
  cases hconn

theorem Calm.connect (he : Calm s) (h : Nat) : Calm (s.connect h) := by
  have hinv := he.inv.connect h
  rcases s.connect_cases h with ⟨_, heq⟩ | ⟨hc, _, heq⟩ | ⟨hc, b, cc, hid, hclear, hbits, heq⟩
  · rw [heq]; exact he
  · have hm : ¬ s.member h := fun hm => by rw [he.inv.connected_of_member hm] at hc; cases hc
    have hsame : (Function.update s.handle h { s.handle h with connected := 0 }) = s.handle := by
      rw [Function.update_eq_self_iff, ← he.off h hm]
    rw [heq, hsame]
    exact he
  · rw [heq] at hinv ⊢
    refine ⟨hinv, ?_, ?_, he.current⟩
    · intro h' hm'
      by_cases hne : h' = h
      · subst hne
        simp [Sys.member] at hm'
      · simp only [Sys.member, Function.update_of_ne hne] at hm' ⊢
        exact he.off h' hm'
    · intro b' hb'
      rw [Conn, hbits, Bool.or_eq_true, decide_eq_true_iff] at hb'
      rcases hb' with hold | hnew
      · obtain ⟨h', hm', hh'⟩ := he.owned b' hold
        have hne : h' ≠ h := by
          rintro rfl
          rw [he.inv.connected_of_member hm'] at hc
          cases hc
        exact ⟨h', by simpa [Sys.member, Function.update_of_ne hne] using hm',
          by simpa [Function.update_of_ne hne] using hh'⟩
      · exact ⟨h, by simp [Sys.member], by simp [Fin.ext hnew]⟩

theorem Calm.disconnect (he : Calm s) (h : Nat) : Calm (s.disconnect h) := by
  have hinv := he.inv.disconnect (he.own h)
  unfold Sys.disconnect at hinv ⊢
  by_cases hc : connected s.cc (s.handle h).connected = true
  · rw [if_pos hc] at hinv ⊢
    have hm := he.own h hc
    obtain ⟨b, hb, _⟩ := he.inv.ids h hm
    refine ⟨hinv, ?_, ?_, he.current⟩
    · intro h' hm'
      by_cases hne : h' = h
      · subst hne; simp
      · simp only [Sys.member, Function.update_of_ne hne] at hm' ⊢
        exact he.off h' hm'
    · intro b' hb'
      simp only [Conn, Receivers.disconnect, hb, Lib.Bits.getLsbD_and_not, getLsbD_idOf,
        Bool.and_eq_true, Bool.not_eq_true', decide_eq_false_iff_not] at hb'
      obtain ⟨h', hm', hh'⟩ := he.owned b' hb'.1
      have hne : h' ≠ h := by
        rintro rfl
        exact hb'.2 (congrArg Fin.val (idOf_inj (hb.symm.trans hh')))
      exact ⟨h', by simpa [Sys.member, Function.update_of_ne hne] using hm',
        by simpa [Function.update_of_ne hne] using hh'⟩
  · rw [if_neg hc]
    exact he

theorem Calm.push (he : Calm s) (hp : s.push x = some t) : Calm t := by
  have hinv := he.inv.push hp fun _ _ _ => he.current _
  obtain ⟨q, hq, rfl⟩ := Option.map_eq_some_iff.mp hp
  obtain ⟨_, _, _, _, _, hcur⟩ := B.push_some he.inv.ok hq
  exact ⟨hinv, he.off, he.owned, fun σ => hcur σ (.inl (he.current σ))⟩

/-- A pop leaves the connections as they are. -/
theorem pop_cc {last : Bool} (hp : s.pop h = some (x, last, t)) : t.cc = s.cc := by
  obtain ⟨_, _, he⟩ := Option.map_eq_some_iff.mp hp
  cases he
  rfl

theorem owned_of_pop {last : Bool} (hp : s.pop h = some (x, last, t))
    (ho : ∀ b, Conn s.cc b → ∃ h, s.member h ∧ (s.handle h).connected = idOf b) :
    ∀ b, Conn t.cc b → ∃ h, t.member h ∧ (t.handle h).connected = idOf b := by
  intro b hb
  rw [pop_cc hp] at hb
  obtain ⟨h', hm', hh'⟩ := ho b hb
  obtain ⟨hmem, hconn, _⟩ := member_of_pop hp h'
  exact ⟨h', hmem.mpr hm', hconn.trans hh'⟩

theorem Calm.pop (he : Calm s) {last : Bool} (hp : s.pop h = some (x, last, t)) : Calm t := by
  refine ⟨he.inv.pop hp (he.own h), ?_, owned_of_pop hp he.owned, ?_⟩
  · intro h' hm'
    obtain ⟨hmem, hconn, _⟩ := member_of_pop hp h'
    rw [hconn]
    exact he.off h' fun hm => hm' (hmem.mpr hm)
  · obtain ⟨⟨x', last', q⟩, hq, heq⟩ := Option.map_eq_some_iff.mp hp
    cases heq
    obtain ⟨_, _, _, _, hcur⟩ := B.pop_some he.inv.ok hq
    exact fun σ => by rw [hcur]; exact he.current σ

end Calm

/-! ## No stale bits -/

/-- A pending bit of a member is for a message that it has yet to pop. -/
def NoStale (s : Sys B) : Prop := ∀ h, s.member h → ∀ b, (s.handle h).connected = idOf b → ∀ σ,
  (B.pend s.que σ).getLsbD b = true → Owes 8 (s.done h) s.log.length σ

section NoStale
variable {s t : Sys B} {h : Nat} {x : α}

/-- A receiver that blocks the slot about to be reused is exactly one lap behind. -/
theorem NoStale.lap (hn : NoStale s) (hi : Inv s) (hm : s.member h) {b : Fin 32}
    (hb : (s.handle h).connected = idOf b)
    (hbit : (B.pend s.que (slot 8 s.log.length)).getLsbD b = true) :
    s.log.length = s.done h + 256 := by
  obtain ⟨j, hle, hj, hs⟩ := hn h hm b hb _ hbit
  have hroom := hi.room h hm
  by_contra hc
  have := Lib.Window.eq_of_slot_eq hs (by omega) (by omega)
  omega

/-- Writing a message leaves stale at most the bits of those who left. -/
theorem NoStale.write (hn : NoStale s) (hi : Inv s) {cc : CC} (hlog : t.log = s.log ++ [x])
    (hpend : B.pend t.que = Function.update (B.pend s.que) (slot 8 s.log.length) cc)
    (hmem : ∀ h, t.member h → s.member h ∧ t.handle h = s.handle h ∧ t.done h = s.done h) :
    NoStale t := by
  intro h hm b hb σ hbit
  obtain ⟨hm, hh, hd⟩ := hmem h hm
  rw [hh] at hb
  have hle := (hi.room h hm).1
  rw [hd, hlog, List.length_append, List.length_singleton, Lib.Window.owes_succ_hi hle]
  rw [hpend, Function.update_apply] at hbit
  split at hbit
  · rename_i hσ; exact .inr hσ.symm
  · exact .inl (hn h hm b hb σ hbit)

theorem NoStale.push (hn : NoStale s) (hi : Inv s) (hp : s.push x = some t) : NoStale t := by
  have hlog := push_log hp
  obtain ⟨q, hq, rfl⟩ := Option.map_eq_some_iff.mp hp
  obtain ⟨_, _, _, hpend, _⟩ := B.push_some hi.ok hq
  exact hn.write hi hlog hpend fun h hm => ⟨hm, rfl, rfl⟩

theorem NoStale.forcePush (hn : NoStale s) (hi : Inv s) : NoStale (s.forcePush x).1 := by
  cases hp : s.forcePush x with
  | mk t old =>
    have hmem : ∀ h, t.member h → s.member h ∧ t.handle h = s.handle h ∧ t.done h = s.done h := by
      intro h hm
      obtain ⟨hm, hh, hd, _⟩ := member_of_forcePush hp hm
      exact ⟨hm, hh, hd⟩
    obtain ⟨hf, -, -, hlog⟩ := forcePush_cases hp
    cases old with
    | none =>
      obtain ⟨_, _, _, hpend, _⟩ := B.force_none hi.ok hf
      intro h hm b hb σ hbit
      obtain ⟨hm, hh, hd⟩ := hmem h hm
      rw [hpend] at hbit
      rw [hh] at hb
      rw [hd, forcePush_none_log hp]
      exact hn h hm b hb σ hbit
    | some y =>
      obtain ⟨_, _, _, _, hpend, _⟩ := B.force_some hi.ok hf
      exact hn.write hi hlog hpend hmem

theorem NoStale.pop (hn : NoStale s) (hi : Inv s) {last : Bool}
    (hp : s.pop h = some (x, last, t)) : NoStale t := by
  intro h' hm' b hb σ hbit
  obtain ⟨hmem, hconn, hdone⟩ := member_of_pop hp h'
  rw [hconn] at hb
  rw [pop_log hp, hdone]
  have hm := hmem.mp hm'
  have hpend : B.pend t.que = Function.update (B.pend s.que) (indexOf (s.handle h).cursor)
      (B.pend s.que (indexOf (s.handle h).cursor) &&& ~~~(s.handle h).connected) := by
    obtain ⟨⟨x', last', q⟩, hq, heq⟩ := Option.map_eq_some_iff.mp hp
    cases heq
    exact (B.pop_some hi.ok hq).2.2.1
  rw [hpend, Function.update_apply] at hbit
  have hold : (B.pend s.que σ).getLsbD b = true := by
    split at hbit
    · rename_i hσ
      rw [Lib.Bits.getLsbD_and_not, Bool.and_eq_true] at hbit
      rw [hσ]
      exact hbit.1
    · exact hbit
  by_cases hne : h' = h
  · subst hne
    rw [if_pos rfl, Lib.Window.owes_succ_lo (hi.room h' hm).2]
    refine ⟨hn h' hm b hb σ hold, fun hσ => ?_⟩
    rw [hi.cursor h' hm, indexOf_ofNat, if_pos hσ.symm, Lib.Bits.getLsbD_and_not, hb,
      getLsbD_idOf] at hbit
    simp at hbit
  · rw [if_neg hne]
    exact hn h' hm b hb σ hold

end NoStale

/-! ## While nobody connects -/

/-- No handle acts under the id of another, and every bit of the connection word has its
receiver. -/
structure Steady (s : Sys B) : Prop where
  inv : Inv s
  own : ∀ h, connected s.cc (s.handle h).connected = true → s.member h
  owned : ∀ b, Conn s.cc b → ∃ h, s.member h ∧ (s.handle h).connected = idOf b
  noStale : NoStale s

section Steady
variable {s t : Sys B} {h : Nat} {x : α}

theorem Steady.push (hs : Steady s) (hp : s.push x = some t)
    (hlap : ∀ h, s.member h → s.log.length = s.done h + 256 →
      B.current s.que (slot 8 s.log.length)) : Steady t := by
  have hinv := hs.inv.push hp hlap
  have hstale := hs.noStale.push hs.inv hp
  obtain ⟨q, _, rfl⟩ := Option.map_eq_some_iff.mp hp
  exact ⟨hinv, hs.own, hs.owned, hstale⟩

/-- The receivers that a forced push leaves are those whose bits it leaves. -/
theorem forcePush_conn {old : Option α} (hi : Inv s) (hp : s.forcePush x = (t, old)) :
    (∀ i, t.cc.getLsbD i = true → s.cc.getLsbD i = true) ∧ t.handle = s.handle ∧
      ∀ h, t.member h ↔ s.member h ∧ connected t.cc (s.handle h).connected = true := by
  obtain ⟨hf, hh, hr, -⟩ := forcePush_cases hp
  have hcc : t.cc = s.cc &&& ~~~B.pend s.que (slot 8 s.log.length) := by
    cases old with
    | none => exact (B.force_none hi.ok hf).1
    | some y => exact (B.force_some hi.ok hf).1
  refine ⟨fun i hbit => ?_, hh, fun h => ?_⟩
  · rw [hcc, Lib.Bits.getLsbD_and_not, Bool.and_eq_true] at hbit
    exact hbit.1
  · simp [Sys.member, hr]

theorem Steady.forcePush (hs : Steady s) {old : Option α} (hp : s.forcePush x = (t, old)) :
    Steady t := by
  have hinv := hs.inv.forcePush (x := x)
  have hstale := hs.noStale.forcePush (x := x) hs.inv
  rw [hp] at hinv hstale
  obtain ⟨hsub, hhandle, hmem⟩ := forcePush_conn hs.inv hp
  refine ⟨hinv, fun h hc => (hmem h).mpr ⟨hs.own h ?_, hhandle ▸ hc⟩, fun b hb => ?_, hstale⟩
  · rw [hhandle] at hc
    simp only [connected, decide_eq_true_iff] at hc ⊢
    obtain ⟨i, hbit⟩ := Lib.Bits.ne_zero_iff.mp hc
    rw [BitVec.getLsbD_and, Bool.and_eq_true] at hbit
    refine Lib.Bits.ne_zero_iff.mpr ⟨i, ?_⟩
    rw [BitVec.getLsbD_and, hsub i hbit.1, hbit.2]
    rfl
  · obtain ⟨h, hm, hh⟩ := hs.owned b (hsub b hb)
    refine ⟨h, (hmem h).mpr ⟨hm, ?_⟩, by rw [hhandle]; exact hh⟩
    rw [hh, connected_idOf]
    exact hb

theorem Steady.pop (hs : Steady s) {last : Bool} (hp : s.pop h = some (x, last, t)) :
    Steady t := by
  refine ⟨hs.inv.pop hp (hs.own h), fun h' hc => ?_, owned_of_pop hp hs.owned,
    hs.noStale.pop hs.inv hp⟩
  obtain ⟨hmem, hconn, _⟩ := member_of_pop hp h'
  rw [pop_cc hp, hconn] at hc
  exact hmem.mpr (hs.own h' hc)

/-- Somebody who is left has yet to pop the message in the slot that blocks a push. -/
theorem Steady.blocked (hs : Steady s) (hw : B.multi = true → s.log.length < 2 ^ 32)
    (hp : s.push x = none) (hcc : s.cc ≠ 0#32) : ∃ i b, i + 256 = s.log.length ∧ Owing s i b := by
  rw [Sys.push, Option.map_eq_none_iff, B.push_none hs.inv.ok hw] at hp
  obtain ⟨hne, _⟩ := hp.resolve_left hcc
  obtain ⟨i, hbit⟩ := Lib.Bits.ne_zero_iff.mp hne
  rw [BitVec.getLsbD_and, Bool.and_eq_true] at hbit
  have hlt : i < 32 := BitVec.lt_of_getLsbD hbit.1
  obtain ⟨h, hm, hh⟩ := hs.owned ⟨i, hlt⟩ hbit.1
  have hlap := hs.noStale.lap hs.inv hm hh hbit.2
  exact ⟨s.done h, ⟨i, hlt⟩, hlap.symm, h, hm, hh, Nat.le_refl _, by omega⟩

end Steady

end CppIpc.Debts
