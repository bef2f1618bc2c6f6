import CppIpc.Lib.Logs
import CppIpc.Lib.Runs
import CppIpc.ProdCons
import CppIpc.ReadCounter

/-! # Receivers that come and go

`conn_head<P, true>`, `queue_conn` and `queue_base` over a broadcast policy, each
operation run by one process alone. Handles are numbered; beside the fields of the
source the state keeps the history: the messages whose push succeeded, and for each
handle whether its id is still its own, and what it popped since it connected. -/
namespace CppIpc.Receivers
open CppIpc.Def CppIpc.ReadCounter CppIpc.ProdCons
open CppIpc.Lib.Logs
open CppIpc.Lib.Window (slot Owes)

/-! ## The connection word -/

/-- `conn_head::connect`: the new word and the connected id, 0 if the word is full. -/
def connect (cc : CC) : CC × CC :=
  let next := cc ||| (cc + 1)
  if next = cc then (cc, 0) else (next, next ^^^ cc)

/-- `conn_head::disconnect`. -/
def disconnect (cc id : CC) : CC := cc &&& ~~~id

/-- `conn_head::connected`. -/
def connected (cc id : CC) : Bool := cc &&& id ≠ 0

/-- The id is the lowest clear bit, which is set. -/
theorem connect_cases (cc : CC) : connect cc = (cc, 0#32) ∨
    ∃ b, ¬ Conn cc b ∧ (connect cc).2 = idOf b ∧
      ∀ i, (connect cc).1.getLsbD i = (cc.getLsbD i || decide ((b : Nat) = i)) := by
  unfold connect
  dsimp only
  split
  · exact .inl rfl
  · rename_i hne
    -- the lowest clear bit is the only one that changes
    obtain ⟨b, hlt, hclear, -, hxor, hor⟩ := Lib.Bits.or_succ_eq hne
    refine .inr ⟨⟨b, hlt⟩, by simp [hclear], hxor, fun i => ?_⟩
    have hbit := getLsbD_idOf ⟨b, hlt⟩ i
    change (cc ||| (cc + 1#32)).getLsbD i = _
    rw [hor, BitVec.getLsbD_or, ← hbit]
    rfl

theorem connected_idOf (cc : CC) (b : Fin 32) : connected cc (idOf b) = true ↔ Conn cc b := by
  simp only [connected, decide_eq_true_iff]
  constructor
  · intro h
    obtain ⟨i, hi⟩ := Lib.Bits.ne_zero_iff.mp h
    rw [BitVec.getLsbD_and, getLsbD_idOf] at hi
    simp only [Bool.and_eq_true, decide_eq_true_iff] at hi
    rw [Conn, hi.2]
    exact hi.1
  · intro h
    refine Lib.Bits.ne_zero_iff.mpr ⟨b, ?_⟩
    rw [BitVec.getLsbD_and, getLsbD_idOf, h]
    simp

theorem connected_zero (cc : CC) : connected cc 0 = false := by simp [connected]

/-! ## The queue and its handles -/

/-- The receiving side of `queue_base`. -/
structure Handle where
  connected : CC
  cursor : U2
deriving DecidableEq

/-- The history of a handle: `member` from the connect that gave it an id until it
disconnects or a `force_push` removes it, `since` the messages pushed before that
connect. -/
structure Reader (α : Type) where
  member : Bool
  since : Nat
  popped : List α

structure Sys {α : Type} (B : Broadcast α) where
  que : B.Queue
  cc : CC
  handle : Nat → Handle
  reader : Nat → Reader α
  log : List α

variable {α : Type} {B : Broadcast α}

def Sys.init (B : Broadcast α) : Sys B where
  que := B.init
  cc := 0
  handle := fun _ => ⟨0, 0⟩
  reader := fun _ => ⟨false, 0, []⟩
  log := []

/-- `queue_base::connect`; it does not connect twice. -/
def Sys.connect (s : Sys B) (h : Nat) : Sys B :=
  if connected s.cc (s.handle h).connected then s
  else
    let (cc, id) := Receivers.connect s.cc
    if connected cc id then
      { s with
        cc := cc
        handle := Function.update s.handle h ⟨id, B.cursor s.que⟩
        reader := Function.update s.reader h ⟨true, s.log.length, []⟩ }
    else
      { s with
        cc := cc
        handle := Function.update s.handle h { s.handle h with connected := id } }

/-- `queue_base::disconnect`. -/
def Sys.disconnect (s : Sys B) (h : Nat) : Sys B :=
  if connected s.cc (s.handle h).connected then
    { s with
      cc := Receivers.disconnect s.cc (s.handle h).connected
      handle := Function.update s.handle h { s.handle h with connected := 0 }
      reader := Function.update s.reader h { s.reader h with member := false } }
  else s

/-- `queue_base::push`. -/
def Sys.push (s : Sys B) (x : α) : Option (Sys B) :=
  (B.push s.que s.cc x).map fun q => { s with que := q, log := s.log ++ [x] }

/-- `queue_base::force_push`, with the old content of the slot where it returns
true. -/
def Sys.forcePush (s : Sys B) (x : α) : Sys B × Option α :=
  let (q, cc, old) := B.forcePush s.que s.cc x
  let t : Sys B :=
    { s with
      que := q
      cc := cc
      reader := fun h =>
        { s.reader h with
          member := (s.reader h).member && connected cc (s.handle h).connected } }
  (match old with
    | none => t
    | some _ => { t with log := s.log ++ [x] }, old)

/-- `queue_base::pop`, with the argument of `out`. -/
def Sys.pop (s : Sys B) (h : Nat) : Option (α × Bool × Sys B) :=
  (B.pop s.que (s.handle h).connected (s.handle h).cursor).map fun (x, last, q) =>
    (x, last,
      { s with
        que := q
        handle := Function.update s.handle h
          { s.handle h with cursor := (s.handle h).cursor + 1 }
        reader := Function.update s.reader h
          { s.reader h with popped := (s.reader h).popped ++ [x] } })

/-- An operation on the queue, run by one process alone. -/
inductive Act (α : Type) where
  | connect (h : Nat)
  | disconnect (h : Nat)
  | push (x : α)
  | forcePush (x : α)
  | pop (h : Nat)

/-- An operation that returns false changes at most the epoch and the connection
word. -/
def step (s : Sys B) : Act α → Option (Sys B)
  | .connect h => some (s.connect h)
  | .disconnect h => some (s.disconnect h)
  | .push x => some ((s.push x).getD s)
  | .forcePush x => some (s.forcePush x).1
  | .pop h => some (((s.pop h).map (·.2.2)).getD s)

/-- The index of the next message for handle `h`. -/
def Sys.done (s : Sys B) (h : Nat) : Nat := (s.reader h).since + (s.reader h).popped.length

abbrev Sys.member (s : Sys B) (h : Nat) : Prop := (s.reader h).member = true

/-- What holds of the receivers that are still connected. -/
structure Inv (s : Sys B) : Prop where
  ok : B.Ok s.que s.log.length
  ids : ∀ h, s.member h → ∃ b, (s.handle h).connected = idOf b ∧ Conn s.cc b
  inj : ∀ h h', s.member h → s.member h' →
    (s.handle h).connected = (s.handle h').connected → h = h'
  cursor : ∀ h, s.member h → (s.handle h).cursor = BitVec.ofNat 32 (s.done h)
  room : ∀ h, s.member h → s.done h ≤ s.log.length ∧ s.log.length ≤ s.done h + 256
  pending : ∀ h, s.member h → ∀ b, (s.handle h).connected = idOf b → ∀ i, s.done h ≤ i →
    i < s.log.length → (B.pend s.que (slot 8 i)).getLsbD b = true
  data : ∀ i v, s.log[i]? = some v → s.log.length ≤ i + 256 → B.data s.que (slot 8 i) = v
  popped : ∀ h, s.member h → (s.reader h).popped <+: s.log.drop (s.reader h).since

/-! ## The operations keep it -/

section Operations
variable {s t : Sys B} {h : Nat} {x : α}

theorem Sys.connect_cases (s : Sys B) (h : Nat) :
    (connected s.cc (s.handle h).connected = true ∧ s.connect h = s) ∨
    (connected s.cc (s.handle h).connected = false ∧ (Receivers.connect s.cc).2 = 0 ∧ s.connect h =
      { s with handle := Function.update s.handle h { s.handle h with connected := 0 } }) ∨
    connected s.cc (s.handle h).connected = false ∧ ∃ b cc,
      (Receivers.connect s.cc).2 = idOf b ∧ ¬ Conn s.cc b ∧
      (∀ i, cc.getLsbD i = (s.cc.getLsbD i || decide ((b : Nat) = i))) ∧ s.connect h =
      { s with
        cc := cc
        handle := Function.update s.handle h ⟨idOf b, B.cursor s.que⟩
        reader := Function.update s.reader h ⟨true, s.log.length, []⟩ } := by
  unfold Sys.connect
  split
  · rename_i hc; exact .inl ⟨hc, rfl⟩
  · rename_i hc
    have hc : connected s.cc (s.handle h).connected = false := by simpa using hc
    right
    rcases Receivers.connect_cases s.cc with hfull | ⟨b, hclear, hid, hbits⟩
    · rw [hfull]
      exact .inl ⟨hc, rfl, by simp [connected]⟩
    · have hconn : connected (Receivers.connect s.cc).1 (idOf b) = true := by
        rw [connected_idOf, Conn, hbits]
        simp
      refine .inr ⟨hc, b, (Receivers.connect s.cc).1, hid, hclear, hbits, ?_⟩
      simp only [hid, hconn, if_true]

theorem Inv.connected_of_member (hi : Inv s) (hm : s.member h) :
    connected s.cc (s.handle h).connected = true := by
  obtain ⟨b, hb, hc⟩ := hi.ids h hm
  rw [hb]
  exact (connected_idOf s.cc b).mpr hc

/-- Nothing is asked of a handle that is not a member. -/
theorem Inv.otherHandle (hi : Inv s) (hm : ¬ s.member h) (c : Handle) :
    Inv { s with handle := Function.update s.handle h c } := by
  have hne : ∀ h', s.member h' → h' ≠ h := fun h' hm' he => hm (he ▸ hm')
  refine { hi with ids := ?_, inj := ?_, cursor := ?_, pending := ?_ }
  · intro h' hm'
    simp only [Function.update_of_ne (hne h' hm')]
    exact hi.ids h' hm'
  · intro h₁ h₂ hm₁ hm₂
    simp only [Function.update_of_ne (hne h₁ hm₁), Function.update_of_ne (hne h₂ hm₂)]
    exact hi.inj h₁ h₂ hm₁ hm₂
  · intro h' hm'
    simp only [Function.update_of_ne (hne h' hm')]
    exact hi.cursor h' hm'
  · intro h' hm'
    simp only [Function.update_of_ne (hne h' hm')]
    exact hi.pending h' hm'

theorem Inv.connect (hi : Inv s) (h : Nat) : Inv (s.connect h) := by
  have hmem := hi.connected_of_member (h := h)
  rcases s.connect_cases h with ⟨_, he⟩ | ⟨hc, _, he⟩ | ⟨hc, b, cc, _, hclear, hbits, he⟩
  · rw [he]; exact hi
  · rw [he]
    exact hi.otherHandle (fun hm => by rw [hmem hm] at hc; cases hc) _
  · rw [he]
    -- the new bit is nobody's
    have hnew : ∀ h', s.member h' → (s.handle h').connected ≠ idOf b := by
      intro h' hm' heq
      obtain ⟨b', hb', hcb⟩ := hi.ids h' hm'
      exact hclear (idOf_inj (hb'.symm.trans heq) ▸ hcb)
    refine { ok := hi.ok, data := hi.data, ids := ?_, inj := ?_, cursor := ?_, room := ?_,
             pending := ?_, popped := ?_ }
    · intro h' hm'
      by_cases hne : h' = h
      · subst hne
        exact ⟨b, by simp, by simp [Conn, hbits]⟩
      · simp only [Sys.member, Function.update_of_ne hne] at hm' ⊢
        obtain ⟨b', hb', hcb⟩ := hi.ids h' hm'
        exact ⟨b', hb', by rw [Conn, hbits, hcb]; rfl⟩
    · intro h₁ h₂ hm₁ hm₂
      by_cases h₁h : h₁ = h <;> by_cases h₂h : h₂ = h
      · intro _; rw [h₁h, h₂h]
      · simp only [Sys.member, Function.update_of_ne h₂h] at hm₂
        subst h₁h
        simp only [Function.update_self, Function.update_of_ne h₂h]
        exact fun heq => absurd heq.symm (hnew h₂ hm₂)
      · simp only [Sys.member, Function.update_of_ne h₁h] at hm₁
        subst h₂h
        simp only [Function.update_self, Function.update_of_ne h₁h]
        exact fun heq => absurd heq (hnew h₁ hm₁)
      · simp only [Sys.member, Function.update_of_ne h₁h, Function.update_of_ne h₂h] at hm₁ hm₂ ⊢
        exact hi.inj h₁ h₂ hm₁ hm₂
    · intro h' hm'
      by_cases hne : h' = h
      · subst hne
        simp [Sys.done, B.cursor_eq hi.ok]
      · simp only [Sys.member, Sys.done, Function.update_of_ne hne] at hm' ⊢
        exact hi.cursor h' hm'
    · intro h' hm'
      by_cases hne : h' = h
      · subst hne
        simp [Sys.done]
      · simp only [Sys.member, Sys.done, Function.update_of_ne hne] at hm' ⊢
        exact hi.room h' hm'
    · intro h' hm'
      by_cases hne : h' = h
      · subst hne
        intro b' _ i hle hlt
        simp only [Sys.done, Function.update_self, List.length_nil] at hle hlt
        omega
      · simp only [Sys.member, Sys.done, Function.update_of_ne hne] at hm' ⊢
        exact hi.pending h' hm'
    · intro h' hm'
      by_cases hne : h' = h
      · subst hne
        simp
      · simp only [Sys.member, Function.update_of_ne hne] at hm' ⊢
        exact hi.popped h' hm'

/-- Removing receivers; those that stay keep their handle and their history. -/
theorem Inv.remove (hi : Inv s) (cc : CC) (handle : Nat → Handle) (reader : Nat → Reader α)
    (hsub : ∀ h, (reader h).member = true → s.member h ∧ handle h = s.handle h ∧
      (reader h).since = (s.reader h).since ∧ (reader h).popped = (s.reader h).popped ∧
      connected cc (s.handle h).connected = true) :
    Inv { s with cc := cc, handle := handle, reader := reader } := by
  have hdone : ∀ h, (reader h).member = true →
      Sys.done { s with cc := cc, handle := handle, reader := reader } h = s.done h := by
    intro h hm
    obtain ⟨_, _, hs, hp, _⟩ := hsub h hm
    simp only [Sys.done, hs, hp]
  refine { ok := hi.ok, data := hi.data, ids := ?_, inj := ?_, cursor := ?_, room := ?_,
           pending := ?_, popped := ?_ }
  · intro h hm
    obtain ⟨hm', hh, _, _, hc⟩ := hsub h hm
    obtain ⟨b, hb, _⟩ := hi.ids h hm'
    rw [hb] at hc
    exact ⟨b, by simp only [hh, hb], (connected_idOf cc b).mp hc⟩
  · intro h₁ h₂ hm₁ hm₂
    obtain ⟨hm₁, hh₁, _⟩ := hsub h₁ hm₁
    obtain ⟨hm₂, hh₂, _⟩ := hsub h₂ hm₂
    simp only [hh₁, hh₂]
    exact hi.inj h₁ h₂ hm₁ hm₂
  · intro h hm
    rw [hdone h hm]
    obtain ⟨hm, hh, _⟩ := hsub h hm
    simp only [hh]
    exact hi.cursor h hm
  · intro h hm
    rw [hdone h hm]
    exact hi.room h (hsub h hm).1
  · intro h hm
    rw [hdone h hm]
    obtain ⟨hm, hh, _⟩ := hsub h hm
    simp only [hh]
    exact hi.pending h hm
  · intro h hm
    obtain ⟨hm, _, hs, hp, _⟩ := hsub h hm
    simp only [hs, hp]
    exact hi.popped h hm

/-- A handle that lost its id must not disconnect the receiver that has it now. -/
theorem Inv.disconnect (hi : Inv s)
    (hown : connected s.cc (s.handle h).connected = true → s.member h) :
    Inv (s.disconnect h) := by
  unfold Sys.disconnect
  split
  · rename_i hc
    have hm := hown hc
    apply hi.remove
    intro h' hm'
    have hne : h' ≠ h := by
      rintro rfl
      simp at hm'
    simp only [Function.update_of_ne hne, true_and] at hm' ⊢
    refine ⟨hm', ?_⟩
    obtain ⟨b, hb, _⟩ := hi.ids h hm
    obtain ⟨b', hb', hcb⟩ := hi.ids h' hm'
    have hbb : (b : Nat) ≠ b' := fun he =>
      hne (hi.inj h' h hm' hm (by rw [hb, hb', Fin.ext he]))
    rw [hb', connected_idOf, Conn, Receivers.disconnect, Lib.Bits.getLsbD_and_not, hb,
      getLsbD_idOf, hcb]
    simp [hbb]
  · exact hi

theorem Inv.bit_eq (hi : Inv s) {h' : Nat} (hm : s.member h) (hm' : s.member h') {b b' : Fin 32}
    (hb : (s.handle h).connected = idOf b) (hb' : (s.handle h').connected = idOf b')
    (he : (b : Nat) = b') : h = h' :=
  hi.inj h h' hm hm' (by rw [hb, hb', Fin.ext he])

/-- A message written for at least the members of the new word, all of which have
room for it. -/
theorem Inv.write (hi : Inv s) {q : B.Queue} {cc : CC} (hok : B.Ok q (s.log.length + 1))
    (hroom : ∀ h, s.member h → s.log.length + 1 ≤ s.done h + 256)
    (hids : ∀ h, s.member h → ∀ b, (s.handle h).connected = idOf b → Conn cc b)
    (hpend : B.pend q = Function.update (B.pend s.que) (slot 8 s.log.length) cc)
    (hdata : B.data q = Function.update (B.data s.que) (slot 8 s.log.length) x) :
    Inv { s with que := q, cc := cc, log := s.log ++ [x] } := by
  have hlen : (s.log ++ [x]).length = s.log.length + 1 := by simp
  refine { ok := ?_, inj := hi.inj, cursor := hi.cursor, ids := ?_, room := ?_, pending := ?_,
           data := ?_, popped := ?_ }
  · rw [hlen]; exact hok
  · intro h hm
    obtain ⟨b, hb, _⟩ := hi.ids h hm
    exact ⟨b, hb, hids h hm b hb⟩
  · intro h hm
    simp only [hlen]
    exact ⟨Nat.le_succ_of_le (hi.room h hm).1, hroom h hm⟩
  · intro h hm b hb i hle hlt
    simp only [hlen] at hlt
    simp only [hpend, Function.update_apply]
    by_cases he : i = s.log.length
    · rw [if_pos (by rw [he])]
      exact hids h hm b hb
    · rw [if_neg]
      · exact hi.pending h hm b hb i hle (by omega)
      · intro hs
        have hr := hroom h hm
        have hle : s.done h ≤ i := hle
        have := Lib.Window.eq_of_slot_eq hs (by omega) (by omega)
        exact he this
  · intro i v hv hle
    simp only [hlen] at hle
    simp only [hdata, Function.update_apply]
    by_cases he : i = s.log.length
    · rw [if_pos (by rw [he])]
      subst he
      simpa using hv
    · have hlt : i < s.log.length := by
        have hin : i < (s.log ++ [x]).length := (List.getElem?_eq_some_iff.mp hv).1
        omega
      rw [if_neg]
      · rw [List.getElem?_append_left hlt] at hv
        exact hi.data i v hv (by omega)
      · intro hs
        have := Lib.Window.eq_of_slot_eq hs (by omega) (by omega)
        omega
  · intro h hm
    have hs : (s.reader h).since ≤ s.log.length := by
      have := (hi.room h hm).1
      unfold Sys.done at this
      omega
    simp only [List.drop_append_of_le_length hs]
    exact (hi.popped h hm).trans (List.prefix_append _ _)

/-- A receiver a whole lap behind is still pending on the slot about to be reused. -/
theorem Inv.lap_pending (hi : Inv s) (hm : s.member h) {b : Fin 32}
    (hb : (s.handle h).connected = idOf b) (hlap : s.log.length = s.done h + 256) :
    (B.pend s.que (slot 8 s.log.length)).getLsbD b = true := by
  have hs : slot 8 (s.done h + 2 ^ 8) = slot 8 (s.done h) := Lib.Window.slot_add_lap
  rw [hlap, show 256 = 2 ^ 8 from rfl, hs]
  exact hi.pending h hm b hb _ (Nat.le_refl _) (by omega)

/-- A push that goes ahead over an older epoch must not find a receiver a whole lap
behind. -/
theorem Inv.push (hi : Inv s) (hp : s.push x = some t)
    (hlap : ∀ h, s.member h → s.log.length = s.done h + 256 →
      B.current s.que (slot 8 s.log.length)) : Inv t := by
  obtain ⟨q, hq, rfl⟩ := Option.map_eq_some_iff.mp hp
  obtain ⟨_, hcur, hok, hpend, hdata, _⟩ := B.push_some hi.ok hq
  refine hi.write hok ?_ ?_ hpend hdata
  · intro h hm
    have := (hi.room h hm).2
    by_contra hc
    have hlap' : s.log.length = s.done h + 256 := by omega
    obtain ⟨b, hb, hcb⟩ := hi.ids h hm
    refine hcur (fun h0 => ?_) (hlap h hm hlap')
    have := Lib.Bits.and_eq_zero_iff.mp h0 b hcb
    rw [hi.lap_pending hm hb hlap'] at this
    cases this
  · intro h hm b hb
    obtain ⟨b', hb', hcb⟩ := hi.ids h hm
    exact idOf_inj (hb'.symm.trans hb) ▸ hcb

/-- What `force_push` did: the receivers of the removed bits are no members any more,
and with a slot `x` is the next message. -/
theorem forcePush_cases {old : Option α} (hp : s.forcePush x = (t, old)) :
    B.forcePush s.que s.cc x = (t.que, t.cc, old) ∧ t.handle = s.handle ∧
      (t.reader = fun h => { s.reader h with
        member := (s.reader h).member && connected t.cc (s.handle h).connected }) ∧
      t.log = if old.isSome then s.log ++ [x] else s.log := by
  unfold Sys.forcePush at hp
  cases hf : B.forcePush s.que s.cc x with
  | mk q r =>
    obtain ⟨cc, old'⟩ := r
    rw [hf] at hp
    cases old' with
    | none => cases hp; exact ⟨rfl, rfl, rfl, rfl⟩
    | some y => cases hp; exact ⟨rfl, rfl, rfl, rfl⟩

/-- A forced push keeps the receivers that are not pending on the slot it reuses. -/
theorem Inv.forcePush (hi : Inv s) : Inv (s.forcePush x).1 := by
  -- first the receivers that `disconnect_receiver` removes leave
  have hgone : ∀ cc, Inv { s with cc := cc, reader := fun h => { s.reader h with
      member := (s.reader h).member && connected cc (s.handle h).connected } } := by
    intro cc
    refine hi.remove cc s.handle _ fun h hm => ?_
    simp only [Bool.and_eq_true] at hm
    exact ⟨hm.1, rfl, rfl, rfl, hm.2⟩
  unfold Sys.forcePush
  cases hf : B.forcePush s.que s.cc x with
  | mk q r =>
    obtain ⟨cc, old⟩ := r
    have hkept := hgone cc
    cases old with
    | none =>
      obtain ⟨_, _, hok, hpend, hdata⟩ := B.force_none hi.ok hf
      exact { hkept with
        ok := hok
        pending := by rw [hpend]; exact hkept.pending
        data := by rw [hdata]; exact hkept.data }
    | some y =>
      obtain ⟨hcc, _, _, hok, hpend, hdata⟩ := B.force_some hi.ok hf
      refine hkept.write hok ?_ ?_ hpend hdata
      · intro h hm
        obtain ⟨b, hb, hcb⟩ := hkept.ids h hm
        have hroom := (hkept.room h hm).2
        by_contra hc
        have hlap := hkept.lap_pending hm hb (Nat.le_antisymm hroom (by omega))
        rw [Conn, hcc, Lib.Bits.getLsbD_and_not] at hcb
        simp only [Bool.and_eq_true, Bool.not_eq_true'] at hcb
        rw [hlap] at hcb
        cases hcb.2
      · intro h hm b hb
        obtain ⟨b', hb', hcb⟩ := hkept.ids h hm
        exact idOf_inj (hb'.symm.trans hb) ▸ hcb

/-- The next message for a member, if there is one, is what `pop` returns. -/
theorem Inv.pop_eq (hi : Inv s) (hm : s.member h) :
    (s.pop h).map (·.1) = s.log[s.done h]? := by
  have hroom := hi.room h hm
  obtain ⟨b, hb, _⟩ := hi.ids h hm
  unfold Sys.pop
  rw [hi.cursor h hm]
  by_cases hlt : s.done h < s.log.length
  · have hbit := hi.pending h hm b hb (s.done h) (Nat.le_refl _) hlt
    have hne : B.pend s.que (slot 8 (s.done h)) ≠ 0#32 := Lib.Bits.ne_zero_iff.mpr ⟨b, hbit⟩
    obtain ⟨⟨x, last, q⟩, hq⟩ := Option.ne_none_iff_exists'.mp
      (B.pop_ready (s.handle h).connected hi.ok hlt hroom.2 hne)
    obtain ⟨hx, _⟩ := B.pop_some hi.ok hq
    rw [indexOf_ofNat] at hx
    rw [hq, List.getElem?_eq_getElem hlt, hx]
    simp only [Option.map_some]
    rw [hi.data _ _ (List.getElem?_eq_getElem hlt) hroom.2]
  · have he : s.done h = s.log.length := Nat.le_antisymm hroom.1 (by omega)
    rw [he, B.pop_empty hi.ok]
    simp

/-- A handle that lost its id must not pop under the receiver that has it now. -/
theorem Inv.pop (hi : Inv s) {last : Bool} (hp : s.pop h = some (x, last, t))
    (hown : connected s.cc (s.handle h).connected = true → s.member h) : Inv t := by
  obtain ⟨⟨x', last', q⟩, hq, he⟩ := Option.map_eq_some_iff.mp hp
  cases he
  obtain ⟨_, hok, hpend, hdata, _⟩ := B.pop_some hi.ok hq
  -- the bits of the other members survive
  have hother : ∀ h', h' ≠ h → s.member h' → ∀ b, (s.handle h').connected = idOf b → ∀ σ,
      (B.pend s.que σ).getLsbD b = true → (B.pend q σ).getLsbD b = true := by
    intro h' hne hm' b hb σ hbit
    rw [hpend, Function.update_apply]
    split
    · rename_i hσ
      rw [Lib.Bits.getLsbD_and_not, ← hσ, hbit, Bool.true_and, Bool.not_eq_true']
      obtain ⟨b', hb', hcb⟩ := hi.ids h' hm'
      have hcb : Conn s.cc b := idOf_inj (hb'.symm.trans hb) ▸ hcb
      by_cases hc : connected s.cc (s.handle h).connected = true
      · obtain ⟨b'', hb'', _⟩ := hi.ids h (hown hc)
        have hbb : (b'' : Nat) ≠ b := fun he => hne (hi.bit_eq (hown hc) hm' hb'' hb he).symm
        rw [hb'', getLsbD_idOf]
        simp [hbb]
      · have h0 : s.cc &&& (s.handle h).connected = 0#32 := by simpa [connected] using hc
        exact Lib.Bits.and_eq_zero_iff.mp h0 b hcb
    · exact hbit
  by_cases hm : s.member h
  · have hnext := hi.pop_eq hm
    rw [hp] at hnext
    simp only [Option.map_some] at hnext
    have hlt : s.done h < s.log.length := (List.getElem?_eq_some_iff.mp hnext.symm).1
    have hroom := (hi.room h hm).2
    have hcur := hi.cursor h hm
    refine { ok := hok, ids := ?_, inj := ?_, cursor := ?_, room := ?_, pending := ?_, data := ?_,
             popped := ?_ }
    · intro h' hm'
      by_cases hne : h' = h
      · subst hne; simpa using hi.ids h' hm
      · simp only [Sys.member, Function.update_of_ne hne] at hm' ⊢
        exact hi.ids h' hm'
    · intro h₁ h₂ hm₁ hm₂
      have hsame : ∀ h', (Function.update s.handle h
          { s.handle h with cursor := (s.handle h).cursor + 1 } h').connected =
          (s.handle h').connected := by
        intro h'
        by_cases hne : h' = h
        · subst hne; simp
        · rw [Function.update_of_ne hne]
      have hmem : ∀ h', (Function.update s.reader h
          { s.reader h with popped := (s.reader h).popped ++ [x] } h').member =
          (s.reader h').member := by
        intro h'
        by_cases hne : h' = h
        · subst hne; simp
        · rw [Function.update_of_ne hne]
      simp only [Sys.member, hmem] at hm₁ hm₂
      simp only [hsame]
      exact hi.inj h₁ h₂ hm₁ hm₂
    · intro h' hm'
      by_cases hne : h' = h
      · subst hne
        simp only [Sys.done, Function.update_self, List.length_append, List.length_singleton]
        rw [hcur, Sys.done, ← Nat.add_assoc, ← BitVec.ofNat_add_ofNat _ 1]
        rfl
      · simp only [Sys.member, Sys.done, Function.update_of_ne hne] at hm' ⊢
        exact hi.cursor h' hm'
    · intro h' hm'
      by_cases hne : h' = h
      · subst hne
        simp only [Sys.done, Function.update_self, List.length_append, List.length_singleton]
        unfold Sys.done at hlt hroom
        omega
      · simp only [Sys.member, Sys.done, Function.update_of_ne hne] at hm' ⊢
        exact hi.room h' hm'
    · intro h' hm' b hb i hle hi'
      by_cases hne : h' = h
      · subst hne
        simp only [Sys.done, Function.update_self, List.length_append,
          List.length_singleton] at hb hle
        simp only [hpend, Function.update_apply]
        have hge : s.done h' + 1 ≤ i := by unfold Sys.done; omega
        rw [if_neg]
        · exact hi.pending h' hm b hb i (by omega) hi'
        · intro hs
          rw [hcur, indexOf_ofNat] at hs
          have hi' : i < s.log.length := hi'
          have := Lib.Window.eq_of_slot_eq hs (by omega) (by omega)
          omega
      · simp only [Sys.member, Sys.done, Function.update_of_ne hne] at hm' hb hle
        exact hother h' hne hm' b hb _ (hi.pending h' hm' b hb i hle hi')
    · simp only [hdata]; exact hi.data
    · intro h' hm'
      by_cases hne : h' = h
      · subst hne
        simp only [Function.update_self]
        refine prefix_snoc (hi.popped h' hm) ?_
        rw [List.getElem?_drop]
        exact hnext.symm
      · simp only [Sys.member, Function.update_of_ne hne] at hm' ⊢
        exact hi.popped h' hm'
  · have hne : ∀ h', (Function.update s.reader h
        { s.reader h with popped := (s.reader h).popped ++ [x] } h').member = true → h' ≠ h := by
      intro h' hm' he
      subst he
      simp only [Function.update_self] at hm'
      exact hm hm'
    have hleft := hi.remove s.cc
      (Function.update s.handle h { s.handle h with cursor := (s.handle h).cursor + 1 })
      (Function.update s.reader h
        { s.reader h with popped := (s.reader h).popped ++ [x] }) (by
        intro h' hm'
        have hne := hne h' hm'
        simp only [Function.update_of_ne hne, true_and] at hm' ⊢
        exact ⟨hm', hi.connected_of_member hm'⟩)
    refine { hleft with ok := hok, pending := ?_, data := by rw [hdata]; exact hleft.data }
    intro h' hm' b hb i hle hi'
    have hold := hleft.pending h' hm' b hb i hle hi'
    have hne := hne h' hm'
    simp only [Sys.member, Function.update_of_ne hne] at hm' hb
    exact hother h' hne hm' b hb _ hold

end Operations

theorem init_inv (B : Broadcast α) : Inv (Sys.init B) := by
  refine ⟨B.init_ok, ?_, ?_, ?_, ?_, ?_, ?_, ?_⟩ <;> simp [Sys.init, Sys.member]

end CppIpc.Receivers
