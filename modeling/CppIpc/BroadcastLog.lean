import CppIpc.Debts
import CppIpc.ForcedPush
import CppIpc.Lib.BoundedLog

/-! # The broadcast queues are bounded logs

`queue_base` over either broadcast policy against `Lib.BoundedLog` with 256 entries and
32 readers: the blocks, the pending bits, the epoch and the connection word of the one, a
list and a position for each reader of the other. -/
namespace CppIpc.BroadcastLog
open CppIpc.Def CppIpc.ReadCounter CppIpc.ProdCons CppIpc.Policies CppIpc.Receivers
open CppIpc.Debts
open CppIpc.Lib.BoundedLog (Log Op Out)
open CppIpc.Lib.Runs (run Meets run_cons)
open CppIpc.Lib.Window (slot)

variable {α : Type} {B : Broadcast α}

/-- What the operations return. -/
def out (s : Sys B) : Act α → Out α
  | .connect h => .joined (connected (s.connect h).cc ((s.connect h).handle h).connected)
  | .disconnect h => .left (connected s.cc (s.handle h).connected)
  | .push x => .appended (s.push x).isSome
  | .forcePush x => .appended (s.forcePush x).2.isSome
  | .pop h => .read ((s.pop h).map (·.1))

/-- The results of a run. -/
def outs : Sys B → List (Act α) → List (Out α)
  | _, [] => []
  | s, a :: as => out s a :: match step s a with
    | some t => outs t as
    | none => []

def op : Act α → Op Nat α
  | .connect h => .join h
  | .disconnect h => .leave h
  | .push x => .append x
  | .forcePush x => .force x
  | .pop h => .read h

/-- What the queue stands for. -/
def log (s : Sys B) : Log Nat α :=
  ⟨s.log, fun h => if (s.reader h).member then some (s.done h) else none⟩

/-- A new id is pending in no slot and kept by no handle that has lost it, no push goes
over a slot of an older epoch that a receiver has still to read, and only who is connected
pops. -/
def Clean (s : Sys B) : Act α → Prop
  | .connect h => connected s.cc (s.handle h).connected = false →
    (∀ σ, connected (B.pend s.que σ) (Receivers.connect s.cc).2 = false) ∧
    ∀ h', h' ≠ h → connected (s.handle h').connected (Receivers.connect s.cc).2 = false
  | .push _ => (B.multi = true → s.log.length < 2 ^ 32) ∧ ∀ h, s.member h →
    s.log.length = s.done h + 256 → B.current s.que (slot 8 s.log.length)
  | .pop h => s.member h
  | .disconnect _ | .forcePush _ => True

/-! ## Receivers and readers -/

section Log
variable {s t : Sys B} {h : Nat} {x : α}

theorem log_pos_ne_none : (log s).pos h ≠ none ↔ s.member h := by
  simp [log, Sys.member]

theorem log_pos (hm : s.member h) : (log s).pos h = some (s.done h) := if_pos hm

theorem mem_readers : h ∈ (log s).readers ↔ s.member h := log_pos_ne_none

theorem lagging_iff : (log s).Lagging 256 h ↔ s.member h ∧ s.log.length = s.done h + 256 := by
  constructor
  · rintro ⟨p, hp, hlen⟩
    have hm : s.member h := log_pos_ne_none.mp (by rw [hp]; simp)
    rw [log_pos hm, Option.some.injEq] at hp
    rw [← hp] at hlen
    exact ⟨hm, hlen⟩
  · rintro ⟨hm, hlen⟩
    exact ⟨_, log_pos hm, hlen⟩

/-- A receiver is a lap behind exactly if its bit is pending in the slot that is next. -/
theorem lagging_iff_pending (hs : Steady s) (hm : s.member h) {b : Fin 32}
    (hb : (s.handle h).connected = idOf b) :
    (log s).Lagging 256 h ↔ (B.pend s.que (slot 8 s.log.length)).getLsbD b = true := by
  rw [lagging_iff]
  constructor
  · rintro ⟨_, hlen⟩
    have hbit := hs.inv.pending h hm b hb (s.done h) (Nat.le_refl _) (by omega)
    rwa [hlen, show 256 = 2 ^ 8 from rfl, Lib.Window.slot_add_lap]
  · exact fun hbit => ⟨hm, hs.noStale.lap hs.inv hm hb hbit⟩

/-- The connected receivers are as many as the bits of the connection word. -/
theorem readers_ncard (hs : Steady s) :
    (log s).readers.ncard = {b | Conn s.cc b}.ncard := by
  have himage : (fun h => (s.handle h).connected) '' (log s).readers =
      idOf '' {b | Conn s.cc b} := by
    ext id
    simp only [Set.mem_image, mem_readers, Set.mem_ofPred_eq]
    constructor
    · rintro ⟨h, hm, rfl⟩
      obtain ⟨b, hb, hc⟩ := hs.inv.ids h hm
      exact ⟨b, hc, hb.symm⟩
    · rintro ⟨b, hc, rfl⟩
      obtain ⟨h, hm, hh⟩ := hs.owned b hc
      exact ⟨h, hm, hh⟩
  have hinj : Set.InjOn (fun h => (s.handle h).connected) (log s).readers :=
    fun h hm h' hm' he => hs.inv.inj h h' (mem_readers.mp hm) (mem_readers.mp hm') he
  rw [← hinj.ncard_image, himage, Set.InjOn.ncard_image fun b _ c _ he => idOf_inj he]

/-- There is a seat exactly while a bit is clear. -/
theorem seat_iff (hs : Steady s) :
    (log s).readers.ncard < 32 ↔ ∃ b, ¬ Conn s.cc b := by
  rw [readers_ncard hs]
  constructor
  · intro hlt
    by_contra hall
    have huniv : {b | Conn s.cc b} = Set.univ :=
      Set.eq_univ_of_forall fun b => not_not.mp fun hb => hall ⟨b, hb⟩
    rw [huniv, Set.ncard_univ, Nat.card_eq_fintype_card, Fintype.card_fin] at hlt
    exact Nat.lt_irrefl _ hlt
  · rintro ⟨b, hb⟩
    have hlt : {b | Conn s.cc b}.ncard < (Set.univ : Set (Fin 32)).ncard :=
      Set.ncard_lt_ncard (Set.ssubset_univ_iff.mpr fun hu => hb (hu.symm ▸ Set.mem_univ b : b ∈ _))
    rwa [Set.ncard_univ, Nat.card_eq_fintype_card, Fintype.card_fin] at hlt

end Log

/-! ## One operation -/

section Operations
variable {s t : Sys B} {h : Nat} {x : α}

theorem init_steady (B : Broadcast α) : Steady (Sys.init B) where
  inv := init_inv B
  own h hc := by
    rw [show ((Sys.init B).handle h).connected = 0 from rfl, connected_zero] at hc
    cases hc
  owned b hb := by simp [Sys.init, Conn] at hb
  noStale h hm := by cases hm

theorem steady_connect (hs : Steady s) (hc : Clean s (.connect h)) : Steady (s.connect h) := by
  have hinv := hs.inv.connect h
  rcases s.connect_cases h with ⟨_, he⟩ | ⟨hno, _, he⟩ | ⟨hno, b, cc, hid, hclear, hbits, he⟩
  · rw [he]; exact hs
  all_goals
    have hne : ∀ h', s.member h' → h' ≠ h := by
      rintro h' hm rfl
      cases hno.symm.trans (hs.inv.connected_of_member hm)
    rw [he] at hinv ⊢
  · refine ⟨hinv, fun h' hc' => ?_, fun b hb => ?_, fun h' hm b hb σ hbit => ?_⟩
    · by_cases heq : h' = h
      · simp only [heq, Function.update_self, connected_zero] at hc'
        cases hc'
      · simp only [Function.update_of_ne heq] at hc'
        exact hs.own h' hc'
    · obtain ⟨h', hm, hh⟩ := hs.owned b hb
      exact ⟨h', hm, by simpa [Function.update_of_ne (hne h' hm)] using hh⟩
    · simp only [Function.update_of_ne (hne h' hm)] at hb
      exact hs.noStale h' hm b hb σ hbit
  · obtain ⟨hfree, hlost⟩ := hc hno
    rw [hid] at hfree hlost
    refine ⟨hinv, fun h' hc' => ?_, fun b' hb' => ?_, fun h' hm b' hb' σ hbit => ?_⟩
    · by_cases heq : h' = h
      · simp [Sys.member, heq]
      · simp only [Sys.member, Function.update_of_ne heq] at hc' ⊢
        refine hs.own h' ?_
        -- the bit that makes it connected is not the new one
        simp only [connected, decide_eq_true_iff] at hc' ⊢
        obtain ⟨i, hi⟩ := Lib.Bits.ne_zero_iff.mp hc'
        rw [BitVec.getLsbD_and, hbits, Bool.and_eq_true, Bool.or_eq_true, decide_eq_true_iff] at hi
        obtain ⟨hold | rfl, hbit⟩ := hi
        · exact Lib.Bits.ne_zero_iff.mpr ⟨i, by rw [BitVec.getLsbD_and, hold, hbit]; rfl⟩
        · exact absurd ((connected_idOf _ b).mpr hbit) (by rw [hlost h' heq]; simp)
    · rw [Conn, hbits, Bool.or_eq_true, decide_eq_true_iff] at hb'
      rcases hb' with hold | hnew
      · obtain ⟨h', hm, hh⟩ := hs.owned b' hold
        exact ⟨h', by simpa [Sys.member, Function.update_of_ne (hne h' hm)] using hm,
          by simpa [Function.update_of_ne (hne h' hm)] using hh⟩
      · exact ⟨h, by simp [Sys.member], by simp [Fin.ext hnew]⟩
    · by_cases heq : h' = h
      · simp only [heq, Function.update_self] at hb'
        rw [← idOf_inj hb'] at hbit
        exact absurd ((connected_idOf _ b).mpr hbit) (by rw [hfree σ]; simp)
      · simp only [Sys.member, Sys.done, Function.update_of_ne heq] at hm hb' ⊢
        exact hs.noStale h' hm b' hb' σ hbit

theorem steady_disconnect (hs : Steady s) (h : Nat) : Steady (s.disconnect h) := by
  have hinv := hs.inv.disconnect (hs.own h)
  unfold Sys.disconnect at hinv ⊢
  by_cases hc : connected s.cc (s.handle h).connected = true
  · rw [if_pos hc] at hinv ⊢
    obtain ⟨b, hb, _⟩ := hs.inv.ids h (hs.own h hc)
    refine ⟨hinv, fun h' hc' => ?_, fun b' hb' => ?_, fun h' hm b' hb' σ hbit => ?_⟩
    · by_cases heq : h' = h
      · simp only [heq, Function.update_self, connected_zero] at hc'
        cases hc'
      · simp only [Sys.member, Function.update_of_ne heq] at hc' ⊢
        refine hs.own h' ?_
        simp only [connected, decide_eq_true_iff] at hc' ⊢
        obtain ⟨i, hi⟩ := Lib.Bits.ne_zero_iff.mp hc'
        rw [Receivers.disconnect] at hi
        rw [BitVec.getLsbD_and, Lib.Bits.getLsbD_and_not, Bool.and_eq_true, Bool.and_eq_true] at hi
        exact Lib.Bits.ne_zero_iff.mpr ⟨i, by rw [BitVec.getLsbD_and, hi.1.1, hi.2]; rfl⟩
    · simp only [Conn, Receivers.disconnect, hb, Lib.Bits.getLsbD_and_not, getLsbD_idOf,
        Bool.and_eq_true, Bool.not_eq_true', decide_eq_false_iff_not] at hb'
      obtain ⟨h', hm, hh⟩ := hs.owned b' hb'.1
      have hne : h' ≠ h := by
        rintro rfl
        exact hb'.2 (congrArg Fin.val (idOf_inj (hb.symm.trans hh)))
      exact ⟨h', by simpa [Sys.member, Function.update_of_ne hne] using hm,
        by simpa [Function.update_of_ne hne] using hh⟩
    · by_cases heq : h' = h
      · simp [Sys.member, heq] at hm
      · simp only [Sys.member, Sys.done, Function.update_of_ne heq] at hm hb' ⊢
        exact hs.noStale h' hm b' hb' σ hbit
  · rw [if_neg hc]
    exact hs

/-- A connection word that hands out no id is full. -/
theorem conn_of_full {cc : CC} (h : (Receivers.connect cc).2 = 0) (b : Fin 32) : Conn cc b := by
  rcases Receivers.connect_cases cc with he | ⟨b', -, hid, -⟩
  · by_cases hnext : cc ||| (cc + 1) = cc
    · exact Lib.Bits.or_succ_eq_self_iff.mp hnext b b.isLt
    · rw [Receivers.connect, if_neg hnext] at h
      exact absurd (BitVec.xor_eq_zero_iff.mp h) hnext
  · exact absurd (hid.symm.trans h) (idOf_ne_zero b')

theorem refines_connect (hs : Steady s) (h : Nat) :
    (log s).step 256 32 (.join h) = (log (s.connect h), out s (.connect h)) := by
  have hout : out s (.connect h) =
      .joined (connected (s.connect h).cc ((s.connect h).handle h).connected) := rfl
  have hmem := hs.inv.connected_of_member (h := h)
  rw [hout]
  rcases s.connect_cases h with ⟨hyes, he⟩ | ⟨hno, hfull, he⟩ | ⟨hno, b, cc, _, hclear, hbits, he⟩
  · rw [he, hyes, Log.step, if_pos (log_pos_ne_none.mpr (hs.own h hyes))]
  all_goals
    have hm : ¬ s.member h := fun hm => by cases hno.symm.trans (hmem hm)
    rw [he, Log.step, if_neg (log_pos_ne_none.not.mpr hm)]
  · have hseat : ¬ (log s).readers.ncard < 32 := fun hlt => by
      obtain ⟨b, hb⟩ := (seat_iff hs).mp hlt
      exact hb (conn_of_full hfull b)
    rw [if_neg hseat]
    simp only [Function.update_self, connected_zero]
    rfl
  · rw [if_pos ((seat_iff hs).mpr ⟨b, hclear⟩)]
    have hconn : connected cc (idOf b) = true := by
      rw [connected_idOf, Conn, hbits]
      simp
    simp only [Function.update_self, hconn, Prod.mk.injEq, and_true]
    simp only [log, Log.mk.injEq, true_and]
    funext h'
    by_cases heq : h' = h
    · simp [heq, Sys.done]
    · simp [Function.update_of_ne heq, Sys.done]

theorem refines_disconnect (hs : Steady s) (h : Nat) :
    (log s).step 256 32 (.leave h) = (log (s.disconnect h), out s (.disconnect h)) := by
  have hconn : connected s.cc (s.handle h).connected = ((log s).pos h).isSome := by
    rw [Bool.eq_iff_iff, Option.isSome_iff_ne_none, log_pos_ne_none]
    exact ⟨hs.own h, hs.inv.connected_of_member⟩
  rw [Log.step, out, hconn, Prod.mk.injEq]
  refine ⟨?_, rfl⟩
  unfold Sys.disconnect
  split
  · simp only [log, Log.mk.injEq, true_and]
    funext h'
    by_cases heq : h' = h
    · simp [heq]
    · simp [Function.update_of_ne heq, Sys.done]
  · rename_i hno
    rw [hconn, Option.not_isSome_iff_eq_none] at hno
    have hsame : Function.update (log s).pos h none = (log s).pos :=
      Function.update_eq_self_iff.mpr hno.symm
    rw [hsame]

theorem refines_push (hs : Steady s) (hc : Clean s (.push x)) :
    (log s).step 256 32 (.append x) = (log ((s.push x).getD s), out s (.push x)) := by
  rw [Log.step, out]
  cases hp : s.push x with
  | none =>
    rw [if_neg]
    · rfl
    · rintro ⟨⟨h, hr⟩, hlag⟩
      have hcc : s.cc ≠ 0#32 := by
        obtain ⟨b, hb, hconn⟩ := hs.inv.ids h (mem_readers.mp hr)
        exact Lib.Bits.ne_zero_iff.mpr ⟨b, hconn⟩
      obtain ⟨i, b, hi, h', hm, -, hle, hlt⟩ := hs.blocked hc.1 hp hcc
      have hroom := (hs.inv.room h' hm).2
      exact hlag h' (lagging_iff.mpr ⟨hm, by omega⟩)
  | some t =>
    obtain ⟨q, hq, rfl⟩ := Option.map_eq_some_iff.mp hp
    obtain ⟨hcc, hfree, -⟩ := B.push_some hs.inv.ok hq
    rw [if_pos]
    · rfl
    · obtain ⟨b, hb⟩ := exists_conn hcc
      obtain ⟨h, hm, _⟩ := hs.owned b hb
      refine ⟨⟨h, mem_readers.mpr hm⟩, fun h' hlag => ?_⟩
      obtain ⟨hm', hlen⟩ := lagging_iff.mp hlag
      obtain ⟨b', hb', hconn⟩ := hs.inv.ids h' hm'
      have hbit := (lagging_iff_pending hs hm' hb').mp hlag
      refine hfree (Lib.Bits.ne_zero_iff.mpr ⟨b', ?_⟩) (hc.2 h' hm' hlen)
      rw [BitVec.getLsbD_and, hconn, hbit]
      rfl

/-- A forced push removes the receivers that are a lap behind. -/
theorem forcePush_member (hs : Steady s) {old : Option α} (hp : s.forcePush x = (t, old))
    (h : Nat) : t.member h ↔ s.member h ∧ ¬ (log s).Lagging 256 h := by
  have hcc : t.cc = s.cc &&& ~~~B.pend s.que (slot 8 s.log.length) := by
    cases old with
    | none => exact (B.force_none hs.inv.ok (forcePush_cases hp).1).1
    | some y => exact (B.force_some hs.inv.ok (forcePush_cases hp).1).1
  rw [(forcePush_conn hs.inv hp).2.2]
  refine and_congr_right fun hm => ?_
  obtain ⟨b, hb, hconn⟩ := hs.inv.ids h hm
  have hconn : s.cc.getLsbD b = true := hconn
  rw [lagging_iff_pending hs hm hb, hb, connected_idOf, Conn, hcc, Lib.Bits.getLsbD_and_not, hconn,
    Bool.true_and, Bool.not_eq_true', Bool.not_eq_true]

/-- It returns true exactly if somebody is left. -/
theorem forcePush_isSome (hs : Steady s) {old : Option α} (hp : s.forcePush x = (t, old)) :
    old.isSome = true ↔ ∃ h, t.member h := by
  have ht := hs.forcePush hp
  have hsome : old.isSome = true ↔ t.cc ≠ 0#32 := by
    cases old with
    | none => simpa using (B.force_none hs.inv.ok (forcePush_cases hp).1).2.1
    | some y => simpa using (B.force_some hs.inv.ok (forcePush_cases hp).1).2.1
  rw [hsome]
  constructor
  · intro hne
    obtain ⟨b, hb⟩ := exists_conn hne
    obtain ⟨h, hm, _⟩ := ht.owned b hb
    exact ⟨h, hm⟩
  · rintro ⟨h, hm⟩
    obtain ⟨b, _, hconn⟩ := ht.inv.ids h hm
    exact Lib.Bits.ne_zero_iff.mpr ⟨b, hconn⟩

theorem spared_pos (hs : Steady s) {old : Option α} (hp : s.forcePush x = (t, old)) :
    ((log s).spared 256).pos = (log t).pos := by
  funext h
  have hiff := forcePush_member hs hp h
  by_cases hm : t.member h
  · obtain ⟨hms, hlag⟩ := hiff.mp hm
    rw [Lib.BoundedLog.spared_of_not_lagging hlag, log_pos hms, log_pos hm,
      (member_of_forcePush hp hm).2.2.1]
  · have hnone : (log t).pos h = none := not_not.mp (log_pos_ne_none.not.mpr hm)
    rw [hnone]
    by_cases hlag : (log s).Lagging 256 h
    · exact Lib.BoundedLog.spared_of_lagging hlag
    · rw [Lib.BoundedLog.spared_of_not_lagging hlag]
      exact not_not.mp (log_pos_ne_none.not.mpr fun hms => hm (hiff.mpr ⟨hms, hlag⟩))

theorem refines_forcePush (hs : Steady s) (x : α) :
    (log s).step 256 32 (.force x) = (log (s.forcePush x).1, out s (.forcePush x)) := by
  cases hp : s.forcePush x with
  | mk t old =>
    have hpos := spared_pos hs hp
    have hleft : ((log s).spared 256).readers.Nonempty ↔ old.isSome = true := by
      rw [forcePush_isSome hs hp, Log.readers, hpos]
      exact exists_congr fun h => mem_readers
    have hlog := (forcePush_cases hp).2.2.2
    have hout : out s (.forcePush x) = .appended old.isSome := by rw [out, hp]
    rw [hout]
    cases old with
    | none =>
      rw [Log.step, if_neg (by rw [hleft]; simp)]
      have hent : (log s).entries = (log t).entries := hlog.symm
      simp only [Log.spared] at hpos ⊢
      rw [hpos, hent]
      rfl
    | some y =>
      rw [Log.step, if_pos (by rw [hleft]; rfl)]
      have hent : (log s).entries ++ [x] = (log t).entries := hlog.symm
      simp only [Log.spared] at hpos ⊢
      rw [hpos, hent]
      rfl

theorem refines_pop (hs : Steady s) (hm : s.member h) :
    (log s).step 256 32 (.read h) = (log (((s.pop h).map (·.2.2)).getD s), out s (.pop h)) := by
  have hpop := hs.inv.pop_eq hm
  rw [Log.step, out, hpop, log_pos hm, Option.bind_some]
  cases hp : s.pop h with
  | none =>
    rw [hp] at hpop
    have hnone : (log s).entries[s.done h]? = none := hpop.symm
    rw [hnone, ← hpop]
    rfl
  | some r =>
    obtain ⟨v, last, t⟩ := r
    rw [hp] at hpop
    have hsome : (log s).entries[s.done h]? = some v := hpop.symm
    rw [hsome, ← hpop]
    simp only [Option.map_some, Option.getD_some, Prod.mk.injEq, and_true]
    simp only [log, Log.mk.injEq]
    refine ⟨(pop_log hp).symm, ?_⟩
    funext h'
    obtain ⟨hmem, -, hdone⟩ := member_of_pop hp h'
    by_cases heq : h' = h
    · subst heq
      have hmt := hmem.mpr hm
      rw [if_pos rfl] at hdone
      rw [Function.update_self, if_pos hmt, hdone]
    · rw [if_neg heq] at hdone
      have hiff : (s.reader h').member = (t.reader h').member := Bool.eq_iff_iff.mpr hmem.symm
      rw [Function.update_of_ne heq, hdone, hiff]

end Operations

/-! ## Runs -/

section Runs
variable {s t : Sys B} {a : Act α}

/-- An operation of the queue is the operation of the log, with its result. -/
theorem step_refines (hs : Steady s) (hc : Clean s a) (h : step s a = some t) :
    (log s).step 256 32 (op a) = (log t, out s a) := by
  cases a with
  | connect n => cases h; exact refines_connect hs n
  | disconnect n => cases h; exact refines_disconnect hs n
  | push x => cases h; exact refines_push hs hc
  | forcePush x => cases h; exact refines_forcePush hs x
  | pop n => cases h; exact refines_pop hs hc

theorem step_steady (hs : Steady s) (hc : Clean s a) (h : step s a = some t) : Steady t := by
  cases a with
  | connect n => cases h; exact steady_connect hs hc
  | disconnect n => cases h; exact steady_disconnect hs n
  | push x =>
    cases h
    cases hp : s.push x with
    | none => exact hs
    | some t => exact hs.push hp hc.2
  | forcePush x => cases h; exact hs.forcePush rfl
  | pop n =>
    cases h
    cases hp : s.pop n with
    | none => exact hs
    | some r => exact hs.pop hp

theorem run_refines {acts : List (Act α)} (hs : Steady s) (hr : run step s acts = some t)
    (hg : Meets step Clean s acts) :
    (log s).run 256 32 (acts.map op) = (outs s acts, log t) := by
  induction acts generalizing s with
  | nil => cases hr; rfl
  | cons a as ih =>
    obtain ⟨u, hu, hr⟩ := run_cons hr
    have hrest := ih (step_steady hs hg.1 hu) hr (hg.2 u hu)
    rw [List.map_cons, Lib.BoundedLog.run_cons (step_refines hs hg.1 hu), hrest, outs, hu]

theorem log_init : log (Sys.init B) = Log.empty := rfl

end Runs

/-- Both policies: what the operations return, over a whole run, is what they return on
the log, and the queue stands for that log after it. -/
theorem refines_of_run [Inhabited α] (rp : Relat) {acts : List (Act α)} {s : Sys (policy rp)}
    (hr : run step (Sys.init (policy rp)) acts = some s)
    (hg : Meets step Clean (Sys.init (policy rp)) acts) :
    Log.empty.run 256 32 (acts.map op) = (outs (Sys.init (policy rp)) acts, log s) := by
  have hrefines := run_refines (init_steady _) hr hg
  rwa [log_init] at hrefines

section Overtaken
open CppIpc.ForcedPush (filled push_filled run_connects run_fill)

theorem outs_append {s t : Sys B} {as bs : List (Act α)} (h : run step s as = some t) :
    outs s (as ++ bs) = outs s as ++ outs t bs := by
  induction as generalizing s with
  | nil => cases h; rfl
  | cons a as ih =>
    obtain ⟨u, hu, h⟩ := run_cons h
    simp only [List.cons_append, outs, hu, ih h]

theorem outs_fill {n k : Nat} (hn : k + n ≤ 256) :
    outs (filled k) (List.replicate n (.push 0)) = List.replicate n (.appended true) := by
  induction n generalizing k with
  | zero => rfl
  | succ n ih =>
    have hp := push_filled (show k < 256 by omega)
    have hs : step (filled k) (.push 0) = some (filled (k + 1)) := by
      rw [step, hp]
      rfl
    have ho : out (filled k) (.push 0) = .appended true := by
      rw [out, hp]
      rfl
    rw [List.replicate_succ, outs, hs, ho, List.replicate_succ]
    exact congrArg _ (ih (by omega))

theorem clean_fill {n k : Nat} (hn : k + n ≤ 256) :
    Meets step Clean (filled k) (List.replicate n (.push 0)) := by
  induction n generalizing k with
  | zero => trivial
  | succ n ih =>
    refine ⟨⟨fun hmulti => absurd hmulti Bool.false_ne_true, fun h _ hlap => ?_⟩, fun t ht => ?_⟩
    · have hlog : (filled k).log.length = k := List.length_replicate
      omega
    · rw [step, push_filled (show k < 256 by omega)] at ht
      cases ht
      exact ih (by omega)

/-- With the queue full, handle 0 reads one message and handle 1 none. -/
def overtaking : List (Act Nat) := [.push 9, .pop 0, .forcePush 7, .disconnect 1, .pop 0]

theorem clean_connects :
    Meets step Clean (Sys.init (policy .single : Broadcast Nat)) [.connect 0, .connect 1] := by
  refine ⟨fun _ => ⟨fun σ => ?_, fun _ _ => ?_⟩, ?_⟩
  · exact (congrArg (connected · 1#32) ((policy .single).init_pend σ)).trans (by decide)
  · exact show connected 0#32 1#32 = false by decide
  rintro t ⟨⟩
  refine ⟨fun _ => ⟨fun σ => ?_, fun h hne => ?_⟩, fun _ _ => trivial⟩
  · exact (congrArg (connected · 2#32) ((policy .single).init_pend σ)).trans (by decide)
  · by_cases h0 : h = 0
    · subst h0
      exact show connected 1#32 2#32 = false by decide
    · rw [show (Sys.connect (Sys.init (policy .single : Broadcast Nat)) 0).handle =
        Function.update (fun _ => ⟨0, 0⟩) 0 ⟨1, 0⟩ from rfl, Function.update_of_ne h0]
      exact show connected 0#32 2#32 = false by decide

theorem clean_overtaking : Meets step Clean (filled 256) overtaking := by
  refine ⟨⟨fun hmulti => absurd hmulti Bool.false_ne_true, fun _ _ _ => ?_⟩, ?_⟩
  · rw [show (filled 256).log.length = 256 from List.length_replicate]
    exact show ((filled 256).que.elems (slot 8 256)).rc &&& ~~~Route.epMask =
      (filled 256).que.epoch by decide +kernel
  rintro t ⟨⟩
  refine ⟨show Sys.member _ 0 by decide +kernel, ?_⟩
  rintro t ⟨⟩
  refine ⟨trivial, ?_⟩
  rintro t ⟨⟩
  refine ⟨trivial, ?_⟩
  rintro t ⟨⟩
  exact ⟨show Sys.member _ 0 by decide +kernel, fun _ _ => trivial⟩

def broadcast : List (Act Nat) :=
  [.connect 0, .connect 1] ++ List.replicate 256 (.push 0) ++ overtaking

/-- A push is refused, and a forced one drops the handle that is a lap behind. -/
theorem refines_broadcast : ∃ s : Sys (policy .single : Broadcast Nat),
    run step (Sys.init _) broadcast = some s ∧
      outs (Sys.init (policy .single)) broadcast =
        [.joined true, .joined true] ++ List.replicate 256 (.appended true) ++
          [.appended false, .read (some 0), .appended true, .left false, .read (some 0)] ∧
      Log.empty.run 256 32 (broadcast.map op) =
        (outs (Sys.init (policy .single)) broadcast, log s) := by
  have hfill : run step (Sys.init (policy .single : Broadcast Nat))
      ([.connect 0, .connect 1] ++ List.replicate 256 (.push 0)) = some (filled 256) := by
    rw [Lib.Runs.run_append, run_connects, Option.bind_some, run_fill (Nat.le_refl _)]
  have hrun : run step (Sys.init (policy .single : Broadcast Nat)) broadcast =
      run step (filled 256) overtaking := by
    rw [broadcast, Lib.Runs.run_append, hfill, Option.bind_some]
  have hclean : Meets step Clean (Sys.init (policy .single : Broadcast Nat)) broadcast := by
    refine Meets.append (Meets.append clean_connects fun t ht => ?_) fun t ht => ?_
    · cases run_connects.symm.trans ht
      exact clean_fill (Nat.le_refl _)
    · cases hfill.symm.trans ht
      exact clean_overtaking
  refine ⟨_, hrun, ?_, refines_of_run .single hrun hclean⟩
  rw [broadcast, outs_append hfill, outs_append run_connects, outs_fill (Nat.le_refl _)]
  refine congr (congrArg _ (congrArg (· ++ _) ?_)) ?_
  · decide +kernel
  · decide +kernel

end Overtaken

end CppIpc.BroadcastLog
