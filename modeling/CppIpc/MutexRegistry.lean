import CppIpc.Def
import CppIpc.Lib.Places
import CppIpc.Lib.Runs

/-! # The mutexes of a process

`detail::sync::mutex` and the map of `curr_prog`. An entry of the map is an object of its
own, to which the handles point; it is gone when it is erased. -/
namespace CppIpc.MutexRegistry
open CppIpc.Def
open CppIpc.Lib.Places
open CppIpc.Lib.Runs (run Meets meets_congr)

/-! ## The machine -/

/-- `shm_data`: name and validity of `mtx`, and `ref`. -/
structure Entry where
  name : String
  valid : Bool
  ref : Int
deriving DecidableEq

variable {H : Type}

/-- `ptr` is where `mutex_` and `ref_` of a handle point, `handles` is `mutex_handles`. The
history `opened` is the name with which `open` returned true, until the handle is closed. -/
structure St (H : Type) where
  entry : Nat → Option Entry
  next : Nat
  handles : String → Option Nat
  ptr : H → Option Nat
  opened : H → Option String

def St.init (H : Type) : St H where
  entry := fun _ => none
  next := 0
  handles := fun _ => none
  ptr := fun _ => none
  opened := fun _ => none

def St.setEntry (s : St H) (id : Nat) (x : Option Entry) : St H :=
  { s with entry := Function.update s.entry id x }

def St.setHandles (s : St H) (name : String) (x : Option Nat) : St H :=
  { s with handles := Function.update s.handles name x }

/-- `ref_->fetch_add` and `ref_->fetch_sub`, on 32 bits. -/
def St.addRef (s : St H) (id : Nat) (d : Int) : St H :=
  s.setEntry id ((s.entry id).map fun x => { x with ref := int32 (x.ref + d) })

/-- `mutex_->clear()`. -/
def St.invalidate (s : St H) (id : Nat) : St H :=
  s.setEntry id ((s.entry id).map fun x => { x with name := "", valid := false })

def St.erase (s : St H) (name : String) (id : Nat) : St H :=
  (s.setEntry id none).setHandles name none

/-- `release_mutex`: `clear` tells whether the entry is erased. -/
def St.releaseMutex (s : St H) (name : String) (clear : St H → St H × Bool) : St H :=
  if name = "" then s
  else
    match s.handles name with
    | none => s
    | some it => if (clear s).2 then (clear s).1.erase name it else (clear s).1

/-- The entry that `acquire_mutex` finds or makes. A shared memory without a name is not
acquired. -/
def St.acquireMutex (s : St H) (name : String) : Nat × St H :=
  match s.handles name with
  | some id => (id, s)
  | none => (s.next, ({ s with next := s.next + 1 }.setEntry s.next
      (some ⟨name, name ≠ "", 0⟩)).setHandles name (some s.next))

section Step
variable [DecidableEq H]

def St.setPtr (s : St H) (h : H) (x : Option Nat) : St H :=
  { s with ptr := Function.update s.ptr h x }

def St.setOpened (s : St H) (h : H) (x : Option String) : St H :=
  { s with opened := Function.update s.opened h x }

/-- The members become null. -/
def St.forget (s : St H) (h : H) : St H := (s.setPtr h none).setOpened h none

/-- No result where a handle points to an entry that is gone. `name()` is never null. -/
def St.close (s : St H) (h : H) : Option (St H) :=
  match s.ptr h with
  | none => some (s.forget h)
  | some id => (s.entry id).map fun x =>
    (s.releaseMutex x.name fun s => (s.addRef id (-1), x.ref ≤ 1)).forget h

def St.clear (s : St H) (h : H) : Option (St H) :=
  match s.ptr h with
  | none => some (s.forget h)
  | some id => (s.entry id).map fun x =>
    (s.releaseMutex x.name fun s => (s.invalidate id, true)).forget h

def St.open (s : St H) (h : H) (name : Option String) : Option (St H) :=
  (s.close h).bind fun s =>
    match name with
    | none => some s
    | some name =>
      let r := s.acquireMutex name
      (r.2.entry r.1).map fun x =>
        if x.valid then ((r.2.setPtr h (some r.1)).addRef r.1 1).setOpened h (some name)
        else r.2.setPtr h (some r.1)

/-- The registry's part of `clear_storage`. -/
def St.clearStorage (s : St H) : Option String → St H
  | none => s
  | some name => s.releaseMutex name fun s => (s, true)

inductive Act (H : Type) where
  | «open» (h : H) (name : Option String)
  | close (h : H)
  | clear (h : H)
  | clearStorage (name : Option String)

def step (s : St H) : Act H → Option (St H)
  | .open h name => s.open h name
  | .close h => s.close h
  | .clear h => s.clear h
  | .clearStorage name => some (s.clearStorage name)

end Step

/-! ## What the registry promises -/

/-- The handles that are open on a name. -/
def St.openOn (s : St H) (name : String) : Set H := parties (fun x => x = some name) s.opened

structure Consistent (s : St H) : Prop where
  bound : ∀ h n, s.opened h = some n → ∃ id, s.ptr h = some id ∧ s.handles n = some id
  counted : ∀ n id, s.handles n = some id →
    ∃ x, s.entry id = some x ∧ x.ref = ((s.openOn n).ncard : Int)
  finite : ∀ n, (s.openOn n).Finite

/-- The handle that a call closes. -/
def Act.handle : Act H → Option H
  | .open h _ | .close h | .clear h => some h
  | .clearStorage _ => none

/-- The state after the call is consistent, and an entry that the call erases has no open
handle but the one that the call closes. -/
def Sound [DecidableEq H] (s : St H) (a : Act H) : Prop :=
  ∀ s', step s a = some s' → Consistent s' ∧
    ∀ n id, s.handles n = some id → s'.handles n ≠ some id →
      ∀ h, s.opened h = some n → a.handle = some h

/-- The other handles that are open on a name. -/
def St.others (s : St H) (h : H) (name : String) : Set H := s.openOn name \ {h}

/-- A handle is cleared only if no other handle is open on its name, and a storage only if
none is; no name is opened `2 ^ 31` times. -/
def Unshared (s : St H) : Act H → Prop
  | .open h name => ∀ n, name = some n → n ≠ "" → (s.others h n).ncard + 1 < 2 ^ 31
  | .close _ => True
  | .clear h => ∀ n, s.opened h = some n → s.others h n = ∅
  | .clearStorage name => ∀ n, name = some n → s.openOn n = ∅

/-! ## The invariant -/

structure Inv (s : St H) : Prop where
  entry : ∀ n id, s.handles n = some id →
    s.entry id = some ⟨n, n ≠ "", ((s.openOn n).ncard : Int)⟩
  opened : ∀ h n, s.opened h = some n → n ≠ "" ∧ ∃ id, s.ptr h = some id ∧ s.handles n = some id
  stray : ∀ h id, s.ptr h = some id → s.opened h = none → s.handles "" = some id
  fresh : ∀ n id, s.handles n = some id → id < s.next
  finite : ∀ n, (s.openOn n).Finite
  bound : ∀ n, (s.openOn n).ncard < 2 ^ 31

theorem Inv.init : Inv (St.init H) := by
  have he : ∀ n, (St.init H).openOn n = ∅ := fun n => Set.eq_empty_of_forall_notMem fun h => nofun
  refine ⟨nofun, nofun, nofun, nofun, fun n => ?_, fun n => ?_⟩
  · rw [he]
    exact Set.finite_empty
  · rw [he, Set.ncard_empty]
    exact Nat.two_pow_pos 31

section Steps
variable {s s' : St H} {h u : H} {n : String} {id : Nat}

theorem Inv.consistent (hi : Inv s) : Consistent s where
  bound h n ho := (hi.opened h n ho).2
  counted n id hn := ⟨_, hi.entry n id hn, rfl⟩
  finite := hi.finite

/-- An entry is registered under one name. -/
theorem Inv.unique (hi : Inv s) {m : String} (hn : s.handles n = some id)
    (hm : s.handles m = some id) : n = m := by
  have := (hi.entry n id hn).symm.trans (hi.entry m id hm)
  exact congrArg Entry.name (Option.some.inj this)

/-- The entry of a name that nobody has open any more is erased. -/
theorem Inv.drop (hi : Inv s) (hn : s.handles n = some id) (hne : n ≠ "")
    (hh : s'.handles = Function.update s.handles n none)
    (he : ∀ k, k ≠ id → s'.entry k = s.entry k) (hnext : s'.next = s.next)
    (ho : ∀ u m, s'.opened u = some m ↔ m ≠ n ∧ s.opened u = some m)
    (hp : ∀ u m, s'.opened u = some m → s'.ptr u = s.ptr u)
    (hs : ∀ u k, s'.ptr u = some k → s'.opened u = none → s.ptr u = some k ∧ s.opened u = none) :
    Inv s' := by
  have hsame : ∀ m, m ≠ n → s'.openOn m = s.openOn m := fun m hm => by
    ext u
    exact (ho u m).trans (and_iff_right hm)
  have hnone : s'.openOn n = ∅ :=
    Set.eq_empty_of_forall_notMem fun u hu => ((ho u n).mp hu).1 rfl
  have hreg : ∀ m k, s'.handles m = some k → m ≠ n ∧ s.handles m = some k := fun m k hm => by
    rw [hh] at hm
    by_cases hmn : m = n
    · rw [hmn, Function.update_self] at hm
      cases hm
    · rw [Function.update_of_ne hmn] at hm
      exact ⟨hmn, hm⟩
  refine ⟨fun m k hm => ?_, fun u m hu => ?_, fun u k hu hno => ?_, fun m k hm => ?_, fun m => ?_,
    fun m => ?_⟩
  · obtain ⟨hmn, hm⟩ := hreg m k hm
    rw [he k fun hk => hmn (hi.unique hm (hk ▸ hn)), hsame m hmn]
    exact hi.entry m k hm
  · obtain ⟨hmn, hu'⟩ := (ho u m).mp hu
    obtain ⟨hm, k, hk, hreg⟩ := hi.opened u m hu'
    refine ⟨hm, k, (hp u m hu).trans hk, ?_⟩
    rw [hh, Function.update_of_ne hmn]
    exact hreg
  · obtain ⟨hk, hno⟩ := hs u k hu hno
    rw [hh, Function.update_of_ne hne.symm]
    exact hi.stray u k hk hno
  · rw [hnext]
    exact hi.fresh m k (hreg m k hm).2
  · by_cases hm : m = n
    · rw [hm, hnone]
      exact Set.finite_empty
    · rw [hsame m hm]
      exact hi.finite m
  · by_cases hm : m = n
    · rw [hm, hnone, Set.ncard_empty]
      exact Nat.two_pow_pos 31
    · rw [hsame m hm]
      exact hi.bound m

theorem addRef_entry {v : Bool} {r : Int} (he : s.entry id = some ⟨n, v, r⟩) (d : Int) :
    (s.addRef id d).entry id = some ⟨n, v, int32 (r + d)⟩ := by
  change Function.update s.entry id _ id = _
  rw [Function.update_self, he, Option.map_some]

theorem erase_handles : (s.erase n id).handles n = none := Function.update_self ..

variable [DecidableEq H]

theorem forget_ptr_self : (s.forget h).ptr h = none := Function.update_self ..

theorem forget_ptr_of_ne (hu : u ≠ h) : (s.forget h).ptr u = s.ptr u := Function.update_of_ne hu ..

theorem forget_opened_of_ne (hu : u ≠ h) : (s.forget h).opened u = s.opened u :=
  Function.update_of_ne hu ..

theorem openOn_forget (s : St H) (h : H) (n : String) : (s.forget h).openOn n = s.others h n :=
  parties_leave nofun

theorem forget_opened (hno : s.opened h = none) : (s.forget h).opened = s.opened := by
  change Function.update s.opened h none = s.opened
  rw [← hno, Function.update_eq_self]

/-- A handle that is not open becomes null. -/
theorem Inv.forget (hi : Inv s) (hno : s.opened h = none) : Inv (s.forget h) := by
  have ho := forget_opened hno
  have hon : ∀ n, (s.forget h).openOn n = s.openOn n := fun n => by
    unfold St.openOn
    rw [ho]
  refine ⟨fun n id hn => ?_, fun u n hu => ?_, fun u id hu hno' => ?_, hi.fresh, fun n => ?_,
    fun n => ?_⟩
  · rw [hon]
    exact hi.entry n id hn
  · rw [ho] at hu
    have hne : u ≠ h := fun he => by
      rw [he, hno] at hu
      cases hu
    obtain ⟨hn, id, hid, hreg⟩ := hi.opened u n hu
    exact ⟨hn, id, (Function.update_of_ne hne ..).trans hid, hreg⟩
  · rw [ho] at hno'
    by_cases he : u = h
    · rw [he] at hu
      cases forget_ptr_self.symm.trans hu
    · exact hi.stray u id ((forget_ptr_of_ne he).symm.trans hu) hno'
  · rw [hon]
    exact hi.finite n
  · rw [hon]
    exact hi.bound n

/-- One of several handles of a name is closed. -/
theorem Inv.leave (hi : Inv s) (ho : s.opened h = some n) (hn : s.handles n = some id) :
    Inv ((s.addRef id (-1)).forget h) := by
  have hcount := ncard_leave (b := none) (hi.finite n) ho nofun
  have hlt := hi.bound n
  have hon : ∀ m, ((s.addRef id (-1)).forget h).openOn m = s.others h m := openOn_forget _ h
  have hsame : ∀ m, m ≠ n → s.others h m = s.openOn m := fun m hm =>
    Set.sdiff_singleton_eq_self fun hh => hm (Option.some.inj (hh.symm.trans ho))
  refine ⟨fun m k hm => ?_, fun u m hu => ?_, fun u k hu hno => ?_, hi.fresh, fun m => ?_,
    fun m => ?_⟩
  · rw [hon]
    by_cases hmn : m = n
    · subst hmn
      cases hn.symm.trans hm
      have hnat : (s.openOn m).ncard = (s.others h m).ncard + 1 := by
        rw [← openOn_forget]
        exact hcount.symm
      have hint : int32 (((s.openOn m).ncard : Int) + -1) = ((s.others h m).ncard : Int) := by
        rw [hnat] at hlt ⊢
        rw [int32_of_range (by omega) (by omega)]
        omega
      rw [← hint]
      exact addRef_entry (hi.entry m id hn) (-1)
    · have hk : k ≠ id := fun hk => hmn (hi.unique hm (hk ▸ hn))
      change Function.update s.entry id _ k = _
      rw [Function.update_of_ne hk, hsame m hmn]
      exact hi.entry m k hm
  · have hu : Function.update s.opened h none u = some m := hu
    obtain ⟨hne, hu⟩ := of_update_eq hu nofun
    obtain ⟨hm, k, hk, hreg⟩ := hi.opened u m hu
    exact ⟨hm, k, (Function.update_of_ne hne ..).trans hk, hreg⟩
  · by_cases he : u = h
    · rw [he] at hu
      cases forget_ptr_self.symm.trans hu
    · exact hi.stray u k ((forget_ptr_of_ne he).symm.trans hu)
        ((forget_opened_of_ne he).symm.trans hno)
  · rw [hon]
    exact (hi.finite m).subset Set.sdiff_subset
  · rw [hon]
    exact (Set.ncard_le_ncard Set.sdiff_subset (hi.finite m)).trans_lt (hi.bound m)

/-- A handle that is the last of its name goes, and the entry with it. -/
theorem Inv.last (hi : Inv s) (hn : s.handles n = some id) (hne : n ≠ "")
    (hlast : s.others h n = ∅) (hstray : s.opened h = some n) (x : Option Entry) :
    Inv (((s.setEntry id x).erase n id).forget h) := by
  refine hi.drop hn hne rfl (fun k hk => ?_) rfl (fun u m => ?_) (fun u m hu => ?_)
    fun u k hu hno => ?_
  · exact (Function.update_of_ne hk ..).trans (Function.update_of_ne hk ..)
  · change Function.update s.opened h none u = some m ↔ _
    by_cases he : u = h
    · subst he
      rw [Function.update_self]
      exact ⟨nofun, fun hm => absurd (Option.some.inj (hm.2.symm.trans hstray)) hm.1⟩
    · rw [Function.update_of_ne he]
      refine ⟨fun hu => ⟨fun hm => ?_, hu⟩, And.right⟩
      exact Set.notMem_empty u (hlast ▸ ⟨hm ▸ hu, he⟩)
  · have hu : Function.update s.opened h none u = some m := hu
    exact Function.update_of_ne (of_update_eq hu nofun).1 ..
  · by_cases he : u = h
    · rw [he] at hu
      cases forget_ptr_self.symm.trans hu
    · exact ⟨(forget_ptr_of_ne he).symm.trans hu, (forget_opened_of_ne he).symm.trans hno⟩

/-- Where a handle that is not open points, there is nothing to release. -/
theorem Inv.close_null (hi : Inv s) (hno : s.opened h = none) :
    s.close h = some (s.forget h) ∧ s.clear h = some (s.forget h) := by
  cases hp : s.ptr h with
  | none => simp only [St.close, St.clear, hp, and_self]
  | some id =>
    have := hi.entry "" id (hi.stray h id hp hno)
    simp only [St.close, St.clear, hp, this, Option.map_some, St.releaseMutex, if_true, and_self]

theorem Inv.close (hi : Inv s) (h : H) :
    ∃ s', s.close h = some s' ∧ Inv s' ∧ s'.opened = Function.update s.opened h none ∧
      s'.ptr h = none ∧ ∀ m k, s.handles m = some k → s'.handles m ≠ some k →
        ∀ u, s.opened u = some m → u = h := by
  cases ho : s.opened h with
  | none =>
    exact ⟨_, (hi.close_null ho).1, hi.forget ho, rfl, Function.update_self ..,
      fun m k hm hm' => absurd hm hm'⟩
  | some n =>
    obtain ⟨hne, id, hp, hn⟩ := hi.opened h n ho
    have hentry := hi.entry n id hn
    have hcount := ncard_leave (b := none) (hi.finite n) ho nofun
    simp only [St.close, hp, hentry, Option.map_some, St.releaseMutex, hne, if_false, hn,
      decide_eq_true_eq]
    split
    · rename_i hle
      have hothers : s.others h n = ∅ := by
        have hz : (s.others h n).ncard = 0 := by
          rw [← openOn_forget]
          have : (parties (fun x => x = some n) s.opened).ncard ≤ 1 := by exact_mod_cast hle
          exact Nat.le_zero.mp (by
            change (parties _ (Function.update s.opened h none)).ncard ≤ 0
            omega)
        exact (Set.ncard_eq_zero ((hi.finite n).subset Set.sdiff_subset)).mp hz
      refine ⟨_, rfl, hi.last hn hne hothers ho _, rfl, Function.update_self .., ?_⟩
      intro m k hm hm' u hu
      by_cases hmn : m = n
      · subst hmn
        by_contra hu'
        exact Set.notMem_empty u (hothers ▸ ⟨hu, hu'⟩)
      · exact absurd ((Function.update_of_ne hmn ..).trans hm) hm'
    · exact ⟨_, rfl, hi.leave ho hn, rfl, Function.update_self ..,
        fun m k hm hm' => absurd hm hm'⟩

omit [DecidableEq H] in
/-- Nobody is open on a name that is not registered. -/
theorem Inv.unregistered (hi : Inv s) (hn : s.handles n = none) : s.openOn n = ∅ :=
  Set.eq_empty_of_forall_notMem fun u hu => by
    obtain ⟨-, id, -, hreg⟩ := hi.opened u n hu
    cases hn.symm.trans hreg

omit [DecidableEq H] in
theorem Inv.acquireMutex (hi : Inv s) (n : String) :
    Inv (s.acquireMutex n).2 ∧ (s.acquireMutex n).2.handles n = some (s.acquireMutex n).1 ∧
      (s.acquireMutex n).2.opened = s.opened ∧ (s.acquireMutex n).2.ptr = s.ptr ∧
      ∀ m k, s.handles m = some k → (s.acquireMutex n).2.handles m = some k := by
  cases hn : s.handles n with
  | some id =>
    simp only [St.acquireMutex, hn]
    exact ⟨hi, trivial, trivial, trivial, fun m k hm => hm⟩
  | none =>
    simp only [St.acquireMutex, hn]
    have hempty := hi.unregistered hn
    have hold : ∀ m k, s.handles m = some k →
        Function.update s.handles n (some s.next) m = some k := fun m k hm => by
      have hmn : m ≠ n := fun he => by
        subst he
        cases hn.symm.trans hm
      rw [Function.update_of_ne hmn]
      exact hm
    have hreg : ∀ m k, Function.update s.handles n (some s.next) m = some k →
        (m = n ∧ k = s.next) ∨ s.handles m = some k := fun m k hm => by
      by_cases hmn : m = n
      · rw [hmn, Function.update_self] at hm
        exact .inl ⟨hmn, (Option.some.inj hm).symm⟩
      · rw [Function.update_of_ne hmn] at hm
        exact .inr hm
    refine ⟨⟨fun m k hm => ?_, fun u m hu => ?_, fun u k hu hno => ?_, fun m k hm => ?_, hi.finite,
      hi.bound⟩, Function.update_self .., rfl, rfl, hold⟩
    · change Function.update s.entry s.next _ k = some ⟨m, _, ((s.openOn m).ncard : Int)⟩
      obtain ⟨rfl, rfl⟩ | hm := hreg m k hm
      · rw [Function.update_self, hempty, Set.ncard_empty]
        rfl
      · rw [Function.update_of_ne (Nat.ne_of_lt (hi.fresh m k hm))]
        exact hi.entry m k hm
    · obtain ⟨hm, k, hk, hu⟩ := hi.opened u m hu
      exact ⟨hm, k, hk, hold m k hu⟩
    · exact hold _ _ (hi.stray u k hu hno)
    · obtain ⟨-, rfl⟩ | hm := hreg m k hm
      · exact Nat.lt_succ_self _
      · exact Nat.lt_succ_of_lt (hi.fresh m k hm)

/-- A handle on no name: the entry is found, and it is not valid. -/
theorem Inv.setPtr (hi : Inv s) (hno : s.opened h = none) (hn : s.handles "" = some id) :
    Inv (s.setPtr h (some id)) where
  entry := hi.entry
  opened u m hu := by
    have hu : s.opened u = some m := hu
    have hne : u ≠ h := fun he => by
      subst he
      cases hno.symm.trans hu
    obtain ⟨hm, k, hk, hreg⟩ := hi.opened u m hu
    exact ⟨hm, k, (Function.update_of_ne hne ..).trans hk, hreg⟩
  stray u k hu hno := by
    by_cases he : u = h
    · subst he
      have hu : Function.update s.ptr u (some id) u = some k := hu
      rw [Function.update_self] at hu
      exact Option.some.inj hu ▸ hn
    · exact hi.stray u k ((Function.update_of_ne he ..).symm.trans hu) hno
  fresh := hi.fresh
  finite := hi.finite
  bound := hi.bound

theorem openOn_enter (s : St H) (h : H) (id : Nat) (n : String) :
    (((s.setPtr h (some id)).addRef id 1).setOpened h (some n)).openOn n =
      insert h (s.openOn n) := parties_enter rfl

/-- One more handle is open on a name. -/
theorem Inv.enter (hi : Inv s) (hno : s.opened h = none) (hn : s.handles n = some id) (hne : n ≠ "")
    (hlt : (s.openOn n).ncard + 1 < 2 ^ 31) :
    Inv (((s.setPtr h (some id)).addRef id 1).setOpened h (some n)) := by
  have hcount : ((((s.setPtr h (some id)).addRef id 1).setOpened h (some n)).openOn n).ncard =
      (s.openOn n).ncard + 1 :=
    ncard_enter (hi.finite n) (fun he : s.opened h = some n => nomatch hno.symm.trans he) rfl
  have hsame : ∀ m, m ≠ n →
      (((s.setPtr h (some id)).addRef id 1).setOpened h (some n)).openOn m = s.openOn m :=
    fun m hm => parties_same (b := some n) ⟨fun he : s.opened h = some m =>
      (nomatch hno.symm.trans he), fun he => absurd (Option.some.inj he).symm hm⟩
  refine ⟨fun m k hm => ?_, fun u m hu => ?_, fun u k hu hno' => ?_, hi.fresh, fun m => ?_,
    fun m => ?_⟩
  · by_cases hmn : m = n
    · subst hmn
      cases hn.symm.trans hm
      have hint : int32 (((s.openOn m).ncard : Int) + 1) = ((s.openOn m).ncard + 1 : Nat) := by
        rw [int32_of_range (by omega) (by omega)]
        omega
      rw [hcount, ← hint]
      exact addRef_entry (s := s.setPtr h (some id)) (hi.entry m id hn) 1
    · have hk : k ≠ id := fun hk => hmn (hi.unique hm (hk ▸ hn))
      change Function.update s.entry id _ k = _
      rw [Function.update_of_ne hk, hsame m hmn]
      exact hi.entry m k hm
  · have hu : Function.update s.opened h (some n) u = some m := hu
    by_cases he : u = h
    · subst he
      rw [Function.update_self] at hu
      cases hu
      exact ⟨hne, id, Function.update_self .., hn⟩
    · rw [Function.update_of_ne he] at hu
      obtain ⟨hm, k, hk, hreg⟩ := hi.opened u m hu
      exact ⟨hm, k, (Function.update_of_ne he ..).trans hk, hreg⟩
  · obtain ⟨he, hno'⟩ := of_update_eq (f := s.opened) hno' nofun
    exact hi.stray u k ((Function.update_of_ne he ..).symm.trans hu) hno'
  · by_cases hmn : m = n
    · rw [hmn, openOn_enter]
      exact (hi.finite n).insert h
    · rw [hsame m hmn]
      exact hi.finite m
  · by_cases hmn : m = n
    · rw [hmn, hcount]
      exact hlt
    · rw [hsame m hmn]
      exact hi.bound m

/-- `open` with a name: the state before the reference is counted. -/
theorem Inv.open_eq (hi : Inv s) (h : H) (hne : n ≠ "") :
    ∃ t id, Inv t ∧ t.opened = Function.update s.opened h none ∧ t.handles n = some id ∧
      s.open h (some n) = some (((t.setPtr h (some id)).addRef id 1).setOpened h (some n)) ∧
      ∀ m k, s.handles m = some k → t.handles m ≠ some k → ∀ u, s.opened u = some m → u = h := by
  obtain ⟨s₁, hclose, hi₁, ho₁, -, herase⟩ := hi.close h
  obtain ⟨hi₂, hreg, ho₂, -, hkeep⟩ := hi₁.acquireMutex n
  refine ⟨_, _, hi₂, ho₂.trans ho₁, hreg, ?_, fun m k hm hm' => herase m k hm fun h₁ =>
    hm' (hkeep m k h₁)⟩
  simp only [St.open, hclose, Option.bind_some, hi₂.entry n _ hreg, Option.map_some, hne, ne_eq,
    not_false_eq_true, decide_true, if_true]

/-- What a call keeps: the invariant, and every entry with an open handle that the call
does not close. -/
def Keeps (s s' : St H) (closed : Option H) : Prop :=
  Inv s' ∧ ∀ n id, s.handles n = some id → s'.handles n ≠ some id →
    ∀ u, s.opened u = some n → closed = some u

theorem Inv.open (hi : Inv s) {name : Option String} (hu : Unshared s (.open h name))
    (h' : s.open h name = some s') : Keeps s s' (some h) := by
  cases name with
  | none =>
    obtain ⟨s₁, hclose, hi₁, -, -, herase⟩ := hi.close h
    simp only [St.open, hclose, Option.bind_some] at h'
    cases h'
    exact ⟨hi₁, fun m k hm hm' u hu => congrArg some (herase m k hm hm' u hu).symm⟩
  | some n =>
    by_cases hne : n = ""
    · subst hne
      obtain ⟨s₁, hclose, hi₁, ho₁, -, herase⟩ := hi.close h
      obtain ⟨hi₂, hreg, ho₂, -, hkeep⟩ := hi₁.acquireMutex ""
      simp only [St.open, hclose, Option.bind_some, hi₂.entry "" _ hreg, Option.map_some, ne_eq,
        not_true_eq_false, decide_false, Bool.false_eq_true, if_false] at h'
      cases h'
      have hno : (s₁.acquireMutex "").2.opened h = none := by
        rw [ho₂, ho₁, Function.update_self]
      exact ⟨hi₂.setPtr hno hreg, fun m k hm hm' u hu =>
        congrArg some (herase m k hm (fun h₁ => hm' (hkeep m k h₁)) u hu).symm⟩
    · obtain ⟨t, id, ht, ho, hreg, he, herase⟩ := hi.open_eq h hne
      cases he.symm.trans h'
      have hon : t.openOn n = s.others h n := by
        unfold St.openOn
        rw [ho]
        exact openOn_forget s h n
      have hno : t.opened h = none := by rw [ho, Function.update_self]
      exact ⟨ht.enter hno hreg hne (hon ▸ hu n rfl hne), fun m k hm hm' u hu =>
        congrArg some (herase m k hm hm' u hu).symm⟩

/-- What `clear` does with an open handle. -/
theorem Inv.clear_eq (hi : Inv s) (ho : s.opened h = some n) :
    ∃ id x, n ≠ "" ∧ s.handles n = some id ∧
      s.clear h = some (((s.setEntry id x).erase n id).forget h) := by
  obtain ⟨hne, id, hp, hn⟩ := hi.opened h n ho
  refine ⟨id, (s.entry id).map fun x => { x with name := "", valid := false }, hne, hn, ?_⟩
  rw [St.clear, hp]
  simp only [hi.entry n id hn, Option.map_some, St.releaseMutex, hne, if_false, hn, if_true,
    St.invalidate]

theorem Inv.clear (hi : Inv s) (hu : Unshared s (.clear h)) (h' : s.clear h = some s') :
    Keeps s s' (some h) := by
  cases ho : s.opened h with
  | none =>
    cases (hi.close_null ho).2.symm.trans h'
    exact ⟨hi.forget ho, fun m k hm hm' => absurd hm hm'⟩
  | some n =>
    obtain ⟨id, x, hne, hn, he⟩ := hi.clear_eq ho
    cases he.symm.trans h'
    refine ⟨hi.last hn hne (hu n ho) ho x, fun m k hm hm' u hu' => ?_⟩
    by_cases hmn : m = n
    · subst hmn
      by_contra hne
      exact Set.notMem_empty u (hu m ho ▸ ⟨hu', fun he => hne (congrArg some he.symm)⟩)
    · exact absurd ((Function.update_of_ne hmn ..).trans hm) hm'

omit [DecidableEq H] in
theorem clearStorage_eq (hne : n ≠ "") (hn : s.handles n = some id) :
    s.clearStorage (some n) = s.erase n id := by
  simp only [St.clearStorage, St.releaseMutex, hne, if_false, hn, if_true]

omit [DecidableEq H] in
theorem Inv.clearStorage (hi : Inv s) {name : Option String}
    (hu : Unshared s (.clearStorage name)) : Keeps s (s.clearStorage name) none := by
  have hsame : Keeps s s none := ⟨hi, fun m k hm hm' => absurd hm hm'⟩
  cases name with
  | none => exact hsame
  | some n =>
    by_cases hne : n = ""
    · have he : s.clearStorage (some n) = s := if_pos hne
      rw [he]
      exact hsame
    · cases hn : s.handles n with
      | none =>
        have he : s.clearStorage (some n) = s := by
          simp only [St.clearStorage, St.releaseMutex, hne, if_false, hn]
        rw [he]
        exact hsame
      | some id =>
        rw [clearStorage_eq hne hn]
        have hnone : ∀ u, s.opened u ≠ some n := fun u ho =>
          Set.notMem_empty u (hu n rfl ▸ ho)
        refine ⟨hi.drop hn hne rfl (fun k hk => Function.update_of_ne hk ..) rfl
          (fun u m => ⟨fun hm => ⟨fun he => hnone u (he ▸ hm), hm⟩, And.right⟩)
          (fun _ _ _ => rfl) (fun u k hk ho => ⟨hk, ho⟩), fun m k hm hm' u ho => ?_⟩
        by_cases hmn : m = n
        · exact absurd (hmn ▸ ho) (hnone u)
        · exact absurd ((Function.update_of_ne hmn ..).trans hm) hm'

theorem Inv.step {a : Act H} (hi : Inv s) (hu : Unshared s a)
    (h' : MutexRegistry.step s a = some s') : Keeps s s' a.handle := by
  cases a with
  | «open» h name => exact hi.open hu h'
  | close h =>
    obtain ⟨t, he, ht, -, -, herase⟩ := hi.close h
    cases he.symm.trans h'
    exact ⟨ht, fun m k hm hm' u hu => congrArg some (herase m k hm hm' u hu).symm⟩
  | clear h => exact hi.clear hu h'
  | clearStorage name =>
    cases h'
    exact hi.clearStorage hu

/-- The reference that no longer fits into 32 bits. -/
theorem Inv.open_sound (hi : Inv s) {name : Option String} (hs : Sound s (.open h name)) :
    Unshared s (.open h name) := by
  rintro n rfl hne
  obtain ⟨t, id, ht, ho, hreg, he, -⟩ := hi.open_eq h hne
  have hno : t.opened h = none := by rw [ho, Function.update_self]
  have hon : t.openOn n = s.others h n := by
    unfold St.openOn
    rw [ho]
    exact openOn_forget s h n
  have hcount : ((((t.setPtr h (some id)).addRef id 1).setOpened h (some n)).openOn n).ncard =
      (t.openOn n).ncard + 1 :=
    ncard_enter (ht.finite n) (fun he : t.opened h = some n => nomatch hno.symm.trans he) rfl
  obtain ⟨x, hx, href⟩ := (hs _ he).1.counted n id hreg
  rw [hcount] at href
  have hentry := addRef_entry (s := t.setPtr h (some id)) (ht.entry n id hreg) 1
  cases hentry.symm.trans hx
  rw [← hon]
  have hlt := ht.bound n
  by_contra hge
  have hk : (t.openOn n).ncard = 2 ^ 31 - 1 := by omega
  rw [hk] at href
  simp [int32, Int.bmod] at href

theorem Inv.sound_iff (hi : Inv s) (a : Act H) : Sound s a ↔ Unshared s a := by
  constructor
  · intro hs
    cases a with
    | «open» h name => exact hi.open_sound hs
    | close h => trivial
    | clear h =>
      intro n ho
      obtain ⟨id, x, hne, hn, he⟩ := hi.clear_eq ho
      refine Set.eq_empty_of_forall_notMem fun u hu => ?_
      -- another handle is open on a name that is not registered any more
      obtain ⟨k, -, hk⟩ := (hs _ he).1.bound u n ((forget_opened_of_ne hu.2).trans hu.1)
      cases (erase_handles (s := s.setEntry id x)).symm.trans hk
    | clearStorage name =>
      rintro n rfl
      refine Set.eq_empty_of_forall_notMem fun u (hu : s.opened u = some n) => ?_
      obtain ⟨hne, id, -, hn⟩ := hi.opened u n hu
      have he := clearStorage_eq hne hn
      obtain ⟨k, -, hk⟩ := (hs _ rfl).1.bound u n (he ▸ hu)
      rw [he] at hk
      cases erase_handles.symm.trans hk
  · intro hu s' h'
    obtain ⟨hi', herase⟩ := hi.step hu h'
    exact ⟨hi'.consistent, herase⟩

end Steps

/-! ## Every sequence of calls -/

section Runs
variable [DecidableEq H]

/-- The registry is consistent after each call of a sequence, and erases no entry in use,
exactly if nothing is cleared that others have open and no name is opened too often. -/
theorem sound_iff_unshared (acts : List (Act H)) :
    Meets step Sound (.init H) acts ↔ Meets step Unshared (.init H) acts :=
  (meets_congr (P := Inv) (fun _ a hi => (hi.sound_iff a).symm)
    (fun _ _ _ hi hu h => (hi.step hu h).1) Inv.init).symm

/-- Two handles on one name; one is cleared. -/
def stranded : List (Act Bool) := [.open false (some "m"), .open true (some "m"), .clear false]

theorem not_consistent_stranded : ∃ s, run step (.init Bool) stranded = some s ∧
    s.opened true = some "m" ∧ s.ptr true = some 0 ∧ s.entry 0 = none ∧ s.handles "m" = none ∧
    ¬ Consistent s := by
  have hs : ((run step (.init Bool) stranded).map fun s =>
      (s.opened true, s.ptr true, s.entry 0, s.handles "m")) =
      some (some "m", some 0, none, none) := by
    decide +kernel
  obtain ⟨s, hr, he⟩ := Option.map_eq_some_iff.mp hs
  simp only [Prod.mk.injEq] at he
  obtain ⟨ho, hp, he, hn⟩ := he
  refine ⟨s, hr, ho, hp, he, hn, fun hc => ?_⟩
  obtain ⟨id, -, hid⟩ := hc.bound true "m" ho
  cases hn.symm.trans hid

end Runs

end CppIpc.MutexRegistry
