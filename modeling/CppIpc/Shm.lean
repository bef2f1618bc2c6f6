import CppIpc.Def
import CppIpc.Lib.Places
import CppIpc.Lib.Runs
import Mathlib.Data.Fintype.Basic

/-! # `shm::handle` on POSIX

One name and the objects that it has been bound to. The counter of an object lies at
its end; the last release unlinks by name. Every operation of a handle is one step. -/
namespace CppIpc.Shm
open CppIpc.Def (int32 int32_of_range)
open CppIpc.Lib.Places
open CppIpc.Lib.Runs (run Meets run_invariant)

/-! ## The name and its objects -/

/-- Objects are numbered in the order of their creation. `acc` is their counter. -/
structure Fs where
  bound : Option Nat
  next : Nat
  acc : Nat → Int

/-- `id_info_t` of a mapped object; `named` is `!name_.empty()`. -/
structure Info where
  obj : Nat
  named : Bool
deriving DecidableEq

def Fs.setAcc (fs : Fs) (o : Nat) (n : Int) : Fs := { fs with acc := Function.update fs.acc o n }

/-- `shm_unlink` of the name. -/
def Fs.unlink (fs : Fs) : Fs := { fs with bound := none }

/-- `shm::acquire` with `create | open`: `shm_open` with `O_CREAT`. -/
def Fs.acquire (fs : Fs) : Fs × Nat :=
  match fs.bound with
  | some o => (fs, o)
  | none => ({ fs with bound := some fs.next, next := fs.next + 1 }, fs.next)

/-- `get_mem`, which counts the mapping. -/
def Fs.getMem (fs : Fs) (o : Nat) : Fs := fs.setAcc o (int32 (fs.acc o + 1))

/-- `shm::release`. -/
def Fs.release (fs : Fs) (ii : Info) : Fs :=
  let ret := fs.acc ii.obj
  let fs := fs.setAcc ii.obj (int32 (ret - 1))
  if ret ≤ 1 ∧ ii.named then fs.unlink else fs

/-- `shm::remove(id)`: the name is moved out before the release. -/
def Fs.remove (fs : Fs) (ii : Info) : Fs :=
  let fs := fs.release { ii with named := false }
  if ii.named then fs.unlink else fs

/-! ## Handles -/

variable {H : Type}

/-- `clean h`: the name has not been cleared since `h` acquired it. -/
structure St (H : Type) where
  fs : Fs
  handle : H → Option Info
  clean : H → Bool

def St.init (H : Type) : St H := ⟨⟨none, 0, fun _ => 0⟩, fun _ => none, fun _ => false⟩

def Maps (o : Nat) (x : Option Info) : Prop := x.map Info.obj = some o

@[simp] theorem maps_none (o : Nat) : ¬ Maps o none := nofun
@[simp] theorem maps_some {o : Nat} {x : Info} : Maps o (some x) ↔ x.obj = o := by simp [Maps]

/-- The handles that map object `o`. -/
def St.users (s : St H) (o : Nat) : Set H := parties (Maps o) s.handle

/-- `handle::clear_storage`. -/
def St.clearStorage (s : St H) : St H := { s with fs := s.fs.unlink, clean := fun _ => false }

section Ops
variable [DecidableEq H]

def St.put (s : St H) (h : H) (x : Option Info) : St H :=
  { s with handle := Function.update s.handle h x }

/-- `handle::release`. -/
def St.release (s : St H) (h : H) : St H :=
  match s.handle h with
  | none => s
  | some ii => { s with fs := s.fs.release ii }.put h none

/-- What `handle::acquire` does after its release. -/
def St.attach (s : St H) (h : H) : St H :=
  let (fs, o) := s.fs.acquire
  { s with fs := fs.getMem o, clean := Function.update s.clean h true }.put h (some ⟨o, true⟩)

/-- `handle::acquire`. -/
def St.acquire (s : St H) (h : H) : St H := (s.release h).attach h

/-- `handle::clear`. -/
def St.clear (s : St H) (h : H) : St H :=
  match s.handle h with
  | none => s
  | some ii => { s with fs := s.fs.remove ii, clean := fun _ => false }.put h none

inductive Act (H : Type) where
  | acquire (h : H)
  | release (h : H)
  | clear (h : H)
  | clearStorage
deriving DecidableEq

def step (s : St H) : Act H → Option (St H)
  | .acquire h => some (s.acquire h)
  | .release h => some (s.release h)
  | .clear h => some (s.clear h)
  | .clearStorage => some s.clearStorage

end Ops

/-- Two open handles map the same object if the name has not been cleared since the
earlier of them acquired it, that is, since either did. -/
def Bound (s : St H) : Prop :=
  ∀ g h x y, s.handle g = some x → s.handle h = some y → s.clean g = true → s.clean h = true →
    x.obj = y.obj

/-- The counter of an object is the number of open handles that map it. -/
def Counted (s : St H) : Prop := ∀ o, s.fs.acc o = (s.users o).ncard

/-- If `h` is open and the last on its object, the name is not bound to a newer one. -/
def Current (s : St H) (h : H) : Prop :=
  ∀ x, s.handle h = some x → s.fs.acc x.obj ≤ 1 → ∀ o, s.fs.bound = some o → o = x.obj

instance (s : St H) (h : H) : Decidable (Current s h) :=
  match hx : s.handle h with
  | none => isTrue fun x hx' => by rw [hx] at hx'; cases hx'
  | some x =>
    decidable_of_iff (s.fs.acc x.obj ≤ 1 → ∀ o ∈ s.fs.bound, o = x.obj)
      ⟨fun hc y hy hle o ho => by
        rw [hx] at hy
        cases hy
        exact hc hle o ho, fun hc => hc x hx⟩

/-- A handle that is about to be released, be it by `acquire`, is `Current`. -/
def Orderly (s : St H) : Act H → Prop
  | .acquire h | .release h => Current s h
  | .clear _ | .clearStorage => True

instance (s : St H) : (a : Act H) → Decidable (Orderly s a)
  | .acquire h | .release h => inferInstanceAs (Decidable (Current s h))
  | .clear _ | .clearStorage => isTrue trivial

/-- The counter has room for one more mapping. -/
def Room (s : St H) : Act H → Prop
  | .acquire _ => ∀ o, s.fs.bound = some o → (s.users o).ncard < 2 ^ 31 - 1
  | .release _ | .clear _ | .clearStorage => True

def Keeps (s : St H) (a : Act H) : Prop := Orderly s a ∧ Room s a

/-- A handle that has not seen a clear maps what the name is bound to. -/
structure Inv (s : St H) : Prop where
  finite : ∀ o, (s.users o).Finite
  few : ∀ o, (s.users o).ncard < 2 ^ 31
  counted : Counted s
  named : ∀ h x, s.handle h = some x → x.named = true ∧ x.obj < s.fs.next
  bound : ∀ o, s.fs.bound = some o → o < s.fs.next
  current : ∀ h x, s.handle h = some x → s.clean h = true → s.fs.bound = some x.obj

theorem Inv.init : Inv (St.init H) := by
  have h0 : ∀ o, (St.init H).users o = ∅ := fun o => by
    ext h
    exact ⟨nofun, False.elim⟩
  refine ⟨fun o => ?_, fun o => ?_, fun o => ?_, nofun, nofun, nofun⟩
  · rw [h0]; exact Set.finite_empty
  · rw [h0, Set.ncard_empty]; exact Nat.two_pow_pos 31
  · rw [h0, Set.ncard_empty]; rfl

section Steps
variable [DecidableEq H] {s t : St H} {h : H} {x : Info} {o : Nat}

theorem users_put_other (hx : ¬ Maps o (s.handle h)) {y : Option Info} (hy : ¬ Maps o y) :
    (s.put h y).users o = s.users o :=
  parties_same ⟨fun h => absurd h hx, fun h => absurd h hy⟩

/-- A mapping goes away, and perhaps the name with it. -/
theorem Inv.drop (hi : Inv s) (hx : s.handle h = some x)
    (hhandle : t.handle = (s.put h none).handle)
    (hacc : t.fs.acc = Function.update s.fs.acc x.obj (int32 (s.fs.acc x.obj - 1)))
    (hnext : t.fs.next = s.fs.next) (hbound : t.fs.bound = s.fs.bound ∨ t.fs.bound = none)
    (hcurrent : ∀ g y, g ≠ h → s.handle g = some y → t.clean g = true →
      t.fs.bound = some y.obj) : Inv t := by
  have hself : (t.users x.obj).ncard + 1 = (s.users x.obj).ncard := by
    have := ncard_leave (b := none) (hi.finite x.obj) (i := h) (by simp [hx]) (by simp)
    rw [St.users, hhandle]
    exact this
  have hother : ∀ o, o ≠ x.obj → t.users o = s.users o := fun o ho => by
    rw [St.users, hhandle]
    exact users_put_other (by simpa [hx] using ho.symm) (by simp)
  have hget : ∀ g y, t.handle g = some y → g ≠ h ∧ s.handle g = some y := fun g y hg => by
    rw [hhandle] at hg
    exact of_update_eq hg nofun
  refine ⟨fun o => ?_, fun o => ?_, fun o => ?_, fun g y hg => ?_, fun o ho => ?_,
    fun g y hg hc => ?_⟩
  · by_cases ho : o = x.obj
    · rw [ho, St.users, hhandle]
      exact finite_update (hi.finite x.obj) h none
    · rw [hother o ho]; exact hi.finite o
  · by_cases ho : o = x.obj
    · have := hi.few x.obj
      rw [ho]; omega
    · rw [hother o ho]; exact hi.few o
  · rw [hacc]
    by_cases ho : o = x.obj
    · have hc := hi.counted x.obj
      have hf := hi.few x.obj
      rw [ho, Function.update_self, hc, ← hself, int32_of_range (by omega) (by omega)]
      omega
    · rw [Function.update_of_ne ho, hother o ho]; exact hi.counted o
  · rw [hnext]; exact hi.named g y (hget g y hg).2
  · rw [hnext]
    rcases hbound with hb | hb
    · rw [hb] at ho; exact hi.bound o ho
    · rw [hb] at ho; cases ho
  · exact hcurrent g y (hget g y hg).1 (hget g y hg).2 hc

theorem release_fs_acc (fs : Fs) (x : Info) :
    (fs.release x).acc = Function.update fs.acc x.obj (int32 (fs.acc x.obj - 1)) := by
  unfold Fs.release
  dsimp only
  split <;> rfl

theorem release_fs_next (fs : Fs) (x : Info) : (fs.release x).next = fs.next := by
  unfold Fs.release
  dsimp only
  split <;> rfl

theorem release_fs_bound (fs : Fs) (x : Info) :
    (fs.release x).bound = if fs.acc x.obj ≤ 1 ∧ x.named = true then none else fs.bound := by
  unfold Fs.release
  dsimp only
  split <;> rfl

theorem Inv.release (hi : Inv s) (hc : Current s h) : Inv (s.release h) := by
  unfold St.release
  cases hx : s.handle h with
  | none => exact hi
  | some x =>
    refine hi.drop hx rfl (release_fs_acc _ _) (release_fs_next _ _) ?_ fun g y hne hg hcl => ?_
    · change (s.fs.release x).bound = _ ∨ (s.fs.release x).bound = _
      rw [release_fs_bound]
      split
      · exact .inr rfl
      · exact .inl rfl
    · have hb := hi.current g y hg hcl
      change (s.fs.release x).bound = _
      rw [release_fs_bound, if_neg, hb]
      rintro ⟨hle, -⟩
      -- two handles on the object of the last one
      have he : y.obj = x.obj := hc x hx hle _ hb
      have htwo : 1 < (s.users x.obj).ncard :=
        (Set.one_lt_ncard (hi.finite x.obj)).mpr
          ⟨g, by simp [St.users, hg, he], h, by simp [St.users, hx], hne⟩
      have := hi.counted x.obj
      omega

omit [DecidableEq H] in
theorem Inv.clearStorage (hi : Inv s) : Inv s.clearStorage where
  finite := hi.finite
  few := hi.few
  counted := hi.counted
  named := hi.named
  bound := nofun
  current := nofun

theorem Inv.clear (hi : Inv s) (h : H) : Inv (s.clear h) := by
  unfold St.clear
  cases hx : s.handle h with
  | none => exact hi
  | some x =>
    have hn := (hi.named h x hx).1
    refine hi.drop hx rfl ?_ ?_ (.inr ?_) nofun
    · change (s.fs.remove x).acc = _
      rw [Fs.remove, hn]
      exact release_fs_acc _ _
    · change (s.fs.remove x).next = _
      rw [Fs.remove, hn]
      exact release_fs_next _ _
    · change (s.fs.remove x).bound = _
      rw [Fs.remove, hn]
      rfl

omit [DecidableEq H] in
theorem acquire_bound (fs : Fs) : fs.acquire.1.bound = some fs.acquire.2 := by
  unfold Fs.acquire
  split
  · assumption
  · rfl

omit [DecidableEq H] in
/-- Opening the name creates an object only if no clean handle is open. -/
theorem Inv.open (hi : Inv s) : Inv { s with fs := s.fs.acquire.1 } := by
  unfold Fs.acquire
  split
  · exact hi
  · rename_i hb
    refine ⟨hi.finite, hi.few, hi.counted, fun g y hg => ?_, fun o ho => ?_, fun g y hg hc => ?_⟩
    · obtain ⟨hn, hlt⟩ := hi.named g y hg
      exact ⟨hn, Nat.lt_succ_of_lt hlt⟩
    · cases ho
      exact Nat.lt_succ_self _
    · have := hi.current g y hg hc
      rw [hb] at this
      cases this

omit [DecidableEq H] in
/-- A new object has no mappings yet. -/
theorem Inv.users_acquire (hi : Inv s)
    (hroom : ∀ o, s.fs.bound = some o → (s.users o).ncard < 2 ^ 31 - 1) :
    (s.users s.fs.acquire.2).ncard < 2 ^ 31 - 1 := by
  unfold Fs.acquire
  split
  · rename_i o ho
    exact hroom o ho
  · have h0 : s.users s.fs.next = ∅ := by
      ext g
      constructor
      · intro hg
        obtain ⟨x, hx, he⟩ := Option.map_eq_some_iff.mp hg
        have := (hi.named g x hx).2
        omega
      · exact False.elim
    simp only [h0, Set.ncard_empty]
    decide

/-- A mapping of the object that the name is bound to. -/
theorem Inv.map (hi : Inv s) (hb : s.fs.bound = some o) (hh : s.handle h = none)
    (hroom : (s.users o).ncard < 2 ^ 31 - 1) :
    Inv ({ s with fs := s.fs.getMem o, clean := Function.update s.clean h true }.put h
      (some ⟨o, true⟩)) := by
  have hself : ((s.put h (some ⟨o, true⟩)).users o).ncard = (s.users o).ncard + 1 :=
    ncard_enter (hi.finite o) (by simp [hh]) rfl
  have hother : ∀ o', o' ≠ o → (s.put h (some ⟨o, true⟩)).users o' = s.users o' := fun o' ho =>
    users_put_other (by simp [hh]) (by simpa using ho.symm)
  refine ⟨fun o' => finite_update (hi.finite o') h _, fun o' => ?_, fun o' => ?_, fun g y hg => ?_,
    hi.bound, fun g y hg hc => ?_⟩
  · change ((s.put h (some ⟨o, true⟩)).users o').ncard < _
    by_cases ho : o' = o
    · rw [ho, hself]; omega
    · rw [hother o' ho]; exact hi.few o'
  · change Function.update s.fs.acc o (int32 (s.fs.acc o + 1)) o' =
      (((s.put h (some ⟨o, true⟩)).users o').ncard : Int)
    by_cases ho : o' = o
    · have hc := hi.counted o
      rw [ho, Function.update_self, hself, hc, int32_of_range (by omega) (by omega)]
      rfl
    · rw [Function.update_of_ne ho, hother o' ho]; exact hi.counted o'
  · by_cases he : g = h
    · rw [he] at hg
      have hg : some ⟨o, true⟩ = some y := by simpa [St.put] using hg
      cases hg
      exact ⟨rfl, hi.bound o hb⟩
    · exact hi.named g y (by simpa [St.put, Function.update_of_ne he] using hg)
  · by_cases he : g = h
    · rw [he] at hg
      have hg : some ⟨o, true⟩ = some y := by simpa [St.put] using hg
      cases hg
      exact hb
    · exact hi.current g y (by simpa [St.put, Function.update_of_ne he] using hg)
        (by simpa [St.put, Function.update_of_ne he] using hc)

theorem Inv.attach (hi : Inv s) (hh : s.handle h = none)
    (hroom : ∀ o, s.fs.bound = some o → (s.users o).ncard < 2 ^ 31 - 1) : Inv (s.attach h) :=
  hi.open.map (acquire_bound s.fs) hh (hi.users_acquire hroom)

theorem release_handle (s : St H) (h : H) :
    (s.release h).handle = Function.update s.handle h none := by
  unfold St.release
  cases hx : s.handle h with
  | none =>
    conv_rhs => rw [← hx, Function.update_eq_self]
  | some x => rfl

/-- A release frees no name for a new object and maps nothing. -/
theorem Inv.room_release (hi : Inv s)
    (hroom : ∀ o, s.fs.bound = some o → (s.users o).ncard < 2 ^ 31 - 1) :
    ∀ o, (s.release h).fs.bound = some o → ((s.release h).users o).ncard < 2 ^ 31 - 1 := by
  intro o ho
  have hb : s.fs.bound = some o := by
    unfold St.release at ho
    cases hx : s.handle h with
    | none => rw [hx] at ho; exact ho
    | some x =>
      rw [hx] at ho
      have ho : (s.fs.release x).bound = some o := ho
      rw [release_fs_bound] at ho
      split at ho
      · cases ho
      · exact ho
  refine Nat.lt_of_le_of_lt (Set.ncard_le_ncard (fun g hg => ?_) (hi.finite o)) (hroom o hb)
  rw [St.users, release_handle] at hg
  exact (of_update (P := Maps o) hg nofun).2

theorem Inv.step {a : Act H} (hi : Inv s) (hk : Keeps s a) (h : Shm.step s a = some t) : Inv t := by
  cases a with
  | acquire h' =>
    cases h
    refine (hi.release hk.1).attach ?_ (hi.room_release hk.2)
    rw [release_handle, Function.update_self]
  | release h' =>
    cases h
    exact hi.release hk.1
  | clear h' =>
    cases h
    exact hi.clear h'
  | clearStorage =>
    cases h
    exact hi.clearStorage

/-- What the release of a handle that is not `Current` does to a handle on the newer
object: whoever acquires the name next maps another one. -/
theorem Inv.unbinds {f g : H} {y : Info} (hi : Inv s) (hx : s.handle h = some x)
    (hle : s.fs.acc x.obj ≤ 1) (hy : s.handle g = some y) (hclean : s.clean g = true)
    (hne : y.obj ≠ x.obj) (hf : s.handle f = none) : ¬ Bound ((s.release h).attach f) := by
  have hgh : g ≠ h := fun he => by
    rw [he, hx] at hy
    cases hy
    exact hne rfl
  have hfg : g ≠ f := fun he => by
    rw [he, hf] at hy
    cases hy
  have hrel : s.release h = { s with fs := s.fs.release x }.put h none := by
    rw [St.release, hx]
  have hbound : (s.fs.release x).bound = none := by
    rw [release_fs_bound, if_pos ⟨hle, (hi.named h x hx).1⟩]
  have hopen : (s.fs.release x).acquire.2 = s.fs.next := by
    rw [Fs.acquire, hbound, release_fs_next]
  have hlt := (hi.named g y hy).2
  rw [hrel]
  intro hb
  have he := hb g f y ⟨s.fs.next, true⟩
    (by simp [St.attach, St.put, Function.update_of_ne hfg, Function.update_of_ne hgh, hy])
    (by simp [St.attach, St.put, hopen])
    (by simp [St.attach, St.put, Function.update_of_ne hfg, hclean])
    (by simp [St.attach, St.put])
  have he : y.obj = s.fs.next := he
  omega

end Steps

theorem Inv.stays_bound {s : St H} (hi : Inv s) : Bound s := by
  intro g h x y hx hy hg hh
  have hb := hi.current g x hx hg
  rw [hi.current h y hy hh] at hb
  exact (Option.some.inj hb).symm

/-! ## Every history of a name -/

section Runs
variable [DecidableEq H] {acts : List (Act H)} {s : St H}

/-- Where the last handle of an object that has been cleared away is never released while
the name is bound to a newer object. -/
theorem bound_of_run (hr : run step (.init H) acts = some s) (hk : Meets step Keeps (.init H) acts) :
    Bound s ∧ Counted s :=
  have hi : Inv s := run_invariant (fun _ _ _ hi hk h => hi.step hk h) .init hr hk
  ⟨hi.stays_bound, hi.counted⟩

end Runs

theorem room_of_card [Fintype H] (h : Fintype.card H < 2 ^ 31 - 1) (s : St H) (a : Act H) :
    Room s a := by
  cases a with
  | acquire g =>
    intro o _
    refine Nat.lt_of_le_of_lt ?_ h
    rw [← Nat.card_eq_fintype_card, ← Set.ncard_univ]
    exact Set.ncard_le_ncard (Set.subset_univ _)
  | release | clear | clearStorage => trivial

-- for the numerals in the runs below
local instance neZero_three : NeZero 3 := ⟨by decide⟩

/-- A name is cleared under an open handle and used again after that handle is gone. -/
def anew : List (Act (Fin 3)) :=
  [.acquire 0, .acquire 1, .clear 1, .release 0, .acquire 1, .acquire 2, .release 1]

theorem bound_anew : ∃ s, run step (.init (Fin 3)) anew = some s ∧
    s.handle 2 = some ⟨1, true⟩ ∧ Bound s ∧ Counted s := by
  have hs : ((run step (.init (Fin 3)) anew).map fun s => s.handle 2) = some (some ⟨1, true⟩) := by
    decide +kernel
  obtain ⟨s, hr, hh⟩ := Option.map_eq_some_iff.mp hs
  have ho : Meets step Orderly (.init (Fin 3)) anew := by decide +kernel
  exact ⟨s, hr, hh, bound_of_run hr <| ho.imp (P := fun _ => True) (fun _ _ _ _ _ _ => trivial)
    (fun s a _ ha => ⟨ha, room_of_card (by decide) s a⟩) trivial⟩

/-- The release of a handle from before the clear unlinks the name of the new object. -/
def unlinked : List (Act (Fin 3)) :=
  [.acquire 0, .clearStorage, .acquire 1, .release 0, .acquire 2]

theorem not_bound_unlinked : ∃ s, run step (.init (Fin 3)) unlinked = some s ∧
    s.handle 1 = some ⟨1, true⟩ ∧ s.handle 2 = some ⟨2, true⟩ ∧ s.clean 1 = true ∧
    s.clean 2 = true ∧ ¬ Bound s := by
  have hs : ((run step (.init (Fin 3)) unlinked).map fun s =>
      (s.handle 1, s.handle 2, s.clean 1, s.clean 2)) =
      some (some ⟨1, true⟩, some ⟨2, true⟩, true, true) := by
    decide +kernel
  obtain ⟨s, hr, he⟩ := Option.map_eq_some_iff.mp hs
  simp only [Prod.mk.injEq] at he
  obtain ⟨h₁, h₂, hc₁, hc₂⟩ := he
  refine ⟨s, hr, h₁, h₂, hc₁, hc₂, fun hb => ?_⟩
  have := hb 1 2 _ _ h₁ h₂ hc₁ hc₂
  cases this

end CppIpc.Shm
