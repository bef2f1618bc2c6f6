import CppIpc.Def
import CppIpc.Lib.Places
import CppIpc.Lib.Runs
import Mathlib.Data.Nat.Bitwise

/-! # `rw_lock`

One 32-bit word: the high bit is the writer's flag, the low 31 bits count readers. A
writer sets the flag and, if it was the first, waits until the readers are gone.
Every access to the word is one step. -/
namespace CppIpc.RwLock
open CppIpc.Lib.Places
open CppIpc.Lib.Runs (run Meets run_invariant)

/-- `lc_ui_t`. -/
abbrev Word := BitVec 32

def wMask : Word := 0x7fffffff#32

def wFlag : Word := wMask + 1

/-! ## The lock -/

/-- Where a thread stands: `claiming` before the `fetch_or` of `lock`, `draining` after
one that set the flag over readers; in `lock_shared` before the first load, or with the
value that the next attempt works on. -/
inductive Pc where
  | idle
  | claiming
  | draining
  | exclusive
  | loading
  | trying (old : Word)
  | shared
deriving DecidableEq

variable {T : Type}

structure St (T : Type) where
  lc : Word
  pc : T → Pc

def St.init (T : Type) : St T := ⟨0, fun _ => .idle⟩

inductive Act (T : Type) where
  | lock (t : T)
  | fetchOr (t : T)
  | drain (t : T)
  | unlock (t : T)
  | lockShared (t : T)
  | load (t : T)
  /-- `spurious`: the weak exchange fails although the word is the expected one. -/
  | attempt (t : T) (spurious : Bool)
  | unlockShared (t : T)
deriving DecidableEq

def St.set [DecidableEq T] (s : St T) (lc : Word) (t : T) (pc : Pc) : St T :=
  ⟨lc, Function.update s.pc t pc⟩

def step [DecidableEq T] (s : St T) : Act T → Option (St T)
  | .lock t => if s.pc t = .idle then some (s.set s.lc t .claiming) else none
  | .fetchOr t =>
    if s.pc t = .claiming then
      some (s.set (s.lc ||| wFlag) t
        (if s.lc = 0 then .exclusive else if s.lc &&& wFlag = 0 then .draining else .claiming))
    else none
  | .drain t =>
    if s.pc t = .draining then
      some (s.set s.lc t (if s.lc &&& wMask ≠ 0 then .draining else .exclusive))
    else none
  | .unlock t => if s.pc t = .exclusive then some (s.set 0 t .idle) else none
  | .lockShared t => if s.pc t = .idle then some (s.set s.lc t .loading) else none
  | .load t => if s.pc t = .loading then some (s.set s.lc t (.trying s.lc)) else none
  | .attempt t spurious =>
    match s.pc t with
    | .trying old =>
      -- with the flag set the attempt is a load, else an exchange
      if old &&& wFlag = 0 ∧ s.lc = old ∧ spurious = false then some (s.set (old + 1) t .shared)
      else some (s.set s.lc t (.trying s.lc))
    | _ => none
  | .unlockShared t => if s.pc t = .shared then some (s.set (s.lc - 1) t .idle) else none

/-- The threads that hold the shared lock. -/
def St.readers (s : St T) : Set T := parties (· = .shared) s.pc

/-- The flag is this thread's. -/
def Pc.Claims (pc : Pc) : Prop := pc = .draining ∨ pc = .exclusive

/-- Nobody becomes a reader when there are `2 ^ 31 - 2` already. -/
def Room (s : St T) : Act T → Prop
  | .attempt .. => s.readers.ncard < 2 ^ 31 - 2
  | _ => True

/-! ## The word as a count and a flag -/

def word (n : Nat) (b : Bool) : Word := BitVec.ofNat 32 (n + if b then 2 ^ 31 else 0)

section Words
variable {n : Nat} {b : Bool}

theorem word_toNat (hn : n < 2 ^ 31) (b : Bool) :
    (word n b).toNat = n + if b then 2 ^ 31 else 0 := by
  rw [word, BitVec.toNat_ofNat]
  split <;> omega

theorem word_and_mask (hn : n < 2 ^ 31) (b : Bool) : (word n b &&& wMask).toNat = n := by
  have hm : wMask.toNat = 2 ^ 31 - 1 := rfl
  rw [BitVec.toNat_and, word_toNat hn, hm, Nat.and_two_pow_sub_one_eq_mod]
  split <;> omega

theorem wFlag_toNat : wFlag.toNat = 2 ^ 31 := rfl

theorem word_and_flag (hn : n < 2 ^ 31) : word n b &&& wFlag = 0 ↔ b = false := by
  rw [← BitVec.toNat_inj, BitVec.toNat_and, word_toNat hn, wFlag_toNat, Nat.and_two_pow]
  have hlow : n.testBit 31 = false := Nat.testBit_lt_two_pow hn
  cases b with
  | false => simp [hlow]
  | true =>
    rw [if_pos rfl, Nat.add_comm n, Nat.testBit_two_pow_add_eq, hlow]
    simp

theorem word_or_flag (hn : n < 2 ^ 31) (b : Bool) : word n b ||| wFlag = word n true := by
  rw [← BitVec.toNat_inj, BitVec.toNat_or, word_toNat hn, word_toNat hn, wFlag_toNat]
  cases b with
  | false => exact Nat.or_two_pow_eq_add_of_lt hn
  | true =>
    have h : n + 2 ^ 31 = n ||| 2 ^ 31 := (Nat.or_two_pow_eq_add_of_lt hn).symm
    rw [if_pos rfl, h, Nat.or_assoc, Nat.or_self]

theorem word_eq_zero (hn : n < 2 ^ 31) : word n b = 0 ↔ n = 0 ∧ b = false := by
  rw [← BitVec.toNat_inj, word_toNat hn]
  cases b <;> simp

theorem word_succ (n : Nat) (b : Bool) : word n b + 1 = word (n + 1) b := by
  rw [word, word, Def.ofNat_add_one, Nat.add_right_comm]

theorem word_pred (n : Nat) (b : Bool) : word (n + 1) b - 1 = word n b := by
  rw [← word_succ, BitVec.add_sub_cancel]

end Words

/-! ## Readers and writers exclude one another -/

/-- The flag is up exactly while one thread claims it, and readers are counted below
it. -/
structure Inv (s : St T) : Prop where
  finite : s.readers.Finite
  few : s.readers.ncard < 2 ^ 31
  lc : ∃ b, s.lc = word s.readers.ncard b ∧ (b = true ↔ ∃ t, (s.pc t).Claims)
  one : ∀ t u, (s.pc t).Claims → (s.pc u).Claims → t = u
  alone : ∀ t, s.pc t = .exclusive → s.readers.ncard = 0

section Steps
variable {s s' : St T} {t u : T} {pc : Pc}

theorem Inv.init : Inv (St.init T) := by
  have h0 : (St.init T).readers = ∅ := by
    ext t
    exact ⟨nofun, False.elim⟩
  refine ⟨by rw [h0]; exact Set.finite_empty, ?_, ⟨false, ?_, ?_⟩, fun t u h => ?_, nofun⟩
  · rw [h0, Set.ncard_empty]; exact Nat.two_pow_pos 31
  · rw [h0, Set.ncard_empty]; rfl
  · exact ⟨nofun, fun ⟨t, h⟩ => (h.elim nofun nofun)⟩
  · exact h.elim nofun nofun

variable [DecidableEq T]

/-- A step of a thread that neither takes nor gives anything. -/
theorem Inv.move (hi : Inv s) (hs : s.pc t = .shared ↔ pc = .shared)
    (hc : (s.pc t).Claims ↔ pc.Claims) (hx : pc = .exclusive → s.readers.ncard = 0) :
    Inv (s.set s.lc t pc) := by
  have hr : (s.set s.lc t pc).readers = s.readers := parties_same hs
  have hcl : ∀ u, ((s.set s.lc t pc).pc u).Claims ↔ (s.pc u).Claims := fun u =>
    Set.ext_iff.mp (parties_same hc) u
  refine ⟨hr ▸ hi.finite, hr ▸ hi.few, ?_, fun u v hu hv => ?_, fun u hu => ?_⟩
  · obtain ⟨b, hb, hbc⟩ := hi.lc
    exact ⟨b, by rw [hr]; exact hb, by rw [hbc]; simp only [hcl]⟩
  · exact hi.one u v ((hcl u).mp hu) ((hcl v).mp hv)
  · rw [hr]
    by_cases he : u = t
    · subst he
      exact hx (by simpa [St.set] using hu)
    · exact hi.alone u (by simpa [St.set, Function.update_of_ne he] using hu)

/-- The flag goes up: nobody had it. -/
theorem Inv.claim (hi : Inv s) (hlc : s.lc &&& wFlag = 0) (ht : s.pc t = .claiming)
    (hc : pc.Claims) (hx : pc = .exclusive → s.readers.ncard = 0) :
    Inv (s.set (s.lc ||| wFlag) t pc) := by
  obtain ⟨b, hb, hbc⟩ := hi.lc
  rw [hb, word_and_flag hi.few] at hlc
  have hnone : ∀ u, ¬ (s.pc u).Claims := fun u hu => by
    rw [hlc] at hbc
    exact absurd (hbc.mpr ⟨u, hu⟩) nofun
  have hne : pc ≠ .shared := fun he => by rw [he] at hc; exact hc.elim nofun nofun
  have hr : (s.set (s.lc ||| wFlag) t pc).readers = s.readers :=
    parties_same (show s.pc t = .shared ↔ pc = .shared by simp [ht, hne])
  have hself : ∀ u, ((s.set (s.lc ||| wFlag) t pc).pc u).Claims → u = t := fun u hu => by
    by_contra he
    exact hnone u (by simpa only [St.set, Function.update_of_ne he] using hu)
  refine ⟨hr ▸ hi.finite, hr ▸ hi.few, ⟨true, ?_, ?_⟩, fun u v hu hv => ?_, fun u hu => ?_⟩
  · rw [hr, ← word_or_flag hi.few b, ← hb]
    rfl
  · exact ⟨fun _ => ⟨t, by simpa [St.set] using hc⟩, fun _ => rfl⟩
  · rw [hself u hu, hself v hv]
  · rw [hr]
    have he : u = t := hself u (by rw [hu]; exact .inr rfl)
    subst he
    exact hx (by simpa [St.set] using hu)

/-- The holder of the flag, who is alone, stores 0. -/
theorem Inv.unlock (hi : Inv s) (ht : s.pc t = .exclusive) : Inv (s.set 0 t .idle) := by
  have hr : (s.set 0 t .idle).readers = s.readers :=
    parties_same (show s.pc t = .shared ↔ Pc.idle = .shared by simp [ht])
  have hnone : ∀ u, ¬ ((s.set 0 t .idle).pc u).Claims := fun u hu => by
    obtain ⟨hne, hu⟩ := of_update hu fun h => h.elim nofun nofun
    exact hne (hi.one u t hu (by rw [ht]; exact .inr rfl))
  refine ⟨hr ▸ hi.finite, hr ▸ hi.few, ⟨false, ?_, ?_⟩, fun u v hu => absurd hu (hnone u),
    fun u hu => absurd (.inr hu) (hnone u)⟩
  · rw [hr, hi.alone t ht]
    rfl
  · exact ⟨nofun, fun ⟨u, hu⟩ => absurd hu (hnone u)⟩

/-- The exchange of a reader finds no flag, so no writer is there. -/
theorem Inv.join (hi : Inv s) {old : Word} (ht : s.pc t = .trying old) (hold : old &&& wFlag = 0)
    (hlc : s.lc = old) (hroom : s.readers.ncard < 2 ^ 31 - 2) : Inv (s.set (old + 1) t .shared) := by
  obtain ⟨b, hb, hbc⟩ := hi.lc
  rw [← hlc, hb, word_and_flag hi.few] at hold
  subst hold
  have hn : (s.set (old + 1) t .shared).readers.ncard = s.readers.ncard + 1 :=
    ncard_enter hi.finite (by simp [ht]) rfl
  have hnone : ∀ u, ¬ ((s.set (old + 1) t .shared).pc u).Claims := fun u hu => by
    obtain ⟨-, hu⟩ := of_update hu fun h => h.elim nofun nofun
    exact absurd (hbc.mpr ⟨u, hu⟩) nofun
  refine ⟨finite_update hi.finite t _, by omega, ⟨false, ?_, ?_⟩,
    fun u v hu => absurd hu (hnone u), fun u hu => absurd (.inr hu) (hnone u)⟩
  · rw [hn, ← word_succ, ← hb, hlc]
    rfl
  · exact ⟨nofun, fun ⟨u, hu⟩ => absurd hu (hnone u)⟩

theorem Inv.leave (hi : Inv s) (ht : s.pc t = .shared) : Inv (s.set (s.lc - 1) t .idle) := by
  obtain ⟨b, hb, hbc⟩ := hi.lc
  have hn : (s.set (s.lc - 1) t .idle).readers.ncard + 1 = s.readers.ncard :=
    ncard_leave hi.finite ht nofun
  have hcl : ∀ u, ((s.set (s.lc - 1) t .idle).pc u).Claims ↔ (s.pc u).Claims := fun u =>
    Set.ext_iff.mp (parties_same (P := Pc.Claims) (by simp [ht, Pc.Claims])) u
  have hfew := hi.few
  refine ⟨finite_update hi.finite t _, by omega, ⟨b, ?_, by rw [hbc]; simp only [hcl]⟩,
    fun u v hu hv => hi.one u v ((hcl u).mp hu) ((hcl v).mp hv), fun u hu => ?_⟩
  · exact Eq.symm <| calc
      word (s.set (s.lc - 1) t .idle).readers.ncard b
        = word ((s.set (s.lc - 1) t .idle).readers.ncard + 1) b - 1 := (word_pred _ b).symm
      _ = s.lc - 1 := by rw [hn, hb]
  · have := hi.alone u (of_update_eq hu nofun).2
    omega

omit [DecidableEq T] in
theorem Inv.readers_of_zero (hi : Inv s) (h : s.lc = 0) : s.readers.ncard = 0 := by
  obtain ⟨b, hb, -⟩ := hi.lc
  rw [hb, word_eq_zero hi.few] at h
  exact h.1

omit [DecidableEq T] in
theorem Inv.readers_of_mask (hi : Inv s) (h : s.lc &&& wMask = 0) : s.readers.ncard = 0 := by
  obtain ⟨b, hb, -⟩ := hi.lc
  rw [← word_and_mask hi.few b, ← hb, h]
  rfl

omit [DecidableEq T] in
theorem Inv.flag_idem (hi : Inv s) (h : s.lc &&& wFlag ≠ 0) : s.lc ||| wFlag = s.lc := by
  obtain ⟨b, hb, -⟩ := hi.lc
  rw [hb, Ne, word_and_flag hi.few, Bool.not_eq_false] at h
  rw [hb, word_or_flag hi.few, h]

theorem Inv.step {a : Act T} (hi : Inv s) (hroom : Room s a) (h : RwLock.step s a = some s') :
    Inv s' := by
  cases a with
  | lock t | lockShared t | load t =>
    obtain ⟨ht, he⟩ := Option.ite_none_right_eq_some.mp h
    cases he
    exact hi.move (by simp [ht]) (by simp [ht, Pc.Claims]) nofun
  | fetchOr t =>
    obtain ⟨ht, he⟩ := Option.ite_none_right_eq_some.mp h
    cases he
    split
    · rename_i h0
      refine hi.claim (by rw [h0]; rfl) ht (.inr rfl) fun _ => hi.readers_of_zero h0
    · split
      · rename_i hf
        exact hi.claim hf ht (.inl rfl) nofun
      · rename_i hf
        rw [hi.flag_idem hf]
        exact hi.move (by simp [ht]) (by simp [ht]) nofun
  | drain t =>
    obtain ⟨ht, he⟩ := Option.ite_none_right_eq_some.mp h
    cases he
    split
    · exact hi.move (by simp [ht]) (by simp [ht]) nofun
    · rename_i hm
      exact hi.move (by simp [ht]) (by simp [ht, Pc.Claims]) fun _ =>
        hi.readers_of_mask (not_not.mp hm)
  | unlock t =>
    obtain ⟨ht, he⟩ := Option.ite_none_right_eq_some.mp h
    cases he
    exact hi.unlock ht
  | attempt t spurious =>
    simp only [RwLock.step] at h
    split at h
    · rename_i old ht
      split at h
      · rename_i ho
        cases h
        exact hi.join ht ho.1 ho.2.1 hroom
      · cases h
        exact hi.move (by simp [ht]) (by simp [ht, Pc.Claims]) nofun
    · cases h
  | unlockShared t =>
    obtain ⟨ht, he⟩ := Option.ite_none_right_eq_some.mp h
    cases he
    exact hi.leave ht

end Steps

/-! ## Exclusion in every run -/

/-- What the lock promises: an exclusive section excludes every other section, the low
bits count the readers, and the store of 0 in `unlock` takes away its own flag only. -/
structure Excludes (s : St T) : Prop where
  section_alone : ∀ t, s.pc t = .exclusive → ∀ u, u ≠ t →
    s.pc u ≠ .exclusive ∧ s.pc u ≠ .shared
  count : (s.lc &&& wMask).toNat = s.readers.ncard
  own_flag : ∀ t, s.pc t = .exclusive →
    s.lc = wFlag ∧ s.readers = ∅ ∧ ∀ u, u ≠ t → ¬ (s.pc u).Claims

theorem Inv.excludes {s : St T} (hi : Inv s) : Excludes s := by
  obtain ⟨b, hb, hbc⟩ := hi.lc
  have hempty : ∀ t, s.pc t = .exclusive → s.readers = ∅ := fun t ht =>
    (Set.ncard_eq_zero hi.finite).mp (hi.alone t ht)
  have hothers : ∀ t, s.pc t = .exclusive → ∀ u, u ≠ t → ¬ (s.pc u).Claims := fun t ht u hne hu =>
    hne (hi.one u t hu (.inr ht))
  refine ⟨fun t ht u hne => ⟨fun hu => hothers t ht u hne (.inr hu), fun hu => ?_⟩, ?_, fun t ht =>
    ⟨?_, hempty t ht, hothers t ht⟩⟩
  · have : u ∈ s.readers := hu
    rw [hempty t ht] at this
    exact this
  · rw [hb, word_and_mask hi.few]
  · rw [hb, hi.alone t ht, hbc.mpr ⟨t, .inr ht⟩]
    rfl

/-- With at most `2 ^ 31 - 2` readers at a time. -/
theorem excludes_of_run [DecidableEq T] {acts : List (Act T)} {s : St T}
    (hr : run step (.init T) acts = some s) (hroom : Meets step Room (.init T) acts) : Excludes s :=
  (run_invariant (fun _ _ _ hi hg h => hi.step hg h) Inv.init hr hroom).excludes

/-- Fewer threads than that always have room. -/
theorem room_of_card [Fintype T] (h : Fintype.card T < 2 ^ 31 - 2) (s : St T) (a : Act T) :
    Room s a := by
  cases a with
  | attempt t spurious =>
    have : s.readers.ncard ≤ Fintype.card T := by
      rw [← Nat.card_eq_fintype_card, ← Set.ncard_univ]
      exact Set.ncard_le_ncard (Set.subset_univ _)
    exact Nat.lt_of_le_of_lt this h
  | lock | fetchOr | drain | unlock | lockShared | load | unlockShared => trivial

-- for the numerals in the runs below
local instance neZero_three : NeZero 3 := ⟨by decide⟩

/-- A writer waits for a reader, while another writer sets the flag again. -/
def waits : List (Act (Fin 3)) :=
  [.lockShared 0, .load 0, .attempt 0 false, .lock 1, .fetchOr 1, .lock 2, .fetchOr 2, .drain 1,
    .unlockShared 0, .drain 1]

theorem excludes_waits : ∃ s, run step (.init (Fin 3)) waits = some s ∧ s.pc 1 = .exclusive ∧
    Excludes s := by
  have hs : ((run step (.init (Fin 3)) waits).map fun s => s.pc 1) = some .exclusive := by
    decide +kernel
  obtain ⟨s, hr, hpc⟩ := Option.map_eq_some_iff.mp hs
  exact ⟨s, hr, hpc, excludes_of_run hr <| Lib.Runs.meets_of_invariant (P := fun _ => True)
    (fun s _ a _ => room_of_card (by decide) s a) (fun _ _ _ _ _ _ => trivial) trivial⟩

end CppIpc.RwLock
