import CppIpc.IdPool
import CppIpc.Lib.Runs
import Mathlib.Data.Set.Insert

/-! # The pool as a set of free ids

What a caller sees of an `id_pool` is a set from which `acquire` takes some id
and to which `release` gives one back. The links of the ids that are out keep
what they held; the chain through the others is what the set is refined to. -/
namespace CppIpc.FreeIds
open CppIpc.IdPool CppIpc.Lib.FreeList CppIpc.Lib.Runs

inductive Call where
  | prepare
  | acquire
  | release (id : Nat)
  deriving DecidableEq, Repr

/-- One call on the set `F` of free ids. Only `acquire` returns something. -/
inductive FreeStep : Set Nat → Call → Int → Set Nat → Prop
  | prepare (F : Set Nat) (r : Int) : FreeStep F .prepare r F
  | exhausted : FreeStep ∅ .acquire (-1) ∅
  | acquire {F : Set Nat} {i : Nat} (h : i ∈ F) : FreeStep F .acquire i (F \ {i})
  | release {F : Set Nat} {i : Nat} (r : Int) (h : i ∉ F) : FreeStep F (.release i) r (insert i F)

/-- A pool with what its callers know: whether it has been prepared, the ids that
are out, and the result of the last `acquire`. -/
structure Use where
  pool : Pool
  ready : Bool
  out : List Nat
  result : Int

def Use.init : Use := ⟨Pool.zero, false, [], -1⟩

/-- Callers prepare the pool first and release only what they have acquired. -/
def step (s : Use) : Call → Option Use
  | .prepare => some { s with pool := s.pool.prepare, ready := true }
  | .acquire =>
    if s.ready then
      let r := s.pool.acquire
      some { s with
        pool := r.2, out := if r.1 < 0 then s.out else r.1.toNat :: s.out, result := r.1 }
    else none
  | .release id =>
    if id ∈ s.out then some { s with pool := s.pool.release id, out := s.out.erase id } else none

def Use.free (s : Use) : Set Nat := {i | i < maxCount ∧ i ∉ s.out}

structure Inv (s : Use) : Prop where
  nodup : s.out.Nodup
  lt : ∀ i ∈ s.out, i < maxCount
  fresh : s.ready = false → s.pool = Pool.zero ∧ s.out = []
  chain : s.ready = true →
    s.pool.prepared = true ∧ ∃ l, s.pool.Sound l ∧ ∀ i, i ∈ l ↔ i ∈ s.free

theorem Inv.init : Inv Use.init where
  nodup := List.nodup_nil
  lt _ h := absurd h List.not_mem_nil
  fresh _ := ⟨rfl, rfl⟩
  chain h := nomatch h

/-! ## What each call does -/

variable {s t : Use}

theorem acquire_prepared {p : Pool} (h : p.prepared = true) : p.acquire.2.prepared = true := by
  unfold Pool.acquire
  split
  · exact h
  · exact h

theorem release_prepared {p : Pool} (h : p.prepared = true) (id : Int) :
    (p.release id).prepared = true := by
  unfold Pool.release
  split
  · exact h
  · exact h

theorem zero_prepare_sound : Pool.zero.prepare.Sound (List.range' 0 maxCount) := by
  have h := Pool.zero_sound
  unfold Pool.Sound at h ⊢
  rwa [Pool.prepare_eq (p := Pool.zero.prepare) rfl]

/-- The ids that are out are on no link of the chain, so that the two add up. -/
theorem Inv.length_add (h : Inv s) {l : List Nat} (hl : s.pool.Sound l)
    (hm : ∀ i, i ∈ l ↔ i ∈ s.free) : l.length + s.out.length = maxCount := by
  have hdis : ∀ i ∈ l, ∀ j ∈ s.out, i ≠ j := by
    rintro i hi j hj rfl
    exact ((hm i).mp hi).2 hj
  have hperm : (l ++ s.out).Perm (List.range maxCount) := by
    apply (List.perm_ext_iff_of_nodup (List.nodup_append.mpr ⟨hl.2, h.nodup, hdis⟩)
      List.nodup_range).mpr
    intro i
    rw [List.mem_append, List.mem_range, hm]
    constructor
    · rintro (hi | hi)
      · exact hi.1
      · exact h.lt i hi
    · intro hi
      by_cases ho : i ∈ s.out
      · exact .inr ho
      · exact .inl ⟨hi, ho⟩
  have hlen := hperm.length_eq
  rwa [List.length_append, List.length_range] at hlen

/-- What `acquire` does to a pool that has been prepared. -/
theorem Inv.acquire_cases (h : Inv s) (hr : s.ready = true) :
    (s.pool.acquire = (-1, s.pool) ∧ s.out.length = maxCount ∧ s.free = ∅) ∨
    ∃ (i : Nat) (r : List Nat), s.pool.acquire.1 = i ∧ i ∈ s.free ∧ s.out.length ≠ maxCount ∧
      s.pool.acquire.2.Sound r ∧ ∀ j, j ∈ r ↔ j ∈ s.free ∧ j ≠ i := by
  obtain ⟨hp, l, hl, hm⟩ := h.chain hr
  have hlen := h.length_add hl hm
  have hacq := hl.acquire
  rw [Pool.prepare_eq hp] at hacq
  rcases hacq with ⟨rfl, he⟩ | ⟨i, r, rfl, he, hs⟩
  · refine .inl ⟨he, by simpa using hlen, ?_⟩
    ext i
    simp [← hm]
  · have hi : i ∈ s.free := (hm i).mp (by simp)
    rw [List.length_cons] at hlen
    refine .inr ⟨i, r, he, hi, by omega, hs, fun j => ?_⟩
    rw [← hm, List.mem_cons]
    have hnot : i ∉ r := (List.nodup_cons.mp hl.2).1
    constructor
    · intro hj
      exact ⟨.inr hj, fun he => hnot (he ▸ hj)⟩
    · rintro ⟨rfl | hj, hne⟩
      · exact absurd rfl hne
      · exact hj

theorem step_prepare (h : step s .prepare = some t) :
    t = { s with pool := s.pool.prepare, ready := true } := (Option.some.inj h).symm

theorem step_acquire (hi : Inv s) (h : step s .acquire = some t) : s.ready = true ∧
    ((t = { s with result := -1 } ∧ s.free = ∅) ∨ ∃ (i : Nat) (r : List Nat),
      t = { s with pool := s.pool.acquire.2, out := i :: s.out, result := i } ∧ i ∈ s.free ∧
        t.pool.Sound r ∧ ∀ j, j ∈ r ↔ j ∈ s.free ∧ j ≠ i) := by
  simp only [step] at h
  split at h
  next hr =>
    refine ⟨hr, ?_⟩
    rcases hi.acquire_cases hr with ⟨he, -, hf⟩ | ⟨i, r, he, hfree, -, hs, hm⟩
    · rw [he] at h
      exact .inl ⟨(Option.some.inj h).symm, hf⟩
    · have hneg : ¬(i : Int) < 0 := by omega
      rw [he, if_neg hneg, Int.toNat_natCast] at h
      cases h
      exact .inr ⟨i, r, rfl, hfree, hs, hm⟩
  next => cases h

theorem step_release {id : Nat} (h : step s (.release id) = some t) : id ∈ s.out ∧
    t = { s with pool := s.pool.release id, out := s.out.erase id } := by
  simp only [step] at h
  split at h
  next hm => exact ⟨hm, (Option.some.inj h).symm⟩
  next => cases h

/-- The links of a pool that has handed out an id are those of one in use. -/
theorem Inv.ready_of_out (h : Inv s) {i : Nat} (hi : i ∈ s.out) : s.ready = true := by
  cases hr : s.ready with
  | true => rfl
  | false =>
    rw [(h.fresh hr).2] at hi
    cases hi

/-! ## The refinement -/

theorem free_cons (s : Use) (p : Pool) (i : Nat) (r : Int) :
    Use.free { s with pool := p, out := i :: s.out, result := r } = s.free \ {i} := by
  ext j
  simp [Use.free, not_or, and_comm, and_left_comm]

theorem free_erase (h : Inv s) {i : Nat} (hi : i ∈ s.out) (p : Pool) :
    Use.free { s with pool := p, out := s.out.erase i } = insert i s.free := by
  ext j
  have hm := h.nodup.mem_erase_iff (a := j) (b := i)
  simp only [Use.free, Set.mem_ofPred_eq, Set.mem_insert_iff, hm]
  constructor
  · rintro ⟨hlt, hn⟩
    by_cases hj : j = i
    · exact .inl hj
    · exact .inr ⟨hlt, fun ho => hn ⟨hj, ho⟩⟩
  · rintro (rfl | ⟨hlt, ho⟩)
    · exact ⟨h.lt j hi, fun hn => hn.1 rfl⟩
    · exact ⟨hlt, fun hn => ho hn.2⟩

theorem Inv.step (h : Inv s) {c : Call} (hs : step s c = some t) : Inv t := by
  cases c with
  | prepare =>
    have ht := step_prepare hs
    subst ht
    refine ⟨h.nodup, h.lt, (fun h => nomatch h), fun _ => ⟨rfl, ?_⟩⟩
    cases hr : s.ready with
    | true =>
      obtain ⟨hp, l, hl, hm⟩ := h.chain hr
      exact ⟨l, by rwa [Pool.prepare_eq hp], hm⟩
    | false =>
      obtain ⟨hz, ho⟩ := h.fresh hr
      refine ⟨List.range' 0 maxCount, by rw [hz]; exact zero_prepare_sound, fun i => ?_⟩
      simp [Use.free, ho]
  | acquire =>
    obtain ⟨hr, ⟨rfl, -⟩ | ⟨i, r, rfl, hi, hs, hm⟩⟩ := step_acquire h hs
    · exact ⟨h.nodup, h.lt, h.fresh, h.chain⟩
    · refine ⟨List.nodup_cons.mpr ⟨hi.2, h.nodup⟩, List.forall_mem_cons.mpr ⟨hi.1, h.lt⟩,
        fun hn => ?_, fun _ => ⟨acquire_prepared (h.chain hr).1, r, hs, fun j => ?_⟩⟩
      · rw [show s.ready = false from hn] at hr
        cases hr
      · rw [free_cons, hm]
        rfl
  | release id =>
    obtain ⟨hid, rfl⟩ := step_release hs
    have hr := h.ready_of_out hid
    obtain ⟨hp, l, hl, hm⟩ := h.chain hr
    have hnot : id ∉ l := fun hl => ((hm id).mp hl).2 hid
    refine ⟨h.nodup.erase id, fun i hi => h.lt i (List.mem_of_mem_erase hi), fun hn => ?_,
      fun _ => ⟨release_prepared hp id, id :: l, hl.release hp hnot (h.lt id hid), fun j => ?_⟩⟩
    · rw [show s.ready = false from hn] at hr
      cases hr
    · rw [free_erase h hid, List.mem_cons, hm]
      rfl

theorem Inv.refines (h : Inv s) {c : Call} (hs : FreeIds.step s c = some t) :
    FreeStep s.free c t.result t.free := by
  cases c with
  | prepare =>
    have ht := step_prepare hs
    subst ht
    exact .prepare _ _
  | acquire =>
    obtain ⟨-, ⟨rfl, hf⟩ | ⟨i, r, rfl, hi, -, -⟩⟩ := step_acquire h hs
    · have hf' : Use.free { s with result := -1 } = ∅ := hf
      rw [hf, hf']
      exact .exhausted
    · rw [free_cons]
      exact .acquire hi
  | release id =>
    obtain ⟨hid, rfl⟩ := step_release hs
    rw [free_erase h hid]
    exact .release _ fun hf => hf.2 hid

/-- What a pool in use does for its callers. -/
structure Serving (s : Use) : Prop where
  chain : ∃ l, Links maxCount s.pool.next s.pool.cursor l ∧ l.Nodup ∧ ∀ i, i ∈ l ↔ i ∈ s.free
  exhausted : s.pool.acquire.1 = -1 ↔ s.out.length = maxCount
  grants : s.out.length ≠ maxCount → ∃ i : Nat, s.pool.acquire.1 = i ∧ i < maxCount ∧ i ∉ s.out
  again : ∀ i ∈ s.out, (s.pool.release i).acquire.1 = i
  quiet : s.pool.prepare = s.pool

theorem Inv.serving (h : Inv s) (hr : s.ready = true) : Serving s := by
  obtain ⟨hp, l, hl, hm⟩ := h.chain hr
  have hquiet := Pool.prepare_eq hp
  refine ⟨⟨l, by rw [← hquiet]; exact hl.1, hl.2, hm⟩, ?_, ?_, fun i hi => ?_, hquiet⟩
  · rcases h.acquire_cases hr with ⟨he, hn, -⟩ | ⟨i, r, he, -, hn, -⟩
    · rw [he]
      exact ⟨fun _ => hn, fun _ => rfl⟩
    · rw [he]
      exact ⟨fun hneg => absurd hneg (by omega), fun hf => absurd hf hn⟩
  · intro hn
    rcases h.acquire_cases hr with ⟨-, hf, -⟩ | ⟨i, r, he, hi, -⟩
    · exact absurd hf hn
    · exact ⟨i, he, hi.1, hi.2⟩
  · have hneg : ¬(i : Int) < 0 := by omega
    have hlt := h.lt i hi
    have hne : ¬i = maxCount := by omega
    simp [Pool.release, hneg, Pool.acquire, hne]

theorem inv_of_run {cs : List Call} (hr : run step .init cs = some s) : Inv s :=
  run_invariant' (fun _ _ _ h hs => h.step hs) Inv.init hr

/-- The first call of a run cannot be any other. -/
theorem ready_of_run {cs : List Call} (hr : run step .init cs = some s) (hne : cs ≠ []) :
    s.ready = true := by
  obtain ⟨c, cs, rfl⟩ := List.exists_cons_of_ne_nil hne
  obtain ⟨u, hu, hr⟩ := run_cons hr
  have hready : u.ready = true := by
    cases c with
    | prepare => rw [step_prepare hu]
    | acquire => cases hu
    | release id => cases hu
  refine run_invariant' (P := fun s => s.ready = true) (fun a c b ha hs => ?_) hready hr
  cases c with
  | prepare => rw [step_prepare hs]
  | acquire =>
    simp only [step, if_pos ha] at hs
    cases hs
    exact ha
  | release id =>
    obtain ⟨-, rfl⟩ := step_release hs
    exact ha

/-- From zero-filled memory on the pool refines a set of free ids. -/
theorem refines_free_ids (cs : List Call) (hr : run step .init cs = some s) :
    (cs ≠ [] → Serving s) ∧
      ∀ c t, FreeIds.step s c = some t → FreeStep s.free c t.result t.free :=
  ⟨fun hne => (inv_of_run hr).serving (ready_of_run hr hne),
    fun _ _ hs => (inv_of_run hr).refines hs⟩

theorem refines_free_ids_sample :
    ∃ s, run step .init [.prepare, .acquire, .acquire, .release 0] = some s ∧ s.out = [1] ∧
      Serving s := by
  have hs : (run step .init [.prepare, .acquire, .acquire, .release 0]).map Use.out =
      some [1] := by decide +kernel
  obtain ⟨s, hr, ho⟩ := Option.map_eq_some_iff.mp hs
  exact ⟨s, hr, ho, (refines_free_ids _ hr).1 (by decide)⟩

end CppIpc.FreeIds
