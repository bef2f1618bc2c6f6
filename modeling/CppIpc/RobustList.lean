import CppIpc.RobustExclusion

/-! # The list that a thread leaves to the kernel

Each thread keeps the mutexes it has on a ring behind its `a0_robust_head`; one that is
being put on it or taken off it is in `list_op_pending` meanwhile. The ring is correct
from every single write to the next, so wherever the thread dies the kernel finds every
word that it is in. -/
namespace CppIpc.RobustMutex
open CppIpc.Lib.Rings

variable {T M : Type}

def nodes (L : List M) : List (Ptr T M) := L.map Ptr.mtx

/-- The mutex that `t` has although it is not on the list. -/
def Pc.floating : Pc T M → Option M
  | .lockCheck m | .addPrev m _ | .addNext m .. | .addHead m .. | .delPrev m ..
  | .unlockCas m _ | .unlockPi m _ => some m
  | _ => none

/-- The mutex between `robust_op_start` and `robust_op_end`. -/
def Pc.pends : Pc T M → Option M
  | .lockLoad m | .lockCas m | .lockPi m | .lockCheck m | .tryCas m | .tryPi m | .tryCheck m
  | .addPrev m _ | .addNext m .. | .addHead m .. | .addBack m .. | .delNext m _ | .delPrev m ..
  | .unlockCas m _ | .unlockPi m _ | .unlockOr m => some m
  | _ => none

/-- Before any `robust_op_start`. -/
def Pc.Early : Pc T M → Prop
  | .idle | .lockStart _ | .tryStart _ | .consistentLoad _ | .consistentAnd _ | .unlockLoad _
  | .unlockStart .. => True
  | _ => False

/-- What a call found to be the caller's. -/
def Pc.Uses : Pc T M → Finset M → Prop
  | .unlockStart m _, h | .delNext m _, h | .consistentAnd m, h => m ∈ h
  | _, _ => True

/-- The links back, and what `robust_op_add` and `robust_op_del` have written of them. -/
def Pc.Back (next prev : Ptr T M → Ptr T M) (t : T) (L : List M) : Pc T M → Prop
  | .addNext m _ old =>
    Bwd prev (.head t) (nodes L) ∧ prev (.mtx m) = .head t ∧ old = next (.head t)
  | .addHead m _ old =>
    Bwd prev (.head t) (nodes L) ∧ prev (.mtx m) = .head t ∧ old = next (.head t) ∧
      next (.mtx m) = old
  | .addBack m _ old => ∃ x l, L = m :: x :: l ∧ old = .mtx x ∧ prev (.mtx m) = .head t ∧
    Bwd prev (.head t) (nodes (x :: l))
  | .delPrev _ _ p q => ∃ l x r, L = l ++ x :: r ∧ q = .mtx x ∧
    p = (nodes l).getLastD (.head t) ∧ Bwd prev (.head t) (nodes l) ∧ Bwd prev (.mtx x) (nodes r)
  | _ => Bwd prev (.head t) (nodes L)

structure Listed (s : St T M) (t : T) (L : List M) : Prop where
  fwd : Fwd s.next (.head t) (nodes L) (.head t)
  nodup : L.Nodup
  mem : ∀ m, m ∈ s.holds t ↔ m ∈ L ∨ (s.pc t).floating = some m
  apart : ∀ m, (s.pc t).floating = some m → m ∉ L
  pend : ∀ m, (s.pc t).pends = some m → s.pending t = some m
  back : (s.pc t).Back s.next s.prev t L

/-- A thread is gone, or has not registered a list, or its list is correct. -/
inductive Roster (s : St T M) (t : T) : Prop where
  | gone (pc : s.pc t = .dead)
  | fresh (init : s.robustInit t = false) (holds : s.holds t = ∅) (pc : (s.pc t).Early)
  | listed (init : s.robustInit t = true) (alive : s.pc t ≠ .dead) (L : List M)
    (list : Listed s t L)

/-! ## Nodes -/

section Nodes
variable {L l r : List M} {m x : M} {t : T}

@[simp] theorem mem_nodes : (Ptr.mtx m : Ptr T M) ∈ nodes L ↔ m ∈ L := by
  simp [nodes]

@[simp] theorem head_notMem_nodes : (Ptr.head t : Ptr T M) ∉ nodes L := by
  simp [nodes]

theorem nodes_cons : (nodes (m :: L) : List (Ptr T M)) = .mtx m :: nodes L := rfl

theorem nodes_append : (nodes (l ++ r) : List (Ptr T M)) = nodes l ++ nodes r :=
  List.map_append

theorem nodes_nodup (h : L.Nodup) (t : T) : ((Ptr.head t : Ptr T M) :: nodes L).Nodup := by
  refine List.nodup_cons.mpr ⟨head_notMem_nodes, h.map fun a b he => ?_⟩
  cases he
  rfl

theorem mtx_notMem (h : m ∉ L) : (Ptr.mtx m : Ptr T M) ∉ (Ptr.head t : Ptr T M) :: nodes L := by
  simp [h]

end Nodes

/-! ## What is whose -/

/-- The links that `t` may write. -/
def Area (s : St T M) (t : T) (p : Ptr T M) : Prop := p = .head t ∨ ∃ m ∈ s.holds t, p = .mtx m

section Frames
variable {K : Tids T} {s u : St T M} {t b : T} {L : List M} {m : M} {p : Ptr T M}

theorem Listed.area (hl : Listed s t L) (hp : p ∈ (Ptr.head t : Ptr T M) :: nodes L) :
    Area s t p := by
  rcases List.mem_cons.mp hp with rfl | hp
  · exact .inl rfl
  · obtain ⟨m, hm, rfl⟩ := List.mem_map.mp hp
    exact .inr ⟨m, (hl.mem m).mpr (.inl hm), rfl⟩

theorem Listed.area_floating (hl : Listed s t L) (hm : (s.pc t).floating = some m) :
    Area s t (.mtx m) := .inr ⟨m, (hl.mem m).mpr (.inr hm), rfl⟩

theorem area_apart (hi : Exclusive K s) (hb : b ≠ t) (hp : Area s t p) : ¬ Area s b p := by
  rintro (rfl | ⟨m, hm, rfl⟩)
  · rcases hp with he | ⟨m, -, he⟩
    · cases he
      exact hb rfl
    · cases he
  · rcases hp with he | ⟨x, hx, he⟩
    · cases he
    · cases he
      exact hb (hi.one hm hx)

/-- Where the links that `t` may write are the same, and so is `t`. -/
theorem Roster.frame (h : Roster s t) (hf : Frame s u t)
    (hn : ∀ p, Area s t p → u.next p = s.next p ∧ u.prev p = s.prev p) : Roster u t := by
  cases h with
  | gone pc => exact .gone (hf.pc.trans pc)
  | fresh init holds pc =>
    exact .fresh (hf.robustInit.trans init) (hf.holds.trans holds) (by rw [hf.pc]; exact pc)
  | listed init alive L hl =>
    refine .listed (hf.robustInit.trans init) (by rw [hf.pc]; exact alive) L ?_
    have hnodes : ∀ x ∈ L, u.prev (.mtx x) = s.prev (.mtx x) := fun x hx =>
      (hn _ (.inr ⟨x, (hl.mem x).mpr (.inl hx), rfl⟩)).2
    have hbwd : ∀ (a : Ptr T M) (l : List M), (∀ x ∈ l, x ∈ L) → Bwd s.prev a (nodes l) →
        Bwd u.prev a (nodes l) := fun a l hsub hb => by
      refine hb.congr fun p hp => ?_
      obtain ⟨x, hx, rfl⟩ := List.mem_map.mp hp
      exact hnodes x (hsub x hx)
    have hfloat : ∀ x, (s.pc t).floating = some x →
        u.next (.mtx x) = s.next (.mtx x) ∧ u.prev (.mtx x) = s.prev (.mtx x) := fun x hx =>
      hn _ (hl.area_floating hx)
    have hhead := hn _ (.inl rfl)
    refine ⟨hl.fwd.congr fun p hp => (hn p (hl.area hp)).1, hl.nodup, ?_, ?_, ?_, ?_⟩
    · rw [hf.holds, hf.pc]
      exact hl.mem
    · rw [hf.pc]
      exact hl.apart
    · rw [hf.pc, hf.pending]
      exact hl.pend
    · rw [hf.pc]
      have hback := hl.back
      cases hpc : s.pc t with
      | addNext m k old =>
        rw [hpc] at hback hfloat
        obtain ⟨hb, hp, ho⟩ := hback
        exact ⟨hbwd _ L (fun _ => id) hb, (hfloat m rfl).2.trans hp, ho.trans hhead.1.symm⟩
      | addHead m k old =>
        rw [hpc] at hback hfloat
        obtain ⟨hb, hp, ho, hm⟩ := hback
        exact ⟨hbwd _ L (fun _ => id) hb, (hfloat m rfl).2.trans hp, ho.trans hhead.1.symm,
          (hfloat m rfl).1.trans hm⟩
      | addBack m k old =>
        rw [hpc] at hback
        obtain ⟨x, l, rfl, ho, hp, hb⟩ := hback
        exact ⟨x, l, rfl, ho, (hnodes m List.mem_cons_self).trans hp,
          hbwd _ (x :: l) (fun y hy => List.mem_cons_of_mem m hy) hb⟩
      | delPrev m d p q =>
        rw [hpc] at hback
        obtain ⟨l, x, r, rfl, hq, hp, hl', hr⟩ := hback
        exact ⟨l, x, r, rfl, hq, hp, hbwd _ l (fun y hy => List.mem_append_left _ hy) hl',
          hbwd _ r (fun y hy => List.mem_append_right _ (List.mem_cons_of_mem x hy)) hr⟩
      | _ =>
        rw [hpc] at hback
        exact hbwd _ L (fun _ => id) hback

/-- A thread in the middle of a call has a correct list. -/
theorem Roster.get (h : Roster s t) (he : ¬ (s.pc t).Early) (ha : s.pc t ≠ .dead) :
    s.robustInit t = true ∧ ∃ L, Listed s t L := by
  cases h with
  | gone pc => exact absurd pc ha
  | fresh init holds pc => exact absurd pc he
  | listed init alive L hl => exact ⟨init, L, hl⟩

variable [DecidableEq T] [DecidableEq M]

theorem update_area {f : Ptr T M → Ptr T M} {q : Ptr T M} (ha : Area s t p) {x : Ptr T M}
    (hx : ¬ Area s t x) : Function.update f p q x = f x :=
  Function.update_of_ne (fun he : x = p => hx (by rwa [he])) _ _

theorem opStart_area (pc : Pc T M) (hp : ¬ Area s t p) :
    (s.opStart t m pc).next p = s.next p ∧ (s.opStart t m pc).prev p = s.prev p := by
  rw [St.opStart]
  split
  · exact ⟨rfl, rfl⟩
  · exact ⟨update_area (.inl rfl) hp, rfl⟩

/-- The links that a thread writes are its own. -/
theorem code_area (hr : Roster s t) (hu : (s.pc t).Uses (s.holds t)) (h : code K s t = some u)
    (hp : ¬ Area s t p) : u.next p = s.next p ∧ u.prev p = s.prev p := by
  cases hpc : s.pc t with
  | idle | lockPi | tryPi | unlockPi | dead => simp [code, hpc] at h
  | lockStart m | tryStart m | unlockStart m d =>
    simp only [code, hpc, Option.some.injEq] at h
    exact h ▸ opStart_area _ hp
  | lockCas m | unlockLoad m | unlockCas m d =>
    simp only [code, hpc, Option.some.injEq] at h
    subst h
    split
    · exact ⟨rfl, rfl⟩
    · exact ⟨rfl, rfl⟩
  | tryCas m =>
    simp only [code, hpc, Option.some.injEq] at h
    subst h
    split
    · exact ⟨rfl, rfl⟩
    · split
      · exact ⟨rfl, rfl⟩
      · split
        · exact ⟨rfl, rfl⟩
        · exact ⟨rfl, rfl⟩
  | consistentLoad m =>
    simp only [code, hpc, Option.some.injEq] at h
    subst h
    split
    · exact ⟨rfl, rfl⟩
    · split
      · exact ⟨rfl, rfl⟩
      · exact ⟨rfl, rfl⟩
  | lockLoad | lockCheck | tryCheck | opEnd | consistentAnd | unlockOr =>
    simp only [code, hpc, Option.some.injEq] at h
    subst h
    exact ⟨rfl, rfl⟩
  | addPrev m k =>
    obtain ⟨-, L, hl⟩ := hr.get (by simp [hpc, Pc.Early]) (by simp [hpc])
    simp only [code, hpc, Option.some.injEq] at h
    subst h
    exact ⟨rfl, update_area (hl.area_floating (by rw [hpc]; rfl)) hp⟩
  | addNext m k old =>
    obtain ⟨-, L, hl⟩ := hr.get (by simp [hpc, Pc.Early]) (by simp [hpc])
    simp only [code, hpc, Option.some.injEq] at h
    subst h
    exact ⟨update_area (hl.area_floating (by rw [hpc]; rfl)) hp, rfl⟩
  | addHead m k old =>
    simp only [code, hpc, Option.some.injEq] at h
    subst h
    exact ⟨update_area (.inl rfl) hp, rfl⟩
  | addBack m k old =>
    obtain ⟨-, L, hl⟩ := hr.get (by simp [hpc, Pc.Early]) (by simp [hpc])
    have hb := hl.back
    rw [hpc] at hb
    obtain ⟨x, l, rfl, rfl, -⟩ := hb
    simp only [code, hpc, Option.some.injEq] at h
    subst h
    exact ⟨rfl, update_area (hl.area (by simp)) hp⟩
  | delNext m d =>
    obtain ⟨-, L, hl⟩ := hr.get (by simp [hpc, Pc.Early]) (by simp [hpc])
    have hb : Bwd s.prev (.head t) (nodes L) := by
      have hb := hl.back
      rwa [hpc] at hb
    rw [hpc] at hu
    have hm : m ∈ L := by simpa [hpc, Pc.floating] using (hl.mem m).mp hu
    obtain ⟨l, r, rfl⟩ := List.append_of_mem hm
    have hprev : s.prev (.mtx m) = (nodes l).getLastD (.head t) := by
      rw [nodes_append, nodes_cons] at hb
      exact Bwd.mid hb
    simp only [code, hpc, Option.some.injEq] at h
    subst h
    refine ⟨update_area (hl.area ?_) hp, rfl⟩
    rw [hprev, nodes_append, ← List.cons_append]
    exact List.mem_append_left _ List.getLastD_mem_cons
  | delPrev m d q r =>
    obtain ⟨-, L, hl⟩ := hr.get (by simp [hpc, Pc.Early]) (by simp [hpc])
    have hb := hl.back
    rw [hpc] at hb
    obtain ⟨l, x, r', rfl, rfl, -⟩ := hb
    simp only [code, hpc, Option.some.injEq] at h
    subst h
    exact ⟨rfl, update_area (hl.area (by simp)) hp⟩

end Frames

/-! ## One access of the owner -/

section Owner
variable {K : Tids T} {s u : St T M} {t : T} {L : List M} {m : M} {pc : Pc T M}

/-- No link changes, and no mutex comes or goes. -/
theorem Listed.goto (hl : Listed s t L) (hn : u.next = s.next) (hp : u.prev = s.prev)
    (hh : u.holds t = s.holds t) (hf : (u.pc t).floating = (s.pc t).floating)
    (hpend : ∀ m, (u.pc t).pends = some m → u.pending t = some m)
    (hb : (s.pc t).Back s.next s.prev t L → (u.pc t).Back s.next s.prev t L) : Listed u t L := by
  refine ⟨?_, hl.nodup, ?_, ?_, hpend, ?_⟩
  · rw [hn]
    exact hl.fwd
  · rw [hh, hf]
    exact hl.mem
  · rw [hf]
    exact hl.apart
  · rw [hn, hp]
    exact hb hl.back

theorem Listed.mem_of_not_floating (hl : Listed s t L) (hf : (s.pc t).floating = none)
    (hm : m ∈ s.holds t) : m ∈ L := by
  rcases (hl.mem m).mp hm with hm | he
  · exact hm
  · rw [hf] at he
    cases he

theorem floating_after (m : M) (k : Adding) : (k.after (T := T) m).floating = none := by
  cases k with
  | lock | tryFast | trySlow => rfl

theorem pends_after {x : M} {k : Adding} (h : (k.after (T := T) m).pends = some x) : m = x := by
  cases k with
  | lock | tryFast => cases h
  | trySlow => exact Option.some.inj h

theorem back_after {next prev : Ptr T M → Ptr T M} (k : Adding)
    (h : Bwd prev (.head t) (nodes L)) : (k.after m).Back next prev t L := by
  cases k with
  | lock | tryFast | trySlow => exact h

theorem uses_after (k : Adding) (h : Finset M) : (k.after (T := T) m).Uses h := by
  cases k with
  | lock | tryFast | trySlow => trivial

theorem after_ne_dead (m : M) (k : Adding) : k.after (T := T) m ≠ .dead := by
  cases k with
  | lock | tryFast | trySlow => simp [Adding.after]

variable [DecidableEq T] [DecidableEq M]

theorem listed_opStart (hl : Listed s t L) (hi : s.robustInit t = true)
    (hs : (s.pc t).floating = none) (hf : pc.floating = none)
    (hp : ∀ x, pc.pends = some x → m = x)
    (hb : (s.pc t).Back s.next s.prev t L → pc.Back s.next s.prev t L) :
    Listed (s.opStart t m pc) t L := by
  rw [St.opStart, if_pos hi]
  refine hl.goto rfl rfl rfl ?_ (fun x hx => ?_) ?_
  · simpa [St.goto, hs] using hf
  · simp only [St.goto, Function.update_self] at hx ⊢
    rw [hp x hx]
  · simpa [St.goto] using hb

/-- The word is free, so the mutex is on nobody's list. -/
theorem listed_take {w : Word} (hl : Listed s t L) (hm : m ∉ s.holds t)
    (hs : (s.pc t).floating = none) (hf : pc.floating = some m) (hp : ∀ x, pc.pends = some x → m = x)
    (hpend : s.pending t = some m)
    (hb : (s.pc t).Back s.next s.prev t L → pc.Back s.next s.prev t L) :
    Listed ((s.take t m w).goto t pc) t L := by
  have hL : m ∉ L := fun h => hm ((hl.mem m).mpr (.inl h))
  refine ⟨hl.fwd, hl.nodup, fun x => ?_, fun x hx => ?_, fun x hx => ?_, ?_⟩
  · simp only [St.goto, St.take, Function.update_self, Finset.mem_insert, hf, Option.some.injEq]
    rw [hl.mem x, hs, eq_comm, or_comm]
    simp
  · simp only [St.goto, Function.update_self, hf, Option.some.injEq] at hx
    exact hx ▸ hL
  · simp only [St.goto, Function.update_self] at hx
    exact hpend.trans (congrArg some (hp x hx))
  · simp only [St.goto, Function.update_self]
    exact hb hl.back

/-- The word is given up after the mutex is off the list. -/
theorem listed_drop {w : Word} (hl : Listed s t L) (hs : (s.pc t).floating = some m)
    (hf : pc.floating = none) (hp : ∀ x, pc.pends = some x → m = x) (hpend : s.pending t = some m)
    (hb : (s.pc t).Back s.next s.prev t L → pc.Back s.next s.prev t L) :
    Listed ((s.drop t m w).goto t pc) t L := by
  have hL := hl.apart m hs
  refine ⟨hl.fwd, hl.nodup, fun x => ?_, fun x hx => ?_, fun x hx => ?_, ?_⟩
  · simp only [St.goto, St.drop, Function.update_self, Finset.mem_erase, hf]
    rw [hl.mem x, hs]
    constructor
    · rintro ⟨hne, hx | he⟩
      · exact .inl hx
      · exact absurd (Option.some.inj he).symm hne
    · rintro (hx | he)
      · exact ⟨fun he => hL (he ▸ hx), .inl hx⟩
      · cases he
  · simp only [St.goto, Function.update_self, hf] at hx
    cases hx
  · simp only [St.goto, Function.update_self] at hx
    exact hpend.trans (congrArg some (hp x hx))
  · simp only [St.goto, Function.update_self]
    exact hb hl.back

theorem listed_addPrev {k : Adding} (hl : Listed s t L) (hpc : s.pc t = .addPrev m k) :
    Listed ((s.setPrev (.mtx m) (.head t)).goto t (.addNext m k (s.next (.head t)))) t L := by
  have hb : Bwd s.prev (.head t) (nodes L) := by
    have hb := hl.back
    rwa [hpc] at hb
  have hL : m ∉ L := hl.apart m (by rw [hpc]; rfl)
  refine ⟨hl.fwd, hl.nodup, fun x => ?_, fun x hx => ?_, fun x hx => ?_, ?_⟩
  · have hx := hl.mem x
    rw [hpc] at hx
    simp only [St.goto, Function.update_self]
    exact hx
  · simp only [St.goto, Function.update_self, Pc.floating, Option.some.injEq] at hx
    exact hx ▸ hL
  · simp only [St.goto, Function.update_self, Pc.pends] at hx
    exact hl.pend x (by rw [hpc]; exact hx)
  · simp only [St.goto, Function.update_self]
    exact ⟨hb.write (mem_nodes.not.mpr hL) _, Function.update_self .., rfl⟩

theorem listed_addNext {k : Adding} {old : Ptr T M} (hl : Listed s t L)
    (hpc : s.pc t = .addNext m k old) :
    Listed ((s.setNext (.mtx m) old).goto t (.addHead m k old)) t L := by
  obtain ⟨hb, hp, ho⟩ : Bwd s.prev (.head t) (nodes L) ∧ s.prev (.mtx m) = .head t ∧
      old = s.next (.head t) := by
    have hb := hl.back
    rwa [hpc] at hb
  have hL : m ∉ L := hl.apart m (by rw [hpc]; rfl)
  refine ⟨hl.fwd.write (mtx_notMem hL) old, hl.nodup, fun x => ?_, fun x hx => ?_,
    fun x hx => ?_, ?_⟩
  · have hx := hl.mem x
    rw [hpc] at hx
    simp only [St.goto, Function.update_self]
    exact hx
  · simp only [St.goto, Function.update_self, Pc.floating, Option.some.injEq] at hx
    exact hx ▸ hL
  · simp only [St.goto, Function.update_self, Pc.pends] at hx
    exact hl.pend x (by rw [hpc]; exact hx)
  · simp only [St.goto, Function.update_self]
    refine ⟨hb, hp, ?_, Function.update_self ..⟩
    simpa [St.setNext] using ho

/-- From this write on the list has the mutex. -/
theorem listed_addHead {k : Adding} {old : Ptr T M} (hl : Listed s t L)
    (hpc : s.pc t = .addHead m k old) :
    Listed ((s.setNext (.head t) (.mtx m)).goto t
      (if old = .head t then k.after m else .addBack m k old)) t (m :: L) := by
  obtain ⟨hb, hp, ho, hm⟩ : Bwd s.prev (.head t) (nodes L) ∧ s.prev (.mtx m) = .head t ∧
      old = s.next (.head t) ∧ s.next (.mtx m) = old := by
    have hb := hl.back
    rwa [hpc] at hb
  have hL : m ∉ L := hl.apart m (by rw [hpc]; rfl)
  have hf : (if old = .head t then k.after m else .addBack m k old : Pc T M).floating = none := by
    split
    · exact floating_after m k
    · rfl
  refine ⟨?_, List.nodup_cons.mpr ⟨hL, hl.nodup⟩, fun x => ?_, fun x hx => ?_, fun x hx => ?_, ?_⟩
  · exact hl.fwd.push (hm.trans ho) (by simp)
  · simp only [St.goto, Function.update_self, St.setNext, hf, List.mem_cons]
    rw [hl.mem x, hpc, Pc.floating, Option.some.injEq, or_comm, eq_comm]
    simp
  · simp only [St.goto, Function.update_self, hf] at hx
    cases hx
  · simp only [St.goto, Function.update_self] at hx
    have he : m = x := by
      split at hx
      · exact pends_after hx
      · exact Option.some.inj hx
    exact he ▸ hl.pend m (by rw [hpc]; rfl)
  · simp only [St.goto, Function.update_self]
    have hfwd := hl.fwd
    cases L with
    | nil =>
      have hold : old = .head t := ho.trans hfwd
      rw [if_pos hold]
      exact back_after k ⟨hp, trivial⟩
    | cons x l =>
      have hold : old = .mtx x := ho.trans hfwd.1
      rw [hold, if_neg (by simp)]
      exact ⟨x, l, rfl, rfl, hp, hb⟩

theorem listed_addBack {k : Adding} {old : Ptr T M} (hl : Listed s t L)
    (hpc : s.pc t = .addBack m k old) :
    Listed ((s.setPrev old (.mtx m)).goto t (k.after m)) t L := by
  obtain ⟨x, l, rfl, rfl, hp, hb⟩ : ∃ x l, L = m :: x :: l ∧ old = .mtx x ∧
      s.prev (.mtx m) = .head t ∧ Bwd s.prev (.head t) (nodes (x :: l)) := by
    have hb := hl.back
    rwa [hpc] at hb
  have hn := List.nodup_cons.mp hl.nodup
  have hmx : (.mtx m : Ptr T M) ≠ .mtx x := fun he => by
    cases he
    exact hn.1 List.mem_cons_self
  refine ⟨hl.fwd, hl.nodup, fun y => ?_, fun y hy => ?_, fun y hy => ?_, ?_⟩
  · simp only [St.goto, Function.update_self, floating_after]
    simpa [hpc, Pc.floating, St.setPrev] using hl.mem y
  · simp only [St.goto, Function.update_self, floating_after] at hy
    cases hy
  · simp only [St.goto, Function.update_self] at hy
    exact pends_after hy ▸ hl.pend m (by rw [hpc]; rfl)
  · simp only [St.goto, Function.update_self]
    refine back_after k ⟨(Function.update_of_ne hmx ..).trans hp, Function.update_self .., ?_⟩
    exact hb.2.write (mem_nodes.not.mpr (List.nodup_cons.mp hn.2).1) _

/-- With the first write of `robust_op_del` the mutex is off the list. -/
theorem listed_delNext {d : Bool} (hl : Listed s t L) (hpc : s.pc t = .delNext m d)
    (hm : m ∈ s.holds t) : ∃ L', Listed ((s.setNext (s.prev (.mtx m)) (s.next (.mtx m))).goto t
      (if s.next (.mtx m) = .head t then .unlockCas m d
        else .delPrev m d (s.prev (.mtx m)) (s.next (.mtx m)))) t L' := by
  obtain ⟨l, r, rfl⟩ := List.append_of_mem (hl.mem_of_not_floating (by rw [hpc]; rfl) hm)
  have hfwd := hl.fwd
  have hb : Bwd s.prev (.head t) (nodes (l ++ m :: r)) := by
    have hb := hl.back
    rwa [hpc] at hb
  have hnn := nodes_nodup hl.nodup t
  rw [nodes_append, nodes_cons] at hb hfwd hnn
  have hp : s.prev (.mtx m) = (nodes l).getLastD (.head t) := hb.mid
  have hq : s.next (.mtx m) = (nodes r).headD (.head t) := hfwd.mid
  have hmr : m ∉ l ∧ m ∉ r := by
    have hn := List.nodup_append.mp hl.nodup
    exact ⟨fun h => hn.2.2 m h m List.mem_cons_self rfl, (List.nodup_cons.mp hn.2.1).1⟩
  have hf : (if s.next (.mtx m) = .head t then .unlockCas m d
      else .delPrev m d (s.prev (.mtx m)) (s.next (.mtx m)) : Pc T M).floating = some m := by
    split
    · rfl
    · rfl
  refine ⟨l ++ r, ?_, ?_, fun x => ?_, fun x hx => ?_, fun x hx => ?_, ?_⟩
  · rw [nodes_append, hp]
    exact hfwd.unlink hnn
  · exact hl.nodup.sublist ((List.Sublist.refl l).append (List.sublist_cons_self m r))
  · have hx := hl.mem x
    rw [hpc] at hx
    have hsplit : x ∈ l ++ m :: r ↔ x ∈ l ++ r ∨ m = x := by
      simp only [List.mem_append, List.mem_cons]
      grind
    simp only [St.goto, Function.update_self, hf, St.setNext, Option.some.injEq]
    rw [hx, hsplit]
    exact or_iff_left (by simp [Pc.floating])
  · simp only [St.goto, Function.update_self, hf, Option.some.injEq] at hx
    subst hx
    simpa using hmr
  · simp only [St.goto, Function.update_self] at hx
    have he : m = x := by
      split at hx
      · exact Option.some.inj hx
      · exact Option.some.inj hx
    exact he ▸ hl.pend m (by rw [hpc]; rfl)
  · simp only [St.goto, Function.update_self]
    have hback := bwd_append.mp hb
    cases r with
    | nil =>
      rw [hq, nodes, List.map_nil, List.headD_nil, if_pos rfl, List.append_nil]
      exact hback.1
    | cons x r =>
      rw [hq, nodes_cons, List.headD_cons, if_neg (by simp), hp]
      exact ⟨l, x, r, rfl, rfl, rfl, hback.1, hback.2.2.2⟩

theorem listed_delPrev {d : Bool} {p q : Ptr T M} (hl : Listed s t L)
    (hpc : s.pc t = .delPrev m d p q) :
    Listed ((s.setPrev q p).goto t (.unlockCas m d)) t L := by
  obtain ⟨l, x, r, rfl, rfl, rfl, hbl, hbr⟩ : ∃ l x r, L = l ++ x :: r ∧ q = .mtx x ∧
      p = (nodes l).getLastD (.head t) ∧ Bwd s.prev (.head t) (nodes l) ∧
        Bwd s.prev (.mtx x) (nodes r) := by
    have hb := hl.back
    rwa [hpc] at hb
  have hn := List.nodup_append.mp hl.nodup
  have hxl : x ∉ l := fun h => hn.2.2 x h x List.mem_cons_self rfl
  have hxr : x ∉ r := (List.nodup_cons.mp hn.2.1).1
  refine ⟨hl.fwd, hl.nodup, fun y => ?_, fun y hy => ?_, fun y hy => ?_, ?_⟩
  · have hy := hl.mem y
    rw [hpc] at hy
    simp only [St.goto, Function.update_self]
    exact hy
  · simp only [St.goto, Function.update_self] at hy
    exact hl.apart y (by rw [hpc]; exact hy)
  · simp only [St.goto, Function.update_self] at hy
    exact hl.pend y (by rw [hpc]; exact hy)
  · simp only [St.goto, Function.update_self]
    show Bwd _ _ (nodes (l ++ x :: r))
    rw [nodes_append, nodes_cons]
    exact bwd_append.mpr ⟨hbl.write (mem_nodes.not.mpr hxl) _, Function.update_self ..,
      hbr.write (mem_nodes.not.mpr hxr) _⟩

/-- The first `robust_op_start` of a thread. -/
theorem roster_register (hs : s.robustInit t = false) (hh : s.holds t = ∅) (hp : (s.pc t).Early) :
    Roster (s.opStart t m pc) t := by
  have hplain : (s.pc t).floating = none ∧ (s.pc t).pends = none ∧ s.pc t ≠ .dead ∧
      ∀ n p, (s.pc t).Back n p t [] := by
    cases hpc : s.pc t with
    | idle | lockStart | tryStart | consistentLoad | consistentAnd | unlockLoad | unlockStart =>
      exact ⟨rfl, rfl, by simp, fun _ _ => trivial⟩
    | _ =>
      rw [hpc] at hp
      cases hp
  obtain ⟨hf, hpend, halive, hb⟩ := hplain
  rw [St.opStart, if_neg (by simp [hs])]
  refine .listed (Function.update_self ..) halive [] ?_
  refine ⟨Function.update_self .., List.nodup_nil, fun x => ?_, fun x hx => ?_, fun x hx => ?_,
    hb _ _⟩
  · simp [St.setNext, hh, hf]
  · simp [St.setNext, hf] at hx
  · simp [St.setNext, hpend] at hx

theorem opStart_roster (hr : Roster s t) (he : (s.pc t).Early) (hs : (s.pc t).floating = none)
    (hf : pc.floating = none) (ha : pc ≠ .dead) (hp : ∀ x, pc.pends = some x → m = x)
    (hb : ∀ L, (s.pc t).Back s.next s.prev t L → pc.Back s.next s.prev t L) :
    Roster (s.opStart t m pc) t := by
  cases hr with
  | gone pc =>
    rw [pc] at he
    cases he
  | fresh init holds pc => exact roster_register init holds pc
  | listed init alive L hl =>
    refine .listed ?_ ?_ L (listed_opStart hl init hs hf hp (hb L))
    · rw [St.opStart, if_pos init]
      exact init
    · rw [St.opStart, if_pos init]
      simpa [St.goto] using ha

end Owner

/-- A move that leaves the list alone. -/
structure Calm (a b : Pc T M) : Prop where
  early : a.Early → b.Early
  alive : b ≠ .dead
  floating : b.floating = a.floating
  pends : ∀ m, b.pends = some m → a.pends = some m
  back : ∀ next prev t L, a.Back next prev t L → b.Back next prev t L

section Calms
variable {s u : St T M} {t : T}

theorem Roster.calm (hr : Roster s t) (hc : Calm (s.pc t) (u.pc t)) (hd : s.pc t ≠ .dead)
    (hn : u.next = s.next) (hp : u.prev = s.prev) (hh : u.holds t = s.holds t)
    (hi : u.robustInit t = s.robustInit t)
    (hpend : u.pending t = s.pending t ∨ (u.pc t).pends = none) : Roster u t := by
  cases hr with
  | gone pc => exact absurd pc hd
  | fresh init holds pc => exact .fresh (hi.trans init) (hh.trans holds) (hc.early pc)
  | listed init alive L hl =>
    refine .listed (hi.trans init) hc.alive L
      (hl.goto hn hp hh hc.floating (fun m hm => ?_) (hc.back _ _ t L))
    rcases hpend with hpend | hpend
    · exact hpend.trans (hl.pend m (hc.pends m hm))
    · rw [hpend] at hm
      cases hm

theorem calm_opEnd {a : Pc T M} (he : ¬ a.Early) (hf : a.floating = none)
    (hb : ∀ n p t L, a.Back n p t L → Bwd p (.head t) (nodes L)) (op : Op M) (e : Errno) :
    Calm a (.opEnd op e) :=
  ⟨fun h => absurd h he, by simp, hf.symm, fun m hm => by simp [Pc.pends] at hm, hb⟩

theorem calm_entry (op : Op M) : Calm (.idle : Pc T M) op.entry := by
  cases op with
  | lock | tryLock | consistent | unlock =>
    exact ⟨fun _ => trivial, by simp [Op.entry], rfl, fun _ h => h, fun _ _ _ _ h => h⟩

variable [DecidableEq T] {K : Tids T} {m : M} {pc : Pc T M}

theorem Roster.calm_goto (hr : Roster s t) (hd : s.pc t ≠ .dead) (hc : Calm (s.pc t) pc) :
    Roster (s.goto t pc) t :=
  hr.calm (by rwa [St.goto_pc]) hd rfl rfl rfl rfl (.inl rfl)

theorem Roster.calm_done {op : Op M} {e : Errno} (hr : Roster s t) (hd : s.pc t ≠ .dead)
    (hc : Calm (s.pc t) .idle) : Roster (s.done t op e) t :=
  hr.calm (by rwa [St.done_pc]) hd rfl rfl rfl rfl (.inl rfl)

variable [DecidableEq M]

theorem roster_take {w : Word} (hr : Roster s t) (hm : m ∉ s.holds t) (he : ¬ (s.pc t).Early)
    (hd : s.pc t ≠ .dead) (hs : (s.pc t).floating = none) (hsp : (s.pc t).pends = some m)
    (hpd : pc ≠ .dead) (hf : pc.floating = some m) (hp : ∀ x, pc.pends = some x → m = x)
    (hb : ∀ L, (s.pc t).Back s.next s.prev t L → pc.Back s.next s.prev t L) :
    Roster ((s.take t m w).goto t pc) t := by
  obtain ⟨init, L, hl⟩ := hr.get he hd
  refine .listed init ?_ L (listed_take hl hm hs hf hp (hl.pend m hsp) (hb L))
  simpa [St.goto] using hpd

theorem roster_drop {w : Word} (hr : Roster s t) (he : ¬ (s.pc t).Early)
    (hd : s.pc t ≠ .dead) (hs : (s.pc t).floating = some m) (hsp : (s.pc t).pends = some m)
    (hpd : pc ≠ .dead) (hf : pc.floating = none) (hp : ∀ x, pc.pends = some x → m = x)
    (hb : ∀ L, (s.pc t).Back s.next s.prev t L → pc.Back s.next s.prev t L) :
    Roster ((s.drop t m w).goto t pc) t := by
  obtain ⟨init, L, hl⟩ := hr.get he hd
  refine .listed init ?_ L (listed_drop hl hs hf hp (hl.pend m hsp) (hb L))
  simpa [St.goto] using hpd

theorem code_roster (hi : Exclusive K s) (hr : Roster s t) (hu : (s.pc t).Uses (s.holds t))
    (h : code K s t = some u) : Roster u t := by
  cases hpc : s.pc t with
  | idle | lockPi | tryPi | unlockPi | dead => simp [code, hpc] at h
  | lockStart m | tryStart m | unlockStart m d =>
    simp only [code, hpc, Option.some.injEq] at h
    subst h
    refine opStart_roster hr (by rw [hpc]; trivial) (by rw [hpc]; rfl) rfl (by simp)
      (fun x hx => Option.some.inj hx) fun L hb => ?_
    rw [hpc] at hb
    exact hb
  | lockLoad m =>
    simp only [code, hpc, Option.some.injEq] at h
    subst h
    refine hr.calm_goto (by simp [hpc]) ?_
    rw [hpc]
    split
    · exact calm_opEnd id rfl (fun _ _ _ _ => id) _ _
    · exact ⟨id, by simp, rfl, fun _ => id, fun _ _ _ _ => id⟩
  | lockCas m =>
    simp only [code, hpc, Option.some.injEq] at h
    subst h
    split
    · rename_i hw
      refine roster_take hr (hi.free (by rw [hw]; rfl) t) (by rw [hpc]; exact id) (by simp [hpc])
        (by rw [hpc]; rfl) (by rw [hpc]; rfl) (by simp) rfl (fun x hx => Option.some.inj hx)
        fun L hb => ?_
      rw [hpc] at hb
      exact hb
    · refine hr.calm_goto (by simp [hpc]) ?_
      rw [hpc]
      exact ⟨id, by simp, rfl, fun _ => id, fun _ _ _ _ => id⟩
  | lockCheck m =>
    simp only [code, hpc, Option.some.injEq] at h
    subst h
    refine hr.calm_goto (by simp [hpc]) ?_
    rw [hpc]
    exact ⟨id, by simp, rfl, fun _ => id, fun _ _ _ _ => id⟩
  | tryCas m =>
    simp only [code, hpc, Option.some.injEq] at h
    subst h
    split
    · rename_i hw
      refine roster_take hr (hi.free (by rw [hw]; rfl) t) (by rw [hpc]; exact id) (by simp [hpc])
        (by rw [hpc]; rfl) (by rw [hpc]; rfl) (by simp) rfl (fun x hx => Option.some.inj hx)
        fun L hb => ?_
      rw [hpc] at hb
      exact hb
    · split
      · refine hr.calm_goto (by simp [hpc]) ?_
        rw [hpc]
        exact calm_opEnd id rfl (fun _ _ _ _ => id) _ _
      · split
        · refine hr.calm_goto (by simp [hpc]) ?_
          rw [hpc]
          exact calm_opEnd id rfl (fun _ _ _ _ => id) _ _
        · refine hr.calm_goto (by simp [hpc]) ?_
          rw [hpc]
          exact ⟨id, by simp, rfl, fun _ => id, fun _ _ _ _ => id⟩
  | tryCheck m =>
    simp only [code, hpc, Option.some.injEq] at h
    subst h
    refine hr.calm_goto (by simp [hpc]) ?_
    rw [hpc]
    exact calm_opEnd id rfl (fun _ _ _ _ => id) _ _
  | unlockOr m =>
    simp only [code, hpc, Option.some.injEq] at h
    subst h
    refine hr.calm ?_ (by simp [hpc]) rfl rfl rfl rfl (.inl rfl)
    rw [hpc, St.goto_pc]
    exact calm_opEnd id rfl (fun _ _ _ _ => id) _ _
  | addPrev m k =>
    obtain ⟨init, L, hl⟩ := hr.get (by simp [hpc, Pc.Early]) (by simp [hpc])
    simp only [code, hpc, Option.some.injEq] at h
    subst h
    exact .listed init (by simp [St.goto]) L (listed_addPrev hl hpc)
  | addNext m k old =>
    obtain ⟨init, L, hl⟩ := hr.get (by simp [hpc, Pc.Early]) (by simp [hpc])
    simp only [code, hpc, Option.some.injEq] at h
    subst h
    exact .listed init (by simp [St.goto]) L (listed_addNext hl hpc)
  | addHead m k old =>
    obtain ⟨init, L, hl⟩ := hr.get (by simp [hpc, Pc.Early]) (by simp [hpc])
    simp only [code, hpc, Option.some.injEq] at h
    subst h
    refine .listed init ?_ (m :: L) (listed_addHead hl hpc)
    rw [St.goto_pc]
    split
    · exact after_ne_dead m k
    · simp
  | addBack m k old =>
    obtain ⟨init, L, hl⟩ := hr.get (by simp [hpc, Pc.Early]) (by simp [hpc])
    simp only [code, hpc, Option.some.injEq] at h
    subst h
    refine .listed init ?_ L (listed_addBack hl hpc)
    rw [St.goto_pc]
    exact after_ne_dead m k
  | consistentLoad m =>
    simp only [code, hpc, Option.some.injEq] at h
    subst h
    split
    · refine hr.calm_done (by simp [hpc]) ?_
      rw [hpc]
      exact ⟨id, by simp, rfl, fun _ => id, fun _ _ _ _ => id⟩
    · split
      · refine hr.calm_done (by simp [hpc]) ?_
        rw [hpc]
        exact ⟨id, by simp, rfl, fun _ => id, fun _ _ _ _ => id⟩
      · refine hr.calm_goto (by simp [hpc]) ?_
        rw [hpc]
        exact ⟨id, by simp, rfl, fun _ => id, fun _ _ _ _ => id⟩
  | consistentAnd m =>
    simp only [code, hpc, Option.some.injEq] at h
    subst h
    refine hr.calm ?_ (by simp [hpc]) rfl rfl rfl rfl (.inl rfl)
    simp only [hpc, St.done, Function.update_self]
    exact ⟨id, by simp, rfl, fun _ => id, fun _ _ _ _ => id⟩
  | unlockLoad m =>
    simp only [code, hpc, Option.some.injEq] at h
    subst h
    split
    · refine hr.calm_done (by simp [hpc]) ?_
      rw [hpc]
      exact ⟨id, by simp, rfl, fun _ => id, fun _ _ _ _ => id⟩
    · refine hr.calm_goto (by simp [hpc]) ?_
      rw [hpc]
      exact ⟨id, by simp, rfl, fun _ => id, fun _ _ _ _ => id⟩
  | delNext m d =>
    obtain ⟨init, L, hl⟩ := hr.get (by simp [hpc, Pc.Early]) (by simp [hpc])
    rw [hpc] at hu
    obtain ⟨L', hl'⟩ := listed_delNext hl hpc hu
    simp only [code, hpc, Option.some.injEq] at h
    subst h
    refine .listed init ?_ L' hl'
    rw [St.goto_pc]
    split
    · simp
    · simp
  | delPrev m d p q =>
    obtain ⟨init, L, hl⟩ := hr.get (by simp [hpc, Pc.Early]) (by simp [hpc])
    simp only [code, hpc, Option.some.injEq] at h
    subst h
    exact .listed init (by simp [St.goto]) L (listed_delPrev hl hpc)
  | unlockCas m d =>
    simp only [code, hpc, Option.some.injEq] at h
    subst h
    split
    · refine roster_drop hr (by rw [hpc]; exact id) (by simp [hpc]) (by rw [hpc]; rfl)
        (by rw [hpc]; rfl) (by simp) rfl (fun x hx => by simp [Pc.pends] at hx) fun L hb => ?_
      rw [hpc] at hb
      exact hb
    · refine hr.calm_goto (by simp [hpc]) ?_
      rw [hpc]
      exact ⟨id, by simp, rfl, fun _ => id, fun _ _ _ _ => id⟩
  | opEnd op e =>
    simp only [code, hpc, Option.some.injEq] at h
    subst h
    refine hr.calm ?_ (by simp [hpc]) rfl rfl rfl rfl (.inr ?_)
    · simp only [hpc, St.done, Function.update_self]
      exact ⟨fun _ => trivial, by simp, rfl, fun _ => id, fun _ _ _ _ => id⟩
    · simp [St.done, Pc.pends]

theorem opStart_uses (hu : (s.pc t).Uses (s.holds t)) (hp : pc.Uses (s.holds t)) :
    ((s.opStart t m pc).pc t).Uses ((s.opStart t m pc).holds t) := by
  rw [St.opStart]
  split
  · simpa using hp
  · exact hu

theorem code_uses (how : ∀ m, ftxTid (s.ftx m) = K.tid t → s.pc t ≠ .dead → m ∈ s.holds t)
    (hu : (s.pc t).Uses (s.holds t)) (h : code K s t = some u) : (u.pc t).Uses (u.holds t) := by
  cases hpc : s.pc t with
  | idle | lockPi | tryPi | unlockPi | dead => simp [code, hpc] at h
  | lockStart m | tryStart m =>
    simp only [code, hpc, Option.some.injEq] at h
    subst h
    exact opStart_uses hu trivial
  | unlockStart m d =>
    simp only [code, hpc, Option.some.injEq] at h
    subst h
    refine opStart_uses hu ?_
    rw [hpc] at hu
    exact hu
  | lockLoad m | lockCas m | unlockCas m d | delNext m d =>
    simp only [code, hpc, Option.some.injEq] at h
    subst h
    split
    · simp [Pc.Uses]
    · simp [Pc.Uses]
  | tryCas m =>
    simp only [code, hpc, Option.some.injEq] at h
    subst h
    split
    · simp [Pc.Uses]
    · split
      · simp [Pc.Uses]
      · split
        · simp [Pc.Uses]
        · simp [Pc.Uses]
  | addHead m k old =>
    simp only [code, hpc, Option.some.injEq] at h
    subst h
    rw [St.goto_pc]
    split
    · exact uses_after k _
    · trivial
  | addBack m k old =>
    simp only [code, hpc, Option.some.injEq] at h
    subst h
    rw [St.goto_pc]
    exact uses_after k _
  | consistentLoad m =>
    have hm := how m
    rw [hpc] at hm
    simp only [code, hpc, Option.some.injEq] at h
    subst h
    split
    · simp [Pc.Uses]
    · split
      · simp [Pc.Uses]
      · rename_i ht
        simpa [Pc.Uses] using hm (not_not.mp ht) (by simp)
  | unlockLoad m =>
    have hm := how m
    rw [hpc] at hm
    simp only [code, hpc, Option.some.injEq] at h
    subst h
    split
    · simp [Pc.Uses]
    · rename_i ht
      simpa [Pc.Uses] using hm (not_not.mp ht) (by simp)
  | lockCheck | tryCheck | addPrev | addNext | delPrev | consistentAnd | unlockOr | opEnd =>
    simp only [code, hpc, Option.some.injEq] at h
    subst h
    simp [St.done, Pc.Uses]

end Calms

end CppIpc.RobustMutex
