import CppIpc.Lib.Chains
import CppIpc.Lib.Runs
import Mathlib.Data.Fintype.Basic

/-! # `intrusive_stack`

`push` and `pop` with one step for each access to `top_` or to the `next` of a node. A
node that was popped belongs to the thread that popped it, which may push it again. -/
namespace CppIpc.IntrusiveStack
open CppIpc.Lib.Chains
open CppIpc.Lib.Runs (run Meets run_invariant meets_congr)

/-! ## The machine -/

/-- Where a thread stands: before a load, a store or a compare-exchange, with what it
has loaded. -/
inductive Pc (N : Type) where
  | idle
  | pushLoad (n : N)
  | pushStore (n : N) (oldTop : Option N)
  | pushCas (n : N) (oldTop : Option N)
  | popLoad
  | popNext (oldTop : N)
  | popCas (oldTop : N) (next : Option N)
deriving DecidableEq

/-- Whose a node is; `pushed` from the exchange of a push to that of the next pop. -/
inductive Status (T : Type) where
  | unmade
  | owned (t : T)
  | pushed
deriving DecidableEq

variable {T N : Type}

structure St (T N : Type) where
  top : Option N
  next : N → Option N
  pc : T → Pc N
  status : N → Status T

def St.init (T N : Type) : St T N := ⟨none, fun _ => none, fun _ => .idle, fun _ => .unmade⟩

/-- The loop of `pop` on the value of `top_` just read. -/
def Pc.popTop : Option N → Pc N
  | none => .idle
  | some n => .popNext n

inductive Act (T N : Type) where
  | create (t : T) (n : N)
  | push (t : T) (n : N)
  | pop (t : T)
  /-- The next access of `t`; `spurious` makes a weak exchange fail. -/
  | access (t : T) (spurious : Bool)
deriving DecidableEq

section Step
variable [DecidableEq T] [DecidableEq N]

def St.goto (s : St T N) (t : T) (pc : Pc N) : St T N :=
  { s with pc := Function.update s.pc t pc }

def St.setStatus (s : St T N) (n : N) (x : Status T) : St T N :=
  { s with status := Function.update s.status n x }

def St.setTop (s : St T N) (top : Option N) : St T N := { s with top := top }

def St.setNext (s : St T N) (n : N) (p : Option N) : St T N :=
  { s with next := Function.update s.next n p }

/-- A thread pushes only a node of its own. -/
def step (s : St T N) : Act T N → Option (St T N)
  | .create t n => if s.status n = .unmade then some (s.setStatus n (.owned t)) else none
  | .push t n =>
    if s.pc t = .idle ∧ s.status n = .owned t then some (s.goto t (.pushLoad n)) else none
  | .pop t => if s.pc t = .idle then some (s.goto t .popLoad) else none
  | .access t spurious =>
    match s.pc t with
    | .idle => none
    | .pushLoad n => some (s.goto t (.pushStore n s.top))
    | .pushStore n old => some ((s.setNext n old).goto t (.pushCas n old))
    | .pushCas n old =>
      if s.top = old ∧ spurious = false then
        some (((s.setTop (some n)).setStatus n .pushed).goto t .idle)
      else some (s.goto t (.pushStore n s.top))
    | .popLoad => some (s.goto t (.popTop s.top))
    | .popNext old => some (s.goto t (.popCas old (s.next old)))
    | .popCas old nxt =>
      if s.top = some old ∧ spurious = false then
        some (((s.setTop nxt).setStatus old (.owned t)).goto t .idle)
      else some (s.goto t (.popTop s.top))

end Step

/-! ## What a stack promises -/

/-- The chain from `top_` ends, and it consists of the nodes that are pushed and not
popped since. -/
def Correct (s : St T N) : Prop :=
  ∃ l, Chain s.next s.top l ∧ ∀ n, n ∈ l ↔ s.status n = .pushed

/-- The access is a compare-exchange of `pop` that succeeds, and returns `old`. -/
def Pops (s : St T N) (a : Act T N) (old : N) (nxt : Option N) : Prop :=
  ∃ t, a = .access t false ∧ s.pc t = .popCas old nxt ∧ s.top = some old

/-- The state after the step is correct, and a node that is popped is pushed and not
popped since. -/
def Sound [DecidableEq T] [DecidableEq N] (s : St T N) (a : Act T N) : Prop :=
  (∀ t, step s a = some t → Correct t) ∧ ∀ old nxt, Pops s a old nxt → s.status old = .pushed

/-- Where the exchange of a pop succeeds, the successor it has loaded is still the
successor. -/
def Unchanged (s : St T N) (a : Act T N) : Prop :=
  ∀ old nxt, Pops s a old nxt → s.next old = nxt

/-! ## The invariant -/

/-- The node that a thread is pushing. -/
def Pc.Pushing (n : N) : Pc N → Prop
  | .pushLoad m | .pushStore m _ | .pushCas m _ => m = n
  | .idle | .popLoad | .popNext _ | .popCas .. => False

structure Inv (s : St T N) : Prop where
  correct : Correct s
  pushing : ∀ t n, (s.pc t).Pushing n → s.status n = .owned t
  stored : ∀ t n old, s.pc t = .pushCas n old → s.next n = old

theorem Inv.init : Inv (St.init T N) where
  correct := ⟨[], rfl, fun _ => ⟨nofun, nofun⟩⟩
  pushing := fun _ _ h => h.elim
  stored := nofun

section Steps
variable [DecidableEq T] [DecidableEq N] {s s' : St T N} {t : T} {n old : N} {nxt : Option N}

omit [DecidableEq N] in
/-- A thread moves and nothing else. -/
theorem Inv.goto (hi : Inv s) {pc : Pc N} (hp : ∀ n, pc.Pushing n → s.status n = .owned t)
    (hc : ∀ n old, pc ≠ .pushCas n old) : Inv (s.goto t pc) where
  correct := hi.correct
  pushing u n h := by
    by_cases hu : u = t
    · subst hu
      exact hp n (by simpa [St.goto] using h)
    · exact hi.pushing u n (by simpa [St.goto, Function.update_of_ne hu] using h)
  stored u n old h := by
    by_cases hu : u = t
    · subst hu
      exact absurd (by simpa [St.goto] using h) (hc n old)
    · exact hi.stored u n old (by simpa [St.goto, Function.update_of_ne hu] using h)

omit [DecidableEq T] [DecidableEq N] in
/-- A node that a thread owns is pushed by nobody else. -/
theorem Inv.pushing_unique (hi : Inv s) {u : T} (ht : s.status n = .owned t)
    (hu : (s.pc u).Pushing n) : u = t := by
  have := hi.pushing u n hu
  rw [ht] at this
  cases this
  rfl

omit [DecidableEq T] in
theorem Inv.create (hi : Inv s) (hn : s.status n = .unmade) :
    Inv (s.setStatus n (.owned t)) := by
  obtain ⟨l, hl, hmem⟩ := hi.correct
  refine ⟨⟨l, hl, fun m => ?_⟩, fun u m hm => ?_, hi.stored⟩
  · by_cases he : m = n
    · rw [he, hmem, hn]
      simp [St.setStatus]
    · simpa [St.setStatus, Function.update_of_ne he] using hmem m
  · have hu := hi.pushing u m hm
    have he : m ≠ n := fun he => by
      rw [he, hn] at hu
      cases hu
    simpa [St.setStatus, Function.update_of_ne he] using hu

/-- A store to the next of a node that is off the stack. -/
theorem Inv.store (hi : Inv s) (hpc : s.pc t = .pushStore n nxt) :
    Inv ((s.setNext n nxt).goto t (.pushCas n nxt)) := by
  obtain ⟨l, hl, hmem⟩ := hi.correct
  have hown := hi.pushing t n (by rw [hpc]; rfl)
  have hoff : n ∉ l := fun h => by
    rw [(hmem n).mp h] at hown
    cases hown
  refine ⟨⟨l, hl.update hoff nxt, hmem⟩, fun u m h => ?_, fun u m old h => ?_⟩
  · by_cases hu : u = t
    · subst hu
      have hm : n = m := by simpa [St.goto, Pc.Pushing] using h
      exact hm ▸ hown
    · exact hi.pushing u m (by simpa [St.goto, St.setNext, Function.update_of_ne hu] using h)
  · by_cases hu : u = t
    · subst hu
      have he : n = m ∧ nxt = old := by simpa [St.goto] using h
      rw [← he.1, ← he.2]
      exact Function.update_self ..
    · have h : s.pc u = .pushCas m old := by
        simpa [St.goto, St.setNext, Function.update_of_ne hu] using h
      have hm : m ≠ n := fun he => hu (hi.pushing_unique hown (by rw [h]; exact he))
      exact (Function.update_of_ne hm _ _).trans (hi.stored u m old h)

theorem Inv.pushed (hi : Inv s) (hpc : s.pc t = .pushCas n nxt) (htop : s.top = nxt) :
    Inv (((s.setTop (some n)).setStatus n .pushed).goto t .idle) := by
  obtain ⟨l, hl, hmem⟩ := hi.correct
  have hown := hi.pushing t n (by rw [hpc]; rfl)
  have hne : ∀ u m, u ≠ t → (s.pc u).Pushing m → m ≠ n := fun u m hu hm he =>
    hu (hi.pushing_unique hown (he ▸ hm))
  refine ⟨⟨n :: l, ⟨rfl, ?_⟩, fun m => ?_⟩, fun u m h => ?_, fun u m old h => ?_⟩
  · change Chain s.next (s.next n) l
    rw [hi.stored t n nxt hpc, ← htop]
    exact hl
  · by_cases he : m = n
    · simp [he, St.setStatus, St.goto]
    · simpa [he, St.setStatus, St.goto, St.setTop] using hmem m
  · by_cases hu : u = t
    · subst hu
      simp [St.goto, Pc.Pushing] at h
    · have h : (s.pc u).Pushing m := by
        simpa [St.goto, St.setStatus, St.setTop, Function.update_of_ne hu] using h
      exact (Function.update_of_ne (hne u m hu h) _ _).trans (hi.pushing u m h)
  · by_cases hu : u = t
    · subst hu
      simp [St.goto] at h
    · exact hi.stored u m old (by simpa [St.goto, St.setStatus, St.setTop, hu] using h)

/-- Where `old` is the top and `nxt` its successor, the exchange takes `old` off. -/
theorem Inv.popped (hi : Inv s) (htop : s.top = some old) (hnext : s.next old = nxt) :
    Inv (((s.setTop nxt).setStatus old (.owned t)).goto t .idle) := by
  obtain ⟨l, hl, hmem⟩ := hi.correct
  rw [htop] at hl
  obtain ⟨m, rfl, hm⟩ := chain_some.mp hl
  have hpushed := (hmem old).mp List.mem_cons_self
  have hoff : old ∉ m := (List.nodup_cons.mp hl.nodup).1
  refine ⟨⟨m, hnext ▸ hm, fun k => ?_⟩, fun u k h => ?_, fun u k o h => ?_⟩
  · by_cases he : k = old
    · rw [he]
      exact ⟨fun h => absurd h hoff, fun h => by simp [St.goto, St.setStatus] at h⟩
    · have := hmem k
      simpa [he, St.goto, St.setStatus, St.setTop] using this
  · by_cases hu : u = t
    · subst hu
      simp [St.goto, Pc.Pushing] at h
    · have h : (s.pc u).Pushing k := by
        simpa [St.goto, St.setStatus, St.setTop, Function.update_of_ne hu] using h
      have hk := hi.pushing u k h
      have he : k ≠ old := fun he => by
        rw [he, hpushed] at hk
        cases hk
      exact (Function.update_of_ne he _ _).trans hk
  · by_cases hu : u = t
    · subst hu
      simp [St.goto] at h
    · exact hi.stored u k o (by simpa [St.goto, St.setStatus, St.setTop, hu] using h)

omit [DecidableEq N] in
theorem popTop_pushing (p : Option N) (n : N) : ¬ (Pc.popTop p).Pushing n := by
  cases p <;> exact id

omit [DecidableEq N] in
theorem popTop_ne_cas (p : Option N) (n : N) (old : Option N) : Pc.popTop p ≠ .pushCas n old := by
  cases p <;> nofun

theorem Inv.step {a : Act T N} (hi : Inv s) (hu : Unchanged s a)
    (h : IntrusiveStack.step s a = some s') : Inv s' := by
  cases a with
  | create t n =>
    simp only [IntrusiveStack.step] at h
    split at h
    · rename_i hn
      cases h
      exact hi.create hn
    · cases h
  | push t n =>
    simp only [IntrusiveStack.step] at h
    split at h
    · rename_i hn
      cases h
      exact hi.goto (fun m hm => by cases hm; exact hn.2) nofun
    · cases h
  | pop t =>
    simp only [IntrusiveStack.step] at h
    split at h
    · cases h
      exact hi.goto (fun _ h => h.elim) nofun
    · cases h
  | access t spurious =>
    simp only [IntrusiveStack.step] at h
    split at h
    · cases h
    · rename_i n hpc
      cases h
      exact hi.goto (fun m hm => hi.pushing t m (by rw [hpc]; exact hm)) nofun
    · rename_i n old hpc
      cases h
      exact hi.store hpc
    · rename_i n old hpc
      split at h
      · rename_i hc
        cases h
        exact hi.pushed hpc hc.1
      · cases h
        exact hi.goto (fun m hm => hi.pushing t m (by rw [hpc]; exact hm)) nofun
    · cases h
      exact hi.goto (fun n h => absurd h (popTop_pushing _ n)) (popTop_ne_cas _)
    · cases h
      exact hi.goto (fun _ h => h.elim) nofun
    · rename_i old nxt hpc
      split at h
      · rename_i hc
        cases h
        refine hi.popped hc.1 (hu old nxt ⟨t, ?_, hpc, hc.1⟩)
        rw [hc.2]
      · cases h
        exact hi.goto (fun n h => absurd h (popTop_pushing _ n)) (popTop_ne_cas _)

omit [DecidableEq T] [DecidableEq N] in
/-- Whatever is the top is pushed. -/
theorem Inv.pushed_of_top (hi : Inv s) (htop : s.top = some n) : s.status n = .pushed := by
  obtain ⟨l, hl, hmem⟩ := hi.correct
  rw [htop] at hl
  obtain ⟨m, rfl, -⟩ := chain_some.mp hl
  exact (hmem n).mp List.mem_cons_self

/-- A pop that leaves another top than the successor leaves an incorrect stack. -/
theorem Inv.next_of_correct (hi : Inv s) (htop : s.top = some old)
    (hc : Correct (((s.setTop nxt).setStatus old (.owned t)).goto t .idle)) :
    s.next old = nxt := by
  obtain ⟨l, hl, hmem⟩ := hi.correct
  rw [htop] at hl
  obtain ⟨m, rfl, hm⟩ := chain_some.mp hl
  have hnd := List.nodup_cons.mp hl.nodup
  obtain ⟨l', hl', hmem'⟩ := hc
  have hl' : Chain s.next nxt l' := hl'
  -- the nodes of the new chain are those of the old one without `old`
  have hsame : ∀ k, k ∈ l' ↔ k ∈ m := fun k => by
    rw [hmem']
    by_cases he : k = old
    · rw [he]
      exact ⟨fun h => by simp [St.goto, St.setStatus] at h, fun h => absurd h hnd.1⟩
    · have := hmem k
      simp only [List.mem_cons, he, false_or] at this
      simp [St.goto, St.setStatus, St.setTop, he, this]
  cases nxt with
  | none =>
    rw [chain_none.mp hl'] at hsame
    have : m = [] := List.eq_nil_iff_forall_not_mem.mpr fun k hk => nomatch (hsame k).mpr hk
    subst this
    exact hm
  | some b =>
    obtain ⟨r, rfl, hr⟩ := chain_some.mp hl'
    obtain ⟨m₁, m₂, rfl⟩ := List.append_of_mem ((hsame b).mp List.mem_cons_self)
    -- nothing can stand before `b`
    have hr₂ : b :: r = b :: m₂ := hl'.unique hm.suffix
    cases m₁ with
    | nil => exact hm.head
    | cons c m₁ =>
      have hc := (hsame c).mpr List.mem_cons_self
      rw [hr₂] at hc
      have := (List.nodup_cons.mp hnd.2).1
      exact absurd (List.mem_append_right m₁ hc) this

theorem Inv.sound_iff (hi : Inv s) (a : Act T N) : Sound s a ↔ Unchanged s a := by
  constructor
  · rintro ⟨hc, -⟩ old nxt ⟨t, rfl, hpc, htop⟩
    refine hi.next_of_correct (t := t) htop (hc _ ?_)
    simp only [IntrusiveStack.step, hpc, htop, and_self, if_true]
  · intro hu
    exact ⟨fun t ht => (hi.step hu ht).correct, fun old nxt ⟨t, _, _, htop⟩ =>
      hi.pushed_of_top htop⟩

end Steps

/-! ## Every interleaving -/

section Runs
variable [DecidableEq T] [DecidableEq N]

/-- A run is sound at each of its steps exactly if the successor that a successful pop
has loaded is always still the successor. -/
theorem sound_iff_unchanged (acts : List (Act T N)) :
    Meets step Sound (.init T N) acts ↔ Meets step Unchanged (.init T N) acts :=
  (meets_congr (P := Inv) (fun _ a hi => (hi.sound_iff a).symm)
    (fun _ _ _ hi hu h => hi.step hu h) Inv.init).symm

/-- Thread 1 loads the top 0 and its successor 1; thread 0 pops both and pushes 0 again;
the exchange of thread 1 finds the same top. -/
def reuse : List (Act (Fin 2) (Fin 2)) :=
  let go (t : Fin 2) : Act (Fin 2) (Fin 2) := .access t false
  [.create 0 0, .create 0 1, .push 0 1, go 0, go 0, go 0, .push 0 0, go 0, go 0, go 0,
    .pop 1, go 1, go 1,
    .pop 0, go 0, go 0, go 0, .pop 0, go 0, go 0, go 0, .push 0 0, go 0, go 0, go 0,
    go 1]

theorem not_correct_reuse : ∃ s, run step (.init (Fin 2) (Fin 2)) reuse = some s ∧
    s.top = some 1 ∧ s.status 1 = .owned 0 ∧ ¬ Correct s := by
  have hs : ((run step (.init (Fin 2) (Fin 2)) reuse).map fun s => (s.top, s.status 1)) =
      some (some 1, .owned 0) := by
    decide +kernel
  obtain ⟨s, hr, he⟩ := Option.map_eq_some_iff.mp hs
  obtain ⟨htop, hst⟩ := Prod.mk.inj he
  refine ⟨s, hr, htop, hst, fun ⟨l, hl, hmem⟩ => ?_⟩
  rw [htop] at hl
  obtain ⟨m, rfl, -⟩ := chain_some.mp hl
  have := (hmem 1).mp List.mem_cons_self
  rw [hst] at this
  cases this

end Runs

end CppIpc.IntrusiveStack
