import CppIpc.FreeIds
import CppIpc.Lib.Sections

/-! # The chunk pool under its `spin_lock`

What `acquire_storage`, `release_storage`, `recycle_storage` and `clear_message` do to
`chunk_info_t` between `lock_.lock()` and `lock_.unlock()`, access by access, with any
number of threads and processes at it. A thread that dies is one that makes no step any
more. -/
namespace CppIpc.PoolSections
open CppIpc.FreeIds CppIpc.IdPool
open CppIpc.Lib.Sections (Object Pc Behind step_cases)
open CppIpc.Lib.Places (update_cases exists_moved exists_there)
open CppIpc.Lib.Runs (run run_invariant' run_cons)

/-! ## Inside -/

/-- `prepare` and `acquire`, or `release` of an id that is not negative. -/
inductive Op where
  | acquire
  | release (id : Nat)
deriving DecidableEq

/-- The access to make next. `acquire` looks at `cursor_` twice, in `empty` and for the
id. -/
inductive Local where
  | isPrepared
  | isInvalid
  | init (i : Nat)
  | setPrepared
  | isEmpty
  | getCursor
  | getNext (id : Nat)
  | setCursor (id next : Nat)
  | getLink (id : Nat)
  | setNext (id cursor : Nat)
  | putBack (id : Nat)
  | ret (r : Option Int)
deriving DecidableEq

/-- `memcmp` in `invalid` counts as one access. -/
def pool : Object Op Local Pool (Option Int) where
  start
    | .acquire => .isPrepared
    | .release id => .getLink id
  next
    | .isPrepared, p => .inl (if p.prepared then .setPrepared else .isInvalid, p)
    | .isInvalid, p => .inl (if p.invalid then .init 0 else .setPrepared, p)
    | .init i, p =>
      .inl (if i < maxCount then (.init (i + 1), p.setNext i (i + 1)) else (.setPrepared, p))
    | .setPrepared, p => .inl (.isEmpty, { p with prepared := true })
    | .isEmpty, p => .inl (if p.cursor = maxCount then .ret (some (-1)) else .getCursor, p)
    | .getCursor, p => .inl (.getNext p.cursor, p)
    | .getNext id, p => .inl (.setCursor id (p.next id), p)
    | .setCursor id next, p => .inl (.ret (some id), { p with cursor := next })
    | .getLink id, p => .inl (.setNext id p.cursor, p)
    | .setNext id cursor, p => .inl (.putBack id, p.setNext id cursor)
    | .putBack id, p => .inl (.ret none, { p with cursor := id })
    | .ret r, _ => .inr r

section Ends
variable {p p' : Pool} {r : Option Int}

theorem ends_setPrepared : pool.Ends .setPrepared p r p' ↔
    r = some (Pool.acquire { p with prepared := true }).1 ∧
      p' = (Pool.acquire { p with prepared := true }).2 := by
  rw [Object.ends_access rfl, Object.ends_access rfl, Pool.acquire]
  split
  · exact Object.ends_ret rfl
  · rw [Object.ends_access rfl, Object.ends_access rfl, Object.ends_access rfl]
    exact Object.ends_ret rfl

theorem ends_init : pool.Ends (.init 0) p r p' ↔ pool.Ends .setPrepared p.init r p' := by
  have hloop : ∀ n ≤ maxCount, pool.Ends (.init 0) p r p' ↔
      pool.Ends (.init n) ((List.range n).foldl (fun p i => p.setNext i (i + 1)) p) r p' := by
    intro n hn
    induction n with
    | zero => rfl
    | succ n ih =>
      have hnext : pool.next (.init n) ((List.range n).foldl (fun p i => p.setNext i (i + 1)) p) =
          .inl (.init (n + 1),
            ((List.range n).foldl (fun p i => p.setNext i (i + 1)) p).setNext n (n + 1)) := by
        simp only [pool, if_pos (show n < maxCount from hn)]
      rw [ih (Nat.le_of_succ_le hn), Object.ends_access hnext, List.range_succ, List.foldl_append]
      rfl
  have hend : pool.next (.init maxCount) p.init = .inl (.setPrepared, p.init) := by
    simp only [pool, if_neg (Nat.lt_irrefl maxCount)]
  rw [hloop maxCount (Nat.le_refl _)]
  exact Object.ends_access hend

/-- By itself the section of `acquire_storage` is `prepare` and `acquire`. -/
theorem ends_acquire : pool.Ends (pool.start .acquire) p r p' ↔
    r = some p.prepare.acquire.1 ∧ p' = p.prepare.acquire.2 := by
  rw [show pool.start .acquire = .isPrepared from rfl, Object.ends_access rfl, Pool.prepare]
  cases hp : p.prepared with
  | true =>
    have hno : ¬ (¬ true = true ∧ p.invalid = true) := fun h => h.1 rfl
    rw [if_pos rfl, if_neg hno]
    exact ends_setPrepared
  | false =>
    rw [if_neg Bool.false_ne_true, Object.ends_access rfl]
    cases hi : p.invalid with
    | true =>
      rw [if_pos rfl, if_pos (by simp), ends_init]
      exact ends_setPrepared
    | false =>
      rw [if_neg Bool.false_ne_true, if_neg (by simp)]
      exact ends_setPrepared

theorem ends_release {id : Nat} : pool.Ends (pool.start (.release id)) p r p' ↔
    r = none ∧ p' = p.release id := by
  rw [show pool.start (.release id) = .getLink id from rfl, Object.ends_access rfl,
    Object.ends_access rfl, Object.ends_access rfl, Pool.release, if_neg (by omega)]
  exact Object.ends_ret rfl

end Ends

/-! ## Many threads -/

variable {T : Type}

/-- `lc` is the word of the lock, `out` the ids that an `acquire_storage` has been left
with and no release called for. -/
structure St (T : Type) where
  lc : BitVec 32
  sec : Lib.Sections.St T Op Local Pool (Option Int)
  out : List Nat

/-- Zero-filled shared memory. -/
def St.init (T : Type) : St T := ⟨0, .init T Pool.zero, []⟩

/-- `exchange` is one round of `spin_lock::lock`, `unlock` its store. Callers release what
they have acquired. -/
inductive Act (T : Type) where
  | acquire (t : T)
  | release (t : T) (id : Nat)
  | exchange (t : T)
  | access (t : T)
  | unlock (t : T)

/-- The ids that are out when a section is left with this result. -/
def returned (op : Op) (r : Option Int) (out : List Nat) : List Nat :=
  match op, r with
  | .acquire, some id => if id < 0 then out else id.toNat :: out
  | _, _ => out

def step [DecidableEq T] (s : St T) : Act T → Option (St T)
  | .acquire t => (Lib.Sections.step pool s.sec (.call t .acquire)).map fun x => { s with sec := x }
  | .release t id =>
    if id ∈ s.out then
      (Lib.Sections.step pool s.sec (.call t (.release id))).map fun x =>
        { s with sec := x, out := s.out.erase id }
    else none
  | .exchange t =>
    match s.sec.pc t with
    | .waiting _ =>
      if s.lc = 0 then
        (Lib.Sections.step pool s.sec (.enter t)).map fun x => { s with lc := 1, sec := x }
      else some { s with lc := 1 }
    | _ => none
  | .access t => (Lib.Sections.step pool s.sec (.access t)).map fun x => { s with sec := x }
  | .unlock t =>
    match s.sec.pc t with
    | .leaving op r =>
      (Lib.Sections.step pool s.sec (.leave t)).map fun x => ⟨0, x, returned op r s.out⟩
    | _ => none

/-- The id is in the hands of a thread: given to a release that has not come to its end, or
about to be returned. -/
def Holds : Pc Op Local (Option Int) → Nat → Prop
  | .waiting (.release id), i | .inside (.release id) _, i => id = i
  | .leaving .acquire (some r), i => r = i
  | _, _ => False

/-- The sections of the log, with their results, are a run of calls made one at a time. -/
inductive Served : List (Op × Option Int) → Use → Prop
  | init : Served [] Use.init
  | acquire {es : List (Op × Option Int)} {u v : Use} (h : Served es u)
      (hs : run FreeIds.step u [.prepare, .acquire] = some v) :
      Served (es ++ [(.acquire, some v.result)]) v
  | release {es : List (Op × Option Int)} {u v : Use} {id : Nat} (h : Served es u)
      (hs : FreeIds.step u (.release id) = some v) : Served (es ++ [(.release id, none)]) v

theorem Served.inv {es : List (Op × Option Int)} {u : Use} (h : Served es u) : FreeIds.Inv u := by
  induction h with
  | init => exact FreeIds.Inv.init
  | acquire _ hs ih => exact run_invariant' (fun _ _ _ hi hs => hi.step hs) ih hs
  | release _ hs ih => exact ih.step hs

/-- What the pool does for its users, whoever they are and however they interleave. -/
structure Serves (s : St T) : Prop where
  /-- Nobody makes an access while another is between `lock` and `unlock`. -/
  alone : ∀ t t', (s.sec.pc t).Inside → (s.sec.pc t').Inside → t = t'
  /-- Each section had the result that the calls one at a time give, and so has the pool. -/
  served : ∃ u, Served s.sec.log u ∧ ((∀ t, ¬ (s.sec.pc t).Inside) → s.sec.mem = u.pool)
  /-- An id is out once. -/
  distinct : s.out.Nodup ∧ ∀ i ∈ s.out, i < maxCount
  /-- An id about to be returned is in nobody else's hands. -/
  granted : ∀ t i, s.sec.pc t = .leaving .acquire (some (Int.ofNat i)) →
    i < maxCount ∧ i ∉ s.out ∧ ∀ t', Holds (s.sec.pc t') i → t' = t
  /-- `acquire` is refused only if every id is. -/
  refused : ∀ t, s.sec.pc t = .leaving .acquire (some (-1)) →
    ∀ i < maxCount, i ∈ s.out ∨ ∃ t', Holds (s.sec.pc t') i

/-! ## Who has which id -/

/-- The ids that the pool has given, `all`, are each out or in the hands of one thread. -/
structure Custody (pc : T → Pc Op Local (Option Int)) (out all : List Nat) : Prop where
  split : ∀ i, i ∈ all ↔ i ∈ out ∨ ∃ t, Holds (pc t) i
  nodup : out.Nodup
  apart : ∀ t i, Holds (pc t) i → i ∉ out
  inj : ∀ t t' i, Holds (pc t) i → Holds (pc t') i → t = t'

namespace Custody
variable [DecidableEq T] {pc : T → Pc Op Local (Option Int)} {out all : List Nat} {t : T} {n : Nat}
  {x : Pc Op Local (Option Int)}

omit [DecidableEq T] in
theorem mem_out (hc : Custody pc out all) {i : Nat} (hi : i ∈ out) : i ∈ all :=
  (hc.split i).mpr (.inl hi)

theorem holds_iff {i : Nat} (h : Holds x i ↔ Holds (pc t) i) (t' : T) :
    Holds (Function.update pc t x t') i ↔ Holds (pc t') i := by
  by_cases he : t' = t
  · rw [he, Function.update_self, h]
  · rw [Function.update_of_ne he]

/-- A thread's move that leaves the ids where they are. -/
theorem same (hc : Custody pc out all) (h : ∀ i, Holds x i ↔ Holds (pc t) i) :
    Custody (Function.update pc t x) out all := by
  refine ⟨fun i => ?_, hc.nodup, fun t' i hi => ?_, fun t₁ t₂ i h₁ h₂ => ?_⟩
  · rw [hc.split i]
    exact or_congr_right (exists_congr fun t' => (holds_iff (h i) t').symm)
  · exact hc.apart t' i ((holds_iff (h i) t').mp hi)
  · exact hc.inj t₁ t₂ i ((holds_iff (h i) t₁).mp h₁) ((holds_iff (h i) t₂).mp h₂)

/-- A thread without an id gets one that nobody has in his hands. -/
theorem gets (hc : Custody pc out all) {out' all' : List Nat} (ht : ∀ i, ¬ Holds (pc t) i)
    (hx : ∀ i, Holds x i ↔ i = n) (hnone : ∀ t', ¬ Holds (pc t') n) (hnodup : out'.Nodup)
    (hmem : ∀ i, i ≠ n → (i ∈ out' ↔ i ∈ out) ∧ (i ∈ all' ↔ i ∈ all)) (hout : n ∉ out')
    (hall : n ∈ all') : Custody (Function.update pc t x) out' all' := by
  have hother : ∀ {i}, i ≠ n → ∀ t', Holds (Function.update pc t x t') i ↔ Holds (pc t') i :=
    fun hne => holds_iff (iff_of_false (fun h => hne ((hx _).mp h)) (ht _))
  have hthis : ∀ t', Holds (Function.update pc t x t') n → t' = t := by
    intro t' hi
    by_contra hne
    rw [Function.update_of_ne hne] at hi
    exact hnone t' hi
  refine ⟨fun i => ?_, hnodup, fun t' i hi => ?_, fun t₁ t₂ i h₁ h₂ => ?_⟩
  · by_cases he : i = n
    · rw [he]
      exact iff_of_true hall (.inr (exists_there (P := (Holds · n)) pc t ((hx n).mpr rfl)))
    · rw [(hmem i he).1, (hmem i he).2, hc.split i]
      exact or_congr_right (exists_congr fun t' => (hother he t').symm)
  · by_cases he : i = n
    · rwa [he]
    · rw [(hmem i he).1]
      exact hc.apart t' i ((hother he t').mp hi)
  · by_cases he : i = n
    · rw [hthis t₁ (he ▸ h₁), hthis t₂ (he ▸ h₂)]
    · exact hc.inj t₁ t₂ i ((hother he t₁).mp h₁) ((hother he t₂).mp h₂)

/-- A thread's id is out from now on, or back in the pool. -/
theorem gives (hc : Custody pc out all) {out' all' : List Nat} (ht : ∀ i, Holds (pc t) i ↔ i = n)
    (hx : ∀ i, ¬ Holds x i) (hnodup : out'.Nodup)
    (hmem : ∀ i, i ≠ n → (i ∈ out' ↔ i ∈ out) ∧ (i ∈ all' ↔ i ∈ all))
    (hid : n ∈ all' ↔ n ∈ out') : Custody (Function.update pc t x) out' all' := by
  have hother : ∀ {i}, i ≠ n → ∀ t', Holds (Function.update pc t x t') i ↔ Holds (pc t') i :=
    fun hne => holds_iff (iff_of_false (hx _) fun h => hne ((ht _).mp h))
  have hnone : ∀ t', ¬ Holds (Function.update pc t x t') n := by
    intro t' hi
    by_cases hne : t' = t
    · rw [hne, Function.update_self] at hi
      exact hx n hi
    · rw [Function.update_of_ne hne] at hi
      exact hne (hc.inj t' t n hi ((ht n).mpr rfl))
  refine ⟨fun i => ?_, hnodup, fun t' i hi => ?_, fun t₁ t₂ i h₁ h₂ => ?_⟩
  · by_cases he : i = n
    · rw [he, hid, or_iff_left fun ⟨t', h⟩ => hnone t' h]
    · rw [(hmem i he).1, (hmem i he).2, hc.split i]
      exact or_congr_right (exists_congr fun t' => (hother he t').symm)
  · by_cases he : i = n
    · exact absurd (he ▸ hi) (hnone t')
    · rw [(hmem i he).1]
      exact hc.apart t' i ((hother he t').mp hi)
  · by_cases he : i = n
    · exact absurd (he ▸ h₁) (hnone t₁)
    · exact hc.inj t₁ t₂ i ((hother he t₁).mp h₁) ((hother he t₂).mp h₂)

end Custody

/-! ## Runs -/

/-- `u` is the pool as the sections of the log have left it. -/
structure Inv (s : St T) (u : Use) : Prop where
  word : s.lc ≠ 0 ↔ ∃ t, (s.sec.pc t).Inside
  served : Served s.sec.log u
  behind : Behind pool u.pool s.sec
  custody : Custody s.sec.pc s.out u.out
  refused : ∀ t, s.sec.pc t = .leaving .acquire (some (-1)) → u.free = ∅

section Inv
variable [DecidableEq T] {s s' : St T} {u : Use} {t : T} {a : Act T}
  {x : Lib.Sections.St T Op Local Pool (Option Int)}

omit [DecidableEq T] in
theorem init_inv : Inv (St.init T) Use.init where
  word := iff_of_false (fun h => h rfl) fun ⟨_, h⟩ => h
  served := .init
  behind := Lib.Sections.behind_init _
  custody :=
    ⟨fun i => iff_of_false List.not_mem_nil fun h => h.elim List.not_mem_nil fun ⟨_, h⟩ => h,
      List.nodup_nil, fun _ _ h => h.elim, fun _ _ _ h => h.elim⟩
  refused _ h := by cases h

/-- A thread that goes on without leaving with -1. -/
theorem Inv.refused_same (hi : Inv s u) {pc : Pc Op Local (Option Int)}
    (hpc : pc ≠ .leaving .acquire (some (-1))) (t' : T)
    (ht : Function.update s.sec.pc t pc t' = .leaving .acquire (some (-1))) : u.free = ∅ :=
  hi.refused t' (Lib.Places.of_update_eq ht hpc).2

/-- A thread that stays between `lock` and `unlock` keeps the others out. -/
theorem Inv.refused_inside (hi : Inv s u) (hin : (s.sec.pc t).Inside)
    {pc : Pc Op Local (Option Int)} {t' : T}
    (ht : Function.update s.sec.pc t pc t' = .leaving .acquire (some (-1))) :
    pc = .leaving .acquire (some (-1)) := by
  rcases update_cases ht with ⟨-, he⟩ | ⟨hne, he⟩
  · exact he
  · exact absurd (hi.behind.one t' t (by rw [he]; trivial) hin) hne

theorem Inv.word_outside (hi : Inv s u) {pc : Pc Op Local (Option Int)}
    (h : ¬ (s.sec.pc t).Inside) (h' : ¬ pc.Inside) :
    s.lc ≠ 0 ↔ ∃ t', (Function.update s.sec.pc t pc t').Inside := by
  rw [hi.word]
  exact exists_congr fun t' => (Lib.Places.update_outside h h').symm

theorem Inv.word_inside (hi : Inv s u) {pc : Pc Op Local (Option Int)}
    (h : (s.sec.pc t).Inside) (h' : pc.Inside) :
    s.lc ≠ 0 ↔ ∃ t', (Function.update s.sec.pc t pc t').Inside :=
  iff_of_true (hi.word.mpr ⟨t, h⟩) (exists_there s.sec.pc t h')

theorem Inv.call_acquire (hi : Inv s u) (hpc : s.sec.pc t = .outside) :
    Inv { s with sec := s.sec.goto t (.waiting .acquire) } u := by
  have hout : ¬ (s.sec.pc t).Inside := by rw [hpc]; exact id
  refine ⟨hi.word_outside hout id, hi.served, hi.behind.apart hout id,
    hi.custody.same fun i => ?_, ?_⟩
  · rw [hpc]
    rfl
  · exact hi.refused_same (by simp)

theorem Inv.call_release (hi : Inv s u) {n : Nat} (hpc : s.sec.pc t = .outside) (hn : n ∈ s.out) :
    Inv { s with sec := s.sec.goto t (.waiting (.release n)), out := s.out.erase n } u := by
  have hout : ¬ (s.sec.pc t).Inside := by rw [hpc]; exact id
  refine ⟨hi.word_outside hout id, hi.served, hi.behind.apart hout id, ?_, ?_⟩
  · refine hi.custody.gets (n := n) (fun i => ?_) (fun i => eq_comm) (fun t' hh => ?_)
      (hi.custody.nodup.erase n) (fun i hne => ⟨List.mem_erase_of_ne hne, Iff.rfl⟩)
      hi.custody.nodup.not_mem_erase (hi.custody.mem_out hn)
    · rw [hpc]
      exact id
    · exact hi.custody.apart t' n hh hn
  · exact hi.refused_same (by simp)

theorem Inv.enter (hi : Inv s u) (hlc : s.lc = 0) {op : Op} (hpc : s.sec.pc t = .waiting op) :
    Inv { s with lc := 1, sec := s.sec.goto t (.inside op (pool.start op)) } u := by
  have hfree : ∀ t', ¬ (s.sec.pc t').Inside := fun t' ht => hi.word.mpr ⟨t', ht⟩ hlc
  have hone : (1 : BitVec 32) ≠ 0 := by decide
  refine ⟨iff_of_true hone (exists_there (P := Pc.Inside) s.sec.pc t trivial), hi.served,
    hi.behind.enter hfree, hi.custody.same fun i => ?_, ?_⟩
  · rw [hpc]
    cases op with
    | acquire => rfl
    | release n => rfl
  · exact hi.refused_same (by simp)

omit [DecidableEq T] in
/-- Another round of the loop in `lock`. -/
theorem Inv.spin (hi : Inv s u) (hlc : s.lc ≠ 0) : Inv { s with lc := 1 } u := by
  have hone : (1 : BitVec 32) ≠ 0 := by decide
  exact ⟨iff_of_true hone (hi.word.mp hlc), hi.served, hi.behind, hi.custody, hi.refused⟩

theorem Inv.access (hi : Inv s u) {op : Op} {l l' : Local} {p : Pool}
    (hpc : s.sec.pc t = .inside op l) (hn : pool.next l s.sec.mem = .inl (l', p)) :
    Inv { s with sec := { s.sec.goto t (.inside op l') with mem := p } } u := by
  have hin : (s.sec.pc t).Inside := Pc.inside_of hpc
  refine ⟨hi.word_inside hin trivial, hi.served, hi.behind.access hpc hn,
    hi.custody.same fun i => ?_, ?_⟩
  · rw [hpc]
    cases op with
    | acquire => rfl
    | release n => rfl
  · exact hi.refused_same (by simp)

/-- `prepare` and `acquire`, called one at a time. -/
theorem run_acquire (hu : FreeIds.Inv u) : ∃ v, run FreeIds.step u [.prepare, .acquire] = some v ∧
    v.pool = u.pool.prepare.acquire.2 ∧ v.result = u.pool.prepare.acquire.1 ∧
    ((v.result = -1 ∧ v.out = u.out ∧ v.free = ∅) ∨
      ∃ i : Nat, v.result = i ∧ i < maxCount ∧ i ∉ u.out ∧ v.out = i :: u.out) := by
  have hprep : FreeIds.step u .prepare =
      some { u with pool := u.pool.prepare, ready := true } := rfl
  refine ⟨_, rfl, rfl, rfl, ?_⟩
  obtain ⟨-, ⟨he, hfree⟩ | ⟨i, r, he, hi, -, -⟩⟩ := step_acquire (hu.step hprep) rfl
  · rw [he]
    exact .inl ⟨rfl, rfl, hfree⟩
  · rw [he]
    exact .inr ⟨i, rfl, hi.1, hi.2, rfl⟩

/-- The section of `acquire_storage` comes to its end. -/
theorem Inv.acquired (hi : Inv s u) {l : Local} {r : Option Int}
    (hpc : s.sec.pc t = .inside .acquire l) (hn : pool.next l s.sec.mem = .inr r) :
    ∃ v, Inv { s with sec := { s.sec.goto t (.leaving .acquire r) with
      log := s.sec.log ++ [(.acquire, r)] } } v := by
  have hin : (s.sec.pc t).Inside := Pc.inside_of hpc
  obtain ⟨hends, hb⟩ := hi.behind.ends hpc hn
  obtain ⟨hr, hmem⟩ := ends_acquire.mp hends
  obtain ⟨v, hrun, hpool, hres, hcases⟩ := run_acquire hi.served.inv
  have hserved := hi.served.acquire hrun
  have hthis : ∀ i, ¬ Holds (s.sec.pc t) i := fun i => by rw [hpc]; exact id
  rw [← hres] at hr
  rw [hmem, ← hpool] at hb
  refine ⟨v, hi.word_inside hin trivial, by rw [hr]; exact hserved,
    by rw [hr] at hb ⊢; exact hb, ?_, fun t' ht => ?_⟩
  · rw [hr]
    rcases hcases with ⟨hneg, hout, -⟩ | ⟨i, hi', -, hno, hout⟩
    · rw [hout, hneg]
      exact hi.custody.same fun i => iff_of_false (by simp [Holds]) (hthis i)
    · have hnone : ∀ t', ¬ Holds (s.sec.pc t') i := fun t' hh =>
        hno ((hi.custody.split i).mpr (.inr ⟨t', hh⟩))
      rw [hout, hi']
      exact hi.custody.gets (n := i) hthis (fun j => by simp [Holds, eq_comm]) hnone
        hi.custody.nodup (fun j hne => ⟨Iff.rfl, by simp [hne]⟩)
        (fun ho => hno (hi.custody.mem_out ho)) (by simp)
  · cases hi.refused_inside hin ht
    rcases hcases with ⟨-, -, hfree⟩ | ⟨i, hi', -, -, -⟩
    · exact hfree
    · have hneg : (-1 : Int) = i := (Option.some.inj hr).trans hi'
      omega

/-- The section of a release comes to its end. -/
theorem Inv.released (hi : Inv s u) {n : Nat} {l : Local} {r : Option Int}
    (hpc : s.sec.pc t = .inside (.release n) l) (hn : pool.next l s.sec.mem = .inr r) :
    ∃ v, Inv { s with sec := { s.sec.goto t (.leaving (.release n) r) with
      log := s.sec.log ++ [(.release n, r)] } } v := by
  have hin : (s.sec.pc t).Inside := Pc.inside_of hpc
  obtain ⟨hends, hb⟩ := hi.behind.ends hpc hn
  obtain ⟨hr, hmem⟩ := ends_release.mp hends
  have hthis : ∀ i, Holds (s.sec.pc t) i ↔ i = n := fun i => by rw [hpc]; exact eq_comm
  have hmine : n ∈ u.out := (hi.custody.split n).mpr (.inr ⟨t, (hthis n).mpr rfl⟩)
  have hstep : FreeIds.step u (.release n) =
      some { u with pool := u.pool.release n, out := u.out.erase n } := if_pos hmine
  have hnodup := hi.served.inv.nodup
  rw [hmem] at hb
  refine ⟨_, hi.word_inside hin trivial, by rw [hr]; exact hi.served.release hstep, hb, ?_,
    fun t' ht => ?_⟩
  · refine hi.custody.gives hthis (fun i => id) hi.custody.nodup
      (fun i hne => ⟨Iff.rfl, List.mem_erase_of_ne hne⟩) (iff_of_false hnodup.not_mem_erase ?_)
    exact hi.custody.apart t n ((hthis n).mpr rfl)
  · cases hi.refused_inside hin ht

theorem Inv.unlock (hi : Inv s u) {op : Op} {r : Option Int} (hpc : s.sec.pc t = .leaving op r) :
    Inv ⟨0, s.sec.goto t .outside, returned op r s.out⟩ u := by
  have hin : (s.sec.pc t).Inside := by rw [hpc]; trivial
  have hout := hi.behind.nobody hin
  refine ⟨iff_of_false (fun h => h rfl) fun ⟨t', ht⟩ => hout t' ht, hi.served,
    hi.behind.leave hpc, ?_, fun t' ht => absurd (by rw [ht]; trivial) (hout t')⟩
  have hkeep : (∀ i, ¬ Holds (s.sec.pc t) i) →
      Custody (Function.update s.sec.pc t .outside) s.out u.out :=
    fun h => hi.custody.same fun i => iff_of_false id (h i)
  cases op with
  | release n => exact hkeep fun i => by rw [hpc]; exact id
  | acquire =>
    cases r with
    | none => exact hkeep fun i => by rw [hpc]; exact id
    | some id =>
      rw [returned]
      by_cases hneg : id < 0
      · rw [if_pos hneg]
        refine hkeep fun i => ?_
        rw [hpc]
        simp only [Holds]
        omega
      · rw [if_neg hneg]
        have hthis : ∀ i, Holds (s.sec.pc t) i ↔ i = id.toNat := fun i => by
          rw [hpc]
          simp only [Holds]
          omega
        have hmine := (hthis _).mpr rfl
        have hapart := hi.custody.apart t _ hmine
        exact hi.custody.gives hthis (fun i h => h) (List.nodup_cons.mpr ⟨hapart, hi.custody.nodup⟩)
          (fun i hne => ⟨by simp [hne], Iff.rfl⟩)
          (iff_of_true ((hi.custody.split _).mpr (.inr ⟨t, hmine⟩)) (by simp))

theorem Inv.step (hi : Inv s u) (h : PoolSections.step s a = some s') : ∃ v, Inv s' v := by
  cases a with
  | acquire t =>
    obtain ⟨x, hx, rfl⟩ := Option.map_eq_some_iff.mp h
    cases step_cases hx with
    | call _ _ hpc => exact ⟨u, hi.call_acquire hpc⟩
  | release t n =>
    simp only [PoolSections.step] at h
    split at h
    · rename_i hn
      obtain ⟨x, hx, rfl⟩ := Option.map_eq_some_iff.mp h
      cases step_cases hx with
      | call _ _ hpc => exact ⟨u, hi.call_release hpc hn⟩
    · cases h
  | exchange t =>
    simp only [PoolSections.step] at h
    split at h
    · split at h
      · rename_i hlc
        obtain ⟨x, hx, rfl⟩ := Option.map_eq_some_iff.mp h
        cases step_cases hx with
        | enter _ _ hpc => exact ⟨u, hi.enter hlc hpc⟩
      · rename_i hlc
        cases h
        exact ⟨u, hi.spin hlc⟩
    · cases h
  | access t =>
    obtain ⟨x, hx, rfl⟩ := Option.map_eq_some_iff.mp h
    cases step_cases hx with
    | access _ _ _ _ _ hpc hn => exact ⟨u, hi.access hpc hn⟩
    | ends _ op l r hpc hn =>
      cases op with
      | acquire => exact hi.acquired hpc hn
      | release n => exact hi.released hpc hn
  | unlock t =>
    simp only [PoolSections.step] at h
    split at h
    · rename_i hpc
      obtain ⟨x, hx, rfl⟩ := Option.map_eq_some_iff.mp h
      cases step_cases hx with
      | leave _ _ _ _ => exact ⟨u, hi.unlock hpc⟩
    · cases h

omit [DecidableEq T] in
theorem Inv.serves (hi : Inv s u) : Serves s := by
  have hinv := hi.served.inv
  have hlt : ∀ i ∈ u.out, i < maxCount := hinv.lt
  refine ⟨hi.behind.one, ⟨u, hi.served, fun h => ?_⟩, ⟨hi.custody.nodup, fun i hm =>
    hlt i (hi.custody.mem_out hm)⟩, fun t i ht => ?_, fun t ht i hi' => ?_⟩
  · exact hi.behind.quiet fun t op l hpc => h t (Pc.inside_of hpc)
  · have hmine : Holds (s.sec.pc t) i := by
      rw [ht]
      rfl
    exact ⟨hlt i ((hi.custody.split i).mpr (.inr ⟨t, hmine⟩)), hi.custody.apart t i hmine,
      fun t' hh => hi.custody.inj t' t i hh hmine⟩
  · have hfull := hi.refused t ht
    have hmem : i ∈ u.out := by
      by_contra hno
      have : i ∈ u.free := ⟨hi', hno⟩
      rw [hfull] at this
      exact this
    exact (hi.custody.split i).mp hmem

end Inv

/-- Every interleaving of the accesses, from zero-filled memory on. -/
theorem pool_of_run [DecidableEq T] {acts : List (Act T)} {s : St T}
    (hr : run step (.init T) acts = some s) : Serves s := by
  obtain ⟨u, hi⟩ := run_invariant' (P := fun s => ∃ u, Inv s u) (fun _ _ _ ⟨_, hi⟩ h => hi.step h)
    ⟨_, init_inv⟩ hr
  exact hi.serves

def accesses (t : Bool) (n : Nat) : List (Act Bool) := List.replicate n (.access t)

/-- Two threads acquire and the first releases; the second spins meanwhile. -/
def interleaved : List (Act Bool) :=
  [Act.acquire false, Act.acquire true, Act.exchange false, Act.exchange true] ++
    accesses false 41 ++
    [Act.exchange true, Act.unlock false, Act.release false 0, Act.exchange true] ++
    accesses true 7 ++ [Act.unlock true, Act.exchange false] ++ accesses false 4 ++
    [Act.unlock false]

theorem pool_of_run_interleaved :
    ∃ s : St Bool, run step (.init Bool) interleaved = some s ∧ s.out = [1] ∧
      s.sec.log = [(.acquire, some 0), (.acquire, some 1), (.release 0, none)] ∧ Serves s := by
  have hs : (run step (.init Bool) interleaved).map (fun s => (s.out, s.sec.log)) =
      some ([1], [(.acquire, some 0), (.acquire, some 1), (.release 0, none)]) := by
    decide +kernel
  obtain ⟨s, hr, he⟩ := Option.map_eq_some_iff.mp hs
  obtain ⟨hout, hlog⟩ := Prod.mk.inj he
  exact ⟨s, hr, hout, hlog, pool_of_run hr⟩

end CppIpc.PoolSections
