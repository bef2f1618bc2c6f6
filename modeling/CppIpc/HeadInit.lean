import CppIpc.Lib.Runs
import CppIpc.Receivers
import Mathlib.Data.Fintype.Basic

/-! # `conn_head_base::init`

The head of a queue is constructed in zero-filled shared memory by whoever opens the
queue first. The check is made twice, and between the two stands a `spin_lock` that
is itself a member of the head. Every access is one step; so is the
placement-new, which resets all three members. -/
namespace CppIpc.HeadInit
open CppIpc.Def
open CppIpc.Lib.Runs (run Meets run_invariant)

/-- `conn_head_base`. -/
structure Head where
  cc : CC
  lc : BitVec 32
  constructed : Bool
deriving DecidableEq

/-- Zero-filled memory, and also what `::new (this) conn_head_base` leaves. -/
def Head.zero : Head := ⟨0, 0, false⟩

/-- Where a process stands: in `init` before one of its accesses, or after it, where it
may be inside a `connect` with or without the word that it has loaded. -/
inductive Pc where
  | out
  | check
  | exchange
  | recheck
  | construct
  | store
  | unlock
  | ready
  | connecting
  | loaded (curr : CC)
deriving DecidableEq

/-- `news` counts the placements. -/
structure St (P : Type) where
  head : Head
  pc : P → Pc
  news : Nat

def St.init (P : Type) : St P := ⟨.zero, fun _ => .out, 0⟩

inductive Act (P : Type) where
  | enter (p : P)
  | check (p : P)
  | exchange (p : P)
  | recheck (p : P)
  | construct (p : P)
  | store (p : P)
  | unlock (p : P)
  | connect (p : P)
  | load (p : P)
  /-- `spurious`: the weak exchange fails although the word is the expected one. -/
  | cas (p : P) (spurious : Bool)
  | disconnect (p : P) (ccId : CC)
deriving DecidableEq

variable {P : Type}

def St.setHead (s : St P) (h : Head) : St P := { s with head := h }

@[simp] theorem setHead_head (s : St P) (h : Head) : (s.setHead h).head = h := rfl
@[simp] theorem setHead_pc (s : St P) (h : Head) : (s.setHead h).pc = s.pc := rfl
@[simp] theorem setHead_news (s : St P) (h : Head) : (s.setHead h).news = s.news := rfl

def Head.setLc (h : Head) (lc : BitVec 32) : Head := { h with lc := lc }
def Head.setCc (h : Head) (cc : CC) : Head := { h with cc := cc }

variable [DecidableEq P]

def St.goto (s : St P) (p : P) (pc : Pc) : St P := { s with pc := Function.update s.pc p pc }

def step (s : St P) : Act P → Option (St P)
  | .enter p => if s.pc p = .out then some (s.goto p .check) else none
  | .check p =>
    if s.pc p = .check then
      some (s.goto p (if s.head.constructed then .ready else .exchange))
    else none
  -- one turn of the loop of `spin_lock::lock`
  | .exchange p =>
    if s.pc p = .exchange then
      some ((s.setHead (s.head.setLc 1)).goto p (if s.head.lc ≠ 0 then .exchange else .recheck))
    else none
  | .recheck p =>
    if s.pc p = .recheck then
      some (s.goto p (if s.head.constructed then .unlock else .construct))
    else none
  | .construct p =>
    if s.pc p = .construct then
      some { (s.setHead .zero).goto p .store with news := s.news + 1 }
    else none
  | .store p =>
    if s.pc p = .store then
      some ((s.setHead { s.head with constructed := true }).goto p .unlock)
    else none
  | .unlock p =>
    if s.pc p = .unlock then some ((s.setHead (s.head.setLc 0)).goto p .ready) else none
  | .connect p => if s.pc p = .ready then some (s.goto p .connecting) else none
  | .load p =>
    if s.pc p = .connecting then
      -- a full word ends the call with 0
      some (s.goto p (if s.head.cc ||| (s.head.cc + 1) = s.head.cc then .ready
        else .loaded s.head.cc))
    else none
  | .cas p spurious =>
    match s.pc p with
    | .loaded curr =>
      if s.head.cc = curr ∧ spurious = false then
        some ((s.setHead (s.head.setCc (curr ||| (curr + 1)))).goto p .ready)
      else some (s.goto p .connecting)
    | _ => none
  | .disconnect p ccId =>
    if s.pc p = .ready then some (s.setHead (s.head.setCc (s.head.cc &&& ~~~ccId))) else none

/-- A bit of the connection word is cleared by a disconnect of that bit only. -/
def Keeps (s : St P) (a : Act P) : Prop :=
  ∀ t, step s a = some t → ∀ i, s.head.cc.getLsbD i = true → t.head.cc.getLsbD i = false →
    ∃ p ccId, a = .disconnect p ccId ∧ ccId.getLsbD i = true

/-- Nobody reads `constructed_` under the lock between the placement-new of a process
and its store of true. -/
def Apart (s : St P) : Act P → Prop
  | .recheck _ => ∀ q, s.pc q ≠ .store
  | _ => True

instance [Fintype P] (s : St P) : (a : Act P) → Decidable (Apart s a)
  | .recheck _ => inferInstanceAs (Decidable (∀ q, s.pc q ≠ .store))
  | .enter _ | .check _ | .exchange _ | .construct _ | .store _ | .unlock _ | .connect _ | .load _
  | .cas .. | .disconnect .. => isTrue trivial

/-! ## The three phases of the head -/

/-- Not yet past the lock. -/
def Pc.Before : Pc → Prop
  | .out | .check | .exchange => True
  | _ => False

/-- Past the lock and not past the placement. -/
def Pc.Holds : Pc → Prop
  | .recheck | .construct => True
  | _ => False

/-- Nobody has placed the head, and the lock excludes. -/
structure Blank (s : St P) : Prop where
  news : s.news = 0
  constructed : s.head.constructed = false
  cc : s.head.cc = 0
  pc : ∀ p, (s.pc p).Before ∨ (s.pc p).Holds
  one : ∀ p q, (s.pc p).Holds → (s.pc q).Holds → p = q
  locked : ∀ p, (s.pc p).Holds → s.head.lc = 1

/-- `q` has placed the head and not yet said so; the lock is free, and others may have
taken it. -/
structure Placed (q : P) (s : St P) : Prop where
  news : s.news = 1
  constructed : s.head.constructed = false
  cc : s.head.cc = 0
  store : s.pc q = .store
  pc : ∀ p, p ≠ q → (s.pc p).Before ∨ s.pc p = .recheck

/-- Whoever checks from now on finds the head constructed. -/
structure Built (s : St P) : Prop where
  news : s.news = 1
  constructed : s.head.constructed = true
  pc : ∀ p, s.pc p ≠ .construct ∧ s.pc p ≠ .store

def Phase (s : St P) : Prop := Blank s ∨ (∃ q, Placed q s) ∨ Built s

section Phases
variable {s t : St P} {p q : P} {h : Head} {pc : Pc}

@[simp] theorem goto_head : (s.goto p pc).head = s.head := rfl
@[simp] theorem goto_news : (s.goto p pc).news = s.news := rfl
@[simp] theorem goto_self : (s.goto p pc).pc p = pc := Function.update_self ..
theorem goto_other (hne : q ≠ p) : (s.goto p pc).pc q = s.pc q := Function.update_of_ne hne ..

omit [DecidableEq P] in
theorem blank_init : Blank (St.init P) where
  news := rfl
  constructed := rfl
  cc := rfl
  pc := fun _ => .inl trivial
  one := fun _ _ h => h.elim
  locked := fun _ h => h.elim

omit [DecidableEq P] in
theorem Blank.pc_of (hb : Blank s) (hpc : s.pc p = pc) : pc.Before ∨ pc.Holds := hpc ▸ hb.pc p

/-- A step before the placement. -/
theorem Blank.move (hb : Blank s) (hpc : pc.Before ∨ pc.Holds)
    (hc : h.constructed = false) (hcc : h.cc = 0)
    (hone : pc.Holds → ∀ q, q ≠ p → ¬ (s.pc q).Holds) (hp : pc.Holds → h.lc = 1)
    (hlc : ∀ q, (s.pc q).Holds → h.lc = 1) : Blank ((s.setHead h).goto p pc) where
  news := hb.news
  constructed := hc
  cc := hcc
  pc q := by
    by_cases he : q = p
    · rw [he, goto_self]; exact hpc
    · rw [goto_other he]; exact hb.pc q
  one q r hq hr := by
    by_cases he : q = p
    · by_cases he' : r = p
      · rw [he, he']
      · rw [goto_other he'] at hr
        rw [he, goto_self] at hq
        exact absurd hr (hone hq r he')
    · rw [goto_other he] at hq
      by_cases he' : r = p
      · rw [he', goto_self] at hr
        exact absurd hq (hone hr q he)
      · rw [goto_other he'] at hr
        exact hb.one q r hq hr
  locked q hq := by
    by_cases he : q = p
    · rw [he, goto_self] at hq; exact hp hq
    · rw [goto_other he] at hq; exact hlc q hq

theorem Placed.move (hb : Placed q s) (hne : p ≠ q) (hpc : pc.Before ∨ pc = .recheck)
    (hc : h.constructed = false) (hcc : h.cc = 0) : Placed q ((s.setHead h).goto p pc) where
  news := hb.news
  constructed := hc
  cc := hcc
  store := by rw [goto_other hne.symm]; exact hb.store
  pc r hr := by
    by_cases he : r = p
    · rw [he, goto_self]; exact hpc
    · rw [goto_other he]; exact hb.pc r hr

theorem Built.move (hb : Built s) (hpc : pc ≠ .construct ∧ pc ≠ .store)
    (hc : h.constructed = true) : Built ((s.setHead h).goto p pc) where
  news := hb.news
  constructed := hc
  pc r := by
    by_cases he : r = p
    · rw [he, goto_self]; exact hpc
    · rw [goto_other he]; exact hb.pc r

omit [DecidableEq P] in
/-- Where `q` has placed the head, the others are before the lock or at the second
check. -/
theorem Placed.pc_of (hb : Placed q s) (hpc : s.pc p = pc) (hne : pc ≠ .store) :
    p ≠ q ∧ (pc.Before ∨ pc = .recheck) := by
  have hpq : p ≠ q := fun he => hne (by rw [← hpc, he, hb.store])
  exact ⟨hpq, hpc ▸ hb.pc p hpq⟩

omit [DecidableEq P] in
theorem Blank.not_late (hb : Blank s) (hpc : s.pc p = pc) (hl : ¬ pc.Before ∧ ¬ pc.Holds) : False :=
  (hb.pc_of hpc).elim hl.1 hl.2

/-- What a step does, with where its process was. -/
inductive Did (s : St P) : Act P → St P → Prop
  | enter {p : P} (hp : s.pc p = .out) : Did s (.enter p) (s.goto p .check)
  | check {p : P} (hp : s.pc p = .check) :
    Did s (.check p) (s.goto p (if s.head.constructed then .ready else .exchange))
  | exchange {p : P} (hp : s.pc p = .exchange) : Did s (.exchange p)
    ((s.setHead (s.head.setLc 1)).goto p (if s.head.lc ≠ 0 then .exchange else .recheck))
  | recheck {p : P} (hp : s.pc p = .recheck) :
    Did s (.recheck p) (s.goto p (if s.head.constructed then .unlock else .construct))
  | construct {p : P} (hp : s.pc p = .construct) :
    Did s (.construct p) { (s.setHead .zero).goto p .store with news := s.news + 1 }
  | store {p : P} (hp : s.pc p = .store) :
    Did s (.store p) ((s.setHead { s.head with constructed := true }).goto p .unlock)
  | unlock {p : P} (hp : s.pc p = .unlock) :
    Did s (.unlock p) ((s.setHead (s.head.setLc 0)).goto p .ready)
  | connect {p : P} (hp : s.pc p = .ready) : Did s (.connect p) (s.goto p .connecting)
  | load {p : P} (hp : s.pc p = .connecting) : Did s (.load p)
    (s.goto p (if s.head.cc ||| (s.head.cc + 1) = s.head.cc then .ready else .loaded s.head.cc))
  | cas {p : P} {spurious : Bool} (hp : s.pc p = .loaded s.head.cc) : Did s (.cas p spurious)
    ((s.setHead (s.head.setCc (s.head.cc ||| (s.head.cc + 1)))).goto p .ready)
  | casFails {p : P} {spurious : Bool} (curr : CC) (hp : s.pc p = .loaded curr) :
    Did s (.cas p spurious) (s.goto p .connecting)
  | disconnect {p : P} {ccId : CC} (hp : s.pc p = .ready) :
    Did s (.disconnect p ccId) (s.setHead (s.head.setCc (s.head.cc &&& ~~~ccId)))

theorem did_of_step {a : Act P} (h : step s a = some t) : Did s a t := by
  cases a with
  | cas p spurious =>
    simp only [HeadInit.step] at h
    split at h
    · rename_i curr hp
      split at h
      · rename_i he
        cases h
        obtain rfl := he.1
        exact .cas hp
      · cases h
        exact .casFails curr hp
    · cases h
  | enter p | check p | exchange p | recheck p | construct p | store p | unlock p | connect p
  | load p | disconnect p ccId =>
    obtain ⟨hp, he⟩ := Option.ite_none_right_eq_some.mp h
    cases he
    constructor
    exact hp

theorem Blank.step {a : Act P} (hb : Blank s) (h : step s a = some t) : Phase t := by
  have hlc : ∀ q, (s.pc q).Holds → s.head.lc = 1 := hb.locked
  have hc := hb.constructed
  cases did_of_step h with
  | enter => exact .inl (hb.move (.inl trivial) hc hb.cc False.elim False.elim hlc)
  | check =>
    rw [hc]
    exact .inl (hb.move (.inl trivial) hc hb.cc False.elim False.elim hlc)
  | exchange =>
    refine .inl (hb.move ?_ hc hb.cc (fun hpc q _ hq => ?_) (fun _ => rfl) fun _ _ => rfl)
    · split
      · exact .inl trivial
      · exact .inr trivial
    · -- the lock was free, so nobody holds it
      split at hpc
      · exact hpc
      · rename_i h0
        rw [hb.locked q hq] at h0
        exact h0 (by decide)
  | @recheck p hp =>
    have hh : (s.pc p).Holds := by rw [hp]; trivial
    rw [hc]
    exact .inl (hb.move (.inr trivial) hc hb.cc (fun _ q hne hq => hne (hb.one q p hq hh))
      (fun _ => hb.locked p hh) hlc)
  | @construct p hp =>
    have hh : (s.pc p).Holds := by rw [hp]; trivial
    refine .inr (.inl ⟨p, ?_, rfl, rfl, Function.update_self .., fun q hq => .inl ?_⟩)
    · rw [hb.news]
    · change (((s.setHead .zero).goto p .store).pc q).Before
      rw [goto_other hq]
      exact (hb.pc q).resolve_right fun hq' => hq (hb.one q p hq' hh)
  | store hp | unlock hp | connect hp | load hp | cas hp | casFails _ hp | disconnect hp =>
    exact (hb.not_late hp ⟨id, id⟩).elim

theorem Placed.step {a : Act P} (hb : Placed q s) (ha : Apart s a) (h : step s a = some t) :
    Phase t := by
  have hc := hb.constructed
  cases did_of_step h with
  | enter hp => exact .inr (.inl ⟨q, hb.move (hb.pc_of hp nofun).1 (.inl trivial) hc hb.cc⟩)
  | check hp =>
    rw [hc]
    exact .inr (.inl ⟨q, hb.move (hb.pc_of hp nofun).1 (.inl trivial) hc hb.cc⟩)
  | exchange hp =>
    refine .inr (.inl ⟨q, hb.move (hb.pc_of hp nofun).1 ?_ hc hb.cc⟩)
    split
    · exact .inl trivial
    · exact .inr rfl
  | recheck => exact absurd hb.store (ha q)
  | @store p hp =>
    refine .inr (.inr ⟨hb.news, rfl, fun r => ?_⟩)
    by_cases hr : r = p
    · rw [hr, goto_self]; exact ⟨nofun, nofun⟩
    · rw [goto_other hr, setHead_pc]
      -- only `q` was at its store
      have hpq : p = q := by
        by_contra hne
        rcases hb.pc p hne with h | h
        · rw [hp] at h; exact h
        · rw [hp] at h; cases h
      rcases hb.pc r (hpq ▸ hr) with h | h
      · constructor <;> intro he <;> rw [he] at h <;> exact h
      · rw [h]; exact ⟨nofun, nofun⟩
  | construct hp | unlock hp | connect hp | load hp | cas hp | casFails _ hp | disconnect hp =>
    exact ((hb.pc_of hp nofun).2.elim id nofun).elim

theorem Built.step {a : Act P} (hb : Built s) (h : step s a = some t) : Built t := by
  have hc := hb.constructed
  cases did_of_step h with
  | enter | unlock | connect | cas | casFails => exact hb.move ⟨nofun, nofun⟩ hc
  | check | recheck =>
    rw [hc]
    exact hb.move ⟨nofun, nofun⟩ hc
  | construct hp => exact absurd hp (hb.pc _).1
  | store hp => exact absurd hp (hb.pc _).2
  | exchange | load => exact hb.move (by split <;> exact ⟨nofun, nofun⟩) hc
  | disconnect => exact ⟨hb.news, hc, hb.pc⟩

theorem Phase.step {a : Act P} (hp : Phase s) (ha : Apart s a) (h : HeadInit.step s a = some t) :
    Phase t := by
  rcases hp with hb | ⟨q, hb⟩ | hb
  · exact hb.step h
  · exact hb.step ha h
  · exact .inr (.inr (hb.step h))

omit [DecidableEq P] in
theorem Phase.once (hp : Phase s) : s.news ≤ 1 := by
  rcases hp with hb | ⟨q, hb⟩ | hb
  · exact hb.news ▸ Nat.zero_le 1
  · exact hb.news.le
  · exact hb.news.le

omit [DecidableEq P] in
/-- A placement comes before every connection. -/
theorem Phase.cc_of_construct (hp : Phase s) (hc : s.pc p = .construct) : s.head.cc = 0 := by
  rcases hp with hb | ⟨q, hb⟩ | hb
  · exact hb.cc
  · exact hb.cc
  · exact absurd hc (hb.pc p).1

/-- What a step does to the connection word. -/
theorem step_cc {a : Act P} (h : HeadInit.step s a = some t) : t.head.cc = s.head.cc ∨
    t.head.cc = s.head.cc ||| (s.head.cc + 1) ∨ (∃ p, a = .construct p ∧ s.pc p = .construct) ∨
    ∃ p ccId, a = .disconnect p ccId ∧ t.head.cc = s.head.cc &&& ~~~ccId := by
  cases did_of_step h with
  | construct hp => exact .inr (.inr (.inl ⟨_, rfl, hp⟩))
  | disconnect => exact .inr (.inr (.inr ⟨_, _, rfl, rfl⟩))
  | cas => exact .inr (.inl rfl)
  | enter | check | exchange | recheck | store | unlock | connect | load | casFails =>
    exact .inl rfl

theorem Phase.keeps (hp : Phase s) (a : Act P) : Keeps s a := by
  intro t h i hs ht
  rcases step_cc h with he | he | ⟨p, rfl, hc⟩ | ⟨p, ccId, rfl, he⟩
  · rw [he, hs] at ht
    cases ht
  · rw [he, BitVec.getLsbD_or, hs] at ht
    cases ht
  · rw [hp.cc_of_construct hc] at hs
    simp at hs
  · rw [he, Lib.Bits.getLsbD_and_not, hs] at ht
    exact ⟨p, ccId, rfl, by simpa using ht⟩

/-- Whoever makes the second check between a placement and its store goes on to place
the head again. -/
theorem Phase.placed_again (hp : Phase s) (hq : s.pc q = .store) (hr : s.pc p = .recheck) :
    ∃ t, run HeadInit.step s [.recheck p, .construct p] = some t ∧ t.news = 2 := by
  rcases hp with hb | ⟨q', hb⟩ | hb
  · exact (hb.not_late hq ⟨id, id⟩).elim
  · refine ⟨{ ((s.goto p .construct).setHead .zero).goto p .store with news := s.news + 1 }, ?_,
      by rw [hb.news]⟩
    simp [run, HeadInit.step, hr, hb.constructed]
  · exact absurd hq (hb.pc q).2

end Phases

/-! ## Constructed once -/

section Runs
variable {acts : List (Act P)} {s : St P}

/-- Where no second check falls between a placement and the store after it, the head is
placed once and every connection lasts until it is disconnected. -/
theorem constructed_once (hr : run step (.init P) acts = some s)
    (ha : Meets step Apart (.init P) acts) :
    s.news ≤ 1 ∧ Meets step Keeps (.init P) acts :=
  have hstep : ∀ (s : St P) a t, Phase s → Apart s a → step s a = some t → Phase t :=
    fun _ _ _ hp ha h => hp.step ha h
  ⟨(run_invariant hstep (.inl blank_init) hr ha).once,
    ha.imp hstep (fun _ a hp _ => hp.keeps a) (.inl blank_init)⟩

end Runs

-- for the numerals in the runs below
local instance neZero_two : NeZero 2 := ⟨by decide⟩

/-- Two openers after one another, and a connection. -/
def inTurn : List (Act (Fin 2)) :=
  [.enter 0, .check 0, .exchange 0, .enter 1, .check 1, .exchange 1, .recheck 0, .construct 0,
    .store 0, .unlock 0, .exchange 1, .recheck 1, .unlock 1, .connect 0, .load 0, .cas 0 false]

theorem constructed_once_inTurn : ∃ s, run step (.init (Fin 2)) inTurn = some s ∧
    s.head.cc = 1 ∧ s.news ≤ 1 ∧ Meets step Keeps (.init (Fin 2)) inTurn := by
  have hs : ((run step (.init (Fin 2)) inTurn).map fun s => s.head.cc) = some 1 := by
    decide +kernel
  obtain ⟨s, hr, hcc⟩ := Option.map_eq_some_iff.mp hs
  exact ⟨s, hr, hcc, constructed_once hr (by decide +kernel)⟩

/-- The second opener takes the lock that the placement has freed, and places the head
again after the first has connected. -/
def overlapping : List (Act (Fin 2)) :=
  [.enter 0, .enter 1, .check 0, .check 1, .exchange 0, .recheck 0, .construct 0, .exchange 1,
    .recheck 1, .store 0, .unlock 0, .connect 0, .load 0, .cas 0 false]

theorem constructed_twice : ∃ s t : St (Fin 2), run step (.init (Fin 2)) overlapping = some s ∧
    s.head.cc = 1 ∧ step s (.construct 1) = some t ∧ t.head.cc = 0 ∧ t.news = 2 ∧
    ¬ Keeps s (.construct 1) := by
  have hs : ((run step (.init (Fin 2)) overlapping).bind fun s => (step s (.construct 1)).map
      fun t => (s.head.cc, t.head.cc, t.news)) = some (1, 0, 2) := by
    decide +kernel
  obtain ⟨s, hr, hs⟩ := Option.bind_eq_some_iff.mp hs
  obtain ⟨t, ht, he⟩ := Option.map_eq_some_iff.mp hs
  simp only [Prod.mk.injEq] at he
  refine ⟨s, t, hr, he.1, ht, he.2.1, he.2.2, fun hk => ?_⟩
  obtain ⟨p, ccId, h, -⟩ := hk t ht 0 (by rw [he.1]; rfl) (by rw [he.2.1]; rfl)
  cases h

end CppIpc.HeadInit
