import CppIpc.OwnerDeath

/-! # `robust_mutex`

The class over `a0_mtx_t` that the other processes' deaths must not break: `lock` repairs
a mutex whose owner died, gives it back and tries again; `try_lock` repairs it, gives it
back and throws. A member function is a sequence of calls of the mutex underneath, each
of them in its own steps. -/
namespace CppIpc.RobustLock
open CppIpc.RobustMutex

variable {T M : Type}

/-- The member function that a thread is in, and the call that it has made last. -/
inductive Cpc (M : Type) where
  | idle
  | lock (m : M)
  | lockConsistent (m : M)
  | lockUnlock (m : M)
  | tryLock (m : M)
  | tryConsistent (m : M)
  | tryUnlock (m : M)
  | unlock (m : M)
deriving DecidableEq

inductive Member (M : Type) where
  | lock (m : M)
  | tryLock (m : M)
  | unlock (m : M)
deriving DecidableEq

inductive Res where
  | ret (ok : Bool)
  | threw (e : Errno)
deriving DecidableEq

structure Sys (T M : Type) where
  mtx : St T M
  cpc : T → Cpc M
  res : T → Option (Member M × Res)

inductive Act (T M : Type) where
  | call (t : T) (f : Member M)
  /-- A step of the mutex underneath, or of the kernel. -/
  | inner (a : RobustMutex.Act T M)
  /-- The member function goes on with what the call underneath has returned. -/
  | resume (t : T)
deriving DecidableEq

section Step
variable [DecidableEq T] [DecidableEq M] (K : Tids T)

/-- A call of the mutex underneath. -/
def Sys.under (s : Sys T M) (t : T) (op : Op M) (pc : Cpc M) : Option (Sys T M) :=
  (RobustMutex.step K s.mtx (.call t op)).map fun x =>
    { s with mtx := x, cpc := Function.update s.cpc t pc }

def Sys.finish (s : Sys T M) (t : T) (f : Member M) (r : Res) : Sys T M :=
  { s with cpc := Function.update s.cpc t .idle, res := Function.update s.res t (some (f, r)) }

def resume (s : Sys T M) (t : T) (e : Errno) : Option (Sys T M) :=
  match s.cpc t with
  | .idle => none
  | .lock m =>
    match e with
    | .ok => some (s.finish t (.lock m) (.ret true))
    | .etimedout => some (s.finish t (.lock m) (.ret false))
    | .eownerdead => s.under K t (.consistent m) (.lockConsistent m)
    | _ => some (s.finish t (.lock m) (.ret false))
  | .lockConsistent m =>
    if e ≠ .ok then some (s.finish t (.lock m) (.ret false))
    else s.under K t (.unlock m) (.lockUnlock m)
  | .lockUnlock m =>
    if e ≠ .ok then some (s.finish t (.lock m) (.ret false))
    -- loop again
    else s.under K t (.lock m) (.lock m)
  | .tryLock m =>
    match e with
    | .ok => some (s.finish t (.tryLock m) (.ret true))
    | .etimedout => some (s.finish t (.tryLock m) (.ret false))
    | .eownerdead => s.under K t (.consistent m) (.tryConsistent m)
    | e => some (s.finish t (.tryLock m) (.threw e))
  | .tryConsistent m =>
    if e ≠ .ok then some (s.finish t (.tryLock m) (.threw .eownerdead))
    else s.under K t (.unlock m) (.tryUnlock m)
  | .tryUnlock m => some (s.finish t (.tryLock m) (.threw .eownerdead))
  | .unlock m => some (s.finish t (.unlock m) (.ret (e = .ok)))

def step (s : Sys T M) : Act T M → Option (Sys T M)
  | .call t f =>
    if s.cpc t = .idle then
      match f with
      | .lock m => s.under K t (.lock m) (.lock m)
      | .tryLock m => s.under K t (.lock m) (.tryLock m)
      | .unlock m => s.under K t (.unlock m) (.unlock m)
    else none
  | .inner (.call ..) => none
  | .inner (.spawn t) =>
    (RobustMutex.step K s.mtx (.spawn t)).map fun x =>
      ⟨x, Function.update s.cpc t .idle, Function.update s.res t none⟩
  | .inner a => (RobustMutex.step K s.mtx a).map fun x => { s with mtx := x }
  | .resume t =>
    if s.mtx.pc t = .idle then
      match s.mtx.ret t with
      | some (_, e) => resume K s t e
      | none => none
    else none

end Step

def Sys.init (next prev : Ptr T M → Ptr T M) : Sys T M :=
  ⟨St.init next prev, fun _ => .idle, fun _ => none⟩

/-- Nothing is asked of the callers: only of the kernel, and how many mutexes one has. -/
def Sound [DecidableEq T] [DecidableEq M] (K : Tids T) (s : Sys T M) : Act T M → Prop
  | .inner a => Documented K s.mtx a ∧ Few s.mtx a
  | .call .. | .resume _ => True

/-! ## Where a thread is in both -/

/-- In `a0_mtx_lock` for `m`: it has not got the mutex, and is clean if it had it already;
or it has got it, and the result is going to say so; or it is back. -/
inductive Locking (m : M) (f : M → Bool) (h : Finset M) : Pc T M → Option (Op M × Errno) → Prop
  | start (r) (hf : m ∈ h → f m = false) : Locking m f h (.lockStart m) r
  | load (r) (hf : m ∈ h → f m = false) : Locking m f h (.lockLoad m) r
  | cas (r) (hf : m ∈ h → f m = false) : Locking m f h (.lockCas m) r
  | pi (r) (hf : m ∈ h → f m = false) : Locking m f h (.lockPi m) r
  | check (r) : Locking m f h (.lockCheck m) r
  | addPrev (r) (e) (he : e.Locked) : Locking m f h (.addPrev m (.lock e)) r
  | addNext (r) (e old) (he : e.Locked) : Locking m f h (.addNext m (.lock e) old) r
  | addHead (r) (e old) (he : e.Locked) : Locking m f h (.addHead m (.lock e) old) r
  | addBack (r) (e old) (he : e.Locked) : Locking m f h (.addBack m (.lock e) old) r
  | opEnd (r) (e) (hf : ¬ e.Locked → m ∈ h → f m = false) : Locking m f h (.opEnd (.lock m) e) r
  | back (e) (hl : e.Locked → m ∈ h ∧ e.Says (f m)) (hf : ¬ e.Locked → m ∈ h → f m = false) :
    Locking m f h .idle (some (.lock m, e))

/-- In `a0_mtx_consistent` for a mutex that it has and that is marked. -/
inductive Mending (m : M) (f : M → Bool) : Pc T M → Option (Op M × Errno) → Prop
  | load (r) (hf : f m = true) : Mending m f (.consistentLoad m) r
  | and (r) : Mending m f (.consistentAnd m) r
  | back (hf : f m = false) : Mending m f .idle (some (.consistent m, .ok))

/-- In `a0_mtx_unlock`; `mine` if it is known to have the mutex. -/
inductive Unlocking (m : M) (mine : Bool) (f : M → Bool) (h : Finset M) :
    Pc T M → Option (Op M × Errno) → Prop
  | load (r) (hm : mine = true → m ∈ h) (hf : m ∈ h → f m = false) :
    Unlocking m mine f h (.unlockLoad m) r
  | start (r d) : Unlocking m mine f h (.unlockStart m d) r
  | delNext (r d) : Unlocking m mine f h (.delNext m d) r
  | delPrev (r d p q) : Unlocking m mine f h (.delPrev m d p q) r
  | cas (r d) : Unlocking m mine f h (.unlockCas m d) r
  | pi (r d) : Unlocking m mine f h (.unlockPi m d) r
  | opEnd (r) (hout : m ∉ h) : Unlocking m mine f h (.opEnd (.unlock m) .ok) r
  | back (e) (hm : mine = true → e = .ok) (hout : e = .ok → m ∉ h) :
    Unlocking m mine f h .idle (some (.unlock m, e))

def Stage (f : M → Bool) (h : Finset M) (pc : Pc T M) (r : Option (Op M × Errno)) : Cpc M → Prop
  | .idle => pc = .idle
  | .lock m | .tryLock m => Locking m f h pc r
  | .lockConsistent m | .tryConsistent m => m ∈ h ∧ Mending m f pc r
  | .lockUnlock m | .tryUnlock m => Unlocking m true f h pc r
  | .unlock m => Unlocking m false f h pc r

/-- The one mutex that a thread may have although it is marked. -/
def Cpc.debt : Cpc M → Option M
  | .lock m | .tryLock m | .lockConsistent m | .tryConsistent m => some m
  | .idle | .lockUnlock _ | .tryUnlock _ | .unlock _ => none

/-- The mark in a word. -/
def marks (x : St T M) (m : M) : Bool := ftxOwnerDied (x.ftx m)

/-- `lock` or `try_lock` has returned `true`. -/
def Got (r : Option (Member M × Res)) (m : M) : Prop :=
  r = some (.lock m, .ret true) ∨ r = some (.tryLock m, .ret true)

/-- `unlock` has returned `true`, or `try_lock` has repaired the mutex and thrown. -/
def Gave (r : Option (Member M × Res)) (m : M) : Prop :=
  r = some (.unlock m, .ret true) ∨ r = some (.tryLock m, .threw .eownerdead)

/-- `got` and `gave` are about a thread that has not called anything since. -/
structure Fit (s : Sys T M) (t : T) : Prop where
  stage : Stage (marks s.mtx) (s.mtx.holds t) (s.mtx.pc t) (s.mtx.ret t) (s.cpc t)
  clean : ∀ m ∈ s.mtx.holds t, (s.cpc t).debt ≠ some m → marks s.mtx m = false
  got : s.cpc t = .idle → ∀ m, Got (s.res t) m → m ∈ s.mtx.holds t
  gave : s.cpc t = .idle → ∀ m, Gave (s.res t) m → m ∉ s.mtx.holds t

structure Inv (K : Tids T) (s : Sys T M) : Prop where
  kept : Kept K s.mtx
  honest : Honest K s.mtx
  fit : ∀ t, s.mtx.pc t ≠ .dead → Fit s t

/-! ## A step underneath -/

section Inner
variable {K : Tids T} {x y : St T M} {a : RobustMutex.Act T M} {t : T} {m : M} {c : Cpc M}
  {f g : M → Bool} {h : Finset M} {pc : Pc T M} {r : Option (Op M × Errno)}

/-- Only the marks of what a thread has matter to it. -/
theorem Stage.congr (hs : Stage f h pc r c) (he : ∀ m ∈ h, g m = f m) : Stage g h pc r c := by
  have hfalse : ∀ {m}, (m ∈ h → f m = false) → m ∈ h → g m = false := fun hf hm =>
    (he _ hm).trans (hf hm)
  cases c with
  | idle => exact hs
  | lock m | tryLock m =>
    have hs : Locking m f h pc r := hs
    show Locking m g h pc r
    cases hs with
    | start r hf => exact .start r (hfalse hf)
    | load r hf => exact .load r (hfalse hf)
    | cas r hf => exact .cas r (hfalse hf)
    | pi r hf => exact .pi r (hfalse hf)
    | check r => exact .check r
    | addPrev r e hl => exact .addPrev r e hl
    | addNext r e old hl => exact .addNext r e old hl
    | addHead r e old hl => exact .addHead r e old hl
    | addBack r e old hl => exact .addBack r e old hl
    | opEnd r e hf => exact .opEnd r e fun hl => hfalse (hf hl)
    | back e hl hf =>
      refine .back e (fun he' => ⟨(hl he').1, ?_⟩) fun he' => hfalse (hf he')
      rw [he m (hl he').1]
      exact (hl he').2
  | lockConsistent m | tryConsistent m =>
    obtain ⟨hm, hs⟩ : m ∈ h ∧ Mending m f pc r := hs
    refine ⟨hm, ?_⟩
    cases hs with
    | load r hf => exact .load r ((he m hm).trans hf)
    | and r => exact .and r
    | back hf => exact .back ((he m hm).trans hf)
  | lockUnlock m | tryUnlock m | unlock m =>
    have hs : Unlocking m _ f h pc r := hs
    show Unlocking m _ g h pc r
    cases hs with
    | load r hm hf => exact .load r hm (hfalse hf)
    | start r d => exact .start r d
    | delNext r d => exact .delNext r d
    | delPrev r d p q => exact .delPrev r d p q
    | cas r d => exact .cas r d
    | pi r d => exact .pi r d
    | opEnd r hout => exact .opEnd r hout
    | back e hm hout => exact .back e hm hout

theorem Stage.debt_of_asks (hs : Stage f h pc r c) (ha : pc.asks = some m) : c.debt = some m := by
  cases c with
  | idle =>
    rw [show pc = .idle from hs] at ha
    cases ha
  | lock m' | tryLock m' =>
    have hs : Locking m' f h pc r := hs
    cases hs with
    | cas | pi => exact ha
    | _ => cases ha
  | lockConsistent m' | tryConsistent m' =>
    obtain ⟨-, hs⟩ : m' ∈ h ∧ Mending m' f pc r := hs
    cases hs <;> cases ha
  | lockUnlock m' | tryUnlock m' | unlock m' =>
    have hs : Unlocking m' _ f h pc r := hs
    cases hs <;> cases ha

theorem Stage.of_lockPi (hs : Stage f h (.lockPi m : Pc T M) r c) :
    (c = .lock m ∨ c = .tryLock m) ∧ (m ∈ h → f m = false) := by
  cases c with
  | idle => cases hs
  | lock m' =>
    have hs : Locking m' f h (.lockPi m) r := hs
    cases hs with
    | pi r hf => exact ⟨.inl rfl, hf⟩
  | tryLock m' =>
    have hs : Locking m' f h (.lockPi m) r := hs
    cases hs with
    | pi r hf => exact ⟨.inr rfl, hf⟩
  | lockConsistent m' | tryConsistent m' => cases hs.2
  | lockUnlock m' | tryUnlock m' | unlock m' =>
    have hs : Unlocking m' _ f h (.lockPi m) r := hs
    cases hs

theorem Stage.of_locking (hc : c = .lock m ∨ c = .tryLock m) (hl : Locking m f h pc r) :
    Stage f h pc r c := by
  rcases hc with rfl | rfl
  · exact hl
  · exact hl

theorem Stage.not_tryPi : ¬ Stage f h (.tryPi m : Pc T M) r c := by
  intro hs
  cases c with
  | idle => cases hs
  | lock m' | tryLock m' =>
    have hs : Locking m' f h (.tryPi m) r := hs
    cases hs
  | lockConsistent m' | tryConsistent m' => cases hs.2
  | lockUnlock m' | tryUnlock m' | unlock m' =>
    have hs : Unlocking m' _ f h (.tryPi m) r := hs
    cases hs

/-- The call of the kernel that gives the word up is the last thing that `a0_mtx_unlock`
does for a mutex that was clean. -/
theorem Stage.afterPi {d : Bool} {h' : Finset M} {g : M → Bool}
    (hs : Stage f h (.unlockPi m d : Pc T M) r c) (hd : d = false) (hout : m ∉ h') :
    Stage g h' (Pc.afterPi m d : Pc T M) r c := by
  subst hd
  cases c with
  | idle => cases hs
  | lock m' | tryLock m' =>
    have hs : Locking m' f h (.unlockPi m false) r := hs
    cases hs
  | lockConsistent m' | tryConsistent m' => cases hs.2
  | lockUnlock m' | tryUnlock m' | unlock m' =>
    have hs : Unlocking m' _ f h (.unlockPi m false) r := hs
    cases hs
    show Unlocking m _ g h' (.opEnd (.unlock m) .ok) r
    exact .opEnd r hout

variable [DecidableEq M]

/-- A thread never gets a mark on what it already has. -/
theorem marks_change (hk : Kept K x) (hh : Honest K x) (hc : Change K x a y) (ht : m ∈ y.holds t)
    (hnew : (x.pc t).asks ≠ some m) (hold : m ∈ x.holds t → marks x m = false) :
    marks y m = false := by
  have same : ∀ {m' : M} {w : Word}, y.ftx = Function.update x.ftx m' w → m ≠ m' →
      marks y m = marks x m := fun hy hne => by
    rw [marks, hy, Function.update_of_ne hne, marks]
  cases hc with
  | quiet word holds =>
    rw [holds] at ht
    exact (word m).2.trans (hold ht)
  | mend b m' _ _ word holds =>
    rw [holds] at ht
    by_cases he : m = m'
    · rw [marks, word, he, Function.update_self, ftxOwnerDied_and_not_died]
    · exact (same word he).trans (hold ht)
  | wreck b m' pc =>
    have hp := hh.marked b
    rw [pc] at hp
    exact hp.elim
  | acquire b m' w pc free word _ _ holds =>
    rcases (holds t m).mp ht with ht | ⟨rfl, rfl⟩
    · exact (same word fun he => hk.excl.free free t (he ▸ ht)).trans (hold ht)
    · exact absurd pc hnew
  | release b m' d w _ own word _ holds =>
    obtain ⟨ht, hne⟩ := (holds t m).mp ht
    exact (same word fun he => hne ⟨hk.excl.owner own (he ▸ ht), he⟩).trans (hold ht)
  | handOver b v m' d w _ heir own word _ _ holds =>
    rcases (holds t m).mp ht with ⟨ht, hne⟩ | ⟨rfl, rfl⟩
    · exact (same word fun he => hne ⟨hk.excl.owner own (he ▸ ht), he⟩).trans (hold ht)
    · rw [heir] at hnew
      exact absurd rfl hnew
  | abandon b m' _ word holds | die b l _ word holds =>
    rw [marks, word]
    exact hold ((holds t m).mp ht).1
  | recover b m' w pc own word _ _ holds =>
    rw [holds] at ht
    refine (same word fun he => ?_).trans (hold ht)
    exact hk.alive ht (hk.excl.owner own (he ▸ ht) ▸ pc)

variable [DecidableEq T]

theorem locking_code (hk : Kept K x) (hh : Honest K x)
    (hl : Locking m (marks x) (x.holds t) (x.pc t) (x.ret t)) (h : code K x t = some y) :
    Locking m (marks y) (y.holds t) (y.pc t) (y.ret t) := by
  generalize hp : x.pc t = pc at hl
  generalize x.ret t = r at hl
  cases hl with
  | start r hf =>
    simp only [code, hp, Option.some.injEq, St.opStart] at h
    subst h
    split
    · rw [St.goto_pc]
      exact .load _ hf
    · show Locking m _ _ (x.pc t) _
      rw [hp]
      exact .start _ hf
  | load r hf =>
    simp only [code, hp, Option.some.injEq] at h
    subst h
    rw [St.goto_pc]
    split
    · exact .opEnd _ _ fun _ => hf
    · exact .cas _ hf
  | cas r hf =>
    simp only [code, hp, Option.some.injEq] at h
    subst h
    split
    · rw [St.goto_pc]
      exact .addPrev _ _ (.inl rfl)
    · rw [St.goto_pc]
      exact .pi _ hf
  | pi r hf => simp [code, hp] at h
  | check r =>
    simp only [code, hp, Option.some.injEq] at h
    subst h
    rw [St.goto_pc]
    refine .addPrev _ _ ?_
    split
    · exact .inr rfl
    · exact .inl rfl
  | addPrev r e he =>
    simp only [code, hp, Option.some.injEq] at h
    subst h
    rw [St.goto_pc]
    exact .addNext _ e _ he
  | addNext r e old he =>
    simp only [code, hp, Option.some.injEq] at h
    subst h
    rw [St.goto_pc]
    exact .addHead _ e old he
  | addHead r e old he =>
    simp only [code, hp, Option.some.injEq] at h
    subst h
    rw [St.goto_pc]
    split
    · exact .opEnd _ e fun hne => absurd he hne
    · exact .addBack _ e old he
  | addBack r e old he =>
    simp only [code, hp, Option.some.injEq] at h
    subst h
    rw [St.goto_pc]
    exact .opEnd _ e fun hne => absurd he hne
  | opEnd r e hf =>
    have hfit := hk.fits t
    have hmark := hh.marked t
    rw [hp] at hfit hmark
    simp only [code, hp, Option.some.injEq] at h
    subst h
    simp only [St.done, Function.update_self]
    exact .back e (fun he => ⟨hfit he, hmark (hfit he)⟩) hf
  | back e => simp [code, hp] at h

theorem mending_code (hk : Kept K x) (hh : Honest K x) (hm : m ∈ x.holds t)
    (hl : Mending m (marks x) (x.pc t) (x.ret t)) (h : code K x t = some y) :
    m ∈ y.holds t ∧ Mending m (marks y) (y.pc t) (y.ret t) := by
  generalize hp : x.pc t = pc at hl
  generalize x.ret t = r at hl
  cases hl with
  | load r hf =>
    have hdied : ftxOwnerDied (x.ftx m) = true := hf
    simp only [code, hp, Option.some.injEq, hdied, not_true_eq_false, if_false, ne_eq,
      hh.owner hk hm] at h
    subst h
    refine ⟨hm, ?_⟩
    rw [St.goto_pc]
    exact .and _
  | and r =>
    simp only [code, hp, Option.some.injEq] at h
    subst h
    simp only [St.done, Function.update_self]
    refine ⟨hm, .back ?_⟩
    simp [marks, St.store, ftxOwnerDied_and_not_died]
  | back => simp [code, hp] at h

theorem unlocking_code {mine : Bool} (hk : Kept K x) (hh : Honest K x)
    (hl : Unlocking m mine (marks x) (x.holds t) (x.pc t) (x.ret t)) (h : code K x t = some y) :
    Unlocking m mine (marks y) (y.holds t) (y.pc t) (y.ret t) := by
  generalize hp : x.pc t = pc at hl
  generalize x.ret t = r at hl
  cases hl with
  | load r hm hf =>
    simp only [code, hp, Option.some.injEq] at h
    subst h
    split
    · rename_i ht
      simp only [St.done, Function.update_self]
      exact .back _ (fun hmine => absurd (hh.owner hk (hm hmine)) ht) fun he => by cases he
    · rw [St.goto_pc]
      exact .start _ _
  | start r d =>
    simp only [code, hp, Option.some.injEq, St.opStart] at h
    subst h
    split
    · rw [St.goto_pc]
      exact .delNext _ d
    · show Unlocking m mine _ _ (x.pc t) _
      rw [hp]
      exact .start _ d
  | delNext r d =>
    simp only [code, hp, Option.some.injEq] at h
    subst h
    rw [St.goto_pc]
    split
    · exact .cas _ d
    · exact .delPrev _ d _ _
  | delPrev r d p q =>
    simp only [code, hp, Option.some.injEq] at h
    subst h
    rw [St.goto_pc]
    exact .cas _ d
  | cas r d =>
    simp only [code, hp, Option.some.injEq] at h
    subst h
    split
    · rw [St.goto_pc]
      exact .opEnd _ (by simp [St.drop])
    · rw [St.goto_pc]
      exact .pi _ d
  | pi r d => simp [code, hp] at h
  | opEnd r hout =>
    simp only [code, hp, Option.some.injEq] at h
    subst h
    simp only [St.done, Function.update_self]
    exact .back .ok (fun _ => rfl) fun _ => hout
  | back e => simp [code, hp] at h

theorem stage_code (hk : Kept K x) (hh : Honest K x)
    (hs : Stage (marks x) (x.holds t) (x.pc t) (x.ret t) c) (h : code K x t = some y) :
    Stage (marks y) (y.holds t) (y.pc t) (y.ret t) c := by
  cases c with
  | idle =>
    have hpc : x.pc t = .idle := hs
    simp [code, hpc] at h
  | lock m | tryLock m => exact locking_code hk hh hs h
  | lockConsistent m | tryConsistent m => exact mending_code hk hh hs.1 hs.2 h
  | lockUnlock m | tryUnlock m | unlock m => exact unlocking_code hk hh hs h

/-- What the kernel answers to a thread. -/
theorem stage_kernel (hh : Honest K x) (hd : Documented K x a)
    (hs : Stage (marks x) (x.holds t) (x.pc t) (x.ret t) c) (ha : x.pc t ≠ .dead)
    (hy : y.pc t ≠ .dead) (h : RobustMutex.step K x a = some y) (ht : t ∈ a.threads)
    (hcode : ∀ b, a ≠ .code b) (hcall : ∀ b op, a ≠ .call b op) :
    Stage (marks y) (y.holds t) (y.pc t) (y.ret t) c := by
  cases a with
  | code b => exact absurd rfl (hcode b)
  | call b op => exact absurd rfl (hcall b op)
  | queue b w =>
    cases List.mem_singleton.mp ht
    cases hpc : x.pc t with
    | lockPi m =>
      simp only [RobustMutex.step, hpc, Option.some.injEq] at h
      simp only [Documented, hpc, Pc.futex, Option.mem_some_iff, forall_eq'] at hd
      subst h
      exact hs.congr fun m' _ => (sameOwner_store hd m').2
    | _ => simp [RobustMutex.step, hpc] at h
  | granted b w =>
    cases List.mem_singleton.mp ht
    cases hpc : x.pc t with
    | lockPi m =>
      rw [hpc] at hs
      simp only [RobustMutex.step, hpc, Option.some.injEq] at h
      subst h
      rw [St.goto_pc]
      exact .of_locking hs.of_lockPi.1 (.check _)
    | tryPi m =>
      rw [hpc] at hs
      exact absurd hs Stage.not_tryPi
    | _ => simp [RobustMutex.step, hpc] at h
  | refused b e w =>
    cases List.mem_singleton.mp ht
    simp only [RobustMutex.step] at h
    split at h
    · cases h
    · rename_i hok
      have hl := not_locked_refused hok hd.1
      cases hpc : x.pc t with
      | lockPi m =>
        rw [hpc] at hs
        obtain ⟨hc, hf⟩ := hs.of_lockPi
        simp only [hpc, Option.some.injEq] at h
        simp only [Documented, hpc, Pc.futex, Option.mem_some_iff, forall_eq'] at hd
        subst h
        have hf' : m ∈ x.holds t → marks (x.store m w) m = false := fun hm =>
          (sameOwner_store hd.2 m).2.trans (hf hm)
        rw [St.goto_pc]
        refine .of_locking hc ?_
        split
        · exact .load _ hf'
        · exact .opEnd _ e fun _ => hf'
      | tryPi m =>
        rw [hpc] at hs
        exact absurd hs Stage.not_tryPi
      | _ => simp [hpc] at h
  | released b heir w =>
    cases hpc : x.pc b with
    | unlockPi m d =>
      have hdead := hh.marked b
      rw [hpc] at hdead
      have hd' : d = false := hdead.1
      cases heir with
      | none =>
        cases List.mem_singleton.mp ht
        rw [hpc] at hs
        simp only [RobustMutex.step, hpc, Option.some.injEq] at h
        subst h
        rw [St.goto_pc]
        exact hs.afterPi hd' (by simp [St.drop])
      | some v =>
        simp only [RobustMutex.step, hpc, Option.ite_none_right_eq_some, Option.some.injEq] at h
        obtain ⟨hv, rfl⟩ := h
        by_cases htv : t = v
        · subst htv
          rw [hv] at hs
          rw [St.goto_pc]
          exact .of_locking hs.of_lockPi.1 (.check _)
        · have htb : t = b := by simpa [RobustMutex.Act.threads, htv] using ht
          subst htb
          rw [hpc] at hs
          simp only [St.goto, St.take, Function.update_of_ne htv, Function.update_self]
          exact hs.afterPi hd' (by simp [St.drop])
    | _ => simp [RobustMutex.step, hpc] at h
  | kept b =>
    cases List.mem_singleton.mp ht
    cases hpc : x.pc t with
    | unlockPi m d =>
      have hdead := hh.marked t
      rw [hpc] at hdead hs
      simp only [RobustMutex.step, hpc, Option.some.injEq] at h
      subst h
      rw [St.goto_pc]
      exact hs.afterPi hdead.1 (by simp [St.drop])
    | _ => simp [RobustMutex.step, hpc] at h
  | die b l =>
    cases List.mem_singleton.mp ht
    simp only [RobustMutex.step, Option.ite_none_left_eq_some, Option.some.injEq] at h
    obtain ⟨-, rfl⟩ := h
    exact absurd (St.goto_pc ..) hy
  | recover b m w =>
    cases List.mem_singleton.mp ht
    simp only [RobustMutex.step, Option.ite_none_right_eq_some] at h
    exact absurd h.1.1 ha
  | spawn b =>
    cases List.mem_singleton.mp ht
    simp only [RobustMutex.step, Option.ite_none_right_eq_some] at h
    exact absurd h.1.1 ha

end Inner

/-! ## A step of the whole -/

section Whole
variable {K : Tids T} {s u : Sys T M} {x y : St T M} {a : RobustMutex.Act T M} {t : T} {m : M}

theorem inv_init (next prev : Ptr T M → Ptr T M) : Inv K (Sys.init next prev) where
  kept := kept_init next prev
  honest := honest_init next prev
  fit _ _ := ⟨rfl, fun m hm => by simp [Sys.init, St.init] at hm,
    fun _ m hg => by simp [Sys.init, Got] at hg, fun _ m hg => by simp [Sys.init, Gave] at hg⟩

theorem Locking.back_of_idle {f : M → Bool} {h : Finset M} {r : Option (Op M × Errno)}
    {op : Op M} {e : Errno} (hl : Locking m f h (.idle : Pc T M) r) (hr : r = some (op, e)) :
    (e.Locked → m ∈ h ∧ e.Says (f m)) ∧ (¬ e.Locked → m ∈ h → f m = false) := by
  cases hl with
  | back e' hl hf =>
    cases hr
    exact ⟨hl, hf⟩

theorem Unlocking.back_of_idle {mine : Bool} {f : M → Bool} {h : Finset M}
    {r : Option (Op M × Errno)} {op : Op M} {e : Errno}
    (hl : Unlocking m mine f h (.idle : Pc T M) r) (hr : r = some (op, e)) :
    (mine = true → e = .ok) ∧ (e = .ok → m ∉ h) := by
  cases hl with
  | back e' hm hout =>
    cases hr
    exact ⟨hm, hout⟩

theorem Mending.back_of_idle {f : M → Bool} {r : Option (Op M × Errno)} {op : Op M} {e : Errno}
    (hl : Mending m f (.idle : Pc T M) r) (hr : r = some (op, e)) : e = .ok ∧ f m = false := by
  cases hl with
  | back hf =>
    cases hr
    exact ⟨rfl, hf⟩

/-- All clean, if the one mutex in debt is. -/
theorem clean_of_debt {c : Cpc M} (hf : Fit s t) (hc : s.cpc t = c) (hd : c.debt = some m)
    (hm : m ∈ s.mtx.holds t → marks s.mtx m = false) (x : M) (hx : x ∈ s.mtx.holds t) :
    marks s.mtx x = false := by
  by_cases he : x = m
  · rw [he] at hx ⊢
    exact hm hx
  · refine hf.clean x hx ?_
    rw [hc, hd]
    exact fun h => he (Option.some.inj h).symm

variable [DecidableEq T]

@[simp] theorem marks_goto (x : St T M) (t : T) (pc : Pc T M) : marks (x.goto t pc) = marks x := rfl

theorem finish_inv {f : Member M} {r : Res} (hi : Inv K s) (hpc : s.mtx.pc t = .idle)
    (hclean : ∀ m ∈ s.mtx.holds t, marks s.mtx m = false)
    (hgot : ∀ m, Got (some (f, r)) m → m ∈ s.mtx.holds t)
    (hgave : ∀ m, Gave (some (f, r)) m → m ∉ s.mtx.holds t) : Inv K (s.finish t f r) := by
  refine ⟨hi.kept, hi.honest, fun b hb => ?_⟩
  by_cases hbt : b = t
  · subst hbt
    refine ⟨?_, fun m hm _ => hclean m hm, fun _ => ?_, fun _ => ?_⟩
    · simpa [Sys.finish, Stage] using hpc
    · simpa [Sys.finish] using hgot
    · simpa [Sys.finish] using hgave
  · have hf := hi.fit b hb
    constructor
    · simpa [Sys.finish, hbt] using hf.stage
    · simpa [Sys.finish, hbt] using hf.clean
    · simpa [Sys.finish, hbt] using hf.got
    · simpa [Sys.finish, hbt] using hf.gave

variable [DecidableEq M]

/-- Between its calls a thread keeps what it has. -/
theorem holds_of_idle (hpc : x.pc t = .idle) (hy : y.pc t ≠ .dead)
    (h : RobustMutex.step K x a = some y) : y.holds t = x.holds t := by
  by_cases ht : t ∈ a.threads
  case neg => exact (step_frame h ht).holds
  cases a with
  | code b =>
    cases List.mem_singleton.mp ht
    simp [RobustMutex.step, code, hpc] at h
  | call b op =>
    cases List.mem_singleton.mp ht
    simp only [RobustMutex.step, Option.ite_none_right_eq_some, Option.some.injEq] at h
    obtain ⟨-, rfl⟩ := h
    rfl
  | queue | granted | refused | kept | recover | spawn =>
    cases List.mem_singleton.mp ht
    simp [RobustMutex.step, hpc] at h
  | released b heir w =>
    simp only [RobustMutex.step] at h
    split at h
    · rename_i hb
      cases heir with
      | none =>
        cases List.mem_singleton.mp ht
        rw [hpc] at hb
        cases hb
      | some v =>
        simp only [Option.ite_none_right_eq_some] at h
        rcases List.mem_cons.mp ht with rfl | hv
        · rw [hpc] at hb
          cases hb
        · cases List.mem_singleton.mp hv
          rw [hpc] at h
          cases h.1
    · cases h
  | die b l =>
    cases List.mem_singleton.mp ht
    simp only [RobustMutex.step, Option.ite_none_left_eq_some, Option.some.injEq] at h
    obtain ⟨-, rfl⟩ := h
    exact absurd (St.goto_pc ..) hy

theorem inner_inv (hi : Inv K s) (hd : Documented K s.mtx a) (hfew : Few s.mtx a)
    (hcall : ∀ b op, a ≠ .call b op) (hspawn : ∀ b, a ≠ .spawn b)
    (h : RobustMutex.step K s.mtx a = some y) : Inv K { s with mtx := y } := by
  have hc : Careful s.mtx a := by
    cases a with
    | call b op => exact absurd rfl (hcall b op)
    | _ => trivial
  obtain ⟨hk, hh⟩ := honest_step hi.kept hi.honest ⟨hd, hfew, hc⟩ h
  refine ⟨hk, hh, fun t hy => ?_⟩
  have hx : s.mtx.pc t ≠ .dead := by
    rcases dead_step h t with hiff | ⟨l, rfl⟩ | rfl
    · exact fun he => hy (hiff.mpr he)
    · simp only [RobustMutex.step, Option.ite_none_left_eq_some] at h
      exact h.1
    · exact absurd rfl (hspawn t)
  have hf := hi.fit t hx
  have hstage : Stage (marks y) (y.holds t) (y.pc t) (y.ret t) (s.cpc t) := by
    by_cases ht : t ∈ a.threads
    · by_cases hcode : ∃ b, a = .code b
      · obtain ⟨b, rfl⟩ := hcode
        cases List.mem_singleton.mp ht
        exact stage_code hi.kept hi.honest hf.stage h
      · exact stage_kernel hi.honest hd hf.stage hx hy h ht (fun b he => hcode ⟨b, he⟩) hcall
    · have hfr := step_frame h ht
      rw [hfr.pc, hfr.holds, hfr.ret]
      exact hf.stage.congr fun m hm => died_of_held hi.kept hi.honest hd h ht hm
  have hidle : s.cpc t = .idle → y.holds t = s.mtx.holds t := fun hcpc => by
    have hst := hf.stage
    rw [hcpc] at hst
    exact holds_of_idle hst hy h
  refine ⟨hstage, fun m hm hdebt => ?_, fun hcpc m hg => ?_, fun hcpc m hg => ?_⟩
  · exact marks_change hi.kept hi.honest (step_change hd h) hm
      (fun ha => hdebt (hf.stage.debt_of_asks ha)) fun hm => hf.clean m hm hdebt
  · show m ∈ y.holds t
    rw [hidle hcpc]
    exact hf.got hcpc m hg
  · show m ∉ y.holds t
    rw [hidle hcpc]
    exact hf.gave hcpc m hg

theorem spawn_inv {b : T} (hi : Inv K s) (h : RobustMutex.step K s.mtx (.spawn b) = some y) :
    Inv K ⟨y, Function.update s.cpc b .idle, Function.update s.res b none⟩ := by
  obtain ⟨hk, hh⟩ := honest_step (a := .spawn b) hi.kept hi.honest ⟨trivial, trivial, trivial⟩ h
  refine ⟨hk, hh, fun t hy => ?_⟩
  by_cases ht : t = b
  · subst ht
    simp only [RobustMutex.step, Option.ite_none_right_eq_some, Option.some.injEq] at h
    obtain ⟨⟨hdead, -⟩, rfl⟩ := h
    have hempty : s.mtx.holds t = ∅ := by
      have hfit := hi.kept.fits t
      rwa [hdead] at hfit
    refine ⟨by simp [Stage], fun m hm => ?_, fun _ m hg => ?_, fun _ m hg => ?_⟩
    · have hm : m ∈ s.mtx.holds t := hm
      rw [hempty] at hm
      cases hm
    · simp [Got] at hg
    · simp [Gave] at hg
  · have hfr := step_frame h (a := .spawn b) (b := t) (by simpa [RobustMutex.Act.threads] using ht)
    have hf := hi.fit t (by rwa [hfr.pc] at hy)
    have hmarks : marks y = marks s.mtx := by
      simp only [RobustMutex.step, Option.ite_none_right_eq_some, Option.some.injEq] at h
      obtain ⟨-, rfl⟩ := h
      rfl
    constructor
    · simpa [hfr.pc, hfr.holds, hfr.ret, hmarks, ht] using hf.stage
    · simpa [hfr.holds, hmarks, ht] using hf.clean
    · simpa [hfr.holds, ht] using hf.got
    · simpa [hfr.holds, ht] using hf.gave

theorem under_inv {op : Op M} {c : Cpc M} (hi : Inv K s) (h : s.under K t op c = some u)
    (hc : Careful s.mtx (.call t op))
    (hstage : Stage (marks s.mtx) (s.mtx.holds t) (op.entry : Pc T M) (s.mtx.ret t) c) (hne : c ≠ .idle)
    (hclean : ∀ m ∈ s.mtx.holds t, c.debt ≠ some m → marks s.mtx m = false) : Inv K u := by
  obtain ⟨y, hy, rfl⟩ := Option.map_eq_some_iff.mp h
  obtain ⟨hk, hh⟩ := honest_step (a := .call t op) hi.kept hi.honest ⟨trivial, trivial, hc⟩ hy
  refine ⟨hk, hh, fun b hb => ?_⟩
  simp only [RobustMutex.step, Option.ite_none_right_eq_some, Option.some.injEq] at hy
  obtain ⟨-, rfl⟩ := hy
  by_cases hbt : b = t
  · subst hbt
    refine ⟨?_, ?_, fun hidle => ?_, fun hidle => ?_⟩
    · simpa using hstage
    · simpa using hclean
    · simp [hne] at hidle
    · simp [hne] at hidle
  · have hpc := s.mtx.goto_pc_of_ne op.entry hbt
    have hf := hi.fit b (by rwa [← hpc])
    constructor
    · simpa [hpc, hbt] using hf.stage
    · simpa [hbt] using hf.clean
    · simpa [hbt] using hf.got
    · simpa [hbt] using hf.gave

theorem resume_inv {op : Op M} {e : Errno} (hi : Inv K s) (hpc : s.mtx.pc t = .idle)
    (hr : s.mtx.ret t = some (op, e)) (h : resume K s t e = some u) : Inv K u := by
  have hf := hi.fit t (by simp [hpc])
  have hstage := hf.stage
  rw [hpc] at hstage
  have hnogot : ∀ {f : Member M} {b : Res}, b ≠ .ret true → ∀ m, Got (some (f, b)) m →
      m ∈ s.mtx.holds t := fun hb m hg => by
    rcases hg with hg | hg
    · exact absurd (Prod.mk.inj (Option.some.inj hg)).2 hb
    · exact absurd (Prod.mk.inj (Option.some.inj hg)).2 hb
  cases hcpc : s.cpc t with
  | idle => simp [resume, hcpc] at h
  | lock m =>
    rw [hcpc] at hstage
    obtain ⟨hl, hn⟩ := Locking.back_of_idle hstage hr
    have hclean : ¬ e.Locked → ∀ x ∈ s.mtx.holds t, marks s.mtx x = false := fun he =>
      clean_of_debt hf hcpc rfl (hn he)
    simp only [resume, hcpc] at h
    split at h
    · cases h
      obtain ⟨hm, htold⟩ := hl (.inl rfl)
      refine finish_inv hi hpc (clean_of_debt hf hcpc rfl fun _ => htold.1 rfl) ?_ ?_
      · rintro x (hx | hx)
        · cases hx
          exact hm
        · cases hx
      · rintro x (hx | hx) <;> cases hx
    · cases h
      refine finish_inv hi hpc (hclean (by simp [Errno.Locked])) (hnogot (by simp)) ?_
      rintro x (hx | hx) <;> cases hx
    · obtain ⟨hm, htold⟩ := hl (.inr rfl)
      exact under_inv hi h trivial ⟨hm, .load _ (htold.2 rfl)⟩ (by simp)
        fun x hx hd => hf.clean x hx (by rwa [hcpc])
    · cases h
      rename_i hne₁ _ hne₂
      refine finish_inv hi hpc (hclean fun he => he.elim hne₁ hne₂) (hnogot (by simp)) ?_
      rintro x (hx | hx) <;> cases hx
  | tryLock m =>
    rw [hcpc] at hstage
    obtain ⟨hl, hn⟩ := Locking.back_of_idle hstage hr
    have hclean : ¬ e.Locked → ∀ x ∈ s.mtx.holds t, marks s.mtx x = false := fun he =>
      clean_of_debt hf hcpc rfl (hn he)
    simp only [resume, hcpc] at h
    split at h
    · cases h
      obtain ⟨hm, htold⟩ := hl (.inl rfl)
      refine finish_inv hi hpc (clean_of_debt hf hcpc rfl fun _ => htold.1 rfl) ?_ ?_
      · rintro x (hx | hx)
        · cases hx
        · cases hx
          exact hm
      · rintro x (hx | hx) <;> cases hx
    · cases h
      refine finish_inv hi hpc (hclean (by simp [Errno.Locked])) (hnogot (by simp)) ?_
      rintro x (hx | hx) <;> cases hx
    · obtain ⟨hm, htold⟩ := hl (.inr rfl)
      exact under_inv hi h trivial ⟨hm, .load _ (htold.2 rfl)⟩ (by simp)
        fun x hx hd => hf.clean x hx (by rwa [hcpc])
    · cases h
      rename_i hne₁ _ hne₂
      refine finish_inv hi hpc (hclean fun he => he.elim hne₁ hne₂) (hnogot (by simp)) ?_
      rintro x (hx | hx)
      · cases hx
      · cases hx
        exact absurd rfl hne₂
  | lockConsistent m | tryConsistent m =>
    rw [hcpc] at hstage
    obtain ⟨rfl, hmark⟩ := Mending.back_of_idle hstage.2 hr
    have hclean := clean_of_debt hf hcpc rfl fun _ => hmark
    simp only [resume, hcpc, ne_eq, not_true_eq_false, if_false] at h
    exact under_inv hi h (fun _ => hmark) (.load _ (fun _ => hstage.1) fun _ => hmark) (by simp)
      fun x hx _ => hclean x hx
  | lockUnlock m =>
    rw [hcpc] at hstage
    obtain rfl := (Unlocking.back_of_idle hstage hr).1 rfl
    have hclean : ∀ x ∈ s.mtx.holds t, marks s.mtx x = false := fun x hx =>
      hf.clean x hx (by rw [hcpc]; simp [Cpc.debt])
    simp only [resume, hcpc, ne_eq, not_true_eq_false, if_false] at h
    exact under_inv hi h trivial (.start _ (hclean m)) (by simp) fun x hx _ => hclean x hx
  | tryUnlock m =>
    rw [hcpc] at hstage
    obtain ⟨hok, hout⟩ := Unlocking.back_of_idle hstage hr
    have hclean : ∀ x ∈ s.mtx.holds t, marks s.mtx x = false := fun x hx =>
      hf.clean x hx (by rw [hcpc]; simp [Cpc.debt])
    simp only [resume, hcpc] at h
    cases h
    refine finish_inv hi hpc hclean (hnogot (by simp)) ?_
    rintro x (hx | hx)
    · cases hx
    · cases hx
      exact hout (hok rfl)
  | unlock m =>
    rw [hcpc] at hstage
    obtain ⟨-, hout⟩ := Unlocking.back_of_idle hstage hr
    have hclean : ∀ x ∈ s.mtx.holds t, marks s.mtx x = false := fun x hx =>
      hf.clean x hx (by rw [hcpc]; simp [Cpc.debt])
    simp only [resume, hcpc] at h
    cases h
    refine finish_inv hi hpc hclean ?_ ?_
    · rintro x (hx | hx) <;> cases hx
    · rintro x (hx | hx)
      · have hx := Prod.mk.inj (Option.some.inj hx)
        cases hx.1
        exact hout (by simpa using hx.2)
      · cases hx

theorem call_inv {f : Member M} (hi : Inv K s) (h : step K s (.call t f) = some u) : Inv K u := by
  simp only [step, Option.ite_none_right_eq_some] at h
  obtain ⟨hcpc, h⟩ := h
  have ha : s.mtx.pc t = .idle := by
    cases f <;> obtain ⟨y, hy, -⟩ := Option.map_eq_some_iff.mp h
    all_goals
      simp only [RobustMutex.step, Option.ite_none_right_eq_some] at hy
      exact hy.1
  have hf := hi.fit t (by simp [ha])
  have hclean : ∀ x ∈ s.mtx.holds t, marks s.mtx x = false := fun x hx =>
    hf.clean x hx (by rw [hcpc]; simp [Cpc.debt])
  cases f with
  | lock m | tryLock m =>
    exact under_inv hi h trivial (.start _ (hclean m)) (by simp) fun x hx _ => hclean x hx
  | unlock m =>
    exact under_inv hi h (hclean m) (.load _ (fun hmine => by cases hmine) (hclean m)) (by simp)
      fun x hx _ => hclean x hx

theorem inv_step {a : Act T M} (hi : Inv K s) (hs : Sound K s a) (h : step K s a = some u) :
    Inv K u := by
  cases a with
  | call t f => exact call_inv hi h
  | resume t =>
    simp only [step, Option.ite_none_right_eq_some] at h
    obtain ⟨hpc, h⟩ := h
    split at h
    · exact resume_inv hi hpc ‹_› h
    · cases h
  | inner a =>
    obtain ⟨hd, hfew⟩ := hs
    cases a with
    | call => cases h
    | spawn b =>
      obtain ⟨y, hy, rfl⟩ := Option.map_eq_some_iff.mp h
      exact spawn_inv hi hy
    | code | queue | granted | refused | released | kept | die | recover =>
      obtain ⟨y, hy, rfl⟩ := Option.map_eq_some_iff.mp h
      exact inner_inv hi hd hfew (by simp) (by simp) hy

/-- As long as everybody goes through the member functions, whatever they call and
wherever they die, nobody with more mutexes than the kernel looks at, and the kernel
keeps its word: no mutex is lost; after `lock` or `try_lock` has returned `true` the
caller is the only one who has the mutex, and it is consistent; after `unlock` has
returned `true`, or `try_lock` has thrown `EOWNERDEAD`, the caller has it no more. -/
theorem robust_mutex_run {next prev : Ptr T M → Ptr T M} {as : List (Act T M)}
    (hm : Lib.Runs.Meets (step K) (Sound K) (Sys.init next prev) as)
    (hr : Lib.Runs.run (step K) (Sys.init next prev) as = some s) :
    (∀ m, ftxNotRecoverable (s.mtx.ftx m) = false) ∧
      ∀ t, s.mtx.pc t ≠ .dead → s.cpc t = .idle → ∀ m,
        (Got (s.res t) m → m ∈ s.mtx.holds t ∧ m ∉ s.mtx.dirty ∧
          ∀ v, m ∈ s.mtx.holds v → v = t) ∧
        (Gave (s.res t) m → m ∉ s.mtx.holds t) := by
  have hi : Inv K s :=
    Lib.Runs.run_invariant (fun _ _ _ hi hs h => inv_step hi hs h) (inv_init next prev) hr hm
  refine ⟨fun m => ?_, fun t ha hcpc m => ⟨fun hg => ?_, (hi.fit t ha).gave hcpc m⟩⟩
  · rw [Bool.eq_false_iff]
    exact fun h => hi.honest.sound m (ftxTid_of_notRecoverable h)
  · have hf := hi.fit t ha
    have hmem := hf.got hcpc m hg
    refine ⟨hmem, fun hd => ?_, fun v hv => hi.kept.excl.one hv hmem⟩
    rcases (hi.honest.dirty m).mp hd with hd | hd
    · have hc : marks s.mtx m = false := hf.clean m hmem (by rw [hcpc]; simp [Cpc.debt])
      rw [marks, hd] at hc
      cases hc
    · exact not_gone (hi.honest.owner hi.kept hmem) ha hd

end Whole

instance [DecidableEq T] [DecidableEq M] (K : Tids T) (s : Sys T M) :
    (a : Act T M) → Decidable (Sound K s a)
  | .inner a => inferInstanceAs (Decidable (Documented K s.mtx a ∧ Few s.mtx a))
  | .call .. | .resume _ => isTrue trivial

/-- The first thread dies in the middle of `unlock` while the second one is in `lock`. -/
def repaired : List (Act Bool Unit) :=
  [.call false (.lock ())] ++ (codes false 8).map .inner ++
    [.resume false, .call true (.lock ())] ++ (codes true 4).map .inner ++
    [.inner (.queue true (futexWaiters ||| 1)), .call false (.unlock ())] ++
    (codes false 3).map .inner ++
    [.inner (.die false [()]), .inner (.recover false () (futexWaiters ||| futexOwnerDied)),
      .inner (.granted true (futexOwnerDied ||| 2))] ++ (codes true 5).map .inner ++
    [.resume true] ++ (codes true 2).map .inner ++ [.resume true] ++ (codes true 5).map .inner ++
    [.resume true] ++ (codes true 7).map .inner ++ [.resume true]

theorem robust_mutex_run_repaired : ∃ s,
    Lib.Runs.run (step pairTids) (Sys.init (fun _ => .head false) fun _ => .head false) repaired =
      some s ∧ s.res true = some (.lock (), .ret true) ∧ () ∈ s.mtx.holds true ∧
        () ∉ s.mtx.dirty := by
  have hs : ((Lib.Runs.run (step pairTids) (Sys.init (fun _ => .head false) fun _ => .head false)
      repaired).map fun s => (s.mtx.pc true, s.cpc true, s.res true)) =
        some (.idle, .idle, some (.lock (), .ret true)) := by
    decide +kernel
  obtain ⟨s, hr, he⟩ := Option.map_eq_some_iff.mp hs
  obtain ⟨hpc, he⟩ := Prod.mk.inj he
  obtain ⟨hcpc, hres⟩ := Prod.mk.inj he
  have hm : Lib.Runs.Meets (step pairTids) (Sound pairTids)
      (Sys.init (fun _ => .head false) fun _ => .head false) repaired := by
    decide +kernel
  have h := ((robust_mutex_run hm hr).2 true (by simp [hpc]) hcpc ()).1 (.inl hres)
  exact ⟨s, hr, hres, h.1, h.2.1⟩

end CppIpc.RobustLock
