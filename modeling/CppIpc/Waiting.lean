import CppIpc.Lib.Runs
import CppIpc.Message

/-! # Blocking operations: `waiter::wait_if`, `wait_for` and their callers

A call of `wait_for` is a small machine: each step is one evaluation of the
predicate, one read of `quit_` in `wait_if`, or one return of `cond_.wait`.
Between two steps other threads may run `quit_waiting` (through `disconnect`),
`init` (through `reconnect`) or `clear` on the same handle. The predicate has a
side effect exactly when it returns false: it is the push or the pop itself. -/
namespace CppIpc.Waiting
open CppIpc.Def CppIpc.Message
open CppIpc.Lib.Runs (run Meets run_cons run_invariant run_invariant' meets_of_invariant)

/-! ## The waiter -/

/-- The flag `quit_` and `valid()` of a `detail::waiter`. -/
structure Waiter where
  quit : Bool
  valid : Bool
deriving DecidableEq

/-- A waiter that was never opened. -/
def Waiter.closed : Waiter := ⟨false, false⟩

/-- `waiter::open`, the only place that lowers `quit_`. -/
def Waiter.open (_ : Waiter) : Waiter := ⟨false, true⟩

def Waiter.quitWaiting (w : Waiter) : Waiter := { w with quit := true }

/-- `conn_info_head::init`: opens the waiter only if it is not valid. -/
def Waiter.init (w : Waiter) : Waiter := if w.valid then w else w.open

def Waiter.clear (w : Waiter) : Waiter := { w with valid := false }

/-- What other threads may do to the waiter of a handle. -/
inductive Other where
  | quitWaiting | init | clear
deriving DecidableEq

def Other.apply : Other → Waiter → Waiter
  | .quitWaiting, w => w.quitWaiting
  | .init, w => w.init
  | .clear, w => w.clear

/-! ## One call of `wait_for` -/

/-- Where a call stands: the single evaluation of `tm == 0`, the spin loop with
its counter, the three places of `wait_if`, or after the return. -/
inductive Pc where
  | once
  | spin (k : Nat)
  | testQuit
  | ifPred
  | condWait
  | done (ret : Bool)
deriving DecidableEq

/-- One step of a call. The predicate yields `none` when it returns true, and
`some r` when it returns false after doing its work, with result `r`. -/
inductive Ev (ρ : Type) where
  | pred (r : Option ρ)
  | test
  | wait (b : Bool)
deriving DecidableEq

/-- The entry of `wait_for`. -/
def waitFor (tm : Nat) : Pc := if tm = 0 then .once else .spin 0

/-- `quit` is the value that a read of `quit_` would return now. -/
def Pc.step {ρ : Type} (quit : Bool) : Pc → Ev ρ → Option Pc
  | .once, .pred r => some (.done r.isSome)
  | .spin _, .pred (some _) => some (.done true)
  -- `ipc::sleep`: 32 turns yield and count, the next one enters `wait_if`
  | .spin k, .pred none => some (if k < 32 then .spin (k + 1) else .testQuit)
  -- with `quit_` up the loop of `wait_if` ends without the predicate, `k` is
  -- reset, and `wait_for` breaks out of its loop
  | .testQuit, .test => some (if quit then .done true else .ifPred)
  | .ifPred, .pred (some _) => some (.done true)
  | .ifPred, .pred none => some .condWait
  | .condWait, .wait b => some (if b then .testQuit else .done false)
  | _, _ => none

/-- What one step can do. -/
theorem Pc.step_cases {ρ : Type} {quit : Bool} {pc pc' : Pc} {e : Ev ρ}
    (h : pc.step quit e = some pc') :
    (∃ r, e = .pred (some r) ∧ pc' = .done true) ∨
    (e = .pred none ∧ pc' ≠ .done true) ∨
    (e = .test ∧ pc = .testQuit ∧ pc' = if quit then .done true else .ifPred) ∨
    (∃ b, e = .wait b ∧ pc' ≠ .done true) := by
  unfold Pc.step at h
  split at h
  · rename_i r
    cases r with
    | none => cases h; exact .inr (.inl ⟨rfl, by simp⟩)
    | some r => cases h; exact .inl ⟨r, rfl, rfl⟩
  · rename_i r; cases h; exact .inl ⟨r, rfl, rfl⟩
  · cases h; exact .inr (.inl ⟨rfl, by split <;> simp⟩)
  · cases h; exact .inr (.inr (.inl ⟨rfl, rfl, rfl⟩))
  · rename_i r; cases h; exact .inl ⟨r, rfl, rfl⟩
  · cases h; exact .inr (.inl ⟨rfl, by simp⟩)
  · rename_i b; cases h; exact .inr (.inr (.inr ⟨b, rfl, by split <;> simp⟩))
  · cases h

theorem Pc.step_done {ρ : Type} {quit ret : Bool} {e : Ev ρ} :
    (Pc.done ret).step quit e = none := by
  cases e <;> rfl

/-- A step of the scheduler: the call moves, or another thread does. -/
inductive Act (ρ : Type) where
  | call (e : Ev ρ)
  | other (x : Other)
deriving DecidableEq

/-- A call in progress, with the outcomes of its predicate evaluations. -/
structure Call (ρ : Type) where
  w : Waiter
  pc : Pc
  evals : List (Option ρ)
deriving DecidableEq

def Call.start {ρ : Type} (w : Waiter) (tm : Nat) : Call ρ := ⟨w, waitFor tm, []⟩

def Ev.record {ρ : Type} (evals : List (Option ρ)) : Ev ρ → List (Option ρ)
  | .pred r => evals ++ [r]
  | .test | .wait _ => evals

def Call.step {ρ : Type} (s : Call ρ) : Act ρ → Option (Call ρ)
  | .call e => (s.pc.step s.w.quit e).map fun pc => ⟨s.w, pc, e.record s.evals⟩
  | .other x => some { s with w := x.apply s.w }

/-- The flag is down whenever `wait_if` of this call reads it. -/
def Call.Quiet {ρ : Type} : Call ρ → List (Act ρ) → Prop :=
  Meets Call.step fun s a => a = .call .test → s.w.quit = false

/-- No phantom success: true is returned only if the last evaluation of the
predicate returned false, and after that it is not evaluated again. -/
def Call.Honest {ρ : Type} (s : Call ρ) : Prop :=
  (s.pc = .done true → ∃ r, s.evals.getLast? = some (some r)) ∧
  ∀ e ∈ s.evals.dropLast, e = none

section CallProofs
variable {ρ : Type} {s t : Call ρ} {as : List (Act ρ)}

/-- Nothing but the last evaluation has returned false, and that one only if the
call is over. -/
def Call.Clean (s : Call ρ) : Prop :=
  if s.pc = .done true then
    (∃ r, s.evals.getLast? = some (some r)) ∧ ∀ e ∈ s.evals.dropLast, e = none
  else ∀ e ∈ s.evals, e = none

/-- The call has returned true although no evaluation returned false. -/
def Call.Phantom (s : Call ρ) : Prop := s.pc = .done true ∧ ∀ e ∈ s.evals, e = none

theorem Call.Clean.honest (h : s.Clean) : s.Honest := by
  unfold Call.Clean at h
  split at h
  · exact ⟨fun _ => h.1, h.2⟩
  · rename_i hpc
    exact ⟨fun hd => absurd hd hpc, fun e he => h e (List.dropLast_subset _ he)⟩

theorem Call.Phantom.not_honest (h : s.Phantom) : ¬ s.Honest := by
  intro hh
  obtain ⟨r, hr⟩ := hh.1 h.1
  cases h.2 _ (List.mem_of_getLast? hr)

theorem Call.start_clean (w : Waiter) (tm : Nat) : (Call.start (ρ := ρ) w tm).Clean := by
  unfold Call.Clean Call.start waitFor
  rw [if_neg (by dsimp only; split <;> simp)]
  simp

/-- A call that has not returned true with the flag up stays clean. -/
theorem Call.Clean.step {a : Act ρ} (hc : s.Clean) (hs : s.step a = some t)
    (hq : a = .call .test → s.w.quit = false) : t.Clean := by
  cases a with
  | other x => cases hs; exact hc
  | call e =>
    obtain ⟨pc, hpc, rfl⟩ := Option.map_eq_some_iff.mp hs
    have hrun : s.pc ≠ .done true := by
      intro hd; rw [hd, Pc.step_done] at hpc; cases hpc
    unfold Call.Clean at hc ⊢
    rw [if_neg hrun] at hc
    rcases Pc.step_cases hpc with ⟨r, rfl, rfl⟩ | ⟨rfl, hne⟩ | ⟨rfl, -, hd⟩ | ⟨b, rfl, hne⟩
    · simpa [Ev.record] using hc
    · rw [if_neg hne]
      intro e he
      rcases List.mem_append.mp he with he | he
      · exact hc e he
      · exact List.mem_singleton.mp he
    · rw [hq rfl] at hd
      rw [if_neg (by simp [hd])]
      exact hc
    · rw [if_neg hne]; exact hc

theorem Call.Phantom.step {a : Act ρ} (hp : s.Phantom) (hs : s.step a = some t) : t.Phantom := by
  cases a with
  | other x => cases hs; exact hp
  | call e =>
    obtain ⟨pc, hpc, rfl⟩ := Option.map_eq_some_iff.mp hs
    rw [hp.1, Pc.step_done] at hpc
    cases hpc

/-- A read of the raised flag ends the call with true at once. -/
theorem Call.Clean.phantom (hc : s.Clean) (hq : s.w.quit = true)
    (hs : s.step (.call .test) = some t) : t.Phantom := by
  obtain ⟨pc, hpc, rfl⟩ := Option.map_eq_some_iff.mp hs
  rcases Pc.step_cases hpc with ⟨_, h, _⟩ | ⟨h, _⟩ | ⟨-, hat, hd⟩ | ⟨_, h, _⟩
  · cases h
  · cases h
  · unfold Call.Clean at hc
    rw [if_neg (by simp [hat])] at hc
    exact ⟨by simp [hd, hq], hc⟩
  · cases h

/-- In every run a call is honest exactly when no `wait_if` of it finds the
flag raised. -/
theorem Call.Clean.honest_iff (hc : s.Clean) (hr : run Call.step s as = some t) :
    t.Honest ↔ s.Quiet as := by
  induction as generalizing s with
  | nil => cases hr; exact ⟨fun _ => trivial, fun _ => hc.honest⟩
  | cons a as ih =>
    obtain ⟨u, hu, hrun⟩ := run_cons hr
    have htail : (∀ v, s.step a = some v → v.Quiet as) ↔ u.Quiet as := by
      constructor
      · exact fun h => h u hu
      · intro h v hv; rw [hu] at hv; cases hv; exact h
    by_cases hq : a = .call .test → s.w.quit = false
    · rw [ih (hc.step hu hq) hrun, ← htail]
      exact ⟨fun h => ⟨hq, h⟩, And.right⟩
    · have hbad := hq
      rw [Classical.not_imp] at hq
      obtain ⟨rfl, hflag⟩ := hq
      have hp := run_invariant' (fun _ _ _ => Call.Phantom.step)
        (hc.phantom (by simpa using hflag) hu) hrun
      exact ⟨fun h => absurd h hp.not_honest, fun h => absurd h.1 hbad⟩

end CallProofs

/-! ## `send` and `try_send` -/

/-- Where a send stands: inside the `wait_for` of the first call of `todo`, at the
`force_push` that follows its failure, or after the return. -/
inductive SendPc where
  | waiting (pc : Pc)
  | forcing
  | done (ret : Bool)
deriving DecidableEq

/-- A send in progress; `pushed` is what it has put into the queue so far. -/
structure Sending where
  w : Waiter
  todo : List TryPush
  pc : SendPc
  pushed : List TryPush
deriving DecidableEq

/-- A step of a send: of its `wait_for`, whose predicate is `!que->push(..)`, or
the outcome of `que->force_push(..)`. -/
inductive SendAct where
  | call (e : Ev Unit)
  | forcePush (ok : Bool)
  | other (x : Other)
deriving DecidableEq

/-- The current `try_push` has returned true: go on with the next one. -/
def Sending.next (tm : Nat) (s : Sending) : Sending :=
  match s.todo.tail with
  | [] => { s with todo := [], pc := .done true }
  | rest => { s with todo := rest, pc := .waiting (waitFor tm) }

def Sending.start (w : Waiter) (tm : Nat) (calls : List TryPush) : Sending :=
  ⟨w, calls, if calls = [] then .done true else .waiting (waitFor tm), []⟩

/-- A successful push happens inside the predicate. -/
def Sending.note (s : Sending) : Ev Unit → List TryPush
  | .pred (some _) => s.pushed ++ s.todo.take 1
  | _ => s.pushed

/-- `force` tells `send`, which falls back to `force_push`, from `try_send`. -/
def Sending.step (force : Bool) (tm : Nat) (s : Sending) : SendAct → Option Sending
  | .other x => some { s with w := x.apply s.w }
  | .call e =>
    match s.pc with
    | .waiting pc =>
      (pc.step s.w.quit e).map fun pc' =>
        let s' := { s with pushed := s.note e }
        match pc' with
        | .done true => s'.next tm
        | .done false => { s' with pc := if force then .forcing else .done false }
        | _ => { s' with pc := .waiting pc' }
    | _ => none
  | .forcePush ok =>
    match s.pc with
    | .forcing =>
      some (if ok then ({ s with pushed := s.pushed ++ s.todo.take 1 } : Sending).next tm
        else { s with pc := .done false })
    | _ => none

def Sending.Quiet (force : Bool) (tm : Nat) : Sending → List SendAct → Prop :=
  Meets (Sending.step force tm) fun s a => a = .call .test → s.w.quit = false

/-- Everything before `todo` was pushed once, in order. -/
structure Sending.Exact (calls : List TryPush) (s : Sending) : Prop where
  split : s.pushed ++ s.todo = calls
  finished : s.pc = .done true → s.todo = []
  pending : ∀ pc, s.pc = .waiting pc → s.todo ≠ []
  forced : s.pc = .forcing → s.todo ≠ []

section SendProofs
variable {force : Bool} {tm : Nat} {calls : List TryPush} {s t : Sending}

theorem Sending.start_exact (w : Waiter) : (Sending.start w tm calls).Exact calls := by
  unfold Sending.start
  split <;> rename_i h <;> exact ⟨rfl, by simp [h], by simp [h], by simp⟩

/-- Going on after the current element has been pushed. -/
theorem Sending.Exact.next (he : s.Exact calls) (h0 : s.todo ≠ []) :
    (Sending.next tm { s with pushed := s.pushed ++ s.todo.take 1 }).Exact calls := by
  obtain ⟨a, rest, hcons⟩ := List.exists_cons_of_ne_nil h0
  have hsplit := he.split
  rw [hcons] at hsplit
  unfold Sending.next
  simp only [hcons, List.tail_cons]
  split
  · exact ⟨by simpa using hsplit, fun _ => rfl, by simp, by simp⟩
  · rename_i htail
    exact ⟨by simpa using hsplit, by simp, fun _ _ => htail, by simp⟩

theorem Sending.Exact.step {a : SendAct} (he : s.Exact calls) (hs : s.step force tm a = some t)
    (hq : a = .call .test → s.w.quit = false) : t.Exact calls := by
  cases a with
  | other x => cases hs; exact ⟨he.split, he.finished, he.pending, he.forced⟩
  | forcePush ok =>
    simp only [Sending.step] at hs
    split at hs
    · rename_i hpc
      have h0 := he.forced hpc
      cases ok with
      | true => cases hs; exact he.next h0
      | false => cases hs; exact ⟨he.split, by simp, by simp, by simp⟩
    · cases hs
  | call e =>
    simp only [Sending.step] at hs
    split at hs
    · rename_i pc hpc
      have h0 := he.pending pc hpc
      obtain ⟨pc', hstep, ht⟩ := Option.map_eq_some_iff.mp hs
      -- without a raised flag the wait returns true only right after its push
      have hpush : pc' = .done true → ∃ r, e = .pred (some r) := by
        intro hd
        rcases Pc.step_cases hstep with ⟨r, hr, -⟩ | ⟨-, hne⟩ | ⟨rfl, -, hd'⟩ | ⟨_, -, hne⟩
        · exact ⟨r, hr⟩
        · exact absurd hd hne
        · rw [hq rfl, hd] at hd'; cases hd'
        · exact absurd hd hne
      have hkeep : pc' ≠ .done true → s.note e = s.pushed := by
        intro hne
        rcases Pc.step_cases hstep with ⟨r, -, hd⟩ | ⟨rfl, -⟩ | ⟨rfl, -, -⟩ | ⟨_, rfl, -⟩
        · exact absurd hd hne
        all_goals rfl
      cases pc' with
      | done ret =>
        cases ret with
        | true =>
          obtain ⟨r, rfl⟩ := hpush rfl
          subst ht
          exact he.next h0
        | false =>
          subst ht
          refine ⟨?_, ?_, ?_, fun _ => h0⟩
          · simpa [hkeep (by simp)] using he.split
          · dsimp only; split <;> simp
          · intro pc; dsimp only; split <;> simp
      | _ =>
        subst ht
        refine ⟨?_, by simp, fun _ _ => h0, by simp⟩
        simpa [hkeep (by simp)] using he.split
    · cases hs

end SendProofs

/-! ## `recv` -/

inductive RecvPc where
  | waiting (pc : Pc)
  | done (b : Buff)
deriving DecidableEq

/-- A `recv` in progress; `popped` is what it has taken out of the queue. -/
structure Receiving where
  w : Waiter
  rc : RecvCache
  pc : RecvPc
  popped : List MsgT
deriving DecidableEq

def Receiving.start (w : Waiter) (tm : Nat) (rc : RecvCache) : Receiving :=
  ⟨w, rc, .waiting (waitFor tm), []⟩

/-- The local `msg` after a step of the wait: what the pop stored, or still the
value-initialised element. -/
def popped? : Ev MsgT → Option MsgT
  | .pred r => r
  | .test | .wait _ => none

def Receiving.step (h : RecvCtx) (tm : Nat) (s : Receiving) : Act MsgT → Option Receiving
  | .other x => some { s with w := x.apply s.w }
  | .call e =>
    match s.pc with
    | .waiting pc =>
      (pc.step s.w.quit e).map fun pc' =>
        let s' := { s with popped := s.popped ++ (popped? e).toList }
        match pc' with
        | .done true =>
          match recvMsg h s.rc ((popped? e).getD MsgT.zero) with
          | .again rc => { s' with rc := rc, pc := .waiting (waitFor tm) }
          | .ret b rc => { s' with rc := rc, pc := .done b }
        | .done false => { s' with pc := .done .empty }
        | _ => { s' with pc := .waiting pc' }
    | .done _ => none

def Receiving.Quiet (h : RecvCtx) (tm : Nat) : Receiving → List (Act MsgT) → Prop :=
  Meets (Receiving.step h tm) fun s a => a = .call .test → s.w.quit = false

section RecvProofs
variable {h : RecvCtx} {tm : Nat} {rc₀ : RecvCache} {s t : Receiving}

/-- The state of the call is what the loop of `recv` makes of the elements that
were really popped. -/
def Receiving.Genuine (h : RecvCtx) (rc₀ : RecvCache) (s : Receiving) : Prop :=
  match s.pc with
  | .waiting _ => ∀ rest, recv h rc₀ (s.popped ++ rest) = recv h s.rc rest
  | .done b => recv h rc₀ s.popped = (b, s.rc, [])

theorem Receiving.start_genuine (w : Waiter) : (Receiving.start w tm rc₀).Genuine h rc₀ :=
  fun _ => rfl

theorem Receiving.Genuine.step {a : Act MsgT} (hg : s.Genuine h rc₀)
    (hs : s.step h tm a = some t) (hq : a = .call .test → s.w.quit = false) :
    t.Genuine h rc₀ := by
  cases a with
  | other x => cases hs; exact hg
  | call e =>
    simp only [Receiving.step] at hs
    split at hs
    · rename_i pc hpc
      have hrest : ∀ rest, recv h rc₀ (s.popped ++ rest) = recv h s.rc rest := by
        simpa only [Receiving.Genuine, hpc] using hg
      obtain ⟨pc', hstep, ht⟩ := Option.map_eq_some_iff.mp hs
      -- a step that neither pops nor ends the wait with true changes nothing
      have hidle : pc' ≠ .done true → popped? e = none → t.Genuine h rc₀ := by
        intro hne hnone
        rw [hnone] at ht
        cases pc' with
        | done ret =>
          cases ret with
          | true => exact absurd rfl hne
          | false => subst ht; simpa [Receiving.Genuine, recv] using hrest []
        | _ => subst ht; simpa [Receiving.Genuine] using hrest
      rcases Pc.step_cases hstep with ⟨msg, rfl, rfl⟩ | ⟨rfl, hne⟩ | ⟨rfl, -, hd⟩ | ⟨b, rfl, hne⟩
      · simp only [popped?, Option.getD_some, Option.toList_some] at ht
        split at ht
        · rename_i rc' hturn
          subst ht
          intro rest
          rw [List.append_assoc, hrest]
          simp only [List.singleton_append, recv, hturn]
        · rename_i b rc' hturn
          subst ht
          simp only [Receiving.Genuine, hrest, recv, hturn]
      · exact hidle hne rfl
      · rw [hq rfl] at hd
        exact hidle (by simp [hd]) rfl
      · exact hidle hne rfl
    · cases hs

end RecvProofs

/-! ## No phantom success while `quit_` is down -/

/-- `quit_` is down at every read if it was down at the start and nobody calls
`quit_waiting` during the call. -/
theorem Call.quiet_of_no_quit {ρ : Type} {s : Call ρ} {as : List (Act ρ)} (hw : s.w.quit = false)
    (ha : ∀ a ∈ as, a ≠ .other .quitWaiting) : s.Quiet as := by
  refine meets_of_invariant (P := fun s => s.w.quit = false) (fun s hs _ _ _ => hs) ?_ hw
  intro s t hs a hmem ht
  cases a with
  | call e =>
    obtain ⟨pc, _, rfl⟩ := Option.map_eq_some_iff.mp ht
    exact hs
  | other x =>
    cases ht
    cases x with
    | quitWaiting => exact absurd rfl (ha _ hmem)
    | init => simp only [Other.apply, Waiter.init]; split <;> simp [hs, Waiter.open]
    | clear => exact hs

/-- A call of `wait_for` is honest exactly when `quit_` is down at every read by
its `wait_if`. In such runs `send` and `try_send` return true only after pushing
every element once, in order, and what `recv` returns is made of the elements it
popped. The waiter `w` may have any history. -/
theorem no_phantom_success (w : Waiter) (tm : Nat) :
    (∀ (ρ : Type) (as : List (Act ρ)) (s : Call ρ),
      run Call.step (Call.start w tm) as = some s → (s.Honest ↔ (Call.start (ρ := ρ) w tm).Quiet as)) ∧
    (∀ (force : Bool) (calls : List TryPush) (as : List SendAct)
      (s : Sending), run (Sending.step force tm) (Sending.start w tm calls) as = some s →
      (Sending.start w tm calls).Quiet force tm as → s.pc = .done true → s.pushed = calls) ∧
    (∀ (h : RecvCtx) (rc : RecvCache) (as : List (Act MsgT))
      (s : Receiving) (b : Buff), run (Receiving.step h tm) (Receiving.start w tm rc) as = some s →
      (Receiving.start w tm rc).Quiet h tm as → s.pc = .done b →
      recv h rc s.popped = (b, s.rc, [])) := by
  refine ⟨?_, ?_, ?_⟩
  · intro ρ as s hr
    exact (Call.start_clean w tm).honest_iff hr
  · intro force calls as s hr hq hd
    have he : s.Exact calls :=
      run_invariant (fun _ _ _ he hq hs => he.step hs hq) (Sending.start_exact w) hr hq
    rw [← he.split, he.finished hd, List.append_nil]
  · intro h rc as s b hr hq hd
    have hg : s.Genuine h rc :=
      run_invariant (fun _ _ _ hg hq hs => hg.step hs hq) (Receiving.start_genuine w) hr hq
    simpa only [Receiving.Genuine, hd] using hg

/-- A wait that is woken once before its predicate returns false. -/
def woken : List (Act Unit) :=
  List.replicate 33 (.call (.pred none)) ++
    [.call .test, .call (.pred none), .call (.wait true), .call .test, .call (.pred (some ()))]

/-- A blocking wait, a send and a `recv` on a freshly opened waiter. -/
theorem no_phantom_success_fresh :
    (⟨⟨false, true⟩, .done true, List.replicate 34 none ++ [some ()]⟩ : Call Unit).Honest ∧
    (∃ s, run (Sending.step true 0) (Sending.start Waiter.closed.init 0 (fragments [1, 2]))
        [.call (.pred (some ()))] = some s ∧ s.pushed = fragments [1, 2]) ∧
    (∃ s b, run (Receiving.step ⟨true, 1⟩ 0) (Receiving.start Waiter.closed.init 0 [])
        [.call (.pred (some MsgT.zero))] = some s ∧ s.pc = .done b ∧
      recv ⟨true, 1⟩ [] s.popped = (b, s.rc, [])) := by
  refine ⟨?_, ⟨⟨⟨false, true⟩, [], .done true, fragments [1, 2]⟩, by decide, ?_⟩,
    ⟨⟨⟨false, true⟩, [], .done (.cache (List.replicate 64 (some 0))), [MsgT.zero]⟩, _,
      by decide, rfl, ?_⟩⟩
  · apply ((no_phantom_success Waiter.closed.init 100).1 Unit woken _ (by decide)).mpr
    exact Call.quiet_of_no_quit rfl (by decide)
  · exact (no_phantom_success Waiter.closed.init 0).2.1 true _ [.call (.pred (some ()))] _
      (by decide) ⟨nofun, fun _ _ => trivial⟩ rfl
  · exact (no_phantom_success Waiter.closed.init 0).2.2 ⟨true, 1⟩ [] [.call (.pred (some MsgT.zero))] _
      _ (by decide) ⟨nofun, fun _ _ => trivial⟩ rfl

/-- The waiter of a handle that was connected, disconnected and reconnected. -/
def reconnected : Waiter := Waiter.closed.init.quitWaiting.init

/-- A `wait_for` on such a waiter whose predicate never returns false. -/
def stuck (ρ : Type) : List (Act ρ) := List.replicate 33 (.call (.pred none)) ++ [.call .test]

/-- After a reconnect a wait, a send on a full queue and a `recv` on an empty one
all succeed although nothing was pushed or popped; `recv` even returns 64 zero
bytes. -/
theorem phantom_success :
    (∃ s, run Call.step (Call.start (ρ := Unit) reconnected 100) (stuck Unit) = some s ∧
      s.pc = .done true ∧ ¬ s.Honest) ∧
    (∃ s, run (Sending.step true 100) (Sending.start reconnected 100 (fragments [1, 2, 3]))
        (List.replicate 33 (.call (.pred none)) ++ [.call .test]) = some s ∧
      s.pc = .done true ∧ s.pushed = []) ∧
    (∃ s, run (Receiving.step ⟨true, 1⟩ 100) (Receiving.start reconnected 100 [])
        (stuck MsgT) = some s ∧
      s.pc = .done (.cache (List.replicate 64 (some 0))) ∧ s.popped = []) := by
  refine ⟨⟨⟨⟨true, true⟩, .done true, List.replicate 33 none⟩, by decide, rfl, ?_⟩,
    ⟨⟨⟨true, true⟩, [], .done true, []⟩, by decide, rfl, rfl⟩,
    ⟨⟨⟨true, true⟩, [], .done (.cache (List.replicate 64 (some 0))), []⟩, by decide, rfl, rfl⟩⟩
  intro hh
  obtain ⟨r, hr⟩ := hh.1 rfl
  simp at hr

end CppIpc.Waiting
