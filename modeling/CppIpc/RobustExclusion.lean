import CppIpc.RobustMutex

/-! # Mutual exclusion of `a0_mtx_t`

Over every interleaving of calls, kernel answers and deaths. A word changes hands only
through a state in which it has no owner, so what matters is that no other write takes
an owner out. -/
namespace CppIpc.RobustMutex

/-- A thread that has a word is in it, unless nobody can get it any more. -/
structure Exclusive (K : Tids T) (s : St T M) : Prop where
  word : ∀ {t m}, m ∈ s.holds t → Owned K t (s.ftx m)
  one : ∀ {t v m}, m ∈ s.holds t → m ∈ s.holds v → t = v

/-- What a thread has, as far as its place tells. -/
def Pc.Fits : Pc T M → Finset M → Prop
  | .lockCheck m, h | .tryCheck m, h | .addPrev m _, h | .addNext m .., h | .addHead m .., h
  | .addBack m .., h => m ∈ h
  | .opEnd (.lock m) e, h | .opEnd (.tryLock m) e, h => e.Locked → m ∈ h
  | .dead, h => h = ∅
  | _, _ => True

section Exclusion
variable {K : Tids T} {s u : St T M} {t v : T} {m x : M} {w : Word}

theorem exclusive_init (next prev : Ptr T M → Ptr T M) : Exclusive K (St.init next prev) :=
  ⟨fun h => by simp [St.init] at h, fun h => by simp [St.init] at h⟩

theorem Exclusive.free (hi : Exclusive K s) (h : ftxTid (s.ftx m) = 0) (t : T) : m ∉ s.holds t :=
  fun hm => not_owned_of_zero h (hi.word hm)

theorem Exclusive.owner (hi : Exclusive K s) (h : ftxTid (s.ftx m) = K.tid t)
    (hm : m ∈ s.holds v) : v = t := (hi.word hm).eq h

theorem Exclusive.of_holds (hi : Exclusive K s) (hh : u.holds = s.holds)
    (hw : ∀ {t m}, m ∈ s.holds t → Owned K t (u.ftx m)) : Exclusive K u :=
  ⟨fun hm => hw (hh ▸ hm), fun ht hv => hi.one (hh ▸ ht) (hh ▸ hv)⟩

theorem not_locked_refused {e : Errno} (h : e ≠ .ok) (h' : e ≠ .eownerdead) : ¬ e.Locked :=
  fun hl => hl.elim h h'

theorem fits_after {h : Finset M} (hm : m ∈ h) (k : Adding) : (k.after (T := T) m).Fits h := by
  cases k with
  | lock e => exact fun _ => hm
  | tryFast => exact fun _ => hm
  | trySlow => exact hm

theorem fits_entry (op : Op M) (h : Finset M) : (op.entry (T := T)).Fits h := by
  cases op with
  | lock m | tryLock m | consistent m | unlock m => trivial

theorem fits_afterPi (m : M) (d : Bool) (h : Finset M) : (Pc.afterPi (T := T) m d).Fits h := by
  cases d with
  | true | false => trivial

variable [DecidableEq M]

/-- The word of one mutex changes. -/
theorem owned_update {f : M → Word} (hx : Owned K t (f x)) (hm : x = m → Owned K t w) :
    Owned K t (Function.update f m w x) := by
  by_cases he : x = m
  · rw [he, Function.update_self]
    exact hm he
  · rw [Function.update_of_ne he]
    exact hx

/-- A word without an owner goes to one thread. -/
theorem Exclusive.enter {h : T → Set M} (hi : Exclusive K s) (hout : ∀ a, m ∉ h a)
    (hsub : ∀ a, h a ⊆ s.holds a) (word : u.ftx = Function.update s.ftx m w)
    (tid : ftxTid w = K.tid t) (holds : ∀ a x, x ∈ u.holds a ↔ x ∈ h a ∨ (a = t ∧ x = m)) :
    Exclusive K u := by
  refine ⟨fun {a x} hx => ?_, fun {a v x} ha hv => ?_⟩
  · rw [word]
    rcases (holds a x).mp hx with hx | ⟨rfl, rfl⟩
    · exact owned_update (hi.word (hsub a hx)) fun he => absurd (he ▸ hx) (hout a)
    · rw [Function.update_self]
      exact .inl tid
  · rcases (holds a x).mp ha with ha | ⟨rfl, rfl⟩
    · rcases (holds v x).mp hv with hv | ⟨rfl, rfl⟩
      · exact hi.one (hsub a ha) (hsub v hv)
      · exact absurd ha (hout a)
    · rcases (holds v x).mp hv with hv | ⟨rfl, -⟩
      · exact absurd hv (hout v)
      · rfl

theorem Exclusive.change (hi : Exclusive K s) (hf : ∀ t, (s.pc t).Fits (s.holds t))
    {a : Act T M}
    (h : Change K s a u) : Exclusive K u := by
  cases h with
  | quiet word holds => exact hi.of_holds holds fun hm => (hi.word hm).of_tid (word _).1
  | mend t m _ _ word holds =>
    refine hi.of_holds holds fun {a x} hx => ?_
    rw [word]
    exact owned_update (hi.word hx) fun he => (he ▸ hi.word hx).of_tid (ftxTid_and_not_died _)
  | wreck t m _ word holds =>
    refine hi.of_holds holds fun {a x} hx => ?_
    rw [word]
    exact owned_update (hi.word hx) fun _ => .inr (ftxTid_or_notRecoverable _)
  | acquire t m w _ free word tid _ holds =>
    exact hi.enter (h := fun a => s.holds a) (hi.free free) (fun a => subset_rfl) word tid holds
  | release t m d w _ own word _ holds =>
    refine ⟨fun {a x} hx => ?_, fun {a v x} ha hv => ?_⟩
    · obtain ⟨hx, hne⟩ := (holds a x).mp hx
      rw [word]
      exact owned_update (hi.word hx) fun he => absurd ⟨hi.owner own (he ▸ hx), he⟩ hne
    · exact hi.one ((holds a x).mp ha).1 ((holds v x).mp hv).1
  | handOver t v m d w _ _ own word tid _ holds =>
    refine hi.enter (h := fun a => {x | x ∈ s.holds a ∧ ¬ (a = t ∧ x = m)}) (fun a ha => ?_)
      (fun a x hx => hx.1) word tid holds
    exact ha.2 ⟨hi.owner own ha.1, rfl⟩
  | abandon t m _ word holds | die t _ _ word holds =>
    refine ⟨fun {a x} hx => ?_, fun {a v x} ha hv => ?_⟩
    · rw [word]
      exact hi.word ((holds a x).mp hx).1
    · exact hi.one ((holds a x).mp ha).1 ((holds v x).mp hv).1
  | recover t m w pc own word _ _ holds =>
    refine hi.of_holds holds fun {a x} hx => ?_
    rw [word]
    refine owned_update (hi.word hx) fun he => ?_
    -- a dead thread has nothing
    have hat : a = t := hi.owner own (he ▸ hx)
    have hempty : s.holds t = ∅ := by
      have ht := hf t
      rwa [pc] at ht
    rw [hat, hempty] at hx
    cases hx

variable [DecidableEq T]

theorem opStart_fits {pc : Pc T M} (hf : (s.pc t).Fits (s.holds t)) (hp : pc.Fits (s.holds t)) :
    ((s.opStart t m pc).pc t).Fits ((s.opStart t m pc).holds t) := by
  rw [St.opStart]
  split
  · simpa [St.goto] using hp
  · exact hf

theorem code_fits (hf : (s.pc t).Fits (s.holds t)) (h : code K s t = some u) :
    (u.pc t).Fits (u.holds t) := by
  cases hpc : s.pc t with
  | idle | lockPi | tryPi | unlockPi | dead => simp [code, hpc] at h
  | lockStart m | tryStart m | unlockStart m d =>
    simp only [code, hpc, Option.some.injEq] at h
    subst h
    exact opStart_fits hf trivial
  | lockLoad m =>
    simp only [code, hpc, Option.some.injEq] at h
    subst h
    simp only [St.goto, Function.update_self]
    split
    · exact fun hl => absurd hl (not_locked_refused (by simp) (by simp))
    · trivial
  | lockCas m =>
    simp only [code, hpc, Option.some.injEq] at h
    subst h
    split
    · simp [St.goto, St.take, Pc.Fits]
    · simp [St.goto, Pc.Fits]
  | tryCas m =>
    simp only [code, hpc, Option.some.injEq] at h
    subst h
    split
    · simp [St.goto, St.take, Pc.Fits]
    · split
      · simp [St.goto, Pc.Fits, Errno.Locked]
      · split
        · simp [St.goto, Pc.Fits, Errno.Locked]
        · simp [St.goto, Pc.Fits]
  | lockCheck m | tryCheck m =>
    rw [hpc] at hf
    simp only [code, hpc, Option.some.injEq] at h
    subst h
    simp only [St.goto, Function.update_self]
    first | exact hf | exact fun _ => hf
  | addPrev m k | addNext m k old =>
    rw [hpc] at hf
    simp only [code, hpc, Option.some.injEq] at h
    subst h
    simp only [St.goto, Function.update_self]
    exact hf
  | addHead m k old =>
    rw [hpc] at hf
    simp only [code, hpc, Option.some.injEq] at h
    subst h
    simp only [St.goto, Function.update_self]
    split
    · exact fits_after hf k
    · exact hf
  | addBack m k old =>
    rw [hpc] at hf
    simp only [code, hpc, Option.some.injEq] at h
    subst h
    simp only [St.goto, Function.update_self]
    exact fits_after hf k
  | consistentLoad m =>
    simp only [code, hpc, Option.some.injEq] at h
    subst h
    split
    · simp [St.done, Pc.Fits]
    · split
      · simp [St.done, Pc.Fits]
      · simp [St.goto, Pc.Fits]
  | unlockLoad m | unlockCas m d =>
    simp only [code, hpc, Option.some.injEq] at h
    subst h
    split
    · simp [St.done, St.goto, Pc.Fits]
    · simp [St.goto, Pc.Fits]
  | delNext m d =>
    simp only [code, hpc, Option.some.injEq] at h
    subst h
    simp only [St.goto, Function.update_self]
    split
    · trivial
    · trivial
  | consistentAnd | delPrev | unlockOr | opEnd =>
    simp only [code, hpc, Option.some.injEq] at h
    subst h
    simp [St.goto, St.done, Pc.Fits]

theorem step_fits {a : Act T M} (hd : Documented K s a) (hf : ∀ t, (s.pc t).Fits (s.holds t))
    (h : step K s a = some u) (b : T) : (u.pc b).Fits (u.holds b) := by
  by_cases hb : b ∈ a.threads
  case neg =>
    have hfr := step_frame h hb
    rw [hfr.pc, hfr.holds]
    exact hf b
  cases a with
  | code t =>
    cases List.mem_singleton.mp hb
    exact code_fits (hf b) h
  | call t op =>
    cases List.mem_singleton.mp hb
    simp only [step, Option.ite_none_right_eq_some, Option.some.injEq] at h
    obtain ⟨-, rfl⟩ := h
    simpa [St.goto] using fits_entry op (s.holds b)
  | queue t w =>
    cases List.mem_singleton.mp hb
    simp only [step] at h
    split at h <;> cases h
    exact hf b
  | granted t w =>
    cases List.mem_singleton.mp hb
    simp only [step] at h
    split at h <;> cases h
    · simp [St.goto, St.take, Pc.Fits]
    · simp [St.goto, St.take, Pc.Fits]
  | refused t e w =>
    cases List.mem_singleton.mp hb
    simp only [step] at h
    split at h
    · cases h
    · rename_i hne
      have hl := not_locked_refused hne hd.1
      split at h <;> cases h
      · simp only [St.goto, Function.update_self]
        split
        · trivial
        · exact fun he => absurd he hl
      · simp only [St.goto, Function.update_self]
        split
        · exact fun he => absurd he (not_locked_refused (by simp) (by simp))
        · exact fun he => absurd he (not_locked_refused (by simp) (by simp))
  | released t heir w =>
    simp only [step] at h
    split at h
    · cases heir with
      | none =>
        cases List.mem_singleton.mp hb
        cases h
        simpa [St.goto] using fits_afterPi _ _ _
      | some v =>
        simp only [Option.ite_none_right_eq_some, Option.some.injEq] at h
        obtain ⟨-, rfl⟩ := h
        by_cases hv : b = v
        · subst hv
          simp [St.goto, St.take, Pc.Fits]
        · have ht : b = t := by simpa [Act.threads, hv] using hb
          subst ht
          simp only [St.goto, St.take, Function.update_of_ne hv, Function.update_self]
          exact fits_afterPi _ _ _
    · cases h
  | kept t =>
    cases List.mem_singleton.mp hb
    simp only [step] at h
    split at h <;> cases h
    simpa [St.goto] using fits_afterPi _ _ _
  | die t l =>
    cases List.mem_singleton.mp hb
    simp only [step, Option.ite_none_left_eq_some, Option.some.injEq] at h
    obtain ⟨-, rfl⟩ := h
    simp [St.goto, Pc.Fits]
  | recover t m w =>
    cases List.mem_singleton.mp hb
    simp only [step, Option.ite_none_right_eq_some, Option.some.injEq] at h
    obtain ⟨-, rfl⟩ := h
    exact hf b
  | spawn t =>
    cases List.mem_singleton.mp hb
    simp only [step, Option.ite_none_right_eq_some, Option.some.injEq] at h
    obtain ⟨-, rfl⟩ := h
    simp [St.goto, Pc.Fits]

/-- Both, of every state of a run. -/
theorem exclusive_run {next prev : Ptr T M → Ptr T M} {as : List (Act T M)}
    (hm : Lib.Runs.Meets (step K) (Documented K) (St.init next prev) as)
    (hr : Lib.Runs.run (step K) (St.init next prev) as = some s) :
    Exclusive K s ∧ ∀ t, (s.pc t).Fits (s.holds t) := by
  have hstep : ∀ (s : St T M) (a : Act T M) (u : St T M),
      (Exclusive K s ∧ ∀ t, (s.pc t).Fits (s.holds t)) → Documented K s a → step K s a = some u →
        Exclusive K u ∧ ∀ t, (u.pc t).Fits (u.holds t) := fun s a u hi hd h =>
    ⟨hi.1.change hi.2 (step_change hd h), step_fits hd hi.2 h⟩
  exact Lib.Runs.run_invariant
    (P := fun s : St T M => Exclusive K s ∧ ∀ t, (s.pc t).Fits (s.holds t)) hstep
    ⟨exclusive_init next prev, fun t => trivial⟩ hr hm

/-- At most one thread has acquired a mutex and not released it, whatever the threads
call and wherever they die; and one that is about to be told that it has it, has it. -/
theorem mutual_exclusion {next prev : Ptr T M → Ptr T M} {as : List (Act T M)}
    (hm : Lib.Runs.Meets (step K) (Documented K) (St.init next prev) as)
    (hr : Lib.Runs.run (step K) (St.init next prev) as = some s) :
    (∀ t v m, m ∈ s.holds t → m ∈ s.holds v → t = v) ∧
      ∀ t m e, s.pc t = .opEnd (.lock m) e ∨ s.pc t = .opEnd (.tryLock m) e → e.Locked →
        m ∈ s.holds t := by
  obtain ⟨hi, hf⟩ := exclusive_run hm hr
  refine ⟨fun t v m => hi.one, fun t m e hpc hl => ?_⟩
  have ht := hf t
  rcases hpc with hpc | hpc
  · rw [hpc] at ht
    exact ht hl
  · rw [hpc] at ht
    exact ht hl

end Exclusion

/-- The second thread sleeps until the first one unlocks in the kernel. -/
def handedOver : List (Act Bool Unit) :=
  [.call false (.lock ())] ++ codes false 8 ++ [.call true (.lock ())] ++ codes true 4 ++
    [.queue true (futexWaiters ||| 1), .call false (.unlock ())] ++ codes false 4 ++
    [.released false (some true) (futexWaiters ||| 2)] ++ codes false 1 ++ codes true 4

theorem mutual_exclusion_handedOver :
    ∃ s, Lib.Runs.run (step pairTids) blank handedOver = some s ∧
      s.pc true = .opEnd (.lock ()) .ok ∧ () ∈ s.holds true ∧ () ∉ s.holds false := by
  have hs : ((Lib.Runs.run (step pairTids) blank handedOver).map fun s => s.pc true) =
      some (.opEnd (.lock ()) .ok) := by decide +kernel
  obtain ⟨s, hr, hpc⟩ := Option.map_eq_some_iff.mp hs
  have hm : Lib.Runs.Meets (step pairTids) (Documented pairTids) blank handedOver := by
    decide +kernel
  have h := mutual_exclusion hm hr
  have ht := h.2 true () .ok (.inl hpc) (.inl rfl)
  refine ⟨s, hr, hpc, ht, fun hf => ?_⟩
  cases h.1 true false () ht hf

end CppIpc.RobustMutex
