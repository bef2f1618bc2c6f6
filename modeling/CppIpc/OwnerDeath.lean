import CppIpc.CrashCoverage

/-! # Who learns that an owner died

`FUTEX_OWNER_DIED` in the word stands for data that a dead owner left behind. As long as
nobody unlocks a mutex that he got with `EOWNERDEAD` and has not made consistent, the
next owner learns of every death, learns of nothing else, and no mutex is lost. -/
namespace CppIpc.RobustMutex

variable {T M : Type}

/-- A mutex that was taken over from a dead owner is made consistent before it is
unlocked. -/
def Careful (s : St T M) : Act T M → Prop
  | .call t (.unlock m) => m ∈ s.holds t → ftxOwnerDied (s.ftx m) = false
  | _ => True

/-- The result says whether the owner died. -/
def Errno.Says (e : Errno) (died : Bool) : Prop :=
  (e = .ok → died = false) ∧ (e = .eownerdead → died = true)

def Adding.Says : Adding → Bool → Prop
  | .lock e, died => e.Says died
  | .tryFast, died => died = false
  | .trySlow, _ => True

/-- What the place of a thread tells of the mark in the words that it has. -/
def Pc.Marked (f : M → Word) (h : Finset M) : Pc T M → Prop
  | .unlockLoad m => m ∈ h → ftxOwnerDied (f m) = false
  | .unlockStart m d | .delNext m d | .delPrev m d _ _ | .unlockCas m d | .unlockPi m d =>
    d = false ∧ (m ∈ h → ftxOwnerDied (f m) = false)
  | .unlockOr _ => False
  | .addPrev m k | .addNext m k _ | .addHead m k _ | .addBack m k _ =>
    m ∈ h → k.Says (ftxOwnerDied (f m))
  | .opEnd (.lock m) e | .opEnd (.tryLock m) e => m ∈ h → e.Says (ftxOwnerDied (f m))
  | _ => True

/-- The owner is gone, and the kernel has not looked at the word yet. -/
def Gone (K : Tids T) (s : St T M) (m : M) : Prop :=
  ∃ t, s.pc t = .dead ∧ ftxTid (s.ftx m) = K.tid t

/-- No mutex is lost, and one is marked, or going to be, exactly if an owner died who had
it since it was last consistent. -/
structure Honest (K : Tids T) (s : St T M) : Prop where
  sound : ∀ m, ftxTid (s.ftx m) ≠ futexTidMask
  dirty : ∀ m, m ∈ s.dirty ↔ ftxOwnerDied (s.ftx m) = true ∨ Gone K s m
  marked : ∀ t, (s.pc t).Marked s.ftx (s.holds t)

section Honesty
variable {K : Tids T} {s u : St T M} {a : Act T M} {t b : T} {m : M} {f g : M → Word}
  {h : Finset M} {pc : Pc T M}

theorem honest_init (next prev : Ptr T M → Ptr T M) : Honest K (St.init next prev) where
  sound _ h := futexTidMask_ne_zero (h.symm.trans ftxTid_zero)
  dirty _ := iff_of_false (by simp [St.init]) fun h =>
    h.elim (fun h => Bool.false_ne_true (ftxOwnerDied_zero.symm.trans h)) fun ⟨_, h, _⟩ => by cases h
  marked _ := trivial

/-- Only the words that a thread has matter to it. -/
theorem Pc.Marked.congr (hp : pc.Marked f h)
    (he : ∀ m ∈ h, ftxOwnerDied (g m) = ftxOwnerDied (f m)) : pc.Marked g h := by
  cases pc with
  | unlockLoad m =>
    intro hm
    rw [he m hm]
    exact hp hm
  | unlockStart m | delNext m | delPrev m | unlockCas m | unlockPi m =>
    refine ⟨hp.1, fun hm => ?_⟩
    rw [he m hm]
    exact hp.2 hm
  | addPrev m k | addNext m k | addHead m k | addBack m k =>
    intro hm
    rw [he m hm]
    exact hp hm
  | opEnd op e =>
    cases op with
    | lock m | tryLock m =>
      intro hm
      rw [he m hm]
      exact hp hm
    | consistent | unlock => trivial
  | unlockOr => exact hp.elim
  | idle | lockStart | lockLoad | lockCas | lockPi | lockCheck | tryStart | tryCas | tryPi
  | tryCheck | consistentLoad | consistentAnd | dead => trivial

theorem marked_after {k : Adding} (hs : m ∈ h → k.Says (ftxOwnerDied (f m))) :
    (k.after (T := T) m).Marked f h := by
  cases k with
  | lock e => exact hs
  | tryFast =>
    intro hm
    exact ⟨fun _ => hs hm, fun he => by cases he⟩
  | trySlow => trivial

theorem says_refused {e : Errno} (h : ¬ e.Locked) (d : Bool) : e.Says d :=
  ⟨fun he => absurd (.inl he) h, fun he => absurd (.inr he) h⟩

theorem says_check (d : Bool) : (if d then Errno.eownerdead else .ok).Says d := by
  cases d with
  | false => exact ⟨fun _ => rfl, fun he => by cases he⟩
  | true => exact ⟨fun he => (by cases he), fun _ => rfl⟩

theorem Honest.owner (hh : Honest K s) (hk : Kept K s) (hm : m ∈ s.holds t) :
    ftxTid (s.ftx m) = K.tid t :=
  (hk.excl.word hm).resolve_right (hh.sound m)

theorem Kept.alive (hk : Kept K s) (hm : m ∈ s.holds t) : s.pc t ≠ .dead := by
  intro hd
  have hf := hk.fits t
  rw [hd] at hf
  rw [show s.holds t = ∅ from hf] at hm
  cases hm

theorem not_gone (h : ftxTid (s.ftx m) = K.tid t) (ha : s.pc t ≠ .dead) : ¬ Gone K s m := by
  rintro ⟨b, hb, hm⟩
  exact ha (K.injective (h.symm.trans hm) ▸ hb)

theorem not_gone_zero (h : ftxTid (s.ftx m) = 0) : ¬ Gone K s m := by
  rintro ⟨b, -, hm⟩
  exact tid_zero_ne h hm

variable [DecidableEq M]

theorem sound_step (hh : Honest K s) (h : Change K s a u) (x : M) :
    ftxTid (u.ftx x) ≠ futexTidMask := by
  have keep : ∀ {m : M} {w : Word}, ftxTid w ≠ futexTidMask →
      ftxTid (Function.update s.ftx m w x) ≠ futexTidMask := fun {m w} hw => by
    by_cases hx : x = m
    · rwa [hx, Function.update_self]
    · rw [Function.update_of_ne hx]
      exact hh.sound x
  have tid_ne : ∀ {w : Word} {t : T}, ftxTid w = K.tid t → ftxTid w ≠ futexTidMask := fun he hm =>
    K.ne_mask _ (he.symm.trans hm)
  cases h with
  | quiet word holds =>
    rw [(word x).1]
    exact hh.sound x
  | mend t m _ _ word holds =>
    rw [word]
    refine keep ?_
    rw [ftxTid_and_not_died]
    exact hh.sound m
  | wreck t m pc word holds =>
    have hp := hh.marked t
    rw [pc] at hp
    exact hp.elim
  | acquire t m w _ _ word tid _ holds | handOver _ t m _ w _ _ _ word tid _ holds =>
    rw [word]
    exact keep (tid_ne tid)
  | release t m d w pc _ word new holds =>
    rw [word]
    refine keep ?_
    have hp := hh.marked t
    have hd : d = false := by
      rcases pc with pc | pc
      · rw [pc] at hp
        exact hp.1
      · rw [pc] at hp
        exact hp.1
    rcases new with rfl | rfl
    · exact futexTidMask_ne_zero.symm
    · rw [hd]
      exact futexTidMask_ne_zero.symm
  | abandon t m _ word holds | die t _ _ word holds =>
    rw [word]
    exact hh.sound x
  | recover t m w _ _ word tid _ holds =>
    rw [word]
    refine keep ?_
    rw [tid]
    exact futexTidMask_ne_zero.symm

variable [DecidableEq T]

theorem opStart_marked (hp : (s.pc t).Marked s.ftx (s.holds t))
    (hq : pc.Marked s.ftx (s.holds t)) :
    ((s.opStart t m pc).pc t).Marked (s.opStart t m pc).ftx ((s.opStart t m pc).holds t) := by
  rw [St.opStart]
  split
  · rw [St.goto_pc]
    exact hq
  · exact hp

theorem code_marked (hk : Kept K s) (hh : Honest K s) (h : code K s t = some u) :
    (u.pc t).Marked u.ftx (u.holds t) := by
  have hp := hh.marked t
  cases hpc : s.pc t with
  | idle | lockPi | tryPi | unlockPi | dead => simp [code, hpc] at h
  | lockStart m | tryStart m =>
    simp only [code, hpc, Option.some.injEq] at h
    subst h
    exact opStart_marked hp trivial
  | unlockStart m d =>
    simp only [code, hpc, Option.some.injEq] at h
    subst h
    refine opStart_marked hp ?_
    rw [hpc] at hp
    exact hp
  | lockLoad m =>
    simp only [code, hpc, Option.some.injEq] at h
    subst h
    rw [St.goto_pc]
    split
    · exact fun _ => says_refused (not_locked_refused (by simp) (by simp)) _
    · trivial
  | lockCas m =>
    simp only [code, hpc, Option.some.injEq] at h
    subst h
    split
    · rw [St.goto_pc]
      intro _
      simp [St.goto, St.take, Adding.Says, Errno.Says, ftxOwnerDied_tid]
    · rw [St.goto_pc]
      trivial
  | tryCas m =>
    simp only [code, hpc, Option.some.injEq] at h
    subst h
    split
    · rw [St.goto_pc]
      intro _
      simp [St.goto, St.take, Adding.Says, ftxOwnerDied_tid]
    · split
      · rw [St.goto_pc]
        exact fun _ => says_refused (not_locked_refused (by simp) (by simp)) _
      · split
        · rw [St.goto_pc]
          exact fun _ => says_refused (not_locked_refused (by simp) (by simp)) _
        · rw [St.goto_pc]
          trivial
  | lockCheck m | tryCheck m =>
    simp only [code, hpc, Option.some.injEq] at h
    subst h
    rw [St.goto_pc]
    exact fun _ => says_check _
  | addPrev m k | addNext m k old =>
    rw [hpc] at hp
    simp only [code, hpc, Option.some.injEq] at h
    subst h
    rw [St.goto_pc]
    exact hp
  | addHead m k old =>
    rw [hpc] at hp
    simp only [code, hpc, Option.some.injEq] at h
    subst h
    rw [St.goto_pc]
    split
    · exact marked_after hp
    · exact hp
  | addBack m k old =>
    rw [hpc] at hp
    simp only [code, hpc, Option.some.injEq] at h
    subst h
    rw [St.goto_pc]
    exact marked_after hp
  | consistentLoad m =>
    simp only [code, hpc, Option.some.injEq] at h
    subst h
    split
    · rw [St.done_pc]
      trivial
    · split
      · rw [St.done_pc]
        trivial
      · rw [St.goto_pc]
        trivial
  | consistentAnd m =>
    simp only [code, hpc, Option.some.injEq] at h
    subst h
    simp [St.done, Pc.Marked]
  | unlockLoad m =>
    rw [hpc] at hp
    have hm := hk.holds_of_tid (t := t) (m := m)
    rw [hpc] at hm
    simp only [code, hpc, Option.some.injEq] at h
    subst h
    split
    · rw [St.done_pc]
      trivial
    · rename_i ht
      rw [St.goto_pc]
      have hm := hm (not_not.mp ht) (by simp)
      exact ⟨hp hm, fun _ => hp hm⟩
  | delNext m d =>
    rw [hpc] at hp
    simp only [code, hpc, Option.some.injEq] at h
    subst h
    rw [St.goto_pc]
    split
    · exact hp
    · exact hp
  | delPrev m d p q =>
    rw [hpc] at hp
    simp only [code, hpc, Option.some.injEq] at h
    subst h
    rw [St.goto_pc]
    exact hp
  | unlockCas m d =>
    rw [hpc] at hp
    simp only [code, hpc, Option.some.injEq] at h
    subst h
    split
    · rw [St.goto_pc]
      trivial
    · rw [St.goto_pc]
      exact hp
  | unlockOr m =>
    rw [hpc] at hp
    exact hp.elim
  | opEnd op e =>
    simp only [code, hpc, Option.some.injEq] at h
    subst h
    simp [St.done, Pc.Marked]

/-- The mark in a word that a thread has is the thread's own business. -/
theorem died_of_held (hk : Kept K s) (hh : Honest K s) (hd : Documented K s a)
    (h : step K s a = some u) (hb : b ∉ a.threads) (hm : m ∈ s.holds b) :
    ftxOwnerDied (u.ftx m) = ftxOwnerDied (s.ftx m) := by
  have hu : m ∈ u.holds b := by rwa [(step_frame h hb).holds]
  have same : ∀ {x : M} {w : Word}, (m = x → False) →
      ftxOwnerDied (Function.update s.ftx x w m) = ftxOwnerDied (s.ftx m) := fun hne => by
    rw [Function.update_of_ne fun he => hne he]
  cases step_change hd h with
  | quiet word holds => exact (word m).2
  | mend t x act pc word holds =>
    rw [word]
    refine same fun he => ?_
    have hx := hk.uses t
    rw [pc] at hx
    subst act he
    exact hb (List.mem_singleton.mpr (hk.excl.one hm hx))
  | wreck t x pc word holds =>
    have hp := hh.marked t
    rw [pc] at hp
    exact hp.elim
  | acquire t x w _ free word tid _ holds =>
    rw [word]
    exact same fun he => hk.excl.free free b (he ▸ hm)
  | release t x d w _ own word _ holds =>
    rw [word]
    exact same fun he => ((holds b m).mp hu).2 ⟨hk.excl.owner own (he ▸ hm), he⟩
  | handOver t v x d w pc heir own word _ _ holds =>
    rw [word]
    refine same fun he => ?_
    have hbt := hk.excl.owner own (he ▸ hm)
    rcases (holds b m).mp hu with hne | ⟨hbv, -⟩
    · exact hne.2 ⟨hbt, he⟩
    · rw [← hbv, hbt, pc] at heir
      cases heir
  | abandon t x _ word holds | die t _ _ word holds => rw [word]
  | recover t x w pc own word _ _ holds =>
    rw [word]
    exact same fun he => hk.alive hm (hk.excl.owner own (he ▸ hm) ▸ pc)

theorem marked_step (hk : Kept K s) (hh : Honest K s) (hd : Documented K s a) (hc : Careful s a)
    (h : step K s a = some u) (b : T) : (u.pc b).Marked u.ftx (u.holds b) := by
  by_cases hb : b ∈ a.threads
  case neg =>
    have hf := step_frame h hb
    rw [hf.pc, hf.holds]
    exact (hh.marked b).congr fun m hm => died_of_held hk hh hd h hb hm
  have hp := hh.marked b
  cases a with
  | code t =>
    cases List.mem_singleton.mp hb
    exact code_marked hk hh h
  | call t op =>
    cases List.mem_singleton.mp hb
    simp only [step, Option.ite_none_right_eq_some, Option.some.injEq] at h
    obtain ⟨-, rfl⟩ := h
    rw [St.goto_pc]
    cases op with
    | unlock m => exact hc
    | lock | tryLock | consistent => trivial
  | queue t w =>
    cases List.mem_singleton.mp hb
    cases hpc : s.pc b with
    | lockPi m =>
      simp only [step, hpc, Option.some.injEq] at h
      subst h
      show (s.pc b).Marked _ _
      rw [hpc]
      trivial
    | _ => simp [step, hpc] at h
  | granted t w =>
    cases List.mem_singleton.mp hb
    simp only [step] at h
    split at h <;> cases h
    · rw [St.goto_pc]
      trivial
    · rw [St.goto_pc]
      exact fun _ => trivial
  | refused t e w =>
    cases List.mem_singleton.mp hb
    simp only [step] at h
    split at h
    · cases h
    · rename_i hne
      have hl := not_locked_refused hne hd.1
      split at h <;> cases h
      · rw [St.goto_pc]
        split
        · trivial
        · exact fun _ => says_refused hl _
      · rw [St.goto_pc]
        intro _
        split
        · exact says_refused (not_locked_refused (by simp) (by simp)) _
        · exact says_refused (not_locked_refused (by simp) (by simp)) _
  | released t heir w =>
    cases hpc : s.pc t with
    | unlockPi m d =>
      have hpt := hh.marked t
      rw [hpc] at hpt
      obtain ⟨rfl, -⟩ := hpt
      cases heir with
      | none =>
        cases List.mem_singleton.mp hb
        simp only [step, hpc, Option.some.injEq] at h
        subst h
        rw [St.goto_pc]
        trivial
      | some v =>
        simp only [step, hpc, Option.ite_none_right_eq_some, Option.some.injEq] at h
        obtain ⟨-, rfl⟩ := h
        by_cases hv : b = v
        · subst hv
          rw [St.goto_pc]
          trivial
        · have ht : b = t := by simpa [Act.threads, hv] using hb
          subst ht
          simp only [St.goto, St.take, Function.update_of_ne hv, Function.update_self]
          trivial
    | _ => simp [step, hpc] at h
  | kept t =>
    cases List.mem_singleton.mp hb
    cases hpc : s.pc b with
    | unlockPi m d =>
      rw [hpc] at hp
      obtain ⟨rfl, -⟩ := hp
      simp only [step, hpc, Option.some.injEq] at h
      subst h
      rw [St.goto_pc]
      trivial
    | _ => simp [step, hpc] at h
  | die t l =>
    cases List.mem_singleton.mp hb
    simp only [step, Option.ite_none_left_eq_some, Option.some.injEq] at h
    obtain ⟨-, rfl⟩ := h
    simp [Pc.Marked]
  | recover t m w =>
    cases List.mem_singleton.mp hb
    simp only [step, Option.ite_none_right_eq_some, Option.some.injEq] at h
    obtain ⟨⟨hpc, -⟩, rfl⟩ := h
    show (s.pc b).Marked _ _
    rw [hpc]
    trivial
  | spawn t =>
    cases List.mem_singleton.mp hb
    simp only [step, Option.ite_none_right_eq_some, Option.some.injEq] at h
    obtain ⟨-, rfl⟩ := h
    simp [Pc.Marked]

theorem code_alive (h : code K s t = some u) : s.pc t ≠ .dead ∧ u.pc t ≠ .dead := by
  constructor
  · intro hpc
    simp [code, hpc] at h
  · have hafter : ∀ (m : M) (k : Adding), k.after (T := T) m ≠ .dead := after_ne_dead
    unfold code at h
    split at h <;> cases h
    all_goals grind [St.goto_pc, St.done_pc, St.opStart, St.setNext]

/-- A thread is gone from its death to its successor. -/
theorem dead_step (h : step K s a = some u) (b : T) :
    (u.pc b = .dead ↔ s.pc b = .dead) ∨ (∃ l, a = .die b l) ∨ a = .spawn b := by
  by_cases hb : b ∈ a.threads
  case neg => exact .inl (by rw [(step_frame h hb).pc])
  cases a with
  | code t =>
    cases List.mem_singleton.mp hb
    exact .inl (iff_of_false (code_alive h).2 (code_alive h).1)
  | die t l =>
    cases List.mem_singleton.mp hb
    exact .inr (.inl ⟨l, rfl⟩)
  | spawn t =>
    cases List.mem_singleton.mp hb
    exact .inr (.inr rfl)
  | call t op =>
    cases List.mem_singleton.mp hb
    simp only [step, Option.ite_none_right_eq_some, Option.some.injEq] at h
    obtain ⟨hpc, rfl⟩ := h
    refine .inl (iff_of_false ?_ (by simp [hpc]))
    rw [St.goto_pc]
    exact (calm_entry op).alive
  | queue t w | granted t w | kept t =>
    cases List.mem_singleton.mp hb
    simp only [step] at h
    refine .inl ?_
    split at h <;> cases h
    all_goals grind [St.goto_pc, St.store, Pc.afterPi]
  | refused t e w =>
    cases List.mem_singleton.mp hb
    simp only [step] at h
    refine .inl ?_
    split at h
    · cases h
    · split at h <;> cases h
      all_goals grind [St.goto_pc]
  | released t heir w =>
    refine .inl ?_
    cases hpc : s.pc t with
    | unlockPi m d =>
      have hd : Pc.afterPi (T := T) m d ≠ .dead := by cases d <;> simp [Pc.afterPi]
      cases heir with
      | none =>
        cases List.mem_singleton.mp hb
        simp only [step, hpc, Option.some.injEq] at h
        subst h
        rw [St.goto_pc, hpc]
        exact iff_of_false hd (by simp)
      | some v =>
        simp only [step, hpc, Option.ite_none_right_eq_some, Option.some.injEq] at h
        obtain ⟨hv, rfl⟩ := h
        by_cases hbv : b = v
        · subst hbv
          rw [St.goto_pc, hv]
          simp
        · have ht : b = t := by simpa [Act.threads, hbv] using hb
          subst ht
          simp only [St.goto, St.take, Function.update_of_ne hbv, Function.update_self]
          rw [hpc]
          exact iff_of_false hd (by simp)
    | _ => simp [step, hpc] at h
  | recover t m w =>
    cases List.mem_singleton.mp hb
    simp only [step, Option.ite_none_right_eq_some, Option.some.injEq] at h
    obtain ⟨-, rfl⟩ := h
    exact .inl Iff.rfl

/-- Without a death, the owners that are gone are the same. -/
theorem gone_congr (hk : Kept K s) (h : step K s a = some u) (hne : ∀ t l, a ≠ .die t l)
    (ht : ftxTid (u.ftx m) = ftxTid (s.ftx m)) : Gone K u m ↔ Gone K s m := by
  constructor
  · rintro ⟨t, hpc, hm⟩
    refine ⟨t, ?_, ht.symm.trans hm⟩
    rcases dead_step h t with hiff | ⟨l, he⟩ | rfl
    · exact hiff.mp hpc
    · exact absurd he (hne t l)
    · simp only [step, Option.ite_none_right_eq_some, Option.some.injEq] at h
      exact h.1.1
  · rintro ⟨t, hpc, hm⟩
    refine ⟨t, ?_, ht.trans hm⟩
    rcases dead_step h t with hiff | ⟨l, he⟩ | rfl
    · exact hiff.mpr hpc
    · exact absurd he (hne t l)
    · simp only [step, Option.ite_none_right_eq_some, Option.some.injEq] at h
      rcases hk.owns t m hm with hm | ⟨-, hm⟩
      · exact absurd hpc (hk.alive hm)
      · rw [h.1.2] at hm
        cases hm

theorem dirty_die {l : List M} (hk : Kept K s) (hh : Honest K s)
    (h : step K s (.die t l) = some u) (x : M) :
    x ∈ u.dirty ↔ ftxOwnerDied (u.ftx x) = true ∨ Gone K u x := by
  simp only [step, Option.ite_none_left_eq_some, Option.some.injEq] at h
  obtain ⟨ha, rfl⟩ := h
  have hheld : x ∈ s.holds t ↔ ftxTid (s.ftx x) = K.tid t :=
    ⟨fun hm => hh.owner hk hm, fun hm => hk.holds_of_tid hm ha⟩
  show x ∈ s.dirty ∪ s.holds t ↔ ftxOwnerDied (s.ftx x) = true ∨ _
  rw [Finset.mem_union, hh.dirty x, hheld, or_assoc]
  refine or_congr_right ⟨?_, ?_⟩
  · rintro (⟨b, hb, hm⟩ | hm)
    · refine ⟨b, ?_, hm⟩
      by_cases hbt : b = t
      · simp [St.goto, hbt]
      · simpa [St.goto, hbt] using hb
    · exact ⟨t, by simp [St.goto], hm⟩
  · rintro ⟨b, hb, hm⟩
    by_cases hbt : b = t
    · exact .inr (hbt ▸ hm)
    · exact .inl ⟨b, by simpa [St.goto, hbt] using hb, hm⟩

theorem dirty_step (hk : Kept K s) (hku : Kept K u) (hh : Honest K s) (hd : Documented K s a)
    (h : step K s a = some u) (x : M) :
    x ∈ u.dirty ↔ ftxOwnerDied (u.ftx x) = true ∨ Gone K u x := by
  by_cases hdie : ∃ t l, a = .die t l
  · obtain ⟨t, l, rfl⟩ := hdie
    exact dirty_die hk hh h x
  have keep : ftxTid (u.ftx x) = ftxTid (s.ftx x) →
      ftxOwnerDied (u.ftx x) = ftxOwnerDied (s.ftx x) → (x ∈ u.dirty ↔ x ∈ s.dirty) →
        (x ∈ u.dirty ↔ ftxOwnerDied (u.ftx x) = true ∨ Gone K u x) := fun ht hw hx => by
    rw [hx, hh.dirty x, hw, gone_congr hk h (fun t l he => hdie ⟨t, l, he⟩) ht]
  have other : ∀ {m : M} {w : Word}, u.ftx = Function.update s.ftx m w → x ≠ m →
      u.ftx x = s.ftx x := fun hu hx => by
    rw [hu, Function.update_of_ne hx]
  cases step_change hd h with
  | quiet word holds dirty => exact keep (word x).1 (word x).2 (by rw [dirty])
  | mend t m _ pc word holds dirty =>
    by_cases hx : x = m
    · subst hx
      have hm := hk.uses t
      rw [pc] at hm
      have hw : u.ftx x = s.ftx x &&& ~~~ futexOwnerDied := by rw [word, Function.update_self]
      refine iff_of_false (by simp [dirty]) fun hor => ?_
      rcases hor with hor | hor
      · rw [hw, ftxOwnerDied_and_not_died] at hor
        exact Bool.false_ne_true hor
      · rw [gone_congr hk h (fun t l he => hdie ⟨t, l, he⟩) (by rw [hw, ftxTid_and_not_died])] at hor
        exact not_gone (hh.owner hk hm) (by simp [pc]) hor
    · have hu := other word hx
      exact keep (by rw [hu]) (by rw [hu]) (by simp [dirty, hx])
  | wreck t m pc word holds =>
    have hp := hh.marked t
    rw [pc] at hp
    exact hp.elim
  | acquire t m w _ free word tid died holds dirty =>
    by_cases hx : x = m
    · subst hx
      have hw : u.ftx x = w := by rw [word, Function.update_self]
      have hm : x ∈ u.holds t := (holds t x).mpr (.inr ⟨rfl, rfl⟩)
      rw [dirty, hh.dirty x, hw, died, or_iff_left (not_gone_zero free),
        or_iff_left (not_gone (by rw [hw, tid]) (hku.alive hm))]
    · have hu := other word hx
      exact keep (by rw [hu]) (by rw [hu]) (by rw [dirty])
  | release t m d w pc own word new holds dirty =>
    by_cases hx : x = m
    · subst hx
      have hw : u.ftx x = w := by rw [word, Function.update_self]
      obtain ⟨ha, rfl, hdied⟩ : s.pc t ≠ .dead ∧ d = false ∧
          (x ∈ s.holds t → ftxOwnerDied (s.ftx x) = false) := by
        have hp := hh.marked t
        rcases pc with pc | pc
        · rw [pc] at hp
          exact ⟨by simp [pc], hp⟩
        · rw [pc] at hp
          exact ⟨by simp [pc], hp⟩
      have hz : w = 0 := new.elim id id
      rw [dirty, hh.dirty x, hdied (hk.holds_of_tid own ha), or_iff_right Bool.false_ne_true, hw, hz]
      refine iff_of_false (not_gone own ha) fun hor => ?_
      rcases hor with hor | hor
      · exact Bool.false_ne_true hor
      · exact not_gone_zero (by rw [hw, hz]; rfl) hor
    · have hu := other word hx
      exact keep (by rw [hu]) (by rw [hu]) (by rw [dirty])
  | handOver t v m d w pc _ own word tid died holds dirty =>
    by_cases hx : x = m
    · subst hx
      have hw : u.ftx x = w := by rw [word, Function.update_self]
      have hm : x ∈ u.holds v := (holds v x).mpr (.inr ⟨rfl, rfl⟩)
      have ha : s.pc t ≠ .dead := by simp [pc]
      have hp := hh.marked t
      rw [pc] at hp
      rw [dirty, hh.dirty x, hp.2 (hk.holds_of_tid own ha), or_iff_right Bool.false_ne_true, hw,
        died, or_iff_right Bool.false_ne_true]
      exact iff_of_false (not_gone own ha) (not_gone (by rw [hw, tid]) (hku.alive hm))
    · have hu := other word hx
      exact keep (by rw [hu]) (by rw [hu]) (by rw [dirty])
  | abandon t m _ word holds dirty => exact keep (by rw [word]) (by rw [word]) (by rw [dirty])
  | die t l act => exact absurd ⟨t, l, act⟩ hdie
  | recover t m w pc own word tid died holds dirty =>
    by_cases hx : x = m
    · subst hx
      have hw : u.ftx x = w := by rw [word, Function.update_self]
      rw [dirty, hw, died]
      exact iff_of_true ((hh.dirty x).mpr (.inr ⟨t, pc, own⟩)) (.inl rfl)
    · have hu := other word hx
      exact keep (by rw [hu]) (by rw [hu]) (by rw [dirty])

/-- The kernel keeps its word, nobody dies with too many mutexes, and nobody unlocks what
he has not made consistent. -/
def Allowed (K : Tids T) (s : St T M) (a : Act T M) : Prop :=
  Documented K s a ∧ Few s a ∧ Careful s a

theorem honest_step (hk : Kept K s) (hh : Honest K s) (hg : Allowed K s a)
    (h : step K s a = some u) : Kept K u ∧ Honest K u := by
  obtain ⟨hd, hfew, hc⟩ := hg
  have hku := hk.step hd hfew h
  exact ⟨hku, sound_step hh (step_change hd h), dirty_step hk hku hh hd h,
    marked_step hk hh hd hc h⟩

theorem honest_run {next prev : Ptr T M → Ptr T M} {as : List (Act T M)}
    (hm : Lib.Runs.Meets (step K) (Allowed K) (St.init next prev) as)
    (hr : Lib.Runs.run (step K) (St.init next prev) as = some s) : Kept K s ∧ Honest K s :=
  Lib.Runs.run_invariant (P := fun s : St T M => Kept K s ∧ Honest K s)
    (fun _ _ _ hi hg h => honest_step hi.1 hi.2 hg h)
    ⟨kept_init next prev, honest_init next prev⟩ hr hm

/-- As long as the kernel keeps its word, nobody dies with more mutexes than it looks at
and nobody unlocks what he has not made consistent: no mutex is lost; who is told `ok` has a mutex whose owners have all unlocked since it
was last consistent, and who is told `EOWNERDEAD` has one whose owner died. -/
theorem owner_death_told {next prev : Ptr T M → Ptr T M} {as : List (Act T M)}
    (hm : Lib.Runs.Meets (step K) (Allowed K) (St.init next prev) as)
    (hr : Lib.Runs.run (step K) (St.init next prev) as = some s) :
    (∀ m, ftxNotRecoverable (s.ftx m) = false) ∧
      ∀ t m e, s.pc t = .opEnd (.lock m) e ∨ s.pc t = .opEnd (.tryLock m) e →
        (e = .ok → m ∈ s.holds t ∧ m ∉ s.dirty) ∧ (e = .eownerdead → m ∈ s.holds t ∧ m ∈ s.dirty) := by
  obtain ⟨hk, hh⟩ := honest_run hm hr
  refine ⟨fun m => ?_, fun t m e hpc => ?_⟩
  · rw [Bool.eq_false_iff]
    exact fun h => hh.sound m (ftxTid_of_notRecoverable h)
  · have hf := hk.fits t
    have hp := hh.marked t
    obtain ⟨hf, hp⟩ : (e.Locked → m ∈ s.holds t) ∧
        (m ∈ s.holds t → e.Says (ftxOwnerDied (s.ftx m))) := by
      rcases hpc with hpc | hpc
      · rw [hpc] at hf hp
        exact ⟨hf, hp⟩
      · rw [hpc] at hf hp
        exact ⟨hf, hp⟩
    refine ⟨fun he => ?_, fun he => ?_⟩
    · have hmem := hf (.inl he)
      refine ⟨hmem, fun hd => ?_⟩
      rcases (hh.dirty m).mp hd with hd | hd
      · rw [(hp hmem).1 he] at hd
        cases hd
      · exact not_gone (hh.owner hk hmem) (hk.alive hmem) hd
    · have hmem := hf (.inr he)
      exact ⟨hmem, (hh.dirty m).mpr (.inl ((hp hmem).2 he))⟩

end Honesty

instance Careful.decidable [DecidableEq M] (s : St T M) : (a : Act T M) → Decidable (Careful s a)
  | .call t (.unlock m) =>
    inferInstanceAs (Decidable (m ∈ s.holds t → ftxOwnerDied (s.ftx m) = false))
  | .call _ (.lock _) | .call _ (.tryLock _) | .call _ (.consistent _) | .code _ | .queue ..
  | .granted .. | .refused .. | .released .. | .kept _ | .die .. | .recover .. | .spawn _ =>
    isTrue trivial

instance (K : Tids T) [DecidableEq T] [DecidableEq M] (s : St T M) (a : Act T M) :
    Decidable (Allowed K s a) := inferInstanceAs (Decidable (_ ∧ _ ∧ _))

/-- The first thread dies in the middle of unlocking, and the second one, asleep by then,
gets the mutex. -/
def takenOver : List (Act Bool Unit) :=
  unlinked ++ [.die false [()], .recover false () (futexWaiters ||| futexOwnerDied),
    .granted true (futexWaiters ||| futexOwnerDied ||| 2)] ++ codes true 4

theorem owner_death_told_takenOver : ∃ s,
    Lib.Runs.run (step pairTids) blank takenOver = some s ∧
      s.pc true = .opEnd (.lock ()) .eownerdead ∧ () ∈ s.holds true ∧ () ∈ s.dirty := by
  have hs : ((Lib.Runs.run (step pairTids) blank takenOver).map fun s => s.pc true) =
      some (.opEnd (.lock ()) .eownerdead) := by
    decide +kernel
  obtain ⟨s, hr, hpc⟩ := Option.map_eq_some_iff.mp hs
  have hm : Lib.Runs.Meets (step pairTids) (Allowed pairTids) blank takenOver := by
    decide +kernel
  exact ⟨s, hr, hpc, ((owner_death_told hm hr).2 true () .eownerdead (.inl hpc)).2 rfl⟩

end CppIpc.RobustMutex
