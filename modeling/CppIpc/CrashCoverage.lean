import CppIpc.RobustList

/-! # What the kernel finds when a thread dies

A word with a thread in it is on the thread's list or pending, at every instruction; once
the thread is gone the kernel still has it to look at. -/
namespace CppIpc.RobustMutex
open CppIpc.Lib.Rings

variable {T M : Type}

/-- Nobody dies with more mutexes than the kernel looks at. -/
def Few (s : St T M) : Act T M → Prop
  | .die t _ => (s.holds t).card ≤ robustListLimit
  | _ => True

instance Few.decidable (s : St T M) : (a : Act T M) → Decidable (Few s a)
  | .die t _ => inferInstanceAs (Decidable ((s.holds t).card ≤ robustListLimit))
  | .call .. | .code _ | .queue .. | .granted .. | .refused .. | .released .. | .kept _
  | .recover .. | .spawn _ => isTrue trivial

structure Kept (K : Tids T) (s : St T M) : Prop where
  excl : Exclusive K s
  fits : ∀ t, (s.pc t).Fits (s.holds t)
  uses : ∀ t, (s.pc t).Uses (s.holds t)
  owns : ∀ t m, ftxTid (s.ftx m) = K.tid t →
    m ∈ s.holds t ∨ (s.pc t = .dead ∧ m ∈ s.doomed t)
  roster : ∀ t, Roster s t

section Steps
variable {K : Tids T} {s u : St T M} {t : T} {m : M} {L : List M}

theorem kept_init (next prev : Ptr T M → Ptr T M) : Kept K (St.init next prev) where
  excl := exclusive_init next prev
  fits _ := trivial
  uses _ := trivial
  owns t _ h := absurd (h.symm.trans ftxTid_zero) (K.ne_zero t)
  roster _ := .fresh rfl rfl trivial

theorem pends_of_floating {pc : Pc T M} (h : pc.floating = some m) : pc.pends = some m := by
  cases pc with
  | lockCheck | addPrev | addNext | addHead | delPrev | unlockCas | unlockPi => exact h
  | _ => cases h

theorem Kept.holds_of_tid (hk : Kept K s) (h : ftxTid (s.ftx m) = K.tid t)
    (hd : s.pc t ≠ .dead) : m ∈ s.holds t :=
  (hk.owns t m h).resolve_right fun h => hd h.1

theorem uses_entry (op : Op M) (h : Finset M) : (op.entry (T := T)).Uses h := by
  cases op with
  | lock | tryLock | consistent | unlock => trivial

theorem uses_afterPi (m : M) (d : Bool) (h : Finset M) : (Pc.afterPi (T := T) m d).Uses h := by
  cases d with
  | true | false => trivial

theorem tid_zero_ne {w : Word} (h : ftxTid w = 0) : ftxTid w ≠ K.tid t := by
  rw [h]
  exact (K.ne_zero t).symm

theorem tid_mask_ne {w : Word} (h : ftxTid w = futexTidMask) : ftxTid w ≠ K.tid t := by
  rw [h]
  exact (K.ne_mask t).symm

theorem newVal_ne (d : Bool) : ftxTid (newVal d) ≠ K.tid t := by
  cases d with
  | false => exact tid_zero_ne rfl
  | true => exact tid_mask_ne rfl

variable [DecidableEq M]

theorem update_tid {f : M → Word} {w : Word} {x : M}
    (h : ftxTid (Function.update f m w x) = K.tid t) :
    (x = m ∧ ftxTid w = K.tid t) ∨ (x ≠ m ∧ ftxTid (f x) = K.tid t) := by
  by_cases hx : x = m
  · rw [hx, Function.update_self] at h
    exact .inl ⟨hx, h⟩
  · rw [Function.update_of_ne hx] at h
    exact .inr ⟨hx, h⟩

variable [DecidableEq T]

/-- The kernel finds every mutex of a thread, on the list or pending. -/
theorem Listed.cover (hl : Listed s t L) (hfew : (s.holds t).card ≤ robustListLimit)
    (hm : m ∈ s.holds t) : s.pending t = some m ∨
      .mtx m ∈ walk s.next (.head t) robustListLimit (s.next (.head t)) := by
  rcases (hl.mem m).mp hm with hmL | hf
  · have hsub : L.toFinset ⊆ s.holds t := fun x hx =>
      (hl.mem x).mpr (.inl (List.mem_toFinset.mp hx))
    have hlen : L.length ≤ robustListLimit := by
      rw [← List.toFinset_card_of_nodup hl.nodup]
      exact (Finset.card_le_card hsub).trans hfew
    refine .inr ?_
    rw [hl.fwd.walk head_notMem_nodes, nodes, List.take_of_length_le (by simpa using hlen)]
    exact mem_nodes.mpr hmL
  · exact .inl (hl.pend m (pends_of_floating hf))

theorem die_cover {l : List M} (hr : Roster s t) (hd : Documented K s (.die t l))
    (hfew : Few s (.die t l)) (ha : s.pc t ≠ .dead) (hm : m ∈ s.holds t) : m ∈ l := by
  cases hr with
  | gone pc => exact absurd pc ha
  | fresh init holds pc =>
    rw [holds] at hm
    cases hm
  | listed init alive L hl =>
    obtain ⟨hpend, hwalk⟩ := hd init
    rcases hl.cover hfew hm with h | h
    · exact hpend m h
    · exact hwalk m (List.mem_filterMap.mpr ⟨_, h, rfl⟩)

/-- What the kernel still has to look at, it goes on to look at. -/
theorem doomed_kept {a : Act T M} (h : step K s a = some u) (hd : s.pc t = .dead)
    (hm : m ∈ s.doomed t) (hne : ∀ w, a ≠ .recover t m w) : u.pc t = .dead ∧ m ∈ u.doomed t := by
  by_cases ht : t ∈ a.threads
  case neg =>
    have hf := step_frame h ht
    rw [hf.pc, hf.doomed]
    exact ⟨hd, hm⟩
  cases a with
  | code t =>
    cases List.mem_singleton.mp ht
    simp [step, code, hd] at h
  | call t op | queue t w | granted t w | refused t e w | kept t | die t l =>
    cases List.mem_singleton.mp ht
    simp [step, hd] at h
  | released b heir w =>
    simp only [step] at h
    split at h
    · rename_i hpc
      cases heir with
      | none =>
        cases List.mem_singleton.mp ht
        simp [hd] at hpc
      | some v =>
        simp only [Option.ite_none_right_eq_some] at h
        rcases List.mem_cons.mp ht with rfl | hv
        · simp [hd] at hpc
        · cases List.mem_singleton.mp hv
          simp [hd] at h
    · cases h
  | recover b x w =>
    cases List.mem_singleton.mp ht
    simp only [step, Option.ite_none_right_eq_some, Option.some.injEq] at h
    obtain ⟨-, rfl⟩ := h
    refine ⟨hd, ?_⟩
    have hx : m ≠ x := fun he => hne w (by rw [he])
    simpa using (List.mem_erase_of_ne hx).mpr hm
  | spawn b =>
    cases List.mem_singleton.mp ht
    simp only [step, Option.ite_none_right_eq_some] at h
    rw [h.1.2] at hm
    cases hm

theorem owns_recover {b : T} {x : M} {w : Word} (hk : Kept K s)
    (hd : Documented K s (.recover t m w)) (h : step K s (.recover t m w) = some u)
    (hx : ftxTid (u.ftx x) = K.tid b) :
    x ∈ u.holds b ∨ (u.pc b = .dead ∧ x ∈ u.doomed b) := by
  have hcases : ftxTid (s.ftx x) = K.tid b ∧ ∀ w', (.recover t m w : Act T M) ≠ .recover b x w' := by
    have hu := h
    simp only [step, Option.ite_none_right_eq_some, Option.some.injEq] at hu
    obtain ⟨-, rfl⟩ := hu
    rcases update_tid hx with ⟨rfl, hw⟩ | ⟨hne, hx⟩
    · rw [Documented] at hd
      split at hd
      · exact absurd hw (tid_zero_ne hd.1)
      · rename_i ht
        rw [hd] at hw
        refine ⟨hw, fun w' he => ht ?_⟩
        cases he
        exact hw
    · refine ⟨hx, fun w' he => hne ?_⟩
      cases he
      rfl
  obtain ⟨hs, hne⟩ := hcases
  rcases hk.owns b x hs with hm | ⟨hb, hm⟩
  · simp only [step, Option.ite_none_right_eq_some, Option.some.injEq] at h
    obtain ⟨-, rfl⟩ := h
    exact .inl hm
  · exact .inr (doomed_kept h hb hm hne)

theorem owns_step {a : Act T M} (hk : Kept K s) (hd : Documented K s a) (hfew : Few s a)
    (h : step K s a = some u) (b : T) (x : M) (hx : ftxTid (u.ftx x) = K.tid b) :
    x ∈ u.holds b ∨ (u.pc b = .dead ∧ x ∈ u.doomed b) := by
  by_cases hr : ∃ t m w, a = .recover t m w
  · obtain ⟨t, m, w, rfl⟩ := hr
    exact owns_recover hk hd h hx
  -- what was in the word and still is
  have carry : ftxTid (s.ftx x) = K.tid b →
      (x ∈ s.holds b → x ∈ u.holds b ∨ (u.pc b = .dead ∧ x ∈ u.doomed b)) →
        x ∈ u.holds b ∨ (u.pc b = .dead ∧ x ∈ u.doomed b) := fun hs hh => by
    rcases hk.owns b x hs with hm | ⟨hb, hm⟩
    · exact hh hm
    · exact .inr (doomed_kept h hb hm fun w he => hr ⟨b, x, w, he⟩)
  cases step_change hd h with
  | quiet word holds =>
    exact carry ((word x).1.symm.trans hx) fun hm => .inl (by rwa [holds])
  | mend t m _ _ word holds =>
    rw [word] at hx
    refine carry ?_ fun hm => .inl (by rwa [holds])
    rcases update_tid hx with ⟨rfl, hw⟩ | ⟨-, hx⟩
    · rwa [ftxTid_and_not_died] at hw
    · exact hx
  | wreck t m _ word holds =>
    rw [word] at hx
    rcases update_tid hx with ⟨rfl, hw⟩ | ⟨-, hx⟩
    · exact absurd hw (tid_mask_ne (ftxTid_or_notRecoverable _))
    · exact carry hx fun hm => .inl (by rwa [holds])
  | acquire t m w _ _ word tid _ holds =>
    rw [word] at hx
    rcases update_tid hx with ⟨rfl, hw⟩ | ⟨-, hx⟩
    · exact .inl ((holds b x).mpr (.inr ⟨K.injective (hw.symm.trans tid), rfl⟩))
    · exact carry hx fun hm => .inl ((holds b x).mpr (.inl hm))
  | release t m d w _ _ word new holds =>
    rw [word] at hx
    rcases update_tid hx with ⟨rfl, hw⟩ | ⟨hne, hx⟩
    · rcases new with rfl | rfl
      · exact absurd hw (tid_zero_ne rfl)
      · exact absurd hw (newVal_ne d)
    · exact carry hx fun hm => .inl ((holds b x).mpr ⟨hm, fun he => hne he.2⟩)
  | handOver t v m d w _ _ _ word tid _ holds =>
    rw [word] at hx
    rcases update_tid hx with ⟨rfl, hw⟩ | ⟨hne, hx⟩
    · exact .inl ((holds b x).mpr (.inr ⟨K.injective (hw.symm.trans tid), rfl⟩))
    · exact carry hx fun hm => .inl ((holds b x).mpr (.inl ⟨hm, fun he => hne he.2⟩))
  | abandon t m lost word holds =>
    rw [word] at hx
    refine carry hx fun hm => .inl ((holds b x).mpr ⟨hm, ?_⟩)
    rintro ⟨rfl, rfl⟩
    exact lost hx
  | die t l act word holds =>
    subst act
    rw [word] at hx
    refine carry hx fun hm => ?_
    simp only [step, Option.ite_none_left_eq_some, Option.some.injEq] at h
    obtain ⟨ha, rfl⟩ := h
    by_cases hb : b = t
    · subst hb
      exact .inr ⟨by simp, by simpa using die_cover (hk.roster b) hd hfew ha hm⟩
    · exact .inl ((holds b x).mpr ⟨hm, hb⟩)
  | recover t m w _ _ word tid _ holds =>
    rw [word] at hx
    rcases update_tid hx with ⟨rfl, hw⟩ | ⟨-, hx⟩
    · exact absurd hw (tid_zero_ne tid)
    · exact carry hx fun hm => .inl (by rwa [holds])

theorem uses_step {a : Act T M} (hk : Kept K s) (h : step K s a = some u) (b : T) :
    (u.pc b).Uses (u.holds b) := by
  by_cases hb : b ∈ a.threads
  case neg =>
    have hf := step_frame h hb
    rw [hf.pc, hf.holds]
    exact hk.uses b
  cases a with
  | code t =>
    cases List.mem_singleton.mp hb
    exact code_uses (fun m => hk.holds_of_tid) (hk.uses b) h
  | call t op =>
    cases List.mem_singleton.mp hb
    simp only [step, Option.ite_none_right_eq_some, Option.some.injEq] at h
    obtain ⟨-, rfl⟩ := h
    simpa using uses_entry op (s.holds b)
  | queue t w =>
    cases List.mem_singleton.mp hb
    simp only [step] at h
    split at h <;> cases h
    exact hk.uses b
  | granted t w =>
    cases List.mem_singleton.mp hb
    simp only [step] at h
    split at h <;> cases h
    · simp [Pc.Uses]
    · simp [Pc.Uses]
  | refused t e w =>
    cases List.mem_singleton.mp hb
    simp only [step] at h
    split at h
    · cases h
    · split at h <;> cases h
      · rw [St.goto_pc]
        split
        · trivial
        · trivial
      · simp [Pc.Uses]
  | released t heir w =>
    simp only [step] at h
    split at h
    · cases heir with
      | none =>
        cases List.mem_singleton.mp hb
        cases h
        rw [St.goto_pc]
        exact uses_afterPi _ _ _
      | some v =>
        simp only [Option.ite_none_right_eq_some, Option.some.injEq] at h
        obtain ⟨-, rfl⟩ := h
        by_cases hv : b = v
        · subst hv
          simp [Pc.Uses]
        · have ht : b = t := by simpa [Act.threads, hv] using hb
          subst ht
          simp only [St.goto, St.take, Function.update_of_ne hv, Function.update_self]
          exact uses_afterPi _ _ _
    · cases h
  | kept t =>
    cases List.mem_singleton.mp hb
    simp only [step] at h
    split at h <;> cases h
    rw [St.goto_pc]
    exact uses_afterPi _ _ _
  | die t l =>
    cases List.mem_singleton.mp hb
    simp only [step, Option.ite_none_left_eq_some, Option.some.injEq] at h
    obtain ⟨-, rfl⟩ := h
    simp [Pc.Uses]
  | recover t m w =>
    cases List.mem_singleton.mp hb
    simp only [step, Option.ite_none_right_eq_some, Option.some.injEq] at h
    obtain ⟨-, rfl⟩ := h
    exact hk.uses b
  | spawn t =>
    cases List.mem_singleton.mp hb
    simp only [step, Option.ite_none_right_eq_some, Option.some.injEq] at h
    obtain ⟨-, rfl⟩ := h
    simp [Pc.Uses]

/-- Only the code of a thread writes links. -/
theorem step_links {a : Act T M} (h : step K s a = some u) (hc : ∀ t, a ≠ .code t) :
    u.next = s.next ∧ u.prev = s.prev := by
  cases a with
  | code t => exact absurd rfl (hc t)
  | call | die | recover | spawn =>
    simp only [step, Option.ite_none_right_eq_some, Option.ite_none_left_eq_some,
      Option.some.injEq] at h
    obtain ⟨-, rfl⟩ := h
    exact ⟨rfl, rfl⟩
  | queue t w | granted t w | kept t =>
    simp only [step] at h
    split at h <;> cases h
    all_goals exact ⟨rfl, rfl⟩
  | refused t e w =>
    simp only [step] at h
    split at h
    · cases h
    · split at h <;> cases h
      · exact ⟨rfl, rfl⟩
      · exact ⟨rfl, rfl⟩
  | released t heir w =>
    simp only [step] at h
    split at h
    · cases heir with
      | none =>
        cases h
        exact ⟨rfl, rfl⟩
      | some v =>
        simp only [Option.ite_none_right_eq_some, Option.some.injEq] at h
        obtain ⟨-, rfl⟩ := h
        exact ⟨rfl, rfl⟩
    · cases h

/-- The word is given up in the kernel. -/
theorem roster_afterPi {d : Bool} {w : Word} (hr : Roster s t) (hpc : s.pc t = .unlockPi m d) :
    Roster ((s.drop t m w).goto t (.afterPi m d)) t := by
  refine roster_drop hr (by rw [hpc]; exact id) (by simp [hpc]) (by rw [hpc]; rfl)
    (by rw [hpc]; rfl) ?_ ?_ ?_ ?_
  · cases d <;> simp [Pc.afterPi]
  · cases d <;> rfl
  · cases d with
    | true => exact fun x hx => Option.some.inj hx
    | false => exact fun x hx => by simp [Pc.afterPi, Pc.pends] at hx
  · intro L hback
    rw [hpc] at hback
    cases d <;> exact hback

theorem roster_released {heir : Option T} {w : Word} (hk : Kept K s)
    (hd : Documented K s (.released t heir w)) (h : step K s (.released t heir w) = some u)
    {b : T} (hb : b ∈ (.released t heir w : Act T M).threads) : Roster u b := by
  cases hpc : s.pc t with
  | unlockPi m d =>
    simp only [Documented, hpc, Pc.futex, Option.mem_some_iff, forall_eq'] at hd
    have ht : Roster ((s.drop t m w).goto t (.afterPi m d)) t := roster_afterPi (hk.roster t) hpc
    cases heir with
    | none =>
      cases List.mem_singleton.mp hb
      simp only [step, hpc, Option.some.injEq] at h
      exact h ▸ ht
    | some v =>
      simp only [step, hpc, Option.ite_none_right_eq_some, Option.some.injEq] at h
      obtain ⟨hv, rfl⟩ := h
      have hvt : v ≠ t := by
        rintro rfl
        rw [hpc] at hv
        cases hv
      have hroster : Roster ((s.drop t m w).goto t (.afterPi m d)) v := by
        refine (hk.roster v).frame ?_ fun p _ => ⟨rfl, rfl⟩
        constructor <;> simp [St.goto, St.drop, hvt]
      rcases List.mem_cons.mp hb with rfl | hb
      · refine ht.frame ?_ fun p _ => ⟨rfl, rfl⟩
        constructor <;> simp [St.goto, St.take, hvt.symm]
      · cases List.mem_singleton.mp hb
        have hpv : ((s.drop t m w).goto t (.afterPi m d)).pc b = .lockPi m := by
          simpa [St.goto, St.drop, hvt] using hv
        refine roster_take hroster ?_ (by rw [hpv]; exact id) (by simp [hpv]) (by rw [hpv]; rfl)
          (by rw [hpv]; rfl) (by simp) rfl (fun x hx => Option.some.inj hx) fun L hback => ?_
        · intro hm
          have hm' := (mem_drop s w).mp hm
          exact hvt (hk.excl.owner hd.1 hm'.1)
        · rw [hpv] at hback
          exact hback
  | _ => simp [step, hpc] at h

theorem roster_step {a : Act T M} (hk : Kept K s) (hd : Documented K s a)
    (h : step K s a = some u) (b : T) : Roster u b := by
  by_cases hb : b ∈ a.threads
  case neg =>
    refine (hk.roster b).frame (step_frame h hb) fun p hp => ?_
    by_cases hc : ∃ t, a = .code t
    · obtain ⟨t, rfl⟩ := hc
      have hbt : t ≠ b := fun he => hb (he ▸ List.mem_singleton_self t)
      exact code_area (hk.roster t) (hk.uses t) h (area_apart hk.excl hbt hp)
    · have hl := step_links h fun t he => hc ⟨t, he⟩
      exact ⟨congrFun hl.1 p, congrFun hl.2 p⟩
  cases a with
  | code t =>
    cases List.mem_singleton.mp hb
    exact code_roster hk.excl (hk.roster b) (hk.uses b) h
  | call t op =>
    cases List.mem_singleton.mp hb
    simp only [step, Option.ite_none_right_eq_some, Option.some.injEq] at h
    obtain ⟨hpc, rfl⟩ := h
    refine (hk.roster b).calm_goto (by simp [hpc]) ?_
    rw [hpc]
    exact calm_entry op
  | queue t w =>
    cases List.mem_singleton.mp hb
    simp only [step] at h
    split at h <;> cases h
    exact (hk.roster b).frame ⟨rfl, rfl, rfl, rfl, rfl, rfl⟩ fun p _ => ⟨rfl, rfl⟩
  | granted t w =>
    cases List.mem_singleton.mp hb
    cases hpc : s.pc b with
    | lockPi m =>
      simp only [Documented, hpc, Pc.futex, Option.mem_some_iff, forall_eq'] at hd
      simp only [step, hpc, Option.some.injEq] at h
      subst h
      refine roster_take (hk.roster b) (hk.excl.free hd.1 b) (by rw [hpc]; exact id) (by simp [hpc])
        (by rw [hpc]; rfl) (by rw [hpc]; rfl) (by simp) rfl (fun x hx => Option.some.inj hx)
        fun L hback => ?_
      rw [hpc] at hback
      exact hback
    | tryPi m =>
      simp only [Documented, hpc, Pc.futex, Option.mem_some_iff, forall_eq'] at hd
      simp only [step, hpc, Option.some.injEq] at h
      subst h
      refine roster_take (hk.roster b) (hk.excl.free hd.1 b) (by rw [hpc]; exact id) (by simp [hpc])
        (by rw [hpc]; rfl) (by rw [hpc]; rfl) (by simp) rfl (fun x hx => Option.some.inj hx)
        fun L hback => ?_
      rw [hpc] at hback
      exact hback
    | _ => simp [step, hpc] at h
  | refused t e w =>
    cases List.mem_singleton.mp hb
    simp only [step] at h
    split at h
    · cases h
    · cases hpc : s.pc b with
      | lockPi m =>
        simp only [hpc, Option.some.injEq] at h
        subst h
        refine (hk.roster b).calm ?_ (by simp [hpc]) rfl rfl rfl rfl (.inl rfl)
        rw [hpc, St.goto_pc]
        split
        · exact ⟨id, by simp, rfl, fun _ => id, fun _ _ _ _ => id⟩
        · exact calm_opEnd id rfl (fun _ _ _ _ => id) _ _
      | tryPi m =>
        simp only [hpc, Option.some.injEq] at h
        subst h
        refine (hk.roster b).calm ?_ (by simp [hpc]) rfl rfl rfl rfl (.inl rfl)
        rw [hpc, St.goto_pc]
        exact calm_opEnd id rfl (fun _ _ _ _ => id) _ _
      | _ => simp [hpc] at h
  | released t heir w => exact roster_released hk hd h hb
  | kept t =>
    cases List.mem_singleton.mp hb
    cases hpc : s.pc b with
    | unlockPi m d =>
      simp only [step, hpc, Option.some.injEq] at h
      subst h
      exact roster_afterPi (hk.roster b) hpc
    | _ => simp [step, hpc] at h
  | die t l =>
    cases List.mem_singleton.mp hb
    simp only [step, Option.ite_none_left_eq_some, Option.some.injEq] at h
    obtain ⟨-, rfl⟩ := h
    exact .gone (by simp)
  | recover t m w =>
    cases List.mem_singleton.mp hb
    simp only [step, Option.ite_none_right_eq_some, Option.some.injEq] at h
    obtain ⟨hpc, rfl⟩ := h
    exact .gone hpc.1
  | spawn t =>
    cases List.mem_singleton.mp hb
    simp only [step, Option.ite_none_right_eq_some, Option.some.injEq] at h
    obtain ⟨hpc, rfl⟩ := h
    have hf := hk.fits b
    rw [hpc.1] at hf
    exact .fresh (by simp) hf (by simp [Pc.Early])

theorem Kept.step {a : Act T M} (hk : Kept K s) (hd : Documented K s a) (hfew : Few s a)
    (h : step K s a = some u) : Kept K u :=
  ⟨hk.excl.change hk.fits (step_change hd h), step_fits hd hk.fits h, uses_step hk h,
    owns_step hk hd hfew h, roster_step hk hd h⟩

theorem kept_run {next prev : Ptr T M → Ptr T M} {as : List (Act T M)}
    (hm : Lib.Runs.Meets (RobustMutex.step K) (fun s a => Documented K s a ∧ Few s a)
      (St.init next prev) as)
    (hr : Lib.Runs.run (RobustMutex.step K) (St.init next prev) as = some s) : Kept K s :=
  Lib.Runs.run_invariant (P := Kept K) (fun _ _ _ hk hd h => hk.step hd.1 hd.2 h)
    (kept_init next prev) hr hm

/-- As long as the kernel keeps its word and nobody dies with more mutexes than it looks
at, a word with a thread in it is found by the kernel in every state: while the thread
lives, it is pending or on the list that the links of the moment lead through; and when
the thread is gone, the kernel still has to look at it. -/
theorem word_covered {next prev : Ptr T M → Ptr T M} {as : List (Act T M)}
    (hm : Lib.Runs.Meets (RobustMutex.step K) (fun s a => Documented K s a ∧ Few s a)
      (St.init next prev) as)
    (hr : Lib.Runs.run (RobustMutex.step K) (St.init next prev) as = some s)
    (hx : ftxTid (s.ftx m) = K.tid t) :
    (s.pc t ≠ .dead ∧ s.robustInit t = true ∧ (s.pending t = some m ∨
      ∃ L : List M, Fwd s.next (.head t) (L.map .mtx) (.head t) ∧ m ∈ L)) ∨
    (s.pc t = .dead ∧ m ∈ s.doomed t) := by
  have hk := kept_run hm hr
  by_cases hd : s.pc t = .dead
  · refine .inr ((hk.owns t m hx).resolve_left fun hm => ?_)
    have hf := hk.fits t
    rw [hd] at hf
    rw [show s.holds t = ∅ from hf] at hm
    cases hm
  · have hmem := hk.holds_of_tid hx hd
    cases hk.roster t with
    | gone pc => exact absurd pc hd
    | fresh init holds pc =>
      rw [holds] at hmem
      cases hmem
    | listed init alive L hl =>
      refine .inl ⟨hd, init, ?_⟩
      rcases (hl.mem m).mp hmem with hL | hf
      · exact .inr ⟨L, hl.fwd, hL⟩
      · exact .inl (hl.pend m (pends_of_floating hf))

/-- Between calls the list of a thread is a ring, linked both ways, of exactly the
mutexes that it has; the kernel keeps its word, and nobody dies with more mutexes than
it looks at. -/
theorem list_of_holds {next prev : Ptr T M → Ptr T M} {as : List (Act T M)}
    (hm : Lib.Runs.Meets (RobustMutex.step K) (fun s a => Documented K s a ∧ Few s a)
      (St.init next prev) as)
    (hr : Lib.Runs.run (RobustMutex.step K) (St.init next prev) as = some s)
    (hpc : s.pc t = .idle) :
    if s.robustInit t then ∃ L : List M, L.Nodup ∧ (∀ m, m ∈ L ↔ m ∈ s.holds t) ∧
      Fwd s.next (.head t) (L.map .mtx) (.head t) ∧ Bwd s.prev (.head t) (L.map .mtx)
    else s.holds t = ∅ := by
  have hk := kept_run hm hr
  cases hk.roster t with
  | gone pc => simp [hpc] at pc
  | fresh init holds pc =>
    rw [init]
    exact holds
  | listed init alive L hl =>
    rw [init]
    have hback := hl.back
    rw [hpc] at hback
    refine ⟨L, hl.nodup, fun x => ?_, hl.fwd, hback⟩
    rw [hl.mem x, hpc]
    exact (or_iff_left (by simp [Pc.floating])).symm

end Steps

/-- The first thread has the mutex and the second one sleeps; the first one has taken it
off its list and not yet written the word. -/
def unlinked : List (Act Bool Unit) :=
  [.call false (.lock ())] ++ codes false 8 ++ [.call true (.lock ())] ++ codes true 4 ++
    [.queue true (futexWaiters ||| 1), .call false (.unlock ())] ++ codes false 3

theorem allowed_unlinked : Lib.Runs.Meets (step pairTids)
    (fun s a => Documented pairTids s a ∧ Few s a) blank unlinked := by
  decide +kernel

theorem word_covered_unlinked : ∃ s, Lib.Runs.run (step pairTids) blank unlinked = some s ∧
    s.pc false = .unlockCas () false ∧ ((s.pc false ≠ .dead ∧ s.robustInit false = true ∧
      (s.pending false = some () ∨
        ∃ L : List Unit, Fwd s.next (.head false) (L.map .mtx) (.head false) ∧ () ∈ L)) ∨
      (s.pc false = .dead ∧ () ∈ s.doomed false)) := by
  have hs : ((Lib.Runs.run (step pairTids) blank unlinked).map fun s =>
      (s.pc false, ftxTid (s.ftx ()))) = some (.unlockCas () false, 1) := by
    decide +kernel
  obtain ⟨s, hr, hpc⟩ := Option.map_eq_some_iff.mp hs
  obtain ⟨hpc, hx⟩ := Prod.mk.inj hpc
  exact ⟨s, hr, hpc, word_covered allowed_unlinked hr hx⟩

theorem list_of_holds_locked : ∃ s, Lib.Runs.run (step pairTids) blank (unlinked.take 9) = some s ∧
    s.pc false = .idle ∧ if s.robustInit false then
      ∃ L : List Unit, L.Nodup ∧ (∀ m, m ∈ L ↔ m ∈ s.holds false) ∧
        Fwd s.next (.head false) (L.map .mtx) (.head false) ∧
          Bwd s.prev (.head false) (L.map .mtx)
    else s.holds false = ∅ := by
  have hs : ((Lib.Runs.run (step pairTids) blank (unlinked.take 9)).map fun s => s.pc false) =
      some .idle := by
    decide +kernel
  obtain ⟨s, hr, hpc⟩ := Option.map_eq_some_iff.mp hs
  exact ⟨s, hr, hpc, list_of_holds (by decide +kernel) hr hpc⟩

end CppIpc.RobustMutex
