/-! # Runs of a machine with a step function

A machine is a partial step function on states and actions; the scheduler, the
environment and every nondeterministic outcome are in the action. `Meets` says
that each step of a run satisfies a condition on the state before it. -/
namespace CppIpc.Lib.Runs

variable {σ α : Type} (step : σ → α → Option σ)

/-- The state after a list of actions, if every one of them is enabled. -/
def run : σ → List α → Option σ
  | s, [] => some s
  | s, a :: as => (step s a).bind fun t => run t as

/-- Every step of the run from `s` meets `good` in the state before it. -/
def Meets (good : σ → α → Prop) : σ → List α → Prop
  | _, [] => True
  | s, a :: as => good s a ∧ ∀ t, step s a = some t → Meets good t as

instance Meets.decidable (good : σ → α → Prop) [∀ s a, Decidable (good s a)] :
    (s : σ) → (as : List α) → Decidable (Meets step good s as)
  | _, [] => isTrue trivial
  | s, a :: as =>
    match h : step s a with
    | none => decidable_of_iff (good s a) ⟨fun hg => ⟨hg, fun t ht => by simp [h] at ht⟩, And.left⟩
    | some t =>
      have := Meets.decidable good t as
      decidable_of_iff (good s a ∧ Meets step good t as)
        ⟨fun hg => ⟨hg.1, fun u hu => by rw [h] at hu; cases hu; exact hg.2⟩,
          fun hg => ⟨hg.1, hg.2 t h⟩⟩

variable {step} {good : σ → α → Prop} {s t : σ} {as : List α}

theorem run_cons {a : α} (h : run step s (a :: as) = some t) :
    ∃ u, step s a = some u ∧ run step u as = some t := Option.bind_eq_some_iff.mp h

theorem run_step {a : α} {u : σ} (h : step s a = some u) :
    run step s (a :: as) = run step u as := by rw [run, h, Option.bind_some]

theorem run_append {bs : List α} :
    run step s (as ++ bs) = (run step s as).bind fun t => run step t bs := by
  induction as generalizing s with
  | nil => rfl
  | cons a as ih =>
    simp only [List.cons_append, run]
    cases step s a with
    | none => rfl
    | some u => exact ih

/-- What a step that meets the condition preserves, a run preserves. -/
theorem run_invariant {P : σ → Prop}
    (hstep : ∀ s a t, P s → good s a → step s a = some t → P t)
    (h0 : P s) (hr : run step s as = some t) (hm : Meets step good s as) : P t := by
  induction as generalizing s with
  | nil => cases hr; exact h0
  | cons a as ih =>
    obtain ⟨u, hu, hr⟩ := run_cons hr
    exact ih (hstep s a u h0 hm.1 hu) hr (hm.2 u hu)

/-- The same without a condition. -/
theorem run_invariant' {P : σ → Prop} (hstep : ∀ s a t, P s → step s a = some t → P t)
    (h0 : P s) (hr : run step s as = some t) : P t := by
  induction as generalizing s with
  | nil => cases hr; exact h0
  | cons a as ih =>
    obtain ⟨u, hu, hr⟩ := run_cons hr
    exact ih (hstep s a u h0 hu) hr

theorem Meets.and {Q : α → Prop} (h : Meets step good s as) (hq : ∀ a ∈ as, Q a) :
    Meets step (fun s a => good s a ∧ Q a) s as := by
  induction as generalizing s with
  | nil => trivial
  | cons a as ih =>
    exact ⟨⟨h.1, hq a (by simp)⟩, fun t ht =>
      ih (h.2 t ht) fun b hb => hq b (List.mem_cons_of_mem _ hb)⟩

theorem Meets.inter {good' : σ → α → Prop} (h : Meets step good s as) (h' : Meets step good' s as) :
    Meets step (fun s a => good s a ∧ good' s a) s as := by
  induction as generalizing s with
  | nil => trivial
  | cons a as ih => exact ⟨⟨h.1, h'.1⟩, fun t ht => ih (h.2 t ht) (h'.2 t ht)⟩

theorem Meets.append {bs : List α} (h : Meets step good s as)
    (h' : ∀ t, run step s as = some t → Meets step good t bs) : Meets step good s (as ++ bs) := by
  induction as generalizing s with
  | nil => exact h' s rfl
  | cons a as ih =>
    refine ⟨h.1, fun u hu => ih (h.2 u hu) fun t ht => h' t ?_⟩
    rw [run, hu, Option.bind_some, ht]

theorem Meets.of_append {bs : List α} (hm : Meets step good s (as ++ bs))
    (hr : run step s as = some t) : Meets step good t bs := by
  induction as generalizing s with
  | nil => cases hr; exact hm
  | cons a as ih =>
    obtain ⟨u, hu, hr⟩ := run_cons hr
    exact ih (hm.2 u hu) hr

/-- What the invariant and the condition give of a step, every step of the run has. -/
theorem Meets.imp {P : σ → Prop} {safe : σ → α → Prop}
    (hstep : ∀ s a t, P s → good s a → step s a = some t → P t)
    (hsafe : ∀ s a, P s → good s a → safe s a) (h0 : P s) (hm : Meets step good s as) :
    Meets step safe s as := by
  induction as generalizing s with
  | nil => trivial
  | cons a as ih =>
    exact ⟨hsafe s a h0 hm.1, fun t ht => ih (hstep s a t h0 hm.1 ht) (hm.2 t ht)⟩

/-- Two conditions that agree wherever the first has been met so far. -/
theorem meets_congr {P : σ → Prop} {good' : σ → α → Prop}
    (hiff : ∀ s a, P s → (good s a ↔ good' s a))
    (hstep : ∀ s a t, P s → good s a → step s a = some t → P t) (h0 : P s) :
    Meets step good s as ↔ Meets step good' s as := by
  induction as generalizing s with
  | nil => exact Iff.rfl
  | cons a as ih =>
    constructor
    · rintro ⟨hg, hm⟩
      exact ⟨(hiff s a h0).mp hg, fun t ht => (ih (hstep s a t h0 hg ht)).mp (hm t ht)⟩
    · rintro ⟨hg, hm⟩
      have hg := (hiff s a h0).mpr hg
      exact ⟨hg, fun t ht => (ih (hstep s a t h0 hg ht)).mpr (hm t ht)⟩

/-- A condition that an invariant of the run guarantees is met. -/
theorem meets_of_invariant {P : σ → Prop} (hgood : ∀ s, P s → ∀ a ∈ as, good s a)
    (hstep : ∀ s t, P s → ∀ a ∈ as, step s a = some t → P t) (h0 : P s) :
    Meets step good s as := by
  induction as generalizing s with
  | nil => trivial
  | cons a as ih =>
    refine ⟨hgood s h0 a (by simp), fun t ht => ih ?_ ?_ (hstep s t h0 a (by simp) ht)⟩
    · exact fun s hs b hb => hgood s hs b (List.mem_cons_of_mem _ hb)
    · exact fun s t hs b hb => hstep s t hs b (List.mem_cons_of_mem _ hb)

end CppIpc.Lib.Runs
