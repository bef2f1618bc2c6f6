/-! # Futures of a machine that answers calls

What a machine shows at a call may depend on an environment that has seen all that the
machine showed before. Two states have the same future if no sequence of calls tells them
apart. -/
namespace CppIpc.Lib.Futures

variable {σ κ ω : Type} (respond : List ω → σ → κ → Option (σ × ω))

/-- What is seen of a list of calls, after what was seen before. -/
def observe : σ → List ω → List κ → Option (List ω)
  | _, seen, [] => some seen
  | s, seen, k :: ks => (respond seen s k).bind fun r => observe r.1 (seen ++ [r.2]) ks

/-- The two machines fail alike, or show the same and stay related. -/
def Agree (R : σ → σ → Prop) (s t : Option (σ × ω)) : Prop :=
  Option.Rel (fun x y => R x.1 y.1 ∧ x.2 = y.2) s t

variable {respond} {R : σ → σ → Prop}

theorem Agree.refl (hR : ∀ s, R s s) (r : Option (σ × ω)) : Agree R r r := by
  cases r with
  | none => exact .none
  | some x => exact .some ⟨hR x.1, rfl⟩

/-- Related states cannot be told apart. -/
theorem observe_eq (hstep : ∀ seen s t k, R s t → Agree R (respond seen s k) (respond seen t k))
    {s t : σ} (h : R s t) (seen : List ω) (ks : List κ) :
    observe respond s seen ks = observe respond t seen ks := by
  induction ks generalizing s t seen with
  | nil => rfl
  | cons k ks ih =>
    have hk := hstep seen s t k h
    unfold observe
    generalize respond seen s k = x at hk
    generalize respond seen t k = y at hk
    cases hk with
    | none => rfl
    | some hr =>
      rw [Option.bind_some, Option.bind_some, hr.2]
      exact ih hr.1 _

end CppIpc.Lib.Futures
