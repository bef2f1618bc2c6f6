import CppIpc.Policies
import CppIpc.Receivers

/-! # What a forced push does to the receivers it keeps

Runs of `connect`, `disconnect`, `push`, `force_push` and `pop` on one queue, each
operation run alone. -/
namespace CppIpc.ForcedPush
open CppIpc.Def CppIpc.ReadCounter CppIpc.ProdCons CppIpc.Policies CppIpc.Receivers
open CppIpc.Lib.Window (slot)

variable {α : Type} {B : Broadcast α}

/-- What a receiver that was never removed is promised. -/
structure Serves (s : Sys B) (h : Nat) : Prop where
  /-- It has popped the messages pushed since it connected, in order, each once. -/
  inOrder : (s.reader h).popped <+: s.log.drop (s.reader h).since
  /-- Its next `pop` returns the next of them, and false only if there is none. -/
  next : (s.pop h).map (·.1) = s.log[s.done h]?
  /-- What it has not popped yet is still in its slot. -/
  kept : ∀ i v, s.done h ≤ i → s.log[i]? = some v → B.data s.que (slot 8 i) = v

/-- No push takes the slot of a receiver a whole lap behind because the slot is of
an older epoch, and no handle acts under an id that was taken from it and given to
another receiver. -/
def Harmless (s : Sys B) : Act α → Prop
  | .push _ => ∀ h, s.member h → s.log.length = s.done h + 256 →
    B.current s.que (slot 8 s.log.length)
  | .pop h | .disconnect h => connected s.cc (s.handle h).connected = true → s.member h
  | _ => True

theorem step_inv {s t : Sys B} {a : Act α} (hi : Inv s) (hg : Harmless s a)
    (h : step s a = some t) : Inv t := by
  cases a with
  | connect n => cases h; exact hi.connect n
  | disconnect n => cases h; exact hi.disconnect hg
  | push x =>
    cases h
    cases hp : s.push x with
    | none => exact hi
    | some t => exact hi.push hp hg
  | forcePush x => cases h; exact hi.forcePush
  | pop n =>
    cases h
    cases hp : s.pop n with
    | none => exact hi
    | some r => exact hi.pop hp hg

theorem Inv.serves {s : Sys B} (hi : Receivers.Inv s) {h : Nat} (hm : s.member h) : Serves s h := by
  refine ⟨hi.popped h hm, hi.pop_eq hm, fun i v hle hv => hi.data i v hv ?_⟩
  have := (hi.room h hm).2
  omega

/-- Both policies, every run. -/
theorem serves_of_run [Inhabited α] (rp : Relat) {acts : List (Act α)} {s : Sys (policy rp)}
    (hr : Lib.Runs.run step (Sys.init (policy rp)) acts = some s)
    (hg : Lib.Runs.Meets step Harmless (Sys.init (policy rp)) acts) (h : Nat)
    (hm : s.member h) : Serves s h :=
  Inv.serves (Lib.Runs.run_invariant (fun _ _ _ hi hg h => step_inv hi hg h) (init_inv _) hr hg) hm

def forced : List (Act Nat) := [.connect 0, .push 5, .forcePush 6, .pop 0]

theorem serves_forced : ∃ s : Sys (policy .multi : Broadcast Nat),
    Lib.Runs.run step (Sys.init _) forced = some s ∧
      (s.reader 0).popped = [5] ∧ s.log = [5, 6] ∧ Serves s 0 := by
  have hg : Lib.Runs.Meets step Harmless (Sys.init (policy .multi : Broadcast Nat)) forced := by
    refine ⟨trivial, ?_⟩
    rintro t ⟨⟩
    refine ⟨fun h _ hl => ?_, ?_⟩
    · have : (0 : Nat) = Sys.done _ h + 256 := hl
      omega
    rintro t ⟨⟩
    refine ⟨trivial, ?_⟩
    rintro t ⟨⟩
    exact ⟨fun _ => by decide +kernel, fun _ _ => trivial⟩
  exact ⟨_, rfl, by decide +kernel, by decide +kernel,
    serves_of_run .multi rfl hg 0 (by decide +kernel)⟩

/-! ## A receiver that is harmed -/

section Harmed

/-- The queue after `n` pushes of 0 that nobody has popped. -/
def filledQueue (n : Nat) : Route.Queue Nat :=
  ⟨fun σ => ⟨0, if σ.toNat < n then 3 else 0⟩, BitVec.ofNat 32 n, 0⟩

/-- With handles 0 and 1 connected. -/
def filled (n : Nat) : Sys (policy .single : Broadcast Nat) where
  que := filledQueue n
  cc := 3
  handle := Function.update (Function.update (fun _ => ⟨0, 0⟩) 0 ⟨1, 0⟩) 1 ⟨2, 0⟩
  reader := Function.update (Function.update (fun _ => ⟨false, 0, []⟩) 0 ⟨true, 0, []⟩) 1
    ⟨true, 0, []⟩
  log := List.replicate n 0

theorem run_connects :
    Lib.Runs.run step (Sys.init (policy .single : Broadcast Nat)) [.connect 0, .connect 1] =
      some (filled 0) := rfl

theorem push_filledQueue {n : Nat} (hn : n < 256) :
    (filledQueue n).push 3 0 = some (filledQueue (n + 1)) := by
  have hσ : (indexOf (filledQueue n).wt).toNat = n := by
    rw [indexOf_toNat, filledQueue, BitVec.toNat_ofNat]
    omega
  have hrc : ((filledQueue n).elems (indexOf (filledQueue n).wt)).rc = 0 := by
    simp only [filledQueue] at hσ ⊢
    rw [if_neg (by omega)]
  have hepoch : (filledQueue n).epoch = 0 := rfl
  have hfree : Route.blocked 3 0 0 = false := by decide +kernel
  have hmark : (0 : RC) ||| BitVec.setWidth 64 (3 : CC) = 3 := by decide +kernel
  simp only [Route.Queue.push, hrc, hepoch, hfree, hmark]
  rw [if_neg (by decide), if_neg (by simp), Option.some.injEq]
  simp only [Route.Queue.addWt, Route.Queue.setData, Route.Queue.setRc, filledQueue,
    Route.Queue.mk.injEq, and_true]
  refine ⟨?_, ?_⟩
  · funext τ
    have hτ : (τ = indexOf (BitVec.ofNat 32 n)) ↔ τ.toNat = n := by
      rw [← BitVec.toNat_inj]
      simp only [filledQueue] at hσ
      rw [hσ]
    simp only [hτ]
    by_cases he : τ.toNat = n
    · rw [if_pos he, if_pos he, if_pos (by omega)]
    · have : τ.toNat < n ↔ τ.toNat < n + 1 := by omega
      simp only [he, if_false, this]
  · rw [← BitVec.ofNat_add_ofNat]
    rfl

theorem push_filled {n : Nat} (hn : n < 256) : (filled n).push 0 = some (filled (n + 1)) := by
  have hq : (policy .single : Broadcast Nat).push (filled n).que (filled n).cc 0 =
      some (filledQueue (n + 1)) := push_filledQueue hn
  rw [Sys.push, hq]
  simp only [filled, List.replicate_succ']
  rfl

theorem run_fill {n : Nat} (hn : n ≤ 256) :
    Lib.Runs.run step (filled 0) (List.replicate n (.push 0)) = some (filled n) := by
  induction n with
  | zero => rfl
  | succ n ih =>
    rw [List.replicate_succ', Lib.Runs.run_append, ih (by omega)]
    simp [Lib.Runs.run, step, push_filled (show n < 256 by omega)]

/-- A lap is pushed, handle 0 pops one message, the forced push removes handle 1,
and one more push follows. -/
def harming : List (Act Nat) :=
  [.connect 0, .connect 1] ++ List.replicate 256 (.push 0) ++ [.pop 0, .forcePush 7, .push 9]

/-- Handle 0 was never removed and has the message of index 1 to pop next, a 0; but
the last push was made over it. -/
theorem not_serves_harming : ∃ s : Sys (policy .single : Broadcast Nat),
    Lib.Runs.run step (Sys.init _) harming = some s ∧ s.member 0 ∧ ¬ Serves s 0 := by
  have hr : Lib.Runs.run step (Sys.init (policy .single : Broadcast Nat)) harming =
      Lib.Runs.run step (filled 256) [.pop 0, .forcePush 7, .push 9] := by
    rw [harming, Lib.Runs.run_append, Lib.Runs.run_append, run_connects, Option.bind_some,
      run_fill (Nat.le_refl _), Option.bind_some]
  refine ⟨_, hr, by decide +kernel, fun hs => ?_⟩
  have hnext := hs.next
  revert hnext
  decide +kernel

end Harmed

end CppIpc.ForcedPush
