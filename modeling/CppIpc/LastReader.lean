import CppIpc.Lib.Bits
import CppIpc.Lib.Places
import CppIpc.Lib.Runs
import CppIpc.Storage

/-! # Many receivers take themselves off one chunk

The loop of the broadcast `sub_rc`, with every load and every weak exchange of
`conns` a step of its own. Receiver `i` has bit `i` as its connection id and keeps
the snapshot of the connections that came with its message. -/
namespace CppIpc.LastReader
open CppIpc.Def CppIpc.Storage CppIpc.Lib.Bits CppIpc.Lib.Places
open CppIpc.Lib.Runs (run run_invariant')

/-- Where a call of `sub_rc` stands. -/
inductive Pc where
  | loading
  | trying (chunkConns : CC)
  | returned (last : Bool)
  deriving DecidableEq, Repr

/-- `done` lists the receivers in the order of their successful exchanges. -/
structure St where
  conns : CC
  pc : Nat → Pc
  done : List Nat

def St.init (R : CC) : St := ⟨R, fun _ => .loading, []⟩

def connId (i : Nat) : CC := BitVec.twoPow 32 i

inductive Act where
  | load (i : Nat)
  /-- `spurious`: the weak exchange fails although the word is the expected one. -/
  | exchange (i : Nat) (spurious : Bool)
  deriving DecidableEq, Repr

def St.goto (s : St) (i : Nat) (p : Pc) : St := { s with pc := Function.update s.pc i p }

/-- The receivers `R` of the chunk take part, each with its snapshot `curr i`. -/
def step (R : CC) (curr : Nat → CC) (s : St) : Act → Option St
  | .load i =>
    if R.getLsbD i = true ∧ s.pc i = .loading then some (s.goto i (.trying s.conns)) else none
  | .exchange i spurious =>
    match s.pc i with
    | .trying chunkConns =>
      if spurious = false ∧ s.conns = chunkConns then
        let r := subRc chunkConns (curr i) (connId i)
        some ⟨r.1, Function.update s.pc i (.returned r.2), s.done ++ [i]⟩
      else some (s.goto i .loading)
    | _ => none

variable {R : CC} {curr : Nat → CC} {s t : St} {i : Nat}

/-- A call goes once through its successful exchange, and what it returns says whether
it has left nobody behind. -/
structure Inv (R : CC) (s : St) : Prop where
  conns : ∀ j, s.conns.getLsbD j = true ↔ R.getLsbD j = true ∧ j ∉ s.done
  done : ∀ j, j ∈ s.done ↔ ∃ b, s.pc j = .returned b
  part : ∀ j, s.pc j ≠ .loading → R.getLsbD j = true
  result : ∀ j b, s.pc j = .returned b → (b = true ↔ s.done.getLast? = some j ∧ s.conns = 0)
  nodup : s.done.Nodup

theorem Inv.init (R : CC) : Inv R (St.init R) where
  conns j := by simp [St.init]
  done j := by simp [St.init]
  part j h := absurd rfl h
  result j b h := nomatch h
  nodup := List.nodup_nil

/-- A move that is no successful exchange. -/
theorem Inv.goto (h : Inv R s) {p : Pc} (hp : ∀ b, p ≠ .returned b) (hold : ∀ b, s.pc i ≠ .returned b)
    (hi : R.getLsbD i = true) : Inv R (s.goto i p) := by
  have hret : ∀ j b, (s.goto i p).pc j = .returned b ↔ s.pc j = .returned b := fun j b =>
    update_outside (P := fun x => x = Pc.returned b) (hold b) (hp b)
  refine ⟨h.conns, fun j => ?_, fun j hj => ?_, fun j b hb => h.result j b ((hret j b).mp hb),
    h.nodup⟩
  · simp only [hret]
    exact h.done j
  · by_cases he : j = i
    · rw [he]; exact hi
    · simp only [St.goto, Function.update_of_ne he] at hj
      exact h.part j hj

@[simp] theorem connId_getLsbD (i j : Nat) :
    (connId i).getLsbD j = true ↔ j < 32 ∧ i = j := by
  rw [connId, getLsbD_single]
  exact and_congr_left fun he => by rw [he]

/-- The exchange removes the receiver's own bit and no other bit of the chunk's. -/
theorem subRc_getLsbD {conns curr : CC} {i : Nat}
    (hsub : ∀ j, conns.getLsbD j = true → curr.getLsbD j = true) (j : Nat) :
    (subRc conns curr (connId i)).1.getLsbD j = true ↔ conns.getLsbD j = true ∧ j ≠ i := by
  show (conns &&& (curr &&& ~~~connId i)).getLsbD j = true ↔ _
  rw [BitVec.getLsbD_and, getLsbD_and_not, Bool.and_eq_true, Bool.and_eq_true, Bool.not_eq_true']
  constructor
  · rintro ⟨hc, -, hn⟩
    refine ⟨hc, ?_⟩
    rintro rfl
    have hlt := BitVec.lt_of_getLsbD hc
    rw [(connId_getLsbD j j).mpr ⟨hlt, rfl⟩] at hn
    cases hn
  · rintro ⟨hc, hne⟩
    refine ⟨hc, hsub j hc, ?_⟩
    rw [← Bool.not_eq_true, connId_getLsbD]
    exact fun h => hne h.2.symm

theorem step_load (h : step R curr s (.load i) = some t) :
    R.getLsbD i = true ∧ s.pc i = .loading ∧ t = s.goto i (.trying s.conns) := by
  simp only [step] at h
  split at h
  next hg => exact ⟨hg.1, hg.2, (Option.some.inj h).symm⟩
  next => cases h

theorem step_exchange {spurious : Bool} (h : step R curr s (.exchange i spurious) = some t) :
    ∃ c, s.pc i = .trying c ∧ (t = s.goto i .loading ∨ t = ⟨(subRc s.conns (curr i) (connId i)).1,
      Function.update s.pc i (.returned (subRc s.conns (curr i) (connId i)).2),
      s.done ++ [i]⟩) := by
  simp only [step] at h
  split at h
  next c hc =>
    refine ⟨c, hc, ?_⟩
    split at h
    next hg =>
      obtain ⟨-, rfl⟩ := hg
      exact .inr (Option.some.inj h).symm
    next => exact .inl (Option.some.inj h).symm
  next => cases h

/-- The exchange that succeeds. Nobody who has returned before left `conns` empty,
since the receiver's own bit was still in it. -/
theorem Inv.exchange (h : Inv R s) {c : CC} (hc : s.pc i = .trying c)
    (hcurr : R &&& curr i = R) :
    Inv R ⟨(subRc s.conns (curr i) (connId i)).1,
      Function.update s.pc i (.returned (subRc s.conns (curr i) (connId i)).2), s.done ++ [i]⟩ := by
  have hi : R.getLsbD i = true := h.part i (by rw [hc]; exact Pc.noConfusion)
  have hnot : i ∉ s.done := by
    rw [h.done i, hc]
    rintro ⟨b, hb⟩
    cases hb
  have hsub : ∀ j, s.conns.getLsbD j = true → (curr i).getLsbD j = true := by
    intro j hj
    have hR := ((h.conns j).mp hj).1
    rw [← hcurr, BitVec.getLsbD_and, Bool.and_eq_true] at hR
    exact hR.2
  have hown : s.conns ≠ 0 := ne_zero_iff.mpr ⟨i, (h.conns i).mpr ⟨hi, hnot⟩⟩
  refine ⟨fun j => ?_, fun j => ?_, fun j hj => ?_, fun j b hb => ?_, ?_⟩
  · rw [subRc_getLsbD hsub, h.conns, List.mem_append, List.mem_singleton, not_or, and_assoc]
  · rw [List.mem_append, List.mem_singleton, h.done]
    by_cases hj : j = i
    · subst hj
      simp
    · simp [hj]
  · by_cases he : j = i
    · rw [he]; exact hi
    · simp only [Function.update_of_ne he] at hj
      exact h.part j hj
  · rw [List.getLast?_concat, Option.some.injEq]
    by_cases hj : j = i
    · subst hj
      simp only [Function.update_self] at hb
      cases hb
      simp [subRc]
    · simp only [Function.update_of_ne hj] at hb
      have hfalse := h.result j b hb
      constructor
      · intro hbt
        exact absurd (hfalse.mp hbt).2 hown
      · rintro ⟨he, -⟩
        exact absurd he.symm hj
  · exact List.nodup_append.mpr ⟨h.nodup, List.nodup_singleton i, fun a ha b hb => by
      rw [List.mem_singleton.mp hb]
      rintro rfl
      exact hnot ha⟩

theorem Inv.step (h : Inv R s) {a : Act} (hcurr : ∀ i, R.getLsbD i = true → R &&& curr i = R)
    (hs : step R curr s a = some t) : Inv R t := by
  cases a with
  | load i =>
    obtain ⟨hi, hp, rfl⟩ := step_load hs
    exact h.goto (fun _ => Pc.noConfusion) (fun b => by rw [hp]; exact Pc.noConfusion) hi
  | exchange i spurious =>
    obtain ⟨c, hc, rfl | rfl⟩ := step_exchange hs
    · exact h.goto (fun _ => Pc.noConfusion) (fun b => by rw [hc]; exact Pc.noConfusion)
        (h.part i (by rw [hc]; exact Pc.noConfusion))
    · exact h.exchange hc (hcurr i (h.part i (by rw [hc]; exact Pc.noConfusion)))

/-! ## Who releases the chunk -/

/-- The connection bits of the receivers that have returned. -/
def mask (l : List Nat) : CC := l.foldr (fun i x => connId i ||| x) 0

theorem mask_getLsbD (l : List Nat) (j : Nat) :
    (mask l).getLsbD j = true ↔ j < 32 ∧ j ∈ l := by
  induction l with
  | nil => simp [mask]
  | cons i l ih =>
    show (connId i ||| mask l).getLsbD j = true ↔ _
    rw [BitVec.getLsbD_or, Bool.or_eq_true, ih, connId_getLsbD, List.mem_cons]
    constructor
    · rintro (⟨hj, rfl⟩ | ⟨hj, hm⟩)
      · exact ⟨hj, .inl rfl⟩
      · exact ⟨hj, .inr hm⟩
    · rintro ⟨hj, rfl | hm⟩
      · exact .inl ⟨hj, rfl⟩
      · exact .inr ⟨hj, hm⟩

theorem Inv.conns_eq (h : Inv R s) : s.conns = R &&& ~~~mask s.done := by
  apply BitVec.eq_of_getLsbD_eq
  intro j hj
  have hm := mask_getLsbD s.done j
  rw [Bool.eq_iff_iff, h.conns, getLsbD_and_not, Bool.and_eq_true, Bool.not_eq_true',
    ← Bool.not_eq_true, hm]
  simp [hj]

/-- All receivers of the chunk have returned. -/
def Complete (R : CC) (s : St) : Prop := ∀ i, R.getLsbD i = true → i ∈ s.done

theorem Inv.returned_iff (h : Inv R s) (i : Nat) :
    s.pc i = .returned true ↔ Complete R s ∧ s.done.getLast? = some i := by
  have hempty : s.conns = 0 ↔ Complete R s := by
    refine not_iff_not.mp (ne_zero_iff.trans ?_)
    simp only [h.conns, Complete, not_forall, exists_prop]
  constructor
  · intro hi
    have hlast := (h.result i true hi).mp rfl
    exact ⟨hempty.mp hlast.2, hlast.1⟩
  · rintro ⟨hall, hlast⟩
    obtain ⟨b, hb⟩ := (h.done i).mp (List.mem_of_getLast? hlast)
    have htrue := (h.result i b hb).mpr ⟨hlast, hempty.mpr hall⟩
    rw [hb, htrue]

/-- At every point of every interleaving `conns` has the receivers that have not
returned, a call that has returned true is the last exchange of all, and when all
have returned there is exactly one. -/
theorem last_reader_releases (R : CC) (curr : Nat → CC)
    (hcurr : ∀ i, R.getLsbD i = true → R &&& curr i = R) (acts : List Act)
    (hr : run (step R curr) (St.init R) acts = some s) :
    s.conns = R &&& ~~~mask s.done ∧
      (∀ i, i ∈ s.done ↔ ∃ b, s.pc i = .returned b) ∧
      (∀ i, s.pc i = .returned true ↔ Complete R s ∧ s.done.getLast? = some i) ∧
      (R ≠ 0 → Complete R s → ∃! i, s.pc i = .returned true) := by
  have h : Inv R s := run_invariant' (fun _ _ _ h hs => h.step hcurr hs) (Inv.init R) hr
  refine ⟨h.conns_eq, h.done, h.returned_iff, fun hR hall => ?_⟩
  obtain ⟨j, hj⟩ := ne_zero_iff.mp hR
  have hne : s.done ≠ [] := List.ne_nil_of_mem (hall j hj)
  refine ⟨s.done.getLast hne, (h.returned_iff _).mpr ⟨hall, List.getLast?_eq_some_getLast hne⟩, ?_⟩
  intro i hi
  have hlast := ((h.returned_iff i).mp hi).2
  rw [List.getLast?_eq_some_getLast hne] at hlast
  exact (Option.some.inj hlast).symm

/-- Two receivers of three connections, one of them slow. -/
theorem last_reader_releases_sample : ∃ s,
    run (step 5 fun _ => 7) (St.init 5) [.load 0, .load 2, .exchange 2 true, .load 2,
      .exchange 2 false, .exchange 0 false, .load 0, .exchange 0 false] = some s ∧
      s.done = [2, 0] ∧ ∃! i, s.pc i = .returned true := by
  have hs : (run (step 5 fun _ => 7) (St.init 5) [.load 0, .load 2, .exchange 2 true, .load 2,
      .exchange 2 false, .exchange 0 false, .load 0, .exchange 0 false]).map St.done =
      some [2, 0] := by decide +kernel
  obtain ⟨s, hr, hd⟩ := Option.map_eq_some_iff.mp hs
  have hcurr : ∀ i, (5 : CC).getLsbD i = true → 5 &&& (7 : CC) = 5 := fun _ _ => by decide
  refine ⟨s, hr, hd, (last_reader_releases 5 (fun _ => 7) hcurr _ hr).2.2.2 (by decide) ?_⟩
  intro i hi
  have hlt := BitVec.lt_of_getLsbD hi
  have hall : ∀ i < 32, (5 : CC).getLsbD i = true → i ∈ [2, 0] := by decide
  rw [hd]
  exact hall i hlt hi

end CppIpc.LastReader
