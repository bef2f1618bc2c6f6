import CppIpc.Lib.Futures
import CppIpc.MonotonicBuffer

/-! # After an allocation that upstream refused

`allocate` raises `next_size_` to the requested size before it asks upstream, and keeps
it when upstream returns null. The state after such a call is compared with the state
before it, by the results of later calls and what they ask of upstream. -/
namespace CppIpc.RefusedAllocation
open CppIpc.Aligned CppIpc.MonotonicBuffer
open CppIpc.Lib.Regions (Region pad pad_eq_zero)
open CppIpc.Lib.Runs (run)
open CppIpc.Lib.Futures (observe observe_eq Agree)

inductive Call where
  | allocate (bytes alignment : Nat)
  | release

/-- What a call returns, the size it asks of upstream, and the blocks it gives back. -/
structure Seen where
  result : Option Nat
  request : Option Nat
  freed : List Region
deriving DecidableEq

/-- Upstream answers a request by its size and all it was asked and given back before. -/
abbrev Upstream := List Seen → Nat → Option Nat

/-- The size that a request for `bytes` asks of upstream, if it does. -/
def request (s : St) (bytes alignment : Nat) : Option Nat :=
  if bytes ≠ 0 ∧ s.Asks bytes alignment then
    some (nodeSize (max s.res.nextSize bytes) alignment)
  else none

def respond (c : Made) (up : Upstream) (seen : List Seen) (s : St) : Call → Option (St × Seen)
  | .allocate bytes alignment =>
    let asked := request s bytes alignment
    let r := allocate s bytes alignment (asked.bind (up seen))
    some (r.1, ⟨r.2, asked, []⟩)
  | .release => (release c s).map fun r => (r.1, ⟨none, none, r.2⟩)

/-- The state that a refused request leaves. -/
def refused (s : St) (bytes alignment : Nat) : St := (allocate s bytes alignment none).1

/-- No later calls tell whether the request was made, whatever upstream answers to them. -/
def Intact (c : Made) (s : St) (bytes alignment : Nat) : Prop :=
  ∀ (up : Upstream) (calls : List Call),
    observe (respond c up) (refused s bytes alignment) [] calls = observe (respond c up) s [] calls

/-! ## What all states have -/

/-- The sizes are 64-bit numbers, and the current buffer ends after it begins. -/
structure Sized (s : St) : Prop where
  head_le : s.res.head ≤ s.res.tail
  space_lt : s.res.tail - s.res.head < 2 ^ 64
  nextSize_lt : s.res.nextSize < 2 ^ 64

def Fits : MonotonicBuffer.Act → Prop
  | .allocate bytes _ _ => bytes < 2 ^ 64
  | _ => True

theorem nextBufferSize_lt (n : Nat) : nextBufferSize n < 2 ^ 64 :=
  (Nat.div_le_self _ 2).trans_lt (Nat.mod_lt _ (Nat.two_pow_pos 64))

section Steps
variable {c : Made} {s t : St} {bytes alignment n : Nat}

theorem construct_sized (hc : c.initialSize < 2 ^ 64) (mem : Nat → Node) :
    Sized (St.init c mem) := by
  cases c with
  | size n => exact ⟨Nat.le_refl 0, Nat.two_pow_pos 64, hc⟩
  | buffer b =>
    refine ⟨Nat.le_add_right _ _, ?_, nextBufferSize_lt _⟩
    change b.data + b.size - b.data < 2 ^ 64
    rw [Nat.add_sub_cancel_left]
    exact hc

theorem Sized.setNextSize (hs : Sized s) (hn : n < 2 ^ 64) : Sized (s.setNextSize n) :=
  ⟨hs.head_le, hs.space_lt, hn⟩

theorem align_some {size ptr space p rest : Nat}
    (h : align alignment size ptr space = some (p, rest)) :
    p = ptr + pad alignment ptr ∧ rest = space - pad alignment ptr ∧
      pad alignment ptr + size ≤ space := by
  unfold align at h
  split at h
  · cases h
    exact ⟨rfl, rfl, ‹_›⟩
  · cases h

theorem Sized.allocate (hs : Sized s) (hb : bytes < 2 ^ 64) (answer : Option Nat) :
    Sized (allocate s bytes alignment answer).1 := by
  have hmax : max s.res.nextSize bytes < 2 ^ 64 := max_lt hs.nextSize_lt hb
  unfold MonotonicBuffer.allocate
  split
  · exact hs
  · split
    · rename_i p rest ha
      obtain ⟨rfl, -, hfit⟩ := align_some ha
      rw [diff_eq hs.head_le hs.space_lt] at hfit
      have hle := hs.head_le
      have hlt := hs.space_lt
      refine ⟨?_, ?_, hs.nextSize_lt⟩
      · change _ + bytes ≤ s.res.tail
        omega
      · change s.res.tail - (_ + bytes) < 2 ^ 64
        omega
    · cases answer with
      | none => exact hs.setNextSize hmax
      | some node =>
        dsimp only [makeNode, Option.map_some]
        split
        · exact ⟨hs.head_le, hs.space_lt, nextBufferSize_lt _⟩
        · rename_i p rest ha
          obtain ⟨-, hrest, hfit⟩ := align_some ha
          have hlt : rest < 2 ^ 64 :=
            hrest ▸ (Nat.sub_le _ _).trans_lt (Nat.mod_lt _ (Nat.two_pow_pos 64))
          refine ⟨?_, ?_, nextBufferSize_lt _⟩
          · change p + bytes ≤ p + rest
            omega
          · change p + rest - (p + bytes) < 2 ^ 64
            omega

theorem reset_sized (hc : c.initialSize < 2 ^ 64) (mem : Nat → Node) (out : List Region) :
    Sized ⟨c.reset, mem, out, []⟩ := by
  have hs := construct_sized hc mem
  rw [reset_eq]
  exact ⟨hs.head_le, hs.space_lt, hs.nextSize_lt⟩

theorem Sized.step {a : MonotonicBuffer.Act} (hc : c.initialSize < 2 ^ 64) (hs : Sized s)
    (hf : Fits a) (h : step c s a = some t) : Sized t := by
  cases a with
  | allocate bytes alignment answer =>
    cases h
    exact hs.allocate hf answer
  | release =>
    obtain ⟨r, hr, rfl⟩ := Option.map_eq_some_iff.mp h
    obtain ⟨calls, -, rfl⟩ := Option.map_eq_some_iff.mp hr
    exact reset_sized hc s.mem _
  | write a mem =>
    cases h
    exact ⟨hs.head_le, hs.space_lt, hs.nextSize_lt⟩

/-! ## Where the request does not show -/

/-- A request that upstream refuses changes `next_size_` alone. -/
theorem refused_eq (hpos : 0 < bytes) (hask : s.Asks bytes alignment) :
    allocate s bytes alignment none = (s.setNextSize (max s.res.nextSize bytes), none) := by
  unfold allocate
  rw [if_neg (by omega), show align _ _ _ _ = none from hask]
  rfl

/-- Any request is for a byte at least, so these two sizes make no difference. -/
def Alike (s t : St) : Prop := t = s ∨ (s.res.nextSize = 0 ∧ t = s.setNextSize 1)

theorem max_one {b : Nat} (hb : 0 < b) : max 1 b = max 0 b := by omega

theorem request_setNextSize_one (h0 : s.res.nextSize = 0) :
    request (s.setNextSize 1) bytes alignment = request s bytes alignment := by
  unfold request
  refine ite_congr rfl (fun hb => ?_) fun _ => rfl
  change some (nodeSize (max 1 bytes) alignment) = some (nodeSize (max s.res.nextSize bytes) _)
  rw [max_one (Nat.pos_of_ne_zero hb.1), h0]

theorem allocate_alike (h0 : s.res.nextSize = 0) (bytes alignment : Nat) (answer : Option Nat) :
    Alike (allocate s bytes alignment answer).1
        (allocate (s.setNextSize 1) bytes alignment answer).1 ∧
      (allocate s bytes alignment answer).2 =
        (allocate (s.setNextSize 1) bytes alignment answer).2 := by
  unfold allocate
  by_cases hb : bytes = 0
  · rw [if_pos hb, if_pos hb]
    exact ⟨.inr ⟨h0, rfl⟩, rfl⟩
  · rw [if_neg hb, if_neg hb]
    simp only [St.setNextSize]
    cases ha : align alignment bytes s.res.head (diff s.res.tail s.res.head) with
    | some r => exact ⟨.inr ⟨h0, rfl⟩, rfl⟩
    | none =>
      -- the larger of the two sizes is the same, and nothing else is read
      rw [h0, max_one (Nat.pos_of_ne_zero hb)]
      exact ⟨.inl rfl, rfl⟩

theorem alike_step (up : Upstream) (seen : List Seen) (call : Call) (h : Alike s t) :
    Agree Alike (respond c up seen s call) (respond c up seen t call) := by
  rcases h with rfl | ⟨h0, rfl⟩
  · exact Agree.refl (fun _ => .inl rfl) _
  · cases call with
    | release =>
      -- the loop does not read `next_size_`, and the members are reset
      exact Agree.refl (fun _ => .inl rfl) _
    | allocate bytes alignment =>
      dsimp only [respond]
      rw [request_setNextSize_one h0]
      obtain ⟨hst, hres⟩ := allocate_alike h0 bytes alignment
        ((request s bytes alignment).bind (up seen))
      exact .some ⟨hst, by rw [hres]⟩

/-- A request of no more than the next size, or of one byte, leaves no trace. -/
theorem intact_of_le (hpos : 0 < bytes) (hask : s.Asks bytes alignment)
    (hle : bytes ≤ max s.res.nextSize 1) : Intact c s bytes alignment := by
  have halike : Alike s (refused s bytes alignment) := by
    rw [refused, refused_eq hpos hask]
    by_cases h0 : s.res.nextSize = 0
    · refine .inr ⟨h0, ?_⟩
      rw [show max s.res.nextSize bytes = 1 by omega]
    · refine .inl ?_
      rw [show max s.res.nextSize bytes = s.res.nextSize by omega]
      rfl
  intro up calls
  exact (observe_eq (fun seen _ _ call h => alike_step up seen call h) halike [] calls).symm

/-! ## Where it does -/

/-- Use up the current buffer, then ask for a byte. -/
def probe (s : St) : List Call := [.allocate (s.res.tail - s.res.head) 1, .allocate 1 1]

theorem nodeSize_one {x y : Nat} (hx : x < 2 ^ 64) (hy : y < 2 ^ 64)
    (h : nodeSize x 1 = nodeSize y 1) : x = y := by
  have hr : roundUp sizeofNode 1 = 16 := roundUp_sixteen (k := 0) (by decide)
  unfold nodeSize sizeT at h
  rw [hr] at h
  omega

theorem pad_one (ptr : Nat) : pad 1 ptr = 0 := pad_eq_zero (Nat.one_dvd ptr)

theorem asks_of_used (h : s.res.head = s.res.tail) : s.Asks 1 1 := by
  unfold St.Asks
  rw [h, diff_eq (Nat.le_refl _) (by rw [Nat.sub_self]; exact Nat.two_pow_pos 64), Nat.sub_self,
    align, if_neg (by omega)]

/-- The first call of the probe asks nothing of upstream and leaves nothing. -/
theorem allocate_rest (hs : Sized s) : request s (s.res.tail - s.res.head) 1 = none ∧
    ∀ answer, (allocate s (s.res.tail - s.res.head) 1 answer).1.Asks 1 1 ∧
      (allocate s (s.res.tail - s.res.head) 1 answer).1.res.nextSize = s.res.nextSize := by
  have hle := hs.head_le
  unfold request allocate
  by_cases hz : s.res.tail - s.res.head = 0
  · have hused : s.res.head = s.res.tail := by omega
    rw [if_neg fun hb => hb.1 hz]
    refine ⟨rfl, fun answer => ?_⟩
    rw [if_pos hz]
    exact ⟨asks_of_used hused, rfl⟩
  · have hfit : align 1 (s.res.tail - s.res.head) s.res.head (diff s.res.tail s.res.head) =
        some (s.res.head, s.res.tail - s.res.head) := by
      rw [diff_eq hle hs.space_lt, align, pad_one, Nat.zero_add, if_pos (Nat.le_refl _)]
      rfl
    rw [if_neg fun hb => Option.some_ne_none _ (hfit.symm.trans hb.2)]
    refine ⟨rfl, fun answer => ?_⟩
    rw [if_neg hz, hfit]
    refine ⟨asks_of_used ?_, rfl⟩
    change s.res.head + (s.res.tail - s.res.head) = s.res.tail
    omega

/-- The second one shows the next size. -/
theorem probe_seen (hs : Sized s) (up : Upstream) : ∃ first result,
    observe (respond c up) s [] (probe s) =
      some [first, ⟨result, some (nodeSize (max s.res.nextSize 1) 1), []⟩] := by
  obtain ⟨hfirst, hrest⟩ := allocate_rest hs
  obtain ⟨hask, hnext⟩ := hrest none
  simp only [probe, observe, respond, hfirst, Option.bind_none, Option.bind_some]
  rw [request, if_pos ⟨Nat.one_ne_zero, hask⟩, hnext]
  exact ⟨_, _, rfl⟩

/-- A larger request shows in the size that the probe asks for. -/
theorem le_of_intact (hs : Sized s) (hpos : 0 < bytes) (hb : bytes < 2 ^ 64)
    (hask : s.Asks bytes alignment) (h : Intact c s bytes alignment) :
    bytes ≤ max s.res.nextSize 1 := by
  have hn := hs.nextSize_lt
  have heq : refused s bytes alignment = s.setNextSize (max s.res.nextSize bytes) :=
    congrArg Prod.fst (refused_eq hpos hask)
  have hs' : Sized (refused s bytes alignment) := heq ▸ hs.setNextSize (max_lt hn hb)
  have hprobe : probe (refused s bytes alignment) = probe s := by rw [heq]; rfl
  obtain ⟨first, result, he⟩ := probe_seen (c := c) hs fun _ _ => none
  obtain ⟨first', result', he'⟩ := probe_seen (c := c) hs' fun _ _ => none
  rw [hprobe, h, he, heq] at he'
  have hseen := (List.cons.inj (List.cons.inj (Option.some.inj he')).2).1
  have hsize : max s.res.nextSize 1 = max (max s.res.nextSize bytes) 1 :=
    nodeSize_one (by omega) (by omega) (Option.some.inj (Seen.mk.inj hseen).2.1)
  omega

end Steps

/-- **A refused allocation leaves the resource intact** just when it asked for no more
than the next size, or for a single byte: in every state that any calls and any
upstream lead to, for every alignment and everything that comes later. -/
theorem intact_iff (c : Made) (hc : c.initialSize < 2 ^ 64) (mem : Nat → Node)
    (acts : List MonotonicBuffer.Act) (hf : ∀ a ∈ acts, Fits a) (s : St)
    (hr : run (step c) (.init c mem) acts = some s) (bytes alignment : Nat) (hpos : 0 < bytes)
    (hb : bytes < 2 ^ 64) (hask : s.Asks bytes alignment) :
    Intact c s bytes alignment ↔ bytes ≤ max s.res.nextSize 1 := by
  have hfits : Lib.Runs.Meets (step c) (fun _ a => Fits a) (.init c mem) acts :=
    Lib.Runs.meets_of_invariant (P := fun _ => True) (fun _ _ a ha => hf a ha)
      (fun _ _ _ _ _ _ => trivial) trivial
  have hs : Sized s := Lib.Runs.run_invariant (P := Sized)
    (fun _ _ _ hs hf h => hs.step hc hf h) (construct_sized hc mem) hr hfits
  exact ⟨le_of_intact hs hpos hb hask, intact_of_le hpos hask⟩

/-! ## An oversized request -/

def blank : St := .init (.size 0) fun _ => ⟨none, 0⟩

/-- An upstream with a gibibyte, at address 4096. -/
def limited : Upstream := fun _ n => if n ≤ 2 ^ 30 then some 4096 else none

/-- A node that is used up, and a request that raised the next size to 1000. -/
def raised : List MonotonicBuffer.Act :=
  [.allocate 100 8 (some 4096), .release, .allocate 100 8 (some 4096), .allocate 1000 8 none]

theorem intact_raised : ∃ s, run (step (.size 0)) blank raised = some s ∧
    Intact (.size 0) s 64 16 ∧ ¬ Intact (.size 0) s 2000 16 := by
  have hs : (run (step (.size 0)) blank raised).map (·.res) =
      some ⟨some 4096, 4212, 4212, 1000⟩ := by
    decide +kernel
  obtain ⟨s, hr, hres⟩ := Option.map_eq_some_iff.mp hs
  have hfits : ∀ a ∈ raised, Fits a := by simp [raised, Fits]
  have hasks : ∀ n ∈ [64, 2000], s.Asks n 16 := by
    simp only [St.Asks, hres]
    decide +kernel
  have hiff : ∀ n ∈ [64, 2000], Intact (.size 0) s n 16 ↔ n ≤ max s.res.nextSize 1 := by
    intro n hn
    have hbounds : ∀ n ∈ [64, 2000], 0 < n ∧ n < 2 ^ 64 := by decide
    exact intact_iff (.size 0) (by decide) _ raised hfits s hr n 16 (hbounds n hn).1
      (hbounds n hn).2 (hasks n hn)
  refine ⟨s, hr, (hiff 64 (by decide)).mpr ?_, fun h => ?_⟩
  · rw [hres]
    decide
  · have hle := (hiff 2000 (by decide)).mp h
    rw [hres] at hle
    exact absurd hle (by decide)

/-- After a refused request for a tebibyte eight bytes are refused as well. -/
theorem not_intact_oversized :
    observe (respond (.size 0) limited) blank [] [.allocate 8 8] =
        some [⟨some 4112, some 24, []⟩] ∧
      observe (respond (.size 0) limited) (refused blank (2 ^ 40) 16) [] [.allocate 8 8] =
        some [⟨none, some (16 + 2 ^ 40), []⟩] ∧
      ¬ Intact (.size 0) blank (2 ^ 40) 16 := by
  have hbefore : observe (respond (.size 0) limited) blank [] [.allocate 8 8] =
      some [⟨some 4112, some 24, []⟩] := by decide +kernel
  have hafter : observe (respond (.size 0) limited) (refused blank (2 ^ 40) 16) []
      [.allocate 8 8] = some [⟨none, some (16 + 2 ^ 40), []⟩] := by decide +kernel
  refine ⟨hbefore, hafter, fun h => ?_⟩
  have he := hbefore.symm.trans ((h limited _).symm.trans hafter)
  cases he

end CppIpc.RefusedAllocation
