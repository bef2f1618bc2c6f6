import CppIpc.RefusedAllocation

/-! # The sizes that the allocators ask for

`$new<void>` and the size classes behind it, `new_delete_resource::allocate`, and the
nodes of `monotonic_buffer_resource`. Headers and roundings are added in 64 bits. What
the block source returns is given as an address; the block there has the size that it
was asked for. -/
namespace CppIpc.AllocationSizes
open CppIpc.Aligned CppIpc.MonotonicBuffer CppIpc.RefusedAllocation
open CppIpc.Lib.Regions
open CppIpc.Lib.Runs (run Meets meets_congr)

/-! ## `new_delete_resource` -/

def verifyArgs (bytes alignment : Nat) : Bool :=
  0 < bytes && 0 < alignment && alignment &&& (alignment - 1) == 0

/-- The branches of the preprocessor: `std::aligned_alloc` with C++17, else `malloc`,
`posix_memalign` or `_aligned_malloc`. -/
inductive Build where
  | cpp17
  | other
deriving DecidableEq

/-- The size that the system allocator is asked for. -/
def Build.systemSize : Build → Nat → Nat → Nat
  | .cpp17, bytes, alignment => roundUp bytes alignment
  | .other, bytes, _ => bytes

/-- `new_delete_resource::allocate`: the block that it returns the address of. -/
def newDelete (build : Build) (bytes alignment : Nat) (answer : Option Nat) : Option Region :=
  if verifyArgs bytes alignment then
    answer.map fun p => ⟨p, build.systemSize bytes alignment⟩
  else none

/-! ## The size classes -/

def regularLevel (s : Nat) : Nat :=
  if s ≤ 128 then 0 else if s ≤ 1024 then 1 else if s ≤ 8192 then 2 else if s ≤ 65536 then 3 else 4

/-- `block_pool_resource<BlockSize, _>`, where `block_pool_resource<0, 0>` is
`new_delete_resource`. -/
inductive Resource where
  | blockPool (blockSize : Nat)
  | newDelete
deriving DecidableEq

/-- One of the inner `switch`es. -/
def pick (s alignment : Nat) (sizes : List Nat) : Resource :=
  if roundUp s alignment ∈ sizes then .blockPool (roundUp s alignment) else .newDelete

def getRegularResource (s : Nat) : Resource :=
  match regularLevel s with
  | 0 => pick s 16 [16, 32, 48, 64, 80, 96, 112, 128]
  | 1 => pick s 128 [256, 384, 512, 640, 768, 896, 1024]
  | 2 => pick s 1024 [2048, 3072, 4096, 5120, 6144, 7168, 8192]
  | 3 => pick s 8192 [16384, 24576, 32768, 40960, 49152, 57344, 65536]
  | _ => .newDelete

/-- `alignof(std::max_align_t)`, also the default alignment of a resource. -/
def maxAlign : Nat := 16

/-- `mem::alloc`. -/
def alloc (build : Build) (bytes : Nat) (answer : Option Nat) : Option Region :=
  match getRegularResource bytes with
  | .blockPool blockSize => answer.map fun p => ⟨p, blockSize⟩
  | .newDelete => newDelete build bytes maxAlign answer

/-! ## `$new<void>` -/

def recyclerSize : Nat := roundUp 8 8
def allocatedSize : Nat := 8
def regularHeadSize : Nat := roundUp (recyclerSize + allocatedSize) maxAlign

/-- `fault` is a write through a null pointer. -/
inductive Ret where
  | null
  | fault
  | ptr (p : Nat)
deriving DecidableEq

/-- `rbz`. -/
def blockBytes (bytes : Nat) : Nat := sizeT (regularHeadSize + bytes)

/-- `do_allocate<void>::apply`, with the words of memory; the recycler is always the
same function and is not stored. -/
def newVoid (build : Build) (mem : Nat → Nat) (bytes : Nat) (answer : Option Nat) :
    Ret × (Nat → Nat) :=
  if bytes = 0 then (.null, mem)
  else
    match alloc build (blockBytes bytes) answer with
    | none => (.fault, mem)
    | some b => (.ptr (b.start + regularHeadSize),
        Function.update mem (b.start + recyclerSize) (blockBytes bytes))

/-- The resource that `$delete` gives the block back to. -/
def recycler (mem : Nat → Nat) (p : Nat) : Resource :=
  getRegularResource (mem (p - regularHeadSize + recyclerSize))

/-! ## What is promised -/

/-- Null, or the address of a block of at least `bytes` bytes. -/
def NewDeleteRight (build : Build) (bytes alignment : Nat) (answer : Option Nat) : Prop :=
  ∀ b, newDelete build bytes alignment answer = some b → Region.Within ⟨b.start, bytes⟩ b

/-- Null, or a pointer to at least `bytes` bytes of the block. -/
def NewVoidRight (build : Build) (mem : Nat → Nat) (bytes : Nat) (answer : Option Nat) : Prop :=
  match (newVoid build mem bytes answer).1 with
  | .null => True
  | .fault => False
  | .ptr p => ∃ b, alloc build (blockBytes bytes) answer = some b ∧ Region.Within ⟨p, bytes⟩ b

/-- While nobody writes below the pointer, it is given back to the class it came from. -/
def SameClass (build : Build) (mem : Nat → Nat) (bytes : Nat) (answer : Option Nat) : Prop :=
  ∀ p, (newVoid build mem bytes answer).1 = .ptr p →
    ∀ mem', (∀ a < p, mem' a = (newVoid build mem bytes answer).2 a) →
      recycler mem' p = getRegularResource (blockBytes bytes)

section Sizes
variable {bytes k s : Nat} {build : Build}

theorem verifyArgs_two_pow (h0 : 0 < bytes) : verifyArgs bytes (2 ^ k) = true := by
  have hpos := Nat.two_pow_pos k
  have hand : 2 ^ k &&& (2 ^ k - 1) = 0 := by
    rw [Nat.and_two_pow_sub_one_eq_mod, Nat.mod_self]
  simp [verifyArgs, h0, hpos, hand]

/-- Rounding up wraps to zero, or leaves room. -/
theorem roundUp_cases (hb : bytes < 2 ^ 64) (hk : k < 64) :
    (bytes + 2 ^ k ≤ 2 ^ 64 ∧ bytes ≤ roundUp bytes (2 ^ k)) ∨
      (2 ^ 64 < bytes + 2 ^ k ∧ roundUp bytes (2 ^ k) = 0) := by
  have hpos := Nat.two_pow_pos k
  rw [roundUp_two_pow hk, sizeT]
  by_cases hle : bytes + 2 ^ k ≤ 2 ^ 64
  · refine .inl ⟨hle, ?_⟩
    rw [Nat.mod_eq_of_lt (by omega)]
    have hmod := Nat.div_add_mod (bytes + 2 ^ k - 1) (2 ^ k)
    have hlt := Nat.mod_lt (bytes + 2 ^ k - 1) hpos
    rw [Nat.mul_comm] at hmod
    omega
  · refine .inr ⟨by omega, ?_⟩
    have hlt : 2 ^ k < 2 ^ 64 := Nat.pow_lt_pow_right (by decide) hk
    rw [show bytes + 2 ^ k - 1 = bytes + 2 ^ k - 1 - 2 ^ 64 + 2 ^ 64 by omega, Nat.add_mod_right,
      Nat.mod_eq_of_lt (by omega), Nat.div_eq_of_lt (by omega), Nat.zero_mul]

theorem newDelete_iff (h0 : 0 < bytes) (hb : bytes < 2 ^ 64) (hk : k < 64) (answer : Option Nat) :
    NewDeleteRight build bytes (2 ^ k) answer ↔
      answer = none ∨ build = .other ∨ bytes + 2 ^ k ≤ 2 ^ 64 := by
  unfold NewDeleteRight newDelete
  rw [if_pos (verifyArgs_two_pow h0)]
  cases answer with
  | none => simp
  | some p =>
    have hwithin : ∀ n, Region.Within ⟨p, bytes⟩ ⟨p, n⟩ ↔ bytes ≤ n := by
      intro n
      simp [Region.Within, Region.stop]
    simp only [Option.map_some, Option.some.injEq, forall_eq', hwithin, reduceCtorEq, false_or]
    cases build with
    | other => simp [Build.systemSize]
    | cpp17 =>
      have hcases := roundUp_cases hb hk
      simp only [Build.systemSize, reduceCtorEq, false_or]
      omega

/-- The rounding of a size that a level takes is one of its cases. -/
theorem roundUp_level {lo : Nat} (h0 : lo < s) (hs : s ≤ 65536) (hk : k < 14) :
    ∃ q, roundUp s (2 ^ k) = q * 2 ^ k ∧ s ≤ q * 2 ^ k ∧ q * 2 ^ k < s + 2 ^ k := by
  have hpos := Nat.two_pow_pos k
  have hlt : 2 ^ k < 2 ^ 14 := Nat.pow_lt_pow_right (by decide) hk
  have hmod := Nat.div_add_mod (s + 2 ^ k - 1) (2 ^ k)
  have hrem := Nat.mod_lt (s + 2 ^ k - 1) hpos
  rw [Nat.mul_comm] at hmod
  refine ⟨(s + 2 ^ k - 1) / 2 ^ k, ?_, by omega, by omega⟩
  rw [roundUp_two_pow (by omega), sizeT, Nat.mod_eq_of_lt (by omega)]

theorem pick_eq {alignment size : Nat} {sizes : List Nat} (hr : roundUp s alignment = size)
    (hm : size ∈ sizes) : pick s alignment sizes = .blockPool size := by
  rw [pick, hr, if_pos hm]

/-- Up to 64 KiB there is a pool with blocks that are large enough. -/
theorem getRegularResource_small (h0 : 0 < s) (hs : s ≤ 65536) :
    ∃ size, getRegularResource s = .blockPool size ∧ s ≤ size ∧ size < s + 8193 := by
  unfold getRegularResource regularLevel
  by_cases h128 : s ≤ 128
  · obtain ⟨q, hr, hle, hlt⟩ := roundUp_level (k := 4) h0 hs (by decide)
    rw [if_pos h128]
    exact ⟨_, pick_eq hr (by simp only [List.mem_cons]; omega), hle, by omega⟩
  · by_cases h1024 : s ≤ 1024
    · obtain ⟨q, hr, hle, hlt⟩ := roundUp_level (k := 7) h0 hs (by decide)
      rw [if_neg h128, if_pos h1024]
      exact ⟨_, pick_eq hr (by simp only [List.mem_cons]; omega), hle, by omega⟩
    · by_cases h8192 : s ≤ 8192
      · obtain ⟨q, hr, hle, hlt⟩ := roundUp_level (k := 10) h0 hs (by decide)
        rw [if_neg h128, if_neg h1024, if_pos h8192]
        exact ⟨_, pick_eq hr (by simp only [List.mem_cons]; omega), hle, by omega⟩
      · obtain ⟨q, hr, hle, hlt⟩ := roundUp_level (k := 13) h0 hs (by decide)
        rw [if_neg h128, if_neg h1024, if_neg h8192, if_pos hs]
        exact ⟨_, pick_eq hr (by simp only [List.mem_cons]; omega), hle, by omega⟩

theorem getRegularResource_large (hs : 65536 < s) : getRegularResource s = .newDelete := by
  have hlevel : regularLevel s = 4 := by
    unfold regularLevel
    rw [if_neg (by omega), if_neg (by omega), if_neg (by omega), if_neg (by omega)]
  rw [getRegularResource, hlevel]
  rfl

/-- A block that `alloc` gives has the bytes it was asked for, unless the rounding of a
large size wraps. -/
theorem alloc_size (build : Build) (p : Nat) (h0 : 0 < s) (hs : s < 2 ^ 64) :
    ∃ size, alloc build s (some p) = some ⟨p, size⟩ ∧
      (s ≤ size ↔ build = .other ∨ s + 16 ≤ 2 ^ 64) ∧ (s ≤ 65536 → size < s + 8193) := by
  by_cases hsmall : s ≤ 65536
  · obtain ⟨size, hr, hle, hlt⟩ := getRegularResource_small h0 hsmall
    refine ⟨size, by rw [alloc, hr]; rfl, ?_, fun _ => hlt⟩
    exact iff_of_true hle (.inr (by omega))
  · have hright : NewDeleteRight build s (2 ^ 4) (some p) ↔ _ :=
      newDelete_iff h0 hs (by decide) (some p)
    refine ⟨build.systemSize s 16, ?_, ?_, fun hle => absurd hle hsmall⟩
    · rw [alloc, getRegularResource_large (by omega)]
      exact if_pos (verifyArgs_two_pow (k := 4) h0)
    · unfold NewDeleteRight newDelete at hright
      rw [if_pos (verifyArgs_two_pow h0)] at hright
      simpa [Region.Within, Region.stop] using hright

theorem head_size : regularHeadSize = 16 ∧ recyclerSize = 8 := by decide +kernel

/-- Where the head wraps around, the block has no room behind it. -/
theorem newVoid_iff (h0 : 0 < bytes) (hb : bytes < 2 ^ 64) (mem : Nat → Nat)
    (answer : Option Nat) : NewVoidRight build mem bytes answer ↔
      answer ≠ none ∧ (bytes + 32 ≤ 2 ^ 64 ∨ build = .other ∧ bytes + 16 < 2 ^ 64) := by
  have hbytes : blockBytes bytes = (16 + bytes) % 2 ^ 64 := by rw [blockBytes, head_size.1]; rfl
  unfold NewVoidRight newVoid
  rw [if_neg (by omega)]
  cases answer with
  | none =>
    have hnone : alloc build (blockBytes bytes) none = none := by
      unfold alloc newDelete
      cases getRegularResource (blockBytes bytes) with
      | blockPool size => rfl
      | newDelete => dsimp only; split <;> rfl
    rw [hnone]
    simp
  | some p =>
    by_cases hz : blockBytes bytes = 0
    · -- the resource for 0 bytes refuses them
      have hnone : alloc build (blockBytes bytes) (some p) = none := by rw [hz]; rfl
      rw [hnone]
      simp only [false_iff]
      omega
    · obtain ⟨size, ha, hsize, hsmall⟩ := alloc_size build p (Nat.pos_of_ne_zero hz)
        (Nat.mod_lt _ (Nat.two_pow_pos 64))
      rw [ha, head_size.1]
      simp only [Option.some.injEq, exists_eq_left', Region.Within, Region.stop]
      by_cases hwrap : 16 + bytes < 2 ^ 64
      · rw [hbytes, Nat.mod_eq_of_lt hwrap] at hsize
        have hgoal : (p ≤ p + 16 ∧ p + 16 + bytes ≤ p + size) ↔ 16 + bytes ≤ size := by omega
        rw [hgoal, hsize]
        cases build <;> simp <;> omega
      · have hlt := hsmall (by omega)
        refine iff_of_false (by omega) fun hc => ?_
        omega

theorem sameClass (mem : Nat → Nat) (answer : Option Nat) :
    SameClass build mem bytes answer := by
  intro p hp mem' hmem
  unfold newVoid at hp hmem
  split at hp
  · cases hp
  · rename_i h0
    rw [if_neg h0] at hmem
    cases ha : alloc build (blockBytes bytes) answer with
    | none => rw [ha] at hp; cases hp
    | some b =>
      simp only [ha] at hp hmem
      cases hp
      have haddr : b.start + regularHeadSize - regularHeadSize + recyclerSize =
          b.start + recyclerSize := by rw [Nat.add_sub_cancel]
      have hlt : b.start + recyclerSize < b.start + regularHeadSize := by
        rw [head_size.1, head_size.2]
        omega
      rw [recycler, haddr, hmem _ hlt, Function.update_self]

end Sizes

/-! ## The nodes of `monotonic_buffer_resource` -/

/-- What upstream is asked for, and its blocks aligned as it does by default. -/
def Proper : Act → Prop
  | .allocate bytes alignment answer =>
    0 < bytes ∧ bytes < 2 ^ 64 ∧ (∃ k < 64, alignment = 2 ^ k) ∧ ∀ p, answer = some p → 16 ∣ p
  | _ => True

/-- Null, or a pointer to `bytes` bytes: of the node that was obtained for the request,
behind its header, or else of what was there before. -/
def MonotonicRight (c : Made) (s : St) : Act → Prop
  | .allocate bytes alignment answer => ∀ p, (allocate s bytes alignment answer).2 = some p →
    if s.Asks bytes alignment then
      ∃ node, answer = some node ∧ Region.Within ⟨p, bytes⟩
        (Region.drop ⟨node, nodeSize (max s.res.nextSize bytes) alignment⟩ sizeofNode)
    else Owned c s ⟨p, bytes⟩
  | _ => True

/-- A node that upstream gives has room for its header. -/
def HasHeader (s : St) : Act → Prop
  | .allocate bytes alignment answer => s.Asks bytes alignment → answer ≠ none →
    sizeofNode ≤ nodeSize (max s.res.nextSize bytes) alignment
  | _ => True

structure Sane (c : Made) (s : St) : Prop where
  sized : Sized s
  rest : Owned c s s.rest

section Monotonic
variable {c : Made} {s t : St} {bytes alignment node k p rest : Nat}

/-- Where the sum wraps to less than a header, the space behind the header wraps too and
takes the request. -/
theorem fits_of_wrap {n : Nat} (hk : k < 64) (hnode : 16 ∣ node) (hn : n < 2 ^ 64)
    (hle : bytes ≤ n) (hwrap : nodeSize n (2 ^ k) < sizeofNode) :
    pad (2 ^ k) (node + sizeofNode) + bytes ≤ diff (nodeSize n (2 ^ k)) sizeofNode := by
  have hpad := pad_header_le hk hnode
  have hpow : 2 ^ k ≤ 2 ^ 63 := Nat.pow_le_pow_right (by decide) (by omega)
  have hround : roundUp sizeofNode (2 ^ k) = max 16 (2 ^ k) := roundUp_sixteen hk
  unfold nodeSize diff sizeT sizeofNode at *
  rw [hround] at hwrap ⊢
  omega

/-- A node with room for its header holds what is cut from it. -/
theorem fits_node {n rest : Nat} (hle : sizeofNode ≤ nodeSize n alignment)
    (ha : align alignment bytes (node + sizeofNode) (diff (nodeSize n alignment) sizeofNode) =
      some (p, rest)) :
    Region.Within ⟨p, bytes⟩ (Region.drop ⟨node, nodeSize n alignment⟩ sizeofNode) ∧
      bytes ≤ rest ∧ p + rest = node + nodeSize n alignment := by
  obtain ⟨rfl, rfl, hfit⟩ := align_some ha
  have hlt : nodeSize n alignment < 2 ^ 64 := Nat.mod_lt _ (Nat.two_pow_pos 64)
  rw [diff_eq hle (by omega)] at hfit ⊢
  simp only [Region.Within, Region.stop, Region.drop]
  omega

/-- The state in which a new node is there and nothing is cut from it. -/
def withNode (s : St) (bytes alignment node : Nat) : St :=
  let nextSize := max s.res.nextSize bytes
  ((s.setNextSize nextSize).addNode node
    (Function.update s.mem node ⟨none, nodeSize nextSize alignment⟩)
    (nodeSize nextSize alignment)).setNextSize (nextBufferSize nextSize)

/-- What a request does that upstream answers. -/
theorem allocate_asks (hpos : 0 < bytes) (hask : s.Asks bytes alignment) (node : Nat) :
    allocate s bytes alignment (some node) =
      match align alignment bytes (node + sizeofNode)
        (diff (nodeSize (max s.res.nextSize bytes) alignment) sizeofNode) with
      | none => (withNode s bytes alignment node, none)
      | some (p, space) =>
        ((((withNode s bytes alignment node).setTail (p + space)).setHead (p + bytes)).record p
          bytes, some p) := by
  have hsize : ((withNode s bytes alignment node).mem node).size =
      nodeSize (max s.res.nextSize bytes) alignment := by
    simp only [withNode, St.addNode, St.setNextSize, Function.update_self]
  unfold allocate
  rw [if_neg (by omega), show align _ _ _ _ = none from hask, ← hsize]
  rfl

/-- What a request does that is met from the current buffer. -/
theorem allocate_rest_of (hs : Sized s) (hpos : 0 < bytes) (hask : ¬ s.Asks bytes alignment)
    (answer : Option Nat) : ∃ p, s.res.head ≤ p ∧ p + bytes ≤ s.res.tail ∧
      allocate s bytes alignment answer =
        ((s.setHead (p + bytes)).record p bytes, some p) := by
  obtain ⟨⟨p, rest⟩, ha⟩ := Option.ne_none_iff_exists'.mp hask
  have hle := hs.head_le
  obtain ⟨rfl, -, hfit⟩ := align_some ha
  rw [diff_eq hle hs.space_lt] at hfit
  refine ⟨s.res.head + pad alignment s.res.head, Nat.le_add_right _ _, by omega, ?_⟩
  unfold allocate
  rw [if_neg (by omega), ha]

theorem rest_within (hh : s.res.head ≤ p) (ht : p + bytes ≤ s.res.tail) :
    Region.Within ⟨p, bytes⟩ s.rest := by
  simp only [Region.Within, Region.stop, St.rest]
  omega

/-- One request. -/
theorem right_iff {a : Act} (hs : Sane c s) (ha : Proper a) :
    MonotonicRight c s a ↔ HasHeader s a := by
  cases a with
  | release => exact Iff.rfl
  | write a mem => exact Iff.rfl
  | allocate bytes alignment answer =>
    obtain ⟨hpos, hb, ⟨k, hk, rfl⟩, haligned⟩ := ha
    have hmax : max s.res.nextSize bytes < 2 ^ 64 := max_lt hs.sized.nextSize_lt hb
    unfold MonotonicRight HasHeader
    by_cases hask : s.Asks bytes (2 ^ k)
    · simp only [hask, if_true, true_imp_iff]
      cases answer with
      | none =>
        rw [refused_eq hpos hask]
        simp
      | some node =>
        rw [allocate_asks hpos hask]
        constructor
        · intro hright _
          by_contra hsmall
          have hfit := fits_of_wrap hk (haligned node rfl) hmax (le_max_right _ _)
            (Nat.not_le.mp hsmall)
          rw [align, if_pos hfit] at hright
          obtain ⟨n, hn, hw⟩ := hright _ rfl
          cases hn
          simp only [Region.Within, Region.stop, Region.drop] at hw
          omega
        · intro hle p hp
          split at hp
          · cases hp
          · rename_i p' space ha
            cases hp
            exact ⟨node, rfl, (fits_node (hle (Option.some_ne_none node)) ha).1⟩
    · obtain ⟨q, hh, ht, he⟩ := allocate_rest_of hs.sized hpos hask answer
      refine iff_of_true (fun p hp => ?_) fun hc => absurd hc hask
      rw [he] at hp
      cases hp
      rw [if_neg hask]
      exact hs.rest.within (rest_within hh ht)

theorem init_sane (hc : c.initialSize < 2 ^ 64) (mem : Nat → Node) : Sane c (.init c mem) :=
  ⟨construct_sized hc mem, (Inv.init c mem).rest⟩

/-- The current buffer stays memory that the resource has. -/
theorem Sane.step {a : Act} (hc : c.initialSize < 2 ^ 64) (hs : Sane c s) (ha : Proper a)
    (hright : MonotonicRight c s a) (h : step c s a = some t) : Sane c t := by
  have hfits : Fits a := by
    cases a with
    | allocate bytes alignment answer => exact ha.2.1
    | release => trivial
    | write a mem => trivial
  refine ⟨hs.sized.step hc hfits h, ?_⟩
  have hheader := (right_iff hs ha).mp hright
  cases a with
  | allocate bytes alignment answer =>
    cases h
    obtain ⟨hpos, -, -, -⟩ := ha
    by_cases hask : s.Asks bytes alignment
    · cases answer with
      | none =>
        rw [refused_eq hpos hask]
        exact hs.rest
      | some node =>
        have hnew : ∀ r, Owned c s r → Owned c (withNode s bytes alignment node) r := by
          intro r hr
          exact hr.imp id List.exists_mem_cons_of_exists
        rw [allocate_asks hpos hask]
        split
        · exact hnew _ hs.rest
        · rename_i p space ha
          obtain ⟨hw, hle, hend⟩ := fits_node (hheader hask (Option.some_ne_none node)) ha
          refine .inr ⟨_, List.mem_cons_self, ?_⟩
          simp only [Region.Within, Region.stop, Region.drop, St.rest, St.setTail, St.setHead,
            St.record] at hw ⊢
          omega
    · obtain ⟨p, hh, ht, he⟩ := allocate_rest_of hs.sized hpos hask answer
      rw [he]
      refine hs.rest.within ?_
      simp only [Region.Within, Region.stop, St.rest, St.setHead, St.record]
      omega
  | release =>
    obtain ⟨r, hr, rfl⟩ := Option.map_eq_some_iff.mp h
    obtain ⟨calls, -, rfl⟩ := Option.map_eq_some_iff.mp hr
    rw [reset_eq]
    refine (Inv.init c s.mem).rest.imp id fun h => ?_
    obtain ⟨b, hb, -⟩ := h
    cases hb
  | write a mem =>
    cases h
    exact hs.rest

/-- Whole runs, from either constructor. -/
theorem monotonic_iff (hc : c.initialSize < 2 ^ 64) (mem : Nat → Node) {acts : List Act}
    (hp : ∀ a ∈ acts, Proper a) : Meets (step c) (MonotonicRight c) (.init c mem) acts ↔
      Meets (step c) HasHeader (.init c mem) acts := by
  have hiff : Meets (step c) (fun s a => MonotonicRight c s a ∧ Proper a) (.init c mem) acts ↔
      Meets (step c) (fun s a => HasHeader s a ∧ Proper a) (.init c mem) acts :=
    meets_congr (P := Sane c)
    (fun s a hs => and_congr_left fun ha => right_iff hs ha)
    (fun s a t hs hg h => hs.step hc hg.2 hg.1 h) (init_sane hc mem)
  have hleft : ∀ {good : St → Act → Prop}, Meets (step c) (fun s a => good s a ∧ Proper a)
      (.init c mem) acts → Meets (step c) good (.init c mem) acts := fun h =>
    h.imp (P := fun _ => True) (fun _ _ _ _ _ _ => trivial) (fun _ _ _ hg => hg.1) trivial
  exact ⟨fun h => hleft (hiff.mp (h.and hp)), fun h => hleft (hiff.mpr (h.and hp))⟩

end Monotonic

/-- **When the sizes do not wrap.** For every request of 64 bits and every alignment that
is a power of two: `$new<void>` is right just when the block source answers and neither
the head nor the rounding behind it wraps, and gives every block back to its class;
`new_delete_resource` just when its rounding does not wrap or the system refuses; and a
run of the monotonic resource just when no node that it gets is smaller than a header. -/
theorem sizes_iff (build : Build) (bytes k : Nat) (h0 : 0 < bytes) (hb : bytes < 2 ^ 64)
    (hk : k < 64) (c : Made) (hc : c.initialSize < 2 ^ 64) (acts : List Act)
    (hp : ∀ a ∈ acts, Proper a) :
    (∀ mem answer, NewVoidRight build mem bytes answer ↔
      answer ≠ none ∧ (bytes + 32 ≤ 2 ^ 64 ∨ build = .other ∧ bytes + 16 < 2 ^ 64)) ∧
    (∀ mem answer, SameClass build mem bytes answer) ∧
    (∀ answer, NewDeleteRight build bytes (2 ^ k) answer ↔
      answer = none ∨ build = .other ∨ bytes + 2 ^ k ≤ 2 ^ 64) ∧
    ∀ mem, Meets (step c) (MonotonicRight c) (.init c mem) acts ↔
      Meets (step c) HasHeader (.init c mem) acts :=
  ⟨newVoid_iff h0 hb, sameClass, newDelete_iff h0 hb hk, fun mem => monotonic_iff hc mem hp⟩

instance HasHeader.decidable (s : St) : (a : Act) → Decidable (HasHeader s a)
  | .allocate bytes alignment answer => inferInstanceAs (Decidable (s.Asks bytes alignment →
    answer ≠ none → sizeofNode ≤ nodeSize (max s.res.nextSize bytes) alignment))
  | .release | .write .. => isTrue trivial

/-- A request that the caller's buffer meets, two that upstream answers, and one that it
refuses. -/
def asking : List Act :=
  [.allocate 30 8 none, .allocate 100 16 (some 4096), .allocate 1000 64 (some 8192),
    .allocate 8000 16 none]

theorem proper_asking : ∀ a ∈ asking, Proper a := by
  have hproper {bytes k : Nat} {answer : Option Nat} (h0 : 0 < bytes) (hb : bytes < 2 ^ 64)
      (hk : k < 64) (ha : ∀ p ∈ answer, 16 ∣ p) : Proper (.allocate bytes (2 ^ k) answer) :=
    ⟨h0, hb, ⟨k, hk, rfl⟩, ha⟩
  simp only [asking, List.forall_mem_cons]
  refine ⟨hproper (k := 3) ?_ ?_ ?_ ?_, hproper (k := 4) ?_ ?_ ?_ ?_, hproper (k := 6) ?_ ?_ ?_ ?_,
    hproper (k := 4) ?_ ?_ ?_ ?_, fun _ ha => absurd ha List.not_mem_nil⟩
  all_goals decide

theorem sizes_hundred : NewVoidRight .cpp17 (fun _ => 0) 100 (some 4096) ∧
    SameClass .cpp17 (fun _ => 0) 100 (some 4096) ∧ NewDeleteRight .cpp17 100 (2 ^ 6) (some 4096) ∧
    Meets (step smallBuffer) (MonotonicRight smallBuffer)
      (.init smallBuffer fun _ => ⟨none, 0⟩) asking := by
  obtain ⟨hvoid, hclass, hdelete, hmonotonic⟩ := sizes_iff .cpp17 100 6 (by decide) (by decide)
    (by decide) smallBuffer (by decide) asking proper_asking
  refine ⟨(hvoid _ _).mpr ⟨Option.some_ne_none _, .inl (by decide)⟩, hclass _ _,
    (hdelete _).mpr (.inr (.inr (by decide))), (hmonotonic _).mpr ?_⟩
  decide +kernel

/-- The largest sizes: a block of 16 bytes with a head of 16, a block of no bytes, and a
node that is half a header. -/
theorem not_right_largest :
    ¬ NewVoidRight .cpp17 (fun _ => 0) (2 ^ 64 - 1) (some 4096) ∧
    ¬ NewDeleteRight .cpp17 (2 ^ 64 - 1) 16 (some 4096) ∧
    ¬ MonotonicRight (.size 0) blank (.allocate (2 ^ 64 - 8) 16 (some 4096)) := by
  refine ⟨fun h => ?_, fun h => ?_, fun h => ?_⟩
  · have hc := ((newVoid_iff (by decide) (by decide) _ _).mp h).2
    simp at hc
  · have hc := (newDelete_iff (k := 4) (by decide) (by decide) (by decide) _).mp h
    simp at hc
  · have hproper : Proper (.allocate (2 ^ 64 - 8) 16 (some 4096)) :=
      ⟨by decide, by decide, ⟨4, by decide, rfl⟩, fun p hp => by cases hp; decide⟩
    have hc := (right_iff (init_sane (by decide) _) hproper).mp h (by decide +kernel)
      (Option.some_ne_none _)
    revert hc
    decide +kernel

end CppIpc.AllocationSizes
