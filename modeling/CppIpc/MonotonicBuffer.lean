import CppIpc.Aligned
import CppIpc.Lib.Chains
import CppIpc.Lib.Runs
import Mathlib.Data.List.Pairwise

/-! # `monotonic_buffer_resource`

The resource over a memory of headers: `mem p` is what a `node` at address `p` reads.
The upstream allocator is in the action, with its answer to the request of the step. -/
namespace CppIpc.MonotonicBuffer
open CppIpc.Aligned
open CppIpc.Lib.Regions
open CppIpc.Lib.Chains (Chain chain_none)
open CppIpc.Lib.Runs (run Meets run_invariant)

/-- `monotonic_buffer_resource::node`, the header of an upstream block. -/
structure Node where
  next : Option Nat
  size : Nat

def sizeofNode : Nat := 16

/-- `ipc::span<ipc::byte>`. Only an empty one may begin at null. -/
structure Span where
  data : Nat
  size : Nat
  size_lt : size < 2 ^ 64
  null : data = 0 → size = 0

/-- The two constructors that the others call. -/
inductive Made where
  | size (initialSize : Nat)
  | buffer (b : Span)

def nextBufferSize (size : Nat) : Nat := sizeT (size * 3) / 2

/-- The members that change; null is address 0. -/
structure Resource where
  freeList : Option Nat
  head : Nat
  tail : Nat
  nextSize : Nat
deriving DecidableEq

def Made.construct : Made → Resource
  | .size n => ⟨none, 0, 0, n⟩
  | .buffer b => ⟨none, b.data, b.data + b.size, nextBufferSize b.size⟩

def Made.initialBuffer : Made → Nat
  | .size _ => 0
  | .buffer b => b.data

def Made.initialSize : Made → Nat
  | .size n => n
  | .buffer b => b.size

/-- Beside the resource and the memory, the history: the upstream blocks that are not
given back, with the size of the request, and the results since the last release. -/
structure St where
  res : Resource
  mem : Nat → Node
  out : List Region
  results : List Region

def St.init (c : Made) (mem : Nat → Node) : St := ⟨c.construct, mem, [], []⟩

/-- Subtraction of pointers or sizes. -/
def diff (a b : Nat) : Nat := sizeT (a + 2 ^ 64 - b)

/-- The size that `make_node` asks for. -/
def nodeSize (initialSize alignment : Nat) : Nat :=
  sizeT (roundUp sizeofNode alignment + initialSize)

def makeNode (mem : Nat → Node) (initialSize alignment : Nat) (answer : Option Nat) :
    Option (Nat × (Nat → Node)) :=
  answer.map fun node => (node, Function.update mem node ⟨none, nodeSize initialSize alignment⟩)

def St.setNextSize (s : St) (n : Nat) : St := { s with res := { s.res with nextSize := n } }

def St.setHead (s : St) (p : Nat) : St := { s with res := { s.res with head := p } }

def St.setTail (s : St) (p : Nat) : St := { s with res := { s.res with tail := p } }

/-- The new node goes to the front of the free list. -/
def St.addNode (s : St) (node : Nat) (mem : Nat → Node) (size : Nat) : St :=
  { s with
    res := { s.res with freeList := some node }
    mem := Function.update mem node { mem node with next := s.res.freeList }
    out := ⟨node, size⟩ :: s.out }

def St.record (s : St) (p bytes : Nat) : St := { s with results := ⟨p, bytes⟩ :: s.results }

/-- `answer` is what upstream returns, if it is asked. -/
def allocate (s : St) (bytes alignment : Nat) (answer : Option Nat) : St × Option Nat :=
  if bytes = 0 then (s, none) else
  match align alignment bytes s.res.head (diff s.res.tail s.res.head) with
  | some (p, _) => ((s.setHead (p + bytes)).record p bytes, some p)
  | none =>
    let nextSize := max s.res.nextSize bytes
    match makeNode s.mem nextSize alignment answer with
    | none => (s.setNextSize nextSize, none)
    | some (node, mem) =>
      let s := ((s.setNextSize nextSize).addNode node mem (nodeSize nextSize alignment)).setNextSize
        (nextBufferSize nextSize)
      match align alignment bytes (node + sizeofNode) (diff (s.mem node).size sizeofNode) with
      | none => (s, none)
      | some (p, space) => (((s.setTail (p + space)).setHead (p + bytes)).record p bytes, some p)

/-- The loop of `release`: the blocks that it deallocates, with the sizes it reads. -/
def freeLoop (mem : Nat → Node) : Nat → Option Nat → Option (List Region)
  | _, none => some []
  | 0, some _ => none
  | fuel + 1, some p => (freeLoop mem fuel (mem p).next).map (⟨p, (mem p).size⟩ :: ·)

def Made.reset (c : Made) : Resource :=
  if c.initialBuffer ≠ 0 then
    ⟨none, c.initialBuffer, c.initialBuffer + c.initialSize, nextBufferSize c.initialSize⟩
  else ⟨none, 0, 0, c.initialSize⟩

/-- The loop takes as many rounds as there are blocks, see `freeLoop_eq`. -/
def release (c : Made) (s : St) : Option (St × List Region) :=
  (freeLoop s.mem s.out.length s.res.freeList).map fun calls =>
    (⟨c.reset, s.mem, s.out.diff calls, []⟩, calls)

inductive Act where
  | allocate (bytes alignment : Nat) (answer : Option Nat)
  | release
  /-- The owner of a result writes to address `a`; a header that lies there reads
  something else afterwards. -/
  | write (a : Nat) (mem : Nat → Node)

/-- The address is one of the header at `p`. -/
def InHeader (a p : Nat) : Prop := p ≤ a ∧ a < p + sizeofNode

instance (a p : Nat) : Decidable (InHeader a p) := inferInstanceAs (Decidable (_ ∧ _))

def step (c : Made) (s : St) : Act → Option St
  | .allocate bytes alignment answer => some (allocate s bytes alignment answer).1
  | .release => (release c s).map Prod.fst
  | .write a mem => some { s with mem := fun p => if InHeader a p then mem p else s.mem p }

/-! ## What the resource promises -/

def Made.region : Made → Region
  | .size _ => ⟨0, 0⟩
  | .buffer b => ⟨b.data, b.size⟩

/-- Inside the buffer of the caller, or inside a block of upstream after its header. -/
def Owned (c : Made) (s : St) (r : Region) : Prop :=
  r.Within c.region ∨ ∃ b ∈ s.out, r.Within (b.drop sizeofNode)

/-- Nothing is left in the current buffer for the request. -/
def St.Asks (s : St) (bytes alignment : Nat) : Prop :=
  align alignment bytes s.res.head (diff s.res.tail s.res.head) = none

instance (s : St) (bytes alignment : Nat) : Decidable (s.Asks bytes alignment) :=
  inferInstanceAs (Decidable (align alignment bytes s.res.head (diff s.res.tail s.res.head) = none))

/-- The block is not null, aligned, and apart from all memory in use. It is not empty: a
request of 0 bytes is refused, as by all allocators of the library. -/
structure Fresh (c : Made) (s : St) (b : Region) : Prop where
  pos : 0 < b.start
  nonempty : 0 < b.size
  aligned : 16 ∣ b.start
  apart : ∀ o ∈ s.out, b.Apart o
  buffer : b.Apart c.region

def Lawful (c : Made) (s : St) : Act → Prop
  | .allocate bytes alignment answer =>
    0 < bytes ∧ (∃ k < 64, alignment = 2 ^ k) ∧ (s.Asks bytes alignment →
      roundUp sizeofNode alignment + max s.res.nextSize bytes ≤ 2 ^ 64 ∧
      ∀ p, answer = some p → Fresh c s ⟨p, nodeSize (max s.res.nextSize bytes) alignment⟩)
  | .release => True
  | .write a _ => ∃ r ∈ s.results, r.Holds a

structure Serves (c : Made) (s : St) : Prop where
  owned : ∀ r ∈ s.results, Owned c s r
  apart : s.results.Pairwise Region.Apart

/-- What each call returns and leaves. -/
def Correct (c : Made) (s : St) : Act → Prop
  | .allocate bytes alignment answer =>
    (∀ p, (allocate s bytes alignment answer).2 = some p →
      alignment ∣ p ∧ (allocate s bytes alignment answer).1.results = ⟨p, bytes⟩ :: s.results) ∧
    ((allocate s bytes alignment answer).2 = none → s.Asks bytes alignment ∧ answer = none)
  | .release => ∃ t calls, release c s = some (t, calls) ∧ calls.Perm s.out ∧ s.out.Nodup ∧
    t.res = c.construct ∧ t.out = [] ∧ t.results = []
  | .write .. => True

/-! ## The invariant -/

def St.rest (s : St) : Region := ⟨s.res.head, s.res.tail - s.res.head⟩

structure Inv (c : Made) (s : St) : Prop where
  head_le : s.res.head ≤ s.res.tail
  rest : Owned c s s.rest
  clear : ∀ r ∈ s.results, r.Apart s.rest
  owned : ∀ r ∈ s.results, Owned c s r
  apart : s.results.Pairwise Region.Apart
  header : ∀ b ∈ s.out, sizeofNode ≤ b.size
  size_lt : ∀ b ∈ s.out, b.size < 2 ^ 64
  buffer : ∀ b ∈ s.out, b.Apart c.region
  blocks : s.out.Pairwise Region.Apart
  chain : Chain (fun p => (s.mem p).next) s.res.freeList (s.out.map Region.start)
  sizes : ∀ b ∈ s.out, (s.mem b.start).size = b.size

theorem Inv.init (c : Made) (mem : Nat → Node) : Inv c (St.init c mem) where
  head_le := by
    cases c with
    | size n => exact Nat.le_refl 0
    | buffer b => exact Nat.le_add_right _ _
  rest := by
    refine .inl ?_
    cases c with
    | size n => exact ⟨Nat.le_refl _, Nat.le_refl _⟩
    | buffer b =>
      refine ⟨Nat.le_refl _, ?_⟩
      simp only [Region.stop, St.rest, St.init, Made.construct, Made.region]
      omega
  clear := nofun
  owned := nofun
  apart := .nil
  header := nofun
  size_lt := nofun
  buffer := nofun
  blocks := .nil
  chain := by cases c <;> rfl
  sizes := nofun

section Steps
variable {c : Made} {s : St} {r r' b : Region} {p bytes alignment node size : Nat}

theorem diff_eq {x y : Nat} (hle : y ≤ x) (hlt : x - y < 2 ^ 64) : diff x y = x - y := by
  unfold diff sizeT
  rw [show x + 2 ^ 64 - y = x - y + 2 ^ 64 by omega, Nat.add_mod_right, Nat.mod_eq_of_lt hlt]

theorem region_size_lt (c : Made) : c.region.size < 2 ^ 64 := by
  cases c with
  | size n => exact Nat.two_pow_pos 64
  | buffer b => exact b.size_lt

theorem Owned.within (h : Owned c s r) (hr : r'.Within r) : Owned c s r' := by
  obtain h | ⟨b, hb, h⟩ := h
  · exact .inl (hr.trans h)
  · exact .inr ⟨b, hb, hr.trans h⟩

/-- Memory apart from the buffer and from all blocks is apart from all results. -/
theorem Owned.apart (h : Owned c s r) (hout : ∀ o ∈ s.out, sizeofNode ≤ o.size)
    (hb : b.Apart c.region) (hbs : ∀ o ∈ s.out, b.Apart o) : r.Apart b := by
  obtain h | ⟨o, ho, h⟩ := h
  · exact (hb.within ⟨Nat.le_refl _, Nat.le_refl _⟩ h).symm
  · exact ((hbs o ho).within ⟨Nat.le_refl _, Nat.le_refl _⟩
      (h.trans (Region.drop_within (hout o ho)))).symm

theorem Owned.size_lt (h : Owned c s r) (hsize : ∀ o ∈ s.out, o.size < 2 ^ 64) :
    r.size < 2 ^ 64 := by
  obtain h | ⟨o, ho, h⟩ := h
  · exact h.size_le.trans_lt (region_size_lt c)
  · have hle : r.size ≤ o.size - sizeofNode := h.size_le
    have := hsize o ho
    omega

/-- The space that `allocate` computes is the space that is left. -/
theorem Inv.space (hi : Inv c s) : diff s.res.tail s.res.head = s.res.tail - s.res.head :=
  diff_eq hi.head_le (hi.rest.size_lt hi.size_lt)

theorem Inv.setNextSize (hi : Inv c s) (n : Nat) : Inv c (s.setNextSize n) :=
  ⟨hi.head_le, hi.rest, hi.clear, hi.owned, hi.apart, hi.header, hi.size_lt, hi.buffer,
    hi.blocks, hi.chain, hi.sizes⟩

/-- A piece of what is left is handed out. -/
theorem Inv.place (hi : Inv c s) (hp : s.res.head ≤ p) (hfit : p + bytes ≤ s.res.tail) :
    Inv c ((s.setHead (p + bytes)).record p bytes) := by
  have hpiece : Region.Within ⟨p, bytes⟩ s.rest := by
    simp only [Region.Within, Region.stop, St.rest]
    omega
  have hrest : (s.setHead (p + bytes)).rest.Within s.rest := by
    simp only [Region.Within, Region.stop, St.rest, St.setHead]
    omega
  refine ⟨hfit, hi.rest.within hrest, fun r hr => ?_, fun r hr => ?_,
    List.pairwise_cons.mpr ⟨fun r hr => ?_, hi.apart⟩, hi.header, hi.size_lt, hi.buffer,
    hi.blocks, hi.chain, hi.sizes⟩
  · obtain rfl | hr := List.mem_cons.mp hr
    · exact .inl (Nat.le_refl _)
    · exact (hi.clear r hr).within ⟨Nat.le_refl _, Nat.le_refl _⟩ hrest
  · obtain rfl | hr := List.mem_cons.mp hr
    · exact hi.rest.within hpiece
    · exact hi.owned r hr
  · exact ((hi.clear r hr).within ⟨Nat.le_refl _, Nat.le_refl _⟩ hpiece).symm

/-- A fresh block becomes the buffer that results are cut from. -/
theorem Inv.addNode (hi : Inv c s) (hb : Fresh c s ⟨node, size⟩) (hsize : sizeofNode ≤ size)
    (hlt : size < 2 ^ 64) {x : Option Nat} :
    Inv c (((s.addNode node (Function.update s.mem node ⟨x, size⟩) size).setTail
      (node + size)).setHead (node + sizeofNode)) := by
  have hpos : 0 < sizeofNode := by decide
  have hne : ∀ o ∈ s.out, o.start ≠ node := fun o ho =>
    ((hb.apart o ho).start_ne (hpos.trans_le hsize) (hpos.trans_le (hi.header o ho))).symm
  have hmem : ∀ q, q ≠ node → Function.update (Function.update s.mem node ⟨x, size⟩) node
      ⟨s.res.freeList, size⟩ q = s.mem q := fun q hq => by
    rw [Function.update_of_ne hq, Function.update_of_ne hq]
  have hdrop : Region.Within ⟨node + sizeofNode, node + size - (node + sizeofNode)⟩
      (Region.drop ⟨node, size⟩ sizeofNode) := by
    simp only [Region.Within, Region.stop, Region.drop]
    omega
  have hheader : (Function.update s.mem node ⟨x, size⟩ node) = ⟨x, size⟩ := Function.update_self ..
  refine ⟨Nat.add_le_add_left hsize _, .inr ⟨⟨node, size⟩, List.mem_cons_self, hdrop⟩,
    fun r hr => ?_, fun r hr => ?_, hi.apart, fun o ho => ?_, fun o ho => ?_, fun o ho => ?_,
    List.pairwise_cons.mpr ⟨hb.apart, hi.blocks⟩, ⟨rfl, ?_⟩, fun o ho => ?_⟩
  · exact ((hi.owned r hr).apart hi.header hb.buffer hb.apart).within
      ⟨Nat.le_refl _, Nat.le_refl _⟩ (hdrop.trans (Region.drop_within hsize))
  · exact (hi.owned r hr).imp id List.exists_mem_cons_of_exists
  · obtain rfl | ho := List.mem_cons.mp ho
    · exact hsize
    · exact hi.header o ho
  · obtain rfl | ho := List.mem_cons.mp ho
    · exact hlt
    · exact hi.size_lt o ho
  · obtain rfl | ho := List.mem_cons.mp ho
    · exact hb.buffer
    · exact hi.buffer o ho
  · simp only [St.addNode, St.setTail, St.setHead, hheader, Function.update_self]
    refine hi.chain.congr fun q hq => ?_
    obtain ⟨o, ho, rfl⟩ := List.mem_map.mp hq
    rw [hmem _ (hne o ho)]
  · simp only [St.addNode, St.setTail, St.setHead, hheader]
    obtain rfl | ho := List.mem_cons.mp ho
    · rw [Function.update_self]
    · rw [hmem _ (hne o ho)]
      exact hi.sizes o ho

/-- Where `allocate` finds the piece in the rest of the buffer, it is the first aligned
address that it returns. -/
theorem allocate_here (hi : Inv c s) (hpos : 0 < bytes) {answer : Option Nat}
    (hfit : pad alignment s.res.head + bytes ≤ s.res.tail - s.res.head) :
    allocate s bytes alignment answer =
      (((s.setHead (s.res.head + pad alignment s.res.head + bytes)).record
        (s.res.head + pad alignment s.res.head) bytes),
        some (s.res.head + pad alignment s.res.head)) := by
  unfold allocate
  rw [if_neg (by omega), hi.space]
  simp only [align, if_pos hfit]

theorem asks_iff (hi : Inv c s) : s.Asks bytes alignment ↔
    ¬ pad alignment s.res.head + bytes ≤ s.res.tail - s.res.head := by
  unfold St.Asks
  rw [hi.space, align]
  split
  · exact ⟨nofun, fun h => absurd ‹_› h⟩
  · exact ⟨fun _ => ‹_›, fun _ => rfl⟩

/-- The padding behind a header and the header fit into the round-up of a header. -/
theorem pad_header_le {k : Nat} (hk : k < 64) (hnode : 16 ∣ node) :
    pad (2 ^ k) (node + sizeofNode) + sizeofNode ≤ max 16 (2 ^ k) := by
  have hpos := Nat.two_pow_pos k
  have hn : 16 ∣ node + sizeofNode := Nat.dvd_add hnode (Nat.dvd_refl 16)
  by_cases hk4 : 4 ≤ k
  · have hd : 16 ∣ 2 ^ k := Nat.pow_dvd_pow 2 hk4
    have hpad := pad_le_sub hpos hd hn
    have hle := Nat.le_of_dvd hpos hd
    simp only [sizeofNode] at *
    omega
  · have hd : 2 ^ k ∣ 16 := Nat.pow_dvd_pow 2 (show k ≤ 4 by omega)
    rw [pad_eq_zero (hd.trans hn)]
    simp only [sizeofNode]
    omega

/-- The request for a node leaves room for the padding, however large the alignment. -/
theorem pad_node_le {k : Nat} (hk : k < 64) (hnode : 16 ∣ node) (n : Nat)
    (hsum : roundUp sizeofNode (2 ^ k) + n < 2 ^ 64) :
    nodeSize n (2 ^ k) = max 16 (2 ^ k) + n ∧
      pad (2 ^ k) (node + sizeofNode) + n ≤ nodeSize n (2 ^ k) - sizeofNode := by
  have hsize : nodeSize n (2 ^ k) = max 16 (2 ^ k) + n := by
    rw [nodeSize, sizeT, Nat.mod_eq_of_lt hsum]
    exact congrArg (· + n) (roundUp_sixteen hk)
  have hpad := pad_header_le hk hnode
  omega

/-- A sum that just overflows would be a request of no bytes. -/
theorem Fresh.sum_lt {n : Nat} (hb : Fresh c s ⟨node, nodeSize n alignment⟩)
    (hsum : roundUp sizeofNode alignment + n ≤ 2 ^ 64) :
    roundUp sizeofNode alignment + n < 2 ^ 64 := by
  refine lt_of_le_of_ne hsum fun he => ?_
  have hpos : 0 < nodeSize n alignment := hb.nonempty
  rw [nodeSize, he, sizeT, Nat.mod_self] at hpos
  exact absurd hpos (Nat.lt_irrefl 0)

/-- A node that upstream gives has the piece. -/
theorem allocate_node (hi : Inv c s) {k : Nat} (hk : k < 64) (hpos : 0 < bytes)
    (hask : s.Asks bytes (2 ^ k))
    (hsum : roundUp sizeofNode (2 ^ k) + max s.res.nextSize bytes < 2 ^ 64)
    (hb : Fresh c s ⟨node, nodeSize (max s.res.nextSize bytes) (2 ^ k)⟩) :
    ∃ t, Inv c t ∧ t.res.head = node + sizeofNode ∧ t.results = s.results ∧
      allocate s bytes (2 ^ k) (some node) =
        ((t.setHead (t.res.head + pad (2 ^ k) t.res.head + bytes)).record
          (t.res.head + pad (2 ^ k) t.res.head) bytes,
          some (t.res.head + pad (2 ^ k) t.res.head)) ∧
      t.res.head + pad (2 ^ k) t.res.head + bytes ≤ t.res.tail := by
  have haligned : 16 ∣ node := hb.aligned
  obtain ⟨hsize, hroom⟩ := pad_node_le hk haligned _ hsum
  have hlt : nodeSize (max s.res.nextSize bytes) (2 ^ k) < 2 ^ 64 := Nat.mod_lt _ (by omega)
  have hle : sizeofNode ≤ nodeSize (max s.res.nextSize bytes) (2 ^ k) := by
    rw [hsize]
    simp only [sizeofNode]
    omega
  have hspace := diff_eq hle (by omega)
  have hfit : pad (2 ^ k) (node + sizeofNode) + bytes ≤
      nodeSize (max s.res.nextSize bytes) (2 ^ k) - sizeofNode := by omega
  refine ⟨_, ((hi.setNextSize _).addNode (x := none) hb hle hlt).setNextSize
    (nextBufferSize (max s.res.nextSize bytes)), rfl, rfl, ?_, ?_⟩
  · unfold allocate
    rw [if_neg (by omega), show align _ _ _ _ = none from hask]
    simp only [makeNode, Option.map_some, St.addNode, St.setNextSize, Function.update_self]
    rw [hspace, align, if_pos hfit]
    have htail : node + sizeofNode + pad (2 ^ k) (node + sizeofNode) +
        (nodeSize (max s.res.nextSize bytes) (2 ^ k) - sizeofNode -
          pad (2 ^ k) (node + sizeofNode)) =
        node + nodeSize (max s.res.nextSize bytes) (2 ^ k) := by omega
    simp only [htail]
    rfl
  · change node + sizeofNode + _ + bytes ≤ node + _
    simp only [St.setHead, St.setNextSize]
    omega

theorem Inv.allocate {answer : Option Nat} (hi : Inv c s)
    (hl : Lawful c s (.allocate bytes alignment answer)) :
    Inv c (allocate s bytes alignment answer).1 ∧
      Correct c s (.allocate bytes alignment answer) := by
  obtain ⟨hpos, ⟨k, hk, rfl⟩, hl⟩ := hl
  have hdvd : ∀ ptr, 2 ^ k ∣ ptr + pad (2 ^ k) ptr := fun ptr => dvd_add_pad (Nat.two_pow_pos k)
  by_cases hask : s.Asks bytes (2 ^ k)
  · obtain ⟨hsum, hfresh⟩ := hl hask
    cases answer with
    | none =>
      have he : MonotonicBuffer.allocate s bytes (2 ^ k) none =
          (s.setNextSize (max s.res.nextSize bytes), none) := by
        unfold MonotonicBuffer.allocate
        rw [if_neg (by omega), show align _ _ _ _ = none from hask]
        rfl
      simp only [Correct, he]
      exact ⟨hi.setNextSize _, nofun, fun _ => ⟨hask, trivial⟩⟩
    | some node =>
      obtain ⟨t, ht, hhead, hres, he, hfit⟩ :=
        allocate_node hi hk hpos hask ((hfresh node rfl).sum_lt hsum) (hfresh node rfl)
      simp only [Correct, he]
      refine ⟨ht.place (Nat.le_add_right _ _) hfit, fun p hp => ?_, nofun⟩
      cases hp
      exact ⟨hdvd _, congrArg _ hres⟩
  · have hfit := not_not.mp (fun h => hask ((asks_iff hi).mpr h))
    have hle := hi.head_le
    simp only [Correct, allocate_here hi hpos hfit]
    refine ⟨hi.place (Nat.le_add_right _ _) (by omega), fun p hp => ?_, nofun⟩
    cases hp
    exact ⟨hdvd _, rfl⟩

/-! ## Release -/

theorem freeLoop_eq {mem : Nat → Node} {q : Option Nat} {l : List Nat} {fuel : Nat}
    (h : Chain (fun p => (mem p).next) q l) (hf : l.length ≤ fuel) :
    freeLoop mem fuel q = some (l.map fun p => ⟨p, (mem p).size⟩) := by
  induction l generalizing q fuel with
  | nil =>
    cases h
    cases fuel <;> rfl
  | cons p l ih =>
    cases fuel with
    | zero => exact absurd hf (Nat.not_succ_le_zero _)
    | succ fuel =>
      rw [h.head, freeLoop, ih h.tail (Nat.le_of_succ_le_succ hf)]
      rfl

/-- The loop reads back what was asked of upstream. -/
theorem Inv.calls (hi : Inv c s) :
    freeLoop s.mem s.out.length s.res.freeList = some s.out := by
  rw [freeLoop_eq hi.chain (List.length_map _).le, List.map_map]
  refine congrArg some ((List.map_congr_left fun b hb => ?_).trans (List.map_id _))
  change (⟨b.start, (s.mem b.start).size⟩ : Region) = b
  rw [hi.sizes b hb]

theorem reset_eq (c : Made) : c.reset = c.construct := by
  cases c with
  | size n => rfl
  | buffer b =>
    unfold Made.reset
    split
    · rfl
    · rename_i h
      have h : b.data = 0 := not_not.mp h
      simp [Made.construct, Made.initialSize, h, b.null h, nextBufferSize, sizeT]

theorem diff_self_eq (l : List Region) : l.diff l = [] := by
  induction l with
  | nil => rfl
  | cons a l ih => rw [List.diff_cons, List.erase_cons_head, ih]

theorem Inv.release_eq (hi : Inv c s) : release c s = some (St.init c s.mem, s.out) := by
  unfold release
  rw [hi.calls, reset_eq, Option.map_some, diff_self_eq]
  rfl

theorem Inv.nodup (hi : Inv c s) : s.out.Nodup := by
  refine hi.blocks.imp_of_mem fun {x y} hx hy h => ?_
  have hpos : 0 < sizeofNode := by decide
  exact fun he => h.start_ne (hpos.trans_le (hi.header x hx)) (hpos.trans_le (hi.header y hy))
    (congrArg Region.start he)

theorem Inv.release (hi : Inv c s) : Correct c s .release :=
  ⟨_, _, hi.release_eq, .rfl, hi.nodup, rfl, rfl, rfl⟩

/-! ## What the owners of results write -/

theorem Inv.write (hi : Inv c s) {a : Nat} {mem : Nat → Node} (hr : r ∈ s.results)
    (ha : r.Holds a) :
    Inv c { s with mem := fun p => if InHeader a p then mem p else s.mem p } := by
  have hoff : ∀ b ∈ s.out, ¬ InHeader a b.start := fun b hb hin => by
    have hab : Region.Holds b a := by
      have := hi.header b hb
      exact ⟨hin.1, hin.2.trans_le (Nat.add_le_add_left this _)⟩
    obtain h | ⟨o, ho, h⟩ := hi.owned r hr
    · exact ((hi.buffer b hb).within ⟨Nat.le_refl _, Nat.le_refl _⟩ h).not_holds hab ha
    · by_cases he : b = o
      · exact ha.not_before (he ▸ h) hin.2
      · have hbo : b.Apart o := hi.blocks.forall hb ho he
        exact (hbo.within ⟨Nat.le_refl _, Nat.le_refl _⟩
          (h.trans (Region.drop_within (hi.header o ho)))).not_holds hab ha
  refine ⟨hi.head_le, hi.rest, hi.clear, hi.owned, hi.apart, hi.header, hi.size_lt, hi.buffer,
    hi.blocks, hi.chain.congr fun p hp => ?_, fun b hb => ?_⟩
  · obtain ⟨b, hb, rfl⟩ := List.mem_map.mp hp
    change (if InHeader a b.start then mem b.start else s.mem b.start).next = _
    rw [if_neg (hoff b hb)]
  · change (if InHeader a b.start then mem b.start else s.mem b.start).size = _
    rw [if_neg (hoff b hb)]
    exact hi.sizes b hb

theorem Inv.step {a : Act} {t : St} (hi : Inv c s) (hl : Lawful c s a)
    (h : MonotonicBuffer.step c s a = some t) : Inv c t := by
  cases a with
  | allocate bytes alignment answer =>
    cases h
    exact (hi.allocate hl).1
  | release =>
    rw [MonotonicBuffer.step, hi.release_eq] at h
    cases h
    exact Inv.init c s.mem
  | write a mem =>
    cases h
    obtain ⟨r, hr, ha⟩ := hl
    exact hi.write hr ha

end Steps

/-- Whatever is allocated, released and written, in whatever order. -/
theorem allocates_of_run {c : Made} {mem : Nat → Node} {acts : List Act} {s : St}
    (hm : Meets (step c) (Lawful c) (.init c mem) acts)
    (hr : run (step c) (.init c mem) acts = some s) :
    Serves c s ∧ ∀ a, Lawful c s a → Correct c s a := by
  have hi := run_invariant (P := Inv c) (fun s a t hi hl h => hi.step hl h) (Inv.init c mem) hr hm
  refine ⟨⟨hi.owned, hi.apart⟩, fun a hl => ?_⟩
  cases a with
  | allocate bytes alignment answer => exact (hi.allocate hl).2
  | release => exact hi.release
  | write a mem => trivial

/-- Forty bytes that are not aligned. -/
def smallBuffer : Made := .buffer ⟨1000, 40, by decide, nofun⟩

/-- The second request is aligned to more than a header; its owner writes to it. -/
def padded : List Act :=
  [.allocate 8 16 none, .allocate 100 64 (some 4096), .write 4200 fun _ => ⟨none, 0⟩]

theorem allocates_padded : ∃ s, run (step smallBuffer) (.init smallBuffer fun _ => ⟨none, 0⟩)
      padded = some s ∧ s.results = [⟨4160, 100⟩, ⟨1008, 8⟩] ∧ s.out = [⟨4096, 164⟩] ∧
    Serves smallBuffer s ∧ Correct smallBuffer s .release := by
  have hm : Meets (step smallBuffer) (Lawful smallBuffer) (.init smallBuffer fun _ => ⟨none, 0⟩)
      padded := by
    refine ⟨⟨by decide, ⟨4, by decide, rfl⟩, fun h => absurd h (by decide +kernel)⟩, fun t ht => ?_⟩
    cases ht
    refine ⟨⟨by decide, ⟨6, by decide, rfl⟩, fun _ => ⟨by decide +kernel, fun p hp => ?_⟩⟩,
      fun t ht => ?_⟩
    · cases hp
      exact ⟨by decide, by decide +kernel, by decide, nofun, by decide +kernel⟩
    · cases ht
      exact ⟨⟨⟨4160, 100⟩, by decide +kernel, by decide⟩, fun _ _ => trivial⟩
  obtain ⟨s, hr, he⟩ : ∃ s, run (step smallBuffer) (.init smallBuffer fun _ => ⟨none, 0⟩)
      padded = some s ∧ s.results = [⟨4160, 100⟩, ⟨1008, 8⟩] ∧ s.out = [⟨4096, 164⟩] :=
    ⟨_, rfl, by decide +kernel, by decide +kernel⟩
  obtain ⟨hs, hc⟩ := allocates_of_run hm hr
  exact ⟨s, hr, he.1, he.2, hs, hc .release trivial⟩

end CppIpc.MonotonicBuffer
