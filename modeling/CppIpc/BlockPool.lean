import CppIpc.Lib.Chains
import CppIpc.Lib.Runs
import CppIpc.Lib.Shelves
import Mathlib.Algebra.GroupWithZero.Nat

/-! # `block_pool` over `central_cache_pool`

The free blocks of a pool are chained through the blocks themselves, whose bytes
belong to the user while they are allocated. A pool that is destroyed leaves its chain
in the central cache, in a node of one of two stacks, whose nodes are used again.
Every operation of a pool is one step. Blocks and nodes are numbered in the order in
which the allocator gives them. -/
namespace CppIpc.BlockPool
open CppIpc.Lib.Chains CppIpc.Lib.Shelves
open CppIpc.Lib.Runs (run Meets run_invariant)

/-! ## `central_cache_pool` -/

/-- The blocks, the nodes and the tops of the two stacks. -/
structure Central where
  next : Nat → Option Nat
  carved : Nat
  value : Nat → Option Nat
  link : Nat → Option Nat
  nodes : Nat
  cached : Option Nat
  aqueired : Option Nat

def Central.init : Central := ⟨fun _ => none, 0, fun _ => none, fun _ => none, 0, none, none⟩

/-- A chunk of `E` blocks, each but the last linked to the one behind it. -/
def Central.carve (E : Nat) (c : Central) : Central :=
  { c with
    next := fun b =>
      if c.carved ≤ b ∧ b < c.carved + E then
        if b + 1 < c.carved + E then some (b + 1) else none
      else c.next b
    carved := c.carved + E }

/-- `cached_.pop()` and `aqueired_.push(n)`. -/
def Central.lendNode (c : Central) (n : Nat) : Central :=
  { c with cached := c.link n, link := Function.update c.link n c.aqueired, aqueired := some n }

/-- `aqueire`; `ok` is whether the allocator has memory. Without a default expansion the
central cache only buffers. -/
def Central.aqueire (E : Nat) (ok : Bool) (c : Central) : Option Nat × Central :=
  match c.cached with
  | some n => (c.value n, c.lendNode n)
  | none => if E = 0 ∨ ok = false then (none, c) else (some c.carved, c.carve E)

/-- `a->value = p` and `cached_.push(a)`. -/
def Central.cache (c : Central) (a : Nat) (p : Nat) : Central :=
  { c with
    value := Function.update c.value a (some p)
    link := Function.update c.link a c.cached
    cached := some a }

/-- `aqueired_.pop()` of node `a`. -/
def Central.popNode (c : Central) (a : Nat) : Central := { c with aqueired := c.link a }

/-- A new node. -/
def Central.newNode (c : Central) : Central := { c with nodes := c.nodes + 1 }

/-- `release`. A chain for which there is no node is left. -/
def Central.release (ok : Bool) (p : Option Nat) (c : Central) : Central :=
  match p, c.aqueired with
  | none, _ => c
  | some p, some a => (c.popNode a).cache a p
  | some p, none => if ok then c.newNode.cache c.nodes p else c

/-! ## Pools -/

variable {P : Type}

/-- `cursor p` is none for a pool that does not exist. `user` tells which blocks are
allocated. -/
structure St (P : Type) where
  central : Central
  cursor : P → Option (Option Nat)
  user : Nat → Bool

def St.init (P : Type) : St P := ⟨.init, fun _ => none, fun _ => false⟩

section Ops
variable [DecidableEq P]

def St.setCursor (s : St P) (p : P) (c : Option (Option Nat)) : St P :=
  { s with cursor := Function.update s.cursor p c }

/-- `cursor_ = expand()`. -/
def St.expand (E : Nat) (ok : Bool) (s : St P) (p : P) : St P :=
  let (c, central) := s.central.aqueire E ok
  { s with central := central }.setCursor p (some c)

/-- Block `b` leaves the front of the chain. -/
def St.take (s : St P) (p : P) (b : Nat) : St P :=
  { s with user := Function.update s.user b true }.setCursor p (some (s.central.next b))

/-- `allocate`: the block, null if there is none, and the state. -/
def St.allocate (E : Nat) (ok : Bool) (s : St P) (p : P) : Option Nat × St P :=
  let s := if (s.cursor p).join = none then s.expand E ok p else s
  match (s.cursor p).join with
  | none => (none, s)
  | some b => (some b, s.take p b)

def St.write (s : St P) (b : Nat) (v : Option Nat) : St P :=
  { s with central := { s.central with next := Function.update s.central.next b v } }

/-- `deallocate`. -/
def St.deallocate (s : St P) (p : P) (b : Nat) : St P :=
  { s.write b (s.cursor p).join with user := Function.update s.user b false }.setCursor p
    (some (some b))

inductive Act (P : Type) where
  | create (p : P) (ok : Bool)
  | allocate (p : P) (ok : Bool)
  | deallocate (p : P) (b : Nat)
  /-- The user overwrites an allocated block; `v` is what the bytes mean as a pointer. -/
  | write (b : Nat) (v : Option Nat)
  | move (p q : P)
  | destroy (p : P) (ok : Bool)

def step (E : Nat) (s : St P) : Act P → Option (St P)
  | .create p ok => if s.cursor p = none then some (s.expand E ok p) else none
  | .allocate p ok => if s.cursor p ≠ none then some (s.allocate E ok p).2 else none
  | .deallocate p b =>
    if s.cursor p ≠ none ∧ s.user b = true then some (s.deallocate p b) else none
  | .write b v => if s.user b = true then some (s.write b v) else none
  | .move p q =>
    if s.cursor p ≠ none ∧ s.cursor q = none then
      some ((s.setCursor q (s.cursor p)).setCursor p (some none))
    else none
  | .destroy p ok =>
    match s.cursor p with
    | some c => some ({ s with central := s.central.release ok c }.setCursor p none)
    | none => none

end Ops

/-- A destroyed pool's chain goes to the central cache: a new node for it can be
allocated if one is needed. -/
def Caches (s : St P) : Act P → Prop
  | .destroy _ ok => ok = true ∨ s.central.aqueired ≠ none
  | _ => True

instance (s : St P) : (a : Act P) → Decidable (Caches s a)
  | .destroy _ ok => inferInstanceAs (Decidable (ok = true ∨ s.central.aqueired ≠ none))
  | .create .. | .allocate .. | .deallocate .. | .write .. | .move .. => isTrue trivial

/-! ## Where blocks are -/

/-- The places of a block. -/
inductive At (P : Type) where
  | user
  | pool (p : P)
  | cached (n : Nat)

/-- The nodes of the stack with this top. -/
def OnStack (link : Nat → Option Nat) (top : Option Nat) (n : Nat) : Prop :=
  ∃ ns, Chain link top ns ∧ n ∈ ns

/-- Following the blocks from `c` one meets `b`. -/
def OnChain (next : Nat → Option Nat) (c : Option Nat) (b : Nat) : Prop :=
  ∃ l, Chain next c l ∧ b ∈ l

def St.Holds (s : St P) : At P → Nat → Prop
  | .user, b => s.user b = true
  | .pool p, b => OnChain s.central.next (s.cursor p).join b
  | .cached n, b => OnStack s.central.link s.central.cached n ∧
      OnChain s.central.next (s.central.value n) b

/-- Every block carved so far is in one place, all chains end, and `allocate` returns no
block that is allocated. -/
structure Conserves [DecidableEq P] (E : Nat) (s : St P) : Prop where
  somewhere : ∀ b, b < s.central.carved ↔ ∃ w, s.Holds w b
  once : ∀ b w w', s.Holds w b → s.Holds w' b → w = w'
  pools : ∀ p, ∃ l, Chain s.central.next (s.cursor p).join l
  stack : ∃ ns, Chain s.central.link s.central.cached ns ∧
    ∀ n ∈ ns, ∃ l, Chain s.central.next (s.central.value n) l
  fresh : ∀ ok p b, (s.allocate E ok p).1 = some b → s.user b = false

/-! ## The state as a stock -/

/-- The shelves: the chain of a pool, or the chain in a cached node. -/
inductive Home (P : Type) where
  | pool (p : P)
  | node (n : Nat)
deriving DecidableEq

/-- The two stacks as lists. -/
structure Stacks (c : Central) (cn an : List Nat) : Prop where
  cached : Chain c.link c.cached cn
  aqueired : Chain c.link c.aqueired an
  apart : ∀ n ∈ cn, n ∉ an
  made : ∀ n, n ∈ cn ∨ n ∈ an → n < c.nodes

structure Rep (s : St P) (σ : Stock (Home P) Nat) (cn an : List Nat) : Prop where
  linked : Stacks s.central cn an
  pool : ∀ p, Chain s.central.next (s.cursor p).join (σ.shelf (.pool p))
  node : ∀ n ∈ cn, Chain s.central.next (s.central.value n) (σ.shelf (.node n))
  empty : ∀ n, n ∉ cn → σ.shelf (.node n) = []
  lent : ∀ b, σ.place b = .lent ↔ s.user b = true
  unmade : ∀ b, σ.place b = .unmade ↔ s.central.carved ≤ b

theorem rep_init : Rep (St.init P) (.empty _ _) [] [] where
  linked := ⟨rfl, rfl, nofun, fun _ h => h.elim nofun nofun⟩
  pool _ := rfl
  node := nofun
  empty _ _ := rfl
  lent _ := ⟨nofun, nofun⟩
  unmade b := ⟨fun _ => Nat.zero_le b, fun _ => rfl⟩

section Stacks
variable {c : Central} {cn an : List Nat} {a n : Nat} {p : Nat}

/-- A node goes from the cached ones to the others. -/
theorem Stacks.lendNode (h : Stacks c (n :: cn) an) : Stacks (c.lendNode n) cn (n :: an) where
  cached := h.cached.tail.update (List.nodup_cons.mp h.cached.nodup).1 _
  aqueired := h.aqueired.push (h.apart n List.mem_cons_self)
  apart m hm := by
    have hne : m ≠ n := fun he => (List.nodup_cons.mp h.cached.nodup).1 (he ▸ hm)
    exact fun ha => (List.mem_cons.mp ha).elim hne (h.apart m (List.mem_cons_of_mem _ hm))
  made m hm := by
    rcases hm with hm | hm
    · exact h.made m (.inl (List.mem_cons_of_mem _ hm))
    · rcases List.mem_cons.mp hm with rfl | hm
      · exact h.made m (.inl List.mem_cons_self)
      · exact h.made m (.inr hm)

/-- A node on neither stack is cached. -/
theorem Stacks.cache (h : Stacks c cn an) (hc : a ∉ cn) (ha : a ∉ an) (hm : a < c.nodes) :
    Stacks (c.cache a p) (a :: cn) an where
  cached := h.cached.push hc
  aqueired := h.aqueired.update ha _
  apart m hm := by
    rcases List.mem_cons.mp hm with rfl | hm
    · exact ha
    · exact h.apart m hm
  made m hm' := by
    rcases hm' with hm' | hm'
    · rcases List.mem_cons.mp hm' with rfl | hm'
      · exact hm
      · exact h.made m (.inl hm')
    · exact h.made m (.inr hm')

theorem Stacks.popNode (h : Stacks c cn (a :: an)) : Stacks (c.popNode a) cn an where
  cached := h.cached
  aqueired := h.aqueired.tail
  apart n hn := fun ha => h.apart n hn (List.mem_cons_of_mem _ ha)
  made n hn := h.made n (hn.imp_right (List.mem_cons_of_mem _))

theorem Stacks.newNode (h : Stacks c cn an) : Stacks c.newNode cn an where
  cached := h.cached
  aqueired := h.aqueired
  apart := h.apart
  made n hn := Nat.lt_succ_of_lt (h.made n hn)

theorem carve_next (E : Nat) (c : Central) (b : Nat) : (c.carve E).next b =
    if c.carved ≤ b ∧ b < c.carved + E then
      if b + 1 < c.carved + E then some (b + 1) else none
    else c.next b := rfl

theorem carve_next_of_lt {E : Nat} {b : Nat} (h : b < c.carved) :
    (c.carve E).next b = c.next b := by
  have hn : ¬ (c.carved ≤ b ∧ b < c.carved + E) := by omega
  rw [carve_next, if_neg hn]

/-- The blocks of a chunk are chained in the order of their addresses. -/
theorem chain_carve (E : Nat) (c : Central) (k i : Nat) (h : i + k = E) :
    Chain (c.carve E).next (if k = 0 then none else some (c.carved + i))
      (List.range' (c.carved + i) k) := by
  induction k generalizing i with
  | zero => rfl
  | succ k ih =>
    have hin : c.carved ≤ c.carved + i ∧ c.carved + i < c.carved + E := by omega
    refine ⟨rfl, ?_⟩
    have hnext : (c.carve E).next (c.carved + i) =
        if k = 0 then none else some (c.carved + (i + 1)) := by
      rw [carve_next, if_pos hin]
      split <;> split <;> first | rfl | omega
    rw [hnext]
    exact ih (i + 1) (by omega)

end Stacks

section Steps
variable {E : Nat} {s t : St P} {σ : Stock (Home P) Nat} {cn an : List Nat} {p q : P}
  {b : Nat} {ok : Bool}

/-- Blocks on a shelf have been carved and are not allocated. -/
theorem Rep.of_mem (hr : Rep s σ cn an) {w : Home P} (hb : b ∈ σ.shelf w) :
    b < s.central.carved ∧ s.user b = false := by
  have hp := (σ.mem_iff w b).mp hb
  constructor
  · by_contra hlt
    rw [(hr.unmade b).mpr (Nat.le_of_not_lt hlt)] at hp
    cases hp
  · cases hu : s.user b with
    | false => rfl
    | true =>
      rw [(hr.lent b).mpr hu] at hp
      cases hp

theorem Rep.shelf_of_none (hr : Rep s σ cn an) (hp : (s.cursor p).join = none) :
    σ.shelf (.pool p) = [] := by
  have := hr.pool p
  rw [hp] at this
  exact chain_none.mp this

variable [DecidableEq P]

theorem join_update (f : P → Option (Option Nat)) (p q : P) (c : Option (Option Nat)) :
    (Function.update f p c q).join = if q = p then c.join else (f q).join := by
  rw [Function.update_apply]
  split <;> rfl

/-- The pool takes the chain of a node. -/
theorem Rep.expand_cached {n : Nat} (hr : Rep s σ (n :: cn) an) (hp : (s.cursor p).join = none) :
    Rep ⟨s.central.lendNode n, Function.update s.cursor p (some (s.central.value n)), s.user⟩
      (σ.carry (.node n) (.pool p) nofun (hr.shelf_of_none hp)) cn (n :: an) := by
  have hn : n ∉ cn := (List.nodup_cons.mp hr.linked.cached.nodup).1
  refine ⟨hr.linked.lendNode, fun r => ?_, fun m hm => ?_, fun m hm => ?_,
    fun b => carry_lent.trans (hr.lent b), fun b => carry_unmade.trans (hr.unmade b)⟩
  · change Chain s.central.next (Function.update s.cursor p _ r).join _
    rw [join_update, carry_shelf]
    by_cases hrp : r = p
    · rw [if_pos hrp, if_pos (by rw [hrp])]
      exact hr.node n List.mem_cons_self
    · rw [if_neg hrp, if_neg (by simpa using hrp), if_neg nofun]
      exact hr.pool r
  · have hmn : m ≠ n := fun he => hn (he ▸ hm)
    change Chain s.central.next (s.central.value m) _
    rw [carry_shelf, if_neg nofun, if_neg (by simpa using hmn)]
    exact hr.node m (List.mem_cons_of_mem _ hm)
  · rw [carry_shelf, if_neg nofun]
    split
    · rfl
    · rename_i hmn
      exact hr.empty m (by simpa [hm] using hmn)

/-- The pool takes a new chunk. -/
theorem Rep.expand_carve (hr : Rep s σ cn an) (hp : (s.cursor p).join = none) (hE : E ≠ 0) :
    ∃ σ', Rep ⟨s.central.carve E, Function.update s.cursor p (some (some s.central.carved)),
      s.user⟩ σ' cn an := by
  have hempty := hr.shelf_of_none hp
  have hnew : ∀ b ∈ List.range' s.central.carved E, σ.place b = .unmade := fun b hb =>
    (hr.unmade b).mpr (List.mem_range'_1.mp hb).1
  -- the chains so far lie below the chunk
  have hold : ∀ {w : Home P} {c : Option Nat}, Chain s.central.next c (σ.shelf w) →
      Chain (s.central.carve E).next c (σ.shelf w) := fun h =>
    h.congr fun b hb => carve_next_of_lt (hr.of_mem hb).1
  refine ⟨σ.make (.pool p) (List.range' s.central.carved E) hempty hnew,
    ⟨hr.linked.cached, hr.linked.aqueired, hr.linked.apart, hr.linked.made⟩, fun r => ?_,
    fun m hm => ?_, fun m hm => ?_, fun b => make_lent.trans (hr.lent b), fun b => ?_⟩
  · change Chain (s.central.carve E).next (Function.update s.cursor p _ r).join _
    rw [join_update, Stock.make]
    by_cases hrp : r = p
    · subst hrp
      have := chain_carve E s.central E 0 (by omega)
      rw [if_neg hE] at this
      simpa using this
    · rw [if_neg hrp]
      simpa [hrp] using hold (hr.pool r)
  · change Chain (s.central.carve E).next (s.central.value m) _
    simpa [Stock.make] using hold (hr.node m hm)
  · simpa [Stock.make] using hr.empty m hm
  · rw [make_unmade, hr.unmade, List.mem_range'_1]
    change _ ↔ s.central.carved + E ≤ b
    omega

/-- `cursor_ = expand()`: the chain of a node, a new chunk, or nothing. -/
theorem Rep.expand (hr : Rep s σ cn an) (E : Nat) (ok : Bool) (hp : (s.cursor p).join = none) :
    ∃ σ' cn' an', Rep (s.expand E ok p) σ' cn' an' := by
  unfold St.expand Central.aqueire
  cases hc : s.central.cached with
  | some n =>
    have hcn := hr.linked.cached
    rw [hc] at hcn
    obtain ⟨cn, rfl, -⟩ := chain_some.mp hcn
    exact ⟨_, _, _, hr.expand_cached hp⟩
  | none =>
    dsimp only
    split
    · refine ⟨σ, cn, an, hr.linked, fun r => ?_, hr.node, hr.empty, hr.lent, hr.unmade⟩
      change Chain s.central.next (Function.update s.cursor p _ r).join _
      rw [join_update]
      split
      · rename_i hrp
        rw [hrp, hr.shelf_of_none hp]
        rfl
      · exact hr.pool r
    · rename_i hE
      obtain ⟨σ', hr'⟩ := hr.expand_carve hp fun h0 => hE (.inl h0)
      exact ⟨σ', cn, an, hr'⟩

/-- What a pool does to its own chain. -/
theorem Rep.take (hr : Rep s σ cn an) (hp : (s.cursor p).join = some b) :
    ∃ σ', Rep (s.take p b) σ' cn an ∧ s.user b = false := by
  have hchain := hr.pool p
  rw [hp] at hchain
  obtain ⟨l, hl, htail⟩ := chain_some.mp hchain
  have hb : b ∈ σ.shelf (.pool p) := by rw [hl]; exact List.mem_cons_self
  have hnl : b ∉ l := by
    have := hchain.nodup
    rw [hl] at this
    exact (List.nodup_cons.mp this).1
  refine ⟨σ.lend hl hnl, ⟨hr.linked, fun r => ?_, fun m hm => ?_, fun m hm => ?_, fun c => ?_,
    fun c => ?_⟩, (hr.of_mem hb).2⟩
  · change Chain s.central.next (Function.update s.cursor p _ r).join _
    rw [join_update, Stock.lend]
    by_cases hrp : r = p
    · subst hrp
      simpa using htail
    · rw [if_neg hrp]
      simpa [hrp] using hr.pool r
  · change Chain s.central.next (s.central.value m) _
    simpa [Stock.lend] using hr.node m hm
  · simpa [Stock.lend] using hr.empty m hm
  · change Function.update σ.place b .lent c = _ ↔ Function.update s.user b true c = true
    by_cases hc : c = b
    · simp [hc]
    · simpa [hc] using hr.lent c
  · change Function.update σ.place b .lent c = _ ↔ _
    by_cases hc : c = b
    · have := (hr.of_mem hb).1
      rw [hc, Function.update_self]
      exact ⟨fun h => (by cases h), fun h => absurd h (Nat.not_le_of_lt this)⟩
    · rw [Function.update_of_ne hc]
      exact hr.unmade c

omit [DecidableEq P] in
/-- The bytes of an allocated block are on no chain. -/
theorem Rep.write (hr : Rep s σ cn an) (hb : s.user b = true) (v : Option Nat) :
    Rep (s.write b v) σ cn an := by
  have hoff : ∀ w, b ∉ σ.shelf w := fun w hw => by
    rw [(hr.of_mem hw).2] at hb
    cases hb
  exact ⟨⟨hr.linked.cached, hr.linked.aqueired, hr.linked.apart, hr.linked.made⟩,
    fun p => (hr.pool p).update (hoff _) v, fun n hn => (hr.node n hn).update (hoff _) v, hr.empty,
    hr.lent, hr.unmade⟩

theorem Rep.deallocate (hr : Rep s σ cn an) (hb : s.user b = true) :
    ∃ σ', Rep (s.deallocate p b) σ' cn an := by
  have hoff : ∀ w, b ∉ σ.shelf w := fun w hw => by
    rw [(hr.of_mem hw).2] at hb
    cases hb
  have hr' := hr.write hb (s.cursor p).join
  refine ⟨σ.giveBack (.pool p) ((hr.lent b).mpr hb), hr'.linked, fun r => ?_, fun m hm => ?_,
    fun m hm => ?_, fun c => ?_, fun c => ?_⟩
  · change Chain (s.write b _).central.next (Function.update s.cursor p _ r).join _
    rw [join_update, Stock.giveBack]
    by_cases hrp : r = p
    · subst hrp
      simpa [St.write] using (hr.pool r).push (hoff _)
    · rw [if_neg hrp]
      simpa [St.write, hrp] using hr'.pool r
  · change Chain (s.write b _).central.next ((s.write b _).central.value m) _
    simpa [Stock.giveBack] using hr'.node m hm
  · simpa [Stock.giveBack] using hr.empty m hm
  · change Function.update σ.place b _ c = _ ↔ Function.update s.user b false c = true
    by_cases hc : c = b
    · simp [hc]
    · simpa [hc] using hr.lent c
  · change Function.update σ.place b _ c = _ ↔ s.central.carved ≤ c
    by_cases hc : c = b
    · have hlent := (hr.lent b).mpr hb
      have := hr.unmade b
      rw [hlent] at this
      rw [hc, Function.update_self, ← this]
      exact ⟨fun h => (by cases h), fun h => by cases h⟩
    · rw [Function.update_of_ne hc]
      exact hr.unmade c

theorem Rep.move (hr : Rep s σ cn an) (hp : s.cursor p ≠ none) (hq : s.cursor q = none) :
    ∃ σ', Rep ((s.setCursor q (s.cursor p)).setCursor p (some none)) σ' cn an := by
  have hpq : p ≠ q := fun he => hp (he ▸ hq)
  have hempty := hr.shelf_of_none (p := q) (by rw [hq]; rfl)
  refine ⟨σ.carry (.pool p) (.pool q) (by simpa using hpq) hempty, hr.linked, fun r => ?_,
    fun m hm => ?_, fun m hm => ?_, fun b => carry_lent.trans (hr.lent b),
    fun b => carry_unmade.trans (hr.unmade b)⟩
  · change Chain s.central.next (Function.update (Function.update s.cursor q _) p _ r).join _
    rw [join_update, join_update, carry_shelf]
    by_cases hrp : r = p
    · subst hrp
      rw [if_pos rfl, if_neg (by simpa using hpq), if_pos rfl]
      rfl
    · rw [if_neg hrp]
      by_cases hrq : r = q
      · subst hrq
        rw [if_pos rfl, if_pos rfl]
        exact hr.pool p
      · rw [if_neg hrq, if_neg (by simpa using hrq), if_neg (by simpa using hrp)]
        exact hr.pool r
  · change Chain s.central.next (s.central.value m) _
    rw [carry_shelf, if_neg nofun, if_neg nofun]
    exact hr.node m hm
  · rw [carry_shelf, if_neg nofun, if_neg nofun]
    exact hr.empty m hm

/-- The chain of a pool that ends goes into a node that is on neither stack. -/
theorem Rep.cache {a c : Nat} (hr : Rep s σ cn an) (hp : (s.cursor p).join = some c)
    (hcn : a ∉ cn) (han : a ∉ an) (ha : a < s.central.nodes) :
    Rep ⟨s.central.cache a c, Function.update s.cursor p none, s.user⟩
      (σ.carry (.pool p) (.node a) nofun (hr.empty a hcn)) (a :: cn) an := by
  refine ⟨hr.linked.cache hcn han ha, fun r => ?_, fun m hm => ?_, fun m hm => ?_,
    fun b => carry_lent.trans (hr.lent b), fun b => carry_unmade.trans (hr.unmade b)⟩
  · change Chain s.central.next (Function.update s.cursor p none r).join _
    rw [join_update, carry_shelf]
    by_cases hrp : r = p
    · rw [if_pos hrp, if_neg nofun, if_pos (by rw [hrp])]
      rfl
    · rw [if_neg hrp, if_neg nofun, if_neg (by simpa using hrp)]
      exact hr.pool r
  · change Chain s.central.next (Function.update s.central.value a (some c) m) _
    rw [carry_shelf]
    by_cases hma : m = a
    · subst hma
      rw [Function.update_self, if_pos rfl, ← hp]
      exact hr.pool p
    · rw [Function.update_of_ne hma, if_neg (by simpa using hma), if_neg nofun]
      exact hr.node m ((List.mem_cons.mp hm).resolve_left hma)
  · rw [List.mem_cons, not_or] at hm
    rw [carry_shelf, if_neg (by simpa using hm.1), if_neg nofun]
    exact hr.empty m hm.2

theorem Rep.destroy {c : Option Nat} (hr : Rep s σ cn an) (hp : s.cursor p = some c)
    (hok : ok = true ∨ s.central.aqueired ≠ none) :
    ∃ σ' cn' an', Rep ({ s with central := s.central.release ok c }.setCursor p none)
      σ' cn' an' := by
  have hj : (s.cursor p).join = c := by rw [hp]; rfl
  unfold Central.release
  cases c with
  | none =>
    refine ⟨σ, cn, an, hr.linked, fun r => ?_, hr.node, hr.empty, hr.lent, hr.unmade⟩
    change Chain s.central.next (Function.update s.cursor p none r).join _
    rw [join_update]
    split
    · rename_i hrp
      rw [hrp, hr.shelf_of_none hj]
      rfl
    · exact hr.pool r
  | some c =>
    cases ha : s.central.aqueired with
    | some a =>
      have han := hr.linked.aqueired
      rw [ha] at han
      obtain ⟨an, rfl, -⟩ := chain_some.mp han
      -- the state with the node popped
      have hr' : Rep { s with central := s.central.popNode a } σ cn an :=
        ⟨hr.linked.popNode, hr.pool, hr.node, hr.empty, hr.lent, hr.unmade⟩
      exact ⟨_, _, _, hr'.cache hj (fun h => hr.linked.apart a h List.mem_cons_self)
        (List.nodup_cons.mp hr.linked.aqueired.nodup).1 (hr.linked.made a (.inr List.mem_cons_self))⟩
    | none =>
      obtain rfl := hok.resolve_right fun h => h ha
      have hnew : ∀ l, (l = cn ∨ l = an) → s.central.nodes ∉ l := fun l hl h =>
        Nat.lt_irrefl _ (hr.linked.made _ (by rcases hl with rfl | rfl <;> simp [h]))
      have hr' : Rep { s with central := s.central.newNode } σ cn an :=
        ⟨hr.linked.newNode, hr.pool, hr.node, hr.empty, hr.lent, hr.unmade⟩
      exact ⟨_, _, _, hr'.cache hj (hnew cn (.inl rfl)) (hnew an (.inr rfl)) (Nat.lt_succ_self _)⟩

theorem Rep.allocate (hr : Rep s σ cn an) (E : Nat) (ok : Bool) (p : P) :
    ∃ σ' cn' an', Rep (s.allocate E ok p).2 σ' cn' an' ∧
      ∀ b, (s.allocate E ok p).1 = some b → s.user b = false := by
  obtain ⟨σ₁, cn₁, an₁, hr₁, huser⟩ : ∃ σ' cn' an',
      Rep (if (s.cursor p).join = none then s.expand E ok p else s) σ' cn' an' ∧
      (if (s.cursor p).join = none then s.expand E ok p else s).user = s.user := by
    split
    · rename_i hp
      obtain ⟨σ', cn', an', hr'⟩ := hr.expand E ok hp
      exact ⟨σ', cn', an', hr', rfl⟩
    · exact ⟨σ, cn, an, hr, rfl⟩
  unfold St.allocate
  dsimp only
  generalize (if (s.cursor p).join = none then s.expand E ok p else s) = s₁ at hr₁ huser
  cases hp : (s₁.cursor p).join with
  | none => exact ⟨σ₁, cn₁, an₁, hr₁, nofun⟩
  | some b =>
    obtain ⟨σ', hr', hb⟩ := hr₁.take hp
    refine ⟨σ', cn₁, an₁, hr', fun c hc => ?_⟩
    cases hc
    rw [← huser]
    exact hb

theorem Rep.step {a : Act P} (hr : Rep s σ cn an) (ha : Caches s a)
    (h : BlockPool.step E s a = some t) : ∃ σ' cn' an', Rep t σ' cn' an' := by
  cases a with
  | create p ok =>
    simp only [BlockPool.step] at h
    split at h
    · rename_i hp
      cases h
      exact hr.expand E ok (by rw [hp]; rfl)
    · cases h
  | allocate p ok =>
    simp only [BlockPool.step] at h
    split at h
    · cases h
      obtain ⟨σ', cn', an', hr', -⟩ := hr.allocate E ok p
      exact ⟨σ', cn', an', hr'⟩
    · cases h
  | deallocate p b =>
    simp only [BlockPool.step] at h
    split at h
    · rename_i hb
      cases h
      obtain ⟨σ', hr'⟩ := hr.deallocate (p := p) hb.2
      exact ⟨σ', cn, an, hr'⟩
    · cases h
  | write b v =>
    simp only [BlockPool.step] at h
    split at h
    · rename_i hb
      cases h
      exact ⟨σ, cn, an, hr.write hb v⟩
    · cases h
  | move p q =>
    simp only [BlockPool.step] at h
    split at h
    · rename_i hpq
      cases h
      obtain ⟨σ', hr'⟩ := hr.move hpq.1 hpq.2
      exact ⟨σ', cn, an, hr'⟩
    · cases h
  | destroy p ok =>
    simp only [BlockPool.step] at h
    split at h
    · rename_i c hp
      cases h
      exact hr.destroy hp ha
    · cases h

end Steps

/-! ## Conservation -/

section Runs
variable {E : Nat} {s : St P} {σ : Stock (Home P) Nat} {cn an : List Nat}

theorem onChain_iff {next : Nat → Option Nat} {c : Option Nat} {l : List Nat} (h : Chain next c l)
    (b : Nat) : OnChain next c b ↔ b ∈ l :=
  ⟨fun ⟨_, hm, hb⟩ => h.unique hm ▸ hb, fun hb => ⟨l, h, hb⟩⟩

/-- Where the stock has a block. -/
def At.place : At P → Place (Home P)
  | .user => .lent
  | .pool p => .on (.pool p)
  | .cached n => .on (.node n)

theorem At.place_inj {w w' : At P} (h : w.place = w'.place) : w = w' := by
  cases w <;> cases w' <;> simp_all [At.place]

/-- The memory and the stock agree on where a block is. -/
theorem Rep.holds_iff (hr : Rep s σ cn an) (w : At P) (b : Nat) :
    s.Holds w b ↔ σ.place b = w.place := by
  cases w with
  | user => exact (hr.lent b).symm
  | pool p => exact (onChain_iff (hr.pool p) b).trans (σ.mem_iff _ _)
  | cached n =>
    have hst : OnStack s.central.link s.central.cached n ↔ n ∈ cn :=
      onChain_iff hr.linked.cached n
    rw [At.place, ← σ.mem_iff]
    constructor
    · rintro ⟨hn, hb⟩
      exact (onChain_iff (hr.node n (hst.mp hn)) b).mp hb
    · intro hb
      have hn : n ∈ cn := by
        by_contra hn
        rw [hr.empty n hn] at hb
        cases hb
      exact ⟨hst.mpr hn, (onChain_iff (hr.node n hn) b).mpr hb⟩

theorem Rep.conserves [DecidableEq P] (hr : Rep s σ cn an) : Conserves E s where
  somewhere b := by
    have hmade : b < s.central.carved ↔ σ.place b ≠ .unmade := by
      rw [Ne, hr.unmade]
      exact Nat.not_le.symm
    rw [hmade]
    simp only [hr.holds_iff]
    cases hp : σ.place b with
    | unmade => exact ⟨fun h => absurd rfl h, fun ⟨w, hw⟩ => by cases w <;> cases hw⟩
    | lent => exact ⟨fun _ => ⟨.user, rfl⟩, fun _ => nofun⟩
    | on h =>
      cases h with
      | pool p => exact ⟨fun _ => ⟨.pool p, rfl⟩, fun _ => nofun⟩
      | node n => exact ⟨fun _ => ⟨.cached n, rfl⟩, fun _ => nofun⟩
  once b w w' hw hw' := by
    rw [hr.holds_iff] at hw hw'
    exact At.place_inj (hw.symm.trans hw')
  pools p := ⟨_, hr.pool p⟩
  stack := ⟨cn, hr.linked.cached, fun n hn => ⟨_, hr.node n hn⟩⟩
  fresh ok p b hb := by
    obtain ⟨_, _, _, -, hfree⟩ := hr.allocate E ok p
    exact hfree b hb

/-- Blocks are conserved in every run whose destroyed pools' chains go to the central
cache. -/
theorem conserves_of_run [DecidableEq P] {acts : List (Act P)}
    (h : run (step E) (.init P) acts = some s) (hc : Meets (step E) Caches (.init P) acts) :
    Conserves E s := by
  obtain ⟨σ, cn, an, hr⟩ := run_invariant
    (P := fun s => ∃ σ cn an, Rep s σ cn an)
    (fun _ _ _ ⟨_, _, _, hr⟩ ha h => hr.step ha h) ⟨_, _, _, rep_init⟩ h hc
  exact hr.conserves

-- for the numerals in the runs below
local instance neZero_two : NeZero 2 := ⟨by decide⟩

/-- The chain of a pool goes to another one, short of a block that the user overwrites
and gives back there. -/
def reused : List (Act (Fin 2)) :=
  [.create 0 true, .allocate 0 true, .write 0 (some 7), .destroy 0 true, .create 1 true,
    .allocate 1 true, .allocate 1 true, .deallocate 1 0]

theorem conserves_reused : ∃ s, run (step 3) (.init (Fin 2)) reused = some s ∧
    s.cursor 1 = some (some 0) ∧ s.central.next 0 = none ∧ Conserves 3 s := by
  have hs : ((run (step 3) (.init (Fin 2)) reused).map fun s =>
      (s.cursor 1, s.central.next 0)) = some (some (some 0), none) := by
    decide +kernel
  obtain ⟨s, hr, he⟩ := Option.map_eq_some_iff.mp hs
  obtain ⟨hcursor, hnext⟩ := Prod.mk.inj he
  exact ⟨s, hr, hcursor, hnext, conserves_of_run hr (by decide +kernel)⟩

end Runs

end CppIpc.BlockPool
