import CppIpc.Lib.Places
import CppIpc.Lib.Runs
import CppIpc.Lib.Shelves
import Mathlib.Data.Fintype.Basic

/-! # `central_cache_pool` under concurrency

`aqueire` and `release` with one step for each push or pop of the two stacks, and one
for each read or write of a node's value. A chain of blocks is a number; chains and
nodes are numbered in the order in which the allocator gives them. -/
namespace CppIpc.CentralCache
open CppIpc.Lib.Shelves
open CppIpc.Lib.Runs (run Meets meets_congr)

/-! ## The machine -/

/-- Where a thread stands: in `aqueire` before its pop, before the allocation of a
chunk, before the push of the node, before the read of its value; in `release` before
its pop, before the allocation of a node, before the write, before the push. -/
inductive Pc where
  | idle
  | acqPop
  | acqNew
  | acqPush (n : Nat)
  | acqRead (n : Nat)
  | relPop (p : Nat)
  | relNew (p : Nat)
  | relWrite (a p : Nat)
  | relPush (a : Nat)
deriving DecidableEq

variable {T : Type}

/-- Beside the stacks and the values, the history: `hands` tells who has which chain,
`given` which chains are released and not returned since. -/
structure St (T : Type) where
  cached : List Nat
  aqueired : List Nat
  value : Nat → Option Nat
  nodes : Nat
  chunks : Nat
  pc : T → Pc
  hands : T → Nat → Bool
  given : Nat → Bool

def St.init (T : Type) : St T where
  cached := []
  aqueired := []
  value := fun _ => none
  nodes := 0
  chunks := 0
  pc := fun _ => .idle
  hands := fun _ _ => false
  given := fun _ => false

inductive Act (T : Type) where
  /-- The thread links a chain of its own. All chains of a cache without expansion,
  whose `aqueire` allocates none, are made so. -/
  | make (t : T)
  | aqueire (t : T)
  | release (t : T) (p : Nat)
  /-- The next step of `t`; `ok` is whether the allocator has memory. -/
  | access (t : T) (ok : Bool)
deriving DecidableEq

section Step
variable [DecidableEq T]

def St.goto (s : St T) (t : T) (pc : Pc) : St T := { s with pc := Function.update s.pc t pc }

def St.setHand (s : St T) (t : T) (p : Nat) (b : Bool) : St T :=
  { s with hands := Function.update s.hands t (Function.update (s.hands t) p b) }

def St.setGiven (s : St T) (p : Nat) (b : Bool) : St T :=
  { s with given := Function.update s.given p b }

def St.setStacks (s : St T) (cached aqueired : List Nat) : St T :=
  { s with cached := cached, aqueired := aqueired }

def St.setValue (s : St T) (a p : Nat) : St T :=
  { s with value := Function.update s.value a (some p) }

def St.addChain (s : St T) (t : T) : St T :=
  { s with chunks := s.chunks + 1 }.setHand t s.chunks true

def St.addNode (s : St T) : St T := { s with nodes := s.nodes + 1 }

def step (s : St T) : Act T → Option (St T)
  | .make t => some (s.addChain t)
  | .aqueire t => if s.pc t = .idle then some (s.goto t .acqPop) else none
  | .release t p =>
    if s.pc t = .idle ∧ s.hands t p = true then
      some (((s.setHand t p false).setGiven p true).goto t (.relPop p))
    else none
  | .access t ok =>
    match s.pc t with
    | .idle => none
    | .acqPop =>
      match s.cached with
      | n :: ns => some ((s.setStacks ns s.aqueired).goto t (.acqPush n))
      | [] => some (s.goto t .acqNew)
    | .acqNew =>
      if ok then some ((s.addChain t).goto t .idle) else some (s.goto t .idle)
    | .acqPush n => some ((s.setStacks s.cached (n :: s.aqueired)).goto t (.acqRead n))
    | .acqRead n =>
      match s.value n with
      | some p => some (((s.setHand t p true).setGiven p false).goto t .idle)
      | none => some (s.goto t .idle)
    | .relPop p =>
      match s.aqueired with
      | a :: as => some ((s.setStacks s.cached as).goto t (.relWrite a p))
      | [] => some (s.goto t (.relNew p))
    | .relNew p =>
      if ok then some (s.addNode.goto t (.relWrite s.nodes p))
      -- the chain is left, and nobody is promised anything about it
      else some ((s.setGiven p false).goto t .idle)
    | .relWrite a p => some ((s.setValue a p).goto t (.relPush a))
    | .relPush a => some ((s.setStacks (a :: s.cached) s.aqueired).goto t .idle)

end Step

/-! ## What the cache promises -/

/-- The places of a chain in the cache: a cached node, or a thread on its way. -/
inductive Slot (T : Type) where
  | node (n : Nat)
  | thread (t : T)
deriving DecidableEq

/-- The thread is carrying chain `p` into the cache or out of it. -/
def Pc.Carries (value : Nat → Option Nat) (p : Nat) : Pc → Prop
  | .acqPush n | .acqRead n | .relPush n => value n = some p
  | .relPop q | .relNew q | .relWrite _ q => q = p
  | .idle | .acqPop | .acqNew => False

def St.Has (s : St T) (p : Nat) : Slot T → Prop
  | .node n => n ∈ s.cached ∧ s.value n = some p
  | .thread t => (s.pc t).Carries s.value p

/-- No released chain is dropped; a chain in the cache is in nobody's hands, and no
chain is in the hands of two. -/
structure Correct (s : St T) : Prop where
  kept : ∀ p, s.given p = true → ∃ w, s.Has p w
  apart : ∀ p n, s.Has p (.node n) → ∀ t, s.hands t p = false
  one : ∀ p t u, s.hands t p = true → s.hands u p = true → t = u

/-- The state after the step is correct, and a chain that `aqueire` takes out of a node
has been released and not returned since. -/
def Sound [DecidableEq T] (s : St T) (a : Act T) : Prop :=
  (∀ s', step s a = some s' → Correct s') ∧
  ∀ t ok n p, a = .access t ok → s.pc t = .acqRead n → s.value n = some p → s.given p = true

/-- Where `release` writes the value of a node, no `aqueire` has still to read it. -/
def Settled (s : St T) (a : Act T) : Prop :=
  ∀ t ok n p, a = .access t ok → s.pc t = .relWrite n p → ∀ u, s.pc u ≠ .acqRead n

/-! ## The invariant -/

inductive NodePlace (T : Type) where
  | unmade
  | cached
  | aqueired
  | with (t : T)

/-- The node is on no stack and in this thread's hands. -/
def Pc.Owns (n : Nat) : Pc → Prop
  | .acqPush m | .relWrite m _ | .relPush m => m = n
  | .idle | .acqPop | .acqNew | .acqRead _ | .relPop _ | .relNew _ => False

/-- The chain on its way with the thread is the value of this node. -/
def Pc.Filled (n : Nat) : Pc → Prop
  | .acqPush m | .acqRead m | .relPush m => m = n
  | .idle | .acqPop | .acqNew | .relPop _ | .relNew _ | .relWrite .. => False

/-- Every node has one place. -/
structure Nodes (s : St T) (node : Nat → NodePlace T) : Prop where
  cached_nodup : s.cached.Nodup
  aqueired_nodup : s.aqueired.Nodup
  cached : ∀ n, n ∈ s.cached ↔ node n = .cached
  aqueired : ∀ n, n ∈ s.aqueired ↔ node n = .aqueired
  owns : ∀ t n, (s.pc t).Owns n ↔ node n = .with t
  unmade : ∀ n, node n = .unmade ↔ s.nodes ≤ n

/-- Every chain has one place. -/
structure Chains (s : St T) (place : Nat → Place (Slot T)) : Prop where
  cached : ∀ n ∈ s.cached, s.value n ≠ none
  filled : ∀ t n, (s.pc t).Filled n → s.value n ≠ none
  has : ∀ p w, s.Has p w ↔ place p = .on w
  given : ∀ p, s.given p = true ↔ ∃ w, place p = .on w
  hands : ∀ t p, s.hands t p = true → place p = .lent
  one : ∀ p t u, s.hands t p = true → s.hands u p = true → t = u
  made : ∀ p, place p = .unmade ↔ s.chunks ≤ p

def Inv (s : St T) : Prop := ∃ node place, Nodes s node ∧ Chains s place

theorem Inv.init : Inv (St.init T) := by
  refine ⟨fun _ => .unmade, fun _ => .unmade, ⟨List.nodup_nil, List.nodup_nil,
    fun _ => ⟨nofun, nofun⟩, fun _ => ⟨nofun, nofun⟩, fun _ _ => ⟨False.elim, nofun⟩,
    fun n => ⟨fun _ => Nat.zero_le n, fun _ => rfl⟩⟩, nofun, fun _ _ h => h.elim,
    fun _ w => ⟨fun h => ?_, nofun⟩, fun _ => ⟨nofun, fun ⟨_, h⟩ => nomatch h⟩, nofun, nofun,
    fun p => ⟨fun _ => Nat.zero_le p, fun _ => rfl⟩⟩
  cases w with
  | node n => exact nomatch h.1
  | thread t => exact False.elim h

section Steps
variable {s s' : St T} {node : Nat → NodePlace T} {place : Nat → Place (Slot T)} {t u : T}
  {n a p : Nat} {pc : Pc}

theorem Chains.correct (h : Chains s place) : Correct s where
  kept p hp := by
    obtain ⟨w, hw⟩ := (h.given p).mp hp
    exact ⟨w, (h.has p w).mpr hw⟩
  apart p n hn t := by
    cases ht : s.hands t p with
    | false => rfl
    | true =>
      have := (h.has p _).mp hn
      rw [h.hands t p ht] at this
      cases this
  one := h.one

variable [DecidableEq T]

theorem goto_pc_of_ne (h : u ≠ t) : (s.goto t pc).pc u = s.pc u := Function.update_of_ne h ..
@[simp] theorem goto_pc_self : (s.goto t pc).pc t = pc := Function.update_self ..

omit [DecidableEq T] in
theorem Nodes.off_cached (h : Nodes s node) (hne : node n ≠ .cached) : n ∉ s.cached :=
  fun hm => hne ((h.cached n).mp hm)

omit [DecidableEq T] in
theorem Nodes.off_aqueired (h : Nodes s node) (hne : node n ≠ .aqueired) : n ∉ s.aqueired :=
  fun hm => hne ((h.aqueired n).mp hm)

omit [DecidableEq T] in
theorem Nodes.made (h : Nodes s node) (hne : node n ≠ .unmade) : ¬ s.nodes ≤ n :=
  fun hm => hne ((h.unmade n).mpr hm)

/-- Node `n` moves to place `y`, and thread `t` with it. -/
theorem Nodes.move {y : NodePlace T} (h : Nodes s node) (hpc : ∀ u, u ≠ t → s'.pc u = s.pc u)
    (hcn : s'.cached.Nodup) (han : s'.aqueired.Nodup)
    (hc : ∀ m, m ≠ n → (m ∈ s'.cached ↔ m ∈ s.cached)) (hyc : n ∈ s'.cached ↔ y = .cached)
    (ha : ∀ m, m ≠ n → (m ∈ s'.aqueired ↔ m ∈ s.aqueired)) (hya : n ∈ s'.aqueired ↔ y = .aqueired)
    (ho : ∀ m, m ≠ n → ((s'.pc t).Owns m ↔ (s.pc t).Owns m)) (hyo : (s'.pc t).Owns n ↔ y = .with t)
    (hfrom : ∀ u, u ≠ t → node n ≠ .with u) (hto : ∀ u, u ≠ t → y ≠ .with u)
    (hm : ∀ m, m ≠ n → (s'.nodes ≤ m ↔ s.nodes ≤ m)) (hym : ¬ s'.nodes ≤ n)
    (hy : y ≠ .unmade) : Nodes s' (Function.update node n y) where
  cached_nodup := hcn
  aqueired_nodup := han
  cached m := by
    by_cases he : m = n
    · rw [he, Function.update_self]
      exact hyc
    · rw [Function.update_of_ne he, hc m he]
      exact h.cached m
  aqueired m := by
    by_cases he : m = n
    · rw [he, Function.update_self]
      exact hya
    · rw [Function.update_of_ne he, ha m he]
      exact h.aqueired m
  owns u m := by
    by_cases he : m = n
    · rw [he, Function.update_self]
      by_cases hu : u = t
      · rw [hu]
        exact hyo
      · rw [hpc u hu, h.owns]
        exact ⟨fun hu' => absurd hu' (hfrom u hu), fun hu' => absurd hu' (hto u hu)⟩
    · rw [Function.update_of_ne he, ← h.owns]
      by_cases hu : u = t
      · rw [hu]
        exact ho m he
      · rw [hpc u hu]
  unmade m := by
    by_cases he : m = n
    · rw [he, Function.update_self]
      exact ⟨fun h => absurd h hy, fun h => absurd h hym⟩
    · rw [Function.update_of_ne he, hm m he]
      exact h.unmade m

/-- Thread `t`, who has no node, takes node `n`. -/
theorem Nodes.take (h : Nodes s node) (hpc : ∀ u, u ≠ t → s'.pc u = s.pc u)
    (hnone : ∀ m, ¬ (s.pc t).Owns m) (hown : ∀ m, (s'.pc t).Owns m ↔ n = m)
    (hfree : ∀ u, node n ≠ .with u) (hcn : s'.cached.Nodup) (han : s'.aqueired.Nodup)
    (hc : ∀ m, m ≠ n → (m ∈ s'.cached ↔ m ∈ s.cached)) (hnc : n ∉ s'.cached)
    (ha : ∀ m, m ≠ n → (m ∈ s'.aqueired ↔ m ∈ s.aqueired)) (hna : n ∉ s'.aqueired)
    (hm : ∀ m, m ≠ n → (s'.nodes ≤ m ↔ s.nodes ≤ m)) (hmade : ¬ s'.nodes ≤ n) :
    Nodes s' (Function.update node n (.with t)) :=
  h.move hpc hcn han hc ⟨fun h => absurd h hnc, nofun⟩ ha ⟨fun h => absurd h hna, nofun⟩
    (fun m hne => ⟨fun h => absurd ((hown m).mp h).symm hne, fun h => absurd h (hnone m)⟩)
    ⟨fun _ => rfl, fun _ => (hown n).mpr rfl⟩ (fun u _ => hfree u)
    (fun _ hu h => hu (NodePlace.with.inj h).symm) hm hmade nofun

/-- Thread `t` puts its node `n` on one of the stacks. -/
theorem Nodes.put {y : NodePlace T} (h : Nodes s node) (hpc : ∀ u, u ≠ t → s'.pc u = s.pc u)
    (hat : node n = .with t) (hnone : ∀ m, ¬ (s'.pc t).Owns m) (hown : ∀ m, (s.pc t).Owns m ↔ n = m)
    (hcn : s'.cached.Nodup) (han : s'.aqueired.Nodup)
    (hc : ∀ m, m ≠ n → (m ∈ s'.cached ↔ m ∈ s.cached)) (hyc : n ∈ s'.cached ↔ y = .cached)
    (ha : ∀ m, m ≠ n → (m ∈ s'.aqueired ↔ m ∈ s.aqueired)) (hya : n ∈ s'.aqueired ↔ y = .aqueired)
    (hm : s'.nodes = s.nodes) (hwith : ∀ u, y ≠ .with u) (hy : y ≠ .unmade) :
    Nodes s' (Function.update node n y) :=
  h.move hpc hcn han hc hyc ha hya
    (fun m hne => ⟨fun h => absurd h (hnone m), fun h => absurd ((hown m).mp h).symm hne⟩)
    ⟨fun h => absurd h (hnone n), fun h => absurd h (hwith t)⟩
    (fun u hu h => hu (NodePlace.with.inj (hat.symm.trans h)).symm) (fun u _ => hwith u)
    (fun m _ => by rw [hm]) (by rw [hm]; exact h.made (by rw [hat]; nofun)) hy

/-- Nobody takes or puts a node. -/
theorem Nodes.same (h : Nodes s node) (hpc : ∀ u, u ≠ t → s'.pc u = s.pc u)
    (hc : s'.cached = s.cached) (ha : s'.aqueired = s.aqueired)
    (ho : ∀ m, (s'.pc t).Owns m ↔ (s.pc t).Owns m) (hnodes : s'.nodes = s.nodes) :
    Nodes s' node where
  cached_nodup := hc ▸ h.cached_nodup
  aqueired_nodup := ha ▸ h.aqueired_nodup
  cached := hc ▸ h.cached
  aqueired := ha ▸ h.aqueired
  owns u m := by
    by_cases hu : u = t
    · rw [hu, ho, h.owns]
    · rw [hpc u hu, h.owns]
  unmade := hnodes ▸ h.unmade

omit [DecidableEq T] in
/-- No chain moves. -/
theorem Chains.same (h : Chains s place) (hc : ∀ n ∈ s'.cached, s'.value n ≠ none)
    (hf : ∀ t n, (s'.pc t).Filled n → s'.value n ≠ none)
    (hhas : ∀ p w, s'.Has p w ↔ s.Has p w) (hg : s'.given = s.given) (hh : s'.hands = s.hands)
    (hm : s'.chunks = s.chunks) : Chains s' place where
  cached := hc
  filled := hf
  has p w := (hhas p w).trans (h.has p w)
  given := hg ▸ h.given
  hands := hh ▸ h.hands
  one := hh ▸ h.one
  made := hm ▸ h.made

/-- What slot `w` had, slot `v` has now. -/
theorem Chains.carry {w v : Slot T} (h : Chains s place)
    (hc : ∀ n ∈ s'.cached, s'.value n ≠ none) (hf : ∀ t n, (s'.pc t).Filled n → s'.value n ≠ none)
    (hne : w ≠ v) (hempty : ∀ p, ¬ s.Has p v) (hv : ∀ p, s'.Has p v ↔ s.Has p w)
    (hw : ∀ p, ¬ s'.Has p w) (hhas : ∀ p u, u ≠ w → u ≠ v → (s'.Has p u ↔ s.Has p u))
    (hg : s'.given = s.given) (hh : s'.hands = s.hands) (hm : s'.chunks = s.chunks) :
    Chains s' (fun p => (place p).carry w v) := by
  have hon : ∀ p u, s'.Has p u ↔ (place p).carry w v = .on u := fun p u => by
    have hpv : place p ≠ .on v := fun he => hempty p ((h.has p v).mpr he)
    by_cases huv : u = v
    · subst huv
      rw [hv, Place.carry_target hpv, h.has]
    · by_cases huw : u = w
      · subst huw
        exact ⟨fun hp => absurd hp (hw p), fun he => absurd he (Place.carry_source hne)⟩
      · rw [hhas p u huw huv, Place.carry_other huw huv, h.has]
  refine ⟨hc, hf, hon, fun p => ?_, fun t p ht => ?_, hh ▸ h.one, fun p => ?_⟩
  · rw [hg, h.given]
    constructor
    · rintro ⟨u, hu⟩
      by_cases huw : u = w
      · subst huw
        exact ⟨v, by rw [hu, Place.carry, if_pos rfl]⟩
      · exact ⟨u, by rw [hu, Place.carry, if_neg (fun he => huw (Place.on.inj he))]⟩
    · rintro ⟨u, hu⟩
      unfold Place.carry at hu
      split at hu
      · rename_i hp
        exact ⟨w, hp⟩
      · exact ⟨u, hu⟩
  · rw [hh] at ht
    exact Place.carry_lent.mpr (h.hands t p ht)
  · rw [hm, Place.carry_unmade]
    exact h.made p

omit [DecidableEq T] in
/-- Chain `p` goes to place `x`; only `t` may have it in hand. -/
theorem Chains.set {x : Place (Slot T)} (h : Chains s place)
    (hc : ∀ n ∈ s'.cached, s'.value n ≠ none) (hf : ∀ t n, (s'.pc t).Filled n → s'.value n ≠ none)
    (hw : ∀ q, q ≠ p → ∀ w, s'.Has q w ↔ s.Has q w) (hxw : ∀ w, s'.Has p w ↔ x = .on w)
    (hg : ∀ q, q ≠ p → s'.given q = s.given q) (hxg : s'.given p = true ↔ ∃ w, x = .on w)
    (hh : ∀ q, q ≠ p → ∀ u, s'.hands u q = s.hands u q)
    (hxh : ∀ u, s'.hands u p = true → u = t ∧ x = .lent)
    (hm : ∀ q, q ≠ p → (s'.chunks ≤ q ↔ s.chunks ≤ q)) (hxm : ¬ s'.chunks ≤ p)
    (hx : x ≠ .unmade) : Chains s' (Function.update place p x) where
  cached := hc
  filled := hf
  has q w := by
    by_cases hq : q = p
    · rw [hq, Function.update_self]
      exact hxw w
    · rw [Function.update_of_ne hq, hw q hq]
      exact h.has q w
  given q := by
    by_cases hq : q = p
    · rw [hq, Function.update_self]
      exact hxg
    · rw [Function.update_of_ne hq, hg q hq]
      exact h.given q
  hands u q hu := by
    by_cases hq : q = p
    · rw [hq, Function.update_self]
      exact (hxh u (hq ▸ hu)).2
    · rw [Function.update_of_ne hq]
      exact h.hands u q (hh q hq u ▸ hu)
  one q u v hu hv := by
    by_cases hq : q = p
    · rw [(hxh u (hq ▸ hu)).1, (hxh v (hq ▸ hv)).1]
    · exact h.one q u v (hh q hq u ▸ hu) (hh q hq v ▸ hv)
  made q := by
    by_cases hq : q = p
    · rw [hq, Function.update_self]
      exact ⟨fun h => absurd h hx, fun h => absurd h hxm⟩
    · rw [Function.update_of_ne hq, hm q hq]
      exact h.made q

theorem has_goto (hu : u ≠ t) : (s.goto t pc).Has p (.thread u) ↔ s.Has p (.thread u) := by
  change ((s.goto t pc).pc u).Carries s.value p ↔ _
  rw [goto_pc_of_ne hu]
  rfl

theorem has_goto_self : (s.goto t pc).Has p (.thread t) ↔ pc.Carries s.value p := by
  change ((s.goto t pc).pc t).Carries s.value p ↔ _
  rw [goto_pc_self]

/-- Nothing is carried elsewhere where the thread carries what it carried. -/
theorem has_goto_same {w : Slot T} (hc : pc.Carries s.value p ↔ (s.pc t).Carries s.value p) :
    (s.goto t pc).Has p w ↔ s.Has p w := by
  cases w with
  | node n => rfl
  | thread u =>
    by_cases hu : u = t
    · rw [hu, has_goto_self]
      exact hc
    · exact has_goto hu

theorem filled_goto (hf : ∀ u n, (s.pc u).Filled n → s.value n ≠ none)
    (ht : ∀ n, pc.Filled n → s.value n ≠ none) :
    ∀ u n, ((s.goto t pc).pc u).Filled n → (s.goto t pc).value n ≠ none := fun u n h => by
  by_cases hu : u = t
  · subst hu
    rw [goto_pc_self] at h
    exact ht n h
  · rw [goto_pc_of_ne hu] at h
    exact hf u n h

/-! ## What a step does to them -/

/-- A thread moves on, with the same node and the same chain in hand. -/
theorem Inv.goto (hi : Inv s) (ho : ∀ n, pc.Owns n ↔ (s.pc t).Owns n)
    (hf : ∀ n, pc.Filled n → (s.pc t).Filled n)
    (hc : ∀ p, pc.Carries s.value p ↔ (s.pc t).Carries s.value p) : Inv (s.goto t pc) := by
  obtain ⟨node, place, hn, hp⟩ := hi
  refine ⟨node, place, hn.same (fun u hu => goto_pc_of_ne hu) rfl rfl ?_ rfl,
    hp.same hp.cached (filled_goto hp.filled fun n h => hp.filled t n (hf n h))
      (fun p w => has_goto_same (hc p)) rfl rfl rfl⟩
  rw [goto_pc_self]
  exact ho

omit [DecidableEq T] in
/-- What is known of a chain that lies on no slot. -/
theorem Chains.off (h : Chains s place) (hp : ∀ w, place p ≠ .on w) :
    (∀ w, ¬ s.Has p w) ∧ s.given p = false := by
  refine ⟨fun w hw => hp w ((h.has p w).mp hw), ?_⟩
  cases hg : s.given p with
  | false => rfl
  | true =>
    obtain ⟨w, hw⟩ := (h.given p).mp hg
    exact absurd hw (hp w)

theorem Inv.addChain (hi : Inv s) : Inv (s.addChain t) := by
  obtain ⟨node, place, hn, hp⟩ := hi
  have hun : place s.chunks = .unmade := (hp.made _).mpr (Nat.le_refl _)
  obtain ⟨hhas, hgiven⟩ := hp.off (p := s.chunks) fun w h => nomatch hun.symm.trans h
  refine ⟨node, _, ⟨hn.1, hn.2, hn.3, hn.4, hn.5, hn.6⟩,
    hp.set (t := t) (p := s.chunks) (x := .lent) hp.cached hp.filled (fun q _ w => .rfl)
      (fun w => ⟨fun h => absurd h (hhas w), nofun⟩) (fun q _ => rfl) ?_ (fun q hq u => ?_)
      (fun u hu => ?_) (fun q hq => ?_) (Nat.not_succ_le_self _) nofun⟩
  · change s.given s.chunks = true ↔ _
    rw [hgiven]
    exact ⟨nofun, fun ⟨_, h⟩ => nomatch h⟩
  · by_cases hu : u = t
    · subst hu
      simp [St.addChain, St.setHand, hq]
    · simp [St.addChain, St.setHand, hu]
  · by_cases hut : u = t
    · exact ⟨hut, rfl⟩
    · have hu : s.hands u s.chunks = true := by simpa [St.addChain, St.setHand, hut] using hu
      rw [hp.hands u _ hu] at hun
      cases hun
  · change s.chunks + 1 ≤ q ↔ _
    omega

theorem Inv.acqPop (hi : Inv s) (hpc : s.pc t = .acqPop) {ns : List Nat}
    (hs : s.cached = n :: ns) : Inv ((s.setStacks ns s.aqueired).goto t (.acqPush n)) := by
  obtain ⟨node, place, hn, hp⟩ := hi
  have hnd := List.nodup_cons.mp (hs ▸ hn.cached_nodup)
  have hmem : n ∈ s.cached := by rw [hs]; exact List.mem_cons_self
  have hat := (hn.cached n).mp hmem
  have hval := hp.cached n hmem
  have hns : ∀ m, m ≠ n → (m ∈ ns ↔ m ∈ s.cached) := fun m hm => by
    rw [hs, List.mem_cons]
    exact ⟨.inr, fun h => h.resolve_left hm⟩
  have hsub : ∀ m, m ∈ ns → m ∈ s.cached := fun m hm =>
    (hns m fun he => hnd.1 (he ▸ hm)).mp hm
  have hoff : n ∉ s.aqueired := hn.off_aqueired (by rw [hat]; nofun)
  have hnodes : Nodes ((s.setStacks ns s.aqueired).goto t (.acqPush n)) _ := hn.take
    (fun u hu => goto_pc_of_ne hu) (fun m h => by rw [hpc] at h; exact h)
    (fun m => by rw [goto_pc_self]; exact .rfl) (fun u => by rw [hat]; nofun) hnd.2
    hn.aqueired_nodup hns hnd.1 (fun m _ => .rfl) hoff (fun m _ => .rfl)
    (hn.made (by rw [hat]; nofun))
  refine ⟨_, _, hnodes, hp.carry (w := .node n) (v := .thread t)
    (fun m hm => hp.cached m (hsub m hm))
    (filled_goto hp.filled fun m hm => by cases hm; exact hval) nofun (fun p => ?_) (fun p => ?_)
    (fun p h => hnd.1 h.1) (fun p w hw hv => ?_) rfl rfl rfl⟩
  · change ¬ (s.pc t).Carries s.value p
    rw [hpc]
    exact id
  · rw [has_goto_self]
    exact ⟨fun h => ⟨hmem, h⟩, And.right⟩
  · cases w with
    | node m => exact and_congr_left fun _ => hns m fun he => hw (he ▸ rfl)
    | thread u => exact has_goto fun he => hv (he ▸ rfl)

theorem Inv.acqPush (hi : Inv s) (hpc : s.pc t = .acqPush n) :
    Inv ((s.setStacks s.cached (n :: s.aqueired)).goto t (.acqRead n)) := by
  obtain ⟨node, place, hn, hp⟩ := hi
  have hat : node n = .with t := (hn.owns t n).mp (by rw [hpc]; rfl)
  have hc : n ∉ s.cached := hn.off_cached (by rw [hat]; nofun)
  have ha : n ∉ s.aqueired := hn.off_aqueired (by rw [hat]; nofun)
  have hnodes : Nodes ((s.setStacks s.cached (n :: s.aqueired)).goto t (.acqRead n)) _ :=
    hn.put (y := .aqueired) (fun u hu => goto_pc_of_ne hu) hat
      (fun m h => by rwa [goto_pc_self] at h) (fun m => by rw [hpc]; exact .rfl) hn.cached_nodup
      (List.nodup_cons.mpr ⟨ha, hn.aqueired_nodup⟩) (fun m _ => .rfl)
      ⟨fun h => absurd h hc, nofun⟩ (fun m hm => by simp [St.goto, St.setStacks, hm])
      ⟨fun _ => rfl, fun _ => List.mem_cons_self⟩ rfl nofun nofun
  refine ⟨_, place, hnodes,
    hp.same hp.cached (filled_goto hp.filled fun m hm => ?_) (fun p w => ?_) rfl rfl rfl⟩
  · exact hp.filled t m (by rw [hpc]; exact hm)
  · refine has_goto_same (s := s.setStacks s.cached (n :: s.aqueired)) ?_
    change _ ↔ (s.pc t).Carries s.value p
    rw [hpc]
    exact .rfl

/-- A thread leaves the cache with chain `p`, or leaves the chain. -/
theorem Inv.leave (hi : Inv s) (ho : ∀ n, ¬ (s.pc t).Owns n)
    (hc : ∀ q, (s.pc t).Carries s.value q ↔ q = p) (hands : T → Nat → Bool)
    (hh : ∀ u q, (u = t ∧ q = p) ∨ hands u q = s.hands u q) :
    Inv (({ s with hands := hands }.setGiven p false).goto t .idle) := by
  obtain ⟨node, place, hn, hp⟩ := hi
  have hat : place p = .on (.thread t) := (hp.has p _).mp ((hc p).mpr rfl)
  refine ⟨node, _, hn.same (t := t) (fun u hu => goto_pc_of_ne hu) rfl rfl (fun m => ?_) rfl,
    hp.set (t := t) (p := p) (x := .lent) hp.cached (filled_goto hp.filled fun _ => False.elim)
      (fun q hq w => ?_) (fun w => ⟨fun h => ?_, nofun⟩) (fun q hq => Function.update_of_ne hq ..)
      ⟨fun h => ?_, fun ⟨_, h⟩ => nomatch h⟩ (fun q hq u => (hh u q).resolve_left fun h => hq h.2)
      (fun u hu => ⟨?_, rfl⟩) (fun q _ => .rfl) (fun h => ?_) nofun⟩
  · rw [goto_pc_self]
    exact ⟨False.elim, fun h => ho m h⟩
  · refine has_goto_same (s := { s with hands := hands }.setGiven p false) ?_
    exact ⟨False.elim, fun h => hq ((hc q).mp h)⟩
  · cases w with
    | node m =>
      have := (hp.has p (.node m)).mp h
      rw [hat] at this
      cases this
    | thread u =>
      by_cases hu : u = t
      · rw [hu, has_goto_self] at h
        exact h.elim
      · have := (hp.has p (.thread u)).mp ((has_goto hu).mp h)
        rw [hat] at this
        exact absurd (Slot.thread.inj (Place.on.inj this)).symm hu
  · have : Function.update s.given p false p = true := h
    rw [Function.update_self] at this
    cases this
  · by_contra hne
    have hu : s.hands u p = true := ((hh u p).resolve_left fun h => hne h.1) ▸ hu
    rw [hp.hands u p hu] at hat
    cases hat
  · rw [(hp.made p).mpr h] at hat
    cases hat

theorem Inv.release (hi : Inv s) (hpc : s.pc t = .idle) (hand : s.hands t p = true) :
    Inv (((s.setHand t p false).setGiven p true).goto t (.relPop p)) := by
  obtain ⟨node, place, hn, hp⟩ := hi
  have hat := hp.hands t p hand
  obtain ⟨hoff, -⟩ := hp.off (p := p) fun w h => nomatch hat.symm.trans h
  refine ⟨node, _, hn.same (t := t) (fun u hu => goto_pc_of_ne hu) rfl rfl (fun m => ?_) rfl,
    hp.set (t := t) (p := p) (x := .on (.thread t)) hp.cached
      (filled_goto hp.filled fun _ => False.elim) (fun q hq w => ?_) (fun w => ?_)
      (fun q hq => Function.update_of_ne hq ..)
      ⟨fun _ => ⟨_, rfl⟩, fun _ => Function.update_self ..⟩ (fun q hq u => ?_)
      (fun u hu => ?_) (fun q _ => .rfl) (fun h => ?_) nofun⟩
  · rw [goto_pc_self, hpc]
    exact .rfl
  · refine has_goto_same (s := (s.setHand t p false).setGiven p true) ?_
    change p = q ↔ (s.pc t).Carries s.value q
    rw [hpc]
    exact ⟨fun h => absurd h.symm hq, False.elim⟩
  · cases w with
    | node m => exact ⟨fun h => absurd h (hoff (.node m)), nofun⟩
    | thread u =>
      by_cases hu : u = t
      · rw [hu, has_goto_self]
        exact ⟨fun _ => rfl, fun _ => rfl⟩
      · rw [has_goto hu]
        exact ⟨fun h => absurd h (hoff (.thread u)),
          fun h => absurd (Slot.thread.inj (Place.on.inj h)).symm hu⟩
  · by_cases hu : u = t
    · subst hu
      simp [St.goto, St.setGiven, St.setHand, hq]
    · simp [St.goto, St.setGiven, St.setHand, hu]
  · by_cases hut : u = t
    · subst hut
      simp [St.goto, St.setGiven, St.setHand] at hu
    · have hu : s.hands u p = true := by simpa [St.goto, St.setGiven, St.setHand, hut] using hu
      exact absurd (hp.one p u t hu hand) hut
  · rw [(hp.made p).mpr h] at hat
    cases hat

theorem Inv.relPop (hi : Inv s) (hpc : s.pc t = .relPop p) {as : List Nat}
    (hs : s.aqueired = a :: as) : Inv ((s.setStacks s.cached as).goto t (.relWrite a p)) := by
  obtain ⟨node, place, hn, hp⟩ := hi
  have hnd := List.nodup_cons.mp (hs ▸ hn.aqueired_nodup)
  have hat := (hn.aqueired a).mp (by rw [hs]; exact List.mem_cons_self)
  have has : ∀ m, m ≠ a → (m ∈ as ↔ m ∈ s.aqueired) := fun m hm => by
    rw [hs, List.mem_cons]
    exact ⟨.inr, fun h => h.resolve_left hm⟩
  have hoff : a ∉ s.cached := hn.off_cached (by rw [hat]; nofun)
  have hnodes : Nodes ((s.setStacks s.cached as).goto t (.relWrite a p)) _ := hn.take
    (fun u hu => goto_pc_of_ne hu) (fun m h => by rw [hpc] at h; exact h)
    (fun m => by rw [goto_pc_self]; exact .rfl) (fun u => by rw [hat]; nofun) hn.cached_nodup
    hnd.2 (fun m _ => .rfl) hoff has hnd.1 (fun m _ => .rfl) (hn.made (by rw [hat]; nofun))
  refine ⟨_, place, hnodes,
    hp.same hp.cached (filled_goto hp.filled fun _ => False.elim) (fun q w => ?_) rfl rfl rfl⟩
  refine has_goto_same (s := s.setStacks s.cached as) ?_
  change _ ↔ (s.pc t).Carries s.value q
  rw [hpc]
  exact .rfl

theorem Inv.relNew (hi : Inv s) (hpc : s.pc t = .relNew p) :
    Inv (s.addNode.goto t (.relWrite s.nodes p)) := by
  obtain ⟨node, place, hn, hp⟩ := hi
  have hat : node s.nodes = .unmade := (hn.unmade _).mpr (Nat.le_refl _)
  have hc : s.nodes ∉ s.cached := hn.off_cached (by rw [hat]; nofun)
  have ha : s.nodes ∉ s.aqueired := hn.off_aqueired (by rw [hat]; nofun)
  have hnodes : Nodes (s.addNode.goto t (.relWrite s.nodes p)) _ := hn.take
    (fun u hu => goto_pc_of_ne hu) (fun m h => by rw [hpc] at h; exact h)
    (fun m => by rw [goto_pc_self]; exact .rfl) (fun u => by rw [hat]; nofun) hn.cached_nodup
    hn.aqueired_nodup (fun m _ => .rfl) hc (fun m _ => .rfl) ha (fun m hm => ?_)
    (Nat.not_succ_le_self _)
  · refine ⟨_, place, hnodes,
      hp.same hp.cached (filled_goto hp.filled fun _ => False.elim) (fun q w => ?_) rfl rfl rfl⟩
    refine has_goto_same (s := s.addNode) ?_
    change _ ↔ (s.pc t).Carries s.value q
    rw [hpc]
    exact .rfl
  · change s.nodes + 1 ≤ m ↔ _
    omega

/-- The write to a node that nobody has still to read. -/
theorem Inv.relWrite (hi : Inv s) (hpc : s.pc t = .relWrite a p)
    (hread : ∀ u, s.pc u ≠ .acqRead a) : Inv ((s.setValue a p).goto t (.relPush a)) := by
  obtain ⟨node, place, hn, hp⟩ := hi
  have hat : node a = .with t := (hn.owns t a).mp (by rw [hpc]; rfl)
  have hoff : a ∉ s.cached := hn.off_cached (by rw [hat]; nofun)
  have hval : ∀ m, m ≠ a → (s.setValue a p).value m = s.value m := fun m hm =>
    Function.update_of_ne hm ..
  have hne : ∀ u m, u ≠ t → (s.pc u).Filled m → m ≠ a := fun u m hu hf he => by
    subst he
    cases hpu : s.pc u with
    | acqPush k | relPush k =>
      have := (hn.owns u m).mp (by rw [hpu] at hf ⊢; exact hf)
      rw [hat] at this
      exact hu (NodePlace.with.inj this).symm
    | acqRead k =>
      have hk : k = m := by rw [hpu] at hf; exact hf
      exact hread u (hk ▸ hpu)
    | _ => rw [hpu] at hf; exact hf.elim
  refine ⟨node, place, hn.same (t := t) (fun u hu => goto_pc_of_ne hu) rfl rfl (fun m => ?_) rfl,
    hp.same (fun m hm => ?_) (fun u m hf => ?_) (fun q w => ?_) rfl rfl rfl⟩
  · rw [goto_pc_self, hpc]
    rfl
  · exact (hval m fun he => hoff (he ▸ hm)).trans_ne (hp.cached m hm)
  · by_cases hu : u = t
    · rw [hu, goto_pc_self] at hf
      cases hf
      exact (Function.update_self ..).trans_ne nofun
    · rw [goto_pc_of_ne hu] at hf
      exact (hval m (hne u m hu hf)).trans_ne (hp.filled u m hf)
  · cases w with
    | node m =>
      refine and_congr_right fun hm => ?_
      change (s.setValue a p).value m = _ ↔ _
      rw [hval m fun he => hoff (he ▸ hm)]
    | thread u =>
      by_cases hu : u = t
      · rw [hu, has_goto_self]
        change Function.update s.value a (some p) a = some q ↔ (s.pc t).Carries s.value q
        rw [hpc, Function.update_self, Option.some_inj]
        rfl
      · rw [has_goto hu]
        change (s.pc u).Carries (s.setValue a p).value q ↔ (s.pc u).Carries s.value q
        cases hpu : s.pc u with
        | acqPush k | acqRead k | relPush k =>
          change (s.setValue a p).value k = _ ↔ s.value k = _
          rw [hval k (hne u k hu (by rw [hpu]; rfl))]
        | _ => rfl

theorem Inv.relPush (hi : Inv s) (hpc : s.pc t = .relPush a) :
    Inv ((s.setStacks (a :: s.cached) s.aqueired).goto t .idle) := by
  obtain ⟨node, place, hn, hp⟩ := hi
  have hat : node a = .with t := (hn.owns t a).mp (by rw [hpc]; rfl)
  have hc : a ∉ s.cached := hn.off_cached (by rw [hat]; nofun)
  have ha : a ∉ s.aqueired := hn.off_aqueired (by rw [hat]; nofun)
  have hnodes : Nodes ((s.setStacks (a :: s.cached) s.aqueired).goto t .idle) _ :=
    hn.put (y := .cached) (fun u hu => goto_pc_of_ne hu) hat (fun m h => by rwa [goto_pc_self] at h)
    (fun m => by rw [hpc]; exact .rfl) (List.nodup_cons.mpr ⟨hc, hn.cached_nodup⟩)
    hn.aqueired_nodup (fun m hm => by simp [St.goto, St.setStacks, hm])
    ⟨fun _ => rfl, fun _ => List.mem_cons_self⟩ (fun m _ => .rfl)
    ⟨fun h => absurd h ha, nofun⟩ rfl nofun nofun
  refine ⟨_, _, hnodes, hp.carry (w := .thread t) (v := .node a) (fun m hm => ?_)
    (filled_goto hp.filled fun _ => False.elim) nofun (fun p h => hc h.1) (fun p => ?_)
    (fun p h => has_goto_self.mp h) (fun p w hw hv => ?_) rfl rfl rfl⟩
  · obtain rfl | hm := List.mem_cons.mp hm
    · exact hp.filled t m (by rw [hpc]; rfl)
    · exact hp.cached m hm
  · change a ∈ a :: s.cached ∧ s.value a = some p ↔ (s.pc t).Carries s.value p
    rw [hpc]
    exact ⟨And.right, fun h => ⟨List.mem_cons_self, h⟩⟩
  · cases w with
    | node m =>
      have hm : m ≠ a := fun he => hv (he ▸ rfl)
      refine and_congr_left fun _ => ?_
      simp [St.goto, St.setStacks, hm]
    | thread u => exact has_goto fun he => hw (he ▸ rfl)

theorem Inv.step {a : Act T} (hi : Inv s) (hset : Settled s a)
    (h : CentralCache.step s a = some s') : Inv s' := by
  cases a with
  | make t =>
    cases h
    exact hi.addChain
  | aqueire t =>
    simp only [CentralCache.step] at h
    split at h
    · rename_i hpc
      cases h
      exact hi.goto (fun n => by rw [hpc]; rfl) (fun _ => False.elim) fun p => by rw [hpc]; rfl
    · cases h
  | release t p =>
    simp only [CentralCache.step] at h
    split at h
    · rename_i hc
      cases h
      exact hi.release hc.1 hc.2
    · cases h
  | access t ok =>
    simp only [CentralCache.step] at h
    split at h
    · cases h
    · rename_i hpc
      split at h
      · rename_i n ns hs
        cases h
        exact hi.acqPop hpc hs
      · cases h
        exact hi.goto (fun n => by rw [hpc]; rfl) (fun _ => False.elim) fun p => by rw [hpc]; rfl
    · rename_i hpc
      split at h
      · cases h
        have hpc : (s.addChain t).pc t = .acqNew := hpc
        exact hi.addChain.goto (fun n => by rw [hpc]; rfl) (fun _ => False.elim)
          fun p => by rw [hpc]; rfl
      · cases h
        exact hi.goto (fun n => by rw [hpc]; rfl) (fun _ => False.elim) fun p => by rw [hpc]; rfl
    · rename_i n hpc
      cases h
      exact hi.acqPush hpc
    · rename_i n hpc
      split at h
      · rename_i p hval
        cases h
        refine hi.leave (fun m => by rw [hpc]; exact id) (fun q => ?_)
          (Function.update s.hands t (Function.update (s.hands t) p true)) fun u q => ?_
        · rw [hpc]
          change s.value n = some q ↔ _
          rw [hval]
          exact ⟨fun h => (Option.some.inj h).symm, fun h => h ▸ rfl⟩
        · by_cases hu : u = t
          · subst hu
            by_cases hq : q = p
            · exact .inl ⟨rfl, hq⟩
            · exact .inr (by simp [hq])
          · exact .inr (by simp [hu])
      · rename_i hval
        obtain ⟨node, place, -, hp⟩ := hi
        exact absurd hval (hp.filled t n (by rw [hpc]; rfl))
    · rename_i p hpc
      split at h
      · rename_i n ns hs
        cases h
        exact hi.relPop hpc hs
      · cases h
        exact hi.goto (fun n => by rw [hpc]; rfl) (fun _ => False.elim) fun p => by rw [hpc]; rfl
    · rename_i p hpc
      split at h
      · cases h
        exact hi.relNew hpc
      · cases h
        refine hi.leave (fun m => by rw [hpc]; exact id) (fun q => ?_) s.hands fun u q => .inr rfl
        rw [hpc]
        exact eq_comm
    · rename_i n p hpc
      cases h
      exact hi.relWrite hpc (hset t ok n p rfl hpc)
    · rename_i n hpc
      cases h
      exact hi.relPush hpc

/-- The chain that a reader was to take out of node `n` is nowhere after a write. -/
theorem Inv.lost (hi : Inv s) (hpc : s.pc t = .relWrite n p) (hu : s.pc u = .acqRead n) :
    ¬ Correct ((s.setValue n p).goto t (.relPush n)) := by
  obtain ⟨node, place, hn, hp⟩ := hi
  obtain ⟨c, hc⟩ := Option.ne_none_iff_exists'.mp (hp.filled u n (by rw [hu]; rfl))
  have hat : place c = .on (.thread u) := (hp.has c _).mp (by
    change (s.pc u).Carries s.value c
    rw [hu]
    exact hc)
  have hne : p ≠ c := fun he => by
    have := (hp.has p (.thread t)).mp (by
      change (s.pc t).Carries s.value p
      rw [hpc]
      rfl)
    rw [he, hat] at this
    rw [← Slot.thread.inj (Place.on.inj this), hu] at hpc
    cases hpc
  have hval : ∀ k, Function.update s.value n (some p) k = some c → k ≠ n ∧ s.value k = some c :=
    fun k hk => by
      by_cases he : k = n
      · rw [he, Function.update_self] at hk
        exact absurd (Option.some.inj hk) hne
      · rw [Function.update_of_ne he] at hk
        exact ⟨he, hk⟩
  -- whoever has the chain now had it before, and is not the reader
  intro hcorrect
  obtain ⟨w, hw⟩ := hcorrect.kept c ((hp.given c).mpr ⟨_, hat⟩)
  cases w with
  | node m =>
    have := (hp.has c (.node m)).mp ⟨hw.1, (hval m hw.2).2⟩
    rw [hat] at this
    cases this
  | thread v =>
    by_cases hv : v = t
    · rw [hv, has_goto_self] at hw
      exact (hval n hw).1 rfl
    · rw [has_goto hv] at hw
      have hw : (s.pc v).Carries (Function.update s.value n (some p)) c := hw
      have hold : s.Has c (.thread v) ∧ s.pc v ≠ .acqRead n := by
        change (s.pc v).Carries s.value c ∧ _
        cases hpv : s.pc v with
        | acqPush k | acqRead k | relPush k =>
          rw [hpv] at hw
          refine ⟨(hval k hw).2, fun he => (hval k hw).1 ?_⟩
          cases he <;> rfl
        | _ =>
          rw [hpv] at hw
          exact ⟨hw, nofun⟩
      have := (hp.has c _).mp hold.1
      rw [hat] at this
      exact hold.2 (Slot.thread.inj (Place.on.inj this) ▸ hu)

theorem Inv.sound_iff (hi : Inv s) (a : Act T) : Sound s a ↔ Settled s a := by
  constructor
  · rintro ⟨hc, -⟩ t ok n p rfl hpc u hu
    exact hi.lost hpc hu (hc _ (by simp only [CentralCache.step, hpc]))
  · intro hset
    refine ⟨fun s' h => ?_, fun t ok n p _ hpc hval => ?_⟩
    · obtain ⟨_, _, -, hp⟩ := hi.step hset h
      exact hp.correct
    · obtain ⟨_, _, -, hp⟩ := hi
      have : s.Has p (.thread t) := by
        change (s.pc t).Carries s.value p
        rw [hpc]
        exact hval
      exact (hp.given p).mpr ⟨_, (hp.has p _).mp this⟩

end Steps

/-! ## Every interleaving -/

section Runs
variable [DecidableEq T]

/-- A run is sound at each of its steps exactly if `release` never writes a node that an
`aqueire` has pushed and has still to read. -/
theorem sound_iff_settled (acts : List (Act T)) :
    Meets step Sound (.init T) acts ↔ Meets step Settled (.init T) acts :=
  (meets_congr (P := Inv) (fun _ a hi => (hi.sound_iff a).symm)
    (fun _ _ _ hi hu h => hi.step hu h) Inv.init).symm

-- for the numerals in the runs below
local instance neZero_two : NeZero 2 := ⟨by decide⟩

/-- Thread 0 takes node 0 with chain 0 off the cache and pushes it for reuse; thread 1
releases chain 1 into that node; only then thread 0 reads it. -/
def early : List (Act (Fin 2)) :=
  let go (t : Fin 2) : Act (Fin 2) := .access t true
  [.make 0, .release 0 0, go 0, go 0, go 0, go 0, .make 1,
    .aqueire 0, go 0, go 0, .release 1 1, go 1, go 1, go 1, go 0]

theorem not_correct_early : ∃ s, run step (.init (Fin 2)) early = some s ∧
    s.hands 0 1 = true ∧ s.Has 1 (.node 0) ∧ s.given 0 = true ∧ ¬ Correct s := by
  have hs : ((run step (.init (Fin 2)) early).map fun s =>
      (s.hands 0 1, s.cached, s.value 0, s.given 0)) = some (true, [0], some 1, true) := by
    decide +kernel
  obtain ⟨s, hr, he⟩ := Option.map_eq_some_iff.mp hs
  simp only [Prod.mk.injEq] at he
  obtain ⟨hand, hc, hv, hg⟩ := he
  have hhas : s.Has 1 (.node 0) := ⟨by rw [hc]; exact List.mem_cons_self, hv⟩
  refine ⟨s, hr, hand, hhas, hg, fun h => ?_⟩
  have := h.apart 1 0 hhas 0
  rw [hand] at this
  cases this

end Runs

end CppIpc.CentralCache
