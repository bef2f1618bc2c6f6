import CppIpc.Lib.Places
import CppIpc.Lib.Runs
import CppIpc.Receivers

/-! # Clients that race for a connection id

`conn_head<P, true>` with a step for each load, weak exchange and `fetch_and` of
`cc_`, and any number of clients between them. The state records for every
`connect` that has returned the id and the word that it was found in. -/
namespace CppIpc.Connections
open CppIpc.Def CppIpc.Lib.Bits CppIpc.Lib.Places
open CppIpc.Lib.Runs (run run_invariant')

/-- Where a client stands: in `connect` before the load, or with the word that the
exchange expects, or with the id that it has been given. -/
inductive Pc where
  | idle
  | loading
  | trying (curr : CC)
  | owns (id : CC)
  deriving DecidableEq, Repr

/-- The return of a `connect`: `word` is what was exchanged, or only loaded for the id 0. -/
structure Return (T : Type) where
  client : T
  id : CC
  word : CC
  deriving DecidableEq, Repr

structure St (T : Type) where
  cc : CC
  pc : T → Pc
  log : List (Return T)

def St.init (T : Type) : St T := ⟨0, fun _ => .idle, []⟩

inductive Act (T : Type) where
  | connect (t : T)
  | load (t : T)
  /-- `spurious`: the weak exchange fails although the word is the expected one. -/
  | exchange (t : T) (spurious : Bool)
  | disconnect (t : T)
  deriving DecidableEq, Repr

/-- `curr | (curr + 1)`: the lowest clear bit is set. -/
def next (curr : CC) : CC := curr ||| (curr + 1)

variable {T : Type} [DecidableEq T]

def St.goto (s : St T) (t : T) (p : Pc) : St T := { s with pc := Function.update s.pc t p }

def step (s : St T) : Act T → Option (St T)
  | .connect t => if s.pc t = .idle then some (s.goto t .loading) else none
  | .load t =>
    if s.pc t = .loading then
      if next s.cc = s.cc then
        some ⟨s.cc, Function.update s.pc t .idle, s.log ++ [⟨t, 0, s.cc⟩]⟩
      else some (s.goto t (.trying s.cc))
    else none
  | .exchange t spurious =>
    match s.pc t with
    | .trying curr =>
      if spurious = false ∧ s.cc = curr then
        some ⟨next curr, Function.update s.pc t (.owns (next curr ^^^ curr)),
          s.log ++ [⟨t, next curr ^^^ curr, curr⟩]⟩
      else some (s.goto t .loading)
    | _ => none
  | .disconnect t =>
    match s.pc t with
    | .owns id => some ⟨s.cc &&& ~~~id, Function.update s.pc t .idle, s.log⟩
    | _ => none

/-- The loop `for (cnt = 0; cur; ++cnt) cur &= cur - 1`. -/
def countLoop (cur cnt : CC) : CC :=
  if _h : cur = 0 then cnt else countLoop (cur &&& (cur - 1)) (cnt + 1)
termination_by (ones cur).card
decreasing_by
  have hcard := ones_and_pred (x := cur) _h
  exact Nat.lt_of_succ_le (Nat.le_of_eq hcard)

/-- `conn_count`, of the word that it has loaded. -/
def connCount (cc : CC) : Nat := (countLoop cc 0).toNat

/-- The exchange that succeeds does what `connect` does to a word of its own. -/
theorem next_connect {cc : CC} (h : next cc ≠ cc) :
    Receivers.connect cc = (next cc, next cc ^^^ cc) := if_neg h

/-! ## Counting -/

theorem countLoop_toNat (cur cnt : CC) (h : cnt.toNat + (ones cur).card < 2 ^ 32) :
    (countLoop cur cnt).toNat = cnt.toNat + (ones cur).card := by
  fun_induction countLoop cur cnt with
  | case1 cnt =>
    have h0 : (ones (0 : CC)).card = 0 := rfl
    rw [h0, Nat.add_zero]
  | case2 cur cnt hne ih =>
    have hcard : (ones (cur &&& (cur - 1))).card + 1 = (ones cur).card := ones_and_pred hne
    have hcnt : (cnt + 1).toNat = cnt.toNat + 1 := by
      rw [BitVec.toNat_add]
      exact Nat.mod_eq_of_lt (by simp only [BitVec.ofNat_eq_ofNat, BitVec.toNat_ofNat]; omega)
    have hrec := ih (by rw [hcnt]; omega)
    rw [hrec, hcnt]
    omega

theorem connCount_eq (cc : CC) : connCount cc = (ones cc).card := by
  have hle : (ones cc).card ≤ 32 := by
    have h := Finset.card_filter_le (Finset.range 32) fun i => cc.getLsbD i = true
    rwa [Finset.card_range] at h
  have h := countLoop_toNat cc 0 (by simp only [BitVec.ofNat_eq_ofNat, BitVec.toNat_ofNat]; omega)
  rw [connCount, h]
  exact Nat.zero_add _

/-! ## The ids that are owned -/

/-- The single bit that is the lowest clear one of the word. -/
def Lowest (id word : CC) : Prop :=
  ∃ b < 32, id = BitVec.twoPow 32 b ∧ word.getLsbD b = false ∧ ∀ j < b, word.getLsbD j = true

theorem lowest_of_next {curr : CC} (h : next curr ≠ curr) : Lowest (next curr ^^^ curr) curr := by
  obtain ⟨b, hlt, hclear, hbelow, hxor, -⟩ := or_succ_eq h
  exact ⟨b, hlt, hxor, hclear, hbelow⟩

theorem next_getLsbD {curr : CC} (h : next curr ≠ curr) (i : Nat) :
    (next curr).getLsbD i = true ↔
      curr.getLsbD i = true ∨ (next curr ^^^ curr).getLsbD i = true := by
  obtain ⟨b, -, -, -, hxor, hor⟩ := or_succ_eq h
  have hx : next curr ^^^ curr = BitVec.twoPow 32 b := hxor
  have hn : next curr = curr ||| BitVec.twoPow 32 b := hor
  rw [hx, hn, BitVec.getLsbD_or, Bool.or_eq_true]

variable {s s' : St T}

structure Inv (s : St T) : Prop where
  /-- `cc_` is the union of the ids that are owned. -/
  union : ∀ i, s.cc.getLsbD i = true ↔ ∃ t id, s.pc t = .owns id ∧ id.getLsbD i = true
  single : ∀ t id, s.pc t = .owns id → ∃ b < 32, id = BitVec.twoPow 32 b
  apart : ∀ t u id, s.pc t = .owns id → s.pc u = .owns id → t = u
  trying : ∀ t curr, s.pc t = .trying curr → next curr ≠ curr
  lowest : ∀ r ∈ s.log, r.id ≠ 0 → Lowest r.id r.word
  full : ∀ r ∈ s.log, r.id = 0 → ∀ i < 32, r.word.getLsbD i = true

theorem Inv.init (T : Type) [DecidableEq T] : Inv (St.init T) where
  union i := by simp [St.init]
  single t id h := nomatch h
  apart t u id h := nomatch h
  trying t curr h := nomatch h
  lowest r h := nomatch h
  full r h := nomatch h

omit [DecidableEq T] in
/-- Two ids that are owned have no bit in common. -/
theorem Inv.disjoint (h : Inv s) {t u : T} {a b : CC} (ht : s.pc t = .owns a)
    (hu : s.pc u = .owns b) {i : Nat} (ha : a.getLsbD i = true) (hb : b.getLsbD i = true) :
    t = u := by
  obtain ⟨j, -, rfl⟩ := h.single t a ht
  obtain ⟨k, -, rfl⟩ := h.single u b hu
  obtain ⟨-, rfl⟩ := getLsbD_single.mp ha
  obtain ⟨-, rfl⟩ := getLsbD_single.mp hb
  exact h.apart t u _ ht hu

/-- A move between places without an id, which leaves `cc_` alone. -/
theorem Inv.move (h : Inv s) {t : T} {p : Pc} {log : List (Return T)}
    (hold : ∀ id, s.pc t ≠ .owns id) (hp : ∀ id, p ≠ .owns id)
    (htry : ∀ curr, p = .trying curr → next curr ≠ curr)
    (hlow : ∀ r ∈ log, r.id ≠ 0 → Lowest r.id r.word)
    (hfull : ∀ r ∈ log, r.id = 0 → ∀ i < 32, r.word.getLsbD i = true) :
    Inv ⟨s.cc, Function.update s.pc t p, log⟩ := by
  have howns : ∀ u id, Function.update s.pc t p u = .owns id ↔ s.pc u = .owns id := fun u id =>
    update_outside (P := fun x => x = Pc.owns id) (hold id) (hp id)
  refine ⟨fun i => ?_, fun u id hu => h.single u id ((howns u id).mp hu), fun u v id hu hv =>
    h.apart u v id ((howns u id).mp hu) ((howns v id).mp hv), fun u curr hu => ?_, hlow, hfull⟩
  · simp only [howns]
    exact h.union i
  · rcases update_cases hu with ⟨-, he⟩ | ⟨-, hu⟩
    · exact htry curr he
    · exact h.trying u curr hu

/-! ## The steps -/

theorem step_connect {t : T} (h : step s (.connect t) = some s') :
    s.pc t = .idle ∧ s' = s.goto t .loading := by
  simp only [step] at h
  split at h
  next hp => exact ⟨hp, (Option.some.inj h).symm⟩
  next => cases h

theorem step_load {t : T} (h : step s (.load t) = some s') : s.pc t = .loading ∧
    ((next s.cc = s.cc ∧ s' = ⟨s.cc, Function.update s.pc t .idle, s.log ++ [⟨t, 0, s.cc⟩]⟩) ∨
      (next s.cc ≠ s.cc ∧ s' = s.goto t (.trying s.cc))) := by
  simp only [step] at h
  split at h
  next hp =>
    refine ⟨hp, ?_⟩
    split at h
    next hn => exact .inl ⟨hn, (Option.some.inj h).symm⟩
    next hn => exact .inr ⟨hn, (Option.some.inj h).symm⟩
  next => cases h

theorem step_exchange {t : T} {spurious : Bool} (h : step s (.exchange t spurious) = some s') :
    ∃ curr, s.pc t = .trying curr ∧ (s' = s.goto t .loading ∨ (s.cc = curr ∧
      s' = ⟨next curr, Function.update s.pc t (.owns (next curr ^^^ curr)),
        s.log ++ [⟨t, next curr ^^^ curr, curr⟩]⟩)) := by
  simp only [step] at h
  split at h
  next curr hc =>
    refine ⟨curr, hc, ?_⟩
    split at h
    next hg => exact .inr ⟨hg.2, (Option.some.inj h).symm⟩
    next => exact .inl (Option.some.inj h).symm
  next => cases h

theorem step_disconnect {t : T} (h : step s (.disconnect t) = some s') :
    ∃ id, s.pc t = .owns id ∧
      s' = ⟨s.cc &&& ~~~id, Function.update s.pc t .idle, s.log⟩ := by
  simp only [step] at h
  split at h
  next id hid => exact ⟨id, hid, (Option.some.inj h).symm⟩
  next => cases h

omit [DecidableEq T] in
/-- The exchange gives an id that no other client owns. -/
theorem Inv.fresh (h : Inv s) (hn : next s.cc ≠ s.cc) {u : T} {id : CC}
    (hu : s.pc u = .owns id) : id &&& (next s.cc ^^^ s.cc) = 0 := by
  obtain ⟨b, -, hb, hclear, -⟩ := lowest_of_next hn
  refine and_eq_zero_iff.mpr fun i hi => ?_
  rw [hb, ← Bool.not_eq_true, getLsbD_single]
  rintro ⟨-, rfl⟩
  have hset : s.cc.getLsbD b = true := (h.union b).mpr ⟨u, id, hu, hi⟩
  rw [hset] at hclear
  cases hclear

theorem Inv.exchange (h : Inv s) {t : T} (ht : s.pc t = .trying s.cc) :
    Inv ⟨next s.cc, Function.update s.pc t (.owns (next s.cc ^^^ s.cc)),
      s.log ++ [⟨t, next s.cc ^^^ s.cc, s.cc⟩]⟩ := by
  have hn := h.trying t s.cc ht
  obtain ⟨b, hlt, hb, hclear, hbelow⟩ := lowest_of_next hn
  have hone : (next s.cc ^^^ s.cc).getLsbD b = true := by
    rw [hb]
    exact getLsbD_single.mpr ⟨hlt, rfl⟩
  -- the new id has a bit that those of the others lack
  have hother : ∀ u, s.pc u ≠ .owns (next s.cc ^^^ s.cc) := by
    intro u hu
    have hbit := and_eq_zero_iff.mp (h.fresh hn hu) b hone
    rw [hone] at hbit
    cases hbit
  refine ⟨fun i => ?_, fun u id hu => ?_, fun u v id hu hv => ?_, fun u curr hu => ?_,
    List.forall_mem_append.mpr ⟨h.lowest, List.forall_mem_singleton.mpr
      fun _ => ⟨b, hlt, hb, hclear, hbelow⟩⟩,
    List.forall_mem_append.mpr ⟨h.full, List.forall_mem_singleton.mpr fun h0 => ?_⟩⟩
  · rw [next_getLsbD hn, h.union]
    constructor
    · rintro (⟨u, id, hu, hi⟩ | hi)
      · have hne : u ≠ t := by
          rintro rfl
          rw [ht] at hu
          cases hu
        exact ⟨u, id, (Function.update_of_ne hne _ _).trans hu, hi⟩
      · exact ⟨t, _, Function.update_self _ _ _, hi⟩
    · rintro ⟨u, id, hu, hi⟩
      rcases update_cases hu with ⟨-, he⟩ | ⟨-, hu⟩
      · cases he
        exact .inr hi
      · exact .inl ⟨u, id, hu, hi⟩
  · rcases update_cases hu with ⟨-, he⟩ | ⟨-, hu⟩
    · cases he
      exact ⟨b, hlt, hb⟩
    · exact h.single u id hu
  · rcases update_cases hu with ⟨rfl, he⟩ | ⟨-, hu⟩
    · cases he
      rcases update_cases hv with ⟨rfl, -⟩ | ⟨-, hv⟩
      · rfl
      · exact absurd hv (hother v)
    · rcases update_cases hv with ⟨-, he⟩ | ⟨-, hv⟩
      · cases he
        exact absurd hu (hother u)
      · exact h.apart u v id hu hv
  · obtain ⟨-, hu⟩ := of_update_eq hu Pc.noConfusion
    exact h.trying u curr hu
  · have hzero : next s.cc ^^^ s.cc = 0 := h0
    rw [hzero] at hone
    simp at hone

theorem Inv.disconnect (h : Inv s) {t : T} {id : CC} (ht : s.pc t = .owns id) :
    Inv ⟨s.cc &&& ~~~id, Function.update s.pc t .idle, s.log⟩ := by
  have howns : ∀ u a, Function.update s.pc t .idle u = .owns a ↔ u ≠ t ∧ s.pc u = .owns a := by
    intro u a
    exact ⟨fun he => of_update_eq he Pc.noConfusion,
      fun he => (Function.update_of_ne he.1 _ _).trans he.2⟩
  refine ⟨fun i => ?_, fun u a hu => h.single u a ((howns u a).mp hu).2, fun u v a hu hv =>
    h.apart u v a ((howns u a).mp hu).2 ((howns v a).mp hv).2, fun u curr hu => ?_,
    h.lowest, h.full⟩
  · simp only [howns, getLsbD_and_not, Bool.and_eq_true, Bool.not_eq_true', h.union]
    constructor
    · rintro ⟨⟨u, a, hu, hi⟩, hn⟩
      refine ⟨u, a, ⟨?_, hu⟩, hi⟩
      rintro rfl
      rw [ht] at hu
      cases hu
      rw [hi] at hn
      cases hn
    · rintro ⟨u, a, ⟨hne, hu⟩, hi⟩
      refine ⟨⟨u, a, hu, hi⟩, ?_⟩
      by_contra hset
      exact hne (h.disjoint hu ht hi (by simpa using hset))
  · obtain ⟨-, hu⟩ := of_update_eq hu Pc.noConfusion
    exact h.trying u curr hu

theorem Inv.step (h : Inv s) {a : Act T} (hs : step s a = some s') : Inv s' := by
  cases a with
  | connect t =>
    obtain ⟨hp, rfl⟩ := step_connect hs
    exact h.move (fun _ => by rw [hp]; exact Pc.noConfusion) (fun _ => Pc.noConfusion)
      (fun _ => Pc.noConfusion) h.lowest h.full
  | load t =>
    obtain ⟨hp, ⟨hn, rfl⟩ | ⟨hn, rfl⟩⟩ := step_load hs
    · refine h.move (fun _ => by rw [hp]; exact Pc.noConfusion) (fun _ => Pc.noConfusion)
        (fun _ => Pc.noConfusion) (List.forall_mem_append.mpr ⟨h.lowest, ?_⟩)
        (List.forall_mem_append.mpr ⟨h.full, ?_⟩)
      · exact List.forall_mem_singleton.mpr fun h0 => absurd rfl h0
      · exact List.forall_mem_singleton.mpr fun _ => or_succ_eq_self_iff.mp hn
    · refine h.move (fun _ => by rw [hp]; exact Pc.noConfusion) (fun _ => Pc.noConfusion)
        (fun curr hc => ?_) h.lowest h.full
      cases hc
      exact hn
  | exchange t spurious =>
    obtain ⟨curr, hc, rfl | ⟨rfl, rfl⟩⟩ := step_exchange hs
    · exact h.move (fun _ => by rw [hc]; exact Pc.noConfusion) (fun _ => Pc.noConfusion)
        (fun _ => Pc.noConfusion) h.lowest h.full
    · exact h.exchange hc
  | disconnect t =>
    obtain ⟨id, hid, rfl⟩ := step_disconnect hs
    exact h.disconnect hid

/-! ## Every interleaving -/

def ownedIds (s : St T) : Set CC := {id | ∃ t, s.pc t = .owns id}

omit [DecidableEq T] in
/-- `conn_count` counts the ids that are owned at its load. -/
theorem Inv.connCount_eq_ncard (h : Inv s) : connCount s.cc = (ownedIds s).ncard := by
  have himage : ownedIds s = (fun b => BitVec.twoPow 32 b) '' (ones s.cc : Set Nat) := by
    ext id
    simp only [ownedIds, Set.mem_ofPred_eq, Set.mem_image, Finset.mem_coe, mem_ones, h.union]
    constructor
    · rintro ⟨t, ht⟩
      obtain ⟨b, hlt, rfl⟩ := h.single t id ht
      exact ⟨b, ⟨t, _, ht, getLsbD_single.mpr ⟨hlt, rfl⟩⟩, rfl⟩
    · rintro ⟨b, ⟨t, a, ht, hb⟩, rfl⟩
      obtain ⟨c, -, rfl⟩ := h.single t a ht
      obtain ⟨-, rfl⟩ := getLsbD_single.mp hb
      exact ⟨t, ht⟩
  have hinj : Set.InjOn (fun b => BitVec.twoPow 32 b) (ones s.cc : Set Nat) := by
    intro b hb c _ he
    exact twoPow_inj (BitVec.lt_of_getLsbD (mem_ones.mp hb)) he
  rw [connCount_eq, himage, Set.InjOn.ncard_image hinj, Set.ncard_coe_finset]

theorem inv_of_run {acts : List (Act T)} (hr : run step (St.init T) acts = some s) : Inv s :=
  run_invariant' (fun _ _ _ h hs => h.step hs) (Inv.init T) hr

/-- A return reads `cc_` in the step that makes it, and an id other than 0 is its
client's alone. -/
theorem Inv.returned (h : Inv s) {a : Act T} (hs : Connections.step s a = some s') {r : Return T}
    (hr : s'.log = s.log ++ [r]) :
    s.cc = r.word ∧ (r.id ≠ 0 → s'.pc r.client = .owns r.id ∧
      ∀ u id, s.pc u = .owns id → id &&& r.id = 0) := by
  have hsame : ∀ {l : List (Return T)}, s'.log = l → l = s.log ++ [r] := fun he => he ▸ hr
  have hno : s'.log ≠ s.log := fun he => by simp [he] at hr
  cases a with
  | connect t =>
    obtain ⟨-, rfl⟩ := step_connect hs
    exact absurd rfl hno
  | load t =>
    obtain ⟨-, ⟨-, rfl⟩ | ⟨-, rfl⟩⟩ := step_load hs
    · have he := List.append_cancel_left (hsame rfl)
      rw [← (List.cons.inj he).1]
      exact ⟨rfl, fun h0 => absurd rfl h0⟩
    · exact absurd rfl hno
  | exchange t spurious =>
    obtain ⟨curr, hc, rfl | ⟨rfl, rfl⟩⟩ := step_exchange hs
    · exact absurd rfl hno
    · have he := List.append_cancel_left (hsame rfl)
      rw [← (List.cons.inj he).1]
      exact ⟨rfl, fun _ => ⟨Function.update_self _ _ _,
        fun u id hu => h.fresh (h.trying t _ hc) hu⟩⟩
  | disconnect t =>
    obtain ⟨id, -, rfl⟩ := step_disconnect hs
    exact absurd rfl hno

/-- Connection slots are allocated correctly, whatever the order of the steps. -/
theorem slots_allocated (acts : List (Act T)) (hr : run step (St.init T) acts = some s) :
    (∀ r ∈ s.log, r.id ≠ 0 → Lowest r.id r.word) ∧
      (∀ r ∈ s.log, r.id = 0 → ∀ i < 32, r.word.getLsbD i = true) ∧
      (∀ a s' r, step s a = some s' → s'.log = s.log ++ [r] →
        s.cc = r.word ∧ (r.id ≠ 0 → s'.pc r.client = .owns r.id ∧
          ∀ u id, s.pc u = .owns id → id &&& r.id = 0)) ∧
      (∀ t u id, s.pc t = .owns id → s.pc u = .owns id → t = u) ∧
      (∀ i, s.cc.getLsbD i = true ↔ ∃ id ∈ ownedIds s, id.getLsbD i = true) ∧
      connCount s.cc = (ownedIds s).ncard := by
  have h := inv_of_run hr
  refine ⟨h.lowest, h.full, fun a s' r hs hl => h.returned hs hl, h.apart, fun i => ?_,
    h.connCount_eq_ncard⟩
  rw [h.union]
  constructor
  · rintro ⟨t, id, ht, hi⟩
    exact ⟨id, ⟨t, ht⟩, hi⟩
  · rintro ⟨id, ⟨t, ht⟩, hi⟩
    exact ⟨t, id, ht, hi⟩

/-- The second client loses the race for the lowest bit and takes it up when it is free. -/
theorem slots_allocated_sample : ∃ s : St Nat,
    run step (St.init Nat) [.connect 0, .connect 1, .load 0, .load 1, .exchange 0 false,
      .exchange 1 false, .disconnect 0, .load 1, .exchange 1 true, .load 1,
      .exchange 1 false] = some s ∧ connCount s.cc = (ownedIds s).ncard ∧ s.cc = 1 := by
  have hs : (run step (St.init Nat) [.connect 0, .connect 1, .load 0, .load 1, .exchange 0 false,
      .exchange 1 false, .disconnect 0, .load 1, .exchange 1 true, .load 1,
      .exchange 1 false]).map St.cc = some 1 := by decide +kernel
  obtain ⟨s, hr, he⟩ := Option.map_eq_some_iff.mp hs
  exact ⟨s, hr, (slots_allocated _ hr).2.2.2.2.2, he⟩

end CppIpc.Connections
