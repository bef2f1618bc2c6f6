import CppIpc.Reassembly
import Mathlib.Order.Interval.Finset.Nat

/-! # How large a receive cache gets, and what its collection drops

A first fragment whose message has more to come opens an entry. When the cache
already holds more than 1024 of them, the entries whose id differs by more than
8192 from the new one are dropped first, the difference being taken between plain
numbers. The ids come from a 32-bit counter that wraps. -/
namespace CppIpc.ReceiveCache
open CppIpc.Def CppIpc.Message CppIpc.Reassembly
open CppIpc.Lib.Runs (run Meets)

/-! ## Two distances between ids -/

/-- `cmp.second - cmp.first` of `std::minmax`. -/
def plainDist (a b : MsgId) : Nat := max a.toNat b.toNat - min a.toNat b.toNat

/-- How many ids the counter takes from the one to the other, whichever way is shorter. -/
def circDist (a b : MsgId) : Nat := min (a - b).toNat (b - a).toNat

theorem circDist_eq {a b : MsgId} (hne : a ≠ b) :
    circDist a b = min (plainDist a b) (2 ^ 32 - plainDist a b) := by
  have ha := a.isLt
  have hb := b.isLt
  have hn : a.toNat ≠ b.toNat := fun he => hne (BitVec.eq_of_toNat_eq he)
  simp only [circDist, plainDist, BitVec.toNat_sub]
  omega

@[simp] theorem circDist_self (a : MsgId) : circDist a a = 0 := by simp [circDist]

/-- What is far on the circle is far as a number; the converse holds unless the two
ids lie on both sides of the wrap. -/
theorem far_iff {a b : MsgId} :
    8192 < circDist a b ↔ 8192 < plainDist a b ∧ plainDist a b < 2 ^ 32 - 8192 := by
  by_cases hne : a = b
  · subst hne
    simp [plainDist]
  · rw [circDist_eq hne]
    omega

/-! ## The size of a cache -/

/-- Ids other than `id` and at most `d` away from it are at most `2 * d` in number. -/
theorem length_le_of_near {ids : List MsgId} {id : MsgId} {d : Nat} (hn : ids.Nodup)
    (hid : id ∉ ids) (hnear : ∀ k ∈ ids, plainDist id k ≤ d) : ids.length ≤ 2 * d := by
  have hinj : Function.Injective (BitVec.toNat (w := 32)) := fun _ _ => BitVec.eq_of_toNat_eq
  have hsub : (ids.map BitVec.toNat).toFinset ⊆
      (Finset.Icc (id.toNat - d) (id.toNat + d)).erase id.toNat := by
    intro n hm
    obtain ⟨k, hk, hkn⟩ := List.mem_map.mp (List.mem_toFinset.mp hm)
    have hkd := hnear k hk
    have hne : n ≠ id.toNat := fun he => hid (hinj (hkn.trans he) ▸ hk)
    rw [plainDist, hkn] at hkd
    exact Finset.mem_erase.mpr ⟨hne, Finset.mem_Icc.mpr (by omega)⟩
  have hcard := Finset.card_le_card hsub
  rw [List.toFinset_card_of_nodup (hn.map hinj), List.length_map,
    Finset.card_erase_of_mem (Finset.mem_Icc.mpr (by omega)), Nat.card_Icc] at hcard
  omega

/-- One entry for each id, and no more than the collection can leave and one more. -/
structure Bounded (rc : RecvCache) : Prop where
  nodup : (rc.map Prod.fst).Nodup
  length_le : rc.length ≤ 16385

theorem nil_bounded : Bounded [] := ⟨List.nodup_nil, Nat.zero_le _⟩

section Turn
variable {h : RecvCtx} {rc : RecvCache} {msg : MsgT}

/-- What a collection for a new id leaves is near it. -/
theorem gc_length_le (hn : (rc.map Prod.fst).Nodup) (hf : rc.find msg.id = none) :
    (rc.gc msg.id).length ≤ 16384 := by
  have hsub : ((rc.gc msg.id).map Prod.fst).Sublist (rc.map Prod.fst) :=
    List.filter_sublist.map _
  rw [← List.length_map (f := Prod.fst)]
  apply length_le_of_near (d := 8192) (hn.sublist hsub)
  · exact fun hm => RecvCache.find_eq_none.mp hf (hsub.subset hm)
  · intro k hk
    obtain ⟨p, hp, rfl⟩ := List.mem_map.mp hk
    have hfar := (List.mem_filter.mp hp).2
    rw [decide_eq_true_eq] at hfar
    exact Nat.not_lt.mp hfar

/-- A turn grows the cache by an entry only after the collection had its chance. -/
theorem Bounded.recvMsg (hb : Bounded rc) : Bounded (recvMsg h rc msg).cache := by
  refine ⟨keys_nodup hb.nodup, ?_⟩
  have hle := hb.length_le
  have hd := recvMsg_outcome h rc msg
  generalize Message.recvMsg h rc msg = r at hd ⊢
  cases hd with
  | own | wrong | negative | large | whole => exact hle
  | opened ho =>
    simp only [Turn.cache, List.length_cons]
    split
    · have hgc := gc_length_le hb.nodup ho.2.1
      omega
    · omega
  | last => exact (List.length_filter_le ..).trans hle
  | more => simpa only [Turn.cache, RecvCache.update, List.length_map] using hle

end Turn

section Runs
variable {ctx : Nat → RecvCtx} {s s' : Sys}

theorem clear_bounded (hb : ∀ t, Bounded (s.cache t)) (t t' : Nat) :
    Bounded ((s.clear t).cache t') := by
  by_cases ht : t' = t
  · subst ht
    simpa only [Sys.clear, Function.update_self] using nil_bounded
  · simpa only [Sys.clear, Function.update_of_ne ht] using hb t'

theorem step_bounded {a : Act} (hb : ∀ t, Bounded (s.cache t)) (hs : step ctx s a = some s') :
    ∀ t, Bounded (s'.cache t) := by
  intro t'
  cases a with
  | recv t h msg =>
    cases hs
    by_cases ht : t' = t
    · subst ht
      rw [recv_cache_self]
      exact (hb t').recvMsg
    · rw [recv_cache_of_ne h ht]
      exact hb t'
  | disconnect t h dis =>
    cases hs
    cases dis with
    | true => exact clear_bounded hb t t'
    | false => exact hb t'
  | exit t =>
    cases hs
    exact clear_bounded hb t t'

theorem run_bounded {acts : List Act} (hr : run (step ctx) Sys.init acts = some s) (t : Nat) :
    Bounded (s.cache t) :=
  Lib.Runs.run_invariant' (P := fun s => ∀ t, Bounded (s.cache t))
    (fun _ _ _ hb hs => step_bounded hb hs) (fun _ => nil_bounded) hr t

end Runs

/-! ## A collection at the wrap -/

/-- The first fragment of a message of 164 bytes with id `id`. -/
def first (id : MsgId) : MsgT := { MsgT.zero with id, remain := 100 }

theorem first_opens {rc : RecvCache} {id : MsgId} (hn : id ∉ rc.map Prod.fst) :
    Opens (ctxs 0) rc (first id) := by
  have hself : ¬ (0 : MsgId) = 10 := by decide
  have hsize : int32 (dataLength + 100) = 164 := by decide
  refine ⟨⟨fun hc => hself hc.2, ?_, rfl⟩, RecvCache.find_eq_none.mpr hn, ?_⟩
  · rw [first, hsize]
    exact Int.natCast_pos.mpr (Nat.succ_pos 163)
  · rw [first, hsize]
    exact Nat.le_add_right 65 99

/-- First fragments, none of which is ever followed by another, fill the cache up to
the collection. -/
theorem run_firsts {ids : List MsgId} {s : Sys} (hn : ids.Nodup)
    (hd : ∀ id ∈ ids, id ∉ (s.cache 0).map Prod.fst)
    (hl : (s.cache 0).length + ids.length ≤ 1025) :
    ∃ s', run (step ctxs) s (ids.map fun id => .recv 0 0 (first id)) = some s' ∧
      (s'.cache 0).map Prod.fst = ids.reverse ++ (s.cache 0).map Prod.fst := by
  induction ids generalizing s with
  | nil => exact ⟨s, rfl, rfl⟩
  | cons id rest ih =>
    obtain ⟨hid, hrest⟩ := List.nodup_cons.mp hn
    have hnew := hd id List.mem_cons_self
    obtain ⟨hr, hf, hmore⟩ := first_opens hnew
    rw [List.length_cons] at hl
    have hcache : ((s.recv ctxs 0 0 (first id)).cache 0).map Prod.fst =
        id :: (s.cache 0).map Prod.fst := by
      rw [recv_cache_self, recvMsg_reached hr, hf]
      dsimp only
      rw [if_neg (Nat.not_le.mpr hmore), if_neg (by omega)]
      rfl
    obtain ⟨s', hrun, hkeys⟩ := ih (s := s.recv ctxs 0 0 (first id)) hrest
      (by
        intro k hk
        rw [hcache, List.mem_cons]
        rintro (he | hm)
        · exact hid (he ▸ hk)
        · exact hd k (List.mem_cons_of_mem _ hk) hm)
      (by
        have hlen := congrArg List.length hcache
        simp only [List.length_map, List.length_cons] at hlen
        omega)
    refine ⟨s', hrun, ?_⟩
    rw [hkeys, hcache, List.reverse_cons, List.append_assoc]
    rfl

/-- The last 1025 ids before the counter wraps. -/
def lastIds : List MsgId := (List.range 1025).map fun i => BitVec.ofNat 32 (2 ^ 32 - 1 - i)

theorem lastIds_length : lastIds.length = 1025 := by
  rw [lastIds, List.length_map, List.length_range]

theorem lastIds_nodup : lastIds.Nodup := by
  refine List.Nodup.map_on (fun i hi j hj he => ?_) List.nodup_range
  rw [List.mem_range] at hi hj
  have hn := congrArg BitVec.toNat he
  rw [BitVec.toNat_ofNat, BitVec.toNat_ofNat] at hn
  omega

theorem mem_lastIds : (0xFFFFFFFF : MsgId) ∈ lastIds :=
  List.mem_map.mpr ⟨0, List.mem_range.mpr (by decide), rfl⟩

theorem zero_not_mem_lastIds : (0 : MsgId) ∉ lastIds := by
  intro hm
  obtain ⟨i, hi, he⟩ := List.mem_map.mp hm
  rw [List.mem_range] at hi
  have hn := congrArg BitVec.toNat he
  rw [BitVec.toNat_ofNat] at hn
  change _ = 0 at hn
  omega

/-- A message with id 0 after 1025 messages that were begun just before the wrap. -/
def wrapping : List Act :=
  (lastIds.map fun id => .recv 0 0 (first id)) ++ [.recv 0 0 (first 0)]

/-- The collection for id 0 finds them. -/
theorem run_full {ids : List MsgId} (hn : ids.Nodup) (hl : ids.length = 1025)
    (hmem : 0xFFFFFFFF ∈ ids) (hzero : 0 ∉ ids) :
    ∃ s, run (step ctxs) Sys.init (ids.map fun id => .recv 0 0 (first id)) = some s ∧
      1024 < (s.cache 0).length ∧ Opens (ctxs 0) (s.cache 0) (first 0) ∧
      (s.cache 0).find 0xFFFFFFFF ≠ none := by
  obtain ⟨s, hrun, hkeys⟩ := run_firsts (s := Sys.init) hn (fun _ _ => List.not_mem_nil)
    (by rw [hl, Sys.init, List.length_nil])
  rw [Sys.init, List.map_nil, List.append_nil] at hkeys
  refine ⟨s, hrun, ?_, first_opens (by rwa [hkeys, List.mem_reverse]), ?_⟩
  · rw [← List.length_map (f := Prod.fst), hkeys, List.length_reverse, hl]
    exact Nat.lt_succ_self 1024
  · rwa [Ne, RecvCache.find_eq_none, hkeys, List.mem_reverse, not_not]

/-! ## The bound -/

/-- **The cache is bounded**, whatever the threads pop, from whichever handles and
in whatever order. -/
theorem cache_length_le (ctx : Nat → RecvCtx) (acts : List Act) (s : Sys)
    (hr : run (step ctx) Sys.init acts = some s) (t : Nat) : (s.cache t).length ≤ 16385 :=
  (run_bounded hr t).length_le

/-- The last fragment of `wrapping` is met by a collection. -/
theorem cache_length_le_wrapping : ∃ s, run (step ctxs) Sys.init wrapping = some s ∧
    (s.cache 0).find 0xFFFFFFFF = none ∧ (s.cache 0).length ≤ 16385 := by
  obtain ⟨s, hrun, hl, ho, -⟩ :=
    run_full lastIds_nodup lastIds_length mem_lastIds zero_not_mem_lastIds
  have hr : run (step ctxs) Sys.init wrapping = some (s.recv ctxs 0 0 (first 0)) := by
    rw [wrapping, Lib.Runs.run_append, hrun]
    rfl
  refine ⟨_, hr, ?_, cache_length_le ctxs wrapping _ hr 0⟩
  rw [recv_cache_self, find_other (by decide)]
  exact if_pos ⟨ho, hl, by decide⟩

/-! ## What the collection drops -/

section Collection
variable (ctx : Nat → RecvCtx)

/-- The collection goes by the circle of ids: an entry dropped from under another id
is far from the element's, and a collection drops all that are. -/
def Follows (s : Sys) : Act → Prop
  | .recv t h msg =>
    (∀ k, k ≠ msg.id → (s.cache t).find k ≠ none →
      ((s.recv ctx t h msg).cache t).find k = none → 8192 < circDist msg.id k) ∧
    (Opens (ctx h) (s.cache t) msg → 1024 < (s.cache t).length →
      ∀ k, 8192 < circDist msg.id k → ((s.recv ctx t h msg).cache t).find k = none)
  | _ => True

/-- When it collects, no entry is within 8192 of the new id across the wrap. -/
def Unwrapped (s : Sys) : Act → Prop
  | .recv t h msg => Opens (ctx h) (s.cache t) msg → 1024 < (s.cache t).length →
    ∀ k, (s.cache t).find k ≠ none → plainDist msg.id k < 2 ^ 32 - 8192
  | _ => True

variable {ctx}

theorem recv_find_other {s : Sys} {t h : Nat} {msg : MsgT} {k : MsgId} (hk : k ≠ msg.id) :
    ((s.recv ctx t h msg).cache t).find k =
      if Opens (ctx h) (s.cache t) msg ∧ 1024 < (s.cache t).length ∧ 8192 < plainDist msg.id k
      then none else (s.cache t).find k := by
  rw [recv_cache_self, find_other hk]
  rfl

/-- One step: an entry across the wrap is all that can go wrong. -/
theorem follows_iff (s : Sys) (a : Act) : Follows ctx s a ↔ Unwrapped ctx s a := by
  cases a with
  | disconnect t h dis => exact Iff.rfl
  | exit t => exact Iff.rfl
  | recv t h msg =>
    constructor
    · rintro ⟨hdrop, -⟩ ho hl k hf
      by_contra hp
      have hk : k ≠ msg.id := by
        intro he
        exact hf (he ▸ ho.2.1)
      have hfar := hdrop k hk hf (by rw [recv_find_other hk, if_pos ⟨ho, hl, by omega⟩])
      exact hp (far_iff.mp hfar).2
    · intro hu
      refine ⟨fun k hk hf hn => ?_, fun ho hl k hfar => ?_⟩
      · rw [recv_find_other hk] at hn
        split at hn
        · rename_i hc
          exact far_iff.mpr ⟨hc.2.2, hu hc.1 hc.2.1 k hf⟩
        · exact absurd hn hf
      · have hk : k ≠ msg.id := by
          intro he
          subst he
          simp at hfar
        rw [recv_find_other hk, if_pos ⟨ho, hl, (far_iff.mp hfar).1⟩]

end Collection

/-- **The collection goes by the circle** in exactly the runs in which no collection
finds an entry across the wrap. -/
theorem collection_follows_iff (ctx : Nat → RecvCtx) (acts : List Act) :
    Meets (step ctx) (Follows ctx) Sys.init acts ↔
      Meets (step ctx) (Unwrapped ctx) Sys.init acts :=
  Lib.Runs.meets_congr (P := fun _ => True) (fun s a _ => follows_iff s a)
    (fun _ _ _ _ _ _ => trivial) trivial

/-- A collection for id 0 drops the message begun just before the wrap. -/
theorem not_follows_of_last {ids : List MsgId} (hn : ids.Nodup) (hl : ids.length = 1025)
    (hmem : 0xFFFFFFFF ∈ ids) (hzero : 0 ∉ ids) :
    ¬ Meets (step ctxs) (Follows ctxs) Sys.init
      ((ids.map fun id => .recv 0 0 (first id)) ++ [.recv 0 0 (first 0)]) := by
  intro hm
  obtain ⟨s, hrun, hlen, hopen, hfind⟩ := run_full hn hl hmem hzero
  have hu := (follows_iff _ _).mp (hm.of_append hrun).1 hopen hlen _ hfind
  simp [plainDist, first] at hu

/-- The message before it, one id away, is dropped. -/
theorem not_follows_wrapping : ¬ Meets (step ctxs) (Follows ctxs) Sys.init wrapping :=
  not_follows_of_last lastIds_nodup lastIds_length mem_lastIds zero_not_mem_lastIds

end CppIpc.ReceiveCache
