import CppIpc.Message
import Mathlib.Data.List.Nodup
import Mathlib.Data.List.Perm.Subperm

/-! # Reassembly of interleaved fragments

The fragment path of `send` against `recv` with its cache. The size of a
message travels only as the signed remainder, and several messages may be half
assembled at once; the cache entry of a message is a function of the number of
its fragments received so far (`entry`). -/
namespace CppIpc.Fragments
open CppIpc.Def CppIpc.Message

/-- A message handed to `send`: the sender's connection id, the message id it
drew and the bytes. -/
structure Sent where
  ccId : MsgId
  id : MsgId
  bytes : List Byte
deriving DecidableEq

/-- The queue elements of the fragment path. -/
def Sent.elems (m : Sent) : List MsgT := (fragments m.bytes).map (MsgT.make m.ccId m.id)

/-! ## The fragments of one message, uniformly -/

/-- The number of fragments of `n` bytes. -/
def fragCount (n : Nat) : Nat := (n + 63) / 64

/-- Fragment `j`; the last one needs no special form, since `take` stops early
and its remainder is negative or zero by the same formula. -/
def fragAt (data : List Byte) (j : Nat) : TryPush :=
  ⟨data.length - 64 * j - 64, .bytes ((data.drop (64 * j)).take 64)⟩

theorem fragments_eq {data : List Byte} (hu : data.length < 2 ^ 31) :
    fragments data = (List.range (fragCount data.length)).map (fragAt data) := by
  have hsize : int32 data.length = data.length := int32_of_range (by omega) (by omega)
  have hcount : (int32 (data.length / dataLength : Nat)).toNat = data.length / 64 := by
    rw [int32_of_range] <;> simp only [dataLength] <;> omega
  have hoff : ∀ i ≤ data.length / 64, int32 (i * dataLength : Nat) = (64 * i : Nat) := by
    intro i hi
    rw [int32_of_range] <;> simp only [dataLength] <;> omega
  have hblock : ∀ i ≤ data.length / 64,
      int32 (data.length - (64 * i : Nat) - dataLength) = data.length - 64 * i - 64 := by
    intro i hi
    rw [int32_of_range] <;> simp only [dataLength] <;> omega
  simp only [fragments, hsize, hcount]
  rw [hoff _ (Nat.le_refl _)]
  have hrem : int32 (data.length - (64 * (data.length / 64) : Nat)) = (data.length % 64 : Nat) := by
    rw [int32_of_range] <;> omega
  have hmap : (List.range (data.length / 64)).map (fun i => TryPush.mk
        (int32 (data.length - int32 (i * dataLength : Nat) - dataLength))
        (.bytes ((data.drop (int32 (i * dataLength : Nat)).toNat).take dataLength))) =
      (List.range (data.length / 64)).map (fragAt data) := by
    apply List.map_congr_left
    intro i hi
    have hi := List.mem_range.mp hi
    rw [hoff i (by omega), hblock i (by omega)]
    rfl
  rw [hmap, hrem]
  by_cases h0 : data.length % 64 = 0
  · have hc : fragCount data.length = data.length / 64 := by unfold fragCount; omega
    simp [h0, hc]
  · have hc : fragCount data.length = data.length / 64 + 1 := by unfold fragCount; omega
    have hlast : int32 ((data.length % 64 : Nat) - dataLength) =
        data.length - 64 * (data.length / 64 : Nat) - 64 := by
      rw [int32_of_range] <;> simp only [dataLength] <;> omega
    have htake : (data.drop (64 * (data.length / 64))).take (data.length % 64) =
        (data.drop (64 * (data.length / 64))).take 64 := by
      rw [List.take_of_length_le (by rw [List.length_drop]; omega),
        List.take_of_length_le (by rw [List.length_drop]; omega)]
    rw [hc, List.range_succ, List.map_append, if_pos (by omega), hlast]
    simp only [Int.toNat_natCast, htake]
    rfl

/-- Queue element `j` of a message. -/
def Sent.elemAt (m : Sent) (j : Nat) : MsgT := MsgT.make m.ccId m.id (fragAt m.bytes j)

theorem Sent.elems_eq {m : Sent} (hu : m.bytes.length < 2 ^ 31) :
    m.elems = (List.range (fragCount m.bytes.length)).map m.elemAt := by
  rw [Sent.elems, fragments_eq hu, List.map_map]
  rfl

theorem Sent.elems_length {m : Sent} (hu : m.bytes.length < 2 ^ 31) :
    m.elems.length = fragCount m.bytes.length := by
  simp [Sent.elems_eq hu]

@[simp] theorem Sent.elemAt_id (m : Sent) (j : Nat) : (m.elemAt j).id = m.id := rfl
@[simp] theorem Sent.elemAt_ccId (m : Sent) (j : Nat) : (m.elemAt j).ccId = m.ccId := rfl
@[simp] theorem Sent.elemAt_remain (m : Sent) (j : Nat) :
    (m.elemAt j).remain = m.bytes.length - 64 * j - 64 := rfl
@[simp] theorem Sent.elemAt_data (m : Sent) (j : Nat) :
    (m.elemAt j).data = fillData ((m.bytes.drop (64 * j)).take 64) := rfl

theorem Sent.elemAt_storage {m : Sent} {j : Nat} (hj : j < fragCount m.bytes.length) :
    (m.elemAt j).storage = false := by
  have hlt : 64 * j < m.bytes.length := by unfold fragCount at hj; omega
  simp only [Sent.elemAt, MsgT.make, fragAt, decide_eq_false_iff_not, List.length_take,
    List.length_drop]
  omega

theorem Sent.id_of_mem {m : Sent} {f : MsgT} (h : f ∈ m.elems) : f.id = m.id := by
  obtain ⟨t, _, rfl⟩ := List.mem_map.mp h
  exact MsgT.make_id _ _ _

theorem Sent.ccId_of_mem {m : Sent} {f : MsgT} (h : f ∈ m.elems) : f.ccId = m.ccId := by
  obtain ⟨t, _, rfl⟩ := List.mem_map.mp h
  exact MsgT.make_ccId _ _ _

/-! ## The cache entry of a half-assembled message -/

/-- The entry after the first `j` fragments: their bytes, then unwritten ones. -/
def entry (data : List Byte) (j : Nat) : CacheT :=
  ⟨64 * j, (data.take (64 * j)).map some ++ List.replicate (data.length - 64 * j) none⟩

theorem makeCache_first {data : List Byte} (h : 64 < data.length) :
    CacheT.mk dataLength (makeCache (fillData (data.take 64)) data.length) = entry data 1 := by
  have hlen : (data.take 64).length = dataLength := by rw [List.length_take, dataLength]; omega
  have hmin : min dataLength data.length = 64 := by rw [dataLength]; omega
  have htake : (fillData (data.take 64)).take 64 = data.take 64 := by
    have := fillData_take (data.take 64) (by omega)
    rwa [hlen] at this
  simp only [makeCache, entry, hmin, htake]
  rfl

theorem makeCache_whole {data : List Byte} (h : data.length ≤ 64) :
    makeCache (fillData (data.take 64)) data.length = data.map some := by
  have hmin : min dataLength data.length = data.length := by rw [dataLength]; omega
  rw [List.take_of_length_le h, makeCache, hmin, fillData_take _ h]
  simp

/-- Appending `s` fresh bytes to an entry that holds the first `k`. -/
theorem append_fresh {data chunk : List Byte} {k s : Nat} (hs : 0 < s)
    (hks : k + s ≤ data.length) (hchunk : chunk.take s = (data.drop k).take s) :
    (CacheT.mk k ((data.take k).map some ++ List.replicate (data.length - k) none)).append chunk s =
      ⟨k + s, (data.take (k + s)).map some ++ List.replicate (data.length - (k + s)) none⟩ := by
  have hlen : ((data.take k).map some ++
      List.replicate (data.length - k) (none : Option Byte)).length = data.length := by
    simp only [List.length_append, List.length_map, List.length_take, List.length_replicate]
    omega
  have hk : ((data.take k).map (some : Byte → Option Byte)).length = k := by
    simp only [List.length_map, List.length_take]; omega
  simp only [CacheT.append, hlen]
  rw [if_neg (by omega)]
  simp only [Nat.min_eq_left hks, Nat.add_sub_cancel_left]
  rw [List.take_left' hk, hchunk, ← List.map_append, ← List.take_add,
    List.drop_append, hk, List.drop_eq_nil_of_le (by rw [hk]; omega)]
  simp only [List.nil_append, List.drop_replicate]
  congr 3
  omega

theorem append_middle {m : Sent} {j : Nat} (h : 64 * (j + 1) ≤ m.bytes.length) :
    (entry m.bytes j).append (m.elemAt j).data dataLength = entry m.bytes (j + 1) := by
  have hlen : ((m.bytes.drop (64 * j)).take 64).length = dataLength := by
    rw [List.length_take, List.length_drop, dataLength]; omega
  have htake := fillData_take ((m.bytes.drop (64 * j)).take 64) (by omega)
  rw [hlen] at htake
  exact append_fresh (by decide) (by rw [dataLength]; omega) htake

theorem append_last {m : Sent} {j : Nat} (hl : 64 * j < m.bytes.length)
    (hu : m.bytes.length ≤ 64 * (j + 1)) :
    ((entry m.bytes j).append (m.elemAt j).data (m.bytes.length - 64 * j)).buff =
      m.bytes.map some := by
  have hd : (m.bytes.drop (64 * j)).take 64 = m.bytes.drop (64 * j) := by
    rw [List.take_of_length_le]; rw [List.length_drop]; omega
  have hlen : (m.bytes.drop (64 * j)).length = m.bytes.length - 64 * j := List.length_drop
  have htake := fillData_take (m.bytes.drop (64 * j)) (by rw [hlen, dataLength]; omega)
  rw [hlen] at htake
  have hchunk : (m.elemAt j).data.take (m.bytes.length - 64 * j) =
      (m.bytes.drop (64 * j)).take (m.bytes.length - 64 * j) := by
    rw [Sent.elemAt_data, hd, htake, List.take_of_length_le (by omega)]
  rw [entry, append_fresh (by omega) (by omega) hchunk]
  simp [show 64 * j + (m.bytes.length - 64 * j) = m.bytes.length by omega]

/-! ## One turn of `recv` on fragment `j` -/

section Turn
variable {h : RecvCtx} {rc : RecvCache} {m : Sent} {j : Nat}

theorem reaches_elemAt (hu : m.bytes.length < 2 ^ 31)
    (hcc : ¬ (h.acc = true ∧ m.ccId = h.ccId)) (hj : j < fragCount m.bytes.length) :
    Reaches h (m.elemAt j) ∧
      int32 (dataLength + (m.elemAt j).remain) = (m.bytes.length - 64 * j : Nat) := by
  have hlt : 64 * j < m.bytes.length := by unfold fragCount at hj; omega
  have hsize : int32 (dataLength + (m.elemAt j).remain) = (m.bytes.length - 64 * j : Nat) := by
    rw [int32_of_range] <;> simp only [dataLength, Sent.elemAt_remain] <;> omega
  exact ⟨⟨hcc, by omega, Sent.elemAt_storage hj⟩, hsize⟩

/-- The checks before the cache: not to self, a positive size, no storage. -/
theorem recvMsg_elemAt (hu : m.bytes.length < 2 ^ 31)
    (hcc : ¬ (h.acc = true ∧ m.ccId = h.ccId)) (hj : j < fragCount m.bytes.length) :
    recvMsg h rc (m.elemAt j) =
      match rc.find m.id with
      | none =>
        if m.bytes.length - 64 * j ≤ dataLength then
          .ret (.cache (makeCache (m.elemAt j).data (m.bytes.length - 64 * j))) rc
        else
          .again ((m.id, ⟨dataLength, makeCache (m.elemAt j).data (m.bytes.length - 64 * j)⟩) ::
            if rc.length > 1024 then rc.gc m.id else rc)
      | some cac =>
        if m.bytes.length - 64 * j ≤ 64 then
          .ret (.cache (cac.append (m.elemAt j).data (m.bytes.length - 64 * j)).buff)
            (rc.erase m.id)
        else .again (rc.update m.id (cac.append (m.elemAt j).data dataLength)) := by
  obtain ⟨hr, hsize⟩ := reaches_elemAt hu hcc hj
  have hlt : 64 * j < m.bytes.length := by unfold fragCount at hj; omega
  have hle : ((m.elemAt j).remain ≤ 0) = (m.bytes.length - 64 * j ≤ 64) := by
    simp only [Sent.elemAt_remain, eq_iff_iff]; omega
  rw [recvMsg_reached hr, hsize]
  cases hf : rc.find m.id with
  | none => simp only [Sent.elemAt_id, Int.toNat_natCast, hf]
  | some cac => simp only [Sent.elemAt_id, Int.toNat_natCast, hle, hf]

/-- A fragment that is not the last one is never answered. -/
theorem recvMsg_more (hu : m.bytes.length < 2 ^ 31) (hcc : ¬ (h.acc = true ∧ m.ccId = h.ccId))
    (hj : j + 1 < fragCount m.bytes.length) : (recvMsg h rc (m.elemAt j)).buff = none := by
  have hbig : ¬ m.bytes.length - 64 * j ≤ dataLength := by
    unfold fragCount at hj
    rw [dataLength]
    omega
  rw [recvMsg_elemAt hu hcc (by omega)]
  cases rc.find m.id with
  | none => simp only [if_neg hbig, Turn.buff]
  | some cac => simp only [if_neg (show ¬ m.bytes.length - 64 * j ≤ 64 from hbig), Turn.buff]

/-- The cache holds the first `j` fragments of the message. -/
def HoldsFirst (rc : RecvCache) (m : Sent) (j : Nat) : Prop :=
  rc.find m.id = if j = 0 then none else some (entry m.bytes j)

/-- The next fragment that is not the last one is added to them. -/
theorem recvMsg_next (hu : m.bytes.length < 2 ^ 31) (hcc : ¬ (h.acc = true ∧ m.ccId = h.ccId))
    (hj : j + 1 < fragCount m.bytes.length) (hf : HoldsFirst rc m j) :
    HoldsFirst (recvMsg h rc (m.elemAt j)).cache m (j + 1) := by
  have hlen : 64 * (j + 1) < m.bytes.length := by unfold fragCount at hj; omega
  unfold HoldsFirst at hf ⊢
  rw [recvMsg_elemAt hu hcc (by omega), if_neg (Nat.succ_ne_zero j)]
  by_cases h0 : j = 0
  · subst h0
    have hbig : ¬ m.bytes.length ≤ dataLength := by rw [dataLength]; omega
    simp only [hf, if_true, Nat.mul_zero, Nat.sub_zero, if_neg hbig]
    rw [Turn.cache, RecvCache.find_cons, if_pos rfl, Sent.elemAt_data, Nat.mul_zero,
      List.drop_zero]
    exact congrArg some (makeCache_first (by omega))
  · simp only [hf, if_neg h0]
    rw [if_neg (by omega), append_middle (by omega), Turn.cache, RecvCache.find_update,
      if_pos rfl, hf, if_neg h0]
    rfl

/-- The last one makes `recv` return the whole message. -/
theorem recvMsg_last (hu : m.bytes.length < 2 ^ 31) (hcc : ¬ (h.acc = true ∧ m.ccId = h.ccId))
    (hj : j + 1 = fragCount m.bytes.length) (hf : HoldsFirst rc m j) :
    (recvMsg h rc (m.elemAt j)).buff = some (.cache (m.bytes.map some)) ∧
      (recvMsg h rc (m.elemAt j)).cache.find m.id = none := by
  have hl : 64 * j < m.bytes.length := by unfold fragCount at hj; omega
  have hr : m.bytes.length ≤ 64 * (j + 1) := by unfold fragCount at hj; omega
  unfold HoldsFirst at hf
  rw [recvMsg_elemAt hu hcc (by omega)]
  by_cases h0 : j = 0
  · subst h0
    have hsmall : m.bytes.length ≤ dataLength := by rw [dataLength]; omega
    simp only [hf, if_true, Nat.mul_zero, Nat.sub_zero, if_pos hsmall]
    rw [Sent.elemAt_data, Nat.mul_zero, List.drop_zero, makeCache_whole (by omega)]
    exact ⟨rfl, hf⟩
  · simp only [hf, if_neg h0]
    rw [if_pos (by omega), append_last hl hr]
    exact ⟨rfl, by rw [Turn.cache, RecvCache.find_erase, if_pos rfl]⟩

end Turn

/-! ## The cache after a prefix of the stream -/

/-- How many fragments of `m` a prefix of the stream holds. -/
def received (m : Sent) (p : List MsgT) : Nat := (p.filter fun f => f.id = m.id).length

/-- The messages of which some but not all fragments have been received. -/
def assembling (msgs : List Sent) (p : List MsgT) : List Sent :=
  msgs.filter fun m => 0 < received m p ∧ received m p < m.elems.length

theorem received_append (m : Sent) (p : List MsgT) (f : MsgT) :
    received m (p ++ [f]) = received m p + if f.id = m.id then 1 else 0 := by
  by_cases h : f.id = m.id <;> simp [received, List.filter_append, h]

structure Assembled (msgs : List Sent) (p : List MsgT) (rc : RecvCache) : Prop where
  found : ∀ m ∈ msgs, rc.find m.id =
    if m ∈ assembling msgs p then some (entry m.bytes (received m p)) else none
  keys : ∀ k ∈ rc.map Prod.fst, ∃ m ∈ assembling msgs p, m.id = k
  nodup : (rc.map Prod.fst).Nodup

theorem assembled_nil (msgs : List Sent) : Assembled msgs [] [] :=
  ⟨by simp [assembling, received, RecvCache.find], by simp, by simp⟩

theorem Assembled.length_le {msgs : List Sent} {p : List MsgT} {rc : RecvCache}
    (ha : Assembled msgs p rc) : rc.length ≤ (assembling msgs p).length := by
  have hsub : rc.map Prod.fst ⊆ (assembling msgs p).map Sent.id := by
    intro k hk
    obtain ⟨m, hm, rfl⟩ := ha.keys k hk
    exact List.mem_map_of_mem hm
  simpa using (List.subperm_of_subset ha.nodup hsub).length_le

theorem mem_assembling {msgs : List Sent} {p : List MsgT} {m : Sent} :
    m ∈ assembling msgs p ↔ m ∈ msgs ∧ 0 < received m p ∧ received m p < m.elems.length := by
  simp [assembling]

section Step
variable {msgs : List Sent} {p : List MsgT} {rc : RecvCache} {m : Sent} {f : MsgT}

/-- Receiving a fragment of `m` changes only the entry of `m`. -/
theorem Assembled.step {rc' : RecvCache} (ha : Assembled msgs p rc)
    (hinj : ∀ a ∈ msgs, ∀ b ∈ msgs, a.id = b.id → a = b) (hm : m ∈ msgs) (hf : f.id = m.id)
    (hfind : rc'.find m.id = if received m p + 1 < m.elems.length then
      some (entry m.bytes (received m p + 1)) else none)
    (hother : ∀ k, k ≠ m.id → rc'.find k = rc.find k)
    (hkeys : ∀ k ∈ rc'.map Prod.fst, k ≠ m.id → k ∈ rc.map Prod.fst)
    (hnodup : (rc'.map Prod.fst).Nodup) : Assembled msgs (p ++ [f]) rc' := by
  have hrec : received m (p ++ [f]) = received m p + 1 := by simp [received_append, hf]
  have hrest : ∀ a ∈ msgs, a ≠ m → a.id ≠ m.id ∧ received a (p ++ [f]) = received a p := by
    intro a hmem hne
    have hid : a.id ≠ m.id := fun he => hne (hinj a hmem m hm he)
    refine ⟨hid, ?_⟩
    rw [received_append, if_neg (by rw [hf]; exact Ne.symm hid), Nat.add_zero]
  refine ⟨?_, ?_, hnodup⟩
  · intro a hmem
    by_cases hne : a = m
    · subst hne
      simp only [hfind, mem_assembling, hmem, hrec, true_and, Nat.succ_pos]
    · obtain ⟨hid, hr⟩ := hrest a hmem hne
      rw [hother _ hid, ha.found a hmem]
      simp only [mem_assembling, hr]
  · intro k hk
    by_cases hkm : k = m.id
    · refine ⟨m, mem_assembling.mpr ⟨hm, by omega, ?_⟩, hkm.symm⟩
      by_contra hge
      rw [hrec] at hge
      rw [if_neg hge, RecvCache.find_eq_none] at hfind
      exact hfind (hkm ▸ hk)
    · obtain ⟨a, haa, rfl⟩ := ha.keys k (hkeys k hk hkm)
      obtain ⟨hmem, h0, hlt⟩ := mem_assembling.mp haa
      have hne : a ≠ m := fun he => hkm (he ▸ rfl)
      refine ⟨a, mem_assembling.mpr ⟨hmem, ?_⟩, rfl⟩
      rw [(hrest a hmem hne).2]
      exact ⟨h0, hlt⟩

theorem Assembled.holdsFirst (ha : Assembled msgs p rc) (hm : m ∈ msgs)
    (hj : received m p < m.elems.length) : HoldsFirst rc m (received m p) := by
  rw [HoldsFirst, ha.found m hm]
  by_cases h0 : received m p = 0
  · rw [if_neg (by simp [mem_assembling, h0]), if_pos h0]
  · rw [if_pos (mem_assembling.mpr ⟨hm, Nat.pos_of_ne_zero h0, hj⟩), if_neg h0]

/-- In a cache that is not collected, a turn changes the entry of its message only. -/
theorem Assembled.turn (ha : Assembled msgs p rc)
    (hinj : ∀ a ∈ msgs, ∀ b ∈ msgs, a.id = b.id → a = b) (hm : m ∈ msgs) (hf : f.id = m.id)
    (hroom : rc.length ≤ 1024) (h : RecvCtx)
    (hfind : (recvMsg h rc f).cache.find m.id = if received m p + 1 < m.elems.length then
      some (entry m.bytes (received m p + 1)) else none) :
    Assembled msgs (p ++ [f]) (recvMsg h rc f).cache := by
  have hother : ∀ k, k ≠ m.id → (recvMsg h rc f).cache.find k = rc.find k := by
    intro k hk
    rw [find_other (by rwa [hf]), if_neg fun hc => absurd hc.2.1 (Nat.not_lt.mpr hroom)]
  refine ha.step hinj hm hf hfind hother ?_ (keys_nodup ha.nodup)
  intro k hk hne
  by_contra hn
  exact (RecvCache.find_eq_none.mp ((hother k hne).trans (RecvCache.find_eq_none.mpr hn))) hk

variable {h : RecvCtx}

/-- A fragment that is not the last one is cached and `recv` goes on. -/
theorem Assembled.turn_again (ha : Assembled msgs p rc)
    (hinj : ∀ a ∈ msgs, ∀ b ∈ msgs, a.id = b.id → a = b) (hm : m ∈ msgs)
    (hu : m.bytes.length < 2 ^ 31) (hcc : m.ccId ≠ h.ccId) (hroom : rc.length ≤ 1024)
    (hj : received m p + 1 < m.elems.length) :
    ∃ rc', recvMsg h rc (m.elemAt (received m p)) = .again rc' ∧
      Assembled msgs (p ++ [m.elemAt (received m p)]) rc' := by
  have hcc' : ¬ (h.acc = true ∧ m.ccId = h.ccId) := fun hc => hcc hc.2
  have hlt := hj
  rw [Sent.elems_length hu] at hlt
  refine ⟨_, Turn.eq_again (recvMsg_more hu hcc' hlt), ha.turn hinj hm rfl hroom h ?_⟩
  rw [recvMsg_next hu hcc' hlt (ha.holdsFirst hm (by omega)), if_neg (Nat.succ_ne_zero _), if_pos hj]

/-- The last fragment makes `recv` return the whole message. -/
theorem Assembled.turn_ret (ha : Assembled msgs p rc)
    (hinj : ∀ a ∈ msgs, ∀ b ∈ msgs, a.id = b.id → a = b) (hm : m ∈ msgs)
    (hu : m.bytes.length < 2 ^ 31) (hcc : m.ccId ≠ h.ccId) (hroom : rc.length ≤ 1024)
    (hj : received m p + 1 = m.elems.length) :
    ∃ rc', recvMsg h rc (m.elemAt (received m p)) = .ret (.cache (m.bytes.map some)) rc' ∧
      Assembled msgs (p ++ [m.elemAt (received m p)]) rc' := by
  have hcc' : ¬ (h.acc = true ∧ m.ccId = h.ccId) := fun hc => hcc hc.2
  have hlast := hj
  rw [Sent.elems_length hu] at hlast
  obtain ⟨hret, hnone⟩ := recvMsg_last hu hcc' hlast (ha.holdsFirst hm (by omega))
  refine ⟨_, Turn.eq_ret hret, ha.turn hinj hm rfl hroom h ?_⟩
  rw [hnone, if_neg (by omega)]

end Step

/-! ## Whole streams -/

/-- An interleaving of complete fragment sequences: every element belongs to one
of the messages, and the elements of each message are its sequence in order. -/
structure Interleaving (msgs : List Sent) (stream : List MsgT) : Prop where
  ofMsgs : ∀ f ∈ stream, ∃ m ∈ msgs, f.id = m.id
  inOrder : ∀ m ∈ msgs, (stream.filter fun f => f.id = m.id) = m.elems

/-- The messages whose last fragment is in `s`, in the order of these fragments. -/
def completed (msgs : List Sent) (s : List MsgT) : List Sent :=
  s.filterMap fun f => msgs.find? fun m => m.elems.getLast? = some f

section Stream
variable {msgs : List Sent} {stream p s : List MsgT} {f : MsgT} {m : Sent}

/-- An element of the stream is the next fragment of its message. -/
theorem Interleaving.elem_eq (hi : Interleaving msgs stream) (he : stream = p ++ f :: s)
    (hm : m ∈ msgs) (hf : f.id = m.id) (hu : m.bytes.length < 2 ^ 31) :
    received m p < m.elems.length ∧ f = m.elemAt (received m p) := by
  have hsplit := hi.inOrder m hm
  rw [he, List.filter_append, List.filter_cons_of_pos (by simpa using hf)] at hsplit
  have hget : m.elems[received m p]? = some f := by
    rw [← hsplit]; simp [received]
  have hlt := (List.getElem?_eq_some_iff.mp hget).1
  refine ⟨hlt, ?_⟩
  rw [Sent.elems_length hu] at hlt
  rw [Sent.elems_eq hu, List.getElem?_map, List.getElem?_range hlt] at hget
  exact (Option.some.inj hget).symm

theorem getLast?_elems (hu : m.bytes.length < 2 ^ 31) {j : Nat} (hj : j < m.elems.length) :
    m.elems.getLast? = some (m.elemAt j) ↔ j + 1 = m.elems.length := by
  rw [List.getLast?_eq_getElem?]
  rw [Sent.elems_length hu] at hj ⊢
  rw [Sent.elems_eq hu, List.getElem?_map, List.getElem?_range (by omega), Option.map_some,
    Option.some.injEq]
  constructor
  · intro he
    have hrem := congrArg MsgT.remain he
    simp only [Sent.elemAt_remain] at hrem
    omega
  · intro he; congr 1; omega

theorem completed_cons (hinj : ∀ a ∈ msgs, ∀ b ∈ msgs, a.id = b.id → a = b) (hm : m ∈ msgs)
    (hu : m.bytes.length < 2 ^ 31) {j : Nat} (hj : j < m.elems.length) :
    completed msgs (m.elemAt j :: s) =
      if j + 1 = m.elems.length then m :: completed msgs s else completed msgs s := by
  have hown : ∀ a ∈ msgs, a.elems.getLast? = some (m.elemAt j) → a = m := by
    intro a hmem hl
    exact hinj a hmem m hm (Sent.id_of_mem (List.mem_of_getLast? hl)).symm
  split
  · rename_i he
    have hlast := (getLast?_elems hu hj).mpr he
    have hfind : (msgs.find? fun a => a.elems.getLast? = some (m.elemAt j)) = some m := by
      cases hc : msgs.find? fun a => a.elems.getLast? = some (m.elemAt j) with
      | none => exact absurd hlast (by simpa using List.find?_eq_none.mp hc m hm)
      | some a =>
        rw [hown a (List.mem_of_find?_eq_some hc) (by simpa using List.find?_some hc)]
    simp only [completed, List.filterMap_cons, hfind]
  · rename_i he
    have hfind : (msgs.find? fun a => a.elems.getLast? = some (m.elemAt j)) = none := by
      apply List.find?_eq_none.mpr
      intro a hmem hl
      have hl : a.elems.getLast? = some (m.elemAt j) := by simpa using hl
      have := hown a hmem hl
      subst this
      exact he ((getLast?_elems hu hj).mp hl)
    simp only [completed, List.filterMap_cons, hfind]

theorem mem_completed (hinj : ∀ a ∈ msgs, ∀ b ∈ msgs, a.id = b.id → a = b) (hm : m ∈ msgs)
    (hu : m.bytes.length < 2 ^ 31) (h0 : 0 < m.elems.length)
    (hlast : m.elemAt (m.elems.length - 1) ∈ s) : m ∈ completed msgs s := by
  obtain ⟨a, b, rfl⟩ := List.append_of_mem hlast
  have hc := completed_cons (s := b) hinj hm hu (j := m.elems.length - 1) (by omega)
  rw [if_pos (by omega)] at hc
  rw [completed, List.filterMap_append, ← completed, ← completed, hc]
  simp

/-- A message with a fragment still to come has its last fragment still to come. -/
theorem Interleaving.last_mem (hi : Interleaving msgs stream) (he : stream = p ++ s)
    (hm : m ∈ msgs) (hu : m.bytes.length < 2 ^ 31) (hr : received m p < m.elems.length) :
    m.elemAt (m.elems.length - 1) ∈ s := by
  have hsplit := hi.inOrder m hm
  rw [he, List.filter_append] at hsplit
  have hget : m.elems[m.elems.length - 1]? = some (m.elemAt (m.elems.length - 1)) := by
    have hlt : m.elems.length - 1 < fragCount m.bytes.length := by
      rw [← Sent.elems_length hu]; omega
    rw [show m.elems[m.elems.length - 1]? = ((List.range (fragCount m.bytes.length)).map
      m.elemAt)[m.elems.length - 1]? by rw [← Sent.elems_eq hu],
      List.getElem?_map, List.getElem?_range hlt]
    rfl
  rw [← hsplit, List.getElem?_append_right (by rw [hsplit]; unfold received at hr; omega),
    hsplit] at hget
  exact (List.mem_filter.mp (List.mem_of_getElem? hget)).1

theorem Interleaving.received_all (hi : Interleaving msgs stream) (hm : m ∈ msgs) :
    received m stream = m.elems.length := by
  rw [received, hi.inOrder m hm]

end Stream

section Main
variable {h : RecvCtx} {msgs : List Sent} {stream : List MsgT}

/-- Each message is completed once, and only while it still has fragments due. -/
theorem completed_nodup (hu : ∀ m ∈ msgs, m.bytes.length < 2 ^ 31)
    (hinj : ∀ a ∈ msgs, ∀ b ∈ msgs, a.id = b.id → a = b) (hi : Interleaving msgs stream) :
    ∀ s p, stream = p ++ s → (completed msgs s).Nodup ∧
      ∀ m ∈ completed msgs s, m ∈ msgs ∧ received m p < m.elems.length := by
  intro s
  induction s with
  | nil => intro p _; simp [completed]
  | cons f s ih =>
    intro p he
    obtain ⟨m, hm, hf⟩ := hi.ofMsgs f (by simp [he])
    obtain ⟨hlt, hfe⟩ := hi.elem_eq he hm hf (hu m hm)
    obtain ⟨hnd, hmem⟩ := ih (p ++ [f]) (by simp [he])
    have hmono : ∀ a, received a p ≤ received a (p ++ [f]) := by
      intro a; rw [received_append]; omega
    have hback : ∀ a ∈ completed msgs s, a ∈ msgs ∧ received a p < a.elems.length :=
      fun a ha => ⟨(hmem a ha).1, Nat.lt_of_le_of_lt (hmono a) (hmem a ha).2⟩
    rw [hfe, completed_cons hinj hm (hu m hm) hlt]
    split
    · rename_i hlast
      refine ⟨List.nodup_cons.mpr ⟨?_, hnd⟩, ?_⟩
      · intro hc
        have := (hmem m hc).2
        rw [received_append, if_pos hf] at this
        omega
      · intro a ha
        rcases List.mem_cons.mp ha with rfl | ha
        · exact ⟨hm, hlt⟩
        · exact hback a ha
    · exact ⟨hnd, hback⟩

/-- From any point of the stream on, the calls of `recv` return the messages
still to be completed, and leave the cache empty. -/
theorem recvCalls_suffix (hu : ∀ m ∈ msgs, m.bytes.length < 2 ^ 31)
    (hinj : ∀ a ∈ msgs, ∀ b ∈ msgs, a.id = b.id → a = b)
    (hcc : ∀ m ∈ msgs, m.ccId ≠ h.ccId) (hi : Interleaving msgs stream)
    (hpart : ∀ p, p <+: stream → (assembling msgs p).length ≤ 1024) :
    ∀ s p rc, stream = p ++ s → Assembled msgs p rc →
      recvCalls h (completed msgs s).length rc s =
        ((completed msgs s).map fun m => .cache (m.bytes.map some), [], []) := by
  intro s
  induction s with
  | nil =>
    intro p rc he ha
    have hrc : rc = [] := by
      cases rc with
      | nil => rfl
      | cons q rest =>
        obtain ⟨m, hm, _⟩ := ha.keys q.1 (by simp)
        obtain ⟨hm, _, hlt⟩ := mem_assembling.mp hm
        rw [show p = stream by simp [he], hi.received_all hm] at hlt
        omega
    simp [completed, recvCalls, hrc]
  | cons f s ih =>
    intro p rc he ha
    obtain ⟨m, hm, hf⟩ := hi.ofMsgs f (by simp [he])
    obtain ⟨hlt, hfe⟩ := hi.elem_eq he hm hf (hu m hm)
    have hroom : rc.length ≤ 1024 := Nat.le_trans ha.length_le (hpart p ⟨f :: s, he.symm⟩)
    have he' : stream = (p ++ [f]) ++ s := by simp [he]
    rw [hfe] at he' ⊢
    rw [completed_cons hinj hm (hu m hm) hlt]
    split
    · rename_i hlast
      obtain ⟨rc', hturn, ha'⟩ := ha.turn_ret hinj hm (hu m hm) (hcc m hm) hroom hlast
      simp only [List.length_cons, recvCalls, recv, hturn, ih _ rc' he' ha', List.map_cons]
    · rename_i hlast
      obtain ⟨rc', hturn, ha'⟩ := ha.turn_again hinj hm (hu m hm) (hcc m hm) hroom (by omega)
      have hrest := ih _ rc' he' ha'
      -- the last fragment of `m` is still to come, so at least one call is left
      have hlen : 0 < (completed msgs s).length := by
        apply List.length_pos_of_mem
        refine mem_completed hinj hm (hu m hm) (by omega) (hi.last_mem he' hm (hu m hm) ?_)
        rw [received_append, if_pos (Sent.elemAt_id _ _)]
        omega
      obtain ⟨n, hn⟩ := Nat.exists_eq_succ_of_ne_zero (Nat.ne_of_gt hlen)
      rw [hn] at hrest ⊢
      simpa only [recvCalls, recv, hturn] using hrest

/-- **Encoder and decoder agree under interleaving.** The receiver's successive
calls return exactly the messages sent, each once, byte for byte, in the order of
their last fragments, and its cache is empty afterwards. -/
theorem recv_interleaved (h : RecvCtx) (msgs : List Sent) (stream : List MsgT)
    (hlen : ∀ m ∈ msgs, 0 < m.bytes.length ∧ m.bytes.length < 2 ^ 31)
    (hids : (msgs.map Sent.id).Nodup) (hcc : ∀ m ∈ msgs, m.ccId ≠ h.ccId)
    (hi : Interleaving msgs stream)
    (hpart : ∀ p, p <+: stream → (assembling msgs p).length ≤ 1024) :
    recvCalls h msgs.length [] stream =
        ((completed msgs stream).map fun m => .cache (m.bytes.map some), [], []) ∧
      (completed msgs stream).Perm msgs := by
  have hu : ∀ m ∈ msgs, m.bytes.length < 2 ^ 31 := fun m hm => (hlen m hm).2
  have hinj : ∀ a ∈ msgs, ∀ b ∈ msgs, a.id = b.id → a = b := fun a ha b hb =>
    List.inj_on_of_nodup_map hids ha hb
  have hperm : (completed msgs stream).Perm msgs := by
    obtain ⟨hnd, hmem⟩ := completed_nodup hu hinj hi stream [] rfl
    apply (List.perm_ext_iff_of_nodup hnd hids.of_map).mpr
    intro m
    refine ⟨fun hm => (hmem m hm).1, fun hm => ?_⟩
    have hpos : 0 < m.elems.length := by
      have := (hlen m hm).1
      rw [Sent.elems_length (hu m hm), fragCount]
      omega
    exact mem_completed hinj hm (hu m hm) hpos
      (hi.last_mem (p := []) rfl hm (hu m hm) (by simpa [received] using hpos))
  refine ⟨?_, hperm⟩
  rw [← hperm.length_eq]
  exact recvCalls_suffix hu hinj hcc hi hpart stream [] [] rfl (assembled_nil msgs)

end Main

/-- Two messages of two fragments each, the second one sent inside the first. -/
def nested : List Sent := [⟨1, 7, List.replicate 65 1⟩, ⟨2, 8, List.replicate 128 2⟩]

def nestedStream : List MsgT :=
  [nested[0].elemAt 0, nested[1].elemAt 0, nested[1].elemAt 1, nested[0].elemAt 1]

theorem nested_interleaving : Interleaving nested nestedStream :=
  ⟨by decide +kernel, by decide +kernel⟩

theorem recv_nested :
    recvCalls ⟨true, 3⟩ 2 [] nestedStream =
      ([.cache (List.replicate 128 (some 2)), .cache (List.replicate 65 (some 1))], [], []) := by
  have hall := recv_interleaved ⟨true, 3⟩ nested nestedStream (by decide +kernel)
    (by decide) (by decide) nested_interleaving
    (fun p _ => Nat.le_trans (List.length_filter_le _ _) (by decide))
  have hdone : completed nested nestedStream = [nested[1], nested[0]] := by decide +kernel
  rw [hdone] at hall
  simpa [nested] using hall.1

end CppIpc.Fragments
