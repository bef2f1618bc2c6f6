import CppIpc.Def

/-! # Messages: what `send` pushes and what `recv` makes of it

The queue element `msg_t`, the sequence of `try_push` calls of
`detail_impl::send`, and one turn of the loop of `detail_impl::recv` with the
receive cache. The queue itself, the waiters and the chunk storage are in
other modules: here a popped element is given, and for a large message only its
storage id and size are returned. -/
namespace CppIpc.Message
open CppIpc.Def

/-! ## Queue elements -/

/-- `msg_t<64, _>`: the 64 bytes of `data_` hold either message bytes or, when
`storage_` is set, the storage id of a large message. -/
structure MsgT where
  ccId : MsgId
  id : MsgId
  remain : Int
  storage : Bool
  data : List Byte
  data_length : data.length = dataLength
deriving DecidableEq

/-- The value-initialised `msg_t {}`, also what zero-filled memory holds. -/
def MsgT.zero : MsgT where
  ccId := 0
  id := 0
  remain := 0
  storage := false
  data := List.replicate dataLength 0
  data_length := List.length_replicate

instance : Inhabited MsgT := ⟨MsgT.zero⟩

/-- The `(data, size)` pair given to `try_push`: a run of bytes, or a pointer to
the storage id with size 0. -/
inductive Payload where
  | bytes (bs : List Byte)
  | storageId (id : Int)
deriving DecidableEq

/-- One call of `try_push`. -/
structure TryPush where
  remain : Int
  payload : Payload
deriving DecidableEq

/-- `memcpy(&data_, bs, size)` into zeroed storage. -/
def fillData (bs : List Byte) : List Byte :=
  bs.take dataLength ++ List.replicate (dataLength - bs.length) 0

theorem fillData_length (bs : List Byte) : (fillData bs).length = dataLength := by
  simp [fillData]; omega

theorem fillData_take (bs : List Byte) (h : bs.length ≤ dataLength) :
    (fillData bs).take bs.length = bs := by
  rw [fillData, List.take_of_length_le h]
  simp

/-- The bytes of a 32-bit storage id. -/
def idBytes (id : Int) : List Byte :=
  let w := (BitVec.ofInt 32 id).toNat
  [UInt8.ofNat (w % 256), UInt8.ofNat (w / 256 % 256), UInt8.ofNat (w / 65536 % 256),
    UInt8.ofNat (w / 16777216)]

/-- `*reinterpret_cast<storage_id_t*>(&data_)`. -/
def loadId (data : List Byte) : Int :=
  let b := fun i => (data.getD i 0).toNat
  int32 (b 0 + 256 * b 1 + 65536 * b 2 + 16777216 * b 3 : Nat)

theorem loadId_idBytes {id : Int} (hl : -2 ^ 31 ≤ id) (hu : id < 2 ^ 31) :
    loadId (fillData (idBytes id)) = id := by
  simp only [loadId, fillData, idBytes, dataLength]
  have hw := (BitVec.ofInt 32 id).isLt
  have hid : ((BitVec.ofInt 32 id).toNat : Int) = id % 2 ^ 32 := by
    rw [BitVec.toNat_ofInt]; omega
  generalize (BitVec.ofInt 32 id).toNat = w at hw hid
  simp only [List.take_succ_cons, List.take_nil, List.cons_append, List.getD_cons_zero,
    List.getD_cons_succ, UInt8.toNat_ofNat']
  have hsum : w % 256 % 2 ^ 8 + 256 * (w / 256 % 256 % 2 ^ 8) +
      65536 * (w / 65536 % 256 % 2 ^ 8) + 16777216 * (w / 16777216 % 2 ^ 8) = w := by
    omega
  rw [hsum, hid, int32, show ((2 : Int) ^ 32) = ((2 ^ 32 : Nat) : Int) from rfl,
    Int.emod_bmod]
  exact int32_of_range hl hu

/-- The constructor of `msg_t`. -/
def MsgT.make (ccId id : MsgId) (t : TryPush) : MsgT :=
  match t.payload with
  | .bytes bs => ⟨ccId, id, t.remain, bs.length = 0, fillData bs, fillData_length bs⟩
  | .storageId sid =>
    ⟨ccId, id, t.remain, true, fillData (idBytes sid), fillData_length _⟩

@[simp] theorem MsgT.make_id (ccId id : MsgId) (t : TryPush) : (MsgT.make ccId id t).id = id := by
  unfold MsgT.make; split <;> rfl

@[simp] theorem MsgT.make_ccId (ccId id : MsgId) (t : TryPush) :
    (MsgT.make ccId id t).ccId = ccId := by
  unfold MsgT.make; split <;> rfl

/-! ## The `try_push` calls of `send` -/

/-- The calls of the fragment path: the loop over the whole blocks of 64 bytes,
then the rest. All of `offset`, `remain` and the loop bound are `int32_t`. -/
def fragments (data : List Byte) : List TryPush :=
  let size : Int := int32 data.length
  let count := (int32 (data.length / dataLength : Nat)).toNat
  let offset (i : Nat) : Int := int32 (i * dataLength : Nat)
  let block (i : Nat) : TryPush :=
    ⟨int32 (size - offset i - dataLength),
      .bytes ((data.drop (offset i).toNat).take dataLength)⟩
  let remain := int32 (size - offset count)
  (List.range count).map block ++
    if 0 < remain then
      [⟨int32 (remain - dataLength), .bytes ((data.drop (offset count).toNat).take remain.toNat)⟩]
    else []

/-- All calls for one message, in order; `send` stops at the first that returns
false. `sid` is what `acquire_storage` gave, if it was asked and had a chunk. -/
def pushes (data : List Byte) (sid : Option Int) : List TryPush :=
  match sid with
  | some id =>
    if data.length > largeMsgLimit then
      [⟨int32 (int32 data.length - dataLength), .storageId id⟩]
    else fragments data
  | none => fragments data

/-! ## The receive cache -/

/-- The bytes of an allocated buffer; `none` is a byte nobody has written. -/
abbrev Bytes := List (Option Byte)

/-- `make_cache`: a buffer of `size` bytes that starts with those of `data`. -/
def makeCache (data : List Byte) (size : Nat) : Bytes :=
  (data.take (min dataLength size)).map some ++
    List.replicate (size - min dataLength size) none

structure CacheT where
  fill : Nat
  buff : Bytes
deriving DecidableEq

/-- `cache_t::append`. -/
def CacheT.append (c : CacheT) (data : List Byte) (size : Nat) : CacheT :=
  if c.fill ≥ c.buff.length ∨ size = 0 then c
  else
    let newFill := min (c.fill + size) c.buff.length
    ⟨newFill, c.buff.take c.fill ++ (data.take (newFill - c.fill)).map some ++
      c.buff.drop newFill⟩

/-- `recv_cache()`: the partially assembled messages by id. -/
abbrev RecvCache := List (MsgId × CacheT)

def RecvCache.find (rc : RecvCache) (id : MsgId) : Option CacheT := List.lookup id rc

def RecvCache.erase (rc : RecvCache) (id : MsgId) : RecvCache := rc.filter (·.1 ≠ id)

/-- Assignment through the iterator that `find` returned. -/
def RecvCache.update (rc : RecvCache) (id : MsgId) (c : CacheT) : RecvCache :=
  rc.map fun p => if p.1 = id then (id, c) else p

/-- The collection step: ids whose plain difference from `id` exceeds 8192 go. -/
def RecvCache.gc (rc : RecvCache) (id : MsgId) : RecvCache :=
  rc.filter fun p => ¬ (max id.toNat p.1.toNat - min id.toNat p.1.toNat > 8192)

theorem RecvCache.find_eq_none {rc : RecvCache} {id : MsgId} :
    rc.find id = none ↔ id ∉ rc.map Prod.fst := by
  rw [RecvCache.find, List.lookup_eq_none_iff]
  simp only [List.mem_map, not_exists, not_and, bne_iff_ne]
  exact ⟨fun h p hp he => h p hp he.symm, fun h p hp he => h p hp he.symm⟩

theorem RecvCache.find_cons (rc : RecvCache) (id k : MsgId) (c : CacheT) :
    RecvCache.find ((id, c) :: rc) k = if k = id then some c else rc.find k := by
  by_cases hk : k = id
  · simp [RecvCache.find, hk]
  · have hb : (k == id) = false := by simpa using hk
    simp [RecvCache.find, List.lookup_cons, hk, hb]

/-- Dropping entries by their key. -/
theorem RecvCache.find_filter (rc : RecvCache) (keep : MsgId → Bool) (k : MsgId) :
    RecvCache.find (rc.filter fun p => keep p.1) k = if keep k then rc.find k else none := by
  induction rc with
  | nil => simp [RecvCache.find]
  | cons p rest ih =>
    obtain ⟨i, c⟩ := p
    rw [List.filter_cons]
    by_cases hi : keep i = true
    · rw [if_pos hi, RecvCache.find_cons, RecvCache.find_cons, ih]
      by_cases hk : k = i
      · subst hk; rw [if_pos rfl, if_pos rfl, if_pos hi]
      · rw [if_neg hk, if_neg hk]
    · rw [if_neg hi, ih, RecvCache.find_cons]
      by_cases hk : k = i
      · subst hk; rw [if_neg hi, if_neg hi]
      · rw [if_neg hk]

theorem RecvCache.find_erase (rc : RecvCache) (id k : MsgId) :
    (rc.erase id).find k = if k = id then none else rc.find k := by
  rw [RecvCache.erase, RecvCache.find_filter rc (fun k => k ≠ id)]
  by_cases hk : k = id <;> simp [hk]

theorem RecvCache.find_gc (rc : RecvCache) (id k : MsgId) :
    (rc.gc id).find k =
      if 8192 < max id.toNat k.toNat - min id.toNat k.toNat then none else rc.find k := by
  rw [RecvCache.gc, RecvCache.find_filter rc
    fun k => ¬ (max id.toNat k.toNat - min id.toNat k.toNat > 8192)]
  by_cases hk : 8192 < max id.toNat k.toNat - min id.toNat k.toNat <;> simp [hk]

theorem RecvCache.find_update (rc : RecvCache) (id k : MsgId) (c : CacheT) :
    (rc.update id c).find k = if k = id then (rc.find id).map (fun _ => c) else rc.find k := by
  induction rc with
  | nil => simp [RecvCache.update, RecvCache.find]
  | cons p rest ih =>
    obtain ⟨i, d⟩ := p
    rw [show RecvCache.update ((i, d) :: rest) id c =
      (if i = id then (id, c) else (i, d)) :: RecvCache.update rest id c from rfl]
    by_cases hi : i = id
    · subst hi
      rw [if_pos rfl]
      simp only [RecvCache.find_cons, ih]
      split <;> simp
    · rw [if_neg hi]
      simp only [RecvCache.find_cons, ih]
      by_cases hk : k = i
      · simp [hk, hi]
      · simp [hk, Ne.symm hi]

theorem RecvCache.keys_update (rc : RecvCache) (id : MsgId) (c : CacheT) :
    (rc.update id c).map Prod.fst = rc.map Prod.fst := by
  rw [RecvCache.update, List.map_map]
  apply List.map_congr_left
  intro p _
  by_cases hp : p.1 = id <;> simp [hp]

/-! ## One turn of the loop of `recv` -/

/-- `buff_t` as `recv` returns it. A large message is the address of its chunk;
the record `recycle_t` of its deleter is made where the chunks are modelled. -/
inductive Buff where
  | empty
  | cache (bytes : Bytes)
  | storage (id : Int) (size : Nat)
deriving DecidableEq

/-- What `recv` reads of its handle: whether `acc()` is there, and `cc_id_`. -/
structure RecvCtx where
  acc : Bool
  ccId : MsgId
deriving DecidableEq

inductive Turn where
  | again (rc : RecvCache)
  | ret (b : Buff) (rc : RecvCache)
deriving DecidableEq

def Turn.cache : Turn → RecvCache
  | .again rc => rc
  | .ret _ rc => rc

def Turn.buff : Turn → Option Buff
  | .again _ => none
  | .ret b _ => some b

theorem Turn.eq_again {r : Turn} (hb : r.buff = none) : r = .again r.cache := by
  cases r with
  | again rc => rfl
  | ret b rc => cases hb

theorem Turn.eq_ret {r : Turn} {b : Buff} (hb : r.buff = some b) : r = .ret b r.cache := by
  cases r with
  | again rc => cases hb
  | ret b' rc => obtain rfl := Option.some.inj hb; rfl

/-- The body of the loop after a successful pop. -/
def recvMsg (h : RecvCtx) (rc : RecvCache) (msg : MsgT) : Turn :=
  if h.acc ∧ msg.ccId = h.ccId then .again rc -- a message to self
  else
    let rSize := int32 (dataLength + msg.remain)
    if rSize ≤ 0 then .ret .empty rc
    else
      let msgSize := rSize.toNat
      if msg.storage then
        let bufId := loadId msg.data
        -- `find_storage` refuses negative ids
        if bufId < 0 then .again rc
        else .ret (.storage bufId msgSize) rc
      else
        match rc.find msg.id with
        | none =>
          if msgSize ≤ dataLength then .ret (.cache (makeCache msg.data msgSize)) rc
          else
            let rc := if rc.length > 1024 then rc.gc msg.id else rc
            .again ((msg.id, ⟨dataLength, makeCache msg.data msgSize⟩) :: rc)
        | some cac =>
          if msg.remain ≤ 0 then
            .ret (.cache (cac.append msg.data msgSize).buff) (rc.erase msg.id)
          else .again (rc.update msg.id (cac.append msg.data dataLength))

/-! ## What one turn of `recv` does to a cache -/

/-- The element gets as far as the cache. -/
def Reaches (h : RecvCtx) (msg : MsgT) : Prop :=
  ¬ (h.acc = true ∧ msg.ccId = h.ccId) ∧ 0 < int32 (dataLength + msg.remain) ∧
    msg.storage = false

/-- It is taken for a first fragment with more to come. -/
def Opens (h : RecvCtx) (rc : RecvCache) (msg : MsgT) : Prop :=
  Reaches h msg ∧ rc.find msg.id = none ∧
    dataLength < (int32 (dataLength + msg.remain)).toNat

/-- Opening an entry for `id` in a cache of `n` entries collects the one for `k`. -/
def Collects (n : Nat) (id k : MsgId) : Prop :=
  1024 < n ∧ 8192 < max id.toNat k.toNat - min id.toNat k.toNat

instance (h : RecvCtx) (msg : MsgT) : Decidable (Reaches h msg) :=
  inferInstanceAs (Decidable (_ ∧ _ ∧ _))

instance (h : RecvCtx) (rc : RecvCache) (msg : MsgT) : Decidable (Opens h rc msg) :=
  inferInstanceAs (Decidable (_ ∧ _ ∧ _))

instance (n : Nat) (id k : MsgId) : Decidable (Collects n id k) :=
  inferInstanceAs (Decidable (_ ∧ _))

section Turn
variable {h : RecvCtx} {rc rc' : RecvCache} {msg : MsgT} {k : MsgId}

/-- An element that does not get there leaves the cache alone and is answered
without it. -/
theorem recvMsg_unreached (hr : ¬ Reaches h msg) (rc : RecvCache) :
    (recvMsg h rc msg).cache = rc ∧
      ∀ rc', (recvMsg h rc' msg).buff = (recvMsg h rc msg).buff := by
  unfold recvMsg
  by_cases hs : h.acc = true ∧ msg.ccId = h.ccId
  · simp only [if_pos hs]
    exact ⟨rfl, fun _ => rfl⟩
  · simp only [if_neg hs]
    by_cases hp : int32 (dataLength + msg.remain) ≤ 0
    · simp only [if_pos hp]
      exact ⟨rfl, fun _ => rfl⟩
    · have hst : msg.storage = true := by
        cases hst : msg.storage with
        | true => rfl
        | false => exact absurd ⟨hs, by omega, hst⟩ hr
      simp only [if_neg hp, if_pos hst]
      split
      · exact ⟨rfl, fun _ => rfl⟩
      · exact ⟨rfl, fun _ => rfl⟩

theorem recvMsg_reached (hr : Reaches h msg) (rc : RecvCache) :
    recvMsg h rc msg =
      match rc.find msg.id with
      | none =>
        if (int32 (dataLength + msg.remain)).toNat ≤ dataLength then
          .ret (.cache (makeCache msg.data (int32 (dataLength + msg.remain)).toNat)) rc
        else
          .again ((msg.id, ⟨dataLength, makeCache msg.data
            (int32 (dataLength + msg.remain)).toNat⟩) ::
              if rc.length > 1024 then rc.gc msg.id else rc)
      | some cac =>
        if msg.remain ≤ 0 then
          .ret (.cache (cac.append msg.data (int32 (dataLength + msg.remain)).toNat).buff)
            (rc.erase msg.id)
        else .again (rc.update msg.id (cac.append msg.data dataLength)) := by
  obtain ⟨hs, hp, hst⟩ := hr
  unfold recvMsg
  rw [if_neg hs]
  dsimp only
  rw [if_neg (Int.not_le.mpr hp), if_neg (by rw [hst]; exact Bool.false_ne_true)]

/-- What a turn can do, with what leads to it. -/
inductive Outcome (h : RecvCtx) (rc : RecvCache) (msg : MsgT) : Turn → Prop
  | own (hown : h.acc = true ∧ msg.ccId = h.ccId) : Outcome h rc msg (.again rc)
  | wrong (hsize : int32 (dataLength + msg.remain) ≤ 0) : Outcome h rc msg (.ret .empty rc)
  | negative (hst : msg.storage = true) (hid : loadId msg.data < 0) : Outcome h rc msg (.again rc)
  | large (hst : msg.storage = true) (hsize : 0 < int32 (dataLength + msg.remain))
    (hid : 0 ≤ loadId msg.data) : Outcome h rc msg
      (.ret (.storage (loadId msg.data) (int32 (dataLength + msg.remain)).toNat) rc)
  | whole (hr : Reaches h msg) (hf : rc.find msg.id = none)
    (hle : (int32 (dataLength + msg.remain)).toNat ≤ dataLength) : Outcome h rc msg
      (.ret (.cache (makeCache msg.data (int32 (dataLength + msg.remain)).toNat)) rc)
  | opened (ho : Opens h rc msg) : Outcome h rc msg
      (.again ((msg.id, ⟨dataLength, makeCache msg.data (int32 (dataLength + msg.remain)).toNat⟩) ::
        if rc.length > 1024 then rc.gc msg.id else rc))
  | last (hr : Reaches h msg) (cac : CacheT) (hf : rc.find msg.id = some cac)
    (hrem : msg.remain ≤ 0) : Outcome h rc msg
      (.ret (.cache (cac.append msg.data (int32 (dataLength + msg.remain)).toNat).buff)
        (rc.erase msg.id))
  | more (hr : Reaches h msg) (cac : CacheT) (hf : rc.find msg.id = some cac)
    (hrem : 0 < msg.remain) : Outcome h rc msg
      (.again (rc.update msg.id (cac.append msg.data dataLength)))

theorem recvMsg_outcome (h : RecvCtx) (rc : RecvCache) (msg : MsgT) :
    Outcome h rc msg (recvMsg h rc msg) := by
  by_cases hr : Reaches h msg
  · rw [recvMsg_reached hr]
    cases hf : rc.find msg.id with
    | none =>
      dsimp only
      split
      · rename_i hle
        exact .whole hr hf hle
      · rename_i hle
        exact .opened ⟨hr, hf, Nat.not_le.mp hle⟩
    | some cac =>
      dsimp only
      split
      · rename_i hrem
        exact .last hr cac hf hrem
      · rename_i hrem
        exact .more hr cac hf (Int.not_le.mp hrem)
  · unfold recvMsg
    split
    · rename_i hown
      exact .own hown
    · rename_i hown
      dsimp only
      split
      · rename_i hsize
        exact .wrong hsize
      · rename_i hsize
        split
        · rename_i hst
          split
          · rename_i hid
            exact .negative hst hid
          · rename_i hid
            exact .large hst (Int.not_le.mp hsize) (Int.not_lt.mp hid)
        · rename_i hst
          exact absurd ⟨hown, Int.not_le.mp hsize, Bool.eq_false_iff.mpr hst⟩ hr

/-- The entry under the element's own id decides the answer and the new entry. -/
theorem recvMsg_agree (he : Reaches h msg → rc.find msg.id = rc'.find msg.id) :
    (recvMsg h rc msg).buff = (recvMsg h rc' msg).buff := by
  by_cases hr : Reaches h msg
  · rw [recvMsg_reached hr, recvMsg_reached hr, ← he hr]
    cases rc.find msg.id with
    | none => dsimp only; split <;> rfl
    | some cac => dsimp only; split <;> rfl
  · exact (recvMsg_unreached hr rc').2 rc

theorem find_self (hr : Reaches h msg) (he : rc.find msg.id = rc'.find msg.id) :
    (recvMsg h rc msg).cache.find msg.id = (recvMsg h rc' msg).cache.find msg.id := by
  rw [recvMsg_reached hr, recvMsg_reached hr, ← he]
  cases hf : rc.find msg.id with
  | none =>
    dsimp only
    split
    · simp only [Turn.cache, hf, ← he]
    · simp only [Turn.cache, RecvCache.find_cons, if_pos]
  | some cac =>
    dsimp only
    split
    · simp only [Turn.cache, RecvCache.find_erase, if_pos]
    · simp only [Turn.cache, RecvCache.find_update, if_pos, ← he, hf]

/-- Only an opening makes an entry. -/
theorem find_self_none (hf : rc.find msg.id = none) (ho : ¬ Opens h rc msg) :
    (recvMsg h rc msg).cache.find msg.id = none := by
  have hd := recvMsg_outcome h rc msg
  generalize recvMsg h rc msg = r at hd ⊢
  cases hd with
  | own | wrong | negative | large | whole => exact hf
  | opened ho' => exact absurd ho' ho
  | last hr cac hc | more hr cac hc =>
    rw [hc] at hf
    cases hf

/-- The other entries stay, unless they are collected. -/
theorem find_other (hk : k ≠ msg.id) :
    (recvMsg h rc msg).cache.find k =
      if Opens h rc msg ∧ Collects rc.length msg.id k then none else rc.find k := by
  have hd := recvMsg_outcome h rc msg
  generalize recvMsg h rc msg = r at hd ⊢
  by_cases ho : Opens h rc msg
  · cases hd with
    | own hown => exact absurd hown ho.1.1
    | wrong hsize => exact absurd hsize (Int.not_le.mpr ho.1.2.1)
    | negative hst | large hst =>
      rw [ho.1.2.2] at hst
      cases hst
    | whole hr hf hle => exact absurd hle (Nat.not_le.mpr ho.2.2)
    | last hr cac hf | more hr cac hf =>
      rw [ho.2.1] at hf
      cases hf
    | opened _ =>
      simp only [Turn.cache, RecvCache.find_cons, if_neg hk]
      by_cases hl : rc.length > 1024
      · rw [if_pos hl, RecvCache.find_gc]
        by_cases hd : 8192 < max msg.id.toNat k.toNat - min msg.id.toNat k.toNat
        · rw [if_pos hd, if_pos ⟨ho, hl, hd⟩]
        · rw [if_neg hd, if_neg fun hc => hd hc.2.2]
      · rw [if_neg hl, if_neg fun hc => hl hc.2.1]
  · rw [if_neg fun hc => ho hc.1]
    cases hd with
    | own | wrong | negative | large | whole => rfl
    | opened ho' => exact absurd ho' ho
    | last => simp only [Turn.cache, RecvCache.find_erase, if_neg hk]
    | more => simp only [Turn.cache, RecvCache.find_update, if_neg hk]

/-- There is one entry for each id. -/
theorem keys_nodup (hn : (rc.map Prod.fst).Nodup) :
    ((recvMsg h rc msg).cache.map Prod.fst).Nodup := by
  have hd := recvMsg_outcome h rc msg
  generalize recvMsg h rc msg = r at hd ⊢
  cases hd with
  | own | wrong | negative | large | whole => exact hn
  | opened ho =>
    have hnew := RecvCache.find_eq_none.mp ho.2.1
    refine List.nodup_cons.mpr ?_
    split
    · exact ⟨fun hm => hnew (List.map_subset _ (List.filter_subset_self _) hm),
        hn.sublist (List.filter_sublist.map _)⟩
    · exact ⟨hnew, hn⟩
  | last => exact hn.sublist (List.filter_sublist.map _)
  | more => simpa only [Turn.cache, RecvCache.keys_update] using hn

end Turn

/-! ## Calls of `recv` -/

/-- One call of `recv`, given the elements its pops will yield; when they are
used up the wait times out and the call returns an empty buffer. -/
def recv (h : RecvCtx) : RecvCache → List MsgT → Buff × RecvCache × List MsgT
  | rc, [] => (.empty, rc, [])
  | rc, msg :: rest =>
    match recvMsg h rc msg with
    | .again rc' => recv h rc' rest
    | .ret b rc' => (b, rc', rest)

/-- `n` calls of `recv`, one after the other. -/
def recvCalls (h : RecvCtx) : Nat → RecvCache → List MsgT → List Buff × RecvCache × List MsgT
  | 0, rc, q => ([], rc, q)
  | n + 1, rc, q =>
    let (b, rc', q') := recv h rc q
    let (bs, rc'', q'') := recvCalls h n rc' q'
    (b :: bs, rc'', q'')

end CppIpc.Message
