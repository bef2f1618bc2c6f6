import CppIpc.Lib.Bits
import CppIpc.Storage

/-! # Who still needs a chunk

Messages are numbered by a queue; `chunk i` is where the bytes of message `i` are, and
`party i b` says that the receiver with bit `b` still needs them, because it has yet to
pop the message or because it holds a buffer on them. `Covers` is what the pools and
the masks of the chunks owe to the parties. -/
namespace CppIpc.Ledger
open CppIpc.Def CppIpc.IdPool CppIpc.Message CppIpc.ReadCounter CppIpc.Storage

def Sound (st : Storages) : Prop := ∀ cs, ∃ l, (st cs).pool.Sound l

/-- Chunk `id` of size `cs` is in use. -/
structure Taken (st : Storages) (cs id : Nat) : Prop where
  prepared : (st cs).pool.prepared = true
  lt : id < maxCount
  notFree : id ∉ st.free cs

/-- From `st` to `st'` the chunks in use are left alone, the one of `e` apart. -/
structure Changes (st st' : Storages) (e : Option (Nat × Nat)) : Prop where
  sound : Sound st'
  taken : ∀ {cs id}, e ≠ some (cs, id) → Taken st cs id → Taken st' cs id
  conns : ∀ {cs id}, e ≠ some (cs, id) → (st' cs).conns id = (st cs).conns id

structure Covers (st : Storages) (chunk : Nat → Option (Nat × Nat))
    (party : Nat → Fin 32 → Prop) : Prop where
  sound : Sound st
  taken : ∀ {i b cs id}, party i b → chunk i = some (cs, id) → Taken st cs id
  mask : ∀ {i b cs id}, party i b → chunk i = some (cs, id) →
    ((st cs).conns id).getLsbD b = true
  apart : ∀ {i j b b' c}, party i b → party j b' → chunk i = some c → chunk j = some c → i = j

/-! ## What the operations change -/

section Operations
variable {st st' : Storages} {cs id size : Nat}

theorem Sound.nodup (hs : Sound st) (cs : Nat) : (st.free cs).Nodup := by
  obtain ⟨l, hl⟩ := hs cs
  rw [Storages.free, hl.free_eq]
  exact hl.2

theorem zero_sound : Sound Storages.zero := fun _ => ⟨_, Pool.zero_sound⟩

theorem Changes.refl (hs : Sound st) (e : Option (Nat × Nat)) : Changes st st e :=
  ⟨hs, fun _ ht => ht, fun _ => rfl⟩

/-- Only the pool and the masks of one chunk size are written. -/
theorem Changes.update {info : ChunkInfo} {l : List Nat} {e : Option (Nat × Nat)} (hs : Sound st)
    (hl : info.pool.Sound l) (hprep : (st cs).pool.prepared = true → info.pool.prepared = true)
    (hmem : ∀ id, e ≠ some (cs, id) → id ∈ l → id ∈ st.free cs)
    (hconns : ∀ id, e ≠ some (cs, id) → info.conns id = (st cs).conns id) :
    Changes st (Function.update st cs info) e := by
  refine ⟨fun cs' => ?_, fun {cs' id'} he ht => ?_, fun {cs' id'} he => ?_⟩
  · by_cases hc : cs' = cs
    · subst hc
      exact ⟨l, by simpa using hl⟩
    · rw [Function.update_of_ne hc]
      exact hs cs'
  · by_cases hc : cs' = cs
    · subst hc
      refine ⟨by simpa using hprep ht.prepared, ht.lt, fun hin => ht.notFree (hmem id' he ?_)⟩
      simpa [Storages.free, hl.free_eq] using hin
    · exact ⟨by simpa [Function.update_of_ne hc] using ht.prepared, ht.lt,
        by simpa [Storages.free, Function.update_of_ne hc] using ht.notFree⟩
  · by_cases hc : cs' = cs
    · subst hc
      simpa using hconns id' he
    · rw [Function.update_of_ne hc]

theorem Changes.trans {st'' : Storages} {e : Option (Nat × Nat)} (h₁ : Changes st st' e)
    (h₂ : Changes st' st'' none) : Changes st st'' e :=
  ⟨h₂.sound, fun he ht => h₂.taken (by simp) (h₁.taken he ht),
    fun he => (h₂.conns (by simp)).trans (h₁.conns he)⟩

theorem writeChunk_changes (hs : Sound st) (id : Nat) (data : List Byte) :
    Changes st (writeChunk st id data) none := by
  refine ⟨fun cs => ?_, fun {cs id'} _ ht => ?_, fun {cs id'} _ => ?_⟩
  · rw [writeChunk_pool]
    exact hs cs
  · exact ⟨by rw [writeChunk_pool]; exact ht.prepared, ht.lt,
      by rw [Storages.free, writeChunk_pool]; exact ht.notFree⟩
  · rw [writeChunk_conns]

theorem acquireStorage_none_changes (hs : Sound st) {conns : CC}
    (h : acquireStorage st size conns = (none, st')) : Changes st st' none := by
  by_cases hc : (st (calcChunkSize size)).pool.prepare.cursor = maxCount
  · rw [acquireStorage_empty hc] at h
    obtain ⟨l, hl⟩ := hs (calcChunkSize size)
    have hl' : (st (calcChunkSize size)).pool.prepare.Sound l := by
      rw [Pool.Sound, Pool.prepare_eq rfl]
      exact hl
    cases h
    refine Changes.update hs hl' (fun _ => rfl) (fun id _ hin => ?_) fun _ _ => rfl
    rw [Storages.free, hl.free_eq]
    exact hin
  · rw [acquireStorage_cursor hc] at h
    cases h

/-- The chunk that is acquired was free, is in use afterwards, and has the new mask. -/
theorem acquireStorage_some_changes (hs : Sound st) {conns : CC}
    (h : acquireStorage st size conns = (some id, st')) :
    Changes st st' (some (calcChunkSize size, id)) ∧ Taken st' (calcChunkSize size) id ∧
      (st' (calcChunkSize size)).conns id = conns ∧ id ∈ st.free (calcChunkSize size) := by
  by_cases hc : (st (calcChunkSize size)).pool.prepare.cursor = maxCount
  · rw [acquireStorage_empty hc] at h
    cases h
  · rw [acquireStorage_cursor hc] at h
    obtain ⟨l, hl⟩ := hs (calcChunkSize size)
    rcases hl.acquire with ⟨rfl, _⟩ | ⟨i, r, rfl, hid, hr⟩
    · exact absurd hl.1 hc
    · have hi : (st (calcChunkSize size)).pool.prepare.cursor = i := by
        have : (((st (calcChunkSize size)).pool.prepare.cursor : Nat) : Int) = i := by
          simpa [Pool.acquire, if_neg hc] using hid
        exact Int.ofNat_inj.mp this
      have hprep : (st (calcChunkSize size)).pool.prepare.acquire.2.prepared = true := by
        rw [Pool.acquire, if_neg hc]
        rfl
      have hfree : st.free (calcChunkSize size) = i :: r := hl.free_eq
      rw [hi] at h
      cases h
      refine ⟨Changes.update hs hr (fun _ => hprep) (fun id' he hin => ?_) fun id' he => ?_,
        ⟨?_, ?_, ?_⟩, by simp, by simp [hfree]⟩
      · rw [hfree]
        exact List.mem_cons_of_mem _ hin
      · have hne : id' ≠ id := fun hid => he (by rw [hid])
        simp [hne]
      · simpa using hprep
      · exact hl.lt List.mem_cons_self
      · simpa [Storages.free, hr.free_eq] using (List.nodup_cons.mp hl.2).1

/-- Releasing a chunk that is in use. -/
theorem Taken.release (ht : Taken st cs id) (hs : Sound st) (info : ChunkInfo)
    (hpool : info.pool = (st cs).pool.release id)
    (hconns : ∀ id', id' ≠ id → info.conns id' = (st cs).conns id') :
    Changes st (Function.update st cs info) (some (cs, id)) ∧
      Storages.free (Function.update st cs info) cs = id :: st.free cs := by
  obtain ⟨l, hl⟩ := hs cs
  have hfree : st.free cs = l := hl.free_eq
  have hnot : id ∉ l := hfree ▸ ht.notFree
  have hl' := hl.release ht.prepared hnot ht.lt
  have hprep : ((st cs).pool.release id).prepared = true := by
    have : ¬ ((id : Int) < 0) := by omega
    rw [Pool.release, if_neg this]
    exact ht.prepared
  rw [← hpool] at hl' hprep
  refine ⟨Changes.update hs hl' (fun _ => hprep) (fun id' he hin => ?_) fun id' he => ?_, ?_⟩
  · rw [hfree]
    rcases List.mem_cons.mp hin with rfl | hin
    · exact absurd rfl he
    · exact hin
  · exact hconns id' fun hid => he (by rw [hid])
  · simp [Storages.free, hl'.free_eq, hl.free_eq]

/-- What is left of the mask after a buffer is dropped. -/
def remaining (st : Storages) (cs id : Nat) (currConns connId : CC) : CC :=
  (st cs).conns id &&& (currConns &&& ~~~connId)

theorem getLsbD_remaining {currConns : CC} {b b' : Fin 32} :
    (remaining st cs id currConns (idOf b)).getLsbD b' = true ↔
      ((st cs).conns id).getLsbD b' = true ∧ currConns.getLsbD b' = true ∧ b ≠ b' := by
  rw [remaining, BitVec.getLsbD_and, Lib.Bits.getLsbD_and_not, getLsbD_idOf]
  simp [Fin.ext_iff]

/-- The chunks of one size with the mask of `id` replaced. -/
def setConns (info : ChunkInfo) (id : Nat) (cc : CC) : ChunkInfo :=
  { info with conns := Function.update info.conns id cc }

theorem recycleStorage_eq (st : Storages) (id size : Nat) (currConns connId : CC) :
    recycleStorage st id size currConns connId =
      (let cs := calcChunkSize size
       let info := setConns (st cs) id (remaining st cs id currConns connId)
       Function.update st cs (if remaining st cs id currConns connId = 0#32
         then { info with pool := info.pool.release id } else info)) := by
  have hneg : ¬ ((id : Int) < 0) := by omega
  simp only [recycleStorage, subRc, if_neg hneg, Int.toNat_natCast, decide_eq_true_iff]
  rfl

/-- `recycle_storage` on a chunk in use gives it back if no bit is left. -/
theorem Taken.recycle (ht : Taken st (calcChunkSize size) id) (hs : Sound st)
    (currConns connId : CC) :
    Changes st (recycleStorage st id size currConns connId) (some (calcChunkSize size, id)) ∧
    (remaining st (calcChunkSize size) id currConns connId = 0#32 →
      (recycleStorage st id size currConns connId).free (calcChunkSize size) =
        id :: st.free (calcChunkSize size)) ∧
    (remaining st (calcChunkSize size) id currConns connId ≠ 0#32 →
      (recycleStorage st id size currConns connId).free (calcChunkSize size) =
        st.free (calcChunkSize size) ∧
      Taken (recycleStorage st id size currConns connId) (calcChunkSize size) id ∧
      (recycleStorage st id size currConns connId (calcChunkSize size)).conns id =
        remaining st (calcChunkSize size) id currConns connId) := by
  rw [recycleStorage_eq]
  dsimp only
  generalize calcChunkSize size = cs at ht ⊢
  generalize remaining st cs id currConns connId = left
  have hconns : ∀ id', id' ≠ id → (setConns (st cs) id left).conns id' = (st cs).conns id' :=
    fun id' hne => by simp [setConns, hne]
  by_cases h0 : left = 0#32
  · rw [if_pos h0]
    obtain ⟨hch, hfree⟩ := ht.release hs { setConns (st cs) id left with
      pool := (st cs).pool.release id } rfl hconns
    exact ⟨hch, fun _ => hfree, fun h => absurd h0 h⟩
  · rw [if_neg h0]
    obtain ⟨l, hl⟩ := hs cs
    refine ⟨Changes.update hs (l := l) hl (fun h => h) (fun id' _ hin => ?_) fun id' he => ?_,
      fun h => absurd h h0, fun _ => ⟨by simp [Storages.free, setConns], ⟨?_, ht.lt, ?_⟩, ?_⟩⟩
    · rw [Storages.free, hl.free_eq]
      exact hin
    · exact hconns id' fun hid => he (by rw [hid])
    · simpa [setConns] using ht.prepared
    · simpa [Storages.free, setConns] using ht.notFree
    · simp [setConns]

end Operations

/-! ## The operations keep the cover -/

section Cover
variable {st st' : Storages} {chunk chunk' : Nat → Option (Nat × Nat)}
  {party party' : Nat → Fin 32 → Prop}

/-- What has to be shown is about the chunk that changes. -/
theorem Covers.change (hc : Covers st chunk party) {e : Option (Nat × Nat)}
    (hch : Changes st st' e)
    (hold : ∀ i b c, party' i b → chunk' i = some c → e ≠ some c → party i b ∧ chunk i = some c)
    (hnew : ∀ i b cs id, party' i b → chunk' i = some (cs, id) → e = some (cs, id) →
      Taken st' cs id ∧ ((st' cs).conns id).getLsbD b = true)
    (huniq : ∀ i j b b' c, party' i b → party' j b' → chunk' i = some c → chunk' j = some c →
      e = some c → i = j) : Covers st' chunk' party' := by
  refine ⟨hch.sound, fun {i b cs id} hp hi => ?_, fun {i b cs id} hp hi => ?_,
    fun {i j b b' c} hp hp' hi hj => ?_⟩
  · by_cases he : e = some (cs, id)
    · exact (hnew i b cs id hp hi he).1
    · obtain ⟨hp, hi⟩ := hold i b _ hp hi he
      exact hch.taken he (hc.taken hp hi)
  · by_cases he : e = some (cs, id)
    · exact (hnew i b cs id hp hi he).2
    · obtain ⟨hp, hi⟩ := hold i b _ hp hi he
      rw [hch.conns he]
      exact hc.mask hp hi
  · by_cases he : e = some c
    · exact huniq i j b b' c hp hp' hi hj he
    · obtain ⟨hp, hi⟩ := hold i b c hp hi he
      obtain ⟨hp', hj⟩ := hold j b' c hp' hj he
      exact hc.apart hp hp' hi hj

/-- Parties may leave. -/
theorem Covers.mono (hc : Covers st chunk party)
    (hsub : ∀ i b c, party' i b → chunk' i = some c → party i b ∧ chunk i = some c) :
    Covers st chunk' party' :=
  hc.change (Changes.refl hc.sound none) (fun i b c hp hi _ => hsub i b c hp hi) (by simp) (by simp)

/-- A chunk that was acquired for a message not yet in the queue. -/
structure Reserved (st : Storages) (chunk : Nat → Option (Nat × Nat))
    (party : Nat → Fin 32 → Prop) (cs id : Nat) (cc : CC) : Prop where
  taken : Taken st cs id
  conns : (st cs).conns id = cc
  unused : ∀ i b, party i b → chunk i ≠ some (cs, id)

theorem Covers.acquire (hc : Covers st chunk party) {size id : Nat} {cc : CC}
    (h : acquireStorage st size cc = (some id, st')) (data : List Byte) :
    Covers (writeChunk st' id data) chunk party ∧
      Reserved (writeChunk st' id data) chunk party (calcChunkSize size) id cc := by
  obtain ⟨hch, ht, hcc, hfree⟩ := acquireStorage_some_changes hc.sound h
  have hw := writeChunk_changes hch.sound id data
  have hunused : ∀ i b, party i b → chunk i ≠ some (calcChunkSize size, id) :=
    fun i b hp hi => (hc.taken hp hi).notFree hfree
  refine ⟨hc.change (hch.trans hw) (fun i b c hp hi _ => ⟨hp, hi⟩) ?_ ?_,
    hw.taken (by simp) ht, ?_, hunused⟩
  · intro i b cs id' hp hi he
    exact absurd (hi.trans he.symm) (hunused i b hp)
  · intro i j b b' c hp _ hi _ he
    exact absurd (hi.trans he.symm) (hunused i b hp)
  · rw [hw.conns (by simp), hcc]

theorem Covers.acquire_none (hc : Covers st chunk party) {size : Nat} {cc : CC}
    (h : acquireStorage st size cc = (none, st')) : Covers st' chunk party :=
  hc.change (acquireStorage_none_changes hc.sound h) (fun _ _ _ hp hi _ => ⟨hp, hi⟩) (by simp)
    (by simp)

/-- The message that the chunk was acquired for is number `n`. -/
theorem Covers.add (hc : Covers st chunk party) {cs id n : Nat} {cc : CC}
    (hr : Reserved st chunk party cs id cc) (hn : chunk' n = some (cs, id))
    (hcc : ∀ b, party' n b → cc.getLsbD b = true)
    (hold : ∀ i b c, i ≠ n → party' i b → chunk' i = some c → party i b ∧ chunk i = some c) :
    Covers st chunk' party' := by
  have hself : ∀ i b, party' i b → chunk' i = some (cs, id) → i = n := by
    intro i b hp hi
    by_contra hne
    obtain ⟨hp, hi⟩ := hold i b _ hne hp hi
    exact hr.unused i b hp hi
  refine hc.change (Changes.refl hc.sound (some (cs, id))) ?_ ?_ ?_
  · intro i b c hp hi he
    refine hold i b c ?_ hp hi
    rintro rfl
    exact he (hn.symm.trans hi)
  · intro i b cs' id' hp hi he
    cases he
    obtain rfl := hself i b hp hi
    exact ⟨hr.taken, by rw [hr.conns]; exact hcc b hp⟩
  · intro i j b b' c hp hp' hi hj he
    cases he
    exact (hself i b hp hi).trans (hself j b' hp' hj).symm

/-- Dropping the buffer of party `b`: the mask it was made with has the other parties. -/
theorem Covers.recycle (hc : Covers st chunk party) {i size id : Nat} {b : Fin 32}
    {currConns : CC} (hp : party i b) (hi : chunk i = some (calcChunkSize size, id))
    (hsub : ∀ j b', party' j b' → party j b') (hself : ¬ party' i b)
    (hcurr : ∀ b', party' i b' → currConns.getLsbD b' = true) :
    Covers (recycleStorage st id size currConns (idOf b)) chunk party' := by
  have hmine : ∀ j b', party' j b' → chunk j = some (calcChunkSize size, id) → j = i :=
    fun j b' hp' hj => hc.apart (hsub j b' hp') hp hj hi
  obtain ⟨hch, _, hkeep⟩ := (hc.taken hp hi).recycle hc.sound currConns (idOf b)
  refine hc.change hch (fun j b' c hp' hj _ => ⟨hsub j b' hp', hj⟩) ?_ ?_
  · intro j b' cs id' hp' hj he
    cases he
    obtain rfl := hmine j b' hp' hj
    have hbit : (remaining st (calcChunkSize size) id currConns (idOf b)).getLsbD b' = true := by
      refine getLsbD_remaining.mpr ⟨hc.mask (hsub j b' hp') hj, hcurr b' hp', ?_⟩
      rintro rfl
      exact hself hp'
    obtain ⟨_, ht, hconns⟩ := hkeep (Lib.Bits.ne_zero_iff.mpr ⟨b', hbit⟩)
    exact ⟨ht, by rw [hconns]; exact hbit⟩
  · intro j j' b' b'' c hp' hp'' hj hj' he
    cases he
    exact (hmine j b' hp' hj).trans (hmine j' b'' hp'' hj').symm

/-- Releasing the chunk of a message that nobody needs any more. -/
theorem Covers.release (hc : Covers st chunk party) {i size id : Nat} {b : Fin 32}
    (hp : party i b) (hi : chunk i = some (calcChunkSize size, id))
    (hsub : ∀ j b', party' j b' → party j b') (hself : ∀ b', ¬ party' i b') :
    Covers (releaseStorage st id size) chunk party' ∧
      Changes st (releaseStorage st id size) (some (calcChunkSize size, id)) := by
  have hneg : ¬ ((id : Int) < 0) := by omega
  have hmine : ∀ j b', party' j b' → chunk j ≠ some (calcChunkSize size, id) := by
    intro j b' hp' hj
    obtain rfl := hc.apart (hsub j b' hp') hp hj hi
    exact hself b' hp'
  have hch := ((hc.taken hp hi).release hc.sound { st (calcChunkSize size) with
    pool := (st (calcChunkSize size)).pool.release id } rfl fun _ _ => rfl).1
  rw [releaseStorage, if_neg hneg]
  refine ⟨hc.change hch (fun j b' c hp' hj _ => ⟨hsub j b' hp', hj⟩) ?_ ?_, hch⟩
  · intro j b' cs id' hp' hj he
    exact absurd (hj.trans he.symm) (hmine j b' hp')
  · intro j j' b' b'' c hp' _ hj _ he
    exact absurd (hj.trans he.symm) (hmine j b' hp')

end Cover

/-! ## Masks without a bit too many -/

/-- As long as somebody needs a message, every bit of the mask of its chunk is that of
somebody who does. -/
def Tight (st : Storages) (chunk : Nat → Option (Nat × Nat)) (party : Nat → Fin 32 → Prop) :
    Prop :=
  ∀ i cs id b, chunk i = some (cs, id) → party i b → ∀ b' : Fin 32,
    ((st cs).conns id).getLsbD b' = true → party i b'

section Tight
variable {st st' : Storages} {chunk chunk' : Nat → Option (Nat × Nat)}
  {party party' : Nat → Fin 32 → Prop}

theorem Tight.change (ht : Tight st chunk party) {e : Option (Nat × Nat)} (hch : Changes st st' e)
    (hold : ∀ i b c, party' i b → chunk' i = some c → e ≠ some c →
      chunk i = some c ∧ party i b ∧ ∀ b', party i b' → party' i b')
    (hnew : ∀ i b cs id, party' i b → chunk' i = some (cs, id) → e = some (cs, id) →
      ∀ b' : Fin 32, ((st' cs).conns id).getLsbD b' = true → party' i b') :
    Tight st' chunk' party' := by
  intro i cs id b hi hp b' hbit
  by_cases he : e = some (cs, id)
  · exact hnew i b cs id hp hi he b' hbit
  · obtain ⟨hi, hp, hstay⟩ := hold i b _ hp hi he
    rw [hch.conns he] at hbit
    exact hstay b' (ht i cs id b hi hp b' hbit)

/-- Dropping a buffer takes its bit out, and if it was the last the chunk is free. -/
theorem Tight.recycle (ht : Tight st chunk party) (hc : Covers st chunk party) {i size id : Nat}
    {b : Fin 32} {currConns : CC} (hp : party i b)
    (hi : chunk i = some (calcChunkSize size, id)) (hsub : ∀ j b', party' j b' → party j b')
    (hself : ¬ party' i b) (hstay : ∀ j b', party j b' → (j = i → b' ≠ b) → party' j b')
    (hcurr : ∀ b', party' i b' → currConns.getLsbD b' = true) :
    Tight (recycleStorage st id size currConns (idOf b)) chunk party' ∧
      ((∀ b', ¬ party' i b') →
        id ∈ (recycleStorage st id size currConns (idOf b)).free (calcChunkSize size)) := by
  obtain ⟨hch, hzero, hkeep⟩ := (hc.taken hp hi).recycle hc.sound currConns (idOf b)
  -- a bit that is left is somebody else's
  have hleft : ∀ b' : Fin 32,
      (remaining st (calcChunkSize size) id currConns (idOf b)).getLsbD b' = true → party' i b' := by
    intro b' hbit
    obtain ⟨hbit, _, hne⟩ := getLsbD_remaining.mp hbit
    exact hstay i b' (ht i _ id b hi hp b' hbit) fun _ => Ne.symm hne
  refine ⟨ht.change hch ?_ ?_, fun hnone => ?_⟩
  · intro j b' c hp' hj he
    refine ⟨hj, hsub j b' hp', fun b'' hp'' => hstay j b'' hp'' ?_⟩
    rintro rfl
    exact absurd (hi.symm.trans hj) he
  · intro j b' cs' id' hp' hj he b'' hbit
    cases he
    obtain rfl := hc.apart (hsub j b' hp') hp hj hi
    have hne : remaining st (calcChunkSize size) id currConns (idOf b) ≠ 0#32 := by
      refine Lib.Bits.ne_zero_iff.mpr ⟨b', getLsbD_remaining.mpr
        ⟨hc.mask (hsub j b' hp') hj, hcurr b' hp', ?_⟩⟩
      rintro rfl
      exact hself hp'
    rw [(hkeep hne).2.2] at hbit
    exact hleft b'' hbit
  · have h0 : remaining st (calcChunkSize size) id currConns (idOf b) = 0#32 := by
      by_contra hne
      obtain ⟨b', hbit⟩ := Lib.Bits.ne_zero_iff.mp hne
      exact hnone ⟨b', BitVec.lt_of_getLsbD hbit⟩ (hleft _ hbit)
    rw [hzero h0]
    exact List.mem_cons_self

end Tight

end CppIpc.Ledger
