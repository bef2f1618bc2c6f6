import CppIpc.Reassembly
import Mathlib.Data.List.Induction
import Mathlib.Data.List.Sort

/-! # A receiver that misses fragments

The fragments of any number of messages are pushed on one channel, each message's
in order. A receiver that joins late, or that a `force_push` has disconnected until
`recv` connects it again, sees some intervals of that stream; its cache survives
the gaps. Nothing in a fragment says whether it is the first. -/
namespace CppIpc.Gaps
open CppIpc.Def CppIpc.Message CppIpc.Fragments CppIpc.Reassembly

/-- Fragment `part` of message number `msg`. -/
structure Frag (msgs : List Sent) where
  msg : Fin msgs.length
  part : Nat
  part_lt : part < (msgs.get msg).elems.length

variable {msgs : List Sent}

def Frag.sent (f : Frag msgs) : Sent := msgs.get f.msg

/-- The queue element. -/
def Frag.elem (f : Frag msgs) : MsgT := f.sent.elems.get ⟨f.part, f.part_lt⟩

def Frag.IsLast (f : Frag msgs) : Prop := f.part + 1 = f.sent.elems.length

instance (f : Frag msgs) : Decidable f.IsLast := inferInstanceAs (Decidable (_ = _))

/-- The fragments of message `i` in `p`, in order. -/
def parts (p : List (Frag msgs)) (i : Fin msgs.length) : List Nat :=
  (p.filter fun f => f.msg = i).map fun f => f.part

/-- Each message's fragments are pushed in order from the first on; `send` may have
given up on some messages, or still be at them. -/
def Pushed (stream : List (Frag msgs)) : Prop :=
  ∀ i, parts stream i = List.range (parts stream i).length

/-- A message of the receiver's own, which `recv` passes over. -/
def Own (h : RecvCtx) (i : Fin msgs.length) : Prop := h.acc = true ∧ (msgs.get i).ccId = h.ccId

/-- The last fragment of message `i` is still to be received. -/
def Ends (s : List (Frag msgs)) (i : Fin msgs.length) : Prop := ∃ f ∈ s, f.msg = i ∧ f.IsLast

instance (h : RecvCtx) (i : Fin msgs.length) : Decidable (Own h i) :=
  inferInstanceAs (Decidable (_ ∧ _))

instance (s : List (Frag msgs)) (i : Fin msgs.length) : Decidable (Ends s i) :=
  inferInstanceAs (Decidable (∃ f ∈ s, _ ∧ _))

/-- The messages with an entry, after one more fragment: a last one ends its message, and
one that finds no entry opens it, after the collection. -/
def keep (h : RecvCtx) (l : List (Fin msgs.length)) (f : Frag msgs) : List (Fin msgs.length) :=
  if Own h f.msg then l
  else if f.IsLast then l.filter (· ≠ f.msg)
  else if f.msg ∈ l then l
  else f.msg :: l.filter fun i => ¬ Collects l.length f.sent.id (msgs.get i).id

/-- The messages half received, without those dropped by a collection. -/
def cached (h : RecvCtx) (p : List (Frag msgs)) : List (Fin msgs.length) := p.foldl (keep h) []

/-- Opening an entry for the message of `f` collects none of a message yet to end: at most
1024 messages have an entry, or its id is within 8192 of theirs. -/
def Spares (h : RecvCtx) (p : List (Frag msgs)) (f : Frag msgs) (s : List (Frag msgs)) : Prop :=
  ∀ i ∈ cached h p, Ends s i → ¬ Collects (cached h p).length f.sent.id (msgs.get i).id

instance (h : RecvCtx) (p : List (Frag msgs)) (f : Frag msgs) (s : List (Frag msgs)) :
    Decidable (Spares h p f s) := inferInstanceAs (Decidable (∀ i ∈ cached h p, Ends s i →
      ¬ Collects (cached h p).length f.sent.id (msgs.get i).id))

/-- What the receiver may be given after `p`, with `s` to follow: a last fragment
comes only when all the others of its message have been received, no fragment comes
while another message with its id has an entry, and one that opens an entry collects
none of a message yet to end. -/
structure Admits (h : RecvCtx) (p : List (Frag msgs)) (f : Frag msgs) (s : List (Frag msgs)) :
    Prop where
  size : f.sent.bytes.length < 2 ^ 31
  whole : f.IsLast → ∀ j < f.part, j ∈ parts p f.msg
  alone : ∀ i ∈ cached h p, i ≠ f.msg → (msgs.get i).id ≠ f.sent.id
  spared : ¬ f.IsLast → f.msg ∉ cached h p → Spares h p f s

/-- The receiver has been given `p` and will be given the rest. -/
def Covered (h : RecvCtx) : List (Frag msgs) → List (Frag msgs) → Prop
  | _, [] => True
  | p, f :: s => (¬ Own h f.msg → Admits h p f s) ∧ Covered h (p ++ [f]) s

instance (h : RecvCtx) (p : List (Frag msgs)) (f : Frag msgs) (s : List (Frag msgs)) :
    Decidable (Admits h p f s) :=
  decidable_of_iff (f.sent.bytes.length < 2 ^ 31 ∧
      (f.IsLast → ∀ j < f.part, j ∈ parts p f.msg) ∧
      (∀ i ∈ cached h p, i ≠ f.msg → (msgs.get i).id ≠ f.sent.id) ∧
      (¬ f.IsLast → f.msg ∉ cached h p → Spares h p f s))
    ⟨fun ⟨a, b, c, d⟩ => ⟨a, b, c, d⟩, fun ⟨a, b, c, d⟩ => ⟨a, b, c, d⟩⟩

instance Covered.decidable (h : RecvCtx) :
    (p s : List (Frag msgs)) → Decidable (Covered h p s)
  | _, [] => isTrue trivial
  | p, f :: s =>
    have := Covered.decidable h (p ++ [f]) s
    inferInstanceAs (Decidable (_ ∧ _))

/-- A buffer that holds a whole message, or nothing. -/
def Whole (msgs : List Sent) (b : Buff) : Prop :=
  b = .empty ∨ ∃ m ∈ msgs, b = .cache (m.bytes.map some)

/-! ## The fragments of a message that ends come from the first on -/

section Order
variable {p q s stream seen : List (Frag msgs)} {f : Frag msgs} {i : Fin msgs.length}
  {h : RecvCtx}

theorem parts_append (p q : List (Frag msgs)) (i : Fin msgs.length) :
    parts (p ++ q) i = parts p i ++ parts q i := by
  simp [parts, List.filter_append]

theorem parts_snoc_self (p : List (Frag msgs)) (f : Frag msgs) :
    parts (p ++ [f]) f.msg = parts p f.msg ++ [f.part] := by
  simp [parts, List.filter_append]

theorem parts_snoc_ne (hi : i ≠ f.msg) : parts (p ++ [f]) i = parts p i := by
  simp [parts, List.filter_append, Ne.symm hi]

theorem mem_parts {g : Frag msgs} (hg : g ∈ p) : g.part ∈ parts p g.msg :=
  List.mem_map_of_mem (List.mem_filter.mpr ⟨hg, by simp⟩)

/-- The receiver sees the fragments of each message in order. -/
def Ordered (seen : List (Frag msgs)) : Prop := ∀ i, (parts seen i).Pairwise (· < ·)

theorem ordered_of_pushed (hp : Pushed stream) (hs : seen.Sublist stream) : Ordered seen := by
  intro i
  have hall : (parts stream i).Pairwise (· < ·) := by
    rw [hp i]
    exact List.pairwise_lt_range
  exact hall.sublist ((hs.filter _).map _)

theorem Ordered.before (ho : Ordered (p ++ f :: s)) {j : Nat} (hj : j ∈ parts p f.msg) :
    j < f.part := by
  have hall := ho f.msg
  rw [← List.singleton_append, ← List.append_assoc, parts_append, parts_snoc_self] at hall
  have hpre := (List.pairwise_append.mp hall).1
  exact (List.pairwise_append.mp hpre).2.2 j hj f.part (by simp)

theorem range_of_append {l l' : List Nat} {n : Nat} (he : l ++ l' = List.range n) :
    l = List.range l.length := by
  have hlen : l.length ≤ n := by
    have := congrArg List.length he
    simp only [List.length_append, List.length_range] at this
    omega
  calc l = (l ++ l').take l.length := by simp
    _ = List.range l.length := by rw [he, List.take_range, Nat.min_eq_left hlen]

theorem Ends.cons_cases (he : Ends (f :: s) i) : (f.msg = i ∧ f.IsLast) ∨ Ends s i := by
  obtain ⟨g, hg, hgi⟩ := he
  rcases List.mem_cons.mp hg with rfl | hg
  · exact .inl hgi
  · exact .inr ⟨g, hg, hgi⟩

theorem Ends.cons (he : Ends s i) (f : Frag msgs) : Ends (f :: s) i := by
  obtain ⟨g, hg, hgi⟩ := he
  exact ⟨g, List.mem_cons_of_mem _ hg, hgi⟩

/-- Up to any point before its last fragment. -/
theorem parts_eq_range (ho : Ordered (p ++ s)) (hc : Covered h p s) (hown : ¬ Own h i)
    (he : Ends s i) : parts p i = List.range (parts p i).length := by
  induction s generalizing p with
  | nil => obtain ⟨g, hg, -⟩ := he; cases hg
  | cons f s ih =>
    obtain ⟨rfl, hlast⟩ | he := he.cons_cases
    · have hall : parts p f.msg = List.range f.part := by
        apply List.Pairwise.eq_of_mem_iff (r := (· < ·)) _ List.pairwise_lt_range
        · intro j
          rw [List.mem_range]
          exact ⟨fun hj => ho.before hj, fun hj => (hc.1 hown).whole hlast j hj⟩
        · have hp := ho f.msg
          rw [parts_append] at hp
          exact (List.pairwise_append.mp hp).1
      rw [hall, List.length_range]
    · have hrange := ih (by simpa using ho) hc.2 he
      rw [parts_append] at hrange
      exact range_of_append hrange

/-- The next fragment of a message that ends is the next in number. -/
theorem part_eq_length (ho : Ordered (p ++ f :: s)) (hc : Covered h p (f :: s))
    (hown : ¬ Own h f.msg) (he : Ends (f :: s) f.msg) : f.part = (parts p f.msg).length := by
  have hrange := parts_eq_range ho hc hown he
  obtain ⟨-, hlast⟩ | he := he.cons_cases
  · by_contra hne
    have hmem : (parts p f.msg).length ∉ parts p f.msg := by
      rw [hrange, List.length_range, List.mem_range]
      exact Nat.lt_irrefl _
    refine hmem ((hc.1 hown).whole hlast _ ?_)
    by_contra hge
    have hlt : f.part ∈ parts p f.msg := by
      rw [hrange, List.mem_range]
      omega
    exact absurd (ho.before hlt) (Nat.lt_irrefl _)
  · have hnext := parts_eq_range (p := p ++ [f]) (by simpa using ho) hc.2 hown he
    rw [parts_snoc_self, List.length_append, List.length_singleton, List.range_succ] at hnext
    simpa using (List.append_inj' hnext rfl).2

end Order

/-! ## The cache behind the gaps -/

section Cache
variable {h : RecvCtx} {p s : List (Frag msgs)} {f : Frag msgs} {rc : RecvCache}

theorem cached_snoc (h : RecvCtx) (p : List (Frag msgs)) (f : Frag msgs) :
    cached h (p ++ [f]) = keep h (cached h p) f := by
  rw [cached, List.foldl_append]
  rfl

/-- An entry is opened by a fragment that is not the last, and an own one opens none. -/
theorem parts_of_cached {i : Fin msgs.length} (hi : i ∈ cached h p) : parts p i ≠ [] := by
  induction p using List.reverseRecOn with
  | nil => cases hi
  | append_singleton p f ih =>
    by_cases hf : i = f.msg
    · subst hf
      simp [parts_snoc_self]
    · rw [parts_snoc_ne hf]
      refine ih ?_
      rw [cached_snoc, keep] at hi
      split at hi
      · exact hi
      · split at hi
        · exact (List.mem_filter.mp hi).1
        · split at hi
          · exact hi
          · exact (List.mem_filter.mp ((List.mem_cons.mp hi).resolve_left hf)).1

/-- The cache has the entries of the cached messages, and those that will end are among
them with the fragments received. -/
structure Inv (h : RecvCtx) (p s : List (Frag msgs)) (rc : RecvCache) : Prop where
  live : ∀ i, ¬ Own h i → parts p i ≠ [] → Ends s i → i ∈ cached h p ∧
    rc.find (msgs.get i).id = some (entry (msgs.get i).bytes (parts p i).length)
  keys : rc.map Prod.fst = (cached h p).map fun i => (msgs.get i).id

theorem inv_nil (h : RecvCtx) (s : List (Frag msgs)) : Inv h [] s [] where
  live := fun _ _ hp => absurd rfl hp
  keys := rfl

theorem Inv.length_eq (hi : Inv h p s rc) : rc.length = (cached h p).length := by
  simpa using congrArg List.length hi.keys

/-- No fragment of a message comes after its last one. -/
theorem Ordered.not_ended (ho : Ordered (p ++ f :: s)) : ¬ ∃ g ∈ p, g.msg = f.msg ∧ g.IsLast := by
  rintro ⟨g, hg, he, hlast⟩
  have hlt := ho.before (he ▸ mem_parts hg)
  have hmsg : g.sent = f.sent := by rw [Frag.sent, Frag.sent, he]
  rw [Frag.IsLast, hmsg] at hlast
  have hbound : f.part < f.sent.elems.length := f.part_lt
  omega

theorem Ordered.not_ends (ho : Ordered (p ++ f :: s)) (hlast : f.IsLast) : ¬ Ends s f.msg := by
  rintro ⟨g, hg, he, -⟩
  obtain ⟨s₁, s₂, rfl⟩ := List.append_of_mem hg
  have hg : Ordered ((p ++ f :: s₁) ++ g :: s₂) := by simpa using ho
  exact hg.not_ended ⟨f, by simp, he.symm, hlast⟩

theorem Frag.elem_mem (f : Frag msgs) : f.elem ∈ f.sent.elems := List.get_mem _ _

theorem Frag.elem_eq (f : Frag msgs) (hu : f.sent.bytes.length < 2 ^ 31) :
    f.elem = f.sent.elemAt f.part := by
  simp [Frag.elem, Sent.elems_eq hu]

/-- Under the id of a fragment there is the entry of its own message, or none. -/
theorem Inv.find_eq_none (hi : Inv h p (f :: s) rc) (hc : Covered h p (f :: s))
    (hown : ¬ Own h f.msg) : rc.find f.sent.id = none ↔ f.msg ∉ cached h p := by
  rw [RecvCache.find_eq_none, hi.keys, not_iff_not, List.mem_map]
  constructor
  · rintro ⟨i, hm, hid⟩
    by_contra hf
    exact (hc.1 hown).alone i hm (ne_of_mem_of_not_mem hm hf) hid
  · exact fun hm => ⟨f.msg, hm, rfl⟩

/-- Of a message that ends, the cache holds the fragments received so far. -/
theorem Inv.holdsFirst (hi : Inv h p (f :: s) rc) (ho : Ordered (p ++ f :: s))
    (hc : Covered h p (f :: s)) (hown : ¬ Own h f.msg) (he : Ends (f :: s) f.msg) :
    HoldsFirst rc f.sent f.part := by
  rw [HoldsFirst, part_eq_length ho hc hown he]
  by_cases hp : parts p f.msg = []
  · rw [if_pos (by simp [hp]), hi.find_eq_none hc hown]
    exact fun hm => parts_of_cached hm hp
  · rw [if_neg (by simpa using hp)]
    exact (hi.live f.msg hown hp he).2

/-- A last fragment completes its message, and the others are not answered. -/
theorem Inv.turn_buff (hi : Inv h p (f :: s) rc) (ho : Ordered (p ++ f :: s))
    (hc : Covered h p (f :: s)) (hown : ¬ Own h f.msg) :
    (f.IsLast ∧ (recvMsg h rc f.elem).buff = some (.cache (f.sent.bytes.map some)) ∧
      (recvMsg h rc f.elem).cache.find f.sent.id = none) ∨
    (¬ f.IsLast ∧ (recvMsg h rc f.elem).buff = none ∧
      (Ends s f.msg → HoldsFirst (recvMsg h rc f.elem).cache f.sent (f.part + 1))) := by
  have hu := (hc.1 hown).size
  have hlt : f.part < fragCount f.sent.bytes.length := by
    rw [← Sent.elems_length hu]
    exact f.part_lt
  rw [f.elem_eq hu, Frag.IsLast, Sent.elems_length hu]
  by_cases hlast : f.part + 1 = fragCount f.sent.bytes.length
  · have he : Ends (f :: s) f.msg :=
      ⟨f, by simp, rfl, by rw [Frag.IsLast, Sent.elems_length hu, hlast]⟩
    obtain ⟨hb, hn⟩ := recvMsg_last hu hown hlast (hi.holdsFirst ho hc hown he)
    exact .inl ⟨hlast, hb, hn⟩
  · have hmore : f.part + 1 < fragCount f.sent.bytes.length := by omega
    refine .inr ⟨hlast, recvMsg_more hu hown hmore, fun he => ?_⟩
    exact recvMsg_next hu hown hmore (hi.holdsFirst ho hc hown (he.cons f))

/-- The collection spares the messages that will end. -/
theorem Inv.spared (hi : Inv h p (f :: s) rc) (hc : Covered h p (f :: s))
    (hown : ¬ Own h f.msg) {i : Fin msgs.length} (hm : i ∈ cached h p) (he : Ends s i) :
    ¬ (Opens h rc f.elem ∧ Collects rc.length f.elem.id (msgs.get i).id) := by
  rintro ⟨hopen, hcol⟩
  have hu := (hc.1 hown).size
  have hlt : f.part < fragCount f.sent.bytes.length := by
    rw [← Sent.elems_length hu]
    exact f.part_lt
  rw [f.elem_eq hu] at hopen hcol
  obtain ⟨-, hnone, hsize⟩ := hopen
  rw [(reaches_elemAt hu hown hlt).2, Int.toNat_natCast, dataLength] at hsize
  have hlast : ¬ f.IsLast := by
    rw [Frag.IsLast, Sent.elems_length hu, fragCount]
    omega
  have hnew := (hi.find_eq_none hc hown).mp hnone
  rw [hi.length_eq] at hcol
  exact (hc.1 hown).spared hlast hnew i hm he hcol

/-- A message that will end keeps its entry. -/
theorem Covered.mem_keep (hc : Covered h p (f :: s))
    (hown : ¬ Own h f.msg) {i : Fin msgs.length} (hm : i ∈ cached h p) (hne : i ≠ f.msg)
    (he : Ends s i) : i ∈ keep h (cached h p) f := by
  rw [keep, if_neg hown]
  split
  · exact List.mem_filter.mpr ⟨hm, by simpa using hne⟩
  · rename_i hlast
    split
    · exact hm
    · rename_i hnew
      refine List.mem_cons_of_mem _ (List.mem_filter.mpr ⟨hm, ?_⟩)
      simpa using (hc.1 hown).spared hlast hnew i hm he

theorem mem_keep_self (l : List (Fin msgs.length)) (hown : ¬ Own h f.msg) (hlast : ¬ f.IsLast) :
    f.msg ∈ keep h l f := by
  rw [keep, if_neg hown, if_neg hlast]
  split
  · assumption
  · exact List.mem_cons_self

/-- What a fragment does to the keys of the cache. -/
theorem keys_elemAt {m : Sent} {j : Nat} (hu : m.bytes.length < 2 ^ 31)
    (hcc : ¬ (h.acc = true ∧ m.ccId = h.ccId)) (hj : j < fragCount m.bytes.length) :
    (recvMsg h rc (m.elemAt j)).cache.map Prod.fst =
      if j + 1 = fragCount m.bytes.length then (rc.map Prod.fst).filter (· ≠ m.id)
      else if rc.find m.id = none then
        m.id :: (rc.map Prod.fst).filter fun k => ¬ Collects rc.length m.id k
      else rc.map Prod.fst := by
  have hsize : m.bytes.length - 64 * j ≤ 64 ↔ j + 1 = fragCount m.bytes.length := by
    unfold fragCount at hj ⊢
    omega
  rw [recvMsg_elemAt hu hcc hj]
  cases hf : rc.find m.id with
  | none =>
    have hnew := RecvCache.find_eq_none.mp hf
    simp only [dataLength, hsize, if_true]
    split
    · refine (List.filter_eq_self.mpr fun k hk => ?_).symm
      simpa using ne_of_mem_of_not_mem hk hnew
    · simp only [Turn.cache, List.map_cons]
      congr 1
      by_cases hl : rc.length > 1024
      · rw [if_pos hl, RecvCache.gc, List.filter_map]
        refine congrArg _ (List.filter_congr fun k _ => ?_)
        simp [Collects, hl]
      · rw [if_neg hl]
        refine (List.filter_eq_self.mpr fun k _ => ?_).symm
        simp [Collects, hl]
  | some cac =>
    simp only [hsize, reduceCtorEq, if_false]
    split
    · simp only [Turn.cache, RecvCache.erase]
      rw [List.filter_map]
      rfl
    · simp only [Turn.cache, RecvCache.keys_update]

/-- The keys go with the cached messages. -/
theorem Inv.keys_turn (hi : Inv h p (f :: s) rc) (hc : Covered h p (f :: s))
    (hown : ¬ Own h f.msg) : (recvMsg h rc f.elem).cache.map Prod.fst =
      (cached h (p ++ [f])).map fun i => (msgs.get i).id := by
  have hu := (hc.1 hown).size
  have hlt : f.part < fragCount f.sent.bytes.length := by
    rw [← Sent.elems_length hu]
    exact f.part_lt
  have hend : f.IsLast ↔ f.part + 1 = fragCount f.sent.bytes.length := by
    rw [Frag.IsLast, Sent.elems_length hu]
  rw [f.elem_eq hu, keys_elemAt hu hown hlt, cached_snoc, keep, if_neg hown, hi.keys,
    hi.length_eq]
  by_cases hlast : f.IsLast
  · rw [if_pos (hend.mp hlast), if_pos hlast, List.filter_map]
    refine congrArg _ (List.filter_congr fun i hm => ?_)
    by_cases he : i = f.msg
    · subst he
      simp [Frag.sent]
    · simpa [he] using (hc.1 hown).alone i hm he
  · rw [if_neg (mt hend.mpr hlast), if_neg hlast]
    by_cases hm : f.msg ∈ cached h p
    · rw [if_neg (fun hn => (hi.find_eq_none hc hown).mp hn hm), if_pos hm]
    · rw [if_pos ((hi.find_eq_none hc hown).mpr hm), if_neg hm, List.map_cons, List.filter_map]
      rfl

/-- One turn of `recv` on the next fragment the receiver sees. -/
theorem Inv.turn (hi : Inv h p (f :: s) rc) (ho : Ordered (p ++ f :: s))
    (hc : Covered h p (f :: s)) :
    Inv h (p ++ [f]) s (recvMsg h rc f.elem).cache ∧
      ∀ b, (recvMsg h rc f.elem).buff = some b → Whole msgs b := by
  by_cases hown : Own h f.msg
  · -- a message of its own is passed over
    have hskip : recvMsg h rc f.elem = .again rc := by
      unfold recvMsg
      exact if_pos ⟨hown.1, (Sent.ccId_of_mem f.elem_mem).trans hown.2⟩
    have hsame : cached h (p ++ [f]) = cached h p := by rw [cached_snoc, keep, if_pos hown]
    rw [hskip]
    refine ⟨⟨fun i hi' hp he => ?_, hsame ▸ hi.keys⟩, fun b hb => by cases hb⟩
    have hne : i ≠ f.msg := fun he => hi' (he ▸ hown)
    rw [parts_snoc_ne hne] at hp ⊢
    rw [hsame]
    exact hi.live i hi' hp (he.cons f)
  · have hid : f.elem.id = f.sent.id := by rw [f.elem_eq (hc.1 hown).size, Sent.elemAt_id]
    have hbuff := hi.turn_buff ho hc hown
    refine ⟨⟨?_, hi.keys_turn hc hown⟩, ?_⟩
    · intro i hi' hp he
      rw [cached_snoc]
      by_cases hne : i = f.msg
      · subst hne
        obtain ⟨hlast, -⟩ | ⟨hlast, -, hnext⟩ := hbuff
        · exact absurd he (ho.not_ends hlast)
        · refine ⟨mem_keep_self _ hown hlast, ?_⟩
          rw [show (msgs.get f.msg).id = f.sent.id from rfl, hnext he,
            if_neg (Nat.succ_ne_zero _), parts_snoc_self, List.length_append,
            ← part_eq_length ho hc hown (he.cons f)]
          rfl
      · rw [parts_snoc_ne hne] at hp ⊢
        obtain ⟨hm, hfind⟩ := hi.live i hi' hp (he.cons f)
        refine ⟨hc.mem_keep hown hm hne he, ?_⟩
        have hkey := (hc.1 hown).alone i hm hne
        rw [find_other (by rwa [hid]), if_neg (hi.spared hc hown hm he)]
        exact hfind
    · intro b hb
      obtain ⟨-, hret, -⟩ | ⟨-, hnone, -⟩ := hbuff
      · rw [hret] at hb
        exact .inr ⟨f.sent, List.get_mem _ _, (Option.some.inj hb).symm⟩
      · rw [hnone] at hb
        cases hb

/-- One call of `recv`, from any point of what the receiver sees. -/
theorem Inv.recv (hi : Inv h p s rc) (ho : Ordered (p ++ s)) (hc : Covered h p s) :
    ∃ p' s' rc', (Message.recv h rc (s.map Frag.elem)).2 = (rc', s'.map Frag.elem) ∧
      Whole msgs (Message.recv h rc (s.map Frag.elem)).1 ∧ p ++ s = p' ++ s' ∧
      Covered h p' s' ∧ Inv h p' s' rc' := by
  induction s generalizing p rc with
  | nil => exact ⟨p, [], rc, rfl, .inl rfl, rfl, hc, hi⟩
  | cons f s ih =>
    obtain ⟨hnext, hwhole⟩ := hi.turn ho hc
    rw [List.map_cons, Message.recv]
    cases hturn : recvMsg h rc f.elem with
    | ret b rc' =>
      rw [hturn] at hnext hwhole
      exact ⟨p ++ [f], s, rc', rfl, hwhole b rfl, by simp, hc.2, hnext⟩
    | again rc' =>
      simp only [hturn, Turn.cache] at hnext
      simpa using ih hnext (by simpa using ho) hc.2

theorem Inv.recvCalls (n : Nat) (hi : Inv h p s rc) (ho : Ordered (p ++ s)) (hc : Covered h p s) :
    ∀ b ∈ (Message.recvCalls h n rc (s.map Frag.elem)).1, Whole msgs b := by
  induction n generalizing p s rc with
  | zero => intro b hb; cases hb
  | succ n ih =>
    obtain ⟨p', s', rc', hrest, hwhole, he, hc', hi'⟩ := hi.recv ho hc
    have hcall : Message.recv h rc (s.map Frag.elem) =
        ((Message.recv h rc (s.map Frag.elem)).1, rc', s'.map Frag.elem) := by
      rw [← hrest]
    intro b hb
    rw [Message.recvCalls, hcall] at hb
    rcases List.mem_cons.mp hb with rfl | hb
    · exact hwhole
    · exact ih hi' (he ▸ ho) hc' b hb

end Cache

/-- **Whole messages or nothing.** Whatever intervals of the stream a receiver sees,
as long as they give it no last fragment without the others, no two half-received
messages with one id and no collection of a message yet to end, its calls of `recv`
return complete messages. -/
theorem recv_whole (msgs : List Sent) (stream seen : List (Frag msgs)) (h : RecvCtx) (n : Nat)
    (hp : Pushed stream) (hs : seen.Sublist stream) (hc : Covered h [] seen) :
    ∀ b ∈ (recvCalls h n [] (seen.map Frag.elem)).1, Whole msgs b :=
  (inv_nil h seen).recvCalls n (ordered_of_pushed hp hs) hc

/-! ## A late join and a gap -/

/-- One message of three fragments. -/
def three : List Sent := [⟨1, 7, List.replicate 129 1⟩]

def frag (j : Fin 3) : Frag three := ⟨⟨0, by decide⟩, j.val, by revert j; decide +kernel⟩

def whole : List (Frag three) := [frag 0, frag 1, frag 2]

theorem whole_pushed : Pushed whole := by
  unfold Pushed
  decide +kernel

/-- A receiver that joins after the first two fragments gets a suffix of one byte,
and one that misses the middle one gets bytes that were never received. -/
theorem recv_partial : Pushed whole ∧
    ([frag 2].Sublist whole ∧ (recvCalls ⟨true, 3⟩ 1 [] ([frag 2].map Frag.elem)).1 =
      [.cache [some 1]] ∧ ¬ Whole three (.cache [some 1])) ∧
    ([frag 0, frag 2].Sublist whole ∧
      (recvCalls ⟨true, 3⟩ 1 [] ([frag 0, frag 2].map Frag.elem)).1 =
        [.cache (List.replicate 65 (some 1) ++ List.replicate 64 none)] ∧
      ¬ Whole three (.cache (List.replicate 65 (some 1) ++ List.replicate 64 none))) := by
  have hsub : [frag 2].Sublist whole ∧ [frag 0, frag 2].Sublist whole := by
    exact ⟨.cons _ (.cons _ (.cons_cons _ .slnil)), .cons_cons _ (.cons _ (.cons_cons _ .slnil))⟩
  unfold Whole
  exact ⟨whole_pushed, ⟨hsub.1, by decide +kernel⟩, hsub.2, by decide +kernel⟩

/-- The stream of two messages of which the receiver misses the end of the first. -/
def cut : List Sent := [⟨1, 7, List.replicate 65 1⟩, ⟨2, 8, List.replicate 65 2⟩]

def cutFrag (i j : Fin 2) : Frag cut := ⟨i, j.val, by revert i j; decide +kernel⟩

theorem recv_cut :
    (recvCalls ⟨true, 3⟩ 1 [] ([cutFrag 0 0, cutFrag 1 0, cutFrag 1 1].map Frag.elem)).1 =
        [.cache (List.replicate 65 (some 2))] ∧
      Whole cut (.cache (List.replicate 65 (some 2))) := by
  have hcall : (recvCalls ⟨true, 3⟩ 1 []
      ([cutFrag 0 0, cutFrag 1 0, cutFrag 1 1].map Frag.elem)).1 =
        [.cache (List.replicate 65 (some 2))] := by decide +kernel
  refine ⟨hcall, recv_whole cut [cutFrag 0 0, cutFrag 1 0, cutFrag 0 1, cutFrag 1 1] _ ⟨true, 3⟩ 1
    ?_ ?_ ?_ _ (by rw [hcall]; simp)⟩
  · unfold Pushed
    decide +kernel
  · exact .cons_cons _ (.cons_cons _ (.cons _ (.cons_cons _ .slnil)))
  · decide +kernel

end CppIpc.Gaps
