import CppIpc.Lib.Window

/-! # Readers that join a ring while it is written

A writer marks the slot of its next index with a set of readers and then advances
the index; a reader joins in two steps, first becoming known to the writer, then
taking the index for its position. A reader owes a read to the slots it is marked
in, and `Ok` says that these are the ones from its position on. Each operation
keeps it where the two steps of a join and those of a write do not enclose one
another. -/
namespace CppIpc.Lib.Joining
open CppIpc.Lib.Window

inductive Status where
  | absent
  | joining
  | joined (pos : Nat)

/-- `mark` is the set of the write that has marked its slot and not yet advanced the
index. -/
structure Board (w : Nat) (R : Type) where
  pending : BitVec w → R → Prop
  index : Nat
  mark : Option (R → Prop)
  status : R → Status

variable {w : Nat} {R : Type}

/-- The indices whose slots are marked. -/
def Board.top (b : Board w R) : Nat :=
  match b.mark with
  | some _ => b.index + 1
  | none => b.index

structure Board.Ok (b : Board w R) : Prop where
  absent : ∀ r, b.status r = .absent → (∀ σ, ¬ b.pending σ r) ∧ ∀ c, b.mark = some c → ¬ c r
  joining : ∀ r, b.status r = .joining → ∀ σ,
    b.pending σ r ↔ ∃ c, b.mark = some c ∧ c r ∧ σ = slot w b.index
  joined : ∀ r pos, b.status r = .joined pos → pos ≤ b.index ∧ b.top ≤ pos + 2 ^ w ∧
    (∀ c, b.mark = some c → c r) ∧ ∀ σ, b.pending σ r ↔ Owes w pos b.top σ

variable {b b' : Board w R}

theorem Board.index_le_top (b : Board w R) : b.index ≤ b.top := by
  unfold Board.top
  split <;> omega

theorem top_of_mark {c : R → Prop} (h : b.mark = some c) : b.top = b.index + 1 := by
  simp [Board.top, h]

theorem top_of_none (h : b.mark = none) : b.top = b.index := by
  simp [Board.top, h]

/-- A reader takes a step of its join, which leaves the marks and the index alone: only
what the board says of that reader has to be shown. -/
theorem Board.Ok.moved (hb : b.Ok) {r : R} (hpend : ∀ σ r', b'.pending σ r' ↔ b.pending σ r')
    (hindex : b'.index = b.index) (hmark : b'.mark = b.mark) (habsent : b'.status r ≠ .absent)
    (hother : ∀ r', r' ≠ r → b'.status r' = b.status r')
    (hjoining : b'.status r = .joining → ∀ σ,
      b.pending σ r ↔ ∃ c, b.mark = some c ∧ c r ∧ σ = slot w b.index)
    (hjoined : ∀ pos, b'.status r = .joined pos → pos ≤ b.index ∧ b.top ≤ pos + 2 ^ w ∧
      (∀ c, b.mark = some c → c r) ∧ ∀ σ, b.pending σ r ↔ Owes w pos b.top σ) : b'.Ok := by
  have htop : b'.top = b.top := by rw [Board.top, Board.top, hmark, hindex]
  refine ⟨fun r' h => ?_, fun r' h σ => ?_, fun r' pos h => ?_⟩
  · simp only [hpend, hmark]
    by_cases hne : r' = r
    · subst hne
      exact absurd h habsent
    · exact hb.absent r' (hother r' hne ▸ h)
  · simp only [hpend, hmark, hindex]
    by_cases hne : r' = r
    · subst hne
      exact hjoining h σ
    · exact hb.joining r' (hother r' hne ▸ h) σ
  · simp only [hpend, hmark, hindex, htop]
    by_cases hne : r' = r
    · subst hne
      exact hjoined pos h
    · exact hb.joined r' pos (hother r' hne ▸ h)

/-- The first step of a join. -/
theorem Board.Ok.announce (hb : b.Ok) {r : R} (hr : b.status r = .absent)
    (hpend : ∀ σ r', b'.pending σ r' ↔ b.pending σ r') (hindex : b'.index = b.index)
    (hmark : b'.mark = b.mark) (hself : b'.status r = .joining)
    (hother : ∀ r', r' ≠ r → b'.status r' = b.status r') : b'.Ok := by
  obtain ⟨hno, hmk⟩ := hb.absent r hr
  refine hb.moved hpend hindex hmark (by rw [hself]; nofun) hother (fun _ σ => ?_) fun pos h => ?_
  · exact ⟨fun hp => absurd hp (hno σ), fun ⟨c, hc, hcr, _⟩ => absurd hcr (hmk c hc)⟩
  · rw [hself] at h
    cases h

/-- The second step of a join: whoever has marked a slot by then knows the reader. -/
theorem Board.Ok.position (hb : b.Ok) {r : R} (hr : b.status r = .joining)
    (hknown : ∀ c, b.mark = some c → c r)
    (hpend : ∀ σ r', b'.pending σ r' ↔ b.pending σ r') (hindex : b'.index = b.index)
    (hmark : b'.mark = b.mark) (hself : b'.status r = .joined b.index)
    (hother : ∀ r', r' ≠ r → b'.status r' = b.status r') : b'.Ok := by
  refine hb.moved hpend hindex hmark (by rw [hself]; nofun) hother (fun h => ?_) fun pos h => ?_
  · rw [hself] at h
    cases h
  · rw [hself] at h
    obtain rfl := Status.joined.inj h
    have hpos : 0 < 2 ^ w := Nat.two_pow_pos w
    cases hm : b.mark with
    | none =>
      rw [top_of_none hm]
      refine ⟨Nat.le_refl _, by omega, by simp, fun σ => ?_⟩
      rw [hb.joining r hr σ, hm]
      exact ⟨fun ⟨_, hc, _⟩ => (nomatch hc), fun ho => absurd ho not_owes_self⟩
    | some c =>
      rw [top_of_mark hm]
      refine ⟨Nat.le_refl _, by omega, ?_, fun σ => ?_⟩
      · exact fun d hd => Option.some.inj hd ▸ hknown c hm
      · rw [hb.joining r hr σ, owes_succ_hi (Nat.le_refl _), hm]
        constructor
        · rintro ⟨_, _, _, rfl⟩; exact .inr rfl
        · rintro (ho | rfl)
          · exact absurd ho not_owes_self
          · exact ⟨c, rfl, hknown c hm, rfl⟩

/-- A write marks its slot, for all that have joined and perhaps some that are about
to; none of those that have joined owes it a read. -/
theorem Board.Ok.place (hb : b.Ok) (hm : b.mark = none) {c : R → Prop}
    (hall : ∀ r pos, b.status r = .joined pos → c r)
    (hknown : ∀ r, b.status r = .absent → ¬ c r)
    (hfree : ∀ r pos, b.status r = .joined pos → ¬ b.pending (slot w b.index) r)
    (hpend : ∀ σ r, b'.pending σ r ↔ if σ = slot w b.index then c r else b.pending σ r)
    (hindex : b'.index = b.index) (hmark : b'.mark = some c) (hstatus : b'.status = b.status) :
    b'.Ok := by
  have htop : b'.top = b.index + 1 := by rw [top_of_mark hmark, hindex]
  refine ⟨?_, ?_, ?_⟩
  · intro r h
    rw [hstatus] at h
    refine ⟨fun σ => ?_, fun d hd => ?_⟩
    · rw [hpend]
      split
      · exact hknown r h
      · exact (hb.absent r h).1 σ
    · rw [hmark] at hd
      exact Option.some.inj hd ▸ hknown r h
  · intro r h σ
    rw [hstatus] at h
    rw [hpend, hmark, hindex]
    split
    · rename_i hσ
      exact ⟨fun hc => ⟨c, rfl, hc, hσ⟩, fun ⟨_, hd, hdr, _⟩ => Option.some.inj hd ▸ hdr⟩
    · rename_i hσ
      rw [hb.joining r h σ, hm]
      exact ⟨fun ⟨_, hd, _⟩ => (nomatch hd), fun ⟨_, _, _, he⟩ => absurd he hσ⟩
  · intro r pos h
    rw [hstatus] at h
    obtain ⟨hle, hroom, -, hown⟩ := hb.joined r pos h
    rw [top_of_none hm] at hroom hown
    have hnot : ¬ Owes w pos b.index (slot w b.index) := fun ho =>
      hfree r pos h ((hown _).mpr ho)
    rw [htop, hindex]
    refine ⟨hle, room_of_not_owes hnot hroom, fun d hd => ?_, fun σ => ?_⟩
    · rw [hmark] at hd
      exact Option.some.inj hd ▸ hall r pos h
    · rw [hpend, owes_succ_hi hle]
      split
      · rename_i hσ
        exact ⟨fun _ => .inr hσ.symm, fun _ => hall r pos h⟩
      · rename_i hσ
        rw [hown σ]
        exact ⟨.inl, fun ho => ho.resolve_right fun he => hσ he.symm⟩

/-- The write advances the index: nobody it marked is between the steps of a join. -/
theorem Board.Ok.publish (hb : b.Ok) {c : R → Prop} (hm : b.mark = some c)
    (hdone : ∀ r, b.status r = .joining → ¬ c r)
    (hpend : ∀ σ r, b'.pending σ r ↔ b.pending σ r) (hindex : b'.index = b.index + 1)
    (hmark : b'.mark = none) (hstatus : b'.status = b.status) : b'.Ok := by
  have htop : b'.top = b.top := by rw [top_of_none hmark, hindex, top_of_mark hm]
  refine ⟨?_, ?_, ?_⟩
  · intro r h
    rw [hstatus] at h
    refine ⟨fun σ => ?_, fun d hd => nomatch hmark.symm.trans hd⟩
    rw [hpend]
    exact (hb.absent r h).1 σ
  · intro r h σ
    rw [hstatus] at h
    rw [hpend, hb.joining r h σ, hm, hmark]
    constructor
    · rintro ⟨d, hd, hdr, _⟩
      exact absurd (Option.some.inj hd ▸ hdr) (hdone r h)
    · rintro ⟨d, hd, _⟩; cases hd
  · intro r pos h
    rw [hstatus] at h
    obtain ⟨hle, hroom, -, hown⟩ := hb.joined r pos h
    rw [htop, hindex]
    refine ⟨by omega, hroom, fun d hd => (nomatch hmark.symm.trans hd), fun σ => ?_⟩
    rw [hpend]
    exact hown σ

/-- A reader reads its oldest index. -/
theorem Board.Ok.take (hb : b.Ok) {r : R} {pos : Nat} (hr : b.status r = .joined pos)
    (hlt : pos < b.index)
    (hpend : ∀ σ r', b'.pending σ r' ↔ b.pending σ r' ∧ ¬ (r' = r ∧ σ = slot w pos))
    (hindex : b'.index = b.index) (hmark : b'.mark = b.mark)
    (hself : b'.status r = .joined (pos + 1))
    (hother : ∀ r', r' ≠ r → b'.status r' = b.status r') : b'.Ok := by
  have htop : b'.top = b.top := by rw [Board.top, Board.top, hmark, hindex]
  have hkeep : ∀ r', r' ≠ r → ∀ σ, b'.pending σ r' ↔ b.pending σ r' := by
    intro r' hne σ
    rw [hpend]
    exact ⟨And.left, fun h => ⟨h, fun he => hne he.1⟩⟩
  refine ⟨?_, ?_, ?_⟩
  · intro r' h
    have hne : r' ≠ r := by rintro rfl; rw [hself] at h; cases h
    rw [hother r' hne] at h
    simp only [hkeep r' hne, hmark]
    exact hb.absent r' h
  · intro r' h σ
    have hne : r' ≠ r := by rintro rfl; rw [hself] at h; cases h
    rw [hother r' hne] at h
    rw [hkeep r' hne, hmark, hindex]
    exact hb.joining r' h σ
  · intro r' p h
    by_cases hne : r' = r
    · subst hne
      rw [hself] at h
      obtain rfl := Status.joined.inj h
      obtain ⟨hle, hroom, hmk, hown⟩ := hb.joined r' pos hr
      rw [htop, hindex, hmark]
      refine ⟨hlt, by omega, hmk, fun σ => ?_⟩
      rw [hpend, owes_succ_lo hroom, hown σ]
      exact and_congr_right fun _ => ⟨fun h he => h ⟨rfl, he.symm⟩, fun h he => h he.2.symm⟩
    · rw [hother r' hne] at h
      rw [htop, hindex, hmark]
      simp only [hkeep r' hne]
      exact hb.joined r' p h

/-- Between two writes a reader is pending in exactly the slots it has yet to read. -/
theorem Board.Ok.pending_iff (hb : b.Ok) (hm : b.mark = none) {r : R} {pos : Nat}
    (hr : b.status r = .joined pos) {i : Nat} (hi : i < b.index) (hlap : b.index ≤ i + 2 ^ w) :
    b.pending (slot w i) r ↔ pos ≤ i := by
  obtain ⟨-, -, -, hown⟩ := hb.joined r pos hr
  rw [hown, top_of_none hm, owes_slot_iff hi hlap]

end CppIpc.Lib.Joining
