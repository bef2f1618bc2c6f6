import CppIpc.CodecvtLoops

/-! # The writes of a conversion and the end of its target

A query for the length is exact, and a target of that length is filled and not
overrun. A shorter one is overrun by the lead byte of each UTF-8 character that
comes when the target is full already: the other encoders check for room before
each of their writes, this one before all but its last. -/
namespace CppIpc.Codecvt
open CppIpc.Lib.Buffers CppIpc.Lib.Codecs

variable {v w : Nat}

/-! ## Targets that are long enough -/

theorem cvtCstrUtf_same (F : Ufmt) (signed : Bool) : cvtCstrUtf F F signed = copyCstr := by
  cases F <;> rfl

/-- What a query counts is what every target with room for it receives. -/
theorem text_of_query {F G : Ufmt} {signed : Bool} {s : List (BitVec F.width)} {n : Nat}
    (hq : (cvtCstrUtf F G signed s none 0 blank).1 = n) (hn : 0 < n) :
    ∃ l : List (BitVec G.width), l.length = n ∧
      ∀ dlen, n ≤ dlen → cvtCstrUtf F G signed s (some 0) dlen blank = (n, put blank 0 l) := by
  by_cases h : F = G
  · subst h
    rw [cvtCstrUtf_same] at hq ⊢
    have hlen : s.length = n := hq
    refine ⟨s, hlen, fun dlen hd => ?_⟩
    have hd0 : dlen ≠ 0 := by omega
    have hmin : min s.length dlen = n := by omega
    simp only [copyCstr, if_neg hd0, hmin]
    rw [List.take_of_length_le (by omega)]
  · rw [cvtCstrUtf_count h] at hq
    cases hs : converted F G signed s with
    | none =>
      rw [hs] at hq
      exact absurd hq.symm (Nat.ne_of_gt hn)
    | some l =>
      rw [hs] at hq
      have hl : l.length = n := hq
      exact ⟨l, hl, fun dlen hd => by rw [cvtCstrUtf_fits h hs (by omega), hl]⟩

/-- The length query is exact, and `cvt_sstr` fills its string with nothing but
what the conversion writes. -/
theorem query_exact (T U : CharT) (src : List (BitVec T.fmt.width)) (n dlen : Nat)
    (hq : (cvtCstr T U src none 0 blank).1 = n) (hn : 0 < n) (hd : n ≤ dlen) :
    let r := cvtCstr T U src (some 0) dlen blank
    r.1 = n ∧ (∀ i, (r.2 i).isSome = true ↔ i < n) ∧ r = cvtCstr T U src (some 0) n blank ∧
      ∀ des, (cvtSstr T U src des).map some = (List.range n).map r.2 := by
  obtain ⟨l, hl, hrun⟩ := text_of_query hq hn
  have hr : cvtCstr T U src (some 0) dlen blank = (n, put blank 0 l) := hrun dlen hd
  have hr' : cvtCstr T U src (some 0) n blank = (n, put blank 0 l) := hrun n (Nat.le_refl n)
  intro r
  show (cvtCstr T U src (some 0) dlen blank).1 = n ∧ _
  refine ⟨by rw [hr], fun i => ?_, by rw [hr', ← hr], fun des => ?_⟩
  · show ((cvtCstr T U src (some 0) dlen blank).2 i).isSome = true ↔ _
    rw [hr, put_blank_isSome, hl]
  · show (cvtSstr T U src des).map some =
      (List.range n).map (cvtCstr T U src (some 0) dlen blank).2
    have hne : ¬n = 0 := by omega
    simp only [cvtSstr, hq, if_neg hne, hr, hr', List.map_map]
    apply List.map_congr_left
    intro i hi
    have hi' : i < l.length := by rw [hl]; exact List.mem_range.mp hi
    simp [List.getElem?_eq_getElem hi']

theorem query_exact_sample :
    (cvtCstr .char .wchar [0x41, 0xE2, 0x82, 0xAC] (some 0) 7 blank).1 = 2 :=
  (query_exact .char .wchar [0x41, 0xE2, 0x82, 0xAC] 2 7 (by decide +kernel) (by decide)
    (by decide)).1

/-! ## Encoders that check for room -/

/-- No write outside the `dlen` places from `des` on. -/
def Tight (e : Encoder w) : Prop :=
  ∀ c p dlen m i, i < p ∨ p + dlen ≤ i → (e c (some p) dlen m).2 i = m i

theorem store_tight : Tight store := by
  intro c p dlen m i hi
  simp only [store]
  split
  next hd => exact set_of_ne _ _ (by omega)
  next => rfl

theorem cvtChar32To16_tight (signed : Bool) : Tight (cvtChar32To16 signed) := by
  intro c p dlen m i hi
  cases hc : units16 signed c with
  | none => rw [cvtChar32To16_none hc]
  | some l =>
    by_cases hd : l.length ≤ dlen
    · rw [cvtChar32To16_fits hc hd]
      rcases hi with hi | hi
      · exact put_of_lt _ _ hi
      · exact put_of_ge _ _ (by omega)
    · rw [cvtChar32To16_cut hc (by omega)]

theorem loopVia32_tight {R : Decoder v} {e : Encoder w}
    {units : BitVec 32 → Option (List (BitVec w))} (he : Writes e units) (ht : Tight e)
    (s : List (BitVec v)) (p dlen num : Nat) (m : Target w) {i : Nat} (hi : dlen ≤ i) :
    (loopVia32 R e s ⟨some p, dlen - p, num, m⟩).2 i = m i := by
  induction s using R.text_induction 0 generalizing p num m with
  | nil => rw [loopVia32_nil]
  | stop s => rw [loopVia32_end]
  | stuck a s ha h => rw [loopVia32_stuck ha h]
  | char a s n c ha h ih =>
    cases hc : units c with
    | none => rw [loopVia32_refused he ha h hc]
    | some l =>
      rw [loopVia32_taken he ha h hc, Cursor.advance_at, ih]
      exact ht c p (dlen - p) m i (by omega)

/-! ## The lead byte of UTF-8 -/

theorem cvtChar32To8_grows {c : BitVec 32} {des : Option Nat} {dlen : Nat} {m : Target 8}
    {i : Nat} (h : (m i).isSome = true) : ((cvtChar32To8 c des dlen m).2 i).isSome = true := by
  cases hc : units8 c with
  | none => rwa [cvtChar32To8_none hc]
  | some l =>
    cases des with
    | none => rwa [cvtChar32To8_some hc]
    | some p =>
      by_cases hd : l.length ≤ dlen
      · rw [cvtChar32To8_fits hc hd]
        exact put_isSome h p l
      · obtain ⟨b, hb⟩ := cvtChar32To8_cut hc (Nat.lt_of_not_le hd) p m
        rw [hb]
        exact set_isSome h p b

theorem loop8_grows {R : Decoder v} (s : List (BitVec v)) (k : Cursor 8) {i : Nat}
    (h : (k.target i).isSome = true) : ((loopVia32 R cvtChar32To8 s k).2 i).isSome = true := by
  induction s using R.text_induction 0 generalizing k with
  | nil => rwa [loopVia32_nil]
  | stop s => rwa [loopVia32_end]
  | stuck a s ha hr => rwa [loopVia32_stuck ha hr]
  | char a s n c ha hr ih =>
    cases hc : units8 c with
    | none => rwa [loopVia32_refused writes8 ha hr hc]
    | some l =>
      rw [loopVia32_taken writes8 ha hr hc]
      exact ih _ (cvtChar32To8_grows h)

/-- A character stays inside exactly when its lead byte does. -/
theorem cvtChar32To8_inside_iff {c : BitVec 32} {l : List (BitVec 8)} (hc : units8 c = some l)
    {p dlen : Nat} {m : Target 8} (hm : ∀ i, dlen ≤ i → m i = none) :
    (∀ i, dlen ≤ i → (cvtChar32To8 c (some p) (dlen - p) m).2 i = none) ↔ p < dlen := by
  have hpos := writes8.length_pos hc
  constructor
  · intro h
    by_contra hp
    have hfull : dlen - p < l.length := by omega
    obtain ⟨b, hb⟩ := cvtChar32To8_cut hc hfull p m
    have hlead := h p (by omega)
    rw [hb] at hlead
    change set m p b p = none at hlead
    rw [set_self] at hlead
    cases hlead
  · intro hp i hi
    by_cases hd : l.length ≤ dlen - p
    · rw [cvtChar32To8_fits hc hd]
      show put m p l i = none
      rw [put_of_ge _ _ (by omega), hm i hi]
    · obtain ⟨b, hb⟩ := cvtChar32To8_cut hc (Nat.lt_of_not_le hd) p m
      rw [hb]
      show set m p b i = none
      rw [set_of_ne _ _ (by omega), hm i hi]

/-- The bytes of all characters but the last, which is where its lead byte goes. -/
def leadOfLast (cs : List (BitVec 32)) : Nat := (cs.dropLast.map fun c => utf8Length c.toNat).sum

theorem leadOfLast_cons {c : BitVec 32} {cs : List (BitVec 32)} (h : cs ≠ []) :
    leadOfLast (c :: cs) = utf8Length c.toNat + leadOfLast cs := by
  rw [leadOfLast, List.dropLast_cons_of_ne_nil h, List.map_cons, List.sum_cons, leadOfLast]

theorem loop8_bounded_iff {R : Decoder v} (s : List (BitVec v)) (p dlen num : Nat) (m : Target 8)
    (hm : ∀ i, dlen ≤ i → m i = none) :
    (∀ i, dlen ≤ i → (loopVia32 R cvtChar32To8 s ⟨some p, dlen - p, num, m⟩).2 i = none) ↔
      fed R units8 0 s = [] ∨ p + leadOfLast (fed R units8 0 s) < dlen := by
  induction s using R.text_induction 0 generalizing p num m with
  | nil => exact ⟨fun _ => .inl fed_nil, fun _ => by rwa [loopVia32_nil]⟩
  | stop s => exact ⟨fun _ => .inl (fed_end s), fun _ => by rwa [loopVia32_end]⟩
  | stuck a s ha h =>
    exact ⟨fun _ => .inl (fed_stuck ha h), fun _ => by rwa [loopVia32_stuck ha h]⟩
  | char a s n c ha h ih =>
    cases hc : units8 c with
    | none =>
      exact ⟨fun _ => .inl (fed_refused ha h hc), fun _ => by
        rwa [loopVia32_refused writes8 ha h hc]⟩
    | some l =>
      have hlen : l.length = utf8Length c.toNat := by
        obtain ⟨-, -, rfl⟩ := units8_eq_some hc
        exact utf8_length _
      have hin := cvtChar32To8_inside_iff hc (p := p) hm
      rw [loopVia32_taken writes8 ha h hc, Cursor.advance_at, fed_taken ha h hc]
      -- the writes of this character show at the end, since none is taken back
      have hkeep : (∀ i, dlen ≤ i → (loopVia32 R cvtChar32To8 ((a :: s).drop n)
          ⟨some (p + l.length), dlen - (p + l.length), num + l.length,
            (cvtChar32To8 c (some p) (dlen - p) m).2⟩).2 i = none) →
          ∀ i, dlen ≤ i → (cvtChar32To8 c (some p) (dlen - p) m).2 i = none := by
        intro hall i hi
        by_contra hne
        have hsome := loop8_grows (R := R) ((a :: s).drop n) ⟨some (p + l.length),
          dlen - (p + l.length), num + l.length, (cvtChar32To8 c (some p) (dlen - p) m).2⟩
          (Option.isSome_iff_ne_none.mpr hne)
        rw [hall i hi] at hsome
        cases hsome
      constructor
      · intro hall
        have hown := hkeep hall
        have hp := hin.mp hown
        rcases (ih _ _ _ hown).mp hall with hnil | hlast
        · rw [hnil]
          exact .inr hp
        · by_cases hnil : fed R units8 0 ((a :: s).drop n) = []
          · rw [hnil]
            exact .inr hp
          · rw [leadOfLast_cons hnil]
            exact .inr (by omega)
      · rintro (hnil | hlast)
        · cases hnil
        · have hp : p < dlen := by omega
          have hown := hin.mpr hp
          refine (ih _ _ _ hown).mpr ?_
          by_cases hnil : fed R units8 0 ((a :: s).drop n) = []
          · exact .inl hnil
          · rw [leadOfLast_cons hnil] at hlast
            exact .inr (by omega)

/-- The code points that a source hands to the UTF-8 encoder: those before its
end, its first NUL, and the first character that cannot be read or written. -/
def encoded8 (F : Ufmt) (s : List (BitVec F.width)) : List (BitVec 32) :=
  fed (reader F) units8 0 s

/-- There is room for the lead byte of the last of them. -/
def LeadsFit (F : Ufmt) (s : List (BitVec F.width)) (dlen : Nat) : Prop :=
  encoded8 F s = [] ∨ leadOfLast (encoded8 F s) < dlen

/-- A conversion stays inside its target unless it is one to UTF-8 whose last
character starts where the target has ended already. -/
theorem bounded_iff_leadsFit (T U : CharT) (src : List (BitVec T.fmt.width)) (dlen : Nat) :
    (∀ i, dlen ≤ i → (cvtCstr T U src (some 0) dlen blank).2 i = none) ↔
      (U.fmt = .utf8 → T.fmt ≠ .utf8 → LeadsFit T.fmt src dlen) := by
  unfold cvtCstr
  generalize T.signed = signed
  revert src
  generalize T.fmt = F
  generalize U.fmt = G
  intro src
  by_cases h : F = G
  · subst h
    rw [cvtCstrUtf_same]
    refine ⟨fun _ hu hn => absurd hu hn, fun _ i hi => ?_⟩
    by_cases hd : dlen = 0
    · simp only [copyCstr, if_pos hd, blank_apply]
    · simp only [copyCstr, if_neg hd]
      rw [put_of_ge _ _ (by rw [List.length_take]; omega), blank_apply]
  · simp only [cvtCstrUtf_eq h]
    cases G with
    | utf8 =>
      have h8 := loop8_bounded_iff (R := reader F) src 0 dlen 0 blank fun _ _ => rfl
      rw [Nat.zero_add] at h8
      exact h8.trans ⟨fun hfit _ _ => hfit, fun hfit => hfit rfl h⟩
    | utf16 =>
      refine ⟨fun _ hu => absurd hu (by decide), fun _ i hi => ?_⟩
      exact loopVia32_tight (writes16 _) (cvtChar32To16_tight _) src 0 dlen 0 blank hi
    | utf32 =>
      refine ⟨fun _ hu => absurd hu (by decide), fun _ i hi => ?_⟩
      exact loopVia32_tight writes32 store_tight src 0 dlen 0 blank hi

/-- One letter, and a target without room for it. -/
theorem not_bounded_empty :
    ¬∀ (T U : CharT) (src : List (BitVec T.fmt.width)) (dlen i : Nat), dlen ≤ i →
      (cvtCstr T U src (some 0) dlen blank).2 i = none := by
  intro h
  have hn := h .char16 .char [0x41] 0 0 (Nat.le_refl 0)
  have hs : (cvtCstr .char16 .char [0x41] (some 0) 0 blank).2 0 = some 0x41 := by decide +kernel
  rw [hs] at hn
  cases hn

end CppIpc.Codecvt
