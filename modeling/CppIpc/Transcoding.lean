import CppIpc.CodecvtLoops

/-! # Texts through other encodings and back

What `cvt_cstr` gives when its result is converted again: back to the encoding
that the text came from, or on to a third one. A target is long enough when it
has room for the count that is returned. -/
namespace CppIpc.Codecvt
open CppIpc.Lib.Buffers CppIpc.Lib.Codecs

/-! ## Conversions from and to code points -/

theorem converted_to32 (F : Ufmt) (signed : Bool) (s : List (BitVec F.width)) :
    converted F .utf32 signed s = ((reader F).all 0 s).text := by
  have henc : ∀ bs : List (BitVec 32), encode unit32 bs = some bs := encode_single
  show ((reader F).all 0 s).text.bind (encode unit32) = _
  cases ((reader F).all 0 s).text with
  | none => rfl
  | some cs => exact henc cs

theorem takeWhile_of_ne_zero {w : Nat} {cs : List (BitVec w)} (h : ∀ c ∈ cs, c ≠ 0) :
    cs.takeWhile (· ≠ 0) = cs := by
  rw [List.takeWhile_eq_self_iff]
  exact fun c hc => by simpa using h c hc

theorem converted_from32 (G : Ufmt) (signed : Bool) (cs : List (BitVec 32)) :
    converted .utf32 G signed cs = encode (unitsOf G signed) (cs.takeWhile (· ≠ 0)) := by
  have hs : comparesSigned .utf32 signed = signed := by cases signed <;> rfl
  show (Reader.all Lib.Codecs.units 0 cs).text.bind (encode (unitsOf G _)) = _
  rw [units_text, hs]
  rfl

theorem ne_zero_of_pos {c : BitVec 32} (h : 0 < c.toNat) : c ≠ 0 := by
  rintro rfl
  simp at h

/-! ## UTF-8 and back -/

/-- The bytes of a text: each code point in its shortest form. -/
def utf8Bytes (cs : List (BitVec 32)) : List (BitVec 8) := cs.flatMap fun c => utf8 c.toNat

theorem utf8Bytes_cons (c : BitVec 32) (cs : List (BitVec 32)) :
    utf8Bytes (c :: cs) = utf8 c.toNat ++ utf8Bytes cs := rfl

theorem utf8Bytes_length (cs : List (BitVec 32)) :
    (utf8Bytes cs).length = (cs.map fun c => utf8Length c.toNat).sum := by
  rw [utf8Bytes, List.length_flatMap]
  simp only [utf8_length]

theorem converted_to_utf8 {cs : List (BitVec 32)}
    (hc : ∀ c ∈ cs, 0 < c.toNat ∧ c.toNat < 2 ^ 31) (signed : Bool) :
    converted .utf32 .utf8 signed cs = some (utf8Bytes cs) := by
  rw [converted_from32, takeWhile_of_ne_zero fun c h => ne_zero_of_pos (hc c h).1]
  exact encode_of_some fun c h => units8_of_range (hc c h)

theorem converted_of_utf8 {cs : List (BitVec 32)}
    (hc : ∀ c ∈ cs, 0 < c.toNat ∧ c.toNat < 2 ^ 31) (signed : Bool) :
    converted .utf8 .utf32 signed (utf8Bytes cs) = some cs := by
  have hread : ∀ c ∈ cs, ∀ t,
      decoder8.read (utf8 c.toNat ++ t) = some ((utf8 c.toNat).length, c) :=
    fun c h t => utf8_read (hc c h).1 (hc c h).2 t
  have hz : ∀ c ∈ cs, 0 ∉ utf8 c.toNat := fun c h => zero_not_mem_utf8 (hc c h).1 (hc c h).2
  rw [converted_to32]
  exact Reader.text_flatMap (R := decoder8) (fun c => utf8 c.toNat) hread hz

/-- Code points from 1 to `0x7FFFFFFF` survive UTF-8, in as many bytes as their
lengths add up to. -/
theorem utf8_round_trip (signed signed' : Bool) (cs : List (BitVec 32)) (hne : cs ≠ [])
    (hc : ∀ c ∈ cs, 1 ≤ c.toNat ∧ c.toNat ≤ 0x7FFFFFFF) (dlen dlen' : Nat)
    (hd : (cs.map fun c => utf8Length c.toNat).sum ≤ dlen) (hd' : cs.length ≤ dlen') :
    let r := cvtCstrUtf .utf32 .utf8 signed cs (some 0) dlen blank
    let r' := cvtCstrUtf .utf8 .utf32 signed' (contents r.2 r.1) (some 0) dlen' blank
    r.1 ≠ 0 ∧ r.1 = (cs.map fun c => utf8Length c.toNat).sum ∧
      r'.1 ≠ 0 ∧ contents r'.2 r'.1 = cs := by
  have hc' : ∀ c ∈ cs, 0 < c.toNat ∧ c.toNat < 2 ^ 31 := fun c h => by
    have := hc c h
    omega
  have hto := converted_to_utf8 hc' signed
  have hback := converted_of_utf8 hc' signed'
  have hlen := utf8Bytes_length cs
  have hpos : 0 < cs.length := List.length_pos_iff.mpr hne
  have hbytes : 0 < (utf8Bytes cs).length := by
    obtain ⟨c, cs, rfl⟩ := List.exists_cons_of_ne_nil hne
    rw [utf8Bytes_cons, List.length_append, utf8_length, utf8Length]
    omega
  intro r r'
  have hr : r = ((utf8Bytes cs).length, put blank 0 (utf8Bytes cs)) :=
    cvtCstrUtf_fits (by decide) hto (by omega) blank
  have htext : contents r.2 r.1 = utf8Bytes cs := by rw [hr, contents_put_blank]
  have hr' : r' = (cs.length, put blank 0 cs) := by
    rw [← cvtCstrUtf_fits (by decide) hback hd', ← htext]
  rw [hr', hr, contents_put_blank]
  exact ⟨by omega, by omega, by omega, rfl⟩

theorem utf8_round_trip_sample :
    let cs : List (BitVec 32) := [0x41, 0x20AC, 0x7FFFFFFF]
    let r := cvtCstrUtf .utf32 .utf8 false cs (some 0) 10 blank
    let r' := cvtCstrUtf .utf8 .utf32 false (contents r.2 r.1) (some 0) 3 blank
    r.1 ≠ 0 ∧ r.1 = (cs.map fun c => utf8Length c.toNat).sum ∧
      r'.1 ≠ 0 ∧ contents r'.2 r'.1 = cs :=
  utf8_round_trip false false [0x41, 0x20AC, 0x7FFFFFFF] (List.cons_ne_nil _ _) (by simp) 10 3
    (by decide +kernel) (by decide)

/-! ## UTF-16 and back -/

/-- The standard encoding of a text in UTF-16. -/
def utf16Units (cs : List (BitVec 32)) : List (BitVec 16) := cs.flatMap fun c => utf16 c.toNat

/-- A text of Unicode scalar values without `U+0000`. -/
def ScalarText (cs : List (BitVec 32)) : Prop := ∀ c ∈ cs, 0 < c.toNat ∧ Scalar c.toNat

/-- A NUL-free string in well-formed UTF-16. -/
def WellFormed16 (u : List (BitVec 16)) : Prop := ∃ cs, ScalarText cs ∧ u = utf16Units cs

theorem Scalar.lt {c : Nat} (h : Scalar c) : c < 2 ^ 31 := by
  have := h.1
  omega

theorem converted_of_utf16 {cs : List (BitVec 32)} (hc : ScalarText cs) (signed : Bool) :
    converted .utf16 .utf32 signed (utf16Units cs) = some cs := by
  have hread : ∀ c ∈ cs, ∀ t,
      decoder16.read (utf16 c.toNat ++ t) = some ((utf16 c.toNat).length, c) :=
    fun c h t => utf16_read (hc c h).1 (hc c h).2 t
  have hz : ∀ c ∈ cs, 0 ∉ utf16 c.toNat := fun c h => zero_not_mem_utf16 (hc c h).1 (hc c h).2
  rw [converted_to32]
  exact Reader.text_flatMap (R := decoder16) (fun c => utf16 c.toNat) hread hz

theorem converted_to_utf16 {cs : List (BitVec 32)} (hc : ScalarText cs) (signed : Bool) :
    converted .utf32 .utf16 signed cs =
      if ∀ c ∈ cs, c.toNat ≤ 0xEFFFF then some (utf16Units cs) else none := by
  have hunits : ∀ c ∈ cs, units16 signed c =
      if c.toNat ≤ 0xEFFFF then some (utf16 c.toNat) else none := fun c h => by
    rw [units16_eq (hc c h).2.lt]
    simp only [(hc c h).1, true_and]
  rw [converted_from32, takeWhile_of_ne_zero fun c h => ne_zero_of_pos (hc c h).1]
  show encode (units16 signed) cs = _
  by_cases hall : ∀ c ∈ cs, c.toNat ≤ 0xEFFFF
  · rw [if_pos hall]
    exact encode_of_some fun c h => by rw [hunits c h, if_pos (hall c h)]
  · rw [if_neg hall]
    obtain ⟨c, hm, hbig⟩ : ∃ c ∈ cs, ¬c.toNat ≤ 0xEFFFF := by simpa using hall
    exact encode_of_none hm (by rw [hunits c hm, if_neg hbig])

/-- The text converts to its standard encoding, and that converts back to it. -/
def Survives32 (signed signed' : Bool) (cs : List (BitVec 32)) : Prop :=
  ∀ dlen dlen', (utf16Units cs).length ≤ dlen → cs.length ≤ dlen' →
    let r := cvtCstrUtf .utf32 .utf16 signed cs (some 0) dlen blank
    let r' := cvtCstrUtf .utf16 .utf32 signed' (contents r.2 r.1) (some 0) dlen' blank
    r.1 ≠ 0 ∧ contents r.2 r.1 = utf16Units cs ∧ r'.1 ≠ 0 ∧ contents r'.2 r'.1 = cs

/-- The string converts to UTF-32, and that converts back to it. -/
def Survives16 (signed signed' : Bool) (u : List (BitVec 16)) : Prop :=
  ∀ dlen dlen', u.length ≤ dlen → u.length ≤ dlen' →
    let r := cvtCstrUtf .utf16 .utf32 signed u (some 0) dlen blank
    let r' := cvtCstrUtf .utf32 .utf16 signed' (contents r.2 r.1) (some 0) dlen' blank
    r.1 ≠ 0 ∧ r'.1 ≠ 0 ∧ contents r'.2 r'.1 = u

theorem length_le_utf16Units (cs : List (BitVec 32)) : cs.length ≤ (utf16Units cs).length := by
  induction cs with
  | nil => exact Nat.le_refl _
  | cons c cs ih =>
    have hc : 1 ≤ (utf16 c.toNat).length := by unfold utf16; split <;> simp
    show cs.length + 1 ≤ (utf16 c.toNat ++ utf16Units cs).length
    rw [List.length_append]
    omega

theorem survives32_iff (signed signed' : Bool) {cs : List (BitVec 32)} (hne : cs ≠ [])
    (hc : ScalarText cs) :
    Survives32 signed signed' cs ↔ ∀ c ∈ cs, c.toNat ≤ 0xEFFFF := by
  have hto := converted_to_utf16 hc signed
  constructor
  · intro h
    by_contra hall
    obtain ⟨hn, -⟩ := h _ _ (Nat.le_refl _) (Nat.le_refl _)
    rw [if_neg hall] at hto
    rw [cvtCstrUtf_count (by decide), hto] at hn
    exact hn rfl
  · intro hall dlen dlen' hd hd' r r'
    rw [if_pos hall] at hto
    have hback := converted_of_utf16 hc signed'
    have hpos : 0 < cs.length := List.length_pos_iff.mpr hne
    have hle := length_le_utf16Units cs
    have hr : r = ((utf16Units cs).length, put blank 0 (utf16Units cs)) :=
      cvtCstrUtf_fits (by decide) hto hd blank
    have htext : contents r.2 r.1 = utf16Units cs := by rw [hr, contents_put_blank]
    have hr' : r' = (cs.length, put blank 0 cs) := by
      rw [← cvtCstrUtf_fits (by decide) hback hd', ← htext]
    rw [htext, hr', hr, contents_put_blank]
    exact ⟨by omega, rfl, by omega, rfl⟩

theorem survives16_iff (signed signed' : Bool) {cs : List (BitVec 32)} (hne : cs ≠ [])
    (hc : ScalarText cs) :
    Survives16 signed signed' (utf16Units cs) ↔ ∀ c ∈ cs, c.toNat ≤ 0xEFFFF := by
  have hfrom := converted_of_utf16 hc signed
  have hback := converted_to_utf16 hc signed'
  have hpos : 0 < cs.length := List.length_pos_iff.mpr hne
  have hle := length_le_utf16Units cs
  constructor
  · intro h
    by_contra hall
    obtain ⟨-, hn, -⟩ := h _ _ (Nat.le_refl _) (Nat.le_refl _)
    rw [if_neg hall] at hback
    rw [cvtCstrUtf_contents (by decide) hfrom hle, cvtCstrUtf_count (by decide), hback] at hn
    exact hn rfl
  · intro hall dlen dlen' hd hd' r r'
    rw [if_pos hall] at hback
    have hr : r = (cs.length, put blank 0 cs) :=
      cvtCstrUtf_fits (by decide) hfrom (by omega) blank
    have htext : contents r.2 r.1 = cs := by rw [hr, contents_put_blank]
    have hr' : r' = ((utf16Units cs).length, put blank 0 (utf16Units cs)) := by
      rw [← cvtCstrUtf_fits (by decide) hback hd', ← htext]
    rw [hr', hr, contents_put_blank]
    exact ⟨by omega, by omega, rfl⟩

/-- UTF-16 is undone by UTF-32 and the other way round as far as `U+EFFFF`, where
the encoder stops: no further, although the decoder does read the pairs beyond. -/
theorem utf16_round_trip_iff (signed signed' : Bool) :
    (∀ cs, cs ≠ [] → ScalarText cs →
      (Survives32 signed signed' cs ↔ ∀ c ∈ cs, c.toNat ≤ 0xEFFFF)) ∧
    ∀ u, u ≠ [] → WellFormed16 u →
      (Survives16 signed signed' u ↔ ∀ x ∈ u, ¬PastLimit x) := by
  constructor
  · intro cs hne hc
    exact survives32_iff signed signed' hne hc
  rintro u hne ⟨cs, hc, rfl⟩
  have hcs : cs ≠ [] := by
    rintro rfl
    exact hne rfl
  rw [survives16_iff signed signed' hcs hc]
  constructor
  · intro hall x hx hpast
    obtain ⟨c, hm, hx⟩ := List.mem_flatMap.mp hx
    have hbig := (pastLimit_iff (hc c hm).2).mp ⟨x, hx, hpast⟩
    have hle := hall c hm
    omega
  · intro hall c hm
    by_contra hbig
    obtain ⟨x, hx, hpast⟩ := (pastLimit_iff (hc c hm).2).mpr (Nat.lt_of_not_le hbig)
    exact hall x (List.mem_flatMap.mpr ⟨c, hm, hx⟩) hpast

/-- The first character of plane 15 is one that the decoder reads and the encoder
does not write. -/
theorem not_survives_plane15 :
    ¬∀ cs, cs ≠ [] → ScalarText cs → Survives32 false false cs := by
  intro h
  have hc : ScalarText [0xF0000] := by
    intro c hc
    rw [List.mem_singleton.mp hc]
    decide +kernel
  obtain ⟨hn, -⟩ := h [0xF0000] (List.cons_ne_nil _ _) hc 2 1 (by decide +kernel) (by decide)
  have hz : (cvtCstrUtf .utf32 .utf16 false [0xF0000] (some 0) 2 blank).1 = 0 := by decide +kernel
  exact hn hz

/-! ## Overlong forms -/

/-- The bytes that a conversion of `s` looks at: those before the first NUL. -/
def consumed (s : List (BitVec 8)) : List (BitVec 8) := s.takeWhile (· ≠ 0)

/-- Every character of `s` has as many bytes as the encoder gives its code point. -/
def ShortestForm (s : List (BitVec 8)) : Prop :=
  ∀ c ∈ (decoder8.all 0 s).chars, c.1 = utf8Length c.2.toNat

instance (s : List (BitVec 8)) : Decidable (ShortestForm s) :=
  inferInstanceAs (Decidable (∀ c ∈ _, _))

theorem points8_lt (s : List (BitVec 8)) : ∀ c ∈ (decoder8.all 0 s).points, c.toNat < 2 ^ 31 :=
  Reader.forall_points (fun h => by
    obtain ⟨k, hk, -, hlt, -⟩ := form_of_read h
    exact Nat.lt_of_lt_of_le hlt (limit_le k hk)) s

theorem accepted_whole {signed : Bool} {s : List (BitVec 8)} {des : Option Nat} {dlen : Nat}
    {m : Target 32} (h : (cvtCstrUtf .utf8 .utf32 signed s des dlen m).1 ≠ 0) :
    (decoder8.all 0 s).whole = true ∧
      converted .utf8 .utf32 signed s = some (decoder8.all 0 s).points := by
  have htext : converted .utf8 .utf32 signed s = (decoder8.all 0 s).text :=
    converted_to32 .utf8 signed s
  rw [cvtCstrUtf_count (by decide), htext] at h
  cases ht : (decoder8.all 0 s).text with
  | none =>
    rw [ht] at h
    exact absurd rfl h
  | some cs =>
    obtain ⟨hw, rfl⟩ := Reading.text_eq_some ht
    exact ⟨hw, htext.trans ht⟩

theorem converted_prefix {cs : List (BitVec 32)} (hc : ∀ c ∈ cs, c.toNat < 2 ^ 31)
    (signed : Bool) :
    converted .utf32 .utf8 signed cs = some (utf8Bytes (cs.takeWhile (· ≠ 0))) := by
  have hpos : ∀ c ∈ cs.takeWhile (· ≠ 0), 0 < c.toNat ∧ c.toNat < 2 ^ 31 := by
    intro c h
    have hne : c ≠ 0 := by simpa using List.mem_takeWhile_imp h
    exact ⟨Nat.pos_of_ne_zero fun h0 => hne (BitVec.eq_of_toNat_eq (by simpa using h0)),
      hc c ((List.takeWhile_prefix _).subset h)⟩
  rw [converted_from32]
  exact encode_of_some fun c h => units8_of_range (hpos c h)

/-- A NUL in the decoded text cuts its encoding short. -/
theorem utf8Bytes_takeWhile_length {cs : List (BitVec 32)}
    (h : (utf8Bytes cs).length ≤ (utf8Bytes (cs.takeWhile (· ≠ 0))).length) :
    cs.takeWhile (· ≠ 0) = cs := by
  have hsplit : utf8Bytes (cs.takeWhile (· ≠ 0)) ++ utf8Bytes (cs.dropWhile (· ≠ 0)) =
      utf8Bytes cs := by
    rw [utf8Bytes, utf8Bytes, ← List.flatMap_append, List.takeWhile_append_dropWhile]
    rfl
  have hlen := congrArg List.length hsplit
  rw [List.length_append] at hlen
  cases hd : cs.dropWhile (· ≠ 0) with
  | nil =>
    have happ := List.takeWhile_append_dropWhile (p := (· ≠ 0)) (l := cs)
    rwa [hd, List.append_nil] at happ
  | cons c t =>
    rw [hd, utf8Bytes_cons, List.length_append, utf8_length, utf8Length] at hlen
    omega

theorem utf8Bytes_eq_consumed_iff {s : List (BitVec 8)} (hw : (decoder8.all 0 s).whole = true) :
    utf8Bytes ((decoder8.all 0 s).points.takeWhile (· ≠ 0)) = consumed s ↔ ShortestForm s := by
  have hle := shortest8.length_le s hw
  have hiff := shortest8.flatMap_eq_iff s hw
  have hform : (∀ c ∈ (decoder8.all 0 s).chars, (utf8 c.2.toNat).length = c.1) ↔
      ShortestForm s := by
    simp only [ShortestForm, utf8_length, eq_comm]
  rw [hform] at hiff
  constructor
  · intro h
    have hcut : (decoder8.all 0 s).points.takeWhile (· ≠ 0) = (decoder8.all 0 s).points :=
      utf8Bytes_takeWhile_length (by rw [h]; exact hle)
    rw [hcut] at h
    exact hiff.mp h
  · intro h
    have hall := hiff.mpr h
    have hne : ∀ c ∈ (decoder8.all 0 s).points, c ≠ 0 := by
      rintro c hm rfl
      have hz : (0 : BitVec 8) ∈ consumed s := by
        rw [consumed, ← hall]
        exact List.mem_flatMap.mpr ⟨0, hm, by decide⟩
      simpa using List.mem_takeWhile_imp hz
    rw [takeWhile_of_ne_zero hne]
    exact hall

/-- The decoder reads overlong forms as well. Encoding a decoded string again
gives back its bytes exactly when it has none, and among the strings without any
no two have the same text. -/
theorem canonical_iff_shortest (signed signed' : Bool) :
    (∀ s dlen dlen',
      let r := cvtCstrUtf .utf8 .utf32 signed s (some 0) dlen blank
      let r' := cvtCstrUtf .utf32 .utf8 signed' (contents r.2 r.1) (some 0) dlen' blank
      r.1 ≠ 0 → r.1 ≤ dlen → r'.1 ≤ dlen' →
        (contents r'.2 r'.1 = consumed s ↔ ShortestForm s)) ∧
    ∀ s t dlen dlen',
      let r := cvtCstrUtf .utf8 .utf32 signed s (some 0) dlen blank
      let r' := cvtCstrUtf .utf8 .utf32 signed t (some 0) dlen' blank
      r.1 ≠ 0 → r.1 ≤ dlen → r'.1 ≠ 0 → r'.1 ≤ dlen' → ShortestForm s → ShortestForm t →
        contents r.2 r.1 = contents r'.2 r'.1 → consumed s = consumed t := by
  have htext : ∀ s dlen, (cvtCstrUtf .utf8 .utf32 signed s (some 0) dlen blank).1 ≠ 0 →
      (cvtCstrUtf .utf8 .utf32 signed s (some 0) dlen blank).1 ≤ dlen →
      contents (cvtCstrUtf .utf8 .utf32 signed s (some 0) dlen blank).2
        (cvtCstrUtf .utf8 .utf32 signed s (some 0) dlen blank).1 =
          (decoder8.all 0 s).points := by
    intro s dlen hacc hd
    obtain ⟨-, hconv⟩ := accepted_whole hacc
    have hn : (cvtCstrUtf .utf8 .utf32 signed s (some 0) dlen blank).1 =
        (decoder8.all 0 s).points.length := by rw [cvtCstrUtf_count (by decide), hconv]
    exact cvtCstrUtf_contents (by decide) hconv (by omega)
  constructor
  · intro s dlen dlen' r r' hacc hd hd'
    obtain ⟨hw, -⟩ := accepted_whole hacc
    have hr : contents r.2 r.1 = (decoder8.all 0 s).points := htext s dlen hacc hd
    have hconv := converted_prefix (points8_lt s) signed'
    rw [← hr] at hconv
    have hn : r'.1 = (utf8Bytes ((contents r.2 r.1).takeWhile (· ≠ 0))).length := by
      show (cvtCstrUtf .utf32 .utf8 signed' _ _ _ _).1 = _
      rw [cvtCstrUtf_count (by decide), hconv]
    have hr' : contents r'.2 r'.1 = utf8Bytes ((contents r.2 r.1).takeWhile (· ≠ 0)) :=
      cvtCstrUtf_contents (by decide) hconv (by omega)
    rw [hr', hr]
    exact utf8Bytes_eq_consumed_iff hw
  · intro s t dlen dlen' r r' hacc hd hacc' hd' hs ht he
    rw [htext s dlen hacc hd, htext t dlen' hacc' hd'] at he
    rw [← (utf8Bytes_eq_consumed_iff (accepted_whole hacc).1).mpr hs,
      ← (utf8Bytes_eq_consumed_iff (accepted_whole hacc').1).mpr ht, he]

theorem canonical_iff_shortest_sample :
    contents (cvtCstrUtf .utf32 .utf8 false [0x20AC] (some 0) 3 blank).2
      (cvtCstrUtf .utf32 .utf8 false [0x20AC] (some 0) 3 blank).1 =
        consumed [0xE2, 0x82, 0xAC] ↔ ShortestForm [0xE2, 0x82, 0xAC] := by
  have h := (canonical_iff_shortest false false).1 [0xE2, 0x82, 0xAC] 1 3
  have hcs : contents (cvtCstrUtf .utf8 .utf32 false [0xE2, 0x82, 0xAC] (some 0) 1 blank).2
      (cvtCstrUtf .utf8 .utf32 false [0xE2, 0x82, 0xAC] (some 0) 1 blank).1 = [0x20AC] := by
    decide +kernel
  simp only [hcs] at h
  exact h (by decide +kernel) (by decide +kernel) (by decide +kernel)

/-- The letter `A` in two bytes. -/
theorem not_canonical_overlong :
    ¬∀ s, (cvtCstrUtf .utf8 .utf32 false s (some 0) 2 blank).1 ≠ 0 →
      let r := cvtCstrUtf .utf8 .utf32 false s (some 0) 2 blank
      let r' := cvtCstrUtf .utf32 .utf8 false (contents r.2 r.1) (some 0) 2 blank
      contents r'.2 r'.1 = consumed s := by
  intro h
  have hn : (cvtCstrUtf .utf8 .utf32 false [0xC1, 0x81] (some 0) 2 blank).1 = 1 := by
    decide +kernel
  have he := h [0xC1, 0x81] (by rw [hn]; decide)
  have hne : contents (cvtCstrUtf .utf32 .utf8 false
      (contents (cvtCstrUtf .utf8 .utf32 false [0xC1, 0x81] (some 0) 2 blank).2
        (cvtCstrUtf .utf8 .utf32 false [0xC1, 0x81] (some 0) 2 blank).1) (some 0) 2 blank).2
      (cvtCstrUtf .utf32 .utf8 false
      (contents (cvtCstrUtf .utf8 .utf32 false [0xC1, 0x81] (some 0) 2 blank).2
        (cvtCstrUtf .utf8 .utf32 false [0xC1, 0x81] (some 0) 2 blank).1) (some 0) 2 blank).1 =
      [0x41] := by decide +kernel
  have hc : consumed [0xC1, 0x81] = [0xC1, 0x81] := by decide
  exact absurd (hne.symm.trans (he.trans hc)) (by decide)

/-! ## By way of UTF-32 -/

/-- The direct conversion of `s` fails where one of the two stages does, and
otherwise gives what the second stage gives. -/
def StagesAgree (F G : Ufmt) (signed signed' : Bool) (s : List (BitVec F.width))
    (dlen₁ dlen₂ dlen : Nat) : Prop :=
  let r₁ := cvtCstrUtf F .utf32 signed s (some 0) dlen₁ blank
  let r₂ := cvtCstrUtf .utf32 G signed' (contents r₁.2 r₁.1) (some 0) dlen₂ blank
  let r := cvtCstrUtf F G signed s (some 0) dlen blank
  r₁.1 ≤ dlen₁ → r₂.1 ≤ dlen₂ → r.1 ≤ dlen →
    (r.1 = 0 ↔ r₁.1 = 0 ∨ r₂.1 = 0) ∧ (r.1 ≠ 0 → r = r₂)

theorem stagesAgree_of_text {F G : Ufmt} (hF : F ≠ .utf32) (hG : .utf32 ≠ G) (hFG : F ≠ G)
    {signed signed' : Bool} {s : List (BitVec F.width)}
    (hz : ∀ cs, ((reader F).all 0 s).text = some cs → ∀ c ∈ cs, c ≠ 0 ∧
      unitsOf G signed' c = unitsOf G (comparesSigned F signed) c) (dlen₁ dlen₂ dlen : Nat) :
    StagesAgree F G signed signed' s dlen₁ dlen₂ dlen := by
  unfold StagesAgree
  intro r₁ r₂ r hd₁ hd₂ hd
  have hconv := converted_to32 F signed s
  have hdirect : converted F G signed s = ((reader F).all 0 s).text.bind
    (encode (unitsOf G (comparesSigned F signed))) := rfl
  have hn₁ : r₁.1 = _ := cvtCstrUtf_count hF signed s (some 0) dlen₁ blank
  have hn₂ : r₂.1 = _ := cvtCstrUtf_count hG signed' (contents r₁.2 r₁.1) (some 0) dlen₂ blank
  have hn : r.1 = _ := cvtCstrUtf_count hFG signed s (some 0) dlen blank
  cases ht : ((reader F).all 0 s).text with
  | none =>
    rw [hconv, ht] at hn₁
    rw [hdirect, ht] at hn
    exact ⟨by simp [hn₁, hn], fun h => absurd hn h⟩
  | some cs =>
    rw [ht] at hconv hdirect
    rw [hconv] at hn₁
    have hcs : contents r₁.2 r₁.1 = cs :=
      cvtCstrUtf_contents hF hconv (Nat.le_trans (Nat.le_of_eq hn₁.symm) hd₁)
    have hsecond : converted .utf32 G signed' (contents r₁.2 r₁.1) = converted F G signed s := by
      rw [hcs, hdirect, converted_from32, takeWhile_of_ne_zero fun c h => (hz cs ht c h).1]
      exact encode_congr fun c h => (hz cs ht c h).2
    rw [hsecond] at hn₂
    have hsame : r.1 = r₂.1 := hn.trans hn₂.symm
    refine ⟨⟨fun h => .inr (hsame.symm.trans h), fun h => ?_⟩, fun h => ?_⟩
    · rcases h with h | h
      · have hnil : cs = [] := List.length_eq_zero_iff.mp (hn₁.symm.trans h)
        rw [hdirect, hnil] at hn
        exact hn
      · exact hsame.trans h
    · cases hl : converted F G signed s with
      | none =>
        rw [hl] at hn
        exact absurd hn h
      | some l =>
        rw [hl] at hn hn₂ hsecond
        have hr : r = (l.length, put blank 0 l) :=
          cvtCstrUtf_fits hFG hl (Nat.le_trans (Nat.le_of_eq hn.symm) hd) blank
        have hr₂ : r₂ = (l.length, put blank 0 l) :=
          cvtCstrUtf_fits hG hsecond (Nat.le_trans (Nat.le_of_eq hn₂.symm) hd₂) blank
        rw [hr, hr₂]

/-- Whatever the source, going by way of UTF-32 changes nothing. UTF-8 can hold a
code point 0 in two bytes, at which only the second stage would take the text to end. -/
theorem stages_agree (signed signed' : Bool) :
    (∀ s dlen₁ dlen₂ dlen, StagesAgree .utf16 .utf8 signed signed' s dlen₁ dlen₂ dlen) ∧
    ∀ s dlen₁ dlen₂ dlen,
      (∀ c ∈ contents (cvtCstrUtf .utf8 .utf32 signed s (some 0) dlen₁ blank).2
        (cvtCstrUtf .utf8 .utf32 signed s (some 0) dlen₁ blank).1, c ≠ 0) →
      StagesAgree .utf8 .utf16 signed signed' s dlen₁ dlen₂ dlen := by
  constructor
  · intro s dlen₁ dlen₂ dlen
    refine stagesAgree_of_text (by decide) (by decide) (by decide) (fun cs ht c hc => ?_) _ _ _
    obtain ⟨-, rfl⟩ := Reading.text_eq_some ht
    have hpos : ∀ c ∈ (decoder16.all 0 s).points, 0 < c.toNat :=
      Reader.forall_points (fun h => (utf16_of_read h).1) s
    exact ⟨ne_zero_of_pos (hpos c hc), rfl⟩
  · intro s dlen₁ dlen₂ dlen hz hd₁
    refine stagesAgree_of_text (by decide) (by decide) (by decide) (fun cs ht c hc => ?_) _ _ _ hd₁
    have hconv : converted .utf8 .utf32 signed s = some cs :=
      (converted_to32 .utf8 signed s).trans ht
    have hn := cvtCstrUtf_count (F := .utf8) (G := .utf32) (by decide) signed s (some 0) dlen₁ blank
    rw [hconv] at hn
    have hcs := cvtCstrUtf_contents (by decide) hconv (Nat.le_trans (Nat.le_of_eq hn.symm) hd₁)
    rw [hcs] at hz
    obtain ⟨-, hp⟩ := Reading.text_eq_some ht
    have hlt : c.toNat < 2 ^ 31 := points8_lt s c (by rw [← hp] at hc; exact hc)
    have hunits : ∀ b, unitsOf .utf16 b c =
        if 0 < c.toNat ∧ c.toNat ≤ 0xEFFFF then some (utf16 c.toNat) else none :=
      fun b => units16_eq hlt
    exact ⟨hz c hc, by rw [hunits, hunits]⟩

theorem stages_agree_sample :
    (cvtCstrUtf .utf8 .utf16 false [0x41, 0xE2, 0x82, 0xAC] (some 0) 2 blank).1 ≠ 0 →
      cvtCstrUtf .utf8 .utf16 false [0x41, 0xE2, 0x82, 0xAC] (some 0) 2 blank =
        cvtCstrUtf .utf32 .utf16 false [0x41, 0x20AC] (some 0) 2 blank := by
  have h₁ : (cvtCstrUtf .utf8 .utf32 false [0x41, 0xE2, 0x82, 0xAC] (some 0) 2 blank).1 ≤ 2 := by
    decide +kernel
  have hcs : contents (cvtCstrUtf .utf8 .utf32 false [0x41, 0xE2, 0x82, 0xAC] (some 0) 2 blank).2
      (cvtCstrUtf .utf8 .utf32 false [0x41, 0xE2, 0x82, 0xAC] (some 0) 2 blank).1 =
      [0x41, 0x20AC] := by decide +kernel
  have hz : ∀ c ∈ contents
      (cvtCstrUtf .utf8 .utf32 false [0x41, 0xE2, 0x82, 0xAC] (some 0) 2 blank).2
      (cvtCstrUtf .utf8 .utf32 false [0x41, 0xE2, 0x82, 0xAC] (some 0) 2 blank).1, c ≠ 0 := by
    rw [hcs]
    exact List.forall_mem_cons.mpr ⟨by decide, List.forall_mem_singleton.mpr (by decide)⟩
  have h := (stages_agree false false).2 [0x41, 0xE2, 0x82, 0xAC] 2 2 2 hz
  simp only [StagesAgree, hcs] at h
  exact (h h₁ (by decide +kernel) (by decide +kernel)).2

end CppIpc.Codecvt
