import CppIpc.Utf8
import CppIpc.Utf16

/-! # One loop for three

Reading single 32-bit units and storing single code points turn the first two
loops of `cvt_cstr_utf` into the third. What that one leaves in the target
follows from what its encoder does with one character, `Writes`. -/
namespace CppIpc.Codecvt
open CppIpc.Lib.Buffers CppIpc.Lib.Codecs

variable {v w : Nat}

/-- An encoder that writes `units`: a character that it has no units for stops the
loop, and the count that it returns does not depend on the target. -/
structure Writes (e : Encoder w) (units : BitVec 32 → Option (List (BitVec w))) : Prop where
  ne_nil {c l} : units c = some l → l ≠ []
  refuse {c} (des dlen m) : units c = none → e c des dlen m = (0, m)
  query {c l} (dlen m) : units c = some l → e c none dlen m = (l.length, m)
  fits {c l dlen} (p m) : units c = some l → l.length ≤ dlen →
    e c (some p) dlen m = (l.length, put m p l)
  cut {c l dlen} (p m) : units c = some l → dlen < l.length →
    (e c (some p) dlen m).1 = l.length

/-- The branch of the loop from UTF-8/16 to UTF-32 as an encoder. -/
def store : Encoder 32 := fun c des dlen m =>
  (1, match des with
    | some p => if dlen > 0 then set m p c else m
    | none => m)

def unit32 (c : BitVec 32) : Option (List (BitVec 32)) := some [c]

theorem writes8 : Writes cvtChar32To8 units8 where
  ne_nil := by
    intro c l h
    obtain ⟨-, -, rfl⟩ := units8_eq_some h
    exact List.cons_ne_nil _ _
  refuse des dlen m h := cvtChar32To8_none h des dlen m
  query dlen m h := cvtChar32To8_some h none dlen m
  fits p m h hd := cvtChar32To8_fits h hd p m
  cut p m h hd := by
    obtain ⟨b, hb⟩ := cvtChar32To8_cut h hd p m
    rw [hb]

theorem writes16 (signed : Bool) : Writes (cvtChar32To16 signed) (units16 signed) where
  ne_nil := by
    intro c l h
    unfold units16 at h
    grind
  refuse des dlen m h := cvtChar32To16_none h des dlen m
  query dlen m h := cvtChar32To16_query h dlen m
  fits p m h hd := cvtChar32To16_fits h hd p m
  cut p m h hd := by rw [cvtChar32To16_cut h hd p m]

theorem writes32 : Writes store unit32 where
  ne_nil h := by cases h; exact List.cons_ne_nil _ _
  refuse _ _ _ h := nomatch h
  query _ _ h := by cases h; rfl
  fits p m h hd := by
    cases h
    have hd0 : _ > 0 := hd
    simp only [store, if_pos hd0]
    rfl
  cut _ _ h _ := by cases h; rfl

theorem Writes.count {e : Encoder w} {units : BitVec 32 → Option (List (BitVec w))}
    (he : Writes e units) {c : BitVec 32} {l : List (BitVec w)} (h : units c = some l)
    (des : Option Nat) (dlen : Nat) (m : Target w) : (e c des dlen m).1 = l.length := by
  cases des with
  | none => rw [he.query dlen m h]
  | some p =>
    by_cases hd : l.length ≤ dlen
    · rw [he.fits p m h hd]
    · exact he.cut p m h (by omega)

theorem Writes.length_pos {e : Encoder w} {units : BitVec 32 → Option (List (BitVec w))}
    (he : Writes e units) {c : BitVec 32} {l : List (BitVec w)} (h : units c = some l) :
    0 < l.length := List.length_pos_iff.mpr (he.ne_nil h)

/-! ## The steps of the loop -/

section Steps

variable {R : Decoder v} {e : Encoder w} {units : BitVec 32 → Option (List (BitVec w))}

theorem loopVia32_nil (k : Cursor w) : loopVia32 R e [] k = (k.num, k.target) := by
  rw [loopVia32]

theorem loopVia32_end (s : List (BitVec v)) (k : Cursor w) :
    loopVia32 R e (0 :: s) k = (k.num, k.target) := by rw [loopVia32, if_pos rfl]

theorem loopVia32_stuck {a : BitVec v} {s : List (BitVec v)} (ha : a ≠ 0)
    (h : R.read (a :: s) = none) (k : Cursor w) :
    loopVia32 R e (a :: s) k = (0, k.target) := by
  rw [loopVia32, if_neg ha]
  split
  next => rfl
  next h' => rw [h] at h'; cases h'

theorem loopVia32_char {a : BitVec v} {s : List (BitVec v)} {n : Nat} {c : BitVec 32}
    (ha : a ≠ 0) (h : R.read (a :: s) = some (n, c)) (k : Cursor w) :
    loopVia32 R e (a :: s) k =
      let r := e c k.des k.dlen k.target
      if r.1 = 0 then (0, r.2) else loopVia32 R e ((a :: s).drop n) (k.advance r.1 r.2) := by
  rw [loopVia32, if_neg ha]
  split
  next h' => rw [h] at h'; cases h'
  next h' => rw [h] at h'; cases h'; rfl

theorem loopVia32_refused (he : Writes e units) {a : BitVec v} {s : List (BitVec v)} {n : Nat}
    {c : BitVec 32} (ha : a ≠ 0) (h : R.read (a :: s) = some (n, c)) (hc : units c = none)
    (k : Cursor w) : loopVia32 R e (a :: s) k = (0, k.target) := by
  rw [loopVia32_char ha h, he.refuse _ _ _ hc]
  rfl

theorem loopVia32_taken (he : Writes e units) {a : BitVec v} {s : List (BitVec v)} {n : Nat}
    {c : BitVec 32} {l : List (BitVec w)} (ha : a ≠ 0) (h : R.read (a :: s) = some (n, c))
    (hc : units c = some l) (k : Cursor w) :
    loopVia32 R e (a :: s) k = loopVia32 R e ((a :: s).drop n)
      (k.advance l.length (e c k.des k.dlen k.target).2) := by
  have hn : l.length ≠ 0 := Nat.ne_of_gt (he.length_pos hc)
  rw [loopVia32_char ha h]
  simp only [he.count hc, if_neg hn]

end Steps

/-! ## The other two loops -/

theorem loopFrom32_eq (e : Encoder w) (s : List (BitVec 32)) (k : Cursor w) :
    loopFrom32 e s k = loopVia32 Lib.Codecs.units e s k := by
  induction s generalizing k with
  | nil => rw [loopVia32_nil, loopFrom32]
  | cons a s ih =>
    by_cases ha : a = 0
    · subst ha
      rw [loopVia32_end, loopFrom32, if_pos rfl]
    · have hread : Lib.Codecs.units.read (a :: s) = some (1, a) := rfl
      rw [loopVia32_char ha hread, loopFrom32, if_neg ha]
      simp only [ih]
      rfl

/-- The two loops count alike and follow the same places, until there are none. -/
theorem loopTo32_eq (R : Decoder v) (s : List (BitVec v)) (k k' : Cursor 32)
    (hdes : k.des.isSome = k'.des.isSome) (hp : 0 < k.dlen → k.des = k'.des)
    (hdlen : k.dlen = k'.dlen) (hnum : k.num = k'.num) (hm : k.target = k'.target) :
    loopTo32 R s k = loopVia32 R store s k' := by
  induction s using R.text_induction 0 generalizing k k' with
  | nil => rw [loopVia32_nil, loopTo32, hnum, hm]
  | stop s => rw [loopVia32_end, loopTo32, if_pos rfl, hnum, hm]
  | stuck a s ha h =>
    rw [loopVia32_stuck ha h, loopTo32, if_neg ha]
    split
    next => rw [hm]
    next h' => rw [h] at h'; cases h'
  | char a s n c ha h ih =>
    rw [loopVia32_taken writes32 ha h rfl, loopTo32, if_neg ha]
    split
    next h' => rw [h] at h'; cases h'
    next h' =>
      rw [h] at h'
      cases h'
      obtain ⟨des, dlen, num, m⟩ := k
      obtain ⟨des', dlen', num', m'⟩ := k'
      simp only at hdes hp hdlen hnum hm
      subst hdlen hnum hm
      cases des with
      | none =>
        have hn : des' = none := by simpa using hdes.symm
        subst hn
        exact ih _ _ rfl (fun _ => rfl) rfl rfl rfl
      | some p =>
        obtain ⟨p', rfl⟩ := Option.isSome_iff_exists.mp hdes.symm
        by_cases hd : dlen > 0
        · have hpp : p = p' := Option.some.inj (hp hd)
          subst hpp
          have hlt : ¬dlen < 1 := by omega
          apply ih <;> simp [Cursor.store, Cursor.advance, store, hd, hlt]
        · have hd0 : dlen = 0 := by omega
          subst hd0
          apply ih <;> simp [Cursor.store, Cursor.advance, store]

/-! ## What the loop returns and leaves -/

section Result

variable {R : Decoder v} {e : Encoder w} {units : BitVec 32 → Option (List (BitVec w))}

/-- The count does not depend on the target: it is the length of the text, or 0
where some character fails. -/
theorem loopVia32_count (he : Writes e units) (s : List (BitVec v)) (k : Cursor w) :
    (loopVia32 R e s k).1 = match transcode R units 0 s with
      | some l => k.num + l.length
      | none => 0 := by
  induction s using R.text_induction 0 generalizing k with
  | nil => rw [loopVia32_nil, transcode_nil]; rfl
  | stop s => rw [loopVia32_end, transcode_end]; rfl
  | stuck a s ha h => rw [loopVia32_stuck ha h, transcode_stuck ha h]
  | char a s n c ha h ih =>
    rw [transcode_read ha h]
    cases hc : units c with
    | none => rw [loopVia32_refused he ha h hc]; rfl
    | some l =>
      rw [loopVia32_taken he ha h hc, ih]
      cases transcode R units 0 ((a :: s).drop n) with
      | none => rfl
      | some t =>
        simp only [Cursor.advance, Option.bind_some, Option.map_some, List.length_append]
        exact Nat.add_assoc _ _ _

/-- The cursor while the loop runs: `dlen` saturates where the target ends. -/
theorem Cursor.advance_at (p dlen num len : Nat) (m m' : Target w) :
    (Cursor.mk (some p) (dlen - p) num m).advance len m' =
      ⟨some (p + len), dlen - (p + len), num + len, m'⟩ := by
  have hd : (if dlen - p < len then 0 else dlen - p - len) = dlen - (p + len) := by
    split <;> omega
  simp [Cursor.advance, hd]

/-- A target that is long enough receives the text. -/
theorem loopVia32_fits (he : Writes e units) {s : List (BitVec v)} {l : List (BitVec w)}
    (hs : transcode R units 0 s = some l) {p dlen num : Nat} (hd : p + l.length ≤ dlen)
    (m : Target w) :
    loopVia32 R e s ⟨some p, dlen - p, num, m⟩ = (num + l.length, put m p l) := by
  induction s using R.text_induction 0 generalizing p num m l with
  | nil =>
    rw [transcode_nil] at hs
    cases hs
    rw [loopVia32_nil]
    rfl
  | stop s =>
    rw [transcode_end] at hs
    cases hs
    rw [loopVia32_end]
    rfl
  | stuck a s ha h =>
    rw [transcode_stuck ha h] at hs
    cases hs
  | char a s n c ha h ih =>
    rw [transcode_read ha h] at hs
    obtain ⟨lc, hc, hs⟩ := Option.bind_eq_some_iff.mp hs
    obtain ⟨ls, hls, rfl⟩ := Option.map_eq_some_iff.mp hs
    rw [List.length_append] at hd
    have hroom : lc.length ≤ dlen - p := by omega
    rw [loopVia32_taken he ha h hc, he.fits _ _ hc hroom, Cursor.advance_at,
      ih hls (by omega), ← put_append, List.length_append, Nat.add_assoc]

end Result

/-! ## The conversion of a string -/

def reader : (F : Ufmt) → Decoder F.width
  | .utf8 => decoder8
  | .utf16 => decoder16
  | .utf32 => Lib.Codecs.units

def encoder : (G : Ufmt) → Bool → Encoder G.width
  | .utf8, _ => cvtChar32To8
  | .utf16, signed => cvtChar32To16 signed
  | .utf32, _ => store

def unitsOf : (G : Ufmt) → Bool → BitVec 32 → Option (List (BitVec G.width))
  | .utf8, _ => units8
  | .utf16, signed => units16 signed
  | .utf32, _ => unit32

theorem writes_encoder (G : Ufmt) (signed : Bool) :
    Writes (encoder G signed) (unitsOf G signed) := by
  cases G with
  | utf8 => exact writes8
  | utf16 => exact writes16 signed
  | utf32 => exact writes32

/-- Signed code points are compared only where they are the source's own units. -/
def comparesSigned (F : Ufmt) (signed : Bool) : Bool := signed && F = .utf32

/-- The units that a source converts to, or `none` where some character fails. -/
def converted (F G : Ufmt) (signed : Bool) (s : List (BitVec F.width)) :
    Option (List (BitVec G.width)) :=
  transcode (reader F) (unitsOf G (comparesSigned F signed)) 0 s

/-- The check at the head adds nothing to a loop that ends where the text does. -/
theorem guarded_eq {loop : List (BitVec v) → Cursor w → Nat × Target w}
    (hnil : ∀ k, loop [] k = (k.num, k.target)) (hend : ∀ s k, loop (0 :: s) k = (k.num, k.target))
    (s : List (BitVec v)) (des : Option Nat) (dlen : Nat) (m : Target w) :
    guarded loop s des dlen m = loop s ⟨des, dlen, 0, m⟩ := by
  unfold guarded
  split
  next h =>
    rcases h with rfl | h
    · rw [hnil]
    · obtain ⟨t, rfl⟩ := List.head?_eq_some_iff.mp h
      rw [hend]
  next => rfl

theorem cvtCstrUtf_eq {F G : Ufmt} (h : F ≠ G) (signed : Bool) (s : List (BitVec F.width))
    (des : Option Nat) (dlen : Nat) (m : Target G.width) :
    cvtCstrUtf F G signed s des dlen m =
      loopVia32 (reader F) (encoder G (comparesSigned F signed)) s ⟨des, dlen, 0, m⟩ := by
  have hfrom : ∀ {u} (e : Encoder u) (t : List (BitVec 32)) (m : Target u),
      guarded (loopFrom32 e) t des dlen m = loopVia32 Lib.Codecs.units e t ⟨des, dlen, 0, m⟩ := by
    intro u e t m
    rw [guarded_eq (fun _ => loopFrom32.eq_1 _ _) (fun _ _ => by rw [loopFrom32, if_pos rfl]),
      loopFrom32_eq]
  have hto : ∀ {u} (R : Decoder u) (t : List (BitVec u)) (m : Target 32),
      guarded (loopTo32 R) t des dlen m = loopVia32 R store t ⟨des, dlen, 0, m⟩ := by
    intro u R t m
    rw [guarded_eq (fun _ => by rw [loopTo32]) (fun _ _ => by rw [loopTo32, if_pos rfl])]
    exact loopTo32_eq _ _ _ _ rfl (fun _ => rfl) rfl rfl rfl
  have hvia : ∀ {u x} (R : Decoder u) (e : Encoder x) (t : List (BitVec u)) (m : Target x),
      guarded (loopVia32 R e) t des dlen m = loopVia32 R e t ⟨des, dlen, 0, m⟩ :=
    fun R e t m => guarded_eq loopVia32_nil loopVia32_end _ _ _ _
  have hs : ∀ b, comparesSigned .utf32 b = b := fun b => by cases b <;> rfl
  cases F <;> cases G
  case utf8.utf8 | utf16.utf16 | utf32.utf32 => exact absurd rfl h
  case utf8.utf16 =>
    have h8 : comparesSigned .utf8 signed = false := by cases signed <;> rfl
    rw [h8]
    exact hvia decoder8 (cvtChar32To16 false) s m
  case utf8.utf32 => exact hto decoder8 s m
  case utf16.utf8 => exact hvia decoder16 cvtChar32To8 s m
  case utf16.utf32 => exact hto decoder16 s m
  case utf32.utf8 => exact hfrom cvtChar32To8 s m
  case utf32.utf16 =>
    rw [hs]
    exact hfrom (cvtChar32To16 signed) s m

theorem cvtCstrUtf_count {F G : Ufmt} (h : F ≠ G) (signed : Bool) (s : List (BitVec F.width))
    (des : Option Nat) (dlen : Nat) (m : Target G.width) :
    (cvtCstrUtf F G signed s des dlen m).1 = match converted F G signed s with
      | some l => l.length
      | none => 0 := by
  rw [cvtCstrUtf_eq h, loopVia32_count (writes_encoder G _), converted]
  cases transcode (reader F) (unitsOf G (comparesSigned F signed)) 0 s with
  | none => rfl
  | some l => exact Nat.zero_add _

theorem cvtCstrUtf_fits {F G : Ufmt} (h : F ≠ G) {signed : Bool} {s : List (BitVec F.width)}
    {l : List (BitVec G.width)} (hs : converted F G signed s = some l) {dlen : Nat}
    (hd : l.length ≤ dlen) (m : Target G.width) :
    cvtCstrUtf F G signed s (some 0) dlen m = (l.length, put m 0 l) := by
  have hroom : 0 + l.length ≤ dlen := by omega
  have hfit : loopVia32 (reader F) (encoder G (comparesSigned F signed)) s
      ⟨some 0, dlen - 0, 0, m⟩ = (0 + l.length, put m 0 l) :=
    loopVia32_fits (writes_encoder G (comparesSigned F signed)) hs hroom m
  rwa [Nat.sub_zero, Nat.zero_add, ← cvtCstrUtf_eq h] at hfit

/-- A converted string, read back from a target that is long enough. -/
theorem cvtCstrUtf_contents {F G : Ufmt} (h : F ≠ G) {signed : Bool}
    {s : List (BitVec F.width)} {l : List (BitVec G.width)}
    (hs : converted F G signed s = some l) {dlen : Nat} (hd : l.length ≤ dlen) :
    contents (cvtCstrUtf F G signed s (some 0) dlen blank).2
      (cvtCstrUtf F G signed s (some 0) dlen blank).1 = l := by
  rw [cvtCstrUtf_fits h hs hd, contents_put_blank]

end CppIpc.Codecvt
