import CppIpc.Lib.Buffers
import CppIpc.Lib.Codecs
import Mathlib.Algebra.Group.Nat.Defs

/-! # Character conversion

`imp/codecvt.h` and `imp/codecvt.cpp`. A source is the list of its `slen`
units, a target pointer an offset into the target or `none` for the null
pointer. `cvt_cstr` has one overload for each pair of character types, all of
which expand to `cvt_cstr_utf` at the widths of the two types. -/
namespace CppIpc.Codecvt
open CppIpc.Lib.Buffers CppIpc.Lib.Codecs

/-- X-bit unicode transformation format. -/
inductive Ufmt where
  | utf8
  | utf16
  | utf32
  deriving DecidableEq, Repr

@[reducible] def Ufmt.width : Ufmt → Nat
  | .utf8 => 8
  | .utf16 => 16
  | .utf32 => 32

/-- The character types with a `cvt_cstr` overload, where `wchar_t` has four bytes. -/
inductive CharT where
  | char
  | char8
  | char16
  | char32
  | wchar
  deriving DecidableEq, Repr

/-- `utf_compatible_v` -/
@[reducible] def CharT.fmt : CharT → Ufmt
  | .char | .char8 => .utf8
  | .char16 => .utf16
  | .char32 | .wchar => .utf32

/-- Whether a comparison of a 32-bit unit of this type is one of signed numbers. -/
def CharT.signed (T : CharT) : Bool := T = .wchar

abbrev Target (w : Nat) := Buffer (BitVec w)

/-- `cvt_char` from a code point to units of `w` bits: its result, and what it
leaves in the target. -/
abbrev Encoder (w : Nat) := BitVec 32 → Option Nat → Nat → Target w → Nat × Target w

/-- `cvt_char` from units of `w` bits to a code point, with `none` for the result 0. -/
abbrev Decoder (w : Nat) := Reader (BitVec w) (BitVec 32)

/-! ## UTF-32 to UTF-8 -/

def prefixes : List (BitVec 8) := [0x00, 0xC0, 0xE0, 0xF0, 0xF8, 0xFC]

def codeup : List (BitVec 32) := [0x80, 0x800, 0x10000, 0x200000, 0x4000000, 0x80000000]

/-- The loop `for (; i > 0; --i)`: the bytes behind the lead, the last one first. -/
def writeTail : Nat → BitVec 32 → Nat → Target 8 → BitVec 32 × Target 8
  | 0, src, _, m => (src, m)
  | i + 1, src, des, m =>
    writeTail i (src >>> 6) des (set m (des + (i + 1)) (((src &&& 0x3F) ||| 0x80).setWidth 8))

/-- No signed `src` gets past the search when it is negative, so that `>>=` is
the logical shift. -/
def cvtChar32To8 : Encoder 8 := fun src des dlen m =>
  if src = 0 then (0, m) else
  let i := codeup.findIdx (src < ·)
  if i = codeup.length then (0, m) else
  match des with
  | none => (i + 1, m)
  | some des =>
    let t := if dlen > i then writeTail i src des m else (src, m)
    (i + 1, set t.2 des ((t.1 ||| (prefixes.getD i 0).setWidth 32).setWidth 8))

/-! ## UTF-8 to UTF-32 -/

/-- What the lead byte holds of the code point, and how many bytes it announces. -/
def leadByte (b : BitVec 8) : BitVec 8 × Nat :=
  if b < 0xE0 then (b &&& 0x1F, 2)
  else if b < 0xF0 then (b &&& 0x0F, 3)
  else if b < 0xF8 then (b &&& 0x07, 4)
  else if b < 0xFC then (b &&& 0x03, 5)
  else (b &&& 0x01, 6)

/-- The loop `for (; i < len; ++i)`. -/
def readTail : Nat → List (BitVec 8) → BitVec 32 → Option (BitVec 32)
  | 0, _, des => some des
  | _ + 1, [], _ => none
  | i + 1, b :: src, des =>
    if b < 0x80 ∨ b > 0xBF then none
    else readTail i src ((des <<< 6) + (b &&& 0x3F).setWidth 32)

def cvtChar8To32 : List (BitVec 8) → Option (Nat × BitVec 32)
  | [] => none
  | b :: src =>
    if b = 0 then none
    else if b < 0x80 then some (1, b.setWidth 32)
    else if b < 0xC0 ∨ b > 0xFD then none
    else if src.length + 1 < (leadByte b).2 then none
    else (readTail ((leadByte b).2 - 1) src ((leadByte b).1.setWidth 32)).map
      ((leadByte b).2, ·)

/-! ## UTF-32 to UTF-16 -/

/-- `src <= n`, in the type that the source has. -/
def atMost (signed : Bool) (src : BitVec 32) (n : Nat) : Bool :=
  if signed then src.toInt ≤ n else src.toNat ≤ n

def cvtChar32To16 (signed : Bool) : Encoder 16 := fun src des dlen m =>
  if src = 0 then (0, m)
  else if atMost signed src 0xFFFF then
    match des with
    | some des => (1, if dlen ≠ 0 then set m des (src.setWidth 16) else m)
    | none => (1, m)
  else if atMost signed src 0xEFFFF then
    match des with
    | some des =>
      (2, if dlen > 1 then
        set (set m des ((0xD800#32 + (src >>> 10) - 0x40).setWidth 16)) (des + 1)
          ((0xDC00 + (src &&& 0x03FF)).setWidth 16)
        else m)
    | none => (2, m)
  else (0, m)

/-! ## UTF-16 to UTF-32 -/

def cvtChar16To32 : List (BitVec 16) → Option (Nat × BitVec 32)
  | [] => none
  | w1 :: src =>
    if w1 = 0 then none
    else if 0xD800 ≤ w1 ∧ w1 ≤ 0xDFFF then
      if w1 < 0xDC00 then
        match src.head? with
        | none => none
        | some w2 =>
          if 0xDC00 ≤ w2 ∧ w2 ≤ 0xDFFF then
            some (2, (w2 &&& 0x03FF).setWidth 32 +
              (((w1 &&& 0x03FF).setWidth 32 + 0x40) <<< 10))
          else none
      else none
    else some (1, w1.setWidth 32)

def decoder8 : Decoder 8 where
  read := cvtChar8To32
  takes := by
    intro s n c h
    cases s with
    | nil => cases h
    | cons b src =>
      simp only [cvtChar8To32] at h
      split at h
      · cases h
      split at h
      · cases h; simp
      split at h
      · cases h
      split at h
      · cases h
      · obtain ⟨_, _, hc⟩ := Option.map_eq_some_iff.mp h
        cases hc
        have hl : 0 < (leadByte b).2 := by unfold leadByte; grind
        simp only [List.length_cons]
        omega

def decoder16 : Decoder 16 where
  read := cvtChar16To32
  takes := by
    intro s n c h
    cases s with
    | nil => cases h
    | cons w1 src =>
      simp only [cvtChar16To32] at h
      split at h
      · cases h
      split at h
      · split at h
        · cases src with
          | nil => cases h
          | cons w2 rest =>
            simp only [List.head?_cons] at h
            split at h
            · cases h; simp
            · cases h
        · cases h
      · cases h; simp

/-! ## Strings -/

/-- The variables of the loops of `cvt_cstr_utf` that follow the target. -/
structure Cursor (w : Nat) where
  des : Option Nat
  dlen : Nat
  num : Nat
  target : Target w

/-- `if (des != nullptr) { des += len; .. } num += len;`, behind a character that
left `m` in the target. -/
def Cursor.advance {w : Nat} (k : Cursor w) (len : Nat) (m : Target w) : Cursor w where
  des := k.des.map (· + len)
  dlen := if k.des.isSome then (if k.dlen < len then 0 else k.dlen - len) else k.dlen
  num := k.num + len
  target := m

/-- UTF-32 string to UTF-8/16 string, the loop. -/
def loopFrom32 {w : Nat} (cvtChar : Encoder w) : List (BitVec 32) → Cursor w → Nat × Target w
  | [], k => (k.num, k.target)
  | c :: src, k =>
    if c = 0 then (k.num, k.target) else
    let r := cvtChar c k.des k.dlen k.target
    if r.1 = 0 then (0, r.2) else loopFrom32 cvtChar src (k.advance r.1 r.2)

/-- `if ((des != nullptr) && (dlen > 0)) { (*des) = tmp; .. } num += 1;` -/
def Cursor.store (k : Cursor 32) (tmp : BitVec 32) : Cursor 32 :=
  match k.des with
  | some des =>
    if k.dlen > 0 then ⟨some (des + 1), k.dlen - 1, k.num + 1, set k.target des tmp⟩
    else { k with num := k.num + 1 }
  | none => { k with num := k.num + 1 }

/-- UTF-8/16 string to UTF-32 string, the loop. -/
def loopTo32 {v : Nat} (cvtChar : Decoder v) : List (BitVec v) → Cursor 32 → Nat × Target 32
  | [], k => (k.num, k.target)
  | c :: src, k =>
    if c = 0 then (k.num, k.target) else
    match _h : cvtChar.read (c :: src) with
    | none => (0, k.target)
    | some (len, tmp) => loopTo32 cvtChar ((c :: src).drop len) (k.store tmp)
termination_by src => src.length
decreasing_by
  have ht := cvtChar.takes _h
  simp only [List.length_drop, List.length_cons] at *
  omega

/-- UTF-8/16 string to UTF-16/8 string, the loop. -/
def loopVia32 {v w : Nat} (cvtChar : Decoder v) (cvtChar' : Encoder w) :
    List (BitVec v) → Cursor w → Nat × Target w
  | [], k => (k.num, k.target)
  | c :: src, k =>
    if c = 0 then (k.num, k.target) else
    match _h : cvtChar.read (c :: src) with
    | none => (0, k.target)
    | some (len, tmp) =>
      let r := cvtChar' tmp k.des k.dlen k.target
      if r.1 = 0 then (0, r.2)
      else loopVia32 cvtChar cvtChar' ((c :: src).drop len) (k.advance r.1 r.2)
termination_by src => src.length
decreasing_by
  have ht := cvtChar.takes _h
  simp only [List.length_drop, List.length_cons] at *
  omega

/-- The head of all three: the empty source string converts to nothing. -/
def guarded {v w : Nat} (loop : List (BitVec v) → Cursor w → Nat × Target w)
    (src : List (BitVec v)) (des : Option Nat) (dlen : Nat) (m : Target w) : Nat × Target w :=
  if src = [] ∨ src.head? = some 0 then (0, m) else loop src ⟨des, dlen, 0, m⟩

/-- Between types of one size, with `std::memcpy`. -/
def copyCstr {w : Nat} (src : List (BitVec w)) (des : Option Nat) (dlen : Nat)
    (m : Target w) : Nat × Target w :=
  match des with
  | none => (src.length, m)
  | some des =>
    if dlen = 0 then (src.length, m)
    else (min src.length dlen, put m des (src.take (min src.length dlen)))

/-- `cvt_cstr_utf`, from units of format `F` to units of format `G`. Between two
formats with variable-length characters the code point is a `std::uint32_t`. -/
def cvtCstrUtf (F G : Ufmt) (signed : Bool) : List (BitVec F.width) → Option Nat → Nat →
    Target G.width → Nat × Target G.width :=
  match F, G with
  | .utf32, .utf8 => guarded (loopFrom32 cvtChar32To8)
  | .utf32, .utf16 => guarded (loopFrom32 (cvtChar32To16 signed))
  | .utf8, .utf32 => guarded (loopTo32 decoder8)
  | .utf16, .utf32 => guarded (loopTo32 decoder16)
  | .utf8, .utf16 => guarded (loopVia32 decoder8 (cvtChar32To16 false))
  | .utf16, .utf8 => guarded (loopVia32 decoder16 cvtChar32To8)
  | .utf8, .utf8 => copyCstr
  | .utf16, .utf16 => copyCstr
  | .utf32, .utf32 => copyCstr

/-- `cvt_cstr<CharT, CharU>` -/
def cvtCstr (T U : CharT) (src : List (BitVec T.fmt.width)) (des : Option Nat) (dlen : Nat)
    (m : Target U.fmt.width) : Nat × Target U.fmt.width :=
  cvtCstrUtf T.fmt U.fmt T.signed src des dlen m

/-- `cvt_sstr`. The string is resized to the length that the query returns, which
keeps the units that it has and adds zero units, and is then the target. -/
def cvtSstr (T U : CharT) (src : List (BitVec T.fmt.width)) (des : List (BitVec U.fmt.width)) :
    List (BitVec U.fmt.width) :=
  let dlen := (cvtCstr T U src none 0 blank).1
  if dlen = 0 then [] else
  let m := (cvtCstr T U src (some 0) dlen blank).2
  (List.range dlen).map fun i => (m i).getD (des.getD i 0)

end CppIpc.Codecvt
