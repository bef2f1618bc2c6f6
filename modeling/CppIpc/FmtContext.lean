import CppIpc.Aligned
import CppIpc.FmtSpec
import CppIpc.Lib.Runs

/-! # `fmt_context`

Output is collected in an array of 2048 characters, and in the string once the array is
too small. Memory is there for every string that `std::string` can hold. The formatted
output of a call is given as a whole; `snprintf` writes as much of it as there is room
for and returns its length, or a negative number if the length is not an `int`. -/
namespace CppIpc.FmtContext
open CppIpc.Aligned (sizeT and_high_bits)
open CppIpc.FmtSpec (nul)
open CppIpc.Lib.Runs (Meets)

def sbufSize : Nat := 2048

def intMax : Nat := 2 ^ 31 - 1

/-- `std::string::max_size`. -/
def maxSize : Nat := 2 ^ 63 - 1

structure Ctx where
  sbuf : List Char
  joined : List Char
  offset : Nat

/-- What a span of `buffer` begins in, at `offset_`. -/
inductive Place where
  | sbuf
  | joined
  | null
deriving DecidableEq

structure Span where
  place : Place
  size : Nat

/-- `std::string::resize`; `none` is `std::length_error`. -/
def resize (s : List Char) (n : Nat) : Option (List Char) :=
  if n ≤ maxSize then some (s.take n ++ List.replicate (n - s.length) nul) else none

def roundup (sz : Nat) : Nat := sizeT ((sz &&& (2 ^ 64 - 1 - (512 - 1))) + 512)

/-- The string is made larger, and the rest of it returned. -/
def Ctx.grow (c : Ctx) (n : Nat) : Ctx × Span :=
  match resize c.joined (roundup n) with
  | some joined => ({ c with joined }, ⟨.joined, sizeT (joined.length + 2 ^ 64 - c.offset)⟩)
  | none => (c, ⟨.null, 0⟩)

def Ctx.buffer (c : Ctx) (sz : Nat) : Ctx × Span :=
  if c.offset < sbufSize then
    if sizeT (c.offset + sz) < sbufSize then (c, ⟨.sbuf, sbufSize - c.offset⟩)
    -- switch the cache to the string
    else { c with joined := c.sbuf.take c.offset }.grow (sizeT (c.offset + sz))
  else if sizeT (c.offset + sz) ≥ c.joined.length then c.grow (sizeT (c.offset + sz))
  else (c, ⟨.joined, sizeT (c.joined.length + 2 ^ 64 - c.offset)⟩)

def overwrite (buf : List Char) (p : Nat) (cs : List Char) : List Char :=
  buf.take p ++ cs ++ buf.drop (p + cs.length)

/-- `cs` is copied to the begin of the span. -/
def Ctx.write (c : Ctx) (place : Place) (cs : List Char) : Ctx :=
  match place with
  | .sbuf => { c with sbuf := overwrite c.sbuf c.offset cs }
  | .joined => { c with joined := overwrite c.joined c.offset cs }
  | .null => c

def Ctx.expend (c : Ctx) (sz : Nat) : Ctx := { c with offset := sizeT (c.offset + sz) }

def Ctx.reset (c : Ctx) : Ctx := { c with offset := 0 }

def Ctx.finish (c : Ctx) : Ctx × Bool :=
  if c.offset < sbufSize then ({ c with joined := c.sbuf.take c.offset }, true)
  else
    match resize c.joined c.offset with
    | some joined => ({ c with joined }, true)
    | none => (c, false)

def Ctx.append (c : Ctx) (str : List Char) : Ctx × Bool :=
  if str = [] then (c, true)
  else
    let sz := if str.getLast? = some nul then str.length - 1 else str.length
    let (c, sbuf) := c.buffer sz
    if sbuf.size < sz then (c, false)
    else ((c.write sbuf.place (str.take sz)).expend sz, true)

/-! ## The loop of `sprintf` -/

/-- What `snprintf` writes into `size` characters. -/
def written (out : List Char) (size : Nat) : List Char :=
  if size = 0 then [] else out.take (size - 1) ++ [nul]

/-- What it returns. -/
def printed (out : List Char) : Int := if out.length ≤ intMax then out.length else -1

/-- `undefined` is the overflow of `sz + 1`, and `endless` a loop that does not end;
`passes` counts the calls of `snprintf`. -/
inductive Ret where
  | undefined
  | endless
  | ret (c : Ctx) (value : Int) (passes : Nat)

def sprintfLoop (out : List Char) : Nat → Ctx → Int → Nat → Ret
  | 0, _, _, _ => .endless
  | fuel + 1, c, sz, passes =>
    if sz = intMax then .undefined
    else
      let (c, sbuf) := c.buffer (sz + 1).toNat
      if sbuf.size < (sz + 1).toNat then .ret c (-1) passes
      else
        let c := c.write sbuf.place (written out sbuf.size)
        let sz := printed out
        if sz ≤ 0 then .ret c sz (passes + 1)
        else if sz.toNat < sbuf.size then .ret (c.expend sz.toNat) sz (passes + 1)
        else sprintfLoop out fuel c sz (passes + 1)

/-- Three rounds are more than enough, see `sprintf_spec`. -/
def sprintf (out : List Char) (c : Ctx) : Ret := sprintfLoop out 3 c (-1) 0

/-! ## A context in use -/

/-- Beside the context: the text since the last reset, what the last call returned and
how often it called `snprintf`. -/
structure Sys where
  ctx : Ctx
  text : List Char
  ok : Bool
  passes : Nat

def Sys.init (sbuf joined : List Char) : Sys := ⟨⟨sbuf, joined, 0⟩, [], true, 0⟩

inductive Act where
  | append (str : List Char)
  | format (out : List Char)
  | finish
  | reset

/-- A string without one NUL at its end. -/
def chars (str : List Char) : List Char :=
  if str.getLast? = some nul then str.dropLast else str

def step (s : Sys) : Act → Option Sys
  | .append str =>
    let r := s.ctx.append str
    some ⟨r.1, s.text ++ chars str, r.2, 0⟩
  | .format out =>
    match sprintf out s.ctx with
    | .ret c value passes => some ⟨c, s.text ++ out, 0 ≤ value, passes⟩
    | _ => none
  | .finish =>
    let r := s.ctx.finish
    some ⟨r.1, s.text, r.2, 0⟩
  | .reset => some ⟨s.ctx.reset, [], true, 0⟩

def Act.size : Act → Nat
  | .append str => str.length
  | .format out => out.length
  | _ => 0

/-- A string can hold the text, with room for what is added to it. -/
def Allocates (s : Sys) (a : Act) : Prop := s.text.length + a.size + 2048 ≤ maxSize

/-- The call succeeds, in two passes at most, and a `finish` gives the text. -/
def Right (s : Sys) (a : Act) : Prop :=
  ∃ t, step s a = some t ∧ t.ok = true ∧ t.passes ≤ 2 ∧
    (a = .finish → t.ctx.joined = t.text) ∧ t.ctx.finish.1.joined = t.text

/-- The output is short enough to be asked for again with room for a NUL. -/
def Counts : Act → Prop
  | .format out => out.length < intMax
  | _ => True

/-! ## The pieces -/

section Pieces
variable {buf cs text out : List Char} {p k sz n : Nat}

theorem overwrite_take (hp : p ≤ buf.length) (hk : k ≤ cs.length) :
    (overwrite buf p cs).take (p + k) = buf.take p ++ cs.take k := by
  have hlen : (buf.take p).length = p := List.length_take_of_le hp
  rw [overwrite, List.append_assoc, List.take_append, hlen, Nat.add_sub_cancel_left,
    List.take_append_of_le_length hk, List.take_of_length_le (by omega)]

theorem overwrite_length (h : p + cs.length ≤ buf.length) :
    (overwrite buf p cs).length = buf.length := by
  simp only [overwrite, List.length_append, List.length_take, List.length_drop]
  omega

theorem roundup_eq (h : n + 512 < 2 ^ 64) : roundup n = n / 512 * 512 + 512 := by
  have hand : n &&& (2 ^ 64 - 1 - (512 - 1)) = n / 512 * 512 :=
    and_high_bits (k := 9) (by omega) (by decide)
  rw [roundup, hand, sizeT, Nat.mod_eq_of_lt (by omega)]

theorem sizeT_diff {a b : Nat} (hle : b ≤ a) (ha : a < 2 ^ 64) :
    sizeT (a + 2 ^ 64 - b) = a - b := by
  rw [sizeT]
  omega

theorem written_length (out : List Char) (h : 0 < n) :
    (written out n).length = min out.length (n - 1) + 1 := by
  rw [written, if_neg (by omega), List.length_append, List.length_take, List.length_singleton,
    Nat.min_comm]

/-- Output that fits is written whole. -/
theorem written_take (h : out.length < n) : (written out n).take out.length = out := by
  rw [written, if_neg (by omega), List.take_of_length_le (by omega : out.length ≤ n - 1),
    List.take_left]

end Pieces

/-! ## The text of a context -/

/-- In the array up to 2047 characters, and in the string, which is little longer,
from 2048 on. -/
structure Rep (c : Ctx) (text : List Char) : Prop where
  sbuf_length : c.sbuf.length = sbufSize
  offset : c.offset = text.length
  small : text.length < sbufSize → c.sbuf.take text.length = text
  large : sbufSize ≤ text.length → c.joined.take text.length = text ∧
    text.length ≤ c.joined.length ∧ c.joined.length ≤ text.length + 1024

theorem init_rep {sbuf : List Char} (hs : sbuf.length = sbufSize) (joined : List Char) :
    Rep ⟨sbuf, joined, 0⟩ [] :=
  ⟨hs, rfl, fun _ => rfl, fun h => absurd h (by decide)⟩

/-- The span that `buffer sz` gave: it has more than `sz` characters, behind the text. -/
inductive Room (text : List Char) (sz : Nat) (c : Ctx) : Span → Prop
  | array (take : c.sbuf.take text.length = text) (lt : text.length + sz < sbufSize) :
    Room text sz c ⟨.sbuf, sbufSize - text.length⟩
  | string (n : Nat) (take : c.joined.take text.length = text)
    (length : c.joined.length = text.length + n) (ge : sbufSize ≤ text.length + sz) (lt : sz < n)
    (le : n ≤ 1024 ∨ n ≤ sz + 512) : Room text sz c ⟨.joined, n⟩

section Calls
variable {c : Ctx} {text cs : List Char} {sz n k : Nat} {sp : Span}

theorem Room.lt (h : Room text sz c sp) : sz < sp.size := by
  cases h with
  | array take lt => exact Nat.lt_sub_of_add_lt (by omega)
  | string n take length ge lt le => exact lt

theorem Room.le (h : Room text sz c sp) : sp.size ≤ 2048 ∨ sp.size ≤ sz + 512 := by
  cases h with
  | array take lt => exact .inl (Nat.sub_le _ _)
  | string n take length ge lt le => exact le.imp (fun h => h.trans (by decide)) id

theorem Room.of_array (h : Room text sz c sp) (hp : sp.place = .sbuf) :
    text.length + sz < sbufSize ∧ sp.size = sbufSize - text.length := by
  cases h with
  | array take lt => exact ⟨lt, rfl⟩
  | string => cases hp

theorem Room.of_string (h : Room text sz c sp) (hp : sp.place = .joined) :
    sbufSize ≤ text.length + sz ∧ (sp.size ≤ 1024 ∨ sp.size ≤ sz + 512) := by
  cases h with
  | array => cases hp
  | string n take length ge lt le => exact ⟨ge, le⟩

/-- Making the string larger. -/
theorem grow_room (hs : c.sbuf.length = sbufSize) (ho : c.offset = text.length)
    (htake : c.joined.take text.length = text) (hle : text.length ≤ c.joined.length)
    (hroom : c.joined.length ≤ text.length + sz) (hge : sbufSize ≤ text.length + sz)
    (hm : text.length + sz + 1024 ≤ maxSize) :
    (c.grow (text.length + sz)).1.sbuf.length = sbufSize ∧
      (c.grow (text.length + sz)).1.offset = text.length ∧
      Room text sz (c.grow (text.length + sz)).1 (c.grow (text.length + sz)).2 := by
  unfold maxSize at hm
  have hup := roundup_eq (n := text.length + sz) (by omega)
  have hres : resize c.joined (roundup (text.length + sz)) = some (c.joined ++
      List.replicate (roundup (text.length + sz) - c.joined.length) nul) := by
    rw [resize, if_pos (by unfold maxSize; omega), List.take_of_length_le (by omega)]
  have hlen : (c.joined ++ List.replicate (roundup (text.length + sz) - c.joined.length)
      nul).length = roundup (text.length + sz) := by
    rw [List.length_append, List.length_replicate]
    omega
  unfold Ctx.grow
  rw [hres]
  dsimp only
  rw [hlen, ho, sizeT_diff (by omega) (by omega)]
  refine ⟨hs, rfl, .string _ ?_ ?_ hge (by omega) (.inr (by omega))⟩
  · rw [List.take_append_of_le_length hle, htake]
  · rw [hlen]
    omega

/-- `buffer` gives more room than it is asked for. -/
theorem buffer_room (h : Rep c text) (sz : Nat) (hm : text.length + sz + 1024 ≤ maxSize) :
    (c.buffer sz).1.sbuf.length = sbufSize ∧ (c.buffer sz).1.offset = text.length ∧
      Room text sz (c.buffer sz).1 (c.buffer sz).2 := by
  have hsum : sizeT (text.length + sz) = text.length + sz := by
    unfold maxSize at hm
    exact Nat.mod_eq_of_lt (by omega)
  unfold Ctx.buffer
  rw [h.offset, hsum]
  by_cases hsmall : text.length < sbufSize
  · rw [if_pos hsmall]
    have htake := h.small hsmall
    by_cases hfit : text.length + sz < sbufSize
    · rw [if_pos hfit]
      exact ⟨h.sbuf_length, h.offset, .array htake hfit⟩
    · rw [if_neg hfit, htake]
      exact grow_room h.sbuf_length rfl List.take_length (Nat.le_refl _)
        (Nat.le_add_right _ _) (Nat.not_lt.mp hfit) hm
  · rw [if_neg hsmall]
    obtain ⟨htake, hle, hspare⟩ := h.large (Nat.not_lt.mp hsmall)
    by_cases hfit : text.length + sz ≥ c.joined.length
    · rw [if_pos hfit]
      exact grow_room h.sbuf_length h.offset htake hle hfit (by omega) hm
    · rw [if_neg hfit]
      unfold maxSize at hm
      rw [sizeT_diff hle (by omega)]
      refine ⟨h.sbuf_length, h.offset, .string _ htake ?_ (by omega) ?_ (.inl ?_)⟩
      · exact (Nat.add_sub_cancel' hle).symm
      · exact Nat.lt_sub_of_add_lt (by omega)
      · exact Nat.sub_le_of_le_add (by omega)

/-- `k` of the characters written into the room are added to the text. -/
theorem Room.write (h : Room text sz c sp) (cs : List Char) (k : Nat)
    (hs : c.sbuf.length = sbufSize) (ho : c.offset = text.length) (hcs : cs.length ≤ sp.size)
    (hk : k ≤ cs.length)
    (harray : sp.place = .sbuf → text.length + k < sbufSize)
    (hstring : sp.place = .joined → sbufSize ≤ text.length + k ∧ sp.size ≤ k + 1024) :
    Rep { c.write sp.place cs with offset := text.length + k } (text ++ cs.take k) := by
  have hlen : (text ++ cs.take k).length = text.length + k := by
    rw [List.length_append, List.length_take_of_le hk]
  cases h with
  | array take lt =>
    have hk := harray rfl
    dsimp only at hcs
    refine ⟨?_, hlen.symm, fun _ => ?_, fun hge => absurd hge (by omega)⟩
    · change (overwrite c.sbuf c.offset cs).length = sbufSize
      rw [overwrite_length (by omega), hs]
    · change (overwrite c.sbuf c.offset cs).take _ = _
      rw [hlen, ho, overwrite_take (by omega) (by omega), take]
  | string n take length ge lt le =>
    obtain ⟨hge, hsize⟩ := hstring rfl
    dsimp only at hcs hsize
    refine ⟨hs, hlen.symm, fun hlt => absurd hlt (by omega), fun _ => ?_⟩
    change (overwrite c.joined c.offset cs).take _ = _ ∧
      _ ≤ (overwrite c.joined c.offset cs).length ∧ (overwrite c.joined c.offset cs).length ≤ _
    rw [hlen, ho, overwrite_take (by omega) hk, take, overwrite_length (by omega)]
    exact ⟨rfl, by omega, by omega⟩

theorem Rep.finish (h : Rep c text) (hm : text.length ≤ maxSize) :
    Rep c.finish.1 text ∧ c.finish.1.joined = text ∧ c.finish.2 = true := by
  unfold Ctx.finish
  rw [h.offset]
  by_cases hsmall : text.length < sbufSize
  · rw [if_pos hsmall, h.small hsmall]
    exact ⟨⟨h.sbuf_length, rfl, h.small, fun hge => absurd hge (by omega)⟩, rfl, rfl⟩
  · obtain ⟨htake, hle, -⟩ := h.large (Nat.not_lt.mp hsmall)
    have hres : resize c.joined text.length = some text := by
      rw [resize, if_pos hm, htake, Nat.sub_eq_zero_of_le hle, List.replicate_zero, List.append_nil]
    rw [if_neg hsmall, hres]
    exact ⟨⟨h.sbuf_length, rfl, h.small,
      fun _ => ⟨List.take_length, Nat.le_refl _, Nat.le_add_right _ _⟩⟩, rfl, rfl⟩

theorem Rep.reset (h : Rep c text) : Rep c.reset [] :=
  ⟨h.sbuf_length, rfl, fun _ => rfl, fun hge => absurd hge (by decide)⟩

theorem write_offset (c : Ctx) (place : Place) (cs : List Char) :
    (c.write place cs).offset = c.offset := by
  cases place <;> rfl

/-- The offset is advanced over what was written. -/
theorem expend_eq (ho : c.offset = text.length) (hm : text.length + k ≤ maxSize) (place : Place) :
    (c.write place cs).expend k = { c.write place cs with offset := text.length + k } := by
  have hsum : sizeT (text.length + k) = text.length + k := by
    unfold maxSize at hm
    exact Nat.mod_eq_of_lt (by omega)
  rw [Ctx.expend, write_offset, ho, hsum]

theorem chars_eq (str : List Char) :
    chars str = str.take (if str.getLast? = some nul then str.length - 1 else str.length) := by
  unfold chars
  split
  · rw [List.dropLast_eq_take]
  · rw [List.take_length]

theorem chars_length_le (str : List Char) : (chars str).length ≤ str.length := by
  rw [chars_eq]
  exact List.length_take_le' _ _

/-- `append` adds the string without one NUL at its end. -/
theorem append_spec (h : Rep c text) (str : List Char)
    (hm : text.length + str.length + 1024 ≤ maxSize) :
    (c.append str).2 = true ∧ Rep (c.append str).1 (text ++ chars str) := by
  unfold Ctx.append
  by_cases h0 : str = []
  · subst h0
    exact ⟨rfl, by simpa [chars] using h⟩
  · rw [if_neg h0, chars_eq]
    have hle : (if str.getLast? = some nul then str.length - 1 else str.length) ≤ str.length := by
      split
      · exact Nat.sub_le _ _
      · exact Nat.le_refl _
    generalize (if str.getLast? = some nul then str.length - 1 else str.length) = sz at hle ⊢
    obtain ⟨hs, ho, hroom⟩ := buffer_room h sz (by omega)
    have hlt := hroom.lt
    have hlen : (str.take sz).length = sz := List.length_take_of_le hle
    dsimp only
    rw [if_neg (by omega), expend_eq ho (by omega)]
    refine ⟨rfl, ?_⟩
    have hrep := hroom.write (str.take sz) sz hs ho (by omega) (by omega) ?_ ?_
    · rwa [List.take_take, Nat.min_self] at hrep
    · exact fun hp => (hroom.of_array hp).1
    · intro hp
      obtain ⟨hge, hsize⟩ := hroom.of_string hp
      exact ⟨hge, by omega⟩

/-- One pass of the loop: the room, with as much of the output in it as fits. -/
theorem sprintfLoop_succ (h : Rep c text) (out : List Char) (fuel passes : Nat) (sz : Int)
    (hne : sz ≠ intMax)
    (hm : text.length + (sz + 1).toNat + 1024 ≤ maxSize) :
    ∃ c' sp, c'.sbuf.length = sbufSize ∧ c'.offset = text.length ∧
      Room text (sz + 1).toNat c' sp ∧ sprintfLoop out (fuel + 1) c sz passes =
        let t := c'.write sp.place (written out sp.size)
        if printed out ≤ 0 then .ret t (printed out) (passes + 1)
        else if (printed out).toNat < sp.size then
          .ret (t.expend (printed out).toNat) (printed out) (passes + 1)
        else sprintfLoop out fuel t (printed out) (passes + 1) := by
  obtain ⟨hs, ho, hroom⟩ := buffer_room h (sz + 1).toNat hm
  have hlt := hroom.lt
  refine ⟨_, _, hs, ho, hroom, ?_⟩
  rw [sprintfLoop, if_neg hne]
  dsimp only
  rw [if_neg (by omega)]

/-- What a truncated pass leaves behind the text does no harm. -/
theorem Room.write_truncated (h : Room text 0 c sp) (hs : c.sbuf.length = sbufSize)
    (ho : c.offset = text.length) (out : List Char) :
    Rep (c.write sp.place (written out sp.size)) text := by
  have hlt := h.lt
  have hlen := written_length out hlt
  have hrep := h.write (written out sp.size) 0 hs ho (by omega) (Nat.zero_le _) ?_ ?_
  · rw [List.take_zero, List.append_nil, Nat.add_zero] at hrep
    have hoff := (write_offset c sp.place (written out sp.size)).trans ho
    rwa [← hoff] at hrep
  · exact fun hp => (h.of_array hp).1
  · intro hp
    obtain ⟨hge, hsize⟩ := h.of_string hp
    exact ⟨hge, by omega⟩

/-- A pass with room for the output and its NUL adds the output. -/
theorem Room.write_whole (h : Room text sz c sp) (hs : c.sbuf.length = sbufSize)
    (ho : c.offset = text.length) {out : List Char} (hlt : out.length < sp.size)
    (hm : text.length + out.length ≤ maxSize)
    (hcross : sp.place = .joined →
      sbufSize ≤ text.length + out.length ∧ sp.size ≤ out.length + 1024) :
    Rep ((c.write sp.place (written out sp.size)).expend out.length) (text ++ out) := by
  have hlen := written_length out (Nat.zero_lt_of_lt hlt)
  have hrep := h.write (written out sp.size) out.length hs ho (by omega) (by omega) ?_
    hcross
  · rwa [written_take hlt, ← expend_eq ho hm] at hrep
  · intro hp
    have := (h.of_array hp).2
    omega

/-- Output that the first pass has no room for takes the text past the array. -/
theorem Room.full (h : Room text 0 c sp) (hle : sp.size ≤ n) : sbufSize ≤ text.length + n := by
  cases h with
  | array take lt =>
    dsimp only at hle
    omega
  | string m take length ge lt le => exact ge.trans (Nat.add_le_add_left (Nat.zero_le n) _)

/-- Short output is added in one pass or in two. -/
theorem sprintf_short (h : Rep c text) {out : List Char} (hn : out.length < intMax)
    (hm : text.length + out.length + 2048 ≤ maxSize) :
    ∃ t passes, sprintf out c = .ret t out.length passes ∧ passes ≤ 2 ∧ Rep t (text ++ out) := by
  have hprinted : printed out = out.length := if_pos (Nat.le_of_lt hn)
  have hm₁ : text.length + ((-1 : Int) + 1).toNat + 1024 ≤ maxSize := by
    change text.length + 0 + 1024 ≤ maxSize
    omega
  obtain ⟨c₁, sp₁, hs₁, ho₁, hroom₁, he₁⟩ := sprintfLoop_succ h out 2 0 (-1) (by decide) hm₁
  change Room text 0 c₁ sp₁ at hroom₁
  have hrep₁ := hroom₁.write_truncated hs₁ ho₁ out
  rw [sprintf, he₁, hprinted, Int.toNat_natCast]
  dsimp only
  by_cases h0 : out = []
  · subst h0
    rw [if_pos (by decide)]
    exact ⟨_, 1, rfl, by decide, by rwa [List.append_nil]⟩
  · have hpos := List.length_pos_of_ne_nil h0
    rw [if_neg (by omega)]
    by_cases hfit : out.length < sp₁.size
    · rw [if_pos hfit]
      refine ⟨_, 1, rfl, by decide, hroom₁.write_whole hs₁ ho₁ hfit (by omega) fun hp => ?_⟩
      obtain ⟨hge, hsize⟩ := hroom₁.of_string hp
      exact ⟨by omega, by omega⟩
    · -- the second pass has one character more than it needs
      rw [if_neg hfit]
      obtain ⟨c₂, sp₂, hs₂, ho₂, hroom₂, he₂⟩ := sprintfLoop_succ hrep₁ out 1 1
        out.length (by omega) (by omega)
      have hlt := hroom₂.lt
      have hfull := hroom₁.full (Nat.not_lt.mp hfit)
      rw [he₂, hprinted, Int.toNat_natCast]
      dsimp only
      rw [if_neg (by omega), if_pos (by omega)]
      refine ⟨_, 2, rfl, by decide, hroom₂.write_whole hs₂ ho₂ (by omega) (by omega) fun hp => ?_⟩
      have hsize := (hroom₂.of_string hp).2
      exact ⟨hfull, by omega⟩

/-- The longest output that has a length overflows the next size, and a longer one has
none. -/
theorem sprintf_long (h : Rep c text) {out : List Char} (hn : intMax ≤ out.length)
    (hm : text.length + out.length + 2048 ≤ maxSize) :
    sprintf out c = .undefined ∨ ∃ t, sprintf out c = .ret t (-1) 1 := by
  have hm₁ : text.length + ((-1 : Int) + 1).toNat + 1024 ≤ maxSize := by
    change text.length + 0 + 1024 ≤ maxSize
    omega
  obtain ⟨c₁, sp₁, hs₁, ho₁, hroom₁, he₁⟩ := sprintfLoop_succ h out 2 0 (-1) (by decide) hm₁
  rw [sprintf, he₁]
  dsimp only
  by_cases heq : out.length = intMax
  · left
    have hprinted : printed out = intMax := by rw [printed, if_pos heq.le, heq]
    have hsize : sp₁.size ≤ 2048 := by
      have hle := hroom₁.le
      change sp₁.size ≤ 2048 ∨ sp₁.size ≤ 0 + 512 at hle
      omega
    rw [hprinted, if_neg (by decide), Int.toNat_natCast,
      if_neg (Nat.not_lt.mpr (hsize.trans (by decide))), sprintfLoop, if_pos rfl]
  · right
    have hprinted : printed out = -1 := if_neg (by omega)
    rw [hprinted, if_pos (by decide)]
    exact ⟨_, rfl⟩

end Calls

/-! ## Runs -/

section Runs
variable {s : Sys} {a : Act}

/-- What holds of the state after a call that is right. -/
theorem right_of (h : Rep s.ctx s.text) (hm : Allocates s a) (hc : Counts a) :
    Right s a ∧ ∀ t, step s a = some t → Rep t.ctx t.text := by
  unfold Allocates Act.size at hm
  have hdone : ∀ {t : Sys}, step s a = some t → t.ok = true → t.passes ≤ 2 →
      (a = .finish → t.ctx.joined = t.text) → Rep t.ctx t.text → t.text.length ≤ maxSize →
      Right s a ∧ ∀ t, step s a = some t → Rep t.ctx t.text := by
    intro t ht hok hp hf hrep hle
    refine ⟨⟨t, ht, hok, hp, hf, (hrep.finish hle).2.1⟩, fun u hu => ?_⟩
    cases ht.symm.trans hu
    exact hrep
  cases a with
  | append str =>
    dsimp only at hm
    obtain ⟨hok, hrep⟩ := append_spec h str (by omega)
    have hle := chars_length_le str
    exact hdone rfl hok (Nat.zero_le 2) nofun hrep (by rw [List.length_append]; omega)
  | format out =>
    dsimp only at hm
    obtain ⟨t, passes, he, hp, hrep⟩ := sprintf_short h hc hm
    have hstep : step s (.format out) =
        some ⟨t, s.text ++ out, 0 ≤ (out.length : Int), passes⟩ := by
      rw [step, he]
    exact hdone hstep (by simp) hp nofun hrep (by rw [List.length_append]; omega)
  | finish =>
    obtain ⟨hrep, hj, hok⟩ := h.finish (by omega)
    exact hdone rfl hok (Nat.zero_le 2) (fun _ => hj) hrep (by change s.text.length ≤ _; omega)
  | reset => exact hdone rfl rfl (Nat.zero_le 2) nofun h.reset (Nat.zero_le _)

/-- A call is right just when its output is short enough. -/
theorem right_iff (h : Rep s.ctx s.text) (hm : Allocates s a) : Right s a ↔ Counts a := by
  refine ⟨fun hr => ?_, fun hc => (right_of h hm hc).1⟩
  cases a with
  | format out =>
    by_contra hn
    obtain ⟨t, ht, hok, -⟩ := hr
    rcases sprintf_long h (Nat.not_lt.mp hn) hm with he | ⟨c, he⟩
    · rw [step, he] at ht
      cases ht
    · rw [step, he] at ht
      cases ht
      cases hok
  | append str => trivial
  | finish => trivial
  | reset => trivial

theorem run_iff (h : Rep s.ctx s.text) {acts : List Act} (hm : Meets step Allocates s acts) :
    Meets step Right s acts ↔ ∀ a ∈ acts, Counts a := by
  induction acts generalizing s with
  | nil => exact iff_of_true trivial fun _ ha => nomatch ha
  | cons a acts ih =>
    rw [List.forall_mem_cons]
    constructor
    · rintro ⟨hr, hrest⟩
      have hc := (right_iff h hm.1).mp hr
      obtain ⟨t, ht, -⟩ := hr
      exact ⟨hc, (ih ((right_of h hm.1 hc).2 t ht) (hm.2 t ht)).mp (hrest t ht)⟩
    · rintro ⟨hc, hrest⟩
      obtain ⟨hr, hrep⟩ := right_of h hm.1 hc
      exact ⟨hr, fun t ht => (ih (hrep t ht) (hm.2 t ht)).mpr hrest⟩

theorem step_length {t : Sys} (h : step s a = some t) :
    t.text.length ≤ s.text.length + a.size := by
  cases a with
  | append str =>
    cases h
    rw [List.length_append]
    exact Nat.add_le_add_left (chars_length_le str) _
  | format out =>
    rw [step] at h
    split at h
    · cases h
      rw [List.length_append]
      rfl
    · cases h
  | finish =>
    cases h
    exact Nat.le_add_right _ _
  | reset =>
    cases h
    exact Nat.zero_le _

/-- Memory for everything that is added is enough. -/
theorem allocates_of_total {acts : List Act}
    (h : s.text.length + (acts.map Act.size).sum + 2048 ≤ maxSize) :
    Meets step Allocates s acts := by
  induction acts generalizing s with
  | nil => trivial
  | cons a acts ih =>
    rw [List.map_cons, List.sum_cons] at h
    refine ⟨by unfold Allocates; omega, fun t ht => ih ?_⟩
    have hlen := step_length ht
    omega

end Runs

/-- **Formatting is concatenation.** Whatever is appended, formatted, finished and reset
on one context, with memory for it: every call succeeds, no output takes more than two
passes, and every `finish` gives the text since the last reset, just when every
formatted output has fewer than 2^31 - 1 characters. -/
theorem joined_iff (sbuf joined : List Char) (hs : sbuf.length = sbufSize) (acts : List Act)
    (hm : Meets step Allocates (.init sbuf joined) acts) :
    Meets step Right (.init sbuf joined) acts ↔ ∀ a ∈ acts, Counts a :=
  run_iff (init_rep hs joined) hm

theorem joined_twice :
    Meets step Right (.init (List.replicate sbufSize nul) [])
        [.append ['a', nul], .format ['4', '2'], .finish, .append ['b'], .finish] ↔
      ∀ a ∈ [.append ['a', nul], .format ['4', '2'], .finish, .append ['b'], .finish], Counts a :=
  joined_iff (List.replicate sbufSize nul) [] (List.length_replicate ..)
    [.append ['a', nul], .format ['4', '2'], .finish, .append ['b'], .finish]
    (allocates_of_total (by decide))

/-- A width of 2147483647: the first pass returns it, and the next size overflows. -/
theorem not_joined_widest :
    Meets step Allocates (.init (List.replicate sbufSize nul) [])
        [.format (List.replicate intMax ' ')] ∧
      ¬ Meets step Right (.init (List.replicate sbufSize nul) [])
        [.format (List.replicate intMax ' ')] := by
  have hlen : (List.replicate intMax ' ').length = intMax := List.length_replicate
  have hm : Meets step Allocates (.init (List.replicate sbufSize nul) [])
      [.format (List.replicate intMax ' ')] := by
    refine allocates_of_total ?_
    rw [List.map_singleton, List.sum_singleton, Act.size, hlen]
    decide
  refine ⟨hm, fun hr => ?_⟩
  have hc := (run_iff (init_rep List.length_replicate []) hm).mp hr _ (List.mem_singleton_self _)
  exact absurd hlen (Nat.ne_of_lt hc)

end CppIpc.FmtContext
