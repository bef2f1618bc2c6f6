import Mathlib.Data.List.Basic

/-! # The `printf` format of a spec

`fmt_of_signed`, `fmt_of_unsigned` and `fmt_of_float` put a format together in a buffer
of 32 characters, from a spec, a length modifier and a conversion character. A span is
the list of its characters; `none` is a read outside of one. -/
namespace CppIpc.FmtSpec

def nul : Char := Char.ofNat 0

/-- The array of a string literal. -/
def lit (s : List Char) : List Char := s ++ [nul]

/-- `sfmt_policy::aligned_size`. -/
def alignedSize : Nat := 32

/-- `normalize`: without a NUL at the end. -/
def normalize (a : List Char) : List Char :=
  if a = [] then [] else a.take (a.length - if a.getLast? = some nul then 1 else 0)

/-- `smem_cpy` into a buffer of `size` characters: what is copied. -/
def smemCpy (size : Nat) (a : List Char) : List Char :=
  if size = 0 then [] else (normalize a).take (min (size - 1) (normalize a).length)

/-- `sbuf_cat`: what is in front of the terminating NUL. -/
def sbufCat (size : Nat) (args : List (List Char)) : List Char :=
  args.foldl (fun out s => out ++ smemCpy (size - out.length) s) []

/-- `fmt_of`. -/
def fmtOf (fstr s : List Char) : List Char := sbufCat alignedSize [lit ['%'], fstr, s]

/-- The common form: `known` are the cases of the `switch`, and `dflt` is the conversion
of its default and of an empty span. `fstr.back()` is outside of an empty one. -/
def fmtOfKnown (known : List Char) (dflt : Char) (fstr l : List Char) : Option (List Char) :=
  if fstr = [] then some (fmtOf l (lit [dflt]))
  else
    let fstr := normalize fstr
    fstr.getLast?.map fun c =>
      if c ∈ known then
        sbufCat alignedSize [lit ['%'], fstr.take (fstr.length - 1), l, [c]]
      else sbufCat alignedSize [lit ['%'], fstr, l, lit [dflt]]

def fmtOfUnsigned : List Char → List Char → Option (List Char) :=
  fmtOfKnown ['o', 'x', 'X', 'u'] 'u'

/-- The unsigned conversions are left to `fmt_of_unsigned`. -/
def fmtOfSigned (fstr l : List Char) : Option (List Char) :=
  if fstr = [] then some (fmtOf l (lit ['d']))
  else
    let fstr := normalize fstr
    fstr.getLast?.bind fun c =>
      if c ∈ ['o', 'x', 'X', 'u'] then fmtOfUnsigned fstr l
      else some (sbufCat alignedSize [lit ['%'], fstr, l, lit ['d']])

def fmtOfFloat : List Char → List Char → Option (List Char) :=
  fmtOfKnown ['e', 'E', 'g', 'G'] 'f'

/-! ## What the pieces do -/

theorem normalize_nul (s : List Char) : normalize (lit s) = s := by
  simp [normalize, lit]

theorem normalize_of_ne {s : List Char} (h : s.getLast? ≠ some nul) : normalize s = s := by
  unfold normalize
  rw [if_neg h]
  split
  · rename_i he
    exact he.symm
  · exact List.take_length

/-- A piece is copied as far as there is room for it and a NUL. -/
theorem smemCpy_eq {size : Nat} (a : List Char) :
    smemCpy size a = (normalize a).take (size - 1) := by
  unfold smemCpy
  split
  · rename_i h
    simp [h]
  · exact List.take_eq_take_min.symm

/-- A cut that is made twice. -/
theorem take_append_cut (k : Nat) (a b : List Char) : (a.take k ++ b).take k = (a ++ b).take k := by
  rw [List.take_append, List.take_append, List.take_take, Nat.min_self, List.length_take]
  congr 2
  omega

/-- The pieces one after the other, cut off at the end of the buffer. -/
theorem sbufCat_eq (size : Nat) (args : List (List Char)) :
    sbufCat size args = (args.map normalize).flatten.take (size - 1) := by
  have hstep : ∀ (args : List (List Char)) (out : List Char), out.length ≤ size - 1 →
      args.foldl (fun out s => out ++ smemCpy (size - out.length) s) out =
        (out ++ (args.map normalize).flatten).take (size - 1) := by
    intro args
    induction args with
    | nil =>
      intro out hout
      simp [List.take_of_length_le hout]
    | cons s rest ih =>
      intro out hout
      have hroom : size - out.length - 1 = size - 1 - out.length := by omega
      have hlen : (out ++ (normalize s).take (size - 1 - out.length)).length ≤ size - 1 := by
        simp only [List.length_append, List.length_take]
        omega
      have happ : ∀ b : List Char, (out ++ b).take (size - 1) =
          out.take (size - 1) ++ b.take (size - 1 - out.length) := fun _ => List.take_append
      rw [List.foldl_cons, smemCpy_eq, hroom, ih _ hlen, List.map_cons, List.flatten_cons,
        List.append_assoc, happ, take_append_cut, ← happ]
  exact hstep args [] (Nat.zero_le _)

/-! ## The format that is meant -/

/-- The flags, the width and the precision: all of the spec but a known conversion. -/
def body (known s : List Char) : List Char :=
  match s.getLast? with
  | some c => if c ∈ known then s.dropLast else s
  | none => s

def conversion (known : List Char) (dflt : Char) (s : List Char) : Char :=
  match s.getLast? with
  | some c => if c ∈ known then c else dflt
  | none => dflt

/-- The format for spec `s` and length modifier `m`. -/
def format (known : List Char) (dflt : Char) (s m : List Char) : List Char :=
  '%' :: (body known s ++ m ++ [conversion known dflt s])

/-- The spec is not empty, no NUL of its own is in front of the modifier, and there is
room for the format and its terminator. -/
def Fits (known : List Char) (dflt : Char) (s m : List Char) : Prop :=
  s ≠ [] ∧ (body known s).getLast? ≠ some nul ∧ (format known dflt s m).length < alignedSize

instance (known : List Char) (dflt : Char) (s m : List Char) : Decidable (Fits known dflt s m) :=
  inferInstanceAs (Decidable (_ ∧ _ ∧ _))

section Known
variable {known : List Char} {dflt : Char} {s m : List Char}

theorem lit_ne (s : List Char) : lit s ≠ [] := by simp [lit]

/-- The pieces are those of the format, but for a NUL at the end of the body. -/
theorem fmtOfKnown_eq (hnul : nul ∉ known) (h0 : s ≠ []) :
    fmtOfKnown known dflt (lit s) (lit m) =
      some (('%' :: (normalize (body known s) ++ m ++ [conversion known dflt s])).take 31) := by
  obtain ⟨c, hc⟩ := Option.ne_none_iff_exists'.mp fun hn => h0 (List.getLast?_eq_none_iff.mp hn)
  unfold fmtOfKnown body conversion
  rw [if_neg (lit_ne s)]
  simp only [normalize_nul, hc, Option.map_some]
  by_cases hk : c ∈ known
  · have hcn : normalize [c] = [c] := normalize_of_ne fun he => by
      obtain rfl := Option.some.inj he
      exact hnul hk
    simp only [if_pos hk, sbufCat_eq, List.map_cons, List.map_nil, normalize_nul, hcn,
      ← List.dropLast_eq_take]
    simp [alignedSize]
  · simp only [if_neg hk, sbufCat_eq, List.map_cons, List.map_nil, normalize_nul]
    simp [alignedSize]

/-- A cut format is shorter than the one that is meant, and so is one without its NUL. -/
theorem fmtOfKnown_iff (hnul : nul ∉ known) :
    fmtOfKnown known dflt (lit s) (lit m) = some (format known dflt s m) ↔
      Fits known dflt s m := by
  unfold Fits
  by_cases h0 : s = []
  · subst h0
    refine iff_of_false (fun h => ?_) fun h => h.1 rfl
    have hnone : fmtOfKnown known dflt (lit []) (lit m) = none := by
      rw [fmtOfKnown, if_neg (lit_ne []), normalize_nul]
      rfl
    rw [hnone] at h
    cases h
  · rw [fmtOfKnown_eq hnul h0, Option.some.injEq]
    constructor
    · intro h
      have hlen := congrArg List.length h
      simp only [format, List.length_take, List.length_cons, List.length_append,
        List.length_nil] at hlen ⊢
      by_cases hb : (body known s).getLast? = some nul
      · -- the second normalisation takes a character away
        have hne : body known s ≠ [] := by
          intro he
          rw [he] at hb
          cases hb
        have hpos := List.length_pos_of_ne_nil hne
        rw [normalize, if_neg hne, if_pos hb, List.length_take] at hlen
        omega
      · rw [normalize_of_ne hb] at hlen
        exact ⟨h0, hb, by rw [alignedSize]; omega⟩
    · rintro ⟨-, hb, hlen⟩
      rw [normalize_of_ne hb]
      exact List.take_of_length_le (Nat.le_of_lt_succ hlen)

/-- A known conversion is left to `fmt_of_unsigned`, which does the same. -/
theorem fmtOfSigned_eq (s l : List Char) :
    fmtOfSigned (lit s) l = fmtOfKnown ['o', 'x', 'X', 'u'] 'd' (lit s) l := by
  unfold fmtOfSigned fmtOfKnown
  rw [if_neg (lit_ne s), if_neg (lit_ne s), normalize_nul]
  dsimp only
  cases hc : s.getLast? with
  | none => rfl
  | some c =>
    simp only [Option.bind_some, Option.map_some]
    by_cases hk : c ∈ ['o', 'x', 'X', 'u']
    · have hne : s ≠ [] := by
        rintro rfl
        cases hc
      have hnorm : normalize s = s := normalize_of_ne fun he => by
        obtain rfl := Option.some.inj (hc.symm.trans he)
        revert hk
        decide
      rw [if_pos hk, if_pos hk, fmtOfUnsigned, fmtOfKnown, if_neg hne, hnorm]
      dsimp only
      rw [hc, Option.map_some, if_pos hk]
    · rw [if_neg hk, if_neg hk]

end Known

/-- **The format is complete and read in bounds** for exactly the specs that are not
empty, have no NUL of their own in front of the modifier and give at most 31
characters. -/
theorem format_iff (s m : List Char) :
    (fmtOfSigned (lit s) (lit m) = some (format ['o', 'x', 'X', 'u'] 'd' s m) ↔
      Fits ['o', 'x', 'X', 'u'] 'd' s m) ∧
    (fmtOfUnsigned (lit s) (lit m) = some (format ['o', 'x', 'X', 'u'] 'u' s m) ↔
      Fits ['o', 'x', 'X', 'u'] 'u' s m) ∧
    (fmtOfFloat (lit s) (lit m) = some (format ['e', 'E', 'g', 'G'] 'f' s m) ↔
      Fits ['e', 'E', 'g', 'G'] 'f' s m) := by
  rw [fmtOfSigned_eq]
  exact ⟨fmtOfKnown_iff (by decide), fmtOfKnown_iff (by decide), fmtOfKnown_iff (by decide)⟩

/-- The empty spec, and thirty digits of width. -/
theorem not_format :
    fmtOfSigned (lit []) (lit []) = none ∧
    fmtOfUnsigned (lit (List.replicate 30 '1')) (lit ['l']) = some ('%' :: List.replicate 30 '1') ∧
    format ['o', 'x', 'X', 'u'] 'u' (List.replicate 30 '1') ['l'] =
      '%' :: (List.replicate 30 '1' ++ ['l', 'u']) := by
  refine ⟨rfl, by decide +kernel, by decide +kernel⟩

end CppIpc.FmtSpec
