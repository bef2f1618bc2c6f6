import Mathlib.Data.List.TakeWhile

/-! # Texts of variable-length characters

A text is a list of units that ends with the list or at the first unit `z`. A
`Reader` takes characters off its front, and an encoding gives every character
that it knows its own units. -/
namespace CppIpc.Lib.Codecs

variable {α β γ : Type*}

/-- Decodes the character at the front: how many units it takes, and its value. -/
structure Reader (α β : Type*) where
  read : List α → Option (Nat × β)
  takes : ∀ {s : List α} {n : Nat} {b : β}, read s = some (n, b) → 0 < n ∧ n ≤ s.length

/-- The characters that were read, and whether the end of the text was reached. -/
structure Reading (β : Type*) where
  chars : List (Nat × β)
  whole : Bool
  deriving DecidableEq

def Reading.points (r : Reading β) : List β := r.chars.map Prod.snd

def Reading.text (r : Reading β) : Option (List β) := if r.whole then some r.points else none

def Reading.cons (c : Nat × β) (r : Reading β) : Reading β := ⟨c :: r.chars, r.whole⟩

def Reader.all [DecidableEq α] (R : Reader α β) (z : α) : List α → Reading β
  | [] => ⟨[], true⟩
  | a :: s =>
    if a = z then ⟨[], true⟩ else
    match _h : R.read (a :: s) with
    | none => ⟨[], false⟩
    | some (n, b) => (R.all z ((a :: s).drop n)).cons (n, b)
termination_by s => s.length
decreasing_by
  have ht := R.takes _h
  simp only [List.length_drop, List.length_cons] at *
  omega

/-- The units of a whole text, when each of its characters has some. -/
def encode (units : β → Option (List γ)) : List β → Option (List γ)
  | [] => some []
  | b :: bs => (units b).bind fun l => (encode units bs).map (l ++ ·)

def transcode [DecidableEq α] (R : Reader α β) (units : β → Option (List γ)) (z : α)
    (s : List α) : Option (List γ) := (R.all z s).text.bind (encode units)

/-! ## Encoding -/

section Encode

variable {units : β → Option (List γ)} {enc : β → List γ}

theorem encode_of_some {bs : List β} (h : ∀ b ∈ bs, units b = some (enc b)) :
    encode units bs = some (bs.flatMap enc) := by
  induction bs with
  | nil => rfl
  | cons b bs ih =>
    have hb := h b (by simp)
    have hbs := ih fun c hc => h c (by simp [hc])
    rw [encode, hb, hbs]
    rfl

theorem encode_of_none {bs : List β} {b : β} (hb : b ∈ bs) (h : units b = none) :
    encode units bs = none := by
  induction bs with
  | nil => cases hb
  | cons c bs ih =>
    rw [encode]
    rcases List.mem_cons.mp hb with rfl | hb
    · rw [h]; rfl
    · rw [ih hb]; cases units c <;> rfl

theorem encode_congr {units' : β → Option (List γ)} {bs : List β}
    (h : ∀ b ∈ bs, units b = units' b) : encode units bs = encode units' bs := by
  induction bs with
  | nil => rfl
  | cons b bs ih => rw [encode, encode, h b (by simp), ih fun c hc => h c (by simp [hc])]

theorem encode_single (bs : List β) : encode (fun b => some [b]) bs = some bs := by
  have h : encode (fun b => some [b]) bs = some (bs.flatMap fun b => [b]) :=
    encode_of_some fun _ _ => rfl
  rw [h, List.flatMap_singleton']

end Encode

/-! ## Reading -/

section Read

variable [DecidableEq α] {R : Reader α β} {z : α}

@[simp] theorem Reading.points_cons (c : Nat × β) (r : Reading β) :
    (r.cons c).points = c.2 :: r.points := rfl

@[simp] theorem Reading.whole_cons (c : Nat × β) (r : Reading β) :
    (r.cons c).whole = r.whole := rfl

@[simp] theorem Reading.chars_cons (c : Nat × β) (r : Reading β) :
    (r.cons c).chars = c :: r.chars := rfl

theorem Reading.text_of_whole {r : Reading β} (h : r.whole = true) : r.text = some r.points :=
  if_pos h

theorem Reading.text_eq_some {r : Reading β} {bs : List β} (h : r.text = some bs) :
    r.whole = true ∧ r.points = bs := by
  unfold Reading.text at h
  split at h
  next hw => exact ⟨hw, Option.some.inj h⟩
  next => cases h

@[simp] theorem Reader.all_nil : R.all z [] = ⟨[], true⟩ := by rw [Reader.all]

theorem Reader.all_end (s : List α) : R.all z (z :: s) = ⟨[], true⟩ := by
  rw [Reader.all, if_pos rfl]

theorem Reader.all_stuck {a : α} {s : List α} (ha : a ≠ z) (h : R.read (a :: s) = none) :
    R.all z (a :: s) = ⟨[], false⟩ := by
  rw [Reader.all, if_neg ha]
  split
  next => rfl
  next h' => rw [h] at h'; cases h'

theorem Reader.all_read {a : α} {s : List α} {n : Nat} {b : β} (ha : a ≠ z)
    (h : R.read (a :: s) = some (n, b)) :
    R.all z (a :: s) = (R.all z ((a :: s).drop n)).cons (n, b) := by
  rw [Reader.all, if_neg ha]
  split
  next h' => rw [h] at h'; cases h'
  next h' => rw [h] at h'; cases h'; rfl

/-- What the end, a unit that stops the reader and a character each do to a
statement about whole texts. -/
theorem Reader.text_induction (R : Reader α β) (z : α) {P : List α → Prop} (nil : P [])
    (stop : ∀ s, P (z :: s)) (stuck : ∀ a s, a ≠ z → R.read (a :: s) = none → P (a :: s))
    (char : ∀ a s n b, a ≠ z → R.read (a :: s) = some (n, b) → P ((a :: s).drop n) → P (a :: s))
    (s : List α) : P s := by
  induction hn : s.length using Nat.strong_induction_on generalizing s with
  | _ k ih =>
    cases s with
    | nil => exact nil
    | cons a s =>
      by_cases ha : a = z
      · subst ha; exact stop s
      · cases h : R.read (a :: s) with
        | none => exact stuck a s ha h
        | some c =>
          obtain ⟨n, b⟩ := c
          have ht := R.takes h
          refine char a s n b ha h (ih _ ?_ _ rfl)
          rw [List.length_drop]
          omega

/-- An encoding that the reader undoes character by character is undone whole. -/
theorem Reader.all_flatMap (enc : β → List α) {bs : List β}
    (hread : ∀ b ∈ bs, ∀ t, R.read (enc b ++ t) = some ((enc b).length, b))
    (hz : ∀ b ∈ bs, z ∉ enc b) :
    R.all z (bs.flatMap enc) = ⟨bs.map fun b => ((enc b).length, b), true⟩ := by
  induction bs with
  | nil => simp
  | cons b bs ih =>
    have hb := hread b (by simp) (bs.flatMap enc)
    have hzb := hz b (by simp)
    have hbs := ih (fun c hc => hread c (by simp [hc])) fun c hc => hz c (by simp [hc])
    rw [List.flatMap_cons]
    cases he : enc b with
    | nil =>
      have ht := (R.takes hb).1
      rw [he] at ht
      exact absurd ht (by simp)
    | cons a l =>
      rw [he] at hb hzb
      have ha : a ≠ z := fun h => hzb (by simp [h])
      rw [List.cons_append] at hb ⊢
      rw [Reader.all_read ha hb, ← List.cons_append, List.drop_left, hbs, List.map_cons, he]
      rfl

theorem Reader.text_flatMap (enc : β → List α) {bs : List β}
    (hread : ∀ b ∈ bs, ∀ t, R.read (enc b ++ t) = some ((enc b).length, b))
    (hz : ∀ b ∈ bs, z ∉ enc b) : (R.all z (bs.flatMap enc)).text = some bs := by
  rw [Reader.all_flatMap enc hread hz, Reading.text_of_whole rfl]
  simp [Reading.points, Function.comp_def]

/-- Characters of one unit each, which any unit but the end is. -/
def units : Reader α α where
  read
    | [] => none
    | a :: _ => some (1, a)
  takes := by
    intro s n b h
    cases s with
    | nil => cases h
    | cons a s => cases h; simp

theorem units_all (s : List α) :
    units.all z s = ⟨(s.takeWhile (· ≠ z)).map fun a => (1, a), true⟩ := by
  induction s with
  | nil => simp
  | cons a s ih =>
    by_cases ha : a = z
    · subst ha
      simp [Reader.all_end]
    · rw [Reader.all_read ha (show units.read (a :: s) = some (1, a) from rfl), List.drop_one,
        List.tail_cons, ih, List.takeWhile_cons_of_pos (by simpa using ha)]
      rfl

theorem units_text (s : List α) : (units.all z s).text = some (s.takeWhile (· ≠ z)) := by
  rw [units_all, Reading.text_of_whole rfl]
  simp [Reading.points, Function.comp_def]

end Read

/-- What holds of every character that is read holds of all that were. -/
theorem Reader.forall_points [DecidableEq α] {R : Reader α β} {z : α} {P : β → Prop}
    (h : ∀ {s n b}, R.read s = some (n, b) → P b) (s : List α) :
    ∀ b ∈ (R.all z s).points, P b := by
  induction s using R.text_induction z with
  | nil => simp [Reading.points]
  | stop s => simp [Reader.all_end, Reading.points]
  | stuck a s ha hr => simp [Reader.all_stuck ha hr, Reading.points]
  | char a s n b ha hr ih =>
    rw [Reader.all_read ha hr, Reading.points_cons]
    intro c hc
    rcases List.mem_cons.mp hc with rfl | hc
    · exact h hr
    · exact ih c hc

/-! ## Transcoding -/

section Transcode

variable [DecidableEq α] {R : Reader α β} {units : β → Option (List γ)} {z : α}

@[simp] theorem transcode_nil : transcode R units z [] = some [] := by
  rw [transcode, Reader.all_nil]
  rfl

theorem transcode_end (s : List α) : transcode R units z (z :: s) = some [] := by
  rw [transcode, Reader.all_end]
  rfl

theorem transcode_stuck {a : α} {s : List α} (ha : a ≠ z) (h : R.read (a :: s) = none) :
    transcode R units z (a :: s) = none := by
  rw [transcode, Reader.all_stuck ha h]
  rfl

theorem transcode_read {a : α} {s : List α} {n : Nat} {b : β} (ha : a ≠ z)
    (h : R.read (a :: s) = some (n, b)) :
    transcode R units z (a :: s) =
      (units b).bind fun l => (transcode R units z ((a :: s).drop n)).map (l ++ ·) := by
  rw [transcode, transcode, Reader.all_read ha h]
  cases hw : (R.all z ((a :: s).drop n)).whole with
  | true =>
    rw [Reading.text_of_whole hw, Reading.text_of_whole (by rwa [Reading.whole_cons])]
    rfl
  | false =>
    have hn : (R.all z ((a :: s).drop n)).text = none := by simp [Reading.text, hw]
    have hc : ((R.all z ((a :: s).drop n)).cons (n, b)).text = none := by
      simp [Reading.text, hw]
    rw [hn, hc]
    cases units b <;> rfl

/-- The characters that are handed to the encoding, up to the first without units. -/
def fed (R : Reader α β) (units : β → Option (List γ)) (z : α) (s : List α) : List β :=
  (R.all z s).points.takeWhile fun b => (units b).isSome

@[simp] theorem fed_nil : fed R units z [] = [] := by rw [fed, Reader.all_nil]; rfl

theorem fed_end (s : List α) : fed R units z (z :: s) = [] := by rw [fed, Reader.all_end]; rfl

theorem fed_stuck {a : α} {s : List α} (ha : a ≠ z) (h : R.read (a :: s) = none) :
    fed R units z (a :: s) = [] := by
  rw [fed, Reader.all_stuck ha h]
  rfl

theorem fed_refused {a : α} {s : List α} {n : Nat} {b : β} (ha : a ≠ z)
    (h : R.read (a :: s) = some (n, b)) (hb : units b = none) :
    fed R units z (a :: s) = [] := by
  rw [fed, Reader.all_read ha h, Reading.points_cons, List.takeWhile_cons_of_neg (by simp [hb])]

theorem fed_taken {a : α} {s : List α} {n : Nat} {b : β} {l : List γ} (ha : a ≠ z)
    (h : R.read (a :: s) = some (n, b)) (hb : units b = some l) :
    fed R units z (a :: s) = b :: fed R units z ((a :: s).drop n) := by
  rw [fed, Reader.all_read ha h, Reading.points_cons, List.takeWhile_cons_of_pos (by simp [hb])]
  rfl

end Transcode

/-! ## Canonical texts -/

section Canonical

variable [DecidableEq α] {R : Reader α β} {z : α} {enc : β → List α}

/-- An encoding with no character longer than what `R` reads it from, and with
the only form of that length. -/
structure Shortest (R : Reader α β) (z : α) (enc : β → List α) : Prop where
  le {s : List α} {n : Nat} {b : β} : R.read s = some (n, b) → (enc b).length ≤ n
  eq {s : List α} {n : Nat} {b : β} :
    R.read s = some (n, b) → (enc b).length = n → s.take n = enc b
  clear {s : List α} {n : Nat} {b : β} : R.read s = some (n, b) → z ∉ s.take n

/-- What a whole reading goes through, character by character. -/
theorem takeWhile_of_clear {s : List α} {n : Nat} (hz : z ∉ s.take n) :
    s.takeWhile (· ≠ z) = s.take n ++ (s.drop n).takeWhile (· ≠ z) := by
  have hs : (s.take n ++ s.drop n).takeWhile (· ≠ z) =
      s.take n ++ (s.drop n).takeWhile (· ≠ z) := by
    apply List.takeWhile_append_of_pos
    intro a ha
    simpa using fun h : a = z => hz (h ▸ ha)
  rwa [List.take_append_drop] at hs

theorem Shortest.length_le (h : Shortest R z enc) (s : List α)
    (hw : (R.all z s).whole = true) :
    ((R.all z s).points.flatMap enc).length ≤ (s.takeWhile (· ≠ z)).length := by
  induction s using R.text_induction z with
  | nil => simp [Reading.points]
  | stop s => simp [Reader.all_end, Reading.points]
  | stuck a s ha hr => simp [Reader.all_stuck ha hr] at hw
  | char a s n b ha hr ih =>
    rw [Reader.all_read ha hr] at hw ⊢
    have ht := R.takes hr
    have hle := h.le hr
    have hrest := ih hw
    rw [takeWhile_of_clear (h.clear hr)]
    simp only [Reading.points_cons, List.flatMap_cons, List.length_append, List.length_take]
    omega

/-- Encoding again what was read gives back the units that it was read from
when, and only when, every character stood in its shortest form. -/
theorem Shortest.flatMap_eq_iff (h : Shortest R z enc) (s : List α)
    (hw : (R.all z s).whole = true) :
    (R.all z s).points.flatMap enc = s.takeWhile (· ≠ z) ↔
      ∀ c ∈ (R.all z s).chars, (enc c.2).length = c.1 := by
  induction s using R.text_induction z with
  | nil => simp [Reading.points]
  | stop s => simp [Reader.all_end, Reading.points]
  | stuck a s ha hr => simp [Reader.all_stuck ha hr] at hw
  | char a s n b ha hr ih =>
    rw [Reader.all_read ha hr] at hw ⊢
    have ht := R.takes hr
    have htake : ((a :: s).take n).length = n := by rw [List.length_take]; omega
    have hrest := h.length_le ((a :: s).drop n) hw
    rw [takeWhile_of_clear (h.clear hr), Reading.points_cons, Reading.chars_cons,
      List.flatMap_cons, List.forall_mem_cons]
    constructor
    · intro he
      have hlen := congrArg List.length he
      simp only [List.length_append, htake] at hlen
      have hle := h.le hr
      have hb : (enc b).length = n := by omega
      have htail := (List.append_inj he (by rw [hb, htake])).2
      exact ⟨hb, (ih hw).mp htail⟩
    · rintro ⟨hb, hc⟩
      rw [h.eq hr hb, (ih hw).mpr hc]

end Canonical

end CppIpc.Lib.Codecs
