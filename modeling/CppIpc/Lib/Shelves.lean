import Mathlib.Data.List.Basic
import Mathlib.Logic.Function.Basic

/-! # Items on shelves

An item is not yet made, or lent out, or lies on one shelf. The operations carry items
from one place to another; a stock with an item in two places cannot be built. -/
namespace CppIpc.Lib.Shelves

variable {W B : Type}

inductive Place (W : Type) where
  | unmade
  | lent
  | on (w : W)
deriving DecidableEq

/-- Where an item of shelf `w` goes when the shelf is carried to `v`. -/
def Place.carry [DecidableEq W] (w v : W) (x : Place W) : Place W :=
  if x = .on w then .on v else x

section Carry
variable [DecidableEq W] {w v u : W} {x : Place W}

@[simp] theorem Place.carry_lent : x.carry w v = .lent ↔ x = .lent := by
  unfold Place.carry
  split
  · rename_i h
    rw [h]
    exact ⟨nofun, nofun⟩
  · rfl

@[simp] theorem Place.carry_unmade : x.carry w v = .unmade ↔ x = .unmade := by
  unfold Place.carry
  split
  · rename_i h
    rw [h]
    exact ⟨nofun, nofun⟩
  · rfl

theorem Place.carry_source (hne : w ≠ v) : x.carry w v ≠ .on w := by
  unfold Place.carry
  split
  · exact fun h => hne (Place.on.inj h).symm
  · assumption

/-- Onto a shelf with nothing on it. -/
theorem Place.carry_target (hv : x ≠ .on v) : x.carry w v = .on v ↔ x = .on w := by
  unfold Place.carry
  split
  · rename_i h
    exact ⟨fun _ => h, fun _ => rfl⟩
  · rename_i h
    exact ⟨fun h' => absurd h' hv, fun h' => absurd h' h⟩

theorem Place.carry_other (hw : u ≠ w) (hv : u ≠ v) : x.carry w v = .on u ↔ x = .on u := by
  unfold Place.carry
  split
  · rename_i h
    rw [h]
    exact ⟨fun h' => absurd (Place.on.inj h').symm hv, fun h' => absurd (Place.on.inj h').symm hw⟩
  · rfl

end Carry

structure Stock (W B : Type) where
  shelf : W → List B
  place : B → Place W
  mem_iff : ∀ w b, b ∈ shelf w ↔ place b = .on w

/-- Nothing made. -/
def Stock.empty (W B : Type) : Stock W B := ⟨fun _ => [], fun _ => .unmade, by simp⟩

variable [DecidableEq W] [DecidableEq B] (σ : Stock W B) {w v : W} {b : B} {l : List B}

/-- All items of a shelf go to an empty one. -/
def Stock.carry (w v : W) (hne : w ≠ v) (hv : σ.shelf v = []) : Stock W B where
  shelf := Function.update (Function.update σ.shelf w []) v (σ.shelf w)
  place b := (σ.place b).carry w v
  mem_iff u b := by
    have hv : σ.place b ≠ .on v := fun h => by
      rw [← σ.mem_iff, hv] at h
      cases h
    by_cases huv : u = v
    · subst huv
      rw [Function.update_self, Place.carry_target hv]
      exact σ.mem_iff w b
    · rw [Function.update_of_ne huv]
      by_cases huw : u = w
      · subst huw
        rw [Function.update_self]
        exact ⟨nofun, fun h => absurd h (Place.carry_source hne)⟩
      · rw [Function.update_of_ne huw, Place.carry_other huw huv]
        exact σ.mem_iff u b

/-- The first item of a shelf is lent out. -/
def Stock.lend (h : σ.shelf w = b :: l) (hb : b ∉ l) : Stock W B where
  shelf := Function.update σ.shelf w l
  place := Function.update σ.place b .lent
  mem_iff u c := by
    have hu := σ.mem_iff u c
    have hw := σ.mem_iff w b
    rw [h] at hw
    have hw := hw.mp List.mem_cons_self
    by_cases hc : c = b
    · subst hc
      rw [Function.update_self]
      by_cases huw : u = w
      · subst huw
        rw [Function.update_self]
        exact ⟨fun h => absurd h hb, nofun⟩
      · rw [Function.update_of_ne huw, hu, hw]
        exact ⟨fun h => absurd (Place.on.inj h).symm huw, nofun⟩
    · rw [Function.update_of_ne hc]
      by_cases huw : u = w
      · subst huw
        rw [Function.update_self, ← hu, h]
        simp [hc]
      · rw [Function.update_of_ne huw, hu]

/-- An item that is lent out comes to the front of a shelf. -/
def Stock.giveBack (w : W) (hb : σ.place b = .lent) : Stock W B where
  shelf := Function.update σ.shelf w (b :: σ.shelf w)
  place := Function.update σ.place b (.on w)
  mem_iff u c := by
    have hu := σ.mem_iff u c
    by_cases huw : u = w
    · subst huw
      rw [Function.update_self]
      by_cases hc : c = b
      · subst hc
        simp
      · rw [Function.update_of_ne hc, ← hu]
        simp [hc]
    · rw [Function.update_of_ne huw, hu]
      by_cases hc : c = b
      · subst hc
        rw [Function.update_self, hb]
        exact ⟨nofun, fun h => absurd (Place.on.inj h).symm huw⟩
      · rw [Function.update_of_ne hc]

/-- New items on an empty shelf. -/
def Stock.make (w : W) (l : List B) (hw : σ.shelf w = []) (hl : ∀ b ∈ l, σ.place b = .unmade) :
    Stock W B where
  shelf := Function.update σ.shelf w l
  place b := if b ∈ l then .on w else σ.place b
  mem_iff u c := by
    have hu := σ.mem_iff u c
    by_cases huw : u = w
    · subst huw
      rw [Function.update_self]
      rw [hw] at hu
      split
      · rename_i hc
        exact ⟨fun _ => rfl, fun _ => hc⟩
      · rename_i hc
        exact ⟨fun h => absurd h hc, fun h => absurd (hu.mpr h) nofun⟩
    · rw [Function.update_of_ne huw, hu]
      split
      · rename_i hc
        rw [hl c hc]
        exact ⟨nofun, fun h => absurd (Place.on.inj h).symm huw⟩
      · rfl

section Places
variable {σ}

omit [DecidableEq B] in
theorem carry_shelf {hne : w ≠ v} {hv : σ.shelf v = []} (u : W) :
    (σ.carry w v hne hv).shelf u =
      if u = v then σ.shelf w else if u = w then [] else σ.shelf u := by
  simp only [Stock.carry, Function.update_apply]

omit [DecidableEq B] in
theorem carry_lent {hne : w ≠ v} {hv : σ.shelf v = []} :
    (σ.carry w v hne hv).place b = .lent ↔ σ.place b = .lent := Place.carry_lent

omit [DecidableEq B] in
theorem carry_unmade {hne : w ≠ v} {hv : σ.shelf v = []} :
    (σ.carry w v hne hv).place b = .unmade ↔ σ.place b = .unmade := Place.carry_unmade

theorem make_lent {hw : σ.shelf w = []} {hl : ∀ b ∈ l, σ.place b = .unmade} :
    (σ.make w l hw hl).place b = .lent ↔ σ.place b = .lent := by
  simp only [Stock.make]
  split
  · rename_i h
    rw [hl b h]
    exact ⟨nofun, nofun⟩
  · rfl

theorem make_unmade {hw : σ.shelf w = []} {hl : ∀ b ∈ l, σ.place b = .unmade} :
    (σ.make w l hw hl).place b = .unmade ↔ σ.place b = .unmade ∧ b ∉ l := by
  simp only [Stock.make]
  split
  · rename_i h
    exact ⟨nofun, fun h' => absurd h h'.2⟩
  · rename_i h
    exact ⟨fun h' => ⟨h', h⟩, And.left⟩

end Places

end CppIpc.Lib.Shelves
