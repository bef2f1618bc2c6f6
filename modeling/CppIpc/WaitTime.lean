import CppIpc.Def

/-! # Time-outs of the Linux and of the POSIX waits

`calc_wait_time` of both platforms turns a time-out in milliseconds into a deadline. The
one multiplies in 64 bits and takes a negative product for an invalid time, the other
adds seconds and the rest apart. `time_t` and `long` have 64 bits. -/
namespace CppIpc.WaitTime

/-- The conversion to a signed 64-bit number. -/
def int64 (x : Int) : Int := x.bmod (2 ^ 64)

structure Timespec where
  sec : Int
  nsec : Int
deriving DecidableEq

structure Timeval where
  sec : Int
  usec : Int
deriving DecidableEq

def nsPerSec : Int := 1000000000

def Timespec.ns (ts : Timespec) : Int := ts.sec * nsPerSec + ts.nsec

def Timeval.ns (tv : Timeval) : Int := tv.sec * nsPerSec + tv.usec * 1000

def Timespec.Normal (ts : Timespec) : Prop := 0 ≤ ts.nsec ∧ ts.nsec < nsPerSec

/-- What `gettimeofday` gives. -/
structure Timeval.Normal (tv : Timeval) : Prop where
  sec_ge : -2 ^ 63 ≤ tv.sec
  sec_lt : tv.sec < 2 ^ 63
  usec_ge : 0 ≤ tv.usec
  usec_lt : tv.usec < 1000000

instance (ts : Timespec) : Decidable ts.Normal := inferInstanceAs (Decidable (_ ∧ _))

namespace Linux

/-- `a0_clock_add`; the seconds are taken to be in range. -/
def clockAdd (ts : Timespec) (addNsec : Int) : Timespec :=
  let sec := ts.sec + addNsec.tdiv nsPerSec
  let nsec := ts.nsec + addNsec.tmod nsPerSec
  if nsec ≥ nsPerSec then ⟨sec + 1, nsec - nsPerSec⟩
  else if nsec < 0 then ⟨sec - 1, nsec + nsPerSec⟩
  else ⟨sec, nsec⟩

/-- `add_ns`. -/
def addNs (tm : Nat) : Int := int64 (tm * 1000000 % 2 ^ 64 : Nat)

/-- `calc_wait_time`; `now` is what the clock gave, if it could be read. -/
def calcWaitTime (now : Option Timespec) (tm : Nat) : Option Timespec :=
  if addNs tm < 0 then none
  else now.map fun now => clockAdd now (addNs tm)

end Linux

namespace Posix

/-- `tv_nsec` before the carry. -/
def rawNsec (now : Timeval) (tm : Nat) : Int :=
  int64 ((now.usec + (tm % 1000 * 1000 : Nat)) * 1000 % 2 ^ 64)

/-- `calc_wait_time`; the sum of the seconds is unsigned before it is stored. -/
def calcWaitTime (now : Option Timeval) (tm : Nat) : Option Timespec :=
  now.map fun now =>
    { sec := int64 ((now.sec + (tm / 1000 : Nat) + (rawNsec now tm).tdiv nsPerSec) % 2 ^ 64)
      nsec := (rawNsec now tm).tmod nsPerSec }

end Posix

/-! ## Exactness -/

/-- No deadline, or a normalised one that is `tm` milliseconds after `now`. -/
def Exact (now : Int) (tm : Nat) (deadline : Option Timespec) : Prop :=
  ∀ ts, deadline = some ts → ts.Normal ∧ ts.ns = now + tm * 1000000

theorem int64_of_range {x : Int} (hl : -2 ^ 63 ≤ x) (hu : x < 2 ^ 63) : int64 x = x := by
  unfold int64
  rw [Int.bmod_def]
  split <;> omega

theorem int64_emod (x : Int) : int64 (x % 2 ^ 64) = int64 x := Int.emod_bmod x (2 ^ 64)

section Linux
variable {now : Timespec} {tm : Nat}

/-- `a0_clock_add` adds exactly, and keeps the time normalised. -/
theorem clockAdd_spec (h : now.Normal) (x : Int) :
    (Linux.clockAdd now x).Normal ∧ (Linux.clockAdd now x).ns = now.ns + x := by
  have hpos : 0 < nsPerSec := by decide
  have hdiv := Int.tmod_add_tdiv_mul x nsPerSec
  have hlt := Int.tmod_lt_of_pos x hpos
  have hgt := Int.lt_tmod_of_pos x hpos
  obtain ⟨h0, h1⟩ := h
  unfold Linux.clockAdd
  dsimp only
  split
  · refine ⟨⟨?_, ?_⟩, ?_⟩ <;> simp only [Timespec.ns, nsPerSec] at * <;> omega
  · split
    · refine ⟨⟨?_, ?_⟩, ?_⟩ <;> simp only [Timespec.ns, nsPerSec] at * <;> omega
    · refine ⟨⟨?_, ?_⟩, ?_⟩ <;> simp only [Timespec.ns, nsPerSec] at * <;> omega

/-- The product as a signed number: itself, or what is left of it after the wrap. -/
theorem addNs_cases (tm : Nat) :
    (Linux.addNs tm < 0 ∧ 2 ^ 63 ≤ tm * 1000000 % 2 ^ 64) ∨
      (Linux.addNs tm = (tm * 1000000 % 2 ^ 64 : Nat) ∧ tm * 1000000 % 2 ^ 64 < 2 ^ 63) := by
  unfold Linux.addNs
  have hlt : tm * 1000000 % 2 ^ 64 < 2 ^ 64 := Nat.mod_lt _ (Nat.two_pow_pos 64)
  generalize tm * 1000000 % 2 ^ 64 = n at hlt
  by_cases h63 : n < 2 ^ 63
  · exact .inr ⟨int64_of_range (by omega) (by omega), h63⟩
  · refine .inl ⟨?_, Nat.not_lt.mp h63⟩
    unfold int64
    rw [Int.bmod_def, if_neg (by omega)]
    omega

/-- A product below 2^63 is taken as it is, and one that wraps must be seen to wrap. -/
theorem linux_exact_iff (h : now.Normal) (tm : Nat) :
    Exact now.ns tm (Linux.calcWaitTime (some now) tm) ↔
      tm * 1000000 < 2 ^ 63 ∨ 2 ^ 63 ≤ tm * 1000000 % 2 ^ 64 := by
  unfold Exact Linux.calcWaitTime
  rcases addNs_cases tm with ⟨hneg, hge⟩ | ⟨hadd, hlt⟩
  · rw [if_pos hneg]
    exact iff_of_true (fun ts hts => nomatch hts) (.inr hge)
  · rw [if_neg (by omega)]
    obtain ⟨hnormal, hns⟩ := clockAdd_spec h (Linux.addNs tm)
    rw [hadd] at hnormal hns
    rw [hadd]
    simp only [Option.map_some, Option.some.injEq, forall_eq', hnormal, true_and, hns]
    omega

end Linux

section Posix
variable {now : Timeval} {tm : Nat}

theorem rawNsec_eq (h : now.Normal) (tm : Nat) :
    Posix.rawNsec now tm = (now.usec + (tm % 1000 * 1000 : Nat)) * 1000 := by
  have h0 := h.usec_ge
  have h1 := h.usec_lt
  rw [Posix.rawNsec, int64_emod, int64_of_range (by omega) (by omega)]

/-- The seconds are what they should be as long as they fit in a `time_t`. -/
theorem posix_exact_iff (h : now.Normal) (htm : tm < 2 ^ 64) :
    Exact now.ns tm (Posix.calcWaitTime (some now) tm) ↔
      now.ns + tm * 1000000 < 2 ^ 63 * nsPerSec := by
  have hraw := rawNsec_eq h tm
  obtain ⟨hge, hlt, h0, h1⟩ := h
  have hnonneg : 0 ≤ Posix.rawNsec now tm := by omega
  unfold Exact Posix.calcWaitTime
  simp only [Option.map_some, Option.some.injEq, forall_eq']
  rw [int64_emod, Int.tdiv_eq_ediv_of_nonneg hnonneg, Int.tmod_eq_emod_of_nonneg hnonneg]
  have hx : now.sec + (tm / 1000 : Nat) + Posix.rawNsec now tm / nsPerSec < 2 ^ 63 ∨
      2 ^ 63 ≤ now.sec + (tm / 1000 : Nat) + Posix.rawNsec now tm / nsPerSec := by omega
  simp only [Timespec.Normal, Timespec.ns, Timeval.ns, nsPerSec] at *
  rcases hx with hx | hx
  · rw [int64_of_range (by omega) hx]
    omega
  · have hwrap : int64 (now.sec + (tm / 1000 : Nat) + Posix.rawNsec now tm / 1000000000) < 0 := by
      unfold int64
      rw [Int.bmod_def]
      split <;> omega
    omega

end Posix

/-- **Exact or rejected**: on Linux just when the nanoseconds are below 2^63 or their low
64 bits look negative, on the other platforms just when the deadline still fits in a
`time_t`. Then two calls that both accept ask for the same wait. -/
theorem exact_iff (tm : Nat) (htm : tm < 2 ^ 64) (now : Timespec) (hn : now.Normal)
    (now' : Timeval) (hn' : now'.Normal) :
    (Exact now.ns tm (Linux.calcWaitTime (some now) tm) ↔
      tm * 1000000 < 2 ^ 63 ∨ 2 ^ 63 ≤ tm * 1000000 % 2 ^ 64) ∧
    (Exact now'.ns tm (Posix.calcWaitTime (some now') tm) ↔
      now'.ns + tm * 1000000 < 2 ^ 63 * nsPerSec) ∧
    ((tm * 1000000 < 2 ^ 63 ∨ 2 ^ 63 ≤ tm * 1000000 % 2 ^ 64) →
      now'.ns + tm * 1000000 < 2 ^ 63 * nsPerSec →
      ∀ ts ts', Linux.calcWaitTime (some now) tm = some ts →
        Posix.calcWaitTime (some now') tm = some ts' → ts.ns - now.ns = ts'.ns - now'.ns) := by
  have hl := linux_exact_iff hn tm
  have hp := posix_exact_iff hn' htm
  refine ⟨hl, hp, fun hcl hcp ts ts' hts hts' => ?_⟩
  have hns := (hl.mpr hcl ts hts).2
  have hns' := (hp.mpr hcp ts' hts').2
  omega

theorem exact_second :
    (Exact (Timespec.ns ⟨100, 999999999⟩) 1001 (Linux.calcWaitTime (some ⟨100, 999999999⟩) 1001) ↔
      1001 * 1000000 < 2 ^ 63 ∨ 2 ^ 63 ≤ 1001 * 1000000 % 2 ^ 64) ∧
    (Exact (Timeval.ns ⟨100, 999999⟩) 1001 (Posix.calcWaitTime (some ⟨100, 999999⟩) 1001) ↔
      Timeval.ns ⟨100, 999999⟩ + (1001 : Nat) * 1000000 < 2 ^ 63 * nsPerSec) ∧
    ((1001 * 1000000 < 2 ^ 63 ∨ 2 ^ 63 ≤ 1001 * 1000000 % 2 ^ 64) →
      Timeval.ns ⟨100, 999999⟩ + (1001 : Nat) * 1000000 < 2 ^ 63 * nsPerSec →
      ∀ ts ts', Linux.calcWaitTime (some ⟨100, 999999999⟩) 1001 = some ts →
        Posix.calcWaitTime (some ⟨100, 999999⟩) 1001 = some ts' →
        ts.ns - Timespec.ns ⟨100, 999999999⟩ = ts'.ns - Timeval.ns ⟨100, 999999⟩) :=
  exact_iff 1001 (by decide) ⟨100, 999999999⟩ (by decide) ⟨100, 999999⟩
    ⟨by decide, by decide, by decide, by decide⟩

/-- 584 years: the product wraps to 0.45 milliseconds and is accepted. -/
theorem not_exact_wrapped :
    Linux.calcWaitTime (some ⟨0, 0⟩) 18446744073710 = some ⟨0, 448384⟩ ∧
      ¬ Exact 0 18446744073710 (Linux.calcWaitTime (some ⟨0, 0⟩) 18446744073710) := by
  have hcalc : Linux.calcWaitTime (some ⟨0, 0⟩) 18446744073710 = some ⟨0, 448384⟩ := by
    decide +kernel
  refine ⟨hcalc, fun h => ?_⟩
  have hns := (h _ hcalc).2
  simp [Timespec.ns] at hns

end CppIpc.WaitTime
