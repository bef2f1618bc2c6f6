import CppIpc.Def
import CppIpc.Lib.Logs
import CppIpc.Lib.Runs
import CppIpc.Lib.Window
import Mathlib.Logic.Function.Basic

/-! # `prod_cons_impl<multi, multi, unicast>`, access by access

Any number of threads running `push` and `pop`. A producer claims an index of `ct_`,
writes the slot and stores the complemented index in its commit flag; whoever
exchanges that flag for 0 moves `wt_`, be it a producer or a consumer. Each step is
one atomic access or one access to the data of a slot. -/
namespace CppIpc.MultiUnicast
open CppIpc.Def
open CppIpc.Lib.Runs (run)
open CppIpc.Lib.Logs

/-! ## The machine -/

/-- A thread between two calls, or before the named access of `push` or `pop`. -/
inductive Pc (α : Type) where
  | idle
  | loadCt (x : α)
  | loadRd (x : α) (curCt : U2)
  | casCt (x : α) (curCt : U2)
  | writeData (x : α) (curCt : U2)
  | storeFlag (curCt : U2)
  | loadFlag (curCt : U2)
  | loadWt (curCt : U2) (cacCt : BitVec 64)
  | casFlag (curCt : U2) (cacCt : BitVec 64)
  | storeWt (curCt : U2)
  | popLoadRd
  | popLoadWt (curRd : U2)
  | popLoadFlag (curWt : U2)
  | popCasFlag (curWt : U2) (cacCt : BitVec 64)
  | popStoreWt (curWt : U2)
  | popCopy (curRd : U2)
  | popCasRd (curRd : U2) (buff : α)

/-- The queue and the threads, with the history: the indices claimed by `push` and by
`pop`, each with the value given or returned, the indices whose data is written, and
the indices whose flag was exchanged, each with the thread that did it. -/
structure St (α : Type) where
  elems : BitVec 8 → α
  flag : BitVec 8 → BitVec 64
  rd : U2
  wt : U2
  ct : U2
  pc : Nat → Pc α
  pushed : List (U2 × α)
  popped : List (U2 × α)
  written : List U2
  wins : List (U2 × Nat)

/-- A call begins, a thread makes its next access, or its weak exchange fails although
the value is the expected one. -/
inductive Act (α : Type) where
  | push (τ : Nat) (x : α)
  | pop (τ : Nat)
  | access (τ : Nat)
  | spurious (τ : Nat)

variable {α : Type}

def Act.thread : Act α → Nat
  | .push τ _ | .pop τ | .access τ | .spurious τ => τ

/-- Zero-filled memory; `elems` is what the slots hold at first. -/
def St.init (elems : BitVec 8 → α) : St α where
  elems := elems
  flag := fun _ => 0
  rd := 0
  wt := 0
  ct := 0
  pc := fun _ => .idle
  pushed := []
  popped := []
  written := []
  wins := []

def St.setPc (s : St α) (τ : Nat) (p : Pc α) : St α := { s with pc := Function.update s.pc τ p }

/-- `~static_cast<flag_t>(cur_ct)`. -/
def commit (c : U2) : BitVec 64 := ~~~(c.setWidth 64)

/-- The successful `ct_.compare_exchange_weak`. -/
def St.claimCt (s : St α) (c : U2) (x : α) : St α :=
  { s with ct := c + 1, pushed := s.pushed ++ [(c, x)] }

def St.write (s : St α) (c : U2) (x : α) : St α :=
  { s with elems := Function.update s.elems (indexOf c) x, written := s.written ++ [c] }

def St.setFlag (s : St α) (c : U2) : St α :=
  { s with flag := Function.update s.flag (indexOf c) (commit c) }

/-- The successful exchange of the commit flag. -/
def St.win (s : St α) (c : U2) (τ : Nat) : St α :=
  { s with flag := Function.update s.flag (indexOf c) 0, wins := s.wins ++ [(c, τ)] }

/-- The successful `rd_.compare_exchange_weak`. -/
def St.claimRd (s : St α) (r : U2) (x : α) : St α :=
  { s with rd := r + 1, popped := s.popped ++ [(r, x)] }

def access (s : St α) (τ : Nat) : Option (St α) :=
  match s.pc τ with
  | .idle => none
  | .loadCt x => some (s.setPc τ (.loadRd x s.ct))
  | .loadRd x curCt =>
    some (s.setPc τ (if indexOf (curCt + 1) = indexOf s.rd then .idle else .casCt x curCt))
  | .casCt x curCt =>
    if s.ct = curCt then some ((s.claimCt curCt x).setPc τ (.writeData x curCt))
    else some (s.setPc τ (.loadCt x))
  | .writeData x curCt => some ((s.write curCt x).setPc τ (.storeFlag curCt))
  | .storeFlag curCt => some ((s.setFlag curCt).setPc τ (.loadFlag curCt))
  | .loadFlag curCt => some (s.setPc τ (.loadWt curCt (s.flag (indexOf curCt))))
  | .loadWt curCt cacCt =>
    some (s.setPc τ (if curCt ≠ s.wt ∨ ~~~cacCt ≠ curCt.setWidth 64 then .idle
      else .casFlag curCt cacCt))
  | .casFlag curCt cacCt =>
    if s.flag (indexOf curCt) = cacCt then some ((s.win curCt τ).setPc τ (.storeWt curCt))
    else some (s.setPc τ .idle)
  | .storeWt curCt => some ({ s with wt := curCt + 1 }.setPc τ (.loadFlag (curCt + 1)))
  | .popLoadRd => some (s.setPc τ (.popLoadWt s.rd))
  | .popLoadWt curRd =>
    some (s.setPc τ (if indexOf curRd = indexOf s.wt then .popLoadFlag s.wt else .popCopy curRd))
  | .popLoadFlag curWt =>
    some (s.setPc τ (if ~~~(s.flag (indexOf curWt)) ≠ curWt.setWidth 64 then .idle
      else .popCasFlag curWt (s.flag (indexOf curWt))))
  | .popCasFlag curWt cacCt =>
    if s.flag (indexOf curWt) = cacCt then some ((s.win curWt τ).setPc τ (.popStoreWt curWt))
    else some (s.setPc τ .popLoadRd)
  | .popStoreWt curWt => some ({ s with wt := curWt + 1 }.setPc τ .popLoadRd)
  | .popCopy curRd => some (s.setPc τ (.popCasRd curRd (s.elems (indexOf curRd))))
  | .popCasRd curRd buff =>
    if s.rd = curRd then some ((s.claimRd curRd buff).setPc τ .idle)
    else some (s.setPc τ .popLoadRd)

/-- Only the exchanges of `ct_`, of `rd_` and of the flag in `pop` are weak. -/
def spurious (s : St α) (τ : Nat) : Option (St α) :=
  match s.pc τ with
  | .casCt x _ => some (s.setPc τ (.loadCt x))
  | .popCasFlag _ _ | .popCasRd _ _ => some (s.setPc τ .popLoadRd)
  | _ => none

def step (s : St α) : Act α → Option (St α)
  | .push τ x => match s.pc τ with
    | .idle => some (s.setPc τ (.loadCt x))
    | _ => none
  | .pop τ => match s.pc τ with
    | .idle => some (s.setPc τ .popLoadRd)
    | _ => none
  | .access τ => access s τ
  | .spurious τ => spurious s τ

/-! ## Exactly once -/

/-- The order of the indices, and what has been delivered. -/
structure Once (s : St α) : Prop where
  order : s.rd ≤ s.wt ∧ s.wt ≤ s.ct ∧ s.ct.toNat ≤ s.rd.toNat + 255
  /-- The data of every index that `wt_` has passed is written. -/
  written : ∀ i, i < s.wt → i ∈ s.written
  /-- The claims of `push` are consecutive, and there are as many as `ct_` says. -/
  claims : s.ct.toNat = s.pushed.length ∧ ∀ k e, s.pushed[k]? = some e → e.1 = BitVec.ofNat 32 k
  /-- The pops claim the indices of the pushes in order, each one with the value that
  was pushed there. -/
  popped : s.popped <+: s.pushed ∧ s.rd.toNat = s.popped.length
  /-- Each flag is won once, in the order of the indices. -/
  wins : ∀ k e, s.wins[k]? = some e → e.1 = BitVec.ofNat 32 k
  /-- Whoever moves `wt_` has won the flag of the index it moves from. -/
  moves : ∀ a t, step s a = some t → t.wt ≠ s.wt →
    t.wt.toNat = s.wt.toNat + 1 ∧ (s.wt, a.thread) ∈ s.wins

/-! ## The invariant -/

/-- The index that a producer has claimed and not yet flagged. -/
def Pc.pending : Pc α → Option U2
  | .writeData _ c | .storeFlag c => some c
  | _ => none

/-- The index that a thread has won and from which it is to move `wt_`. -/
def Pc.moving : Pc α → Option U2
  | .storeWt c | .popStoreWt c => some c
  | _ => none

/-- What thread `τ` knows. -/
def PcOk (s : St α) (τ : Nat) : Pc α → Prop
  | .loadRd _ c => c.toNat ≤ s.pushed.length
  | .casCt _ c => c.toNat ≤ s.pushed.length ∧
    (c.toNat = s.pushed.length → s.pushed.length + 1 ≤ s.popped.length + 255)
  | .writeData x c => s.wins.length ≤ c.toNat ∧ s.pushed[c.toNat]? = some (c, x)
  | .storeFlag c => s.wins.length ≤ c.toNat ∧ c ∈ s.written
  | .casFlag c cac | .popCasFlag c cac => cac = commit c ∧ c.toNat ≤ s.wt.toNat
  | .storeWt c | .popStoreWt c => c = s.wt ∧ s.wins[s.wt.toNat]? = some (c, τ)
  | .popLoadWt r => r.toNat ≤ s.popped.length
  | .popLoadFlag w => w.toNat ≤ s.wt.toNat
  | .popCopy r => r.toNat ≤ s.popped.length ∧
    (r.toNat = s.popped.length → s.popped.length < s.wt.toNat)
  | .popCasRd r x => r.toNat ≤ s.popped.length ∧
    (r.toNat = s.popped.length → s.popped.length < s.wt.toNat ∧
      s.pushed[s.popped.length]? = some (r, x))
  | _ => True

/-- A flag is 0 or holds an index that is written and not won. -/
def FlagOk (s : St α) (σ : BitVec 8) : Prop :=
  s.flag σ = 0 ∨ ∃ c, s.flag σ = commit c ∧ indexOf c = σ ∧
    s.wins.length ≤ c.toNat ∧ c ∈ s.written ∧ ∀ τ, (s.pc τ).pending ≠ some c

structure Inv (s : St α) : Prop where
  rd : s.rd = BitVec.ofNat 32 s.popped.length
  ct : s.ct = BitVec.ofNat 32 s.pushed.length
  read : s.popped.length ≤ s.wt.toNat
  moved : s.wt.toNat ≤ s.wins.length
  won : s.wins.length ≤ s.pushed.length
  room : s.pushed.length ≤ s.popped.length + 255
  pushedAt : ∀ k e, s.pushed[k]? = some e → e.1 = BitVec.ofNat 32 k
  winsAt : ∀ k e, s.wins[k]? = some e → e.1 = BitVec.ofNat 32 k
  inOrder : s.popped <+: s.pushed
  written : ∀ k < s.wins.length, BitVec.ofNat 32 k ∈ s.written
  claimed : ∀ c ∈ s.written, c.toNat < s.pushed.length
  data : ∀ c ∈ s.written, s.popped.length ≤ c.toNat → ∀ e, s.pushed[c.toNat]? = some e →
    s.elems (indexOf c) = e.2
  flags : ∀ σ, FlagOk s σ
  one : ∀ τ τ' c, (s.pc τ).pending = some c → (s.pc τ').pending = some c → τ = τ'
  pcs : ∀ τ, PcOk s τ (s.pc τ)

theorem init_inv (elems : BitVec 8 → α) : Inv (St.init elems) where
  rd := rfl
  ct := rfl
  read := Nat.le_refl _
  moved := Nat.le_refl _
  won := Nat.le_refl _
  room := Nat.zero_le _
  pushedAt := fun _ _ h => by cases h
  winsAt := fun _ _ h => by cases h
  inOrder := List.prefix_refl _
  written := fun _ h => by cases h
  claimed := fun _ h => by cases h
  data := fun _ h => by cases h
  flags := fun _ => .inl rfl
  one := fun _ _ _ h => by cases h
  pcs := fun _ => trivial

section Steps
variable {s t : St α} {τ : Nat} {x : α} {c : U2}

@[simp] theorem setPc_self (s : St α) (τ : Nat) (p : Pc α) : (s.setPc τ p).pc τ = p :=
  Function.update_self ..

@[simp] theorem setPc_of_ne {τ' : Nat} (h : τ' ≠ τ) (s : St α) (p : Pc α) :
    (s.setPc τ p).pc τ' = s.pc τ' := Function.update_of_ne h _ _

theorem commit_ne_zero (c : U2) : commit c ≠ 0 := by
  intro h
  have hw : c.setWidth 64 = ~~~(0 : BitVec 64) := by rw [← h, commit, BitVec.not_not]
  have := congrArg BitVec.toNat hw
  rw [BitVec.toNat_setWidth_of_le (by decide)] at this
  have hlt := c.isLt
  have : c.toNat = 2 ^ 64 - 1 := this
  omega

theorem commit_inj {c d : U2} (h : commit c = commit d) : c = d := by
  have hw : c.setWidth 64 = d.setWidth 64 := by
    rw [← @BitVec.not_not 64 (c.setWidth 64), ← @BitVec.not_not 64 (d.setWidth 64)]
    exact congrArg _ h
  have := congrArg BitVec.toNat hw
  rw [BitVec.toNat_setWidth_of_le (by decide), BitVec.toNat_setWidth_of_le (by decide)] at this
  exact BitVec.eq_of_toNat_eq this

theorem eq_commit {c : U2} {cac : BitVec 64} (h : ~~~cac = c.setWidth 64) : cac = commit c := by
  rw [commit, ← h, BitVec.not_not]

theorem toNat_ofNat_of_lt {n : Nat} (h : n < 2 ^ 32) : (BitVec.ofNat 32 n).toNat = n := by
  rw [BitVec.toNat_ofNat, Nat.mod_eq_of_lt h]

/-- Indices of one lap share no slot. -/
theorem eq_of_indexOf_eq {c d : U2} (h : indexOf c = indexOf d) (hcd : c.toNat < d.toNat + 256)
    (hdc : d.toNat < c.toNat + 256) : c = d := by
  apply BitVec.eq_of_toNat_eq
  have hm := congrArg BitVec.toNat h
  rw [indexOf_toNat, indexOf_toNat] at hm
  omega

/-- What a thread knows stays true while the others move on, as long as nobody wins
the index it is at or moves `wt_` in its place. -/
theorem PcOk.mono {p : Pc α} (h : PcOk s τ p) (hread : s.popped.length ≤ t.popped.length)
    (hwt : s.wt.toNat ≤ t.wt.toNat) (hpushed : s.pushed <+: t.pushed)
    (hwins : s.wins <+: t.wins) (hwritten : ∀ c ∈ s.written, c ∈ t.written)
    (hpend : ∀ c, p.pending = some c → t.wins.length ≤ c.toNat)
    (hmove : ∀ c, p.moving = some c → t.wt = s.wt) : PcOk t τ p := by
  have hlen := hpushed.length_le
  cases p with
  | idle | loadCt | loadFlag | loadWt | popLoadRd => trivial
  | loadRd x c => exact Nat.le_trans h hlen
  | casCt x c =>
    refine ⟨Nat.le_trans h.1 hlen, fun he => ?_⟩
    have hle := h.1
    have := h.2 (by omega)
    omega
  | writeData x c => exact ⟨hpend c rfl, getElem?_of_prefix hpushed h.2⟩
  | storeFlag c => exact ⟨hpend c rfl, hwritten c h.2⟩
  | casFlag c cac | popCasFlag c cac => exact ⟨h.1, Nat.le_trans h.2 hwt⟩
  | storeWt c | popStoreWt c =>
    have he := hmove c rfl
    exact ⟨by rw [he]; exact h.1, by rw [he]; exact getElem?_of_prefix hwins h.2⟩
  | popLoadWt r => exact Nat.le_trans h hread
  | popLoadFlag w => exact Nat.le_trans h hwt
  | popCopy r =>
    refine ⟨Nat.le_trans h.1 hread, fun he => ?_⟩
    have hle := h.1
    have := h.2 (by omega)
    omega
  | popCasRd r x =>
    refine ⟨Nat.le_trans h.1 hread, fun he => ?_⟩
    have hle := h.1
    have heq : r.toNat = s.popped.length := by omega
    obtain ⟨hlt, hx⟩ := h.2 heq
    rw [← he, heq]
    exact ⟨by omega, getElem?_of_prefix hpushed hx⟩

/-! ## Each access keeps it -/

theorem forall_setPc {P : Nat → Pc α → Prop} {p : Pc α} (hself : P τ p)
    (hother : ∀ τ', τ' ≠ τ → P τ' (s.pc τ')) (τ' : Nat) : P τ' ((s.setPc τ p).pc τ') := by
  by_cases h : τ' = τ
  · subst h; simpa using hself
  · simpa [h] using hother τ' h

/-- Nobody else has pending what a thread gives up or keeps. -/
theorem pending_setPc {p : Pc α} {τ' : Nat} (hp : p.pending = none ∨ p.pending = (s.pc τ).pending)
    (h : ((s.setPc τ p).pc τ').pending = some c) : (s.pc τ').pending = some c := by
  by_cases ht : τ' = τ
  · subst ht
    rw [setPc_self] at h
    rcases hp with hp | hp
    · rw [hp] at h; cases h
    · rwa [hp] at h
  · rwa [setPc_of_ne ht] at h

theorem Inv.flags_setPc (hi : Inv s) {p : Pc α}
    (hp : p.pending = none ∨ p.pending = (s.pc τ).pending) (σ : BitVec 8) :
    FlagOk (s.setPc τ p) σ := by
  rcases hi.flags σ with h0 | ⟨c, hc, hσ, hw, hm, hfree⟩
  · exact .inl h0
  · exact .inr ⟨c, hc, hσ, hw, hm, fun τ' h => hfree τ' (pending_setPc hp h)⟩

theorem Inv.one_setPc (hi : Inv s) {p : Pc α}
    (hp : p.pending = none ∨ p.pending = (s.pc τ).pending) (τ₁ τ₂ : Nat) (c : U2)
    (h₁ : ((s.setPc τ p).pc τ₁).pending = some c) (h₂ : ((s.setPc τ p).pc τ₂).pending = some c) :
    τ₁ = τ₂ := hi.one τ₁ τ₂ c (pending_setPc hp h₁) (pending_setPc hp h₂)

/-- An access that changes no memory. -/
theorem Inv.setPc (hi : Inv s) {p : Pc α} (hp : PcOk s τ p) (hpend : p.pending = none) :
    Inv (s.setPc τ p) :=
  { hi with
    flags := hi.flags_setPc (.inl hpend)
    one := hi.one_setPc (.inl hpend)
    pcs := forall_setPc (P := PcOk s) hp fun τ' _ => hi.pcs τ' }

/-- A claimed index. -/
theorem Inv.pending_lt (hi : Inv s) {τ' : Nat} (h : (s.pc τ').pending = some c) :
    s.wins.length ≤ c.toNat ∧ c.toNat < s.pushed.length := by
  have hok := hi.pcs τ'
  cases hpc : s.pc τ' with
  | writeData x d =>
    rw [hpc] at h hok
    obtain rfl := Option.some.inj h
    exact ⟨hok.1, (List.getElem?_eq_some_iff.mp hok.2).1⟩
  | storeFlag d =>
    rw [hpc] at h hok
    obtain rfl := Option.some.inj h
    exact ⟨hok.1, hi.claimed _ hok.2⟩
  | _ => rw [hpc] at h; cases h

theorem Inv.claimCt (hi : Inv s) (hn : s.pushed.length < 2 ^ 32) (hpc : s.pc τ = .casCt x c)
    (hc : s.ct = c) : Inv ((s.claimCt c x).setPc τ (.writeData x c)) := by
  have hok := hi.pcs τ
  rw [hpc] at hok
  have hcn : c.toNat = s.pushed.length := by rw [← hc, hi.ct, toNat_ofNat_of_lt hn]
  have hroom := hok.2 hcn
  have hwon := hi.won
  have hpre : s.pushed <+: (s.claimCt c x).pushed := List.prefix_append _ _
  have hlen : (s.claimCt c x).pushed.length = s.pushed.length + 1 := by simp [St.claimCt]
  have hnew : ∀ τ', τ' ≠ τ → (s.pc τ').pending ≠ some c := by
    intro τ' _ h
    have := (hi.pending_lt h).2
    omega
  have hcase : ∀ {τ' d}, (((s.claimCt c x).setPc τ (.writeData x c)).pc τ').pending = some d →
      (τ' = τ ∧ d = c) ∨ (τ' ≠ τ ∧ (s.pc τ').pending = some d) := by
    intro τ' d h
    by_cases ht : τ' = τ
    · subst ht
      rw [setPc_self] at h
      exact .inl ⟨rfl, (Option.some.inj h).symm⟩
    · rw [setPc_of_ne ht] at h
      exact .inr ⟨ht, h⟩
  refine { hi with
    ct := ?_, won := ?_, room := ?_, pushedAt := ?_, inOrder := hi.inOrder.trans hpre
    claimed := ?_, data := ?_, flags := ?_, one := ?_, pcs := ?_ }
  · show c + 1 = BitVec.ofNat 32 (s.claimCt c x).pushed.length
    rw [hlen, ← hc, hi.ct, ofNat_add_one]
  · exact Nat.le_trans hwon hpre.length_le
  · show (s.claimCt c x).pushed.length ≤ s.popped.length + 255
    omega
  · intro k e he
    rcases getElem?_snoc_cases he with he | ⟨rfl, rfl⟩
    · exact hi.pushedAt k e he
    · rw [← hc, hi.ct]
  · intro d hd
    exact Nat.lt_of_lt_of_le (hi.claimed d hd) hpre.length_le
  · intro d hd hr e he
    have hlt := hi.claimed d hd
    rcases getElem?_snoc_cases he with he | ⟨hk, _⟩
    · exact hi.data d hd hr e he
    · omega
  · intro σ
    rcases hi.flags σ with h0 | ⟨d, hd, hσ, hw, hm, hfree⟩
    · exact .inl h0
    · refine .inr ⟨d, hd, hσ, hw, hm, fun τ' h => ?_⟩
      obtain ⟨_, rfl⟩ | ⟨_, h⟩ := hcase h
      · have := hi.claimed d hm
        omega
      · exact hfree τ' h
  · intro τ₁ τ₂ d h₁ h₂
    obtain ⟨he₁, hd₁⟩ | ⟨ht₁, hp₁⟩ := hcase h₁
    · obtain ⟨he₂, -⟩ | ⟨ht₂, hp₂⟩ := hcase h₂
      · rw [he₁, he₂]
      · exact absurd (hd₁ ▸ hp₂) (hnew τ₂ ht₂)
    · obtain ⟨-, hd₂⟩ | ⟨-, hp₂⟩ := hcase h₂
      · exact absurd (hd₂ ▸ hp₁) (hnew τ₁ ht₁)
      · exact hi.one τ₁ τ₂ d hp₁ hp₂
  · refine forall_setPc (P := PcOk (s.claimCt c x)) ⟨?_, ?_⟩ fun τ' _ => ?_
    · show s.wins.length ≤ c.toNat
      omega
    · rw [hcn]
      exact List.getElem?_concat_length
    · exact (hi.pcs τ').mono (Nat.le_refl _) (Nat.le_refl _) hpre (List.prefix_refl _)
        (fun _ h => h) (fun d h => (hi.pending_lt h).1) fun _ _ => rfl

/-- The slot of an index that is being written holds no other index that is not read. -/
theorem Inv.write (hi : Inv s) (hpc : s.pc τ = .writeData x c) :
    Inv ((s.write c x).setPc τ (.storeFlag c)) := by
  have hok := hi.pcs τ
  rw [hpc] at hok
  obtain ⟨hwon, hc⟩ := hok
  have hlt : c.toNat < s.pushed.length := (List.getElem?_eq_some_iff.mp hc).1
  have hpend : (Pc.storeFlag c : Pc α).pending = (s.pc τ).pending := by rw [hpc]; rfl
  have hmem : ∀ d ∈ s.written, d ∈ (s.write c x).written := fun d hd => List.mem_append_left _ hd
  refine { hi with
    written := fun k hk => hmem _ (hi.written k hk), claimed := ?_, data := ?_, flags := ?_
    one := hi.one_setPc (.inr hpend), pcs := ?_ }
  · intro d hd
    rcases List.mem_append.mp hd with hd | hd
    · exact hi.claimed d hd
    · rw [List.mem_singleton.mp hd]; exact hlt
  · intro d hd hr e he
    show Function.update s.elems (indexOf c) x (indexOf d) = e.2
    by_cases hs : indexOf d = indexOf c
    · have hdlt : d.toNat < s.pushed.length := (List.getElem?_eq_some_iff.mp he).1
      have h₁ := hi.room
      have h₂ := hi.read
      have h₃ := hi.moved
      have hr : s.popped.length ≤ d.toNat := hr
      obtain rfl := eq_of_indexOf_eq hs (by omega) (by omega)
      obtain rfl := Option.some.inj (hc.symm.trans he)
      exact Function.update_self ..
    · rw [Function.update_of_ne hs]
      rcases List.mem_append.mp hd with hd | hd
      · exact hi.data d hd hr e he
      · exact absurd (congrArg indexOf (List.mem_singleton.mp hd)) hs
  · intro σ
    rcases hi.flags_setPc (.inr hpend) σ with h0 | ⟨d, hd, hσ, hw, hm, hfree⟩
    · exact .inl h0
    · exact .inr ⟨d, hd, hσ, hw, hmem d hm, hfree⟩
  · refine forall_setPc (P := PcOk (s.write c x)) ⟨hwon, List.mem_append_right _ (by simp)⟩
      fun τ' _ => ?_
    exact (hi.pcs τ').mono (Nat.le_refl _) (Nat.le_refl _) (List.prefix_refl _)
      (List.prefix_refl _) hmem (fun d h => (hi.pending_lt h).1) fun _ _ => rfl

theorem Inv.setFlag (hi : Inv s) (hpc : s.pc τ = .storeFlag c) :
    Inv ((s.setFlag c).setPc τ (.loadFlag c)) := by
  have hok := hi.pcs τ
  rw [hpc] at hok
  refine { hi with
    flags := fun σ => ?_, one := hi.one_setPc (.inl rfl)
    pcs := forall_setPc (P := PcOk (s.setFlag c)) trivial fun τ' _ => hi.pcs τ' }
  by_cases hσ : σ = indexOf c
  · subst hσ
    refine .inr ⟨c, Function.update_self .., rfl, hok.1, hok.2, fun τ' h => ?_⟩
    -- the producer of the index was the only one, and it is past the store
    have ht : τ' = τ := hi.one τ' τ c (pending_setPc (s := s) (.inl rfl) h) (by rw [hpc]; rfl)
    rw [ht, setPc_self] at h
    cases h
  · rw [FlagOk, show ((s.setFlag c).setPc τ (.loadFlag c)).flag σ = s.flag σ from
      Function.update_of_ne hσ _ _]
    exact hi.flags_setPc (.inl rfl) σ

/-- A flag that holds its index has not been won: everything below it has. -/
theorem Inv.flagged (hi : Inv s) (hf : s.flag (indexOf c) = commit c)
    (hc : c.toNat ≤ s.wt.toNat) :
    c = s.wt ∧ s.wins.length = s.wt.toNat ∧ c ∈ s.written ∧ ∀ τ, (s.pc τ).pending ≠ some c := by
  rcases hi.flags (indexOf c) with h0 | ⟨d, hd, -, hw, hm, hfree⟩
  · exact absurd (hf.symm.trans h0) (commit_ne_zero c)
  · obtain rfl := commit_inj (hf.symm.trans hd)
    have hmoved := hi.moved
    exact ⟨BitVec.eq_of_toNat_eq (by omega), by omega, hm, hfree⟩

/-- The exchange of the flag, by a producer or a consumer that then stores `wt_`. -/
theorem Inv.win (hi : Inv s) {p : Pc α} (hp : p = .storeWt c ∨ p = .popStoreWt c)
    (hf : s.flag (indexOf c) = commit c) (hc : c.toNat ≤ s.wt.toNat) :
    Inv ((s.win c τ).setPc τ p) := by
  obtain ⟨hwt, hlen, hm, hfree⟩ := hi.flagged hf hc
  have hclaim := hi.claimed c hm
  have hpend : p.pending = none := by rcases hp with rfl | rfl <;> rfl
  have hpre : s.wins <+: (s.win c τ).wins := List.prefix_append _ _
  have hnext : (s.win c τ).wins.length = s.wins.length + 1 := by simp [St.win]
  -- no other index that is pending or flagged is the one just won
  have hgt : ∀ d : U2, s.wins.length ≤ d.toNat → d ≠ c → (s.win c τ).wins.length ≤ d.toNat := by
    intro d hle hne
    have : d.toNat ≠ c.toNat := fun he => hne (BitVec.eq_of_toNat_eq he)
    rw [hnext]
    have : c.toNat = s.wt.toNat := by rw [hwt]
    omega
  refine { hi with
    moved := Nat.le_trans hi.moved hpre.length_le, won := ?_, winsAt := ?_, written := ?_
    flags := ?_, one := hi.one_setPc (.inl hpend), pcs := ?_ }
  · show (s.win c τ).wins.length ≤ s.pushed.length
    have : c.toNat = s.wt.toNat := by rw [hwt]
    omega
  · intro k e he
    rcases getElem?_snoc_cases he with he | ⟨rfl, rfl⟩
    · exact hi.winsAt k e he
    · show c = BitVec.ofNat 32 s.wins.length
      rw [hlen, hwt, BitVec.ofNat_toNat, BitVec.setWidth_eq]
  · intro k hk
    have hk : k < (s.win c τ).wins.length := hk
    by_cases he : k = s.wins.length
    · rw [he, hlen, BitVec.ofNat_toNat, BitVec.setWidth_eq, ← hwt]
      exact hm
    · exact hi.written k (by omega)
  · intro σ
    by_cases hσ : σ = indexOf c
    · rw [hσ]
      exact .inl (Function.update_self ..)
    · rw [FlagOk, show ((s.win c τ).setPc τ p).flag σ = s.flag σ from Function.update_of_ne hσ _ _]
      rcases hi.flags_setPc (.inl hpend) σ with h0 | ⟨d, hd, hs, hw, hmd, hfd⟩
      · exact .inl h0
      · exact .inr ⟨d, hd, hs, hgt d hw fun he => hσ (by rw [← hs, he]), hmd, hfd⟩
  · have hself : c = s.wt ∧ (s.wins ++ [(c, τ)])[s.wt.toNat]? = some (c, τ) := by
      rw [← hlen]
      exact ⟨hwt, List.getElem?_concat_length⟩
    refine forall_setPc (P := PcOk (s.win c τ)) ?_ fun τ' _ => ?_
    · rcases hp with rfl | rfl
      · exact hself
      · exact hself
    · exact (hi.pcs τ').mono (Nat.le_refl _) (Nat.le_refl _) (List.prefix_refl _) hpre
        (fun _ h => h)
        (fun d h => hgt d (hi.pending_lt h).1 fun he => hfree τ' (he ▸ h)) fun _ _ => rfl

/-- The winner is alone between its exchange and its store. -/
theorem Inv.moving_eq (hi : Inv s) {τ' : Nat} (hc : s.wins[s.wt.toNat]? = some (c, τ)) {d : U2}
    (h : (s.pc τ').moving = some d) : τ' = τ := by
  have hok := hi.pcs τ'
  cases hpc : s.pc τ' with
  | storeWt e | popStoreWt e =>
    rw [hpc] at hok
    have := Option.some.inj (hok.2.symm.trans hc)
    exact (Prod.mk.inj this).2
  | _ => rw [hpc] at h; cases h

theorem wt_succ (hi : Inv s) (hn : s.pushed.length < 2 ^ 32)
    (hc : s.wins[s.wt.toNat]? = some (c, τ)) : (s.wt + 1).toNat = s.wt.toNat + 1 := by
  have hlt := (List.getElem?_eq_some_iff.mp hc).1
  have hwon := hi.won
  rw [BitVec.toNat_add_of_lt (by show s.wt.toNat + 1 < 2 ^ 32; omega)]
  rfl

theorem Inv.moveWt (hi : Inv s) {p : Pc α} (hn : s.pushed.length < 2 ^ 32)
    (hp : p = .loadFlag (s.wt + 1) ∨ p = .popLoadRd)
    (hc : s.wins[s.wt.toNat]? = some (c, τ)) : Inv ({ s with wt := s.wt + 1 }.setPc τ p) := by
  have hsucc := wt_succ hi hn hc
  have hlt := (List.getElem?_eq_some_iff.mp hc).1
  have hpend : p.pending = none := by rcases hp with rfl | rfl <;> rfl
  refine { hi with
    read := ?_, moved := ?_, flags := hi.flags_setPc (.inl hpend)
    one := hi.one_setPc (.inl hpend), pcs := ?_ }
  · show s.popped.length ≤ (s.wt + 1).toNat
    have := hi.read
    omega
  · show (s.wt + 1).toNat ≤ s.wins.length
    omega
  · refine forall_setPc (P := PcOk { s with wt := s.wt + 1 }) ?_ fun τ' hne => ?_
    · rcases hp with rfl | rfl <;> trivial
    · exact (hi.pcs τ').mono (Nat.le_refl _) (by show s.wt.toNat ≤ (s.wt + 1).toNat; omega)
        (List.prefix_refl _) (List.prefix_refl _) (fun _ h => h)
        (fun d h => (hi.pending_lt h).1) fun d h => absurd (hi.moving_eq hc h) hne

theorem Inv.claimRd (hi : Inv s) (hn : s.pushed.length < 2 ^ 32)
    (hpc : s.pc τ = .popCasRd c x) (hc : s.rd = c) :
    Inv ((s.claimRd c x).setPc τ .idle) := by
  have hok := hi.pcs τ
  rw [hpc] at hok
  have hle := hi.inOrder.length_le
  have hcn : c.toNat = s.popped.length := by
    rw [← hc, hi.rd, toNat_ofNat_of_lt (by omega)]
  obtain ⟨hlt, hx⟩ := hok.2 hcn
  have hlen : (s.claimRd c x).popped.length = s.popped.length + 1 := by simp [St.claimRd]
  have hpend : (Pc.idle : Pc α).pending = none := rfl
  refine { hi with
    rd := ?_, read := ?_, room := ?_, inOrder := prefix_snoc hi.inOrder hx, data := ?_
    flags := hi.flags_setPc (.inl hpend), one := hi.one_setPc (.inl hpend), pcs := ?_ }
  · show c + 1 = BitVec.ofNat 32 (s.claimRd c x).popped.length
    rw [hlen, ← hc, hi.rd, ofNat_add_one]
  · show (s.claimRd c x).popped.length ≤ s.wt.toNat
    omega
  · show s.pushed.length ≤ (s.claimRd c x).popped.length + 255
    have := hi.room
    omega
  · intro d hd hr e he
    have hr : (s.claimRd c x).popped.length ≤ d.toNat := hr
    exact hi.data d hd (by omega) e he
  · refine forall_setPc (P := PcOk (s.claimRd c x)) trivial fun τ' _ => ?_
    exact (hi.pcs τ').mono (by omega) (Nat.le_refl _) (List.prefix_refl _) (List.prefix_refl _)
      (fun _ h => h) (fun d h => (hi.pending_lt h).1) fun _ _ => rfl

/-- The test of `push`, made with an index that is still the one of `ct_`. -/
theorem Inv.room_of_load (hi : Inv s) (hn : s.pushed.length < 2 ^ 32)
    (hne : indexOf (c + 1) ≠ indexOf s.rd) (hc : c.toNat = s.pushed.length) :
    s.pushed.length + 1 ≤ s.popped.length + 255 := by
  by_contra hfull
  have hroom := hi.room
  apply hne
  have hcn : c = BitVec.ofNat 32 s.pushed.length :=
    BitVec.eq_of_toNat_eq (by rw [toNat_ofNat_of_lt hn, hc])
  rw [hcn, ofNat_add_one, hi.rd, indexOf_ofNat, indexOf_ofNat]
  have he : s.pushed.length + 1 = s.popped.length + 2 ^ 8 := by omega
  rw [he]
  exact Lib.Window.slot_add_lap

/-- The data that `pop` copies, should its index still be the one of `rd_`. -/
theorem Inv.copied (hi : Inv s) (hn : s.pushed.length < 2 ^ 32) (hlt : s.popped.length < s.wt.toNat)
    (hc : c.toNat = s.popped.length) :
    s.pushed[s.popped.length]? = some (c, s.elems (indexOf c)) := by
  have hmoved := hi.moved
  have hwon := hi.won
  have hcn : c = BitVec.ofNat 32 s.popped.length :=
    BitVec.eq_of_toNat_eq
      (by rw [toNat_ofNat_of_lt (Nat.lt_of_le_of_lt hi.inOrder.length_le hn), hc])
  have hm : c ∈ s.written := hcn ▸ hi.written s.popped.length (by omega)
  have hget := List.getElem?_eq_getElem (l := s.pushed) (i := s.popped.length) (by omega)
  generalize s.pushed[s.popped.length] = e at hget
  rw [hget, hi.data c hm (by omega) e (by rw [hc, hget]), hcn, ← hi.pushedAt _ _ hget]

theorem access_inv (hi : Inv s) (hn : s.pushed.length < 2 ^ 32) (h : access s τ = some t) :
    Inv t := by
  have hok := hi.pcs τ
  unfold access at h
  cases hpc : s.pc τ with
  | idle => simp only [hpc] at h; cases h
  | loadCt x =>
    simp only [hpc] at h
    cases h
    refine hi.setPc (p := .loadRd x s.ct) ?_ rfl
    show s.ct.toNat ≤ s.pushed.length
    rw [hi.ct, toNat_ofNat_of_lt hn]
  | loadRd x c =>
    simp only [hpc] at h hok
    cases h
    split
    · exact hi.setPc trivial rfl
    · rename_i hne
      exact hi.setPc (p := .casCt x c) ⟨hok, hi.room_of_load hn hne⟩ rfl
  | casCt x c =>
    simp only [hpc] at h
    split at h
    · rename_i hc; cases h; exact hi.claimCt hn hpc hc
    · cases h; exact hi.setPc trivial rfl
  | writeData x c => simp only [hpc] at h; cases h; exact hi.write hpc
  | storeFlag c => simp only [hpc] at h; cases h; exact hi.setFlag hpc
  | loadFlag c => simp only [hpc] at h; cases h; exact hi.setPc trivial rfl
  | loadWt c cac =>
    simp only [hpc] at h
    cases h
    split
    · exact hi.setPc trivial rfl
    · rename_i hne
      obtain ⟨hwt, hcac⟩ := not_or.mp hne
      refine hi.setPc (p := .casFlag c cac) ⟨eq_commit (not_not.mp hcac), ?_⟩ rfl
      rw [not_not.mp hwt]
  | casFlag c cac =>
    simp only [hpc] at h hok
    split at h
    · rename_i hf; cases h; exact hi.win (.inl rfl) (hf.trans hok.1) hok.2
    · cases h; exact hi.setPc trivial rfl
  | storeWt c =>
    simp only [hpc] at h hok
    cases h
    rw [hok.1]
    exact hi.moveWt hn (.inl rfl) hok.2
  | popLoadRd =>
    simp only [hpc] at h
    cases h
    refine hi.setPc (p := .popLoadWt s.rd) ?_ rfl
    show s.rd.toNat ≤ s.popped.length
    rw [hi.rd, BitVec.toNat_ofNat]
    exact Nat.mod_le _ _
  | popLoadWt r =>
    simp only [hpc] at h hok
    cases h
    split
    · exact hi.setPc (p := .popLoadFlag s.wt) (Nat.le_refl _) rfl
    · rename_i hne
      refine hi.setPc (p := .popCopy r) ⟨hok, fun he => ?_⟩ rfl
      have hread := hi.read
      have : s.wt.toNat ≠ r.toNat := fun h => hne (congrArg indexOf (BitVec.eq_of_toNat_eq h).symm)
      omega
  | popLoadFlag w =>
    simp only [hpc] at h hok
    cases h
    split
    · exact hi.setPc trivial rfl
    · rename_i hne
      exact hi.setPc (p := .popCasFlag w _) ⟨eq_commit (not_not.mp hne), hok⟩ rfl
  | popCasFlag w cac =>
    simp only [hpc] at h hok
    split at h
    · rename_i hf; cases h; exact hi.win (.inr rfl) (hf.trans hok.1) hok.2
    · cases h; exact hi.setPc trivial rfl
  | popStoreWt w =>
    simp only [hpc] at h hok
    cases h
    rw [hok.1]
    exact hi.moveWt hn (.inr rfl) hok.2
  | popCopy r =>
    simp only [hpc] at h hok
    cases h
    refine hi.setPc (p := .popCasRd r _) ⟨hok.1, fun he => ?_⟩ rfl
    exact ⟨hok.2 he, hi.copied hn (hok.2 he) he⟩
  | popCasRd r x =>
    simp only [hpc] at h
    split at h
    · rename_i hr; cases h; exact hi.claimRd hn hpc hr
    · cases h; exact hi.setPc trivial rfl

theorem step_inv {a : Act α} (hi : Inv s) (hn : s.pushed.length < 2 ^ 32)
    (h : step s a = some t) : Inv t := by
  cases a with
  | push τ x | pop τ =>
    simp only [step] at h
    split at h
    · cases h; exact hi.setPc trivial rfl
    · cases h
  | access τ => exact access_inv hi hn h
  | spurious τ =>
    simp only [step, spurious] at h
    split at h
    · cases h; exact hi.setPc trivial rfl
    · cases h; exact hi.setPc trivial rfl
    · cases h; exact hi.setPc trivial rfl
    · cases h

end Steps

/-! ## What it gives -/

section Main
variable {s t : St α} {a : Act α}

/-- The accesses that claim an index of `ct_` or move `wt_`. -/
theorem step_cases (h : step s a = some t) :
    (t.pushed = s.pushed ∧ t.wt = s.wt) ∨
    (∃ x c, t.pushed = s.pushed ++ [(c, x)] ∧ t.wt = s.wt) ∨
    ∃ c, (s.pc a.thread).moving = some c ∧ t.pushed = s.pushed ∧ t.wt = c + 1 := by
  cases a with
  | push τ x | pop τ =>
    simp only [step] at h
    split at h
    · cases h; exact .inl ⟨rfl, rfl⟩
    · cases h
  | spurious τ =>
    simp only [step, spurious] at h
    split at h
    · cases h; exact .inl ⟨rfl, rfl⟩
    · cases h; exact .inl ⟨rfl, rfl⟩
    · cases h; exact .inl ⟨rfl, rfl⟩
    · cases h
  | access τ =>
    simp only [step, access] at h
    cases hpc : s.pc τ with
    | idle => simp only [hpc] at h; cases h
    | casCt x c =>
      simp only [hpc] at h
      split at h
      · cases h; exact .inr (.inl ⟨x, c, rfl, rfl⟩)
      · cases h; exact .inl ⟨rfl, rfl⟩
    | storeWt c | popStoreWt c =>
      simp only [hpc] at h
      cases h
      exact .inr (.inr ⟨c, by rw [Act.thread, hpc]; rfl, rfl, rfl⟩)
    | casFlag c cac | popCasFlag c cac | popCasRd c x =>
      simp only [hpc] at h
      split at h
      · cases h; exact .inl ⟨rfl, rfl⟩
      · cases h; exact .inl ⟨rfl, rfl⟩
    | _ => simp only [hpc] at h; cases h; exact .inl ⟨rfl, rfl⟩

theorem pushed_length_le (h : step s a = some t) : s.pushed.length ≤ t.pushed.length := by
  obtain ⟨he, -⟩ | ⟨x, c, he, -⟩ | ⟨c, -, he, -⟩ := step_cases h
  · rw [he]
  · rw [he, List.length_append]; exact Nat.le_add_right _ _
  · rw [he]

theorem Inv.moves (hi : Inv s) (hn : s.pushed.length < 2 ^ 32) (h : step s a = some t)
    (hne : t.wt ≠ s.wt) :
    t.wt.toNat = s.wt.toNat + 1 ∧ (s.wt, a.thread) ∈ s.wins := by
  obtain ⟨-, he⟩ | ⟨x, c, -, he⟩ | ⟨c, hm, -, he⟩ := step_cases h
  · exact absurd he hne
  · exact absurd he hne
  · have hok := hi.pcs a.thread
    cases hpc : s.pc a.thread with
    | storeWt d | popStoreWt d =>
      rw [hpc] at hm hok
      obtain rfl := Option.some.inj hm
      obtain ⟨hwt, hwin⟩ := hok
      rw [he, hwt]
      exact ⟨wt_succ hi hn hwin, List.mem_of_getElem? (hwt ▸ hwin)⟩
    | _ => rw [hpc] at hm; cases hm

theorem Inv.once (hi : Inv s) (hn : s.pushed.length < 2 ^ 32) : Once s := by
  have hrd : s.rd.toNat = s.popped.length := by
    rw [hi.rd, toNat_ofNat_of_lt (Nat.lt_of_le_of_lt hi.inOrder.length_le hn)]
  have hct : s.ct.toNat = s.pushed.length := by rw [hi.ct, toNat_ofNat_of_lt hn]
  have hread := hi.read
  have hmoved := hi.moved
  have hwon := hi.won
  have hroom := hi.room
  refine ⟨⟨?_, ?_, by omega⟩, ?_, ⟨hct, hi.pushedAt⟩, ⟨hi.inOrder, hrd⟩, hi.winsAt,
    fun a t h hne => hi.moves hn h hne⟩
  · rw [BitVec.le_def]; omega
  · rw [BitVec.le_def]; omega
  · intro i hlt
    rw [BitVec.lt_def] at hlt
    have := hi.written i.toNat (by omega)
    rwa [BitVec.ofNat_toNat, BitVec.setWidth_eq] at this

/-- **Exactly once.** Every interleaving of any number of producers and consumers in
which fewer than `2 ^ 32` indices are claimed by `push`. -/
theorem once_of_run (elems : BitVec 8 → α) (acts : List (Act α)) (s : St α)
    (hr : run step (St.init elems) acts = some s) (hn : s.pushed.length < 2 ^ 32) : Once s := by
  have hinv : s.pushed.length < 2 ^ 32 → Inv s :=
    Lib.Runs.run_invariant' (P := fun s => s.pushed.length < 2 ^ 32 → Inv s)
      (fun s a t ih h hn => step_inv (ih (Nat.lt_of_le_of_lt (pushed_length_le h) hn))
        (Nat.lt_of_le_of_lt (pushed_length_le h) hn) h)
      (fun _ => init_inv elems) hr
  exact (hinv hn).once hn

end Main

/-- Two producers claim an index each; the second finishes first, and the consumer
moves `wt_` over the first index before the first producer can. -/
def helped : List (Act Nat) :=
  [.push 0 7, .access 0, .access 0, .access 0, .push 1 8, .access 1, .access 1, .spurious 1,
    .access 1, .access 1, .access 1, .access 1, .access 1, .access 1, .access 1,
    .access 0, .access 0, .pop 2, .access 2, .access 2, .access 2, .access 2, .access 0, .access 0,
    .access 2, .access 2, .access 2, .access 2, .access 2]

theorem once_helped : ∃ s, run step (St.init fun _ => 0) helped = some s ∧
    s.pushed = [(0, 7), (1, 8)] ∧ s.popped = [(0, 7)] ∧ s.wins = [(0, 2)] ∧ s.wt = 1 ∧ Once s := by
  have hs : ((run step (St.init fun _ => 0) helped).map fun s =>
      (s.pushed, s.popped, s.wins, s.wt)) = some ([(0, 7), (1, 8)], [(0, 7)], [(0, 2)], 1) := by
    decide +kernel
  obtain ⟨s, hr, hp⟩ := Option.map_eq_some_iff.mp hs
  obtain ⟨h₀, hp⟩ := Prod.mk.inj hp
  obtain ⟨h₁, hp⟩ := Prod.mk.inj hp
  obtain ⟨h₂, h₃⟩ := Prod.mk.inj hp
  exact ⟨s, hr, h₀, h₁, h₂, h₃, once_of_run _ helped s hr (by rw [h₀]; decide)⟩

end CppIpc.MultiUnicast
