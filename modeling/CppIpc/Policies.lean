import CppIpc.Channel
import CppIpc.ProdCons
import CppIpc.Route

/-! # The two broadcast policies -/
namespace CppIpc.Policies
open CppIpc.Def CppIpc.ReadCounter CppIpc.ProdCons
open CppIpc.Lib.Window (slot)

/-- `cc & ~rem`, which `disconnect_receiver` is called for only if it removes a bit. -/
theorem kick_eq (cc rem : CC) : (if cc &&& rem ≠ 0 then cc &&& ~~~rem else cc) = cc &&& ~~~rem := by
  split
  · rfl
  · rename_i h
    apply BitVec.eq_of_getLsbD_eq
    intro i _
    rw [Lib.Bits.getLsbD_and_not]
    cases hb : cc.getLsbD i with
    | false => rfl
    | true => simp [Lib.Bits.and_eq_zero_iff.mp (not_not.mp h) i hb]

variable {α : Type}

/-! ## Single producer -/

namespace Route
open CppIpc.Route CppIpc.ReadCounter.Route

def Ok (q : Queue α) (w : Nat) : Prop := q.wt = BitVec.ofNat 32 w ∧ pend q.epoch = 0#32

def current (q : Queue α) (σ : BitVec 8) : Prop := (q.elems σ).rc &&& ~~~epMask = q.epoch

/-- The stores of `push` and of `force_push`. -/
def place (q : Queue α) (cc : CC) (x : α) : Queue α :=
  ((q.setRc (indexOf q.wt) (q.epoch ||| cc.setWidth 64)).setData (indexOf q.wt) x).addWt

section Laws
variable {q q' : Queue α} {w : Nat} {cc cc' id : CC} {x y : α}

theorem Ok.slot_eq (h : Ok q w) : indexOf q.wt = slot 8 w := by rw [h.1, indexOf_ofNat]

/-- A cursor behind `wt_` by no more than a round is not equal to it. -/
theorem Ok.wt_ne {i : Nat} (h : Ok q w) (hlt : i < w) (hle : w ≤ i + 256) :
    BitVec.ofNat 32 i ≠ q.wt := by
  rw [h.1, ne_eq, ← BitVec.toNat_inj, BitVec.toNat_ofNat, BitVec.toNat_ofNat]
  omega

theorem Ok.place (h : Ok q w) (cc : CC) (x : α) : Ok (place q cc x) (w + 1) ∧
    (fun σ => pend ((Route.place q cc x).elems σ).rc) =
      Function.update (fun σ => pend (q.elems σ).rc) (slot 8 w) cc ∧
    (fun σ => ((Route.place q cc x).elems σ).data) =
      Function.update (fun σ => (q.elems σ).data) (slot 8 w) x ∧
    ∀ σ, current q σ ∨ σ = slot 8 w → current (Route.place q cc x) σ := by
  unfold Route.place current
  refine ⟨⟨?_, h.2⟩, ?_, ?_, ?_⟩
  · simp only [addWt_wt, setData_wt, setRc_wt, h.1]
    rw [← BitVec.ofNat_add_ofNat]
    rfl
  · funext σ
    simp only [addWt_elems, setData_rc, setRc_rc, Function.update_apply, h.slot_eq]
    split
    · exact pend_or cc h.2
    · rfl
  · funext σ
    simp only [addWt_elems, setData_data, setRc_data, Function.update_apply, h.slot_eq]
  · intro σ hσ
    simp only [addWt_elems, addWt_epoch, setData_rc, setData_epoch, setRc_rc, setRc_epoch, h.slot_eq]
    split
    · exact tag_or cc h.2
    · rename_i hne
      exact hσ.resolve_right hne

theorem push_eq_some (hp : q.push cc x = some q') :
    cc ≠ 0#32 ∧ Route.blocked cc (q.elems (indexOf q.wt)).rc q.epoch = false ∧
      q' = place q cc x := by
  simp only [Queue.push] at hp
  split at hp
  · cases hp
  · rename_i h0
    split at hp
    · cases hp
    · rename_i hb
      cases hp
      exact ⟨h0, by simpa using hb, rfl⟩

theorem push_eq_none :
    q.push cc x = none ↔ cc = 0#32 ∨ Route.blocked cc (q.elems (indexOf q.wt)).rc q.epoch = true := by
  simp only [Queue.push]
  split
  · rename_i h0; simp [h0]
  · rename_i h0
    have h0 : ¬ cc = 0#32 := h0
    split
    · rename_i hb; simp [hb]
    · rename_i hb; simp [h0, hb]

theorem blocked_iff {rc epoch : RC} : Route.blocked cc rc epoch = true ↔
    cc &&& pend rc ≠ 0#32 ∧ rc &&& ~~~epMask = epoch := by
  simp [Route.blocked, epMask]

theorem force_eq_some (hf : q.forcePush cc x = (q', cc', some y)) :
    cc' = cc &&& ~~~pend (q.elems (indexOf q.wt)).rc ∧ cc' ≠ 0#32 ∧
      y = (q.elems (indexOf q.wt)).data ∧
      q' = place { q with epoch := q.epoch + epIncr } cc' x := by
  simp only [Queue.forcePush, kick_eq] at hf
  split at hf
  · cases hf
  · split at hf
    · cases hf
    · rename_i h0
      cases hf
      exact ⟨by simp [epMask], h0, rfl, rfl⟩

theorem force_eq_none (hf : q.forcePush cc x = (q', cc', none)) :
    cc' = cc &&& ~~~pend (q.elems (indexOf q.wt)).rc ∧ cc' = 0#32 ∧
      q' = { q with epoch := q.epoch + epIncr } := by
  simp only [Queue.forcePush, kick_eq] at hf
  split at hf
  · rename_i h0
    cases hf
    have h0 : cc = 0#32 := h0
    exact ⟨by simp [h0], h0, rfl⟩
  · split at hf
    · rename_i h0
      cases hf
      exact ⟨by simp [epMask], h0, rfl⟩
    · cases hf

/-- The new epoch of `force_push` changes nothing else. -/
theorem Ok.bump (h : Ok q w) : Ok { q with epoch := q.epoch + epIncr } w :=
  ⟨h.1, pend_add_epIncr h.2⟩

theorem pop_eq_some {cur : U2} {last : Bool} (hp : q.pop id cur = some (x, last, q')) :
    x = (q.elems (indexOf cur)).data ∧ q'.wt = q.wt ∧ q'.epoch = q.epoch ∧
      (∀ σ, (q'.elems σ).data = (q.elems σ).data) ∧
      (∀ σ, pend (q'.elems σ).rc = if σ = indexOf cur then
        pend (q.elems (indexOf cur)).rc &&& ~~~id else pend (q.elems σ).rc) ∧
      ∀ σ, (q'.elems σ).rc &&& ~~~epMask = (q.elems σ).rc &&& ~~~epMask := by
  simp only [Queue.pop] at hp
  split at hp
  · cases hp
  · split at hp
    · rename_i h0
      cases hp
      refine ⟨rfl, rfl, rfl, fun _ => rfl, fun σ => ?_, fun _ => rfl⟩
      have hz : pend (q.elems (indexOf cur)).rc = 0 := and_lowMask_eq_zero.mp h0
      split
      · rename_i he; rw [he, hz]; simp
      · rfl
    · cases hp
      refine ⟨rfl, rfl, rfl, fun σ => by simp, fun σ => ?_, fun σ => ?_⟩
      · rw [setRc_rc]
        split
        · rw [pend_and_not]
        · rfl
      · rw [setRc_rc]
        split
        · rename_i he; rw [tag_and_not, he]
        · rfl

theorem pop_eq_none {cur : U2} : q.pop id cur = none ↔ cur = q.wt := by
  simp only [Queue.pop, Queue.cursor]
  split
  · rename_i h; simp [h]
  · rename_i h
    split <;> simp [h]

end Laws

end Route

/-- `prod_cons_impl<single, multi, broadcast>`. -/
def route [Inhabited α] : Broadcast α where
  multi := false
  Queue := CppIpc.Route.Queue α
  init := .init
  cursor := (·.cursor)
  push := (·.push)
  forcePush := (·.forcePush)
  pop := (·.pop)
  pend q σ := pend (q.elems σ).rc
  data q σ := (q.elems σ).data
  current := Route.current
  Ok := Route.Ok
  init_ok := ⟨rfl, by simp [CppIpc.Route.Queue.init, pend]⟩
  init_pend := fun _ => by simp [CppIpc.Route.Queue.init, pend]
  init_current := fun _ => by simp [CppIpc.Route.Queue.init, Route.current]
  cursor_eq h := h.1
  push_some := by
    intro q w cc x q' h hp
    obtain ⟨h0, hb, rfl⟩ := Route.push_eq_some hp
    refine ⟨h0, fun hne hc => ?_, h.place cc x⟩
    rw [← h.slot_eq] at hne hc
    rw [Route.blocked_iff.mpr ⟨hne, hc⟩] at hb
    cases hb
  push_none := by
    intro q w cc x h _
    rw [Route.push_eq_none, Route.blocked_iff, h.slot_eq]
    rfl
  force_some := by
    intro q w cc x q' cc' y h hf
    obtain ⟨hcc, h0, hy, rfl⟩ := Route.force_eq_some hf
    obtain ⟨hok, hpend, hdata, _⟩ := h.bump.place cc' x
    rw [h.slot_eq] at hcc hy
    exact ⟨hcc, h0, hy, hok, hpend, hdata⟩
  force_none := by
    intro q w cc x q' cc' h hf
    obtain ⟨hcc, h0, rfl⟩ := Route.force_eq_none hf
    rw [h.slot_eq] at hcc
    exact ⟨hcc, h0, h.bump, rfl, rfl⟩
  pop_some := by
    intro q w id cur x last q' h hp
    obtain ⟨hx, hwt, hep, hdata, hpend, htag⟩ := Route.pop_eq_some hp
    refine ⟨hx, ⟨hwt.trans h.1, hep ▸ h.2⟩, ?_, funext hdata, ?_⟩
    · funext σ; rw [Function.update_apply]; exact hpend σ
    · funext σ; rw [Route.current, Route.current, htag, hep]
  pop_ready := fun _ h hlt hle _ hnone => h.wt_ne hlt hle (Route.pop_eq_none.mp hnone)
  pop_empty := fun h => Route.pop_eq_none.mpr h.1.symm

/-! ## Multi producer -/

namespace Channel
open CppIpc.Channel CppIpc.ReadCounter.Channel

/-- The flag of a slot names the message in it as long as somebody has to read it,
and the next index of the slot afterwards. -/
structure Ok (q : Queue α) (w : Nat) : Prop where
  ct : q.ct = BitVec.ofNat 32 w
  epoch : q.epoch &&& epMask = 0#64
  held : ∀ i < w, w ≤ i + 256 →
    (pend (q.elems (slot 8 i)).rc ≠ 0#32 ∧
      (q.elems (slot 8 i)).fCt = committed (BitVec.ofNat 32 i)) ∨
    (pend (q.elems (slot 8 i)).rc = 0#32 ∧
      (q.elems (slot 8 i)).fCt = freed (BitVec.ofNat 32 (i + 1)))
  blank : ∀ i, w ≤ i → i < 256 →
    pend (q.elems (slot 8 i)).rc = 0#32 ∧ (q.elems (slot 8 i)).fCt = 0#64

def current (q : Queue α) (σ : BitVec 8) : Prop := (q.elems σ).rc &&& ~~~epMask = q.epoch

section Laws
variable {q q' : Queue α} {w : Nat} {cc cc' id : CC} {x y : α}

theorem Ok.slot_eq (h : Ok q w) : indexOf q.ct = slot 8 w := by rw [h.ct, indexOf_ofNat]

theorem Ok.place (h : Ok q w) (h0 : cc ≠ 0#32) (x : α) : Ok (q.place q.epoch cc x) (w + 1) ∧
    (fun σ => pend ((q.place q.epoch cc x).elems σ).rc) =
      Function.update (fun σ => pend (q.elems σ).rc) (slot 8 w) cc ∧
    (fun σ => ((q.place q.epoch cc x).elems σ).data) =
      Function.update (fun σ => (q.elems σ).data) (slot 8 w) x ∧
    ∀ σ, current q σ ∨ σ = slot 8 w → current (q.place q.epoch cc x) σ := by
  unfold Queue.place current
  simp only [setFl_rc, setFl_data, setFl_epoch, setData_rc, setData_data, setData_epoch,
    setCt_elems, setCt_epoch, setRc_rc, setRc_data, setRc_epoch, h.slot_eq]
  refine ⟨⟨?_, h.epoch, ?_, ?_⟩, ?_, ?_, ?_⟩
  · simp only [setFl_ct, setData_ct, setCt_ct, h.ct]
    rw [← BitVec.ofNat_add_ofNat]
    rfl
  · intro i hlt hle
    simp only [setFl_rc, setFl_fCt, setData_rc, setData_fCt, setCt_elems, setRc_rc, setRc_fCt]
    by_cases he : i = w
    · subst he
      simp only [if_true, pend_mark]
      exact .inl ⟨h0, by rw [h.ct]⟩
    · have hne : slot 8 i ≠ slot 8 w := by
        intro hs
        have := Lib.Window.eq_of_slot_eq hs (by omega) (by omega)
        omega
      simp only [if_neg hne]
      exact h.held i (by omega) (by omega)
  · intro i hle hlt
    simp only [setFl_rc, setFl_fCt, setData_rc, setData_fCt, setCt_elems, setRc_rc, setRc_fCt]
    have hne : slot 8 i ≠ slot 8 w := by
      intro hs
      have := Lib.Window.eq_of_slot_eq hs (by omega) (by omega)
      omega
    simp only [if_neg hne]
    exact h.blank i (by omega) hlt
  · funext σ
    rw [Function.update_apply]
    split
    · exact pend_mark _ _ _
    · rfl
  · funext σ
    rw [Function.update_apply]
  · intro σ hσ
    split
    · exact tag_mark _ cc h.epoch
    · rename_i hne
      exact hσ.resolve_right hne

theorem push_eq_some (hp : q.push cc x = some q') :
    cc ≠ 0#32 ∧ Channel.blocked cc (q.elems (indexOf q.ct)).rc q.epoch = false ∧
      q' = q.place q.epoch cc x := by
  simp only [Queue.push] at hp
  split at hp
  · cases hp
  · rename_i h0
    split at hp
    · cases hp
    · rename_i hb
      split at hp
      · cases hp
      · cases hp
        exact ⟨h0, by simpa using hb, rfl⟩

theorem blocked_iff {rc epoch : RC} : Channel.blocked cc rc epoch = true ↔
    cc &&& pend rc ≠ 0#32 ∧ rc &&& ~~~epMask = epoch := by
  simp [Channel.blocked, rcMask]

/-- Before the 32-bit index wraps, a slot that nobody has to read admits the next
index. -/
theorem Ok.not_occupied (h : Ok q w) (hw : w < 2 ^ 32)
    (hp : pend (q.elems (slot 8 w)).rc = 0#32) :
    occupied q.ct (q.elems (slot 8 w)).fCt = false := by
  by_cases h256 : w < 256
  · rw [(h.blank w (Nat.le_refl _) h256).2]
    simp [occupied]
  · obtain ⟨i, rfl⟩ : ∃ i, w = i + 2 ^ 8 := ⟨w - 256, by omega⟩
    rw [Lib.Window.slot_add_lap] at hp ⊢
    rcases h.held i (by omega) (by omega) with ⟨hne, _⟩ | ⟨_, hf⟩
    · exact absurd hp hne
    · have : freed (BitVec.ofNat 32 (i + 1)) = q.ct.setWidth 64 := by
        apply BitVec.eq_of_toNat_eq
        rw [freed_toNat, h.ct, BitVec.toNat_setWidth, BitVec.toNat_ofNat, BitVec.toNat_ofNat]
        omega
      rw [hf, this]
      simp [occupied]

theorem push_eq_none (h : Ok q w) (hw : w < 2 ^ 32) : q.push cc x = none ↔
    cc = 0#32 ∨ Channel.blocked cc (q.elems (indexOf q.ct)).rc q.epoch = true := by
  simp only [Queue.push, h.slot_eq, rcMask, pend_and_lowMask]
  split
  · rename_i h0; simp [h0]
  · rename_i h0
    have h0 : ¬ cc = 0#32 := h0
    split
    · rename_i hb; simp [hb]
    · rename_i hb
      rw [if_neg]
      · simp [h0, hb]
      · rintro ⟨hp, ho⟩
        rw [h.not_occupied hw hp] at ho
        cases ho

theorem force_eq_some (hf : q.forcePush cc x = (q', cc', some y)) :
    cc' = cc &&& ~~~pend (q.elems (indexOf q.ct)).rc ∧ cc' ≠ 0#32 ∧
      y = (q.elems (indexOf q.ct)).data ∧
      q' = Queue.place { q with epoch := q.epoch + epIncr } (q.epoch + epIncr) cc' x := by
  simp only [Queue.forcePush, kick_eq] at hf
  split at hf
  · cases hf
  · split at hf
    · cases hf
    · rename_i h0
      cases hf
      exact ⟨by simp [rcMask], h0, rfl, rfl⟩

theorem force_eq_none (hf : q.forcePush cc x = (q', cc', none)) :
    cc' = cc &&& ~~~pend (q.elems (indexOf q.ct)).rc ∧ cc' = 0#32 ∧
      q' = { q with epoch := q.epoch + epIncr } := by
  simp only [Queue.forcePush, kick_eq] at hf
  split at hf
  · rename_i h0
    cases hf
    have h0 : cc = 0#32 := h0
    exact ⟨by simp [h0], h0, rfl⟩
  · split at hf
    · rename_i h0
      cases hf
      exact ⟨by simp [rcMask], h0, rfl⟩
    · cases hf

/-- The new epoch of `force_push` changes nothing else. -/
theorem Ok.bump (h : Ok q w) : Ok { q with epoch := q.epoch + epIncr } w :=
  ⟨h.ct, epoch_add_epIncr h.epoch, h.held, h.blank⟩

/-- A cursor that finds its flag is the index of a message in the ring that is
still to be read. -/
theorem Ok.found (h : Ok q w) {cur : U2} (hf : (q.elems (indexOf cur)).fCt = committed cur) :
    ∃ i < w, w ≤ i + 256 ∧ cur = BitVec.ofNat 32 i ∧ pend (q.elems (indexOf cur)).rc ≠ 0#32 := by
  rcases Lib.Window.slot_cases w (indexOf cur) with ⟨i, hle, hlt, hs⟩ | ⟨i, hlt, hle, hs⟩
  · have h0 := (h.blank i hle hlt).2
    rw [hs, hf] at h0
    exact absurd h0 (committed_ne_zero cur)
  · rcases h.held i hlt hle with ⟨hp, hc⟩ | ⟨_, hc⟩
    · rw [hs] at hp hc
      exact ⟨i, hlt, hle, committed_inj (hf.symm.trans hc), hp⟩
    · rw [hs] at hc
      exact absurd (hc.symm.trans hf) (freed_ne_committed _ _)

/-- What `pop` makes of the slot under its cursor. -/
theorem pop_eq_some {cur : U2} {last : Bool} (h : Ok q w)
    (hp : q.pop id cur = some (x, last, q')) :
    (q.elems (indexOf cur)).fCt = committed cur ∧ x = (q.elems (indexOf cur)).data ∧
      q'.ct = q.ct ∧ q'.epoch = q.epoch ∧ (∀ σ, (q'.elems σ).data = (q.elems σ).data) ∧
      (∀ σ, (q'.elems σ).rc = if σ = indexOf cur then
        incRc (q.elems (indexOf cur)).rc &&& ~~~id.setWidth 64 else (q.elems σ).rc) ∧
      ∀ σ, (q'.elems σ).fCt = if σ = indexOf cur ∧
          pend (q.elems (indexOf cur)).rc &&& ~~~id = 0#32 then freed (cur + 1)
        else (q.elems σ).fCt := by
  simp only [Queue.pop] at hp
  split at hp
  · cases hp
  · rename_i hf
    have hf := not_not.mp hf
    obtain ⟨i, _, _, _, hne⟩ := h.found hf
    have hlast : incRc (q.elems (indexOf cur)).rc &&& ~~~id.setWidth 64 &&& rcMask = 0 ↔
        pend (q.elems (indexOf cur)).rc &&& ~~~id = 0#32 := by
      rw [rcMask, and_lowMask_eq_zero, pend_and_not, pend_incRc]
      rfl
    have hrc : ¬ (q.elems (indexOf cur)).rc &&& rcMask = 0 := fun h0 =>
      hne (and_lowMask_eq_zero.mp h0)
    rw [if_neg hrc] at hp
    split at hp
    · rename_i h0
      cases hp
      refine ⟨hf, rfl, rfl, rfl, fun σ => by simp, fun σ => by simp, fun σ => ?_⟩
      simp only [setRc_fCt, setFl_fCt, hlast.mp h0, and_true]
    · rename_i h0
      cases hp
      refine ⟨hf, rfl, rfl, rfl, fun σ => by simp, fun σ => by simp, fun σ => ?_⟩
      have h0 : ¬ pend (q.elems (indexOf cur)).rc &&& ~~~id = 0#32 := fun h => h0 (hlast.mpr h)
      simp only [setRc_fCt, h0, and_false, if_false]

theorem Ok.pop {cur : U2} {last : Bool} (h : Ok q w) (hp : q.pop id cur = some (x, last, q')) :
    Ok q' w := by
  obtain ⟨hf, _, hct, hep, _, hrc, hfl⟩ := pop_eq_some h hp
  obtain ⟨j, hj, hjw, hcur, hne⟩ := h.found hf
  refine ⟨hct.trans h.ct, hep ▸ h.epoch, fun i hlt hle => ?_, fun i hle hlt => ?_⟩
  · rw [hrc, hfl]
    by_cases he : slot 8 i = indexOf cur
    · have hi : i = j := by
        rw [hcur, indexOf_ofNat] at he
        exact Lib.Window.eq_of_slot_eq he (by omega) (by omega)
      subst hi
      simp only [he, true_and, if_true, pend_and_not, pend_incRc]
      by_cases h0 : pend (q.elems (indexOf cur)).rc &&& ~~~id = 0#32
      · rw [if_pos h0]
        refine .inr ⟨h0, ?_⟩
        rw [hcur, ← BitVec.ofNat_add_ofNat]
        rfl
      · rw [if_neg h0]
        exact .inl ⟨h0, by rw [hf, hcur]⟩
    · simp only [he, false_and, if_false]
      exact h.held i hlt hle
  · have he : slot 8 i ≠ indexOf cur := by
      intro he
      rw [hcur, indexOf_ofNat] at he
      have := Lib.Window.eq_of_slot_eq he (by omega) (by omega)
      omega
    rw [hrc, hfl]
    simp only [he, false_and, if_false]
    exact h.blank i hle hlt

theorem pop_eq_none {cur : U2} : q.pop id cur = none ↔
    (q.elems (indexOf cur)).fCt ≠ committed cur := by
  simp only [Queue.pop]
  split
  · rename_i h; simp [h]
  · rename_i h
    have h := not_not.mp h
    split
    · simp [h]
    · split <;> simp [h]

end Laws

end Channel

/-- `prod_cons_impl<multi, multi, broadcast>`. -/
def channel [Inhabited α] : Broadcast α where
  multi := true
  Queue := CppIpc.Channel.Queue α
  init := .init
  cursor := (·.cursor)
  push := (·.push)
  forcePush := (·.forcePush)
  pop := (·.pop)
  pend q σ := pend (q.elems σ).rc
  data q σ := (q.elems σ).data
  current := Channel.current
  Ok := Channel.Ok
  init_ok := ⟨rfl, by simp [CppIpc.Channel.Queue.init], fun i h => by omega,
    fun i _ _ => by simp [CppIpc.Channel.Queue.init, pend]⟩
  init_pend := fun _ => by simp [CppIpc.Channel.Queue.init, pend]
  init_current := fun _ => by simp [CppIpc.Channel.Queue.init, Channel.current]
  cursor_eq h := h.ct
  push_some := by
    intro q w cc x q' h hp
    obtain ⟨h0, hb, rfl⟩ := Channel.push_eq_some hp
    refine ⟨h0, fun hne hc => ?_, h.place h0 x⟩
    rw [← h.slot_eq] at hne hc
    rw [Channel.blocked_iff.mpr ⟨hne, hc⟩] at hb
    cases hb
  push_none := by
    intro q w cc x h hw
    rw [Channel.push_eq_none h (hw rfl), Channel.blocked_iff, h.slot_eq]
    rfl
  force_some := by
    intro q w cc x q' cc' y h hf
    obtain ⟨hcc, h0, hy, rfl⟩ := Channel.force_eq_some hf
    obtain ⟨hok, hpend, hdata, _⟩ := h.bump.place h0 x
    rw [h.slot_eq] at hcc hy
    exact ⟨hcc, h0, hy, hok, hpend, hdata⟩
  force_none := by
    intro q w cc x q' cc' h hf
    obtain ⟨hcc, h0, rfl⟩ := Channel.force_eq_none hf
    rw [h.slot_eq] at hcc
    exact ⟨hcc, h0, h.bump, rfl, rfl⟩
  pop_some := by
    intro q w id cur x last q' h hp
    obtain ⟨_, hx, _, hep, hdata, hrc, _⟩ := Channel.pop_eq_some h hp
    refine ⟨hx, h.pop hp, ?_, funext hdata, ?_⟩
    · funext σ
      rw [Function.update_apply, hrc]
      split
      · rw [pend_and_not, ReadCounter.Channel.pend_incRc]
      · rfl
    · funext σ
      rw [Channel.current, Channel.current, hrc, hep]
      split
      · rename_i he; rw [ReadCounter.Channel.tag_clear, he]
      · rfl
  pop_ready := by
    intro q w i id h hlt hle hne hnone
    refine Channel.pop_eq_none.mp hnone ?_
    rw [indexOf_ofNat]
    rcases h.held i hlt hle with ⟨_, hf⟩ | ⟨h0, _⟩
    · exact hf
    · exact absurd h0 hne
  pop_empty := by
    intro q w id h
    refine Channel.pop_eq_none.mpr fun hf => ?_
    obtain ⟨i, hlt, hle, he, _⟩ := h.found hf
    rw [← BitVec.toNat_inj, BitVec.toNat_ofNat, BitVec.toNat_ofNat] at he
    omega

/-- `relat`: how many producers. -/
inductive Relat where
  | single
  | multi
deriving DecidableEq

/-- `prod_cons_impl<rp, multi, broadcast>`. -/
def policy [Inhabited α] : Relat → Broadcast α
  | .single => route
  | .multi => channel

end CppIpc.Policies
