import CppIpc.Policies
import CppIpc.Reclaim

/-! # Storage while receivers come and go

Runs without `force_push`: a chunk is given back by the drop of a buffer only. -/
namespace CppIpc.Recycling
open CppIpc.Def CppIpc.Message CppIpc.Storage CppIpc.Send CppIpc.ProdCons CppIpc.Policies
open CppIpc.Debts CppIpc.Ledger CppIpc.Ipc CppIpc.Reclaim
open CppIpc.Receivers hiding Act step

variable {B : Broadcast MsgT}

/-- The size of a message is an `int32_t`, and no buffer is dropped whose snapshot of the
connections lacks the id of another buffer on the same message. -/
def Careful (s : Chan B) : Act → Prop
  | .send _ _ _ data => data.length < 2 ^ 31
  | .drop n => Snapshot s.held n
  | _ => True

/-- Somebody has yet to pop message `i` or holds a buffer on it. -/
def Live (s : Chan B) (i : Nat) : Prop := ∃ b, party s.world.que s.held i b

structure Safe (s : Chan B) : Prop where
  /-- The chunk of a buffer that is held is not free. -/
  held : ∀ k ∈ s.held, (chunk k).2 ∉ s.world.store.free (chunk k).1
  /-- A drop releases no chunk that is free already. -/
  once : ∀ n, DropsOnce s n
  nodup : ∀ cs, (s.world.store.free cs).Nodup
  apart : ∀ i j c, Live s i → Live s j → chunkAt s.world.que i = some c →
    chunkAt s.world.que j = some c → i = j

/-- The invariant of the runs. -/
structure Good (s : Chan B) : Prop where
  inv : Reclaim.Inv s.world.que s.world.store s.held
  calm : Calm s.world.que

theorem init_good (B : Broadcast MsgT) (ccId : Nat → MsgId) : Good (Chan.init B ccId) := by
  refine ⟨⟨Receivers.init_inv B, ⟨zero_sound, ?_, ?_, ?_⟩, ?_, .nil, ?_⟩, init_calm B⟩ <;>
    simp [Chan.init, Sys.init, chunkAt]

section Steps
variable {s t : Chan B} {a : Act}

theorem Good.reconnect (hg : Good s) (th h : Nat) (startToRecv : Bool) :
    Good (s.reconnect th h startToRecv) := by
  obtain ⟨hs, hh, ⟨_, _, hq⟩ | ⟨_, hq | hq⟩⟩ := reconnect_frame s th h startToRecv
  · exact ⟨by rw [hs, hh, hq]; exact hg.inv.connect h, by rw [hq]; exact hg.calm.connect h⟩
  · exact ⟨by rw [hs, hh, hq]; exact hg.inv, by rw [hq]; exact hg.calm⟩
  · exact ⟨by rw [hs, hh, hq]; exact hg.inv.disconnect (hg.calm.own h),
      by rw [hq]; exact hg.calm.disconnect h⟩

/-- Without a forced push, pushes keep the calm and need nothing else. -/
theorem calm_tryPush {force : Bool} {tm : Nat} {h : Sender} (held : List Held) {w : World (Sys B)}
    {msg : MsgT} (hc : Calm w.que) (hf : ¬ Forces (queue B) force tm h w msg) :
    PushGood force tm h held w msg ∧ Calm (tryPush (queue B) force tm h w msg).1.que := by
  refine ⟨⟨fun _ _ _ _ => hc.current _, fun h => absurd h hf, fun h => absurd h hf⟩, ?_⟩
  rcases tryPush_cases (queue B) force tm h w msg with
    ⟨q, hp, he⟩ | ⟨_, ok, he⟩ | ⟨_, h, _⟩ | ⟨_, _, h, _⟩
  · rw [he]
    exact hc.push hp
  · rw [he]
    exact hc
  · exact absurd h hf
  · exact absurd h hf

theorem Good.send (hg : Good s) {force : Bool} {tm h : Nat} {data : List Byte}
    (hu : data.length < 2 ^ 31) (hf : Unforced s (.send force tm h data)) :
    Good (s.send force tm h data) := by
  have hsend := inv_send (fun q _ => Calm q) _ (fun _ _ => True) force tm
    hg.inv hu ⟨hg.calm, hg.calm⟩ (fun w msg _ _ _ hc hf =>
      have hpush := calm_tryPush s.held hc hf
      ⟨hpush.1, trivial, hpush.2⟩) hf
  exact ⟨hsend.1.1, hsend.1.2⟩

theorem Good.recv (hg : Good s) (th tm h : Nat) : Good (s.recv th tm h) := by
  refine ⟨inv_recv hg.inv (hg.calm.own h) th tm, ?_⟩
  obtain ⟨_, _, ⟨hq, _⟩ | ⟨_, _, _, _, hp, hq, _⟩⟩ := recv_frame s th tm h
  · rw [hq]
    exact hg.calm
  · rw [hq]
    exact hg.calm.pop hp

theorem step_good (hg : Good s) (hc : Careful s a) (hu : Unforced s a) (h : step s a = some t) :
    Good t := by
  cases a with
  | reconnect th h' startToRecv => cases h; exact hg.reconnect th h' startToRecv
  | disconnect th h' =>
    cases h
    obtain ⟨hq, hs, hh⟩ := disconnect_frame s th h'
    exact ⟨by rw [hs, hh, hq]; exact hg.inv.disconnect (hg.calm.own h'),
      by rw [hq]; exact hg.calm.disconnect h'⟩
  | send force tm h' data =>
    cases h
    exact hg.send hc hu
  | recv th tm h' => cases h; exact hg.recv th tm h'
  | drop n => cases h; exact ⟨inv_drop hg.inv hc, by rw [drop_que]; exact hg.calm⟩

theorem Good.safe (hg : Good s) : Safe s := by
  refine ⟨fun k hk => (hg.inv.taken hk).notFree, dropsOnce hg.inv, hg.inv.covers.sound.nodup, ?_⟩
  rintro i j c ⟨b, hb⟩ ⟨b', hb'⟩ hi hj
  exact hg.inv.covers.apart hb hb' hi hj

end Steps

/-- Both policies, every run without a forced push. -/
theorem safe_of_run (rp : Relat) (ccId : Nat → MsgId) {acts : List Act}
    {s : Chan (policy rp)} (hr : Lib.Runs.run step (Chan.init (policy rp) ccId) acts = some s)
    (hu : Lib.Runs.Meets step Unforced (Chan.init (policy rp) ccId) acts)
    (hc : Lib.Runs.Meets step Careful (Chan.init (policy rp) ccId) acts) : Safe s :=
  Good.safe (Lib.Runs.run_invariant (fun _ _ _ hg hc h => step_good hg hc.1 hc.2 h)
    (init_good _ ccId) hr (hc.inter hu))

/-! ## Two receivers of one message -/

/-- The calls of these runs are `try_send`. -/
def Tries : Act → Prop
  | .send force _ _ _ => force = false
  | _ => True

theorem meets_unforced {s : Chan B} {acts : List Act} (ht : ∀ a ∈ acts, Tries a) :
    Lib.Runs.Meets step Unforced s acts := by
  induction acts generalizing s with
  | nil => trivial
  | cons a acts ih =>
    refine ⟨?_, fun t _ => ih fun a ha => ht a (List.mem_cons_of_mem _ ha)⟩
    have := ht a List.mem_cons_self
    cases a with
    | send force tm h data =>
      obtain rfl : force = false := this
      exact unforced_try s tm h data
    | _ => trivial

def handleIds (h : Nat) : MsgId := BitVec.ofNat 32 (h + 1)

/-- Handles 0 and 1 receive, handle 2 sends 65 bytes, and handle 0 takes its buffer. -/
def oneLarge : List Act :=
  [.reconnect 0 0 true, .reconnect 1 1 true, .send false 0 2 (List.replicate 65 0), .recv 0 0 0]

instance Careful.decidable (s : Chan B) : (a : Act) → Decidable (Careful s a)
  | .send _ _ _ data => inferInstanceAs (Decidable (data.length < 2 ^ 31))
  | .drop n => inferInstanceAs (Decidable (∀ k ∈ s.held[n]?, ∀ k' ∈ s.held.eraseIdx n,
    k'.index = k.index → connected k.currConns k'.connId = true))
  | .reconnect _ _ _ | .disconnect _ _ | .recv _ _ _ => isTrue trivial

/-- Both take their buffers, and one leaves after it has dropped its own. -/
def leavesAfter : List Act := oneLarge ++ [.recv 1 0 1, .drop 0, .disconnect 0 0]

theorem safe_leavesAfter : ∃ s : Chan (policy .single),
    Lib.Runs.run step (Chan.init _ handleIds) leavesAfter = some s ∧ s.held.length = 1 ∧ Safe s := by
  have hr : Lib.Runs.run step (Chan.init (policy .single) handleIds) leavesAfter = some _ := rfl
  exact ⟨_, hr, by decide +kernel, safe_of_run .single handleIds hr
    (meets_unforced (by simp [leavesAfter, oneLarge, Tries])) (by decide +kernel)⟩

/-- One leaves with its buffer before the other takes its own. -/
def leavesBefore : List Act := oneLarge ++ [.disconnect 0 0, .recv 1 0 1, .drop 1]

/-- The drop of the second buffer releases the chunk under the first, whose drop releases
it again. -/
theorem not_safe_leavesBefore : ∃ s : Chan (policy .single),
    Lib.Runs.run step (Chan.init _ handleIds) leavesBefore = some s ∧
      Lib.Runs.Meets step Unforced (Chan.init (policy .single) handleIds) leavesBefore ∧
      ¬ Safe s ∧ ¬ Safe (s.drop 0) := by
  refine ⟨_, rfl, meets_unforced (by simp [leavesBefore, oneLarge, Tries]), fun hs => ?_, fun hs => ?_⟩
  · have := hs.held
    revert this
    decide +kernel
  · have := hs.nodup (calcChunkSize 65)
    revert this
    decide +kernel

end CppIpc.Recycling
