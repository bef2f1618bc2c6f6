import CppIpc.Lib.Runs
import Mathlib.Logic.Function.Basic

/-! # `chan_wrapper`

The wrapper of `ipc.h` over `detail_impl`. A `conn_info` belongs to one wrapper at a
time, so that the handle is the `conn_info` itself. What shared memory answers during a
call is in the action. -/
namespace CppIpc.ChanWrapper
open CppIpc.Lib.Runs (run Meets meets_congr)

/-! ## `detail_impl` -/

/-- `ipc::make_string`; a null pointer is `none`. -/
def makeString (s : Option String) : String := s.getD ""

/-- The members of `queue_conn` and `queue_base` that are not in shared memory: whether
`elems_` is not null, whether `connected_` is not 0, and `sender_flag_`. -/
structure Queue where
  valid : Bool
  connected : Bool
  senderFlag : Bool
deriving DecidableEq

structure ConnInfo where
  pref : String
  name : String
  que : Queue
deriving DecidableEq

/-- What the environment answers: whether the `conn_info` is allocated, the queue is
opened, the receiver is still listed, a receiver and a sender are admitted. -/
structure Env where
  made : Bool
  opened : Bool
  listed : Bool
  joined : Bool
  sending : Bool

def Queue.open (q : Queue) (e : Env) : Queue :=
  if q.valid then q else { q with valid := e.opened }

def Queue.isConnected (q : Queue) (e : Env) : Bool := q.connected && e.listed

def Queue.connect (q : Queue) (e : Env) : Queue × Bool :=
  if q.valid = false then (q, false)
  else if q.isConnected e then (q, true)
  else ({ q with connected := e.joined }, e.joined)

def Queue.disconnect (q : Queue) (e : Env) : Queue :=
  if q.valid && q.isConnected e then { q with connected := false } else q

def Queue.readySending (q : Queue) (e : Env) : Queue × Bool :=
  if q.valid = false then (q, false)
  else ({ q with senderFlag := q.senderFlag || e.sending }, q.senderFlag || e.sending)

/-- `conn_info_t::init`. The names of all that it opens are made of `pref` and `name`. -/
def ConnInfo.init (i : ConnInfo) (e : Env) : ConnInfo := { i with que := i.que.open e }

def ConnInfo.new (pref name : Option String) (e : Env) : ConnInfo :=
  ConnInfo.init ⟨makeString pref, makeString name, ⟨false, false, false⟩⟩ e

def ConnInfo.setQue (i : ConnInfo) (q : Queue) : ConnInfo := { i with que := q }

/-- `shut_sending` changes only the shared memory. -/
def detailDisconnect (h : Option ConnInfo) (e : Env) : Option ConnInfo :=
  h.map fun i => i.setQue (i.que.disconnect e)

/-- No result where the process ends: without `elems_`, `que->connected()` reads through
a null pointer. -/
def detailReconnect (h : Option ConnInfo) (startToRecv : Bool) (e : Env) :
    Option (Option ConnInfo × Bool) :=
  match h with
  | none => some (none, false)
  | some i =>
    let i := i.init e
    if startToRecv then
      let r := i.que.connect e
      some (some (i.setQue r.1), r.2)
    else if i.que.valid = false then none
    else
      let r := (i.que.disconnect e).readySending e
      some (some (i.setQue r.1), r.2)

def detailConnect (h : Option ConnInfo) (pref name : Option String) (startToRecv : Bool)
    (e : Env) : Option (Option ConnInfo × Bool) :=
  match h with
  | none => detailReconnect (if e.made then some (.new pref name e) else none) startToRecv e
  | some i => detailReconnect (some i) startToRecv e

/-! ## The wrapper -/

def sender : BitVec 32 := 0
def receiver : BitVec 32 := 1

structure Wrapper where
  h : Option ConnInfo
  mode : BitVec 32
  connected : Bool
deriving DecidableEq

def Wrapper.default : Wrapper := ⟨none, sender, false⟩

def Wrapper.name (w : Wrapper) : Option String := w.h.map ConnInfo.name

/-- Without a prefix, `pref` is null. -/
def Wrapper.connect (w : Wrapper) (pref name : Option String) (mode : BitVec 32) (e : Env) :
    Option (Wrapper × Bool) :=
  if makeString name = "" then some (w, false)
  else
    (detailConnect (detailDisconnect w.h e) pref name (mode &&& receiver != 0) e).map fun r =>
      (⟨r.1, mode, r.2⟩, r.2)

def Wrapper.reconnect (w : Wrapper) (mode : BitVec 32) (e : Env) : Option (Wrapper × Bool) :=
  if w.h = none then some (w, false)
  else if w.connected && w.mode == mode then some (w, true)
  else
    (detailReconnect w.h (mode &&& receiver != 0) e).map fun r => (⟨r.1, mode, r.2⟩, r.2)

def Wrapper.disconnect (w : Wrapper) (e : Env) : Wrapper :=
  if w.h = none then w else { w with h := detailDisconnect w.h e, connected := false }

/-- `release` and `clear`, which leave the mode and `connected_`. -/
def Wrapper.release (w : Wrapper) : Wrapper := { w with h := none }

/-- `chan_wrapper { name(), mode_ }`. -/
def Wrapper.clone (w : Wrapper) (e : Env) : Option Wrapper :=
  (Wrapper.default.connect none w.name w.mode e).map Prod.fst

/-! ## Sequences of operations -/

abbrev Chan := String × String

def ConnInfo.chan (i : ConnInfo) : Chan := (i.pref, i.name)

/-- A wrapper, and the channel that was asked for: by the last `connect` that returned
true, or by `clone`. -/
structure Held where
  wrapper : Wrapper
  asked : Option Chan

def Held.default : Held := ⟨.default, none⟩

def Held.connect (x : Held) (pref name : Option String) (mode : BitVec 32) (e : Env) :
    Option Held :=
  (x.wrapper.connect pref name mode e).map fun r =>
    ⟨r.1, if r.2 then some (makeString pref, makeString name) else x.asked⟩

def Held.reconnect (x : Held) (mode : BitVec 32) (e : Env) : Option Held :=
  (x.wrapper.reconnect mode e).map fun r => ⟨r.1, x.asked⟩

def Held.clone (x : Held) (e : Env) : Option Held :=
  (x.wrapper.clone e).map fun w => ⟨w, if w.h.isSome then x.wrapper.h.map ConnInfo.chan else none⟩

variable {W : Type}

inductive Op (W : Type) where
  | default (w : W)
  | construct (w : W) (pref name : Option String) (mode : BitVec 32)
  | connect (w : W) (pref name : Option String) (mode : BitVec 32)
  | reconnect (w : W) (mode : BitVec 32)
  | disconnect (w : W)
  | release (w : W)
  | clear (w : W)
  | swap (w v : W)
  /-- `v` is constructed from `w`. -/
  | move (w v : W)
  /-- `v = std::move(w)`. -/
  | assign (w v : W)
  /-- `v` is constructed from `w.clone()`. -/
  | clone (w v : W)
  | destroy (w : W)

/-- The wrappers that exist, under the names of type `W`. -/
abbrev St (W : Type) := W → Option Held

section Step
variable [DecidableEq W]

def St.put (s : St W) (w : W) (x : Held) : St W := Function.update s w (some x)

def step (s : St W) : Op W × Env → Option (St W)
  | (.default w, _) => if (s w).isNone then some (s.put w .default) else none
  | (.construct w pref name mode, e) =>
    if (s w).isNone then (Held.default.connect pref name mode e).map (s.put w) else none
  | (.connect w pref name mode, e) =>
    (s w).bind fun x => (x.connect pref name mode e).map (s.put w)
  | (.reconnect w mode, e) => (s w).bind fun x => (x.reconnect mode e).map (s.put w)
  | (.disconnect w, e) => (s w).map fun x => s.put w ⟨x.wrapper.disconnect e, x.asked⟩
  | (.release w, _) | (.clear w, _) => (s w).map fun x => s.put w ⟨x.wrapper.release, none⟩
  | (.swap w v, _) => (s w).bind fun x => (s v).map fun y => (s.put w y).put v x
  | (.move w v, _) =>
    if (s v).isNone then (s w).map fun x => (s.put w .default).put v x else none
  | (.assign w v, _) => (s w).bind fun x => (s v).map fun _ => (s.put w .default).put v x
  | (.clone w v, e) =>
    if (s v).isNone then (s w).bind fun x => (x.clone e).map (s.put v) else none
  | (.destroy w, _) => (s w).map fun _ => Function.update s w none

end Step

/-! ## What the wrapper promises -/

/-- Every handle is on the channel that was asked for. -/
def Bound (s : St W) : Prop :=
  ∀ w x c, s w = some x → x.asked = some c → x.wrapper.h.map ConnInfo.chan = some c

/-- Whatever the environment answers, the handles are bound afterwards. -/
def Sound [DecidableEq W] (s : St W) (a : Op W × Env) : Prop :=
  ∀ e s', step s (a.1, e) = some s' → Bound s'

/-- A `connect` of a wrapper that has a handle names the channel of the handle, and a
wrapper that is cloned has no prefix. -/
def Fits (s : St W) : Op W × Env → Prop
  | (.connect w pref name _, _) => makeString name ≠ "" →
    ∀ x i, s w = some x → x.wrapper.h = some i → i.chan = (makeString pref, makeString name)
  | (.clone w v, _) => s v = none → ∀ x i, s w = some x → x.wrapper.h = some i → i.pref = ""
  | _ => True

/-! ## The invariant -/

structure Held.Ok (x : Held) : Prop where
  bound : ∀ c, x.asked = some c → x.wrapper.h.map ConnInfo.chan = some c
  named : ∀ i, x.wrapper.h = some i → i.name ≠ ""

def Inv (s : St W) : Prop := ∀ w x, s w = some x → x.Ok

theorem Inv.bound {s : St W} (hi : Inv s) : Bound s := fun w x c hx hc => (hi w x hx).bound c hc

theorem Held.Ok.default : Held.default.Ok := ⟨nofun, nofun⟩

/-- No handle changes its channel. -/
theorem detailReconnect_chan {h h' : Option ConnInfo} {r b : Bool} {e : Env}
    (hr : detailReconnect h r e = some (h', b)) :
    h'.map ConnInfo.chan = h.map ConnInfo.chan ∧ (b = true → h' ≠ none) := by
  unfold detailReconnect at hr
  split at hr
  · cases hr
    exact ⟨rfl, nofun⟩
  · simp only at hr
    split at hr
    · cases hr
      exact ⟨rfl, nofun⟩
    · split at hr
      · cases hr
      · cases hr
        exact ⟨rfl, nofun⟩

theorem detailDisconnect_chan (h : Option ConnInfo) (e : Env) :
    (detailDisconnect h e).map ConnInfo.chan = h.map ConnInfo.chan := by
  cases h <;> rfl

/-- A handle that exists is used as it is; one that is made is made for the name. -/
theorem detailConnect_chan {h h' : Option ConnInfo} {pref name : Option String} {r b : Bool}
    {e : Env} (hr : detailConnect h pref name r e = some (h', b)) :
    (h'.map ConnInfo.chan = h.map ConnInfo.chan ∨
      (h = none ∧ h'.map ConnInfo.chan = some (makeString pref, makeString name))) ∧
    (b = true → h' ≠ none) := by
  unfold detailConnect at hr
  split at hr
  · obtain ⟨hc, hb⟩ := detailReconnect_chan hr
    refine ⟨?_, hb⟩
    cases hm : e.made with
    | true => exact .inr ⟨rfl, hc.trans (by rw [hm]; rfl)⟩
    | false => exact .inl (hc.trans (by rw [hm]; rfl))
  · exact (detailReconnect_chan hr).imp_left .inl

/-- What a `connect` does to the channel of the handle. -/
theorem Wrapper.connect_chan {w w' : Wrapper} {pref name : Option String} {mode : BitVec 32}
    {e : Env} {b : Bool} (h : w.connect pref name mode e = some (w', b)) :
    (w'.h.map ConnInfo.chan = w.h.map ConnInfo.chan ∨
      (w.h = none ∧ makeString name ≠ "" ∧
        w'.h.map ConnInfo.chan = some (makeString pref, makeString name))) ∧
    (b = true → w'.h ≠ none ∧ makeString name ≠ "") := by
  unfold Wrapper.connect at h
  split at h
  · cases h
    exact ⟨.inl rfl, nofun⟩
  · rename_i hname
    obtain ⟨r, hr, he⟩ := Option.map_eq_some_iff.mp h
    cases he
    obtain ⟨hchan, hb⟩ := detailConnect_chan hr
    refine ⟨?_, fun ht => ⟨hb ht, hname⟩⟩
    obtain hchan | ⟨hnone, hchan⟩ := hchan
    · exact .inl (hchan.trans (detailDisconnect_chan w.h e))
    · exact .inr ⟨Option.map_eq_none_iff.mp hnone, hname, hchan⟩

theorem Held.Ok.connect {x y : Held} {pref name : Option String} {mode : BitVec 32} {e : Env}
    (hx : x.Ok) (hfit : makeString name ≠ "" →
      ∀ i, x.wrapper.h = some i → i.chan = (makeString pref, makeString name))
    (h : x.connect pref name mode e = some y) : y.Ok := by
  obtain ⟨⟨w', b⟩, hr, he⟩ := Option.map_eq_some_iff.mp h
  obtain ⟨hchan, hb⟩ := Wrapper.connect_chan hr
  subst he
  refine ⟨fun c hc => ?_, fun i hi => ?_⟩
  · cases b with
    | true =>
      cases hc
      obtain ⟨hsome, hname⟩ := hb rfl
      obtain hchan | ⟨-, -, hchan⟩ := hchan
      · cases hw : x.wrapper.h with
        | some i => rw [hchan, hw, Option.map_some, hfit hname i hw]
        | none =>
          rw [hw] at hchan
          exact absurd (Option.map_eq_none_iff.mp hchan) hsome
      · exact hchan
    | false =>
      have hold := hx.bound c hc
      obtain hchan | ⟨hnone, -, -⟩ := hchan
      · exact hchan.trans hold
      · rw [hnone] at hold
        cases hold
  · have hi : w'.h = some i := hi
    rw [hi] at hchan
    obtain hchan | ⟨-, hname, hchan⟩ := hchan
    · obtain ⟨j, hj, hji⟩ := Option.map_eq_some_iff.mp hchan.symm
      have : j.name = i.name := congrArg Prod.snd hji
      exact this ▸ hx.named j hj
    · have : i.name = makeString name := congrArg Prod.snd (Option.some.inj hchan)
      exact this ▸ hname

/-- The channel of the handle is kept, or the handle is gone. -/
theorem Held.Ok.keep {x y : Held} (hx : x.Ok)
    (hh : y.wrapper.h.map ConnInfo.chan = x.wrapper.h.map ConnInfo.chan)
    (hasked : y.asked = x.asked) : y.Ok where
  bound c hc := hh.trans (hx.bound c (hasked ▸ hc))
  named i hi := by
    rw [hi] at hh
    obtain ⟨j, hj, hji⟩ := Option.map_eq_some_iff.mp hh.symm
    have : j.name = i.name := congrArg Prod.snd hji
    exact this ▸ hx.named j hj

theorem Held.Ok.reconnect {x y : Held} {mode : BitVec 32} {e : Env} (hx : x.Ok)
    (h : x.reconnect mode e = some y) : y.Ok := by
  obtain ⟨r, hr, he⟩ := Option.map_eq_some_iff.mp h
  subst he
  refine hx.keep ?_ rfl
  unfold Wrapper.reconnect at hr
  split at hr
  · cases hr
    rfl
  · split at hr
    · cases hr
      rfl
    · obtain ⟨q, hq, he⟩ := Option.map_eq_some_iff.mp hr
      subst he
      exact (detailReconnect_chan hq).1

theorem Held.Ok.disconnect {x : Held} (hx : x.Ok) (e : Env) :
    Held.Ok ⟨x.wrapper.disconnect e, x.asked⟩ := by
  refine hx.keep ?_ rfl
  change (x.wrapper.disconnect e).h.map ConnInfo.chan = _
  unfold Wrapper.disconnect
  split
  · rfl
  · exact detailDisconnect_chan x.wrapper.h e

theorem Held.Ok.clone {x y : Held} {e : Env}
    (hfit : ∀ i, x.wrapper.h = some i → i.pref = "") (h : x.clone e = some y) : y.Ok := by
  obtain ⟨w, hw, he⟩ := Option.map_eq_some_iff.mp h
  obtain ⟨⟨w', b⟩, hr, he'⟩ := Option.map_eq_some_iff.mp hw
  subst he he'
  obtain ⟨hchan, -⟩ := Wrapper.connect_chan hr
  obtain hchan | ⟨-, hname, hchan⟩ := hchan
  · have hnone : w'.h = none := Option.map_eq_none_iff.mp hchan
    refine ⟨fun c hc => ?_, fun i hi => ?_⟩
    · rw [hnone] at hc
      cases hc
    · cases hnone.symm.trans hi
  · obtain ⟨j, hj, hji⟩ := Option.map_eq_some_iff.mp hchan
    -- the original has a handle, since it has a name
    cases hx' : x.wrapper.h with
    | none =>
      rw [Wrapper.name, hx'] at hname
      exact absurd rfl hname
    | some i =>
      rw [Wrapper.name, hx'] at hji hname
      refine ⟨fun c hc => ?_, fun k hk => ?_⟩
      · rw [hj] at hc
        have hc : i.chan = c := Option.some.inj hc
        rw [← hc, hj, Option.map_some, hji]
        exact congrArg some (Prod.ext (hfit i hx').symm rfl)
      · have hk : j = k := Option.some.inj (hj.symm.trans hk)
        have : j.name = i.name := congrArg Prod.snd hji
        rw [← hk, this]
        exact hname

section Steps
variable [DecidableEq W] {s s' : St W} {w : W} {x : Held}

theorem Inv.put (hi : Inv s) (hx : x.Ok) : Inv (s.put w x) := fun v y hv => by
  by_cases he : v = w
  · subst he
    rw [St.put, Function.update_self] at hv
    cases hv
    exact hx
  · rw [St.put, Function.update_of_ne he] at hv
    exact hi v y hv

theorem Inv.step {a : Op W × Env} (hi : Inv s) (hfit : Fits s a)
    (h : ChanWrapper.step s a = some s') : Inv s' := by
  obtain ⟨op, e⟩ := a
  cases op with
  | default w =>
    simp only [ChanWrapper.step] at h
    split at h
    · cases h
      exact hi.put .default
    · cases h
  | construct w pref name mode =>
    simp only [ChanWrapper.step] at h
    split at h
    · obtain ⟨y, hy, rfl⟩ := Option.map_eq_some_iff.mp h
      exact hi.put (Held.Ok.default.connect (fun _ => nofun) hy)
    · cases h
  | connect w pref name mode =>
    obtain ⟨x, hx, h⟩ := Option.bind_eq_some_iff.mp h
    obtain ⟨y, hy, rfl⟩ := Option.map_eq_some_iff.mp h
    exact hi.put ((hi w x hx).connect (fun hname i hxi => hfit hname x i hx hxi) hy)
  | reconnect w mode =>
    obtain ⟨x, hx, h⟩ := Option.bind_eq_some_iff.mp h
    obtain ⟨y, hy, rfl⟩ := Option.map_eq_some_iff.mp h
    exact hi.put ((hi w x hx).reconnect hy)
  | disconnect w =>
    obtain ⟨x, hx, rfl⟩ := Option.map_eq_some_iff.mp h
    exact hi.put ((hi w x hx).disconnect e)
  | release w | clear w =>
    obtain ⟨x, hx, rfl⟩ := Option.map_eq_some_iff.mp h
    exact hi.put ⟨nofun, nofun⟩
  | swap w v =>
    obtain ⟨x, hx, h⟩ := Option.bind_eq_some_iff.mp h
    obtain ⟨y, hy, rfl⟩ := Option.map_eq_some_iff.mp h
    exact (hi.put (hi v y hy)).put (hi w x hx)
  | move w v =>
    simp only [ChanWrapper.step] at h
    split at h
    · obtain ⟨x, hx, rfl⟩ := Option.map_eq_some_iff.mp h
      exact (hi.put .default).put (hi w x hx)
    · cases h
  | assign w v =>
    obtain ⟨x, hx, h⟩ := Option.bind_eq_some_iff.mp h
    obtain ⟨y, hy, rfl⟩ := Option.map_eq_some_iff.mp h
    exact (hi.put .default).put (hi w x hx)
  | clone w v =>
    simp only [ChanWrapper.step] at h
    split at h
    · rename_i hv
      obtain ⟨x, hx, h⟩ := Option.bind_eq_some_iff.mp h
      obtain ⟨y, hy, rfl⟩ := Option.map_eq_some_iff.mp h
      exact hi.put (.clone (hfit (Option.isNone_iff_eq_none.mp hv) x · hx) hy)
    · cases h
  | destroy w =>
    obtain ⟨x, hx, rfl⟩ := Option.map_eq_some_iff.mp h
    intro v y hv
    by_cases he : v = w
    · rw [he, Function.update_self] at hv
      cases hv
    · rw [Function.update_of_ne he] at hv
      exact hi v y hv

/-! ## An environment that admits everything -/

def Env.open : Env := ⟨true, true, true, true, true⟩

omit [DecidableEq W] in
theorem detailReconnect_open (i : ConnInfo) (r : Bool) :
    ∃ q, detailReconnect (some i) r .open = some (some (i.setQue q), true) := by
  obtain ⟨pref, name, ⟨valid, connected, senderFlag⟩⟩ := i
  cases valid <;> cases connected <;> cases senderFlag <;> cases r <;> exact ⟨_, rfl⟩

theorem Held.connect_open {i : ConnInfo} {name : Option String} (pref : Option String)
    (mode : BitVec 32)
    (hname : makeString name ≠ "") (hi : x.wrapper.h = some i) :
    ∃ w, w.h.map ConnInfo.chan = some i.chan ∧
      x.connect pref name mode .open = some ⟨w, some (makeString pref, makeString name)⟩ := by
  obtain ⟨q, hq⟩ := detailReconnect_open (i.setQue (i.que.disconnect .open)) (mode &&& receiver != 0)
  refine ⟨⟨some (i.setQue q), mode, true⟩, rfl, ?_⟩
  unfold Held.connect Wrapper.connect
  rw [if_neg hname, hi]
  change Option.map _ (Option.map _ (detailReconnect (some (i.setQue _)) _ _)) = _
  rw [hq]
  rfl

theorem Held.clone_open {i : ConnInfo} (hname : i.name ≠ "") (hi : x.wrapper.h = some i) :
    ∃ w, w.h.map ConnInfo.chan = some ("", i.name) ∧ x.clone .open = some ⟨w, some i.chan⟩ := by
  obtain ⟨q, hq⟩ := detailReconnect_open (.new none (some i.name) .open)
    (x.wrapper.mode &&& receiver != 0)
  refine ⟨⟨some ((ConnInfo.new none (some i.name) .open).setQue q), x.wrapper.mode, true⟩, rfl, ?_⟩
  unfold Held.clone Wrapper.clone Wrapper.connect Wrapper.name
  rw [hi]
  simp only [Option.map_some]
  rw [if_neg (show makeString (some i.name) ≠ "" from hname)]
  change Option.map _ (Option.map _ (Option.map _
    (detailReconnect (some (ConnInfo.new none (some i.name) .open)) _ .open))) = _
  rw [hq]
  rfl

theorem Inv.sound_iff (hi : Inv s) (a : Op W × Env) : Sound s a ↔ Fits s a := by
  constructor
  · intro hs
    obtain ⟨op, e⟩ := a
    cases op with
    | connect w pref name mode =>
      intro hname x i hx hxi
      obtain ⟨y, hy, hc⟩ := Held.connect_open pref mode hname hxi
      have hstep : ChanWrapper.step s (.connect w pref name mode, .open) =
          some (s.put w ⟨y, some (makeString pref, makeString name)⟩) := by
        simp only [ChanWrapper.step, hx, Option.bind_some, hc, Option.map_some]
      have := hs .open _ hstep w _ _ (Function.update_self ..) rfl
      exact Option.some.inj (hy.symm.trans this)
    | clone w v =>
      intro hv x i hx hxi
      obtain ⟨y, hy, hc⟩ := Held.clone_open ((hi w x hx).named i hxi) hxi
      have hstep : ChanWrapper.step s (.clone w v, .open) = some (s.put v ⟨y, some i.chan⟩) := by
        simp only [ChanWrapper.step, hv, hx, Option.isNone_none, if_true, Option.bind_some, hc,
          Option.map_some]
      have := hs .open _ hstep v _ _ (Function.update_self ..) rfl
      exact (congrArg Prod.fst (Option.some.inj (hy.symm.trans this))).symm
    | _ => trivial
  · intro hfit e s' h
    have hfit' : Fits s (a.1, e) := by
      obtain ⟨op, e'⟩ := a
      cases op <;> exact hfit
    exact (hi.step hfit' h).bound

end Steps

section Runs
variable [DecidableEq W]

/-- In a sequence of operations all handles stay on the channels that were asked for,
exactly if every `connect` of a wrapper with a handle names the channel of the handle and
no wrapper with a prefix is cloned. -/
theorem bound_iff_fits (acts : List (Op W × Env)) :
    Meets step Sound (fun _ : W => none) acts ↔ Meets step Fits (fun _ => none) acts :=
  (meets_congr (P := Inv) (fun _ a hi => (hi.sound_iff a).symm)
    (fun _ _ _ hi hu h => hi.step hu h) nofun).symm

/-- A wrapper is connected to channel `a`, then to `b` with a prefix. -/
def renamed : List (Op Unit × Env) :=
  [(.construct () none (some "a") sender, .open),
    (.connect () (some "p") (some "b") (sender ||| receiver), .open)]

theorem not_bound_renamed : ∃ s x, run step (fun _ : Unit => none) renamed = some s ∧
    s () = some x ∧ x.wrapper.connected = true ∧ x.asked = some ("p", "b") ∧
    x.wrapper.h.map ConnInfo.chan = some ("", "a") ∧ ¬ Bound s := by
  refine ⟨_, _, rfl, rfl, rfl, rfl, rfl, fun h => ?_⟩
  have := h () _ _ rfl rfl
  exact absurd this (by decide)

end Runs

end CppIpc.ChanWrapper
