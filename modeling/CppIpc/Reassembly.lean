import CppIpc.Fragments
import CppIpc.Lib.Runs
import Mathlib.Logic.Function.Basic

/-! # Whose fragments the receive cache holds

`recv_cache()` is a `thread_local` map keyed by the message id alone. Every handle
a thread receives from shares it, `disconnect_receiver` clears it whole, and a
handle that another thread receives from leaves its half-assembled messages
behind. The machine has any number of threads and handles; beside the caches it
keeps, for the statements only, which handle opened each entry, and what each
handle has popped and returned. -/
namespace CppIpc.Reassembly
open CppIpc.Def CppIpc.Message
open CppIpc.Lib.Runs (run Meets)

/-! ## Threads and handles -/

structure Sys where
  cache : Nat → RecvCache
  owner : Nat → MsgId → Nat
  popped : Nat → List MsgT
  out : Nat → List Buff

def Sys.init : Sys where
  cache := fun _ => []
  owner := fun _ _ => 0
  popped := fun _ => []
  out := fun _ => []

/-- `recv t h msg` is a turn of `recv` on handle `h` in thread `t` that popped `msg`;
`disconnect t h dis` is `disconnect_receiver`, where `dis` is what `que_.disconnect()`
returned; the cache of a thread goes with the thread. -/
inductive Act where
  | recv (t h : Nat) (msg : MsgT)
  | disconnect (t h : Nat) (dis : Bool)
  | exit (t : Nat)

variable (ctx : Nat → RecvCtx)

def Sys.recv (s : Sys) (t h : Nat) (msg : MsgT) : Sys :=
  let turn := recvMsg (ctx h) (s.cache t) msg
  { cache := Function.update s.cache t turn.cache
    owner := if Opens (ctx h) (s.cache t) msg then
      Function.update s.owner t (Function.update (s.owner t) msg.id h) else s.owner
    popped := Function.update s.popped h (s.popped h ++ [msg])
    out := Function.update s.out h (s.out h ++ turn.buff.toList) }

def Sys.clear (s : Sys) (t : Nat) : Sys := { s with cache := Function.update s.cache t [] }

def step (s : Sys) : Act → Option Sys
  | .recv t h msg => some (s.recv ctx t h msg)
  | .disconnect t _ dis => some (if dis then s.clear t else s)
  | .exit t => some (s.clear t)

/-- A handle with a cache of its own: what its turns return for the elements it
pops, and what is left half assembled. -/
def alone (h : RecvCtx) (q : List MsgT) : List Buff × RecvCache :=
  q.foldl (fun r msg => (r.1 ++ (recvMsg h r.2 msg).buff.toList, (recvMsg h r.2 msg).cache))
    ([], [])

theorem alone_snoc (h : RecvCtx) (q : List MsgT) (msg : MsgT) :
    alone h (q ++ [msg]) = ((alone h q).1 ++ (recvMsg h (alone h q).2 msg).buff.toList,
      (recvMsg h (alone h q).2 msg).cache) := by
  rw [alone, List.foldl_append]
  rfl

/-- What handle `h` would have half assembled in a cache of its own. -/
def Sys.own (s : Sys) (h : Nat) : RecvCache := (alone (ctx h) (s.popped h)).2

/-- The cache of thread `t` holds an entry for `k` that handle `h` opened. -/
def Sys.Holds (s : Sys) (h t : Nat) (k : MsgId) : Prop :=
  (s.cache t).find k ≠ none ∧ s.owner t k = h

/-- Nothing comes between handle `h` and its half-assembled messages: its own turns
find no entry of another handle under the id, nor leave one of their own behind in
another thread; the turns of others do not meet its entries; no cache that holds
one of them is cleared; and the collection that starts at 1024 entries spares those
that it would spare in a cache of the handle's own. -/
def Separate (h : Nat) (s : Sys) : Act → Prop
  | .recv t h' msg => Reaches (ctx h') msg →
    if h' = h then
      ((s.cache t).find msg.id ≠ none → s.owner t msg.id = h) ∧
      (∀ t', t' ≠ t → ¬ s.Holds h t' msg.id) ∧
      (Opens (ctx h) (s.cache t) msg → ∀ t' k, s.Holds h t' k →
        (Collects (s.own ctx h).length msg.id k ↔
          t' = t ∧ Collects (s.cache t).length msg.id k))
    else
      ¬ s.Holds h t msg.id ∧
      (Opens (ctx h') (s.cache t) msg → ∀ k, s.Holds h t k →
        ¬ Collects (s.cache t).length msg.id k)
  | .disconnect t _ dis => dis = true → ∀ k, ¬ s.Holds h t k
  | .exit t => ∀ k, ¬ s.Holds h t k

/-- The entries of handle `h`, wherever they are, are those of its own cache, each
in one thread, and it has returned what it would have returned with that cache. -/
structure Kept (h : Nat) (s : Sys) : Prop where
  entry : ∀ t k, s.Holds h t k → (s.cache t).find k = (s.own ctx h).find k
  held : ∀ k, (s.own ctx h).find k ≠ none → ∃ t, s.Holds h t k
  one : ∀ t t' k, s.Holds h t k → s.Holds h t' k → t = t'
  out : s.out h = (alone (ctx h) (s.popped h)).1

theorem init_kept (h : Nat) : Kept ctx h Sys.init where
  entry := fun _ _ hh => absurd rfl hh.1
  held := fun _ hh => absurd rfl hh
  one := fun _ _ _ hh => absurd rfl hh.1
  out := rfl

variable {ctx} {s : Sys} {h t : Nat} {msg : MsgT}

@[simp] theorem clear_own : (s.clear t).own ctx h = s.own ctx h := rfl

theorem clear_holds {t' : Nat} {k : MsgId} :
    (s.clear t).Holds h t' k ↔ t' ≠ t ∧ s.Holds h t' k := by
  unfold Sys.Holds Sys.clear
  by_cases ht : t' = t
  · simp [ht, RecvCache.find]
  · simp [ht]

/-- Clearing a cache that holds nothing of the handle. -/
theorem Kept.clear (hk : Kept ctx h s) (hn : ∀ k, ¬ s.Holds h t k) : Kept ctx h (s.clear t) where
  entry := by
    intro t' k hh
    obtain ⟨ht, hh⟩ := clear_holds.mp hh
    rw [clear_own, ← hk.entry t' k hh, Sys.clear]
    exact congrArg (RecvCache.find · k) (Function.update_of_ne ht _ _)
  held := by
    intro k hf
    obtain ⟨t', hh⟩ := hk.held k hf
    refine ⟨t', clear_holds.mpr ⟨fun ht => hn k (ht ▸ hh), hh⟩⟩
  one := fun t' t'' k hh hh' => hk.one t' t'' k (clear_holds.mp hh).2 (clear_holds.mp hh').2
  out := hk.out

/-! ## A turn of another handle -/

theorem recv_owner (h' t' : Nat) (k : MsgId) :
    (s.recv ctx t h' msg).owner t' k =
      if Opens (ctx h') (s.cache t) msg ∧ t' = t ∧ k = msg.id then h' else s.owner t' k := by
  unfold Sys.recv
  by_cases ho : Opens (ctx h') (s.cache t) msg
  · simp only [ho, true_and, if_true]
    by_cases ht : t' = t
    · subst ht
      rw [Function.update_self, Function.update_apply]
      simp
    · rw [Function.update_of_ne ht, if_neg fun hc => ht hc.1]
  · rw [if_neg ho, if_neg fun hc => ho hc.1]

theorem recv_cache_self (h' : Nat) :
    (s.recv ctx t h' msg).cache t = (recvMsg (ctx h') (s.cache t) msg).cache :=
  Function.update_self ..

theorem recv_cache_of_ne (h' : Nat) {t' : Nat} (ht : t' ≠ t) :
    (s.recv ctx t h' msg).cache t' = s.cache t' := Function.update_of_ne ht _ _

/-- In the other threads nothing changes. -/
theorem recv_holds_elsewhere (h' : Nat) {t' : Nat} (ht : t' ≠ t) (k : MsgId) :
    (s.recv ctx t h' msg).Holds h t' k ↔ s.Holds h t' k := by
  rw [Sys.Holds, Sys.Holds, recv_cache_of_ne h' ht, recv_owner, if_neg fun hc => ht hc.2.1]

/-- An entry that stays under another id keeps its owner. -/
theorem recv_holds_other (h' : Nat) {k : MsgId} (hk : k ≠ msg.id) :
    (s.recv ctx t h' msg).Holds h t k ↔ s.Holds h t k ∧
      ¬ (Opens (ctx h') (s.cache t) msg ∧ Collects (s.cache t).length msg.id k) := by
  rw [Sys.Holds, Sys.Holds, recv_cache_self, recv_owner, if_neg fun hc => hk hc.2.2,
    find_other hk]
  split
  · rename_i hc
    simp [hc]
  · rename_i hc
    simp [hc]

theorem recv_own_of_ne {h' : Nat} (hne : h' ≠ h) :
    (s.recv ctx t h' msg).own ctx h = s.own ctx h := by
  simp only [Sys.own, Sys.recv, Function.update_of_ne hne.symm]

/-- It neither gives the handle an entry nor takes one away. -/
theorem recv_holds_of_ne {h' : Nat} (hne : h' ≠ h) (hsep : Separate ctx h s (.recv t h' msg))
    (t' : Nat) (k : MsgId) :
    ((s.recv ctx t h' msg).Holds h t' k ↔ s.Holds h t' k) ∧
      (s.Holds h t' k → ((s.recv ctx t h' msg).cache t').find k = (s.cache t').find k) := by
  by_cases ht : t' = t
  · subst ht
    by_cases hr : Reaches (ctx h') msg
    · obtain ⟨hfree, hgc⟩ := (if_neg hne ▸ hsep hr :)
      by_cases hk : k = msg.id
      · -- the entry under the id was not the handle's, and a new one is not either
        subst hk
        refine ⟨⟨fun hh => ?_, fun hh => absurd hh hfree⟩, fun hh => absurd hh hfree⟩
        rw [Sys.Holds, recv_owner, recv_cache_self] at hh
        split at hh
        · exact absurd hh.2 hne
        · rename_i hop
          exact ⟨fun hn => hh.1 (find_self_none hn fun ho => hop ⟨ho, rfl, rfl⟩), hh.2⟩
      · rw [recv_holds_other h' hk]
        refine ⟨⟨fun hh => hh.1, fun hh => ⟨hh, fun hc => hgc hc.1 k hh hc.2⟩⟩, fun hh => ?_⟩
        rw [recv_cache_self, find_other hk, if_neg fun hc => hgc hc.1 k hh hc.2]
    · have hc : (s.recv ctx t' h' msg).cache t' = s.cache t' := by
        rw [recv_cache_self, (recvMsg_unreached hr _).1]
      rw [Sys.Holds, Sys.Holds, hc, recv_owner, if_neg fun ho => hr ho.1.1]
      exact ⟨Iff.rfl, fun _ => rfl⟩
  · exact ⟨recv_holds_elsewhere h' ht k, fun _ => by rw [recv_cache_of_ne h' ht]⟩

theorem Kept.recv_of_ne {h' : Nat} (hk : Kept ctx h s) (hne : h' ≠ h)
    (hsep : Separate ctx h s (.recv t h' msg)) : Kept ctx h (s.recv ctx t h' msg) := by
  have hholds := recv_holds_of_ne hne hsep
  refine ⟨?_, ?_, ?_, ?_⟩
  · intro t' k hh
    have hh := (hholds t' k).1.mp hh
    rw [recv_own_of_ne hne, (hholds t' k).2 hh, hk.entry t' k hh]
  · intro k hf
    rw [recv_own_of_ne hne] at hf
    obtain ⟨t', hh⟩ := hk.held k hf
    exact ⟨t', (hholds t' k).1.mpr hh⟩
  · intro t' t'' k hh hh'
    exact hk.one t' t'' k ((hholds t' k).1.mp hh) ((hholds t'' k).1.mp hh')
  · simpa only [Sys.recv, Function.update_of_ne hne.symm] using hk.out

/-! ## A turn of the handle itself -/

theorem recv_own : (s.recv ctx t h msg).own ctx h =
    (recvMsg (ctx h) (s.own ctx h) msg).cache := by
  simp only [Sys.own, Sys.recv, Function.update_self, alone_snoc]

/-- The thread's cache and the handle's own one have the same entry under the id. -/
theorem Kept.find_eq (hk : Kept ctx h s) (hsep : Separate ctx h s (.recv t h msg))
    (hr : Reaches (ctx h) msg) : (s.cache t).find msg.id = (s.own ctx h).find msg.id := by
  obtain ⟨howner, helse, -⟩ := (if_pos rfl ▸ hsep hr :)
  by_cases hf : (s.cache t).find msg.id = none
  · rw [hf]
    by_contra hown
    obtain ⟨t', hh⟩ := hk.held msg.id (Ne.symm hown)
    by_cases ht : t' = t
    · subst ht; exact hh.1 hf
    · exact helse t' ht hh
  · exact hk.entry t msg.id ⟨hf, howner hf⟩

/-- Under the id, the handle holds an entry in this thread or none. -/
theorem recv_holds_self (hsep : Separate ctx h s (.recv t h msg)) (hr : Reaches (ctx h) msg)
    (t' : Nat) : (s.recv ctx t h msg).Holds h t' msg.id ↔
      t' = t ∧ (recvMsg (ctx h) (s.cache t) msg).cache.find msg.id ≠ none := by
  obtain ⟨howner, helse, -⟩ := (if_pos rfl ▸ hsep hr :)
  by_cases ht : t' = t
  · subst ht
    rw [Sys.Holds, recv_cache_self, recv_owner]
    refine ⟨fun hh => ⟨rfl, hh.1⟩, fun hh => ⟨hh.2, ?_⟩⟩
    split
    · rfl
    · rename_i hop
      apply howner
      exact fun hn => hh.2 (find_self_none hn fun ho => hop ⟨ho, rfl, rfl⟩)
  · rw [recv_holds_elsewhere h ht]
    exact ⟨fun hh => absurd hh (helse t' ht), fun hh => absurd hh.1 ht⟩

/-- Under another id, the handle loses what its own cache would collect. -/
theorem recv_holds_kept (hk : Kept ctx h s) (hsep : Separate ctx h s (.recv t h msg))
    (hr : Reaches (ctx h) msg) {k : MsgId} (hne : k ≠ msg.id) (t' : Nat) :
    (s.recv ctx t h msg).Holds h t' k ↔ s.Holds h t' k ∧
      ¬ (Opens (ctx h) (s.own ctx h) msg ∧ Collects (s.own ctx h).length msg.id k) := by
  obtain ⟨-, -, hgc⟩ := (if_pos rfl ▸ hsep hr :)
  have hopen : Opens (ctx h) (s.own ctx h) msg ↔ Opens (ctx h) (s.cache t) msg := by
    rw [Opens, Opens, hk.find_eq hsep hr]
  rw [hopen]
  by_cases ht : t' = t
  · subst ht
    rw [recv_holds_other h hne]
    refine and_congr_right fun hh => not_congr (and_congr_right fun ho => ?_)
    rw [hgc ho t' k hh]
    exact ⟨fun hc => ⟨rfl, hc⟩, fun hc => hc.2⟩
  · rw [recv_holds_elsewhere h ht]
    refine ⟨fun hh => ⟨hh, fun hc => ?_⟩, fun hh => hh.1⟩
    exact ht ((hgc hc.1 t' k hh).mp hc.2).1

/-- What remains under another id is what was there. -/
theorem recv_find_kept {k : MsgId} (hne : k ≠ msg.id) {t' : Nat}
    (hh : (s.recv ctx t h msg).Holds h t' k) :
    ((s.recv ctx t h msg).cache t').find k = (s.cache t').find k := by
  by_cases ht : t' = t
  · subst ht
    rw [recv_cache_self, find_other hne, if_neg ((recv_holds_other h hne).mp hh).2]
  · rw [recv_cache_of_ne h ht]

theorem Kept.recv_self (hk : Kept ctx h s) (hsep : Separate ctx h s (.recv t h msg)) :
    Kept ctx h (s.recv ctx t h msg) := by
  have hout : (s.recv ctx t h msg).out h =
      (alone (ctx h) ((s.recv ctx t h msg).popped h)).1 := by
    simp only [Sys.recv, Function.update_self, alone_snoc, hk.out]
    rw [recvMsg_agree fun hr => hk.find_eq hsep hr]
    rfl
  by_cases hr : Reaches (ctx h) msg
  · have hfind := find_self hr (hk.find_eq hsep hr)
    refine ⟨?_, ?_, ?_, hout⟩
    · intro t' k hh
      by_cases hne : k = msg.id
      · subst hne
        obtain ⟨rfl, -⟩ := (recv_holds_self hsep hr t').mp hh
        rw [recv_cache_self, recv_own, hfind]
      · obtain ⟨hold, hc⟩ := (recv_holds_kept hk hsep hr hne t').mp hh
        rw [recv_find_kept hne hh, recv_own, find_other hne, if_neg hc, hk.entry t' k hold]
    · intro k hf
      rw [recv_own] at hf
      by_cases hne : k = msg.id
      · subst hne
        exact ⟨t, (recv_holds_self hsep hr t).mpr ⟨rfl, by rwa [hfind]⟩⟩
      · rw [find_other hne] at hf
        split at hf
        · exact absurd rfl hf
        · rename_i hc
          obtain ⟨t', hh⟩ := hk.held k hf
          exact ⟨t', (recv_holds_kept hk hsep hr hne t').mpr ⟨hh, hc⟩⟩
    · intro t' t'' k hh hh'
      by_cases hne : k = msg.id
      · subst hne
        rw [((recv_holds_self hsep hr t').mp hh).1, ((recv_holds_self hsep hr t'').mp hh').1]
      · exact hk.one t' t'' k ((recv_holds_kept hk hsep hr hne t').mp hh).1
          ((recv_holds_kept hk hsep hr hne t'').mp hh').1
  · have hcache : (s.recv ctx t h msg).cache = s.cache := by
      simp only [Sys.recv, (recvMsg_unreached hr _).1, Function.update_eq_self]
    have hholds : ∀ t' k, (s.recv ctx t h msg).Holds h t' k ↔ s.Holds h t' k := by
      intro t' k
      rw [Sys.Holds, Sys.Holds, hcache, recv_owner, if_neg fun ho => hr ho.1.1]
    have hown : (s.recv ctx t h msg).own ctx h = s.own ctx h := by
      rw [recv_own, (recvMsg_unreached hr _).1]
    refine ⟨?_, ?_, ?_, hout⟩
    · intro t' k hh
      rw [hcache, hown, hk.entry t' k ((hholds t' k).mp hh)]
    · intro k hf
      rw [hown] at hf
      obtain ⟨t', hh⟩ := hk.held k hf
      exact ⟨t', (hholds t' k).mpr hh⟩
    · intro t' t'' k hh hh'
      exact hk.one t' t'' k ((hholds t' k).mp hh) ((hholds t'' k).mp hh')

/-! ## Two runs -/

theorem Kept.step {a : Act} {s' : Sys} (hk : Kept ctx h s) (hsep : Separate ctx h s a)
    (hs : step ctx s a = some s') : Kept ctx h s' := by
  cases a with
  | recv t h' msg =>
    cases hs
    by_cases hne : h' = h
    · subst hne; exact hk.recv_self hsep
    · exact hk.recv_of_ne hne hsep
  | disconnect t h' dis =>
    cases hs
    cases dis with
    | true => exact hk.clear (hsep rfl)
    | false => exact hk
  | exit t =>
    cases hs
    exact hk.clear hsep

/-- A run that keeps to the condition gives the handle what it would have with a
cache of its own. -/
theorem out_of_run {acts : List Act} (hr : run (step ctx) Sys.init acts = some s)
    (hm : Meets (step ctx) (Separate ctx h) Sys.init acts) :
    s.out h = (alone (ctx h) (s.popped h)).1 :=
  (Lib.Runs.run_invariant (fun _ _ _ hk hsep hs => Kept.step hk hsep hs) (init_kept ctx h) hr hm).out

/-- **Reassembly per handle.** In two runs in which nothing comes between the handle
and its half-assembled messages, the same elements popped give the same buffers,
whatever the other handles do and in whichever threads. -/
theorem out_eq_of_popped (ctx : Nat → RecvCtx) (h : Nat) (acts acts' : List Act) (s s' : Sys)
    (hr : run (step ctx) Sys.init acts = some s)
    (hm : Meets (step ctx) (Separate ctx h) Sys.init acts)
    (hr' : run (step ctx) Sys.init acts' = some s')
    (hm' : Meets (step ctx) (Separate ctx h) Sys.init acts')
    (hp : s.popped h = s'.popped h) : s.out h = s'.out h := by
  rw [out_of_run hr hm, out_of_run hr' hm', hp]

/-! ## Runs in which something does -/

/-- Handles 0 and 1 are on two channels, each of which has a message with id 7. -/
def ctxs : Nat → RecvCtx := fun h => ⟨true, BitVec.ofNat 32 (10 + h)⟩

def short : Fragments.Sent := ⟨1, 7, List.replicate 65 1⟩
def long : Fragments.Sent := ⟨2, 7, List.replicate 130 2⟩
def next : Fragments.Sent := ⟨2, 8, List.replicate 130 3⟩

def undisturbed : List Act := [.recv 0 0 (short.elemAt 0), .recv 0 0 (short.elemAt 1)]

def collided : List Act := .recv 0 1 (long.elemAt 0) :: undisturbed

def cleared : List Act :=
  [.recv 0 0 (short.elemAt 0), .disconnect 0 1 true, .recv 0 0 (short.elemAt 1)]

def handedOver : List Act := [.recv 0 0 (short.elemAt 0), .recv 1 0 (short.elemAt 1)]

/-- Handle 0 pops the same elements as undisturbed and returns other buffers. -/
def Differs (acts : List Act) : Prop :=
  ∃ s s', run (step ctxs) Sys.init undisturbed = some s ∧ run (step ctxs) Sys.init acts = some s' ∧
    s.popped 0 = s'.popped 0 ∧ s.out 0 ≠ s'.out 0

/-- Another channel's message with the same id, another handle's disconnect and a
change of thread. -/
theorem out_ne_of_popped : Differs collided ∧ Differs cleared ∧ Differs handedOver :=
  ⟨⟨_, _, rfl, rfl, by decide +kernel, by decide +kernel⟩,
    ⟨_, _, rfl, rfl, by decide +kernel, by decide +kernel⟩,
    ⟨_, _, rfl, rfl, by decide +kernel, by decide +kernel⟩⟩

/-- The same two elements with a message of the other channel in between, begun in
one thread and disconnected in another. -/
def apart : List Act :=
  [.recv 0 0 (short.elemAt 0), .recv 0 1 (next.elemAt 0), .disconnect 1 1 true,
    .recv 0 0 (short.elemAt 1)]

theorem collects_small {n : Nat} {id k : MsgId} (hn : n ≤ 1024) : ¬ Collects n id k :=
  fun hc => absurd hc.1 (Nat.not_lt.mpr hn)

/-- Small caches are not collected, so a turn of the handle in its only thread need
only look under the id. -/
theorem separate_self (hsmall : (s.cache t).length ≤ 1024 ∧ (s.own ctx h).length ≤ 1024)
    (hid : (s.cache t).find msg.id ≠ none → s.owner t msg.id = h)
    (helse : ∀ t', t' ≠ t → s.cache t' = []) : Separate ctx h s (.recv t h msg) := by
  intro _
  rw [if_pos rfl]
  refine ⟨hid, fun t' ht hh => hh.1 (by rw [helse t' ht]; rfl), fun _ t' k _ => ?_⟩
  exact ⟨fun hc => absurd hc (collects_small hsmall.2),
    fun hc => absurd hc.2 (collects_small hsmall.1)⟩

theorem undisturbed_separate : Meets (step ctxs) (Separate ctxs 0) Sys.init undisturbed := by
  refine ⟨separate_self (by decide) (by decide) fun _ _ => rfl, ?_⟩
  rintro _ ⟨⟩
  refine ⟨separate_self (by decide +kernel) (by decide +kernel) fun t' ht => ?_, ?_⟩
  · exact recv_cache_of_ne 0 ht
  · rintro _ ⟨⟩
    trivial

theorem apart_separate : Meets (step ctxs) (Separate ctxs 0) Sys.init apart := by
  refine ⟨separate_self (by decide) (by decide) fun _ _ => rfl, ?_⟩
  rintro _ ⟨⟩
  refine ⟨fun _ => ?_, ?_⟩
  · rw [if_neg (by decide)]
    refine ⟨fun hh => hh.1 (by decide +kernel), fun _ k _ => collects_small (by decide +kernel)⟩
  rintro _ ⟨⟩
  have hcache : ∀ t', t' ≠ 0 → (((Sys.init.recv ctxs 0 0 (short.elemAt 0)).recv ctxs 0 1
      (next.elemAt 0)).cache t') = [] := by
    intro t' ht
    rw [recv_cache_of_ne 1 ht, recv_cache_of_ne 0 ht]
    rfl
  refine ⟨fun _ k hh => hh.1 (by rw [hcache 1 (by decide)]; rfl), ?_⟩
  rintro _ ⟨⟩
  refine ⟨separate_self (by decide +kernel) (by decide +kernel) fun t' ht => ?_, ?_⟩
  · by_cases h1 : t' = 1
    · rw [h1]; rfl
    · exact (Function.update_of_ne h1 _ _).trans (hcache t' ht)
  · rintro _ ⟨⟩
    trivial

theorem out_eq_apart : ∃ s s', run (step ctxs) Sys.init undisturbed = some s ∧
    run (step ctxs) Sys.init apart = some s' ∧ s.popped 0 = s'.popped 0 ∧
      s.out 0 = s'.out 0 ∧ s.out 0 = [.cache (List.replicate 65 (some 1))] :=
  ⟨_, _, rfl, rfl, rfl, out_eq_of_popped ctxs 0 undisturbed apart _ _ rfl undisturbed_separate rfl
    apart_separate rfl, by decide +kernel⟩

end CppIpc.Reassembly
