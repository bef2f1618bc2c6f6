import CppIpc.Lib.Places

/-! # Critical sections

Threads that work on a shared memory in single accesses, each inside a section that it
enters and leaves. Where nobody enters while another is inside, the memory is the one that
the sections left so far have made, but for what the one inside has done. -/
namespace CppIpc.Lib.Sections
open CppIpc.Lib.Places (of_update update_cases update_outside)

/-- What is done inside: `next` makes one access, or has nothing left to do and returns. -/
structure Object (Op Local Mem Res : Type) where
  start : Op → Local
  next : Local → Mem → (Local × Mem) ⊕ Res

variable {Op Local Mem Res T : Type}

section Object
variable (o : Object Op Local Mem Res)

/-- A section from a local state to its end, with nobody else at the memory. -/
inductive Object.Ends : Local → Mem → Res → Mem → Prop
  | ret {l : Local} {m : Mem} {r : Res} (h : o.next l m = .inr r) : Ends l m r m
  | access {l l' : Local} {m m' m'' : Mem} {r : Res} (h : o.next l m = .inl (l', m'))
      (hrest : Ends l' m' r m'') : Ends l m r m''

/-- The accesses so far. -/
inductive Object.Reaches (l₀ : Local) (m₀ : Mem) : Local → Mem → Prop
  | start : Reaches l₀ m₀ l₀ m₀
  | access {l l' : Local} {m m' : Mem} (h : Reaches l₀ m₀ l m) (hn : o.next l m = .inl (l', m')) :
      Reaches l₀ m₀ l' m'

variable {o} {l l' l₀ : Local} {m m' m₀ : Mem} {r : Res}

theorem Object.ends_access (h : o.next l m = .inl (l', m')) {m'' : Mem} :
    o.Ends l m r m'' ↔ o.Ends l' m' r m'' := by
  constructor
  · intro he
    cases he with
    | ret hr => rw [h] at hr; cases hr
    | access hn hrest =>
      rw [h] at hn
      cases hn
      exact hrest
  · exact .access h

theorem Object.ends_ret (h : o.next l m = .inr r) {r' : Res} {m'' : Mem} :
    o.Ends l m r' m'' ↔ r' = r ∧ m'' = m := by
  constructor
  · intro he
    cases he with
    | ret hr =>
      rw [h] at hr
      cases hr
      exact ⟨rfl, rfl⟩
    | access hn => rw [h] at hn; cases hn
  · rintro ⟨rfl, rfl⟩
    exact .ret h

theorem Object.Reaches.ends (h : o.Reaches l₀ m₀ l m) (he : o.Ends l m r m') :
    o.Ends l₀ m₀ r m' := by
  induction h with
  | start => exact he
  | access _ hn ih => exact ih (.access hn he)

end Object

/-- Where a thread stands; `leaving` with the result, and still inside. -/
inductive Pc (Op Local Res : Type) where
  | outside
  | waiting (op : Op)
  | inside (op : Op) (l : Local)
  | leaving (op : Op) (r : Res)
deriving DecidableEq

def Pc.Inside : Pc Op Local Res → Prop
  | .inside .. | .leaving .. => True
  | .outside | .waiting _ => False

theorem Pc.inside_of {pc : Pc Op Local Res} {op : Op} {l : Local} (h : pc = .inside op l) :
    pc.Inside := by
  rw [h]
  trivial

/-- `log` keeps the sections that have come to their end, the last one last. -/
structure St (T Op Local Mem Res : Type) where
  mem : Mem
  pc : T → Pc Op Local Res
  log : List (Op × Res)

def St.init (T : Type) (m : Mem) : St T Op Local Mem Res := ⟨m, fun _ => .outside, []⟩

inductive Act (T Op : Type) where
  | call (t : T) (op : Op)
  | enter (t : T)
  | access (t : T)
  | leave (t : T)

variable [DecidableEq T] (o : Object Op Local Mem Res)

def St.goto (s : St T Op Local Mem Res) (t : T) (pc : Pc Op Local Res) : St T Op Local Mem Res :=
  { s with pc := Function.update s.pc t pc }

theorem goto_of_ne {s : St T Op Local Mem Res} {t t' : T} {pc : Pc Op Local Res} (h : t' ≠ t) :
    (s.goto t pc).pc t' = s.pc t' := Function.update_of_ne h ..

def step (s : St T Op Local Mem Res) : Act T Op → Option (St T Op Local Mem Res)
  | .call t op =>
    match s.pc t with
    | .outside => some (s.goto t (.waiting op))
    | _ => none
  | .enter t =>
    match s.pc t with
    | .waiting op => some (s.goto t (.inside op (o.start op)))
    | _ => none
  | .access t =>
    match s.pc t with
    | .inside op l =>
      match o.next l s.mem with
      | .inl (l', m) => some { s.goto t (.inside op l') with mem := m }
      | .inr r => some { s.goto t (.leaving op r) with log := s.log ++ [(op, r)] }
    | _ => none
  | .leave t =>
    match s.pc t with
    | .leaving .. => some (s.goto t .outside)
    | _ => none

/-- The memory is `m` but for what the one inside has done. -/
structure Behind (m : Mem) (s : St T Op Local Mem Res) : Prop where
  one : ∀ t t', (s.pc t).Inside → (s.pc t').Inside → t = t'
  reached : ∀ t op l, s.pc t = .inside op l → o.Reaches (o.start op) m l s.mem
  quiet : (∀ t op l, s.pc t ≠ .inside op l) → s.mem = m

/-- What a step does: the end of a section is the only one that adds to the log. -/
inductive Step (s : St T Op Local Mem Res) : Act T Op → St T Op Local Mem Res → Prop
  | call (t : T) (op : Op) (hpc : s.pc t = .outside) : Step s (.call t op) (s.goto t (.waiting op))
  | enter (t : T) (op : Op) (hpc : s.pc t = .waiting op) :
      Step s (.enter t) (s.goto t (.inside op (o.start op)))
  | access (t : T) (op : Op) (l l' : Local) (m : Mem) (hpc : s.pc t = .inside op l)
      (hn : o.next l s.mem = .inl (l', m)) :
      Step s (.access t) { s.goto t (.inside op l') with mem := m }
  | ends (t : T) (op : Op) (l : Local) (r : Res) (hpc : s.pc t = .inside op l)
      (hn : o.next l s.mem = .inr r) :
      Step s (.access t) { s.goto t (.leaving op r) with log := s.log ++ [(op, r)] }
  | leave (t : T) (op : Op) (r : Res) (hpc : s.pc t = .leaving op r) :
      Step s (.leave t) (s.goto t .outside)

variable {o} {s s' : St T Op Local Mem Res} {a : Act T Op} {m : Mem}

theorem step_cases (h : step o s a = some s') : Step o s a s' := by
  cases a with
  | call t op =>
    simp only [step] at h
    split at h
    · cases h; exact .call t op ‹_›
    · cases h
  | enter t =>
    simp only [step] at h
    split at h
    · cases h; exact .enter t _ ‹_›
    · cases h
  | access t =>
    simp only [step] at h
    split at h
    · split at h
      · cases h; exact .access t _ _ _ _ ‹_› ‹_›
      · cases h; exact .ends t _ _ _ ‹_› ‹_›
    · cases h
  | leave t =>
    simp only [step] at h
    split at h
    · cases h; exact .leave t _ _ ‹_›
    · cases h

omit [DecidableEq T] in
theorem behind_init (m : Mem) : Behind o m (St.init T m : St T Op Local Mem Res) where
  one _ _ h := h.elim
  reached _ _ _ h := by cases h
  quiet _ := rfl

namespace Behind
variable {t : T} {pc : Pc Op Local Res}

/-- A thread goes from outside of the sections to outside of them. -/
theorem apart (hb : Behind o m s) (h : ¬ (s.pc t).Inside) (h' : ¬ pc.Inside) :
    Behind o m (s.goto t pc) := by
  have hsame : ∀ t' op l, (s.goto t pc).pc t' = .inside op l ↔ s.pc t' = .inside op l := by
    intro t' op l
    exact update_outside (P := fun x => x = Pc.inside op l) (fun he => h (Pc.inside_of he))
      (fun he => h' (Pc.inside_of he))
  refine ⟨fun t₁ t₂ h₁ h₂ => ?_, fun t' op l hpc => ?_, fun hq => ?_⟩
  · exact hb.one t₁ t₂ (of_update h₁ h').2 (of_update h₂ h').2
  · exact hb.reached t' op l ((hsame t' op l).mp hpc)
  · exact hb.quiet fun t' op l hpc => hq t' op l ((hsame t' op l).mpr hpc)

/-- The one inside goes on; whoever is there is this thread. -/
theorem only (hb : Behind o m s) (h : (s.pc t).Inside) (pc : Pc Op Local Res) {t' : T}
    (ht : ((s.goto t pc).pc t').Inside) : t' = t := by
  by_contra hne
  rw [goto_of_ne hne] at ht
  exact hne (hb.one t' t ht h)

/-- Where nobody is inside, the memory is what the sections have left. -/
theorem enter {op : Op} (hb : Behind o m s) (h : ∀ t', ¬ (s.pc t').Inside) :
    Behind o m (s.goto t (.inside op (o.start op))) := by
  have hthis : ∀ t', ((s.goto t (.inside op (o.start op))).pc t').Inside → t' = t := by
    intro t' ht
    by_contra hne
    rw [goto_of_ne hne] at ht
    exact h t' ht
  refine ⟨fun t₁ t₂ h₁ h₂ => by rw [hthis t₁ h₁, hthis t₂ h₂], fun t' op' l' hpc => ?_,
    fun hq => ?_⟩
  · rcases update_cases hpc with ⟨-, he⟩ | ⟨-, he⟩
    · cases he
      have hmem : s.mem = m := hb.quiet fun t₁ op₁ l₁ h₁ => h t₁ (Pc.inside_of h₁)
      rw [← hmem]
      exact .start
    · exact absurd (Pc.inside_of he) (h t')
  · exact absurd (Function.update_self ..) (hq t op (o.start op))

theorem access {op : Op} {l l' : Local} {m' : Mem} (hb : Behind o m s) (hpc : s.pc t = .inside op l)
    (hn : o.next l s.mem = .inl (l', m')) :
    Behind o m { s.goto t (.inside op l') with mem := m' } := by
  have hin : (s.pc t).Inside := Pc.inside_of hpc
  refine ⟨fun t₁ t₂ h₁ h₂ => ?_, fun t' op' l₁ hpc' => ?_, fun hq => ?_⟩
  · rw [hb.only hin _ h₁, hb.only hin _ h₂]
  · rcases update_cases hpc' with ⟨-, he⟩ | ⟨hne, he⟩
    · cases he
      exact (hb.reached t op l hpc).access hn
    · exact absurd (hb.one t' t (Pc.inside_of he) hin) hne
  · exact absurd (Function.update_self ..) (hq t op l')

/-- A section that comes to its end has done what it does by itself. -/
theorem ends {op : Op} {l : Local} {r : Res} (hb : Behind o m s) (hpc : s.pc t = .inside op l)
    (hn : o.next l s.mem = .inr r) :
    o.Ends (o.start op) m r s.mem ∧
      Behind o s.mem { s.goto t (.leaving op r) with log := s.log ++ [(op, r)] } := by
  have hin : (s.pc t).Inside := Pc.inside_of hpc
  refine ⟨(hb.reached t op l hpc).ends (.ret hn), fun t₁ t₂ h₁ h₂ => ?_, fun t' op' l' hpc' => ?_,
    fun _ => rfl⟩
  · rw [hb.only hin _ h₁, hb.only hin _ h₂]
  · rcases update_cases hpc' with ⟨-, he⟩ | ⟨hne, he⟩
    · cases he
    · exact absurd (hb.one t' t (Pc.inside_of he) hin) hne

theorem nobody (hb : Behind o m s) (h : (s.pc t).Inside) (t' : T) :
    ¬ ((s.goto t .outside).pc t').Inside := by
  intro ht
  rw [hb.only h _ ht, St.goto] at ht
  simp only [Function.update_self] at ht
  exact ht

theorem leave {op : Op} {r : Res} (hb : Behind o m s) (hpc : s.pc t = .leaving op r) :
    Behind o m (s.goto t .outside) := by
  have hin : (s.pc t).Inside := by
    rw [hpc]
    trivial
  have hout := hb.nobody hin
  refine ⟨fun t₁ _ h₁ _ => absurd h₁ (hout t₁), fun t' op' l' hpc' =>
    absurd (Pc.inside_of hpc') (hout t'), fun _ => ?_⟩
  refine hb.quiet fun t' op' l' hpc' => ?_
  have ht := hb.one t' t (Pc.inside_of hpc') hin
  rw [ht, hpc] at hpc'
  cases hpc'

end Behind

end CppIpc.Lib.Sections
