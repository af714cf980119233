/-
Threads over a shared state with one lock.

A program gives the steps of a thread outside its critical sections, which
section it waits to enter, the steps inside, and the steps of the environment.
The lock is taken when a thread enters a section and given back when the section
ends, also when it ends by an exception.

`Run.exclusive` is mutual exclusion.  `Run.resource` is the rule for resource
invariants: `J` describes the shared state while the lock is free and `I` what
the thread in the section at program point `i` has made of it.
-/
import Mathlib.Logic.Function.Basic
import ReplicatedStore.Lib.Run

namespace ReplicatedStore
namespace Lib
namespace Monitor

/-- Where a thread is: outside the lock, or in a critical section. -/
inductive Local (ω ι : Type*)
  | out (w : ω)
  | inn (i : ι)

/-- The code the threads run.  `inside` ends the critical section by returning a
point outside. -/
structure Program (τ σ ω ι α ε : Type*) where
  outside : τ → ω → α → σ → Option (σ × ω)
  entry : ω → Option ι
  inside : τ → ι → α → σ → Option (σ × (ι ⊕ ω))
  env : ε → σ → Option σ

structure State (τ σ ω ι : Type*) where
  lock : Option τ
  shared : σ
  locals : τ → Local ω ι

inductive Label (τ α ε : Type*)
  | run (t : τ) (a : α)
  | enter (t : τ)
  | env (e : ε)
  deriving DecidableEq

variable {τ σ ω ι α ε : Type*} [DecidableEq τ] (P : Program τ σ ω ι α ε)

def step (s : State τ σ ω ι) : Label τ α ε → Option (State τ σ ω ι)
  | .run t a =>
    match s.locals t with
    | .out w => (P.outside t w a s.shared).map fun r =>
        { s with shared := r.1, locals := Function.update s.locals t (.out r.2) }
    | .inn i => (P.inside t i a s.shared).map fun r =>
        match r.2 with
        | .inl i' => { s with shared := r.1, locals := Function.update s.locals t (.inn i') }
        | .inr w =>
          { lock := none, shared := r.1, locals := Function.update s.locals t (.out w) }
  | .enter t =>
    match s.locals t with
    | .out w =>
      match P.entry w, s.lock with
      | some i, none => some
          { s with lock := some t, locals := Function.update s.locals t (.inn i) }
      | _, _ => none
    | .inn _ => none
  | .env e => (P.env e s.shared).map fun σ' => { s with shared := σ' }

/-- The five kinds of step. -/
inductive Step (s : State τ σ ω ι) : Label τ α ε → State τ σ ω ι → Prop
  | outside {t : τ} {a : α} {w w' : ω} {σ' : σ} (hl : s.locals t = .out w)
      (hs : P.outside t w a s.shared = some (σ', w')) :
      Step s (.run t a)
        { s with shared := σ', locals := Function.update s.locals t (.out w') }
  | inside {t : τ} {a : α} {i i' : ι} {σ' : σ} (hl : s.locals t = .inn i)
      (hs : P.inside t i a s.shared = some (σ', .inl i')) :
      Step s (.run t a)
        { s with shared := σ', locals := Function.update s.locals t (.inn i') }
  | leave {t : τ} {a : α} {i : ι} {w : ω} {σ' : σ} (hl : s.locals t = .inn i)
      (hs : P.inside t i a s.shared = some (σ', .inr w)) :
      Step s (.run t a)
        { lock := none, shared := σ', locals := Function.update s.locals t (.out w) }
  | enter {t : τ} {w : ω} {i : ι} (hl : s.locals t = .out w) (he : P.entry w = some i)
      (hlock : s.lock = none) :
      Step s (.enter t)
        { s with lock := some t, locals := Function.update s.locals t (.inn i) }
  | env {e : ε} {σ' : σ} (hs : P.env e s.shared = some σ') :
      Step s (.env e) { s with shared := σ' }

theorem Step.of_step {s s' : State τ σ ω ι} {l : Label τ α ε}
    (h : step P s l = some s') : Step P s l s' := by
  cases l with
  | run t a =>
    cases hl : s.locals t with
    | out w =>
      simp only [step, hl, Option.map_eq_some_iff] at h
      obtain ⟨⟨σ', w'⟩, hs, rfl⟩ := h
      exact .outside hl hs
    | inn i =>
      simp only [step, hl, Option.map_eq_some_iff] at h
      obtain ⟨⟨σ', i' | w⟩, hs, rfl⟩ := h
      · exact .inside hl hs
      · exact .leave hl hs
  | enter t =>
    cases hl : s.locals t with
    | out w =>
      simp only [step, hl] at h
      split at h
      · rename_i i he hlock
        obtain rfl := Option.some.inj h
        exact .enter hl he hlock
      · cases h
    | inn i => simp only [step, hl] at h; cases h
  | env e =>
    simp only [step, Option.map_eq_some_iff] at h
    obtain ⟨σ', hs, rfl⟩ := h
    exact .env hs

/-- The thread that takes the step. -/
def Label.thread : Label τ α ε → Option τ
  | .run t _ => some t
  | .enter t => some t
  | .env _ => none

/-- The lock is held by exactly the thread in a critical section. -/
def Exclusive (s : State τ σ ω ι) : Prop :=
  ∀ t, s.lock = some t ↔ ∃ i, s.locals t = .inn i

omit [DecidableEq τ] in
theorem Exclusive.eq_of_inn {s : State τ σ ω ι} (h : Exclusive s) {t u : τ} {i j : ι}
    (ht : s.locals t = .inn i) (hu : s.locals u = .inn j) : t = u :=
  Option.some.inj (((h t).mpr ⟨i, ht⟩).symm.trans ((h u).mpr ⟨j, hu⟩))

omit [DecidableEq τ] in
theorem Exclusive.not_inn {s : State τ σ ω ι} (h : Exclusive s) (hlock : s.lock = none)
    {t : τ} {i : ι} : s.locals t ≠ .inn i := by
  intro hl
  have := (h t).mpr ⟨i, hl⟩
  rw [hlock] at this
  cases this

theorem Step.exclusive {s s' : State τ σ ω ι} {l : Label τ α ε} (h : Step P s l s')
    (hs : Exclusive s) : Exclusive s' := by
  intro u
  cases h with
  | @outside t a w w' σ' hl _ =>
    by_cases hu : u = t
    · subst hu
      have : s.lock ≠ some u := fun e => by
        obtain ⟨i, hi⟩ := (hs u).mp e
        rw [hl] at hi
        cases hi
      simpa [Function.update_self] using this
    · simpa [Function.update_of_ne hu] using hs u
  | @inside t a i i' σ' hl _ =>
    by_cases hu : u = t
    · subst hu
      simpa [Function.update_self] using (hs u).mpr ⟨i, hl⟩
    · simpa [Function.update_of_ne hu] using hs u
  | @leave t a i w σ' hl _ =>
    by_cases hu : u = t
    · subst hu
      simp [Function.update_self]
    · have : ∀ j, s.locals u ≠ .inn j := fun j hj => hu (hs.eq_of_inn hj hl)
      simpa [Function.update_of_ne hu] using this
  | @enter t w i hl _ hlock =>
    by_cases hu : u = t
    · subst hu
      simp [Function.update_self]
    · have : ∀ j, s.locals u ≠ .inn j := fun j => hs.not_inn hlock
      simpa [Function.update_of_ne hu, Ne.symm hu] using this
  | env _ => exact hs u

/-- The point the thread that holds the lock is at. -/
def State.holder (s : State τ σ ω ι) : Option ι :=
  match s.lock with
  | none => none
  | some t =>
    match s.locals t with
    | .inn i => some i
    | .out _ => none

variable {P} {ok : State τ σ ω ι → Label τ α ε → Prop}

theorem Run.exclusive {s₀ s : State τ σ ω ι} {tr : List (State τ σ ω ι × Label τ α ε)}
    (h : Run (step P) ok s₀ tr s) (h₀ : Exclusive s₀) : Exclusive s :=
  h.invariant (I := fun _ s => Exclusive s) h₀
    fun _ _ _ _ _ _ hs hI => (Step.of_step P hs).exclusive P hI

/-- What a step does to a thread outside its critical sections. -/
theorem Step.of_out {s s' : State τ σ ω ι} {l : Label τ α ε} {t : τ} {w : ω}
    (h : Step P s l s') (ht : s.locals t = .out w) :
    (l.thread ≠ some t ∧ s'.locals t = .out w) ∨
      (∃ a w', l = .run t a ∧ P.outside t w a s.shared = some (s'.shared, w') ∧
        s'.locals t = .out w') ∨
      (∃ i, l = .enter t ∧ P.entry w = some i ∧ s.lock = none ∧ s'.shared = s.shared ∧
        s'.locals t = .inn i) := by
  have hne : ∀ {u : τ} (hu : u ≠ t) (x : Local ω ι),
      Function.update s.locals u x t = .out w := fun hu x => by
    rw [Function.update_of_ne (Ne.symm hu)]
    exact ht
  cases h with
  | @outside u a w₀ w' σ' hl hs =>
    by_cases hu : u = t
    · subst hu
      obtain rfl : w₀ = w := Local.out.inj (hl.symm.trans ht)
      exact .inr (.inl ⟨a, w', rfl, hs, Function.update_self ..⟩)
    · exact .inl ⟨fun e => hu (Option.some.inj e), hne hu _⟩
  | @inside u a i i' σ' hl hs =>
    have hu : u ≠ t := fun e => by rw [e, ht] at hl; cases hl
    exact .inl ⟨fun e => hu (Option.some.inj e), hne hu _⟩
  | @leave u a i w' σ' hl hs =>
    have hu : u ≠ t := fun e => by rw [e, ht] at hl; cases hl
    exact .inl ⟨fun e => hu (Option.some.inj e), hne hu _⟩
  | @enter u w₀ i hl he hlock =>
    by_cases hu : u = t
    · subst hu
      obtain rfl : w₀ = w := Local.out.inj (hl.symm.trans ht)
      exact .inr (.inr ⟨i, rfl, he, hlock, rfl, Function.update_self ..⟩)
    · exact .inl ⟨fun e => hu (Option.some.inj e), hne hu _⟩
  | env _ => exact .inl ⟨by simp [Label.thread], ht⟩

/-- What a step does to the thread in a critical section. -/
theorem Step.of_inn {s s' : State τ σ ω ι} {l : Label τ α ε} {t : τ} {i : ι}
    (h : Step P s l s') (ht : s.locals t = .inn i) :
    (l.thread ≠ some t ∧ s'.locals t = .inn i) ∨
      (∃ a i', l = .run t a ∧ P.inside t i a s.shared = some (s'.shared, .inl i') ∧
        s'.locals t = .inn i') ∨
      (∃ a w, l = .run t a ∧ P.inside t i a s.shared = some (s'.shared, .inr w) ∧
        s'.locals t = .out w) := by
  have hne : ∀ {u : τ} (hu : u ≠ t) (x : Local ω ι),
      Function.update s.locals u x t = .inn i := fun hu x => by
    rw [Function.update_of_ne (Ne.symm hu)]
    exact ht
  cases h with
  | @outside u a w₀ w' σ' hl hs =>
    have hu : u ≠ t := fun e => by rw [e, ht] at hl; cases hl
    exact .inl ⟨fun e => hu (Option.some.inj e), hne hu _⟩
  | @inside u a i₀ i' σ' hl hs =>
    by_cases hu : u = t
    · subst hu
      obtain rfl : i₀ = i := Local.inn.inj (hl.symm.trans ht)
      exact .inr (.inl ⟨a, i', rfl, hs, Function.update_self ..⟩)
    · exact .inl ⟨fun e => hu (Option.some.inj e), hne hu _⟩
  | @leave u a i₀ w' σ' hl hs =>
    by_cases hu : u = t
    · subst hu
      obtain rfl : i₀ = i := Local.inn.inj (hl.symm.trans ht)
      exact .inr (.inr ⟨a, w', rfl, hs, Function.update_self ..⟩)
    · exact .inl ⟨fun e => hu (Option.some.inj e), hne hu _⟩
  | @enter u w₀ i' hl he hlock =>
    have hu : u ≠ t := fun e => by rw [e, ht] at hl; cases hl
    exact .inl ⟨fun e => hu (Option.some.inj e), hne hu _⟩
  | env _ => exact .inl ⟨by simp [Label.thread], ht⟩

/-- A step moves no thread but the one that takes it. -/
theorem Step.locals_of_ne {s s' : State τ σ ω ι} {l : Label τ α ε} {t : τ}
    (h : Step P s l s') (ht : l.thread ≠ some t) : s'.locals t = s.locals t := by
  cases hl : s.locals t with
  | out w =>
    rcases h.of_out hl with ⟨_, h'⟩ | ⟨a, w', rfl, _⟩ | ⟨i, rfl, _⟩
    · exact h'
    · exact absurd rfl ht
    · exact absurd rfl ht
  | inn i =>
    rcases h.of_inn hl with ⟨_, h'⟩ | ⟨a, i', rfl, _⟩ | ⟨a, w, rfl, _⟩
    · exact h'
    · exact absurd rfl ht
    · exact absurd rfl ht

/-! ## One critical section -/

/-- What a thread establishes when it takes the lock, and its own steps and those of
the threads outside keep, holds as long as it has the lock. -/
theorem Run.while_held {t : τ} {Q : List (State τ σ ω ι × Label τ α ε) → ι → σ → Prop}
    {s₀ s : State τ σ ω ι} {tr : List (State τ σ ω ι × Label τ α ε)} {i₀ : ι}
    (h : Run (step P) ok s₀ tr s) (hx : Exclusive s₀) (hl₀ : s₀.locals t = .inn i₀)
    (h₀ : Q [] i₀ s₀.shared) (hheld : ∀ e ∈ tr, e.1.lock = some t)
    (hin : ∀ {tr s a i i' σ'}, ok s (.run t a) → s.locals t = .inn i →
      P.inside t i a s.shared = some (σ', .inl i') → Q tr i s.shared →
      Q (tr ++ [(s, .run t a)]) i' σ')
    (hout : ∀ {tr s u a w w' σ' i}, ok s (.run u a) → s.locals u = .out w →
      P.outside u w a s.shared = some (σ', w') → s.locals t = .inn i → Q tr i s.shared →
      Q (tr ++ [(s, .run u a)]) i σ')
    (henv : ∀ {tr s e σ' i}, ok s (.env e) → P.env e s.shared = some σ' →
      s.locals t = .inn i → Q tr i s.shared → Q (tr ++ [(s, .env e)]) i σ') :
    ∀ i, s.locals t = .inn i → Q tr i s.shared := by
  refine h.invariant
    (I := fun tr s => (∀ e ∈ tr, e.1.lock = some t) → ∀ i, s.locals t = .inn i → Q tr i s.shared)
    ?_ ?_ hheld
  · intro _ i hi
    obtain rfl : i₀ = i := Local.inn.inj (hl₀.symm.trans hi)
    exact h₀
  · intro tr s l s' hrun hok hs ih hheld j hj
    have hexcl : Exclusive s := Run.exclusive hrun hx
    have hlock : s.lock = some t :=
      hheld (s, l) (List.mem_append_right _ (List.mem_singleton_self _))
    obtain ⟨i, hi⟩ := (hexcl t).mp hlock
    have hQ : Q tr i s.shared := ih (fun e he => hheld e (List.mem_append_left _ he)) i hi
    cases Step.of_step P hs with
    | @outside u a w w' σ' hl hp =>
      have hu : t ≠ u := fun e => by rw [← e, hi] at hl; cases hl
      simp only [Function.update_of_ne hu] at hj
      obtain rfl : i = j := Local.inn.inj (hi.symm.trans hj)
      exact hout hok hl hp hi hQ
    | @inside u a i₁ i' σ' hl hp =>
      obtain rfl : u = t := hexcl.eq_of_inn hl hi
      obtain rfl : i₁ = i := Local.inn.inj (hl.symm.trans hi)
      simp only [Function.update_self, Local.inn.injEq] at hj
      subst hj
      exact hin hok hl hp hQ
    | @leave u a i₁ w σ' hl hp =>
      obtain rfl : u = t := hexcl.eq_of_inn hl hi
      simp [Function.update_self] at hj
    | @enter u w i' hl he hnone =>
      rw [hlock] at hnone
      cases hnone
    | env hp =>
      obtain rfl : i = j := Local.inn.inj (hi.symm.trans hj)
      exact henv hok hp hi hQ

/-! ## One thread -/

/-- What each step of a thread keeps, and the steps of the others keep, holds along the
run. -/
theorem Run.thread {t : τ}
    {Q : List (State τ σ ω ι × Label τ α ε) → Local ω ι → σ → Prop}
    {s₀ s : State τ σ ω ι} {tr : List (State τ σ ω ι × Label τ α ε)}
    (h : Run (step P) ok s₀ tr s) (hx : Exclusive s₀) (h₀ : Q [] (s₀.locals t) s₀.shared)
    (hout : ∀ {tr s a w w' σ'}, ok s (.run t a) → s.locals t = .out w →
      P.outside t w a s.shared = some (σ', w') → Q tr (.out w) s.shared →
      Q (tr ++ [(s, .run t a)]) (.out w') σ')
    (henter : ∀ {tr s w i}, ok s (.enter t) → s.locals t = .out w → P.entry w = some i →
      Q tr (.out w) s.shared → Q (tr ++ [(s, .enter t)]) (.inn i) s.shared)
    (hin : ∀ {tr s a i i' σ'}, ok s (.run t a) → s.locals t = .inn i →
      P.inside t i a s.shared = some (σ', .inl i') → Q tr (.inn i) s.shared →
      Q (tr ++ [(s, .run t a)]) (.inn i') σ')
    (hleave : ∀ {tr s a i w σ'}, ok s (.run t a) → s.locals t = .inn i →
      P.inside t i a s.shared = some (σ', .inr w) → Q tr (.inn i) s.shared →
      Q (tr ++ [(s, .run t a)]) (.out w) σ')
    (hothers : ∀ {tr s l s'}, Run (Monitor.step P) ok s₀ tr s → Exclusive s → ok s l →
      Step P s l s' → l.thread ≠ some t → Q tr (s.locals t) s.shared →
      Q (tr ++ [(s, l)]) (s.locals t) s'.shared) : Q tr (s.locals t) s.shared := by
  refine h.invariant (I := fun tr s => Q tr (s.locals t) s.shared) h₀ ?_
  intro tr s l s' hrun hok hs hI
  have hstep := Step.of_step P hs
  by_cases hne : l.thread = some t
  · cases hl : s.locals t with
    | out w =>
      rw [hl] at hI
      rcases hstep.of_out hl with ⟨hn, _⟩ | ⟨a, w', rfl, hp, h'⟩ | ⟨i, rfl, he, _, hsh, h'⟩
      · exact absurd hne hn
      · rw [h']
        exact hout hok hl hp hI
      · rw [h', hsh]
        exact henter hok hl he hI
    | inn i =>
      rw [hl] at hI
      rcases hstep.of_inn hl with ⟨hn, _⟩ | ⟨a, i', rfl, hp, h'⟩ | ⟨a, w, rfl, hp, h'⟩
      · exact absurd hne hn
      · rw [h']
        exact hin hok hl hp hI
      · rw [h']
        exact hleave hok hl hp hI
  · rw [hstep.locals_of_ne hne]
    exact hothers hrun (Run.exclusive hrun hx) hok hstep hne hI

/-- The steps of a trace since the thread `t` last took the lock, the latest first. -/
def sinceEnter (t : τ) (tr : List (State τ σ ω ι × Label τ α ε)) :
    List (State τ σ ω ι × Label τ α ε) :=
  tr.reverse.takeWhile fun e =>
    match e.2 with
    | .enter u => u ≠ t
    | _ => true

theorem sinceEnter_enter (t : τ) (tr : List (State τ σ ω ι × Label τ α ε))
    (s : State τ σ ω ι) : sinceEnter t (tr ++ [(s, .enter t)]) = [] := by
  simp [sinceEnter]

theorem sinceEnter_run (t u : τ) (a : α) (tr : List (State τ σ ω ι × Label τ α ε))
    (s : State τ σ ω ι) :
    sinceEnter t (tr ++ [(s, .run u a)]) = (s, .run u a) :: sinceEnter t tr := by
  simp [sinceEnter]

theorem sinceEnter_env (t : τ) (e : ε) (tr : List (State τ σ ω ι × Label τ α ε))
    (s : State τ σ ω ι) :
    sinceEnter t (tr ++ [(s, .env e)]) = (s, .env e) :: sinceEnter t tr := by
  simp [sinceEnter]

/-! ## Resource invariants -/

/-- What the rule asks of a resource invariant: a section starts from the free
state, its steps keep what is known of its program point and its end restores the
free state, and nobody outside disturbs either. -/
structure Resource (P : Program τ σ ω ι α ε) (ok : State τ σ ω ι → Label τ α ε → Prop)
    (J : List (State τ σ ω ι × Label τ α ε) → σ → Prop)
    (I : List (State τ σ ω ι × Label τ α ε) → τ → ι → σ → Prop) : Prop where
  enter : ∀ {tr s t w i}, ok s (.enter t) → s.locals t = .out w → P.entry w = some i →
    J tr s.shared → I (tr ++ [(s, .enter t)]) t i s.shared
  inside : ∀ {tr s t a i i' σ'}, ok s (.run t a) → s.locals t = .inn i →
    P.inside t i a s.shared = some (σ', .inl i') → I tr t i s.shared →
    I (tr ++ [(s, .run t a)]) t i' σ'
  leave : ∀ {tr s t a i w σ'}, ok s (.run t a) → s.locals t = .inn i →
    P.inside t i a s.shared = some (σ', .inr w) → I tr t i s.shared →
    J (tr ++ [(s, .run t a)]) σ'
  outside_free : ∀ {tr s t a w w' σ'}, ok s (.run t a) → s.locals t = .out w →
    P.outside t w a s.shared = some (σ', w') → J tr s.shared →
    J (tr ++ [(s, .run t a)]) σ'
  outside_held : ∀ {tr s t a w w' σ' u i}, ok s (.run t a) → s.locals t = .out w →
    P.outside t w a s.shared = some (σ', w') → s.locals u = .inn i → I tr u i s.shared →
    I (tr ++ [(s, .run t a)]) u i σ'
  env_free : ∀ {tr s e σ'}, ok s (.env e) → P.env e s.shared = some σ' →
    s.lock = none → J tr s.shared → J (tr ++ [(s, .env e)]) σ'
  env_held : ∀ {tr s e σ' u i}, ok s (.env e) → P.env e s.shared = some σ' →
    s.lock = some u → s.locals u = .inn i → I tr u i s.shared →
    I (tr ++ [(s, .env e)]) u i σ'

/-- The resource invariant in one state. -/
structure Holds (J : List (State τ σ ω ι × Label τ α ε) → σ → Prop)
    (I : List (State τ σ ω ι × Label τ α ε) → τ → ι → σ → Prop)
    (tr : List (State τ σ ω ι × Label τ α ε)) (s : State τ σ ω ι) : Prop where
  free : s.lock = none → J tr s.shared
  held : ∀ t i, s.locals t = .inn i → I tr t i s.shared

variable {J : List (State τ σ ω ι × Label τ α ε) → σ → Prop}
  {I : List (State τ σ ω ι × Label τ α ε) → τ → ι → σ → Prop}

theorem Resource.step (hR : Resource P ok J I) {tr : List (State τ σ ω ι × Label τ α ε)}
    {s s' : State τ σ ω ι} {l : Label τ α ε} (hx : Exclusive s) (hok : ok s l)
    (hs : Step P s l s') (h : Holds J I tr s) : Holds J I (tr ++ [(s, l)]) s' := by
  cases hs with
  | @outside t a w w' σ' hl hs =>
    refine ⟨fun hlock => hR.outside_free hok hl hs (h.free hlock), fun u j hu => ?_⟩
    by_cases hut : u = t
    · subst hut
      simp [Function.update_self] at hu
    · simp only [Function.update_of_ne hut] at hu
      exact hR.outside_held hok hl hs hu (h.held u j hu)
  | @inside t a i i' σ' hl hs =>
    have hlock : s.lock = some t := (hx t).mpr ⟨i, hl⟩
    refine ⟨fun hnone => by simp [hlock] at hnone, fun u j hu => ?_⟩
    by_cases hut : u = t
    · subst hut
      simp only [Function.update_self, Local.inn.injEq] at hu
      subst hu
      exact hR.inside hok hl hs (h.held u i hl)
    · simp only [Function.update_of_ne hut] at hu
      exact absurd (hx.eq_of_inn hu hl) hut
  | @leave t a i w σ' hl hs =>
    refine ⟨fun _ => hR.leave hok hl hs (h.held t i hl), fun u j hu => ?_⟩
    by_cases hut : u = t
    · subst hut
      simp [Function.update_self] at hu
    · simp only [Function.update_of_ne hut] at hu
      exact absurd (hx.eq_of_inn hu hl) hut
  | @enter t w i hl he hlock =>
    refine ⟨fun hnone => by simp at hnone, fun u j hu => ?_⟩
    by_cases hut : u = t
    · subst hut
      simp only [Function.update_self, Local.inn.injEq] at hu
      subst hu
      exact hR.enter hok hl he (h.free hlock)
    · simp only [Function.update_of_ne hut] at hu
      exact absurd hu (hx.not_inn hlock)
  | @env e σ' hs =>
    exact ⟨fun hlock => hR.env_free hok hs hlock (h.free hlock),
      fun u j hu => hR.env_held hok hs ((hx u).mpr ⟨j, hu⟩) hu (h.held u j hu)⟩

/-- The resource invariant holds along every run. -/
theorem Run.resource {s₀ s : State τ σ ω ι} {tr : List (State τ σ ω ι × Label τ α ε)}
    (h : Run (Monitor.step P) ok s₀ tr s) (hR : Resource P ok J I) (hx : Exclusive s₀)
    (h₀ : Holds J I [] s₀) : Holds J I tr s :=
  h.invariant h₀ fun _ _ _ _ hrun hok hs hI =>
    hR.step (Run.exclusive hrun hx) hok (Step.of_step P hs) hI

end Monitor
end Lib
end ReplicatedStore
