/-
Runs of a labelled step function.

A run is recorded as its trace, the list of the steps taken, each with the state
it was taken in.  The trace is what the results about histories speak of: which
step came before which, and in which state.  The predicate `ok` narrows the
environment: a run of `Run step ok` takes only steps that satisfy it.
-/
import Mathlib.Data.List.Basic

namespace ReplicatedStore
namespace Lib

variable {σ α : Type*} {step : σ → α → Option σ} {ok ok' : σ → α → Prop}

/-- `Run step ok s₀ tr s`: the steps of `tr`, each allowed by `ok`, lead from
`s₀` to `s`. -/
inductive Run (step : σ → α → Option σ) (ok : σ → α → Prop) (s₀ : σ) :
    List (σ × α) → σ → Prop
  | nil : Run step ok s₀ [] s₀
  | snoc {tr : List (σ × α)} {s : σ} {a : α} {s' : σ} :
      Run step ok s₀ tr s → ok s a → step s a = some s' →
      Run step ok s₀ (tr ++ [(s, a)]) s'

namespace Run

/-- What holds at the start and is preserved by every allowed step holds at the
end.  The predicate may speak of the trace so far. -/
theorem invariant {I : List (σ × α) → σ → Prop} {s₀ s : σ} {tr : List (σ × α)}
    (h : Run step ok s₀ tr s) (h₀ : I [] s₀)
    (hstep : ∀ tr s a s', Run step ok s₀ tr s → ok s a → step s a = some s' →
      I tr s → I (tr ++ [(s, a)]) s') : I tr s := by
  induction h with
  | nil => exact h₀
  | snoc hrun hok hs ih => exact hstep _ _ _ _ hrun hok hs ih

theorem mono {s₀ s : σ} {tr : List (σ × α)} (h : Run step ok s₀ tr s)
    (himp : ∀ s a, ok s a → ok' s a) : Run step ok' s₀ tr s := by
  induction h with
  | nil => exact .nil
  | snoc _ hok hs ih => exact .snoc ih (himp _ _ hok) hs

/-- An invariant of the runs may be assumed in the state of every step. -/
theorem strengthen {I : σ → Prop} {s₀ s : σ} {tr : List (σ × α)}
    (h : Run step ok s₀ tr s)
    (hI : ∀ tr s, Run step ok s₀ tr s → I s) :
    Run step (fun s a => ok s a ∧ I s) s₀ tr s := by
  induction h with
  | nil => exact .nil
  | snoc hrun hok hs ih => exact .snoc ih ⟨hok, hI _ _ hrun⟩ hs

/-- What holds of every step of the trace may be assumed of the run. -/
theorem restrict {Q : σ → α → Prop} {s₀ s : σ} {tr : List (σ × α)} (h : Run step ok s₀ tr s)
    (hQ : ∀ e ∈ tr, Q e.1 e.2) : Run step (fun s a => ok s a ∧ Q s a) s₀ tr s := by
  induction h with
  | nil => exact .nil
  | snoc _ hok hs ih =>
    exact .snoc (ih fun e he => hQ e (List.mem_append_left _ he))
      ⟨hok, hQ _ (List.mem_append_right _ (List.mem_singleton_self _))⟩ hs

theorem append {s₀ s₁ s₂ : σ} {tr₁ tr₂ : List (σ × α)}
    (h₁ : Run step ok s₀ tr₁ s₁) (h₂ : Run step ok s₁ tr₂ s₂) :
    Run step ok s₀ (tr₁ ++ tr₂) s₂ := by
  induction h₂ with
  | nil => simpa using h₁
  | snoc _ hok hs ih =>
    rw [← List.append_assoc]
    exact .snoc ih hok hs

/-- Every entry of the trace is a step the run took: it was allowed, and the
steps before it lead to its state. -/
theorem of_split {s₀ s : σ} {tr : List (σ × α)} (h : Run step ok s₀ tr s) :
    ∀ {pre post : List (σ × α)} {t : σ} {a : α}, tr = pre ++ (t, a) :: post →
      Run step ok s₀ pre t ∧ ok t a ∧ ∃ t', step t a = some t' ∧ Run step ok t' post s := by
  induction h with
  | nil => intro pre post t a e; simp at e
  | @snoc tr s a s' hrun hok hs ih =>
    intro pre post t b e
    rcases List.eq_nil_or_concat post with rfl | ⟨post', last, rfl⟩
    · obtain ⟨rfl, hlast⟩ := List.append_inj' e rfl
      simp only [List.cons.injEq, Prod.mk.injEq, and_true] at hlast
      obtain ⟨rfl, rfl⟩ := hlast
      exact ⟨hrun, hok, s', hs, .nil⟩
    · rw [List.concat_eq_append, ← List.cons_append, ← List.append_assoc] at e
      obtain ⟨rfl, hlast⟩ := List.append_inj' e rfl
      simp only [List.cons.injEq, and_true] at hlast
      subst hlast
      obtain ⟨h₁, h₂, t', h₃, h₄⟩ := ih rfl
      refine ⟨h₁, h₂, t', h₃, ?_⟩
      rw [List.concat_eq_append]
      exact .snoc h₄ hok hs

end Run

/-! ## Latches -/

/-- Some entry of the trace satisfies `R`, and no later one satisfies `S`. -/
def LastOf (R S : σ × α → Prop) (tr : List (σ × α)) : Prop :=
  ∃ pre e post, tr = pre ++ e :: post ∧ R e ∧ ∀ e' ∈ post, ¬ S e'

section
variable {R S : σ × α → Prop} {tr : List (σ × α)} {e : σ × α}

theorem not_lastOf_nil : ¬ LastOf R S ([] : List (σ × α)) := by
  rintro ⟨pre, e, post, h, -⟩
  simp at h

theorem lastOf_snoc : LastOf R S (tr ++ [e]) ↔ R e ∨ LastOf R S tr ∧ ¬ S e := by
  constructor
  · rintro ⟨pre, e₁, post, h, hR, hS⟩
    rcases List.eq_nil_or_concat post with rfl | ⟨post', last, rfl⟩
    · obtain ⟨-, hlast⟩ := List.append_inj' h rfl
      obtain rfl : e = e₁ := List.singleton_inj.mp hlast
      exact .inl hR
    · rw [List.concat_eq_append, ← List.cons_append, ← List.append_assoc] at h
      obtain ⟨rfl, hlast⟩ := List.append_inj' h rfl
      obtain rfl : e = last := List.singleton_inj.mp hlast
      exact .inr ⟨⟨pre, e₁, post', rfl, hR, fun e' he' => hS e' (by simp [he'])⟩,
        hS e (by simp)⟩
  · rintro (hR | ⟨⟨pre, e₁, post, rfl, hR, hS⟩, hn⟩)
    · exact ⟨tr, e, [], rfl, hR, by simp⟩
    · refine ⟨pre, e₁, post ++ [e], by simp, hR, fun e' he' => ?_⟩
      rcases List.mem_append.mp he' with he' | he'
      · exact hS e' he'
      · rwa [List.mem_singleton.mp he']

theorem lastOf_cons : LastOf R S (e :: tr) ↔ (R e ∧ ∀ e' ∈ tr, ¬ S e') ∨ LastOf R S tr := by
  constructor
  · rintro ⟨pre, e₁, post, h, hR, hS⟩
    cases pre with
    | nil =>
      obtain ⟨rfl, rfl⟩ := List.cons.inj h
      exact .inl ⟨hR, hS⟩
    | cons e₂ pre =>
      obtain ⟨-, rfl⟩ := List.cons.inj h
      exact .inr ⟨pre, e₁, post, rfl, hR, hS⟩
  · rintro (⟨hR, hS⟩ | ⟨pre, e₁, post, rfl, hR, hS⟩)
    · exact ⟨[], e, tr, rfl, hR, hS⟩
    · exact ⟨e :: pre, e₁, post, rfl, hR, hS⟩

instance decidableLastOf [DecidablePred R] [DecidablePred S] :
    ∀ tr : List (σ × α), Decidable (LastOf R S tr)
  | [] => isFalse not_lastOf_nil
  | _ :: tr =>
    have := decidableLastOf tr
    decidable_of_iff _ lastOf_cons.symm

/-- A bit that was set in the trace, by a step that satisfies `S`, is still set unless a
step that satisfies `R` was the last to touch it. -/
def Latched (R S : σ × α → Prop) (tr : List (σ × α)) (b : Prop) : Prop :=
  (∃ e ∈ tr, S e) → (b ↔ ¬ LastOf R S tr)

theorem latched_nil {b : Prop} : Latched R S ([] : List (σ × α)) b := by
  rintro ⟨e, he, -⟩
  cases he

theorem Latched.snoc {b b' : Prop} (h : Latched R S tr b) (hset : S e → b' ∧ ¬ R e)
    (hreset : R e → ¬ b') (hkeep : ¬ S e → ¬ R e → (b' ↔ b)) : Latched R S (tr ++ [e]) b' := by
  rintro ⟨e₁, he₁, hS₁⟩
  rw [lastOf_snoc]
  by_cases hS : S e
  · simp [hset hS, hS]
  · by_cases hR : R e
    · simp [hR, hreset hR]
    · have hmem : e₁ ∈ tr := by
        rcases List.mem_append.mp he₁ with he₁ | he₁
        · exact he₁
        · rw [List.mem_singleton.mp he₁] at hS₁
          exact absurd hS₁ hS
      simp [hR, hS, hkeep hS hR, h ⟨e₁, hmem, hS₁⟩]

end

/-! ## Executing a list of labels -/

/-- The state a list of labels leads to, if each step can be taken. -/
def exec (step : σ → α → Option σ) : σ → List α → Option σ
  | s, [] => some s
  | s, a :: as => (step s a).bind fun s' => exec step s' as

/-- The trace of that execution. -/
def traceOf (step : σ → α → Option σ) : σ → List α → List (σ × α)
  | _, [] => []
  | s, a :: as => (s, a) :: ((step s a).elim [] fun s' => traceOf step s' as)

theorem Run.cons {s₀ s₁ s : σ} {a : α} {tr : List (σ × α)} (hok : ok s₀ a)
    (hs : step s₀ a = some s₁) (h : Run step ok s₁ tr s) :
    Run step ok s₀ ((s₀, a) :: tr) s := by
  have hone : Run step ok s₀ [(s₀, a)] s₁ := Run.snoc .nil hok hs
  exact hone.append h

/-- An execution whose every step is allowed is a run. -/
theorem Run.of_exec {as : List α} : ∀ {s₀ s : σ}, exec step s₀ as = some s →
    (∀ e ∈ traceOf step s₀ as, ok e.1 e.2) → Run step ok s₀ (traceOf step s₀ as) s := by
  induction as with
  | nil =>
    intro s₀ s he _
    obtain rfl : s₀ = s := by simpa [exec] using he
    exact .nil
  | cons a as ih =>
    intro s₀ s he hok
    obtain ⟨s₁, hs, he⟩ := Option.bind_eq_some_iff.mp he
    simp only [traceOf, hs, Option.elim_some] at hok ⊢
    exact Run.cons (hok _ List.mem_cons_self) hs
      (ih he fun e hm => hok e (List.mem_cons_of_mem _ hm))

/-- The form in which a concrete execution is used: what it shows of its last state. -/
theorem Run.exists_of_exec (ok : σ → α → Prop) {β : Type*} {f : σ → β} {y : β} {s₀ : σ}
    {as : List α} (h : (exec step s₀ as).map f = some y)
    (hok : ∀ e ∈ traceOf step s₀ as, ok e.1 e.2) :
    ∃ s, Run step ok s₀ (traceOf step s₀ as) s ∧ f s = y := by
  obtain ⟨s, he, hf⟩ := Option.map_eq_some_iff.mp h
  exact ⟨s, Run.of_exec he hok, hf⟩

/-- When the restriction is on the labels alone, the labels are all there is to check. -/
theorem mem_traceOf {as : List α} : ∀ {s₀ : σ} {e : σ × α}, e ∈ traceOf step s₀ as → e.2 ∈ as := by
  induction as with
  | nil => intro s₀ e h; cases h
  | cons a as ih =>
    intro s₀ e h
    rcases List.mem_cons.mp h with rfl | h
    · exact List.mem_cons_self
    · cases hs : step s₀ a with
      | none => simp [hs] at h
      | some s₁ => exact List.mem_cons_of_mem _ (ih (by simpa [hs] using h))

/-- What is counted of the labels alone. -/
theorem countP_traceOf {as : List α} : ∀ {s₀ s : σ}, exec step s₀ as = some s → ∀ p : α → Bool,
    ((traceOf step s₀ as).countP fun e => p e.2) = as.countP p := by
  induction as with
  | nil => exact fun _ _ => rfl
  | cons a as ih =>
    intro s₀ s he p
    obtain ⟨s₁, hs, he⟩ := Option.bind_eq_some_iff.mp he
    simp only [traceOf, hs, Option.elim_some, List.countP_cons, ih he p]

theorem exec_append {as bs : List α} : ∀ {s₀ : σ},
    exec step s₀ (as ++ bs) = (exec step s₀ as).bind fun t => exec step t bs := by
  induction as with
  | nil => intro s₀; rfl
  | cons a as ih =>
    intro s₀
    simp only [List.cons_append, exec, Option.bind_assoc]
    exact Option.bind_congr fun _ _ => ih

theorem traceOf_append {as bs : List α} : ∀ {s₀ t : σ}, exec step s₀ as = some t →
    traceOf step s₀ (as ++ bs) = traceOf step s₀ as ++ traceOf step t bs := by
  induction as with
  | nil =>
    intro s₀ t h
    obtain rfl : s₀ = t := by simpa [exec] using h
    rfl
  | cons a as ih =>
    intro s₀ t h
    obtain ⟨s₁, hs, h⟩ := Option.bind_eq_some_iff.mp h
    simp only [List.cons_append, traceOf, hs, Option.elim_some, ih h]

/-- The form in which one step of a concrete execution is singled out. -/
theorem Run.split_of_exec (ok : σ → α → Prop) {β γ : Type*} {f : σ → β} {y : β} {g : σ → γ}
    {z : γ} {s₀ : σ} {as bs : List α} {a : α} (hf : (exec step s₀ as).map f = some y)
    (hg : (exec step s₀ (as ++ a :: bs)).map g = some z)
    (hok : ∀ e ∈ traceOf step s₀ (as ++ a :: bs), ok e.1 e.2) :
    ∃ t post s, Run step ok s₀ (traceOf step s₀ as ++ (t, a) :: post) s ∧ f t = y ∧ g s = z ∧
      ∀ e ∈ post, e.2 ∈ bs := by
  obtain ⟨t, ht, hy⟩ := Option.map_eq_some_iff.mp hf
  obtain ⟨s, hs, hz⟩ := Option.map_eq_some_iff.mp hg
  have hrun := Run.of_exec hs hok
  rw [traceOf_append ht] at hrun
  refine ⟨t, _, s, hrun, hy, hz, fun e he => ?_⟩
  cases ht' : step t a with
  | none => simp [ht'] at he
  | some t' => exact mem_traceOf (by simpa [ht'] using he)

theorem exec_append_cons {as bs : List α} {a : α} {s₀ t s : σ} (ht : exec step s₀ as = some t)
    (h : exec step s₀ (as ++ a :: bs) = some s) :
    ∃ t', step t a = some t' ∧ exec step t' bs = some s := by
  rw [exec_append, ht, Option.bind_some] at h
  exact Option.bind_eq_some_iff.mp h

/-- The form in which two steps are singled out. -/
theorem Run.split_twice_of_exec (ok : σ → α → Prop) {β γ δ : Type*} {f : σ → β} {y : β}
    {g : σ → γ} {z : γ} {h : σ → δ} {w : δ} {s₀ : σ} {as bs cs : List α} {a b : α}
    (hf : (exec step s₀ as).map f = some y) (hg : (exec step s₀ (as ++ a :: bs)).map g = some z)
    (hh : (exec step s₀ (as ++ a :: (bs ++ b :: cs))).map h = some w)
    (hok : ∀ e ∈ traceOf step s₀ (as ++ a :: (bs ++ b :: cs)), ok e.1 e.2) :
    ∃ t mid u post s, Run step ok s₀ (traceOf step s₀ as ++ (t, a) :: (mid ++ (u, b) :: post)) s ∧
      f t = y ∧ g u = z ∧ h s = w ∧ ∀ e ∈ post, e.2 ∈ cs := by
  obtain ⟨t, ht, hy⟩ := Option.map_eq_some_iff.mp hf
  obtain ⟨u, hu, hz⟩ := Option.map_eq_some_iff.mp hg
  obtain ⟨s, hs, hw⟩ := Option.map_eq_some_iff.mp hh
  obtain ⟨t', ht', hu'⟩ := exec_append_cons ht hu
  have hrun := Run.of_exec hs hok
  rw [traceOf_append ht] at hrun
  simp only [traceOf, ht', Option.elim_some, traceOf_append hu'] at hrun
  refine ⟨t, _, u, _, s, hrun, hy, hz, hw, fun e he => ?_⟩
  cases hu'' : step u b with
  | none => simp [hu''] at he
  | some u' => exact mem_traceOf (by simpa [hu''] using he)

end Lib
end ReplicatedStore
