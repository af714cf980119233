/-
Forward simulation of one labelled system by another, and runs of the parts of a composed
system.

The function `view` tells what a step of the concrete system is for the abstract one: the
labels of no, one or several steps.  If the abstract system can take these steps from every
related state, the view of a run is a run.
-/
import ReplicatedStore.Lib.Run

namespace ReplicatedStore
namespace Lib

variable {σ α τ β : Type*}

/-- The abstract system can take the steps that it sees of an allowed step, and they are
allowed. -/
def Simulates (step : σ → α → Option σ) (ok : σ → α → Prop) (step' : τ → β → Option τ)
    (ok' : τ → β → Prop) (view : σ → α → List β) (R : σ → τ → Prop) : Prop :=
  ∀ s a s' t, ok s a → step s a = some s' → R s t →
    ∃ t', exec step' t (view s a) = some t' ∧
      (∀ e ∈ traceOf step' t (view s a), ok' e.1 e.2) ∧ R s' t'

variable {step : σ → α → Option σ} {ok : σ → α → Prop} {step' : τ → β → Option τ}
  {ok' : τ → β → Prop} {view : σ → α → List β} {R : σ → τ → Prop}

/-- The view of a run is a run. -/
theorem Simulates.run (hR : Simulates step ok step' ok' view R) {s₀ s : σ} {t₀ : τ}
    {tr : List (σ × α)} (h : Run step ok s₀ tr s) (h₀ : R s₀ t₀) :
    ∃ t, exec step' t₀ (tr.flatMap fun e => view e.1 e.2) = some t ∧
      (∀ e ∈ traceOf step' t₀ (tr.flatMap fun e => view e.1 e.2), ok' e.1 e.2) ∧ R s t := by
  induction h with
  | nil => exact ⟨t₀, rfl, nofun, h₀⟩
  | @snoc tr s a s' _ hok hs ih =>
    obtain ⟨t, hex, hall, ht⟩ := ih
    obtain ⟨t', hex', hall', ht'⟩ := hR s a s' t hok hs ht
    rw [List.flatMap_append, List.flatMap_singleton]
    refine ⟨t', ?_, fun e he => ?_, ht'⟩
    · rw [exec_append, hex, Option.bind_some, hex']
    · rw [traceOf_append hex] at he
      rcases List.mem_append.mp he with he | he
      · exact hall e he
      · exact hall' e he

/-- What the allowed steps of the abstract system preserve carries over. -/
theorem Simulates.transfer (hR : Simulates step ok step' ok' view R) {s₀ s : σ} {t₀ : τ}
    {tr : List (σ × α)} (h : Run step ok s₀ tr s) (h₀ : R s₀ t₀) {I : τ → Prop} (hI₀ : I t₀)
    (hI : ∀ t b t', ok' t b → step' t b = some t' → I t → I t') : ∃ t, R s t ∧ I t := by
  obtain ⟨t, hex, hall, ht⟩ := hR.run h h₀
  refine ⟨t, ht, (Run.of_exec hex hall).invariant (I := fun _ t => I t) hI₀ ?_⟩
  exact fun _ t b t' _ hok hs hIt => hI t b t' hok hs hIt

/-! ## Parts of a composed system -/

/-- The steps that one part of the system takes in a run. -/
def partOf (π : σ → τ) (label : σ → α → Option β) (tr : List (σ × α)) : List (τ × β) :=
  tr.filterMap fun e => (label e.1 e.2).map fun b => (π e.1, b)

theorem partOf_snoc {π : σ → τ} {label : σ → α → Option β} (tr : List (σ × α)) (s : σ) (a : α) :
    partOf π label (tr ++ [(s, a)]) =
      partOf π label tr ++ ((label s a).map fun b => (π s, b)).toList := by
  unfold partOf
  rw [List.filterMap_append]
  cases h : label s a <;> simp [h]

/-- A run of the system is a run of each part that moves only by its own steps. -/
theorem Run.part {π : σ → τ} {label : σ → α → Option β} {s₀ s : σ} {tr : List (σ × α)}
    (h : Run step ok s₀ tr s)
    (hmove : ∀ s a s' b, ok s a → step s a = some s' → label s a = some b →
      ok' (π s) b ∧ step' (π s) b = some (π s'))
    (hstay : ∀ s a s', ok s a → step s a = some s' → label s a = none → π s' = π s) :
    Run step' ok' (π s₀) (partOf π label tr) (π s) := by
  induction h with
  | nil => exact .nil
  | @snoc tr s a s' _ hok hs ih =>
    rw [partOf_snoc]
    cases hl : label s a with
    | none =>
      rw [hstay s a s' hok hs hl]
      simpa using ih
    | some b =>
      obtain ⟨hok', hs'⟩ := hmove s a s' b hok hs hl
      exact ih.snoc hok' hs'

end Lib
end ReplicatedStore
