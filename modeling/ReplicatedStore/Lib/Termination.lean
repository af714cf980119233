/-
Termination of runs.

A system terminates when its runs are bounded in length and those that cannot go on are
where they should be.  A measure that every step decreases shows it; a loop that can be
taken again and again refutes it.
-/
import ReplicatedStore.Lib.Run

namespace ReplicatedStore
namespace Lib

variable {σ α : Type*} {step : σ → α → Option σ} {ok : σ → α → Prop} {s₀ s : σ}
  {tr : List (σ × α)}

/-- No allowed step can be taken. -/
def Stuck (step : σ → α → Option σ) (ok : σ → α → Prop) (s : σ) : Prop :=
  ∀ a, ok s a → step s a = none

/-- No run goes on for ever, and one that cannot go on satisfies `Q`. -/
structure Terminates (step : σ → α → Option σ) (ok : σ → α → Prop) (s₀ : σ)
    (Q : List (σ × α) → σ → Prop) : Prop where
  bounded : ∃ B, ∀ tr s, Run step ok s₀ tr s → tr.length ≤ B
  ends : ∀ tr s, Run step ok s₀ tr s → Stuck step ok s → Q tr s

variable {I Q : List (σ × α) → σ → Prop} {m : σ → ℕ}

/-- A measure that every step decreases bounds the length of a run. -/
theorem Run.length_add_le (h : Run step ok s₀ tr s)
    (hlt : ∀ tr s a s', Run step ok s₀ tr s → ok s a → step s a = some s' → m s' < m s) :
    tr.length + m s ≤ m s₀ := by
  induction h with
  | nil => exact Nat.le_of_eq (Nat.zero_add _)
  | snoc hrun hok hs ih =>
    have hdecr := hlt _ _ _ _ hrun hok hs
    rw [List.length_append, List.length_singleton]
    omega

/-- The steps of one kind are paid for by a measure and by a credit of `k` for each step of
another kind. -/
theorem Run.countP_add_le {p q : σ × α → Bool} {k : ℕ} (h : Run step ok s₀ tr s)
    (hpay : ∀ tr s a s', Run step ok s₀ tr s → ok s a → step s a = some s' →
      (if p (s, a) then 1 else 0) + m s' ≤ m s + if q (s, a) then k else 0) :
    tr.countP p + m s ≤ m s₀ + k * tr.countP q := by
  induction h with
  | nil => simp
  | @snoc tr s a s' hrun hok hs ih =>
    have hstep := hpay _ _ _ _ hrun hok hs
    have hcredit : (if q (s, a) then k else 0) = k * if q (s, a) then 1 else 0 := by
      split <;> simp
    rw [hcredit] at hstep
    rw [List.countP_append, List.countP_singleton, List.countP_append, List.countP_singleton,
      Nat.mul_add]
    omega

theorem Terminates.of_measure (hI : ∀ tr s, Run step ok s₀ tr s → I tr s)
    (hlt : ∀ tr s a s', I tr s → ok s a → step s a = some s' → m s' < m s)
    (hend : ∀ tr s, I tr s → Stuck step ok s → Q tr s) : Terminates step ok s₀ Q where
  bounded := by
    refine ⟨m s₀, fun tr s h => ?_⟩
    have hle := h.length_add_le (m := m) fun tr s a s' hrun => hlt tr s a s' (hI tr s hrun)
    omega
  ends tr s h := hend tr s (hI tr s h)

/-- A loop can be taken any number of times. -/
theorem Run.loop (h : Run step ok s tr s) (n : ℕ) :
    ∃ tr', Run step ok s tr' s ∧ tr'.length = n * tr.length := by
  induction n with
  | zero => exact ⟨[], .nil, by simp⟩
  | succ n ih =>
    obtain ⟨tr', hrun, hlen⟩ := ih
    refine ⟨tr' ++ tr, hrun.append h, ?_⟩
    rw [List.length_append, hlen, Nat.succ_mul]

theorem not_terminates_of_loop {pre : List (σ × α)} (hpre : Run step ok s₀ pre s)
    (h : Run step ok s tr s) (hne : tr ≠ []) : ¬ Terminates step ok s₀ Q := by
  intro hterm
  obtain ⟨B, hB⟩ := hterm.bounded
  obtain ⟨tr', hrun, hlen⟩ := h.loop (B + 1)
  have hpos : 0 < tr.length := List.length_pos_iff.mpr hne
  have hle : tr'.length ≤ B := by
    have hall := hB _ _ (hpre.append hrun)
    rw [List.length_append] at hall
    omega
  have hmul : B + 1 ≤ (B + 1) * tr.length := Nat.le_mul_of_pos_right _ hpos
  omega

end Lib
end ReplicatedStore
