/-
Wrong replies to the gets of `runWorkload`.

A pair that is not the expected one is reported.  An error word is not a pair: `int`
raises, the pool keeps the exception in a future, and `testKVS` never asks for it.
-/
import ReplicatedStore.Alarm

namespace ReplicatedStore
namespace RunCluster

open Lib

/-! ## Texts -/

/-- The texts of a get that tell of an error. -/
def ErrorWord (r : String) : Prop := r = Reply.errKey.text ∨ r = Reply.errNoExist.text

/-- The texts that `FrontendRPCImpl.get` returns. -/
def FromGet (r : String) : Prop := ErrorWord r ∨ ∃ k v, r = (Reply.pair k v).text

theorem text_pair (k v : Int32) : (Reply.pair k v).text = pairText k.toInt v.toInt := rfl

/-- An error word is no number. -/
theorem ErrorWord.check {r : String} (h : ErrorWord r) (k v : ℤ) : check k v r = .raises := by
  have hfirst : (split r ':')[0]?.bind Decimal.parse = none := by
    rcases h with rfl | rfl <;> decide
  simp only [RunCluster.check, hfirst]

theorem ErrorWord.ne_pairText {r : String} (h : ErrorWord r) (k v : ℤ) : r ≠ pairText k v := by
  rintro rfl
  exact absurd ((h.check k v).symm.trans (check_expected k v)) (by simp)

/-- The worker has printed an error. -/
def Point.Alarmed (p : Point) : Prop :=
  ∃ line, p = .ended (.printed line) ∧ "[Error]".toList <+: line.toList

/-- A pair that is not the expected one is printed. -/
theorem check_wrong {key expected k v : ℤ} (h : pairText k v ≠ pairText key expected)
    (next : Point) : ((check key expected (pairText k v)).point next).Alarmed := by
  have hne : k ≠ key ∨ v ≠ expected := by
    by_contra heq
    push Not at heq
    exact h (by rw [heq.1, heq.2])
  have herror : "[Error]".toList <+: "[Error] request = (".toList := by decide
  rw [check_pairText, if_pos hne]
  refine ⟨_, rfl, ?_⟩
  simp only [String.toList_append, List.append_assoc]
  exact herror.trans (List.prefix_append _ _)

namespace Worker

variable {w : Worker} {p p' : Point} {a : Act} {tr : List (Point × Act)}

/-- The pair a worker waits for. -/
def awaits (w : Worker) : Point → Option (ℤ × ℤ)
  | .get _ k v => some (k, v)
  | .runGet _ _ idx k => (item w.data.loadVals idx).map fun v => (k, v)
  | _ => none

/-- A get is answered with something else than the pair it waits for. -/
def Wrong (w : Worker) (e : Point × Act) : Prop :=
  ∃ k v r, w.awaits e.1 = some (k, v) ∧ e.2 = .reply r ∧ r ≠ pairText k v

/-- A get is answered with an error word. -/
def GotErrorWord (e : Point × Act) : Prop :=
  ∃ k r, e.1.call = some (.get k) ∧ e.2 = .reply r ∧ ErrorWord r

/-- The clients succeed, and a get returns what the frontend can return. -/
def Answers (p : Point) : Act → Prop
  | .reply r => ∀ k, p.call = some (.get k) → FromGet r
  | .fails => p.call = none
  | _ => True

theorem step_ended (e : Ending) : w.step (.ended e) a = none := by
  cases a <;> rfl

theorem run_ended {ok : Point → Act → Prop} {e : Ending} (h : Run w.step ok (.ended e) tr p) :
    p = .ended e :=
  h.invariant (I := fun _ p => p = .ended e) rfl fun _ _ _ _ _ _ hs hI => by
    rw [hI, step_ended] at hs
    cases hs

theorem sound_of_run {ok : Point → Act → Prop} (h : Run w.step ok w.runWorkload tr p) :
    w.Sound p :=
  h.invariant sound_runWorkload fun _ _ _ _ _ _ hs hI => sound_step hI hs

/-- The reply to a get is checked against the pair that the worker waits for. -/
theorem step_get (h : w.Sound p) (hd : w.data.Shuffled w.args)
    (ht : w.threadId < w.args.numThreads) {k : ℤ} (hc : p.call = some (.get k)) {r : String}
    (hs : w.step p (.reply r) = some p') :
    ∃ v next, w.awaits p = some (k, v) ∧ p' = (check k v r).point next := by
  cases p with
  | get n k' v =>
    obtain rfl : k' = k := Call.get.inj (Option.some.inj hc)
    exact ⟨v, _, rfl, (Option.some.inj hs).symm⟩
  | runGet ops n idx k' =>
    obtain rfl : k' = k := Call.get.inj (Option.some.inj hc)
    obtain ⟨v, hv⟩ := h.2.1.exists_item ht hd.length_loadVals
    rw [step, hv] at hs
    exact ⟨v, _, by rw [awaits, hv]; rfl, (Option.some.inj hs).symm⟩
  | _ => cases hc

theorem call_of_awaits {k v : ℤ} (h : w.awaits p = some (k, v)) : p.call = some (.get k) := by
  cases p with
  | get n k' v' =>
    obtain ⟨rfl, -⟩ := Prod.mk.inj (Option.some.inj h)
    rfl
  | runGet ops n idx k' =>
    obtain ⟨v', -, e⟩ := Option.map_eq_some_iff.mp h
    obtain ⟨rfl, -⟩ := Prod.mk.inj e
    rfl
  | _ => cases h

/-- The reply to a get in a run: it was checked, and what the check decided is where the
worker is if that is an end. -/
theorem get_in_run (hd : w.data.Shuffled w.args) (ht : w.threadId < w.args.numThreads)
    (h : Run w.step Answers w.runWorkload tr p) {q : Point} {k : ℤ} {r : String}
    (he : (q, .reply r) ∈ tr) (hc : q.call = some (.get k)) :
    FromGet r ∧ ∃ v next, w.awaits q = some (k, v) ∧
      ∀ e, (check k v r).point next = .ended e → p = .ended e := by
  obtain ⟨pre, post, htr⟩ := List.append_of_mem he
  obtain ⟨hpre, hok, q', hs, hpost⟩ := h.of_split htr
  obtain ⟨v, next, hv, rfl⟩ := step_get (sound_of_run hpre) hd ht hc hs
  exact ⟨hok k hc, v, next, hv, fun e hend => run_ended (hend ▸ hpost)⟩

/-- Every wrong reply is reported if and only if no reply is an error word. -/
theorem wrong_reported_iff (hd : w.data.Shuffled w.args) (ht : w.threadId < w.args.numThreads)
    (h : Run w.step Answers w.runWorkload tr p) :
    ((∃ e ∈ tr, w.Wrong e) → p.Alarmed) ↔ ∀ e ∈ tr, ¬ GotErrorWord e := by
  constructor
  · rintro hall ⟨q, a⟩ he ⟨k, r, hc, rfl, hr⟩
    obtain ⟨-, v, next, hv, hend⟩ := get_in_run hd ht h he hc
    obtain ⟨line, hp, -⟩ := hall ⟨_, he, k, v, r, hv, rfl, hr.ne_pairText k v⟩
    have hraised := hend .raised (by rw [hr.check]; rfl)
    exact absurd (hp.symm.trans hraised) (by simp)
  · rintro hall ⟨⟨q, a⟩, he, k, v, r, hv, rfl, hne⟩
    have hc := call_of_awaits hv
    obtain ⟨hr, v', next, hv', hend⟩ := get_in_run hd ht h he hc
    obtain rfl : v = v' := (Prod.mk.inj (Option.some.inj (hv.symm.trans hv'))).2
    rcases hr with hr | ⟨k', x, rfl⟩
    · exact absurd ⟨k, r, hc, rfl, hr⟩ (hall _ he)
    · obtain ⟨line, hp, hline⟩ := check_wrong (text_pair k' x ▸ hne) next
      exact ⟨line, hend _ hp, hline⟩

/-- One worker that checks one request. -/
def oneRequest : Worker where
  threadId := 0
  data := { keys := [0], loadVals := [0], runVals := [1] }
  args :=
    { numKeys := 1, numThreads := 1, numRequests := 1, putRatio := 50, testConsistency := 1,
      crashServer := 0, addServer := 0, removeServer := 0 }

/-- Its run when the get is answered with this text. -/
def oneRequestRun (r : String) : List (Point × Act) :=
  [(.request 0, .choose 0), (.draw 0 0, .choose 7), (.put 0 0 7, .reply "Success 0=7"),
    (.get 0 0 7, .reply r)]

theorem run_oneRequest {r : String} (hr : FromGet r) : Run oneRequest.step Answers
    oneRequest.runWorkload (oneRequestRun r) ((check 0 7 r).point (.request 1)) := by
  have hdraw : oneRequest.step (.request 0) (.choose 0) = some (.draw 0 0) := by decide +kernel
  have hput : oneRequest.step (.draw 0 0) (.choose 7) = some (.put 0 0 7) := by decide +kernel
  have hget : oneRequest.step (.put 0 0 7) (.reply "Success 0=7") = some (.get 0 0 7) := rfl
  refine Run.cons trivial hdraw (Run.cons trivial hput ?_)
  refine Run.cons (fun k hk => by cases hk) hget ?_
  exact Run.cons (fun k _ => hr) rfl .nil

theorem oneRequest_shuffled : oneRequest.data.Shuffled oneRequest.args := by
  constructor <;> decide

theorem wrong_reported_iff_oneRequest : ∃ tr p,
    Run oneRequest.step Answers oneRequest.runWorkload tr p ∧ p.Alarmed ∧
      (((∃ e ∈ tr, oneRequest.Wrong e) → p.Alarmed) ↔ ∀ e ∈ tr, ¬ GotErrorWord e) := by
  have hrun := run_oneRequest (.inr ⟨0, 8, rfl⟩)
  exact ⟨_, _, hrun, check_wrong (k := 0) (v := 8) (by decide +kernel) _,
    wrong_reported_iff oneRequest_shuffled (by decide) hrun⟩

/-- A lost key ends the worker without a word. -/
theorem errKey_not_reported : ∃ tr p,
    Run oneRequest.step Answers oneRequest.runWorkload tr p ∧
      (∃ e ∈ tr, oneRequest.Wrong e) ∧ p = .ended .raised ∧ ¬ p.Alarmed := by
  have herror : ErrorWord Reply.errKey.text := .inl rfl
  have hrun := run_oneRequest (.inl herror)
  rw [herror.check] at hrun
  refine ⟨_, _, hrun, ⟨(.get 0 0 7, .reply Reply.errKey.text), by simp [oneRequestRun], 0, 7, _,
    rfl, rfl, herror.ne_pairText 0 7⟩, rfl, ?_⟩
  rintro ⟨line, hp, -⟩
  cases hp

end Worker

end RunCluster
end ReplicatedStore
