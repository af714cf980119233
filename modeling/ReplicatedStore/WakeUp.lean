/-
Lost wake-ups in one server process.

`get` and `printKVPairs` test `isLocked` outside the monitor they wait in, and
`unlock` assigns it outside the monitor it notifies.  A reader that has seen the lock
taken may therefore reach `wait` after the `notifyAll` that was meant for it.  That
is the only way to sleep on an open server: as long as no reader enters the monitor
then, every reader in the wait set has a `notifyAll` still to come.
-/
import ReplicatedStore.Server
import ReplicatedStore.Lib.Run

namespace ReplicatedStore

open Lib

/-- One server process, the call that the frontend is making to it, and the readers
that it serves. -/
structure ServerProcess where
  impl : ServerRPCImpl
  caller : Option (Method × Progress)
  readers : CallId → Option (Query × Reader)

namespace ServerProcess

def init : ServerProcess := { impl := .init, caller := none, readers := fun _ => none }

inductive Label
  | call (m : Method)
  | exec
  | reply
  | request (c : CallId) (q : Query)
  | read (c : CallId) (a : ReaderAct)
  | answer (c : CallId)
  deriving DecidableEq

/-- One atomic step.  The frontend makes a call only after the one before it has
returned; readers come and go at any time. -/
def step (s : ServerProcess) : Label → Option ServerProcess
  | .call m => if s.caller = none then some { s with caller := some (m, .sent) } else none
  | .exec =>
    match s.caller with
    | some (m, pr) =>
      (m.step pr s.impl).map fun r => { s with impl := r.1, caller := some (m, r.2) }
    | none => none
  | .reply =>
    match s.caller with
    | some (_, .executed) => some { s with caller := none }
    | _ => none
  | .request c q =>
    if s.readers c = none then
      some { s with readers := Function.update s.readers c (some (q, .test)) }
    else none
  | .read c a =>
    match s.readers c with
    | some (q, r) => (s.impl.read q c r a).map fun x =>
        { s with impl := x.1, readers := Function.update s.readers c (some (q, x.2)) }
    | none => none
  | .answer c =>
    match s.readers c with
    | some (_, .answered _) => some { s with readers := Function.update s.readers c none }
    | _ => none

/-- The server is locked, or an `unlock` is between its assignment and its
`notifyAll`. -/
def Shut (s : ServerProcess) : Prop :=
  s.impl.isLocked = true ∨ s.caller = some (.unlock, .notifying)

instance (s : ServerProcess) : Decidable s.Shut := by
  unfold Shut
  infer_instance

/-- No reader sleeps on an open server. -/
def Awake (s : ServerProcess) : Prop := s.impl.waitSet.Nonempty → s.Shut

instance (s : ServerProcess) : Decidable s.Awake := by
  unfold Awake
  infer_instance

/-- A reader that has seen the server locked enters the monitor to wait when it is
not any more, and no `notifyAll` is due. -/
def EntersLate (s : ServerProcess) : Label → Prop
  | .read c .step =>
    match s.readers c with
    | some (_, .enter) => ¬ s.Shut
    | _ => False
  | _ => False

instance (s : ServerProcess) : DecidablePred s.EntersLate := fun l => by
  unfold EntersLate
  split <;> (try split) <;> infer_instance

end ServerProcess

/-! ## Steps -/

/-- A reader that does not enter the monitor joins no wait set. -/
theorem ServerRPCImpl.read_waitSet {p p' : ServerRPCImpl} {q : Query} {c : CallId}
    {r r' : Reader} {a : ReaderAct} (h : p.read q c r a = some (p', r')) (hr : r ≠ .enter) :
    p'.waitSet ⊆ p.waitSet := by
  cases r with
  | enter => exact absurd rfl hr
  | waiting =>
    cases a with
    | step =>
      simp only [ServerRPCImpl.read] at h
      split at h
      · cases h
      · obtain ⟨rfl, -⟩ := Prod.mk.inj (Option.some.inj h)
        exact fun _ hx => hx
    | wakeUp =>
      simp only [ServerRPCImpl.read] at h
      split at h
      · obtain ⟨rfl, -⟩ := Prod.mk.inj (Option.some.inj h)
        exact Finset.erase_subset c p.waitSet
      · cases h
    | visit k => cases h
  | _ =>
    have hp : p' = p := by
      cases a <;> simp only [ServerRPCImpl.read] at h
      all_goals repeat (split at h)
      all_goals first
        | contradiction
        | exact (Prod.mk.inj (Option.some.inj h)).1.symm
    subst hp
    exact fun _ hx => hx

/-- A method step leaves a server awake.  Only `unlock` opens it, and then its
`notifyAll` is next. -/
theorem Method.step_awake {m : Method} {pr pr' : Progress} {p p' : ServerRPCImpl}
    (h : m.step pr p = some (p', pr'))
    (hp : p.waitSet.Nonempty → p.isLocked = true ∨ m = .unlock ∧ pr = .notifying)
    (hw : p'.waitSet.Nonempty) : p'.isLocked = true ∨ m = .unlock ∧ pr' = .notifying := by
  cases pr with
  | sent =>
    have hlock : p.waitSet.Nonempty → p.isLocked = true := fun hne =>
      (hp hne).resolve_right fun hb => by cases hb.2
    cases m <;> simp only [Method.step, Option.some.injEq, Prod.mk.injEq] at h <;>
      obtain ⟨rfl, rfl⟩ := h
    case lock => exact .inl rfl
    case unlock => exact .inr ⟨rfl, rfl⟩
    case put k x => exact .inl (hlock hw)
    case alive => exact .inl (hlock hw)
    case shutdownServer => exact .inl (hlock hw)
  | notifying =>
    obtain ⟨rfl, -⟩ := Prod.mk.inj (Option.some.inj h)
    simp at hw
  | executed => cases h

namespace ServerProcess

/-- From a state in which every sleeping reader will be woken, the steps that end in
one in which some will not are the late entries. -/
theorem step_awake_iff {s s' : ServerProcess} {l : Label} (h : s.step l = some s')
    (hs : s.Awake) : s'.Awake ↔ ¬ s.EntersLate l := by
  cases l with
  | call m =>
    simp only [step] at h
    split at h
    · rename_i hnone
      obtain rfl := Option.some.inj h
      have hshut : s.impl.waitSet.Nonempty → s.impl.isLocked = true := fun hne =>
        (hs hne).resolve_right (by simp [hnone])
      exact ⟨fun _ hb => hb, fun _ hne => .inl (hshut hne)⟩
    · cases h
  | exec =>
    simp only [step] at h
    split at h
    · rename_i m pr hcall
      obtain ⟨⟨p', pr'⟩, hm, rfl⟩ := Option.map_eq_some_iff.mp h
      refine ⟨fun _ hb => hb, fun _ hne => ?_⟩
      have hbefore : s.impl.waitSet.Nonempty →
          s.impl.isLocked = true ∨ m = .unlock ∧ pr = .notifying := fun hne => by
        have hshut := hs hne
        rw [Shut, hcall] at hshut
        simpa using hshut
      rcases Method.step_awake hm hbefore hne with hl | ⟨rfl, rfl⟩
      · exact .inl hl
      · exact .inr rfl
    · cases h
  | reply =>
    simp only [step] at h
    split at h
    · rename_i m hcall
      obtain rfl := Option.some.inj h
      have hshut : s.impl.waitSet.Nonempty → s.impl.isLocked = true := fun hne =>
        (hs hne).resolve_right (by simp [hcall])
      exact ⟨fun _ hb => hb, fun _ hne => .inl (hshut hne)⟩
    · cases h
  | request c q =>
    simp only [step] at h
    split at h
    · obtain rfl := Option.some.inj h
      exact ⟨fun _ hb => hb, fun _ => hs⟩
    · cases h
  | answer c =>
    simp only [step] at h
    split at h
    · obtain rfl := Option.some.inj h
      exact ⟨fun _ hb => hb, fun _ => hs⟩
    · cases h
  | read c a =>
    simp only [step] at h
    split at h
    · rename_i q r hreader
      obtain ⟨⟨p', r'⟩, hr, rfl⟩ := Option.map_eq_some_iff.mp h
      have hlock : p'.isLocked = s.impl.isLocked := (ServerRPCImpl.read_frame hr).2
      by_cases henter : r = .enter
      · subst henter
        have ha : a = .step := by cases a <;> simp [ServerRPCImpl.read] at hr; rfl
        subst ha
        have hp : p' = s.impl.wait c := (Prod.mk.inj (Option.some.inj hr)).1.symm
        have hne : p'.waitSet.Nonempty := ⟨c, by rw [hp]; exact Finset.mem_insert_self c _⟩
        have hlate : s.EntersLate (.read c .step) ↔ ¬ s.Shut := by simp [EntersLate, hreader]
        rw [hlate, not_not]
        constructor
        · intro hawake
          have hshut := hawake hne
          rwa [Shut, hlock] at hshut
        · intro hshut _
          rwa [Shut, hlock]
      · have hlate : ¬ s.EntersLate (.read c a) := by
          cases a <;> cases r <;> simp_all [EntersLate]
        refine ⟨fun _ => hlate, fun _ hne => ?_⟩
        have hshut := hs (hne.mono (ServerRPCImpl.read_waitSet hr henter))
        rwa [Shut, hlock]
    · cases h

/-! ## Runs -/

/-- Along a run every reader in the wait set has a `notifyAll` to come, in every state,
if and only if no reader enters the monitor late. -/
theorem awake_iff {s₀ s : ServerProcess} {tr : List (ServerProcess × Label)}
    (h₀ : s₀.Awake) (h : Run step (fun _ _ => True) s₀ tr s) :
    ((∀ e ∈ tr, e.1.Awake) ∧ s.Awake) ↔ ∀ e ∈ tr, ¬ e.1.EntersLate e.2 := by
  induction h with
  | nil => simp [h₀]
  | @snoc tr s a s' hrun _ hstep ih =>
    simp only [List.mem_append, List.mem_singleton, or_imp, forall_and, forall_eq]
    rw [← ih]
    constructor
    · rintro ⟨⟨htr, hs⟩, hs'⟩
      exact ⟨⟨htr, hs⟩, (step_awake_iff hstep hs).mp hs'⟩
    · rintro ⟨⟨htr, hs⟩, hlate⟩
      exact ⟨⟨htr, hs⟩, (step_awake_iff hstep hs).mpr hlate⟩

/-- A reader waits for a lock and is woken by the `unlock`. -/
def getWaits : List Label :=
  [.call .lock, .exec, .reply, .request 0 (.get 5), .read 0 .step, .read 0 .step,
    .call .unlock, .exec, .exec, .reply, .read 0 .step, .read 0 .step, .read 0 .step, .answer 0]

theorem awake_iff_getWaits :
    ∃ tr s, Run step (fun _ _ => True) init tr s ∧ (∃ e ∈ tr, 0 ∈ e.1.impl.waitSet) ∧
      (∀ e ∈ tr, e.1.Awake) ∧ s.Awake := by
  have hex : ((exec step init getWaits).map fun s => s.impl.isLocked) = some false := by
    decide +kernel
  obtain ⟨s, hrun, _⟩ := Run.exists_of_exec (fun _ _ => True) hex (by simp)
  exact ⟨_, s, hrun, by decide +kernel, (awake_iff (by decide) hrun).mpr (by decide +kernel)⟩

/-- The reader sees the lock and enters the monitor after the `unlock` has returned. -/
def getSleeps : List Label :=
  [.call .lock, .exec, .reply, .request 0 (.get 5), .read 0 .step, .call .unlock, .exec, .exec,
    .reply, .read 0 .step]

/-- After `getSleeps` the reader waits at a server that is open. -/
theorem getSleeps_not_awake :
    ¬ ∀ (tr : List (ServerProcess × Label)) (s : ServerProcess),
      Run step (fun _ _ => True) init tr s → s.Awake := by
  intro hclaim
  have hex : ((exec step init getSleeps).map fun s => decide s.Awake) = some false := by
    decide +kernel
  obtain ⟨s, hrun, hs⟩ := Run.exists_of_exec (fun _ _ => True) hex (by simp)
  exact of_decide_eq_false hs (hclaim _ s hrun)

end ServerProcess
end ReplicatedStore
