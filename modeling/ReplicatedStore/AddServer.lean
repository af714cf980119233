/-
What can make `addServer` fail when no server and no RPC does.

The call picks the server that is to send its data before it takes `serversLock`, and
looks it up again under the lock without a check.  If that server has been shut down in
between, each attempt at the transfer dereferences null and the call throws.
-/
import ReplicatedStore.Agreement
import ReplicatedStore.Joining

namespace ReplicatedStore

open Lib

/-! ## Points before the lock -/

theorem addContains_step {c : CallId} {cl cl' : Cluster} {id : ServerId} {a : Act} {w' : Outside}
    (h : (Outside.addContains id).step c cl a = some (cl', w')) : a = .step ∧ cl' = cl ∧
      (id ∈ cl.servers ∧ w' = .finished (.returned (.alreadyExists id)) ∨
        id ∉ cl.servers ∧ ((∃ hport, w' = .addFindFirst id ⟨c, hport⟩) ∨
          ¬ -1 ≤ serverPort id ∧
            ∃ message, w' = .finished (.returned (.notAccepting id message)))) := by
  cases a <;> simp only [Outside.step] at h <;> try contradiction
  refine ⟨rfl, ?_⟩
  split at h
  · obtain ⟨rfl, rfl⟩ := Prod.mk.inj (Option.some.inj h)
    exact ⟨rfl, .inl ⟨‹_›, rfl⟩⟩
  · by_cases hport : -1 ≤ serverPort id
    · simp only [ServerRPCClient.create, dif_pos hport] at h
      obtain ⟨rfl, rfl⟩ := Prod.mk.inj (Option.some.inj h)
      exact ⟨rfl, .inr ⟨‹_›, .inl ⟨hport, rfl⟩⟩⟩
    · simp only [ServerRPCClient.create, dif_neg hport] at h
      obtain ⟨rfl, rfl⟩ := Prod.mk.inj (Option.some.inj h)
      exact ⟨rfl, .inr ⟨‹_›, .inr ⟨hport, _, rfl⟩⟩⟩

theorem addFindFirst_step {c : CallId} {cl cl' : Cluster} {id : ServerId} {rpc : ServerRPC id}
    {a : Act} {w' : Outside} (h : (Outside.addFindFirst id rpc).step c cl a = some (cl', w')) :
    cl' = cl ∧ (w' = .synchronized (.registerFirst id rpc) ∨
      ∃ sender, w' = .synchronized (.withLock (.addServer id rpc sender))) := by
  cases a <;> simp only [Outside.step] at h <;> try contradiction
  all_goals split at h <;> try contradiction
  all_goals obtain ⟨rfl, rfl⟩ := Prod.mk.inj (Option.some.inj h)
  · exact ⟨rfl, .inl rfl⟩
  · exact ⟨rfl, .inr ⟨_, rfl⟩⟩

/-! ## What the call may meet -/

/-- The id that a call tests by `containsKey` in its next step. -/
def tested : Monitor.Local Outside Inside → Option ServerId
  | .out (.addContains id) => some id
  | _ => none

/-- The server that a call has picked as sender when it is to take `serversLock`. -/
def picked : Monitor.Local Outside Inside → Option ServerId
  | .out (.synchronized (.withLock (.addServer _ _ sender))) => some sender
  | _ => none

theorem tested_eq_some {y : Monitor.Local Outside Inside} {id : ServerId}
    (h : tested y = some id) : y = .out (.addContains id) := by
  unfold tested at h
  split at h
  · rw [Option.some.inj h]
  · cases h

/-- In this step the call `c` finds what it needs: a port to make a proxy for, and, when
it takes `serversLock`, the server it has picked as sender. -/
def Unhindered (c : CallId) (s : System) (l : Label) : Prop :=
  (l = .run c .step → ∀ id ∈ tested (s.locals c), id ∈ s.shared.servers ∨ -1 ≤ serverPort id) ∧
    (l = .enter c → ∀ id ∈ picked (s.locals c), id ∈ s.shared.servers)

-- The instance is named, since a search may decide `∀` over all values of `int`.
instance (c : CallId) (s : System) : DecidablePred (Unhindered c s) := fun _ =>
  @instDecidableAnd _ _ (@instDecidableForall _ _ _ (Option.decidableForallMem _))
    (@instDecidableForall _ _ _ (Option.decidableForallMem _))

/-- All its steps do. -/
def Clear (c : CallId) (tr : Trace) : Prop := ∀ e ∈ tr, Unhindered c e.1 e.2

theorem clear_snoc {c : CallId} {tr : Trace} {s : System} {l : Label} :
    Clear c (tr ++ [(s, l)]) ↔ Clear c tr ∧ Unhindered c s l := by
  simp [Clear, or_imp, forall_and]

theorem Unhindered.of_ne {c : CallId} {s : System} {l : Label} (h : l.thread ≠ some c) :
    Unhindered c s l := by
  constructor
  · rintro rfl
    exact absurd rfl h
  · rintro rfl
    exact absurd rfl h

theorem Unhindered.run {c : CallId} {s : System} (h : ∀ id, s.locals c ≠ .out (.addContains id))
    (a : Act) : Unhindered c s (.run c a) :=
  ⟨fun _ id hid => absurd (tested_eq_some hid) (h id), fun he => by cases he⟩

/-- The call answers that the server exists, or it has registered it and says so. -/
def Joined (c : CallId) (id : ServerId) (tr : Trace) (o : Outcome) : Prop :=
  o = .returned (.alreadyExists id) ∨
    o = .returned .added ∧ ∃ e ∈ tr, e.2 = .run c .step ∧ registered e = some id

theorem Joined.snoc {c : CallId} {id : ServerId} {tr : Trace} {o : Outcome} {s : System}
    {l : Label} (hl : ∀ i, s.locals c ≠ .inn (.registerFirst id i))
    (hl' : ∀ i, s.locals c ≠ .inn (.register id i)) :
    Joined c id (tr ++ [(s, l)]) o ↔ Joined c id tr o := by
  have hnew : ¬ (l = .run c .step ∧ registered (s, l) = some id) := by
    rintro ⟨rfl, hreg⟩
    simp only [registered] at hreg
    split at hreg
    · obtain rfl := Option.some.inj hreg
      exact hl _ ‹_›
    · obtain rfl := Option.some.inj hreg
      exact hl' _ ‹_›
    · cases hreg
  simp only [Joined, List.mem_append, List.mem_singleton, or_and_right, exists_or, exists_eq_left,
    hnew, or_false]

/-! ## The call -/

/-- What is known of the call at each of its points. -/
def Adding (c : CallId) (id : ServerId) (tr : Trace) (v : View) :
    Monitor.Local Outside Inside → Prop
  | .out (.addContains id') | .out (.addFindFirst id' _)
  | .out (.synchronized (.registerFirst id' _)) | .inn (.registerFirst id' _)
  | .out (.synchronized (.withLock (.addServer id' _ _))) => id' = id ∧ Clear c tr
  | .inn (.lock (.addServer id' _ sender) _) => id' = id ∧ (Clear c tr ↔ sender ∈ v.servers)
  | .inn (.transfer id' _ sender a) => id' = id ∧ (Clear c tr ↔ sender ∈ v.servers) ∧
      (sender ∉ v.servers → a.state = .lookup)
  | .inn (.unlock (.addServer id' _ _) _) | .inn (.register id' _) => id' = id ∧ Clear c tr
  | .inn (.leave (.finish o)) | .out (.finished o) => Joined c id tr o ↔ Clear c tr
  | _ => False

section
variable {c : CallId} {id : ServerId} {tr : Trace} {s : System}

/-- A step of another thread, which changes the membership only while the call does not
hold `serversLock`. -/
theorem Adding.other {l : Label} {v v' : View} {y : Monitor.Local Outside Inside}
    (h : Adding c id tr v y) (hy : s.locals c = y) (hne : l.thread ≠ some c)
    (hs : ∀ i, y = .inn i → v'.servers = v.servers) : Adding c id (tr ++ [(s, l)]) v' y := by
  have hclear : Clear c (tr ++ [(s, l)]) ↔ Clear c tr := by
    rw [clear_snoc]
    exact and_iff_left (.of_ne hne)
  unfold Adding at h ⊢
  split at h
  case h_6 =>
    rw [hclear, hs _ rfl]
    exact h
  case h_7 =>
    rw [hclear, hs _ rfl]
    exact h
  case h_10 =>
    rw [hclear, Joined.snoc (by simp [hy]) (by simp [hy])]
    exact h
  case h_11 =>
    rw [hclear, Joined.snoc (by simp [hy]) (by simp [hy])]
    exact h
  case h_12 => exact h.elim
  all_goals exact ⟨h.1, hclear.mpr h.2⟩

theorem Adding.outside {cl' : Cluster} {w w' : Outside} {a : Act} (hl : s.locals c = .out w)
    (h : w.step c s.shared a = some (cl', w')) (hw : Adding c id tr s.shared.view (.out w)) :
    Adding c id (tr ++ [(s, .run c a)]) cl'.view (.out w') := by
  cases w with
  | addContains id' =>
    obtain ⟨rfl, hclear⟩ := hw
    obtain ⟨rfl, rfl, hcases⟩ := addContains_step h
    rcases hcases with ⟨hin, rfl⟩ | ⟨hin, ⟨hport, rfl⟩ | ⟨hport, message, rfl⟩⟩
    · refine iff_of_true (.inl rfl) (clear_snoc.mpr ⟨hclear, ?_⟩)
      simp [Unhindered, tested, hl, hin]
    · refine ⟨rfl, clear_snoc.mpr ⟨hclear, ?_⟩⟩
      simp [Unhindered, tested, hl, hport]
    · refine iff_of_false (by simp [Joined]) fun hc => ?_
      have hstep := (clear_snoc.mp hc).2
      simp [Unhindered, tested, hl, hin, hport] at hstep
  | addFindFirst id' rpc =>
    obtain ⟨rfl, hclear⟩ := hw
    have hnext : Clear c (tr ++ [(s, .run c a)]) :=
      clear_snoc.mpr ⟨hclear, .run (by simp [hl]) a⟩
    obtain ⟨rfl, rfl | ⟨sender, rfl⟩⟩ := addFindFirst_step h
    · exact ⟨rfl, hnext⟩
    · exact ⟨rfl, hnext⟩
  | synchronized b => cases a <;> simp [Outside.step] at h
  | finished o => cases a <;> simp [Outside.step] at h
  | _ => exact hw.elim

theorem Adding.enter {w : Outside} {i : Inside} (hl : s.locals c = .out w)
    (he : w.entry = some i) (hw : Adding c id tr s.shared.view (.out w)) :
    Adding c id (tr ++ [(s, .enter c)]) s.shared.view (.inn i) := by
  obtain ⟨b, rfl, rfl⟩ := Outside.entry_eq_some he
  cases b with
  | registerFirst id' rpc =>
    obtain ⟨rfl, hclear⟩ := hw
    exact ⟨rfl, clear_snoc.mpr ⟨hclear, by simp [Unhindered, picked, hl]⟩⟩
  | withLock w =>
    cases w with
    | put k x => exact hw.elim
    | addServer id' rpc sender =>
      obtain ⟨rfl, hclear⟩ := hw
      refine ⟨rfl, clear_snoc.trans ((and_iff_right hclear).trans ?_)⟩
      simp [Unhindered, picked, hl]
  | _ => exact hw.elim

/-- The call goes to the sender only if it was found. -/
theorem Adding.sender_mem {v : View} {id' : ServerId} {rpc : ServerRPC id'} {sender : ServerId}
    {n : Nat} {p : Send} (h : Adding c id tr v (.inn (.transfer id' rpc sender ⟨n, .remote p⟩))) :
    sender ∈ v.servers := by
  by_contra hn
  cases h.2.2 hn

theorem Inside.Move.adding {v' : View} {i i' : Inside} {a : Act} (hl : s.locals c = .inn i)
    (hok : a.faulty = false) (h : Inside.Move c s.shared.view i a v' (.inl i'))
    (hi : Adding c id tr s.shared.view (.inn i)) :
    Adding c id (tr ++ [(s, .run c a)]) v' (.inn i') := by
  have hclear : Clear c (tr ++ [(s, .run c a)]) ↔ Clear c tr := by
    rw [clear_snoc]
    exact and_iff_left (.run (by simp [hl]) a)
  generalize hr : (Sum.inl i' : Inside ⊕ Outside) = r at h
  cases h with
  | @lock w l a v' f h =>
    obtain rfl := Sum.inl.inj hr
    cases w with
    | put k x => exact hi.elim
    | addServer id' rpc sender =>
      obtain ⟨rfl, hsender⟩ := hi
      have hsender' : Clear c (tr ++ [(s, .run c a)]) ↔ sender ∈ v'.servers := by
        rw [hclear, h.servers]
        exact hsender
      cases f with
      | again l' => exact ⟨rfl, hsender'⟩
      | done => exact ⟨rfl, hsender', fun _ => rfl⟩
      | raised => cases h.raised_inv.1
  | @senderFound id' rpc sender n hmem =>
    obtain rfl := Sum.inl.inj hr
    obtain ⟨rfl, hsender, -⟩ := hi
    exact ⟨rfl, hclear.trans hsender, fun hn => absurd hmem hn⟩
  | @senderGone id' rpc sender n hmem =>
    obtain rfl := Sum.inl.inj hr
    obtain ⟨rfl, hsender, -⟩ := hi
    rcases Transfer.failed_cases id' rpc sender ⟨n, .lookup⟩ with ⟨_, e⟩ | ⟨_, e⟩ <;> rw [e]
    · exact ⟨rfl, hclear.trans hsender, fun _ => rfl⟩
    · refine iff_of_false (by simp [Joined]) fun hc => hmem ?_
      exact hsender.mp (hclear.mp hc)
  | @send id' rpc sender n p p' b v' hc h =>
    obtain rfl := Sum.inl.inj hr
    have hmem := hi.sender_mem
    obtain ⟨rfl, hsender, -⟩ := hi
    refine ⟨rfl, ?_, fun hn => absurd (h.servers ▸ hmem) hn⟩
    rw [hclear, h.servers]
    exact hsender
  | @sent id' rpc sender n =>
    obtain rfl := Sum.inl.inj hr
    have hmem := hi.sender_mem
    obtain ⟨rfl, hsender, -⟩ := hi
    exact ⟨rfl, hclear.mpr (hsender.mpr hmem)⟩
  | transferThrow _ => cases hok
  | @unlock w l a v' f h =>
    obtain rfl := Sum.inl.inj hr
    cases w with
    | put k x => exact hi.elim
    | addServer id' rpc sender =>
      obtain ⟨rfl, hnow⟩ := hi
      cases f with
      | again l' => exact ⟨rfl, hclear.mpr hnow⟩
      | done => exact ⟨rfl, hclear.mpr hnow⟩
      | raised =>
        have hfaulty := h.not_raised
        rw [hok] at hfaulty
        cases hfaulty
  | @registerFirst id' rpc =>
    obtain rfl := Sum.inl.inj hr
    obtain ⟨rfl, hnow⟩ := hi
    exact iff_of_true (.inr ⟨rfl, _, List.mem_append_right _ (List.mem_singleton_self _), rfl,
      by simp [registered, hl]⟩) (hclear.mpr hnow)
  | @register id' rpc =>
    obtain rfl := Sum.inl.inj hr
    obtain ⟨rfl, hnow⟩ := hi
    exact iff_of_true (.inr ⟨rfl, _, List.mem_append_right _ (List.mem_singleton_self _), rfl,
      by simp [registered, hl]⟩) (hclear.mpr hnow)
  | leave => cases hr
  | _ => exact hi.elim

end

/-- In a run without failures a call of `addServer` ends by registering the server or
with the answer that it exists, if and only if each of its steps finds what it needs. -/
theorem addServer_joins_iff {c : CallId} {id : ServerId} {s₀ s : System} {tr : Trace} {o : Outcome}
    (hx : Monitor.Exclusive s₀) (hcall : s₀.locals c = .out (Op.addServer id).start)
    (h : SystemRun (fun _ l => Faultless l) s₀ tr s) (hfin : s.locals c = .out (.finished o)) :
    Joined c id tr o ↔ ∀ e ∈ tr, Unhindered c e.1 e.2 := by
  have hadd := Monitor.Run.thread (t := c) (Q := fun tr y cl => Adding c id tr cl.view y) h hx
    (by rw [hcall]; exact ⟨rfl, by simp [Clear]⟩)
    (fun _ hl ho hQ => hQ.outside hl ho)
    (fun _ hl he hQ => hQ.enter hl he)
    (fun hok hl hi hQ => (Inside.Move.of_step hi).adding hl hok hQ)
    (fun _ hl hi hQ => by
      obtain ⟨e, rfl, rfl, rfl, hv⟩ := (Inside.Move.of_step hi).leave_inv
      rw [hv]
      cases e with
      | resume next => exact hQ.elim
      | finish o =>
        show Joined c id _ o ↔ Clear c _
        rw [Joined.snoc (by simp [hl]) (by simp [hl]), clear_snoc]
        exact Iff.trans hQ (and_iff_left (.run (by simp [hl]) _)).symm)
    (fun _ hx _ hs hne hQ => hQ.other rfl hne fun i hi => by
      rcases view_of_others hx hi hs hne with hv | ⟨e, _, hm⟩
      · rw [hv]
      · exact hm.servers)
  rw [hfin] at hadd
  exact hadd

/-! ## Runs -/

/-- A server joins while another call shuts the first one down, after it was joined. -/
def joinThenShutDown : List Label :=
  [.run 0 .step, .run 0 (.pick 1)] ++ (joinFrom 0 2 1 [] [1]).drop 3 ++ shutDown 1 1

theorem addServer_joins_iff_joinThenShutDown :
    ∃ tr s, SystemRun (fun _ l => Faultless l) (System.calling oneServer 0 (.addServer 2)) tr s ∧
      1 ∉ s.shared.servers ∧ Joined 0 2 tr (.returned .added) := by
  have hex : ((exec System.step (System.calling oneServer 0 (.addServer 2)) joinThenShutDown).map
      fun s => (s.outcome 0, decide (1 ∉ s.shared.servers))) =
      some (some (.returned .added), true) := by decide +kernel
  obtain ⟨s, hrun, hs⟩ := Run.exists_of_exec (fun _ l => Faultless l) hex (by decide +kernel)
  obtain ⟨hfin, hgone⟩ := Prod.mk.inj hs
  exact ⟨_, s, hrun, of_decide_eq_true hgone,
    (addServer_joins_iff (System.calling_exclusive _ _ _) rfl hrun (System.outcome_eq hfin)).mpr
      (by decide +kernel)⟩

/-- The only registered server is shut down after it was picked as sender. -/
def joinFromGone : List Label :=
  joinFirst 0 1 ++ [.run 1 (.call (.addServer 2)), .run 1 .step, .run 1 (.pick 1)] ++
    shutDown 2 1 ++ [.enter 1] ++ loopOn 1 [] [] ++
    [.run 1 .step, .run 1 .step, .run 1 .step, .run 1 .step, .run 1 .step]

theorem joinFromGone_throws :
    ¬ ∀ (c : CallId) (id : ServerId) (tr : Trace) (s : System) (o : Outcome),
      SystemRun (fun _ l => Faultless l) (System.fresh ∅) tr s →
      (∃ e ∈ tr, e.2 = .run c (.call (.addServer id))) →
      s.locals c = .out (.finished o) → Joined c id tr o := by
  intro hclaim
  have hex : ((exec System.step (System.fresh ∅) joinFromGone).map fun s => s.outcome 1) =
      some (some (.threw .runtime)) := by decide +kernel
  obtain ⟨s, hrun, hfin⟩ := Run.exists_of_exec (fun _ l => Faultless l) hex (by decide +kernel)
  have hjoined := hclaim 1 2 _ s _ hrun (by decide +kernel) (System.outcome_eq hfin)
  rcases hjoined with h | ⟨h, _⟩ <;> cases h

end ReplicatedStore
