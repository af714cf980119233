/-
Whether a server that `addServer` admits has answered.

`ServerRPCClient.create` opens no connection, so the joining server is called for the
first time by the transfer, and only if the sender has an entry to send.  A server that
joins an empty membership, or one whose sender is empty, is registered unseen.
-/
import ReplicatedStore.AddServer

namespace ReplicatedStore

open Lib

/-! ## Answers and occasions -/

/-- The server that answers an RPC of the frontend in a step, or one that a sender makes
for a joining server. -/
def answeredBy (e : System × Label) : Option ServerId :=
  match e.2 with
  | .run d .reply =>
    match e.1.locals d with
    | .inn (.lock _ (.body _ id _)) => some id
    | .inn (.unlock _ (.body _ id _)) => some id
    | .inn (.transfer _ _ sender _) => some sender
    | _ => none
  | .run d (.send .reply) =>
    match e.1.locals d with
    | .inn (.transfer id _ _ _) => some id
    | _ => none
  | _ => none

/-- There is an occasion to call the server `id` in this step of an `addServer`: the server
has been registered when the call, which has picked a sender, takes `serversLock`, or the
sender has an entry when its loop starts. -/
def Occasion (id : ServerId) (e : System × Label) : Prop :=
  match e.2 with
  | .enter d =>
    match e.1.locals d with
    | .out (.synchronized (.withLock (.addServer _ _ _))) => id ∈ e.1.shared.servers
    | _ => False
  | .run d (.send .step) =>
    match e.1.locals d with
    | .inn (.transfer _ _ sender ⟨_, .remote .sent⟩) => (e.1.shared.process sender).data.keys ≠ ∅
    | _ => False
  | _ => False

instance (id : ServerId) : DecidablePred (Occasion id) := fun e => by
  unfold Occasion
  split <;> (try split) <;> infer_instance

def Answers (c : CallId) (id : ServerId) (e : System × Label) : Prop :=
  e.2.thread = some c ∧ answeredBy e = some id

def Contacts (c : CallId) (id : ServerId) (e : System × Label) : Prop :=
  e.2.thread = some c ∧ Occasion id e

instance (c : CallId) (id : ServerId) : DecidablePred (Contacts c id) := fun _ =>
  instDecidableAnd

def Answered (c : CallId) (id : ServerId) (tr : Trace) : Prop := ∃ e ∈ tr, Answers c id e

def Contacted (c : CallId) (id : ServerId) (tr : Trace) : Prop := ∃ e ∈ tr, Contacts c id e

section
variable {c : CallId} {id : ServerId} {tr : Trace} {s : System} {e : System × Label}

theorem answered_snoc : Answered c id (tr ++ [e]) ↔ Answered c id tr ∨ Answers c id e := by
  simp only [Answered, List.mem_append, List.mem_singleton, or_and_right, exists_or, exists_eq_left]

theorem contacted_snoc : Contacted c id (tr ++ [e]) ↔ Contacted c id tr ∨ Contacts c id e := by
  simp only [Contacted, List.mem_append, List.mem_singleton, or_and_right, exists_or,
    exists_eq_left]

/-- A call contacts nobody before it takes the lock, and later only in the transfer. -/
theorem not_contacts_run {a : Act}
    (h : ∀ id' rpc sender n, s.locals c ≠ .inn (.transfer id' rpc sender ⟨n, .remote .sent⟩)) :
    ¬ Contacts c id (s, .run c a) := by
  rintro ⟨-, hc⟩
  cases a with
  | send b =>
    cases b with
    | step => simp only [Occasion] at hc
    | _ => exact hc
  | _ => exact hc

theorem not_answers_out {a : Act} {w : Outside} (h : s.locals c = .out w) :
    ¬ Answers c id (s, .run c a) := by
  rintro ⟨-, ha⟩
  cases a with
  | reply => simp [answeredBy, h] at ha
  | send b => cases b <;> simp [answeredBy, h] at ha
  | _ => cases ha

/-- The server that answers in a loop is the one it is at. -/
theorem answers_loop {a : Act} {w : Work} {l : Loop}
    (hl : s.locals c = .inn (.lock w l) ∨ s.locals c = .inn (.unlock w l))
    (h : Answers c id (s, .run c a)) : ∃ todo att, l = .body todo id att := by
  obtain ⟨-, ha⟩ := h
  cases a with
  | reply =>
    cases l with
    | body todo id' att => rcases hl with hl | hl <;> simp_all [answeredBy]
    | _ => rcases hl with hl | hl <;> simp [answeredBy, hl] at ha
  | send b => rcases hl with hl | hl <;> cases b <;> simp [answeredBy, hl] at ha
  | _ => cases ha

end

/-! ## Steps -/

/-- A loop that does not catch goes on to the next entry only when the server has
answered. -/
theorem Loop.Move.pending_again {m : Method} {c : CallId} {v v' : View} {l l' : Loop} {a : Act}
    (h : Loop.Move m false c v l a v' (.again l')) {id : ServerId}
    (hid : id ∈ l.pending v.servers.keys) : id ∈ l'.pending v'.servers.keys ∨
      a = .reply ∧ ∃ todo att, l = .body todo id att := by
  have hs := h.servers
  generalize hf : Flow.again l' = f at h
  cases h with
  | start =>
    obtain rfl := Flow.again.inj hf
    exact .inl hid
  | @pick todo id' hmem =>
    obtain rfl := Flow.again.inj hf
    refine .inl ?_
    simpa [pending, Finset.insert_erase hmem] using hid
  | done => cases hf
  | exec _ _ =>
    obtain rfl := Flow.again.inj hf
    exact .inl hid
  | @reply todo id' att _ =>
    obtain rfl := Flow.again.inj hf
    rcases Finset.mem_insert.mp hid with rfl | hid
    · exact .inr ⟨rfl, todo, att, rfl⟩
    · exact .inl hid
  | throw _ =>
    rcases failed_again hf with ⟨n, rfl⟩ | ⟨hsw, -⟩
    · exact .inl hid
    · cases hsw
  | linger _ =>
    rcases failed_again hf with ⟨n, rfl⟩ | ⟨hsw, -⟩
    · exact .inl hid
    · cases hsw

/-- No method removes a key. -/
theorem Method.effect_keys (m : Method) (pr : Progress) (id id' : ServerId) (v : View)
    (h : (v.data id').keys ≠ ∅) : ((m.effect pr id v).data id').keys ≠ ∅ := by
  by_cases hid : id' = id
  · subst hid
    cases pr with
    | sent =>
      cases m with
      | put k x =>
        rw [Method.effect_sent_put, View.setData_data_self]
        exact Finset.ne_empty_of_mem (Finmap.mem_keys.mpr (Finmap.mem_insert.mpr (.inl rfl)))
      | _ => exact h
    | notifying => cases m <;> exact h
    | executed => cases m <;> exact h
  · rw [Method.effect_data_of_ne m pr v hid]
    exact h

theorem Event.Move.keys_ne {v v' : View} {e : Event} (h : Event.Move v e v') {id : ServerId}
    (hid : (v.data id).keys ≠ ∅) : (v'.data id).keys ≠ ∅ := by
  cases h with
  | crash => exact hid
  | deliver _ _ _ => exact Method.effect_keys _ _ _ _ _ hid

theorem Send.Move.keys_ne {v v' : View} {sender target id : ServerId} {p p' : Send} {b : SendAct}
    (h : Send.Move v sender target p b v' p') (hid : (v.data id).keys ≠ ∅) :
    (v'.data id).keys ≠ ∅ := by
  cases h with
  | exec _ _ => exact Method.effect_keys _ _ _ _ _ hid
  | _ => exact hid

/-! ## The call -/

/-- What the point of the transfer tells of the contacts of the joining server.  `C` says
that there was an occasion, `D` that the server is registered or has answered. -/
def Send.Meets (C D : Prop) : Send → Prop
  | .next todo => (todo = ∅ → C → D) ∧ (todo ≠ ∅ → C)
  | .put _ _ _ _ => C
  | .returned => C → D
  | .sent | .raised => True

/-- What is known of the call at each of its points. -/
def Admitting (c : CallId) (id : ServerId) (tr : Trace) (v : View) :
    Monitor.Local Outside Inside → Prop
  | .out (.addContains id') | .out (.addFindFirst id' _)
  | .out (.synchronized (.registerFirst id' _)) | .inn (.registerFirst id' _)
  | .out (.synchronized (.withLock (.addServer id' _ _))) =>
    id' = id ∧ ¬ Answered c id tr ∧ ¬ Contacted c id tr
  | .inn (.lock (.addServer id' _ _) l) => id' = id ∧ l.Within v ∧
      (Answered c id tr → id ∈ v.servers) ∧ (Contacted c id tr ↔ id ∈ v.servers)
  | .inn (.transfer id' _ sender a) => id' = id ∧ (Answered c id tr → Contacted c id tr) ∧
      (id ∈ v.servers → Contacted c id tr) ∧
      (Contacted c id tr → (id ∈ v.servers ∨ Answered c id tr) ∨ (v.data sender).keys ≠ ∅) ∧
      ∀ p, a.state = .remote p → sender ∈ v.servers ∧
        p.Meets (Contacted c id tr) (id ∈ v.servers ∨ Answered c id tr)
  | .inn (.unlock (.addServer id' _ _) l) => id' = id ∧ l.Within v ∧
      (Answered c id tr → Contacted c id tr) ∧ (id ∈ v.servers → Contacted c id tr) ∧
      (Contacted c id tr → id ∈ l.pending v.servers.keys ∨ Answered c id tr)
  | .inn (.register id' _) => id' = id ∧ (Answered c id tr ↔ Contacted c id tr)
  | .inn (.leave (.finish o)) | .out (.finished o) =>
    o = .returned .added → (Answered c id tr ↔ Contacted c id tr)
  | _ => False

section
variable {c : CallId} {id : ServerId} {tr : Trace} {s : System}

/-- A step that neither is an answer nor an occasion. -/
theorem Admitting.snoc {e : System × Label} {v : View} {y : Monitor.Local Outside Inside}
    (ha : ¬ Answers c id e) (hc : ¬ Contacts c id e) :
    Admitting c id (tr ++ [e]) v y ↔ Admitting c id tr v y := by
  have ha' : Answered c id (tr ++ [e]) ↔ Answered c id tr := answered_snoc.trans (or_iff_left ha)
  have hc' : Contacted c id (tr ++ [e]) ↔ Contacted c id tr :=
    contacted_snoc.trans (or_iff_left hc)
  unfold Admitting
  simp only [ha', hc']

/-- While the call holds `serversLock` the membership stays and no server loses its data. -/
theorem Admitting.of_view {v v' : View} {y : Monitor.Local Outside Inside}
    (h : Admitting c id tr v y) (hs : ∀ i, y = .inn i → v'.servers = v.servers)
    (hkeys : ∀ i, y = .inn i → ∀ id, (v.data id).keys ≠ ∅ → (v'.data id).keys ≠ ∅) :
    Admitting c id tr v' y := by
  unfold Admitting at h ⊢
  split at h
  case h_6 =>
    rw [Loop.Within, hs _ rfl]
    exact h
  case h_7 =>
    rw [hs _ rfl]
    obtain ⟨hid, hac, hin, hca, hp⟩ := h
    exact ⟨hid, hac, hin, fun hC => (hca hC).imp_right (hkeys _ rfl _), hp⟩
  case h_8 =>
    rw [Loop.Within, hs _ rfl]
    exact h
  all_goals exact h

theorem Admitting.outside {cl' : Cluster} {w w' : Outside} {a : Act} (hl : s.locals c = .out w)
    (h : w.step c s.shared a = some (cl', w')) (hw : Admitting c id tr s.shared.view (.out w)) :
    Admitting c id (tr ++ [(s, .run c a)]) cl'.view (.out w') := by
  have ha : ¬ Answered c id tr → ¬ Answered c id (tr ++ [(s, .run c a)]) := fun hn =>
    mt answered_snoc.mp (not_or.mpr ⟨hn, not_answers_out hl⟩)
  have hc : ¬ Contacted c id tr → ¬ Contacted c id (tr ++ [(s, .run c a)]) := fun hn =>
    mt contacted_snoc.mp (not_or.mpr ⟨hn, not_contacts_run (by simp [hl])⟩)
  cases w with
  | addContains id' =>
    obtain ⟨rfl, hna, hnc⟩ := hw
    obtain ⟨rfl, rfl, hcases⟩ := addContains_step h
    rcases hcases with ⟨_, rfl⟩ | ⟨_, ⟨hport, rfl⟩ | ⟨_, message, rfl⟩⟩
    · nofun
    · exact ⟨rfl, ha hna, hc hnc⟩
    · nofun
  | addFindFirst id' rpc =>
    obtain ⟨rfl, hna, hnc⟩ := hw
    obtain ⟨rfl, rfl | ⟨sender, rfl⟩⟩ := addFindFirst_step h
    · exact ⟨rfl, ha hna, hc hnc⟩
    · exact ⟨rfl, ha hna, hc hnc⟩
  | synchronized b => cases a <;> simp [Outside.step] at h
  | finished o => cases a <;> simp [Outside.step] at h
  | _ => exact hw.elim

theorem Admitting.enter {w : Outside} {i : Inside} (hl : s.locals c = .out w)
    (he : w.entry = some i) (hw : Admitting c id tr s.shared.view (.out w)) :
    Admitting c id (tr ++ [(s, .enter c)]) s.shared.view (.inn i) := by
  obtain ⟨b, rfl, rfl⟩ := Outside.entry_eq_some he
  have ha : ¬ Answers c id (s, .enter c) := by simp [Answers, answeredBy]
  cases b with
  | registerFirst id' rpc =>
    obtain ⟨rfl, hna, hnc⟩ := hw
    refine ⟨rfl, mt answered_snoc.mp (not_or.mpr ⟨hna, ha⟩), mt contacted_snoc.mp ?_⟩
    exact not_or.mpr ⟨hnc, by simp [Contacts, Occasion, hl]⟩
  | withLock w =>
    cases w with
    | put k x => exact hw.elim
    | addServer id' rpc sender =>
      obtain ⟨rfl, hna, hnc⟩ := hw
      have hna' := mt answered_snoc.mp (not_or.mpr ⟨hna, ha⟩)
      refine ⟨rfl, Loop.start_within _, fun hA => absurd hA hna', ?_⟩
      rw [contacted_snoc, or_iff_right hnc]
      simp [Contacts, Occasion, hl, Monitor.Label.thread]
  | _ => exact hw.elim

/-- A failed attempt at the transfer loses nothing of what is known. -/
theorem Admitting.failed {rpc : ServerRPC id} {sender : ServerId} {n : Nat} {t : Transfer}
    {v : View} (h : Admitting c id tr v (.inn (.transfer id rpc sender ⟨n, t⟩))) :
    Admitting c id tr v (.inn (Transfer.failed id rpc sender ⟨n, t⟩)) := by
  rcases Transfer.failed_cases id rpc sender ⟨n, t⟩ with ⟨_, e⟩ | ⟨_, e⟩ <;> rw [e]
  · obtain ⟨-, hac, hin, hca, -⟩ := h
    exact ⟨rfl, hac, hin, hca, nofun⟩
  · nofun

/-- A step of `sendValuesToServer` that starts its loop over no entry, or neither starts the
loop nor ends with an answer. -/
theorem Send.Move.meets {v v' : View} {sender : ServerId} {p p' : Send} {b : SendAct}
    {C D : Prop} (h : Send.Move v sender id p b v' p') (hport : -1 ≤ serverPort id)
    (hreply : b ≠ .reply) (hstart : p = .sent → (v.data sender).keys = ∅)
    (hne : C → D ∨ (v.data sender).keys ≠ ∅) (hp : p.Meets C D) : p'.Meets C D := by
  cases h with
  | start _ =>
    have hkeys := hstart rfl
    exact ⟨fun _ hC => (hne hC).resolve_right (not_not.mpr hkeys), fun hn => absurd hkeys hn⟩
  | badPort hbad => exact absurd hport hbad
  | visit hk _ => exact hp.2 (Finset.ne_empty_of_mem hk)
  | done => exact hp.1 rfl
  | exec _ _ => exact hp
  | reply _ => exact absurd rfl hreply
  | retry _ => exact hp
  | giveUp _ => trivial

/-- A step of `sendValuesToServer`: it is an occasion when there is an entry to write, and
an answer when the joining server has written one. -/
theorem Send.Move.admitting {rpc : ServerRPC id} {sender : ServerId} {n : Nat} {p p' : Send}
    {b : SendAct} {v' : View} (h : Send.Move s.shared.view sender id p b v' p')
    (hl : s.locals c = .inn (.transfer id rpc sender ⟨n, .remote p⟩))
    (hi : Admitting c id tr s.shared.view (.inn (.transfer id rpc sender ⟨n, .remote p⟩))) :
    Admitting c id (tr ++ [(s, .run c (.send b))]) v'
      (.inn (.transfer id rpc sender ⟨n, .remote p'⟩)) := by
  obtain ⟨-, hac, hin, hca, hp⟩ := hi
  obtain ⟨hsender, hmeets⟩ := hp p rfl
  have hs := h.servers
  have hkeys : (s.shared.view.data sender).keys ≠ ∅ → (v'.data sender).keys ≠ ∅ := h.keys_ne
  have hthread : (s, (.run c (.send b) : Label)).2.thread = some c := rfl
  by_cases hreply : b = .reply
  · -- The joining server has answered; the loop had an entry, so there was an occasion.
    subst hreply
    have hA : Answered c id (tr ++ [(s, .run c (.send .reply))]) :=
      answered_snoc.mpr (.inr ⟨hthread, by simp [answeredBy, hl]⟩)
    cases h with
    | reply _ =>
      have hC : Contacted c id (tr ++ [(s, .run c (.send .reply))]) :=
        contacted_snoc.mpr (.inl hmeets)
      refine ⟨rfl, fun _ => hC, fun _ => hC, fun _ => .inl (.inr hA), ?_⟩
      rintro q ⟨⟩
      exact ⟨hsender, fun _ _ => .inr hA, fun _ => hC⟩
  · have ha : ¬ Answers c id (s, .run c (.send b)) := by
      rintro ⟨-, ha⟩
      cases b <;> simp [answeredBy, hl] at ha hreply
    by_cases hstart : p = .sent ∧ (s.shared.view.data sender).keys ≠ ∅
    · -- The loop starts over the entries of the sender.
      obtain ⟨rfl, hne⟩ := hstart
      cases h with
      | badPort hbad => exact absurd rpc.port_ok hbad
      | start _ =>
        have hC : Contacted c id (tr ++ [(s, .run c (.send .step))]) := by
          refine contacted_snoc.mpr (.inr ⟨hthread, ?_⟩)
          simp only [Occasion, hl]
          exact hne
        refine ⟨rfl, fun _ => hC, fun _ => hC, fun _ => .inr hne, ?_⟩
        rintro q ⟨⟩
        exact ⟨hsender, fun he => absurd he hne, fun _ => hC⟩
    · have hc : ¬ Contacts c id (s, .run c (.send b)) := by
        rintro ⟨-, hc⟩
        cases b <;> cases p <;> simp_all [Occasion]
      rw [Admitting.snoc ha hc]
      refine ⟨rfl, hac, ?_, ?_, ?_⟩ <;> simp only [hs]
      · exact hin
      · exact fun hC => (hca hC).imp_right hkeys
      · rintro q ⟨⟩
        exact ⟨hsender, h.meets rpc.port_ok hreply
          (fun hp => not_not.mp fun hne => hstart ⟨hp, hne⟩) hca hmeets⟩

/-- The first loop over the registered servers: a server answers in it just if it is one of
them, and the joining server is one of them just if that was the occasion. -/
theorem Loop.Move.admitting_lock {rpc : ServerRPC id} {sender : ServerId} {l : Loop} {a : Act}
    {v' : View} {f : Flow} (h : Loop.Move .lock true c s.shared.view l a v' f)
    (hl : s.locals c = .inn (.lock (.addServer id rpc sender) l))
    (hi : Admitting c id tr s.shared.view (.inn (.lock (.addServer id rpc sender) l))) :
    Admitting c id (tr ++ [(s, .run c a)]) v'
      (.inn (f.point (.lock (.addServer id rpc sender)) (Work.addServer id rpc sender).body)) := by
  obtain ⟨-, hwithin, hA, hC⟩ := hi
  have hc : ¬ Contacts c id (s, .run c a) := not_contacts_run (by simp [hl])
  have hC' : Contacted c id (tr ++ [(s, .run c a)]) ↔ id ∈ v'.servers := by
    rw [contacted_snoc, or_iff_left hc, h.servers]
    exact hC
  have hA' : Answered c id (tr ++ [(s, .run c a)]) → id ∈ v'.servers := by
    rw [answered_snoc, h.servers]
    rintro (hold | hnew)
    · exact hA hold
    · obtain ⟨todo, att, rfl⟩ := answers_loop (.inl hl) hnew
      exact hwithin.mem_servers
  cases f with
  | again l' => exact ⟨rfl, h.within hwithin, hA', hC'⟩
  | done => exact ⟨rfl, fun h => hC'.mpr (hA' h), hC'.mpr, fun h => .inl (.inl (hC'.mp h)), nofun⟩
  | raised => cases h.raised_inv.1

/-- The second loop: a joining server that is registered answers in it. -/
theorem Loop.Move.admitting_unlock {rpc : ServerRPC id} {sender : ServerId} {l : Loop} {a : Act}
    {v' : View} {f : Flow} (h : Loop.Move .unlock false c s.shared.view l a v' f)
    (hl : s.locals c = .inn (.unlock (.addServer id rpc sender) l))
    (hi : Admitting c id tr s.shared.view (.inn (.unlock (.addServer id rpc sender) l))) :
    Admitting c id (tr ++ [(s, .run c a)]) v'
      (.inn (f.point (.unlock (.addServer id rpc sender))
        (Work.addServer id rpc sender).after)) := by
  obtain ⟨-, hwithin, hac, hin, hca⟩ := hi
  have hC : Contacted c id (tr ++ [(s, .run c a)]) ↔ Contacted c id tr := by
    rw [contacted_snoc]
    exact or_iff_left (not_contacts_run (by simp [hl]))
  have hac' : Answered c id (tr ++ [(s, .run c a)]) →
      Contacted c id (tr ++ [(s, .run c a)]) := by
    rw [answered_snoc, hC]
    rintro (hold | hnew)
    · exact hac hold
    · obtain ⟨todo, att, rfl⟩ := answers_loop (.inr hl) hnew
      exact hin hwithin.mem_servers
  cases f with
  | again l' =>
    refine ⟨rfl, h.within hwithin, hac', fun hmem => hC.mpr (hin (h.servers ▸ hmem)), fun hc => ?_⟩
    rcases hca (hC.mp hc) with hpend | hA
    · rcases h.pending_again hpend with hpend' | ⟨rfl, todo, att, rfl⟩
      · exact .inl hpend'
      · exact .inr (answered_snoc.mpr (.inr ⟨rfl, by simp [answeredBy, hl]⟩))
    · exact .inr (answered_snoc.mpr (.inl hA))
  | done =>
    obtain ⟨rfl, rfl⟩ := h.done_inv
    refine ⟨rfl, hac', fun hc => ?_⟩
    rcases hca (hC.mp hc) with hpend | hA
    · exact absurd hpend (Finset.notMem_empty _)
    · exact answered_snoc.mpr (.inl hA)
  | raised => nofun

/-- The sender answers that it has sent its entries. -/
theorem Admitting.sent {rpc : ServerRPC id} {sender : ServerId} {n : Nat}
    (hl : s.locals c = .inn (.transfer id rpc sender ⟨n, .remote .returned⟩))
    (hi : Admitting c id tr s.shared.view (.inn (.transfer id rpc sender ⟨n, .remote .returned⟩))) :
    Admitting c id (tr ++ [(s, .run c .reply)]) s.shared.view
      (.inn (.unlock (.addServer id rpc sender) .start)) := by
  obtain ⟨-, hac, hin, hca, hp⟩ := hi
  obtain ⟨hsender, hmeets⟩ := hp _ rfl
  have hC : Contacted c id (tr ++ [(s, .run c .reply)]) ↔ Contacted c id tr := by
    rw [contacted_snoc]
    exact or_iff_left (not_contacts_run (by simp [hl]))
  refine ⟨rfl, Loop.start_within _, ?_, fun h => hC.mpr (hin h), fun h => ?_⟩
  · rw [answered_snoc, hC]
    rintro (hold | ⟨-, hnew⟩)
    · exact hac hold
    · simp only [answeredBy, hl, Option.some.injEq] at hnew
      exact hin (hnew ▸ hsender)
  · rcases hmeets (hC.mp h) with h | h
    · exact .inl (Finmap.mem_keys.mpr h)
    · exact .inr (answered_snoc.mpr (.inl h))

theorem Inside.Move.admitting {v' : View} {i i' : Inside} {a : Act} (hl : s.locals c = .inn i)
    (h : Inside.Move c s.shared.view i a v' (.inl i'))
    (hi : Admitting c id tr s.shared.view (.inn i)) :
    Admitting c id (tr ++ [(s, .run c a)]) v' (.inn i') := by
  generalize hr : (Sum.inl i' : Inside ⊕ Outside) = r at h
  cases h with
  | @lock w l a v' f h =>
    obtain rfl := Sum.inl.inj hr
    cases w with
    | put k x => exact hi.elim
    | addServer id' rpc sender =>
      obtain rfl : id' = id := hi.1
      exact h.admitting_lock hl hi
  | @senderFound id' rpc sender n hmem =>
    obtain rfl := Sum.inl.inj hr
    obtain ⟨rfl, hac, hin, hca, -⟩ := hi
    rw [Admitting.snoc (by simp [Answers, answeredBy]) (not_contacts_run (by simp [hl]))]
    refine ⟨rfl, hac, hin, hca, ?_⟩
    rintro q ⟨⟩
    exact ⟨hmem, trivial⟩
  | @senderGone id' rpc sender n hmem =>
    obtain rfl := Sum.inl.inj hr
    obtain rfl : id' = id := hi.1
    rw [Admitting.snoc (by simp [Answers, answeredBy]) (not_contacts_run (by simp [hl]))]
    exact hi.failed
  | @send id' rpc sender n p p' b v' hc h =>
    obtain rfl := Sum.inl.inj hr
    obtain rfl : id' = id := hi.1
    exact h.admitting hl hi
  | @sent id' rpc sender n =>
    obtain rfl := Sum.inl.inj hr
    obtain rfl : id' = id := hi.1
    exact hi.sent hl
  | @transferThrow id' rpc sender n p hmay =>
    obtain rfl := Sum.inl.inj hr
    obtain rfl : id' = id := hi.1
    rw [Admitting.snoc (by simp [Answers, answeredBy]) (by simp [Contacts, Occasion])]
    exact hi.failed
  | @unlock w l a v' f h =>
    obtain rfl := Sum.inl.inj hr
    cases w with
    | put k x => exact hi.elim
    | addServer id' rpc sender =>
      obtain rfl : id' = id := hi.1
      exact h.admitting_unlock hl hi
  | @registerFirst id' rpc =>
    obtain rfl := Sum.inl.inj hr
    obtain ⟨rfl, hna, hnc⟩ := hi
    rw [Admitting.snoc (by simp [Answers, answeredBy]) (not_contacts_run (by simp [hl]))]
    exact fun _ => iff_of_false hna hnc
  | @register id' rpc =>
    obtain rfl := Sum.inl.inj hr
    obtain ⟨rfl, hiff⟩ := hi
    rw [Admitting.snoc (by simp [Answers, answeredBy]) (not_contacts_run (by simp [hl]))]
    exact fun _ => hiff
  | leave => cases hr
  | _ => exact hi.elim

end

/-- A call of `addServer` that ends with `Success` has been answered by the joining server
if and only if there was an occasion to call it. -/
theorem admitted_answered_iff {c : CallId} {id : ServerId} {s₀ s : System} {tr : Trace}
    (hx : Monitor.Exclusive s₀) (hcall : s₀.locals c = .out (Op.addServer id).start)
    (h : SystemRun (fun _ _ => True) s₀ tr s)
    (hfin : s.locals c = .out (.finished (.returned .added))) :
    (∃ e ∈ tr, Answers c id e) ↔ ∃ e ∈ tr, Contacts c id e := by
  have hadmit := Monitor.Run.thread (t := c) (Q := fun tr y cl => Admitting c id tr cl.view y)
    h hx (by rw [hcall]; exact ⟨rfl, by simp [Answered], by simp [Contacted]⟩)
    (fun _ hl ho hQ => hQ.outside hl ho)
    (fun _ hl he hQ => hQ.enter hl he)
    (fun _ hl hi hQ => (Inside.Move.of_step hi).admitting hl hQ)
    (fun _ hl hi hQ => by
      obtain ⟨e, rfl, rfl, rfl, hv⟩ := (Inside.Move.of_step hi).leave_inv
      rw [hv, Admitting.snoc (by simp [Answers, answeredBy]) (not_contacts_run (by simp [hl]))]
      cases e with
      | resume next => exact hQ.elim
      | finish o => exact hQ)
    (fun _ hx _ hs hne hQ => by
      rw [Admitting.snoc (fun ha => hne ha.1) fun hc => hne hc.1]
      refine hQ.of_view (fun i hi => ?_) fun i hi id hid => ?_
      · rcases view_of_others hx hi hs hne with hv | ⟨e, _, hm⟩
        · rw [hv]
        · exact hm.servers
      · rcases view_of_others hx hi hs hne with hv | ⟨e, _, hm⟩
        · rwa [hv]
        · exact hm.keys_ne hid)
  rw [hfin] at hadmit
  exact hadmit rfl

/-! ## Runs -/

/-- A server joins a server that holds a key. -/
def joinWithKey : List Label :=
  putOn 1 5 7 [1] ++ [.run 0 .step, .run 0 (.pick 1)] ++ (joinFrom 0 2 1 [5] [1]).drop 3

theorem admitted_answered_iff_joinWithKey :
    ∃ tr s, SystemRun (fun _ _ => True) (System.calling oneServer 0 (.addServer 2)) tr s ∧
      2 ∈ s.shared.servers ∧ ∃ e ∈ tr, Answers 0 2 e := by
  have hex : ((exec System.step (System.calling oneServer 0 (.addServer 2)) joinWithKey).map
      fun s => (s.outcome 0, decide (2 ∈ s.shared.servers))) =
      some (some (.returned .added), true) := by decide +kernel
  obtain ⟨s, hrun, hs⟩ := Run.exists_of_exec (fun _ _ => True) hex (by simp)
  obtain ⟨hfin, hmem⟩ := Prod.mk.inj hs
  exact ⟨_, s, hrun, of_decide_eq_true hmem,
    (admitted_answered_iff (System.calling_exclusive _ _ _) rfl hrun (System.outcome_eq hfin)).mpr
      (by decide +kernel)⟩

/-- Nothing listens at the port of server 1 when it joins an empty membership. -/
def joinDead : List Label := .env (.crash 1) :: joinFirst 0 1

theorem joinDead_not_answered :
    ¬ ∀ (c : CallId) (id : ServerId) (tr : Trace) (s : System),
      SystemRun (fun _ _ => True) (System.fresh ∅) tr s →
      (∃ e ∈ tr, e.2 = .run c (.call (.addServer id))) →
      s.locals c = .out (.finished (.returned .added)) → ∃ e ∈ tr, Answers c id e := by
  intro hclaim
  have hex : ((exec System.step (System.fresh ∅) joinDead).map fun s => s.outcome 0) =
      some (some (.returned .added)) := by decide +kernel
  obtain ⟨s, hrun, hfin⟩ := Run.exists_of_exec (fun _ _ => True) hex (by simp)
  have hans := hclaim 0 1 _ s hrun (by decide +kernel) (System.outcome_eq hfin)
  have hnone : ∀ e ∈ traceOf System.step (System.fresh ∅) joinDead, answeredBy e = none := by
    decide +kernel
  obtain ⟨e, he, -, hby⟩ := hans
  rw [hnone e he] at hby
  cases hby

end ReplicatedStore
