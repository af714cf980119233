/-
Loops over the registered servers, and the transfer loop of a joining server.

`Loop.Swept` is the invariant of the three loops of `ServerLockUtil`: the entries
the loop has dealt with satisfy `D`.  `Send.Copied` is the invariant of
`sendValuesToServer`: what the iterator has passed has arrived.
-/
import ReplicatedStore.Steps
import ReplicatedStore.Lib.Map

namespace ReplicatedStore

namespace Loop

/-- The entries the loop has not finished with. -/
def pending (keys : Finset ServerId) : Loop → Finset ServerId
  | .start => keys
  | .next todo => todo
  | .body todo id _ => insert id todo

/-- The loop has sent its method to `id` and the server has started on it. -/
def Reached (keys : Finset ServerId) (l : Loop) (id : ServerId) : Prop :=
  id ∈ keys ∧ (id ∉ l.pending keys ∨ ∃ todo a, l = .body todo id a ∧ a.state ≠ .sent)

/-- The loop has still to make the server `id` run its method. -/
def Before (id : ServerId) : Loop → Prop
  | .start => True
  | .next todo => id ∈ todo
  | .body todo id' a => if id' = id then a.state = .sent else id ∈ todo

instance (id : ServerId) : DecidablePred (Before id) := fun l =>
  match l with
  | .start => isTrue trivial
  | .next _ => inferInstanceAs (Decidable (id ∈ _))
  | .body _ id' _ => inferInstanceAs (Decidable (if id' = id then _ else _))

/-- It has not done so yet when it has still to. -/
theorem Reached.not_before {keys : Finset ServerId} {l : Loop} {id : ServerId}
    (h : l.Reached keys id) : ¬ l.Before id := by
  obtain ⟨hid, hn | ⟨todo, a, rfl, hsent⟩⟩ := h
  · cases l with
    | start => exact absurd hid hn
    | next todo => exact hn
    | body todo id' a =>
      obtain ⟨hne, htodo⟩ := not_or.mp (mt Finset.mem_insert.mpr hn)
      simpa [Before, Ne.symm hne] using htodo
  · simpa [Before] using hsent

/-- Every entry the loop has dealt with satisfies `D`. -/
def Swept (D : ServerId → View → Prop) (l : Loop) (v : View) : Prop :=
  ∀ id, l.Reached v.servers.keys id → D id v

/-- The loop runs over registered servers. -/
def Within (l : Loop) (v : View) : Prop := l.pending v.servers.keys ⊆ v.servers.keys

theorem start_swept (D : ServerId → View → Prop) (v : View) : Loop.start.Swept D v := by
  rintro id ⟨hid, hn | ⟨todo, a, h, _⟩⟩
  · exact absurd hid hn
  · cases h

theorem start_within (v : View) : Loop.start.Within v := fun _ h => h

theorem swept_done {D : ServerId → View → Prop} {v : View}
    (h : (Loop.next ∅).Swept D v) : ∀ id ∈ v.servers, D id v :=
  fun id hid => h id ⟨Finmap.mem_keys.mpr hid, .inl (Finset.notMem_empty id)⟩

variable {m : Method} {sw : Bool} {c : CallId} {v v' : View} {l l' : Loop} {a : Act} {f : Flow}

theorem Move.servers (h : Loop.Move m sw c v l a v' f) : v'.servers = v.servers := by
  cases h <;> simp

theorem Move.crashed (h : Loop.Move m sw c v l a v' f) : v'.crashed = v.crashed := by
  cases h <;> simp

/-- A method other than `put` leaves the data alone. -/
theorem Move.data_eq (h : Loop.Move m sw c v l a v' f) (hm : ∀ k x, m ≠ .put k x) :
    v'.data = v.data := by
  cases h with
  | @exec todo id att _ _ =>
    cases m with
    | put k x => exact absurd rfl (hm k x)
    | _ => cases att.state <;> rfl
  | _ => rfl

section
variable {todo : Finset ServerId} {id : ServerId} {att : Attempt Progress}

/-- After an attempt has thrown, a loop that goes on tries the same entry again, or it
catches and takes the next one. -/
theorem failed_again (hf : Flow.again l' = Loop.failed sw todo id att) :
    (∃ n, l' = .body todo id ⟨n, .sent⟩) ∨
      sw = true ∧ RETRIES ≤ att.failures ∧ l' = .next todo := by
  rcases failed_cases sw todo id att with ⟨_, e⟩ | ⟨hr, hsw, e⟩ | ⟨_, _, e⟩ <;> rw [e] at hf
  · exact .inl ⟨_, Flow.again.inj hf⟩
  · exact .inr ⟨hsw, hr, Flow.again.inj hf⟩
  · cases hf

theorem failed_raised (hf : Flow.raised = Loop.failed sw todo id att) :
    sw = false ∧ RETRIES ≤ att.failures := by
  rcases failed_cases sw todo id att with ⟨_, e⟩ | ⟨_, _, e⟩ | ⟨hr, hsw, e⟩ <;> rw [e] at hf
  · cases hf
  · cases hf
  · exact ⟨hsw, hr⟩

theorem failed_ne_done : Flow.done ≠ Loop.failed sw todo id att := by
  rcases failed_cases sw todo id att with ⟨_, e⟩ | ⟨_, _, e⟩ | ⟨_, _, e⟩ <;> rw [e] <;> simp

theorem pending_failed (hf : Flow.again l' = Loop.failed sw todo id att)
    (keys : Finset ServerId) : l'.pending keys ⊆ insert id todo := by
  rcases failed_again hf with ⟨n, rfl⟩ | ⟨-, -, rfl⟩
  · exact Finset.Subset.refl _
  · exact Finset.subset_insert id todo

end

theorem Move.within (h : Loop.Move m sw c v l a v' (.again l')) (hw : l.Within v) :
    l'.Within v' := by
  have hs := h.servers
  unfold Within at hw ⊢
  rw [hs]
  generalize hf : Flow.again l' = f at h
  cases h with
  | start =>
    obtain rfl := Flow.again.inj hf
    exact fun _ h => h
  | @pick todo id hid =>
    obtain rfl := Flow.again.inj hf
    simpa [pending, Finset.insert_erase hid] using hw
  | done => cases hf
  | exec _ _ =>
    obtain rfl := Flow.again.inj hf
    simpa [pending] using hw
  | reply _ =>
    obtain rfl := Flow.again.inj hf
    exact fun x hx => hw (Finset.mem_insert_of_mem hx)
  | throw _ => exact (pending_failed hf _).trans hw
  | linger _ => exact (pending_failed hf _).trans hw

/-- The server a loop is working on is registered. -/
theorem Within.mem_servers {todo : Finset ServerId} {id : ServerId} {att : Attempt Progress}
    (h : (Loop.body todo id att).Within v) : id ∈ v.servers :=
  Finmap.mem_keys.mp (h (Finset.mem_insert_self id todo))

/-- An attempt that threw leaves the same entry, or the entries after it. -/
theorem swept_failed {D : ServerId → View → Prop} {todo : Finset ServerId} {id : ServerId}
    {att : Attempt Progress} (hkeep : v'.servers = v.servers)
    (hD : ∀ x, x ∉ insert id todo → x ∈ v.servers.keys → D x v')
    (hgive : sw = true → RETRIES ≤ att.failures → D id v')
    (hf : Flow.again l' = Loop.failed sw todo id att) : l'.Swept D v' := by
  rcases failed_again hf with ⟨n, rfl⟩ | ⟨hsw, hr, rfl⟩
  · rintro x ⟨hx, hn | ⟨todo', att', h, hne⟩⟩
    · exact hD x hn (hkeep ▸ hx)
    · simp only [Loop.body.injEq] at h
      obtain ⟨_, _, rfl⟩ := h
      exact absurd rfl hne
  · rintro x ⟨hx, hn | ⟨todo', att', h, _⟩⟩
    · by_cases hxid : x = id
      · subst hxid
        exact hgive hsw hr
      · have hn' : x ∉ todo := hn
        exact hD x (by simp [hxid, hn']) (hkeep ▸ hx)
    · cases h

/-- The step lemma of `Swept`.  `D` must survive the step, hold of a server that has
just started on the method, and hold of a server the loop has given up on. -/
theorem Move.swept {D D' : ServerId → View → Prop} (h : Loop.Move m sw c v l a v' (.again l'))
    (hkeep : ∀ id, D id v → D' id v')
    (hexec : ∀ todo id att, l = .body todo id att → att.state = .sent → a = .exec →
      v' = m.effect .sent id v → D' id v')
    (hgive : sw = true → ∀ todo id att, l = .body todo id att → (a = .throw ∨ a = .linger) →
      RETRIES ≤ att.failures → D' id v')
    (hl : l.Swept D v) : l'.Swept D' v' := by
  have hs := h.servers
  generalize hf : Flow.again l' = f at h
  cases h with
  | start =>
    obtain rfl := Flow.again.inj hf
    rintro x ⟨hx, hn | ⟨todo, att, h, _⟩⟩
    · exact absurd hx hn
    · cases h
  | @pick todo id hid =>
    obtain rfl := Flow.again.inj hf
    rintro x ⟨hx, hn | ⟨todo', att, h, hne⟩⟩
    · rw [pending, Finset.insert_erase hid] at hn
      exact hkeep x (hl x ⟨hx, .inl hn⟩)
    · simp only [Loop.body.injEq] at h
      obtain ⟨_, _, rfl⟩ := h
      exact absurd rfl hne
  | done => cases hf
  | @exec todo id att hc hne =>
    obtain rfl := Flow.again.inj hf
    rintro x ⟨hx, hn | ⟨todo', att', h, hne'⟩⟩
    · exact hkeep x (hl x ⟨hs ▸ hx, .inl hn⟩)
    · simp only [Loop.body.injEq] at h
      obtain ⟨_, rfl, rfl⟩ := h
      by_cases hsent : att.state = .sent
      · exact hexec todo id att rfl hsent rfl (by rw [hsent])
      · exact hkeep id (hl id ⟨hs ▸ hx, .inr ⟨todo, att, rfl, hsent⟩⟩)
  | @reply todo id att hex =>
    obtain rfl := Flow.again.inj hf
    rintro x ⟨hx, hn | ⟨todo', att', h, _⟩⟩
    · by_cases hxid : x = id
      · subst hxid
        exact hkeep x (hl x ⟨hx, .inr ⟨todo, att, rfl, by simp [hex]⟩⟩)
      · exact hkeep x (hl x ⟨hx, .inl (by simpa [pending, hxid] using hn)⟩)
    · cases h
  | @throw todo id att _ =>
    exact swept_failed hs (fun x hn hx => hkeep x (hl x ⟨hx, .inl hn⟩))
      (fun hsw hr => hgive hsw todo id att rfl (.inl rfl) hr) hf
  | @linger todo id att _ =>
    exact swept_failed hs (fun x hn hx => hkeep x (hl x ⟨hx, .inl hn⟩))
      (fun hsw hr => hgive hsw todo id att rfl (.inr rfl) hr) hf

/-- A loop ends normally only after its last entry. -/
theorem Move.done_inv (h : Loop.Move m sw c v l a v' .done) : l = .next ∅ ∧ v' = v := by
  generalize hf : Flow.done = f at h
  cases h with
  | done => exact ⟨rfl, rfl⟩
  | throw _ => exact absurd hf failed_ne_done
  | linger _ => exact absurd hf failed_ne_done
  | _ => cases hf

/-- A loop ends by an exception only when an attempt throws after the last retry. -/
theorem Move.raised_inv (h : Loop.Move m sw c v l a v' .raised) :
    sw = false ∧ ∃ todo id att, l = .body todo id att ∧ RETRIES ≤ att.failures ∧
      (a = .throw ∧ v' = v ∨
        a = .linger ∧ v' = { v with outstanding := v.outstanding ++ [⟨id, m, .sent, c⟩] }) := by
  generalize hf : Flow.raised = f at h
  cases h with
  | @throw todo id att _ =>
    obtain ⟨hsw, hr⟩ := failed_raised hf
    exact ⟨hsw, todo, id, att, rfl, hr, .inl ⟨rfl, rfl⟩⟩
  | @linger todo id att _ =>
    obtain ⟨hsw, hr⟩ := failed_raised hf
    exact ⟨hsw, todo, id, att, rfl, hr, .inr ⟨rfl, rfl⟩⟩
  | _ => cases hf

end Loop

/-! ## The transfer loop -/

/-- `source` has been copied to `target` as far as the iterator has come. -/
def Send.Copied (source target : Data) : Send → Prop
  | .sent | .raised => True
  | .next todo => ∀ k x, source.lookup k = some x → k ∉ todo → target.lookup k = some x
  | .put todo k x a =>
    source.lookup k = some x ∧ (a.state ≠ .sent → target.lookup k = some x) ∧
      ∀ k' x', source.lookup k' = some x' → k' ∉ insert k todo → target.lookup k' = some x'
  | .returned => ∀ k x, source.lookup k = some x → target.lookup k = some x

/-- A transfer changes nothing but the target, and that only by writing entries of
the source. -/
theorem Send.Move.data {v v' : View} {sender target : ServerId} {p p' : Send} {b : SendAct}
    (h : Send.Move v sender target p b v' p')
    (hp : p.Copied (v.data sender) (v.data target)) :
    v' = v ∨ ∃ k x, (v.data sender).lookup k = some x ∧
      v' = v.setData target ((v.data target).insert k x) := by
  cases h with
  | @exec todo k x a hc ha =>
    by_cases hs : a.state = .sent
    · exact .inr ⟨k, x, hp.1, by simp [hs]⟩
    · left
      cases hst : a.state
      · exact absurd hst hs
      · rfl
      · rfl
  | _ => exact .inl rfl

/-- The transfer does not change its source, even when a server sends to itself. -/
theorem Send.Move.source {v v' : View} {sender target : ServerId} {p p' : Send} {b : SendAct}
    (h : Send.Move v sender target p b v' p')
    (hp : p.Copied (v.data sender) (v.data target)) : v'.data sender = v.data sender := by
  rcases h.data hp with rfl | ⟨k, x, hk, rfl⟩
  · rfl
  · by_cases hst : sender = target
    · subst hst
      simp [Lib.insert_of_lookup hk]
    · rw [View.setData_data_of_ne _ hst]

theorem Send.Move.copied {v v' : View} {sender target : ServerId} {p p' : Send} {b : SendAct}
    (h : Send.Move v sender target p b v' p')
    (hp : p.Copied (v.data sender) (v.data target)) :
    p'.Copied (v'.data sender) (v'.data target) := by
  rw [h.source hp]
  cases h with
  | start _ =>
    intro k x hk hn
    exact absurd (Finmap.mem_keys.mpr (Finmap.mem_of_lookup_eq_some hk)) hn
  | badPort _ => trivial
  | @visit todo k x hk hx =>
    refine ⟨hx, fun h => absurd rfl h, fun k' x' hk' hn => hp k' x' hk' ?_⟩
    rwa [Finset.insert_erase hk] at hn
  | done => exact fun k x hk => hp k x hk (Finset.notMem_empty k)
  | @exec todo k x a hc ha =>
    by_cases hs : a.state = .sent
    · refine ⟨hp.1, fun _ => ?_, fun k' x' hk' hn => ?_⟩
      · simp [hs]
      · have hne : k' ≠ k := fun e => hn (e ▸ Finset.mem_insert_self k todo)
        simpa [hs, hne] using hp.2.2 k' x' hk' hn
    · have hv : (Method.put k x).effect a.state target v = v := by
        cases hst : a.state
        · exact absurd hst hs
        · rfl
        · rfl
      rw [hv]
      exact ⟨hp.1, fun _ => hp.2.1 hs, hp.2.2⟩
  | @reply todo k x a ha =>
    intro k' x' hk' hn
    by_cases hkk : k' = k
    · subst hkk
      obtain rfl : x = x' := Option.some.inj (hp.1.symm.trans hk')
      exact hp.2.1 (by simp [ha])
    · exact hp.2.2 k' x' hk' (by simp [hkk, hn])
  | @retry todo k x a _ => exact ⟨hp.1, fun h => absurd rfl h, hp.2.2⟩
  | giveUp _ => trivial

theorem Send.Move.servers {v v' : View} {sender target : ServerId} {p p' : Send} {b : SendAct}
    (h : Send.Move v sender target p b v' p') : v'.servers = v.servers := by
  cases h <;> simp

theorem Send.Move.isLocked {v v' : View} {sender target : ServerId} {p p' : Send} {b : SendAct}
    (h : Send.Move v sender target p b v' p') : v'.isLocked = v.isLocked := by
  cases h with
  | @exec todo k x a _ _ => cases hs : a.state <;> simp
  | _ => rfl

theorem Send.Move.crashed {v v' : View} {sender target : ServerId} {p p' : Send} {b : SendAct}
    (h : Send.Move v sender target p b v' p') : v'.crashed = v.crashed := by
  cases h <;> simp

theorem Inside.Move.crashed {c : CallId} {v v' : View} {i : Inside} {a : Act}
    {r : Inside ⊕ Outside} (h : Inside.Move c v i a v' r) : v'.crashed = v.crashed := by
  cases h with
  | lock h => exact h.crashed
  | write h => exact h.crashed
  | unlock h => exact h.crashed
  | send _ h => exact h.crashed
  | _ => rfl

end ReplicatedStore
