/-
Linearizability of histories, and the construction of a linearization along a run.

A history lists the invocations and responses of operations in the order in which
they happen.  A linearization orders operations of the history, among them all that
have responded, so that their results are those of the sequential object and no
operation comes before one that responded before it was invoked.  An operation that
has not responded may have taken effect or not.

A linearization grows with its history.  An operation that changes the state is put at
the end when it takes effect.  A read-only one is put in when it responds, at a cut of
the list that has been there since it was invoked: `Cut` says that the operations after
the cut do not precede it, and survives all that happens to others.
-/
import Mathlib.Data.List.Pairwise
import Mathlib.Data.List.Nodup

namespace ReplicatedStore
namespace Lib
namespace Linearizability

inductive Event (ι ω ρ : Type*)
  | inv (c : ι) (o : ω)
  | res (c : ι) (r : ρ)

abbrev History (ι ω ρ : Type*) := List (Event ι ω ρ)

/-- An operation with its result, in a sequential execution. -/
structure Entry (ι ω ρ : Type*) where
  caller : ι
  op : ω
  result : ρ

variable {ι σ ω ρ : Type*}

/-! ## Sequential executions -/

section Sequential

variable (apply : σ → ω → σ × ρ)

/-- The state a list of operations leads to. -/
def replay (m : σ) : List (Entry ι ω ρ) → σ
  | [] => m
  | e :: l => replay (apply m e.op).1 l

/-- The operations have the results the object gives them. -/
def Legal (m : σ) : List (Entry ι ω ρ) → Prop
  | [] => True
  | e :: l => (apply m e.op).2 = e.result ∧ Legal (apply m e.op).1 l

variable {apply}

theorem replay_append {l₁ l₂ : List (Entry ι ω ρ)} : ∀ {m : σ},
    replay apply m (l₁ ++ l₂) = replay apply (replay apply m l₁) l₂ := by
  induction l₁ with
  | nil => intro m; rfl
  | cons e l₁ ih => intro m; exact ih

theorem legal_append {l₁ l₂ : List (Entry ι ω ρ)} : ∀ {m : σ},
    Legal apply m (l₁ ++ l₂) ↔ Legal apply m l₁ ∧ Legal apply (replay apply m l₁) l₂ := by
  induction l₁ with
  | nil => intro m; simp [Legal, replay]
  | cons e l₁ ih =>
    intro m
    simp only [List.cons_append, Legal, replay, and_assoc]
    rw [ih]

end Sequential

/-! ## Histories -/

/-- The operation `c` has responded. -/
def Responded (h : History ι ω ρ) (c : ι) : Prop := ∃ r, Event.res c r ∈ h

/-- The response of `c` comes before the invocation of `d`. -/
def Precedes (h : History ι ω ρ) (c d : ι) : Prop :=
  ∃ r o, List.Sublist [Event.res c r, Event.inv d o] h

theorem Precedes.responded {h : History ι ω ρ} {c d : ι} (hp : Precedes h c d) :
    Responded h c := by
  obtain ⟨r, o, hs⟩ := hp
  exact ⟨r, hs.subset List.mem_cons_self⟩

theorem Precedes.mono {h h' : History ι ω ρ} {c d : ι} (hp : Precedes h c d) :
    Precedes (h ++ h') c d := by
  obtain ⟨r, o, hs⟩ := hp
  exact ⟨r, o, hs.trans (List.sublist_append_left h h')⟩

/-- What has responded precedes what is invoked next. -/
theorem Responded.precedes {h : History ι ω ρ} {c d : ι} {o : ω} (hc : Responded h c) :
    Precedes (h ++ [.inv d o]) c d := by
  obtain ⟨r, hr⟩ := hc
  exact ⟨r, o, (List.singleton_sublist.mpr hr).append (List.Sublist.refl _)⟩

theorem precedes_snoc {h : History ι ω ρ} {e : Event ι ω ρ} {c d : ι}
    (hp : Precedes (h ++ [e]) c d) :
    Precedes h c d ∨ Responded h c ∧ ∃ o, e = .inv d o := by
  obtain ⟨r, o, hs⟩ := hp
  obtain ⟨l₁, l₂, hl, h₁, h₂⟩ := List.sublist_append_iff.mp hs
  rcases List.sublist_singleton.mp h₂ with rfl | rfl
  · rw [List.append_nil] at hl
    exact .inl ⟨r, o, hl ▸ h₁⟩
  · have hl' : [Event.res c r] ++ [Event.inv d o] = l₁ ++ [e] := hl
    obtain ⟨rfl, he⟩ := List.append_inj' hl' rfl
    refine .inr ⟨⟨r, h₁.subset List.mem_cons_self⟩, o, ?_⟩
    exact (List.singleton_inj.mp he).symm

/-! ## Linearizations -/

variable (apply : σ → ω → σ × ρ)

/-- The list `l` is a linearization of `h` for the object that starts with `m`. -/
structure Linearization (m : σ) (h : History ι ω ρ) (l : List (Entry ι ω ρ)) : Prop where
  legal : Legal apply m l
  nodup : (l.map Entry.caller).Nodup
  invoked : ∀ e ∈ l, Event.inv e.caller e.op ∈ h
  completed : ∀ c r, Event.res c r ∈ h → ∃ o, ⟨c, o, r⟩ ∈ l
  ordered : l.Pairwise fun a b => ¬ Precedes h b.caller a.caller

def Linearizable (m : σ) (h : History ι ω ρ) : Prop := ∃ l, Linearization apply m h l

/-- The operation has been invoked, has not responded, and is not in `l`. -/
structure Pending (h : History ι ω ρ) (l : List (Entry ι ω ρ)) (c : ι) (o : ω) : Prop where
  invoked : Event.inv c o ∈ h
  active : ¬ Responded h c
  unplaced : ∀ e ∈ l, e.caller ≠ c

/-- A place in `l` at which the state satisfies `P` and `c` may be put in. -/
def Cut (m : σ) (h : History ι ω ρ) (l : List (Entry ι ω ρ)) (c : ι) (P : σ → Prop) : Prop :=
  ∃ l₁ l₂, l = l₁ ++ l₂ ∧ P (replay apply m l₁) ∧ ∀ e ∈ l₂, ¬ Precedes h e.caller c

/-- The list `l'` is `l` with the entry `e` put in, and all cuts of `l` are cuts of `l'`. -/
structure Extends (m : σ) (h : History ι ω ρ) (l l' : List (Entry ι ω ρ))
    (e : Entry ι ω ρ) : Prop where
  mem : ∀ a, a ∈ l' ↔ a = e ∨ a ∈ l
  cut : ∀ d P, Cut apply m h l d P → Cut apply m h l' d P

/-- The history and its list have grown from `h` and `l` by what others than `c` did. -/
structure Grows (m : σ) (h : History ι ω ρ) (l : List (Entry ι ω ρ)) (h' : History ι ω ρ)
    (l' : List (Entry ι ω ρ)) (c : ι) : Prop where
  invoked : ∀ o, Event.inv c o ∈ h' ↔ Event.inv c o ∈ h
  active : Responded h' c → Responded h c
  mem : ∀ e ∈ l, e ∈ l'
  unplaced : (∀ e ∈ l, e.caller ≠ c) → ∀ e ∈ l', e.caller ≠ c
  cut : ∀ P, Cut apply m h l c P → Cut apply m h' l' c P

variable {apply} {m : σ} {h h₁ h₂ h₃ : History ι ω ρ} {l l' l₁ l₂ l₃ : List (Entry ι ω ρ)}
  {c d : ι} {o : ω} {r : ρ} {P : σ → Prop}

theorem linearization_nil : Linearization apply m ([] : History ι ω ρ) [] where
  legal := trivial
  nodup := List.nodup_nil
  invoked := nofun
  completed := nofun
  ordered := .nil

/-- The end of the list is a cut for every operation. -/
theorem Cut.now (hP : P (replay apply m l)) : Cut apply m h l c P :=
  ⟨l, [], (List.append_nil l).symm, hP, nofun⟩

theorem Cut.mono {Q : σ → Prop} (hc : Cut apply m h l c P) (hPQ : ∀ m, P m → Q m) :
    Cut apply m h l c Q := by
  obtain ⟨l₁, l₂, hl, hP, h₂⟩ := hc
  exact ⟨l₁, l₂, hl, hPQ _ hP, h₂⟩

/-- Only the invocation of `c` itself can end a cut for `c`. -/
theorem Cut.snoc {e : Event ι ω ρ} (hc : Cut apply m h l c P) (he : ∀ o, e ≠ .inv c o) :
    Cut apply m (h ++ [e]) l c P := by
  obtain ⟨l₁, l₂, hl, hP, h₂⟩ := hc
  refine ⟨l₁, l₂, hl, hP, fun a ha hp => ?_⟩
  rcases precedes_snoc hp with hp | ⟨_, o, ho⟩
  · exact h₂ a ha hp
  · exact he o ho

theorem Cut.insert {e : Entry ι ω ρ} (hc : Cut apply m h (l₁ ++ l₂) c P)
    (hread : l₂ = [] ∨ (apply (replay apply m l₁) e.op).1 = replay apply m l₁)
    (he : ¬ Responded h e.caller) : Cut apply m h (l₁ ++ e :: l₂) c P := by
  obtain ⟨a, b, hab, hP, hb⟩ := hc
  have hne : ¬ Precedes h e.caller c := fun hp => he hp.responded
  rcases List.append_eq_append_iff.mp hab with ⟨x, rfl, rfl⟩ | ⟨x, rfl, rfl⟩
  · -- the cut is after the new entry
    rcases hread with hnil | hread
    · obtain ⟨rfl, rfl⟩ := List.append_eq_nil_iff.mp hnil
      rw [List.append_nil] at hP
      exact ⟨l₁, [e], rfl, hP, fun a ha => by rw [List.mem_singleton.mp ha]; exact hne⟩
    · refine ⟨l₁ ++ e :: x, b, by simp, ?_, hb⟩
      rw [replay_append] at hP ⊢
      rwa [replay, hread]
  · refine ⟨a, x ++ e :: l₂, by simp, hP, fun a ha => ?_⟩
    rcases List.mem_append.mp ha with ha | ha
    · exact hb a (List.mem_append_left _ ha)
    · rcases List.mem_cons.mp ha with rfl | ha
      · exact hne
      · exact hb a (List.mem_append_right _ ha)

/-! ## Growth -/

theorem Grows.refl : Grows apply m h l h l c where
  invoked _ := Iff.rfl
  active h := h
  mem _ h := h
  unplaced h := h
  cut _ h := h

theorem Grows.trans (h₁₂ : Grows apply m h₁ l₁ h₂ l₂ c) (h₂₃ : Grows apply m h₂ l₂ h₃ l₃ c) :
    Grows apply m h₁ l₁ h₃ l₃ c where
  invoked o := (h₂₃.invoked o).trans (h₁₂.invoked o)
  active h := h₁₂.active (h₂₃.active h)
  mem e he := h₂₃.mem e (h₁₂.mem e he)
  unplaced h := h₂₃.unplaced (h₁₂.unplaced h)
  cut P hc := h₂₃.cut P (h₁₂.cut P hc)

theorem Grows.invoke (hd : c ≠ d) : Grows apply m h l (h ++ [.inv d o]) l c where
  invoked o' := by simp [hd]
  active := by
    rintro ⟨r, hr⟩
    exact ⟨r, by simpa using hr⟩
  mem _ h := h
  unplaced h := h
  cut P hc := hc.snoc fun o' e => hd (Event.inv.inj e).1.symm

theorem Grows.respond (hd : c ≠ d) : Grows apply m h l (h ++ [.res d r]) l c where
  invoked o := by simp
  active := by
    rintro ⟨r, hr⟩
    exact ⟨r, by simpa [hd] using hr⟩
  mem _ h := h
  unplaced h := h
  cut P hc := hc.snoc nofun

theorem Grows.extend {e : Entry ι ω ρ} (he : Extends apply m h l l' e) (hc : c ≠ e.caller) :
    Grows apply m h l h l' c where
  invoked _ := Iff.rfl
  active h := h
  mem a ha := (he.mem a).mpr (.inr ha)
  unplaced h a ha := by
    rcases (he.mem a).mp ha with rfl | ha
    · exact hc.symm
    · exact h a ha
  cut P hc := he.cut c P hc

theorem Pending.grow {h' : History ι ω ρ} (hp : Pending h l c o)
    (hg : Grows apply m h l h' l' c) : Pending h' l' c o where
  invoked := (hg.invoked o).mpr hp.invoked
  active hr := hp.active (hg.active hr)
  unplaced := hg.unplaced hp.unplaced

/-! ## Steps -/

/-- An invocation leaves the linearization as it is. -/
theorem Linearization.invoke (hl : Linearization apply m h l) (hc : ∀ o, Event.inv c o ∉ h) :
    Linearization apply m (h ++ [.inv c o]) l where
  legal := hl.legal
  nodup := hl.nodup
  invoked e he := List.mem_append_left _ (hl.invoked e he)
  completed d r hd := by
    rcases List.mem_append.mp hd with hd | hd
    · exact hl.completed d r hd
    · cases List.mem_singleton.mp hd
  ordered := by
    refine hl.ordered.imp_of_mem fun {a b} ha _ hab hp => ?_
    rcases precedes_snoc hp with hp | ⟨_, o', ho⟩
    · exact hab hp
    · obtain ⟨rfl, _⟩ := Event.inv.inj ho
      exact hc a.op (hl.invoked a ha)

/-- So does the response of an operation that is in it with this result. -/
theorem Linearization.respond (hl : Linearization apply m h l) (hc : ⟨c, o, r⟩ ∈ l) :
    Linearization apply m (h ++ [.res c r]) l where
  legal := hl.legal
  nodup := hl.nodup
  invoked e he := List.mem_append_left _ (hl.invoked e he)
  completed d r' hd := by
    rcases List.mem_append.mp hd with hd | hd
    · exact hl.completed d r' hd
    · obtain ⟨rfl, rfl⟩ := Event.res.inj (List.mem_singleton.mp hd)
      exact ⟨o, hc⟩
  ordered := by
    refine hl.ordered.imp fun {a b} hab hp => ?_
    rcases precedes_snoc hp with hp | ⟨_, o', ho⟩
    · exact hab hp
    · cases ho

/-- A pending operation is put in where the object gives it its result and where what
follows stays legal and does not precede it. -/
theorem Linearization.insert (hl : Linearization apply m h (l₁ ++ l₂))
    (hc : Pending h (l₁ ++ l₂) c o) (hr : (apply (replay apply m l₁) o).2 = r)
    (hlegal : Legal apply (apply (replay apply m l₁) o).1 l₂)
    (h₂ : ∀ e ∈ l₂, ¬ Precedes h e.caller c) :
    Linearization apply m h (l₁ ++ ⟨c, o, r⟩ :: l₂) where
  legal := legal_append.mpr ⟨(legal_append.mp hl.legal).1, hr, hlegal⟩
  nodup := by
    have hnodup := hl.nodup
    have hnew : c ∉ (l₁ ++ l₂).map Entry.caller := by
      intro hm
      obtain ⟨e, he, rfl⟩ := List.mem_map.mp hm
      exact hc.unplaced e he rfl
    rw [List.map_append] at hnodup hnew
    rw [List.map_append, List.map_cons]
    exact List.nodup_middle.mpr (List.nodup_cons.mpr ⟨hnew, hnodup⟩)
  invoked e he := by
    rcases List.mem_append.mp he with he | he
    · exact hl.invoked e (List.mem_append_left _ he)
    · rcases List.mem_cons.mp he with rfl | he
      · exact hc.invoked
      · exact hl.invoked e (List.mem_append_right _ he)
  completed d r' hd := by
    obtain ⟨o', ho⟩ := hl.completed d r' hd
    refine ⟨o', ?_⟩
    rcases List.mem_append.mp ho with ho | ho
    · exact List.mem_append_left _ ho
    · exact List.mem_append_right _ (List.mem_cons_of_mem _ ho)
  ordered := by
    obtain ⟨hord₁, hord₂, hord⟩ := List.pairwise_append.mp hl.ordered
    refine List.pairwise_append.mpr ⟨hord₁, List.pairwise_cons.mpr ⟨h₂, hord₂⟩, ?_⟩
    intro a ha b hb
    rcases List.mem_cons.mp hb with rfl | hb
    · exact fun hp => hc.active hp.responded
    · exact hord a ha b hb

/-- A pending operation takes effect. -/
theorem Linearization.append (hl : Linearization apply m h l) (hc : Pending h l c o)
    (hr : (apply (replay apply m l) o).2 = r) :
    Linearization apply m h (l ++ [⟨c, o, r⟩]) ∧
      Extends apply m h l (l ++ [⟨c, o, r⟩]) ⟨c, o, r⟩ := by
  refine ⟨?_, fun a => ?_, fun d P hd => ?_⟩
  · rw [← List.append_nil l] at hl hc
    exact hl.insert hc hr trivial nofun
  · rw [List.mem_append, List.mem_singleton, or_comm]
  · rw [← List.append_nil l] at hd
    exact hd.insert (.inl rfl) hc.active

/-- A pending operation that does not change the state is put in at a cut. -/
theorem Linearization.place (hl : Linearization apply m h l) (hc : Pending h l c o)
    (hcut : Cut apply m h l c fun m => apply m o = (m, r)) :
    ∃ l', Linearization apply m h l' ∧ replay apply m l' = replay apply m l ∧
      Extends apply m h l l' ⟨c, o, r⟩ := by
  obtain ⟨l₁, l₂, rfl, hread, h₂⟩ := hcut
  have hsame : (apply (replay apply m l₁) o).1 = replay apply m l₁ := by rw [hread]
  refine ⟨l₁ ++ ⟨c, o, r⟩ :: l₂, hl.insert hc (by rw [hread]) ?_ h₂, ?_, fun a => ?_,
    fun d P hd => hd.insert (.inr hsame) hc.active⟩
  · rw [hsame]
    exact (legal_append.mp hl.legal).2
  · rw [replay_append, replay_append, replay, hsame]
  · rw [List.mem_append, List.mem_cons, List.mem_append]
    tauto

/-! ## What a linearization tells -/

theorem replay_keeps {Q : σ → Prop} (hkeep : ∀ e ∈ l, ∀ m, Q m → Q (apply m e.op).1) :
    ∀ {m : σ}, Q m → Q (replay apply m l) := by
  induction l with
  | nil => exact fun hQ => hQ
  | cons e l ih =>
    intro m hQ
    exact ih (fun e he => hkeep e (List.mem_cons_of_mem _ he))
      (hkeep e List.mem_cons_self m hQ)

/-- The operation `g` sees what `p` has established, if `p` precedes it and the others that
might undo it precede `p`. -/
theorem Linearization.sees (hl : Linearization apply m h l) {Q : σ → Prop}
    {p g : Entry ι ω ρ} (hp : p ∈ l) (hg : g ∈ l) (hne : g.caller ≠ p.caller)
    (hpg : Precedes h p.caller g.caller) (hset : ∀ m, Q (apply m p.op).1)
    (hkeep : ∀ e ∈ l, e.caller ≠ p.caller →
      (∀ m, Q m → Q (apply m e.op).1) ∨ Precedes h e.caller p.caller) :
    ∃ m, Q m ∧ (apply m g.op).2 = g.result := by
  obtain ⟨l₁, l₂, rfl⟩ := List.append_of_mem hp
  obtain ⟨-, hafter, hbefore⟩ := List.pairwise_append.mp hl.ordered
  have hg₂ : g ∈ l₂ := by
    rcases List.mem_append.mp hg with hg | hg
    · exact absurd hpg (hbefore g hg p List.mem_cons_self)
    · rcases List.mem_cons.mp hg with rfl | hg
      · exact absurd rfl hne
      · exact hg
  obtain ⟨l₃, l₄, rfl⟩ := List.append_of_mem hg₂
  obtain ⟨-, -, hlegal⟩ := legal_append.mp hl.legal
  have hnodup : ∀ e ∈ l₃, e.caller ≠ p.caller := by
    intro e he heq
    have hn := hl.nodup
    rw [List.map_append, List.map_cons] at hn
    obtain ⟨hp', -⟩ := List.nodup_cons.mp (List.nodup_append.mp hn).2.1
    exact hp' (heq ▸ List.mem_map_of_mem (List.mem_append_left _ he))
  refine ⟨_, replay_keeps (fun e he => ?_) (hset _), (legal_append.mp hlegal).2.1⟩
  have hmem : e ∈ l₃ ++ g :: l₄ := List.mem_append_left _ he
  rcases hkeep e (List.mem_append_right _ (List.mem_cons_of_mem _ hmem)) (hnodup e he) with
    hkeep | hprec
  · exact hkeep
  · exact absurd hprec ((List.pairwise_cons.mp hafter).1 e hmem)

/-! ## Effect points

Where every operation takes effect at a step of its own, the list of the effects is the
linearization, and an operation is described by how far it has come. -/

inductive Stage (ω ρ : Type*)
  | fresh
  | pending (o : ω)
  | done (r : ρ)
  | past

/-- What the history and the list say of an operation that has come so far. -/
def Stage.At (h : History ι ω ρ) (l : List (Entry ι ω ρ)) (c : ι) : Stage ω ρ → Prop
  | .fresh => (∀ o, Event.inv c o ∉ h) ∧ ¬ Responded h c
  | .pending o => Pending h l c o
  | .done r => ∃ o, ⟨c, o, r⟩ ∈ l
  | .past => True

theorem Stage.At.grow {st : Stage ω ρ} {h' : History ι ω ρ} (hst : st.At h l c)
    (hg : Grows apply m h l h' l' c) : st.At h' l' c := by
  cases st with
  | fresh => exact ⟨fun o ho => hst.1 o ((hg.invoked o).mp ho), fun hr => hst.2 (hg.active hr)⟩
  | pending o => exact Pending.grow hst hg
  | done r =>
    obtain ⟨o, ho⟩ := hst
    exact ⟨o, hg.mem _ ho⟩
  | past => exact trivial

variable (apply) in
/-- The list of the effects linearizes the history, and every operation has come as far as
`st` says. -/
structure Staged (m : σ) (h : History ι ω ρ) (l : List (Entry ι ω ρ)) (st : ι → Stage ω ρ) :
    Prop where
  linear : Linearization apply m h l
  stages : ∀ c, (st c).At h l c

variable {st st' : ι → Stage ω ρ}

/-- An operation may be given up. -/
theorem Staged.mono (hs : Staged apply m h l st) (hst : ∀ c, st' c = st c ∨ st' c = .past) :
    Staged apply m h l st' := by
  refine ⟨hs.linear, fun c => ?_⟩
  rcases hst c with hc | hc
  · rw [hc]
    exact hs.stages c
  · rw [hc]
    exact trivial

variable [DecidableEq ι]

theorem Staged.invoke (hs : Staged apply m h l st) (hc : st c = .fresh) (o : ω) :
    Staged apply m (h ++ [.inv c o]) l (Function.update st c (.pending o)) := by
  have hfresh := hs.stages c
  rw [hc] at hfresh
  obtain ⟨hinv, hres⟩ := hfresh
  have hp : Pending (h ++ [.inv c o]) l c o := by
    refine ⟨List.mem_append_right _ (List.mem_singleton_self _), ?_, ?_⟩
    · rintro ⟨r, hr⟩
      rcases List.mem_append.mp hr with hr | hr
      · exact hres ⟨r, hr⟩
      · cases List.mem_singleton.mp hr
    · rintro e he rfl
      exact hinv e.op (hs.linear.invoked e he)
  refine ⟨hs.linear.invoke hinv, fun d => ?_⟩
  by_cases hd : d = c
  · subst hd
    rw [Function.update_self]
    exact hp
  · rw [Function.update_of_ne hd]
    have hg : Grows apply m h l (h ++ [.inv c o]) l d := .invoke hd
    exact (hs.stages d).grow hg

theorem Staged.effect (hs : Staged apply m h l st) (hc : st c = .pending o)
    (hr : (apply (replay apply m l) o).2 = r) :
    Staged apply m h (l ++ [⟨c, o, r⟩]) (Function.update st c (.done r)) := by
  have hp := hs.stages c
  rw [hc] at hp
  obtain ⟨hl, hext⟩ := hs.linear.append hp hr
  refine ⟨hl, fun d => ?_⟩
  by_cases hd : d = c
  · subst hd
    rw [Function.update_self]
    exact ⟨o, (hext.mem _).mpr (.inl rfl)⟩
  · rw [Function.update_of_ne hd]
    exact (hs.stages d).grow (.extend hext hd)

theorem Staged.respond (hs : Staged apply m h l st) (hc : st c = .done r) :
    Staged apply m (h ++ [.res c r]) l (Function.update st c .past) := by
  have hdone := hs.stages c
  rw [hc] at hdone
  obtain ⟨o, ho⟩ := hdone
  refine ⟨hs.linear.respond ho, fun d => ?_⟩
  by_cases hd : d = c
  · subst hd
    rw [Function.update_self]
    exact trivial
  · rw [Function.update_of_ne hd]
    have hg : Grows apply m h l (h ++ [.res c r]) l d := .respond hd
    exact (hs.stages d).grow hg

end Linearizability
end Lib
end ReplicatedStore
