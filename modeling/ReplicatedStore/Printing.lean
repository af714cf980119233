/-
What `printKVPairs` prints.

The lock bit is tested before the iteration and not held, so puts may run between two
entries.  Each line is a binding that the server had at some moment of the iteration, and
no key of the beginning is left out.  Puts of two keys can be torn apart: the text shows
the later one without the earlier.  Puts of one key cannot.
-/
import ReplicatedStore.WakeUp
import ReplicatedStore.Lib.Decimal

namespace ReplicatedStore

open Lib

/-! ## The text -/

/-- The text read line by line as `key:value`. -/
def parsePairs (text : String) : Option (List (Int × Int)) :=
  Decimal.parsePairs ':' '\n' text.toList

/-- The integers of an entry. -/
def toInts (e : Key × Val) : Int × Int := (e.1.toInt, e.2.toInt)

theorem line_toList (k : Key) (x : Val) : (s!"{k}:{x}\n").toList =
    Decimal.text k.toInt ++ ':' :: Decimal.text x.toInt ++ ['\n'] := by
  have hk : (toString k).toList = Decimal.text k.toInt := rfl
  have hx : (toString x).toList = Decimal.text x.toInt := rfl
  have hsep : (toString ":").toList = [':'] := by decide
  have hend : (toString "\n").toList = ['\n'] := by decide
  simp only [String.toList_append, hk, hx, hsep, hend, List.append_assoc, List.cons_append,
    List.nil_append]

/-- The text of a reply is read back as its entries. -/
theorem parsePairs_text (es : List (Key × Val)) :
    parsePairs (Reply.pairs es).text = some (es.map toInts) := by
  have hjoin : (Reply.pairs es).text = String.join (es.map fun e => s!"{e.1}:{e.2}\n") := rfl
  have htext : (Reply.pairs es).text.toList = (es.map toInts).flatMap fun e =>
      Decimal.text e.1 ++ ':' :: Decimal.text e.2 ++ ['\n'] := by
    rw [hjoin, String.toList_join, List.flatMap_map, List.flatMap_map]
    exact List.flatMap_congr fun e _ => line_toList e.1 e.2
  rw [parsePairs, htext]
  exact Decimal.parsePairs_lines (by decide) (by decide) (by decide) _

/-- The reader has not created its iterator. -/
def Reader.early : Reader → Bool
  | .test | .enter | .waiting | .passed => true
  | _ => false

namespace ServerProcess

variable {s s' u : ServerProcess} {l : Label} {c : CallId} {tr : List (ServerProcess × Label)}

/-- The key that a step of a `put` writes. -/
def wrote (e : ServerProcess × Label) : Option Key :=
  match e.2, e.1.caller with
  | .exec, some (.put k _, .sent) => some k
  | _, _ => none

/-- The states of a run from `u` to `s`. -/
def moments (u : ServerProcess) (tr : List (ServerProcess × Label)) (s : ServerProcess) :
    List ServerProcess := u :: tr.map Prod.fst ++ [s]

/-- The entries are the bindings of the map. -/
def Lists (es : List (Key × Val)) (d : Data) : Prop := ∀ k x, (k, x) ∈ es ↔ d.lookup k = some x

/-! ## Steps -/

/-- Only a `put` changes the data. -/
theorem data_step (h : s.step l = some s') : s'.impl.data = s.impl.data ∨
    ∃ k x, wrote (s, l) = some k ∧ s'.impl.data = s.impl.data.insert k x := by
  cases l with
  | exec =>
    simp only [step] at h
    split at h
    · rename_i m pr hcall
      obtain ⟨⟨p', pr'⟩, hm, rfl⟩ := Option.map_eq_some_iff.mp h
      cases pr with
      | sent =>
        cases m <;> simp only [Method.step, Option.some.injEq, Prod.mk.injEq] at hm <;>
          obtain ⟨rfl, -⟩ := hm
        case put k x => exact .inr ⟨k, x, by rw [wrote, hcall], rfl⟩
        all_goals exact .inl rfl
      | notifying =>
        obtain ⟨rfl, -⟩ := Prod.mk.inj (Option.some.inj hm)
        exact .inl rfl
      | executed => cases hm
    · cases h
  | read c a =>
    simp only [step] at h
    split at h
    · obtain ⟨⟨p', r'⟩, hr, rfl⟩ := Option.map_eq_some_iff.mp h
      exact .inl (ServerRPCImpl.read_frame hr).1
    · cases h
  | _ =>
    simp only [step] at h
    split at h
    · obtain rfl := Option.some.inj h
      exact .inl rfl
    · cases h

/-- What a step does to a reader of `printKVPairs` that is not answered. -/
theorem reader_step {q : Query} {r : Reader} (h : s.step l = some s')
    (hr : s.readers c = some (q, r)) (hl : l ≠ .answer c) :
    s'.readers c = some (q, r) ∨
      ∃ a p r', l = .read c a ∧ s.impl.read q c r a = some (p, r') ∧
        s'.readers c = some (q, r') := by
  cases l with
  | call m =>
    simp only [step] at h
    split at h
    · obtain rfl := Option.some.inj h
      exact .inl hr
    · cases h
  | exec =>
    simp only [step] at h
    split at h
    · obtain ⟨-, -, rfl⟩ := Option.map_eq_some_iff.mp h
      exact .inl hr
    · cases h
  | reply =>
    simp only [step] at h
    split at h
    · obtain rfl := Option.some.inj h
      exact .inl hr
    · cases h
  | request d q' =>
    simp only [step] at h
    split at h
    · rename_i hnone
      have hd : c ≠ d := by
        rintro rfl
        cases hr.symm.trans hnone
      obtain rfl := Option.some.inj h
      exact .inl ((Function.update_of_ne hd _ _).trans hr)
    · cases h
  | read d a =>
    simp only [step] at h
    split at h
    · rename_i q' r₁ hd
      obtain ⟨⟨p, r'⟩, hread, rfl⟩ := Option.map_eq_some_iff.mp h
      by_cases hc : c = d
      · subst hc
        obtain ⟨rfl, rfl⟩ := Prod.mk.inj (Option.some.inj (hr.symm.trans hd))
        exact .inr ⟨a, p, r', rfl, hread, Function.update_self ..⟩
      · exact .inl ((Function.update_of_ne hc _ _).trans hr)
    · cases h
  | answer d =>
    simp only [step] at h
    split at h
    · have hd : c ≠ d := by
        rintro rfl
        exact hl rfl
      obtain rfl := Option.some.inj h
      exact .inl ((Function.update_of_ne hd _ _).trans hr)
    · cases h

/-! ## The iteration -/

/-- The puts of the trace write no other key. -/
def OnlyWrites (k₀ : Key) (tr : List (ServerProcess × Label)) : Prop :=
  ∀ e ∈ tr, ∀ k, wrote e = some k → k = k₀

theorem mem_moments_snoc {v : ServerProcess} :
    v ∈ moments u (tr ++ [(s, l)]) s' ↔ v ∈ moments u tr s ∨ v = s' := by
  simp [moments, or_assoc]

theorem self_mem_moments : s ∈ moments u tr s := by simp [moments]

theorem start_mem_moments : u ∈ moments u tr s := by simp [moments]

/-- What has been collected since the iterator was created in the state `u`. -/
structure Collected (u : ServerProcess) (tr : List (ServerProcess × Label)) (s : ServerProcess)
    (out : List (Key × Val)) : Prop where
  nodup : (out.map Prod.fst).Nodup
  seen : ∀ e ∈ out, ∃ v ∈ moments u tr s, v.impl.data.lookup e.1 = some e.2
  still : ∀ k₀, OnlyWrites k₀ tr → ∀ v ∈ moments u tr s, ∀ k, k ≠ k₀ →
    v.impl.data.lookup k = u.impl.data.lookup k

theorem Collected.step {out : List (Key × Val)} (h : Collected u tr s out)
    (hs : s.step l = some s') : Collected u (tr ++ [(s, l)]) s' out where
  nodup := h.nodup
  seen e he := by
    obtain ⟨v, hv, hlook⟩ := h.seen e he
    exact ⟨v, mem_moments_snoc.mpr (.inl hv), hlook⟩
  still k₀ honly v hv k hk := by
    have hbefore := h.still k₀ fun e he => honly e (List.mem_append_left _ he)
    rcases mem_moments_snoc.mp hv with hv | rfl
    · exact hbefore v hv k hk
    · have hsame := hbefore s self_mem_moments k hk
      rcases data_step hs with hd | ⟨k', x, hw, hd⟩
      · rw [hd, hsame]
      · obtain rfl := honly _ (List.mem_append_right _ (List.mem_singleton_self _)) k' hw
        rw [hd, Finmap.lookup_insert_of_ne _ hk, hsame]

/-- One more entry. -/
theorem Collected.visit {out : List (Key × Val)} (h : Collected u tr s out) {k : Key} {x : Val}
    (hk : k ∉ out.map Prod.fst) (hx : s.impl.data.lookup k = some x) :
    Collected u tr s (out ++ [(k, x)]) where
  nodup := by
    rw [List.map_append]
    exact List.nodup_append_comm.mp (List.nodup_cons.mpr ⟨hk, h.nodup⟩)
  seen e he := by
    rcases List.mem_append.mp he with he | he
    · exact h.seen e he
    · obtain rfl := List.mem_singleton.mp he
      exact ⟨s, self_mem_moments, hx⟩
  still := h.still

/-- A printing reader since its iterator was created in the state `u`: the keys of that
state are printed or still to be visited. -/
inductive Iterating (c : CallId) (u : ServerProcess) (tr : List (ServerProcess × Label))
    (s : ServerProcess) : Prop
  | printing {todo : Finset Key} {out : List (Key × Val)}
      (hr : s.readers c = some (.printKVPairs, .printing todo out)) (h : Collected u tr s out)
      (hk : ∀ k ∈ u.impl.data.keys, k ∈ todo ∨ k ∈ out.map Prod.fst)
  | answered {out : List (Key × Val)}
      (hr : s.readers c = some (.printKVPairs, .answered (.pairs out))) (h : Collected u tr s out)
      (hk : ∀ k ∈ u.impl.data.keys, k ∈ out.map Prod.fst)

theorem Iterating.step (h : Iterating c u tr s) (hs : s.step l = some s') (hl : l ≠ .answer c) :
    Iterating c u (tr ++ [(s, l)]) s' := by
  cases h with
  | @answered out hr h hk =>
    rcases reader_step hs hr hl with hr' | ⟨a, p, r', -, hread, -⟩
    · exact .answered hr' (h.step hs) hk
    · cases a <;> cases hread
  | @printing todo out hr h hk =>
    rcases reader_step hs hr hl with hr' | ⟨a, p, r', -, hread, hr'⟩
    · exact .printing hr' (h.step hs) hk
    · cases a with
      | step =>
        simp only [ServerRPCImpl.read] at hread
        split at hread
        · rename_i hempty
          obtain ⟨-, rfl⟩ := Prod.mk.inj (Option.some.inj hread)
          exact .answered hr' (h.step hs) fun k hk' => (hk k hk').resolve_left (by simp [hempty])
        · cases hread
      | visit k =>
        simp only [ServerRPCImpl.read] at hread
        split at hread
        · rename_i x hx
          split at hread
          · cases hread
          · rename_i hnew
            obtain ⟨-, rfl⟩ := Prod.mk.inj (Option.some.inj hread)
            refine .printing hr' ((h.visit hnew hx).step hs) fun k' hk' => ?_
            by_cases he : k' = k
            · exact .inr (by simp [he])
            · exact (hk k' hk').imp (fun ht => Finset.mem_erase.mpr ⟨he, ht⟩) fun ho =>
                by simp [ho]
        · cases hread
      | wakeUp => cases hread

/-- A call of `printKVPairs` that has not returned. -/
def Stage (c : CallId) (mid : List (ServerProcess × Label)) (s : ServerProcess) : Prop :=
  (∃ r, s.readers c = some (.printKVPairs, r) ∧ r.early = true) ∨
    ∃ wait u iter, mid = wait ++ (u, .read c .step) :: iter ∧
      u.readers c = some (.printKVPairs, .passed) ∧ Iterating c u iter s

theorem Stage.step {mid : List (ServerProcess × Label)} (h : Stage c mid s)
    (hs : s.step l = some s') (hl : l ≠ .answer c) : Stage c (mid ++ [(s, l)]) s' := by
  rcases h with ⟨r, hr, hearly⟩ | ⟨wait, u, iter, rfl, hu, hit⟩
  · rcases reader_step hs hr hl with hr' | ⟨a, p, r', rfl, hread, hr'⟩
    · exact .inl ⟨r, hr', hearly⟩
    · cases r with
      | passed =>
        cases a <;> simp only [ServerRPCImpl.read] at hread <;> try contradiction
        obtain ⟨-, rfl⟩ := Prod.mk.inj (Option.some.inj hread)
        refine .inr ⟨mid, s, [], rfl, hr, .printing hr' ⟨List.nodup_nil, by simp, ?_⟩
          fun k hk => .inl hk⟩
        intro k₀ _ v hv k _
        have hdata : s'.impl.data = s.impl.data := by
          rcases data_step hs with hd | ⟨k', x, hw, -⟩
          · exact hd
          · cases hw
        have hcases : v = s ∨ v = s' := by simpa [moments] using hv
        rcases hcases with rfl | rfl
        · rfl
        · rw [hdata]
      | test =>
        cases a <;> simp only [ServerRPCImpl.read] at hread <;> try contradiction
        obtain ⟨-, rfl⟩ := Prod.mk.inj (Option.some.inj hread)
        refine .inl ⟨_, hr', ?_⟩
        split <;> rfl
      | enter =>
        cases a <;> simp only [ServerRPCImpl.read] at hread <;> try contradiction
        obtain ⟨-, rfl⟩ := Prod.mk.inj (Option.some.inj hread)
        exact .inl ⟨_, hr', rfl⟩
      | waiting =>
        cases a <;> simp only [ServerRPCImpl.read] at hread <;> try contradiction
        all_goals
          split at hread
          all_goals first
            | contradiction
            | (obtain ⟨-, rfl⟩ := Prod.mk.inj (Option.some.inj hread)
               exact .inl ⟨_, hr', rfl⟩)
      | _ => cases hearly
  · exact .inr ⟨wait, u, iter ++ [(s, l)], by simp, hu, hit.step hs hl⟩

/-! ## The answer -/

section
variable {out : List (Key × Val)}

theorem eq_of_mem_of_mem (h : (out.map Prod.fst).Nodup) {k : Key} {x y : Val}
    (hx : (k, x) ∈ out) (hy : (k, y) ∈ out) : x = y :=
  congrArg Prod.snd (List.inj_on_of_nodup_map h hx hy rfl)

/-- Apart from the key that is written, the entries are the bindings of the beginning. -/
theorem Collected.mem_iff (h : Collected u tr s out)
    (hk : ∀ k ∈ u.impl.data.keys, k ∈ out.map Prod.fst) {k₀ : Key} (honly : OnlyWrites k₀ tr)
    {k : Key} (hne : k ≠ k₀) {x : Val} : (k, x) ∈ out ↔ u.impl.data.lookup k = some x := by
  have hold : ∀ {y}, (k, y) ∈ out → u.impl.data.lookup k = some y := fun hy => by
    obtain ⟨v, hv, hlook⟩ := h.seen _ hy
    rw [← h.still k₀ honly v hv k hne]
    exact hlook
  refine ⟨hold, fun hx => ?_⟩
  have hmem : k ∈ u.impl.data.keys := Finmap.mem_keys.mpr (Finmap.mem_of_lookup_eq_some hx)
  obtain ⟨⟨k', y⟩, hy, rfl⟩ := List.mem_map.mp (hk k hmem)
  obtain rfl : y = x := Option.some.inj ((hold hy).symm.trans hx)
  exact hy

/-- If one key at most is written meanwhile, the entries are the data of some moment. -/
theorem Collected.snapshot (h : Collected u tr s out)
    (hk : ∀ k ∈ u.impl.data.keys, k ∈ out.map Prod.fst) {k₀ : Key} (honly : OnlyWrites k₀ tr) :
    ∃ v ∈ moments u tr s, Lists out v.impl.data := by
  by_cases hk₀ : k₀ ∈ out.map Prod.fst
  · -- the moment at which the key was visited
    obtain ⟨⟨k, x⟩, hx, rfl⟩ := List.mem_map.mp hk₀
    obtain ⟨v, hv, hlook⟩ := h.seen _ hx
    refine ⟨v, hv, fun k' y => ?_⟩
    by_cases hne : k' = k
    · subst hne
      constructor
      · intro hy
        rw [eq_of_mem_of_mem h.nodup hy hx]
        exact hlook
      · intro hy
        rwa [Option.some.inj (hy.symm.trans hlook)]
    · rw [h.mem_iff hk honly hne, h.still k honly v hv k' hne]
  · refine ⟨u, start_mem_moments, fun k y => ?_⟩
    by_cases hne : k = k₀
    · subst hne
      refine ⟨fun hy => absurd (List.mem_map_of_mem hy) hk₀, fun hy => ?_⟩
      exact absurd (hk k (Finmap.mem_keys.mpr (Finmap.mem_of_lookup_eq_some hy))) hk₀
    · exact h.mem_iff hk honly hne

end

/-- What `printKVPairs` returns.  Every line is a binding that the server had at some moment
since the iterator was created, there is one line for each key of the beginning and at most
one for any other, and if the puts since then are of one key the lines are the data of a
single moment. -/
theorem print_consistent {s₀ t : ServerProcess} {pre mid : List (ServerProcess × Label)} {y : Reply}
    (h : Run step (fun _ _ => True) s₀ (pre ++ (t, .request c .printKVPairs) :: mid) s)
    (hmid : ∀ e ∈ mid, e.2 ≠ .answer c)
    (hy : s.readers c = some (.printKVPairs, .answered y)) :
    ∃ es wait u iter, mid = wait ++ (u, .read c .step) :: iter ∧
      u.readers c = some (.printKVPairs, .passed) ∧ y = .pairs es ∧
      parsePairs y.text = some (es.map toInts) ∧ (es.map Prod.fst).Nodup ∧
      (∀ k ∈ u.impl.data.keys, k ∈ es.map Prod.fst) ∧
      (∀ e ∈ es, ∃ v ∈ moments u iter s, v.impl.data.lookup e.1 = some e.2) ∧
      ∀ k₀, OnlyWrites k₀ iter → ∃ v ∈ moments u iter s, Lists es v.impl.data := by
  obtain ⟨-, -, t', ht, hrun⟩ := h.of_split rfl
  have hstart : t'.readers c = some (.printKVPairs, .test) := by
    simp only [step] at ht
    split at ht
    · obtain rfl := Option.some.inj ht
      exact Function.update_self ..
    · cases ht
  have hstage : Stage c mid s := by
    refine hrun.invariant (I := fun mid s => (∀ e ∈ mid, e.2 ≠ .answer c) → Stage c mid s)
      (fun _ => .inl ⟨_, hstart, rfl⟩) (fun mid s l s' _ _ hs ih hmid => ?_) hmid
    exact (ih fun e he => hmid e (List.mem_append_left _ he)).step hs
      (hmid _ (List.mem_append_right _ (List.mem_singleton_self _)))
  rcases hstage with ⟨r, hr, hearly⟩ | ⟨wait, u, iter, rfl, hu, hit⟩
  · obtain ⟨-, rfl⟩ := Prod.mk.inj (Option.some.inj (hr.symm.trans hy))
    cases hearly
  · cases hit with
    | printing hr => cases hr.symm.trans hy
    | @answered out hr hc hk =>
      obtain ⟨-, hans⟩ := Prod.mk.inj (Option.some.inj (hr.symm.trans hy))
      obtain rfl := Reader.answered.inj hans
      exact ⟨out, wait, u, iter, rfl, hu, rfl, parsePairs_text out, hc.nodup, hk, hc.seen,
        fun k₀ honly => hc.snapshot hk honly⟩

/-- The calls with which the frontend puts a pair. -/
def lockPutUnlock (k : Key) (x : Val) : List Label :=
  [.call .lock, .exec, .reply, .call (.put k x), .exec, .reply, .call .unlock, .exec, .exec, .reply]

/-- Reader 0 prints two keys, and these calls run between its two entries. -/
def printAround (between : List Label) : List Label :=
  [.read 0 .step, .read 0 .step, .read 0 (.visit 1)] ++ between ++
    [.read 0 (.visit 2), .read 0 .step]

/-- The second key is written between the two entries. -/
theorem print_consistent_putBetween : ∃ t mid s, Run step (fun _ _ => True) init
      (traceOf step init (lockPutUnlock 1 5 ++ lockPutUnlock 2 5) ++
        (t, .request 0 .printKVPairs) :: mid) s ∧
    s.readers 0 = some (.printKVPairs, .answered (.pairs [(1, 5), (2, 6)])) ∧
    parsePairs (Reply.pairs [(1, 5), (2, 6)]).text = some [(1, 5), (2, 6)] := by
  have hend : ((exec step init ((lockPutUnlock 1 5 ++ lockPutUnlock 2 5) ++
      .request 0 .printKVPairs :: printAround (lockPutUnlock 2 6))).map fun s => s.readers 0) =
      some (some (.printKVPairs, .answered (.pairs [(1, 5), (2, 6)]))) := by decide +kernel
  have hstart : ((exec step init (lockPutUnlock 1 5 ++ lockPutUnlock 2 5)).map fun s =>
      s.readers 0) = some none := by decide +kernel
  obtain ⟨t, mid, s, hrun, -, hs, hmid⟩ := Run.split_of_exec (fun _ _ => True) hstart hend
    (fun _ _ => trivial)
  have hno : ∀ e ∈ mid, e.2 ≠ .answer 0 := fun e he h => by
    have hmem := hmid e he
    rw [h] at hmem
    exact absurd hmem (by decide)
  obtain ⟨es, -, -, -, -, -, hes, hparse, -⟩ := print_consistent hrun hno hs
  exact ⟨t, mid, s, hrun, hs, by rw [hparse]; cases hes; rfl⟩

/-- Both keys are written between the two entries, and the text shows the second put
without the first. -/
theorem putsBetween_torn : ∃ tr s, Run step (fun _ _ => True) init tr s ∧
    s.readers 0 = some (.printKVPairs, .answered (.pairs [(1, 5), (2, 6)])) ∧
    ∀ v ∈ tr.map Prod.fst ++ [s], ¬ Lists [(1, 5), (2, 6)] v.impl.data := by
  have hex : ((exec step init ((lockPutUnlock 1 5 ++ lockPutUnlock 2 5) ++
      .request 0 .printKVPairs :: printAround (lockPutUnlock 1 6 ++ lockPutUnlock 2 6))).map
      fun s => (s.readers 0, s.impl.data.lookup 1)) =
      some (some (.printKVPairs, .answered (.pairs [(1, 5), (2, 6)])), some 6) := by decide +kernel
  obtain ⟨s, hrun, hs⟩ := Run.exists_of_exec (fun _ _ => True) hex (fun _ _ => trivial)
  obtain ⟨hr, hlast⟩ := Prod.mk.inj hs
  refine ⟨_, s, hrun, hr, fun v hv hlists => ?_⟩
  have h1 : v.impl.data.lookup 1 = some 5 := (hlists 1 5).mp (by decide)
  have h2 : v.impl.data.lookup 2 = some 6 := (hlists 2 6).mp (by decide)
  rcases List.mem_append.mp hv with hv | hv
  · obtain ⟨e, he, rfl⟩ := List.mem_map.mp hv
    have hno : ∀ e ∈ traceOf step init ((lockPutUnlock 1 5 ++ lockPutUnlock 2 5) ++
        .request 0 .printKVPairs :: printAround (lockPutUnlock 1 6 ++ lockPutUnlock 2 6)),
        ¬ (e.1.impl.data.lookup 1 = some 5 ∧ e.1.impl.data.lookup 2 = some 6) := by
      decide +kernel
    exact hno e he ⟨h1, h2⟩
  · rw [List.mem_singleton.mp hv, hlast] at h1
    exact absurd h1 (by decide)

end ServerProcess
end ReplicatedStore
