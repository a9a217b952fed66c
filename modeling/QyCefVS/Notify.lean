import QyCefVS.RemovalCallback

/-! What iterators return, and `CallbackList::Notify`, which runs the callbacks they return. -/

namespace QyCefVS.CallbackList

open Transitions

variable {κ ω : Type} {s t : ListBase κ} {removal : Bool} {n : ℕ} {l pre : List (Node κ)}
  {it : Iterator κ}

section Delivery

lemma next_eq (h : s.Coherent) (ht : it.Tracked s.nextNode s.subscriptions)
    (hn : it.listIter = some n) (hd : s.dangling it = false) :
    (s.getNext it).1 = s.subscriptions.find? (it.passed ≤ ·.1) := by
  obtain ⟨pre, rest, hdrop, hl, hpre, hrest⟩ := split_at h hn hd
  have hfst : (pre.filterMap live).find? (n ≤ ·.1) = none := by
    apply List.find?_eq_none.mpr
    intro m hm
    simpa using hpre _ (mem_live.mp hm)
  rw [ht.here n hn, ← h.subscribed, ← hl, List.filterMap_append, List.find?_append, hfst,
    Option.none_or]
  rcases getNext_cases hn hdrop hl with ⟨hnull, he⟩ | ⟨m, before, l, rfl, hnull, -, he⟩
  · rw [he, hnull]
    rfl
  · have hle : n ≤ m.1 := hrest (m.1, some m.2) (by simp)
    have hm : live (m.1, some m.2) = some m := rfl
    rw [he, List.filterMap_append, hnull, List.nil_append, List.filterMap_cons_some hm,
      List.find?_cons_of_pos (by simpa using hle)]

end Delivery

namespace ListBase

/-- The loop of `Notify` over the iterator at `i`. `run` is what running a callback does to the
list and to everything else. -/
def notifyFrom (run : κ → ω × ListBase κ → ω × ListBase κ) (i : ℕ) :
    ℕ → ω × ListBase κ → Option (ω × ListBase κ)
  | 0, _ => none
  | fuel + 1, (w, s) =>
    (s.next i).bind fun
      | (none, t) => some (w, t)
      | (some m, t) => notifyFrom run i fuel (run m.2 (w, t))

/-- `Notify`, up to where its `~Iterator` has returned or `Compact` runs the removal callback. -/
def notify (removal : Bool) (run : κ → ω × ListBase κ → ω × ListBase κ) (fuel : ℕ)
    (x : ω × ListBase κ) : Option (ω × ListBase κ) :=
  let i := x.2.iterators.length
  (notifyFrom run i fuel (x.1, x.2.getIterator)).map fun y => (y.1, y.2.finish removal i)

end ListBase

section Actions

variable {run : κ → ω × ListBase κ → ω × ListBase κ} {i fuel : ℕ} {w w' : ω}

lemma next_runs {es : List (Action κ)} {v : Option (ℕ × κ)}
    (h : (callbackList κ removal).Runs es s) (he : s.next i = some (v, t)) :
    (callbackList κ removal).Runs (es ++ [.getNext i]) t ∧ i < t.iterators.length := by
  refine ⟨h.snoc (congrArg (Option.map Prod.snd) he), ?_⟩
  obtain ⟨it, -, hi, -, rfl⟩ := step_next he
  rwa [List.length_set]

lemma notifyFrom_runs {es : List (Action κ)}
    (hrun : ∀ cb w s, ∃ fs, (callbackList κ removal).exec s fs = some (run cb (w, s)).2)
    (h : (callbackList κ removal).Runs es s)
    (hn : ListBase.notifyFrom run i fuel (w, s) = some (w', t)) :
    ∃ fs, (callbackList κ removal).Runs (es ++ fs) t ∧ i < t.iterators.length := by
  induction fuel generalizing es s w with
  | zero => cases hn
  | succ fuel ih =>
    obtain ⟨⟨v, u⟩, hu, hv⟩ := Option.bind_eq_some_iff.mp hn
    obtain ⟨hr, hi⟩ := next_runs h hu
    cases v with
    | none =>
      obtain ⟨-, rfl⟩ := Prod.mk.inj (Option.some.inj hv)
      exact ⟨_, hr, hi⟩
    | some m =>
      obtain ⟨fs, hfs⟩ := hrun m.2 w u
      obtain ⟨gs, hgs, ht⟩ := ih (hr.append hfs) hv
      rw [List.append_assoc, List.append_assoc] at hgs
      exact ⟨_, hgs, ht⟩

/-- What holds of runs holds after a notification, whatever its callbacks do to the list. -/
theorem notify_runs {es : List (Action κ)}
    (hrun : ∀ cb w s, ∃ fs, (callbackList κ removal).exec s fs = some (run cb (w, s)).2)
    (h : (callbackList κ removal).Runs es s)
    (hn : ListBase.notify removal run fuel (w, s) = some (w', t)) :
    ∃ fs, (callbackList κ removal).Runs (es ++ fs) t := by
  obtain ⟨⟨w', u⟩, hu, ht⟩ := Option.map_eq_some_iff.mp hn
  obtain ⟨-, rfl⟩ := Prod.mk.inj ht
  have hopen : (callbackList κ removal).Runs (es ++ [.getIterator]) s.getIterator := h.snoc rfl
  obtain ⟨fs, hfs, hi⟩ := notifyFrom_runs hrun hopen hu
  have hfin : (callbackList κ removal).step u (.finish s.iterators.length) =
      some (u.finish removal s.iterators.length) := if_pos hi
  have hend := hfs.snoc hfin
  rw [List.append_assoc, List.append_assoc] at hend
  exact ⟨_, hend⟩

end Actions

section Notify

def remaining (s : ListBase κ) (it : Iterator κ) : List (ℕ × κ) :=
  it.listIter.elim [] fun n => (s.callbacks.dropWhile (·.1 ≠ n)).filterMap live

lemma remaining_reach {r : List (ℕ × κ)} (h : s.Coherent) (hl : pre ++ l = s.callbacks) :
    remaining s (s.reach l r) = l.filterMap live := by
  cases l with
  | nil => rfl
  | cons y l =>
    have hn : nodes s.callbacks = nodes pre ++ nodes (y :: l) := hl ▸ nodes_append
    have hs := List.pairwise_append.mp (hn ▸ h.sorted)
    have hd : s.callbacks.dropWhile (·.1 ≠ y.1) = y :: l := by
      rw [← hl, List.dropWhile_append_of_pos, List.dropWhile_cons_of_neg (by simp)]
      intro x hx
      have hlt := hs.2.2 x.1 (List.mem_map_of_mem hx) y.1 List.mem_cons_self
      simpa using Nat.ne_of_lt hlt
    exact congrArg (List.filterMap live) hd

lemma getNext_remaining (h : s.Coherent) (hd : s.dangling it = false) :
    (s.getNext it).1 = (remaining s it).head? ∧
      remaining s (s.getNext it).2 = (remaining s it).tail := by
  cases hn : it.listIter with
  | none =>
    have hr : remaining s it = [] := by rw [remaining, hn, Option.elim_none]
    rw [hr, ListBase.getNext, hn]
    exact ⟨rfl, hr⟩
  | some n =>
    obtain ⟨pre, rest, hdrop, hl, -, -⟩ := split_at h hn hd
    have hr : remaining s it = rest.filterMap live := by
      rw [remaining, hn, Option.elim_some, hdrop]
    rw [hr]
    rcases getNext_cases hn hdrop hl with ⟨hnull, he⟩ | ⟨m, before, l, rfl, hnull, hc, he⟩
    · rw [he, hnull]
      exact ⟨rfl, rfl⟩
    · have hm : live (m.1, some m.2) = some m := rfl
      rw [he, List.filterMap_append, hnull, List.nil_append, List.filterMap_cons_some hm]
      exact ⟨rfl, remaining_reach h hc⟩

lemma next_last {I : List (Iterator κ)} (hI : s.iterators = I ++ [it])
    (hd : s.dangling it = false) : s.next I.length =
      some ((s.getNext it).1, { s with iterators := I ++ [(s.getNext it).2] }) := by
  have hit : s.iterators[I.length]? = some it := by simp [hI]
  rw [ListBase.next, hit, Option.map_some, hd, Bool.or_false, hI,
    List.set_append_right _ _ (Nat.le_refl _), Nat.sub_self]
  rfl

lemma notifyFrom_calls {run : κ → ω × ListBase κ → ω × ListBase κ} {effect : κ → ω → ω}
    (hrun : ∀ cb w t, run cb (w, t) = (effect cb w, t)) {I : List (Iterator κ)}
    {R : List (ℕ × κ)} {fuel : ℕ} (hfuel : R.length < fuel) (h : s.Coherent)
    (hI : s.iterators = I ++ [it]) (hd : s.dangling it = false) (hR : remaining s it = R) (w : ω) :
    ∃ u, ListBase.notifyFrom run I.length fuel (w, s) =
      some (R.foldl (fun w m => effect m.2 w) w, { s with iterators := I ++ [u] }) := by
  induction R generalizing s it fuel w with
  | nil =>
    obtain ⟨fuel, rfl⟩ := Nat.exists_eq_add_one.mpr hfuel
    have hnone : (s.getNext it).1 = none := by rw [(getNext_remaining h hd).1, hR, List.head?_nil]
    refine ⟨(s.getNext it).2, ?_⟩
    rw [ListBase.notifyFrom, next_last hI hd, hnone]
    rfl
  | cons m R ih =>
    obtain ⟨fuel, rfl⟩ := Nat.exists_eq_add_one.mpr (Nat.zero_lt_of_lt hfuel)
    obtain ⟨hsome, hrest⟩ := getNext_remaining h hd
    rw [hR] at hsome hrest
    have hnext := next_last hI hd
    have hplaced := getNext_placed h hd
    obtain ⟨u, hu⟩ := ih (Nat.lt_of_succ_lt_succ hfuel) (next_coherent h hnext) rfl hplaced hrest
      (effect m.2 w)
    refine ⟨u, ?_⟩
    rw [ListBase.notifyFrom, hnext, hsome]
    exact (congrArg _ (hrun _ _ _)).trans hu

lemma compact_idle (h0 : nulls s.callbacks = 0) : s.compact removal = s := by
  have hkept : s.callbacks.filter (·.2.isSome) = s.callbacks :=
    List.filter_eq_self.mpr (nulls_eq_zero.mp h0)
  rw [ListBase.compact]
  rcases compactFrom_cases s removal false [] s.callbacks with
    ⟨he, -⟩ | ⟨front, l, hl, -, -, hone, -⟩
  · rw [he, List.nil_append, hkept]
  · rw [hl, nulls_append, hone rfl] at h0
    omega

lemma finish_last (h : s.Coherent) (u : Iterator κ)
    (hclear : s.iterators = [] → nulls s.callbacks = 0) :
    (s.addIterator u).finish removal s.iterators.length = s := by
  have hdrop : (s.addIterator u).removeIterator s.iterators.length = s := by
    simp [ListBase.addIterator, ListBase.removeIterator, List.eraseIdx_append_of_length_le]
  rw [ListBase.finish, hdrop]
  split
  · rename_i h0
    exact compact_idle (hclear (List.length_eq_zero_iff.mp (h.counted.symm.trans h0)))
  · rfl

/-- Where the removal callback notifies from inside `Compact`, entries that the call still has ahead
of it go with the iterator of `Notify`. -/
theorem notify_each (removal : Bool) (es : List (Action κ)) (s : ListBase κ)
    (h : (callbackList κ removal).Runs es s) (hf : s.fault = false)
    (run : κ → ω × ListBase κ → ω × ListBase κ) (effect : κ → ω → ω)
    (hrun : ∀ cb w t, run cb (w, t) = (effect cb w, t)) (fuel : ℕ)
    (hfuel : s.subscriptions.length < fuel) (w : ω) :
    ∃ t, ListBase.notify removal run fuel (w, s) =
        some (s.subscriptions.foldl (fun w m => effect m.2 w) w, t) ∧
      (s.iterators ≠ [] ∨ s.compacting = [] → t = s) := by
  have hc := run_coherent h
  have hR : remaining s.getIterator (s.reach s.callbacks []) = s.subscriptions :=
    (remaining_reach (addIterator_coherent hc) (List.nil_append _)).trans hc.subscribed
  obtain ⟨u, hu⟩ := notifyFrom_calls hrun hfuel (addIterator_coherent hc) rfl
    (reach_placed (List.nil_append _)) hR w
  refine ⟨_, congrArg (Option.map _) hu, fun hopen => ?_⟩
  apply finish_last hc u
  intro hi
  exact (run_regular h hf).no_null hi (hopen.resolve_left (not_not.mpr hi))

theorem nested_notify : ∃ s t, (callbackList ℕ true).Runs reentrant s ∧ s.iterators.length = 1 ∧
    ListBase.notify true (fun cb x => (x.1 ++ [cb], x.2)) 3 ([], s) = some ([20, 30], t) ∧
      t = s := by
  have h : (callbackList ℕ true).Runs reentrant _ := rfl
  obtain ⟨t, ht, hs⟩ := notify_each true reentrant _ h rfl (fun cb x => (x.1 ++ [cb], x.2))
    (fun cb w => w ++ [cb]) (fun _ _ _ => rfl) 3 (by decide) []
  exact ⟨_, t, h, rfl, ht, hs (.inl (List.cons_ne_nil _ _))⟩

end Notify

end QyCefVS.CallbackList
