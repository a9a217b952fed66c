import Mathlib.Data.List.Nodup
import QyCefVS.CallbackList

/-! What a removal callback may do. It runs in `~Subscription`, after all else, and in the loop of
`Compact`, where the node at which the loop goes on must still be there when it has run. -/

namespace QyCefVS.CallbackList

open Transitions

variable {κ : Type} {s t : ListBase κ} {a : Action κ} {removal updated : Bool} {n : ℕ}
  {pre rest l : List (Node κ)} {it : Iterator κ}

/-- What a removal callback may do to the list while `Compact` runs it, beside adding to it. -/
structure Permission where
  unsubscribe : Bool
  iterate : Bool

namespace Permission

def allows (p : Permission) : Action κ → Bool
  | .add _ | .removalReturned => true
  | .unsubscribe _ => p.unsubscribe
  | .getIterator | .copy _ | .getNext _ | .finish _ => p.iterate

def Obeys (p : Permission) (s : ListBase κ) (a : Action κ) : Prop :=
  s.compacting ≠ [] → p.allows a = true

instance (p : Permission) (s : ListBase κ) (a : Action κ) : Decidable (p.Obeys s a) :=
  inferInstanceAs (Decidable (_ → _))

end Permission

structure ListBase.Settled (removal : Bool) (s : ListBase κ) : Prop where
  sound : s.fault = false
  placed : ∀ it ∈ s.iterators, s.dangling it = false
  waiting : ∀ p ∈ s.compacting, removal = true ∧ s.iterators = [] ∧ s.compacting = [p] ∧
    ∀ n, p = some n → n ∈ nodes s.callbacks

section Settled

lemma dangling_of_subset (hs : nodes s.callbacks ⊆ nodes t.callbacks)
    (hd : s.dangling it = false) : t.dangling it = false :=
  not_dangling.mpr fun n hn => hs (not_dangling.mp hd n hn)

lemma getNext_placed (h : s.Coherent) (hd : s.dangling it = false) :
    s.dangling (s.getNext it).2 = false := by
  cases hn : it.listIter with
  | none =>
    rw [ListBase.getNext, hn]
    exact hd
  | some n =>
    obtain ⟨pre, rest, hdrop, hl, -, -⟩ := split_at h hn hd
    rcases getNext_cases hn hdrop hl with ⟨-, he⟩ | ⟨m, before, l, rfl, -, hc, he⟩
    · exact he ▸ reach_placed (List.append_nil _)
    · exact he ▸ reach_placed hc

lemma ListBase.Settled.running (hf : s.fault = false)
    (hp : ∀ it ∈ s.iterators, s.dangling it = false) (h0 : s.compacting = []) :
    s.Settled removal :=
  ⟨hf, hp, fun _ hp => absurd (h0 ▸ hp) List.not_mem_nil⟩

lemma ListBase.Settled.compactFrom (h0 : s.compacting = []) (hi : s.iterators = [])
    (hf : s.fault = false) : (s.compactFrom removal updated pre rest).Settled removal := by
  rcases compactFrom_cases s removal updated pre rest with
    ⟨he, -⟩ | ⟨front, l, -, hr, -, -, he⟩
  · rw [he]
    exact .running hf (fun it hit => absurd (hi ▸ hit) List.not_mem_nil) h0
  · rw [he]
    refine ⟨hf, fun it hit => absurd (hi ▸ hit) List.not_mem_nil, fun p hp => ?_⟩
    simp only [h0, List.mem_singleton] at hp
    subst hp
    refine ⟨hr, hi, congrArg _ h0, fun n hn => ?_⟩
    rw [nodes_append]
    exact List.mem_append_right _ (List.mem_of_head? hn)

lemma add_settled (h : s.Settled removal) (cb : κ) : (s.add cb).Settled removal := by
  have hsub : nodes s.callbacks ⊆ nodes (s.add cb).callbacks := by
    intro n hn
    rw [ListBase.add, nodes_append]
    exact List.mem_append_left _ hn
  refine ⟨h.sound, fun it hit => dangling_of_subset hsub (h.placed it hit), fun p hp => ?_⟩
  obtain ⟨hr, hi, hc, hn⟩ := h.waiting p hp
  exact ⟨hr, hi, hc, fun n he => hsub (hn n he)⟩

lemma removalReturned_settled (h : s.Settled removal)
    (he : s.removalReturned removal = some t) : t.Settled removal := by
  obtain ⟨ps, hps, rfl⟩ | ⟨n, ps, hps, hn, rfl⟩ | ⟨n, ps, hps, hn, rfl⟩ := removalReturned_cases he
  · obtain ⟨-, -, hone, -⟩ := h.waiting none (hps ▸ List.mem_cons_self)
    obtain rfl := (List.cons.inj (hps.symm.trans hone)).2
    exact ⟨h.sound, h.placed, fun p hp => absurd hp List.not_mem_nil⟩
  · obtain ⟨-, -, -, hmem⟩ := h.waiting (some n) (hps ▸ List.mem_cons_self)
    exact absurd (hmem n rfl) hn
  · obtain ⟨-, hi, hone, -⟩ := h.waiting (some n) (hps ▸ List.mem_cons_self)
    obtain rfl := (List.cons.inj (hps.symm.trans hone)).2
    exact .compactFrom rfl hi h.sound

lemma unsubscribe_settled (hc : s.Coherent) (h : s.Settled removal) (h0 : s.compacting = [])
    (hn : n ∈ s.subscriptions.map Prod.fst) : (s.unsubscribe removal n).Settled removal := by
  rcases unsubscribe_cases hc hn with ⟨-, he⟩ | ⟨hi, he⟩
  · rw [he]
    have hsub : nodes s.callbacks ⊆ nodes (s.callbacks.map (reset n)) :=
      fun _ hm => nodes_reset.symm ▸ hm
    exact .running h.sound (fun it hit => dangling_of_subset hsub (h.placed it hit)) h0
  · rw [he]
    exact .running h.sound (fun it hit => absurd (hi ▸ hit) List.not_mem_nil) h0

lemma addIterator_settled (h : s.Settled removal) (h0 : s.compacting = [])
    (hd : s.dangling it = false) : (s.addIterator it).Settled removal := by
  refine .running h.sound (fun u hu => ?_) h0
  rcases List.mem_append.mp hu with hu | hu
  · exact h.placed u hu
  · exact List.mem_singleton.mp hu ▸ hd

lemma next_settled (hc : s.Coherent) (h : s.Settled removal) (h0 : s.compacting = []) {i : ℕ}
    {v : Option (ℕ × κ)} (he : s.next i = some (v, t)) : t.Settled removal := by
  obtain ⟨it, hit, -, -, rfl⟩ := step_next he
  have hd := h.placed it hit
  refine .running (Bool.or_eq_false_iff.mpr ⟨h.sound, hd⟩) (fun u hu => ?_) h0
  rcases List.mem_or_eq_of_mem_set hu with hu | rfl
  · exact h.placed u hu
  · have hg := getNext_placed hc hd
    exact hg

lemma finish_settled (hc : s.Coherent) (h : s.Settled removal) (h0 : s.compacting = []) {i : ℕ}
    (hi : i < s.iterators.length) : (s.finish removal i).Settled removal := by
  rcases finish_cases hc hi with ⟨-, he⟩ | ⟨hnil, he⟩
  · rw [he]
    exact .running h.sound (fun it hit => h.placed it (List.mem_of_mem_eraseIdx hit)) h0
  · exact he ▸ .compactFrom h0 hnil h.sound

lemma step_settled (hc : s.Coherent) (h : s.Settled removal)
    (hp : s.compacting ≠ [] → a = .removalReturned ∨ ∃ cb, a = .add cb)
    (he : (callbackList κ removal).step s a = some t) : t.Settled removal := by
  have he : s.step removal a = some t := he
  by_cases h0 : s.compacting = []
  · cases a with
    | add cb => exact Option.some.inj he ▸ add_settled h cb
    | unsubscribe n =>
      obtain ⟨hn, rfl⟩ := step_unsubscribe he
      exact unsubscribe_settled hc h h0 hn
    | getIterator =>
      exact Option.some.inj he ▸ addIterator_settled h h0 (reach_placed (List.nil_append _))
    | copy i =>
      obtain ⟨it, hit, rfl⟩ := step_copy he
      exact addIterator_settled h h0 (h.placed it hit)
    | getNext i =>
      obtain ⟨v, hv⟩ := step_getNext he
      exact next_settled hc h h0 hv
    | finish i =>
      obtain ⟨hi, rfl⟩ := step_finish he
      exact finish_settled hc h h0 hi
    | removalReturned => exact removalReturned_settled h he
  · rcases hp h0 with rfl | ⟨cb, rfl⟩
    · exact removalReturned_settled h he
    · exact Option.some.inj he ▸ add_settled h cb

lemma run_settled {p : Permission} (hp : removal = true → p.unsubscribe = false ∧ p.iterate = false)
    {es : List (Action κ)} (h : (callbackList κ removal).Runs es s)
    (ho : (callbackList κ removal).EachStep es p.Obeys) : s.Settled removal := by
  have hg := Machine.runs_guarded.mpr ⟨h, ho⟩
  have hs : s.Coherent ∧ s.Settled removal := by
    apply hg.invariant (I := fun s => s.Coherent ∧ s.Settled removal)
    · exact ⟨empty_coherent, .running rfl (fun _ hit => by cases hit) rfl⟩
    · rintro s a t ⟨hc, hs⟩ he
      obtain ⟨ha, he⟩ := Option.ite_none_right_eq_some.mp he
      refine ⟨step_coherent hc he, step_settled hc hs (fun hne => ?_) he⟩
      have ha := ha hne
      obtain ⟨q, hq⟩ := List.exists_mem_of_ne_nil _ hne
      obtain ⟨hu, hi⟩ := hp (hs.waiting q hq).1
      cases a with
      | add cb => exact .inr ⟨cb, rfl⟩
      | removalReturned => exact .inl rfl
      | _ => simp [Permission.allows, hu, hi] at ha
  exact hs.2

end Settled

section Fault

/-- With the first of two subscriptions reset, the removal callback destroys the other, on whose
node the loop of `Compact` is going to go on. -/
def unsubscribing (cb : κ) : List (Action κ) :=
  [.add cb, .add cb, .getIterator, .unsubscribe 0, .finish 0, .unsubscribe 1, .removalReturned]

/-- With two subscriptions reset, the removal callback calls `Notify`, whose iterator leaves a
list that its own call of `Compact` clears. -/
def notifying (cb : κ) : List (Action κ) :=
  [.add cb, .add cb, .getIterator, .unsubscribe 0, .unsubscribe 1, .finish 0,
    .getIterator, .getNext 0, .finish 0, .removalReturned, .removalReturned]

lemma unsubscribing_faults (cb : κ) (iterate : Bool) :
    ∃ s, ((callbackList κ true).guarded (Permission.mk true iterate).Obeys).Runs
      (unsubscribing cb) s ∧ s.fault = true :=
  ⟨_, rfl, rfl⟩

lemma notifying_faults (cb : κ) (unsubscribe : Bool) :
    ∃ s, ((callbackList κ true).guarded (Permission.mk unsubscribe true).Obeys).Runs
      (notifying cb) s ∧ s.fault = true :=
  ⟨_, rfl, rfl⟩

end Fault

/-- The first callback destroys its own subscription and adds a third while it runs. -/
def reentrant : List (Action ℕ) :=
  [.add 10, .add 20, .getIterator, .getNext 0, .unsubscribe 0, .add 30, .getNext 0, .getNext 0]

section Reported

lemma nulls_live : nulls l + (l.filterMap live).length = l.length := by
  induction l with
  | nil => rfl
  | cons m l ih =>
    obtain ⟨k, _ | cb⟩ := m
    · rw [nulls_none, List.filterMap_cons_none rfl, List.length_cons, ← ih]
      omega
    · have hl : ((k, some cb) :: l).filterMap live = (k, cb) :: l.filterMap live := rfl
      rw [nulls_some, hl, List.length_cons, List.length_cons, ← ih]
      omega

lemma nulls_reset (hn : n ∈ (l.filterMap live).map Prod.fst) :
    nulls l + 1 ≤ nulls (l.map (reset n)) := by
  obtain ⟨m, hm, rfl⟩ := List.mem_map.mp hn
  have h1 := nulls_live (l := l)
  have h2 := nulls_live (l := l.map (reset m.1))
  have hlt : ((l.filterMap live).filter (·.1 ≠ m.1)).length < (l.filterMap live).length :=
    List.length_filter_lt_length_iff_exists.mpr ⟨m, hm, by simp⟩
  rw [live_reset, List.length_map] at h2
  omega

lemma nulls_erased (hs : (nodes l).Pairwise (· < ·))
    (hn : n ∈ (l.filterMap live).map Prod.fst) : nulls (l.filter (·.1 ≠ n)) = nulls l := by
  obtain ⟨m, hm, rfl⟩ := List.mem_map.mp hn
  rw [nulls, List.countP_filter, nulls]
  apply List.countP_congr
  intro x hx
  have hne : x.2.isNone = true → x.1 ≠ m.1 := by
    intro hnull he
    obtain rfl := List.inj_on_of_nodup_map hs.nodup hx (mem_live.mp hm) he
    cases hnull
  simpa using hne

structure ListBase.Reported (s : ListBase κ) : Prop where
  atLeast : s.destroyed ≤ s.removalRuns + nulls s.callbacks
  caused : s.destroyed = 0 → s.removalRuns = 0 ∧ nulls s.callbacks = 0 ∧ s.compacting = []

lemma compactFrom_atLeast (h : s.destroyed ≤ s.removalRuns + nulls s.callbacks)
    (hl : pre ++ rest = s.callbacks) :
    (s.compactFrom true updated pre rest).destroyed ≤
      (s.compactFrom true updated pre rest).removalRuns +
        nulls (s.compactFrom true updated pre rest).callbacks := by
  rcases compactFrom_cases s true updated pre rest with ⟨he, hn⟩ | ⟨front, l, rfl, -, hle, -, he⟩
  · rw [he]
    have hn := hn rfl
    simp only [← hl, nulls_append, nulls_kept] at h ⊢
    omega
  · rw [he]
    simp only [← hl, nulls_append, nulls_kept] at h ⊢
    omega

lemma compact_reported (h : s.Reported) : (s.compact true).Reported := by
  refine ⟨compactFrom_atLeast h.atLeast (List.nil_append _), ?_⟩
  rw [ListBase.compact]
  rcases compactFrom_cases s true false [] s.callbacks with
    ⟨he, -⟩ | ⟨front, l, hl, -, -, hone, he⟩
  · rw [he]
    intro h0
    obtain ⟨hruns, -, hc⟩ := h.caused h0
    exact ⟨hruns, nulls_kept, hc⟩
  · rw [he]
    intro h0
    -- the first run of the removal callback comes with the first entry erased
    have hn := (h.caused h0).2.1
    rw [hl, nulls_append, hone rfl] at hn
    omega

lemma removalReturned_reported (h : s.Reported) (he : s.removalReturned true = some t) :
    t.Reported := by
  have hne : s.destroyed ≠ 0 := by
    intro h0
    rw [ListBase.removalReturned, (h.caused h0).2.2] at he
    cases he
  obtain ⟨ps, -, rfl⟩ | ⟨n, ps, -, -, rfl⟩ | ⟨n, ps, -, -, rfl⟩ := removalReturned_cases he
  · exact ⟨h.atLeast, fun h0 => absurd h0 hne⟩
  · exact ⟨h.atLeast, fun h0 => absurd h0 hne⟩
  · refine ⟨compactFrom_atLeast h.atLeast List.takeWhile_append_dropWhile, fun h0 => ?_⟩
    obtain ⟨l, qs, k, he⟩ := compactFrom_same { s with compacting := ps } true true
      (s.callbacks.takeWhile (·.1 ≠ n)) (s.callbacks.dropWhile (·.1 ≠ n))
    rw [he] at h0
    exact absurd h0 hne

lemma unsubscribe_reported (hc : s.Coherent) (h : s.Reported)
    (hn : n ∈ s.subscriptions.map Prod.fst) : (s.unsubscribe true n).Reported := by
  have hle := h.atLeast
  have hlive := hc.subscribed.symm ▸ hn
  rcases unsubscribe_cases hc hn with ⟨-, he⟩ | ⟨-, he⟩
  · rw [he]
    refine ⟨?_, fun h0 => absurd h0 (Nat.succ_ne_zero _)⟩
    have hreset := nulls_reset hlive
    simp only
    omega
  · rw [he]
    refine ⟨?_, fun h0 => absurd h0 (Nat.succ_ne_zero _)⟩
    simp only [nulls_erased hc.sorted hlive, Bool.toNat_true]
    omega

lemma step_reported (hc : s.Coherent) (h : s.Reported)
    (he : (callbackList κ true).step s a = some t) : t.Reported := by
  have he : s.step true a = some t := he
  cases a with
  | add cb =>
    obtain rfl := Option.some.inj he
    have hn : nulls (s.add cb).callbacks = nulls s.callbacks := nulls_append
    exact ⟨hn.symm ▸ h.atLeast, hn.symm ▸ h.caused⟩
  | unsubscribe n =>
    obtain ⟨hn, rfl⟩ := step_unsubscribe he
    exact unsubscribe_reported hc h hn
  | getIterator =>
    obtain rfl := Option.some.inj he
    exact ⟨h.atLeast, h.caused⟩
  | copy i =>
    obtain ⟨it, -, rfl⟩ := step_copy he
    exact ⟨h.atLeast, h.caused⟩
  | getNext i =>
    obtain ⟨v, hv⟩ := step_getNext he
    obtain ⟨it, -, -, -, rfl⟩ := step_next hv
    exact ⟨h.atLeast, h.caused⟩
  | finish i =>
    obtain ⟨hi, rfl⟩ := step_finish he
    have hr : (s.removeIterator i).Reported := ⟨h.atLeast, h.caused⟩
    rcases finish_cases hc hi with ⟨-, he⟩ | ⟨-, he⟩
    · exact he ▸ hr
    · exact he ▸ compact_reported hr
  | removalReturned => exact removalReturned_reported h he

lemma run_reported {es : List (Action κ)} (h : (callbackList κ true).Runs es s) :
    s.Reported := by
  have hr : s.Coherent ∧ s.Reported := by
    apply h.invariant (I := fun s => s.Coherent ∧ s.Reported)
    · exact ⟨empty_coherent, Nat.le_refl 0, fun _ => ⟨rfl, rfl, rfl⟩⟩
    · exact fun s a t hs he => ⟨step_coherent hs.1 he, step_reported hs.1 hs.2 he⟩
  exact hr.2

end Reported

end QyCefVS.CallbackList
