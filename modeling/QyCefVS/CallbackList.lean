import Mathlib.Data.List.Basic
import Mathlib.Data.List.TakeWhile
import Mathlib.Order.Defs.PartialOrder
import QyCefVS.Library.Transitions

/-! `CallbackListBase` of `cef_callback_list.h`. Callbacks are added and subscriptions destroyed
while the list is iterated, also by the callbacks that are running. The entries of destroyed
subscriptions are then only reset, and the last iterator to go takes them out. `Compact` runs the
removal callback inside its loop, and that callback too may use the list: what it does are the
steps from the run to `removalReturned`. -/

namespace QyCefVS.CallbackList

open Transitions

/-- A node of `callbacks_` under its address; the nodes are numbered as they are added. -/
abbrev Node (κ : Type) := ℕ × Option κ

/-- `listIter` is `none` at `end()`. `passed` bounds the nodes it has left behind and `returned`
are the callbacks that `GetNext` has returned. -/
structure Iterator (κ : Type) where
  listIter : Option ℕ
  passed : ℕ
  returned : List (ℕ × κ)

/-- `compacting` is where the calls of `Compact` that wait for the removal callback go on, the
innermost first. `fault` records the use of a node that is not in the list any more. -/
structure ListBase (κ : Type) where
  callbacks : List (Node κ)
  activeIteratorCount : ℕ
  iterators : List (Iterator κ)
  compacting : List (Option ℕ)
  subscriptions : List (ℕ × κ)
  nextNode : ℕ
  destroyed : ℕ
  removalRuns : ℕ
  fault : Bool

inductive Action (κ : Type)
  | add (cb : κ)
  | unsubscribe (n : ℕ)
  | getIterator
  | copy (i : ℕ)
  | getNext (i : ℕ)
  | finish (i : ℕ)
  | removalReturned

variable {κ : Type}

def reset (n : ℕ) (m : Node κ) : Node κ := if m.1 = n then (n, none) else m

def live (m : Node κ) : Option (ℕ × κ) := m.2.map (m.1, ·)

def nodes (l : List (Node κ)) : List ℕ := l.map Prod.fst

def nulls (l : List (Node κ)) : ℕ := l.countP (·.2.isNone)

/-- The loop of `GetNext` over the null callbacks, with what follows the one it stops at. -/
def skipNull : List (Node κ) → Option ((ℕ × κ) × List (Node κ))
  | [] => none
  | (_, none) :: l => skipNull l
  | (n, some cb) :: l => some ((n, cb), l)

/-- The loop of `Compact` as far as its next run of the removal callback: the entries kept and,
where it comes to such a run, those it has not looked at. -/
def compactLoop (removal : Bool) : Bool → List (Node κ) → List (Node κ) × Option (List (Node κ))
  | _, [] => ([], none)
  | updated, (n, cb) :: l =>
    let updated := updated || cb.isNone
    let kept := if cb.isNone then [] else [(n, cb)]
    if updated && removal then (kept, some l)
    else
      let (later, rest) := compactLoop removal updated l
      (kept ++ later, rest)

namespace ListBase

def empty : ListBase κ := ⟨[], 0, [], [], [], 0, 0, 0, false⟩

variable (s : ListBase κ)

def add (cb : κ) : ListBase κ := { s with
  callbacks := s.callbacks ++ [(s.nextNode, some cb)]
  subscriptions := s.subscriptions ++ [(s.nextNode, cb)]
  nextNode := s.nextNode + 1 }

def reach (l : List (Node κ)) (returned : List (ℕ × κ)) : Iterator κ :=
  ⟨(nodes l).head?, (nodes l).head?.getD s.nextNode, returned⟩

def getNext (it : Iterator κ) : Option (ℕ × κ) × Iterator κ :=
  match it.listIter with
  | none => (none, it)
  | some n =>
    match skipNull (s.callbacks.dropWhile (·.1 ≠ n)) with
    | none => (none, s.reach [] it.returned)
    | some (m, l) => (some m, s.reach l (it.returned ++ [m]))

def dangling (it : Iterator κ) : Bool := it.listIter.any (· ∉ nodes s.callbacks)

def next (i : ℕ) : Option (Option (ℕ × κ) × ListBase κ) :=
  s.iterators[i]?.map fun it => ((s.getNext it).1, { s with
    iterators := s.iterators.set i (s.getNext it).2
    fault := s.fault || s.dangling it })

def addIterator (it : Iterator κ) : ListBase κ := { s with
  iterators := s.iterators ++ [it]
  activeIteratorCount := s.activeIteratorCount + 1 }

def getIterator : ListBase κ := s.addIterator (s.reach s.callbacks [])

/-- `Compact` from the entries `rest` on, `pre` being those it has been through. -/
def compactFrom (removal updated : Bool) (pre rest : List (Node κ)) : ListBase κ :=
  match compactLoop removal updated rest with
  | (kept, none) => { s with callbacks := pre ++ kept }
  | (kept, some l) => { s with
      callbacks := pre ++ kept ++ l
      compacting := (nodes l).head? :: s.compacting
      removalRuns := s.removalRuns + 1 }

def compact (removal : Bool) : ListBase κ := s.compactFrom removal false [] s.callbacks

def removalReturned (removal : Bool) : Option (ListBase κ) :=
  match s.compacting with
  | [] => none
  | none :: ps => some { s with compacting := ps }
  | some n :: ps =>
    let t := { s with compacting := ps }
    -- the loop reads the node before anything else, so without it there is nothing to go on with
    if n ∈ nodes s.callbacks then
      some (t.compactFrom removal true (s.callbacks.takeWhile (·.1 ≠ n))
        (s.callbacks.dropWhile (·.1 ≠ n)))
    else some { t with fault := true }

/-- `~Subscription`. Where it runs the removal callback that is the last it does. -/
def unsubscribe (removal : Bool) (n : ℕ) : ListBase κ :=
  let t := { s with
    subscriptions := s.subscriptions.filter (·.1 ≠ n)
    destroyed := s.destroyed + 1
    fault := s.fault || !decide (n ∈ nodes s.callbacks) }
  if s.activeIteratorCount ≠ 0 then { t with callbacks := s.callbacks.map (reset n) }
  else
    { t with
      callbacks := s.callbacks.filter (·.1 ≠ n)
      removalRuns := s.removalRuns + removal.toNat }

def removeIterator (i : ℕ) : ListBase κ := { s with
  iterators := s.iterators.eraseIdx i
  activeIteratorCount := s.activeIteratorCount - 1 }

/-- `~Iterator`. -/
def finish (removal : Bool) (i : ℕ) : ListBase κ :=
  let t := s.removeIterator i
  if t.activeIteratorCount = 0 then t.compact removal else t

/-- `removal` tells whether a removal callback is set. -/
def step (removal : Bool) : Action κ → Option (ListBase κ)
  | .add cb => some (s.add cb)
  | .unsubscribe n =>
    if n ∈ s.subscriptions.map Prod.fst then some (s.unsubscribe removal n) else none
  | .getIterator => some s.getIterator
  | .copy i => s.iterators[i]?.map s.addIterator
  | .getNext i => (s.next i).map Prod.snd
  | .finish i => if i < s.iterators.length then some (s.finish removal i) else none
  | .removalReturned => s.removalReturned removal

end ListBase

def callbackList (κ : Type) (removal : Bool) : Machine (ListBase κ) (Action κ) :=
  ⟨.empty, fun s => s.step removal⟩

variable {s t : ListBase κ} {a : Action κ} {removal updated : Bool} {n : ℕ}
  {l l' pre rest kept : List (Node κ)} {m : ℕ × κ} {it : Iterator κ}

lemma mem_live : m ∈ l.filterMap live ↔ (m.1, some m.2) ∈ l := by
  simp [live, Prod.ext_iff]

lemma nodes_append : nodes (l ++ l') = nodes l ++ nodes l' := List.map_append

lemma nodes_reset : nodes (l.map (reset n)) = nodes l := by
  rw [nodes, List.map_map, nodes]
  apply List.map_congr_left
  intro m _
  by_cases h : m.1 = n <;> simp [reset, h]

lemma live_reset :
    (l.map (reset n)).filterMap live = (l.filterMap live).filter (·.1 ≠ n) := by
  rw [List.filterMap_map, List.filter_filterMap]
  apply List.filterMap_congr
  rintro ⟨k, c⟩ _
  by_cases h : k = n <;> cases c <;> simp [reset, live, Option.filter, h]

lemma live_erased :
    (l.filter (·.1 ≠ n)).filterMap live = (l.filterMap live).filter (·.1 ≠ n) := by
  rw [List.filterMap_filter, List.filter_filterMap]
  apply List.filterMap_congr
  rintro ⟨k, c⟩ _
  by_cases h : k = n <;> cases c <;> simp [live, Option.filter, h]

lemma live_kept : (l.filter (·.2.isSome)).filterMap live = l.filterMap live := by
  rw [List.filterMap_filter]
  apply List.filterMap_congr
  rintro ⟨k, _ | cb⟩ _ <;> rfl

lemma eq_of_no_null (h : ∀ m ∈ l, m.2.isSome) :
    l = (l.filterMap live).map fun m => (m.1, some m.2) := by
  induction l with
  | nil => rfl
  | cons m l ih =>
    obtain ⟨hm, hl⟩ := List.forall_mem_cons.mp h
    obtain ⟨k, _ | cb⟩ := m
    · cases hm
    · exact congrArg ((k, some cb) :: ·) (ih hl)

@[simp] lemma nulls_nil : nulls ([] : List (Node κ)) = 0 := rfl

@[simp] lemma nulls_none (k : ℕ) : nulls ((k, none) :: l) = nulls l + 1 := by
  rw [nulls, List.countP_cons_of_pos rfl, nulls]

@[simp] lemma nulls_some (k : ℕ) (cb : κ) : nulls ((k, some cb) :: l) = nulls l := by
  rw [nulls, List.countP_cons_of_neg (by simp), nulls]

@[simp] lemma nulls_append : nulls (l ++ l') = nulls l + nulls l' := List.countP_append

lemma nulls_eq_zero : nulls l = 0 ↔ ∀ m ∈ l, m.2.isSome := by
  simp [nulls, List.countP_eq_zero, Option.isSome_iff_ne_none]

@[simp] lemma nulls_kept : nulls (l.filter (·.2.isSome)) = 0 :=
  nulls_eq_zero.mpr fun _ hm => (List.mem_filter.mp hm).2

lemma compactLoop_returns (h : compactLoop removal updated l = (kept, none)) :
    kept = l.filter (·.2.isSome) ∧ (removal = true → nulls l = 0) := by
  induction l generalizing updated kept with
  | nil =>
    obtain rfl := (Prod.mk.inj h).1
    exact ⟨rfl, fun _ => rfl⟩
  | cons m l ih =>
    obtain ⟨k, c⟩ := m
    rw [compactLoop] at h
    split at h
    · cases h
    · rename_i hw
      rcases hc : compactLoop removal (updated || c.isNone) l with ⟨later, r⟩
      rw [hc] at h
      obtain ⟨rfl, rfl⟩ := Prod.mk.inj h
      obtain ⟨rfl, hn⟩ := ih hc
      cases c with
      | none =>
        refine ⟨rfl, fun hr => absurd hr ?_⟩
        simpa using hw
      | some cb => exact ⟨rfl, fun hr => (nulls_some k cb).trans (hn hr)⟩

lemma compactLoop_waits (h : compactLoop removal updated l = (kept, some rest)) :
    ∃ front, l = front ++ rest ∧ kept = front.filter (·.2.isSome) ∧ removal = true ∧
      nulls front ≤ 1 ∧ (updated = false → nulls front = 1) := by
  induction l generalizing updated kept with
  | nil => cases h
  | cons m l ih =>
    obtain ⟨k, c⟩ := m
    rw [compactLoop] at h
    split at h
    · rename_i hw
      obtain ⟨rfl, hrest⟩ := Prod.mk.inj h
      obtain rfl := Option.some.inj hrest
      obtain ⟨hu, hr⟩ := Bool.and_eq_true_iff.mp hw
      refine ⟨[(k, c)], rfl, ?_, hr, ?_⟩
      · cases c <;> rfl
      · cases c with
        | none => simp
        | some cb => simpa using hu
    · rename_i hw
      rcases hc : compactLoop removal (updated || c.isNone) l with ⟨later, r⟩
      rw [hc] at h
      obtain ⟨rfl, rfl⟩ := Prod.mk.inj h
      obtain ⟨front, rfl, rfl, hr, hle, hn⟩ := ih hc
      refine ⟨(k, c) :: front, rfl, ?_, hr, ?_⟩
      · cases c <;> rfl
      · cases c with
        | none => exact absurd hr (by simpa using hw)
        | some cb => simpa using And.intro hle hn

variable (s removal updated pre rest) in
lemma compactFrom_cases :
    (s.compactFrom removal updated pre rest =
        { s with callbacks := pre ++ rest.filter (·.2.isSome) } ∧
      (removal = true → nulls rest = 0)) ∨
    ∃ front l, rest = front ++ l ∧ removal = true ∧ nulls front ≤ 1 ∧
      (updated = false → nulls front = 1) ∧ s.compactFrom removal updated pre rest = { s with
        callbacks := pre ++ front.filter (·.2.isSome) ++ l
        compacting := (nodes l).head? :: s.compacting
        removalRuns := s.removalRuns + 1 } := by
  rw [ListBase.compactFrom]
  split
  · rename_i kept h
    obtain ⟨rfl, hn⟩ := compactLoop_returns h
    exact .inl ⟨rfl, hn⟩
  · rename_i kept l h
    obtain ⟨front, hl, rfl, hr, hle, hn⟩ := compactLoop_waits h
    exact .inr ⟨front, l, hl, hr, hle, hn, rfl⟩

section

variable (s removal updated pre rest)

lemma compactFrom_same : ∃ l ps k, s.compactFrom removal updated pre rest =
    { s with callbacks := l, compacting := ps, removalRuns := k } := by
  rcases compactFrom_cases s removal updated pre rest with
    ⟨he, -⟩ | ⟨front, l, -, -, -, -, he⟩ <;> exact ⟨_, _, _, he⟩

lemma compactFrom_fault : (s.compactFrom removal updated pre rest).fault = s.fault := by
  obtain ⟨l, ps, k, he⟩ := compactFrom_same s removal updated pre rest
  rw [he]

end

section Inversion

variable {i : ℕ} {v : Option (ℕ × κ)}

lemma step_unsubscribe (he : s.step removal (.unsubscribe n) = some t) :
    n ∈ s.subscriptions.map Prod.fst ∧ t = s.unsubscribe removal n := by
  obtain ⟨hn, ht⟩ := Option.ite_none_right_eq_some.mp he
  exact ⟨hn, (Option.some.inj ht).symm⟩

lemma step_copy (he : s.step removal (.copy i) = some t) :
    ∃ it ∈ s.iterators, t = s.addIterator it := by
  obtain ⟨it, hit, ht⟩ := Option.map_eq_some_iff.mp he
  exact ⟨it, List.mem_of_getElem? hit, ht.symm⟩

lemma step_next (he : s.next i = some (v, t)) :
    ∃ it ∈ s.iterators, i < s.iterators.length ∧ v = (s.getNext it).1 ∧ t = { s with
      iterators := s.iterators.set i (s.getNext it).2
      fault := s.fault || s.dangling it } := by
  obtain ⟨it, hit, he⟩ := Option.map_eq_some_iff.mp he
  obtain ⟨hv, ht⟩ := Prod.mk.inj he
  exact ⟨it, List.mem_of_getElem? hit, (List.getElem?_eq_some_iff.mp hit).1, hv.symm, ht.symm⟩

lemma step_getNext (he : s.step removal (.getNext i) = some t) : ∃ v, s.next i = some (v, t) := by
  obtain ⟨⟨v, u⟩, hu, rfl⟩ := Option.map_eq_some_iff.mp he
  exact ⟨v, hu⟩

lemma step_finish (he : s.step removal (.finish i) = some t) :
    i < s.iterators.length ∧ t = s.finish removal i := by
  obtain ⟨hi, ht⟩ := Option.ite_none_right_eq_some.mp he
  exact ⟨hi, (Option.some.inj ht).symm⟩

lemma removalReturned_cases (h : s.removalReturned removal = some t) :
    (∃ ps, s.compacting = none :: ps ∧ t = { s with compacting := ps }) ∨
    (∃ n ps, s.compacting = some n :: ps ∧ n ∉ nodes s.callbacks ∧
      t = { s with compacting := ps, fault := true }) ∨
    ∃ n ps, s.compacting = some n :: ps ∧ n ∈ nodes s.callbacks ∧
      t = { s with compacting := ps }.compactFrom removal true
        (s.callbacks.takeWhile (·.1 ≠ n)) (s.callbacks.dropWhile (·.1 ≠ n)) := by
  rw [ListBase.removalReturned] at h
  split at h
  · cases h
  · rename_i ps hc
    exact .inl ⟨ps, hc, (Option.some.inj h).symm⟩
  · rename_i n ps hc
    simp only at h
    split at h
    · exact .inr (.inr ⟨n, ps, hc, ‹_›, (Option.some.inj h).symm⟩)
    · exact .inr (.inl ⟨n, ps, hc, ‹_›, (Option.some.inj h).symm⟩)

end Inversion

lemma sorted_split (hs : (nodes l).Pairwise (· < ·)) (hn : n ∈ nodes l) :
    (∀ m ∈ l.takeWhile (·.1 ≠ n), m.1 < n) ∧ ∀ m ∈ l.dropWhile (·.1 ≠ n), n ≤ m.1 := by
  induction l with
  | nil => simp
  | cons x l ih =>
    obtain ⟨hx, hs⟩ := List.pairwise_cons.mp hs
    by_cases he : x.1 = n
    · rw [List.dropWhile_cons_of_neg (by simpa using he),
        List.takeWhile_cons_of_neg (by simpa using he)]
      refine ⟨by simp, fun m hm => ?_⟩
      rcases List.mem_cons.mp hm with rfl | hm
      · exact Nat.le_of_eq he.symm
      · exact he ▸ Nat.le_of_lt (hx m.1 (List.mem_map_of_mem hm))
    · rw [List.dropWhile_cons_of_pos (by simpa using he),
        List.takeWhile_cons_of_pos (by simpa using he)]
      have hn : n ∈ nodes l := (List.mem_cons.mp hn).resolve_left (Ne.symm he)
      obtain ⟨hpre, hpost⟩ := ih hs hn
      exact ⟨List.forall_mem_cons.mpr ⟨hx n hn, hpre⟩, hpost⟩

structure ListBase.Coherent (s : ListBase κ) : Prop where
  sorted : (nodes s.callbacks).Pairwise (· < ·)
  fresh : ∀ n ∈ nodes s.callbacks, n < s.nextNode
  subscribed : s.callbacks.filterMap live = s.subscriptions
  counted : s.activeIteratorCount = s.iterators.length

section Coherent

lemma ListBase.Coherent.mem_subscriptions (h : s.Coherent) :
    m ∈ s.subscriptions ↔ (m.1, some m.2) ∈ s.callbacks := by
  rw [← h.subscribed, mem_live]

lemma unsubscribe_cases (h : s.Coherent) (hn : n ∈ s.subscriptions.map Prod.fst) :
    (s.iterators ≠ [] ∧ s.unsubscribe removal n = { s with
      callbacks := s.callbacks.map (reset n)
      subscriptions := s.subscriptions.filter (·.1 ≠ n)
      destroyed := s.destroyed + 1 }) ∨
    (s.iterators = [] ∧ s.unsubscribe removal n = { s with
      callbacks := s.callbacks.filter (·.1 ≠ n)
      subscriptions := s.subscriptions.filter (·.1 ≠ n)
      destroyed := s.destroyed + 1
      removalRuns := s.removalRuns + removal.toNat }) := by
  obtain ⟨m, hm, rfl⟩ := List.mem_map.mp hn
  have hmem : m.1 ∈ nodes s.callbacks := List.mem_map_of_mem (h.mem_subscriptions.mp hm)
  have hfault : (s.fault || !decide (m.1 ∈ nodes s.callbacks)) = s.fault := by simp [hmem]
  rw [ListBase.unsubscribe]
  split
  · rename_i hc
    refine .inl ⟨fun h0 => hc (by rw [h.counted, h0]; rfl), ?_⟩
    simp only [hfault]
  · rename_i hc
    refine .inr ⟨List.length_eq_zero_iff.mp (h.counted.symm.trans (not_not.mp hc)), ?_⟩
    simp only [hfault]

lemma removeIterator_coherent (h : s.Coherent) {i : ℕ} (hi : i < s.iterators.length) :
    (s.removeIterator i).Coherent := by
  have hlen := List.length_eraseIdx_of_lt hi
  exact ⟨h.sorted, h.fresh, h.subscribed, (congrArg (· - 1) h.counted).trans hlen.symm⟩

lemma finish_cases (h : s.Coherent) {i : ℕ} (hi : i < s.iterators.length) :
    ((s.removeIterator i).iterators ≠ [] ∧ s.finish removal i = s.removeIterator i) ∨
    ((s.removeIterator i).iterators = [] ∧
      s.finish removal i = (s.removeIterator i).compact removal) := by
  have hc := (removeIterator_coherent h hi).counted
  rw [ListBase.finish]
  split
  · rename_i h0
    exact .inr ⟨List.length_eq_zero_iff.mp (hc.symm.trans h0), rfl⟩
  · rename_i h0
    exact .inl ⟨fun hnil => h0 (hc.trans (congrArg List.length hnil)), rfl⟩

lemma ListBase.Coherent.erase (h : s.Coherent) (hl : l.Sublist s.callbacks)
    (hlive : l.filterMap live = s.callbacks.filterMap live) {ps : List (Option ℕ)} {k : ℕ} :
    { s with callbacks := l, compacting := ps, removalRuns := k }.Coherent := by
  have hsub : (nodes l).Sublist (nodes s.callbacks) := hl.map _
  exact ⟨h.sorted.sublist hsub, fun n hn => h.fresh n (hsub.subset hn),
    hlive.trans h.subscribed, h.counted⟩

lemma compactFrom_coherent (h : s.Coherent) (hl : pre ++ rest = s.callbacks) :
    (s.compactFrom removal updated pre rest).Coherent := by
  rcases compactFrom_cases s removal updated pre rest with
    ⟨he, -⟩ | ⟨front, l, rfl, -, -, -, he⟩
  · rw [he]
    apply h.erase
    · exact hl ▸ List.Sublist.append_left List.filter_sublist pre
    · rw [← hl, List.filterMap_append, List.filterMap_append, live_kept]
  · rw [he]
    apply h.erase
    · rw [← hl, List.append_assoc]
      exact (List.filter_sublist.append_right l).append_left pre
    · rw [← hl, List.append_assoc, List.filterMap_append, List.filterMap_append,
        List.filterMap_append, List.filterMap_append, live_kept]

lemma add_coherent (h : s.Coherent) (cb : κ) : (s.add cb).Coherent := by
  have hn : nodes (s.add cb).callbacks = nodes s.callbacks ++ [s.nextNode] := nodes_append
  refine ⟨?_, ?_, ?_, h.counted⟩
  · rw [hn, List.pairwise_append]
    refine ⟨h.sorted, List.pairwise_singleton _ _, ?_⟩
    simpa using h.fresh
  · intro n hm
    rcases List.mem_append.mp (hn ▸ hm) with hm | hm
    · exact Nat.lt_succ_of_lt (h.fresh n hm)
    · exact List.mem_singleton.mp hm ▸ Nat.lt_succ_self _
  · exact List.filterMap_append.trans (congrArg (· ++ [(s.nextNode, cb)]) h.subscribed)

lemma addIterator_coherent (h : s.Coherent) : (s.addIterator it).Coherent := by
  have hlen : (s.addIterator it).iterators.length = s.iterators.length + 1 := List.length_append
  exact ⟨h.sorted, h.fresh, h.subscribed, (congrArg (· + 1) h.counted).trans hlen.symm⟩

lemma unsubscribe_coherent (h : s.Coherent) (hn : n ∈ s.subscriptions.map Prod.fst) :
    (s.unsubscribe removal n).Coherent := by
  rcases unsubscribe_cases h hn with ⟨-, he⟩ | ⟨-, he⟩
  · rw [he]
    have hn : nodes (s.callbacks.map (reset n)) = nodes s.callbacks := nodes_reset
    refine ⟨?_, ?_, ?_, h.counted⟩
    · exact hn.symm ▸ h.sorted
    · exact hn.symm ▸ h.fresh
    · exact live_reset.trans (congrArg _ h.subscribed)
  · rw [he]
    have hsub : (nodes (s.callbacks.filter (·.1 ≠ n))).Sublist (nodes s.callbacks) :=
      List.filter_sublist.map _
    refine ⟨h.sorted.sublist hsub, fun n hn => h.fresh n (hsub.subset hn), ?_, h.counted⟩
    exact live_erased.trans (congrArg _ h.subscribed)

lemma finish_coherent (h : s.Coherent) {i : ℕ} (hi : i < s.iterators.length) :
    (s.finish removal i).Coherent := by
  have ht := removeIterator_coherent h hi
  rcases finish_cases h hi with ⟨-, he⟩ | ⟨-, he⟩
  · exact he ▸ ht
  · exact he ▸ compactFrom_coherent ht (List.nil_append _)

lemma removalReturned_coherent (h : s.Coherent) (he : s.removalReturned removal = some t) :
    t.Coherent := by
  obtain ⟨ps, -, rfl⟩ | ⟨n, ps, -, -, rfl⟩ | ⟨n, ps, -, -, rfl⟩ := removalReturned_cases he
  · exact ⟨h.sorted, h.fresh, h.subscribed, h.counted⟩
  · exact ⟨h.sorted, h.fresh, h.subscribed, h.counted⟩
  · apply compactFrom_coherent
    · exact ⟨h.sorted, h.fresh, h.subscribed, h.counted⟩
    · exact List.takeWhile_append_dropWhile

lemma next_coherent (h : s.Coherent) {i : ℕ} {v : Option (ℕ × κ)} (he : s.next i = some (v, t)) :
    t.Coherent := by
  obtain ⟨it, -, -, -, rfl⟩ := step_next he
  exact ⟨h.sorted, h.fresh, h.subscribed, h.counted.trans List.length_set.symm⟩

lemma step_coherent (h : s.Coherent) (he : (callbackList κ removal).step s a = some t) :
    t.Coherent := by
  have he : s.step removal a = some t := he
  cases a with
  | add cb => exact Option.some.inj he ▸ add_coherent h cb
  | unsubscribe n =>
    obtain ⟨hn, rfl⟩ := step_unsubscribe he
    exact unsubscribe_coherent h hn
  | getIterator => exact Option.some.inj he ▸ addIterator_coherent h
  | copy i =>
    obtain ⟨it, -, rfl⟩ := step_copy he
    exact addIterator_coherent h
  | getNext i =>
    obtain ⟨v, hv⟩ := step_getNext he
    exact next_coherent h hv
  | finish i =>
    obtain ⟨hi, rfl⟩ := step_finish he
    exact finish_coherent h hi
  | removalReturned => exact removalReturned_coherent h he

lemma empty_coherent : (ListBase.empty : ListBase κ).Coherent :=
  ⟨.nil, fun _ hn => absurd hn List.not_mem_nil, rfl, rfl⟩

lemma run_coherent {es : List (Action κ)} (h : (callbackList κ removal).Runs es s) :
    s.Coherent :=
  h.invariant empty_coherent fun _ _ _ => step_coherent

end Coherent

lemma skipNull_none (h : skipNull l = none) : l.filterMap live = [] := by
  induction l with
  | nil => rfl
  | cons m l ih =>
    obtain ⟨k, _ | cb⟩ := m
    · exact ih h
    · cases h

lemma skipNull_some {l' : List (Node κ)} (h : skipNull l = some (m, l')) :
    ∃ nulls, l = nulls ++ (m.1, some m.2) :: l' ∧ nulls.filterMap live = [] := by
  induction l with
  | nil => cases h
  | cons x l ih =>
    obtain ⟨k, _ | cb⟩ := x
    · obtain ⟨nulls, rfl, hn⟩ := ih h
      exact ⟨(k, none) :: nulls, rfl, hn⟩
    · obtain ⟨rfl, rfl⟩ := Prod.mk.inj (Option.some.inj h)
      exact ⟨[], rfl, rfl⟩

structure Iterator.Tracked (next : ℕ) (S : List (ℕ × κ)) (it : Iterator κ) : Prop where
  here : ∀ n, it.listIter = some n → it.passed = n
  bound : it.passed ≤ next
  ordered : (it.returned.map Prod.fst).Pairwise (· < ·)
  behind : ∀ m ∈ it.returned, m.1 < it.passed
  exact : ∀ m ∈ S, m.1 < it.passed → m ∈ it.returned

/-- What holds as long as no erased node has been used. -/
structure ListBase.Regular (s : ListBase κ) : Prop where
  idle : s.iterators = [] → ∀ m ∈ s.callbacks, m.2 = none →
    ∃ n, s.compacting.head? = some (some n) ∧ n ≤ m.1
  tracked : ∀ it ∈ s.iterators, it.Tracked s.nextNode s.subscriptions

section Regular

lemma not_dangling : s.dangling it = false ↔ ∀ n, it.listIter = some n → n ∈ nodes s.callbacks := by
  rw [ListBase.dangling]
  cases it.listIter <;> simp

lemma passed_le (hs : (nodes l).Pairwise (· < ·)) {r : List (ℕ × κ)} {x : Node κ} (hx : x ∈ l) :
    (s.reach l r).passed ≤ x.1 := by
  cases l with
  | nil => cases hx
  | cons y l =>
    rcases List.mem_cons.mp hx with rfl | hx
    · exact Nat.le_refl _
    · exact Nat.le_of_lt ((List.pairwise_cons.mp hs).1 x.1 (List.mem_map_of_mem hx))

lemma ListBase.Coherent.lt_passed (h : s.Coherent) {r : List (ℕ × κ)}
    (hl : pre ++ l = s.callbacks) (hn : n ∈ nodes pre) : n < (s.reach l r).passed := by
  have hc : nodes s.callbacks = nodes pre ++ nodes l := hl ▸ nodes_append
  cases l with
  | nil => exact h.fresh n (hc ▸ List.mem_append_left _ hn)
  | cons y l =>
    have hs := List.pairwise_append.mp (hc ▸ h.sorted)
    exact hs.2.2 n hn y.1 List.mem_cons_self

lemma reach_placed {r : List (ℕ × κ)} (hl : pre ++ l = s.callbacks) :
    s.dangling (s.reach l r) = false := by
  apply not_dangling.mpr
  intro n hn
  have hmem : n ∈ nodes (pre ++ l) :=
    nodes_append ▸ List.mem_append_right _ (List.mem_of_head? hn)
  exact hl ▸ hmem

lemma reach_tracked (h : s.Coherent) {r : List (ℕ × κ)} (hl : pre ++ l = s.callbacks)
    (hr : (r.map Prod.fst).Pairwise (· < ·)) (hb : ∀ m ∈ r, m.1 < (s.reach l r).passed)
    (he : ∀ m ∈ pre.filterMap live, m ∈ r) :
    (s.reach l r).Tracked s.nextNode s.subscriptions := by
  have hn : nodes s.callbacks = nodes pre ++ nodes l := hl ▸ nodes_append
  have hs := List.pairwise_append.mp (hn ▸ h.sorted)
  refine ⟨fun n hh => ?_, ?_, hr, hb, fun m hm hlt => ?_⟩
  · have hh : (nodes l).head? = some n := hh
    rw [ListBase.reach, hh, Option.getD_some]
  · cases l with
    | nil => exact Nat.le_refl _
    | cons y l =>
      have hy : y.1 ∈ nodes s.callbacks := hn ▸ List.mem_append_right _ List.mem_cons_self
      exact Nat.le_of_lt (h.fresh y.1 hy)
  · have hm := hl ▸ h.mem_subscriptions.mp hm
    rcases List.mem_append.mp hm with hp | hp
    · exact he m (mem_live.mpr hp)
    · exact absurd hlt (Nat.not_lt_of_le (passed_le hs.2.1 hp))

lemma split_at (h : s.Coherent) (hn : it.listIter = some n) (hd : s.dangling it = false) :
    ∃ pre rest, s.callbacks.dropWhile (·.1 ≠ n) = rest ∧ pre ++ rest = s.callbacks ∧
      (∀ m ∈ pre, m.1 < n) ∧ ∀ m ∈ rest, n ≤ m.1 := by
  obtain ⟨hpre, hrest⟩ := sorted_split h.sorted (not_dangling.mp hd n hn)
  exact ⟨_, _, rfl, List.takeWhile_append_dropWhile, hpre, hrest⟩

lemma getNext_cases (hn : it.listIter = some n) (hrest : s.callbacks.dropWhile (·.1 ≠ n) = rest)
    (hl : pre ++ rest = s.callbacks) :
    (rest.filterMap live = [] ∧ s.getNext it = (none, s.reach [] it.returned)) ∨
    ∃ m before l, rest = before ++ (m.1, some m.2) :: l ∧ before.filterMap live = [] ∧
      (pre ++ before ++ [(m.1, some m.2)]) ++ l = s.callbacks ∧
      s.getNext it = (some m, s.reach l (it.returned ++ [m])) := by
  rw [ListBase.getNext, hn]
  simp only [hrest]
  split
  · exact .inl ⟨skipNull_none ‹_›, rfl⟩
  · rename_i m l hk
    obtain ⟨before, rfl, hb⟩ := skipNull_some hk
    refine .inr ⟨m, before, l, rfl, hb, ?_, rfl⟩
    rw [← hl]
    simp

lemma getNext_tracked (h : s.Coherent) (ht : it.Tracked s.nextNode s.subscriptions)
    (hd : s.dangling it = false) : (s.getNext it).2.Tracked s.nextNode s.subscriptions := by
  cases hn : it.listIter with
  | none =>
    rw [ListBase.getNext, hn]
    exact ht
  | some n =>
    obtain ⟨pre, rest, hdrop, hl, hpre, hrest⟩ := split_at h hn hd
    have hp := ht.here n hn
    have hold : ∀ m ∈ pre.filterMap live, m ∈ it.returned := by
      intro m hm
      have hm := mem_live.mp hm
      exact ht.exact m (h.mem_subscriptions.mpr (hl ▸ List.mem_append_left _ hm)) (hp ▸ hpre _ hm)
    rcases getNext_cases hn hdrop hl with ⟨hnull, he⟩ | ⟨m, before, l, rfl, hnull, hc, he⟩
    · rw [he]
      apply reach_tracked h (List.append_nil _) ht.ordered
      · intro m hm
        exact Nat.lt_of_lt_of_le (ht.behind m hm) ht.bound
      · rw [← hl, List.filterMap_append, hnull, List.append_nil]
        exact hold
    · rw [he]
      have hle : n ≤ m.1 := hrest (m.1, some m.2) (by simp)
      have hlt : m.1 < (s.reach l (it.returned ++ [m])).passed :=
        h.lt_passed hc (by simp [nodes])
      have hbefore : ∀ x ∈ it.returned, x.1 < m.1 :=
        fun x hx => Nat.lt_of_lt_of_le (ht.behind x hx) (hp ▸ hle)
      apply reach_tracked h hc
      · rw [List.map_append, List.pairwise_append]
        refine ⟨ht.ordered, List.pairwise_singleton _ _, ?_⟩
        simpa using hbefore
      · intro x hx
        rcases List.mem_append.mp hx with hx | hx
        · exact Nat.lt_trans (hbefore x hx) hlt
        · exact List.mem_singleton.mp hx ▸ hlt
      · intro x hx
        rw [List.filterMap_append, List.filterMap_append, hnull, List.append_nil] at hx
        rcases List.mem_append.mp hx with hx | hx
        · exact List.mem_append_left _ (hold x hx)
        · exact List.mem_append_right _ hx

lemma compactFrom_idle (hs : (nodes (pre ++ rest)).Pairwise (· < ·)) (hpre : nulls pre = 0) :
    ∀ m ∈ (s.compactFrom removal updated pre rest).callbacks, m.2 = none →
      ∃ n, (s.compactFrom removal updated pre rest).compacting.head? = some (some n) ∧
        n ≤ m.1 := by
  rcases compactFrom_cases s removal updated pre rest with
    ⟨he, -⟩ | ⟨front, l, rfl, -, -, -, he⟩
  · rw [he]
    intro m hm h0
    have hn : nulls (pre ++ rest.filter (·.2.isSome)) = 0 := by simp [hpre]
    have hm := nulls_eq_zero.mp hn m hm
    rw [h0] at hm
    cases hm
  · rw [he]
    intro m hm h0
    have hn : nulls (pre ++ front.filter (·.2.isSome)) = 0 := by simp [hpre]
    rcases List.mem_append.mp hm with hm | hm
    · have hm := nulls_eq_zero.mp hn m hm
      rw [h0] at hm
      cases hm
    · cases l with
      | nil => cases hm
      | cons y l =>
        refine ⟨y.1, rfl, ?_⟩
        rw [nodes_append, nodes_append] at hs
        have hl := (List.pairwise_append.mp (List.pairwise_append.mp hs).2.1).2.1
        exact passed_le (s := s) (r := []) hl hm

lemma compactFrom_regular (hs : (nodes (pre ++ rest)).Pairwise (· < ·))
    (hpre : s.iterators = [] → nulls pre = 0)
    (ht : ∀ it ∈ s.iterators, it.Tracked s.nextNode s.subscriptions) :
    (s.compactFrom removal updated pre rest).Regular := by
  obtain ⟨l, ps, k, he⟩ := compactFrom_same s removal updated pre rest
  refine ⟨fun h0 => compactFrom_idle hs (hpre ?_), ?_⟩
  · rw [he] at h0
    exact h0
  · rw [he]
    exact ht

lemma ListBase.Regular.no_null (h : s.Regular) (hi : s.iterators = []) (h0 : s.compacting = []) :
    nulls s.callbacks = 0 := by
  apply nulls_eq_zero.mpr
  intro m hm
  by_contra hnull
  obtain ⟨n, hn, -⟩ := h.idle hi m hm (Option.not_isSome_iff_eq_none.mp hnull)
  rw [h0] at hn
  cases hn

lemma Iterator.Tracked.add {next : ℕ} {S : List (ℕ × κ)} (h : it.Tracked next S) (cb : κ) :
    it.Tracked (next + 1) (S ++ [(next, cb)]) := by
  refine ⟨h.here, Nat.le_succ_of_le h.bound, h.ordered, h.behind, fun m hm hlt => ?_⟩
  rcases List.mem_append.mp hm with hm | hm
  · exact h.exact m hm hlt
  · rw [List.mem_singleton.mp hm] at hlt
    exact absurd hlt (Nat.not_lt_of_le h.bound)

lemma add_regular (h : s.Regular) (cb : κ) : (s.add cb).Regular := by
  refine ⟨fun h0 m hm hnull => ?_, fun it hit => (h.tracked it hit).add cb⟩
  rcases List.mem_append.mp hm with hm | hm
  · exact h.idle h0 m hm hnull
  · rw [List.mem_singleton.mp hm] at hnull
    cases hnull

lemma addIterator_regular (h : s.Regular) (ht : it.Tracked s.nextNode s.subscriptions) :
    (s.addIterator it).Regular := by
  refine ⟨fun h0 => absurd h0 (List.append_ne_nil_of_right_ne_nil _ (List.cons_ne_nil _ _)), ?_⟩
  intro u hu
  rcases List.mem_append.mp hu with hu | hu
  · exact h.tracked u hu
  · exact List.mem_singleton.mp hu ▸ ht

lemma unsubscribe_regular (hc : s.Coherent) (h : s.Regular)
    (hn : n ∈ s.subscriptions.map Prod.fst) : (s.unsubscribe removal n).Regular := by
  have htracked : ∀ it ∈ s.iterators,
      it.Tracked s.nextNode (s.subscriptions.filter (·.1 ≠ n)) := by
    intro it hit
    have ht := h.tracked it hit
    exact { ht with exact := fun m hm => ht.exact m (List.mem_filter.mp hm).1 }
  rcases unsubscribe_cases hc hn with ⟨hne, he⟩ | ⟨h0, he⟩
  · exact he ▸ ⟨fun h0 => absurd h0 hne, htracked⟩
  · exact he ▸ ⟨fun _ m hm => h.idle h0 m (List.mem_filter.mp hm).1, htracked⟩

lemma finish_regular (hc : s.Coherent) (h : s.Regular) {i : ℕ} (hi : i < s.iterators.length) :
    (s.finish removal i).Regular := by
  have htracked : ∀ it ∈ (s.removeIterator i).iterators, it.Tracked s.nextNode s.subscriptions :=
    fun it hit => h.tracked it (List.mem_of_mem_eraseIdx hit)
  rcases finish_cases hc hi with ⟨hne, he⟩ | ⟨-, he⟩
  · exact he ▸ ⟨fun h0 => absurd h0 hne, htracked⟩
  · exact he ▸ compactFrom_regular hc.sorted (fun _ => rfl) htracked

lemma next_regular (hc : s.Coherent) (h : s.Regular) {i : ℕ} {v : Option (ℕ × κ)}
    (he : s.next i = some (v, t)) (hf : t.fault = false) : t.Regular := by
  obtain ⟨it, hit, -, -, rfl⟩ := step_next he
  refine ⟨fun h0 => h.idle ((List.set_eq_nil_iff _ _).mp h0), fun u hu => ?_⟩
  rcases List.mem_or_eq_of_mem_set hu with hu | rfl
  · exact h.tracked u hu
  · have ht := getNext_tracked hc (h.tracked it hit) (Bool.or_eq_false_iff.mp hf).2
    exact ht

lemma removalReturned_regular (hc : s.Coherent) (h : s.Regular)
    (he : s.removalReturned removal = some t) (hf : t.fault = false) : t.Regular := by
  obtain ⟨ps, hps, rfl⟩ | ⟨n, ps, -, -, rfl⟩ | ⟨n, ps, hps, hn, rfl⟩ := removalReturned_cases he
  · refine ⟨fun h0 m hm hnull => ?_, h.tracked⟩
    obtain ⟨n, hhead, -⟩ := h.idle h0 m hm hnull
    rw [hps] at hhead
    cases hhead
  · cases hf
  · apply compactFrom_regular
    · exact (List.takeWhile_append_dropWhile (l := s.callbacks)).symm ▸ hc.sorted
    · -- what is behind the node at which the loop goes on has been cleared by this call
      intro h0
      apply nulls_eq_zero.mpr
      intro m hm
      have hlt := (sorted_split hc.sorted hn).1 m hm
      by_contra hnull
      obtain ⟨k, hhead, hle⟩ :=
        h.idle h0 m (List.takeWhile_subset _ hm) (Option.not_isSome_iff_eq_none.mp hnull)
      rw [hps] at hhead
      cases hhead
      exact absurd hlt (Nat.not_lt_of_le hle)
    · exact h.tracked

lemma step_regular (hc : s.Coherent) (h : s.Regular)
    (he : (callbackList κ removal).step s a = some t) (hf : t.fault = false) : t.Regular := by
  have he : s.step removal a = some t := he
  cases a with
  | add cb => exact Option.some.inj he ▸ add_regular h cb
  | unsubscribe n =>
    obtain ⟨hn, rfl⟩ := step_unsubscribe he
    exact unsubscribe_regular hc h hn
  | getIterator =>
    obtain rfl := Option.some.inj he
    exact addIterator_regular h (reach_tracked hc (List.nil_append _) .nil (by simp) (by simp))
  | copy i =>
    obtain ⟨it, hit, rfl⟩ := step_copy he
    exact addIterator_regular h (h.tracked it hit)
  | getNext i =>
    obtain ⟨v, hv⟩ := step_getNext he
    exact next_regular hc h hv hf
  | finish i =>
    obtain ⟨hi, rfl⟩ := step_finish he
    exact finish_regular hc h hi
  | removalReturned => exact removalReturned_regular hc h he hf

lemma fault_before (hc : s.Coherent) (he : (callbackList κ removal).step s a = some t)
    (hf : t.fault = false) : s.fault = false := by
  have he : s.step removal a = some t := he
  cases a with
  | add cb =>
    obtain rfl := Option.some.inj he
    exact hf
  | unsubscribe n =>
    obtain ⟨hn, rfl⟩ := step_unsubscribe he
    rcases unsubscribe_cases hc hn with ⟨-, he⟩ | ⟨-, he⟩ <;> exact (congrArg _ he).symm.trans hf
  | getIterator =>
    obtain rfl := Option.some.inj he
    exact hf
  | copy i =>
    obtain ⟨it, -, rfl⟩ := step_copy he
    exact hf
  | getNext i =>
    obtain ⟨v, hv⟩ := step_getNext he
    obtain ⟨it, -, -, -, rfl⟩ := step_next hv
    exact (Bool.or_eq_false_iff.mp hf).1
  | finish i =>
    obtain ⟨hi, rfl⟩ := step_finish he
    rcases finish_cases hc hi with ⟨-, he⟩ | ⟨-, he⟩
    · rw [he] at hf
      exact hf
    · rw [he, ListBase.compact, compactFrom_fault] at hf
      exact hf
  | removalReturned =>
    obtain ⟨ps, -, rfl⟩ | ⟨n, ps, -, -, rfl⟩ | ⟨n, ps, -, -, rfl⟩ := removalReturned_cases he
    · exact hf
    · cases hf
    · rw [compactFrom_fault] at hf
      exact hf

lemma run_regular {es : List (Action κ)} (h : (callbackList κ removal).Runs es s)
    (hf : s.fault = false) : s.Regular := by
  have hr : s.Coherent ∧ (s.fault = false → s.Regular) := by
    apply h.invariant (I := fun s => s.Coherent ∧ (s.fault = false → s.Regular))
    · refine ⟨empty_coherent, fun _ => ⟨fun _ m hm => ?_, fun it hit => ?_⟩⟩
      · cases hm
      · cases hit
    · rintro s a t ⟨hc, hr⟩ he
      exact ⟨step_coherent hc he, fun hf => step_regular hc (hr (fault_before hc he hf)) he hf⟩
  exact hr.2 hf

end Regular

end QyCefVS.CallbackList
