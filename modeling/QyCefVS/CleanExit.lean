import Mathlib.Algebra.BigOperators.Group.List.Basic
import QyCefVS.ReferenceCycle
import QyCefVS.Shutdown

/-! What the process leaves behind. While it winds down, `OnContextInitialized` returns and libcef
lets go of the closed browsers, before `main` returns or after; in the end every object that was
ever created has been deleted and `g_instance` is null. -/

namespace QyCefVS.CleanExit

open LifeSpan Application References Ownership ReferenceCycle Shutdown SingleWindow Transitions

variable {β : Type}

def windsDown : CountedEvent β → Bool
  | .process e => Shutdown.windsDown e
  | .contextReturned | .released _ => true

def gain (e : CountedEvent β) : ℕ := 3 * (!windsDown e).toNat

lemma refill_le (e : ProcessEvent β) : refill e ≤ 2 := by
  have hb : blanks (lifeSpans [e]) ≤ 1 :=
    List.countP_le_length.trans ((List.length_filterMap_le _ _).trans (List.length_filterMap_le _ _))
  exact Nat.mul_le_mul_left 2 hb

variable [DecidableEq β]

/-- The references that there are and those that the first context is still to make. -/
def references (r : Results) (x : Counted β) : ℕ :=
  (if x.process.ContextToCome r then 1 + r.founders else 0) + x.inScope.toNat +
    x.process.pending.length + x.held.length

def countedWork (r : Results) (x : Counted β) : ℕ := work r x.process + references r x

structure Clean (r : Results) (x : Counted β) : Prop where
  returned : x.process.pc = .returned (status r)
  deleted : ∀ o ∈ x.memory.allocated, o ∈ x.memory.deleted
  forgotten : getInstance x.memory = none

variable {r : Results} {es : List (CountedEvent β)} {x y : Counted β} {e : CountedEvent β}

lemma deliver_pending {s t : Session β} {e : Event β} (he : s.step .cancelled e = some t) :
    t.ledger.pending.length + (newlyHeld e).length ≤
      s.ledger.pending.length + (!settles e).toNat := by
  obtain ⟨hp, rfl⟩ := Session.step_eq_some.mp he
  cases e with
  | created origin p =>
    have hl := List.length_erase_add_one hp.1
    exact hl.le
  | cancelled opener =>
    have hl := List.length_erase_add_one hp
    exact (Nat.le_succ _).trans hl.le
  | doClose p => exact Nat.le_succ _
  | beforeClose p =>
    have hl := length_close s.ledger p.browser
    exact (Nat.le_add_right _ _).trans hl.le
  | beforePopup q =>
    rw [Session.deliver_beforePopup]
    cases hq : q.targetUrl.isEmpty <;> simp [newlyHeld, settles]

lemma returned_over {fs : List (ProcessEvent β)} {p : Process β} {c : ℤ}
    (h : (process .cancelled r).Runs fs p) (hp : p.pc = .returned c) :
    p.live = [] ∧ p.pending = [] := by
  rcases (process_ended h).returned c hp with hq | ha
  · obtain ⟨hl, hn, _⟩ := (over_of_quits h hq).quiet r
    exact ⟨hl, hn⟩
  · simp [Process.live, Process.pending, ha]

lemma references_process {e : ProcessEvent β} (h : (counted r).Runs es x)
    (he : (counted r).step x (.process e) = some y) :
    references r y ≤ references r x + (!Shutdown.windsDown e).toNat := by
  obtain ⟨p, hp, rfl⟩ := Option.map_eq_some_iff.mp he
  have hp : (process .cancelled r).step x.process e = some p := hp
  cases e with
  | main =>
    have ha := (step_main hp).1
    simp only [references, Counted.react, Process.pending, Process.ContextToCome, ha]
    exact Nat.le_add_right _ _
  | contextInitialized =>
    obtain ⟨_, ha, hi, rfl⟩ := step_contextInitialized hp
    have hx := counted_accounted h
    rw [Counted.Accounted, ha] at hx
    have hl : (Application.onContextInitialized r : Session β).ledger.pending.length = r.founders :=
      List.length_replicate
    simp [references, Counted.react, Process.pending, Process.ContextToCome, ha, hi, hx.2.1, hx.2.2,
      hl]
  | lifeSpan e =>
    obtain ⟨_, s, t, hs, ht, rfl⟩ := step_lifeSpan hp
    have hd := deliver_pending ht
    simp only [references, Counted.react, Process.pending, Process.ContextToCome, hs,
      Option.elim_some, List.length_append, Shutdown.windsDown, reduceCtorEq, and_false, if_false]
    omega

lemma countedWork_step (h : (counted r).Runs es x) (he : (counted r).step x e = some y) :
    countedWork r y + (windsDown e).toNat ≤ countedWork r x + gain e := by
  cases e with
  | process e =>
    have hl := references_process h he
    obtain ⟨p, hp, rfl⟩ := Option.map_eq_some_iff.mp he
    have hw := work_step (counted_process h) hp
    have hr := refill_le e
    have hy : (x.react r p e).process = p := by cases e <;> rfl
    rw [countedWork, countedWork, hy]
    simp only [windsDown, gain]
    cases hd : Shutdown.windsDown e with
    | true =>
      have h0 := refill_of_windsDown hd
      simp only [hd, Bool.not_true, Bool.toNat_false, Bool.toNat_true] at hl hw ⊢
      omega
    | false =>
      simp only [hd, Bool.not_false, Bool.toNat_false, Bool.toNat_true] at hl hw ⊢
      omega
  | contextReturned =>
    obtain ⟨hscope, hy⟩ := Option.ite_none_right_eq_some.mp he
    obtain rfl := Option.some.inj hy
    simp only [countedWork, references, hscope, windsDown, gain, Bool.not_true, Bool.toNat_true,
      Bool.toNat_false]
    omega
  | released b =>
    obtain ⟨⟨hb, _⟩, hy⟩ := Option.ite_none_right_eq_some.mp he
    obtain rfl := Option.some.inj hy
    have hl := List.length_erase_add_one hb
    simp only [countedWork, references, windsDown, gain, Bool.not_true, Bool.toNat_true,
      Bool.toNat_false]
    omega

lemma nothing_left {c : ℤ} (h : (counted r).Runs es x) (hpc : x.process.pc = .returned c)
    (hi : x.inScope = false) (hh : x.held = []) : Clean r x := by
  have hp := counted_process h
  have ha := counted_accounted h
  obtain ⟨hl, hn⟩ := returned_over hp hpc
  have hmem : (∀ o ∈ x.memory.allocated, o ∈ x.memory.deleted) ∧ getInstance x.memory = none := by
    cases hs : x.process.app with
    | none =>
      rw [Counted.Accounted, hs] at ha
      simp [ha.1, Heap.empty, getInstance]
    | some s =>
      have ht := ha.tracked hs
      simp only [Process.live, Process.pending, hs, Option.elim_some] at hl hn
      rw [hi, hh, hl, hn] at ht
      have hnot : ∀ o, ¬ x.memory.Present o := by
        rintro (_ | b) ho
        · simpa using (handler_present_iff ht).mp ho
        · exact List.not_mem_nil ((browser_present_iff ht b).mp ho)
      refine ⟨fun o ho => Heap.deleted_of_not_present ho (hnot o), ?_⟩
      exact ht.global.trans (if_neg (hnot .handler))
  exact ⟨hpc.trans (congrArg _ (returned_status hp hpc)), hmem.1, hmem.2⟩

lemma progress [Nonempty β] (hr : r.StartsUp) (h : (counted r).Runs es x) (hx : ¬ Clean r x) :
    ∃ e y, windsDown e = true ∧ (counted r).step x e = some y := by
  by_cases hpc : ∀ c, x.process.pc ≠ .returned c
  · obtain ⟨e, q, he, hq⟩ := Shutdown.progress hr (counted_process h) hpc
    have hy : (counted r).step x (.process e) = some (x.react r q e) :=
      Option.map_eq_some_iff.mpr ⟨q, hq, rfl⟩
    exact ⟨.process e, _, he, hy⟩
  · obtain ⟨c, hc⟩ := not_forall_not.mp hpc
    by_cases hi : x.inScope = true
    · exact ⟨.contextReturned, _, rfl, if_pos hi⟩
    · obtain ⟨b, hb⟩ := List.exists_mem_of_ne_nil x.held fun hh =>
        hx (nothing_left h hc (Bool.eq_false_of_not_eq_true hi) hh)
      have hl : x.process.live = [] := (returned_over (counted_process h) hc).1
      exact ⟨.released b, _, rfl, if_pos ⟨hb, hl ▸ List.not_mem_nil⟩⟩

lemma lift_process {fs : List (ProcessEvent β)} {p : Process β}
    (h : (process .cancelled r).Runs fs p) :
    ∃ x : Counted β, (counted r).Runs (fs.map .process) x ∧ x.process = p := by
  apply h.induct (P := fun fs p => ∃ x : Counted β, (counted r).Runs (fs.map .process) x ∧
    x.process = p)
  · exact ⟨.start, rfl, rfl⟩
  · rintro fs e p q _ ⟨x, hx, rfl⟩ he
    have hy : (counted r).step x (.process e) = some (x.react r q e) :=
      Option.map_eq_some_iff.mpr ⟨q, he, rfl⟩
    refine ⟨x.react r q e, ?_, by cases e <;> rfl⟩
    rw [List.map_append]
    exact hx.snoc hy

lemma stranded_counted {fs : List (ProcessEvent β)} {p : Process β}
    (h : (process .cancelled r).Runs fs p) (hs : p.Stranded r) (hq : p.quits = 0)
    {gs : List (CountedEvent β)} (hx : (counted r).Runs (fs.map .process ++ gs) y) :
    y.process = p := by
  have hp := counted_process hx
  have hf : (fs.map CountedEvent.process).filterMap CountedEvent.process? = fs := by
    rw [List.filterMap_map]
    exact List.filterMap_some
  rw [processEvents, List.filterMap_append, hf] at hp
  obtain ⟨q, hq', hx'⟩ := hp.split
  obtain rfl := hq'.unique h
  exact stranded_stays hs hq hx'

theorem clean_exit_iff (β : Type) [DecidableEq β] [Nonempty β] (r : Results) :
    (∀ (es : List (CountedEvent β)) (x : Counted β), (counted r).Runs es x →
      (∃ fs y, (∀ e ∈ fs, windsDown e = true) ∧ (counted r).exec x fs = some y ∧
        fs.length ≤ countedWork r x ∧ Clean r y) ∧
      ((∀ e, windsDown e = true → (counted r).step x e = none) → Clean r x)) ↔ r.StartsUp := by
  constructor
  · intro h
    by_contra hr
    obtain ⟨fs, p, hp, hs, hq⟩ := stranded_run β hr
    obtain ⟨x, hx, -⟩ := lift_process (β := β) hp
    obtain ⟨⟨gs, y, _, hy, _, hclean⟩, -⟩ := h _ x hx
    have hr : (counted r).Runs (fs.map .process ++ gs) y := hx.append hy
    have hpc := stranded_counted hp hs hq hr ▸ hs.1
    rw [hclean.returned] at hpc
    cases hpc
  · intro hr es x h
    have hpr : ∀ y : Counted β, (counted r).Reachable y → ¬ Clean r y →
        ∃ e z, windsDown e = true ∧ (counted r).step y e = some z ∧ (counted r).Reachable z ∧
          countedWork r z < countedWork r y := by
      rintro y ⟨fs, hy⟩ hn
      obtain ⟨e, z, he, hz⟩ := progress hr hy hn
      have hle := countedWork_step hy hz
      rw [gain, he, Bool.toNat_true, Bool.not_true, Bool.toNat_false] at hle
      exact ⟨e, z, he, hz, ⟨_, hy.snoc hz⟩, by omega⟩
    refine ⟨?_, fun hn => ?_⟩
    · obtain ⟨fs, y, hfs, hy, -, hclean⟩ := Machine.finishes (countedWork r) hpr ⟨es, h⟩
      refine ⟨fs, y, hfs, hy, ?_, hclean⟩
      have hw := (Machine.exec_work (I := (counted r).Reachable) (countedWork r) gain windsDown
        ?_ ⟨es, h⟩ hy).2
      · have hg : (fs.map gain).sum = 0 := by
          apply List.sum_eq_zero
          intro k hk
          obtain ⟨e, he, rfl⟩ := List.mem_map.mp hk
          rw [gain, hfs e he]
          rfl
        rw [List.countP_eq_length.mpr hfs, hg] at hw
        omega
      · rintro u e v ⟨gs, hu⟩ he
        exact ⟨⟨_, hu.snoc he⟩, countedWork_step hu he⟩
    · by_contra hx
      obtain ⟨e, y, he, hy⟩ := progress hr h hx
      rw [hn e he] at hy
      cases hy

theorem working_exits : ∃ fs, ∃ y : Counted ℕ, (∀ e ∈ fs, windsDown e = true) ∧
    (counted working).exec .start fs = some y ∧ fs.length ≤ 9 ∧ Clean working y :=
  (((clean_exit_iff ℕ working).mpr (Or.inr ⟨rfl, rfl⟩)) [] .start rfl).1

end QyCefVS.CleanExit
