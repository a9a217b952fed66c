import Mathlib.Algebra.BigOperators.Group.List.Basic
import QyCefVS.Library.Progress

/-! `CefRefCount` shared by threads. A thread that holds a reference may copy it, hand it to another
thread or release it; the release that brings the 32-bit count to zero leaves the object to
`Destruct`, which with `CefDeleteOnThread` posts itself to the thread where the object must die.
Nobody looks at what `CefPostTask` returns, and a loop that has ended runs no task. -/

namespace QyCefVS.ThreadedRelease

open Transitions

def atomicRefCountInc (n : BitVec 32) : BitVec 32 := n + 1

def atomicRefCountDec (n : BitVec 32) : BitVec 32 × Bool := (n - 1, n - 1 != 0)

def hasOneRef (n : BitVec 32) : Bool := n == 1

/-- `destructing` are the threads inside `Destruct`, `tasks` the posted calls of it, which wait for
the message loop of their thread while that is `looping`, and `lost` those that were not posted. -/
structure Shared (τ : Type) where
  refCount : BitVec 32
  holders : List τ
  destructing : List τ
  tasks : ℕ
  lost : ℕ
  looping : Bool
  deletedBy : List τ
  deriving DecidableEq

/-- `posted` is the result of `CefPostTask` if `Destruct` calls it. -/
inductive Action (τ : Type)
  | addRef (t : τ)
  | hand (t u : τ)
  | release (t : τ)
  | destruct (t : τ) (posted : Bool)
  | runTask
  | stopLoop
  deriving DecidableEq

variable {τ : Type}

/-- `thread` is the argument of `CefDeleteOnThread`; `IMPLEMENT_REFCOUNTING` deletes anywhere. -/
def mayDelete [DecidableEq τ] (thread : Option τ) (t : τ) : Bool := thread.all (· = t)

namespace Shared

def start (t : τ) : Shared τ := ⟨1, [t], [], 0, 0, true, []⟩

variable [DecidableEq τ]

def step (thread : Option τ) (s : Shared τ) : Action τ → Option (Shared τ)
  | .addRef t =>
    if t ∈ s.holders then
      some { s with refCount := atomicRefCountInc s.refCount, holders := t :: s.holders }
    else none
  | .hand t u =>
    if t ∈ s.holders then some { s with holders := u :: s.holders.erase t } else none
  | .release t =>
    if t ∈ s.holders then
      let (n, nonZero) := atomicRefCountDec s.refCount
      some { s with
        refCount := n
        holders := s.holders.erase t
        destructing := if nonZero then s.destructing else t :: s.destructing }
    else none
  | .destruct t posted =>
    if t ∈ s.destructing then
      if mayDelete thread t then
        some { s with
          destructing := s.destructing.erase t
          deletedBy := s.deletedBy ++ [t] }
      else if posted then
        some { s with destructing := s.destructing.erase t, tasks := s.tasks + 1 }
      else some { s with destructing := s.destructing.erase t, lost := s.lost + 1 }
    else none
  | .runTask =>
    thread.bind fun t =>
      if s.looping ∧ 0 < s.tasks then
        some { s with tasks := s.tasks - 1, destructing := t :: s.destructing }
      else none
  | .stopLoop => if s.looping then some { s with looping := false } else none

end Shared

variable [DecidableEq τ]

def shared (thread : Option τ) (t : τ) : Machine (Shared τ) (Action τ) :=
  ⟨.start t, Shared.step thread⟩

variable {thread : Option τ} {t₀ : τ} {es fs : List (Action τ)} {s s' : Shared τ} {e : Action τ}

def Fits (s : Shared τ) : Prop := s.holders.length ≤ 2 ^ 32

structure Phase (thread : Option τ) (s : Shared τ) : Prop where
  counted : s.refCount = BitVec.ofNat 32 s.holders.length
  alive : s.holders ≠ [] → s.destructing = [] ∧ s.tasks = 0 ∧ s.lost = 0 ∧ s.deletedBy = []
  ending : s.holders = [] → s.destructing.length + s.tasks + s.lost + s.deletedBy.length = 1
  posted : s.tasks ≠ 0 → thread ≠ none
  place : ∀ t ∈ s.deletedBy, mayDelete thread t = true

lemma inc_ofNat (n : ℕ) : atomicRefCountInc (BitVec.ofNat 32 n) = BitVec.ofNat 32 (n + 1) := by
  simp [atomicRefCountInc, BitVec.ofNat_add]

lemma dec_ofNat (n : ℕ) :
    (atomicRefCountDec (BitVec.ofNat 32 (n + 1))).1 = BitVec.ofNat 32 n := by
  rw [atomicRefCountDec, BitVec.ofNat_add]
  exact BitVec.add_sub_cancel _ _

lemma ofNat_eq_zero {n : ℕ} (h : n < 2 ^ 32) : BitVec.ofNat 32 n = 0 ↔ n = 0 := by
  constructor
  · intro h0
    have ht := congrArg BitVec.toNat h0
    rw [BitVec.toNat_ofNat, Nat.mod_eq_of_lt h] at ht
    exact ht
  · rintro rfl
    rfl

lemma dec_nonZero {n : ℕ} (h : n < 2 ^ 32) :
    (atomicRefCountDec (BitVec.ofNat 32 (n + 1))).2 = true ↔ n ≠ 0 := by
  have hd := dec_ofNat n
  simp only [atomicRefCountDec] at hd ⊢
  rw [hd, bne_iff_ne, Ne, ofNat_eq_zero h]

lemma hasOneRef_ofNat {n : ℕ} (h : n ≤ 2 ^ 32) : hasOneRef (BitVec.ofNat 32 n) = true ↔ n = 1 := by
  cases n with
  | zero => decide
  | succ n =>
    have hd := dec_ofNat n
    simp only [atomicRefCountDec] at hd
    rw [hasOneRef, beq_iff_eq, Nat.succ_inj, ← ofNat_eq_zero h, ← hd]
    constructor
    · intro h1
      rw [h1]
      rfl
    · intro h0
      rw [← BitVec.sub_add_cancel (BitVec.ofNat 32 (n + 1)) 1, h0]
      rfl

section Inversion

variable {t u : τ} {posted : Bool}

lemma step_addRef (he : s.step thread (.addRef t) = some s') :
    t ∈ s.holders ∧
      s' = { s with refCount := atomicRefCountInc s.refCount, holders := t :: s.holders } := by
  rw [Shared.step, Option.ite_none_right_eq_some, Option.some_inj] at he
  exact ⟨he.1, he.2.symm⟩

lemma step_hand (he : s.step thread (.hand t u) = some s') :
    t ∈ s.holders ∧ s' = { s with holders := u :: s.holders.erase t } := by
  rw [Shared.step, Option.ite_none_right_eq_some, Option.some_inj] at he
  exact ⟨he.1, he.2.symm⟩

lemma step_release (he : s.step thread (.release t) = some s') :
    t ∈ s.holders ∧ s' = { s with
      refCount := (atomicRefCountDec s.refCount).1
      holders := s.holders.erase t
      destructing :=
        if (atomicRefCountDec s.refCount).2 then s.destructing else t :: s.destructing } := by
  rw [Shared.step, Option.ite_none_right_eq_some, Option.some_inj] at he
  exact ⟨he.1, he.2.symm⟩

lemma step_destruct (he : s.step thread (.destruct t posted) = some s') :
    t ∈ s.destructing ∧
      (mayDelete thread t = true ∧
        s' = { s with destructing := s.destructing.erase t, deletedBy := s.deletedBy ++ [t] } ∨
      mayDelete thread t = false ∧ posted = true ∧
        s' = { s with destructing := s.destructing.erase t, tasks := s.tasks + 1 } ∨
      mayDelete thread t = false ∧ posted = false ∧
        s' = { s with destructing := s.destructing.erase t, lost := s.lost + 1 }) := by
  rw [Shared.step, Option.ite_none_right_eq_some] at he
  refine ⟨he.1, ?_⟩
  cases hm : mayDelete thread t
  · cases posted
    · simpa [hm, eq_comm] using he.2
    · simpa [hm, eq_comm] using he.2
  · simpa [hm, eq_comm] using he.2

lemma step_runTask (he : s.step thread .runTask = some s') :
    ∃ t, thread = some t ∧ s.looping = true ∧ 0 < s.tasks ∧
      s' = { s with tasks := s.tasks - 1, destructing := t :: s.destructing } := by
  obtain ⟨t, ht, he⟩ := Option.bind_eq_some_iff.mp he
  rw [Option.ite_none_right_eq_some, Option.some_inj] at he
  exact ⟨t, ht, he.1.1, he.1.2, he.2.symm⟩

lemma step_stopLoop (he : s.step thread .stopLoop = some s') :
    s.looping = true ∧ s' = { s with looping := false } := by
  rw [Shared.step, Option.ite_none_right_eq_some, Option.some_inj] at he
  exact ⟨he.1, he.2.symm⟩

end Inversion

lemma phase_start : Phase thread (.start t₀) :=
  ⟨rfl, by simp [Shared.start], by simp [Shared.start], by simp [Shared.start],
    by simp [Shared.start]⟩

lemma phase_step (hf : Fits s) (h : Phase thread s) (he : s.step thread e = some s') :
    Phase thread s' := by
  obtain ⟨hc, ha, hz, hn, hp⟩ := h
  cases e with
  | addRef t =>
    obtain ⟨ht, rfl⟩ := step_addRef he
    refine ⟨?_, fun _ => ha (List.ne_nil_of_mem ht), by simp, hn, hp⟩
    simp [hc, inc_ofNat]
  | hand t u =>
    obtain ⟨ht, rfl⟩ := step_hand he
    refine ⟨?_, fun _ => ha (List.ne_nil_of_mem ht), by simp, hn, hp⟩
    simp [hc, List.length_erase_add_one ht]
  | release t =>
    obtain ⟨ht, rfl⟩ := step_release he
    obtain ⟨hd, htasks, hlost, hdel⟩ := ha (List.ne_nil_of_mem ht)
    have hl := List.length_erase_add_one ht
    have hlt : (s.holders.erase t).length < 2 ^ 32 := Nat.le_trans (Nat.le_of_eq hl) hf
    have hnz : (atomicRefCountDec s.refCount).2 = true ↔ s.holders.erase t ≠ [] := by
      rw [hc, ← hl, dec_nonZero hlt, Ne, List.length_eq_zero_iff]
    refine ⟨?_, fun hne => ?_, fun hnil => ?_, hn, hp⟩
    · rw [hc, ← hl, dec_ofNat]
    · rw [if_pos (hnz.mpr hne)]
      exact ⟨hd, htasks, hlost, hdel⟩
    · rw [if_neg fun h => hnz.mp h hnil, hd, htasks, hlost, hdel]
      rfl
  | destruct t posted =>
    obtain ⟨ht, he⟩ := step_destruct he
    have hl := List.length_erase_add_one ht
    have hnil : s.holders = [] := by
      by_contra hne
      simp [(ha hne).1] at ht
    have hone := hz hnil
    rcases he with ⟨hm, rfl⟩ | ⟨hm, -, rfl⟩ | ⟨-, -, rfl⟩
    · refine ⟨hc, fun hne => absurd hnil hne, fun _ => ?_, hn, ?_⟩
      · simp only [List.length_append, List.length_singleton]
        omega
      · exact List.forall_mem_append.mpr ⟨hp, List.forall_mem_singleton.mpr hm⟩
    · refine ⟨hc, fun hne => absurd hnil hne, fun _ => ?_, ?_, hp⟩
      · simp only
        omega
      · rintro - rfl
        cases hm
    · refine ⟨hc, fun hne => absurd hnil hne, fun _ => ?_, hn, hp⟩
      simp only
      omega
  | runTask =>
    obtain ⟨t, rfl, -, ht, rfl⟩ := step_runTask he
    have hnil : s.holders = [] := by
      by_contra hne
      exact Nat.ne_of_gt ht (ha hne).2.1
    have hone := hz hnil
    refine ⟨hc, fun hne => absurd hnil hne, fun _ => ?_, by simp, hp⟩
    simp only [List.length_cons]
    omega
  | stopLoop =>
    obtain ⟨-, rfl⟩ := step_stopLoop he
    exact ⟨hc, ha, hz, hn, hp⟩

lemma phase_of_run (hf : (shared thread t₀).Always es Fits) (h : (shared thread t₀).Runs es s) :
    Phase thread s := by
  revert hf
  apply h.induct (P := fun es s => (shared thread t₀).Always es Fits → Phase thread s)
  · intro _
    exact phase_start
  · intro es e s s' hr ih he hf
    have ha := (Machine.always_snoc (hr.snoc he)).mp hf
    exact phase_step (ha.1.last hr) (ih ha.1) he

lemma holders_step (he : s.step thread e = some s') :
    s'.holders.length ≤ s.holders.length + 1 := by
  cases e with
  | addRef t =>
    obtain ⟨_, rfl⟩ := step_addRef he
    exact Nat.le_refl _
  | hand t u =>
    obtain ⟨ht, rfl⟩ := step_hand he
    exact Nat.le_succ_of_le (Nat.le_of_eq (List.length_erase_add_one ht))
  | release t =>
    obtain ⟨ht, rfl⟩ := step_release he
    exact Nat.le_succ_of_le List.length_erase_le
  | destruct t posted =>
    obtain ⟨_, ⟨_, rfl⟩ | ⟨_, _, rfl⟩ | ⟨_, _, rfl⟩⟩ := step_destruct he
    · exact Nat.le_succ _
    · exact Nat.le_succ _
    · exact Nat.le_succ _
  | runTask =>
    obtain ⟨_, _, _, _, rfl⟩ := step_runTask he
    exact Nat.le_succ _
  | stopLoop =>
    obtain ⟨_, rfl⟩ := step_stopLoop he
    exact Nat.le_succ _

lemma holders_le (h : (shared thread t₀).Runs es s) : s.holders.length ≤ es.length + 1 := by
  apply h.induct (P := fun es s => s.holders.length ≤ es.length + 1)
  · exact Nat.le_refl 1
  · intro es e s s' _ ih he
    rw [List.length_append, List.length_singleton]
    exact Nat.le_trans (holders_step he) (Nat.succ_le_succ ih)

lemma short_fits (hl : es.length < 2 ^ 32) : (shared thread t₀).Always es Fits := by
  intro pre s hp hr
  exact Nat.le_trans (holders_le hr) (Nat.le_trans (Nat.succ_le_succ hp.length_le) hl)

theorem interleaving_safe (thread : Option τ) (t₀ : τ) (es : List (Action τ)) (s : Shared τ)
    (hf : (shared thread t₀).Always es Fits) (h : (shared thread t₀).Runs es s) :
    s.refCount = BitVec.ofNat 32 s.holders.length ∧
    (s.holders ≠ [] → s.destructing = [] ∧ s.tasks = 0 ∧ s.deletedBy = []) ∧
    (∀ t ∈ s.holders, hasOneRef s.refCount = true ↔ s.holders = [t]) ∧
    s.deletedBy.length ≤ 1 ∧ ∀ t ∈ s.deletedBy, mayDelete thread t = true := by
  have hph := phase_of_run hf h
  have halive : s.holders ≠ [] → s.destructing = [] ∧ s.tasks = 0 ∧ s.deletedBy = [] := by
    intro hne
    obtain ⟨hd, htasks, -, hdel⟩ := hph.alive hne
    exact ⟨hd, htasks, hdel⟩
  refine ⟨hph.counted, halive, fun t ht => ?_, ?_, hph.place⟩
  · rw [hph.counted, hasOneRef_ofNat (hf.last h)]
    constructor
    · intro h1
      obtain ⟨u, hu⟩ := List.length_eq_one_iff.mp h1
      rw [hu, List.mem_singleton] at ht
      rw [hu, ht]
    · intro h1
      rw [h1]
      rfl
  · by_cases hs : s.holders = []
    · have := hph.ending hs
      omega
    · simp [(halive hs).2.2]

def passed : List (Action ℕ) := [.addRef 0, .hand 0 1, .release 0]

theorem passed_safe : ∃ s : Shared ℕ, (shared (some 0) 0).Runs passed s ∧ s.holders = [1] ∧
    s.destructing = [] ∧ s.deletedBy = [] ∧ hasOneRef s.refCount = true := by
  have h : (shared (some 0) 0).Runs passed _ := rfl
  obtain ⟨_, ha, hone, _, _⟩ := interleaving_safe _ _ _ _ (short_fits (by decide)) h
  obtain ⟨hd, _, hdel⟩ := ha (by simp)
  exact ⟨_, h, rfl, hd, hdel, (hone 1 (by simp)).mpr rfl⟩

def stepsLeft (thread : Option τ) (s : Shared τ) : ℕ :=
  (s.destructing.map fun t => if mayDelete thread t then 1 else 3).sum + 2 * s.tasks +
    if s.looping then 1 else 0

lemma stepsLeft_le (h : Phase thread s) (hs : s.holders = []) : stepsLeft thread s ≤ 4 := by
  have hone := h.ending hs
  rw [stepsLeft]
  match hd : s.destructing with
  | [] =>
    simp only [hd, List.length_nil] at hone
    simp only [List.map_nil, List.sum_nil]
    split <;> omega
  | [t] =>
    simp only [hd, List.length_singleton] at hone
    simp only [List.map_cons, List.map_nil, List.sum_cons, List.sum_nil]
    split <;> split <;> omega
  | t :: u :: l =>
    simp only [hd, List.length_cons] at hone
    omega

lemma stepsLeft_step (hs : s.holders = []) (he : s.step thread e = some s') :
    s'.holders = [] ∧ stepsLeft thread s' + 1 ≤ stepsLeft thread s := by
  cases e with
  | addRef t =>
    have ht := (step_addRef he).1
    simp [hs] at ht
  | hand t u =>
    have ht := (step_hand he).1
    simp [hs] at ht
  | release t =>
    have ht := (step_release he).1
    simp [hs] at ht
  | destruct t posted =>
    obtain ⟨ht, he⟩ := step_destruct he
    have hsum := List.sum_map_erase (fun t => if mayDelete thread t then 1 else 3) ht
    rcases he with ⟨hm, rfl⟩ | ⟨hm, -, rfl⟩ | ⟨hm, -, rfl⟩
    · refine ⟨hs, ?_⟩
      simp only [hm, if_true] at hsum
      simp only [stepsLeft]
      omega
    all_goals
      refine ⟨hs, ?_⟩
      simp only [hm, Bool.false_eq_true, if_false] at hsum
      simp only [stepsLeft]
      omega
  | runTask =>
    obtain ⟨t, rfl, -, ht, rfl⟩ := step_runTask he
    have hm : mayDelete (some t) t = true := by simp [mayDelete]
    refine ⟨hs, ?_⟩
    simp only [stepsLeft, List.map_cons, List.sum_cons, hm, if_true]
    omega
  | stopLoop =>
    obtain ⟨hl, rfl⟩ := step_stopLoop he
    refine ⟨hs, ?_⟩
    simp only [stepsLeft, hl, Bool.false_eq_true, if_false, if_true]
    omega

def Delivered (thread : Option τ) (s : Shared τ) : Action τ → Prop
  | .destruct t posted => mayDelete thread t = true ∨ posted = true ∧ s.looping = true
  | .stopLoop => s.tasks = 0
  | .addRef _ | .hand _ _ | .release _ | .runTask => True

structure Awaited (s : Shared τ) : Prop where
  kept : s.lost = 0
  waited : s.tasks ≠ 0 → s.looping = true

lemma awaited_step (h : Awaited s) (he : s.step thread e = some s') :
    Awaited s' ↔ Delivered thread s e := by
  obtain ⟨hk, hw⟩ := h
  cases e with
  | addRef t =>
    obtain ⟨-, rfl⟩ := step_addRef he
    exact iff_of_true ⟨hk, hw⟩ trivial
  | hand t u =>
    obtain ⟨-, rfl⟩ := step_hand he
    exact iff_of_true ⟨hk, hw⟩ trivial
  | release t =>
    obtain ⟨-, rfl⟩ := step_release he
    exact iff_of_true ⟨hk, hw⟩ trivial
  | destruct t posted =>
    obtain ⟨-, ⟨hm, rfl⟩ | ⟨hm, rfl, rfl⟩ | ⟨hm, rfl, rfl⟩⟩ := step_destruct he
    · exact iff_of_true ⟨hk, hw⟩ (Or.inl hm)
    · simp only [Delivered, hm, Bool.false_eq_true, false_or, true_and]
      exact ⟨fun h => h.waited (Nat.succ_ne_zero _), fun hl => ⟨hk, fun _ => hl⟩⟩
    · refine iff_of_false (fun h => Nat.succ_ne_zero _ h.kept) ?_
      simp [Delivered, hm]
  | runTask =>
    obtain ⟨t, -, hl, -, rfl⟩ := step_runTask he
    exact iff_of_true ⟨hk, fun _ => hl⟩ trivial
  | stopLoop =>
    obtain ⟨-, rfl⟩ := step_stopLoop he
    constructor
    · intro h
      by_contra hn
      cases h.waited hn
    · exact fun h0 => ⟨hk, fun hn => absurd h0 hn⟩

lemma awaited_of_step (h : Awaited s') (he : s.step thread e = some s') : Awaited s := by
  cases e with
  | addRef t =>
    obtain ⟨-, rfl⟩ := step_addRef he
    exact ⟨h.kept, h.waited⟩
  | hand t u =>
    obtain ⟨-, rfl⟩ := step_hand he
    exact ⟨h.kept, h.waited⟩
  | release t =>
    obtain ⟨-, rfl⟩ := step_release he
    exact ⟨h.kept, h.waited⟩
  | destruct t posted =>
    obtain ⟨-, ⟨-, rfl⟩ | ⟨-, -, rfl⟩ | ⟨-, -, rfl⟩⟩ := step_destruct he
    · exact ⟨h.kept, h.waited⟩
    · exact ⟨h.kept, fun _ => h.waited (Nat.succ_ne_zero _)⟩
    · exact absurd h.kept (Nat.succ_ne_zero _)
  | runTask =>
    obtain ⟨t, -, hl, -, rfl⟩ := step_runTask he
    exact ⟨h.kept, fun _ => hl⟩
  | stopLoop =>
    obtain ⟨hl, rfl⟩ := step_stopLoop he
    exact ⟨h.kept, fun _ => hl⟩

lemma awaited_iff (h : (shared thread t₀).Runs es s) :
    Awaited s ↔ (shared thread t₀).EachStep es (Delivered thread) := by
  apply Machine.Runs.last_iff_eachStep ⟨rfl, fun h => absurd rfl h⟩ _ _ h
  · exact fun _ _ _ ht he => awaited_of_step ht he
  · exact fun _ _ _ hs he => awaited_step hs he

lemma stuck_iff (h : Phase thread s) (hs : s.holders = []) (hw : Awaited s) :
    (∀ e, e ≠ .stopLoop → s.step thread e = none) ↔ ∃ t, s.deletedBy = [t] := by
  have hone := h.ending hs
  rw [hw.kept] at hone
  constructor
  · intro hst
    have hd : s.destructing = [] := by
      rw [List.eq_nil_iff_forall_not_mem]
      intro t ht
      have := hst (.destruct t true) (by simp)
      simp only [Shared.step, if_pos ht] at this
      split at this <;> cases this
    have htasks : s.tasks = 0 := by
      by_contra hn
      obtain ⟨t, rfl⟩ := Option.ne_none_iff_exists'.mp (h.posted hn)
      have := hst .runTask (by simp)
      have hgo : s.looping = true ∧ 0 < s.tasks := ⟨hw.waited hn, Nat.pos_of_ne_zero hn⟩
      simp only [Shared.step, Option.bind_some, if_pos hgo] at this
      cases this
    rw [hd, htasks, List.length_nil, Nat.zero_add] at hone
    exact List.length_eq_one_iff.mp hone
  · rintro ⟨t, ht⟩ e he
    rw [ht, List.length_singleton] at hone
    have hd : s.destructing = [] := List.length_eq_zero_iff.mp (by omega)
    have htasks : s.tasks = 0 := by omega
    cases e with
    | stopLoop => exact absurd rfl he
    | runTask => simp [Shared.step, htasks]
    | addRef t | hand t u | release t | destruct t posted => simp [Shared.step, hs, hd]

lemma ending_step (s : Shared τ) (e : Action τ) (s' : Shared τ)
    (h : Phase thread s ∧ s.holders = []) (he : s.step thread e = some s') :
    (Phase thread s' ∧ s'.holders = []) ∧ stepsLeft thread s' + 1 ≤ stepsLeft thread s := by
  obtain ⟨hph, hs⟩ := h
  obtain ⟨hs', hle⟩ := stepsLeft_step hs he
  refine ⟨⟨phase_step ?_ hph he, hs'⟩, hle⟩
  simp [Fits, hs]

/-- Nobody else can delete the object, so that a `Destruct` that is not delivered loses it. -/
theorem deletion_follows (thread : Option τ) (t₀ : τ) (es fs : List (Action τ)) (s s' : Shared τ)
    (hf : (shared thread t₀).Always es Fits) (h : (shared thread t₀).Runs es s)
    (hs : s.holders = []) (hx : (shared thread t₀).exec s fs = some s') :
    fs.length ≤ 4 ∧ ((∃ t, s'.deletedBy = [t]) ↔
      (∀ e, e ≠ .stopLoop → s'.step thread e = none) ∧
        (shared thread t₀).EachStep (es ++ fs) (Delivered thread)) := by
  have hph := phase_of_run hf h
  obtain ⟨⟨hph', hs'⟩, hle⟩ := Machine.exec_work (I := fun s => Phase thread s ∧ s.holders = [])
    (stepsLeft thread) (fun _ => 0) (fun _ => true) ending_step ⟨hph, hs⟩ hx
  have h4 := stepsLeft_le hph hs
  have hr : (shared thread t₀).Runs (es ++ fs) s' := h.append hx
  refine ⟨?_, ?_⟩
  · simp only [List.countP_true, List.map_const', List.sum_replicate_nat, Nat.mul_zero] at hle
    omega
  · rw [← awaited_iff hr]
    constructor
    · rintro ⟨t, ht⟩
      have hone := hph'.ending hs'
      rw [ht, List.length_singleton] at hone
      have hw : Awaited s' := ⟨by omega, fun hn => absurd (show s'.tasks = 0 by omega) hn⟩
      exact ⟨(stuck_iff hph' hs' hw).mpr ⟨t, ht⟩, hw⟩
    · rintro ⟨hst, hw⟩
      exact (stuck_iff hph' hs' hw).mp hst

def lastSteps : List (Action ℕ) := [.destruct 1 true, .runTask, .stopLoop, .destruct 0 true]

theorem passed_deleted : ∃ s' : Shared ℕ,
    (shared (some 0) 0).Runs (passed ++ [.release 1] ++ lastSteps) s' ∧ s'.deletedBy = [0] ∧
      (shared (some 0) 0).EachStep (passed ++ [.release 1] ++ lastSteps) (Delivered (some 0)) := by
  have h : (shared (some 0) 0).Runs (passed ++ [.release 1]) _ := rfl
  have hx : (shared (some 0) 0).exec ⟨0, [], [1], 0, 0, true, []⟩ lastSteps = some _ := rfl
  have hd := deletion_follows _ _ _ _ _ _ (short_fits (by decide)) h rfl hx
  exact ⟨_, rfl, rfl, (hd.2.mp ⟨0, rfl⟩).2⟩

def cloned (t : τ) (k : ℕ) : Shared τ :=
  ⟨BitVec.ofNat 32 (k + 1), List.replicate (k + 1) t, [], 0, 0, true, []⟩

lemma clones (thread : Option τ) (t : τ) (k : ℕ) :
    (shared thread t).Runs (List.replicate k (.addRef t)) (cloned t k) ∧
    (shared thread t).Always (List.replicate k (.addRef t)) fun s => s.holders.length ≤ k + 1 := by
  induction k with
  | zero =>
    refine ⟨rfl, fun pre s hp hr => ?_⟩
    obtain rfl := List.prefix_nil.mp hp
    obtain rfl := Machine.runs_nil_iff.mp hr
    exact Nat.le_refl 1
  | succ k ih =>
    have hstep : (shared thread t).step (cloned t k) (.addRef t) = some (cloned t (k + 1)) := by
      simp only [shared, Shared.step]
      rw [if_pos (by simp [cloned]), cloned, cloned, inc_ofNat, List.replicate_succ (n := k + 1)]
    have hr := ih.1.snoc hstep
    rw [List.replicate_succ']
    refine ⟨hr, (Machine.always_snoc hr).mpr ⟨fun pre s hp hs => ?_, by simp [cloned]⟩⟩
    exact Nat.le_succ_of_le (ih.2 pre s hp hs)

/-- The count is back at one, so the first release destroys what `2 ^ 32` references still hold. -/
lemma overflow (thread : Option τ) (t : τ) :
    ∃ es, ∃ s : Shared τ, (shared thread t).Runs es s ∧
      (shared thread t).Always es (fun s => s.holders.length ≤ 2 ^ 32 + 1) ∧
      s.holders ≠ [] ∧ s.destructing = [t] := by
  obtain ⟨k, hk⟩ : ∃ k, k = 2 ^ 32 := exists_eq
  obtain ⟨hr, ha⟩ := clones thread t k
  have hcount : BitVec.ofNat 32 (k + 1) = 1 := by
    rw [hk]
    decide
  have hstep : (shared thread t).step (cloned t k) (.release t) =
      some ⟨0, List.replicate k t, [t], 0, 0, true, []⟩ := by
    simp only [shared, Shared.step, cloned, hcount]
    rw [if_pos (by simp), List.replicate_succ, List.erase_cons_head]
    rfl
  rw [← hk]
  refine ⟨_, _, hr.snoc hstep, (Machine.always_snoc (hr.snoc hstep)).mpr ⟨ha, ?_⟩, ?_, rfl⟩
  · simp
  · rw [Ne, List.replicate_eq_nil_iff, hk]
    decide

theorem capacity_exact (thread : Option τ) (t₀ : τ) (n : ℕ) :
    (∀ es, ∀ s : Shared τ, (shared thread t₀).Runs es s →
      (shared thread t₀).Always es (fun s => s.holders.length ≤ n) → s.holders ≠ [] →
      s.destructing = [] ∧ s.tasks = 0 ∧ s.deletedBy = []) ↔ n ≤ 2 ^ 32 := by
  constructor
  · intro hall
    by_contra hn
    obtain ⟨es, s, hr, ha, hne, hd⟩ := overflow thread t₀
    have hn : 2 ^ 32 + 1 ≤ n := by omega
    have hnil := (hall es s hr (fun pre u hp hu => Nat.le_trans (ha pre u hp hu) hn) hne).1
    rw [hnil] at hd
    cases hd
  · intro hn es s hr ha hne
    have hph := phase_of_run (fun pre u hp hu => Nat.le_trans (ha pre u hp hu) hn) hr
    exact ⟨(hph.alive hne).1, (hph.alive hne).2.1, (hph.alive hne).2.2.2⟩

end QyCefVS.ThreadedRelease
