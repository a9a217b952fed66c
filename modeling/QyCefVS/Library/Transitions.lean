import Mathlib.Data.List.Induction
import Mathlib.Logic.Relation
import Mathlib.Tactic.Common

/-! Machines that take one event at a time and refuse the events their guard excludes.
A run is the list of the events taken; every rule below is an induction on its last event. -/

namespace Transitions

variable {σ τ ε δ : Type*}

lemma filterMap_snoc (f : ε → Option δ) (es : List ε) (e : ε) :
    (es ++ [e]).filterMap f = es.filterMap f ++ (f e).toList := by
  cases hf : f e <;> simp [hf]

structure Machine (σ ε : Type*) where
  init : σ
  step : σ → ε → Option σ

namespace Machine

variable (M : Machine σ ε) (N : Machine τ δ)

def exec (s : σ) (es : List ε) : Option σ := es.foldlM M.step s

def Runs (es : List ε) (s : σ) : Prop := M.exec M.init es = some s

instance [DecidableEq σ] (es : List ε) (s : σ) : Decidable (M.Runs es s) :=
  inferInstanceAs (Decidable (_ = _))

@[simp] lemma exec_nil (s : σ) : M.exec s [] = some s := rfl

@[simp] lemma exec_cons (s : σ) (e : ε) (es : List ε) :
    M.exec s (e :: es) = (M.step s e).bind fun t => M.exec t es := rfl

lemma exec_append (s : σ) (es fs : List ε) :
    M.exec s (es ++ fs) = (M.exec s es).bind fun t => M.exec t fs := by
  induction es generalizing s with
  | nil => rfl
  | cons e es ih =>
    rw [List.cons_append, exec_cons, exec_cons, Option.bind_assoc]
    congr 1
    funext t
    exact ih t

lemma exec_snoc (s t : σ) (es : List ε) (e : ε) :
    M.exec s (es ++ [e]) = some t ↔ ∃ u, M.exec s es = some u ∧ M.step u e = some t := by
  simp [exec_append, Option.bind_eq_some_iff]

variable {M N}

lemma runs_nil : M.Runs [] M.init := rfl

lemma runs_nil_iff {s : σ} : M.Runs [] s ↔ s = M.init := by
  simp [Runs, eq_comm]

lemma runs_snoc {es : List ε} {e : ε} {t : σ} :
    M.Runs (es ++ [e]) t ↔ ∃ s, M.Runs es s ∧ M.step s e = some t :=
  M.exec_snoc M.init t es e

lemma Runs.snoc {es : List ε} {e : ε} {s t : σ} (h : M.Runs es s) (he : M.step s e = some t) :
    M.Runs (es ++ [e]) t :=
  runs_snoc.mpr ⟨s, h, he⟩

lemma Runs.append {es fs : List ε} {s t : σ} (h : M.Runs es s) (hf : M.exec s fs = some t) :
    M.Runs (es ++ fs) t := by
  rw [Runs, exec_append, h]
  exact hf

lemma Runs.unique {es : List ε} {s t : σ} (hs : M.Runs es s) (ht : M.Runs es t) : s = t :=
  Option.some.inj (hs.symm.trans ht)

lemma Runs.split {es fs : List ε} {t : σ} (h : M.Runs (es ++ fs) t) :
    ∃ s, M.Runs es s ∧ M.exec s fs = some t := by
  rw [Runs, exec_append, Option.bind_eq_some_iff] at h
  exact h

theorem Runs.induct {P : List ε → σ → Prop} (hi : P [] M.init)
    (hs : ∀ es e s t, M.Runs es s → P es s → M.step s e = some t → P (es ++ [e]) t)
    {es : List ε} {s : σ} (h : M.Runs es s) : P es s := by
  induction es using List.reverseRecOn generalizing s with
  | nil =>
    obtain rfl := runs_nil_iff.mp h
    exact hi
  | append_singleton es e ih =>
    obtain ⟨u, hu, he⟩ := runs_snoc.mp h
    exact hs es e u s hu (ih hu) he

theorem Runs.invariant {I : σ → Prop} (hi : I M.init)
    (hs : ∀ s e t, I s → M.step s e = some t → I t)
    {es : List ε} {s : σ} (h : M.Runs es s) : I s :=
  h.induct (P := fun _ s => I s) hi fun _ e s t _ ih he => hs s e t ih he

theorem Runs.simulates {R : σ → τ → Prop} (image : ε → Option δ) (hi : R M.init N.init)
    (hs : ∀ es e s s' t, M.Runs es s → R s t → M.step s e = some s' →
      ∃ t', N.exec t (image e).toList = some t' ∧ R s' t')
    {es : List ε} {s : σ} (h : M.Runs es s) :
    ∃ t, N.Runs (es.filterMap image) t ∧ R s t := by
  apply h.induct (P := fun es s => ∃ t, N.Runs (es.filterMap image) t ∧ R s t)
  · exact ⟨N.init, runs_nil, hi⟩
  · rintro es e s s' hr ⟨t, ht, hst⟩ he
    obtain ⟨t', ht', hst'⟩ := hs es e s s' t hr hst he
    refine ⟨t', ?_, hst'⟩
    exact filterMap_snoc image es e ▸ ht.append ht'

theorem Runs.projects (part : σ → τ) (image : ε → Option δ) (hi : part M.init = N.init)
    (hs : ∀ s e s', M.step s e = some s' →
      N.exec (part s) (image e).toList = some (part s'))
    {es : List ε} {s : σ} (h : M.Runs es s) : N.Runs (es.filterMap image) (part s) := by
  have hsim := h.simulates (N := N) (R := fun s t => part s = t) image hi ?_
  · obtain ⟨t, ht, rfl⟩ := hsim
    exact ht
  · rintro es e s s' t - rfl he
    exact ⟨part s', hs s e s' he, rfl⟩

theorem Runs.refines {R : τ → τ → Prop} (α : σ → τ)
    (hs : ∀ es e s t, M.Runs es s → M.step s e = some t →
      Relation.ReflTransGen R (α s) (α t))
    {es : List ε} {s : σ} (h : M.Runs es s) :
    Relation.ReflTransGen R (α M.init) (α s) :=
  h.induct (P := fun _ s => Relation.ReflTransGen R (α M.init) (α s)) .refl
    fun es e s t hr ih he => ih.trans (hs es e s t hr he)

def restrict (M : Machine σ ε) (A : ε → Bool) : Machine σ ε :=
  ⟨M.init, fun s e => if A e then M.step s e else none⟩

lemma restrict_step {A : ε → Bool} {s t : σ} {e : ε} :
    (M.restrict A).step s e = some t ↔ A e = true ∧ M.step s e = some t :=
  Option.ite_none_right_eq_some

theorem runs_restrict {A : ε → Bool} {es : List ε} {s : σ} :
    (M.restrict A).Runs es s ↔ M.Runs es s ∧ ∀ e ∈ es, A e = true := by
  induction es using List.reverseRecOn generalizing s with
  | nil => simp [runs_nil_iff, restrict]
  | append_singleton es e ih =>
    simp only [runs_snoc, restrict_step, ih, List.forall_mem_append, List.forall_mem_singleton]
    constructor
    · rintro ⟨u, ⟨hu, hes⟩, he, hs⟩
      exact ⟨⟨u, hu, hs⟩, hes, he⟩
    · rintro ⟨⟨u, hu, hs⟩, hes, he⟩
      exact ⟨u, ⟨hu, hes⟩, he, hs⟩

lemma exec_forall {I : σ → Prop} {A : ε → Prop}
    (hs : ∀ s e t, I s → M.step s e = some t → A e ∧ I t) {es : List ε} {s t : σ} (hi : I s)
    (h : M.exec s es = some t) : (∀ e ∈ es, A e) ∧ I t := by
  induction es generalizing s with
  | nil =>
    obtain rfl := Option.some.inj h
    exact ⟨by simp, hi⟩
  | cons e es ih =>
    obtain ⟨u, hu, hr⟩ := Option.bind_eq_some_iff.mp h
    obtain ⟨he, hiu⟩ := hs s e u hi hu
    obtain ⟨hes, ht⟩ := ih hiu hr
    exact ⟨List.forall_mem_cons.mpr ⟨he, hes⟩, ht⟩

variable (M)

def Always (es : List ε) (φ : σ → Prop) : Prop :=
  ∀ pre s, pre <+: es → M.Runs pre s → φ s

def EachStep (es : List ε) (C : σ → ε → Prop) : Prop :=
  ∀ pre e s, pre ++ [e] <+: es → M.Runs pre s → C s e

variable {M}

lemma Always.last {es : List ε} {φ : σ → Prop} {s : σ} (h : M.Always es φ) (hr : M.Runs es s) :
    φ s :=
  h es s (List.prefix_refl es) hr

lemma EachStep.init {es : List ε} {e : ε} {C : σ → ε → Prop} (h : M.EachStep (es ++ [e]) C) :
    M.EachStep es C :=
  fun pre f s hp hr => h pre f s (hp.trans (List.prefix_append es [e])) hr

lemma always_snoc {es : List ε} {e : ε} {φ : σ → Prop} {t : σ} (hr : M.Runs (es ++ [e]) t) :
    M.Always (es ++ [e]) φ ↔ M.Always es φ ∧ φ t := by
  constructor
  · intro h
    exact ⟨fun pre s hp hs => h pre s (hp.trans (List.prefix_append es [e])) hs, h.last hr⟩
  · rintro ⟨h, ht⟩ pre s hp hs
    rcases List.prefix_concat_iff.mp hp with rfl | hp
    · exact hs.unique hr ▸ ht
    · exact h pre s hp hs

lemma eachStep_nil {C : σ → ε → Prop} : M.EachStep [] C := by
  intro pre e s hp
  simp at hp

lemma eachStep_snoc {es : List ε} {e : ε} {C : σ → ε → Prop} {s : σ} (hr : M.Runs es s) :
    M.EachStep (es ++ [e]) C ↔ M.EachStep es C ∧ C s e := by
  constructor
  · intro h
    exact ⟨h.init, h es e s (List.prefix_refl _) hr⟩
  · rintro ⟨h, hc⟩ pre f u hp hu
    rcases List.prefix_concat_iff.mp hp with he | hp
    · obtain ⟨rfl, hf⟩ := List.append_inj' he rfl
      obtain rfl := (List.cons.inj hf).1
      exact hu.unique hr ▸ hc
    · exact h pre f u hp hu

/-- A condition that decides, at each state where `φ` holds, whether `φ` survives the step
decides for whole runs whether `φ` holds throughout. -/
theorem always_iff_eachStep {φ : σ → Prop} {C : σ → ε → Prop} (hi : φ M.init)
    (hs : ∀ es e s t, M.Runs es s → φ s → M.step s e = some t → (φ t ↔ C s e))
    {es : List ε} {s : σ} (h : M.Runs es s) : M.Always es φ ↔ M.EachStep es C := by
  apply h.induct (P := fun es _ => M.Always es φ ↔ M.EachStep es C)
  · refine ⟨fun _ => eachStep_nil, fun _ pre s hp hr => ?_⟩
    obtain rfl := List.prefix_nil.mp hp
    exact runs_nil_iff.mp hr ▸ hi
  · intro es e s t hr ih he
    rw [always_snoc (hr.snoc he), eachStep_snoc hr, ih]
    refine and_congr_right fun hc => hs es e s t hr ?_ he
    exact (ih.mpr hc).last hr

def guarded (M : Machine σ ε) (C : σ → ε → Prop) [∀ s e, Decidable (C s e)] : Machine σ ε :=
  ⟨M.init, fun s e => if C s e then M.step s e else none⟩

theorem runs_guarded {C : σ → ε → Prop} [∀ s e, Decidable (C s e)] {es : List ε} {s : σ} :
    (M.guarded C).Runs es s ↔ M.Runs es s ∧ M.EachStep es C := by
  induction es using List.reverseRecOn generalizing s with
  | nil => exact ⟨fun h => ⟨h, eachStep_nil⟩, fun h => h.1⟩
  | append_singleton es e ih =>
    rw [runs_snoc, runs_snoc]
    constructor
    · rintro ⟨u, hu, he⟩
      obtain ⟨hr, hes⟩ := ih.mp hu
      obtain ⟨hc, he⟩ := Option.ite_none_right_eq_some.mp he
      exact ⟨⟨u, hr, he⟩, (eachStep_snoc hr).mpr ⟨hes, hc⟩⟩
    · rintro ⟨⟨u, hr, he⟩, hes⟩
      obtain ⟨hes, hc⟩ := (eachStep_snoc hr).mp hes
      exact ⟨u, ih.mpr ⟨hr, hes⟩, Option.ite_none_right_eq_some.mpr ⟨hc, he⟩⟩

/-- Where no step restores `φ`, the last state tells whether it was ever lost. -/
theorem Runs.last_iff_eachStep {φ : σ → Prop} {C : σ → ε → Prop} (hi : φ M.init)
    (hb : ∀ s e t, φ t → M.step s e = some t → φ s)
    (hs : ∀ s e t, φ s → M.step s e = some t → (φ t ↔ C s e))
    {es : List ε} {s : σ} (h : M.Runs es s) : φ s ↔ M.EachStep es C := by
  rw [← always_iff_eachStep hi (fun _ e s t _ => hs s e t) h]
  refine ⟨?_, fun ha => ha.last h⟩
  apply h.induct (P := fun es s => φ s → M.Always es φ)
  · intro _ pre s hp hr
    obtain rfl := List.prefix_nil.mp hp
    exact runs_nil_iff.mp hr ▸ hi
  · intro es e s t hr ih he ht
    exact (always_snoc (hr.snoc he)).mpr ⟨ih (hb s e t ht he), ht⟩

end Machine

end Transitions
