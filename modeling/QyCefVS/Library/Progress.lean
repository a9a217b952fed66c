import Mathlib.Algebra.GroupWithZero.Nat
import QyCefVS.Library.Transitions

/-! Potentials of a machine. A potential that pays for every step of a kind bounds how many of
them a run takes; one that some step can always lower drives the machine to its goal. -/

namespace Transitions.Machine

variable {σ ε : Type*} {M : Machine σ ε} {es : List ε} {s t : σ}

def Reachable (M : Machine σ ε) (s : σ) : Prop := ∃ es, M.Runs es s

/-- Only `gain` refills the potential, and each step counted by `W` takes one from it. -/
theorem exec_work {I : σ → Prop} (μ : σ → ℕ) (gain : ε → ℕ) (W : ε → Bool)
    (hw : ∀ s e t, I s → M.step s e = some t → I t ∧ μ t + (W e).toNat ≤ μ s + gain e)
    (hs : I s) (h : M.exec s es = some t) :
    I t ∧ μ t + es.countP W ≤ μ s + (es.map gain).sum := by
  induction es generalizing s with
  | nil =>
    obtain rfl := Option.some.inj h
    exact ⟨hs, by simp⟩
  | cons e es ih =>
    obtain ⟨u, hu, hr⟩ := Option.bind_eq_some_iff.mp h
    obtain ⟨hi, he⟩ := hw s e u hs hu
    obtain ⟨ht, hle⟩ := ih hi hr
    refine ⟨ht, ?_⟩
    rw [List.countP_cons, List.map_cons, List.sum_cons]
    cases hW : W e with
    | false =>
      rw [hW, Bool.toNat_false] at he
      rw [if_neg Bool.false_ne_true]
      omega
    | true =>
      rw [hW, Bool.toNat_true] at he
      rw [if_pos rfl]
      omega

theorem finishes {I D : σ → Prop} {A : ε → Prop} (μ : σ → ℕ)
    (hp : ∀ s, I s → ¬ D s → ∃ e t, A e ∧ M.step s e = some t ∧ I t ∧ μ t < μ s) (hs : I s) :
    ∃ es t, (∀ e ∈ es, A e) ∧ M.exec s es = some t ∧ I t ∧ D t := by
  induction hn : μ s using Nat.strongRecOn generalizing s with
  | ind n ih =>
    by_cases hd : D s
    · exact ⟨[], s, by simp, rfl, hs, hd⟩
    · obtain ⟨e, t, ha, he, ht, hlt⟩ := hp s hs hd
      obtain ⟨es, u, hes, hx, hu⟩ := ih (μ t) (hn ▸ hlt) ht rfl
      refine ⟨e :: es, u, List.forall_mem_cons.mpr ⟨ha, hes⟩, ?_, hu⟩
      rw [exec_cons, he]
      exact hx

end Transitions.Machine
