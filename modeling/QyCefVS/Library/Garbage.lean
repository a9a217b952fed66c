import Mathlib.Data.Set.Finite.Lemmas
import Mathlib.Logic.Relation
import Mathlib.Order.Preorder.Finite
import QyCefVS.Library.Ownership

/-! What counting cannot collect. An object of a balanced heap exists as long as it can be reached
from a root or from a cycle of members, so that only cycles outlive the last root. -/

namespace Ownership

open Relation

/-- Walking back along `r` inside a finite set, one meets some element twice. -/
lemma exists_cycle {ι : Type*} {r : ι → ι → Prop} {S : Set ι} (hf : S.Finite)
    (hb : ∀ y ∈ S, ∃ z ∈ S, r z y) {x : ι} (hx : x ∈ S) :
    ∃ c, TransGen r c c ∧ ReflTransGen r c x := by
  choose! back hback hr using hb
  have hmem : ∀ n, back^[n] x ∈ S := by
    intro n
    induction n with
    | zero => exact hx
    | succ n ih =>
      rw [Function.iterate_succ_apply']
      exact hback _ ih
  have hpath : ∀ m n, ReflTransGen r (back^[m + n] x) (back^[m] x) := by
    intro m n
    induction n with
    | zero => exact .refl
    | succ n ih =>
      rw [← Nat.add_assoc, Function.iterate_succ_apply']
      exact .head (hr _ (hmem _)) ih
  obtain ⟨m, n, hlt, he⟩ := hf.exists_lt_map_eq_of_forall_mem hmem
  obtain ⟨k, rfl⟩ := Nat.exists_eq_add_of_lt hlt
  refine ⟨back^[m] x, ?_, by simpa using hpath 0 m⟩
  have hstep : TransGen r (back^[m + k + 1] x) (back^[m] x) := by
    rw [Function.iterate_succ_apply']
    exact .head' (hr _ (hmem _)) (hpath m k)
  rwa [← he] at hstep

namespace Heap

variable {ι α : Type} {H : Heap ι α} {x : ι}

def Owns (H : Heap ι α) (o x : ι) : Prop := (o, x) ∈ H.members

lemma present_finite (H : Heap ι α) : { x | H.Present x }.Finite :=
  H.allocated.finite_toSet.subset fun _ hx => hx.1

variable [DecidableEq ι] {R : List ι}

lemma drop_nil (d : ι → α → α) (n : ℕ) (H : Heap ι α) : H.drop d n [] = H := by
  cases n <;> rfl

lemma decrement_addRef (hx : H.Present x) : (H.addRef x).decrement x = H := by
  have hr : ((H.addRef x).decrement x).refCount = H.refCount := by
    funext y
    by_cases hy : y = x
    · subst y
      simp [addRef, decrement]
    · simp [addRef, decrement]
  have hp : (H.addRef x).Present x := hx
  have hf : ((H.addRef x).decrement x).fault = H.fault := by
    simp only [decrement, hp]
    simp [addRef, hx]
  calc (H.addRef x).decrement x
      = { H with
          refCount := ((H.addRef x).decrement x).refCount
          fault := ((H.addRef x).decrement x).fault } := rfl
    _ = H := by rw [hr, hf]

theorem release_addRef (d : ι → α → α) (hx : H.Present x) (hc : H.refCount x ≠ 0) :
    (H.addRef x).release d x = H := by
  rw [release, drop, decrement_addRef hx, if_neg hc, drop_nil]

namespace Balanced

lemma present_of_reached (h : H.Balanced R) {o : ι} (ho : H.Present o)
    (hp : ReflTransGen H.Owns o x) : H.Present x := by
  induction hp with
  | refl => exact ho
  | tail _ hm _ => exact h.present_member hm

lemma present_of_cycle (h : H.Balanced R) (hc : TransGen H.Owns x x) : H.Present x := by
  obtain ⟨o, _, hm⟩ := TransGen.tail'_iff.mp hc
  exact h.present_member hm

theorem present_iff_reached (h : H.Balanced R) :
    H.Present x ↔ (∃ y ∈ R, ReflTransGen H.Owns y x) ∨
      ∃ c, TransGen H.Owns c c ∧ ReflTransGen H.Owns c x := by
  constructor
  · intro hx
    by_contra hn
    obtain ⟨hr, hc⟩ := not_or.mp hn
    apply hc
    -- every object on a way to `x` is held by another one, because no root is
    apply exists_cycle (S := { y | H.Present y ∧ ReflTransGen H.Owns y x })
    · exact H.present_finite.subset fun _ hy => hy.1
    · rintro y ⟨hy, hyx⟩
      obtain ⟨o, hm⟩ := (h.present_iff.mp hy).resolve_left fun hR => hr ⟨y, hR, hyx⟩
      exact ⟨o, ⟨h.owned _ hm, .head hm hyx⟩, hm⟩
    · exact ⟨hx, .refl⟩
  · rintro (⟨y, hy, hp⟩ | ⟨c, hc, hp⟩)
    · exact h.present_of_reached (h.present_root hy) hp
    · exact h.present_of_reached (h.present_of_cycle hc) hp

end Balanced

end Heap

end Ownership
