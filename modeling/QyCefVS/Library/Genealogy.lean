import Mathlib.Data.Finset.Basic
import Mathlib.Data.Multiset.Filter
import Mathlib.Data.Multiset.Count
import Mathlib.Logic.Relation
import Mathlib.Tactic.Common

/-! Families that grow only through their living members. A birth is expected from a founder
or from a living parent, and a death cancels the births expected from the one who dies. -/

namespace Genealogy

open Relation

structure Population (β : Type*) where
  expected : Multiset (Option β)
  living : Finset β

namespace Population

variable {β : Type*} {P Q : Population β}

def Extinct (P : Population β) : Prop := P.living = ∅ ∧ P.expected = 0

def Rooted (P : Population β) : Prop := ∀ p, some p ∈ P.expected → p ∈ P.living

def Founded (P : Population β) : Prop :=
  none ∈ P.expected → P.expected = {none} ∧ P.living = ∅

def colony (n : ℕ) : Population β := ⟨Multiset.replicate n none, ∅⟩

lemma colony_rooted (n : ℕ) : (colony n : Population β).Rooted := by
  intro p hp
  simp [colony, Multiset.mem_replicate] at hp

lemma colony_founded {n : ℕ} (hn : n ≤ 1) : (colony n : Population β).Founded := by
  intro h
  obtain rfl : n = 1 := by
    have := (Multiset.mem_replicate.mp h).1
    omega
  exact ⟨rfl, rfl⟩

lemma Founded.none_notMem (hf : P.Founded) {p : β} (hp : p ∈ P.living) : none ∉ P.expected :=
  fun hn => Finset.notMem_empty p ((hf hn).2 ▸ hp)

lemma expected_of_none_living (hr : P.Rooted) (hf : P.Founded) (hl : P.living = ∅) :
    P.expected = {none} ∨ P.expected = 0 := by
  by_cases hn : none ∈ P.expected
  · exact Or.inl (hf hn).1
  · refine Or.inr (Multiset.eq_zero_of_forall_notMem fun o ho => ?_)
    cases o with
    | none => exact hn ho
    | some p => exact Finset.notMem_empty p (hl ▸ hr p ho)

variable [DecidableEq β]

inductive Step : Population β → Population β → Prop
  | birth {P : Population β} (o : Option β) (c : β) : o ∈ P.expected →
      Step P ⟨P.expected.erase o, insert c P.living⟩
  | conceive {P : Population β} (p : β) : p ∈ P.living →
      Step P ⟨some p ::ₘ P.expected, P.living⟩
  | lose {P : Population β} (p : β) : some p ∈ P.expected →
      Step P ⟨P.expected.erase (some p), P.living⟩
  | death {P : Population β} (p : β) : p ∈ P.living →
      Step P ⟨P.expected.filter (· ≠ some p), P.living.erase p⟩

abbrev Reaches : Population β → Population β → Prop := ReflTransGen Step

lemma Step.rooted (h : Step P Q) (hr : P.Rooted) : Q.Rooted := by
  cases h with
  | birth o c ho =>
    intro p hp
    exact Finset.mem_insert_of_mem (hr p (Multiset.mem_of_mem_erase hp))
  | conceive q hq =>
    intro p hp
    rcases Multiset.mem_cons.mp hp with he | hp
    · exact Option.some.inj he ▸ hq
    · exact hr p hp
  | lose q hq =>
    intro p hp
    exact hr p (Multiset.mem_of_mem_erase hp)
  | death q hq =>
    intro p hp
    obtain ⟨hp, hne⟩ := Multiset.mem_filter.mp hp
    exact Finset.mem_erase.mpr ⟨fun he => hne (congrArg some he), hr p hp⟩

lemma Step.founded (h : Step P Q) (hf : P.Founded) : Q.Founded := by
  intro hn
  cases h with
  | birth o c ho =>
    -- a founder can be left over only where a second one was expected
    obtain ⟨he, _⟩ := hf (Multiset.mem_of_mem_erase hn)
    obtain rfl := Multiset.mem_singleton.mp (he ▸ ho)
    simp [he] at hn
  | conceive q hq => exact absurd (by simpa using hn) (hf.none_notMem hq)
  | lose q hq =>
    obtain ⟨he, _⟩ := hf (Multiset.mem_of_mem_erase hn)
    simp [he] at hq
  | death q hq => exact absurd (Multiset.mem_filter.mp hn).1 (hf.none_notMem hq)

lemma Reaches.rooted (h : Reaches P Q) (hr : P.Rooted) : Q.Rooted := by
  induction h with
  | refl => exact hr
  | tail _ hs ih => exact hs.rooted ih

lemma Reaches.founded (h : Reaches P Q) (hf : P.Founded) : Q.Founded := by
  induction h with
  | refl => exact hf
  | tail _ hs ih => exact hs.founded ih

theorem extinct_of_last_death (hr : P.Rooted) (hf : P.Founded) (h : Step P Q)
    (hp : P.living.Nonempty) (hq : Q.living = ∅) : Q.Extinct := by
  obtain ⟨p, hp⟩ := hp
  cases h with
  | birth o c ho => exact absurd hq (Finset.insert_ne_empty _ _)
  | conceive q hq' => exact absurd hp (hq ▸ Finset.notMem_empty p)
  | lose q hq' => exact absurd hp (hq ▸ Finset.notMem_empty p)
  | death q hq' =>
    have hd := Step.death q hq'
    refine ⟨hq, (expected_of_none_living (hd.rooted hr) (hd.founded hf) hq).resolve_left ?_⟩
    intro (he : P.expected.filter (· ≠ some q) = {none})
    have hn : none ∈ P.expected.filter (· ≠ some q) := he ▸ Multiset.mem_singleton_self none
    exact hf.none_notMem hp (Multiset.mem_filter.mp hn).1

end Population

end Genealogy
