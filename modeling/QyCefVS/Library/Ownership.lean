import Mathlib.Data.Int.Basic
import Mathlib.Data.List.Count
import Mathlib.Data.List.Perm.Basic
import Mathlib.Logic.Function.Basic
import Mathlib.Tactic.Common

/-! Reference counting on a heap of objects that hold counted references to one another.
`Balanced` ties every count to the references that exist: those held from outside the heap
and those held by members of objects that have not been deleted. -/

namespace Ownership

/-- `fault` records a count operation on an object that does not exist. -/
structure Heap (ι α : Type) where
  refCount : ι → ℤ
  members : List (ι × ι)
  allocated : List ι
  deleted : List ι
  globals : α
  fault : Bool

namespace Heap

variable {ι α : Type}

def empty (g : α) : Heap ι α := ⟨fun _ => 0, [], [], [], g, false⟩

def Present (H : Heap ι α) (x : ι) : Prop := x ∈ H.allocated ∧ x ∉ H.deleted

lemma deleted_of_not_present {H : Heap ι α} {x : ι} (ha : x ∈ H.allocated) (hp : ¬ H.Present x) :
    x ∈ H.deleted :=
  by_contra fun hd => hp ⟨ha, hd⟩

variable [DecidableEq ι]

instance (H : Heap ι α) (x : ι) : Decidable (H.Present x) :=
  inferInstanceAs (Decidable (_ ∧ _))

def addRef (H : Heap ι α) (x : ι) : Heap ι α :=
  { H with
    refCount := Function.update H.refCount x (H.refCount x + 1)
    fault := H.fault || !decide (H.Present x) }

def decrement (H : Heap ι α) (x : ι) : Heap ι α :=
  { H with
    refCount := Function.update H.refCount x (H.refCount x - 1)
    fault := H.fault || !decide (H.Present x) }

/-- The members of an object go in the reverse of the order in which they came. -/
def targets (H : Heap ι α) (x : ι) : List ι :=
  ((H.members.filter (·.1 = x)).map Prod.snd).reverse

def construct (H : Heap ι α) (x : ι) (g : α) : Heap ι α :=
  { H with
    refCount := Function.update H.refCount x 0
    allocated := x :: H.allocated
    globals := g }

def create (H : Heap ι α) (x : ι) (g : α) : Heap ι α := (H.construct x g).addRef x

def adopt (H : Heap ι α) (o x : ι) : Heap ι α := { H with members := H.members ++ [(o, x)] }

def detach (H : Heap ι α) (o x : ι) : Heap ι α := { H with members := H.members.erase (o, x) }

section Release

variable (d : ι → α → α)

/-- The destructor `d` runs first, then the members go. -/
def destroy (H : Heap ι α) (x : ι) : Heap ι α :=
  { H with
    members := H.members.filter (·.1 ≠ x)
    deleted := H.deleted ++ [x]
    globals := d x H.globals }

def drop : ℕ → Heap ι α → List ι → Heap ι α
  | _, H, [] => H
  | 0, H, _ :: _ => H
  | n + 1, H, x :: xs =>
    if (H.decrement x).refCount x = 0 then
      drop n ((H.decrement x).destroy d x) (H.targets x ++ xs)
    else drop n (H.decrement x) xs

def release (H : Heap ι α) (x : ι) : Heap ι α := H.drop d (H.members.length + 1) [x]

end Release

structure Balanced (H : Heap ι α) (roots : List ι) : Prop where
  counted : ∀ x, H.refCount x = roots.count x + (H.members.map Prod.snd).count x
  dead : ∀ x ∈ H.deleted, x ∈ H.allocated ∧ H.refCount x = 0
  owned : ∀ m ∈ H.members, H.Present m.1
  known : ∀ x, 0 < H.refCount x → x ∈ H.allocated
  kept : ∀ x ∈ H.allocated, x ∈ H.deleted ∨ 0 < H.refCount x
  once : H.deleted.Nodup
  sound : H.fault = false

lemma empty_balanced (g : α) : (empty g : Heap ι α).Balanced [] where
  counted x := rfl
  dead x hx := by simp [empty] at hx
  owned m hm := by simp [empty] at hm
  known x hx := by simp [empty] at hx
  kept x hx := by simp [empty] at hx
  once := List.nodup_nil
  sound := rfl

namespace Balanced

variable {H : Heap ι α} {R : List ι} {x : ι}

lemma perm {S : List ι} (h : H.Balanced R) (hp : R.Perm S) : H.Balanced S :=
  { h with counted := fun x => by rw [h.counted x, hp.count_eq] }

lemma count_pos_iff (h : H.Balanced R) :
    0 < H.refCount x ↔ x ∈ R ∨ ∃ o, (o, x) ∈ H.members := by
  have hc := h.counted x
  have hm : x ∈ H.members.map Prod.snd ↔ ∃ o, (o, x) ∈ H.members := by simp
  rw [← hm, ← List.count_pos_iff, ← List.count_pos_iff]
  omega

lemma present_iff_pos (h : H.Balanced R) : H.Present x ↔ 0 < H.refCount x := by
  constructor
  · rintro ⟨ha, hd⟩
    exact (h.kept x ha).resolve_left hd
  · intro hp
    refine ⟨h.known x hp, fun hd => ?_⟩
    have := (h.dead x hd).2
    omega

theorem present_iff (h : H.Balanced R) :
    H.Present x ↔ x ∈ R ∨ ∃ o, (o, x) ∈ H.members :=
  h.present_iff_pos.trans h.count_pos_iff

lemma present_root (h : H.Balanced R) (hx : x ∈ R) : H.Present x :=
  h.present_iff.mpr (Or.inl hx)

lemma present_member (h : H.Balanced R) {o : ι} (hx : (o, x) ∈ H.members) : H.Present x :=
  h.present_iff.mpr (Or.inr ⟨o, hx⟩)

lemma addRef (h : H.Balanced R) (hx : H.Present x) : (H.addRef x).Balanced (x :: R) where
  counted y := by
    have hy := h.counted y
    by_cases hxy : y = x
    · subst y
      simp only [Heap.addRef, Function.update_self, List.count_cons_self, hy]
      omega
    · simpa [Heap.addRef, hxy, List.count_cons_of_ne (Ne.symm hxy)] using hy
  dead y hy := by
    have hne : y ≠ x := fun he => hx.2 (he ▸ hy)
    simpa [Heap.addRef, hne] using h.dead y hy
  owned := h.owned
  known y hy := by
    by_cases hxy : y = x
    · exact hxy ▸ hx.1
    · exact h.known y (by simpa [Heap.addRef, hxy] using hy)
  kept y hy := by
    apply (h.kept y hy).imp_right
    intro hp
    by_cases hxy : y = x
    · subst y
      simp only [Heap.addRef, Function.update_self]
      omega
    · simpa [Heap.addRef, hxy] using hp
  once := h.once
  sound := by simp [Heap.addRef, h.sound, hx]

lemma unreferenced (h : H.Balanced R) (hx : x ∉ H.allocated) : H.refCount x = 0 := by
  have hc := h.counted x
  have hp : ¬ 0 < H.refCount x := fun hp => hx (h.known x hp)
  omega

lemma create (h : H.Balanced R) (hx : x ∉ H.allocated) (g : α) :
    (H.create x g).Balanced (x :: R) where
  counted y := by
    have hy := h.counted y
    by_cases hxy : y = x
    · subst y
      have h0 := h.unreferenced hx
      simp only [Heap.create, Heap.addRef, construct, Function.update_self,
        List.count_cons_self]
      omega
    · simpa [Heap.create, Heap.addRef, construct, hxy, List.count_cons_of_ne (Ne.symm hxy)]
        using hy
  dead y hy := by
    obtain ⟨ha, hz⟩ := h.dead y hy
    have hxy : y ≠ x := fun he => hx (he ▸ ha)
    refine ⟨List.mem_cons_of_mem x ha, ?_⟩
    simpa [Heap.create, Heap.addRef, construct, hxy] using hz
  owned m hm := ⟨List.mem_cons_of_mem x (h.owned m hm).1, (h.owned m hm).2⟩
  known y hy := by
    by_cases hxy : y = x
    · exact hxy ▸ List.mem_cons_self
    · refine List.mem_cons_of_mem x (h.known y ?_)
      simpa [Heap.create, Heap.addRef, construct, hxy] using hy
  kept y hy := by
    by_cases hxy : y = x
    · exact Or.inr (by simp [Heap.create, Heap.addRef, construct, hxy])
    · have ha : y ∈ H.allocated := (List.mem_cons.mp hy).resolve_left hxy
      simpa [Heap.create, Heap.addRef, construct, hxy] using h.kept y ha
  once := h.once
  sound := by
    have hd : x ∉ H.deleted := fun hd => hx (h.dead x hd).1
    simp [Heap.create, Heap.addRef, construct, h.sound, Present, hd]

lemma rewire (h : H.Balanced R) {S : List ι} {ms : List (ι × ι)}
    (hp : (S ++ ms.map Prod.snd).Perm (R ++ H.members.map Prod.snd))
    (ho : ∀ m ∈ ms, H.Present m.1) : { H with members := ms }.Balanced S :=
  { h with
    counted := fun y => by
      have hy := hp.count_eq y
      rw [List.count_append, List.count_append] at hy
      have hc := h.counted y
      simp only
      omega
    owned := ho }

lemma adopt (h : H.Balanced (x :: R)) {o : ι} (ho : H.Present o) : (H.adopt o x).Balanced R := by
  apply h.rewire
  · rw [List.map_append, ← List.append_assoc]
    exact List.perm_append_singleton x _
  · intro m hm
    rcases List.mem_append.mp hm with hm | hm
    · exact h.owned m hm
    · exact List.mem_singleton.mp hm ▸ ho

lemma detach (h : H.Balanced R) {o : ι} (hm : (o, x) ∈ H.members) :
    (H.detach o x).Balanced (x :: R) := by
  apply h.rewire
  · have hp := ((List.perm_cons_erase hm).map Prod.snd).append_left R
    exact (hp.trans List.perm_middle).symm
  · exact fun m hm => h.owned m (List.mem_of_mem_erase hm)

end Balanced

section Release

variable (d : ι → α → α) (H : Heap ι α) {R : List ι} {x : ι}

lemma members_perm (x : ι) :
    (H.targets x ++ (H.members.filter (·.1 ≠ x)).map Prod.snd).Perm (H.members.map Prod.snd) := by
  apply ((List.reverse_perm _).append_right _).trans
  rw [← List.map_append]
  apply List.Perm.map Prod.snd
  simpa using List.filter_append_perm (fun m : ι × ι => decide (m.1 = x)) H.members

lemma members_length (x : ι) :
    (H.targets x).length + (H.members.filter (·.1 ≠ x)).length = H.members.length := by
  simpa using (H.members_perm x).length_eq

structure Lost (H K : Heap ι α) (gone : List ι) : Prop where
  deleted : K.deleted = H.deleted ++ gone
  members : K.members = H.members.filter (·.1 ∉ gone)
  allocated : K.allocated = H.allocated
  globals : K.globals = gone.foldl (fun g x => d x g) H.globals

variable {d} {H}

lemma Lost.refl : Lost d H H [] := ⟨by simp, by simp, rfl, rfl⟩

lemma Lost.decrement {K : Heap ι α} {gone : List ι} (h : Lost d (H.decrement x) K gone) :
    Lost d H K gone :=
  ⟨h.deleted, h.members, h.allocated, h.globals⟩

lemma Lost.destroy {K : Heap ι α} {gone : List ι}
    (h : Lost d ((H.decrement x).destroy d x) K gone) : Lost d H K (x :: gone) where
  deleted := by simpa [Heap.destroy, Heap.decrement] using h.deleted
  members := by
    rw [h.members]
    simp only [Heap.destroy, Heap.decrement, List.filter_filter, List.mem_cons, not_or]
    apply List.filter_congr
    intro m _
    by_cases hm : m.1 = x <;> simp [hm]
  allocated := h.allocated
  globals := by simpa [Heap.destroy, Heap.decrement] using h.globals

lemma Lost.present_iff {K : Heap ι α} {gone : List ι} (h : Lost d H K gone) :
    K.Present x ↔ H.Present x ∧ x ∉ gone := by
  simp only [Present, h.allocated, h.deleted, List.mem_append, not_or, and_assoc]

lemma Lost.mem_members {K : Heap ι α} {gone : List ι} (h : Lost d H K gone) {m : ι × ι} :
    m ∈ K.members ↔ m ∈ H.members ∧ m.1 ∉ gone := by
  simp [h.members]

lemma drop_lost (n : ℕ) (H : Heap ι α) (xs : List ι) : ∃ gone, Lost d H (H.drop d n xs) gone := by
  induction n generalizing H xs with
  | zero => cases xs <;> exact ⟨[], .refl⟩
  | succ n ih =>
    cases xs with
    | nil => exact ⟨[], .refl⟩
    | cons x xs =>
      rw [drop]
      split
      · obtain ⟨gone, hg⟩ := ih ((H.decrement x).destroy d x) (H.targets x ++ xs)
        exact ⟨x :: gone, hg.destroy⟩
      · obtain ⟨gone, hg⟩ := ih (H.decrement x) xs
        exact ⟨gone, hg.decrement⟩

lemma release_lost (d : ι → α → α) (H : Heap ι α) (x : ι) :
    ∃ gone, Lost d H (H.release d x) gone :=
  drop_lost _ H [x]

def gone (H K : Heap ι α) : List ι := K.deleted.drop H.deleted.length

lemma Lost.gone_eq {K : Heap ι α} {l : List ι} (h : Lost d H K l) : H.gone K = l := by
  rw [gone, h.deleted]
  exact List.drop_left

lemma release_members (d : ι → α → α) (H : Heap ι α) (x : ι) :
    (H.release d x).members = H.members.filter (·.1 ∉ H.gone (H.release d x)) := by
  obtain ⟨l, hl⟩ := release_lost d H x
  rw [hl.gone_eq]
  exact hl.members

namespace Balanced

lemma decrement (h : H.Balanced (x :: R)) (hne : (H.decrement x).refCount x ≠ 0) :
    (H.decrement x).Balanced R where
  counted y := by
    have hy := h.counted y
    by_cases hxy : y = x
    · subst y
      simp only [Heap.decrement, Function.update_self, hy, List.count_cons_self]
      omega
    · simpa [Heap.decrement, hxy, List.count_cons_of_ne (Ne.symm hxy)] using hy
  dead y hy := by
    have hxy : y ≠ x := fun he => (h.present_root List.mem_cons_self).2 (he ▸ hy)
    simpa [Heap.decrement, hxy] using h.dead y hy
  owned := h.owned
  known y hy := by
    by_cases hxy : y = x
    · exact hxy ▸ (h.present_root List.mem_cons_self).1
    · exact h.known y (by simpa [Heap.decrement, hxy] using hy)
  kept y hy := by
    apply (h.kept y hy).imp_right
    intro hp
    by_cases hxy : y = x
    · subst y
      simp only [Heap.decrement, Function.update_self] at hne ⊢
      omega
    · simpa [Heap.decrement, hxy] using hp
  once := h.once
  sound := by simp [Heap.decrement, h.sound, h.present_root List.mem_cons_self]

lemma destroy (h : H.Balanced (x :: R)) (h0 : (H.decrement x).refCount x = 0) :
    ((H.decrement x).destroy d x).Balanced (H.targets x ++ R) where
  counted y := by
    have hy := h.counted y
    have hp := (H.members_perm x).count_eq y
    rw [List.count_append] at hp
    simp only [Heap.decrement, Function.update_self] at h0
    by_cases hxy : y = x
    · subst y
      simp only [Heap.destroy, Heap.decrement, Function.update_self, List.count_append]
      rw [List.count_cons_self] at hy
      omega
    · rw [List.count_cons_of_ne (Ne.symm hxy)] at hy
      simp only [Heap.destroy, Heap.decrement, Function.update_of_ne hxy, List.count_append]
      omega
  dead y hy := by
    rcases List.mem_append.mp hy with hy | hy
    · have hxy : y ≠ x := fun he => (h.present_root List.mem_cons_self).2 (he ▸ hy)
      simpa [Heap.destroy, Heap.decrement, hxy] using h.dead y hy
    · obtain rfl := List.mem_singleton.mp hy
      exact ⟨(h.present_root List.mem_cons_self).1, h0⟩
  owned m hm := by
    obtain ⟨hm, hne⟩ := List.mem_filter.mp hm
    refine ⟨(h.owned m hm).1, fun hd => ?_⟩
    rcases List.mem_append.mp hd with hd | hd
    · exact (h.owned m hm).2 hd
    · simp [List.mem_singleton.mp hd] at hne
  known y hy := by
    by_cases hxy : y = x
    · exact hxy ▸ (h.present_root List.mem_cons_self).1
    · exact h.known y (by simpa [Heap.destroy, Heap.decrement, hxy] using hy)
  kept y hy := by
    by_cases hxy : y = x
    · exact Or.inl (List.mem_append_right _ (List.mem_singleton.mpr hxy))
    · apply (h.kept y hy).imp (List.mem_append_left _)
      intro hp
      simpa [Heap.destroy, Heap.decrement, hxy] using hp
  once := by
    refine List.nodup_append.mpr ⟨h.once, by simp, ?_⟩
    intro y hy z hz he
    obtain rfl := List.mem_singleton.mp hz
    exact (h.present_root List.mem_cons_self).2 (he ▸ hy)
  sound := by
    simp [Heap.destroy, Heap.decrement, h.sound, h.present_root List.mem_cons_self]

/-- Each reference released is one fewer to release or to hold, so the fuel of `release`
is enough for the whole cascade. -/
lemma drop (n : ℕ) {H : Heap ι α} {xs : List ι} (hn : H.members.length + xs.length ≤ n)
    (h : H.Balanced (xs ++ R)) : (H.drop d n xs).Balanced R := by
  induction n generalizing H xs with
  | zero =>
    obtain rfl : xs = [] := List.eq_nil_of_length_eq_zero (by omega)
    exact h
  | succ n ih =>
    cases xs with
    | nil => exact h
    | cons x xs =>
      rw [Heap.drop]
      split
      case isTrue h0 =>
        refine ih ?_ (by simpa using h.destroy (d := d) h0)
        have hl := H.members_length x
        simp only [Heap.destroy, Heap.decrement, List.length_append, List.length_cons] at hn ⊢
        omega
      case isFalse h0 =>
        refine ih ?_ (h.decrement h0)
        simp only [Heap.decrement, List.length_cons] at hn ⊢
        omega

theorem release (h : H.Balanced (x :: R)) : (H.release d x).Balanced R :=
  Balanced.drop (H.members.length + 1) (le_refl _) (show H.Balanced ([x] ++ R) from h)

end Balanced

end Release

end Heap

end Ownership
