import Mathlib.Data.List.Basic
import Mathlib.Data.List.Perm.Basic
import Mathlib.Tactic.Common

/-! Named pointers, each declared once, in the order of their declarations. Named by an owner and a
field they are the members of the owners. -/

namespace Ownership

structure Pointers (ν ι : Type) where
  slots : List (ν × Option ι)
  nodup : (slots.map Prod.fst).Nodup
  deriving DecidableEq

namespace Pointers

variable {ν ι : Type}

def names (L : Pointers ν ι) : List ν := L.slots.map Prod.fst

def roots (L : Pointers ν ι) : List ι := L.slots.filterMap Prod.snd

lemma roots_of_no_names {L : Pointers ν ι} (h : L.names = []) : L.roots = [] := by
  rw [roots, List.map_eq_nil_iff.mp h, List.filterMap_nil]

def none : Pointers ν ι := ⟨[], List.nodup_nil⟩

def keep (L : Pointers ν ι) (a : ν → Bool) : Pointers ν ι :=
  ⟨L.slots.filter (a ·.1), L.nodup.sublist (List.filter_sublist.map _)⟩

lemma mem_keep {L : Pointers ν ι} {a : ν → Bool} {v : ν} :
    v ∈ (L.keep a).names ↔ v ∈ L.names ∧ a v = true := by
  simp only [names, keep, List.mem_map, List.mem_filter]
  constructor
  · rintro ⟨s, ⟨hs, ha⟩, rfl⟩
    exact ⟨⟨s, hs, rfl⟩, ha⟩
  · rintro ⟨⟨s, hs, rfl⟩, ha⟩
    exact ⟨s, ⟨hs, ha⟩, rfl⟩

lemma keep_all {L : Pointers ν ι} {a : ν → Bool} (h : ∀ v, a v = true) : L.keep a = L := by
  have hs : L.slots.filter (a ·.1) = L.slots := List.filter_eq_self.mpr fun s _ => h s.1
  simp only [keep, hs]

variable [DecidableEq ν]

def ptr (L : Pointers ν ι) (v : ν) : Option ι := (L.slots.find? (·.1 = v)).bind Prod.snd

def drop (L : Pointers ν ι) (v : ν) : Pointers ν ι := L.keep (· ≠ v)

def declare (L : Pointers ν ι) (v : ν) (p : Option ι) : Pointers ν ι where
  slots := if v ∈ L.names then L.slots else L.slots ++ [(v, p)]
  nodup := by
    split
    case isTrue => exact L.nodup
    case isFalse h =>
      rw [List.map_append]
      exact List.nodup_append.mpr ⟨L.nodup, by simp, by rintro v hv w hw rfl; simp_all [names]⟩

def rewrite (v : ν) (p : Option ι) (s : ν × Option ι) : ν × Option ι :=
  if s.1 = v then (v, p) else s

lemma rewrite_fst (v : ν) (p : Option ι) (s : ν × Option ι) : (rewrite v p s).1 = s.1 := by
  rw [rewrite]
  split
  case isTrue h => exact h.symm
  case isFalse => rfl

def set (L : Pointers ν ι) (v : ν) (p : Option ι) : Pointers ν ι where
  slots := L.slots.map (rewrite v p)
  nodup := by
    rw [List.map_map, show Prod.fst ∘ rewrite v p = Prod.fst from funext (rewrite_fst v p)]
    exact L.nodup

variable {L : Pointers ν ι} {v : ν} {p : Option ι}

lemma slots_perm (hv : v ∈ L.names) : L.slots.Perm ((v, L.ptr v) :: (L.drop v).slots) := by
  obtain ⟨l, hn⟩ := L
  simp only [names, ptr, drop, keep] at hv ⊢
  induction l with
  | nil => simp at hv
  | cons s l ih =>
    obtain ⟨hs, hn⟩ := List.nodup_cons.mp hn
    by_cases he : s.1 = v
    · have hl : l.filter (fun t => !decide (t.1 = v)) = l := by
        apply List.filter_eq_self.mpr
        intro t ht
        have hne : t.1 ≠ v := fun h => hs (he ▸ h ▸ List.mem_map_of_mem ht)
        simpa using hne
      obtain ⟨w, q⟩ := s
      obtain rfl : w = v := he
      simp [hl]
    · have hm : v ∈ l.map Prod.fst := by
        rcases List.mem_cons.mp hv with h | h
        · exact absurd h.symm he
        · exact h
      simp only [List.find?_cons, he, decide_false, ne_eq, not_false_eq_true, decide_true,
        List.filter_cons_of_pos]
      exact ((ih hn hm).cons s).trans (.swap _ _ _)

lemma mem_roots {x : ι} (h : L.ptr v = some x) : x ∈ L.roots := by
  obtain ⟨s, hs, hx⟩ := Option.bind_eq_some_iff.mp h
  exact List.mem_filterMap.mpr ⟨s, List.mem_of_find?_eq_some hs, hx⟩

lemma ptr_of_mem (h : (v, p) ∈ L.slots) : L.ptr v = p := by
  have hv : v ∈ L.names := List.mem_map_of_mem h
  rcases List.mem_cons.mp ((slots_perm hv).mem_iff.mp h) with he | hd
  · exact (congrArg Prod.snd he).symm
  · simp [drop, keep] at hd

lemma drop_perm {l : List (ν × Option ι)} (h : L.slots.Perm ((v, p) :: l)) :
    (L.drop v).slots.Perm l := by
  have hm : (v, p) ∈ L.slots := h.mem_iff.mpr List.mem_cons_self
  have hs : L.slots.Perm ((v, L.ptr v) :: (L.drop v).slots) :=
    slots_perm (List.mem_map_of_mem hm)
  rw [ptr_of_mem hm] at hs
  exact (hs.symm.trans h).cons_inv

lemma names_set : (L.set v p).names = L.names := by
  simp only [names, set, List.map_map]
  exact List.map_congr_left fun s _ => rewrite_fst v p s

lemma set_of_notMem (hv : v ∉ L.names) : L.set v p = L := by
  have hs : L.slots.map (rewrite v p) = L.slots := by
    apply (List.map_congr_left fun s hm => ?_).trans (List.map_id _)
    exact if_neg fun (he : s.1 = v) => hv (he ▸ List.mem_map_of_mem hm)
  simp only [set, hs]

lemma drop_set (w : ν) : (L.set v p).drop w = (L.drop w).set v p := by
  have hs : (L.slots.map (rewrite v p)).filter (·.1 ≠ w) =
      (L.slots.filter (·.1 ≠ w)).map (rewrite v p) := by
    rw [List.filter_map]
    simp only [Function.comp_def, rewrite_fst]
  simp only [drop, keep, set, hs]

lemma drop_set_self : (L.set v p).drop v = L.drop v := by
  rw [drop_set, set_of_notMem]
  simp [names, drop, keep]

lemma ptr_set (hv : v ∈ L.names) : (L.set v p).ptr v = p := by
  obtain ⟨s, hs, he⟩ := List.mem_map.mp hv
  have hf : (L.slots.find? ((fun t => decide (t.1 = v)) ∘ rewrite v p)).isSome := by
    simpa [List.find?_isSome, rewrite_fst] using ⟨s.2, he ▸ hs⟩
  obtain ⟨t, ht⟩ := Option.isSome_iff_exists.mp hf
  have hv : t.1 = v := by simpa [rewrite_fst] using List.find?_some ht
  rw [ptr, set, List.find?_map, ht]
  simp [rewrite, hv]

lemma ptr_set_ne {w : ν} (hw : w ≠ v) : (L.set v p).ptr w = L.ptr w := by
  have hs : (L.slots.map (rewrite v p)).find? (·.1 = w) = L.slots.find? (·.1 = w) := by
    induction L.slots with
    | nil => rfl
    | cons s l ih =>
      rw [List.map_cons, List.find?_cons, List.find?_cons, rewrite_fst, ih]
      by_cases hsw : s.1 = w
      · have hr : rewrite v p s = s := if_neg fun hv => hw (hsw.symm.trans hv)
        simp [hsw, hr]
      · simp [hsw]
  rw [ptr, set, hs, ptr]

lemma set_ptr : L.set v (L.ptr v) = L := by
  have hs : L.slots.map (rewrite v (L.ptr v)) = L.slots := by
    apply (List.map_congr_left fun s hm => ?_).trans (List.map_id _)
    by_cases he : s.1 = v
    · have hv : v ∈ L.names := he ▸ List.mem_map_of_mem hm
      rcases List.mem_cons.mp ((slots_perm hv).mem_iff.mp hm) with h | h
      · rw [h]
        exact if_pos rfl
      · simp [drop, keep, he] at h
    · exact if_neg he
  simp only [set, hs]

lemma slots_declare (h : v ∉ L.names) : (L.declare v p).slots = L.slots ++ [(v, p)] := if_neg h

lemma names_declare (h : v ∉ L.names) : (L.declare v p).names = L.names ++ [v] := by
  rw [names, slots_declare h, List.map_append]
  rfl

lemma mem_declare (h : v ∉ L.names) : v ∈ (L.declare v p).names := by
  rw [names_declare h]
  exact List.mem_append_right _ List.mem_cons_self

lemma mem_declare_of_mem {w : ν} (h : v ∉ L.names) (hw : w ∈ L.names) :
    w ∈ (L.declare v p).names := by
  rw [names_declare h]
  exact List.mem_append_left _ hw

lemma ptr_declare (h : v ∉ L.names) : (L.declare v p).ptr v = p := by
  have hf : L.slots.find? (·.1 = v) = Option.none := by
    rw [List.find?_eq_none]
    intro s hs
    have hne : s.1 ≠ v := fun he => h (he ▸ List.mem_map_of_mem hs)
    simpa using hne
  rw [ptr, slots_declare h, List.find?_append, hf]
  simp

lemma ptr_declare_ne {w : ν} (h : v ∉ L.names) (hw : w ≠ v) :
    (L.declare v p).ptr w = L.ptr w := by
  rw [ptr, slots_declare h, List.find?_append, ptr]
  cases L.slots.find? (·.1 = w) <;> simp [hw.symm]

lemma drop_declare (h : v ∉ L.names) : (L.declare v p).drop v = L := by
  have hs : (L.slots ++ [(v, p)]).filter (fun s => decide (s.1 ≠ v)) = L.slots := by
    rw [List.filter_append, List.filter_cons_of_neg (by simp), List.filter_nil, List.append_nil,
      List.filter_eq_self]
    intro s hs
    have hne : s.1 ≠ v := fun he => h (he ▸ List.mem_map_of_mem hs)
    simpa using hne
  simp only [drop, keep, slots_declare h, hs]

lemma roots_perm (hv : v ∈ L.names) : L.roots.Perm ((L.ptr v).toList ++ (L.drop v).roots) := by
  have hp := (slots_perm hv).filterMap Prod.snd
  cases hq : L.ptr v <;> simpa [roots, hq] using hp

lemma roots_declare (h : v ∉ L.names) : (L.declare v p).roots.Perm (p.toList ++ L.roots) := by
  have hs := roots_perm (mem_declare (p := p) h)
  rwa [ptr_declare h, drop_declare h] at hs

section Edges

variable {φ : Type}

def edges (F : Pointers (ι × φ) ι) : List (ι × ι) := F.slots.filterMap fun s => s.2.map (s.1.1, ·)

lemma edges_snd (F : Pointers (ι × φ) ι) : F.edges.map Prod.snd = F.roots := by
  rw [edges, List.map_filterMap, roots]
  apply List.filterMap_congr
  rintro ⟨k, _ | x⟩ _ <;> rfl

lemma owner_of_edge {F : Pointers (ι × φ) ι} {m : ι × ι} (h : m ∈ F.edges) :
    ∃ k ∈ F.names, k.1 = m.1 := by
  obtain ⟨⟨k, p⟩, hs, hm⟩ := List.mem_filterMap.mp h
  obtain ⟨x, -, rfl⟩ := Option.map_eq_some_iff.mp hm
  exact ⟨k, List.mem_map_of_mem hs, rfl⟩

lemma edges_keep (F : Pointers (ι × φ) ι) (a : ι → Bool) :
    (F.keep fun k => a k.1).edges = F.edges.filter (a ·.1) := by
  rw [edges, keep, List.filterMap_filter, edges, List.filter_filterMap]
  apply List.filterMap_congr
  rintro ⟨⟨o, f⟩, _ | x⟩ _ <;> cases ha : a o <;> simp [Option.filter, ha]

end Edges

end Pointers

end Ownership
