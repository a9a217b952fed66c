import QyCefVS.BrowserList
import QyCefVS.Library.Counter

/-! The handler's list when nothing is assumed of the callbacks: browsers may be announced twice,
closed before they are announced or never announced at all. Each browser's entries are its latest
handles, and their number is the counter of its announcements and closes that stops at zero. -/

namespace QyCefVS.AnyOrder

open Handler BrowserList Counter

variable {β : Type} [DecidableEq β]

def change (b : β) : Callback β → ℤ
  | .onAfterCreated p => if p.browser = b then 1 else 0
  | .onBeforeClose p => if p.browser = b then -1 else 0
  | .doClose _ | .onBeforePopup _ => 0

def entries (b : β) (l : List (BrowserPtr β)) : List (BrowserPtr β) := l.filter (·.browser = b)

lemma entries_append (b : β) (l m : List (BrowserPtr β)) :
    entries b (l ++ m) = entries b l ++ entries b m := List.filter_append _ _

lemma eq_nil_iff_entries {l : List (BrowserPtr β)} : l = [] ↔ ∀ b, entries b l = [] := by
  constructor
  · rintro rfl b
    rfl
  · intro h
    apply List.eq_nil_iff_forall_not_mem.mpr
    intro p hp
    have hm : p ∈ entries p.browser l := List.mem_filter.mpr ⟨hp, by simp⟩
    rw [h] at hm
    exact List.not_mem_nil hm

lemma eraseSame_sublist (p : BrowserPtr β) (l : List (BrowserPtr β)) :
    (SimpleHandler.eraseSame p l).Sublist l := by
  induction l with
  | nil => exact .slnil
  | cons bit rest ih =>
    rw [SimpleHandler.eraseSame]
    split
    · exact .cons bit (List.Sublist.refl rest)
    · exact .cons_cons bit ih

/-- The search stops at the first match, so it is the oldest entry that goes. -/
lemma entries_eraseSame (b : β) (p : BrowserPtr β) (l : List (BrowserPtr β)) :
    entries b (SimpleHandler.eraseSame p l) =
      if p.browser = b then (entries b l).tail else entries b l := by
  induction l with
  | nil => simp [SimpleHandler.eraseSame, entries]
  | cons bit rest ih =>
    by_cases hs : bit.browser = p.browser
    · rw [SimpleHandler.eraseSame, if_pos ((bit.isSame_iff p).mpr hs)]
      by_cases hb : p.browser = b <;> simp [entries, hs, hb]
    · rw [SimpleHandler.eraseSame, if_neg (by simpa [BrowserPtr.isSame_iff] using hs)]
      by_cases hb : p.browser = b
      · have hbit : bit.browser ≠ b := fun he => hs (he.trans hb.symm)
        simpa [entries, hbit, hb] using ih
      · by_cases hbit : bit.browser = b <;> simp [entries, hbit, hb] at ih ⊢ <;> exact ih

lemma entries_notify (b : β) (h : SimpleHandler β) (c : Callback β) :
    (entries b (h.notify c).browserList).length =
      follow (entries b h.browserList).length (change b c) := by
  cases c with
  | onAfterCreated p =>
    rw [SimpleHandler.notify, SimpleHandler.onAfterCreated_browserList, entries_append]
    by_cases hp : p.browser = b <;> simp [entries, change, follow, hp]
  | doClose p => simp [SimpleHandler.notify, change, follow]
  | onBeforeClose p =>
    rw [SimpleHandler.notify, SimpleHandler.onBeforeClose_browserList, entries_eraseSame]
    by_cases hp : p.browser = b <;> simp [change, follow, hp]
    omega
  | onBeforePopup q => simp [SimpleHandler.notify, change, follow]

lemma entries_length (v : Bool) (cs : List (Callback β)) (b : β) :
    (entries b (handlerAfter v cs).browserList).length = value (cs.map (change b)) := by
  induction cs using List.reverseRecOn with
  | nil => rfl
  | append_singleton cs c ih =>
    rw [handlerAfter_snoc, entries_notify, ih, List.map_append, List.map_singleton, value_snoc]
    rfl

lemma entries_suffix (v : Bool) (cs : List (Callback β)) (b : β) :
    entries b (handlerAfter v cs).browserList <:+ entries b (createdBy cs) := by
  induction cs using List.reverseRecOn with
  | nil => exact List.suffix_rfl
  | append_singleton cs c ih =>
    rw [handlerAfter_snoc, createdBy_snoc, entries_append]
    cases c with
    | onAfterCreated p =>
      obtain ⟨gone, hg⟩ := ih
      refine ⟨gone, ?_⟩
      rw [SimpleHandler.notify, SimpleHandler.onAfterCreated_browserList, entries_append,
        ← List.append_assoc, hg]
      rfl
    | doClose p => simpa [SimpleHandler.notify, created?, entries] using ih
    | onBeforeClose p =>
      rw [SimpleHandler.notify, SimpleHandler.onBeforeClose_browserList, entries_eraseSame]
      have hc : entries b (created? (.onBeforeClose p)).toList = [] := rfl
      rw [hc, List.append_nil]
      split
      · exact (List.tail_suffix _).trans ih
      · exact ih
    | onBeforePopup q => simpa [SimpleHandler.notify, created?, entries] using ih

lemma list_sublist (v : Bool) (cs : List (Callback β)) :
    (handlerAfter v cs).browserList.Sublist (createdBy cs) := by
  induction cs using List.reverseRecOn with
  | nil => exact .slnil
  | append_singleton cs c ih =>
    rw [handlerAfter_snoc, createdBy_snoc]
    cases c with
    | onAfterCreated p => exact ih.append (List.Sublist.refl _)
    | doClose p | onBeforePopup q => simpa [SimpleHandler.notify, created?] using ih
    | onBeforeClose p =>
      rw [SimpleHandler.notify, SimpleHandler.onBeforeClose_browserList]
      simpa [created?] using (eraseSame_sublist p _).trans ih

def excesses (b : β) (cs : List (Callback β)) : Set ℤ :=
  { k | ∃ ds, ds <:+ cs ∧ k = (ds.map (change b)).sum }

lemma entries_greatest (v : Bool) (cs : List (Callback β)) (b : β) :
    IsGreatest (excesses b cs) (entries b (handlerAfter v cs).browserList).length := by
  have hs : suffixSums (cs.map (change b)) = excesses b cs := by
    ext k
    constructor
    · rintro ⟨ys, hy, rfl⟩
      obtain ⟨ds, hd, rfl⟩ := List.suffix_map_iff.mp hy
      exact ⟨ds, hd, rfl⟩
    · rintro ⟨ds, hd, rfl⟩
      exact ⟨_, hd.map _, rfl⟩
  rw [entries_length, ← hs]
  exact value_greatest _

theorem list_any_order (useViews : Bool) (cs : List (Callback β)) :
    (handlerAfter useViews cs).browserList.Sublist (createdBy cs) ∧
    ∀ b, entries b (handlerAfter useViews cs).browserList <:+ entries b (createdBy cs) ∧
      IsGreatest (excesses b cs) (entries b (handlerAfter useViews cs).browserList).length :=
  ⟨list_sublist useViews cs, fun b =>
    ⟨entries_suffix useViews cs b, entries_greatest useViews cs b⟩⟩

theorem quits_any_order (useViews : Bool) (cs : List (Callback β)) (p : BrowserPtr β) :
    .quitMessageLoop ∈ ((handlerAfter useViews cs).onBeforeClose p).1 ↔
      ∀ b, ∀ k ∈ excesses b (cs ++ [.onBeforeClose p]), k ≤ 0 := by
  have hl : (handlerAfter useViews (cs ++ [.onBeforeClose p])).browserList =
      SimpleHandler.eraseSame p (handlerAfter useViews cs).browserList := by
    rw [handlerAfter_snoc]
    rfl
  have hb : ∀ b, entries b (handlerAfter useViews (cs ++ [.onBeforeClose p])).browserList = [] ↔
      ∀ k ∈ excesses b (cs ++ [.onBeforeClose p]), k ≤ 0 := by
    intro b
    obtain ⟨hm, hu⟩ := entries_greatest useViews (cs ++ [.onBeforeClose p]) b
    rw [← List.length_eq_zero_iff]
    constructor
    · intro h0 k hk
      have hle := hu hk
      omega
    · intro h
      have hle := h _ hm
      omega
  rw [SimpleHandler.onBeforeClose_effects, ← hl, ← forall_congr' hb, ← eq_nil_iff_entries]
  split <;> simp_all

end QyCefVS.AnyOrder
