import Mathlib.Data.List.Induction
import QyCefVS.Handler
import QyCefVS.Library.Transitions

/-! The handler's list of browsers over any admissible sequence of callbacks: it holds the
handles passed to `OnAfterCreated`, in that order, of the browsers not yet closed. -/

namespace QyCefVS.BrowserList

open Handler

variable {β : Type}

def created? : Callback β → Option (BrowserPtr β)
  | .onAfterCreated p => some p
  | _ => none

def closed? : Callback β → Option β
  | .onBeforeClose p => some p.browser
  | _ => none

def createdBy (cs : List (Callback β)) : List (BrowserPtr β) := cs.filterMap created?

def closedBy (cs : List (Callback β)) : List β := cs.filterMap closed?

lemma createdBy_snoc (cs : List (Callback β)) (c : Callback β) :
    createdBy (cs ++ [c]) = createdBy cs ++ (created? c).toList :=
  Transitions.filterMap_snoc created? cs c

lemma closedBy_snoc (cs : List (Callback β)) (c : Callback β) :
    closedBy (cs ++ [c]) = closedBy cs ++ (closed? c).toList :=
  Transitions.filterMap_snoc closed? cs c

/-- What the past callbacks `cs` allow next: creation is the first notification of a browser,
and its close comes once, after the creation. -/
def Permits (cs : List (Callback β)) : Callback β → Prop
  | .onAfterCreated p => ∀ c ∈ cs, c.browser.browser ≠ p.browser
  | .onBeforeClose p => p.browser ∈ (createdBy cs).map (·.browser) ∧ p.browser ∉ closedBy cs
  | .doClose _ | .onBeforePopup _ => True

def Admissible (cs : List (Callback β)) : Prop := ∀ pre c, pre ++ [c] <+: cs → Permits pre c

lemma admissible_nil : Admissible ([] : List (Callback β)) := by
  intro pre c hp
  simp at hp

lemma admissible_snoc {cs : List (Callback β)} {c : Callback β} :
    Admissible (cs ++ [c]) ↔ Admissible cs ∧ Permits cs c := by
  constructor
  · intro h
    exact ⟨fun pre d hp => h pre d (hp.trans (List.prefix_append cs [c])),
      h cs c (List.prefix_refl _)⟩
  · rintro ⟨h, hc⟩ pre d hp
    rcases List.prefix_concat_iff.mp hp with he | hp
    · obtain ⟨rfl, hd⟩ := List.append_inj' he rfl
      obtain rfl := (List.cons.inj hd).1
      exact hc
    · exact h pre d hp

lemma Admissible.earlier {pre cs : List (Callback β)} (h : Admissible cs) (hp : pre <+: cs) :
    Admissible pre :=
  fun pre' c hc => h pre' c (hc.trans hp)

lemma mem_createdBy {cs : List (Callback β)} {p : BrowserPtr β} :
    p ∈ createdBy cs ↔ .onAfterCreated p ∈ cs := by
  rw [createdBy, List.mem_filterMap]
  constructor
  · rintro ⟨c, hc, he⟩
    cases c with
    | onAfterCreated q => exact Option.some.inj he ▸ hc
    | doClose q | onBeforeClose q | onBeforePopup q => simp [created?] at he
  · intro h
    exact ⟨_, h, rfl⟩

lemma Permits.fresh {cs : List (Callback β)} {p : BrowserPtr β} (h : Permits cs (.onAfterCreated p)) :
    p.browser ∉ (createdBy cs).map (·.browser) := by
  intro hm
  obtain ⟨q, hq, he⟩ := List.mem_map.mp hm
  exact h _ (mem_createdBy.mp hq) he

lemma created_nodup {cs : List (Callback β)} (h : Admissible cs) :
    ((createdBy cs).map (·.browser)).Nodup := by
  induction cs using List.reverseRecOn with
  | nil => exact List.nodup_nil
  | append_singleton cs c ih =>
    obtain ⟨ha, hc⟩ := admissible_snoc.mp h
    rw [createdBy_snoc]
    cases c with
    | onAfterCreated p =>
      rw [List.map_append]
      refine List.nodup_append.mpr ⟨ih ha, by simp [created?], ?_⟩
      intro a hm b hb hab
      obtain rfl : b = p.browser := by simpa [created?] using hb
      exact hc.fresh (hab ▸ hm)
    | doClose p | onBeforeClose p | onBeforePopup q => simpa [created?] using ih ha

lemma closed_created {cs : List (Callback β)} (h : Admissible cs) {b : β} (hb : b ∈ closedBy cs) :
    b ∈ (createdBy cs).map (·.browser) := by
  induction cs using List.reverseRecOn with
  | nil => simp [closedBy] at hb
  | append_singleton cs c ih =>
    obtain ⟨ha, hc⟩ := admissible_snoc.mp h
    rw [closedBy_snoc, List.mem_append] at hb
    rw [createdBy_snoc, List.map_append, List.mem_append]
    rcases hb with hb | hb
    · exact Or.inl (ih ha hb)
    · cases c with
      | onBeforeClose p =>
        obtain rfl : b = p.browser := by simpa [closed?] using hb
        exact Or.inl hc.1
      | onAfterCreated p | doClose p | onBeforePopup q => simp [closed?] at hb

lemma admissible_iff {cs : List (Callback β)} :
    Admissible cs ↔ ∀ i : Fin cs.length, Permits (cs.take i) cs[i] := by
  constructor
  · intro h i
    apply h _ _
    rw [Fin.getElem_fin, ← List.take_succ_eq_append_getElem i.isLt]
    exact List.take_prefix _ _
  · rintro h pre c ⟨post, rfl⟩
    have hc := h ⟨pre.length, by simp⟩
    simpa using hc

variable [DecidableEq β]

instance (cs : List (Callback β)) : (c : Callback β) → Decidable (Permits cs c)
  | .onAfterCreated _ => inferInstanceAs (Decidable (∀ c ∈ cs, _))
  | .onBeforeClose _ => inferInstanceAs (Decidable (_ ∧ _))
  | .doClose _ | .onBeforePopup _ => inferInstanceAs (Decidable True)

instance (cs : List (Callback β)) : Decidable (Admissible cs) :=
  decidable_of_iff _ admissible_iff.symm

def handlerAfter (useViews : Bool) (cs : List (Callback β)) : SimpleHandler β :=
  cs.foldl SimpleHandler.notify (.new useViews)

lemma handlerAfter_snoc (v : Bool) (cs : List (Callback β)) (c : Callback β) :
    handlerAfter v (cs ++ [c]) = (handlerAfter v cs).notify c := by
  simp [handlerAfter]

lemma list_eq (v : Bool) {cs : List (Callback β)} (h : Admissible cs) :
    (handlerAfter v cs).browserList = (createdBy cs).filter (·.browser ∉ closedBy cs) := by
  induction cs using List.reverseRecOn with
  | nil => rfl
  | append_singleton cs c ih =>
    obtain ⟨ha, hc⟩ := admissible_snoc.mp h
    rw [handlerAfter_snoc, createdBy_snoc, closedBy_snoc]
    cases c with
    | onAfterCreated p =>
      have hp : p.browser ∉ closedBy cs := fun hm => hc.fresh (closed_created ha hm)
      simp [SimpleHandler.notify, ih ha, created?, closed?, hp]
    | doClose p | onBeforePopup q => simp [SimpleHandler.notify, ih ha, created?, closed?]
    | onBeforeClose p =>
      have hn : ((handlerAfter v cs).browserList.map (·.browser)).Nodup := by
        rw [ih ha]
        exact (created_nodup ha).sublist (List.filter_sublist.map _)
      rw [SimpleHandler.notify, SimpleHandler.onBeforeClose_browserList,
        SimpleHandler.eraseSame_eq_filter p hn, ih ha, List.filter_filter]
      simp [created?, closed?, not_or, and_comm]

def Live (cs : List (Callback β)) (b : β) : Prop :=
  b ∈ (createdBy cs).map (·.browser) ∧ b ∉ closedBy cs

instance (cs : List (Callback β)) (b : β) : Decidable (Live cs b) :=
  inferInstanceAs (Decidable (_ ∧ _))

lemma mem_list_iff (v : Bool) {cs : List (Callback β)} (h : Admissible cs) (b : β) :
    b ∈ (handlerAfter v cs).browserList.map (·.browser) ↔ Live cs b := by
  rw [list_eq v h]
  simp only [List.mem_map, List.mem_filter, decide_eq_true_eq, Live]
  constructor
  · rintro ⟨p, ⟨hp, hc⟩, rfl⟩
    exact ⟨⟨p, hp, rfl⟩, hc⟩
  · rintro ⟨⟨p, hp, rfl⟩, hc⟩
    exact ⟨p, ⟨hp, hc⟩, rfl⟩

lemma list_nodup (v : Bool) {cs : List (Callback β)} (h : Admissible cs) :
    ((handlerAfter v cs).browserList.map (·.browser)).Nodup := by
  rw [list_eq v h]
  exact (created_nodup h).sublist (List.filter_sublist.map _)

theorem browserList_exact (useViews : Bool) (cs : List (Callback β)) (h : Admissible cs)
    (pre : List (Callback β)) (hp : pre <+: cs) :
    (∀ b, (handlerAfter useViews pre).browserList.countP (·.browser = b) =
      if Live pre b then 1 else 0) ∧
    (handlerAfter useViews pre).browserList.Pairwise (fun p q => p.isSame q = false) ∧
    (handlerAfter useViews pre).browserList =
      (createdBy pre).filter (·.browser ∉ closedBy pre) ∧
    (∀ p ∈ (handlerAfter useViews pre).browserList, p.browser ∉ closedBy pre) ∧
    (∀ p, pre ++ [.doClose p] <+: cs →
      (handlerAfter useViews (pre ++ [.doClose p])).browserList =
        (handlerAfter useViews pre).browserList) ∧
    (∀ q, pre ++ [.onBeforePopup q] <+: cs →
      (handlerAfter useViews (pre ++ [.onBeforePopup q])).browserList =
        (handlerAfter useViews pre).browserList) := by
  have ha := h.earlier hp
  have hn := list_nodup useViews ha
  refine ⟨fun b => ?_, ?_, list_eq useViews ha, ?_, fun p _ => ?_, fun q _ => ?_⟩
  · have hc := hn.count (a := b)
    rw [if_congr (mem_list_iff useViews ha b) rfl rfl] at hc
    rw [← hc, List.count, List.countP_map]
    rfl
  · refine (List.pairwise_map.mp hn).imp fun {p q} hne => ?_
    simpa [BrowserPtr.isSame] using hne
  · intro p hp
    rw [list_eq useViews ha] at hp
    simpa using (List.mem_filter.mp hp).2
  · rw [handlerAfter_snoc]
    exact SimpleHandler.doClose_browserList _ p
  · rw [handlerAfter_snoc]
    rfl

def twoWindows : List (Callback ℕ) :=
  [.onAfterCreated ⟨0, 0⟩, .onAfterCreated ⟨1, 0⟩, .doClose ⟨0, 1⟩, .onBeforeClose ⟨0, 2⟩]

theorem twoWindows_exact :
    Admissible twoWindows ∧ (handlerAfter false twoWindows).browserList = [⟨1, 0⟩] := by
  have h : Admissible twoWindows := by decide
  obtain ⟨-, -, hl, -⟩ := browserList_exact false twoWindows h twoWindows (List.prefix_refl _)
  exact ⟨h, hl.trans (by decide)⟩

end QyCefVS.BrowserList
