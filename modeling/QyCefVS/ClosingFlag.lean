import QyCefVS.Session

/-! The `is_closing_` flag. It records that some browser was asked to close while it was the
only one live, and is never reset; the close of the last window is what it is meant to allow.
The two agree until a browser is created after such a request, or the browser left by a close
had been asked before, when it was not yet alone. -/

namespace QyCefVS.ClosingFlag

open Handler LifeSpan Transitions

variable {β : Type} [DecidableEq β] {rule : OrphanRule} {v : Bool} {n : ℕ}
  {es : List (Event β)} {s : Session β}

def FlagExact (s : Session β) : Prop :=
  s.ledger.live ≠ [] →
    (s.handler.isClosing = true ↔ ∃ b, s.ledger.live = [b] ∧ b ∈ s.ledger.asked)

def Timely (s : Session β) : Event β → Prop
  | .created _ _ => s.ledger.alone = []
  | .beforeClose p => ∀ b, s.ledger.live.filter (· ≠ p.browser) = [b] → b ∉ s.ledger.asked
  | .cancelled _ | .doClose _ | .beforePopup _ => True

lemma asked_created (h : (session rule v n).Runs es s) {b : β} (hb : b ∈ s.ledger.asked) :
    b ∈ s.ledger.created.map (·.browser) := by
  refine h.invariant (I := fun s => ∀ b ∈ s.ledger.asked, b ∈ s.ledger.created.map (·.browser))
    (by simp [session, Session.start, Ledger.start]) ?_ b hb
  intro s e t ih he c hc
  obtain ⟨hp, rfl⟩ := Session.step_eq_some.mp he
  cases e with
  | created origin p =>
    have hm := ih c hc
    simp only [Session.deliver, Ledger.create, List.map_append, List.mem_append]
    exact Or.inl hm
  | doClose p =>
    rcases List.mem_append.mp hc with hc | hc
    · exact ih c hc
    · obtain rfl := List.mem_singleton.mp hc
      exact (Ledger.mem_live.mp hp).1
  | cancelled opener | beforeClose p => exact ih c hc
  | beforePopup q =>
    rw [Session.deliver_beforePopup] at hc ⊢
    exact ih c hc

theorem isClosing_iff_alone (h : (session rule v n).Runs es s) :
    s.handler.isClosing = true ↔ s.ledger.alone ≠ [] := by
  refine h.induct (P := fun _ s => s.handler.isClosing = true ↔ s.ledger.alone ≠ [])
    (by simp [session, Session.start, Ledger.start]) ?_
  intro es e s t hr ih he
  obtain ⟨hp, rfl⟩ := Session.step_eq_some.mp he
  cases e with
  | created origin p | cancelled opener | beforeClose p => exact ih
  | doClose p =>
    have hl := (session_traced hr).length_eq_one hp
    simp only [Session.deliver, SimpleHandler.doClose_isClosing, Ledger.ask, hl]
    split_ifs with ha <;> simp [ha, ih]
  | beforePopup q =>
    rw [Session.deliver_beforePopup]
    exact ih

lemma FlagExact.down {b : β} (hf : FlagExact s) (hb : b ∈ s.ledger.live)
    (h : s.ledger.live ≠ [b]) : s.handler.isClosing = false := by
  rw [← Bool.not_eq_true, hf (List.ne_nil_of_mem hb)]
  rintro ⟨c, hc, _⟩
  rw [hc] at hb h
  exact h (by rw [List.mem_singleton.mp hb])

lemma flagExact_step {e : Event β} {t : Session β} (h : (session rule v n).Runs es s)
    (hf : FlagExact s) (he : (session rule v n).step s e = some t) : FlagExact t ↔ Timely s e := by
  obtain ⟨hp, rfl⟩ := Session.step_eq_some.mp he
  have ht := session_traced h
  cases e with
  | created origin p =>
    have hl := ht.create_live hp
    have hn : ¬ ∃ b, (s.ledger.create origin p).live = [b] ∧ b ∈ s.ledger.asked := by
      rintro ⟨b, hb, ha⟩
      have hm : p.browser ∈ (s.ledger.create origin p).live := by simp [hl]
      rw [hb, List.mem_singleton] at hm
      exact hp.2 (hm ▸ asked_created h ha)
    have hne : (s.ledger.create origin p).live ≠ [] := by simp [hl]
    simp only [FlagExact, Session.deliver, Timely, Ledger.create_asked, hn, iff_false, Bool.not_eq_true,
      SimpleHandler.onAfterCreated_isClosing]
    rw [forall_prop_of_true hne, ← Bool.not_eq_true, isClosing_iff_alone h, not_not]
  | cancelled opener => exact ⟨fun _ => trivial, fun _ => hf⟩
  | doClose p =>
    refine ⟨fun _ => trivial, fun _ _ => ?_⟩
    have hl := ht.length_eq_one hp
    simp only [Session.deliver, SimpleHandler.doClose_isClosing, hl, Ledger.ask_live, Ledger.ask_asked]
    by_cases h1 : s.ledger.live = [p.browser]
    · simp [h1]
    · have hn : ¬ ∃ b, s.ledger.live = [b] ∧ b ∈ s.ledger.asked ++ [p.browser] := by
        rintro ⟨b, hb, -⟩
        have hm : p.browser ∈ [b] := hb ▸ hp
        exact h1 (by rw [hb, List.mem_singleton.mp hm])
      exact iff_of_false (by simp [hf.down hp h1, h1]) hn
  | beforeClose p =>
    simp only [FlagExact, Session.deliver, Ledger.close_live, Timely, Ledger.close_asked,
      SimpleHandler.onBeforeClose_isClosing]
    by_cases h1 : s.ledger.live = [p.browser]
    · simp [h1]
    · rw [hf.down hp h1]
      generalize s.ledger.live.filter (· ≠ p.browser) = l
      by_cases hl : l = [] <;> simp [hl]
  | beforePopup q =>
    refine ⟨fun _ => trivial, fun _ => ?_⟩
    rw [FlagExact, Session.deliver_beforePopup]
    exact hf

theorem flag_exact_iff (rule : OrphanRule) (useViews : Bool) (n : ℕ) (es : List (Event β))
    (s : Session β) (h : (session rule useViews n).Runs es s) :
    (session rule useViews n).Always es FlagExact ↔ (session rule useViews n).EachStep es Timely :=
  Machine.always_iff_eachStep (fun hl => absurd rfl hl) (fun _ _ _ _ => flagExact_step) h

def latePopup : List (Event ℕ) :=
  [.created none (window 0), popup 0 "", .doClose (window 0), .created (some 0) (window 1)]

def overlappingCloses : List (Event ℕ) :=
  [.created none (window 0), popup 0 "", .created (some 0) (window 1), .doClose (window 0),
    .doClose (window 1), .beforeClose (window 1)]

lemma latePopup_wrong {s : Session ℕ} (h : (session .cancelled false 1).Runs latePopup s) :
    ¬ FlagExact s := by
  obtain rfl := Option.some.inj h
  intro hf
  obtain ⟨b, hb, -⟩ := (hf (by decide)).mp rfl
  have hl : ([0, 1] : List ℕ) = [b] := hb
  simp at hl

lemma overlappingCloses_wrong {s : Session ℕ}
    (h : (session .cancelled false 1).Runs overlappingCloses s) : ¬ FlagExact s := by
  obtain rfl := Option.some.inj h
  intro hf
  exact absurd ((hf (by decide)).mpr ⟨0, by decide, by decide⟩) (by decide)

theorem latePopup_untimely : ¬ (session .cancelled false 1).EachStep latePopup Timely := by
  intro h
  have hr : (session .cancelled false 1).Runs latePopup _ := rfl
  exact latePopup_wrong hr (((flag_exact_iff _ _ _ _ _ hr).mpr h).last hr)

theorem flag_inexact :
    (∃ s : Session ℕ, (session .cancelled false 1).Runs latePopup s ∧ ¬ FlagExact s) ∧
      ∃ s : Session ℕ, (session .cancelled false 1).Runs overlappingCloses s ∧ ¬ FlagExact s :=
  ⟨⟨_, rfl, latePopup_wrong rfl⟩, ⟨_, rfl, overlappingCloses_wrong rfl⟩⟩

end QyCefVS.ClosingFlag
