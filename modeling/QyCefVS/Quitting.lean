import QyCefVS.Application

/-! When the process quits. `CefQuitMessageLoop` is called once at most, by the close of the
last live browser; nothing is left to be created then, and no callback follows. -/

namespace QyCefVS.Application

open Handler LifeSpan Transitions

variable {β : Type} [DecidableEq β] {r : Results} {es : List (ProcessEvent β)} {p : Process β}

lemma process_quits {s : Session β} (h : (process .cancelled r).Runs es p) (hs : p.app = some s) :
    p.quits = if r.founders = 1 ∧ s.ledger.Quiet then 1 else 0 := by
  have hr := process_app h hs
  have hq : p.quits = s.quits := by simp [Process.quits, hs]
  rcases Nat.le_one_iff_eq_zero_or_eq_one.mp r.founders_le with hn | hn
  · rw [hn] at hr ⊢
    rw [hq, runs_zero hr]
    rfl
  · rw [hn] at hr ⊢
    simp [hq, quits_eq hr]

lemma quits_le_one (h : (process .cancelled r).Runs es p) : p.quits ≤ 1 := by
  cases hs : p.app with
  | none => simp [Process.quits, hs]
  | some s =>
    rw [process_quits h hs]
    split <;> omega

def Process.Over (p : Process β) : Prop := ∃ s, p.app = some s ∧ s.ledger.Quiet

lemma over_of_quits (h : (process .cancelled r).Runs es p) (hq : 0 < p.quits) : p.Over := by
  cases hs : p.app with
  | none => simp [Process.quits, hs] at hq
  | some s =>
    rw [process_quits h hs] at hq
    split at hq
    case isTrue hn => exact ⟨s, hs, hn.2⟩
    case isFalse => omega

lemma Process.Over.quiet (r : Results) (h : p.Over) :
    p.live = [] ∧ p.pending = [] ∧ ¬ p.ContextToCome r := by
  obtain ⟨s, hs, hl, hp⟩ := h
  simp [Process.live, Process.pending, Process.ContextToCome, hs, hl, hp]

lemma over_step {e : ProcessEvent β} {p' : Process β} (h : p.Over)
    (he : (process .cancelled r).step p e = some p') : e = .main ∧ p'.Over := by
  obtain ⟨s, hs, hq⟩ := h
  cases e with
  | main => exact ⟨rfl, s, (step_main he).1.trans hs, hq⟩
  | contextInitialized =>
    have ha := (step_contextInitialized he).2.1
    simp [hs] at ha
  | lifeSpan e =>
    obtain ⟨_, s', t, hs', ht, _⟩ := step_lifeSpan he
    obtain rfl := Option.some.inj (hs.symm.trans hs')
    exact absurd hq (Session.step_eq_some.mp ht).1.not_quiet

lemma quit_step {e : ProcessEvent β} {s t : Process β} (hr : (process .cancelled r).Runs es s)
    (he : (process .cancelled r).step s e = some t) :
    s.quits < t.quits ↔ (∃ q, e = .lifeSpan (.beforeClose q)) ∧ t.live = [] := by
  cases e with
  | main => simp [Process.quits, (step_main he).1]
  | contextInitialized =>
    obtain ⟨_, _, _, rfl⟩ := step_contextInitialized he
    have hq : Session.quits (onContextInitialized r : Session β) = 0 := rfl
    simp [Process.quits, hq]
  | lifeSpan e =>
    obtain ⟨_, a, b, ha, hb, rfl⟩ := step_lifeSpan he
    obtain ⟨_, rfl⟩ := Session.step_eq_some.mp hb
    have hd := deliver_quits .cancelled (session_traced (process_app hr ha)) e
    have hc : (∃ q, e = .beforeClose q) ↔ e.isClose := by cases e <;> simp [Event.isClose]
    simp only [Process.quits, Process.live, ha, Option.elim_some, hd, ProcessEvent.lifeSpan.injEq,
      hc]
    split_ifs with hq <;> simp [hq]

lemma last_live {q : BrowserPtr β} {s t : Process β} (hr : (process .cancelled r).Runs es s)
    (he : (process .cancelled r).step s (.lifeSpan (.beforeClose q)) = some t)
    (hl : t.live = []) : s.live = [q.browser] := by
  obtain ⟨_, a, b, ha, hb, rfl⟩ := step_lifeSpan he
  obtain ⟨hp, rfl⟩ := Session.step_eq_some.mp hb
  rw [Process.live, ha]
  exact last_close (session_traced (process_app hr ha)) hp hl

structure Process.Ended (p : Process β) : Prop where
  begun : p.pc = .cefExecuteProcess → p.app = none
  shutdown : p.pc = .cefShutdown → 0 < p.quits
  returned : ∀ c, p.pc = .returned c → 0 < p.quits ∨ p.app = none

lemma process_ended (h : (process .cancelled r).Runs es p) : p.Ended := by
  apply h.induct (P := fun _ p => p.Ended)
  · exact ⟨fun _ => rfl, by simp [process, Process.start], by simp [process, Process.start]⟩
  · rintro es e p p' hr ⟨hx, hs, hc⟩ he
    cases e with
    | main =>
      obtain ⟨ha, hm⟩ := step_main he
      have hq : p'.quits = p.quits := by simp [Process.quits, ha]
      rcases hm with ⟨h1, _, h2⟩ | ⟨_, _, h2⟩ | ⟨_, h2⟩ | ⟨_, hl, h2⟩ | ⟨h1, h2⟩
      · exact ⟨by simp [h2], by simp [h2], by simp [ha, hx h1]⟩
      · exact ⟨by simp [h2], by simp [h2], by simp [h2]⟩
      · exact ⟨by simp [h2], by simp [h2], by simp [h2]⟩
      · exact ⟨by simp [h2], by simp [hq, hl], by simp [h2]⟩
      · exact ⟨by simp [h2], by simp [h2], by simp [hq, hs h1]⟩
    | contextInitialized =>
      obtain ⟨hl, ha, _, rfl⟩ := step_contextInitialized he
      have hq : p.quits = 0 := by simp [Process.quits, ha]
      cases hpc : p.pc with
      | cefShutdown => exact absurd (hs hpc) (by omega)
      | cefInitialize | cefRunMessageLoop => exact ⟨by simp, by simp, by simp⟩
      | cefExecuteProcess | returned c => simp [hpc, MainPc.inLibcef] at hl
    | lifeSpan e =>
      obtain ⟨hl, _, _, _, _, rfl⟩ := step_lifeSpan he
      cases hpc : p.pc with
      | cefShutdown => exact absurd (over_step (over_of_quits hr (hs hpc)) he).1 (by simp)
      | cefInitialize | cefRunMessageLoop => exact ⟨by simp, by simp, by simp⟩
      | cefExecuteProcess | returned c => simp [hpc, MainPc.inLibcef] at hl

theorem quitting_final (r : Results) (es : List (ProcessEvent β)) (p : Process β)
    (h : (process .cancelled r).Runs es p) :
    -- the call is made once at most, and not while a browser is live or to come
    p.quits ≤ 1 ∧
    (0 < p.quits → p.live = [] ∧ p.pending = [] ∧ ¬ p.ContextToCome r) ∧
    -- it is made by the close of the only live browser and by each such close
    (∀ pre e post s t, es = pre ++ e :: post → (process .cancelled r).Runs pre s →
      (process .cancelled r).step s e = some t →
      (s.quits < t.quits ↔ (∃ q, e = .lifeSpan (.beforeClose q)) ∧ t.live = []) ∧
      (s.quits < t.quits →
        (∃ q, e = .lifeSpan (.beforeClose q) ∧ s.live = [q.browser]) ∧
        t.live = [] ∧ t.pending = [] ∧ ∀ f ∈ post, f = .main)) ∧
    -- when the message loop has returned every browser has been closed
    ((p.pc = .cefShutdown ∨ ∃ c, p.pc = .returned c) → p.live = [] ∧ p.pending = []) := by
  refine ⟨quits_le_one h, fun hq => (over_of_quits h hq).quiet r, ?_, ?_⟩
  · rintro pre e post s t rfl hs he
    refine ⟨quit_step hs he, fun hq => ?_⟩
    have ht := over_of_quits (hs.snoc he) (Nat.zero_lt_of_lt hq)
    obtain ⟨⟨q, rfl⟩, hl⟩ := (quit_step hs he).mp hq
    refine ⟨⟨q, rfl, last_live hs he hl⟩, hl, (ht.quiet r).2.1, ?_⟩
    have hpost : (process .cancelled r).exec t post = some p := by
      rw [List.append_cons] at h
      obtain ⟨u, hu, hx⟩ := h.split
      exact hu.unique (hs.snoc he) ▸ hx
    exact (Machine.exec_forall (fun _ _ _ hi hx => over_step hi hx) ht hpost).1
  · intro hpc
    have hq : 0 < p.quits ∨ p.app = none := by
      rcases hpc with hpc | ⟨c, hpc⟩
      · exact Or.inl ((process_ended h).shutdown hpc)
      · exact (process_ended h).returned c hpc
    rcases hq with hq | ha
    · obtain ⟨hl, hp, _⟩ := (over_of_quits h hq).quiet r
      exact ⟨hl, hp⟩
    · simp [Process.live, Process.pending, ha]

def browsing : List (ProcessEvent ℕ) :=
  [.main, .contextInitialized, .main, .lifeSpan (.created none (window 0)),
    .lifeSpan (popup 0 ""), .lifeSpan (.created (some 0) (window 1)), .lifeSpan (popup 1 ""),
    .lifeSpan (.doClose (window 0)), .lifeSpan (.beforeClose (window 0)),
    .lifeSpan (.beforeClose (window 1)), .main, .main]

theorem browsing_quits : ∃ p : Process ℕ, (process .cancelled working).Runs browsing p ∧
    p.pc = .returned 0 ∧ p.quits = 1 ∧ p.live = [] ∧ p.pending = [] := by
  have h : (process .cancelled working).Runs browsing _ := rfl
  obtain ⟨-, -, -, hend⟩ := quitting_final working browsing _ h
  exact ⟨_, h, rfl, rfl, hend (Or.inr ⟨0, rfl⟩)⟩

end QyCefVS.Application
