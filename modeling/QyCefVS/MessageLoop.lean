import QyCefVS.Quitting

/-! Whether the message loop can still end. `CefQuitMessageLoop` is called only from the close
of a browser, so a process that enters the loop without ever having had one to create never
leaves it: the results of `CefInitialize` and `CreateBrowser` decide. -/

namespace QyCefVS.Application

open Handler LifeSpan Transitions

variable {β : Type} [DecidableEq β] {r : Results} {es : List (ProcessEvent β)} {p : Process β}

def Process.Stranded (r : Results) (p : Process β) : Prop :=
  p.pc = .cefRunMessageLoop ∧ ¬ p.ContextToCome r ∧ p.live = [] ∧ p.pending = []

instance (r : Results) (p : Process β) : Decidable (p.Stranded r) :=
  inferInstanceAs (Decidable (_ ∧ _))

def Results.StartsUp (r : Results) : Prop :=
  0 ≤ r.exitCode ∨ (r.initialized = true ∧ r.createBrowser firstBrowser = true)

lemma secondary_pc (h : (process .cancelled r).Runs es p)
    (hp : p.pc = .cefInitialize ∨ p.pc = .cefRunMessageLoop) : r.exitCode < 0 := by
  refine h.induct (P := fun _ p => p.pc = .cefInitialize ∨ p.pc = .cefRunMessageLoop →
    r.exitCode < 0) (by simp [process, Process.start]) ?_ hp
  intro es e p p' _ ih he
  cases e with
  | main =>
    rcases (step_main he).2 with ⟨_, _, h2⟩ | ⟨_, hx, _⟩ | ⟨h1, _⟩ | ⟨_, _, h2⟩ | ⟨_, h2⟩
    · simp [h2]
    · exact fun _ => hx
    · exact fun _ => ih (Or.inl h1)
    · simp [h2]
    · simp [h2]
  | contextInitialized =>
    obtain ⟨_, _, _, rfl⟩ := step_contextInitialized he
    exact ih
  | lifeSpan e =>
    obtain ⟨_, _, _, _, _, rfl⟩ := step_lifeSpan he
    exact ih

lemma quit_of_stranded (hr : r.StartsUp) (h : (process .cancelled r).Runs es p)
    (hp : p.Stranded r) : 0 < p.quits := by
  obtain ⟨hpc, hc, hl, hq⟩ := hp
  have hx := secondary_pc h (Or.inr hpc)
  obtain ⟨hi, hb⟩ := hr.resolve_left (by omega)
  cases hs : p.app with
  | none => exact absurd ⟨hi, hs⟩ hc
  | some s =>
    have hf : r.founders = 1 := by simp [Results.founders, hb]
    have hquiet : s.ledger.Quiet := by
      simpa [Process.live, Process.pending, hs, Ledger.Quiet] using And.intro hl hq
    rw [process_quits h hs, if_pos ⟨hf, hquiet⟩]
    exact Nat.one_pos

lemma stranded_uninitialized (hx : ¬ 0 ≤ r.exitCode) :
    (process .cancelled r).Runs [.main, .main] (⟨.cefRunMessageLoop, none⟩ : Process β) := by
  simp [Machine.Runs, process, Process.start, Process.step, Process.mainStep, hx]

lemma stranded_without_browser (hx : ¬ 0 ≤ r.exitCode) (hi : r.initialized = true)
    (hb : r.createBrowser firstBrowser = false) :
    (process .cancelled r).Runs [.main, .contextInitialized, .main]
      (⟨.cefRunMessageLoop, some (.start false 0)⟩ : Process β) := by
  simp [Machine.Runs, process, Process.start, Process.step, Process.mainStep, hx, hi,
    MainPc.inLibcef, Process.ContextToCome, onContextInitialized, Results.founders, hb]

theorem never_stranded_iff (β : Type) [DecidableEq β] (r : Results) :
    (∀ (es : List (ProcessEvent β)) (p : Process β), (process .cancelled r).Runs es p →
      p.Stranded r → 0 < p.quits) ↔ r.StartsUp := by
  constructor
  · intro h
    by_contra hr
    obtain ⟨hx, hn⟩ := not_or.mp hr
    cases hi : r.initialized with
    | false =>
      have hq := h _ _ (stranded_uninitialized hx)
        ⟨rfl, by simp [Process.ContextToCome, hi], rfl, rfl⟩
      exact Nat.lt_irrefl 0 hq
    | true =>
      have hb : r.createBrowser firstBrowser = false := by simpa [hi] using hn
      have hq := h _ _ (stranded_without_browser hx hi hb)
        ⟨rfl, by simp [Process.ContextToCome], rfl, rfl⟩
      exact Nat.lt_irrefl 0 hq
  · intro hr es p h hp
    exact quit_of_stranded hr h hp

def uninitialized : Results := ⟨-1, false, fun _ => true⟩

def withoutBrowser : Results := ⟨-1, true, fun _ => false⟩

theorem stranded_forever :
    (∃ p : Process ℕ, (process .cancelled uninitialized).Runs [.main, .main] p ∧
      p.Stranded uninitialized ∧ p.quits = 0) ∧
    (∃ p : Process ℕ,
      (process .cancelled withoutBrowser).Runs [.main, .contextInitialized, .main] p ∧
      p.Stranded withoutBrowser ∧ p.quits = 0) :=
  ⟨⟨⟨.cefRunMessageLoop, none⟩, by decide, by decide, rfl⟩,
    ⟨⟨.cefRunMessageLoop, some (.start false 0)⟩, by decide, by decide, rfl⟩⟩

end QyCefVS.Application
