import QyCefVS.Session

/-! The whole process: `main` of `main.cpp`, which ignores the result of `CefInitialize`, and
`SimpleApp::OnContextInitialized` of `simple_app.cc`, which ignores that of `CreateBrowser`. -/

namespace QyCefVS.Application

open Handler LifeSpan Transitions

structure CreateBrowserCall where
  windowName : String
  url : String
  deriving DecidableEq

structure Results where
  exitCode : ℤ
  initialized : Bool
  createBrowser : CreateBrowserCall → Bool

inductive MainPc
  | cefExecuteProcess
  | cefInitialize
  | cefRunMessageLoop
  | cefShutdown
  | returned (code : ℤ)
  deriving DecidableEq

/-- `app` is empty until `OnContextInitialized` has built the handler. -/
structure Process (β : Type) where
  pc : MainPc
  app : Option (Session β)
  deriving DecidableEq

inductive ProcessEvent (β : Type)
  | main
  | contextInitialized
  | lifeSpan (e : Event β)
  deriving DecidableEq

def firstBrowser : CreateBrowserCall := ⟨"cefsimple", "https://www.baidu.com"⟩

def Results.founders (r : Results) : ℕ := if r.createBrowser firstBrowser then 1 else 0

lemma Results.founders_le (r : Results) : r.founders ≤ 1 := by
  rw [founders]
  split <;> omega

def working : Results := ⟨-1, true, fun _ => true⟩

variable {β : Type}

def ProcessEvent.lifeSpan? : ProcessEvent β → Option (Event β)
  | .lifeSpan e => some e
  | _ => none

def lifeSpans (es : List (ProcessEvent β)) : List (Event β) := es.filterMap ProcessEvent.lifeSpan?

/-- `main` hands the UI thread to libcef in these calls. -/
def MainPc.inLibcef : MainPc → Bool
  | .cefInitialize | .cefRunMessageLoop | .cefShutdown => true
  | .cefExecuteProcess | .returned _ => false

def onContextInitialized (r : Results) : Session β := .start false r.founders

namespace Process

def start : Process β := ⟨.cefExecuteProcess, none⟩

def pending (p : Process β) : List (Option β) := p.app.elim [] (·.ledger.pending)

def created (p : Process β) : List (BrowserPtr β) := p.app.elim [] (·.ledger.created)

def list (p : Process β) : List (BrowserPtr β) := p.app.elim [] (·.handler.browserList)

def effects (p : Process β) : List (Effect β) := p.app.elim [] (·.effects)

/-- The session of the process, before its handler exists the one it is going to start. -/
def session (r : Results) (p : Process β) : Session β := p.app.getD (onContextInitialized r)

lemma session_of_app {r : Results} {p : Process β} {s : Session β} (hs : p.app = some s) :
    p.session r = s := by
  rw [session, hs, Option.getD_some]

lemma session_created (r : Results) (p : Process β) : (p.session r).ledger.created = p.created := by
  cases hs : p.app <;> simp [session, created, hs, onContextInitialized, Session.start, Ledger.start]

lemma session_effects (r : Results) (p : Process β) : (p.session r).effects = p.effects := by
  cases hs : p.app <;> simp [session, effects, hs, onContextInitialized, Session.start]

variable [DecidableEq β]

def quits (p : Process β) : ℕ := p.app.elim 0 Session.quits

def live (p : Process β) : List β := p.app.elim [] (·.ledger.live)

/-- `OnContextInitialized` is delivered if and only if `CefInitialize` succeeds. -/
def ContextToCome (r : Results) (p : Process β) : Prop := r.initialized = true ∧ p.app = none

instance (r : Results) (p : Process β) : Decidable (p.ContextToCome r) :=
  inferInstanceAs (Decidable (_ ∧ _))

def mainStep (r : Results) (p : Process β) : Option (Process β) :=
  match p.pc with
  | .cefExecuteProcess =>
    some { p with pc := if r.exitCode ≥ 0 then .returned r.exitCode else .cefInitialize }
  -- the result of `CefInitialize` is not looked at
  | .cefInitialize => some { p with pc := .cefRunMessageLoop }
  | .cefRunMessageLoop => if 0 < p.quits then some { p with pc := .cefShutdown } else none
  | .cefShutdown => some { p with pc := .returned 0 }
  | .returned _ => none

def step (rule : OrphanRule) (r : Results) (p : Process β) : ProcessEvent β → Option (Process β)
  | .main => p.mainStep r
  | .contextInitialized =>
    if p.pc.inLibcef ∧ p.ContextToCome r then
      some { p with app := some (onContextInitialized r) }
    else none
  | .lifeSpan e =>
    if p.pc.inLibcef then
      (p.app.bind (·.step rule e)).map fun s => { p with app := some s }
    else none

end Process

variable [DecidableEq β]

def process (rule : OrphanRule) (r : Results) : Machine (Process β) (ProcessEvent β) :=
  ⟨.start, Process.step rule r⟩

variable {rule : OrphanRule} {r : Results} {p p' : Process β}

lemma step_main (h : (process rule r).step p .main = some p') :
    p'.app = p.app ∧
      ((p.pc = .cefExecuteProcess ∧ 0 ≤ r.exitCode ∧ p'.pc = .returned r.exitCode) ∨
        (p.pc = .cefExecuteProcess ∧ r.exitCode < 0 ∧ p'.pc = .cefInitialize) ∨
        (p.pc = .cefInitialize ∧ p'.pc = .cefRunMessageLoop) ∨
        (p.pc = .cefRunMessageLoop ∧ 0 < p.quits ∧ p'.pc = .cefShutdown) ∨
        (p.pc = .cefShutdown ∧ p'.pc = .returned 0)) := by
  change p.mainStep r = some p' at h
  cases hpc : p.pc with
  | cefExecuteProcess =>
    obtain rfl : _ = p' := by simpa [Process.mainStep, hpc] using h
    by_cases hx : 0 ≤ r.exitCode
    · simp [hx]
    · simp [hx, Int.not_le.mp hx]
  | cefInitialize =>
    obtain rfl : _ = p' := by simpa [Process.mainStep, hpc] using h
    simp
  | cefRunMessageLoop =>
    obtain ⟨hq, rfl⟩ : 0 < p.quits ∧ _ = p' := by simpa [Process.mainStep, hpc] using h
    simp [hq]
  | cefShutdown =>
    obtain rfl : _ = p' := by simpa [Process.mainStep, hpc] using h
    simp
  | returned c => simp [Process.mainStep, hpc] at h

lemma step_contextInitialized (h : (process rule r).step p .contextInitialized = some p') :
    p.pc.inLibcef = true ∧ p.app = none ∧ r.initialized = true ∧
      p' = { p with app := some (onContextInitialized r) } := by
  change (if _ then _ else none) = _ at h
  rw [Option.ite_none_right_eq_some] at h
  obtain ⟨⟨hc, hi, ha⟩, hp⟩ := h
  exact ⟨hc, ha, hi, (Option.some.inj hp).symm⟩

lemma step_lifeSpan {e : Event β} (h : (process rule r).step p (.lifeSpan e) = some p') :
    p.pc.inLibcef = true ∧
      ∃ s t, p.app = some s ∧ s.step rule e = some t ∧ p' = { p with app := some t } := by
  change (if _ then _ else none) = _ at h
  rw [Option.ite_none_right_eq_some, Option.map_eq_some_iff] at h
  obtain ⟨hc, t, hb, rfl⟩ := h
  obtain ⟨s, hs, ht⟩ := Option.bind_eq_some_iff.mp hb
  exact ⟨hc, s, t, hs, ht, rfl⟩

theorem process_session {es : List (ProcessEvent β)} (h : (process rule r).Runs es p) :
    (session rule false r.founders).Runs (lifeSpans es) (p.session r) := by
  apply h.projects (N := session rule false r.founders) (Process.session r)
    ProcessEvent.lifeSpan? rfl
  intro p e p' he
  cases e with
  | main => exact congrArg some (by rw [Process.session, Process.session, (step_main he).1])
  | contextInitialized =>
    obtain ⟨_, ha, _, rfl⟩ := step_contextInitialized he
    exact congrArg some (by rw [Process.session, Process.session, ha]; rfl)
  | lifeSpan e =>
    obtain ⟨_, s, t, hs, ht, rfl⟩ := step_lifeSpan he
    rw [Process.session_of_app hs]
    exact Option.bind_eq_some_iff.mpr ⟨t, ht, rfl⟩

lemma process_app {es : List (ProcessEvent β)} {s : Session β} (h : (process rule r).Runs es p)
    (hs : p.app = some s) : (session rule false r.founders).Runs (lifeSpans es) s :=
  Process.session_of_app hs ▸ process_session h

end QyCefVS.Application
