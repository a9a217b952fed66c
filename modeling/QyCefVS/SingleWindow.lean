import QyCefVS.Application

/-! Popups are loaded in the main frame of their opener. Only a popup without an address opens a
window of its own; without one the application is a browser with a single window. -/

namespace QyCefVS.SingleWindow

open Handler LifeSpan Application Transitions

inductive Phase (β : Type)
  | notCreated
  | opened (b : β)
  | closing (b : β)
  | closed (asked : Bool)
  deriving DecidableEq

structure Window (β : Type) where
  phase : Phase β
  effects : List (Effect β)
  deriving DecidableEq

inductive Action (β : Type)
  | create (b : β)
  | askClose
  | close
  | follow (url : String)
  deriving DecidableEq

variable {β : Type}

def Phase.window? : Phase β → Option β
  | .opened b | .closing b => some b
  | .notCreated | .closed _ => none

def Phase.isClosing : Phase β → Bool
  | .closing _ => true
  | .closed asked => asked
  | .notCreated | .opened _ => false

lemma Phase.ne_notCreated {f : Phase β} {b : β} (h : f.window? = some b) : f ≠ .notCreated := by
  rintro rfl
  simp [window?] at h

def Window.step (w : Window β) : Action β → Option (Window β)
  | .create b =>
    match w.phase with
    | .notCreated => some { w with phase := .opened b }
    | _ => none
  | .askClose => w.phase.window?.map fun b => { w with phase := .closing b }
  | .close =>
    w.phase.window?.map fun _ => ⟨.closed w.phase.isClosing, w.effects ++ [.quitMessageLoop]⟩
  | .follow url =>
    w.phase.window?.map fun b => { w with effects := w.effects ++ [.loadURL (.main b) url] }

def singleWindow : Machine (Window β) (Action β) := ⟨⟨.notCreated, []⟩, Window.step⟩

def action? : Event β → Option (Action β)
  | .created _ p => some (.create p.browser)
  | .cancelled _ => none
  | .doClose _ => some .askClose
  | .beforeClose _ => some .close
  | .beforePopup q => if q.targetUrl.isEmpty then none else some (.follow q.targetUrl)

def actions (es : List (Event β)) : List (Action β) := es.filterMap action?

structure Window.Represents (w : Window β) (s : Session β) : Prop where
  effects : s.effects = w.effects
  list : s.handler.browserList.map (·.browser) = w.phase.window?.toList
  created : s.ledger.created = [] ↔ w.phase = .notCreated
  flag : s.handler.isClosing = w.phase.isClosing

lemma Window.Represents.created_ne {w : Window β} {s : Session β} (h : w.Represents s) {b : β}
    (hw : w.phase.window? = some b) : s.ledger.created ≠ [] :=
  fun hc => Phase.ne_notCreated hw (h.created.mp hc)

def requests (es : List (Event β)) : List (PopupRequest β) := es.filterMap Event.request?

def load? : Effect β → Option (CefFrame β × String)
  | .loadURL frame url => some (frame, url)
  | .quitMessageLoop => none

def loads (xs : List (Effect β)) : List (CefFrame β × String) := xs.filterMap load?

def isBlank (q : PopupRequest β) : Bool := q.targetUrl.isEmpty

lemma requests_snoc (es : List (Event β)) (e : Event β) :
    requests (es ++ [e]) = requests es ++ e.request?.toList :=
  filterMap_snoc Event.request? es e

def opensNothing (e : Event β) : Bool := e.request?.all (!isBlank ·)

lemma countP_blank {es : List (Event β)} (h : ∀ e ∈ es, opensNothing e = true) :
    (requests es).countP isBlank = 0 := by
  apply List.countP_eq_zero.mpr
  intro q hq
  obtain ⟨e, he, hr⟩ := List.mem_filterMap.mp hq
  simpa [opensNothing, hr] using h e he

variable [DecidableEq β] {rule : OrphanRule} {v : Bool} {n : ℕ} {es : List (Event β)} {s : Session β}

lemma loads_eq (h : (session rule v n).Runs es s) :
    loads s.effects = ((requests es).filter (!isBlank ·)).map
      fun q => (.main q.browser.browser, q.targetUrl) := by
  refine h.induct (P := fun es s => loads s.effects = ((requests es).filter (!isBlank ·)).map
    fun q => (.main q.browser.browser, q.targetUrl)) rfl ?_
  intro es e s t _ ih he
  obtain ⟨_, rfl⟩ := Session.step_eq_some.mp he
  rw [requests_snoc]
  cases e with
  | created origin p | cancelled opener | doClose p =>
    simpa [Session.deliver, Event.request?] using ih
  | beforeClose p =>
    have hq : loads (s.handler.onBeforeClose p).1 = [] := by
      rw [SimpleHandler.onBeforeClose_effects]
      split <;> rfl
    rw [Session.deliver, loads, List.filterMap_append, ← loads, ← loads, hq]
    simpa [Event.request?] using ih
  | beforePopup q =>
    rw [Session.deliver, loads, List.filterMap_append, ← loads, ih, Event.request?,
      SimpleHandler.onBeforePopup_effects]
    cases hq : q.targetUrl.isEmpty <;> simp [isBlank, hq, load?]

lemma created_le (h : (session rule v n).Runs es s) :
    s.ledger.created.length + s.ledger.pending.length ≤ n + (requests es).countP isBlank := by
  refine h.induct (P := fun es s => s.ledger.created.length + s.ledger.pending.length ≤
    n + (requests es).countP isBlank) (by simp [session, Session.start, Ledger.start]) ?_
  intro es e s t _ ih he
  obtain ⟨hp, rfl⟩ := Session.step_eq_some.mp he
  rw [requests_snoc, List.countP_append]
  cases e with
  | created origin p =>
    have hl := List.length_erase_add_one hp.1
    simp only [Session.deliver, Ledger.create, List.length_append, List.length_singleton]
    omega
  | cancelled opener =>
    have hl := (List.erase_sublist (a := some opener) (l := s.ledger.pending)).length_le
    simp only [Session.deliver, Ledger.cancel]
    omega
  | doClose p => simpa [Session.deliver, Ledger.ask, Event.request?] using ih
  | beforeClose p =>
    have hl := List.length_filter_le (· ≠ some p.browser) s.ledger.pending
    cases rule <;> simp only [Session.deliver, Ledger.close] <;> omega
  | beforePopup q =>
    rw [Session.deliver_beforePopup, Event.request?, Option.toList_some, List.countP_singleton, isBlank]
    cases q.targetUrl.isEmpty <;> simp <;> omega

namespace Window.Represents

variable {w : Window β} {t : Session β}

lemma live_eq (h : w.Represents s) {cs : List (Callback β)} (ht : s.Traced v cs) {b : β}
    (hb : b ∈ s.ledger.live) : w.phase.window? = some b ∧ s.ledger.live = [b] := by
  have hl : s.ledger.live = w.phase.window?.toList := ht.map_browserList.symm.trans h.list
  rw [hl, Option.mem_toList] at hb
  exact ⟨hb, by rw [hl, hb]; rfl⟩

lemma step (h : w.Represents s) (hr : (session rule v n).Runs es s) (hn : n ≤ 1)
    (hes : ∀ e ∈ es, opensNothing e = true) {e : Event β} (he : opensNothing e = true)
    (hs : (session rule v n).step s e = some t) :
    ∃ w', singleWindow.exec w (action? e).toList = some w' ∧ w'.Represents t := by
  obtain ⟨hp, rfl⟩ := Session.step_eq_some.mp hs
  have ht := session_traced hr
  cases e with
  | created origin p =>
    have hle := created_le hr
    have hpos := List.length_pos_of_mem hp.1
    have hc : s.ledger.created = [] := by
      rw [countP_blank hes] at hle
      exact List.eq_nil_of_length_eq_zero (by omega)
    have hw := h.created.mp hc
    refine ⟨{ w with phase := .opened p.browser }, ?_, h.effects, ?_, ?_, ?_⟩
    · simp [singleWindow, action?, Window.step, hw]
    · have hl := h.list
      simp only [hw] at hl
      simpa [Session.deliver, Phase.window?] using hl
    · simp [Session.deliver, Ledger.create]
    · have hf := h.flag
      simp only [hw] at hf
      simpa [Session.deliver, Phase.isClosing] using hf
  | cancelled opener => exact ⟨w, rfl, h.effects, h.list, h.created, h.flag⟩
  | doClose p =>
    obtain ⟨hw, hl⟩ := h.live_eq ht hp
    refine ⟨{ w with phase := .closing p.browser }, ?_, h.effects, ?_, ?_, ?_⟩
    · simp [singleWindow, action?, Window.step, hw]
    · exact (session_traced (hr.snoc hs)).map_browserList.trans hl
    · simp [Session.deliver, Ledger.ask, h.created_ne hw]
    · simp [Session.deliver, SimpleHandler.doClose_isClosing, (ht.length_eq_one hp).mpr hl,
        Phase.isClosing]
  | beforeClose p =>
    obtain ⟨hw, hl⟩ := h.live_eq ht hp
    have hempty : (s.ledger.close rule p.browser).live = [] := by
      simp [Ledger.close_live, hl]
    refine ⟨⟨.closed w.phase.isClosing, w.effects ++ [.quitMessageLoop]⟩, ?_, ?_, ?_, ?_, h.flag⟩
    · simp [singleWindow, action?, Window.step, hw]
    · rw [Session.deliver, onBeforeClose_quits rule ht, if_pos hempty, h.effects]
    · exact (session_traced (hr.snoc hs)).map_browserList.trans hempty
    · simp [Session.deliver, Ledger.close, h.created_ne hw]
  | beforePopup q =>
    obtain ⟨hw, -⟩ := h.live_eq ht hp
    have hq : q.targetUrl.isEmpty = false := by simpa [opensNothing, Event.request?, isBlank] using he
    refine ⟨{ w with effects := w.effects ++ [.loadURL (.main q.browser.browser) q.targetUrl] },
      ?_, ?_, h.list, ?_, h.flag⟩
    · simp [singleWindow, action?, Window.step, hw, hq]
    · simp [Session.deliver, SimpleHandler.onBeforePopup_effects, hq, h.effects]
    · rw [Session.deliver_beforePopup]
      exact h.created

end Window.Represents

theorem session_simulates (h : (session rule v n).Runs es s) (hn : n ≤ 1)
    (hes : ∀ e ∈ es, opensNothing e = true) :
    ∃ w, singleWindow.Runs (actions es) w ∧ w.Represents s := by
  have hr := Machine.runs_restrict.mpr ⟨h, hes⟩
  apply hr.simulates (N := singleWindow) (R := fun s w => w.Represents s) action?
  · exact ⟨rfl, rfl, ⟨fun _ => rfl, fun _ => rfl⟩, rfl⟩
  · intro fs e s s' w hfs hrep he
    obtain ⟨hfs, hall⟩ := Machine.runs_restrict.mp hfs
    obtain ⟨he, hs⟩ := Machine.restrict_step.mp he
    exact hrep.step hfs hn hall he hs

theorem popups_folded (rule : OrphanRule) (r : Results) (es : List (ProcessEvent β))
    (p : Process β) (h : (process rule r).Runs es p) :
    loads p.effects = ((requests (lifeSpans es)).filter (!isBlank ·)).map
      (fun q => (.main q.browser.browser, q.targetUrl)) ∧
    p.created.length ≤ 1 + (requests (lifeSpans es)).countP isBlank ∧
    ((∀ q ∈ requests (lifeSpans es), isBlank q = false) →
      ∃ w, singleWindow.Runs (actions (lifeSpans es)) w ∧ w.Represents (p.session r)) := by
  have hr := process_session h
  rw [← p.session_effects r, ← p.session_created r]
  refine ⟨loads_eq hr, ?_, fun hq => session_simulates hr r.founders_le fun e he => ?_⟩
  · have hle := created_le hr
    have hn := r.founders_le
    omega
  · cases hx : e.request? with
    | none => simp [opensNothing, hx]
    | some q => simp [opensNothing, hx, hq q (List.mem_filterMap.mpr ⟨e, he, hx⟩)]

def following : List (ProcessEvent ℕ) :=
  [.main, .contextInitialized, .main, .lifeSpan (.created none (window 0)),
    .lifeSpan (popup 0 "a.html"), .lifeSpan (.beforePopup ⟨window 0, .sub 0 7, "b.html"⟩),
    .lifeSpan (.doClose (window 0)), .lifeSpan (.beforeClose (window 0)), .main]

theorem following_folded : ∃ p : Process ℕ, (process .cancelled working).Runs following p ∧
    loads p.effects = [(.main 0, "a.html"), (.main 0, "b.html")] ∧ p.created.length ≤ 1 ∧
    ∃ w, singleWindow.Runs (actions (lifeSpans following)) w ∧ w.phase = .closed true := by
  have h : (process .cancelled working).Runs following _ := rfl
  obtain ⟨hl, hc, hw⟩ := popups_folded .cancelled working following _ h
  obtain ⟨w, hr, -⟩ := hw (by decide)
  refine ⟨_, h, hl.trans (by decide), hc, w, hr, ?_⟩
  obtain rfl := Option.some.inj hr
  rfl

end QyCefVS.SingleWindow
