import Mathlib.Data.Int.Basic
import Mathlib.Data.List.Nodup
import Mathlib.Tactic.Common

/-! The client handler of `simple_handler.h` and `simple_handler.cc`. Its callbacks run one at
a time on the UI thread, so each is a function from the handler's state to the next. -/

namespace QyCefVS.Handler

/-- A `CefRefPtr<CefBrowser>`: the browser it denotes and the wrapper object it goes through. -/
structure BrowserPtr (β : Type) where
  browser : β
  wrapper : ℕ
  deriving DecidableEq

inductive CefFrame (β : Type)
  | main (browser : β)
  | sub (browser : β) (identifier : ℤ)
  deriving DecidableEq

inductive Effect (β : Type)
  | loadURL (frame : CefFrame β) (url : String)
  | quitMessageLoop
  deriving DecidableEq

structure PopupRequest (β : Type) where
  browser : BrowserPtr β
  frame : CefFrame β
  targetUrl : String
  deriving DecidableEq

structure PopupReply (β γ : Type) where
  cancel : Bool
  client : γ
  effects : List (Effect β)

structure SimpleHandler (β : Type) where
  useViews : Bool
  browserList : List (BrowserPtr β)
  isClosing : Bool
  deriving DecidableEq

inductive Callback (β : Type)
  | onAfterCreated (browser : BrowserPtr β)
  | doClose (browser : BrowserPtr β)
  | onBeforeClose (browser : BrowserPtr β)
  | onBeforePopup (request : PopupRequest β)
  deriving DecidableEq

variable {β γ : Type}

def Callback.browser : Callback β → BrowserPtr β
  | .onAfterCreated p | .doClose p | .onBeforeClose p => p
  | .onBeforePopup q => q.browser

def BrowserPtr.getMainFrame (p : BrowserPtr β) : CefFrame β := .main p.browser

namespace SimpleHandler

def new (useViews : Bool) : SimpleHandler β := ⟨useViews, [], false⟩

def onAfterCreated (h : SimpleHandler β) (p : BrowserPtr β) : SimpleHandler β :=
  { h with browserList := h.browserList ++ [p] }

def doClose (h : SimpleHandler β) (_ : BrowserPtr β) : Bool × SimpleHandler β :=
  if h.browserList.length = 1 then (false, { h with isClosing := true }) else (false, h)

def onBeforePopup (_ : SimpleHandler β) (q : PopupRequest β) (client : γ) : PopupReply β γ :=
  if !q.targetUrl.isEmpty then
    ⟨true, client, [.loadURL q.browser.getMainFrame q.targetUrl]⟩
  else ⟨false, client, []⟩

variable (h : SimpleHandler β) (p : BrowserPtr β) (q : PopupRequest β)

@[simp] lemma new_browserList (b : Bool) : (new b : SimpleHandler β).browserList = [] := rfl

@[simp] lemma new_isClosing (b : Bool) : (new b : SimpleHandler β).isClosing = false := rfl

@[simp] lemma onAfterCreated_browserList :
    (h.onAfterCreated p).browserList = h.browserList ++ [p] := rfl

@[simp] lemma onAfterCreated_isClosing : (h.onAfterCreated p).isClosing = h.isClosing := rfl

@[simp] lemma doClose_browserList : (h.doClose p).2.browserList = h.browserList := by
  rw [doClose]
  split <;> rfl

lemma doClose_isClosing :
    (h.doClose p).2.isClosing = (h.isClosing || decide (h.browserList.length = 1)) := by
  by_cases hl : h.browserList.length = 1 <;> simp [doClose, hl]

lemma doClose_allows : (h.doClose p).1 = false := by
  rw [doClose]
  split <;> rfl

lemma onBeforePopup_cancel (c : γ) : (h.onBeforePopup q c).cancel = !q.targetUrl.isEmpty := by
  cases hq : q.targetUrl.isEmpty <;> simp [onBeforePopup, hq]

@[simp] lemma onBeforePopup_client (c : γ) : (h.onBeforePopup q c).client = c := by
  rw [onBeforePopup]
  split <;> rfl

lemma onBeforePopup_effects (c : γ) :
    (h.onBeforePopup q c).effects =
      if q.targetUrl.isEmpty then [] else [.loadURL (.main q.browser.browser) q.targetUrl] := by
  cases hq : q.targetUrl.isEmpty <;> simp [onBeforePopup, hq, BrowserPtr.getMainFrame]

end SimpleHandler

variable [DecidableEq β]

def BrowserPtr.isSame (p that : BrowserPtr β) : Bool := p.browser = that.browser

lemma BrowserPtr.isSame_iff (p q : BrowserPtr β) : p.isSame q = true ↔ p.browser = q.browser := by
  simp [BrowserPtr.isSame]

namespace SimpleHandler

/-- The search loop of `OnBeforeClose`: erase at the first match, then break. -/
def eraseSame (p : BrowserPtr β) : List (BrowserPtr β) → List (BrowserPtr β)
  | [] => []
  | bit :: rest => if bit.isSame p then rest else bit :: eraseSame p rest

def onBeforeClose (h : SimpleHandler β) (p : BrowserPtr β) : List (Effect β) × SimpleHandler β :=
  let h' := { h with browserList := eraseSame p h.browserList }
  (if h'.browserList.isEmpty then [.quitMessageLoop] else [], h')

def notify (h : SimpleHandler β) : Callback β → SimpleHandler β
  | .onAfterCreated p => h.onAfterCreated p
  | .doClose p => (h.doClose p).2
  | .onBeforeClose p => (h.onBeforeClose p).2
  | .onBeforePopup _ => h

variable (h : SimpleHandler β) (p : BrowserPtr β)

lemma eraseSame_eq_filter {l : List (BrowserPtr β)} (hl : (l.map (·.browser)).Nodup) :
    eraseSame p l = l.filter (·.browser ≠ p.browser) := by
  induction l with
  | nil => rfl
  | cons bit rest ih =>
    obtain ⟨hb, hr⟩ := List.nodup_cons.mp hl
    by_cases hs : bit.browser = p.browser
    · have hrest : ∀ x ∈ rest, x.browser ≠ p.browser := by
        intro x hx he
        exact hb (List.mem_map.mpr ⟨x, hx, he.trans hs.symm⟩)
      have hf : rest.filter (·.browser ≠ p.browser) = rest :=
        List.filter_eq_self.mpr fun x hx => by simpa using hrest x hx
      rw [eraseSame, if_pos ((bit.isSame_iff p).mpr hs), List.filter_cons_of_neg (by simp [hs]), hf]
    · rw [eraseSame, if_neg (by simpa [BrowserPtr.isSame_iff] using hs),
        List.filter_cons_of_pos (by simpa using hs), ih hr]

@[simp] lemma onBeforeClose_browserList :
    (h.onBeforeClose p).2.browserList = eraseSame p h.browserList := rfl

@[simp] lemma onBeforeClose_isClosing : (h.onBeforeClose p).2.isClosing = h.isClosing := rfl

lemma onBeforeClose_effects :
    (h.onBeforeClose p).1 =
      if eraseSame p h.browserList = [] then [.quitMessageLoop] else [] := by
  simp [onBeforeClose]

end SimpleHandler

end QyCefVS.Handler
