import QyCefVS.BrowserList

/-! The life-span contract of libcef around one handler. The ledger is libcef's side: which
creations are in flight, which browsers were created, asked to close and closed. Its guard is
the contract of `cef_life_span_handler.h`; the handler's answers come from its own code. -/

namespace QyCefVS.LifeSpan

open Handler BrowserList Transitions

/-- What becomes of a popup creation still in flight when its opener closes. The documented
contract cancels it. -/
inductive OrphanRule
  | cancelled
  | kept
  deriving DecidableEq

/-- A creation in flight is `none` for a `CreateBrowser` call and `some opener` for a popup.
`alone` keeps the browsers asked to close while no other was live. -/
structure Ledger (β : Type) where
  pending : List (Option β)
  created : List (BrowserPtr β)
  asked : List β
  alone : List β
  closed : List β
  deriving DecidableEq

inductive Event (β : Type)
  | created (origin : Option β) (browser : BrowserPtr β)
  | cancelled (opener : β)
  | doClose (browser : BrowserPtr β)
  | beforeClose (browser : BrowserPtr β)
  | beforePopup (request : PopupRequest β)
  deriving DecidableEq

structure Session (β : Type) where
  handler : SimpleHandler β
  ledger : Ledger β
  effects : List (Effect β)
  deriving DecidableEq

variable {β : Type}

def Event.callback? : Event β → Option (Callback β)
  | .created _ p => some (.onAfterCreated p)
  | .cancelled _ => none
  | .doClose p => some (.doClose p)
  | .beforeClose p => some (.onBeforeClose p)
  | .beforePopup q => some (.onBeforePopup q)

def Event.request? : Event β → Option (PopupRequest β)
  | .beforePopup q => some q
  | _ => none

def Event.isClose : Event β → Bool
  | .beforeClose _ => true
  | _ => false

namespace Ledger

def start (n : ℕ) : Ledger β := ⟨List.replicate n none, [], [], [], []⟩

variable [DecidableEq β]

def live (L : Ledger β) : List β := (L.created.map (·.browser)).filter (· ∉ L.closed)

def create (L : Ledger β) (origin : Option β) (p : BrowserPtr β) : Ledger β :=
  { L with pending := L.pending.erase origin, created := L.created ++ [p] }

def cancel (L : Ledger β) (opener : β) : Ledger β :=
  { L with pending := L.pending.erase (some opener) }

def ask (L : Ledger β) (b : β) : Ledger β :=
  { L with asked := L.asked ++ [b], alone := if L.live = [b] then L.alone ++ [b] else L.alone }

def close (rule : OrphanRule) (L : Ledger β) (b : β) : Ledger β :=
  { L with
    closed := L.closed ++ [b]
    pending := match rule with
      | .cancelled => L.pending.filter (· ≠ some b)
      | .kept => L.pending }

def expect (L : Ledger β) (opener : β) : Ledger β :=
  { L with pending := L.pending ++ [some opener] }

def Permits (L : Ledger β) : Event β → Prop
  | .created origin p => origin ∈ L.pending ∧ p.browser ∉ L.created.map (·.browser)
  | .cancelled opener => some opener ∈ L.pending
  | .doClose p | .beforeClose p => p.browser ∈ L.live
  | .beforePopup q => q.browser.browser ∈ L.live

instance (L : Ledger β) : (e : Event β) → Decidable (L.Permits e)
  | .created _ _ => inferInstanceAs (Decidable (_ ∧ _))
  | .cancelled _ => inferInstanceAs (Decidable (_ ∈ L.pending))
  | .doClose _ | .beforeClose _ | .beforePopup _ => inferInstanceAs (Decidable (_ ∈ L.live))

lemma mem_live {L : Ledger β} {b : β} :
    b ∈ L.live ↔ b ∈ L.created.map (·.browser) ∧ b ∉ L.closed := by
  simp [live]

@[simp] lemma create_asked (L : Ledger β) (o : Option β) (p : BrowserPtr β) :
    (L.create o p).asked = L.asked := rfl

@[simp] lemma ask_asked (L : Ledger β) (b : β) : (L.ask b).asked = L.asked ++ [b] := rfl

@[simp] lemma close_asked (rule : OrphanRule) (L : Ledger β) (b : β) :
    (L.close rule b).asked = L.asked := rfl

lemma ask_live (L : Ledger β) (b : β) : (L.ask b).live = L.live := rfl

lemma cancel_live (L : Ledger β) (b : β) : (L.cancel b).live = L.live := rfl

lemma create_live (L : Ledger β) (o : Option β) {p : BrowserPtr β} (hp : p.browser ∉ L.closed) :
    (L.create o p).live = L.live ++ [p.browser] := by
  rw [live, create, List.map_append, List.filter_append, live]
  simp [hp]

lemma close_live (rule : OrphanRule) (L : Ledger β) (b : β) :
    (L.close rule b).live = L.live.filter (· ≠ b) := by
  simp only [live, close, List.filter_filter]
  apply List.filter_congr
  intro c _
  by_cases hc : c = b <;> simp [hc]

end Ledger

namespace Session

variable [DecidableEq β]

def start (useViews : Bool) (n : ℕ) : Session β := ⟨.new useViews, .start n, []⟩

def deliver (rule : OrphanRule) (s : Session β) : Event β → Session β
  | .created origin p =>
    { s with handler := s.handler.onAfterCreated p, ledger := s.ledger.create origin p }
  | .cancelled opener => { s with ledger := s.ledger.cancel opener }
  | .doClose p =>
    { s with handler := (s.handler.doClose p).2, ledger := s.ledger.ask p.browser }
  | .beforeClose p =>
    { handler := (s.handler.onBeforeClose p).2
      ledger := s.ledger.close rule p.browser
      effects := s.effects ++ (s.handler.onBeforeClose p).1 }
  | .beforePopup q =>
    let reply := s.handler.onBeforePopup q ()
    { s with
      ledger := if reply.cancel then s.ledger else s.ledger.expect q.browser.browser
      effects := s.effects ++ reply.effects }

def step (rule : OrphanRule) (s : Session β) (e : Event β) : Option (Session β) :=
  if s.ledger.Permits e then some (s.deliver rule e) else none

end Session

variable [DecidableEq β]

def session (rule : OrphanRule) (useViews : Bool) (n : ℕ) : Machine (Session β) (Event β) :=
  ⟨Session.start useViews n, Session.step rule⟩

def window (b : ℕ) : BrowserPtr ℕ := ⟨b, 0⟩

def popup (b : ℕ) (url : String) : Event ℕ := .beforePopup ⟨window b, .main b, url⟩

end QyCefVS.LifeSpan
