import QyCefVS.References

/-! The handler and its browsers keep each other alive only while a browser is live. The counts
follow the references of `OnContextInitialized`, of the creations in flight and of libcef, which
lets go of a browser at any time after its close. -/

namespace QyCefVS.ReferenceCycle

open Handler LifeSpan Application References Ownership Transitions

/-- `inScope` is whether the local of `OnContextInitialized` still exists, `held` are the
browsers libcef refers to. -/
structure Counted (β : Type) where
  process : Process β
  memory : Memory β
  inScope : Bool
  held : List β

inductive CountedEvent (β : Type)
  | process (e : ProcessEvent β)
  | contextReturned
  | released (b : β)
  deriving DecidableEq

variable {β : Type}

def CountedEvent.process? : CountedEvent β → Option (ProcessEvent β)
  | .process e => some e
  | _ => none

def processEvents (es : List (CountedEvent β)) : List (ProcessEvent β) :=
  es.filterMap CountedEvent.process?

def newlyHeld : Event β → List β
  | .created _ p => [p.browser]
  | .cancelled _ | .doClose _ | .beforeClose _ | .beforePopup _ => []

variable [DecidableEq β]

namespace Counted

def start : Counted β := ⟨.start, .empty none, false, []⟩

def react (r : Results) (x : Counted β) (p : Process β) : ProcessEvent β → Counted β
  | .main => { x with process := p }
  | .contextInitialized =>
    { x with process := p, memory := References.onContextInitialized r x.memory, inScope := true }
  | .lifeSpan e =>
    { x with
      process := p
      memory := x.process.app.elim x.memory fun s => deliver s x.memory e
      held := x.held ++ newlyHeld e }

def step (r : Results) (x : Counted β) : CountedEvent β → Option (Counted β)
  | .process e => (x.process.step .cancelled r e).map fun p => x.react r p e
  | .contextReturned =>
    if x.inScope then
      some { x with memory := release x.memory .handler, inScope := false }
    else none
  | .released b =>
    if b ∈ x.held ∧ b ∉ x.process.live then
      some { x with memory := release x.memory (.browser b), held := x.held.erase b }
    else none

end Counted

def counted (r : Results) : Machine (Counted β) (CountedEvent β) := ⟨.start, Counted.step r⟩

lemma length_close (L : Ledger β) (b : β) :
    (L.close .cancelled b).pending.length + L.pending.countP (· = some b) = L.pending.length := by
  rw [Ledger.close, ← List.countP_eq_length_filter, Nat.add_comm,
    List.length_eq_countP_add_countP (· = some b)]
  simp

lemma deliver_tracked {cs : List (Callback β)} {v : Bool} {s t : Session β} {e : Event β} {k : ℕ}
    {H : Memory β} {held : List β} (hs : s.Traced v cs) (he : s.step .cancelled e = some t)
    (h : Tracked H s.ledger.live held (s.ledger.created.map (·.browser))
      (refs (k + s.ledger.pending.length) held)) :
    Tracked (deliver s H e) t.ledger.live (held ++ newlyHeld e)
      (t.ledger.created.map (·.browser))
      (refs (k + t.ledger.pending.length) (held ++ newlyHeld e)) := by
  obtain ⟨hp, rfl⟩ := Session.step_eq_some.mp he
  cases e with
  | created origin p =>
    rw [← List.length_erase_add_one hp.1, ← Nat.add_assoc] at h
    have hx := created_tracked h hp.2
    have hm : (s.ledger.create origin p).created.map (·.browser) =
        s.ledger.created.map (·.browser) ++ [p.browser] := List.map_append
    rw [← hs.create_live hp, ← hm] at hx
    exact hx
  | cancelled opener =>
    rw [← List.length_erase_add_one hp, ← Nat.add_assoc] at h
    rw [newlyHeld, List.append_nil]
    exact release_handler h
  | doClose p =>
    rw [newlyHeld, List.append_nil]
    exact doClose_tracked h hp
  | beforeClose p =>
    have hx := beforeClose_tracked h hs.map_browserList hp
    rw [← length_close s.ledger p.browser, ← Nat.add_assoc, ← Ledger.close_live .cancelled] at hx
    rw [newlyHeld, List.append_nil]
    exact release_handlers hx
  | beforePopup q =>
    have hx := beforePopup_tracked s.handler h hp
    rw [newlyHeld, List.append_nil, Session.deliver_beforePopup]
    cases hq : q.targetUrl.isEmpty with
    | true =>
      rw [hq, if_pos rfl, Nat.add_assoc] at hx
      rw [if_pos rfl, List.length_append, List.length_singleton]
      exact hx
    | false =>
      rw [hq, if_neg Bool.false_ne_true] at hx
      rw [if_neg Bool.false_ne_true, List.append_nil]
      exact hx

variable {r : Results} {es : List (CountedEvent β)} {x : Counted β}

lemma counted_process (h : (counted r).Runs es x) :
    (process .cancelled r).Runs (processEvents es) x.process := by
  apply h.projects (N := process .cancelled r) Counted.process CountedEvent.process? rfl
  intro x e y he
  cases e with
  | process e =>
    obtain ⟨p, hp, rfl⟩ := Option.map_eq_some_iff.mp he
    have hy : (x.react r p e).process = p := by cases e <;> rfl
    rw [hy]
    exact Option.bind_eq_some_iff.mpr ⟨p, hp, rfl⟩
  | contextReturned =>
    obtain ⟨_, hy⟩ := Option.ite_none_right_eq_some.mp he
    rw [← Option.some.inj hy]
    rfl
  | released b =>
    obtain ⟨_, hy⟩ := Option.ite_none_right_eq_some.mp he
    rw [← Option.some.inj hy]
    rfl

def Counted.Accounted (x : Counted β) : Prop :=
  match x.process.app with
  | none => x.memory = .empty none ∧ x.inScope = false ∧ x.held = []
  | some s => Tracked x.memory s.ledger.live x.held (s.ledger.created.map (·.browser))
      (refs (x.inScope.toNat + s.ledger.pending.length) x.held)

lemma Counted.accounted_of_app {s : Session β} (hs : x.process.app = some s) :
    x.Accounted ↔ Tracked x.memory s.ledger.live x.held (s.ledger.created.map (·.browser))
      (refs (x.inScope.toNat + s.ledger.pending.length) x.held) := by
  rw [Accounted, hs]

lemma Counted.Accounted.tracked (h : x.Accounted) {s : Session β} (hs : x.process.app = some s) :
    Tracked x.memory s.ledger.live x.held (s.ledger.created.map (·.browser))
      (refs (x.inScope.toNat + s.ledger.pending.length) x.held) :=
  (Counted.accounted_of_app hs).mp h

theorem counted_accounted (h : (counted r).Runs es x) : x.Accounted := by
  refine h.induct (P := fun _ x => x.Accounted) ⟨rfl, rfl, rfl⟩ ?_
  intro es e x y hr ih he
  cases e with
  | process e =>
    obtain ⟨p, hp, rfl⟩ := Option.map_eq_some_iff.mp he
    have hp : (process .cancelled r).step x.process e = some p := hp
    cases e with
    | main =>
      simp only [Counted.Accounted, Counted.react, (step_main hp).1]
      exact ih
    | contextInitialized =>
      obtain ⟨_, ha, _, rfl⟩ := step_contextInitialized hp
      rw [Counted.Accounted, ha] at ih
      obtain ⟨hm, _, hh⟩ := ih
      rw [Counted.accounted_of_app rfl]
      simp only [Counted.react, hm, hh]
      have ht := onContextInitialized_tracked (β := β) r
      rw [Nat.add_comm] at ht
      have hl : (Application.onContextInitialized r : Session β).ledger.pending.length = r.founders :=
        List.length_replicate
      rw [Bool.toNat_true, hl]
      exact ht
    | lifeSpan e =>
      obtain ⟨_, s, t, hs, ht, rfl⟩ := step_lifeSpan hp
      rw [Counted.accounted_of_app rfl]
      simp only [Counted.react, hs]
      have htr := session_traced (process_app (counted_process hr) hs)
      exact deliver_tracked htr ht (ih.tracked hs)
  | contextReturned =>
    obtain ⟨hscope, hy⟩ := Option.ite_none_right_eq_some.mp he
    obtain rfl := Option.some.inj hy
    cases ha : x.process.app with
    | none =>
      rw [Counted.Accounted, ha] at ih
      simp [hscope] at ih
    | some s =>
      have ht := ih.tracked ha
      rw [hscope, Bool.toNat_true, Nat.add_comm] at ht
      simp only [Counted.Accounted, ha, Bool.toNat_false, Nat.zero_add]
      exact release_handler ht
  | released b =>
    obtain ⟨⟨hb, hnot⟩, hy⟩ := Option.ite_none_right_eq_some.mp he
    obtain rfl := Option.some.inj hy
    cases ha : x.process.app with
    | none =>
      rw [Counted.Accounted, ha] at ih
      simp [ih.2.2] at hb
    | some s =>
      have ht := ih.tracked ha
      simp only [Counted.Accounted, ha]
      have hlive : b ∉ s.ledger.live := by simpa [Process.live, ha] using hnot
      refine (ht.perm (refs_erase _ hb)).releaseLast hlive ?_ fun c hc => browser_mem_refs.mpr hc
      rw [browser_mem_refs]
      exact ht.held_nodup.not_mem_erase

lemma released_deleted (h : (counted r).Runs es x) {b : β} (hb : b ∈ x.held)
    (hl : b ∉ x.process.live) :
    ∃ y, (counted r).step x (.released b) = some y ∧ .browser b ∈ y.memory.deleted := by
  have hy : (counted r).step x (.released b) = some _ := if_pos ⟨hb, hl⟩
  refine ⟨_, hy, ?_⟩
  have hx := counted_accounted h
  have ha := counted_accounted (h.snoc hy)
  cases hs : x.process.app with
  | none =>
    rw [Counted.Accounted, hs] at hx
    simp [hx.2.2] at hb
  | some s =>
    have ht := hx.tracked hs
    have ht' := ha.tracked hs
    have hc := (ht.browsers b).mp (ht.browser_present hb).1
    apply Heap.deleted_of_not_present ((ht'.browsers b).mpr hc)
    intro hp
    exact ht.held_nodup.not_mem_erase ((browser_present_iff ht' b).mp hp)

theorem cycle_broken (r : Results) (es : List (CountedEvent β)) (x : Counted β)
    (h : (counted r).Runs es x) :
    -- no count is changed on a deleted object and no object is deleted twice
    x.memory.fault = false ∧ x.memory.deleted.Nodup ∧
    -- the counts are those of the references
    x.memory.refCount .handler =
      x.inScope.toNat + x.process.pending.length + x.held.length ∧
    (∀ b, x.memory.refCount (.browser b) =
      x.held.count b + (x.process.list.map (·.browser)).count b) ∧
    -- an object exists while it is referred to, and `g_instance` follows the handler
    (x.memory.Present .handler ↔ x.inScope = true ∨ x.process.pending ≠ [] ∨ x.held ≠ []) ∧
    (∀ b, x.memory.Present (.browser b) ↔ b ∈ x.held) ∧
    getInstance x.memory = (if x.memory.Present .handler then some .handler else none) ∧
    -- while a browser is live so are its object and the handler
    (∀ b ∈ x.process.live, x.memory.Present (.browser b) ∧ x.memory.Present .handler ∧
      getInstance x.memory = some .handler) ∧
    -- and when all is closed and let go of nothing is left
    (∀ b ∈ x.held, b ∉ x.process.live →
      ∃ y, (counted r).step x (.released b) = some y ∧ .browser b ∈ y.memory.deleted) ∧
    (x.process.app ≠ none → x.inScope = false → x.process.pending = [] → x.held = [] →
      .handler ∈ x.memory.deleted ∧ getInstance x.memory = none ∧
      ∀ p ∈ x.process.created, .browser p.browser ∈ x.memory.deleted) := by
  have ha := counted_accounted h
  cases hs : x.process.app with
  | none =>
    rw [Counted.Accounted, hs] at ha
    obtain ⟨hm, hi, hh⟩ := ha
    simp [hm, hi, hh, hs, Process.pending, Process.list, Process.live, Heap.empty, Heap.Present,
      getInstance]
  | some s =>
    have ht := ha.tracked hs
    have hlist : x.process.list.map (·.browser) = s.ledger.live := by
      rw [Process.list, hs]
      exact (session_traced (process_app (counted_process h) hs)).map_browserList
    have hpend : x.process.pending = s.ledger.pending := by simp [Process.pending, hs]
    have hlive : x.process.live = s.ledger.live := by simp [Process.live, hs]
    rw [hlist, hpend]
    refine ⟨ht.balanced.sound, ht.balanced.once, handler_count ht, browser_count ht, ?_,
      browser_present_iff ht, ht.global, ?_, fun b => released_deleted h, ?_⟩
    · rw [handler_present_iff ht]
      cases x.inScope <;> simp
    · intro b hb
      have hh := ht.live_held b (hlive ▸ hb)
      have hp := ht.handler_present hh
      exact ⟨ht.browser_present hh, hp, ht.global.trans (if_pos hp)⟩
    · intro _ hi hp hh
      have hgone : ¬ x.memory.Present .handler := by
        rw [handler_present_iff ht]
        simp [hi, hp, hh]
      refine ⟨Heap.deleted_of_not_present ht.handler hgone, ht.global.trans (if_neg hgone), ?_⟩
      intro p hp
      have hpc : p ∈ s.ledger.created := by simpa [Process.created, hs] using hp
      apply Heap.deleted_of_not_present ((ht.browsers _).mpr (List.mem_map_of_mem hpc))
      intro hb
      have hheld := (browser_present_iff ht _).mp hb
      simp [hh] at hheld

def letGo : List (CountedEvent ℕ) :=
  [.process .main, .process .contextInitialized, .contextReturned, .process .main,
    .process (.lifeSpan (.created none (window 0))), .process (.lifeSpan (popup 0 "")),
    .process (.lifeSpan (.created (some 0) (window 1))),
    .process (.lifeSpan (.beforeClose (window 0))), .released 0,
    .process (.lifeSpan (.beforeClose (window 1))), .released 1]

theorem letGo_deleted : ∃ x : Counted ℕ, (counted working).Runs letGo x ∧
    .handler ∈ x.memory.deleted ∧ getInstance x.memory = none ∧
    ∀ b, b = 0 ∨ b = 1 → .browser b ∈ x.memory.deleted := by
  have h : (counted working).Runs letGo _ := rfl
  obtain ⟨-, -, -, -, -, -, -, -, -, hend⟩ := cycle_broken working letGo _ h
  obtain ⟨hh, hi, hb⟩ := hend (Option.some_ne_none _) rfl rfl rfl
  refine ⟨_, h, hh, hi, ?_⟩
  rintro b (rfl | rfl)
  · exact hb (window 0) (.head _)
  · exact hb (window 1) (.tail _ (.head _))

end QyCefVS.ReferenceCycle
