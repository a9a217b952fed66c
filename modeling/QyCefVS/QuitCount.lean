import Mathlib.Data.Fintype.EquivFin
import Mathlib.Order.Bounds.Basic
import QyCefVS.Session

/-! How often `CefQuitMessageLoop` can be called. A session that starts with `n` creations in
flight can see its windows die out `n` times and no more, provided that a close cancels the popups
still in flight; if they are kept there is no bound. -/

namespace QyCefVS.QuitCount

open Handler LifeSpan Transitions

variable {β : Type} [DecidableEq β] {rule : OrphanRule} {v : Bool} {n : ℕ}
  {es : List (Event β)} {s t : Session β}

def chances (s : Session β) : ℕ :=
  s.ledger.pending.countP Option.isNone + if s.ledger.live = [] then 0 else 1

lemma chances_step {e : Event β} (h : (session .cancelled v n).Runs es s)
    (he : s.step .cancelled e = some t) : t.quits + chances t ≤ s.quits + chances s := by
  obtain ⟨hp, rfl⟩ := Session.step_eq_some.mp he
  rw [deliver_quits .cancelled (session_traced h)]
  cases e with
  | created origin p =>
    have hl : (s.deliver .cancelled (.created origin p)).ledger.live ≠ [] := by
      have hc := (session_traced h).create_live hp
      simp [Session.deliver, hc]
    have hc := List.countP_erase Option.isNone s.ledger.pending origin
    rw [chances, chances, if_neg hl]
    simp only [Session.deliver, Ledger.create, hc, Event.isClose]
    cases origin with
    | none =>
      simp [hp.1]
    | some b =>
      have hb : s.ledger.live ≠ [] := List.ne_nil_of_mem (rooted_live h hp.1)
      simp [hb]
  | cancelled opener =>
    have hc := List.countP_erase Option.isNone s.ledger.pending (some opener)
    have hl : (s.deliver .cancelled (.cancelled opener)).ledger.live = s.ledger.live := rfl
    rw [chances, chances, hl]
    simp [Session.deliver, Ledger.cancel, hc, Event.isClose]
  | doClose p =>
    have hc : chances (s.deliver .cancelled (.doClose p)) = chances s := rfl
    simp [hc, Event.isClose]
  | beforeClose p =>
    have hl : s.ledger.live ≠ [] := List.ne_nil_of_mem hp
    have hc : (s.deliver .cancelled (.beforeClose p)).ledger.pending.countP Option.isNone ≤
        s.ledger.pending.countP Option.isNone := List.filter_sublist.countP_le
    rw [chances, chances, if_neg hl]
    simp only [Event.isClose, true_and]
    split_ifs <;> omega
  | beforePopup q =>
    have hl : (s.deliver .cancelled (.beforePopup q)).ledger.live = s.ledger.live := by
      rw [Session.deliver_beforePopup]
      rfl
    rw [chances, chances, hl, Session.deliver_beforePopup]
    cases q.targetUrl.isEmpty <;> simp [Event.isClose]

lemma chances_start (v : Bool) (n : ℕ) : chances (.start v n : Session β) = n := by
  simp [chances, Session.start, Ledger.start, Ledger.live, List.countP_replicate]

theorem quits_le (h : (session .cancelled v n).Runs es s) : s.quits ≤ n := by
  have hc : s.quits + chances s ≤ n := by
    apply h.induct (P := fun _ s => s.quits + chances s ≤ n)
    · exact (Nat.zero_add _).trans_le (chances_start v n).le
    · intro es e s t hr ih he
      exact (chances_step hr he).trans ih
  omega

lemma exists_new [Infinite β] (ps : List (BrowserPtr β)) : ∃ b, b ∉ ps.map (·.browser) := by
  obtain ⟨b, hb⟩ := Infinite.exists_notMem_finset (ps.map (·.browser)).toFinset
  exact ⟨b, by simpa using hb⟩

lemma permitted {e : Event β} (h : (session rule v n).Runs es s) (hp : s.ledger.Permits e) :
    (session rule v n).Runs (es ++ [e]) (s.deliver rule e) :=
  h.snoc (Session.step_eq_some.mpr ⟨hp, rfl⟩)

lemma only_live_closes (rule : OrphanRule) {b : β} (hl : s.ledger.live = [b]) :
    (s.deliver rule (.beforeClose ⟨b, 0⟩)).ledger.live = [] := by
  apply (Ledger.close_live rule s.ledger b).trans
  simp [hl]

lemma create_live_of_none {o : Option β} {b : β} (h : (session rule v n).Runs es s)
    (hl : s.ledger.live = []) (hp : s.ledger.Permits (.created o ⟨b, 0⟩)) :
    (s.deliver rule (.created o ⟨b, 0⟩)).ledger.live = [b] := by
  apply ((session_traced h).create_live hp).trans
  rw [hl]
  rfl

lemma founder_quits [Infinite β] {k : ℕ} (h : (session rule v n).Runs es s)
    (hl : s.ledger.live = []) (hp : s.ledger.pending = List.replicate (k + 1) none) :
    ∃ fs, ∃ t : Session β, (session rule v n).Runs fs t ∧ t.ledger.live = [] ∧
      t.ledger.pending = List.replicate k none ∧ t.quits = s.quits + 1 := by
  obtain ⟨b, hb⟩ := exists_new s.ledger.created
  have hc : s.ledger.Permits (.created none ⟨b, 0⟩) := ⟨by simp [hp], hb⟩
  have hlive := create_live_of_none h hl hc
  have hr := permitted h hc
  have hd : (s.deliver rule (.created none ⟨b, 0⟩)).ledger.Permits (.beforeClose ⟨b, 0⟩) := by
    simp [Ledger.Permits, hlive]
  refine ⟨_, _, permitted hr hd, only_live_closes rule hlive, ?_, ?_⟩
  · cases rule <;> simp [Session.deliver, Ledger.create, Ledger.close, hp, List.replicate_succ]
  · rw [deliver_quits rule (session_traced hr), deliver_quits rule (session_traced h)]
    simp [only_live_closes rule hlive, Event.isClose]

/-- An only window opens a popup and closes first: kept, the popup becomes the only window. -/
lemma orphan_quits [Infinite β] {b : β} (h : (session .kept v n).Runs es s)
    (hl : s.ledger.live = [b]) :
    ∃ fs, ∃ t : Session β, (session .kept v n).Runs fs t ∧ (∃ c, t.ledger.live = [c]) ∧
      t.quits = s.quits + 1 := by
  obtain ⟨c, hc⟩ := exists_new s.ledger.created
  let q : PopupRequest β := ⟨⟨b, 0⟩, .main b, ""⟩
  have hq : s.ledger.Permits (.beforePopup q) := by simp [Ledger.Permits, hl, q]
  have h1 := permitted h hq
  have hl1 : (s.deliver .kept (.beforePopup q)).ledger.live = [b] := hl
  have hb : (s.deliver .kept (.beforePopup q)).ledger.Permits (.beforeClose ⟨b, 0⟩) := by
    simp [Ledger.Permits, hl1]
  have h2 := permitted h1 hb
  have hl2 := only_live_closes .kept hl1
  have ho : ((s.deliver .kept (.beforePopup q)).deliver .kept (.beforeClose ⟨b, 0⟩)).ledger.Permits
      (.created (some b) ⟨c, 0⟩) := ⟨List.mem_append_right _ (List.mem_singleton_self _), hc⟩
  refine ⟨_, _, permitted h2 ho, ⟨c, create_live_of_none h2 hl2 ho⟩, ?_⟩
  rw [deliver_quits .kept (session_traced h2), deliver_quits .kept (session_traced h1),
    deliver_quits .kept (session_traced h)]
  simp [hl2, Event.isClose]

lemma founders_quit [Infinite β] (k : ℕ) (h : (session rule v n).Runs es s)
    (hl : s.ledger.live = []) (hp : s.ledger.pending = List.replicate k none) :
    ∃ fs, ∃ t : Session β, (session rule v n).Runs fs t ∧ t.quits = s.quits + k := by
  induction k generalizing es s with
  | zero => exact ⟨es, s, h, rfl⟩
  | succ k ih =>
    obtain ⟨fs, t, ht, htl, htp, hq⟩ := founder_quits h hl hp
    obtain ⟨gs, u, hu, hqu⟩ := ih ht htl htp
    exact ⟨gs, u, hu, by omega⟩

lemma orphans_quit [Infinite β] (k : ℕ) {b : β} (h : (session .kept v n).Runs es s)
    (hl : s.ledger.live = [b]) :
    ∃ fs, ∃ t : Session β, (session .kept v n).Runs fs t ∧ t.quits = s.quits + k := by
  induction k generalizing es s b with
  | zero => exact ⟨es, s, h, rfl⟩
  | succ k ih =>
    obtain ⟨fs, t, ht, ⟨c, hc⟩, hq⟩ := orphan_quits h hl
    obtain ⟨gs, u, hu, hqu⟩ := ih ht hc
    exact ⟨gs, u, hu, by omega⟩

def QuitCounts (β : Type) [DecidableEq β] (rule : OrphanRule) (useViews : Bool) (n : ℕ) : Set ℕ :=
  { k | ∃ es, ∃ s : Session β, (session rule useViews n).Runs es s ∧ s.quits = k }

theorem quits_greatest (β : Type) [DecidableEq β] [Infinite β] (useViews : Bool) (n : ℕ) :
    IsGreatest (QuitCounts β .cancelled useViews n) n ∧
      (0 < n → QuitCounts β .kept useViews n = Set.univ) := by
  refine ⟨⟨?_, ?_⟩, ?_⟩
  · have hr : (session .cancelled useViews n).Runs [] (.start useViews n : Session β) := rfl
    obtain ⟨es, s, hs, hq⟩ := founders_quit n hr rfl rfl
    exact ⟨es, s, hs, hq.trans (Nat.zero_add n)⟩
  · rintro k ⟨es, s, h, rfl⟩
    exact quits_le h
  · intro hn
    apply Set.eq_univ_of_forall
    intro k
    obtain ⟨b, -⟩ := exists_new ([] : List (BrowserPtr β))
    have hr : (session .kept useViews n).Runs [] (.start useViews n : Session β) := rfl
    have hp : (Session.start useViews n : Session β).ledger.Permits (.created none ⟨b, 0⟩) :=
      ⟨List.mem_replicate.mpr ⟨hn.ne', rfl⟩, List.not_mem_nil⟩
    obtain ⟨es, s, hs, hq⟩ := orphans_quit k (permitted hr hp) (create_live_of_none hr rfl hp)
    exact ⟨es, s, hs, hq.trans (Nat.zero_add k)⟩

theorem one_quit_at_most : IsGreatest (QuitCounts ℕ .cancelled false 1) 1 ∧
    QuitCounts ℕ .kept false 1 = Set.univ := by
  obtain ⟨hc, hk⟩ := quits_greatest ℕ false 1
  exact ⟨hc, hk Nat.one_pos⟩

end QyCefVS.QuitCount
