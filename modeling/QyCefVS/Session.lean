import Mathlib.Data.Finset.Dedup
import QyCefVS.Library.Genealogy
import QyCefVS.LifeSpan

/-! Runs of the handler under the contract. The callbacks of a run are admissible, so its list
is the list of live browsers; the ledger is a family of windows, and the handler asks the
message loop to quit exactly when that family dies out. -/

namespace QyCefVS.LifeSpan

open Handler BrowserList Transitions Genealogy Relation

variable {β : Type}

def callbacks (es : List (Event β)) : List (Callback β) := es.filterMap Event.callback?

lemma callbacks_snoc (es : List (Event β)) (e : Event β) :
    callbacks (es ++ [e]) = callbacks es ++ e.callback?.toList :=
  filterMap_snoc Event.callback? es e

variable [DecidableEq β] {rule : OrphanRule} {v : Bool} {n : ℕ}

lemma Session.step_eq_some {s t : Session β} {e : Event β} :
    s.step rule e = some t ↔ s.ledger.Permits e ∧ s.deliver rule e = t := by
  rw [step]
  split_ifs with h <;> simp [h]

lemma Session.deliver_beforePopup (s : Session β) (q : PopupRequest β) :
    (s.deliver rule (.beforePopup q)).ledger =
      { s.ledger with
        pending := s.ledger.pending ++
          if q.targetUrl.isEmpty then [some q.browser.browser] else [] } := by
  rw [deliver, SimpleHandler.onBeforePopup_cancel]
  cases q.targetUrl.isEmpty <;> simp [Ledger.expect]

structure Session.Traced (v : Bool) (cs : List (Callback β)) (s : Session β) : Prop where
  admissible : Admissible cs
  handler : s.handler = handlerAfter v cs
  created : s.ledger.created = createdBy cs
  closed : s.ledger.closed = closedBy cs
  known : ∀ c ∈ cs, c.browser.browser ∈ s.ledger.created.map (·.browser)

namespace Session.Traced

variable {cs : List (Callback β)} {s t : Session β}

lemma live_iff (h : s.Traced v cs) (b : β) : b ∈ s.ledger.live ↔ Live cs b := by
  rw [Ledger.mem_live, h.created, h.closed, Live]

lemma snoc (h : s.Traced v cs) {c : Callback β} (hc : BrowserList.Permits cs c)
    (hh : t.handler = s.handler.notify c)
    (hcr : t.ledger.created = s.ledger.created ++ (created? c).toList)
    (hcl : t.ledger.closed = s.ledger.closed ++ (closed? c).toList)
    (hk : c.browser.browser ∈ t.ledger.created.map (·.browser)) : t.Traced v (cs ++ [c]) where
  admissible := admissible_snoc.mpr ⟨h.admissible, hc⟩
  handler := by rw [hh, h.handler, handlerAfter_snoc]
  created := by rw [hcr, h.created, createdBy_snoc]
  closed := by rw [hcl, h.closed, closedBy_snoc]
  known d hd := by
    rcases List.mem_append.mp hd with hd | hd
    · rw [hcr, List.map_append]
      exact List.mem_append_left _ (h.known d hd)
    · exact List.mem_singleton.mp hd ▸ hk

lemma step (h : s.Traced v cs) {e : Event β} (he : s.step rule e = some t) :
    t.Traced v (cs ++ e.callback?.toList) := by
  obtain ⟨hp, rfl⟩ := step_eq_some.mp he
  cases e with
  | created origin p =>
    refine h.snoc (fun c hc hb => hp.2 (hb ▸ h.known c hc)) rfl rfl ?_ ?_
    · simp [deliver, Ledger.create, closed?]
    · simp [deliver, Ledger.create, Callback.browser]
  | cancelled opener =>
    rw [Event.callback?, Option.toList_none, List.append_nil]
    exact ⟨h.admissible, h.handler, h.created, h.closed, h.known⟩
  | doClose p =>
    refine h.snoc trivial rfl ?_ ?_ (Ledger.mem_live.mp hp).1
    · simp [deliver, Ledger.ask, created?]
    · simp [deliver, Ledger.ask, closed?]
  | beforeClose p =>
    refine h.snoc ((h.live_iff p.browser).mp hp) rfl ?_ rfl (Ledger.mem_live.mp hp).1
    simp [deliver, Ledger.close, created?]
  | beforePopup q =>
    refine h.snoc trivial rfl ?_ ?_ ?_ <;> rw [deliver_beforePopup]
    · simp [created?]
    · simp [closed?]
    · exact (Ledger.mem_live.mp hp).1

lemma list_live (h : s.Traced v cs) :
    s.handler.browserList = s.ledger.created.filter (·.browser ∉ s.ledger.closed) := by
  rw [h.handler, h.created, h.closed, list_eq v h.admissible]

lemma map_browserList (h : s.Traced v cs) : s.handler.browserList.map (·.browser) = s.ledger.live := by
  rw [h.list_live, Ledger.live, List.filter_map]
  rfl

lemma created_nodup (h : s.Traced v cs) : (s.ledger.created.map (·.browser)).Nodup := by
  rw [h.created]
  exact BrowserList.created_nodup h.admissible

lemma live_nodup (h : s.Traced v cs) : s.ledger.live.Nodup :=
  h.created_nodup.filter _

lemma length_eq_one (h : s.Traced v cs) {b : β} (hb : b ∈ s.ledger.live) :
    s.handler.browserList.length = 1 ↔ s.ledger.live = [b] := by
  rw [← List.length_map (f := (·.browser)), h.map_browserList, List.length_eq_one_iff]
  constructor
  · rintro ⟨c, hc⟩
    rw [hc] at hb ⊢
    rw [List.mem_singleton.mp hb]
  · exact fun hl => ⟨b, hl⟩

lemma closed_created (h : s.Traced v cs) {b : β} (hb : b ∈ s.ledger.closed) :
    b ∈ s.ledger.created.map (·.browser) := by
  rw [h.closed] at hb
  rw [h.created]
  exact BrowserList.closed_created h.admissible hb

lemma create_live (h : s.Traced v cs) {origin : Option β} {p : BrowserPtr β}
    (hp : s.ledger.Permits (.created origin p)) :
    (s.ledger.create origin p).live = s.ledger.live ++ [p.browser] := by
  apply Ledger.create_live
  intro hc
  exact hp.2 (h.closed_created hc)

end Session.Traced

theorem session_traced {es : List (Event β)} {s : Session β} (h : (session rule v n).Runs es s) :
    s.Traced v (callbacks es) := by
  apply h.induct (P := fun es s => s.Traced v (callbacks es))
  · exact ⟨admissible_nil, rfl, rfl, rfl, by simp [callbacks]⟩
  · intro es e s t _ ih he
    rw [callbacks_snoc]
    exact ih.step he

namespace Ledger

def Quiet (L : Ledger β) : Prop := L.live = [] ∧ L.pending = []

instance (L : Ledger β) : Decidable L.Quiet := inferInstanceAs (Decidable (_ ∧ _))

def family (L : Ledger β) : Population β := ⟨L.pending, L.live.toFinset⟩

lemma family_extinct (L : Ledger β) : L.family.Extinct ↔ L.Quiet := by
  simp [family, Population.Extinct, Quiet]

lemma mem_family {L : Ledger β} {b : β} : b ∈ L.family.living ↔ b ∈ L.live :=
  List.mem_toFinset

lemma Permits.not_quiet {L : Ledger β} {e : Event β} (h : L.Permits e) : ¬ L.Quiet := by
  rintro ⟨hl, hp⟩
  cases e with
  | created origin p => simp [Permits, hp] at h
  | cancelled opener => simp [Permits, hp] at h
  | doClose p | beforeClose p | beforePopup q => simp [Permits, hl] at h

lemma coe_erase (l : List (Option β)) (o : Option β) :
    (↑(l.erase o) : Multiset (Option β)) = (↑l : Multiset (Option β)).erase o := by
  rw [Multiset.coe_erase, lawful_beq_subsingleton Option.instBEq instBEqOfDecidableEq]

lemma create_family {L : Ledger β} {o : Option β} {p : BrowserPtr β}
    (hl : (L.create o p).live = L.live ++ [p.browser]) :
    (L.create o p).family =
      ⟨L.family.expected.erase o, insert p.browser L.family.living⟩ := by
  apply congrArg₂ Population.mk (coe_erase _ _)
  rw [hl]
  ext b
  simp only [family, List.mem_toFinset, List.mem_append, List.mem_singleton, Finset.mem_insert]
  exact or_comm

lemma cancel_family (L : Ledger β) (b : β) :
    (L.cancel b).family = ⟨L.family.expected.erase (some b), L.family.living⟩ :=
  congrArg₂ Population.mk (coe_erase _ _) rfl

lemma close_family (L : Ledger β) (b : β) :
    (L.close .cancelled b).family =
      ⟨L.family.expected.filter (· ≠ some b), L.family.living.erase b⟩ := by
  apply congrArg₂ Population.mk (Multiset.filter_coe _ _).symm
  rw [close_live]
  ext c
  simp [family, and_comm]

lemma expect_family (L : Ledger β) (b : β) :
    (L.expect b).family = ⟨some b ::ₘ L.family.expected, L.family.living⟩ :=
  congrArg₂ Population.mk (Multiset.coe_eq_coe.mpr (List.perm_append_singleton _ _)) rfl

end Ledger

lemma family_step {es : List (Event β)} {s t : Session β} {e : Event β}
    (h : (session .cancelled v n).Runs es s) (he : s.step .cancelled e = some t) :
    ReflTransGen Population.Step s.ledger.family t.ledger.family := by
  obtain ⟨hp, rfl⟩ := Session.step_eq_some.mp he
  cases e with
  | created origin p =>
    rw [Session.deliver, Ledger.create_family ((session_traced h).create_live hp)]
    exact .single (.birth origin p.browser (Multiset.mem_coe.mpr hp.1))
  | cancelled opener =>
    rw [Session.deliver, Ledger.cancel_family]
    exact .single (.lose opener (Multiset.mem_coe.mpr hp))
  | doClose p => exact .refl
  | beforeClose p =>
    rw [Session.deliver, Ledger.close_family]
    exact .single (.death p.browser (Ledger.mem_family.mpr hp))
  | beforePopup q =>
    rw [Session.deliver_beforePopup]
    cases q.targetUrl.isEmpty with
    | false =>
      rw [if_neg Bool.false_ne_true, List.append_nil]
    | true =>
      have hc := Population.Step.conceive q.browser.browser (Ledger.mem_family.mpr hp)
      rw [← Ledger.expect_family] at hc
      exact .single hc

theorem session_reaches {es : List (Event β)} {s : Session β}
    (h : (session .cancelled v n).Runs es s) : (Population.colony n).Reaches s.ledger.family :=
  h.refines (fun s : Session β => s.ledger.family) fun _ _ _ _ => family_step

def Session.quits (s : Session β) : ℕ := s.effects.count .quitMessageLoop

lemma rooted_live {es : List (Event β)} {s : Session β} (h : (session .cancelled v n).Runs es s)
    {b : β} (hb : some b ∈ s.ledger.pending) : b ∈ s.ledger.live :=
  Ledger.mem_family.mp
    ((session_reaches h).rooted (Population.colony_rooted n) b (Multiset.mem_coe.mpr hb))

lemma quiet_of_last_close {es : List (Event β)} {s : Session β} {p : BrowserPtr β} (hn : n ≤ 1)
    (h : (session .cancelled v n).Runs es s) (hp : p.browser ∈ s.ledger.live)
    (hl : (s.ledger.close .cancelled p.browser).live = []) :
    (s.ledger.close .cancelled p.browser).Quiet := by
  have hr := session_reaches h
  have hd := Population.Step.death p.browser (Ledger.mem_family.mpr hp)
  rw [← Ledger.close_family] at hd
  refine (Ledger.family_extinct _).mp (Population.extinct_of_last_death
    (hr.rooted (Population.colony_rooted n)) (hr.founded (Population.colony_founded hn)) hd
    ⟨p.browser, Ledger.mem_family.mpr hp⟩ ?_)
  simp [Ledger.family, hl]

lemma onBeforeClose_quits (rule : OrphanRule) {cs : List (Callback β)} {s : Session β}
    {p : BrowserPtr β} (h : s.Traced v cs) :
    (s.handler.onBeforeClose p).1 =
      if (s.ledger.close rule p.browser).live = [] then [.quitMessageLoop] else [] := by
  rw [SimpleHandler.onBeforeClose_effects, Ledger.close_live, ← h.map_browserList,
    SimpleHandler.eraseSame_eq_filter p (h.map_browserList ▸ h.live_nodup), List.filter_map,
    if_congr List.map_eq_nil_iff.symm rfl rfl]
  rfl

lemma deliver_quits (rule : OrphanRule) {cs : List (Callback β)} {s : Session β}
    (h : s.Traced v cs) (e : Event β) :
    (s.deliver rule e).quits =
      s.quits + if e.isClose ∧ (s.deliver rule e).ledger.live = [] then 1 else 0 := by
  cases e with
  | created origin p | cancelled opener | doClose p => rfl
  | beforeClose p =>
    simp only [Session.quits, Session.deliver, onBeforeClose_quits rule h, List.count_append,
      Event.isClose, true_and]
    split <;> simp
  | beforePopup q =>
    simp only [Session.quits, Session.deliver, SimpleHandler.onBeforePopup_effects]
    cases q.targetUrl.isEmpty <;> simp [Event.isClose]

lemma quiet_deliver {es : List (Event β)} {s : Session β} {e : Event β} (hn : n ≤ 1)
    (h : (session .cancelled v n).Runs es s) (hp : s.ledger.Permits e) :
    (s.deliver .cancelled e).ledger.Quiet ↔
      e.isClose ∧ (s.deliver .cancelled e).ledger.live = [] := by
  cases e with
  | created origin p =>
    have hl := (session_traced h).create_live hp
    simp [Session.deliver, Ledger.Quiet, hl, Event.isClose]
  | cancelled opener =>
    have hl : s.ledger.live ≠ [] := List.ne_nil_of_mem (rooted_live h hp)
    simp [Session.deliver, Ledger.Quiet, Ledger.cancel_live, hl, Event.isClose]
  | doClose p =>
    have hl : s.ledger.live ≠ [] := List.ne_nil_of_mem hp
    simp [Session.deliver, Ledger.Quiet, Ledger.ask_live, hl, Event.isClose]
  | beforeClose p =>
    refine ⟨fun hq => ⟨rfl, hq.1⟩, fun hl => quiet_of_last_close hn h hp hl.2⟩
  | beforePopup q =>
    have hl : s.ledger.live ≠ [] := List.ne_nil_of_mem hp
    rw [Session.deliver_beforePopup]
    refine ⟨fun hq => absurd hq.1 hl, fun hq => ?_⟩
    simp [Event.isClose] at hq

theorem quits_eq {es : List (Event β)} {s : Session β} (h : (session .cancelled v 1).Runs es s) :
    s.quits = if s.ledger.Quiet then 1 else 0 := by
  refine h.induct (P := fun _ s => s.quits = if s.ledger.Quiet then 1 else 0) rfl ?_
  intro es e s t hr ih he
  obtain ⟨hp, rfl⟩ := Session.step_eq_some.mp he
  -- the guard admits no event in a quiet state, so nothing has been called before the step
  rw [if_neg hp.not_quiet] at ih
  rw [deliver_quits .cancelled (session_traced hr), ih, Nat.zero_add]
  exact if_congr (quiet_deliver le_rfl hr hp).symm rfl rfl

lemma runs_zero {es : List (Event β)} {s : Session β} (h : (session rule v 0).Runs es s) :
    s = .start v 0 := by
  refine h.invariant (I := fun s => s = .start v 0) rfl ?_
  rintro s e t rfl he
  exact absurd ⟨rfl, rfl⟩ (Session.step_eq_some.mp he).1.not_quiet

lemma last_close {cs : List (Callback β)} {s : Session β} {b : β} (h : s.Traced v cs)
    (hb : b ∈ s.ledger.live) (hl : (s.ledger.close rule b).live = []) : s.ledger.live = [b] := by
  rw [Ledger.close_live, List.filter_eq_nil_iff] at hl
  have hall : ∀ c ∈ s.ledger.live, c = b := fun c hc => by simpa using hl c hc
  exact List.perm_singleton.mp ((List.perm_ext_iff_of_nodup h.live_nodup (by simp)).mpr
    fun c => ⟨fun hc => List.mem_singleton.mpr (hall c hc), fun hc => List.mem_singleton.mp hc ▸ hb⟩)

end QyCefVS.LifeSpan
