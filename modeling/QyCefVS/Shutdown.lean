import QyCefVS.Library.Progress
import QyCefVS.MessageLoop
import QyCefVS.SingleWindow

/-! How the process comes to its end. Everything that happens to it, the answers to `DoClose` and
`OnBeforePopup` apart, uses up a bounded store of work, and only a popup without an address adds
to the store. A process that has started up is never stuck before `main` returns. -/

namespace QyCefVS.Shutdown

open Handler LifeSpan Application Transitions SingleWindow

variable {β : Type}

def stepsLeft : MainPc → ℕ
  | .cefExecuteProcess => 4
  | .cefInitialize => 3
  | .cefRunMessageLoop => 2
  | .cefShutdown => 1
  | .returned _ => 0

def settles : Event β → Bool
  | .created _ _ | .cancelled _ | .beforeClose _ => true
  | .doClose _ | .beforePopup _ => false

def windsDown : ProcessEvent β → Bool
  | .main | .contextInitialized => true
  | .lifeSpan e => settles e

def blanks (es : List (Event β)) : ℕ := (requests es).countP isBlank

def refill (e : ProcessEvent β) : ℕ := 2 * blanks (lifeSpans [e])

lemma refill_sum (es : List (ProcessEvent β)) :
    (es.map refill).sum = 2 * blanks (lifeSpans es) := by
  induction es with
  | nil => rfl
  | cons e es ih =>
    have hb : blanks (lifeSpans (e :: es)) = blanks (lifeSpans [e]) + blanks (lifeSpans es) := by
      rw [← List.singleton_append, lifeSpans, List.filterMap_append, blanks, requests,
        List.filterMap_append, List.countP_append]
      rfl
    rw [List.map_cons, List.sum_cons, ih, refill, hb]
    omega

lemma blanks_of_windsDown {es : List (ProcessEvent β)} (h : ∀ e ∈ es, windsDown e = true) :
    blanks (lifeSpans es) = 0 := by
  apply countP_blank
  intro e he
  obtain ⟨f, hf, hfe⟩ := List.mem_filterMap.mp he
  cases f with
  | main | contextInitialized => simp [ProcessEvent.lifeSpan?] at hfe
  | lifeSpan g =>
    obtain rfl := Option.some.inj hfe
    have hg := h _ hf
    cases g with
    | created origin p | cancelled opener | beforeClose p => rfl
    | doClose p | beforePopup q => simp [windsDown, settles] at hg

lemma refill_of_windsDown {e : ProcessEvent β} (he : windsDown e = true) : refill e = 0 := by
  rw [refill, blanks_of_windsDown (List.forall_mem_singleton.mpr he)]

variable [DecidableEq β] {rule : OrphanRule} {v : Bool} {n : ℕ} {r : Results}

def sessionWork (s : Session β) : ℕ := 2 * s.ledger.pending.length + s.ledger.live.length

def work (r : Results) (p : Process β) : ℕ :=
  stepsLeft p.pc + (if p.ContextToCome r then 1 + 2 * r.founders else 0) + p.app.elim 0 sessionWork

lemma sessionWork_step (rule : OrphanRule) {cs : List (Callback β)} {s : Session β} {e : Event β}
    (h : s.Traced v cs) (hp : s.ledger.Permits e) :
    sessionWork (s.deliver rule e) + (settles e).toNat ≤ sessionWork s + 2 * blanks [e] := by
  cases e with
  | created origin p =>
    have hl : (s.deliver rule (.created origin p)).ledger.live = s.ledger.live ++ [p.browser] :=
      h.create_live hp
    have he := List.length_erase_of_mem hp.1
    have hpos := List.length_pos_of_mem hp.1
    rw [sessionWork, sessionWork, hl]
    simp only [Session.deliver, Ledger.create, he, List.length_append, List.length_singleton,
      settles, Bool.toNat_true]
    omega
  | cancelled opener =>
    have he := List.length_erase_of_mem hp
    have hpos := List.length_pos_of_mem hp
    have hl : (s.deliver rule (.cancelled opener)).ledger.live = s.ledger.live := rfl
    rw [sessionWork, sessionWork, hl]
    simp only [Session.deliver, Ledger.cancel, he, settles, Bool.toNat_true]
    omega
  | doClose p =>
    have hd : sessionWork (s.deliver rule (.doClose p)) = sessionWork s := rfl
    simp [hd, settles]
  | beforeClose p =>
    have hl : (s.ledger.close rule p.browser).live.length < s.ledger.live.length := by
      rw [Ledger.close_live]
      exact List.length_filter_lt_length_iff_exists.mpr ⟨p.browser, hp, by simp⟩
    have hq : (s.ledger.close rule p.browser).pending.length ≤ s.ledger.pending.length := by
      cases rule with
      | cancelled => exact List.length_filter_le _ _
      | kept => exact le_rfl
    simp only [sessionWork, Session.deliver, settles, Bool.toNat_true]
    omega
  | beforePopup q =>
    have hl : (s.deliver rule (.beforePopup q)).ledger.live = s.ledger.live := by
      rw [Session.deliver_beforePopup]
      rfl
    rw [sessionWork, hl, Session.deliver_beforePopup]
    cases hq : q.targetUrl.isEmpty with
    | true =>
      have hb : blanks [Event.beforePopup q] = 1 := by
        simp [blanks, requests, Event.request?, isBlank, hq]
      simp only [sessionWork, hb, settles, Bool.toNat_false, if_true, List.length_append,
        List.length_singleton]
      omega
    | false => simp [sessionWork, settles]

lemma work_step {es : List (ProcessEvent β)} {p p' : Process β} {e : ProcessEvent β}
    (h : (process rule r).Runs es p) (he : (process rule r).step p e = some p') :
    work r p' + (windsDown e).toNat ≤ work r p + refill e := by
  cases e with
  | main =>
    obtain ⟨ha, hm⟩ := step_main he
    have hc : p'.ContextToCome r ↔ p.ContextToCome r := by
      simp only [Process.ContextToCome, ha]
    rw [work, work, ha, if_congr hc rfl rfl]
    rcases hm with ⟨h1, _, h2⟩ | ⟨h1, _, h2⟩ | ⟨h1, h2⟩ | ⟨h1, _, h2⟩ | ⟨h1, h2⟩
    all_goals
      rw [h1, h2]
      simp only [stepsLeft, windsDown, Bool.toNat_true]
      omega
  | contextInitialized =>
    obtain ⟨_, ha, hi, rfl⟩ := step_contextInitialized he
    have hw : sessionWork (onContextInitialized r : Session β) = 2 * r.founders := by
      simp [sessionWork, onContextInitialized, Session.start, Ledger.start, Ledger.live]
    simp only [work, Process.ContextToCome, ha, hi, hw, windsDown, Option.elim_some,
      Option.elim_none, Bool.toNat_true]
    simp only [reduceCtorEq, and_false, and_self, if_false, if_true]
    omega
  | lifeSpan e =>
    obtain ⟨_, s, t, hs, ht, rfl⟩ := step_lifeSpan he
    obtain ⟨hp, rfl⟩ := Session.step_eq_some.mp ht
    have hle := sessionWork_step rule (session_traced (process_app h hs)) hp
    have hb : refill (.lifeSpan e) = 2 * blanks [e] := rfl
    simp only [work, Process.ContextToCome, hs, Option.elim_some, windsDown, hb]
    simp only [reduceCtorEq, and_false, if_false]
    omega

/-- The founder is the first browser of all: while it is to come nothing has happened. -/
lemma start_of_founder {es : List (Event β)} {s : Session β} (hn : n ≤ 1)
    (h : (session rule v n).Runs es s) (hp : none ∈ s.ledger.pending) : s = .start v n := by
  refine h.invariant (I := fun s => none ∈ s.ledger.pending → s = .start v n) (fun _ => rfl) ?_ hp
  intro s e t ih he ht
  obtain ⟨hpe, rfl⟩ := Session.step_eq_some.mp he
  have hs : none ∈ s.ledger.pending := by
    cases e with
    | created origin p | cancelled opener => exact List.mem_of_mem_erase ht
    | doClose p => exact ht
    | beforeClose p =>
      cases rule with
      | cancelled => exact List.mem_of_mem_filter ht
      | kept => exact ht
    | beforePopup q =>
      rw [Session.deliver_beforePopup] at ht
      cases hq : q.targetUrl.isEmpty <;> simpa [hq] using ht
  obtain rfl := ih hs
  obtain rfl : n = 1 := by
    have := (List.mem_replicate.mp hs).1
    omega
  cases e with
  | created origin p =>
    obtain rfl : origin = none := List.mem_singleton.mp hpe.1
    simp [Session.deliver, Ledger.create, Session.start, Ledger.start] at ht
  | cancelled opener => simp [Ledger.Permits, Session.start, Ledger.start] at hpe
  | doClose p | beforeClose p | beforePopup q =>
    simp [Ledger.Permits, Session.start, Ledger.start, Ledger.live] at hpe

lemma session_progress [Nonempty β] {es : List (Event β)} {s : Session β} (hn : n ≤ 1)
    (h : (session rule v n).Runs es s) (hq : ¬ s.ledger.Quiet) :
    ∃ e t, settles e = true ∧ s.step rule e = some t := by
  by_cases hl : s.ledger.live = []
  · obtain ⟨o, ho⟩ := List.exists_mem_of_ne_nil _ fun hp => hq ⟨hl, hp⟩
    cases o with
    | none =>
      obtain ⟨b⟩ := ‹Nonempty β›
      obtain rfl := start_of_founder hn h ho
      exact ⟨.created none ⟨b, 0⟩, _, rfl, Session.step_eq_some.mpr ⟨⟨ho, List.not_mem_nil⟩, rfl⟩⟩
    | some b => exact ⟨.cancelled b, _, rfl, Session.step_eq_some.mpr ⟨ho, rfl⟩⟩
  · obtain ⟨b, hb⟩ := List.exists_mem_of_ne_nil _ hl
    exact ⟨.beforeClose ⟨b, 0⟩, _, rfl, Session.step_eq_some.mpr ⟨hb, rfl⟩⟩

variable {es : List (ProcessEvent β)} {p : Process β}

lemma progress [Nonempty β] (hr : r.StartsUp) (h : (process .cancelled r).Runs es p)
    (hp : ∀ c, p.pc ≠ .returned c) :
    ∃ e q, windsDown e = true ∧ (process .cancelled r).step p e = some q := by
  have hmain : ∀ q, p.mainStep r = some q →
      ∃ e q, windsDown e = true ∧ (process .cancelled r).step p e = some q :=
    fun q hq => ⟨.main, q, rfl, hq⟩
  cases hpc : p.pc with
  | cefExecuteProcess | cefInitialize | cefShutdown => exact hmain _ (by rw [Process.mainStep, hpc])
  | returned c => exact absurd hpc (hp c)
  | cefRunMessageLoop =>
    have hlib : p.pc.inLibcef = true := by
      rw [hpc]
      rfl
    by_cases hq : 0 < p.quits
    · exact hmain { p with pc := .cefShutdown } (by simp [Process.mainStep, hpc, hq])
    · by_cases hc : p.ContextToCome r
      · exact ⟨.contextInitialized, _, rfl, if_pos ⟨hlib, hc⟩⟩
      · have hs : ¬ p.Stranded r := fun hs => hq (quit_of_stranded hr h hs)
        cases ha : p.app with
        | none => exact absurd ⟨hpc, hc, by simp [Process.live, ha], by simp [Process.pending, ha]⟩ hs
        | some s =>
          have hn : ¬ s.ledger.Quiet := fun hn =>
            hs ⟨hpc, hc, by simp [Process.live, ha, hn.1], by simp [Process.pending, ha, hn.2]⟩
          obtain ⟨e, t, he, ht⟩ := session_progress r.founders_le (process_app h ha) hn
          refine ⟨.lifeSpan e, { p with app := some t }, he, ?_⟩
          change (if _ then _ else none) = _
          rw [if_pos hlib, ha, Option.bind_some, ht]
          rfl

def status (r : Results) : ℤ := if 0 ≤ r.exitCode then r.exitCode else 0

lemma returned_status {c : ℤ} (h : (process rule r).Runs es p) (hp : p.pc = .returned c) :
    c = status r := by
  -- only the main process goes past the first call
  have hi : (∀ c, p.pc = .returned c → c = status r) ∧
      (p.pc.inLibcef = true → r.exitCode < 0) := by
    apply h.invariant (I := fun p => (∀ c, p.pc = .returned c → c = status r) ∧
      (p.pc.inLibcef = true → r.exitCode < 0))
    · simp [process, Process.start, MainPc.inLibcef]
    · rintro p e p' ⟨hc, hx⟩ he
      cases e with
      | main =>
        rcases (step_main he).2 with ⟨_, h0, h2⟩ | ⟨_, h0, h2⟩ | ⟨h1, h2⟩ | ⟨h1, _, h2⟩ | ⟨h1, h2⟩
        · simp [h2, status, h0, MainPc.inLibcef]
        · simp [h2, h0]
        · simp [h2, hx (by rw [h1]; rfl)]
        · simp [h2, hx (by rw [h1]; rfl)]
        · have h0 := hx (by rw [h1]; rfl)
          simp [h2, status, Int.not_le.mpr h0, MainPc.inLibcef]
      | contextInitialized =>
        obtain ⟨_, _, _, rfl⟩ := step_contextInitialized he
        exact ⟨hc, hx⟩
      | lifeSpan e =>
        obtain ⟨_, _, _, _, _, rfl⟩ := step_lifeSpan he
        exact ⟨hc, hx⟩
  exact hi.1 c hp

lemma work_start (r : Results) : work r (.start : Process β) ≤ 7 := by
  have hf := r.founders_le
  rw [work]
  split <;> simp only [Process.start, stepsLeft, Option.elim_none] <;> omega

lemma exec_work {fs : List (ProcessEvent β)} {q : Process β} (h : (process rule r).Runs es p)
    (hx : (process rule r).exec p fs = some q) :
    (process rule r).Reachable q ∧
      work r q + fs.countP windsDown ≤ work r p + 2 * blanks (lifeSpans fs) := by
  rw [← refill_sum]
  apply Machine.exec_work (I := (process rule r).Reachable) (work r) refill windsDown ?_ ⟨es, h⟩ hx
  rintro s e t ⟨gs, hg⟩ he
  exact ⟨⟨gs ++ [e], hg.snoc he⟩, work_step hg he⟩

theorem work_bounded (rule : OrphanRule) (r : Results) (es : List (ProcessEvent β)) (p : Process β)
    (h : (process rule r).Runs es p) :
    work r p + es.countP windsDown ≤ 7 + 2 * (requests (lifeSpans es)).countP isBlank ∧
    ∀ fs q, (process rule r).exec p fs = some q →
      work r q + fs.countP windsDown ≤ work r p + 2 * (requests (lifeSpans fs)).countP isBlank := by
  refine ⟨?_, fun fs q hx => (exec_work h hx).2⟩
  have hw := (exec_work Machine.runs_nil h).2
  have h7 := work_start (β := β) r
  exact hw.trans (Nat.add_le_add_right h7 _)

theorem browsing_bounded :
    browsing.countP windsDown ≤ 7 + 2 * (requests (lifeSpans browsing)).countP isBlank ∧
      browsing.countP windsDown = 9 := by
  have h : (process .cancelled working).Runs browsing _ := rfl
  exact ⟨(Nat.le_add_left _ _).trans (work_bounded .cancelled working browsing _ h).1, rfl⟩

lemma stranded_run (β : Type) [DecidableEq β] (hr : ¬ r.StartsUp) :
    ∃ es, ∃ p : Process β, (process .cancelled r).Runs es p ∧ p.Stranded r ∧ p.quits = 0 := by
  obtain ⟨hx, hn⟩ := not_or.mp hr
  cases hi : r.initialized with
  | false =>
    exact ⟨_, _, stranded_uninitialized hx, ⟨rfl, by simp [Process.ContextToCome, hi], rfl, rfl⟩, rfl⟩
  | true =>
    have hb : r.createBrowser firstBrowser = false := by simpa [hi] using hn
    exact ⟨_, _, stranded_without_browser hx hi hb,
      ⟨rfl, by simp [Process.ContextToCome], rfl, rfl⟩, rfl⟩

lemma stranded_stays {fs : List (ProcessEvent β)} {q : Process β} (hp : p.Stranded r)
    (hq : p.quits = 0) (hx : (process .cancelled r).exec p fs = some q) : q = p := by
  obtain ⟨hpc, hc, hl, hpe⟩ := hp
  cases fs with
  | nil => exact (Option.some.inj hx).symm
  | cons e fs =>
    obtain ⟨u, hu, -⟩ := Option.bind_eq_some_iff.mp hx
    cases e with
    | main => rcases (step_main hu).2 with h | h | h | h | h <;> simp [hpc, hq] at h
    | contextInitialized =>
      obtain ⟨_, ha, hi, _⟩ := step_contextInitialized hu
      exact absurd ⟨hi, ha⟩ hc
    | lifeSpan e =>
      obtain ⟨_, s, t, hs, ht, _⟩ := step_lifeSpan hu
      have hquiet : s.ledger.Quiet := by
        simpa [Process.live, Process.pending, hs, Ledger.Quiet] using And.intro hl hpe
      exact absurd hquiet (Session.step_eq_some.mp ht).1.not_quiet

theorem shutdown_iff (β : Type) [DecidableEq β] [Nonempty β] (r : Results) :
    (∀ (es : List (ProcessEvent β)) (p : Process β), (process .cancelled r).Runs es p →
      (∃ fs q, (∀ e ∈ fs, windsDown e = true) ∧ (process .cancelled r).exec p fs = some q ∧
        fs.length ≤ work r p ∧ q.pc = .returned (status r)) ∧
      ∀ fs q, (∀ e ∈ fs, windsDown e = true) → (process .cancelled r).exec p fs = some q →
        (∀ e, windsDown e = true → (process .cancelled r).step q e = none) →
        q.pc = .returned (status r)) ↔ r.StartsUp := by
  constructor
  · intro h
    by_contra hr
    obtain ⟨es, p, hp, hs, hq⟩ := stranded_run β hr
    obtain ⟨⟨fs, q, _, hx, _, hpc⟩, -⟩ := h es p hp
    rw [stranded_stays hs hq hx, hs.1] at hpc
    simp at hpc
  · intro hr es p h
    have hend : ∀ q : Process β, (process .cancelled r).Reachable q →
        (∀ e, windsDown e = true → (process .cancelled r).step q e = none) →
        q.pc = .returned (status r) := by
      rintro q ⟨gs, hg⟩ hn
      by_contra hne
      have hret : ∀ c, q.pc ≠ .returned c := fun c hc => hne (returned_status hg hc ▸ hc)
      obtain ⟨e, t, he, ht⟩ := progress hr hg hret
      simp [hn e he] at ht
    refine ⟨?_, fun fs q _ hx => hend q (exec_work h hx).1⟩
    have hpr : ∀ q : Process β, (process .cancelled r).Reachable q → ¬ (∃ c, q.pc = .returned c) →
        ∃ e t, windsDown e = true ∧ (process .cancelled r).step q e = some t ∧
          (process .cancelled r).Reachable t ∧ work r t < work r q := by
      rintro q ⟨gs, hg⟩ hn
      obtain ⟨e, t, he, ht⟩ := progress hr hg (not_exists.mp hn)
      have hle := work_step hg ht
      have hz : refill e = 0 := refill_of_windsDown he
      rw [he, Bool.toNat_true] at hle
      exact ⟨e, t, he, ht, ⟨_, hg.snoc ht⟩, by omega⟩
    obtain ⟨fs, q, hfs, hx, ⟨gs, hg⟩, c, hc⟩ := Machine.finishes (work r) hpr
      (show (process .cancelled r).Reachable p from ⟨es, h⟩)
    refine ⟨fs, q, hfs, hx, ?_, returned_status hg hc ▸ hc⟩
    have hw := (exec_work h hx).2
    rw [List.countP_eq_length.mpr hfs, blanks_of_windsDown hfs] at hw
    omega

theorem browsing_finishes : ∃ fs, ∃ q : Process ℕ, (∀ e ∈ fs, windsDown e = true) ∧
    (process .cancelled working).exec .start fs = some q ∧ fs.length ≤ 7 ∧ q.pc = .returned 0 :=
  (((shutdown_iff ℕ working).mpr (Or.inr ⟨rfl, rfl⟩)) [] .start rfl).1

end QyCefVS.Shutdown
