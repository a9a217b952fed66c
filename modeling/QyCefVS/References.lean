import QyCefVS.Application
import QyCefVS.Library.Ownership

/-! The reference counts behind the callbacks. The handler's list holds the browsers and every
browser holds the handler as its client; `g_instance`, the only global, points to the handler
from its constructor, which checks that there is no other, to its destructor. A `CefRefPtr`
parameter counts for the time of the call. -/

namespace QyCefVS.References

open Handler LifeSpan Application Ownership

inductive Object (β : Type)
  | handler
  | browser (b : β)
  deriving DecidableEq

abbrev Memory (β : Type) := Heap (Object β) (Option (Object β))

variable {β : Type}

def getInstance (H : Memory β) : Option (Object β) := H.globals

def destructor : Object β → Option (Object β) → Option (Object β)
  | .handler, _ => none
  | .browser _, g => g

def refs (handles : ℕ) (held : List β) : List (Object β) :=
  List.replicate handles .handler ++ held.map .browser

@[simp] lemma browser_mem_refs {k : ℕ} {held : List β} {b : β} :
    .browser b ∈ refs k held ↔ b ∈ held := by
  simp [refs]

lemma refs_succ (k : ℕ) (held : List β) : refs (k + 1) held = .handler :: refs k held := rfl

lemma refs_snoc (k : ℕ) (held : List β) (b : β) :
    (Object.browser b :: refs k held).Perm (refs k (held ++ [b])) := by
  rw [refs, refs, List.map_append, ← List.append_assoc]
  exact (List.perm_append_singleton _ _).symm

variable [DecidableEq β]

lemma refs_erase (k : ℕ) {held : List β} {b : β} (hb : b ∈ held) :
    (refs k held).Perm (.browser b :: refs k (held.erase b)) := by
  have hp := ((List.perm_cons_erase hb).map Object.browser).append_left (List.replicate k .handler)
  exact hp.trans List.perm_middle

def newHandler (H : Memory β) : Memory β :=
  let K := H.create .handler (some .handler)
  { K with fault := K.fault || (getInstance H).isSome }

def release (H : Memory β) (x : Object β) : Memory β := Heap.release destructor H x

def passing (x : Object β) (call : Memory β → Memory β) (H : Memory β) : Memory β :=
  release (call (H.addRef x)) x

/-- A creation that succeeds keeps a reference to the client until the browser has it. -/
def createBrowser (succeeds : Bool) : Memory β → Memory β :=
  passing .handler fun H => if succeeds then H.addRef .handler else H

def onContextInitialized (r : Results) (H : Memory β) : Memory β :=
  createBrowser (r.createBrowser firstBrowser) (newHandler H)

/-- A new browser takes over its creation's reference to the client. -/
def newBrowser (H : Memory β) (b : β) : Memory β :=
  (H.create (.browser b) (getInstance H)).adopt (.browser b) .handler

def onAfterCreated (p : BrowserPtr β) : Memory β → Memory β :=
  passing (.browser p.browser) fun H =>
    (H.addRef (.browser p.browser)).adopt .handler (.browser p.browser)

def doClose (p : BrowserPtr β) : Memory β → Memory β := passing (.browser p.browser) id

def onBeforeClose (h : SimpleHandler β) (p : BrowserPtr β) : Memory β → Memory β :=
  passing (.browser p.browser) fun H =>
    match h.browserList.find? (·.isSame p) with
    | some bit => release (H.detach .handler (.browser bit.browser)) (.browser bit.browser)
    | none => H

/-- The popup keeps the client that the call leaves in its in-out parameter. -/
def onBeforePopup (h : SimpleHandler β) (q : PopupRequest β) (H : Memory β) : Memory β :=
  let reply := h.onBeforePopup q (.handler : Object β)
  let K := passing (.browser q.browser.browser) id (H.addRef .handler)
  if reply.cancel then release K reply.client else K

def deliver (s : Session β) (H : Memory β) : Event β → Memory β
  | .created _ p => onAfterCreated p (newBrowser H p.browser)
  | .cancelled _ => release H .handler
  | .doClose p => doClose p H
  | .beforeClose p =>
    (release · .handler)^[s.ledger.pending.countP (· = some p.browser)]
      (onBeforeClose s.handler p H)
  | .beforePopup q => onBeforePopup s.handler q H

def client (b : β) : Object β × Object β := (.browser b, .handler)

def element (b : β) : Object β × Object β := (.handler, .browser b)

/-- The memory of a handler with the browsers `live` in its list, when libcef holds on to the
browsers `held` out of all those `created`. -/
structure Tracked (H : Memory β) (live held created : List β) (roots : List (Object β)) : Prop where
  balanced : H.Balanced roots
  members : H.members.Perm (live.map element ++ held.map client)
  rooted : ∀ b ∈ held, .browser b ∈ roots
  live_held : ∀ b ∈ live, b ∈ held
  live_nodup : live.Nodup
  held_nodup : held.Nodup
  browsers : ∀ b, .browser b ∈ H.allocated ↔ b ∈ created
  handler : .handler ∈ H.allocated
  global : getInstance H = if H.Present .handler then some .handler else none

lemma filter_ne {l : List β} (h : l.Nodup) (b : β) : l.filter (· ≠ b) = l.erase b := by
  rw [h.erase_eq_filter]
  exact List.filter_congr fun c _ => by by_cases hc : c = b <;> simp [hc]

lemma foldl_destructor (gone : List (Object β)) (g : Option (Object β)) :
    gone.foldl (fun g x => destructor x g) g = if .handler ∈ gone then none else g := by
  induction gone generalizing g with
  | nil => rfl
  | cons x gone ih =>
    rw [List.foldl_cons, ih]
    cases x <;> simp [destructor]

namespace Tracked

variable {H : Memory β} {live held created : List β} {roots : List (Object β)} {b : β} {x : Object β}

lemma perm (h : Tracked H live held created roots) {roots' : List (Object β)}
    (hp : roots.Perm roots') : Tracked H live held created roots' :=
  { h with balanced := h.balanced.perm hp, rooted := fun b hb => hp.mem_iff.mp (h.rooted b hb) }

lemma mem_members (h : Tracked H live held created roots) {m : Object β × Object β} :
    m ∈ H.members ↔ (∃ b ∈ live, m = element b) ∨ ∃ b ∈ held, m = client b := by
  rw [h.members.mem_iff, List.mem_append, List.mem_map, List.mem_map]
  simp only [eq_comm]

lemma browser_present (h : Tracked H live held created roots) (hb : b ∈ held) :
    H.Present (.browser b) :=
  h.balanced.present_root (h.rooted b hb)

lemma handler_present (h : Tracked H live held created roots) (hb : b ∈ held) :
    H.Present .handler :=
  h.balanced.present_member (h.mem_members.mpr (Or.inr ⟨b, hb, rfl⟩))

lemma addRef (h : Tracked H live held created roots) (hx : H.Present x) :
    Tracked (H.addRef x) live held created (x :: roots) :=
  { h with
    balanced := h.balanced.addRef hx
    rooted := fun b hb => List.mem_cons_of_mem x (h.rooted b hb) }

lemma of_lost (h : Tracked H live held created (x :: roots)) {held' : List β}
    (hn : held'.Nodup) (hlive : ∀ b ∈ live, b ∈ held')
    (hr : ∀ b ∈ held', .browser b ∈ roots)
    (hm : (release H x).members.Perm (live.map element ++ held'.map client)) :
    Tracked (release H x) live held' created roots := by
  obtain ⟨gone, hl⟩ := Heap.release_lost destructor H x
  refine ⟨h.balanced.release, hm, hr, hlive, h.live_nodup, hn, ?_, ?_, ?_⟩
  · intro b
    rw [release, hl.allocated]
    exact h.browsers b
  · rw [release, hl.allocated]
    exact h.handler
  · have hg := h.global
    rw [getInstance] at hg ⊢
    rw [release, hl.globals, foldl_destructor, hg, if_congr hl.present_iff rfl rfl]
    split_ifs <;> simp_all

lemma kept_of_lost (h : Tracked H live held created (x :: roots)) {gone : List (Object β)}
    (hl : H.Lost destructor (release H x) gone) {held' : List β}
    (hlive : ∀ b ∈ live, b ∈ held') (hr : ∀ b ∈ held', .browser b ∈ roots) :
    (∀ b ∈ held', .browser b ∉ gone) ∧ ∀ b ∈ live, .handler ∉ gone := by
  have hk : (release H x).Balanced roots := h.balanced.release
  have hb : ∀ b ∈ held', .browser b ∉ gone := fun b hb =>
    (hl.present_iff.mp (hk.present_root (hr b hb))).2
  refine ⟨hb, fun b hlb => ?_⟩
  have hc : client b ∈ (release H x).members :=
    hl.mem_members.mpr ⟨h.mem_members.mpr (Or.inr ⟨b, h.live_held b hlb, rfl⟩), hb b (hlive b hlb)⟩
  exact (hl.present_iff.mp (hk.present_member hc)).2

lemma release (h : Tracked H live held created (x :: roots))
    (hr : ∀ b ∈ held, .browser b ∈ roots) :
    Tracked (release H x) live held created roots := by
  obtain ⟨gone, hl⟩ := Heap.release_lost destructor H x
  obtain ⟨hb, hh⟩ := h.kept_of_lost hl h.live_held hr
  apply h.of_lost h.held_nodup h.live_held hr
  have hm : (References.release H x).members = H.members := by
    rw [References.release, hl.members, List.filter_eq_self]
    intro m hm
    rcases h.mem_members.mp hm with ⟨b, hlb, rfl⟩ | ⟨b, hhb, rfl⟩
    · exact decide_eq_true (hh b hlb)
    · exact decide_eq_true (hb b hhb)
  rw [hm]
  exact h.members

lemma releaseLast (h : Tracked H live held created (.browser b :: roots)) (hb : b ∉ live)
    (hroots : .browser b ∉ roots) (hr : ∀ c ∈ held.erase b, .browser c ∈ roots) :
    Tracked (References.release H (.browser b)) live (held.erase b) created roots := by
  obtain ⟨gone, hl⟩ := Heap.release_lost destructor H (.browser b)
  have hlive : ∀ c ∈ live, c ∈ held.erase b := fun c hc =>
    (List.mem_erase_of_ne (by rintro rfl; exact hb hc)).mpr (h.live_held c hc)
  obtain ⟨hk, hh⟩ := h.kept_of_lost hl hlive hr
  apply h.of_lost (h.held_nodup.erase b) hlive hr
  have hgone : .browser b ∈ gone := by
    by_contra hg
    have hp := hl.present_iff.mpr ⟨h.balanced.present_root List.mem_cons_self, hg⟩
    rcases (h.balanced.release (d := destructor)).present_iff.mp hp with hp | ⟨o, hp⟩
    · exact hroots hp
    · rcases h.mem_members.mp (hl.mem_members.mp hp).1 with ⟨c, hc, he⟩ | ⟨c, hc, he⟩
      · simp only [element, Prod.mk.injEq, Object.browser.injEq] at he
        exact hb (he.2 ▸ hc)
      · simp [client] at he
  have hm : (References.release H (.browser b)).members = H.members.filter (· ≠ client b) := by
    rw [References.release, hl.members]
    apply List.filter_congr
    intro m hm
    rcases h.mem_members.mp hm with ⟨c, hc, rfl⟩ | ⟨c, hc, rfl⟩
    · simp [hh c hc, element, client]
    · by_cases hcb : c = b
      · simp [hcb, hgone, client]
      · have hg := hk c ((List.mem_erase_of_ne hcb).mpr hc)
        simp [client, hg, hcb]
  rw [hm, ← filter_ne h.held_nodup]
  refine (h.members.filter _).trans (List.Perm.of_eq ?_)
  rw [List.filter_append, List.filter_map, List.filter_map]
  simp [Function.comp_def, element, client]

lemma newBrowser (h : Tracked H live held created (.handler :: roots)) (hb : b ∉ created) :
    Tracked (newBrowser H b) live (held ++ [b]) (created ++ [b]) (.browser b :: roots) := by
  have ha : .browser b ∉ H.allocated := fun ha => hb ((h.browsers b).mp ha)
  have hnot : b ∉ held := fun hh => ha (h.browser_present hh).1
  have hc := h.balanced.create ha (getInstance H)
  refine ⟨(hc.perm (.swap _ _ _)).adopt (hc.present_root List.mem_cons_self), ?_, ?_, ?_,
    h.live_nodup, ?_, ?_, List.mem_cons_of_mem _ h.handler, ?_⟩
  · change (H.members ++ [client b]).Perm _
    simpa using h.members.append_right [client b]
  · intro c hc
    rcases List.mem_append.mp hc with hc | hc
    · simpa using Or.inr (h.rooted c hc)
    · simp [List.mem_singleton.mp hc]
  · exact fun c hc => List.mem_append_left _ (h.live_held c hc)
  · simpa [List.nodup_append] using ⟨h.held_nodup, fun c hm he => hnot (he ▸ hm)⟩
  · intro c
    have hac := h.browsers c
    simp [References.newBrowser, Heap.create, Heap.construct, Heap.addRef, Heap.adopt, hac, or_comm]
  · refine h.global.trans (if_congr ?_ rfl rfl)
    simp [References.newBrowser, Heap.create, Heap.construct, Heap.addRef, Heap.adopt, Heap.Present]

lemma push (h : Tracked H live held created (.browser b :: roots)) (hb : b ∈ held) (hnot : b ∉ live)
    (hr : ∀ c ∈ held, .browser c ∈ roots) :
    Tracked (H.adopt .handler (.browser b)) (live ++ [b]) held created roots where
  balanced := h.balanced.adopt (h.handler_present hb)
  members := by
    have hp := h.members.append_right [element b]
    rw [List.append_assoc] at hp
    have hc : (live.map element ++ (held.map client ++ [element b])).Perm
        (live.map element ++ ([element b] ++ held.map client)) :=
      List.perm_append_comm.append_left _
    change (H.members ++ [element b]).Perm _
    simpa using hp.trans hc
  rooted := hr
  live_held c hc := by
    rcases List.mem_append.mp hc with hc | hc
    · exact h.live_held c hc
    · exact List.mem_singleton.mp hc ▸ hb
  live_nodup := by
    simpa [List.nodup_append] using ⟨h.live_nodup, fun c hm he => hnot (he ▸ hm)⟩
  held_nodup := h.held_nodup
  browsers := h.browsers
  handler := h.handler
  global := h.global

lemma erase (h : Tracked H live held created roots) (hb : b ∈ live) :
    Tracked (References.release (H.detach .handler (.browser b)) (.browser b))
      (live.filter (· ≠ b)) held created roots := by
  have hm : element b ∈ H.members := h.mem_members.mpr (Or.inl ⟨b, hb, rfl⟩)
  refine Tracked.release ?_ h.rooted
  refine ⟨h.balanced.detach hm, ?_, fun c hc => List.mem_cons_of_mem _ (h.rooted c hc),
    fun c hc => h.live_held c (List.mem_of_mem_filter hc), h.live_nodup.filter _, h.held_nodup,
    h.browsers, h.handler, h.global⟩
  have hp := h.members.erase (element b)
  have hinj : Function.Injective (element (β := β)) := fun c d he => by simpa [element] using he
  rw [List.erase_append_left _ (List.mem_map_of_mem hb), ← List.map_erase hinj,
    ← filter_ne h.live_nodup] at hp
  exact hp

end Tracked

variable {H : Memory β} {live held created : List β} {roots : List (Object β)} {k : ℕ}
  {x : Object β}

lemma release_handler (h : Tracked H live held created (refs (k + 1) held)) :
    Tracked (release H .handler) live held created (refs k held) :=
  Tracked.release h fun _ hb => browser_mem_refs.mpr hb

lemma release_handlers {m : ℕ} (h : Tracked H live held created (refs (k + m) held)) :
    Tracked ((release · .handler)^[m] H) live held created (refs k held) := by
  induction m generalizing H with
  | zero => exact h
  | succ m ih => exact ih (release_handler h)

lemma passing_tracked (call : Memory β → Memory β) {live' : List β}
    (h : Tracked (call (H.addRef x)) live' held created (x :: refs k held)) :
    Tracked (passing x call H) live' held created (refs k held) :=
  Tracked.release h fun _ hb => browser_mem_refs.mpr hb

lemma onContextInitialized_tracked (r : Results) :
    Tracked (onContextInitialized r (.empty none : Memory β)) [] [] []
      (refs (r.founders + 1) []) := by
  have hn : newHandler (.empty none : Memory β) =
      (Heap.empty none).create .handler (some .handler) := by
    simp [newHandler, getInstance, Heap.empty]
  have hb : ((Heap.empty none : Memory β).create .handler (some .handler)).Balanced [.handler] :=
    (Heap.empty_balanced none).create (by simp [Heap.empty]) _
  have ht : Tracked (newHandler (.empty none : Memory β)) [] [] [] (refs 1 []) := by
    rw [hn]
    refine ⟨hb, List.Perm.nil, by simp, by simp, List.nodup_nil, List.nodup_nil, ?_, ?_, ?_⟩
    · simp [Heap.create, Heap.construct, Heap.addRef, Heap.empty]
    · simp [Heap.create, Heap.construct, Heap.addRef]
    · rw [if_pos (hb.present_root (List.mem_singleton_self _))]
      rfl
  have hp : (newHandler (.empty none : Memory β)).Present .handler :=
    ht.balanced.present_root (List.mem_singleton_self _)
  have hx : Tracked _ [] [] [] (refs 2 []) := ht.addRef hp
  rw [onContextInitialized, createBrowser, Results.founders]
  cases r.createBrowser firstBrowser with
  | true => exact passing_tracked _ (hx.addRef hp)
  | false => exact passing_tracked _ hx

lemma created_tracked {p : BrowserPtr β} (h : Tracked H live held created (refs (k + 1) held))
    (hp : p.browser ∉ created) :
    Tracked (onAfterCreated p (newBrowser H p.browser)) (live ++ [p.browser])
      (held ++ [p.browser]) (created ++ [p.browser]) (refs k (held ++ [p.browser])) := by
  have hb : p.browser ∈ held ++ [p.browser] := List.mem_append_right _ (List.mem_singleton_self _)
  have hnot : p.browser ∉ live := fun hl =>
    hp ((h.browsers _).mp (h.browser_present (h.live_held _ hl)).1)
  have hn := (Tracked.newBrowser (refs_succ k held ▸ h) hp).perm (refs_snoc k held p.browser)
  have hx := hn.addRef (hn.browser_present hb)
  refine passing_tracked _ ((hx.addRef (hx.browser_present hb)).push hb hnot fun c hc => ?_)
  exact List.mem_cons_of_mem _ (browser_mem_refs.mpr hc)

lemma doClose_tracked {p : BrowserPtr β} (h : Tracked H live held created (refs k held))
    (hp : p.browser ∈ live) :
    Tracked (doClose p H) live held created (refs k held) :=
  passing_tracked _ (h.addRef (h.browser_present (h.live_held _ hp)))

lemma beforeClose_tracked {s : SimpleHandler β} {p : BrowserPtr β}
    (h : Tracked H live held created (refs k held)) (hs : s.browserList.map (·.browser) = live)
    (hp : p.browser ∈ live) :
    Tracked (onBeforeClose s p H) (live.filter (· ≠ p.browser)) held created
      (refs k held) := by
  apply passing_tracked _
  have hx := h.addRef (h.browser_present (h.live_held _ hp))
  cases hf : s.browserList.find? (·.isSame p) with
  | none =>
    obtain ⟨q, hq, he⟩ := List.mem_map.mp (hs ▸ hp)
    exact absurd ((q.isSame_iff p).mpr he) (List.find?_eq_none.mp hf q hq)
  | some bit =>
    have hb : bit.isSame p = true := by simpa using List.find?_some hf
    have he := (bit.isSame_iff p).mp hb
    simp only [he]
    exact hx.erase hp

lemma beforePopup_tracked (s : SimpleHandler β) {q : PopupRequest β}
    (h : Tracked H live held created (refs k held)) (hq : q.browser.browser ∈ live) :
    Tracked (onBeforePopup s q H) live held created
      (refs (k + if q.targetUrl.isEmpty then 1 else 0) held) := by
  have hb := h.live_held _ hq
  have hx : Tracked _ live held created (refs (k + 1) held) := h.addRef (h.handler_present hb)
  have hp := passing_tracked id (hx.addRef (hx.browser_present hb))
  rw [onBeforePopup]
  simp only [SimpleHandler.onBeforePopup_cancel, SimpleHandler.onBeforePopup_client]
  cases q.targetUrl.isEmpty with
  | true => exact hp
  | false => exact release_handler hp

lemma members_count (h : Tracked H live held created roots) (x : Object β) :
    (H.members.map Prod.snd).count x =
      (live.map Object.browser).count x + (held.map fun _ => Object.handler).count x := by
  rw [(h.members.map Prod.snd).count_eq, List.map_append, List.count_append, List.map_map, List.map_map]
  rfl

lemma handler_count (h : Tracked H live held created (refs k held)) :
    H.refCount .handler = k + held.length := by
  have hl : (live.map Object.browser).count (.handler : Object β) = 0 :=
    List.count_eq_zero.mpr (by simp)
  have hh : (held.map Object.browser).count (.handler : Object β) = 0 :=
    List.count_eq_zero.mpr (by simp)
  rw [h.balanced.counted, members_count h, refs, List.count_append, hl, hh]
  simp [List.map_const']

lemma browser_count (h : Tracked H live held created (refs k held)) (b : β) :
    H.refCount (.browser b) = held.count b + live.count b := by
  have hinj : Function.Injective (Object.browser (β := β)) := fun _ _ => Object.browser.inj
  have hr : (List.replicate k Object.handler).count (Object.browser b) = 0 :=
    List.count_eq_zero.mpr (by simp)
  have hc : (held.map fun _ => Object.handler).count (Object.browser b) = 0 :=
    List.count_eq_zero.mpr (by simp)
  rw [h.balanced.counted, members_count h, refs, List.count_append, hr, hc,
    List.count_map_of_injective _ _ hinj, List.count_map_of_injective _ _ hinj]
  simp

lemma browser_present_iff (h : Tracked H live held created (refs k held)) (b : β) :
    H.Present (.browser b) ↔ b ∈ held := by
  rw [h.balanced.present_iff_pos, browser_count h, ← List.count_pos_iff]
  have hl : 0 < live.count b → 0 < held.count b := fun hp =>
    List.count_pos_iff.mpr (h.live_held b (List.count_pos_iff.mp hp))
  omega

lemma handler_present_iff (h : Tracked H live held created (refs k held)) :
    H.Present .handler ↔ k ≠ 0 ∨ held ≠ [] := by
  rw [h.balanced.present_iff_pos, handler_count h, ← List.length_pos_iff]
  omega

end QyCefVS.References
