import QyCefVS.ReferenceCycle
import QyCefVS.ScopedRefptr

/-! The counts of the application are those of a program of `scoped_refptr`s: the handle of
`OnContextInitialized`, one for each creation in flight and each browser that libcef holds, and
the parameters for the time of a call. -/

namespace QyCefVS.PointerProgram

open Handler LifeSpan Application Ownership References ReferenceCycle ScopedRefptr Transitions

section Calculus

variable {ν ι α : Type}

/-- A member of the application is named after the object that it points to. -/
def asMember (m : ι × ι) : (ι × ι) × Option ι := (m, some m.2)

structure At (s : Store ν ι ι α) (H : Heap ι α) (l : List (ν × Option ι)) : Prop where
  heap : s.heap = H
  slots : s.locals.slots.Perm l
  members : s.members.slots = H.members.map asMember

variable {c d : ι → α → α} {s : Store ν ι ι α} {H K : Heap ι α} {l l' m : List (ν × Option ι)}
  {v : ν} {x o : ι} {p : Option ι}

namespace At

lemma names_eq (h : At s H l) : s.members.names = H.members := by
  rw [Pointers.names, h.members, List.map_map]
  exact List.map_id _

lemma notMem (h : At s H l) (hv : v ∉ l.map Prod.fst) : v ∉ s.locals.names :=
  fun hm => hv ((h.slots.map Prod.fst).mem_iff.mp hm)

lemma setMembers (h : At s H l) {F : Pointers (ι × ι) ι} {ms : List (ι × ι)}
    (hF : F.slots = ms.map asMember) : At (s.setMembers F) { H with members := ms } l := by
  have he : F.edges = ms := by
    rw [Pointers.edges, hF, List.filterMap_map]
    exact List.filterMap_some
  have hs : (s.setMembers F).heap = { s.heap with members := F.edges } := rfl
  refine ⟨?_, h.slots, hF⟩
  rw [hs, he, h.heap]

lemma nodup (h : At s H l) : H.members.Nodup := h.names_eq ▸ s.members.nodup

variable [DecidableEq ι]

lemma release (h : At s H l) : At (s.release d (some x)) (H.release d x) l := by
  obtain ⟨rfl, hl, hm⟩ := h
  refine ⟨rfl, hl, ?_⟩
  have hs : (s.release d (some x)).members.slots =
      s.members.slots.filter fun t => t.1.1 ∉ s.heap.gone (s.heap.release d x) := rfl
  rw [hs, hm, Heap.release_members, List.filter_map]
  rfl

variable [DecidableEq ν]

lemma declareLocal (h : At s H l) (hv : v ∉ s.locals.names) :
    At (s.declareAt p (.named v)) H ((v, p) :: l) := by
  refine ⟨h.heap, ?_, h.members⟩
  have hs : (s.declareAt p (.named v)).locals.slots = s.locals.slots ++ [(v, p)] :=
    Pointers.slots_declare hv
  rw [hs]
  exact (List.perm_append_singleton _ _).trans (h.slots.cons _)

lemma declareMember (h : At s H l) (hm : (o, x) ∉ H.members) :
    At (s.declareAt (some x) (.member o x)) (H.adopt o x) l := by
  apply h.setMembers
  rw [Pointers.slots_declare (h.names_eq ▸ hm), h.members, List.map_append]
  rfl

lemma removeMember (h : At s H l) : At (s.remove (.member o x)) (H.detach o x) l := by
  apply h.setMembers
  have hk : (s.members.drop (o, x)).slots = s.members.slots.filter (·.1 ≠ (o, x)) := rfl
  rw [hk, h.members, List.filter_map, h.nodup.erase_eq_filter]
  apply congrArg
  apply List.filter_congr
  intro m _
  by_cases hm : m = (o, x) <;> simp [asMember, hm]

end At

variable [DecidableEq ν] [DecidableEq ι]

def Leads (c d : ι → α → α) (H : Heap ι α) (l : List (ν × Option ι)) (K : Heap ι α)
    (m : List (ν × Option ι)) : Prop :=
  ∀ (g : α) (s : Store ν ι ι α), At s H l → ∃ fs t, (program c d g).exec s fs = some t ∧ At t K m

namespace Leads

lemma refl : Leads c d H l H l := fun _ s hs => ⟨[], s, rfl, hs⟩

lemma trans {K' : Heap ι α} (h : Leads c d H l K m) (h' : Leads c d K m K' l') :
    Leads c d H l K' l' := by
  intro g s hs
  obtain ⟨fs, t, hx, ht⟩ := h g s hs
  obtain ⟨fs', u, hx', hu⟩ := h' g t ht
  refine ⟨fs ++ fs', u, ?_, hu⟩
  rw [Machine.exec_append, hx]
  exact hx'

lemma perm (h : l.Perm m) : Leads c d H l H m :=
  fun _ s hs => ⟨[], s, rfl, hs.heap, hs.slots.trans h, hs.members⟩

lemma of_step (e : Statement ν ι ι)
    (h : ∀ s : Store ν ι ι α, At s H l → ∃ t, s.step c d e = some t ∧ At t K m) :
    Leads c d H l K m := by
  intro g s hs
  obtain ⟨t, he, ht⟩ := h s hs
  refine ⟨[e], t, ?_, ht⟩
  rw [Machine.exec_cons, show (program c d g).step s e = some t from he]
  rfl

lemma copy (hv : v ∉ l.map Prod.fst) (hx : H.Present x) :
    Leads c d H l (H.addRef x) ((v, some x) :: l) := by
  apply of_step (.declare (.named v) (.raw x))
  intro s hs
  have hn := hs.notMem hv
  obtain ⟨rfl, hl, hm⟩ := hs
  have ha : At (s.addRef (some x)) (s.heap.addRef x) l := ⟨rfl, hl, hm⟩
  exact ⟨_, if_pos ⟨hn, hx⟩, ha.declareLocal hn⟩

lemma new (hv : v ∉ l.map Prod.fst) (hx : x ∉ H.allocated) :
    Leads c d H l (H.create x (c x H.globals)) ((v, some x) :: l) := by
  apply of_step (.declare (.named v) (.new x))
  intro s hs
  have hn := hs.notMem hv
  obtain ⟨rfl, hl, hm⟩ := hs
  have ha : At (s.construct c (.new x)) (s.heap.create x (c x s.heap.globals)) l := ⟨rfl, hl, hm⟩
  exact ⟨_, if_pos ⟨hn, hx⟩, ha.declareLocal hn⟩

lemma destroy : Leads c d H ((v, some x) :: l) (H.release d x) l := by
  apply of_step (.destroy (.named v))
  intro s hs
  have hm : (v, some x) ∈ s.locals.slots := hs.slots.mem_iff.mpr List.mem_cons_self
  have hp : s.ptr (.named v) = some x := Pointers.ptr_of_mem hm
  have hr : At (s.remove (.named v)) H l := ⟨hs.heap, Pointers.drop_perm hs.slots, hs.members⟩
  refine ⟨_, if_pos (List.mem_map_of_mem hm), ?_⟩
  rw [Store.destroy, hp]
  exact hr.release

lemma insert (ho : H.Present o) (hx : H.Present x) (hm : (o, x) ∉ H.members) :
    Leads c d H l ((H.addRef x).adopt o x) l := by
  apply of_step (.declare (.member o x) (.raw x))
  intro s hs
  have hn : (o, x) ∉ s.members.names := hs.names_eq ▸ hm
  obtain ⟨rfl, hl, hms⟩ := hs
  have ha : At (s.addRef (some x)) (s.heap.addRef x) l := ⟨rfl, hl, hms⟩
  exact ⟨_, if_pos ⟨⟨ho, hn⟩, hx⟩, ha.declareMember hm⟩

/-- A member takes over a reference: it is copied, then the copied pointer goes. -/
lemma take (ho : H.Present o) (hm : (o, x) ∉ H.members) (hx : H.Present x)
    (hc : H.refCount x ≠ 0) : Leads c d H ((v, some x) :: l) (H.adopt o x) l := by
  have hr : ((H.addRef x).adopt o x).release d x = H.adopt o x :=
    Heap.release_addRef (H := H.adopt o x) d hx hc
  have h : Leads c d H ((v, some x) :: l) (((H.addRef x).adopt o x).release d x) l :=
    (insert ho hx hm).trans destroy
  rwa [hr] at h

lemma erase (hm : (o, x) ∈ H.members) :
    Leads c d H l ((H.detach o x).release d x) l := by
  apply of_step (.destroy (.member o x))
  intro s hs
  have hn : (o, x) ∈ s.members.names := hs.names_eq ▸ hm
  have hp : s.ptr (.member o x) = some x := by
    apply Pointers.ptr_of_mem
    rw [hs.members]
    exact List.mem_map_of_mem (f := asMember) hm
  refine ⟨_, if_pos hn, ?_⟩
  rw [Store.destroy, hp]
  exact hs.removeMember.release

end Leads

end Calculus

inductive Name (β : Type)
  | handler
  | creation (i : ℕ)
  | browser (b : β)
  | parameter
  deriving DecidableEq

abbrev Slot (β : Type) := Name β × Option (Object β)

variable {β : Type}

def constructor : Object β → Option (Object β) → Option (Object β)
  | .handler, _ => some .handler
  | .browser _, g => g

def handle : Slot β := (.handler, some .handler)

def creation (i : ℕ) : Slot β := (.creation i, some .handler)

def held (b : β) : Slot β := (.browser b, some (.browser b))

def parameter (x : Object β) : Slot β := (.parameter, some x)

def slots (inScope : Bool) (is : List ℕ) (bs : List β) : List (Slot β) :=
  (if inScope then [handle] else []) ++ (is.map creation ++ bs.map held)

lemma parameter_notMem (inScope : Bool) (is : List ℕ) (bs : List β) :
    .parameter ∉ (slots inScope is bs).map Prod.fst := by
  cases inScope <;> simp [slots, handle, creation, held]

lemma exists_creation (inScope : Bool) (is : List ℕ) (bs : List β) :
    ∃ i, .creation i ∉ (slots inScope is bs).map Prod.fst := by
  obtain ⟨i, hi⟩ := Infinite.exists_notMem_finset is.toFinset
  refine ⟨i, ?_⟩
  cases inScope <;> simpa [slots, handle, creation, held] using hi

lemma slots_creation (inScope : Bool) (i : ℕ) (is : List ℕ) (bs : List β) :
    (slots inScope (i :: is) bs).Perm (creation i :: slots inScope is bs) := by
  rw [slots, slots, List.map_cons, List.cons_append]
  exact List.perm_middle

lemma slots_held (inScope : Bool) (is : List ℕ) {b : β} {bs bs' : List β} (h : bs.Perm (b :: bs')) :
    (slots inScope is bs).Perm (held b :: slots inScope is bs') := by
  have hb := ((h.map held).append_left (is.map creation)).trans List.perm_middle
  exact (hb.append_left _).trans List.perm_middle

variable [DecidableEq β]

abbrev Performs (H : Memory β) (l : List (Slot β)) (K : Memory β) (m : List (Slot β)) : Prop :=
  Leads constructor destructor H l K m

variable {H K : Memory β} {l m : List (Slot β)} {x : Object β} {b : β}

lemma passing_performs (call : Memory β → Memory β) (hx : H.Present x)
    (hl : .parameter ∉ l.map Prod.fst)
    (h : Performs (H.addRef x) (parameter x :: l) (call (H.addRef x)) (parameter x :: m)) :
    Performs H l (passing x call H) m :=
  ((Leads.copy hl hx).trans h).trans Leads.destroy

lemma call_performs (call : Memory β → Memory β) {inScope : Bool} {is : List ℕ} {bs : List β}
    (hx : H.Present x)
    (h : ∀ l, Performs (H.addRef x) l (call (H.addRef x)) l) :
    Performs H (slots inScope is bs) (passing x call H) (slots inScope is bs) :=
  passing_performs call hx (parameter_notMem inScope is bs) (h _)

lemma release_creation {inScope : Bool} {i : ℕ} {is : List ℕ} {bs : List β} :
    Performs H (slots inScope (i :: is) bs) (References.release H .handler) (slots inScope is bs) :=
  (Leads.perm (slots_creation inScope i is bs)).trans Leads.destroy

lemma release_creations {inScope : Bool} {k : ℕ} {is : List ℕ} {bs : List β} (h : k ≤ is.length) :
    Performs H (slots inScope is bs) ((References.release · .handler)^[k] H)
      (slots inScope (is.drop k) bs) := by
  induction k generalizing H is with
  | zero => exact Leads.refl
  | succ k ih =>
    cases is with
    | nil => simp at h
    | cons i is => exact release_creation.trans (ih (Nat.le_of_succ_le_succ h))

lemma newBrowser_performs {inScope : Bool} {i : ℕ} {is : List ℕ} {bs : List β}
    {roots : List (Object β)} (h : H.Balanced (.handler :: roots))
    (hb : .browser b ∉ H.allocated) (hbs : b ∉ bs) :
    Performs H (slots inScope (i :: is) bs) (newBrowser H b) (slots inScope is (bs ++ [b])) := by
  have hn : .browser b ∉ (slots inScope (i :: is) bs).map Prod.fst := by
    cases inScope <;> simpa [slots, handle, creation, held] using hbs
  have hk := h.create hb (getInstance H)
  have hp := hk.present_root List.mem_cons_self
  have hh := hk.present_root (List.mem_cons_of_mem _ List.mem_cons_self)
  have hm : (.browser b, .handler) ∉ H.members := fun hm => hb (h.owned _ hm).1
  have hperm : (held b :: slots inScope (i :: is) bs).Perm
      (creation i :: held b :: slots inScope is bs) :=
    ((slots_creation inScope i is bs).cons _).trans (.swap _ _ _)
  have hend : (held b :: slots inScope is bs).Perm (slots inScope is (bs ++ [b])) :=
    (slots_held inScope is (List.perm_append_singleton b bs)).symm
  exact (Leads.new hn hb).trans ((Leads.perm hperm).trans
    ((Leads.take hp hm hh (hk.present_iff_pos.mp hh).ne').trans (Leads.perm hend)))

lemma onAfterCreated_performs {p : BrowserPtr β} {inScope : Bool} {is : List ℕ} {bs : List β}
    (hh : H.Present .handler) (hx : H.Present (.browser p.browser))
    (hm : element p.browser ∉ H.members) :
    Performs H (slots inScope is bs) (References.onAfterCreated p H) (slots inScope is bs) := by
  rw [References.onAfterCreated]
  apply call_performs _ hx
  intro l
  exact Leads.insert (H := H.addRef (.browser p.browser)) hh hx hm

lemma exists_cons {is : List ℕ} {l : List (Option β)} {o : Option β} (ho : o ∈ l)
    (h : is.length = l.length) : ∃ i js, is = i :: js ∧ js.length = (l.erase o).length := by
  have hl := List.length_erase_of_mem ho
  have hpos := List.length_pos_of_mem ho
  cases is with
  | nil => simp only [List.length_nil] at h; omega
  | cons i js => exact ⟨i, js, rfl, by rw [List.length_cons] at h; omega⟩

lemma deliver_performs {s t : Session β} {e : Event β} {k : ℕ}
    {inScope : Bool} {is : List ℕ} {bs : List β} (he : s.step .cancelled e = some t)
    (h : Tracked H s.ledger.live bs (s.ledger.created.map (·.browser))
      (refs (k + s.ledger.pending.length) bs))
    (hi : is.length = s.ledger.pending.length) :
    ∃ js, js.length = t.ledger.pending.length ∧
      Performs H (slots inScope is bs) (deliver s H e) (slots inScope js (bs ++ newlyHeld e)) := by
  obtain ⟨hp, rfl⟩ := Session.step_eq_some.mp he
  cases e with
  | created origin p =>
    obtain ⟨i, js, rfl, hj⟩ := exists_cons hp.1 hi
    refine ⟨js, hj, ?_⟩
    have ha : .browser p.browser ∉ H.allocated := fun ha => hp.2 ((h.browsers _).mp ha)
    have hbs : p.browser ∉ bs := fun hb => ha (h.browser_present hb).1
    rw [← List.length_erase_add_one hp.1, ← Nat.add_assoc] at h
    have hn := Tracked.newBrowser (refs_succ _ bs ▸ h) hp.2
    have hb : p.browser ∈ bs ++ [p.browser] := by simp
    have hx : (newBrowser H p.browser).Present (.browser p.browser) :=
      hn.balanced.present_root List.mem_cons_self
    have hh : (newBrowser H p.browser).Present .handler :=
      hn.balanced.present_member (hn.mem_members.mpr (Or.inr ⟨_, hb, rfl⟩))
    have hm : element p.browser ∉ (newBrowser H p.browser).members := by
      intro hm
      rcases hn.mem_members.mp hm with ⟨b, hb, he⟩ | ⟨b, -, he⟩
      · exact hbs (Object.browser.inj (congrArg Prod.snd he) ▸ h.live_held b hb)
      · cases congrArg Prod.fst he
    have hroots := (refs_succ _ bs ▸ h).balanced
    exact (newBrowser_performs hroots ha hbs).trans (onAfterCreated_performs hh hx hm)
  | cancelled opener =>
    obtain ⟨i, js, rfl, hj⟩ := exists_cons hp hi
    refine ⟨js, hj, ?_⟩
    rw [newlyHeld, List.append_nil]
    exact release_creation
  | doClose p =>
    refine ⟨is, hi, ?_⟩
    rw [newlyHeld, List.append_nil]
    exact call_performs id (h.browser_present (h.live_held _ hp)) fun l => Leads.refl
  | beforeClose p =>
    have hx := h.browser_present (h.live_held _ hp)
    have hc := length_close s.ledger p.browser
    refine ⟨is.drop (s.ledger.pending.countP (· = some p.browser)), ?_, ?_⟩
    · rw [List.length_drop, hi]
      exact Nat.sub_eq_of_eq_add hc.symm
    · rw [newlyHeld, List.append_nil]
      apply Leads.trans _ (release_creations (by omega))
      apply call_performs _ hx
      intro l
      cases hf : s.handler.browserList.find? (·.isSame p) with
      | none => exact Leads.refl
      | some bit =>
        have he : bit.browser = p.browser :=
          (bit.isSame_iff p).mp (by simpa using List.find?_some hf)
        have hm : element bit.browser ∈ H.members :=
          h.mem_members.mpr (Or.inl ⟨bit.browser, he ▸ hp, rfl⟩)
        exact Leads.erase hm
  | beforePopup q =>
    have hh := h.handler_present (h.live_held _ hp)
    have hx := h.browser_present (h.live_held _ hp)
    obtain ⟨i, hn⟩ := exists_creation inScope is bs
    have hc : Performs H (slots inScope is bs) (H.addRef .handler) (slots inScope (i :: is) bs) :=
      (Leads.copy hn hh).trans (Leads.perm (slots_creation inScope i is bs).symm)
    have hpass := hc.trans (call_performs id hx fun l => Leads.refl)
    rw [newlyHeld, List.append_nil, Session.deliver_beforePopup]
    change ∃ js, _ ∧ Performs H _ (onBeforePopup s.handler q H) _
    simp only [onBeforePopup, SimpleHandler.onBeforePopup_cancel,
      SimpleHandler.onBeforePopup_client]
    cases q.targetUrl.isEmpty with
    | true => exact ⟨i :: is, by simp [hi], hpass⟩
    | false => exact ⟨is, by simp [hi], hpass.trans release_creation⟩

variable {r : Results} {es : List (CountedEvent β)} {y : Counted β}

lemma onContextInitialized_performs (r : Results) :
    ∃ js, js.length = r.founders ∧
      Performs (.empty none : Memory β) [] (References.onContextInitialized r (.empty none))
        (slots true js []) := by
  have hn : newHandler (.empty none : Memory β) =
      (Heap.empty none).create .handler (some .handler) := by
    simp [newHandler, getInstance, Heap.empty]
  have hnew :
      Performs (.empty none : Memory β) [] (newHandler (.empty none)) (slots true [] []) := by
    rw [hn]
    exact Leads.new List.not_mem_nil List.not_mem_nil
  have hp : (newHandler (.empty none : Memory β)).Present .handler := by
    rw [hn]
    exact ⟨List.mem_cons_self, List.not_mem_nil⟩
  rw [References.onContextInitialized, createBrowser, Results.founders]
  cases r.createBrowser firstBrowser with
  | false => exact ⟨[], rfl, hnew.trans (call_performs _ hp fun l => Leads.refl)⟩
  | true =>
    refine ⟨[0], rfl, hnew.trans (passing_performs _ hp (parameter_notMem true [] []) ?_)⟩
    have hc : Performs ((newHandler (.empty none : Memory β)).addRef .handler)
        (parameter .handler :: slots true [] []) _
        (creation 0 :: parameter .handler :: slots true [] []) :=
      Leads.copy (by simp [parameter, slots, handle]) hp
    have hperm : (creation 0 :: parameter .handler :: slots true [] ([] : List β)).Perm
        (parameter .handler :: slots true [0] []) := (List.Perm.swap _ _ _).trans
          ((slots_creation true 0 [] []).symm.cons _)
    exact hc.trans (Leads.perm hperm)

def Mirrored (x : Counted β) : Prop :=
  ∃ is, is.length = x.process.pending.length ∧
    Performs (.empty none) [] x.memory (slots x.inScope is x.held)

lemma step_mirrored {x : Counted β} {e : CountedEvent β} (hr : (counted r).Runs es x)
    (hm : Mirrored x) (he : (counted r).step x e = some y) : Mirrored y := by
  have ha := counted_accounted hr
  obtain ⟨is, hi, hx⟩ := hm
  cases e with
  | process e =>
    obtain ⟨p, hp, rfl⟩ := Option.map_eq_some_iff.mp he
    have hp : (process .cancelled r).step x.process e = some p := hp
    cases e with
    | main =>
      refine ⟨is, ?_, hx⟩
      simpa only [Counted.react, Process.pending, (step_main hp).1] using hi
    | contextInitialized =>
      obtain ⟨_, hn, _, rfl⟩ := step_contextInitialized hp
      rw [Counted.Accounted, hn] at ha
      obtain ⟨hmem, _, hh⟩ := ha
      obtain ⟨js, hj, hjs⟩ := onContextInitialized_performs (β := β) r
      refine ⟨js, ?_, ?_⟩
      · exact hj.trans (List.length_replicate).symm
      · simpa only [Counted.react, hmem, hh] using hjs
    | lifeSpan e =>
      obtain ⟨_, s, t, hs, ht, rfl⟩ := step_lifeSpan hp
      have hpend : x.process.pending = s.ledger.pending := by simp [Process.pending, hs]
      obtain ⟨js, hj, hjs⟩ := deliver_performs ht (ha.tracked hs) (hpend ▸ hi)
      refine ⟨js, hj, ?_⟩
      simp only [Counted.react, hs, Option.elim_some]
      exact hx.trans hjs
  | contextReturned =>
    obtain ⟨hscope, hy⟩ := Option.ite_none_right_eq_some.mp he
    obtain rfl := Option.some.inj hy
    refine ⟨is, hi, ?_⟩
    rw [hscope] at hx
    exact hx.trans Leads.destroy
  | released b =>
    obtain ⟨⟨hb, _⟩, hy⟩ := Option.ite_none_right_eq_some.mp he
    obtain rfl := Option.some.inj hy
    refine ⟨is, hi, ?_⟩
    have hp := slots_held x.inScope is (List.perm_cons_erase hb)
    exact (hx.trans (Leads.perm hp)).trans Leads.destroy

theorem counted_program (r : Results) (es : List (CountedEvent β)) (x : Counted β)
    (h : (counted r).Runs es x) :
    ∃ fs, ∃ s : Store (Name β) (Object β) (Object β) (Option (Object β)),
      (program constructor destructor none).Runs fs s ∧ s.heap = x.memory ∧
      ∃ is : List ℕ, is.length = x.process.pending.length ∧
        s.locals.slots.Perm (slots x.inScope is x.held) := by
  have hm : Mirrored x := by
    apply h.induct (P := fun _ x => Mirrored x)
    · exact ⟨[], rfl, Leads.refl⟩
    · exact fun _ _ _ _ hr hm he => step_mirrored hr hm he
  obtain ⟨is, hi, hx⟩ := hm
  obtain ⟨fs, s, hs, hat⟩ := hx none ⟨.empty none, .none, .none, rfl⟩ ⟨rfl, .nil, rfl⟩
  exact ⟨fs, s, hs, hat.heap, is, hi, hat.slots⟩

theorem letGo_program : ∃ fs, ∃ s : Store (Name ℕ) (Object ℕ) (Object ℕ) (Option (Object ℕ)),
    (program constructor destructor none).Runs fs s ∧ .handler ∈ s.heap.deleted ∧
      s.locals.slots = [] := by
  have h : (counted working).Runs letGo _ := rfl
  obtain ⟨fs, s, hr, hheap, is, hi, hs⟩ := counted_program working letGo _ h
  obtain rfl := List.length_eq_zero_iff.mp hi
  exact ⟨fs, s, hr, hheap ▸ (by decide), hs.eq_nil⟩

end QyCefVS.PointerProgram
