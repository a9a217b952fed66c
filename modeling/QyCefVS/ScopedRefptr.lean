import QyCefVS.Library.Garbage
import QyCefVS.Library.Pointers
import QyCefVS.Library.Transitions

/-! `scoped_refptr` of `cef_ref_counted.h`, which every `CefRefPtr` is. A program declares, copies,
assigns, swaps and destroys such pointers, the local ones and the members of objects. An object's
members are declared after it, null or copied, and those it still has go with it. -/

namespace QyCefVS.ScopedRefptr

open Ownership Transitions

/-- A member is a `Pointers` slot named by its owner and its field, declared with the owner's class
or, as the element of a list, when it is inserted. The heap sees the members that are not null. -/
@[ext] structure Store (ν φ ι α : Type) where
  heap : Heap ι α
  locals : Pointers ν ι
  members : Pointers (ι × φ) ι
  mirrored : heap.members = members.edges

inductive Place (ν φ ι : Type)
  | named (v : ν)
  | member (o : ι) (f : φ)

/-- `raw` is any `T*` to an object that exists. -/
inductive Source (ν φ ι : Type)
  | null
  | new (x : ι)
  | get (place : Place ν φ ι)
  | raw (x : ι)

inductive Statement (ν φ ι : Type)
  | declare (place : Place ν φ ι) (src : Source ν φ ι)
  | assign (place : Place ν φ ι) (src : Source ν φ ι)
  | swap (place place' : Place ν φ ι)
  | destroy (place : Place ν φ ι)

section

variable {ν φ ι α : Type} [DecidableEq ι]

namespace Store

variable (s : Store ν φ ι α)

def held : List ι := s.locals.roots ++ s.members.roots

def setMembers (F : Pointers (ι × φ) ι) : Store ν φ ι α :=
  ⟨{ s.heap with members := F.edges }, s.locals, F, rfl⟩

def addRef : Option ι → Store ν φ ι α
  | none => s
  | some x => { s with heap := s.heap.addRef x, mirrored := s.mirrored }

def release (d : ι → α → α) : Option ι → Store ν φ ι α
  | none => s
  | some x =>
    { heap := s.heap.release d x
      locals := s.locals
      members := s.members.keep fun k => k.1 ∉ s.heap.gone (s.heap.release d x)
      mirrored := by
        rw [Pointers.edges_keep s.members fun o => decide (o ∉ s.heap.gone (s.heap.release d x)),
          ← s.mirrored, Heap.release_members] }

end Store

variable {s t : Store ν φ ι α} {R S : List ι} {p : Option ι} {d : ι → α → α}

@[simp] lemma addRef_locals : (s.addRef p).locals = s.locals := by cases p <;> rfl

@[simp] lemma addRef_members : (s.addRef p).members = s.members := by cases p <;> rfl

def Rearranged (s t : Store ν φ ι α) : Prop := t.heap = { s.heap with members := t.heap.members }

/-- `R` are the references that a statement has taken and not yet put in their place. -/
structure Store.Holds (s : Store ν φ ι α) (R : List ι) : Prop where
  balanced : s.heap.Balanced (R ++ s.locals.roots)
  owners : ∀ k ∈ s.members.names, s.heap.Present k.1

namespace Store.Holds

lemma rearrange (h : s.Holds R) (ht : Rearranged s t) (hp : (S ++ t.held).Perm (R ++ s.held))
    (ho : ∀ k ∈ t.members.names, s.heap.Present k.1) : t.Holds S := by
  have hm : ∀ m ∈ t.heap.members, s.heap.Present m.1 := by
    intro m hm
    obtain ⟨k, hk, he⟩ := Pointers.owner_of_edge (t.mirrored ▸ hm)
    exact he ▸ ho k hk
  have hr : ((S ++ t.locals.roots) ++ t.heap.members.map Prod.snd).Perm
      ((R ++ s.locals.roots) ++ s.heap.members.map Prod.snd) := by
    rw [t.mirrored, s.mirrored, Pointers.edges_snd, Pointers.edges_snd, List.append_assoc,
      List.append_assoc]
    exact hp
  have hb := h.balanced.rewire hr hm
  rw [← ht] at hb
  refine ⟨hb, fun k hk => ?_⟩
  rw [ht]
  exact ho k hk

lemma release (h : s.Holds (p.toList ++ R)) : (s.release d p).Holds R := by
  cases p with
  | none => exact h
  | some x =>
    have hb : s.heap.Balanced (x :: (R ++ s.locals.roots)) := h.balanced
    refine ⟨hb.release, fun k hk => ?_⟩
    obtain ⟨hk, hg⟩ := Pointers.mem_keep.mp hk
    obtain ⟨l, hl⟩ := Heap.release_lost d s.heap x
    rw [hl.gone_eq] at hg
    exact hl.present_iff.mpr ⟨h.owners k hk, by simpa using hg⟩

lemma addRef (h : s.Holds R) (hp : ∀ x ∈ p, s.heap.Present x) :
    (s.addRef p).Holds (p.toList ++ R) := by
  cases p with
  | none => exact h
  | some x => exact ⟨h.balanced.addRef (hp x rfl), h.owners⟩

lemma release_addRef {x : ι} (h : s.Holds R) (hx : s.heap.Present x) :
    (s.addRef (some x)).release d (some x) = s := by
  have hc := (Heap.Balanced.present_iff_pos h.balanced).mp hx
  have hh : (s.heap.addRef x).release d x = s.heap := Heap.release_addRef d hx hc.ne'
  have hg : (s.heap.addRef x).gone ((s.heap.addRef x).release d x) = [] := by
    rw [hh, Heap.gone]
    exact List.drop_length
  have hk : (s.members.keep fun k =>
      k.1 ∉ (s.heap.addRef x).gone ((s.heap.addRef x).release d x)) = s.members :=
    Pointers.keep_all fun k => decide_eq_true (hg ▸ List.not_mem_nil)
  exact Store.ext hh rfl hk

end Store.Holds

variable [DecidableEq ν] [DecidableEq φ]

namespace Store

variable (s : Store ν φ ι α)

def ptr : Place ν φ ι → Option ι
  | .named v => s.locals.ptr v
  | .member o f => s.members.ptr (o, f)

def Declared : Place ν φ ι → Prop
  | .named v => v ∈ s.locals.names
  | .member o f => (o, f) ∈ s.members.names

def MayDeclare : Place ν φ ι → Prop
  | .named v => v ∉ s.locals.names
  | .member o f => s.heap.Present o ∧ (o, f) ∉ s.members.names

instance : (place : Place ν φ ι) → Decidable (s.Declared place)
  | .named _ => inferInstanceAs (Decidable (_ ∈ _))
  | .member _ _ => inferInstanceAs (Decidable (_ ∈ _))

instance : (place : Place ν φ ι) → Decidable (s.MayDeclare place)
  | .named _ => inferInstanceAs (Decidable (_ ∉ _))
  | .member _ _ => inferInstanceAs (Decidable (_ ∧ _))

def declareAt (p : Option ι) : Place ν φ ι → Store ν φ ι α
  | .named v => { s with locals := s.locals.declare v p }
  | .member o f => s.setMembers (s.members.declare (o, f) p)

def write (p : Option ι) : Place ν φ ι → Store ν φ ι α
  | .named v => { s with locals := s.locals.set v p }
  | .member o f => s.setMembers (s.members.set (o, f) p)

def remove : Place ν φ ι → Store ν φ ι α
  | .named v => { s with locals := s.locals.drop v }
  | .member o f => s.setMembers (s.members.drop (o, f))

end Store

namespace Source

variable (s : Store ν φ ι α)

def Valid : Source ν φ ι → Prop
  | .null => True
  | .new x => x ∉ s.heap.allocated
  | .get place => s.Declared place
  | .raw x => s.heap.Present x

instance : (src : Source ν φ ι) → Decidable (src.Valid s)
  | .null => inferInstanceAs (Decidable True)
  | .new _ => inferInstanceAs (Decidable (_ ∉ _))
  | .get _ => inferInstanceAs (Decidable (s.Declared _))
  | .raw _ => inferInstanceAs (Decidable (_ ∧ _))

def ptr : Source ν φ ι → Option ι
  | .null => none
  | .new x | .raw x => some x
  | .get place => s.ptr place

def construct (c : ι → α → α) : Source ν φ ι → Store ν φ ι α
  | .new x =>
    { s with heap := s.heap.construct x (c x s.heap.globals), mirrored := s.mirrored }
  | .null | .get _ | .raw _ => s

end Source

namespace Store

variable (c d : ι → α → α) (s : Store ν φ ι α)

def construct (src : Source ν φ ι) : Store ν φ ι α := (src.construct s c).addRef (src.ptr s)

/-- `operator=` adds the new reference before it lets go of the old one. -/
def assign (place : Place ν φ ι) (src : Source ν φ ι) : Store ν φ ι α :=
  ((s.construct c src).write (src.ptr s) place).release d (s.ptr place)

def swap (place place' : Place ν φ ι) : Store ν φ ι α :=
  (s.write (s.ptr place') place).write (s.ptr place) place'

def destroy (place : Place ν φ ι) : Store ν φ ι α := (s.remove place).release d (s.ptr place)

def step : Statement ν φ ι → Option (Store ν φ ι α)
  | .declare place src =>
    if s.MayDeclare place ∧ src.Valid s then
      some ((s.construct c src).declareAt (src.ptr s) place)
    else none
  | .assign place src =>
    if s.Declared place ∧ src.Valid s then some (s.assign c d place src) else none
  | .swap place place' =>
    if s.Declared place ∧ s.Declared place' then some (s.swap place place') else none
  | .destroy place => if s.Declared place then some (s.destroy d place) else none

end Store

/-- `c` and `d` are what constructors and destructors do to the globals. -/
def program (c d : ι → α → α) (g : α) : Machine (Store ν φ ι α) (Statement ν φ ι) :=
  ⟨⟨.empty g, .none, .none, rfl⟩, Store.step c d⟩

variable {c : ι → α → α} {g : α} {place place' : Place ν φ ι} {src : Source ν φ ι}

lemma declareAt_rearranged : Rearranged s (s.declareAt p place) := by cases place <;> rfl

lemma write_rearranged : Rearranged s (s.write p place) := by cases place <;> rfl

lemma remove_rearranged : Rearranged s (s.remove place) := by cases place <;> rfl

lemma swap_rearranged : Rearranged s (s.swap place place') := by
  cases place <;> cases place' <;> rfl

lemma declareAt_held (h : s.MayDeclare place) :
    (s.declareAt p place).held.Perm (p.toList ++ s.held) := by
  cases place with
  | named v =>
    have hr := (Pointers.roots_declare (p := p) h).append_right s.members.roots
    exact hr.trans (List.append_assoc _ _ _ ▸ .rfl)
  | member o f =>
    have hr := (Pointers.roots_declare (p := p) h.2).append_left s.locals.roots
    exact hr.trans (List.perm_append_comm_assoc _ _ _)

lemma remove_held (h : s.Declared place) :
    s.held.Perm ((s.ptr place).toList ++ (s.remove place).held) := by
  cases place with
  | named v =>
    have hr := (Pointers.roots_perm h).append_right s.members.roots
    exact hr.trans (List.append_assoc _ _ _ ▸ .rfl)
  | member o f =>
    have hr := (Pointers.roots_perm h).append_left s.locals.roots
    exact hr.trans (List.perm_append_comm_assoc _ _ _)

lemma write_remove : (s.write p place).remove place = s.remove place := by
  cases place with
  | named v => simp only [Store.write, Store.remove, Pointers.drop_set_self]
  | member o f => simp only [Store.write, Store.remove, Store.setMembers, Pointers.drop_set_self]

lemma declared_write : (s.write p place).Declared place' ↔ s.Declared place' := by
  cases place <;> cases place' <;>
    simp only [Store.write, Store.Declared, Store.setMembers, Pointers.names_set]

lemma ptr_write (h : s.Declared place) : (s.write p place).ptr place = p := by
  cases place with
  | named v => exact Pointers.ptr_set h
  | member o f => exact Pointers.ptr_set h

lemma ptr_write_ne (h : place' ≠ place) : (s.write p place).ptr place' = s.ptr place' := by
  cases place with
  | named v =>
    cases place' with
    | named w => exact Pointers.ptr_set_ne fun he => h (he ▸ rfl)
    | member o f => rfl
  | member o f =>
    cases place' with
    | named w => rfl
    | member o' f' =>
      apply Pointers.ptr_set_ne
      rintro ⟨⟩
      exact h rfl

lemma write_held (h : s.Declared place) :
    ((s.ptr place).toList ++ (s.write p place).held).Perm (p.toList ++ s.held) := by
  have hd : (s.write p place).Declared place := declared_write.mpr h
  have hw := remove_held hd
  rw [ptr_write h, write_remove] at hw
  have hs := (hw.append_left (s.ptr place).toList).trans (List.perm_append_comm_assoc _ _ _)
  exact hs.trans ((remove_held h).symm.append_left _)

lemma swap_held (h : s.Declared place) (h' : s.Declared place') :
    (s.swap place place').held.Perm s.held := by
  have hq : (s.write (s.ptr place') place).ptr place' = s.ptr place' := by
    by_cases he : place' = place
    · rw [he, ptr_write h]
    · exact ptr_write_ne he
  have h1 := write_held (p := s.ptr place') h
  have hd : (s.write (s.ptr place') place).Declared place' := declared_write.mpr h'
  have h2 := write_held (p := s.ptr place) hd
  rw [hq] at h2
  exact (List.perm_append_left_iff _).mp (h2.trans h1)

namespace Store.Holds

lemma declareAt (h : s.Holds (p.toList ++ R)) (hd : s.MayDeclare place) :
    (s.declareAt p place).Holds R := by
  apply h.rearrange declareAt_rearranged
  · have hp := (declareAt_held (p := p) hd).append_left R
    rw [List.append_assoc]
    exact hp.trans (List.perm_append_comm_assoc _ _ _)
  · cases place with
    | named v => exact h.owners
    | member o f =>
      intro k hk
      have hk : k ∈ (s.members.declare (o, f) p).names := hk
      rw [Pointers.names_declare hd.2] at hk
      rcases List.mem_append.mp hk with hk | hk
      · exact h.owners k hk
      · exact List.mem_singleton.mp hk ▸ hd.1

lemma write (h : s.Holds (p.toList ++ R)) (hd : s.Declared place) :
    (s.write p place).Holds ((s.ptr place).toList ++ R) := by
  apply h.rearrange write_rearranged
  · have hp := (write_held (p := p) hd).append_left R
    rw [List.append_assoc, List.append_assoc]
    exact (List.perm_append_comm_assoc _ _ _).trans (hp.trans (List.perm_append_comm_assoc _ _ _))
  · cases place with
    | named v => exact h.owners
    | member o f =>
      intro k hk
      have hk : k ∈ (s.members.set (o, f) p).names := hk
      rw [Pointers.names_set] at hk
      exact h.owners k hk

lemma swap (h : s.Holds R) (hd : s.Declared place) (hd' : s.Declared place') :
    (s.swap place place').Holds R := by
  apply h.rearrange swap_rearranged
  · exact (swap_held hd hd').append_left R
  · have hn : (s.swap place place').members.names = s.members.names := by
      cases place <;> cases place' <;>
        simp only [Store.swap, Store.write, Store.setMembers, Pointers.names_set]
    exact hn ▸ h.owners

lemma remove (h : s.Holds R) (hd : s.Declared place) :
    (s.remove place).Holds ((s.ptr place).toList ++ R) := by
  apply h.rearrange remove_rearranged
  · have hp := (remove_held hd).append_left R
    rw [List.append_assoc]
    exact (List.perm_append_comm_assoc _ _ _).trans hp.symm
  · cases place with
    | named v => exact h.owners
    | member o f => exact fun k hk => h.owners k (Pointers.mem_keep.mp hk).1

lemma present (h : s.Holds R) {x : ι} (hx : s.ptr place = some x) : s.heap.Present x := by
  cases place with
  | named v =>
    exact h.balanced.present_root (List.mem_append_right _ (Pointers.mem_roots hx))
  | member o f =>
    have hm := Pointers.mem_roots (show s.members.ptr (o, f) = some x from hx)
    rw [← Pointers.edges_snd, ← s.mirrored] at hm
    obtain ⟨m, hmem, rfl⟩ := List.mem_map.mp hm
    exact h.balanced.present_member (o := m.1) hmem

lemma construct (h : s.Holds []) (hv : src.Valid s) :
    (s.construct c src).Holds ((src.ptr s).toList ++ []) := by
  cases src with
  | null => exact h
  | new x =>
    refine ⟨h.balanced.create hv _, fun k hk => ?_⟩
    exact ⟨List.mem_cons_of_mem x (h.owners k hk).1, (h.owners k hk).2⟩
  | get q => exact h.addRef fun x hx => h.present hx
  | raw x => exact h.addRef fun y hy => Option.some.inj hy ▸ hv

end Store.Holds

@[simp] lemma construct_locals : (s.construct c src).locals = s.locals := by
  rw [Store.construct, addRef_locals]
  cases src <;> rfl

@[simp] lemma construct_members : (s.construct c src).members = s.members := by
  rw [Store.construct, addRef_members]
  cases src <;> rfl

lemma construct_ptr : (s.construct c src).ptr place = s.ptr place := by
  cases place <;> simp only [Store.ptr, construct_locals, construct_members]

lemma construct_declared : (s.construct c src).Declared place ↔ s.Declared place := by
  cases place <;> simp only [Store.Declared, construct_locals, construct_members]

lemma construct_present {o : ι} (h : s.heap.Present o) : (s.construct c src).heap.Present o := by
  obtain ⟨ha, hd⟩ := h
  cases src with
  | null => exact ⟨ha, hd⟩
  | new x => exact ⟨List.mem_cons_of_mem x ha, hd⟩
  | get q =>
    rw [Store.construct, Source.ptr]
    cases s.ptr q <;> exact ⟨ha, hd⟩
  | raw x => exact ⟨ha, hd⟩

lemma construct_mayDeclare (h : s.MayDeclare place) : (s.construct c src).MayDeclare place := by
  cases place with
  | named v => simpa only [Store.MayDeclare, construct_locals] using h
  | member o f =>
    refine ⟨construct_present h.1, ?_⟩
    rw [construct_members]
    exact h.2

lemma step_holds {e : Statement ν φ ι} (h : s.Holds []) (he : s.step c d e = some t) :
    t.Holds [] := by
  cases e with
  | declare place src =>
    obtain ⟨⟨hd, hv⟩, ht⟩ := Option.ite_none_right_eq_some.mp he
    obtain rfl := Option.some.inj ht
    exact (h.construct hv).declareAt (construct_mayDeclare hd)
  | assign place src =>
    obtain ⟨⟨hd, hv⟩, ht⟩ := Option.ite_none_right_eq_some.mp he
    obtain rfl := Option.some.inj ht
    have hw := (h.construct (c := c) hv).write (construct_declared.mpr hd)
    rw [construct_ptr] at hw
    exact hw.release
  | swap place place' =>
    obtain ⟨⟨hd, hd'⟩, ht⟩ := Option.ite_none_right_eq_some.mp he
    obtain rfl := Option.some.inj ht
    exact h.swap hd hd'
  | destroy place =>
    obtain ⟨hd, ht⟩ := Option.ite_none_right_eq_some.mp he
    obtain rfl := Option.some.inj ht
    exact (h.remove hd).release

lemma program_holds {es : List (Statement ν φ ι)} (h : (program c d g).Runs es s) : s.Holds [] := by
  apply h.invariant (I := fun s => s.Holds [])
  · exact ⟨Heap.empty_balanced g, by simp [program, Pointers.none, Pointers.names]⟩
  · exact fun _ _ _ => step_holds

theorem objects_exact (c d : ι → α → α) (g : α) (es : List (Statement ν φ ι)) (s : Store ν φ ι α)
    (h : (program c d g).Runs es s) :
    s.heap.fault = false ∧ s.heap.deleted.Nodup ∧
    (∀ x, s.heap.refCount x = s.locals.roots.count x + (s.heap.members.map Prod.snd).count x) ∧
    (∀ v x, s.locals.ptr v = some x → s.heap.Present x) ∧
    (∀ m ∈ s.heap.members, s.heap.Present m.1 ∧ s.heap.Present m.2) ∧
    ∀ x, s.heap.Present x ↔ (∃ y ∈ s.locals.roots, Relation.ReflTransGen s.heap.Owns y x) ∨
      ∃ c, Relation.TransGen s.heap.Owns c c ∧ Relation.ReflTransGen s.heap.Owns c x := by
  have hs : s.heap.Balanced s.locals.roots := (program_holds h).balanced
  exact ⟨hs.sound, hs.once, hs.counted, fun v x hx => hs.present_root (Pointers.mem_roots hx),
    fun m hm => ⟨hs.owned m hm, hs.present_member hm⟩, fun x => hs.present_iff_reached⟩

def linked : List (Statement ℕ ℕ ℕ) :=
  [.declare (.named 0) (.new 0), .declare (.member 0 0) .null, .declare (.named 1) (.new 1),
    .assign (.member 0 0) (.get (.named 1)), .assign (.named 1) .null]

def nothing : ℕ → Unit → Unit := fun _ g => g

theorem linked_exact : ∃ s : Store ℕ ℕ ℕ Unit, (program nothing nothing ()).Runs linked s ∧
    s.locals.ptr 0 = some 0 ∧ s.heap.Present 0 ∧ s.heap.Present 1 ∧ s.heap.refCount 1 = 1 := by
  have h : (program nothing nothing ()).Runs linked _ := rfl
  obtain ⟨-, -, hc, hp, hm, -⟩ := objects_exact nothing nothing () linked _ h
  exact ⟨_, h, rfl, hp 0 0 rfl, (hm (0, 1) (.head _)).2, hc 1⟩

theorem all_deleted_iff (c d : ι → α → α) (g : α) (es : List (Statement ν φ ι)) (s : Store ν φ ι α)
    (h : (program c d g).Runs es s) (hl : s.locals.names = []) :
    (∀ x ∈ s.heap.allocated, x ∈ s.heap.deleted) ↔ ∀ c, ¬ Relation.TransGen s.heap.Owns c c := by
  have hs : s.heap.Balanced s.locals.roots := (program_holds h).balanced
  constructor
  · intro hall c hc
    obtain ⟨ha, hd⟩ := hs.present_of_cycle hc
    exact hd (hall c ha)
  · intro hn x ha
    apply Heap.deleted_of_not_present ha
    rw [hs.present_iff_reached, Pointers.roots_of_no_names hl]
    rintro (⟨y, hy, -⟩ | ⟨c, hc, -⟩)
    · exact List.not_mem_nil hy
    · exact hn c hc

theorem linked_deleted : ∃ s : Store ℕ ℕ ℕ Unit, (program nothing nothing ()).Runs
    (linked ++ [.destroy (.named 0), .destroy (.named 1)]) s ∧
      ∀ c, ¬ Relation.TransGen s.heap.Owns c c := by
  have h : (program nothing nothing ()).Runs
    (linked ++ [.destroy (.named 0), .destroy (.named 1)]) _ := rfl
  exact ⟨_, h, (all_deleted_iff nothing nothing () _ _ h rfl).mp (by decide)⟩

lemma write_ptr : s.write (s.ptr place) place = s := by
  cases place with
  | named v =>
    have hl : s.locals.set v (s.locals.ptr v) = s.locals := Pointers.set_ptr
    exact Store.ext rfl hl rfl
  | member o f =>
    have hm : s.members.set (o, f) (s.members.ptr (o, f)) = s.members := Pointers.set_ptr
    refine Store.ext ?_ rfl hm
    simp only [Store.write, Store.setMembers, Store.ptr, hm, ← s.mirrored]

theorem assign_self (c d : ι → α → α) (g : α) (es : List (Statement ν φ ι)) (s : Store ν φ ι α)
    (h : (program c d g).Runs es s) (place : Place ν φ ι) (hv : s.Declared place) :
    (program c d g).step s (.assign place (.get place)) = some s := by
  have hs : s.assign c d place (.get place) = s := by
    have hp : (s.construct c (.get place)).ptr place = s.ptr place := construct_ptr
    have hw : (s.construct c (.get place)).write (s.ptr place) place =
        s.construct c (.get place) := by
      rw [← hp]
      exact write_ptr
    rw [Store.assign, Source.ptr, hw, Store.construct, Source.construct, Source.ptr]
    cases hq : s.ptr place with
    | none => rfl
    | some x => exact (program_holds h).release_addRef ((program_holds h).present hq)
  exact (if_pos ⟨hv, hv⟩).trans (congrArg some hs)

theorem linked_self : ∃ s : Store ℕ ℕ ℕ Unit, (program nothing nothing ()).Runs linked s ∧
    (program nothing nothing ()).step s (.assign (.member 0 0) (.get (.member 0 0))) = some s := by
  have h : (program nothing nothing ()).Runs linked _ := rfl
  exact ⟨_, h, assign_self nothing nothing () linked _ h (.member 0 0) (by decide)⟩

lemma remove_temporary {v : ν} {q : Option ι} (hv : v ∉ s.locals.names) :
    (((s.declareAt p (.named v)).write q (.named v)).write p place).remove (.named v) =
      s.write p place := by
  cases place with
  | named w =>
    refine Store.ext rfl ?_ rfl
    simp only [Store.declareAt, Store.write, Store.remove]
    rw [Pointers.drop_set, Pointers.drop_set_self, Pointers.drop_declare hv]
  | member o f =>
    refine Store.ext rfl ?_ rfl
    simp only [Store.declareAt, Store.write, Store.remove, Store.setMembers,
      Pointers.drop_set_self, Pointers.drop_declare hv]

theorem assign_copy_swap (c d : ι → α → α) (g : α) (s t : Store ν φ ι α) (place : Place ν φ ι)
    (src : Source ν φ ι) (h : (program c d g).step s (.assign place src) = some t) (v : ν)
    (hv : v ∉ s.locals.names) :
    (program c d g).exec s
      [.declare (.named v) src, .swap (.named v) place, .destroy (.named v)] = some t := by
  obtain ⟨⟨hp, hs⟩, ht⟩ := Option.ite_none_right_eq_some.mp h
  obtain rfl := Option.some.inj ht
  have hne : place ≠ .named v := by
    rintro rfl
    exact hv hp
  have hT : v ∉ (s.construct c src).locals.names := by rwa [construct_locals]
  let u := (s.construct c src).declareAt (src.ptr s) (.named v)
  have hu : (program c d g).step s (.declare (.named v) src) = some u := if_pos ⟨hv, hs⟩
  have hd : u.Declared (.named v) := Pointers.mem_declare hT
  have hd' : u.Declared place := by
    cases place with
    | named w =>
      have hw : w ∈ (s.construct c src).locals.names := construct_declared.mpr hp
      exact Pointers.mem_declare_of_mem hT hw
    | member o f => exact construct_declared.mpr hp
  have hx : (program c d g).step u (.swap (.named v) place) = some (u.swap (.named v) place) :=
    if_pos ⟨hd, hd'⟩
  have hy : (program c d g).step (u.swap (.named v) place) (.destroy (.named v)) =
      some ((u.swap (.named v) place).destroy d (.named v)) :=
    if_pos (declared_write.mpr (declared_write.mpr hd))
  rw [Machine.exec_cons, hu, Option.bind_some, Machine.exec_cons, hx, Option.bind_some,
    Machine.exec_cons, hy]
  apply congrArg some
  have hpv : u.ptr (.named v) = src.ptr s := Pointers.ptr_declare hT
  have hpp : u.ptr place = s.ptr place := by
    refine Eq.trans ?_ (construct_ptr : (s.construct c src).ptr place = s.ptr place)
    cases place with
    | named w => exact Pointers.ptr_declare_ne hT fun he => hne (he ▸ rfl)
    | member o f => rfl
  rw [Store.destroy, Store.swap, hpv, hpp, ptr_write_ne hne.symm, ptr_write hd, Store.assign]
  exact congrArg (Store.release · d (s.ptr place)) (remove_temporary hT)

theorem linked_swapped : ∃ s t : Store ℕ ℕ ℕ Unit, (program nothing nothing ()).Runs linked s ∧
    (program nothing nothing ()).exec s [.declare (.named 2) .null,
      .swap (.named 2) (.member 0 0), .destroy (.named 2)] = some t ∧ t.heap.deleted = [1] := by
  have h : (program nothing nothing ()).Runs linked _ := rfl
  exact ⟨_, _, h,
    assign_copy_swap nothing nothing () _ _ (.member 0 0) .null rfl 2 (by decide), rfl⟩

end

end QyCefVS.ScopedRefptr
