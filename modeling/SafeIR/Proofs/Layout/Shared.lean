import Mathlib.Data.Set.Card
import SafeIR.Proofs.Layout.Natural
import SafeIR.Proofs.Layout.Request

/-!
# A table of layouts with many users

Requests for layouts that share one table. Accesses are made one at a time, in any order, so that
two requests may both miss a type and both compute it, and a request that fails may leave parts of
its type behind.

Whether the others can be seen is a question about one request: `Request.Yields` says what it gives
and which types it maps on any table that others keep sound, and `Yields.step` that its own accesses
keep the table sound. Runs of the whole service follow by induction on its moves.
-/

namespace SafeIR.Layout

open IR (Ty)

variable {l : Layout}

/-! ## The types that a request maps -/

mutual

/-- A request for the layout of the first type maps the second: it is the type itself, which then
has a layout, or one that the parts map. -/
inductive Maps (limit : Nat) : Ty → Ty → Prop where
  | self {ty : Ty} {l : Layout} (h : ofType limit ty = .ok l) : Maps limit ty ty
  | part {ty t : Ty} (h : MapsAmong limit ty.components t) : Maps limit ty t

/-- Types are mapped one after the other, up to the first that has no layout. -/
inductive MapsAmong (limit : Nat) : List Ty → Ty → Prop where
  | head {ty t : Ty} {tys : List Ty} (h : Maps limit ty t) : MapsAmong limit (ty :: tys) t
  | tail {ty t : Ty} {tys : List Ty} {l : Layout} (hty : ofType limit ty = .ok l)
      (h : MapsAmong limit tys t) : MapsAmong limit (ty :: tys) t

end

section

variable {limit : Nat} {ty t : Ty} {tys : List Ty}

theorem maps_iff_of_ok (hl : ofType limit ty = .ok l) :
    Maps limit ty t ↔ MapsAmong limit ty.components t ∨ t = ty := by
  constructor
  · intro h
    cases h with
    | self => exact .inr rfl
    | part h => exact .inl h
  · rintro (h | rfl)
    · exact .part h
    · exact .self hl

theorem maps_iff_of_error {e : UnsupportedType} (he : ofType limit ty = .error e) :
    Maps limit ty t ↔ MapsAmong limit ty.components t := by
  constructor
  · intro h
    cases h with
    | self hl =>
      rw [he] at hl
      cases hl
    | part h => exact h
  · exact .part

theorem not_mapsAmong_nil : ¬ MapsAmong limit [] t := by
  intro h
  cases h

theorem mapsAmong_cons_iff :
    MapsAmong limit (ty :: tys) t ↔
      Maps limit ty t ∨ (∃ l, ofType limit ty = .ok l) ∧ MapsAmong limit tys t := by
  constructor
  · intro h
    cases h with
    | head h => exact .inl h
    | tail hty h => exact .inr ⟨⟨_, hty⟩, h⟩
  · rintro (h | ⟨⟨l, hty⟩, h⟩)
    · exact .head h
    · exact .tail hty h

theorem mapsAmong_singleton_iff : MapsAmong limit [ty] t ↔ Maps limit ty t := by
  rw [mapsAmong_cons_iff, or_iff_left fun h => not_mapsAmong_nil h.2]

theorem mapsAmong_append_iff {others : List Ty} :
    MapsAmong limit (tys ++ others) t ↔
      MapsAmong limit tys t ∨ (∃ ls, ofTypes limit tys = .ok ls) ∧ MapsAmong limit others t := by
  induction tys with
  | nil =>
    rw [List.nil_append, or_iff_right not_mapsAmong_nil]
    exact (and_iff_right ⟨[], rfl⟩).symm
  | cons ty tys ih =>
    have hok : (∃ ls, ofTypes limit (ty :: tys) = .ok ls) ↔
        (∃ l, ofType limit ty = .ok l) ∧ ∃ ls, ofTypes limit tys = .ok ls := by
      simp only [ofTypes_cons_eq_ok]
      constructor
      · rintro ⟨_, l, ls, hl, hls, -⟩
        exact ⟨⟨l, hl⟩, ls, hls⟩
      · rintro ⟨⟨l, hl⟩, ls, hls⟩
        exact ⟨_, l, ls, hl, hls, rfl⟩
    rw [List.cons_append, mapsAmong_cons_iff, ih, mapsAmong_cons_iff, hok, and_or_left, or_assoc,
      and_assoc]

theorem mapsAmong_of_mem {ls : List Layout} (hls : ofTypes limit tys = .ok ls) (ht : t ∈ tys) :
    MapsAmong limit tys t := by
  induction tys generalizing ls with
  | nil => cases ht
  | cons ty tys ih =>
    obtain ⟨l, rest, hl, hrest, -⟩ := ofTypes_cons_eq_ok.mp hls
    obtain rfl | ht := List.mem_cons.mp ht
    · exact .head (.self hl)
    · exact .tail hl (ih hrest ht)

/-- All parts of a type that has a layout are mapped. -/
theorem mapsAmong_of_mem_components (hl : ofType limit ty = .ok l) (ht : t ∈ ty.components) :
    MapsAmong limit ty.components t := by
  cases ty with
  | array len elem =>
    obtain ⟨e, he, -⟩ := ofType_array_eq_ok.mp hl
    obtain rfl := List.mem_singleton.mp ht
    exact .head (.self he)
  | struct packed fields =>
    obtain ⟨ls, hls, -⟩ := ofType_struct_eq_ok.mp hl
    exact mapsAmong_of_mem hls ht
  | function ret params varargs =>
    rw [ofType, bind_eq_ok] at hl
    obtain ⟨ps, hps, hl⟩ := hl
    obtain ⟨r, hr, -⟩ := bind_eq_ok.mp hl
    refine mapsAmong_append_iff.mpr ?_
    obtain ht | ht := List.mem_append.mp ht
    · exact .inl (mapsAmong_of_mem hps ht)
    · obtain rfl := List.mem_singleton.mp ht
      exact .inr ⟨⟨ps, hps⟩, .head (.self hr)⟩
  | _ => cases ht

end

/-! ## Sound tables -/

/-- Entries are layouts of their types, no type has two, and parts have entries too. -/
structure Memo.Sound (limit : Nat) (m : Memo) : Prop where
  right : ∀ ty l, m.find? ty = some l → Layout.ofType limit ty = .ok l
  nodup : m.types.Nodup
  closed : ∀ ty ∈ m.types, ∀ part ∈ ty.components, part ∈ m.types

namespace Memo.Sound

variable {limit : Nat} {m : Memo}

theorem empty (limit : Nat) : Sound limit {} where
  right ty l h := by cases h
  nodup := List.nodup_nil
  closed ty h := by cases h

theorem insert (hm : m.Sound limit) {ty : Ty} (hl : Layout.ofType limit ty = .ok l)
    (hnew : m.find? ty = none) (hparts : ∀ part ∈ ty.components, part ∈ m.types) :
    (m.insert ty l).Sound limit where
  right other l' h := by
    by_cases hty : ty = other
    · subst hty
      rw [find?_insert_self] at h
      cases h
      exact hl
    · rw [find?_insert_of_ne hty] at h
      exact hm.right other l' h
  nodup := List.nodup_cons.mpr ⟨find?_eq_none_iff.mp hnew, hm.nodup⟩
  closed other hother part hpart := by
    obtain rfl | hother := List.mem_cons.mp hother
    · exact List.mem_cons_of_mem _ (hparts part hpart)
    · exact List.mem_cons_of_mem _ (hm.closed other hother part hpart)

mutual

/-- With a type, everything that a request for it maps is in the table. -/
theorem mem_of_maps (hm : m.Sound limit) : ∀ {ty t : Ty}, Maps limit ty t → ty ∈ m.types →
    t ∈ m.types
  | _, _, .self _, hty => hty
  | _, _, .part h, hty => mem_of_mapsAmong hm h (hm.closed _ hty)

theorem mem_of_mapsAmong (hm : m.Sound limit) : ∀ {tys : List Ty} {t : Ty},
    MapsAmong limit tys t → (∀ ty ∈ tys, ty ∈ m.types) → t ∈ m.types
  | _, _, .head h, htys => mem_of_maps hm h (htys _ List.mem_cons_self)
  | _, _, .tail _ h, htys =>
    mem_of_mapsAmong hm h fun ty hty => htys ty (List.mem_cons_of_mem _ hty)

end

end Memo.Sound

/-! ## What a request gives, whatever the others do -/

namespace Request

variable {α β : Type} {limit : Nat}

/-- On a table that is sound at each access, a request gives `x`. It adds entries only for types
of `maps`, after their parts, and all types of `maps` have entries in the end. The types that are
known to have entries by now are `known`; a type that is found tells of all that it maps. -/
def Yields (limit : Nat) (x : Except UnsupportedType α) (maps : Set Ty) :
    Request α → (known : Set Ty) → Prop
  | done r, known => r = x ∧ maps ⊆ known
  | look ty next, known =>
    (next none).Yields limit x maps known ∧
      ∀ l, ofType limit ty = .ok l →
        (next (some l)).Yields limit x maps (known ∪ {t | Maps limit ty t})
  | keep ty l next, known =>
    ofType limit ty = .ok l ∧ ty ∈ maps ∧ (∀ part ∈ ty.components, part ∈ known) ∧
      (next l).Yields limit x maps (insert ty known)

namespace Yields

variable {x : Except UnsupportedType α} {maps known : Set Ty} {t : Request α}

theorem mono {known' : Set Ty} (h : t.Yields limit x maps known) (hknown : known ⊆ known') :
    t.Yields limit x maps known' := by
  induction t generalizing known known' with
  | done r => exact ⟨h.1, h.2.trans hknown⟩
  | look ty next ih =>
    obtain ⟨hmiss, hhit⟩ := h
    exact ⟨ih none hmiss hknown,
      fun l hl => ih (some l) (hhit l hl) (Set.union_subset_union_left _ hknown)⟩
  | keep ty l next ih =>
    obtain ⟨hl, hty, hparts, h⟩ := h
    exact ⟨hl, hty, fun part hpart => hknown (hparts part hpart),
      ih l h (Set.insert_subset_insert hknown)⟩

/-- What is known already may be counted as mapped. -/
theorem union {before : Set Ty} (h : t.Yields limit x maps known) (hbefore : before ⊆ known) :
    t.Yields limit x (before ∪ maps) known := by
  induction t generalizing known with
  | done r => exact ⟨h.1, Set.union_subset hbefore h.2⟩
  | look ty next ih =>
    obtain ⟨hmiss, hhit⟩ := h
    exact ⟨ih none hmiss hbefore,
      fun l hl => ih (some l) (hhit l hl) (hbefore.trans Set.subset_union_left)⟩
  | keep ty l next ih =>
    obtain ⟨hl, hty, hparts, h⟩ := h
    exact ⟨hl, .inr hty, hparts, ih l h (hbefore.trans (Set.subset_insert ty known))⟩

theorem bind_ok {a : α} {f : α → Request β} {y : Except UnsupportedType β} {maps' : Set Ty}
    (h : t.Yields limit (.ok a) maps known)
    (hf : ∀ known, maps ⊆ known → (f a).Yields limit y maps' known) :
    (t >>= f).Yields limit y (maps ∪ maps') known := by
  induction t generalizing known with
  | done r =>
    obtain ⟨rfl, hmaps⟩ := h
    exact (hf known hmaps).union hmaps
  | look ty next ih =>
    obtain ⟨hmiss, hhit⟩ := h
    exact ⟨ih none hmiss, fun l hl => ih (some l) (hhit l hl)⟩
  | keep ty l next ih =>
    obtain ⟨hl, hty, hparts, h⟩ := h
    exact ⟨hl, .inl hty, hparts, ih l h⟩

theorem bind_error {e : UnsupportedType} (f : α → Request β)
    (h : t.Yields limit (.error e) maps known) : (t >>= f).Yields limit (.error e) maps known := by
  induction t generalizing known with
  | done r =>
    obtain ⟨rfl, hmaps⟩ := h
    exact ⟨rfl, hmaps⟩
  | look ty next ih =>
    obtain ⟨hmiss, hhit⟩ := h
    exact ⟨ih none hmiss, fun l hl => ih (some l) (hhit l hl)⟩
  | keep ty l next ih =>
    obtain ⟨hl, hty, hparts, h⟩ := h
    exact ⟨hl, hty, hparts, ih l h⟩

/-- The second part maps its types only if the first has not failed. -/
theorem bind {f : α → Request β} {g : α → Except UnsupportedType β} {maps' : Set Ty}
    (h : t.Yields limit x maps known) (hf : ∀ a known, (f a).Yields limit (g a) maps' known) :
    (t >>= f).Yields limit (x >>= g) (maps ∪ {t | (∃ a, x = .ok a) ∧ t ∈ maps'}) known := by
  cases x with
  | error e =>
    have hnone : {t | (∃ a : α, Except.error e = .ok a) ∧ t ∈ maps'} = ∅ := by simp
    rw [hnone, Set.union_empty]
    exact h.bind_error f
  | ok a =>
    have hok : ∃ b, (.ok a : Except UnsupportedType α) = .ok b := ⟨a, rfl⟩
    have hall : {t | (∃ b, (.ok a : Except UnsupportedType α) = .ok b) ∧ t ∈ maps'} = maps' :=
      Set.ext fun t => and_iff_right hok
    rw [hall]
    exact h.bind_ok fun known _ => hf a known

theorem bind_pure (f : α → β) (h : t.Yields limit x maps known) :
    (t >>= fun a => pure (f a)).Yields limit (x >>= fun a => pure (f a)) maps known := by
  cases x with
  | error e => exact h.bind_error _
  | ok a =>
    have hf : ∀ known, maps ⊆ known → (pure (f a) : Request β).Yields limit (.ok (f a)) ∅ known :=
      fun known _ => ⟨rfl, Set.empty_subset known⟩
    have hpure := h.bind_ok (f := fun a => pure (f a)) hf
    rwa [Set.union_empty] at hpure

end Yields

end Request

section

variable {limit : Nat}

theorem yields_remember {ty : Ty} {build : Request Layout}
    (h : ∀ known, build.Yields limit (ofType limit ty) {t | MapsAmong limit ty.components t} known)
    (known : Set Ty) :
    (remember ty build).Yields limit (ofType limit ty) {t | Maps limit ty t} known := by
  -- Where the type is found, all that it maps is there with it.
  refine ⟨?_, fun l hl => ⟨hl.symm, Set.subset_union_right⟩⟩
  have hbuild := h known
  cases hty : ofType limit ty with
  | error e =>
    -- The parts that come before the failure stay; the type itself is not kept.
    have hmaps : {t | Maps limit ty t} = {t | MapsAmong limit ty.components t} :=
      Set.ext fun t => maps_iff_of_error hty
    rw [hmaps]
    rw [hty] at hbuild
    exact hbuild.bind_error _
  | ok l =>
    have hmaps : {t | Maps limit ty t} = {t | MapsAmong limit ty.components t} ∪ {ty} :=
      Set.ext fun t => maps_iff_of_ok hty
    rw [hmaps]
    rw [hty] at hbuild
    refine hbuild.bind_ok fun known hknown => ⟨hty, rfl, fun part hpart => ?_, rfl, ?_⟩
    · exact hknown (mapsAmong_of_mem_components hty hpart)
    · exact Set.singleton_subset_iff.mpr (Set.mem_insert ty known)

mutual

theorem yields_building (limit : Nat) (ty : Ty) (known : Set Ty) :
    (building limit ty).Yields limit (ofType limit ty) {t | MapsAmong limit ty.components t}
      known := by
  cases ty with
  | array len elem =>
    have hmaps : {t | MapsAmong limit [elem] t} = {t | Maps limit elem t} :=
      Set.ext fun t => mapsAmong_singleton_iff
    rw [building, ofType, Ty.components, hmaps]
    exact (yields_remember (yields_building limit elem) known).bind_pure _
  | struct packed fields =>
    rw [building, ofType, Ty.components]
    exact (yields_buildings limit fields known).bind_pure _
  | function ret params varargs =>
    have hmaps : {t | MapsAmong limit (params ++ [ret]) t} =
        {t | MapsAmong limit params t} ∪
          {t | (∃ ps, ofTypes limit params = .ok ps) ∧ t ∈ {t | Maps limit ret t}} := by
      ext t
      exact mapsAmong_append_iff.trans (by rw [mapsAmong_singleton_iff]; rfl)
    have hret := yields_remember (yields_building limit ret)
    rw [building, ofType, Ty.components, hmaps]
    exact (yields_buildings limit params known).bind fun ps known => (hret known).bind_pure _
  | _ => exact ⟨rfl, fun t ht => absurd ht not_mapsAmong_nil⟩

theorem yields_buildings (limit : Nat) (tys : List Ty) (known : Set Ty) :
    (buildings limit tys).Yields limit (ofTypes limit tys) {t | MapsAmong limit tys t} known := by
  cases tys with
  | nil => exact ⟨rfl, fun t ht => absurd ht not_mapsAmong_nil⟩
  | cons ty tys =>
    have hmaps : {t | MapsAmong limit (ty :: tys) t} = {t | Maps limit ty t} ∪
        {t | (∃ l, ofType limit ty = .ok l) ∧ t ∈ {t | MapsAmong limit tys t}} :=
      Set.ext fun t => mapsAmong_cons_iff
    have hty := yields_remember (yields_building limit ty) known
    have htys := yields_buildings limit tys
    rw [buildings, ofTypes, hmaps]
    exact hty.bind fun l known => (htys known).bind_pure _

end

theorem yields_mapping (limit : Nat) (ty : Ty) (known : Set Ty) :
    (mapping limit ty).Yields limit (ofType limit ty) {t | Maps limit ty t} known :=
  yields_remember (yields_building limit ty) known

end

/-! ## One access -/

/-- The types for which a layout is given out at the next access: one that is found, or one that
is kept. -/
def Request.settled {α : Type} (m : Memo) : Request α → List Ty
  | done _ => []
  | look ty _ => if ty ∈ m.types then [ty] else []
  | keep ty _ _ => [ty]

/-- What an access of a request that maps the types of `maps` does to a table. -/
structure Advances (limit : Nat) (maps : Set Ty) (settled : List Ty) (m m' : Memo) : Prop where
  sound : m'.Sound limit
  find?_eq : ∀ ty l, m.find? ty = some l → m'.find? ty = some l
  mem_types : ∀ ty, ty ∈ m'.types ↔ ty ∈ settled ∨ ty ∈ m.types
  origin : ∀ ty ∈ m'.types, ty ∈ m.types ∨ ty ∈ maps

section

variable {limit : Nat} {maps : Set Ty} {m : Memo}

theorem Advances.refl (hm : m.Sound limit) {settled : List Ty} (h : settled ⊆ m.types) :
    Advances limit maps settled m m where
  sound := hm
  find?_eq _ _ hfind := hfind
  mem_types _ := (or_iff_right_of_imp fun hty => h hty).symm
  origin _ := .inl

theorem Advances.insert (hm : m.Sound limit) {ty : Ty} (hl : ofType limit ty = .ok l)
    (hty : ty ∈ maps) (hnew : m.find? ty = none) (hparts : ∀ part ∈ ty.components, part ∈ m.types) :
    Advances limit maps [ty] m (m.insert ty l) where
  sound := hm.insert hl hnew hparts
  find?_eq other l' hfind := by
    have hne : ty ≠ other := by
      rintro rfl
      rw [hnew] at hfind
      cases hfind
    rwa [Memo.find?_insert_of_ne hne]
  mem_types other := by rw [Memo.types_insert, List.mem_cons, List.mem_singleton]
  origin other h := by
    obtain rfl | h := List.mem_cons.mp h
    · exact .inr hty
    · exact .inl h

namespace Request.Yields

variable {α : Type} {x : Except UnsupportedType α} {t : Request α}

/-- An access keeps the table sound, and what the request will give. -/
theorem step (h : t.Yields limit x maps {ty | ty ∈ m.types}) (hm : m.Sound limit) :
    Advances limit maps (t.settled m) m (t.step m).2 ∧
      (t.step m).1.Yields limit x maps {ty | ty ∈ (t.step m).2.types} := by
  cases t with
  | done r => exact ⟨.refl hm (List.nil_subset _), h⟩
  | look ty next =>
    obtain ⟨hmiss, hhit⟩ := h
    simp only [settled, Request.step]
    cases hfind : m.find? ty with
    | none =>
      rw [if_neg (Memo.find?_eq_none_iff.mp hfind)]
      exact ⟨.refl hm (List.nil_subset _), hmiss⟩
    | some l =>
      have hty : ty ∈ m.types := Memo.mem_types_iff.mpr ⟨l, hfind⟩
      rw [if_pos hty]
      have hnext := hhit l (hm.right ty l hfind)
      refine ⟨.refl hm (List.cons_subset.mpr ⟨hty, List.nil_subset _⟩), hnext.mono ?_⟩
      exact Set.union_subset (Set.Subset.refl _) fun t ht => hm.mem_of_maps ht hty
  | keep ty l next =>
    obtain ⟨hl, hty, hparts, h⟩ := h
    simp only [settled, Request.step]
    cases hfind : m.find? ty with
    | none =>
      rw [Memo.keep_of_none hfind]
      exact ⟨.insert hm hl hty hfind hparts, h.mono fun t ht => List.mem_cons.mpr ht⟩
    | some found =>
      -- Another request was faster, and found the same layout.
      have hmem : ty ∈ m.types := Memo.mem_types_iff.mpr ⟨found, hfind⟩
      obtain rfl : l = found := by
        have hfound := hm.right ty found hfind
        rw [hl] at hfound
        exact Except.ok.inj hfound
      rw [Memo.keep_of_some hfind]
      refine ⟨.refl hm (List.cons_subset.mpr ⟨hmem, List.nil_subset _⟩), h.mono ?_⟩
      exact Set.insert_subset hmem (Set.Subset.refl _)

theorem alone (h : t.Yields limit x maps {ty | ty ∈ m.types}) (hm : m.Sound limit) :
    (t.alone m).1 = x := by
  induction t generalizing m with
  | done r => exact h.1
  | look ty next ih =>
    obtain ⟨hadv, hnext⟩ := h.step hm
    exact ih _ hnext hadv.sound
  | keep ty l next ih =>
    obtain ⟨hadv, hnext⟩ := h.step hm
    exact ih _ hnext hadv.sound

theorem of_answer? {known : Set Ty} {r : Except UnsupportedType α}
    (h : t.Yields limit x maps known) (hr : t.answer? = some r) : r = x ∧ maps ⊆ known := by
  cases t with
  | done =>
    cases hr
    exact h
  | look | keep => cases hr

end Request.Yields

end

theorem ofType_empty (limit : Nat) (ty : Ty) :
    (Memo.ofType limit ty {}).1 = ofType limit ty := by
  rw [← alone_mapping]
  exact (yields_mapping limit ty _).alone (.empty limit)

/-! ## Many requests -/

/-- A request that was made for a type, and what is left of it. -/
structure Call where
  ty : Ty
  rest : Request Layout

/-- Requests that share a table. `mapped` records the types for which a layout was given out, to a
caller or on the way to the layout of a larger type. -/
structure Service where
  memo : Memo := {}
  calls : List Call := []
  mapped : List Ty := []

/-- What happens next: a new request, or the next access of one. -/
inductive Move where
  | call (ty : Ty)
  /-- The request in a place makes its next access. -/
  | advance (i : Nat)
  deriving DecidableEq

namespace Service

/-- What a move does. -/
def step (limit : Nat) (s : Service) : Move → Service
  | .call ty => { s with calls := s.calls ++ [⟨ty, mapping limit ty⟩] }
  | .advance i =>
    match s.calls[i]? with
    | none => s
    | some c =>
      { memo := (c.rest.step s.memo).2
        calls := s.calls.set i ⟨c.ty, (c.rest.step s.memo).1⟩
        mapped := c.rest.settled s.memo ++ s.mapped }

def run (limit : Nat) (s : Service) (moves : List Move) : Service := moves.foldl (step limit) s

/-- The invariant of a service. -/
structure Sound (limit : Nat) (s : Service) : Prop where
  memo : s.memo.Sound limit
  mem_mapped : ∀ ty, ty ∈ s.mapped ↔ ty ∈ s.memo.types
  origin : ∀ ty ∈ s.memo.types, ∃ asked ∈ s.calls.map Call.ty, Maps limit asked ty
  bounded : ∀ c ∈ s.calls, c.rest.Bounded c.ty.nodes (2 * c.ty.nodes)
  yields : ∀ c ∈ s.calls,
    c.rest.Yields limit (ofType limit c.ty) {t | Maps limit c.ty t} {t | t ∈ s.memo.types}

variable {limit : Nat} {s : Service}

theorem sound_empty (limit : Nat) : Sound limit {} where
  memo := .empty limit
  mem_mapped _ := Iff.rfl
  origin ty h := by cases h
  bounded c h := by cases h
  yields c h := by cases h

theorem Sound.call (hs : s.Sound limit) (ty : Ty) : (s.step limit (.call ty)).Sound limit where
  memo := hs.memo
  mem_mapped := hs.mem_mapped
  origin t ht := by
    obtain ⟨asked, hasked, hmaps⟩ := hs.origin t ht
    exact ⟨asked, by simp [step, hasked], hmaps⟩
  bounded c hc := by
    obtain hc | hc := List.mem_append.mp hc
    · exact hs.bounded c hc
    · obtain rfl := List.mem_singleton.mp hc
      exact bounded_mapping limit ty
  yields c hc := by
    obtain hc | hc := List.mem_append.mp hc
    · exact hs.yields c hc
    · obtain rfl := List.mem_singleton.mp hc
      exact yields_mapping limit ty _

section

variable {i : Nat} {c : Call}

theorem step_advance (hi : s.calls[i]? = some c) :
    s.step limit (.advance i) =
      { memo := (c.rest.step s.memo).2
        calls := s.calls.set i ⟨c.ty, (c.rest.step s.memo).1⟩
        mapped := c.rest.settled s.memo ++ s.mapped } := by
  rw [step, hi]

theorem step_advance_of_none (hi : s.calls[i]? = none) : s.step limit (.advance i) = s := by
  rw [step, hi]

theorem map_ty_set (hi : s.calls[i]? = some c) (rest : Request Layout) :
    (s.calls.set i ⟨c.ty, rest⟩).map Call.ty = s.calls.map Call.ty := by
  obtain ⟨hlt, rfl⟩ := List.getElem?_eq_some_iff.mp hi
  rw [List.map_set, ← List.getElem_map Call.ty (h := by simpa using hlt), List.set_getElem_self]

/-- One more step of a call keeps the service sound. -/
theorem Sound.advance (hs : s.Sound limit) (i : Nat) : (s.step limit (.advance i)).Sound limit := by
  cases hi : s.calls[i]? with
  | none => rwa [step_advance_of_none hi]
  | some c =>
    have hc : c ∈ s.calls := List.mem_of_getElem? hi
    obtain ⟨hadv, hrest⟩ := (hs.yields c hc).step hs.memo
    rw [step_advance hi]
    constructor
    case memo => exact hadv.sound
    case mem_mapped =>
      intro ty
      rw [List.mem_append, hadv.mem_types, hs.mem_mapped]
    case origin =>
      intro ty hty
      rw [map_ty_set hi]
      obtain hty | hty := hadv.origin ty hty
      · exact hs.origin ty hty
      · exact ⟨c.ty, List.mem_map_of_mem hc, hty⟩
    case bounded =>
      intro c' hc'
      obtain hc' | rfl := List.mem_or_eq_of_mem_set hc'
      · exact hs.bounded c' hc'
      · exact ((hs.bounded c hc).step s.memo).mono (Nat.le_refl _) (Nat.sub_le ..)
    case yields =>
      intro c' hc'
      obtain hc' | rfl := List.mem_or_eq_of_mem_set hc'
      · exact (hs.yields c' hc').mono fun ty hty => (hadv.mem_types ty).mpr (.inr hty)
      · exact hrest

theorem Sound.step (hs : s.Sound limit) (move : Move) : (s.step limit move).Sound limit := by
  cases move with
  | call ty => exact hs.call ty
  | advance i => exact hs.advance i

theorem Sound.run (hs : s.Sound limit) (moves : List Move) : (s.run limit moves).Sound limit := by
  induction moves generalizing s with
  | nil => exact hs
  | cons move moves ih => exact ih (hs.step move)

/-- Entries stay as they are. -/
theorem Sound.find?_step (hs : s.Sound limit) (move : Move) {ty : Ty}
    (h : s.memo.find? ty = some l) : (s.step limit move).memo.find? ty = some l := by
  cases move with
  | call other => exact h
  | advance i =>
    cases hi : s.calls[i]? with
    | none => rwa [step_advance_of_none hi]
    | some c =>
      obtain ⟨hadv, -⟩ := (hs.yields c (List.mem_of_getElem? hi)).step hs.memo
      rw [step_advance hi]
      exact hadv.find?_eq ty l h

theorem Sound.find?_run (hs : s.Sound limit) (moves : List Move) {ty : Ty}
    (h : s.memo.find? ty = some l) : (s.run limit moves).memo.find? ty = some l := by
  induction moves generalizing s with
  | nil => exact h
  | cons move moves ih => exact ih (hs.step move) (hs.find?_step move h)

theorem getElem?_calls_advance (limit : Nat) (hi : s.calls[i]? = some c) :
    (s.step limit (.advance i)).calls[i]? = some ⟨c.ty, (c.rest.step s.memo).1⟩ := by
  rw [step_advance hi]
  exact List.getElem?_set_self (List.getElem?_eq_some_iff.mp hi).1

/-- A move of another request leaves a request as it is. -/
theorem getElem?_calls_step (hi : s.calls[i]? = some c) {move : Move} (h : move ≠ .advance i) :
    (s.step limit move).calls[i]? = some c := by
  cases move with
  | call ty =>
    have hlt : i < s.calls.length := (List.getElem?_eq_some_iff.mp hi).1
    rw [← hi]
    exact List.getElem?_append_left hlt
  | advance j =>
    have hne : j ≠ i := by
      rintro rfl
      exact h rfl
    cases hj : s.calls[j]? with
    | none => rwa [step_advance_of_none hj]
    | some c' =>
      rw [step_advance hj, ← hi]
      exact List.getElem?_set_ne hne

/-- A request has its answer once it has made enough accesses, whatever comes between them. -/
theorem answered_run {size n : Nat} (hi : s.calls[i]? = some c) (hc : c.rest.Bounded size n)
    {moves : List Move} (hn : n ≤ moves.count (.advance i)) :
    ∃ c', (s.run limit moves).calls[i]? = some c' ∧ c'.ty = c.ty ∧ c'.rest.answer?.isSome := by
  -- The accesses that are left go down with each move of the request, and stay with the others.
  induction moves generalizing s c n with
  | nil =>
    obtain rfl := Nat.le_zero.mp hn
    obtain ⟨r, hr⟩ := hc.answered
    exact ⟨c, hi, rfl, by rw [hr]; rfl⟩
  | cons move moves ih =>
    by_cases hmove : move = .advance i
    · subst hmove
      rw [List.count_cons_self] at hn
      have hnext := getElem?_calls_advance limit hi
      exact ih (c := ⟨c.ty, (c.rest.step s.memo).1⟩) hnext (hc.step s.memo)
        (Nat.sub_le_of_le_add hn)
    · rw [List.count_cons_of_ne hmove] at hn
      exact ih (getElem?_calls_step hi hmove) hc hn

/-- A request whose accesses nothing comes between. -/
theorem memo_run_replicate {size n : Nat} (hi : s.calls[i]? = some c)
    (hc : c.rest.Bounded size n) :
    (s.run limit (List.replicate n (.advance i))).memo = (c.rest.alone s.memo).2 := by
  induction n generalizing s c with
  | zero =>
    obtain ⟨r, hr⟩ := hc.answered
    rw [Request.alone_of_answer? hr]
    rfl
  | succ n ih =>
    have hmemo : (s.step limit (.advance i)).memo = (c.rest.step s.memo).2 := by
      rw [step_advance hi]
    rw [← Request.alone_step, ← hmemo]
    exact ih (getElem?_calls_advance limit hi) (hc.step s.memo)

end

end Service

/-- Other requests, and what they leave behind, cannot be seen. Requests are made and their accesses
taken in any order. An answer is the one of an empty table, and each request gets one within two
accesses for each node of its type. Entries never change, parts of a type that has one have one too,
and their number is that of the types for which a layout was given out. Once all requests have their
answers, these are the types that the requests map by themselves. A request whose accesses nothing
comes between leaves the table that `Memo.ofType` gives. -/
theorem shared_table_unobservable (limit : Nat) (moves : List Move) :
    let s := Service.run limit {} moves
    (∀ c ∈ s.calls, ∀ r, c.rest.answer? = some r → r = (Memo.ofType limit c.ty {}).1) ∧
      (∀ i c more, s.calls[i]? = some c → 2 * c.ty.nodes ≤ more.count (.advance i) →
        ∃ c', (s.run limit more).calls[i]? = some c' ∧ c'.ty = c.ty ∧ c'.rest.answer?.isSome) ∧
      (∀ more ty l, s.memo.find? ty = some l → (s.run limit more).memo.find? ty = some l) ∧
      (∀ ty ∈ s.memo.types, ∀ part ∈ ty.components, part ∈ s.memo.types) ∧
      s.memo.size = s.mapped.toFinset.card ∧
      ((∀ c ∈ s.calls, c.rest.answer?.isSome) →
        s.memo.size = {t | ∃ c ∈ s.calls, Maps limit c.ty t}.ncard) ∧
      ∀ ty, (s.run limit (.call ty :: .replicate (2 * ty.nodes) (.advance s.calls.length))).memo =
        (Memo.ofType limit ty s.memo).2 := by
  intro s
  have hs : s.Sound limit := (Service.sound_empty limit).run moves
  have hsize : s.memo.types.toFinset.card = s.memo.size := by
    rw [List.toFinset_card_of_nodup hs.memo.nodup, Memo.length_types]
  refine ⟨fun c hc r hr => ?_, fun i c more hi hmore => ?_, fun more ty l => hs.find?_run more,
    hs.memo.closed, ?_, fun hall => ?_, fun ty => ?_⟩
  · rw [ofType_empty]
    exact ((hs.yields c hc).of_answer? hr).1
  · exact Service.answered_run hi (hs.bounded c (List.mem_of_getElem? hi)) hmore
  · rw [← hsize]
    congr 1
    ext ty
    rw [List.mem_toFinset, List.mem_toFinset, hs.mem_mapped]
  · -- A request that has its answer has put in all that it maps, and nothing comes from elsewhere.
    have hset : {t | ∃ c ∈ s.calls, Maps limit c.ty t} = s.memo.types.toFinset := by
      ext t
      rw [Finset.mem_coe, List.mem_toFinset]
      constructor
      · rintro ⟨c, hc, hmaps⟩
        obtain ⟨r, hr⟩ := Option.isSome_iff_exists.mp (hall c hc)
        exact ((hs.yields c hc).of_answer? hr).2 hmaps
      · intro ht
        obtain ⟨asked, hasked, hmaps⟩ := hs.origin t ht
        obtain ⟨c, hc, rfl⟩ := List.mem_map.mp hasked
        exact ⟨c, hc, hmaps⟩
    rw [hset, Set.ncard_coe_finset, hsize]
  · rw [← alone_mapping]
    exact Service.memo_run_replicate (s := s.step limit (.call ty)) (c := ⟨ty, mapping limit ty⟩)
      List.getElem?_concat_length (bounded_mapping limit ty)

/-- Two requests miss the same array and both compute it; the second to keep the layout of the
elements is the first to keep that of the array. A third one fails after its first field. -/
def race : List Move :=
  [.call (.array 2 (.int 16)), .call (.array 2 (.int 16)), .call (.struct false [.int 8, .half])]
    ++ [0, 1, 0, 1, 2, 0, 1, 2, 2, 1, 2, 0].map .advance

/-- Each request is answered as if it were alone. -/
theorem race_unobservable :
    let s := Service.run 64 {} race
    s.calls.map (·.rest.answer?) =
        [some (.ok (.array (.int 16) 2)), some (.ok (.array (.int 16) 2)),
          some (.error ⟨"half", .uncommonFloat⟩)] ∧
      s.mapped.length = 5 ∧ {t | ∃ c ∈ s.calls, Maps 64 c.ty t}.ncard = 3 := by
  obtain ⟨-, -, -, -, -, hsize, -⟩ := shared_table_unobservable 64 race
  exact ⟨rfl, rfl, (hsize (by decide)).symm⟩

end SafeIR.Layout
