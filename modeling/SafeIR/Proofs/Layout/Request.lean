import SafeIR.Layout.Memo
import SafeIR.Proofs.Result

/-!
# Accesses to a table of layouts

A request for the layout of a type, cut at its accesses to the table. It looks a type up, computes
the layouts of the parts if the type is not there, and then keeps what it has found, unless another
request was faster. Between two accesses the table may change in any way.

`alone_mapping` says that a request which nothing comes between is `Memo.ofType`, on any table.
`bounded_mapping` says that a request makes at most two accesses for each node of its type.
-/

namespace SafeIR

namespace IR.Ty

/-- The types that a type is made of, in the order in which their layouts are computed. -/
def components : Ty → List Ty
  | array _ elem => [elem]
  | struct _ fields => fields
  | function ret params _ => params ++ [ret]
  | _ => []

mutual

/-- How many types are written in a type, itself included. -/
def nodes : Ty → Nat
  | array _ elem => elem.nodes + 1
  | struct _ fields => nodesOfAll fields + 1
  | function ret params _ => nodesOfAll params + ret.nodes + 1
  | _ => 1

def nodesOfAll : List Ty → Nat
  | [] => 0
  | ty :: tys => ty.nodes + nodesOfAll tys

end

end IR.Ty

namespace Layout

open IR (Ty)

namespace Memo

variable {m : Memo} {ty other : Ty} {l : Layout}

/-- The types that have an entry. -/
def types (m : Memo) : List Ty := m.entries.map Prod.fst

theorem length_types (m : Memo) : m.types.length = m.size := List.length_map ..

theorem types_insert : (m.insert ty l).types = ty :: m.types := rfl

theorem find?_insert_self : (m.insert ty l).find? ty = some l := by
  simp [find?, insert]

theorem find?_insert_of_ne (h : ty ≠ other) : (m.insert ty l).find? other = m.find? other := by
  simp [find?, insert, h]

theorem mem_types_iff : ty ∈ m.types ↔ ∃ l, m.find? ty = some l := by
  obtain ⟨entries⟩ := m
  induction entries with
  | nil => simp [types, find?]
  | cons entry entries ih =>
    obtain ⟨first, l⟩ := entry
    change ty ∈ first :: types ⟨entries⟩ ↔ ∃ found, (insert ⟨entries⟩ first l).find? ty = some found
    by_cases h : first = ty
    · subst h
      simp [find?_insert_self]
    · rw [find?_insert_of_ne h, ← ih, List.mem_cons, or_iff_right (Ne.symm h)]

theorem find?_eq_none_iff : m.find? ty = none ↔ ty ∉ m.types := by
  rw [mem_types_iff, Option.eq_none_iff_forall_ne_some, not_exists]

/-- Add an entry, unless the type has one already; gives the entry that is there then. -/
def keep (m : Memo) (ty : Ty) (l : Layout) : Layout × Memo :=
  match m.find? ty with
  | some found => (found, m)
  | none => (l, m.insert ty l)

theorem keep_of_some {found : Layout} (h : m.find? ty = some found) :
    m.keep ty l = (found, m) := by
  rw [keep, h]

theorem keep_of_none (h : m.find? ty = none) : m.keep ty l = (l, m.insert ty l) := by
  rw [keep, h]

theorem find?_keep_of_ne (h : ty ≠ other) : (m.keep ty l).2.find? other = m.find? other := by
  cases hfind : m.find? ty with
  | some found => rw [keep_of_some hfind]
  | none => rw [keep_of_none hfind, find?_insert_of_ne h]

end Memo

/-- What is left to do of a computation that uses a table of layouts. -/
inductive Request (α : Type) where
  | done (r : Except UnsupportedType α)
  /-- Go on with what the table has for a type. -/
  | look (ty : Ty) (next : Option Layout → Request α)
  /-- Add an entry, unless the type has one already, and go on with the one that is there. -/
  | keep (ty : Ty) (l : Layout) (next : Layout → Request α)

namespace Request

variable {α β : Type}

/-- A failure ends the whole computation. -/
def bind : Request α → (α → Request β) → Request β
  | done (.ok a), f => f a
  | done (.error e), _ => done (.error e)
  | look ty next, f => look ty fun found => (next found).bind f
  | keep ty l next, f => keep ty l fun kept => (next kept).bind f

instance : Monad Request where
  pure a := done (.ok a)
  bind := bind

/-- The answer, if the request is done. -/
def answer? : Request α → Option (Except UnsupportedType α)
  | done r => some r
  | _ => none

/-- Make the next access. -/
def step (m : Memo) : Request α → Request α × Memo
  | done r => (done r, m)
  | look ty next => (next (m.find? ty), m)
  | keep ty l next => (next (m.keep ty l).1, (m.keep ty l).2)

/-- Make all accesses, with nothing between them. -/
def alone : Request α → Memo → Except UnsupportedType α × Memo
  | done r, m => (r, m)
  | look ty next, m => (next (m.find? ty)).alone m
  | keep ty l next, m => (next (m.keep ty l).1).alone (m.keep ty l).2

theorem alone_of_answer? {t : Request α} {r : Except UnsupportedType α} (h : t.answer? = some r)
    (m : Memo) : t.alone m = (r, m) := by
  cases t with
  | done =>
    cases h
    rfl
  | look | keep => cases h

theorem alone_step (t : Request α) (m : Memo) : (t.step m).1.alone (t.step m).2 = t.alone m := by
  cases t <;> rfl

end Request

/-! ## Requests for layouts -/

/-- The layout in the table, or else the one that `build` computes, which is kept. -/
def remember (ty : Ty) (build : Request Layout) : Request Layout :=
  .look ty fun
    | some l => pure l
    | none => do .keep ty (← build) pure

mutual

/-- Compute the layout of a type from the layouts of its parts. -/
def building (limit : Nat) : Ty → Request Layout
  | .array len elem => return array (← remember elem (building limit elem)) len
  | .struct packed fields => return struct packed (← buildings limit fields)
  | .function ret params varargs => do
    let params ← buildings limit params
    return function params (← remember ret (building limit ret)) varargs
  | ty => .done (ofLeaf limit ty)

/-- The layouts of several types, one after the other. -/
def buildings (limit : Nat) : List Ty → Request (List Layout)
  | [] => return []
  | ty :: tys => return (← remember ty (building limit ty)) :: (← buildings limit tys)

end

/-- The request for the layout of a type. -/
def mapping (limit : Nat) (ty : Ty) : Request Layout := remember ty (building limit ty)

/-! ## How many accesses a request makes -/

namespace Request

variable {α β : Type} {size n k : Nat}

/-- At most `n` accesses are left, and entries are added only for types of at most `size` nodes. -/
def Bounded (size : Nat) : Request α → (n : Nat) → Prop
  | done _, _ => True
  | look _ next, n => 0 < n ∧ ∀ found, (next found).Bounded size (n - 1)
  | keep ty _ next, n => 0 < n ∧ ty.nodes ≤ size ∧ ∀ kept, (next kept).Bounded size (n - 1)

theorem bounded_done {r : Except UnsupportedType α} : (done r).Bounded size n := trivial

namespace Bounded

variable {t : Request α}

theorem mono {size' n' : Nat} (h : t.Bounded size n) (hsize : size ≤ size') (hn : n ≤ n') :
    t.Bounded size' n' := by
  induction t generalizing n n' with
  | done => exact bounded_done
  | look ty next ih =>
    obtain ⟨hpos, h⟩ := h
    exact ⟨Nat.lt_of_lt_of_le hpos hn, fun found => ih found (h found) (Nat.sub_le_sub_right hn 1)⟩
  | keep ty l next ih =>
    obtain ⟨hpos, hty, h⟩ := h
    exact ⟨Nat.lt_of_lt_of_le hpos hn, Nat.le_trans hty hsize,
      fun kept => ih kept (h kept) (Nat.sub_le_sub_right hn 1)⟩

theorem bind {f : α → Request β} (h : t.Bounded size n) (hf : ∀ a, (f a).Bounded size k) :
    (t >>= f).Bounded size (n + k) := by
  induction t generalizing n with
  | done r =>
    cases r with
    | error e => exact bounded_done
    | ok a => exact (hf a).mono (Nat.le_refl size) (Nat.le_add_left k n)
  | look ty next ih =>
    obtain ⟨hpos, h⟩ := h
    refine ⟨Nat.add_pos_left hpos k, fun found => ?_⟩
    rw [Nat.sub_add_comm hpos]
    exact ih found (h found)
  | keep ty l next ih =>
    obtain ⟨hpos, hty, h⟩ := h
    refine ⟨Nat.add_pos_left hpos k, hty, fun kept => ?_⟩
    rw [Nat.sub_add_comm hpos]
    exact ih kept (h kept)

theorem bind_pure {f : α → β} (h : t.Bounded size n) :
    (t >>= fun a => pure (f a)).Bounded size n :=
  Bounded.bind (k := 0) (f := fun a => pure (f a)) h fun _ => bounded_done

theorem step (h : t.Bounded size n) (m : Memo) : (t.step m).1.Bounded size (n - 1) := by
  cases t with
  | done => exact bounded_done
  | look ty next => exact h.2 _
  | keep ty l next => exact h.2.2 _

theorem answered (h : t.Bounded size 0) : ∃ r, t.answer? = some r := by
  cases t with
  | done r => exact ⟨r, rfl⟩
  | look | keep => exact absurd h.1 (Nat.lt_irrefl 0)

/-- Entries of larger types stay as they are. -/
theorem find?_alone (h : t.Bounded size n) {ty : Ty} (hty : size < ty.nodes) (m : Memo) :
    (t.alone m).2.find? ty = m.find? ty := by
  induction t generalizing n m with
  | done => rfl
  | look other next ih => exact ih _ (h.2 _) m
  | keep other l next ih =>
    have hne : other ≠ ty := by
      rintro rfl
      exact absurd h.2.1 (Nat.not_le.mpr hty)
    exact (ih _ (h.2.2 _) _).trans (Memo.find?_keep_of_ne hne)

end Bounded

end Request

theorem nodes_pos (ty : Ty) : 0 < ty.nodes := by
  cases ty <;> simp [Ty.nodes]

theorem bounded_remember {ty : Ty} {build : Request Layout}
    (h : build.Bounded (ty.nodes - 1) (2 * (ty.nodes - 1))) :
    (remember ty build).Bounded ty.nodes (2 * ty.nodes) := by
  have hpos := nodes_pos ty
  have hsteps : 2 * ty.nodes - 1 = 2 * (ty.nodes - 1) + 1 := by omega
  refine ⟨Nat.mul_pos Nat.two_pos hpos, fun found => ?_⟩
  cases found with
  | some l => exact Request.bounded_done
  | none =>
    -- One access was to look the type up, and one is left to keep it.
    rw [hsteps]
    exact (h.mono (Nat.sub_le ..) (Nat.le_refl _)).bind
      fun _ => ⟨Nat.one_pos, Nat.le_refl _, fun _ => Request.bounded_done⟩

mutual

theorem bounded_building (limit : Nat) (ty : Ty) :
    (building limit ty).Bounded (ty.nodes - 1) (2 * (ty.nodes - 1)) := by
  cases ty with
  | array len elem =>
    rw [building, Ty.nodes]
    exact (bounded_remember (bounded_building limit elem)).bind_pure
  | struct packed fields =>
    rw [building, Ty.nodes]
    exact (bounded_buildings limit fields).bind_pure
  | function ret params varargs =>
    rw [building, Ty.nodes, Nat.add_sub_cancel, Nat.mul_add]
    have hparams := bounded_buildings limit params
    have hret := bounded_remember (bounded_building limit ret)
    exact (hparams.mono (Nat.le_add_right ..) (Nat.le_refl _)).bind
      fun _ => (hret.mono (Nat.le_add_left ..) (Nat.le_refl _)).bind_pure
  | _ => exact Request.bounded_done

theorem bounded_buildings (limit : Nat) (tys : List Ty) :
    (buildings limit tys).Bounded (Ty.nodesOfAll tys) (2 * Ty.nodesOfAll tys) := by
  cases tys with
  | nil => exact Request.bounded_done
  | cons ty tys =>
    rw [buildings, Ty.nodesOfAll, Nat.mul_add]
    have hty := bounded_remember (bounded_building limit ty)
    have htys := bounded_buildings limit tys
    exact (hty.mono (Nat.le_add_right ..) (Nat.le_refl _)).bind
      fun _ => (htys.mono (Nat.le_add_left ..) (Nat.le_refl _)).bind_pure

end

theorem bounded_mapping (limit : Nat) (ty : Ty) :
    (mapping limit ty).Bounded ty.nodes (2 * ty.nodes) :=
  bounded_remember (bounded_building limit ty)

/-! ## Requests that nothing comes between -/

section

variable {α β : Type}

theorem alone_bind (t : Request α) (f : α → Request β) (m : Memo) :
    (t >>= f).alone m =
      match t.alone m with
      | (.ok a, m') => (f a).alone m'
      | (.error e, m') => (.error e, m') := by
  induction t generalizing m with
  | done r =>
    cases r with
    | error e => rfl
    | ok a => rfl
  | look ty next ih => exact ih _ m
  | keep ty l next ih => exact ih _ _

theorem alone_pure (a : α) (m : Memo) : (pure a : Request α).alone m = (.ok a, m) := rfl

/-- A type is not added while its own layout is computed, so that there is no entry yet when it is
kept. -/
theorem alone_remember {ty : Ty} {build : Request Layout} {size n : Nat} (h : build.Bounded size n)
    (hsize : size < ty.nodes) (m : Memo) :
    (remember ty build).alone m = Memo.remembered ty build.alone m := by
  have hframe := h.find?_alone hsize m
  rw [remember, Request.alone, Memo.remembered]
  cases hfind : m.find? ty with
  | some l => rfl
  | none =>
    rw [hfind] at hframe
    dsimp only
    rw [alone_bind]
    generalize build.alone m = built at hframe
    obtain ⟨r, m'⟩ := built
    cases r with
    | error e => rfl
    | ok l =>
      -- Types that were added on the way are smaller than this one, which is still missing.
      change (pure (m'.keep ty l).1 : Request Layout).alone (m'.keep ty l).2 = _
      rw [Memo.keep_of_none hframe, alone_pure]

theorem alone_mapping_eq (limit : Nat) (ty : Ty) (m : Memo) :
    (mapping limit ty).alone m = Memo.remembered ty (building limit ty).alone m :=
  alone_remember (bounded_building limit ty) (Nat.sub_lt (nodes_pos ty) Nat.one_pos) m

end

mutual

/-- A request that runs alone is the function with the table. -/
theorem alone_mapping (limit : Nat) (ty : Ty) (m : Memo) :
    (mapping limit ty).alone m = Memo.ofType limit ty m := by
  rw [alone_mapping_eq]
  cases ty with
  | array len elem =>
    rw [Memo.ofType]
    congr 1
    funext m
    rw [building, alone_bind, ← mapping, alone_mapping limit elem]
    obtain ⟨r, m'⟩ := Memo.ofType limit elem m
    cases r <;> rfl
  | struct packed fields =>
    rw [Memo.ofType]
    congr 1
    funext m
    rw [building, alone_bind, alone_buildings limit fields]
    obtain ⟨r, m'⟩ := Memo.ofTypes limit fields m
    cases r <;> rfl
  | function ret params varargs =>
    rw [Memo.ofType]
    congr 1
    funext m
    rw [building, alone_bind, alone_buildings limit params]
    obtain ⟨ps, m'⟩ := Memo.ofTypes limit params m
    cases ps with
    | error e => rfl
    | ok ps =>
      dsimp only
      rw [alone_bind, ← mapping, alone_mapping limit ret]
      obtain ⟨r, m''⟩ := Memo.ofType limit ret m'
      cases r <;> rfl
  | _ => rfl

theorem alone_buildings (limit : Nat) (tys : List Ty) (m : Memo) :
    (buildings limit tys).alone m = Memo.ofTypes limit tys m := by
  cases tys with
  | nil => rfl
  | cons ty tys =>
    rw [buildings, Memo.ofTypes, alone_bind, ← mapping, alone_mapping limit ty]
    obtain ⟨l, m'⟩ := Memo.ofType limit ty m
    cases l with
    | error e => rfl
    | ok l =>
      dsimp only
      rw [alone_bind, alone_buildings limit tys]
      obtain ⟨r, m''⟩ := Memo.ofTypes limit tys m'
      cases r <;> rfl

end

end Layout

end SafeIR
