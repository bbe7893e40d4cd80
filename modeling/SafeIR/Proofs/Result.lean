import Mathlib.Data.List.Forall2

/-!
# Computations that may fail

Inversion of successful computations in `Except`: what a sequence, a traversal or a fold that
ended well says about its parts. Every proof about reading or lowering peels a computation apart
with these, and never opens the monad.
-/

namespace SafeIR

variable {ε α β γ σ ε' : Type} {xs : List α} {f : α → Except ε β} {ys : List β} {x : Except ε α}
  {R : α → β → Prop} {y : β}

/-- A sequence succeeds exactly when both parts do. -/
theorem bind_eq_ok {b : β} : x >>= f = .ok b ↔ ∃ a, x = .ok a ∧ f a = .ok b := by
  cases x with
  | error e => exact ⟨nofun, fun ⟨_, h, _⟩ => nomatch h⟩
  | ok a => exact ⟨fun h => ⟨a, rfl, h⟩, fun ⟨_, h, hf⟩ => Except.ok.inj h ▸ hf⟩

theorem ok_bind (a : α) (f : α → Except ε β) : (Except.ok a >>= f) = f a := rfl

theorem pure_eq_ok {a b : α} : (pure a : Except ε α) = .ok b ↔ a = b :=
  ⟨Except.ok.inj, congrArg Except.ok⟩

/-- A check in front of a computation. -/
theorem ite_error_eq_ok {p : Prop} [Decidable p] {e : ε} {a : α} :
    (if p then .error e else x) = .ok a ↔ ¬ p ∧ x = .ok a := by
  by_cases h : p <;> simp [h]

theorem mapError_eq_ok {f : ε → ε'} {a : α} : x.mapError f = .ok a ↔ x = .ok a := by
  cases x <;> simp [Except.mapError]

theorem mapError_bind (x : Except ε α) (f : α → Except ε β) (g : ε → ε') :
    (x >>= f).mapError g = x.mapError g >>= fun a => (f a).mapError g := by
  cases x <;> rfl

theorem map_eq_ok {f : α → β} {b : β} : x.map f = .ok b ↔ ∃ a, x = .ok a ∧ f a = b := by
  cases x <;> simp [Except.map]

/-- A traversal succeeds exactly when it does so at every element. -/
theorem mapM_eq_ok : xs.mapM f = .ok ys ↔ List.Forall₂ (fun x y => f x = .ok y) xs ys := by
  induction xs generalizing ys with
  | nil =>
    rw [List.mapM_nil, pure_eq_ok, List.forall₂_nil_left_iff]
    exact eq_comm
  | cons x xs ih =>
    rw [List.mapM_cons, bind_eq_ok, List.forall₂_cons_left_iff]
    constructor
    · rintro ⟨y, hy, h⟩
      obtain ⟨ys', hys, h⟩ := bind_eq_ok.mp h
      exact ⟨y, ys', hy, ih.mp hys, (pure_eq_ok.mp h).symm⟩
    · rintro ⟨y, ys', hy, hys, rfl⟩
      exact ⟨y, hy, bind_eq_ok.mpr ⟨ys', ih.mpr hys, rfl⟩⟩

theorem exists_mapM (h : ∀ x ∈ xs, ∃ y, f x = .ok y) : ∃ ys, xs.mapM f = .ok ys := by
  induction xs with
  | nil => exact ⟨[], rfl⟩
  | cons x xs ih =>
    obtain ⟨y, hy⟩ := h x List.mem_cons_self
    obtain ⟨ys, hys⟩ := ih fun x hx => h x (List.mem_cons_of_mem _ hx)
    exact ⟨y :: ys, mapM_eq_ok.mpr (.cons hy (mapM_eq_ok.mp hys))⟩

/-- A step that cannot fail may be taken after a traversal as well as in it. -/
theorem mapM_map (f : α → Except ε β) (g : β → γ) (xs : List α) :
    (xs.mapM fun x => (f x).map g) = (xs.mapM f).map (List.map g) := by
  induction xs with
  | nil => rfl
  | cons x xs ih =>
    rw [List.mapM_cons, List.mapM_cons, ih]
    cases f x with
    | error e => rfl
    | ok y => cases xs.mapM f <;> rfl

theorem mapM_mapError (f : α → Except ε β) (g : ε → ε') (xs : List α) :
    (xs.mapM fun x => (f x).mapError g) = (xs.mapM f).mapError g := by
  induction xs with
  | nil => rfl
  | cons x xs ih =>
    simp only [List.mapM_cons, mapError_bind, ih]
    rfl

/-- Every element on the right is related to one on the left. -/
theorem exists_of_mem_forall₂ (h : List.Forall₂ R xs ys) (hy : y ∈ ys) : ∃ x ∈ xs, R x y := by
  induction h with
  | nil => cases hy
  | cons hxy _ ih =>
    rcases List.mem_cons.mp hy with rfl | hy
    · exact ⟨_, List.mem_cons_self, hxy⟩
    · obtain ⟨x, hx, hR⟩ := ih hy
      exact ⟨x, List.mem_cons_of_mem _ hx, hR⟩

/-- Some result has a property exactly if some element has the one that goes with it. -/
theorem exists_mem_iff_of_forall₂ {p : α → Prop} {q : β → Prop} (h : List.Forall₂ R xs ys)
    (hR : ∀ x y, R x y → (q y ↔ p x)) : (∃ y ∈ ys, q y) ↔ ∃ x ∈ xs, p x := by
  induction h with
  | nil => simp
  | cons hxy _ ih => simp [hR _ _ hxy, ih]

/-- What is in one of many lists is in one of them. -/
theorem exists_mem_flatMap {g : α → List β} {p : β → Prop} :
    (∃ y ∈ xs.flatMap g, p y) ↔ ∃ x ∈ xs, ∃ y ∈ g x, p y := by
  induction xs with
  | nil => simp
  | cons x xs ih =>
    simp only [List.flatMap_cons, List.mem_append, or_and_right, exists_or, ih,
      List.exists_mem_cons_iff]

/-- Every result of a traversal is the result for some element. -/
theorem exists_of_forall₂ {S : β → γ → Prop} {zs : List γ}
    (h : List.Forall₂ (fun x z => ∃ y, R x y ∧ S y z) xs zs) :
    ∃ ys, List.Forall₂ R xs ys ∧ List.Forall₂ S ys zs := by
  induction h with
  | nil => exact ⟨[], .nil, .nil⟩
  | cons hxz _ ih =>
    obtain ⟨y, hx, hz⟩ := hxz
    obtain ⟨ys, hxs, hzs⟩ := ih
    exact ⟨y :: ys, .cons hx hxs, .cons hz hzs⟩

theorem exists_of_mem_mapM (h : xs.mapM f = .ok ys) (hy : y ∈ ys) : ∃ x ∈ xs, f x = .ok y := by
  obtain ⟨x, hx, hf⟩ := exists_of_mem_forall₂ (mapM_eq_ok.mp h) hy
  exact ⟨x, hx, hf⟩

theorem length_of_mapM (h : xs.mapM f = .ok ys) : ys.length = xs.length :=
  (mapM_eq_ok.mp h).length_eq.symm

/-- What a traversal leaves unchanged in every element it leaves unchanged in the list. -/
theorem map_of_mapM {g : α → γ} {g' : β → γ} (h : xs.mapM f = .ok ys)
    (hf : ∀ x y, f x = .ok y → g' y = g x) : ys.map g' = xs.map g := by
  have hall := mapM_eq_ok.mp h
  clear h
  induction hall with
  | nil => rfl
  | cons hxy _ ih => rw [List.map_cons, List.map_cons, hf _ _ hxy, ih]

/-- The result of a traversal at an index. -/
theorem getElem?_of_mapM {i : Nat} (h : xs.mapM f = .ok ys) (hy : ys[i]? = some y) :
    ∃ x, xs[i]? = some x ∧ f x = .ok y := by
  have hall := mapM_eq_ok.mp h
  clear h
  induction hall generalizing i with
  | nil => cases hy
  | cons hxy _ ih =>
    cases i with
    | zero =>
      cases hy
      exact ⟨_, rfl, hxy⟩
    | succ i => exact ih hy

theorem getElem?_of_mapM_left {i : Nat} {x : α} (h : xs.mapM f = .ok ys) (hx : xs[i]? = some x) :
    ∃ y, ys[i]? = some y ∧ f x = .ok y := by
  have hlt : i < ys.length := by
    rw [length_of_mapM h]
    exact (List.getElem?_eq_some_iff.mp hx).1
  obtain ⟨x', hx', hf⟩ := getElem?_of_mapM h (List.getElem?_eq_getElem hlt)
  cases hx.symm.trans hx'
  exact ⟨_, List.getElem?_eq_getElem hlt, hf⟩

/-- A traversal that numbers the elements uses the index of each as its number. -/
theorem getElem?_of_mapM_zipIdx {f : α × Nat → Except ε β} {i : Nat} (h : xs.zipIdx.mapM f = .ok ys)
    (hy : ys[i]? = some y) : ∃ x, xs[i]? = some x ∧ f (x, i) = .ok y := by
  obtain ⟨⟨x, j⟩, hx, hf⟩ := getElem?_of_mapM h hy
  rw [List.getElem?_zipIdx, Option.map_eq_some_iff] at hx
  obtain ⟨x', hx', heq⟩ := hx
  cases heq
  exact ⟨x, hx', by simpa using hf⟩

theorem map_of_mapM_zipIdx {f : α × Nat → Except ε β} {g : α → γ} {g' : β → γ}
    (h : xs.zipIdx.mapM f = .ok ys) (hf : ∀ x i y, f (x, i) = .ok y → g' y = g x) :
    ys.map g' = xs.map g := by
  rw [map_of_mapM (g := g ∘ Prod.fst) h fun x y hy => hf x.1 x.2 y hy, ← List.map_map,
    List.zipIdx_map_fst]

theorem option_mapM_eq_ok {x : Option α} {y : Option β} :
    x.mapM f = .ok y ↔ Option.Rel (fun a b => f a = .ok b) x y := by
  cases x with
  | none =>
    cases y with
    | none => exact ⟨fun _ => .none, fun _ => rfl⟩
    | some b => exact ⟨nofun, nofun⟩
  | some a =>
    show (some <$> f a) = .ok y ↔ _
    cases hfa : f a with
    | error e => exact ⟨nofun, fun h => by cases h with | some h => rw [hfa] at h; cases h⟩
    | ok b =>
      constructor
      · intro h
        cases h
        exact .some hfa
      · intro h
        cases h with
        | some h =>
          rw [hfa] at h
          cases h
          rfl

/-- A property that every step of a fold keeps holds at its end. -/
theorem foldlM_invariant {P : σ → Prop} {f : σ → α → Except ε σ} {s t : σ}
    (h : xs.foldlM f s = .ok t) (hs : P s) (hf : ∀ x ∈ xs, ∀ a b, P a → f a x = .ok b → P b) :
    P t := by
  induction xs generalizing s with
  | nil =>
    cases h
    exact hs
  | cons x xs ih =>
    rw [List.foldlM_cons] at h
    obtain ⟨s', hx, hrest⟩ := bind_eq_ok.mp h
    exact ih hrest (hf x List.mem_cons_self s s' hs hx)
      fun y hy => hf y (List.mem_cons_of_mem x hy)

/-- Folds with functions that agree on the elements. -/
theorem foldlM_congr {f g : σ → α → Except ε σ} (h : ∀ x ∈ xs, ∀ s, f s x = g s x) {s : σ} :
    xs.foldlM f s = xs.foldlM g s := by
  induction xs generalizing s with
  | nil => rfl
  | cons x xs ih =>
    rw [List.foldlM_cons, List.foldlM_cons, h x List.mem_cons_self]
    exact bind_congr fun _ => ih fun y hy => h y (List.mem_cons_of_mem x hy)

/-- A fold fails at the first element that its function fails at. -/
theorem foldlM_eq_error {f : σ → α → Except ε σ} {s : σ} {e : ε} :
    xs.foldlM f s = .error e ↔ ∃ before x after t, xs = before ++ x :: after ∧
      before.foldlM f s = .ok t ∧ f t x = .error e := by
  constructor
  · intro h
    induction xs generalizing s with
    | nil => cases h
    | cons y ys ih =>
      rw [List.foldlM_cons] at h
      cases hy : f s y with
      | error e' =>
        rw [hy] at h
        cases h
        exact ⟨[], y, ys, s, rfl, rfl, hy⟩
      | ok s' =>
        rw [hy] at h
        obtain ⟨before, x, after, t, rfl, hbefore, hx⟩ := ih h
        refine ⟨y :: before, x, after, t, rfl, ?_, hx⟩
        rwa [List.foldlM_cons, hy]
  · rintro ⟨before, x, after, t, rfl, hbefore, hx⟩
    rw [List.foldlM_append, hbefore, ok_bind, List.foldlM_cons, hx]
    rfl

/-! ## Failures -/

/-- If the computation fails, then with one of these. -/
def FailsWith (P : ε → Prop) (x : Except ε α) : Prop := ∀ e, x = .error e → P e

namespace FailsWith

variable {P Q : ε → Prop}

theorem ok (a : α) : FailsWith P (.ok a) := by
  intro e h
  cases h

theorem error {e : ε} (h : P e) : FailsWith P (.error e : Except ε α) := by
  intro e' he
  cases he
  exact h

theorem imp (h : FailsWith P x) (hPQ : ∀ e, P e → Q e) : FailsWith Q x :=
  fun e he => hPQ e (h e he)

theorem mapError {y : Except ε' α} {f : ε' → ε} (h : ∀ e, y = .error e → P (f e)) :
    FailsWith P (y.mapError f) := by
  cases y with
  | ok a => exact ok a
  | error e => exact error (h e rfl)

/-- The second part matters only behind a success of the first. -/
theorem bind (hx : FailsWith P x) (hf : ∀ a, x = .ok a → FailsWith P (f a)) :
    FailsWith P (x >>= f) := by
  cases x with
  | ok a => exact hf a rfl
  | error e => exact error (hx e rfl)

theorem mapM (h : ∀ x ∈ xs, FailsWith P (f x)) : FailsWith P (xs.mapM f) := by
  induction xs with
  | nil => exact ok []
  | cons x xs ih =>
    rw [List.mapM_cons]
    refine bind (h x List.mem_cons_self) fun y _ => ?_
    refine bind (ih fun z hz => h z (List.mem_cons_of_mem x hz)) fun ys _ => ?_
    exact ok (y :: ys)

end FailsWith

/-- The computation ends with an answer that passes the test. -/
def okAnd (x : Except ε α) (p : α → Bool) : Bool :=
  match x with
  | .ok a => p a
  | .error _ => false

theorem exists_of_okAnd {p : α → Bool} (h : okAnd x p = true) : ∃ a, x = .ok a ∧ p a = true := by
  cases x with
  | error e => cases h
  | ok a => exact ⟨a, rfl, h⟩

end SafeIR
