import SafeIR.Proofs.Peg.Yield

/-!
# The first character of a match

Often the next character of the input, or its end, decides what becomes of a match. `start` says so
where it is easy to see, and `yields_of_start` that it is right. It is what rules out the
alternatives of a choice that come before the one that matches.
-/

namespace SafeIR.Peg

variable {R : Type}

/-- What the next character says about a match. -/
inductive Start where
  /-- There is no match. -/
  | fails
  /-- The match is empty, and no rule shows. -/
  | empty
  | unknown
  deriving DecidableEq

/-- The outcome at a cursor, if the next character decides it. -/
def Start.outcome? (c : Cursor) : Start → Option (Outcome R)
  | fails => some .fail
  | empty => some (.ok c [])
  | unknown => none

namespace Grammar

/-- What the next character says, or the end of the input if there is none, with rules looked into
`n` levels down. -/
def start (g : Grammar R) : Nat → Expr R → Option Char → Start
  | 0, _, _ => .unknown
  | n + 1, e, x =>
    match e with
    | .lit text =>
      match text.toList with
      | [] => .empty
      | y :: _ => if x = some y then .unknown else .fails
    | .one p => if x.any p then .unknown else .fails
    | .span p => if x.any p then .unknown else .empty
    | .done => if x.isNone then .empty else .fails
    | .rule r =>
      match g.start n (g.body r) x with
      | .fails => .fails
      | .empty | .unknown => .unknown
    | .seq a b =>
      match g.start n a x with
      | .fails => .fails
      | .empty => g.start n b x
      | .unknown => .unknown
    | .alt a b =>
      match g.start n a x with
      | .fails => g.start n b x
      | .empty => .empty
      | .unknown => .unknown
    | .opt a | .star a | .more a =>
      match g.start n a x with
      | .fails => .empty
      | .empty | .unknown => .unknown
    | .not a =>
      match g.start n a x with
      | .fails => .empty
      | .empty => .fails
      | .unknown => .unknown

variable {g : Grammar R} {m : Mode} {c : Cursor} {e : Expr R} {o : Outcome R}

/-- Of an option or a repetition it is known that it is empty, where its item fails. -/
theorem start_part {a : Expr R} {n : Nat} {x : Option Char}
    (he : e = .opt a ∨ e = .star a ∨ e = .more a)
    (h : (g.start (n + 1) e x).outcome? c = some o) : g.start n a x = .fails ∧ o = .ok c [] := by
  have hstart : g.start (n + 1) e x = match g.start n a x with
      | .fails => .empty
      | .empty | .unknown => .unknown := by
    rcases he with rfl | rfl | rfl <;> rfl
  rw [hstart] at h
  cases ha : g.start n a x with
  | fails =>
    rw [ha] at h
    exact ⟨rfl, (Option.some.inj h).symm⟩
  | empty | unknown =>
    rw [ha] at h
    cases h

/-- A match comes to what the next character says, where there are no blanks. -/
theorem yields_of_start (hskip : g.skip c = c) {n : Nat}
    (h : (g.start n e c.rest.head?).outcome? c = some o) : g.Yields m e c o := by
  have hblanks : ∀ m, g.blanks m c = c := by
    intro m
    rw [blanks, hskip, ite_self]
  induction n generalizing m e o with
  | zero => cases h
  | succ n ih =>
    -- what is said about a part, the part comes to
    have fails {m : Mode} {a : Expr R} (ha : g.start n a c.rest.head? = .fails) :
        g.Yields m a c .fail := ih (by rw [ha]; rfl)
    have empty {m : Mode} {a : Expr R} (ha : g.start n a c.rest.head? = .empty) :
        g.Yields m a c (.ok c []) := ih (by rw [ha]; rfl)
    cases e with
    | lit text =>
      simp only [start] at h
      split at h
      next htext =>
        cases h
        exact .lit (by rw [htext]; rfl)
      next y ys htext =>
        split at h
        next => cases h
        next hne =>
          cases h
          refine .lit_fail ?_
          obtain ⟨rest, offset⟩ := c
          rw [htext]
          cases rest with
          | nil => rfl
          | cons x rest => exact if_neg fun heq => hne (congrArg some heq.symm)
    | one p =>
      simp only [start] at h
      split at h
      next => cases h
      next hx =>
        cases h
        refine .leaf ?_ (by simp)
        obtain ⟨rest, offset⟩ := c
        cases rest with
        | nil => rfl
        | cons x rest => exact if_neg hx
    | span p =>
      simp only [start] at h
      split at h
      next => cases h
      next hx =>
        cases h
        refine .leaf ?_ (by simp)
        obtain ⟨rest, offset⟩ := c
        cases rest with
        | nil => rfl
        | cons x rest => exact congrArg (Outcome.ok · []) (if_neg hx)
    | done =>
      simp only [start] at h
      split at h
      next hx =>
        cases h
        refine .leaf ?_ (by simp)
        obtain ⟨rest, offset⟩ := c
        cases rest with
        | nil => rfl
        | cons x rest => cases hx
      next hx =>
        cases h
        refine .leaf ?_ (by simp)
        obtain ⟨rest, offset⟩ := c
        cases rest with
        | nil => exact absurd rfl hx
        | cons x rest => rfl
    | rule r =>
      cases hbody : g.start n (g.body r) c.rest.head? with
      | fails =>
        simp only [start, hbody] at h
        cases h
        exact .rule_fail (fails hbody)
      | empty | unknown =>
        simp only [start, hbody] at h
        cases h
    | seq a b =>
      cases ha : g.start n a c.rest.head? with
      | fails =>
        simp only [start, ha] at h
        cases h
        exact .seq_fail (fails ha)
      | empty =>
        simp only [start, ha] at h
        have hb : g.Yields m b (g.blanks m c) o := by
          rw [hblanks]
          exact ih h
        simpa only [Outcome.prepend_nil] using (empty ha).seq hb
      | unknown =>
        simp only [start, ha] at h
        cases h
    | alt a b =>
      cases ha : g.start n a c.rest.head? with
      | fails =>
        simp only [start, ha] at h
        exact .alt_right (fails ha) (ih h)
      | empty =>
        simp only [start, ha] at h
        cases h
        exact .alt_left (empty ha)
      | unknown =>
        simp only [start, ha] at h
        cases h
    | opt a =>
      obtain ⟨ha, rfl⟩ := start_part (.inl rfl) h
      exact .opt_fail (fails ha)
    | star a =>
      obtain ⟨ha, rfl⟩ := start_part (.inr (.inl rfl)) h
      exact .star_fail (fails ha)
    | more a =>
      obtain ⟨ha, rfl⟩ := start_part (.inr (.inr rfl)) h
      refine .more_fail ?_
      rw [hblanks]
      exact fails ha
    | not a =>
      cases ha : g.start n a c.rest.head? with
      | fails =>
        simp only [start, ha] at h
        cases h
        exact .not (fails ha)
      | empty =>
        simp only [start, ha] at h
        cases h
        exact .not_fail (empty ha)
      | unknown =>
        simp only [start, ha] at h
        cases h

theorem Yields.of_fails {n : Nat} (h : g.start n e c.rest.head? = .fails) (hskip : g.skip c = c) :
    g.Yields m e c .fail :=
  yields_of_start hskip (by rw [h]; rfl)

theorem Yields.of_empty {n : Nat} (h : g.start n e c.rest.head? = .empty) (hskip : g.skip c = c) :
    g.Yields m e c (.ok c []) :=
  yields_of_start hskip (by rw [h]; rfl)

/-- Two matches, one behind the other and the blanks that follow it. -/
theorem Yields.andThen {a b : Expr R} {next next' last : Cursor} {ts us : List (ParseTree R)}
    (ha : g.Yields m a c (.ok next ts)) (hblanks : g.blanks m next = next')
    (hb : g.Yields m b next' (.ok last us)) : g.Yields m (.seq a b) c (.ok last (ts ++ us)) := by
  subst hblanks
  exact ha.seq hb

/-- One more item of a repetition, behind blanks. -/
theorem Yields.moreThen {c' next last : Cursor} {ts us : List (ParseTree R)}
    (hblanks : g.blanks m c = c') (he : g.Yields m e c' (.ok next ts))
    (hmore : g.Yields m (.more e) next (.ok last us)) :
    g.Yields m (.more e) c (.ok last (ts ++ us)) := by
  subst hblanks
  exact he.more hmore

/-- A choice comes to an alternative if those before it fail. -/
theorem Yields.any {es : List (Expr R)} {k : Nat} (hk : es[k]? = some e)
    (hbefore : ∀ a ∈ es.take k, g.Yields m a c .fail) {next : Cursor} {ts : List (ParseTree R)}
    (h : g.Yields m e c (.ok next ts)) : g.Yields m (.any es) c (.ok next ts) := by
  induction es generalizing k with
  | nil => cases hk
  | cons a es ih =>
    cases es with
    | nil =>
      cases k with
      | zero =>
        cases hk
        exact h
      | succ k => cases hk
    | cons b es =>
      cases k with
      | zero =>
        cases hk
        exact h.alt_left
      | succ k =>
        rw [List.take_succ_cons, List.forall_mem_cons] at hbefore
        exact .alt_right hbefore.1 (ih hk hbefore.2)

/-- Where there are no blanks, a repetition starts like it goes on. -/
theorem Yields.star_of_more (hblanks : g.blanks m c = c) (h : g.Yields m (.more e) c o) :
    g.Yields m (.star e) c o := by
  obtain ⟨hne, d, hd⟩ := h
  refine ⟨hne, d, ?_⟩
  cases d with
  | zero => exact hd
  | succ d =>
    rw [outcome, hblanks] at hd
    rw [outcome]
    exact hd

end Grammar

end SafeIR.Peg
