import SafeIR.Proofs.Peg.Outcome

/-!
# Trees and matches

Every tree that a match leaves behind records a match of the body of its rule
(`Grammar.Derives.recorded`). What the grammar says about the parts of a rule is thereby known of
every tree of that rule.
-/

namespace SafeIR.Peg

variable {R : Type}

/-- Rules that match in this mode show as trees. -/
def Mode.Shows (m : Mode) : Prop := m.atomic = false ∧ m.look = .none

/-- The tree comes from a match of the body of its rule, in a mode in which rules show. -/
def ParseTree.Recorded (g : Grammar R) : ParseTree R → Prop
  | .node r start input stop children =>
    ∃ (m : Mode) (next : Cursor), m.Shows ∧ next.offset = stop ∧
      g.Derives (m.enter (g.kind r)) (g.body r) ⟨input, start⟩ next children

namespace Grammar

variable {g : Grammar R} {m : Mode} {c next : Cursor} {trees : List (ParseTree R)} {r : R}
  {a b e : Expr R}

/-- A rule shows as one tree if it shows at all. -/
theorem mem_shown {t : ParseTree R} : t ∈ shown m r c next trees ↔
    m.Shows ∧ t = .node r c.offset c.rest next.offset trees := by
  obtain ⟨blanks, atomic, look⟩ := m
  cases atomic <;> cases look <;> simp [shown, Mode.Shows]

/-- The parts of a sequence match one behind the other, with blanks between them. -/
theorem Derives.of_seq (h : g.Derives m (.seq a b) c next trees) :
    ∃ mid ts us, g.Derives m a c mid ts ∧ g.Derives m b (g.blanks m mid) next us ∧
      trees = ts ++ us := by
  cases h with
  | seq ha hb => exact ⟨_, _, _, ha, hb, rfl⟩

theorem Derives.exists_tree (h : g.Derives m (.rule r) c next trees) (hm : m.Shows) :
    ∃ t ∈ trees, t.rule = r := by
  cases h with
  | rule hbody => exact ⟨_, mem_shown.mpr ⟨hm, rfl⟩, rfl⟩

/-- **Trees record matches**: every tree that a match leaves behind comes from a match of the body
of its rule. -/
theorem Derives.recorded (h : g.Derives m e c next trees) : ∀ t ∈ trees, t.Recorded g := by
  induction h with
  | lit _ | one _ | span | done | optNone | starNone | moreNone | not => simp
  | rule hbody _ =>
    intro t ht
    obtain ⟨hm, rfl⟩ := mem_shown.mp ht
    exact ⟨_, _, hm, rfl, hbody⟩
  | seq _ _ iha ihb | star _ _ iha ihb | more _ _ iha ihb =>
    exact List.forall_mem_append.mpr ⟨iha, ihb⟩
  | altLeft _ ih | altRight _ ih | opt _ ih => exact ih

theorem parse_recorded {input : List Char} {t : ParseTree R} (h : g.parse r input = .ok t) :
    t.Recorded g := by
  obtain ⟨next, ts, h⟩ := parse_eq_ok_iff.mp h
  exact (derives_of_outcome _ h).recorded t List.mem_cons_self

end Grammar

end SafeIR.Peg
