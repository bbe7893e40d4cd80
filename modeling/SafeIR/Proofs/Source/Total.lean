import SafeIR.Proofs.Peg.Depth
import SafeIR.Proofs.Source.Blanks

/-!
# Matches of the grammar come to an end

No rule of the grammar comes back to itself without consuming a character, and no repeated item is
empty. So every match ends, and the depth that is computed from the length of a text is enough.
-/

namespace SafeIR.Source

open Peg (Cursor Expr Mode)
open Peg.Grammar

theorem Rule.ctorIdx_lt (r : Rule) : r.ctorIdx < 104 := by
  cases r <;> decide

/-- A check of all rules, in the order in which they are declared. -/
theorem Rule.forall_of_all {p : Rule → Bool}
    (h : (List.range 104).all (fun n => p (.ofNat n)) = true) (r : Rule) : p r = true := by
  have hr := List.all_eq_true.mp h r.ctorIdx (List.mem_range.mpr r.ctorIdx_lt)
  rwa [Rule.ofNat_ctorIdx] at hr

theorem bounded_body (r : Rule) : grammar.bounded (grammar.body r) = true :=
  Rule.forall_of_all (p := fun r => grammar.bounded (grammar.body r)) (by decide +kernel) r

theorem descends_rule (r : Rule) : grammar.descends levels (.rule r) = true :=
  Rule.forall_of_all (p := fun r => grammar.descends levels (.rule r)) (by decide +kernel) r

/-- **Matches end**: a rule comes to an outcome at every cursor, and a text's depth suffices. -/
theorem outcome_rule_ne_stuck (r : Rule) (m : Mode) (input : List Char) (offset : Nat) :
    grammar.outcome (depth input) m (.rule r) ⟨input, offset⟩ ≠ .stuck :=
  outcome_ne_stuck skipReaches bounded_body (descends_rule r) rfl m input offset

theorem exists_yields {e : Expr Rule} (hlevels : grammar.descends levels e = true)
    (he : grammar.bounded e = true) (m : Mode) (c : Cursor) : ∃ o, grammar.Yields m e c o :=
  ⟨_, yields_outcome (outcome_ne_stuck skipReaches bounded_body hlevels he m c.rest c.offset)⟩

theorem exists_yields_rule (r : Rule) (m : Mode) (c : Cursor) :
    ∃ o, grammar.Yields m (.rule r) c o :=
  exists_yields (descends_rule r) rfl m c

/-- A repetition matches at every cursor, if only the empty text. -/
theorem exists_yields_star {e : Expr Rule} (hlevels : grammar.descends levels (.star e) = true)
    (he : grammar.bounded (.star e) = true) (m : Mode) (c : Cursor) :
    ∃ next ts, grammar.Yields m (.star e) c (.ok next ts) := by
  obtain ⟨o, hne, d, hd⟩ := exists_yields hlevels he m c
  cases o with
  | stuck => exact absurd rfl hne
  | fail => exact absurd hd (outcome_star_ne_fail d c)
  | ok next ts => exact ⟨next, ts, hne, d, hd⟩

end SafeIR.Source
