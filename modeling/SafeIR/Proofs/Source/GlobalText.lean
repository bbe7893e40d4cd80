import SafeIR.Proofs.Source.TypeText
import SafeIR.Proofs.Text.Utf8

/-!
# Declared types read back

A module may consist of one global that is defined elsewhere, and then all that varies is the type
of it. Whatever the type, the text of the module is read as this one global, with this type.
-/

namespace SafeIR.Source

open Peg (Cursor Expr Mode ParseTree size)
open Peg.Grammar

/-- A global of a type, defined elsewhere. -/
def externalOf (t : Ty) : Global :=
  { name := "g", ty := t, isConstant := false, initializer := none, linkage := ["external"]
    align := none, offset := 0 }

theorem yields_at_end {e : Expr Rule} (h : grammar.start 32 e none = .empty) (stop : Nat) :
    grammar.Yields {} e ⟨[], stop⟩ (.ok ⟨[], stop⟩ []) := .of_empty h rfl

/-- The linkage is one word: none starts like the word behind it. -/
theorem yields_linkage {z : List Char} (hz : z.head? = some 'g') (offset : Nat) :
    grammar.Yields {} (.star (.rule .linkageWord)) ⟨"external".toList ++ ' ' :: z, offset⟩
      (.ok ⟨' ' :: z, offset + 8⟩ [leafTree .linkageWord "external".toList (' ' :: z) offset]) := by
  obtain ⟨rest, rfl⟩ := List.head?_eq_some_iff.mp hz
  have hword : grammar.Yields (Mode.enter {} .atomic) (grammar.body .linkageWord)
      ⟨"external".toList ++ ' ' :: 'g' :: rest, offset⟩
      (.ok ⟨' ' :: 'g' :: rest, offset + 8⟩ []) := by
    -- of the words before it, one starts with all of it, and goes on
    refine .any (k := 3) rfl ?_ (.lit rfl)
    show ∀ a ∈ [Expr.lit "private", .lit "internal", .lit "externally_initialized"], _
    simp only [List.forall_mem_cons, List.not_mem_nil, false_implies, implies_true, and_true]
    exact ⟨.lit_fail rfl, .lit_fail rfl, .lit_fail rfl⟩
  have hg : grammar.start 32 (.rule .linkageWord) (some 'g') = .fails := by decide
  have hmore : grammar.Yields {} (.more (.rule .linkageWord)) ⟨' ' :: 'g' :: rest, offset + 8⟩
      (.ok ⟨' ' :: 'g' :: rest, offset + 8⟩ []) := .more_fail (.of_fails hg rfl)
  exact (Yields.rule hword).star hmore

/-- What stands behind the linkage. -/
def kindChars (t : Ty) : List Char := "global".toList ++ ' ' :: t.chars

/-- What stands behind the name. -/
def declarationChars (t : Ty) : List Char :=
  ' ' :: '=' :: ' ' :: ("external".toList ++ ' ' :: kindChars t)

/-- The text of a module that has this global only. -/
def externalChars (t : Ty) : List Char := '@' :: ['g'] ++ declarationChars t

/-- The text of one global is matched as a global, and read as such. -/
theorem exists_global {t : Ty} (h : t.isSpelled = true) :
    ∃ stop children,
      grammar.Yields {} (.rule .globalDef) ⟨externalChars t, 0⟩
        (.ok ⟨[], stop⟩ [.node .globalDef 0 (externalChars t) stop children]) ∧
      Parse.global (.node .globalDef 0 (externalChars t) stop children) = .ok (externalOf t) := by
  obtain ⟨stop, children, htype, hread⟩ := reads_type t h [] [] 21 .done
  rw [List.append_nil] at htype hread
  have hblank : ∀ x ∈ (declarationChars t).head?, Rule.isIdentChar x = false := by
    intro x hx
    cases hx
    rfl
  have hname : grammar.Yields {} (.rule .globalIdent) ⟨'@' :: ['g'] ++ declarationChars t, 0⟩
      (.ok ⟨declarationChars t, 2⟩ [leafTree .globalIdent ('@' :: ['g']) (declarationChars t) 0]) :=
    yields_ident rfl rfl (by decide) (List.all_eq_true.mp (by decide)) hblank 0
  have hequals : grammar.Yields {} (.lit "=")
      ⟨'=' :: ' ' :: ("external".toList ++ ' ' :: kindChars t), 3⟩
      (.ok ⟨' ' :: ("external".toList ++ ' ' :: kindChars t), 4⟩ []) := .lit rfl
  have hlinkage := yields_linkage (z := kindChars t) rfl 5
  have hkind : grammar.Yields {} (.rule .globalKind) ⟨kindChars t, 14⟩
      (.ok ⟨' ' :: t.chars, 20⟩ [leafTree .globalKind "global".toList (' ' :: t.chars) 14]) :=
    .rule (.alt_left (.lit rfl))
  -- nothing follows the type: no initial value, and no suffix
  have hinit : grammar.Yields {} (.opt (.rule .globalInit)) ⟨[], stop⟩ (.ok ⟨[], stop⟩ []) :=
    yields_at_end (by decide) stop
  have hsuffix : grammar.Yields {} (.star (.rule .globalSuffix)) ⟨[], stop⟩ (.ok ⟨[], stop⟩ []) :=
    yields_at_end (by decide) stop
  have hskip : grammar.skip ⟨' ' :: t.chars, 20⟩ = ⟨t.chars, 21⟩ := by
    have := skip_chars h [] 21
    rwa [List.append_nil] at this
  have hdef := hname.andThen rfl (hequals.andThen rfl (hlinkage.andThen rfl (hkind.andThen hskip
    (htype.andThen rfl (hinit.andThen rfl hsuffix)))))
  have hrule := yields_normal (r := .globalDef) rfl rfl hdef
  refine ⟨stop, _, hrule, ?_⟩
  show (do
    let ty ← Parse.type (.node .type 21 t.chars stop children)
    return ({ name := Parse.identName (leafTree .globalIdent ['@', 'g'] _ 0), ty, align := none
              isConstant := (leafTree .globalKind "global".toList _ 14).text == "constant" || false
              initializer := none
              linkage := [(leafTree .linkageWord "external".toList _ 5).text]
              offset := 0 } : Global)) = Except.ok _
  rw [hread, identName_leafTree _ _ (List.all_eq_true.mp (by decide)), ParseTree.text,
    ParseTree.text, chars_leafTree, chars_leafTree]
  rfl

/-- Behind the only global there is nothing but the end. -/
theorem yields_module (input : List Char) {x : Char} {rest : List Char}
    (hinput : input = x :: rest) (hx : x ∉ blankChars)
    (hbefore : ∀ r ∈ [Rule.sourceFilename, .targetDecl, .typeDef],
      grammar.start 8 (.rule r) (some x) = .fails)
    {stop : Nat} {tree : ParseTree Rule}
    (h : grammar.Yields {} (.rule .globalDef) ⟨input, 0⟩ (.ok ⟨[], stop⟩ [tree])) :
    grammar.Yields {} (.rule .module) ⟨input, 0⟩
      (.ok ⟨[], stop⟩ [.node .module 0 input stop [tree, .node .endOfInput stop [] stop []]]) := by
  subst hinput
  have hskip := skip_cons hx rest 0
  have hitem : grammar.Yields {} Rule.topItem ⟨x :: rest, 0⟩ (.ok ⟨[], stop⟩ [tree]) := by
    refine .any (k := 3) rfl ?_ h
    show ∀ a ∈ [Rule.sourceFilename, .targetDecl, .typeDef].map Expr.rule, _
    rw [List.forall_mem_map]
    exact fun r hr => .of_fails (hbefore r hr) hskip
  have hmore : grammar.Yields {} (.more Rule.topItem) ⟨[], stop⟩ (.ok ⟨[], stop⟩ []) :=
    yields_at_end (by decide) stop
  have hend : grammar.Yields {} (.rule .endOfInput) ⟨[], stop⟩
      (.ok ⟨[], stop⟩ [.node .endOfInput stop [] stop []]) := .rule (.leaf rfl (by simp))
  have hstart : grammar.Yields {} (.lit "") ⟨x :: rest, 0⟩ (.ok ⟨x :: rest, 0⟩ []) := .lit rfl
  exact yields_normal rfl rfl (hstart.andThen hskip ((hitem.star hmore).andThen rfl hend))

theorem ofChars_externalChars {t : Ty} (h : t.isSpelled = true) :
    Module.ofChars (externalChars t) = .ok { globals := [externalOf t] } := by
  obtain ⟨stop, children, hglobal, hread⟩ := exists_global h
  have hmodule := yields_module (externalChars t) rfl (by decide) (by decide) hglobal
  have hparse := parse_eq_ok_iff.mpr
    ⟨_, [], hmodule.outcome_eq (outcome_rule_ne_stuck .module {} (externalChars t) 0)⟩
  have hitem : Parse.item {} (.node .globalDef 0 (externalChars t) stop children)
      = .ok { globals := [externalOf t] } := by
    show (do return { globals := [← Parse.global _] } : Read Module) = _
    rw [hread]
    rfl
  rw [Module.ofChars, hparse]
  show ([_, _] : List (ParseTree Rule)).foldlM Parse.item {} = _
  rw [List.foldlM_cons, hitem]
  rfl

theorem chars_external (t : Ty) :
    ("@g = external global " ++ t.text).toList = externalChars t := by
  rw [String.toList_append]
  rfl

/-- The bytes that declare a global by the text of its type are a module with this one global, and
its type is the one that was spelled. -/
theorem parse_external {t : Ty} (h : t.isSpelled = true) :
    Module.parse (Text.encode ("@g = external global " ++ t.text).toList)
      = .ok { globals := [externalOf t] } := by
  rw [chars_external, Module.parse, Text.decode_encode]
  dsimp only
  rw [ofChars_externalChars h]
  rfl

/-- Brackets of every kind next to each other, and a name that starts with a digit. -/
theorem parse_external_nested :
    Module.parse (Text.encode
        "@g = external global <2 x <\x7b [4 x x86_fp80], \x7b  \x7d, i8, %1a \x7d>>".toList)
      = .ok { globals := [externalOf (.vector 2 (.struct true
          [.array 4 .x86Fp80, .struct false [], .int 8, .named "1a"]))] } := by
  have htext : "@g = external global <2 x <\x7b [4 x x86_fp80], \x7b  \x7d, i8, %1a \x7d>>"
      = "@g = external global " ++ (Ty.vector 2 (.struct true
          [.array 4 .x86Fp80, .struct false [], .int 8, .named "1a"])).text := by decide
  rw [htext]
  exact parse_external (by decide)

end SafeIR.Source
