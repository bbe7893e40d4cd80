import Mathlib.Computability.Language
import SafeIR.Intrinsic.Lookup

/-!
# Names of intrinsics with types behind them

The types behind the name of an intrinsic are words of a regular language, and `isTypeSuffix` is an
automaton for it: three of its states are the language itself, the language behind a `v`, and the
language behind a `v` and some digits (`isTypeSuffixFrom_iff`).

Looking up a name takes types away from its end until what is left is in the catalog. No word of the
language has a dot, so a name can be taken apart in one way only, and the first name that is found
is the longest of all that fit (`lookUpParts_finds`).
-/

namespace SafeIR.Intrinsic

open scoped Computability

variable {cs : List Char} {entries : List Entry} {s : String} {c : Char} {e : Entry}

/-! ## Types as words -/

/-- The words `[0-9]+`. -/
def digits : Language Char := {w | w ≠ [] ∧ ∀ c ∈ w, c.isDigit = true}

/-- The words `16|32|64|80|128`. -/
def floatWidths : Language Char :=
  {['1', '6'], ['3', '2'], ['6', '4'], ['8', '0'], ['1', '2', '8']}

/-- The words `[ip][0-9]+|f16|f32|f64|f80|f128`. -/
def scalarTypes : Language Char := {['i'], ['p']} * digits + {['f']} * floatWidths

/-- The words `(v[0-9]+)*([ip][0-9]+|f16|f32|f64|f80|f128)`. -/
def types : Language Char := ({['v']} * digits)∗ * scalarTypes

theorem cons_mem_singleton_mul {a : Char} {l : Language Char} :
    c :: cs ∈ ({[a]} : Language Char) * l ↔ c = a ∧ cs ∈ l := by
  rw [Language.mem_mul]
  constructor
  · rintro ⟨_, rfl, w, hw, heq⟩
    cases heq
    exact ⟨rfl, hw⟩
  · rintro ⟨rfl, h⟩
    exact ⟨[c], rfl, cs, h, rfl⟩

theorem cons_mem_scalarTypes :
    c :: cs ∈ scalarTypes ↔
      (c = 'i' ∨ c = 'p') ∧ cs ∈ digits ∨ c = 'f' ∧ cs ∈ floatWidths := by
  have hpair : ({['i'], ['p']} : Language Char) = {['i']} + {['p']} := rfl
  rw [scalarTypes, hpair, add_mul, Language.mem_add, Language.mem_add, cons_mem_singleton_mul,
    cons_mem_singleton_mul, cons_mem_singleton_mul, or_and_right]

/-- A type is a scalar or has a `v` and digits in front. -/
theorem types_eq : types = scalarTypes + {['v']} * (digits * types) := by
  rw [types, ← mul_assoc, ← mul_assoc]
  nth_rewrite 1 [← Language.one_add_self_mul_kstar_eq_kstar]
  rw [add_mul, one_mul]

theorem cons_mem_types :
    c :: cs ∈ types ↔ ((c = 'i' ∨ c = 'p') ∧ cs ∈ digits ∨ c = 'f' ∧ cs ∈ floatWidths) ∨
      c = 'v' ∧ cs ∈ digits * types := by
  nth_rewrite 1 [types_eq]
  rw [Language.mem_add, cons_mem_scalarTypes, cons_mem_singleton_mul]

theorem nil_notMem_types : [] ∉ types := by
  rintro ⟨_, _, w, hw, heq⟩
  obtain ⟨-, rfl⟩ := List.append_eq_nil_iff.mp heq
  rcases hw with ⟨_, hletter, _, _, heq⟩ | ⟨_, hletter, _, _, heq⟩
  · obtain ⟨rfl, -⟩ := List.append_eq_nil_iff.mp heq
    rcases hletter with h | h <;> cases h
  · obtain ⟨rfl, -⟩ := List.append_eq_nil_iff.mp heq
    cases hletter

theorem nil_notMem_digits_mul (l : Language Char) : [] ∉ digits * l := by
  rintro ⟨_, hdigits, _, _, heq⟩
  exact hdigits.1 (List.append_eq_nil_iff.mp heq).1

/-- Behind one digit there may be more. -/
theorem cons_mem_digits_mul {l : Language Char} :
    c :: cs ∈ digits * l ↔ c.isDigit = true ∧ (cs ∈ l ∨ cs ∈ digits * l) := by
  rw [Language.mem_mul]
  constructor
  · rintro ⟨ds, ⟨hne, hds⟩, w, hw, heq⟩
    cases ds with
    | nil => exact absurd rfl hne
    | cons d ds =>
      cases heq
      rw [List.forall_mem_cons] at hds
      refine ⟨hds.1, ?_⟩
      by_cases hnil : ds = []
      · exact .inl (by rwa [hnil])
      · exact .inr (Language.append_mem_mul ⟨hnil, hds.2⟩ hw)
  · rintro ⟨hc, h | h⟩
    · exact ⟨[c], ⟨List.cons_ne_nil _ _, by simpa using hc⟩, cs, h, rfl⟩
    · obtain ⟨ds, hds, w, hw, rfl⟩ := Language.mem_mul.mp h
      exact ⟨c :: ds, ⟨List.cons_ne_nil _ _, List.forall_mem_cons.mpr ⟨hc, hds.2⟩⟩, w, hw, rfl⟩

theorem all_isDigit_iff : (! cs.isEmpty && cs.all Char.isDigit) = true ↔ cs ∈ digits := by
  rw [Bool.and_eq_true, Bool.not_eq_true', List.isEmpty_eq_false_iff, List.all_eq_true]
  rfl

theorem contains_width_iff :
    ["16", "32", "64", "80", "128"].contains (String.ofList cs) = true ↔ cs ∈ floatWidths := by
  have heq : ∀ w : List Char, String.ofList cs = String.ofList w ↔ cs = w := fun w =>
    String.ofList_inj
  simp only [List.contains_cons, List.contains_nil, Bool.or_false, Bool.or_eq_true, beq_iff_eq]
  exact or_congr (heq ['1', '6']) (or_congr (heq ['3', '2']) (or_congr (heq ['6', '4'])
    (or_congr (heq ['8', '0']) (heq ['1', '2', '8']))))

/-- The scan accepts the language of types, from each of its states. -/
theorem isTypeSuffixFrom_iff (cs : List Char) :
    (isTypeSuffixFrom false false cs = true ↔ cs ∈ types) ∧
      (isTypeSuffixFrom true true cs = true ↔ cs ∈ digits * types) ∧
      (isTypeSuffixFrom true false cs = true ↔ cs ∈ types ∨ cs ∈ digits * types) := by
  induction cs with
  | nil =>
    simp only [isTypeSuffixFrom, Bool.false_eq_true, nil_notMem_types, nil_notMem_digits_mul,
      or_self, and_self]
  | cons c cs ih =>
    obtain ⟨-, hbehind, hmore⟩ := ih
    -- what the automaton does with a character that is no digit of a vector
    have hletter : (if c = 'v' then isTypeSuffixFrom true true cs
        else if c = 'i' ∨ c = 'p' then ! cs.isEmpty && cs.all Char.isDigit
        else if c = 'f' then ["16", "32", "64", "80", "128"].contains (String.ofList cs)
        else false) = true ↔ c :: cs ∈ types := by
      rw [cons_mem_types]
      split
      next hc => simp [hc, hbehind]
      next hv =>
        split
        next hc =>
          have hf : c ≠ 'f' := by rcases hc with rfl | rfl <;> decide
          rw [all_isDigit_iff]
          simp [hc, hv, hf]
        next hc =>
          split
          next hf =>
            rw [contains_width_iff]
            simp [hf]
          next hf => simp [hc, hv, hf]
    refine ⟨?_, ?_, ?_⟩
    · simpa [isTypeSuffixFrom] using hletter
    · rw [cons_mem_digits_mul]
      by_cases hdigit : c.isDigit = true <;> simp [isTypeSuffixFrom, hdigit, hmore]
    · rw [cons_mem_digits_mul]
      by_cases hdigit : c.isDigit = true
      · have hnot : c :: cs ∉ types := by
          rw [cons_mem_types]
          rintro ((⟨rfl | rfl, -⟩ | ⟨rfl, -⟩) | ⟨rfl, -⟩) <;> exact absurd hdigit (by decide)
        simp [isTypeSuffixFrom, hdigit, hmore, hnot]
      · simpa [isTypeSuffixFrom, hdigit] using hletter

theorem isTypeSuffix_iff : isTypeSuffix cs = true ↔ cs ∈ types :=
  (isTypeSuffixFrom_iff cs).1

theorem dot_notMem_of_digits (h : cs ∈ digits) : '.' ∉ cs := by
  intro hdot
  exact absurd (h.2 _ hdot) (by decide)

/-- No type has a dot in it. -/
theorem dot_notMem_of_types (h : cs ∈ types) : '.' ∉ cs := by
  obtain ⟨front, hfront, w, hw, rfl⟩ := Language.mem_mul.mp h
  obtain ⟨ws, rfl, hws⟩ := Language.mem_kstar.mp hfront
  rw [List.mem_append, List.mem_flatten]
  rintro (⟨v, hv, hdot⟩ | hdot)
  · obtain ⟨_, rfl, ds, hds, rfl⟩ := Language.mem_mul.mp (hws v hv)
    exact dot_notMem_of_digits hds (List.mem_of_ne_of_mem (by decide) hdot)
  · cases w with
    | nil => cases hdot
    | cons c cs =>
      rcases cons_mem_scalarTypes.mp hw with ⟨hc, hcs⟩ | ⟨rfl, hcs⟩
      · refine dot_notMem_of_digits hcs (List.mem_of_ne_of_mem ?_ hdot)
        rcases hc with rfl | rfl <;> decide
      · rcases hcs with rfl | rfl | rfl | rfl | rfl <;> exact absurd hdot (by decide)

/-! ## Names and their parts -/

/-- A name stands for another one if it is that name with types behind it, each behind a dot. -/
def StandsFor (s name : String) : Prop :=
  ∃ ts : List String, (∀ t ∈ ts, t.toList ∈ types) ∧ s = String.intercalate "." (name :: ts)

theorem StandsFor.refl (s : String) : StandsFor s s :=
  ⟨[], by simp, String.intercalate_singleton.symm⟩

/-- A name starts with the one that it stands for. -/
theorem StandsFor.starts {name : String} (h : StandsFor s name) : name.toList <+: s.toList := by
  obtain ⟨ts, -, rfl⟩ := h
  by_cases hts : ts = []
  · rw [hts, String.intercalate_singleton]
  · rw [String.intercalate_cons_of_ne_nil hts, String.append_assoc, String.toList_append]
    exact List.prefix_append ..

theorem nameOf_cons (part : List Char) {parts : List (List Char)} (h : parts ≠ []) :
    nameOf (part :: parts) = nameOf parts ++ "." ++ String.ofList part := by
  rw [nameOf, List.reverse_cons, List.map_append, String.intercalate_append_of_ne_nil
    (by simpa using h) (by simp), List.map_singleton, String.intercalate_singleton, nameOf]

/-- There is one way to take a part without dots from the end. -/
theorem append_dot_inj {a b x y : List Char} (hx : '.' ∉ x) (hy : '.' ∉ y)
    (h : a ++ '.' :: x = b ++ '.' :: y) : a = b ∧ x = y := by
  rcases List.append_eq_append_iff.mp h with ⟨as, rfl, heq⟩ | ⟨as, rfl, heq⟩
  all_goals
    cases as with
    | nil =>
      cases heq
      exact ⟨by rw [List.append_nil], rfl⟩
    | cons d as =>
      cases heq
      simp at hx hy

/-- What the name with a part at its end stands for. -/
theorem standsFor_cons_iff {part : List Char} {parts : List (List Char)} (hpart : '.' ∉ part)
    {name : String} : StandsFor (nameOf (part :: parts)) name ↔ name = nameOf (part :: parts) ∨
      parts ≠ [] ∧ part ∈ types ∧ StandsFor (nameOf parts) name := by
  constructor
  · rintro ⟨ts, hts, heq⟩
    rcases List.eq_nil_or_concat ts with rfl | ⟨us, t, rfl⟩
    · exact .inl (by rw [heq, String.intercalate_singleton])
    · rw [List.concat_eq_append] at heq hts
      rw [List.forall_mem_append, List.forall_mem_singleton] at hts
      rw [← List.cons_append, String.intercalate_append_of_ne_nil (List.cons_ne_nil _ _)
        (List.cons_ne_nil _ _), String.intercalate_singleton] at heq
      have hchars := congrArg String.toList heq
      by_cases hparts : parts = []
      · -- a single part has no dot
        refine absurd ?_ hpart
        have hname : nameOf [part] = String.ofList part := String.intercalate_singleton
        rw [hparts, hname, String.toList_ofList] at hchars
        rw [hchars]
        simp
      · rw [nameOf_cons part hparts] at hchars
        simp only [String.toList_append, String.toList_ofList, List.append_assoc] at hchars
        obtain ⟨hfront, hlast⟩ := append_dot_inj hpart (dot_notMem_of_types hts.2) hchars
        exact .inr ⟨hparts, hlast ▸ hts.2, us, hts.1, String.toList_injective hfront⟩
  · rintro (rfl | ⟨hparts, htype, ts, hts, heq⟩)
    · exact .refl _
    · refine ⟨ts ++ [String.ofList part], ?_, ?_⟩
      · rw [List.forall_mem_append, List.forall_mem_singleton, String.toList_ofList]
        exact ⟨hts, htype⟩
      · rw [nameOf_cons part hparts, heq, ← List.cons_append, String.intercalate_append_of_ne_nil
          (List.cons_ne_nil _ _) (List.cons_ne_nil _ _), String.intercalate_singleton]

theorem nameOf_append (part more : List Char) (parts : List (List Char)) :
    nameOf ((part ++ more) :: parts) = nameOf (part :: parts) ++ String.ofList more := by
  by_cases hparts : parts = []
  · rw [hparts]
    simp [nameOf]
  · rw [nameOf_cons _ hparts, nameOf_cons _ hparts, String.ofList_append, String.append_assoc,
      String.append_assoc, String.append_assoc]

/-- The parts of a name have no dots and make up the name. -/
theorem partsFrom_spec {part : List Char} {parts : List (List Char)} (cs : List Char)
    (hdots : ∀ p ∈ part :: parts, '.' ∉ p) :
    partsFrom part parts cs ≠ [] ∧ (∀ p ∈ partsFrom part parts cs, '.' ∉ p) ∧
      nameOf (partsFrom part parts cs) = nameOf (part.reverse :: parts) ++ String.ofList cs := by
  induction cs generalizing part parts with
  | nil =>
    refine ⟨List.cons_ne_nil _ _, ?_, String.append_empty.symm⟩
    simpa [partsFrom] using hdots
  | cons c cs ih =>
    rw [partsFrom, String.ofList_cons]
    split
    next hdot =>
      obtain ⟨hne, hall, hname⟩ := @ih [] (part.reverse :: parts) (by simpa using hdots)
      refine ⟨hne, hall, ?_⟩
      rw [hname, List.reverse_nil, nameOf_cons _ (List.cons_ne_nil _ _), hdot]
      simp [String.append_assoc]
    next hdot =>
      have hnot : ¬ '.' = c := fun h => hdot h.symm
      obtain ⟨hne, hall, hname⟩ := @ih (c :: part) parts (by simpa [hnot] using hdots)
      refine ⟨hne, hall, ?_⟩
      rw [hname, List.reverse_cons, nameOf_append, String.append_assoc]
      simp

/-! ## The longest name -/

/-- An entry that is found under its own name. -/
def Registered (entries : List Entry) (e : Entry) : Prop :=
  entries.find? (·.name == e.name) = some e

/-- In the catalog there is one entry for each name, so each is found. -/
example : (catalog.map Entry.name).Nodup := by decide

theorem Registered.mem (h : Registered entries e) : e ∈ entries :=
  List.mem_of_find?_eq_some h

theorem registered_of_find? (h : entries.find? (·.name == s) = some e) :
    e.name = s ∧ Registered entries e := by
  have hname : e.name = s := by simpa using List.find?_some h
  exact ⟨hname, by rwa [Registered, hname]⟩

/-- The answer for a name: the entry with the longest name that it stands for, if there is any. -/
def Finds (entries : List Entry) (s : String) : Option Entry → Prop
  | some e => Registered entries e ∧ StandsFor s e.name ∧
      ∀ e' ∈ entries, StandsFor s e'.name → e'.name.length ≤ e.name.length
  | none => ∀ e ∈ entries, ¬ StandsFor s e.name

/-- Only what the name stands for matters. -/
theorem Finds.congr {s' : String} {r : Option Entry}
    (hiff : ∀ e ∈ entries, (StandsFor s' e.name ↔ StandsFor s e.name)) (h : Finds entries s r) :
    Finds entries s' r := by
  cases r with
  | none => exact fun e he hstands => h e he ((hiff e he).mp hstands)
  | some e =>
    obtain ⟨hregistered, hstands, hlongest⟩ := h
    refine ⟨hregistered, (hiff e hregistered.mem).mpr hstands, fun e' he' hstands' => ?_⟩
    exact hlongest e' he' ((hiff e' he').mp hstands')

/-- One part after another is taken away, from the end. -/
theorem lookUpParts_finds (entries : List Entry) {parts : List (List Char)} (hne : parts ≠ [])
    (hdots : ∀ p ∈ parts, '.' ∉ p) :
    Finds entries (nameOf parts) (lookUpParts entries parts) := by
  induction parts with
  | nil => exact absurd rfl hne
  | cons part parts ih =>
    rw [List.forall_mem_cons] at hdots
    rw [lookUpParts]
    cases hfind : entries.find? (·.name == nameOf (part :: parts)) with
    | some e =>
      obtain ⟨hname, hregistered⟩ := registered_of_find? hfind
      refine ⟨hregistered, hname ▸ .refl _, fun e' _ h => ?_⟩
      rw [hname, ← String.length_toList, ← String.length_toList]
      exact h.starts.length_le
    | none =>
      -- No entry has the whole name, so it stands for what is left without the last part.
      have hrest : ∀ e ∈ entries, (StandsFor (nameOf (part :: parts)) e.name ↔
          parts ≠ [] ∧ part ∈ types ∧ StandsFor (nameOf parts) e.name) := by
        intro e he
        have hother : e.name ≠ nameOf (part :: parts) := by
          simpa using List.find?_eq_none.mp hfind e he
        rw [standsFor_cons_iff hdots.1, or_iff_right hother]
      show Finds entries _ (if parts.isEmpty then none
        else if isTypeSuffix part then lookUpParts entries parts else none)
      by_cases hparts : parts = []
      · rw [if_pos (List.isEmpty_iff.mpr hparts)]
        exact fun e he h => ((hrest e he).mp h).1 hparts
      · rw [if_neg (by simpa using hparts)]
        by_cases htype : part ∈ types
        · rw [if_pos (isTypeSuffix_iff.mpr htype)]
          refine (ih hparts hdots.2).congr fun e he => ?_
          rw [hrest e he, and_iff_right hparts, and_iff_right htype]
        · rw [if_neg fun h => htype (isTypeSuffix_iff.mp h)]
          exact fun e he h => htype ((hrest e he).mp h).2.1

theorem lookUp_finds (entries : List Entry) (s : String) : Finds entries s (lookUp entries s) := by
  obtain ⟨hne, hdots, hname⟩ := @partsFrom_spec [] [] s.toList (by simp)
  have hfinds := lookUpParts_finds entries hne hdots
  have hs : nameOf (partsFrom [] [] s.toList) = s := by
    rw [hname]
    simp [nameOf]
  rwa [hs] at hfinds

/-- Two entries with longest names are the same one, since both names start the name looked up. -/
theorem eq_of_finds {e' : Entry} (h : Finds entries s (some e)) (h' : Finds entries s (some e')) :
    e = e' := by
  obtain ⟨hregistered, hstands, hlongest⟩ := h
  obtain ⟨hregistered', hstands', hlongest'⟩ := h'
  have hlength : e.name.length = e'.name.length :=
    Nat.le_antisymm (hlongest' e hregistered.mem hstands) (hlongest e' hregistered'.mem hstands')
  rw [← String.length_toList, ← String.length_toList] at hlength
  have hname : e.name = e'.name := by
    refine String.toList_injective (List.IsPrefix.eq_of_length ?_ hlength)
    exact List.prefix_of_prefix_length_le hstands.starts hstands'.starts (Nat.le_of_eq hlength)
  rw [Registered, hname, hregistered'] at hregistered
  exact (Option.some.inj hregistered).symm

/-- **The longest name counts.** Looking up a name finds an entry exactly if the name is that of the
entry with types behind it, `n.t1...tk`, and no entry with a longer name has this property; and it
finds nothing exactly if no entry has it. -/
theorem lookUp_finds_longest (entries : List Entry) (s : String) :
    (∀ e, lookUp entries s = some e ↔ Registered entries e ∧ StandsFor s e.name ∧
        ∀ e' ∈ entries, StandsFor s e'.name → e'.name.length ≤ e.name.length) ∧
      (lookUp entries s = none ↔ ∀ e ∈ entries, ¬ StandsFor s e.name) := by
  have hfinds := lookUp_finds entries s
  cases hfound : lookUp entries s with
  | none =>
    rw [hfound] at hfinds
    refine ⟨fun e => ⟨?_, ?_⟩, iff_of_true rfl hfinds⟩
    · intro h
      cases h
    · intro h
      exact absurd h.2.1 (hfinds e h.1.mem)
  | some found =>
    rw [hfound] at hfinds
    refine ⟨fun e => ⟨?_, ?_⟩, ?_, ?_⟩
    · intro h
      cases h
      exact hfinds
    · intro h
      exact congrArg some (eq_of_finds hfinds h)
    · intro h
      cases h
    · intro h
      exact absurd hfinds.2.1 (h found hfinds.1.mem)

/-- An operation and its form for one width, which has a dot in its name. -/
def nestedEntries : List Entry :=
  [{ name := "op", arity := 1, strategy := .pure "op" },
    { name := "op.i32", arity := 1, strategy := .pure "wide" }]

/-- The name could stand for either entry; the one with the longer name is found. -/
theorem lookUp_finds_longest_nested :
    StandsFor "op.i32.v2v4f64.p0" "op" ∧ StandsFor "op.i32.v2v4f64.p0" "op.i32" ∧
      lookUp nestedEntries "op.i32.v2v4f64.p0"
        = some { name := "op.i32", arity := 1, strategy := .pure "wide" } := by
  have htypes : ∀ t ∈ ["i32", "v2v4f64", "p0"], t.toList ∈ types := by
    have hall : ["i32", "v2v4f64", "p0"].all (fun t => isTypeSuffix t.toList) = true := by
      decide +kernel
    exact fun t ht => isTypeSuffix_iff.mp (List.all_eq_true.mp hall t ht)
  have hop : StandsFor "op.i32.v2v4f64.p0" "op" :=
    ⟨["i32", "v2v4f64", "p0"], htypes, by decide +kernel⟩
  have hwide : StandsFor "op.i32.v2v4f64.p0" "op.i32" :=
    ⟨["v2v4f64", "p0"], fun t ht => htypes t (List.mem_cons_of_mem _ ht), by decide +kernel⟩
  refine ⟨hop, hwide, ((lookUp_finds_longest _ _).1 _).mpr ⟨rfl, hwide, ?_⟩⟩
  simp only [nestedEntries, List.forall_mem_cons]
  exact ⟨fun _ => by decide, fun _ => by decide, by simp⟩

end SafeIR.Intrinsic
