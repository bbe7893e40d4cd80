import SafeIR.Source.Escape

/-!
# Forms of a byte

In a byte string a byte may be written as itself, as a backslash with two hexadecimal digits, or,
if it is the backslash, as two backslashes (`Spells`). Reading moves on by one, two or three
positions, and looks at up to three bytes to decide. `Step` says what a move is, form by form and
without an order of tests, and everything here follows from one fact about it: `decode` makes the
moves that there are (`decode_of_step`). Hence it cannot get out of step with the forms in which a
text was written, and it never stops before the end of any other text.
-/

namespace SafeIR.Source.Escape

variable {rest text bs : List UInt8} {b d : UInt8}

/-! ## Hexadecimal digits -/

/-- The digits in the order of their values. -/
def lowerDigits : List UInt8 :=
  ['0', '1', '2', '3', '4', '5', '6', '7', '8', '9', 'a', 'b', 'c', 'd', 'e', 'f'].map
    fun c => UInt8.ofNat c.toNat

def upperDigits : List UInt8 :=
  ['0', '1', '2', '3', '4', '5', '6', '7', '8', '9', 'A', 'B', 'C', 'D', 'E', 'F'].map
    fun c => UInt8.ofNat c.toNat

/-- A byte is the digit of a value, in either case. -/
def IsDigit (d : UInt8) (n : Nat) : Prop := lowerDigits[n]? = some d ∨ upperDigits[n]? = some d

instance (d : UInt8) (n : Nat) : Decidable (IsDigit d n) := inferInstanceAs (Decidable (_ ∨ _))

theorem IsDigit.lt {n : Nat} (h : IsDigit d n) : n < 16 := by
  rcases h with h | h <;> exact (List.getElem?_eq_some_iff.mp h).1

theorem forall_byte {P : UInt8 → Prop} (h : ∀ i : Fin 256, P (UInt8.ofNat i)) (b : UInt8) :
    P b := by
  have hb := h ⟨b.toNat, b.toNat_lt⟩
  rwa [UInt8.ofNat_toNat] at hb

theorem digit?_eq_some_iff {n : Nat} : digit? d = some n ↔ IsDigit d n := by
  have hvalues : ∀ (d : UInt8) (n : Fin 16), digit? d = some n.val ↔ IsDigit d n :=
    forall_byte (by decide +kernel)
  have hbound : ∀ (d : UInt8), ∀ n ∈ digit? d, n < 16 := forall_byte (by decide +kernel)
  constructor
  · intro h
    exact (hvalues d ⟨n, hbound d n h⟩).mp h
  · intro h
    exact (hvalues d ⟨n, h.lt⟩).mpr h

theorem pair?_eq_some_iff {high low : UInt8} : pair? high low = some b ↔
    ∃ h l, IsDigit high h ∧ IsDigit low l ∧ UInt8.ofNat (16 * h + l) = b := by
  simp only [pair?, Option.bind_eq_bind, Option.bind_eq_some_iff, digit?_eq_some_iff,
    Option.pure_def, Option.some_inj]
  constructor
  · rintro ⟨h, hhigh, l, hlow, hb⟩
    exact ⟨h, l, hhigh, hlow, hb⟩
  · rintro ⟨h, l, hhigh, hlow, hb⟩
    exact ⟨h, hhigh, l, hlow, hb⟩

theorem IsDigit.ne_backslash {n : Nat} (h : IsDigit d n) : d ≠ backslash := by
  have hnone : digit? backslash = none := by decide +kernel
  rintro rfl
  rw [← digit?_eq_some_iff, hnone] at h
  cases h

/-! ## Written texts -/

/-- The double quote, which ends a byte string. -/
def quote : UInt8 := 0x22

/-- The forms of a byte that start with a backslash. -/
inductive Escaped : UInt8 → List UInt8 → Prop where
  | double : Escaped backslash [backslash, backslash]
  | pair {high low : UInt8} {h l : Nat} (hhigh : IsDigit high h) (hlow : IsDigit low l) :
      Escaped (UInt8.ofNat (16 * h + l)) [backslash, high, low]

/-- The forms in which a byte may be written. -/
inductive Spells : UInt8 → List UInt8 → Prop where
  | itself {b : UInt8} (hascii : b < 0x80) (hslash : b ≠ backslash) (hquote : b ≠ quote) :
      Spells b [b]
  | escaped {b : UInt8} {form : List UInt8} (h : Escaped b form) : Spells b form

/-- A text writes bytes one after another, each in a form of its own. -/
inductive Written : List UInt8 → List UInt8 → Prop where
  | nil : Written [] []
  | cons {b : UInt8} {bs form text : List UInt8} (hform : Spells b form) (hrest : Written bs text) :
      Written (b :: bs) (form ++ text)

/-- Two digits are enough for every byte. -/
theorem exists_escaped (b : UInt8) : ∃ form, Escaped b form := by
  have hdigit : ∀ n < 16, ∃ d, IsDigit d n := by
    intro n hn
    exact ⟨lowerDigits[n], .inl (List.getElem?_eq_getElem hn)⟩
  have hlt : b.toNat < 256 := b.toNat_lt
  obtain ⟨high, hhigh⟩ := hdigit (b.toNat / 16) (by omega)
  obtain ⟨low, hlow⟩ := hdigit (b.toNat % 16) (by omega)
  have hb : UInt8.ofNat (16 * (b.toNat / 16) + b.toNat % 16) = b := by
    rw [Nat.div_add_mod, UInt8.ofNat_toNat]
  exact ⟨[backslash, high, low], hb ▸ .pair hhigh hlow⟩

theorem exists_written (bs : List UInt8) : ∃ text, Written bs text := by
  induction bs with
  | nil => exact ⟨[], .nil⟩
  | cons b bs ih =>
    obtain ⟨form, hform⟩ := exists_escaped b
    obtain ⟨text, htext⟩ := ih
    exact ⟨form ++ text, .cons (.escaped hform) htext⟩

/-! ## Moves -/

/-- A text starts with a form that starts with a backslash. -/
def StartsForm (text : List UInt8) : Prop := ∃ b form rest, Escaped b form ∧ text = form ++ rest

theorem StartsForm.head_eq (h : StartsForm (b :: rest)) : b = backslash := by
  obtain ⟨_, _, _, hform, heq⟩ := h
  cases hform <;> exact (List.cons.inj heq).1

/-- One move of a reader: the byte that it takes from the front of a text, and the rest. A byte that
starts no form stands for itself, and that includes the backslash. -/
inductive Step : List UInt8 → UInt8 → List UInt8 → Prop where
  | form {b : UInt8} {form rest : List UInt8} (h : Escaped b form) : Step (form ++ rest) b rest
  | itself {b : UInt8} {rest : List UInt8} (h : ¬ StartsForm (b :: rest)) : Step (b :: rest) b rest

/-- Several moves: the bytes taken from the front of a text, and the rest. -/
inductive Reads : List UInt8 → List UInt8 → List UInt8 → Prop where
  | refl (text : List UInt8) : Reads text [] text
  | step {text mid rest bs : List UInt8} {b : UInt8} (hstep : Step text b mid)
      (hrest : Reads mid bs rest) : Reads text (b :: bs) rest

theorem Step.length_lt (h : Step text b rest) : rest.length < text.length := by
  cases h with
  | form h =>
    cases h with
    | double => exact Nat.lt_succ_of_lt (Nat.lt_succ_self _)
    | pair => exact Nat.lt_succ_of_lt (Nat.lt_succ_of_lt (Nat.lt_succ_self _))
  | itself => exact Nat.lt_succ_self _

/-- Before the end of a text there is always a move. -/
theorem exists_step (b : UInt8) (rest : List UInt8) : ∃ b' rest', Step (b :: rest) b' rest' := by
  by_cases h : StartsForm (b :: rest)
  · obtain ⟨b', form, rest', hform, heq⟩ := h
    exact ⟨b', rest', heq ▸ .form hform⟩
  · exact ⟨b, rest, .itself h⟩

/-- A byte that starts no form is kept. -/
theorem decode_itself (h : ¬ StartsForm (b :: rest)) : decode (b :: rest) = b :: decode rest := by
  have hdouble : ∀ more, rest = backslash :: more → b ≠ backslash := by
    rintro more rfl rfl
    exact h ⟨_, _, more, .double, rfl⟩
  match rest with
  | [] => rfl
  | [c] =>
    refine if_neg ?_
    rintro ⟨rfl, rfl⟩
    exact hdouble [] rfl rfl
  | c :: d :: more =>
    rw [decode]
    by_cases hb : b = backslash
    · have hc : c ≠ backslash := fun hc => hdouble (d :: more) (hc ▸ rfl) hb
      have hpair : pair? c d = none := by
        refine Option.eq_none_iff_forall_ne_some.mpr fun byte hbyte => ?_
        obtain ⟨high, low, hhigh, hlow, -⟩ := pair?_eq_some_iff.mp hbyte
        exact h ⟨_, _, more, .pair hhigh hlow, by rw [hb]; rfl⟩
      rw [if_pos hb, if_neg hc, hpair]
    · rw [if_neg hb]

/-- What is read at a move is what the loop gives out there, and it goes on behind. -/
theorem decode_of_step (h : Step text b rest) : decode text = b :: decode rest := by
  cases h with
  | itself h => exact decode_itself h
  | form h =>
    cases h with
    | double =>
      -- The last two bytes of a text have an equation of their own.
      cases rest with
      | nil => rfl
      | cons c rest =>
        show decode (backslash :: backslash :: c :: rest) = _
        rw [decode, if_pos rfl, if_pos rfl]
    | pair hhigh hlow =>
      show decode (backslash :: _ :: _ :: rest) = _
      rw [decode, if_pos rfl, if_neg hhigh.ne_backslash,
        pair?_eq_some_iff.mpr ⟨_, _, hhigh, hlow, rfl⟩]

/-! ## Runs -/

/-- The loop agrees with every run of moves, wherever it stops. -/
theorem Reads.decode_eq (h : Reads text bs rest) : decode text = bs ++ decode rest := by
  induction h with
  | refl text => rfl
  | step hstep _ ih => rw [decode_of_step hstep, ih, List.cons_append]

theorem Reads.length_le (h : Reads text bs rest) : bs.length + rest.length ≤ text.length := by
  induction h with
  | refl text => exact Nat.le_of_eq (Nat.zero_add _)
  | step hstep _ ih =>
    have := hstep.length_lt
    rw [List.length_cons]
    omega

/-- Moves lead to the end of every text. -/
theorem exists_reads (text : List UInt8) : ∃ bs, Reads text bs [] := by
  induction hn : text.length using Nat.strongRecOn generalizing text with
  | ind n ih =>
    cases text with
    | nil => exact ⟨[], .refl []⟩
    | cons b rest =>
      obtain ⟨b', rest', hstep⟩ := exists_step b rest
      obtain ⟨bs, hbs⟩ := ih rest'.length (hn ▸ hstep.length_lt) rest' rfl
      exact ⟨b' :: bs, .step hstep hbs⟩

theorem reads_decode (text : List UInt8) : Reads text (decode text) [] := by
  obtain ⟨bs, hbs⟩ := exists_reads text
  have heq := hbs.decode_eq
  rw [decode, List.append_nil] at heq
  rwa [heq]

/-- Moves follow the forms in which a text was written, whatever stands behind it. -/
theorem Written.reads (h : Written bs text) (rest : List UInt8) : Reads (text ++ rest) bs rest := by
  induction h with
  | nil => exact .refl rest
  | @cons b bs form text hform _ ih =>
    rw [List.append_assoc]
    refine .step ?_ ih
    cases hform with
    | escaped h => exact .form h
    | itself _ hslash _ => exact .itself fun hstarts => hslash hstarts.head_eq

/-- **Byte strings are read as they are written.** Every byte string can be written, and each text
that writes it, in any mixture of forms, is decoded to it. Of any text at all, decoding reads
everything to the end, gives at most as many bytes, and keeps a backslash that it comes to if no
form starts there. -/
theorem decode_follows_every_spelling :
    (∀ bs : List UInt8, ∃ text, Written bs text) ∧
      (∀ bs text : List UInt8, Written bs text → decode text = bs) ∧
      ∀ text : List UInt8,
        (∀ bs, Reads text bs [] ↔ bs = decode text) ∧ (decode text).length ≤ text.length ∧
          ∀ bs rest : List UInt8, Reads text bs (backslash :: rest) →
            ¬ StartsForm (backslash :: rest) → decode text = bs ++ backslash :: decode rest := by
  refine ⟨exists_written, fun bs text h => ?_, fun text => ⟨fun bs => ⟨?_, ?_⟩, ?_, ?_⟩⟩
  · have heq := (h.reads []).decode_eq
    rwa [List.append_nil, decode, List.append_nil] at heq
  · intro h
    rw [h.decode_eq, decode, List.append_nil]
  · rintro rfl
    exact reads_decode text
  · exact (reads_decode text).length_le
  · intro bs rest h hstray
    rw [h.decode_eq, decode_itself hstray]

/-- A doubled backslash before what looks like two digits, then a byte in digits of both cases; and
a backslash behind a doubled one that is left as it is, since `z` is no digit. -/
theorem decode_follows_mixed_spelling :
    Written [0x5c, 0x34, 0x31, 0xff] [0x5c, 0x5c, 0x34, 0x31, 0x5c, 0x66, 0x46] ∧
      decode [0x5c, 0x5c, 0x34, 0x31, 0x5c, 0x66, 0x46] = [0x5c, 0x34, 0x31, 0xff] ∧
      decode [0x5c, 0x5c, 0x5c, 0x7a, 0x34] = [0x5c] ++ 0x5c :: decode [0x7a, 0x34] := by
  have hwritten : Written [0x5c, 0x34, 0x31, 0xff] [0x5c, 0x5c, 0x34, 0x31, 0x5c, 0x66, 0x46] :=
    .cons (.escaped .double) (.cons (.itself (by decide) (by decide) (by decide))
      (.cons (.itself (by decide) (by decide) (by decide))
        (.cons (.escaped (.pair (by decide) (by decide) : Escaped (UInt8.ofNat (16 * 15 + 15)) _))
          .nil)))
  have hstray : ¬ StartsForm [0x5c, 0x7a, 0x34] := by
    rintro ⟨_, _, _, hform, heq⟩
    cases hform with
    | double => cases heq
    | pair hhigh _ =>
      cases heq
      have hnone : digit? 0x7a = none := by decide +kernel
      rw [← digit?_eq_some_iff, hnone] at hhigh
      cases hhigh
  obtain ⟨-, hdecode, hany⟩ := decode_follows_every_spelling
  obtain ⟨-, -, hkept⟩ := hany [0x5c, 0x5c, 0x5c, 0x7a, 0x34]
  exact ⟨hwritten, hdecode _ _ hwritten, hkept _ _ (.step (.form .double) (.refl _)) hstray⟩

end SafeIR.Source.Escape
