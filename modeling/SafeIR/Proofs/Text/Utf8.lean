import SafeIR.Text.Utf8

/-!
# Encoded texts decode

Bytes made from characters decode to these characters, whichever they are (`decode_encode`).
-/

namespace SafeIR.Text

theorem character?_eq {least : Nat} {c : Char} (h : least ≤ c.val.toNat) :
    character? least c.val.toNat = some c := by
  rw [character?, dif_pos c.valid, if_pos h]
  rfl

theorem continuation?_eq {payload : Nat} (h : payload < 64) :
    continuation? (UInt8.ofNat (payload + 128)) = some payload := by
  have hval := UInt8.toNat_ofNat_of_lt' (n := payload + 128) (by show _ < 256; omega)
  rw [continuation?, if_pos, hval, Nat.add_sub_cancel]
  rw [UInt8.le_iff_toNat_le, UInt8.lt_iff_toNat_lt, hval]
  exact ⟨Nat.le_add_left _ _, Nat.add_lt_add_right h 128⟩

/-- The bytes of a character decode to it, whatever follows them. -/
theorem decodeFirst_append (c : Char) (rest : List UInt8) :
    decodeFirst (String.utf8EncodeChar c ++ rest)
      = some (c, (String.utf8EncodeChar c).length) := by
  have hmod : ∀ n, n % 64 < 64 := fun n => Nat.mod_lt n (by decide)
  -- one case for each number of bytes
  fun_cases String.utf8EncodeChar c with
  | case1 v hv =>
    have hhead := UInt8.toNat_ofNat_of_lt' (n := v) (by show _ < 256; omega)
    simp only [List.cons_append, List.nil_append, decodeFirst, hhead]
    rw [if_pos (by omega), character?_eq (Nat.zero_le _)]
    rfl
  | case2 v hv hv' =>
    have hhead := UInt8.toNat_ofNat_of_lt' (n := v / 64 % 32 + 192) (by show _ < 256; omega)
    have hvalue : (v / 64 % 32 + 192 - 192) * 64 + v % 64 = v := by omega
    simp only [List.cons_append, List.nil_append, decodeFirst, hhead]
    rw [if_neg (by omega), if_neg (by omega), if_pos (by omega), continuation?_eq (hmod _)]
    simp only [Option.bind_eq_bind, Option.bind_some, hvalue]
    rw [character?_eq (by omega)]
    rfl
  | case3 v _ hv hv' =>
    have hhead := UInt8.toNat_ofNat_of_lt' (n := v / 4096 % 16 + 224) (by show _ < 256; omega)
    have hvalue : ((v / 4096 % 16 + 224 - 224) * 64 + v / 64 % 64) * 64 + v % 64 = v := by omega
    simp only [List.cons_append, List.nil_append, decodeFirst, hhead]
    rw [if_neg (by omega), if_neg (by omega), if_neg (by omega), if_pos (by omega),
      continuation?_eq (hmod _), continuation?_eq (hmod _)]
    simp only [Option.bind_eq_bind, Option.bind_some, hvalue]
    rw [character?_eq (by omega)]
    rfl
  | case4 v _ _ hv =>
    have hmax : v < 0x110000 := by
      have hvalid : v < 0xd800 ∨ 0xdfff < v ∧ v < 0x110000 := c.valid
      omega
    have hhead := UInt8.toNat_ofNat_of_lt' (n := v / 262144 % 8 + 240) (by show _ < 256; omega)
    have hvalue : (((v / 262144 % 8 + 240 - 240) * 64 + v / 4096 % 64) * 64 + v / 64 % 64) * 64
        + v % 64 = v := by omega
    simp only [List.cons_append, List.nil_append, decodeFirst, hhead]
    rw [if_neg (by omega), if_neg (by omega), if_neg (by omega), if_neg (by omega),
      if_pos (by omega), continuation?_eq (hmod _), continuation?_eq (hmod _),
      continuation?_eq (hmod _)]
    simp only [Option.bind_eq_bind, Option.bind_some, hvalue]
    rw [character?_eq (by omega)]
    rfl

theorem decodeFrom_skip (offset : Nat) (bs rest : List UInt8) :
    decodeFrom offset bs.length (bs ++ rest) = decodeFrom (offset + bs.length) 0 rest := by
  induction bs generalizing offset with
  | nil => rfl
  | cons b bs ih =>
    rw [List.length_cons, List.cons_append, decodeFrom, ih, Nat.add_assoc, Nat.add_comm 1]

theorem decodeFrom_cons (offset : Nat) (c : Char) (rest : List UInt8) :
    decodeFrom offset 0 (String.utf8EncodeChar c ++ rest)
      = (decodeFrom (offset + (String.utf8EncodeChar c).length) 0 rest).map (c :: ·) := by
  have hfirst := decodeFirst_append c rest
  cases hbytes : String.utf8EncodeChar c with
  | nil => exact absurd hbytes String.utf8EncodeChar_ne_nil
  | cons b bs =>
    rw [hbytes, List.cons_append] at hfirst
    rw [List.cons_append, decodeFrom, hfirst]
    dsimp only [List.length_cons]
    rw [Nat.add_sub_cancel, decodeFrom_skip, Nat.add_assoc, Nat.add_comm 1]

theorem encode_eq (cs : List Char) : encode cs = cs.flatMap String.utf8EncodeChar := by
  rw [encode, String.toUTF8_eq_toByteArray, String.toByteArray_ofList, List.utf8Encode,
    List.data_toByteArray]

/-- Every text is read back from its bytes. -/
theorem decode_encode (cs : List Char) : decode (encode cs) = .ok cs := by
  suffices ∀ offset, decodeFrom offset 0 (cs.flatMap String.utf8EncodeChar) = .ok cs by
    rw [decode, encode_eq, this]
  induction cs with
  | nil =>
    intro offset
    rfl
  | cons c cs ih =>
    intro offset
    rw [List.flatMap_cons, decodeFrom_cons, ih]
    rfl

end SafeIR.Text
