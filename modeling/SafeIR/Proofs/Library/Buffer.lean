import SafeIR.Library.Foreign
import SafeIR.Proofs.Library.Handles

/-!
# Buffers of callers

There are two ways to copy into a buffer of the caller. A text comes with a zero byte behind it, and
one number tells its length or, if it does not fit, the size to ask with again (`TextProtocol`).
Data comes as it is, with its length stored apart (`DataProtocol`).

`Buffer.Receives` says what a copy may do to memory: it stays within the size that the caller
states, and the bytes behind what was copied are as they were. The main statement is
`buffer_protocols_unambiguous`.
-/

namespace SafeIR.Library.Foreign

variable {t bytes : List UInt8} {b : Buffer} {l : Library} {h : Handle}

/-! ## Copies -/

namespace Buffer

/-- The caller owns the bytes that it states. What comes behind them is not part of the buffer. -/
def Owned (b : Buffer) : Prop := b.size ≤ b.bytes.length

theorem owned_filled (size : Int) (byte : UInt8) : (filled size byte).Owned := by
  show size ≤ ((List.replicate size.toNat byte).length : Int)
  rw [List.length_replicate]
  exact Int.self_le_toNat size

/-- A copy of `front` into a buffer, where only `front` was written and only inside the buffer. -/
structure Receives (old : Buffer) (front : List UInt8) (new : Buffer) : Prop where
  size : new.size = old.size
  inside : front.length ≤ old.size
  length : new.bytes.length = old.bytes.length
  copied : ∀ i < front.length, new.bytes[i]? = front[i]?
  behind : ∀ i, front.length ≤ i → new.bytes[i]? = old.bytes[i]?

theorem receives_overwrite (howned : b.Owned) {front : List UInt8}
    (hfits : (front.length : Int) ≤ b.size) : b.Receives front (b.overwrite front) where
  size := rfl
  inside := hfits
  length := by
    have hlength : front.length ≤ b.bytes.length := Int.ofNat_le.mp (Int.le_trans hfits howned)
    show (front ++ b.bytes.drop front.length).length = b.bytes.length
    rw [List.length_append, List.length_drop]
    omega
  copied i hi := List.getElem?_append_left hi
  behind i hi := by
    show (front ++ b.bytes.drop front.length)[i]? = b.bytes[i]?
    rw [List.getElem?_append_right hi, List.getElem?_drop, Nat.add_sub_cancel' hi]

end Buffer

/-! ## Texts -/

/-- The queries that are answered by a text. -/
inductive TextQuery where
  | displayName (function : Nat)
  | returnType (function : Nat)
  | functionType (function : Nat)
  /-- The name of the value is given by bytes. -/
  | valueType (function : Nat) (name : List UInt8)

namespace TextQuery

def function : TextQuery → Nat
  | displayName f | returnType f | functionType f | valueType f _ => f

/-- The text for a function. -/
def ofFunction [Demangler] (f : Source.Function) : TextQuery → Option String
  | displayName _ => some (nameOf f)
  | returnType _ => some f.returnType.text
  | functionType _ => some f.type.text
  | valueType _ name => do
    let name ← (Text.decode name).toOption
    return (← f.valueType? (String.ofList name)).text

/-- The text that a query asks for, if there is one. -/
def text? [Demangler] (m : Source.Module) (q : TextQuery) : Option (List UInt8) := do
  return Text.encode (← q.ofFunction (← m.functions[q.function]?)).toList

/-- The call that makes a query. -/
def call [Demangler] (l : Library) (h : Handle) (buffer : Option Buffer) :
    TextQuery → Int × Option Buffer
  | displayName f => Foreign.displayName l h f buffer
  | returnType f => Foreign.returnType l h f buffer
  | functionType f => Foreign.functionType l h f buffer
  | valueType f name => Foreign.valueType l h f (some name) buffer

end TextQuery

/-- A query that has a text copies it. -/
theorem call_of_text [Demangler] {m : Source.Module} {q : TextQuery} (hfind : l.find? h = some m)
    (ht : q.text? m = some t) (buffer : Option Buffer) : q.call l h buffer = copyText t buffer := by
  obtain ⟨f, hf, ht⟩ := Option.bind_eq_some_iff.mp ht
  obtain ⟨text, htext, ht⟩ := Option.bind_eq_some_iff.mp ht
  cases ht
  have hmodule := module_of_some hfind
  cases q with
  | displayName i | returnType i | functionType i =>
    cases htext
    have hfunction : Query.functionAt m i = .ok f := item_of_some hf _
    simp only [TextQuery.call, displayName, returnType, functionType, hmodule, ok_bind, hfunction]
    rfl
  | valueType i name =>
    obtain ⟨cs, hcs, htext⟩ := Option.bind_eq_some_iff.mp htext
    obtain ⟨ty, hty, htext⟩ := Option.bind_eq_some_iff.mp htext
    cases htext
    have hdecode : Text.decode name = .ok cs := by
      cases hname : Text.decode name with
      | error e =>
        rw [hname] at hcs
        cases hcs
      | ok cs' =>
        rw [hname] at hcs
        cases hcs
        rfl
    have hfunction : Query.functionAt m i = .ok f := item_of_some hf _
    simp only [TextQuery.call, valueType, Option.map_some, hdecode, hmodule, ok_bind,
      Query.typeOfValue, hfunction, hty]
    rfl

/-- What a call for a text does with a buffer, as the caller sees it. -/
structure TextProtocol (call : Option Buffer → Int × Option Buffer) (t : List UInt8) : Prop where
  fits : ∀ b : Buffer, b.Owned → t.length < b.size →
    ∃ b', call (some b) = ((t.length : Int), some b') ∧ b.Receives (t ++ [0]) b'
  tooSmall : ∀ b : Buffer, 0 < b.size → b.size ≤ t.length →
    call (some b) = ((t.length : Int) + 1, some b)
  /-- The number is below the size exactly if the text fits, and above it otherwise. -/
  tells : ∀ b : Buffer, 0 < b.size →
    ((call (some b)).1 < b.size ↔ t.length < b.size) ∧
      (b.size < (call (some b)).1 ↔ b.size ≤ t.length) ∧ (call (some b)).1 ≠ b.size
  /-- The number can be returned. -/
  bounded : ∀ b : Buffer, 0 < b.size → 0 < (call (some b)).1 ∧ (call (some b)).1 < lengthLimit
  /-- A buffer of the size that was asked for is large enough. -/
  again : ∀ b b₂ : Buffer, 0 < b.size → b.size < (call (some b)).1 →
    b₂.Owned → b₂.size = (call (some b)).1 →
    ∃ b', call (some b₂) = ((t.length : Int), some b') ∧ b₂.Receives (t ++ [0]) b'

theorem copyText_some (hne : t ≠ []) (hlength : t.length + 1 < lengthLimit) (hpos : 0 < b.size) :
    copyText t (some b) = if b.size < t.length + 1 then ((t.length : Int) + 1, some b)
      else ((t.length : Int), some (b.overwrite (t ++ [0]))) := by
  have hguard : ¬ (b.size ≤ 0 ∨ t.isEmpty = true ∨ lengthLimit ≤ t.length) := by
    rintro (h | h | h)
    · omega
    · exact hne (List.isEmpty_iff.mp h)
    · omega
  exact if_neg hguard

theorem copyText_fits (hne : t ≠ []) (hlength : t.length + 1 < lengthLimit)
    (hb : t.length < b.size) :
    copyText t (some b) = ((t.length : Int), some (b.overwrite (t ++ [0]))) := by
  rw [copyText_some hne hlength (by omega), if_neg (by omega)]

theorem copyText_tooSmall (hne : t ≠ []) (hlength : t.length + 1 < lengthLimit) (hpos : 0 < b.size)
    (hb : b.size ≤ t.length) : copyText t (some b) = ((t.length : Int) + 1, some b) := by
  rw [copyText_some hne hlength hpos, if_pos (by omega)]

/-- Texts are copied by the protocol for texts. -/
theorem textProtocol_copyText (hne : t ≠ []) (hlength : t.length + 1 < lengthLimit) :
    TextProtocol (copyText t) t := by
  have hpos : 0 < t.length := List.length_pos_iff.mpr hne
  have hfits : ∀ b : Buffer, b.Owned → t.length < b.size →
      ∃ b', copyText t (some b) = ((t.length : Int), some b') ∧ b.Receives (t ++ [0]) b' := by
    intro b howned hb
    refine ⟨_, copyText_fits hne hlength hb, Buffer.receives_overwrite howned ?_⟩
    rw [List.length_append, List.length_singleton]
    omega
  -- the number is the length, or one more where the size is not above the length
  have hnumber : ∀ b : Buffer, 0 < b.size →
      (t.length < b.size ∧ (copyText t (some b)).1 = t.length) ∨
        (b.size ≤ t.length ∧ (copyText t (some b)).1 = t.length + 1) := by
    intro b hb
    by_cases h : t.length < b.size
    · exact .inl ⟨h, by rw [copyText_fits hne hlength h]⟩
    · have hsmall : b.size ≤ t.length := Int.not_lt.mp h
      exact .inr ⟨hsmall, by rw [copyText_tooSmall hne hlength hb hsmall]⟩
  constructor
  · exact hfits
  · exact fun b hb hsmall => copyText_tooSmall hne hlength hb hsmall
  · intro b hb
    rcases hnumber b hb with ⟨h, hn⟩ | ⟨h, hn⟩ <;> omega
  · intro b hb
    rcases hnumber b hb with ⟨h, hn⟩ | ⟨h, hn⟩ <;> omega
  · intro b b₂ hb hsmall howned hsize
    rcases hnumber b hb with ⟨h, hn⟩ | ⟨h, hn⟩
    · omega
    · exact hfits b₂ howned (by omega)

/-! ## Data -/

/-- The data of a global, if the handle is open and the global is there and has data. -/
def dataOf? (l : Library) (h : Handle) (g : Nat) : Option (List UInt8) := do
  (← (← l.find? h).globals[g]?).data?

/-- The status where there is no data. -/
def dataless (l : Library) (h : Handle) (g : Nat) : Status :=
  match l.find? h with
  | none => .invalidHandle
  | some m => if g < m.globals.length then .ok else .outOfRange

/-- What a call for data does: what it returns, what it stores as the length, and the buffer
afterwards. -/
structure DataProtocol (l : Library) (h : Handle) (g : Nat) (buffer : Option Buffer)
    (status : Status) (stored : Option Int) (buffer' : Option Buffer) : Prop where
  length : ∀ bytes, dataOf? l h g = some bytes → bytes.length < lengthLimit →
    stored = some (bytes.length : Int)
  /-- Without a buffer only the length is asked for. -/
  asked : ∀ bytes, dataOf? l h g = some bytes → bytes.length < lengthLimit → buffer = none →
    status = .ok ∧ buffer' = none
  fits : ∀ bytes b, dataOf? l h g = some bytes → bytes.length < lengthLimit → buffer = some b →
    bytes.length ≤ b.size → status = .ok ∧ ∃ b', buffer' = some b' ∧ b.Receives bytes b'
  tooSmall : ∀ bytes b, dataOf? l h g = some bytes → bytes.length < lengthLimit →
    buffer = some b → b.size < bytes.length → status = .outOfRange ∧ buffer' = some b
  tooLong : ∀ bytes, dataOf? l h g = some bytes → lengthLimit ≤ bytes.length →
    status = .outOfRange ∧ stored = some 0 ∧ buffer' = buffer
  absent : dataOf? l h g = none → status = dataless l h g ∧ stored = some 0 ∧ buffer' = buffer

theorem data_of_dataOf? {g : Nat} (hdata : dataOf? l h g = some bytes) (buffer : Option Buffer)
    (out : Option Int) : data l h g buffer out = copyData (.ok (some bytes)) buffer out := by
  obtain ⟨m, hm, hdata⟩ := Option.bind_eq_some_iff.mp hdata
  obtain ⟨global, hglobal, hdata⟩ := Option.bind_eq_some_iff.mp hdata
  rw [data, module_of_some hm, ok_bind, Query.globalAt, Query.item, hglobal]
  show copyData (.ok global.data?) buffer out = _
  rw [hdata]

theorem data_of_dataless {g : Nat} (hdata : dataOf? l h g = none) (buffer : Option Buffer)
    (out : Int) : data l h g buffer (some out) = ((dataless l h g, some 0), buffer) := by
  unfold dataless
  cases hm : l.find? h with
  | none =>
    rw [data, module_of_none hm]
    rfl
  | some m =>
    rw [data, module_of_some hm, ok_bind, Query.globalAt, Query.item]
    cases hglobal : m.globals[g]? with
    | none =>
      show _ = ((if g < m.globals.length then Status.ok else .outOfRange, some 0), buffer)
      rw [if_neg (Nat.not_lt.mpr (List.getElem?_eq_none_iff.mp hglobal))]
      rfl
    | some global =>
      have hnone : global.data? = none := by
        rw [dataOf?, hm] at hdata
        change (m.globals[g]?).bind _ = none at hdata
        rw [hglobal] at hdata
        exact hdata
      show copyData (.ok global.data?) buffer (some out)
        = ((if g < m.globals.length then Status.ok else .outOfRange, some 0), buffer)
      rw [hnone, if_pos (List.getElem?_eq_some_iff.mp hglobal).1]
      rfl

theorem copyData_fits (hlength : bytes.length < lengthLimit) (hb : bytes.length ≤ b.size)
    (out : Int) :
    copyData (.ok (some bytes)) (some b) (some out)
      = ((.ok, some (bytes.length : Int)), some (b.overwrite bytes)) := by
  simp only [copyData]
  rw [if_neg (Nat.not_le.mpr hlength), if_neg (Int.not_lt.mpr hb)]

theorem copyData_tooSmall (hlength : bytes.length < lengthLimit) (hb : b.size < bytes.length)
    (out : Int) :
    copyData (.ok (some bytes)) (some b) (some out)
      = ((.outOfRange, some (bytes.length : Int)), some b) := by
  simp only [copyData]
  rw [if_neg (Nat.not_le.mpr hlength), if_pos hb]

/-- Data is copied by the protocol for data. -/
theorem dataProtocol_data (l : Library) (h : Handle) (g : Nat) {buffer : Option Buffer}
    (howned : ∀ b ∈ buffer, b.Owned) (out : Int) :
    DataProtocol l h g buffer (data l h g buffer (some out)).1.1
      (data l h g buffer (some out)).1.2 (data l h g buffer (some out)).2 := by
  constructor
  · intro bytes hdata hlength
    rw [data_of_dataOf? hdata]
    cases buffer with
    | none => simp only [copyData, if_neg (Nat.not_le.mpr hlength)]
    | some b =>
      by_cases hb : bytes.length ≤ b.size
      · rw [copyData_fits hlength hb]
      · rw [copyData_tooSmall hlength (Int.not_le.mp hb)]
  · rintro bytes hdata hlength rfl
    rw [data_of_dataOf? hdata]
    simp only [copyData, if_neg (Nat.not_le.mpr hlength), and_self]
  · rintro bytes b hdata hlength rfl hb
    rw [data_of_dataOf? hdata, copyData_fits hlength hb]
    exact ⟨rfl, _, rfl, Buffer.receives_overwrite (howned b rfl) hb⟩
  · rintro bytes b hdata hlength rfl hb
    rw [data_of_dataOf? hdata, copyData_tooSmall hlength hb]
    exact ⟨rfl, rfl⟩
  · intro bytes hdata hlength
    rw [data_of_dataOf? hdata]
    simp only [copyData, if_pos hlength, and_self]
  · intro hdata
    rw [data_of_dataless hdata]
    exact ⟨rfl, rfl, rfl⟩

/-- **The protocols for buffers are unambiguous.** A query for a text that is not empty returns the
length of the text and leaves the text with a zero byte in the buffer, if there is room for both,
and else the size that is needed and leaves the buffer alone; so the number returned tells the cases
apart, and asking again with the size that was returned succeeds. A call for data stores its length
wherever there is data, and copies the data exactly if the buffer has room for it. No call writes
outside of the buffer. -/
theorem buffer_protocols_unambiguous [Demangler] (l : Library) (h : Handle) :
    (∀ m q t, l.find? h = some m → TextQuery.text? m q = some t → t ≠ [] →
      t.length < lengthLimit - 1 → TextProtocol (fun buffer => q.call l h buffer) t) ∧
    ∀ (g : Nat) (buffer : Option Buffer) (out : Int), (∀ b ∈ buffer, b.Owned) →
      DataProtocol l h g buffer (data l h g buffer (some out)).1.1
        (data l h g buffer (some out)).1.2 (data l h g buffer (some out)).2 := by
  refine ⟨fun m q t hfind ht hne hlength => ?_, fun g buffer out howned => ?_⟩
  · have hcall : (fun buffer => q.call l h buffer) = copyText t :=
      funext fun buffer => call_of_text hfind ht buffer
    rw [hcall]
    exact textProtocol_copyText hne (Nat.add_lt_of_lt_sub hlength)
  · exact dataProtocol_data l h g howned out

/-- A function whose symbol says more than its name, and a global with a text. -/
def subtraction : Source.Module where
  globals := [{ name := "msg", ty := .array 3 (.int 8), isConstant := true, linkage := []
                initializer := some (.bytes [111, 107, 0]), align := none, offset := 0 }]
  functions := [{ name := "_Z3subii", returnType := .int 32, varargs := false
                  params := [⟨.int 32, "a"⟩, ⟨.int 32, "b"⟩], isDeclaration := true, linkage := []
                  personality := none, blocks := [], offset := 0 }]

/-- The text of 13 bytes asks for 14, and the data of three bytes does not fit in two. -/
theorem buffer_protocols_of_subtraction :
    ∃ l h, find? l h = some subtraction ∧
      displayName l h 0 (some (.filled 4 170)) = (14, some (.filled 4 170)) ∧
      (∃ b, displayName l h 0 (some (.filled 14 170)) = (13, some b) ∧
        (Buffer.filled 14 170).Receives (Text.encode "sub(int, int)".toList ++ [0]) b) ∧
      (data l h 0 (some (.filled 2 170)) (some (-1))).1 = (.outOfRange, some 3) ∧
      ∃ b, (data l h 0 (some (.filled 8 170)) (some (-1))).2 = some b ∧
        (Buffer.filled 8 170).Receives [111, 107, 0] b := by
  let l : Library := (insert {} subtraction).2
  have htext : TextQuery.text? subtraction (.displayName 0)
      = some (Text.encode "sub(int, int)".toList) := by decide +kernel
  have hdata : dataOf? l ⟨1⟩ 0 = some [111, 107, 0] := by decide +kernel
  obtain ⟨htexts, hdatas⟩ := buffer_protocols_unambiguous l ⟨1⟩
  have hname := htexts subtraction (.displayName 0) _ rfl htext (by decide) (by decide)
  have howned (n : Int) : ∀ b ∈ some (Buffer.filled n 170), b.Owned := by
    rintro b ⟨⟩
    exact Buffer.owned_filled n 170
  have hdata₂ := hdatas 0 (some (.filled 2 170)) (-1) (howned 2)
  have hdata₈ := hdatas 0 (some (.filled 8 170)) (-1) (howned 8)
  refine ⟨l, ⟨1⟩, rfl, hname.tooSmall _ (by decide) (by decide),
    hname.fits _ (Buffer.owned_filled 14 170) (by decide), ?_, ?_⟩
  · exact Prod.ext (hdata₂.tooSmall _ _ hdata (by decide) rfl (by decide)).1
      (hdata₂.length _ hdata (by decide))
  · exact (hdata₈.fits _ _ hdata (by decide) rfl (by decide)).2

end SafeIR.Library.Foreign
