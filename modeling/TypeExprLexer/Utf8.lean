/-!
Texts as UTF-8 bytes.

All offsets and lengths of this library count the bytes of the UTF-8 encoding.
`encode` gives those bytes, `leadWidth` reads off a character's first byte how
many it takes, and `slice?` cuts a text at two byte offsets.
`encodeChar_of_lt` and `encodeChar_of_le` are the shape of a character's bytes:
an ASCII character is one byte below `0x80`, any other is a lead byte from
`0xC0` up followed by continuation bytes, which lie between `0x80` and `0xBF`.
`slice?_eq_some_iff` says that a cut exists exactly where whole characters end.
-/

namespace TypeExprLexer.Utf8

/-- The bytes of a list of characters. -/
def encode (chars : List Char) : List UInt8 :=
  chars.flatMap String.utf8EncodeChar

/-- The bytes of a text. -/
def bytes (text : String) : List UInt8 :=
  encode text.toList

/-- A byte that continues a character of more than one byte. -/
def isContinuation (b : UInt8) : Bool :=
  0x80 ≤ b && b < 0xC0

/-- How many bytes the character takes that begins with the given byte. A
continuation byte begins none and counts as one. -/
def leadWidth (b : UInt8) : Nat :=
  if b < 0xC0 then 1 else if b < 0xE0 then 2 else if b < 0xF0 then 3 else 4

/-- The part of a text from byte `start` up to byte `stop`, if both are
boundaries between characters and in this order. -/
def slice? (text : String) (start stop : Nat) : Option String :=
  if h : (String.Pos.Raw.mk start).IsValid text ∧ (String.Pos.Raw.mk stop).IsValid text ∧
      start ≤ stop then
    some (text.extract ⟨⟨start⟩, h.1⟩ ⟨⟨stop⟩, h.2.1⟩)
  else none

/-! ### Lengths -/

@[simp] theorem encode_nil : encode [] = [] := rfl

@[simp] theorem encode_cons (c : Char) (cs : List Char) :
    encode (c :: cs) = String.utf8EncodeChar c ++ encode cs := rfl

@[simp] theorem encode_append (cs ds : List Char) : encode (cs ++ ds) = encode cs ++ encode ds :=
  List.flatMap_append

@[simp] theorem bytes_append (s t : String) : bytes (s ++ t) = bytes s ++ bytes t := by
  simp [bytes]

theorem toByteArray_bytes (text : String) : (bytes text).toByteArray = text.toByteArray := by
  exact String.utf8Encode_toList

@[simp] theorem length_bytes (text : String) : (bytes text).length = text.utf8ByteSize := by
  rw [← String.size_toByteArray, ← toByteArray_bytes, List.size_toByteArray]

@[simp] theorem length_encode_toList (text : String) :
    (encode text.toList).length = text.utf8ByteSize :=
  length_bytes text

theorem bytes_eq_nil_iff {text : String} : bytes text = [] ↔ text = "" := by
  rw [← List.length_eq_zero_iff, length_bytes, String.utf8ByteSize_eq_zero_iff]

theorem length_encode (chars : List Char) :
    (encode chars).length = (String.ofList chars).utf8ByteSize := by
  rw [← length_bytes, bytes, String.toList_ofList]

/-! ### The shape of a character's bytes -/

theorem leadWidth_pos (b : UInt8) : 0 < leadWidth b := by
  unfold leadWidth
  repeat' split
  all_goals decide

theorem isContinuation_iff {b : UInt8} : isContinuation b ↔ 0x80 ≤ b ∧ b < 0xC0 := by
  simp [isContinuation]

theorem leadWidth_of_isContinuation {b : UInt8} (continued : isContinuation b) :
    leadWidth b = 1 :=
  if_pos (isContinuation_iff.mp continued).2

theorem isContinuation_ofNat {n : Nat} (low : 0x80 ≤ n) (high : n < 0xC0) :
    isContinuation (UInt8.ofNat n) := by
  simp [isContinuation, UInt8.le_iff_toNat_le, UInt8.lt_iff_toNat_lt,
    Nat.mod_eq_of_lt (show n < 256 by omega), low, high]

theorem leadWidth_ofNat {n : Nat} (high : n < 0x100) :
    leadWidth (UInt8.ofNat n) =
      if n < 0xC0 then 1 else if n < 0xE0 then 2 else if n < 0xF0 then 3 else 4 := by
  simp [leadWidth, UInt8.lt_iff_toNat_lt, Nat.mod_eq_of_lt high]

theorem le_ofNat {m n : Nat} (low : m ≤ n) (high : n < 0x100) :
    UInt8.ofNat m ≤ UInt8.ofNat n := by
  simp [UInt8.le_iff_toNat_le, Nat.mod_eq_of_lt high,
    Nat.mod_eq_of_lt (Nat.lt_of_le_of_lt low high), low]

theorem encodeChar_of_lt {c : Char} (ascii : c.toNat < 0x80) :
    String.utf8EncodeChar c = [UInt8.ofNat c.toNat] := by
  unfold String.utf8EncodeChar
  exact if_pos (Nat.le_of_lt_succ ascii)

theorem encodeChar_of_le {c : Char} (wide : 0x80 ≤ c.toNat) :
    ∃ lead tail, String.utf8EncodeChar c = lead :: tail ∧ 0xC0 ≤ lead ∧
      leadWidth lead = tail.length + 1 ∧ ∀ b ∈ tail, isContinuation b := by
  have small : c.val.toNat < 0x110000 := by
    have h := c.valid
    simp only [UInt32.isValidChar, Nat.isValidChar] at h
    omega
  have wide : 0x80 ≤ c.val.toNat := wide
  unfold String.utf8EncodeChar
  generalize c.val.toNat = n at *
  have lead : ∀ m, 0xC0 ≤ m → m < 0x100 → 0xC0 ≤ UInt8.ofNat m := fun m => le_ofNat
  have six : ∀ m, isContinuation (UInt8.ofNat (m % 0x40 + 0x80)) := fun m =>
    isContinuation_ofNat (by omega) (by omega)
  have more : ∀ {b} bs, isContinuation b → (∀ x ∈ bs, isContinuation x) →
      ∀ x ∈ b :: bs, isContinuation x := fun _ hb hbs => List.forall_mem_cons.2 ⟨hb, hbs⟩
  rw [if_neg (by show ¬ n ≤ 0x7f; omega)]
  split
  · refine ⟨_, _, rfl, lead _ (by omega) (by omega), ?_, more [] (six n) nofun⟩
    rw [leadWidth_ofNat (by omega), if_neg (by omega), if_pos (by omega)]
    rfl
  · split
    · refine ⟨_, _, rfl, lead _ (by omega) (by omega), ?_,
        more _ (six (n / 64)) (more [] (six n) nofun)⟩
      rw [leadWidth_ofNat (by omega), if_neg (by omega), if_neg (by omega), if_pos (by omega)]
      rfl
    · refine ⟨_, _, rfl, lead _ (by omega) (by omega), ?_,
        more _ (six (n / 4096)) (more _ (six (n / 64)) (more [] (six n) nofun))⟩
      rw [leadWidth_ofNat (by omega), if_neg (by omega), if_neg (by omega), if_neg (by omega)]
      rfl

/-! ### Cuts -/

theorem isValid_iff_exists_append {text : String} {n : Nat} :
    (String.Pos.Raw.mk n).IsValid text ↔
      ∃ before after, text = before ++ after ∧ before.utf8ByteSize = n := by
  rw [String.Pos.Raw.isValid_iff_exists_append]
  simp [String.Pos.Raw.ext_iff, eq_comm]

theorem slice?_append (before part after : String) :
    slice? (before ++ part ++ after) before.utf8ByteSize
      (before.utf8ByteSize + part.utf8ByteSize) = some part := by
  have valid : (String.Pos.Raw.mk before.utf8ByteSize).IsValid (before ++ part ++ after) :=
    isValid_iff_exists_append.2 ⟨before, part ++ after, String.append_assoc, rfl⟩
  have valid' : (String.Pos.Raw.mk (before.utf8ByteSize + part.utf8ByteSize)).IsValid
      (before ++ part ++ after) :=
    isValid_iff_exists_append.2 ⟨before ++ part, after, rfl, String.utf8ByteSize_append⟩
  rw [slice?, dif_pos ⟨valid, valid', Nat.le_add_right ..⟩, Option.some_inj,
    ← String.toByteArray_inj, String.toByteArray_extract]
  simp only [String.toByteArray_append, ByteArray.append_assoc, ← String.size_toByteArray]
  rw [show before.toByteArray.size = before.toByteArray.size + 0 from rfl, Nat.add_assoc,
    ByteArray.extract_append_size_add, Nat.zero_add, ByteArray.extract_append_eq_left rfl]

/-- A slice is what stands between two boundaries. -/
theorem slice?_eq_some_iff {text part : String} {start stop : Nat} :
    slice? text start stop = some part ↔
      ∃ before after, text = before ++ part ++ after ∧ before.utf8ByteSize = start ∧
        start + part.utf8ByteSize = stop := by
  constructor
  · unfold slice?
    split
    next h =>
      intro cut
      obtain ⟨before, _, split, size⟩ := isValid_iff_exists_append.1 h.1
      obtain ⟨upto, after, split', size'⟩ := isValid_iff_exists_append.1 h.2.1
      have inside : part.toByteArray = text.toByteArray.extract start stop := by
        rw [← Option.some.inj cut, String.toByteArray_extract]
      have outside : upto.toByteArray = before.toByteArray ++ part.toByteArray := by
        have left : before.toByteArray = text.toByteArray.extract 0 start := by
          rw [split, String.toByteArray_append, ByteArray.extract_append_eq_left (by simp [size])]
        have left' : upto.toByteArray = text.toByteArray.extract 0 stop := by
          rw [split', String.toByteArray_append, ByteArray.extract_append_eq_left (by simp [size'])]
        rw [left, left', inside]
        exact ByteArray.extract_eq_extract_append_extract start (Nat.zero_le _) h.2.2
      refine ⟨before, after, ?_, size, ?_⟩
      · rw [split', ← String.toByteArray_inj]
        simp [outside]
      · rw [← size, ← size', ← String.size_toByteArray, ← String.size_toByteArray,
          ← String.size_toByteArray, outside, ByteArray.size_append]
    next => nofun
  · rintro ⟨before, after, rfl, rfl, rfl⟩
    exact slice?_append ..

end TypeExprLexer.Utf8
