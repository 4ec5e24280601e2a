import Mathlib.Data.Nat.Find
import TypeExprLexer.Proofs.Blanks

/-!
A reader of characters.

`CharacterReader.read` says in characters what the lexemes of a type expression
are: `$this`, the longest name, nothing for a blank, or one character. A scan reads
bytes and yields the same lexemes at the same offsets (`PatternSet.scan_eq_read`).
The two agree because the first byte of a character tells its class and all
further bytes continue names (`CharacterReader.exists_encodeChar`), so names of
bytes are names of characters (`CharacterReader.isName_encode_iff`).
-/

namespace TypeExprLexer

namespace CharacterReader

/-! ### Classes of characters -/

/-- An ASCII letter, an underscore or any character outside ASCII. -/
def startsSegment (c : Char) : Bool :=
  c.isAlpha || c == '_' || decide (0x80 ≤ c.toNat)

/-- A character that starts segments, or an ASCII digit. -/
def continuesSegment (c : Char) : Bool :=
  startsSegment c || c.isDigit

def isBlank (c : Char) : Bool :=
  [' ', '\t', '\n', '\x0b', '\x0c', '\r'].contains c

/-- The characters of `$this`. -/
def thisChars : List Char :=
  ['$', 't', 'h', 'i', 's']

/-- The characters of names. -/
abbrev characterAlphabet : NameGrammar.Alphabet Char where
  starts := startsSegment
  continues := continuesSegment
  separator := '\\'

/-- The first five characters are `$this` in some letter case. -/
def BeginsThis (chars : List Char) : Prop :=
  (chars.take thisChars.length).map Char.toLower = thisChars

instance (chars : List Char) : Decidable (BeginsThis chars) :=
  inferInstanceAs (Decidable (_ = _))

/-! ### The reader -/

/-- The bytes that characters take. -/
def width : List Char → Nat
  | [] => 0
  | c :: cs => c.utf8Size + width cs

/-- How many characters the longest name has behind its first one. -/
def nameRest (first : Char) (chars : List Char) : Nat :=
  Nat.findGreatest (fun n => NameGrammar.IsName characterAlphabet (first :: chars.take n))
    chars.length

/-- The lexemes of a type expression, the first character of which stands at a
byte offset. -/
def read (offset : Nat) : List Char → List Lexeme
  | [] => []
  | c :: cs =>
      if BeginsThis (c :: cs) then
        ⟨String.ofList (c :: cs.take 4), offset⟩ ::
          read (offset + width (c :: cs.take 4)) (cs.drop 4)
      else if startsSegment c ∨ c = '\\' then
        ⟨String.ofList (c :: cs.take (nameRest c cs)), offset⟩ ::
          read (offset + width (c :: cs.take (nameRest c cs))) (cs.drop (nameRest c cs))
      else if isBlank c then read (offset + width [c]) cs
      else ⟨String.ofList [c], offset⟩ :: read (offset + width [c]) cs
termination_by chars => chars.length

/-! ### Characters and their bytes -/

theorem length_encode_eq_width (chars : List Char) :
    (Utf8.encode chars).length = width chars := by
  induction chars with
  | nil => rfl
  | cons c cs ih =>
      rw [Utf8.encode_cons, List.length_append, ih, String.length_utf8EncodeChar]
      rfl

theorem forall_ascii {p : Char → Prop} (table : ∀ n < 0x80, p (Char.ofNat n)) :
    ∀ c : Char, c.toNat < 0x80 → p c := by
  intro c ascii
  have own := table c.toNat ascii
  rwa [Char.ofNat_toNat] at own

/-- An ASCII character has the classes of its byte. -/
theorem classes_of_lt : ∀ c : Char, c.toNat < 0x80 →
    ByteClass.isNameStart (UInt8.ofNat c.toNat) = startsSegment c ∧
      ByteClass.isNamePart (UInt8.ofNat c.toNat) = continuesSegment c ∧
      ByteClass.isBlank (UInt8.ofNat c.toNat) = isBlank c ∧
      (UInt8.ofNat c.toNat = ByteClass.separator ↔ c = '\\') :=
  forall_ascii (by decide)

/-- An ASCII character has the lower case of its byte. -/
theorem toLower_of_lt : ∀ c : Char, c.toNat < 0x80 →
    ByteClass.toLower (UInt8.ofNat c.toNat) = UInt8.ofNat c.toLower.toNat ∧
      c.toLower.toNat < 0x80 :=
  forall_ascii (by decide)

theorem classes_of_le {c : Char} (wide : 0x80 ≤ c.toNat) :
    startsSegment c ∧ continuesSegment c ∧ ¬ isBlank c ∧ c ≠ '\\' := by
  have start : startsSegment c := by simp [startsSegment, wide]
  refine ⟨start, by rw [continuesSegment, start, Bool.true_or], ?_, ?_⟩
  · intro blank
    have low : ∀ x ∈ [' ', '\t', '\n', '\x0b', '\x0c', '\r'], x.toNat < 0x80 := by simp
    exact Nat.not_lt.mpr wide (low c (List.contains_iff_mem.mp blank))
  · rintro rfl
    exact absurd wide (by decide)

/-- Outside ASCII there is no letter case. -/
theorem toLower_of_le {c : Char} (wide : 0x80 ≤ c.toNat) : c.toLower = c := by
  have upper : ¬ (c.val ≥ 'A'.val ∧ c.val ≤ 'Z'.val) := by
    rintro ⟨_, high⟩
    have := UInt32.le_iff_toNat_le.mp high
    exact absurd (Nat.le_trans wide this) (by decide)
  exact dif_neg upper

/-- The first byte of a character has the classes of the character, and all other
bytes continue names. -/
theorem exists_encodeChar (c : Char) : ∃ b bs, String.utf8EncodeChar c = b :: bs ∧
    ByteClass.isNameStart b = startsSegment c ∧ ByteClass.isNamePart b = continuesSegment c ∧
    ByteClass.isBlank b = isBlank c ∧ (b = ByteClass.separator ↔ c = '\\') ∧
    ∀ x ∈ bs, ByteClass.isNamePart x := by
  by_cases ascii : c.toNat < 0x80
  · obtain ⟨start, part, blank, separated⟩ := classes_of_lt c ascii
    exact ⟨_, [], Utf8.encodeChar_of_lt ascii, start, part, blank, separated, nofun⟩
  · have wide := Nat.le_of_not_lt ascii
    obtain ⟨start, part, blank, other⟩ := classes_of_le wide
    obtain ⟨lead, tail, eq, _⟩ := Utf8.encodeChar_of_le wide
    have high : ∀ b ∈ lead :: tail, 0x80 ≤ b := fun b mem =>
      Utf8.le_of_mem_encodeChar wide (eq ▸ mem)
    have lead_le := high lead List.mem_cons_self
    refine ⟨lead, tail, eq, ?_, ?_, ?_, ?_, ?_⟩
    · rw [start]
      exact Pattern.isNameStart_of_le lead_le
    · rw [part]
      exact Pattern.isNamePart_of_le lead_le
    · rw [Bool.eq_false_iff.mpr (Pattern.not_isBlank_of_le lead_le), Bool.eq_false_iff.mpr blank]
    · refine iff_of_false ?_ other
      rintro rfl
      exact absurd lead_le (by decide)
    · intro x mem
      exact Pattern.isNamePart_of_le (high x (List.mem_cons_of_mem _ mem))

/-! ### Names of bytes and names of characters -/

open NameGrammar

/-- Name bytes in front of a tail are part of it. -/
theorem isTail_append_iff {part : List UInt8} (rest : List UInt8)
    (parts : ∀ b ∈ part, ByteClass.isNamePart b) :
    IsTail byteAlphabet (part ++ rest) ↔ IsTail byteAlphabet rest := by
  induction part with
  | nil => rfl
  | cons b bs ih =>
      obtain ⟨first, parts⟩ := List.forall_mem_cons.mp parts
      rw [List.cons_append, isTail_cons_iff, ih parts]
      constructor
      · rintro (⟨_, tailed⟩ | ⟨rfl, _⟩)
        · exact tailed
        · exact absurd first (by decide)
      · intro tailed
        exact .inl ⟨first, tailed⟩

/-- Tails of names are the same in bytes and in characters. -/
theorem isTail_encode_iff (chars : List Char) :
    IsTail byteAlphabet (Utf8.encode chars) ↔ IsTail characterAlphabet chars := by
  match chars with
  | [] => exact iff_of_true isTail_nil isTail_nil
  | c :: cs =>
      obtain ⟨b, bs, eq, _, part, _, separated, parts⟩ := exists_encodeChar c
      have further : (b = ByteClass.separator ∧ ∃ d rest, bs ++ Utf8.encode cs = d :: rest ∧
            ByteClass.isNameStart d ∧ IsTail byteAlphabet rest) ↔
          (c = '\\' ∧ ∃ d rest, cs = d :: rest ∧ startsSegment d ∧
            IsTail characterAlphabet rest) := by
        rw [separated]
        apply and_congr_right
        intro backslash
        subst backslash
        have single : String.utf8EncodeChar '\\' = [ByteClass.separator] := rfl
        obtain ⟨rfl, rfl⟩ := List.cons.inj (eq.symm.trans single)
        rw [List.nil_append]
        match cs with
        | [] => simp
        | d :: ds =>
            obtain ⟨x, xs, eq, start, _, _, _, parts⟩ := exists_encodeChar d
            rw [Utf8.encode_cons, eq, List.cons_append]
            constructor
            · rintro ⟨_, _, same, first, tailed⟩
              cases same
              rw [isTail_append_iff _ parts, isTail_encode_iff ds] at tailed
              exact ⟨d, ds, rfl, start ▸ first, tailed⟩
            · rintro ⟨_, _, same, first, tailed⟩
              cases same
              rw [← isTail_encode_iff ds, ← isTail_append_iff _ parts] at tailed
              exact ⟨x, _, rfl, start.symm ▸ first, tailed⟩
      rw [Utf8.encode_cons, eq, List.cons_append, isTail_cons_iff, isTail_cons_iff,
        isTail_append_iff _ parts, isTail_encode_iff cs]
      exact or_congr (and_congr_left' (iff_of_eq (congrArg (· = true) part))) further
termination_by chars.length

/-- A word is a name of characters exactly if its bytes are a name of bytes. -/
theorem isName_encode_iff (word : List Char) :
    IsName byteAlphabet (Utf8.encode word) ↔ IsName characterAlphabet word := by
  cases word with
  | nil => exact iff_of_false not_isName_nil not_isName_nil
  | cons c cs =>
      obtain ⟨b, bs, eq, start, _, _, separated, parts⟩ := exists_encodeChar c
      rw [Utf8.encode_cons, eq, List.cons_append, isName_cons_iff, isName_cons_iff,
        isTail_append_iff _ parts, isTail_encode_iff cs]
      exact and_congr_left' (or_congr (iff_of_eq (congrArg (· = true) start)) separated)

/-! ### `$this` -/

theorem ofNat_inj_of_lt {m n : Nat} (hm : m < 0x80) (hn : n < 0x80) :
    UInt8.ofNat m = UInt8.ofNat n ↔ m = n := by
  rw [← UInt8.toNat_inj, UInt8.toNat_ofNat', UInt8.toNat_ofNat', Nat.mod_eq_of_lt (by omega),
    Nat.mod_eq_of_lt (by omega)]

/-- Only the two cases of an ASCII letter have a byte that is the letter's in
lower case. -/
theorem toLower_head_eq_iff {c x : Char} {b : UInt8} {bs : List UInt8}
    (eq : String.utf8EncodeChar c = b :: bs) (low : x.toNat < 0x80) :
    ByteClass.toLower b = UInt8.ofNat x.toNat ↔ c.toLower = x := by
  by_cases ascii : c.toNat < 0x80
  · obtain ⟨lower, bound⟩ := toLower_of_lt c ascii
    obtain ⟨rfl, _⟩ := List.cons.inj (eq.symm.trans (Utf8.encodeChar_of_lt ascii))
    rw [lower, ofNat_inj_of_lt bound low, Char.toNat_inj]
  · have wide := Nat.le_of_not_lt ascii
    obtain ⟨lead, tail, eq', high, _, _⟩ := Utf8.encodeChar_of_le wide
    obtain ⟨rfl, _⟩ := List.cons.inj (eq.symm.trans eq')
    have lead_le := UInt8.le_iff_toNat_le.mp high
    simp only [UInt8.reduceToNat] at lead_le
    have noLetter : ¬ ByteClass.isLetter b := by
      rw [ByteClass.isLetter_iff]
      omega
    rw [ByteClass.toLower_of_not_isLetter noLetter, toLower_of_le wide]
    apply iff_of_false
    · rintro rfl
      rw [UInt8.toNat_ofNat', Nat.mod_eq_of_lt (by omega)] at lead_le
      omega
    · rintro rfl
      exact ascii low

theorem lt_of_toLower_lt {c : Char} (low : c.toLower.toNat < 0x80) : c.toNat < 0x80 := by
  by_contra wide
  rw [toLower_of_le (Nat.le_of_not_lt wide)] at low
  exact wide low

theorem map_toLower_take_encode_iff {word : List Char} (low : ∀ x ∈ word, x.toNat < 0x80)
    (chars : List Char) :
    ((Utf8.encode chars).take word.length).map ByteClass.toLower =
        word.map (fun x => UInt8.ofNat x.toNat) ↔
      (chars.take word.length).map Char.toLower = word := by
  induction word generalizing chars with
  | nil => simp
  | cons x xs ih =>
      obtain ⟨first, low⟩ := List.forall_mem_cons.mp low
      cases chars with
      | nil => simp
      | cons c cs =>
          obtain ⟨b, bs, eq, _⟩ := exists_encodeChar c
          have head := toLower_head_eq_iff eq first
          rw [Utf8.encode_cons, eq, List.length_cons, List.cons_append, List.take_succ_cons,
            List.take_succ_cons, List.map_cons, List.map_cons, List.map_cons, List.cons.injEq,
            List.cons.injEq, head]
          apply and_congr_right
          intro same
          have ascii := lt_of_toLower_lt (same ▸ first)
          obtain ⟨_, rfl⟩ := List.cons.inj (eq.symm.trans (Utf8.encodeChar_of_lt ascii))
          exact ih low cs

theorem toNat_lt_of_mem_thisChars : ∀ x ∈ thisChars, x.toNat < 0x80 := by
  simp [thisChars]

theorem beginsThis_encode_iff (chars : List Char) :
    Pattern.BeginsThis (Utf8.encode chars) ↔ BeginsThis chars :=
  map_toLower_take_encode_iff toNat_lt_of_mem_thisChars chars

/-- ASCII characters take one byte each. -/
theorem width_eq_length {chars : List Char} (ascii : ∀ c ∈ chars, c.toNat < 0x80) :
    width chars = chars.length := by
  induction chars with
  | nil => rfl
  | cons c cs ih =>
      obtain ⟨first, ascii⟩ := List.forall_mem_cons.mp ascii
      have one : c.utf8Size = 1 := by
        rw [← String.length_utf8EncodeChar, Utf8.encodeChar_of_lt first]
        rfl
      rw [width, one, ih ascii, List.length_cons, Nat.add_comm]

theorem width_take_of_beginsThis {chars : List Char} (this : BeginsThis chars) :
    width (chars.take 5) = 5 := by
  have ascii : ∀ c ∈ chars.take 5, c.toNat < 0x80 := by
    intro c mem
    have inside : c.toLower ∈ thisChars := this ▸ List.mem_map_of_mem mem
    exact lt_of_toLower_lt (toNat_lt_of_mem_thisChars _ inside)
  have size : (chars.take 5).length = 5 := by
    simpa [thisChars] using congrArg List.length this
  rw [width_eq_length ascii, size]

/-! ### The longest name -/

theorem width_append (cs ds : List Char) : width (cs ++ ds) = width cs + width ds := by
  simp [← length_encode_eq_width]

theorem width_cons_take_le (c : Char) (cs : List Char) {m n : Nat} (le : m ≤ n) :
    width (c :: cs.take m) ≤ width (c :: cs.take n) := by
  obtain ⟨more, eq⟩ := List.take_prefix_take_left le (l := cs)
  rw [← eq, ← List.cons_append, width_append]
  exact Nat.le_add_right ..

theorem cons_take_append_drop (c : Char) (cs : List Char) (n : Nat) :
    c :: cs.take n ++ cs.drop n = c :: cs :=
  congrArg (c :: ·) (List.take_append_drop n cs)

theorem isName_cons_take_nameRest {c : Char} (start : startsSegment c ∨ c = '\\')
    (cs : List Char) : IsName characterAlphabet (c :: cs.take (nameRest c cs)) := by
  have least : IsName characterAlphabet (c :: cs.take 0) :=
    isName_cons_iff.mpr ⟨start, isTail_nil⟩
  exact Nat.findGreatest_spec (P := fun n => IsName characterAlphabet (c :: cs.take n))
    (Nat.zero_le _) least

/-- The longest name of bytes is the longest name of characters. -/
theorem nameLength_encode_cons {c : Char} (start : startsSegment c ∨ c = '\\') (cs : List Char) :
    Pattern.nameLength (Utf8.encode (c :: cs)) = width (c :: cs.take (nameRest c cs)) := by
  have longest := isName_cons_take_nameRest start cs
  have reached : width (c :: cs.take (nameRest c cs)) ≤
      Pattern.nameLength (Utf8.encode (c :: cs)) := by
    rw [← length_encode_eq_width]
    apply length_le_nameLength ((isName_encode_iff _).mpr longest)
    refine ⟨Utf8.encode (cs.drop (nameRest c cs)), ?_⟩
    rw [← Utf8.encode_append, List.cons_append, List.take_append_drop]
  refine Nat.le_antisymm ?_ reached
  have pos : 0 < Pattern.nameLength (Utf8.encode (c :: cs)) := by
    refine Nat.lt_of_lt_of_le ?_ reached
    obtain ⟨b, bs, eq, _⟩ := exists_encodeChar c
    rw [← length_encode_eq_width, Utf8.encode_cons, eq]
    exact Nat.succ_pos _
  -- The bytes that are taken are whole characters, which are a name too.
  obtain ⟨part, rest, split, size⟩ := Pattern.isBoundary_nameLength (c :: cs)
  have named := isName_take pos
  have whole : Utf8.encode (c :: cs) = Utf8.encode part ++ Utf8.encode rest := by
    rw [split, Utf8.encode_append]
  rw [← size, whole, List.take_left, isName_encode_iff] at named
  cases part with
  | nil => exact absurd named not_isName_nil
  | cons d ds =>
      obtain ⟨rfl, rfl⟩ := List.cons.inj split
      have within : ds.length ≤ nameRest c (ds ++ rest) := by
        apply Nat.le_findGreatest (by simp)
        rw [List.take_left]
        exact named
      have := width_cons_take_le c (ds ++ rest) within
      rw [List.take_left] at this
      rwa [← size, length_encode_eq_width]

end CharacterReader

/-! ### The scan and the reader -/

namespace PatternSet

open CharacterReader

theorem bytes_ofList (chars : List Char) : Utf8.bytes (String.ofList chars) = Utf8.encode chars := by
  rw [Utf8.bytes, String.toList_ofList]

theorem utf8ByteSize_ofList (chars : List Char) :
    (String.ofList chars).utf8ByteSize = width chars := by
  rw [← Utf8.length_encode, length_encode_eq_width]

/-- A word that a move emits is the first lexeme. -/
theorem map_scan_of_emit {chars word rest : List Char} {p : Option Pattern} (offset : Nat)
    (split : word ++ rest = chars)
    (emitted : typeExpression.step (Utf8.encode chars) = .emit (width word) p) :
    (typeExpression.scan (String.ofList chars)).map (Lexeme.shift offset) =
      ⟨String.ofList word, offset⟩ ::
        (typeExpression.scan (String.ofList rest)).map (Lexeme.shift (offset + width word)) := by
  subst split
  rw [← bytes_ofList, ← utf8ByteSize_ofList, String.ofList_append] at emitted
  rw [String.ofList_append, scan_of_emit emitted, utf8ByteSize_ofList]
  simp [Lexeme.shift, Function.comp_def, Nat.add_assoc]

theorem step_encode_of_beginsThis {c : Char} {cs : List Char} (this : BeginsThis (c :: cs)) :
    typeExpression.step (Utf8.encode (c :: cs)) =
      .emit (width (c :: cs.take 4)) (some .thisVariable) := by
  have begins := (beginsThis_encode_iff _).mpr this
  have five : width (c :: cs.take 4) = 5 := width_take_of_beginsThis this
  obtain ⟨b, bs, eq, _⟩ := exists_encodeChar c
  rw [Utf8.encode_cons, eq, List.cons_append] at begins ⊢
  rw [step_typeExpression_cons, if_pos begins, five]

theorem step_encode_of_starts {c : Char} (start : startsSegment c ∨ c = '\\') (cs : List Char) :
    typeExpression.step (Utf8.encode (c :: cs)) =
      .emit (width (c :: cs.take (nameRest c cs))) (some .name) := by
  have length := nameLength_encode_cons start cs
  have pos : 0 < Pattern.nameLength (Utf8.encode (c :: cs)) := by
    obtain ⟨b, bs, eq, _⟩ := exists_encodeChar c
    rw [length, ← length_encode_eq_width, Utf8.encode_cons, eq]
    exact Nat.succ_pos _
  rw [step_of_nameLength_pos pos, length]

/-- A character that begins no name is one of ASCII. -/
theorem ascii_of_not_starts {c : Char} (other : ¬ (startsSegment c ∨ c = '\\')) :
    c.toNat < 0x80 := by
  by_contra wide
  exact other (.inl (classes_of_le (Nat.le_of_not_lt wide)).1)

theorem step_encode_of_other {c : Char} {cs : List Char} (noThis : ¬ BeginsThis (c :: cs))
    (noName : ¬ (startsSegment c ∨ c = '\\')) (noBlank : ¬ isBlank c) :
    typeExpression.step (Utf8.encode (c :: cs)) = .emit (width [c]) (some .anyChar) := by
  have ascii := ascii_of_not_starts noName
  rw [← beginsThis_encode_iff] at noThis
  obtain ⟨b, bs, eq, start, _, blank, separated, _⟩ := exists_encodeChar c
  rw [← start, ← separated] at noName
  rw [← blank] at noBlank
  obtain ⟨low, rfl⟩ := List.cons.inj (eq.symm.trans (Utf8.encodeChar_of_lt ascii))
  have one : Utf8.leadWidth b = width [c] := by
    rw [width_eq_length (List.forall_mem_singleton.mpr ascii), low,
      Utf8.leadWidth_ofNat (by omega), if_pos (by omega)]
    rfl
  rw [Utf8.encode_cons, eq, List.singleton_append] at noThis ⊢
  rw [step_typeExpression_cons, if_neg noThis, if_neg noName, if_neg noBlank, one]

theorem map_scan_eq_read (offset : Nat) (chars : List Char) :
    (typeExpression.scan (String.ofList chars)).map (Lexeme.shift offset) = read offset chars := by
  fun_induction read offset chars with
  | case1 offset => simp
  | case2 offset c cs this ih =>
      rw [← ih, map_scan_of_emit offset (cons_take_append_drop c cs 4)
        (step_encode_of_beginsThis this)]
  | case3 offset c cs noThis start ih =>
      rw [← ih, map_scan_of_emit offset (cons_take_append_drop c cs _)
        (step_encode_of_starts start cs)]
  | case4 offset c cs noThis noName blank ih =>
      have ascii := ascii_of_not_starts noName
      obtain ⟨b, bs, eq, _, _, same, _⟩ := exists_encodeChar c
      obtain ⟨_, rfl⟩ := List.cons.inj (eq.symm.trans (Utf8.encodeChar_of_lt ascii))
      have blanks : ∀ x ∈ Utf8.bytes (String.ofList [c]), ByteClass.isBlank x := by
        rw [bytes_ofList, Utf8.encode_cons, eq]
        exact List.forall_mem_singleton.mpr (same.trans blank)
      have skipped := scan_blanks_append skipsBlanks_typeExpression (String.ofList cs) blanks
      rw [← String.ofList_append, utf8ByteSize_ofList, List.singleton_append] at skipped
      rw [← ih, skipped, List.map_map]
      simp [Function.comp_def]
  | case5 offset c cs noThis noName noBlank ih =>
      have split : [c] ++ cs = c :: cs := rfl
      rw [← ih, map_scan_of_emit offset split (step_encode_of_other noThis noName noBlank)]

/-- A scan of bytes yields what the reader of characters does. -/
theorem scan_eq_read (text : String) : typeExpression.scan text = read 0 text.toList := by
  rw [← map_scan_eq_read, String.ofList_toList, Lexeme.map_shift_zero]

example : read 0 "é\\1\\a $ThIs".toList = [⟨"é", 0⟩, ⟨"\\1\\a", 2⟩, ⟨"$ThIs", 7⟩] := by
  decide +kernel

end PatternSet

end TypeExprLexer
