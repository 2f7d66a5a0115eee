import StyleCascade.Json.Printer
import StyleCascade.Json.Reader

/-!
# Tokens of a JSON text

A string between quotes is read back whatever characters it holds (`Json.text_bytesOf`), and so
is an integer of 64 bits, with or without a sign, if nothing behind it could belong to a number
(`Json.scalar_integer`).  Strings are read byte by byte: a character either stands for itself,
in bytes of which none is a quote, a backslash or a control, or has an escape of its own
(`Json.stringBytes_escaped`).
-/
namespace StyleCascade.Json

/-! ## Bytes of characters -/

/-- The UTF-8 bytes of characters. -/
def bytesOf (cs : List Char) : Bytes :=
  cs.flatMap String.utf8EncodeChar

@[simp]
theorem bytesOf_append (a b : List Char) : bytesOf (a ++ b) = bytesOf a ++ bytesOf b :=
  List.flatMap_append

theorem bytesOf_cons (c : Char) (cs : List Char) :
    bytesOf (c :: cs) = String.utf8EncodeChar c ++ bytesOf cs := rfl

theorem bytesOf_singleton (c : Char) : bytesOf [c] = String.utf8EncodeChar c :=
  List.append_nil _

theorem utf8EncodeChar_of_lt {c : Char} (h : c.toNat < 0x80) :
    String.utf8EncodeChar c = [byte c] := by
  have hc : c.val.toNat ≤ 0x7f := Nat.le_of_lt_succ h
  rw [String.utf8EncodeChar, if_pos hc]
  rfl

theorem bytesOf_cons_of_lt {c : Char} (h : c.toNat < 0x80) (cs : List Char) :
    bytesOf (c :: cs) = byte c :: bytesOf cs := by
  rw [bytesOf_cons, utf8EncodeChar_of_lt h, List.singleton_append]

theorem bytesOf_of_forall_lt {cs : List Char} (h : ∀ c ∈ cs, c.toNat < 0x80) :
    bytesOf cs = cs.map byte := by
  induction cs with
  | nil => rfl
  | cons c cs ih =>
    obtain ⟨hc, hcs⟩ := List.forall_mem_cons.mp h
    rw [bytesOf_cons_of_lt hc, ih hcs, List.map_cons]

theorem toByteArray_bytesOf (cs : List Char) :
    (bytesOf cs).toByteArray = (String.ofList cs).toByteArray := by
  rw [String.toByteArray_ofList]
  rfl

theorem data_toUTF8_ofList (cs : List Char) :
    (String.ofList cs).toUTF8.data.toList = bytesOf cs := by
  rw [String.toUTF8_eq_toByteArray, ← toByteArray_bytesOf, List.toList_data_toByteArray]

/-- Every byte of a character above U+007F is above 0x7F. -/
theorem le_of_mem_utf8EncodeChar {c : Char} {b : UInt8} (h : 0x80 ≤ c.toNat)
    (hb : b ∈ String.utf8EncodeChar c) : 0x80 ≤ b := by
  have hc : ¬c.val.toNat ≤ 0x7f := Nat.not_le.mpr h
  have hlimit : c.val.toNat < 0x110000 := by
    rcases c.valid with hv | hv <;> exact Nat.lt_of_lt_of_le (by first | exact hv | exact hv.2)
      (by decide)
  rw [UInt8.le_iff_toNat_le]
  unfold String.utf8EncodeChar at hb
  simp only [hc, if_false] at hb
  split at hb
  · simp only [List.mem_cons, List.not_mem_nil, or_false] at hb
    rcases hb with rfl | rfl <;> simp only [UInt8.toNat_ofNat', UInt8.reduceToNat] <;> omega
  split at hb
  · simp only [List.mem_cons, List.not_mem_nil, or_false] at hb
    rcases hb with rfl | rfl | rfl <;> simp only [UInt8.toNat_ofNat', UInt8.reduceToNat] <;> omega
  · simp only [List.mem_cons, List.not_mem_nil, or_false] at hb
    rcases hb with rfl | rfl | rfl | rfl <;>
      simp only [UInt8.toNat_ofNat', UInt8.reduceToNat] <;> omega

/-! ## Strings -/

section Strings

variable (strict : Bool) (rest : Bytes)

/-- A byte that stands for itself. -/
theorem stringBytes_plain {b : UInt8} (hcontrol : ¬b < 0x20) (hquote : b ≠ 0x22)
    (hbackslash : b ≠ 0x5C) :
    stringBytes strict (b :: rest) = (stringBytes strict rest).map fun r => (b :: r.1, r.2) := by
  rw [stringBytes]
  · rw [if_neg hcontrol]
    cases stringBytes strict rest <;> rfl
  · exact hquote
  · rintro _ _ _ _ _ rfl
    contradiction
  · exact hbackslash

theorem stringBytes_plain_append {front : Bytes}
    (h : ∀ b ∈ front, ¬b < 0x20 ∧ b ≠ 0x22 ∧ b ≠ 0x5C) :
    stringBytes strict (front ++ rest) =
      (stringBytes strict rest).map fun r => (front ++ r.1, r.2) := by
  induction front with
  | nil => cases hrest : stringBytes strict rest <;> simp [hrest, Except.map]
  | cons b front ih =>
    obtain ⟨⟨hcontrol, hquote, hbackslash⟩, hfront⟩ := List.forall_mem_cons.mp h
    rw [List.cons_append, stringBytes_plain strict _ hcontrol hquote hbackslash, ih hfront]
    cases stringBytes strict rest <;> rfl

/-- A one-letter escape. -/
theorem stringBytes_simple {b y : UInt8} (h : simpleEscape? b = some y) :
    stringBytes strict (0x5C :: b :: rest) =
      (stringBytes strict rest).map fun r => (y :: r.1, r.2) := by
  have hb : b ≠ 0x75 := fun e => absurd (e ▸ h) (by simp [simpleEscape?, byte])
  rw [stringBytes]
  · simp only [hb, if_false, h]
    cases stringBytes strict rest <;> rfl
  · intro _ _ _ _ _ h
    exact hb (List.cons.inj h).1

/-- An escape of four digits that is no surrogate. -/
theorem stringBytes_unicode {a b c d : UInt8} {n : Nat} (h : hexValue4? a b c d = some n)
    (hn : n < 0xD800) :
    stringBytes strict (0x5C :: 0x75 :: a :: b :: c :: d :: rest) =
      (stringBytes strict rest).map fun r => (utf8 n ++ r.1, r.2) := by
  have hhigh : isHighSurrogate n = false := by
    simp only [isHighSurrogate, Bool.and_eq_false_iff, decide_eq_false_iff_not]
    omega
  have hlow : isLowSurrogate n = false := by
    simp only [isLowSurrogate, Bool.and_eq_false_iff, decide_eq_false_iff_not]
    omega
  rw [stringBytes]
  simp only [h, hhigh, hlow, Bool.not_false, Bool.and_self, Bool.or_true, if_true]
  cases stringBytes strict rest <;> rfl

/-- No byte of a character that needs no escape is read as anything but itself. -/
theorem plain_of_mem_utf8EncodeChar {c : Char} {b : UInt8} (hcontrol : ¬c.toNat < 0x20)
    (hquote : c ≠ '"') (hbackslash : c ≠ '\\') (hb : b ∈ String.utf8EncodeChar c) :
    ¬b < 0x20 ∧ b ≠ 0x22 ∧ b ≠ 0x5C := by
  simp only [UInt8.lt_iff_toNat_lt, ne_eq, ← UInt8.toNat_inj, UInt8.reduceToNat]
  by_cases hascii : c.toNat < 0x80
  · rw [utf8EncodeChar_of_lt hascii, List.mem_singleton] at hb
    have hb : b.toNat = c.toNat := by
      rw [hb, byte, UInt8.toNat_ofNat', Nat.mod_eq_of_lt (by omega)]
    rw [hb]
    exact ⟨hcontrol, fun h => hquote (Char.toNat_inj.mp h),
      fun h => hbackslash (Char.toNat_inj.mp h)⟩
  · have hlarge := UInt8.le_iff_toNat_le.mp (le_of_mem_utf8EncodeChar (Nat.le_of_not_lt hascii) hb)
    simp only [UInt8.reduceToNat] at hlarge
    omega

/-- The escape of a control is read as its number. -/
theorem hexValue4?_control : ∀ n < 0x20,
    hexValue4? (byte '0') (byte '0') (byte (hexDigit (n / 16))) (byte (hexDigit (n % 16))) =
      some n := by
  decide

theorem toNat_hexDigit_lt : ∀ n < 16, (hexDigit n).toNat < 0x80 := by
  decide

/-- A character is read back from the way it stands in a string. -/
theorem stringBytes_escaped (c : Char) :
    stringBytes strict (bytesOf (escaped c) ++ rest) =
      (stringBytes strict rest).map fun r => (String.utf8EncodeChar c ++ r.1, r.2) := by
  unfold escaped
  split
  iterate 7 exact stringBytes_simple strict rest rfl
  rename_i hquote hbackslash _ _ _ _ _
  split
  · rename_i hcontrol
    have hdigits : bytesOf ['\\', 'u', '0', '0', hexDigit (c.toNat / 16), hexDigit (c.toNat % 16)] =
        [0x5C, 0x75, byte '0', byte '0', byte (hexDigit (c.toNat / 16)),
          byte (hexDigit (c.toNat % 16))] := by
      rw [bytesOf_of_forall_lt]
      · rfl
      · have hhigh := toNat_hexDigit_lt (c.toNat / 16) (by omega)
        have hlow := toNat_hexDigit_lt (c.toNat % 16) (by omega)
        simp [hhigh, hlow]
    have hread := stringBytes_unicode strict rest (hexValue4?_control c.toNat hcontrol) (by omega)
    rw [utf8, Char.ofNat_toNat] at hread
    rw [hdigits]
    exact hread
  · rename_i hcontrol
    rw [bytesOf_singleton]
    exact stringBytes_plain_append strict rest fun b hb =>
      plain_of_mem_utf8EncodeChar hcontrol hquote hbackslash hb

theorem stringBytes_flatMap_escaped (cs : List Char) :
    stringBytes strict (bytesOf (cs.flatMap escaped) ++ byte '"' :: rest) =
      .ok (bytesOf cs, rest) := by
  induction cs with
  | nil => exact stringBytes.eq_2 strict rest
  | cons c cs ih =>
    rw [List.flatMap_cons, bytesOf_append, List.append_assoc, stringBytes_escaped, ih]
    rfl

end Strings

theorem bytesOf_quoted (s : String) :
    bytesOf (quoted s) =
      byte '"' :: (bytesOf (s.toList.flatMap escaped) ++ [byte '"']) := by
  rw [quoted, List.cons_append, bytesOf_cons_of_lt (by decide), bytesOf_append]
  rfl

/-- **A string is read back from its text**, the opening quote apart. -/
theorem text_bytesOf (s : String) (rest : Bytes) :
    text (bytesOf (s.toList.flatMap escaped) ++ byte '"' :: rest) = .ok (s, rest) := by
  have hvalid : String.fromUTF8? (bytesOf s.toList).toByteArray = some s := by
    rw [toByteArray_bytesOf, String.ofList_toList, String.fromUTF8?]
    exact dif_pos s.isValidUTF8
  rw [text, stringBytes_flatMap_escaped]
  simp only [bind, Except.bind, hvalid]

/-! ## Integers -/

/-- What may follow an integer: nothing that a number could go on with. -/
def EndsNumber (rest : Bytes) : Prop :=
  ∀ b ∈ rest.head?, isDigit b = false ∧ b ≠ byte '.' ∧ b ≠ byte 'e' ∧ b ≠ byte 'E'

/-- The bytes of the decimal digits of a number. -/
def decimal (n : Nat) : Bytes :=
  (Nat.toDigits 10 n).map byte

theorem toNat_of_isDigit {c : Char} (h : c.isDigit = true) : 48 ≤ c.toNat ∧ c.toNat ≤ 57 :=
  Char.isDigit_iff_toNat.mp h

theorem toNat_byte_of_isDigit {c : Char} (h : c.isDigit = true) : (byte c).toNat = c.toNat := by
  have := toNat_of_isDigit h
  rw [byte, UInt8.toNat_ofNat', Nat.mod_eq_of_lt (by omega)]

theorem isDigit_iff (b : UInt8) : isDigit b = true ↔ 48 ≤ b.toNat ∧ b.toNat ≤ 57 := by
  simp only [isDigit, Bool.and_eq_true, decide_eq_true_eq, UInt8.le_iff_toNat_le]
  exact Iff.rfl

theorem isDigit_of_mem_toDigits {n : Nat} {c : Char} (h : c ∈ Nat.toDigits 10 n) :
    c.isDigit = true :=
  Nat.isDigit_of_mem_toDigits (by decide) (by decide) h

theorem isDigit_of_mem_decimal {n : Nat} {b : UInt8} (h : b ∈ decimal n) : isDigit b = true := by
  obtain ⟨c, hc, rfl⟩ := List.mem_map.mp h
  have hc := isDigit_of_mem_toDigits hc
  rw [isDigit_iff, toNat_byte_of_isDigit hc]
  exact toNat_of_isDigit hc

theorem bytesOf_toDigits (n : Nat) : bytesOf (Nat.toDigits 10 n) = decimal n := by
  apply bytesOf_of_forall_lt
  intro c hc
  have := toNat_of_isDigit (isDigit_of_mem_toDigits hc)
  omega

theorem exists_decimal_eq_cons (n : Nat) : ∃ b ds, decimal n = b :: ds ∧ isDigit b = true := by
  have hne : decimal n ≠ [] := by simp [decimal]
  obtain ⟨b, ds, hn⟩ := List.exists_cons_of_ne_nil hne
  exact ⟨b, ds, hn, isDigit_of_mem_decimal (hn ▸ List.mem_cons_self)⟩

/-- Only zero starts with the digit zero. -/
theorem head?_decimal_ne {n : Nat} (hn : n ≠ 0) : (decimal n).head? ≠ some (byte '0') := by
  induction n using Nat.strongRecOn with
  | ind n ih =>
    rw [decimal, Nat.toDigits_eq_if (by decide)]
    split
    · rename_i hlt
      have hdigit : (Nat.digitChar n).isDigit = true := by
        rw [Nat.isDigit_digitChar, decide_eq_true hlt]
      intro h
      have h := congrArg UInt8.toNat (Option.some.inj h)
      rw [toNat_byte_of_isDigit hdigit, Nat.toNat_digitChar_of_lt_ten hlt] at h
      simp [byte] at h
      omega
    · have ih := ih (n / 10) (by omega) (by omega)
      obtain ⟨b, ds, hds, -⟩ := exists_decimal_eq_cons (n / 10)
      rw [List.map_append]
      rw [hds] at ih
      rw [← decimal, hds]
      exact ih

theorem foldl_digitValue {cs : List Char} (h : ∀ c ∈ cs, c.isDigit = true) (n : Nat) :
    (cs.map byte).foldl (fun n b => 10 * n + digitValue b) n = Nat.ofDigitChars 10 cs n := by
  induction cs generalizing n with
  | nil => simp
  | cons c cs ih =>
    obtain ⟨hc, hcs⟩ := List.forall_mem_cons.mp h
    have hvalue : digitValue (byte c) = c.toNat - '0'.toNat :=
      congrArg (· - 48) (toNat_byte_of_isDigit hc)
    rw [List.map_cons, List.foldl_cons, hvalue, ih hcs, Nat.ofDigitChars_cons]

theorem numberOfDigits_decimal (n : Nat) : numberOfDigits (decimal n) = n :=
  (foldl_digitValue (fun _ hc => isDigit_of_mem_toDigits hc) 0).trans
    Nat.ofDigitChars_ten_toDigits

/-- The text of an integer starts with a minus sign or a digit. -/
theorem exists_integerChars_eq_cons (i : Int) :
    ∃ b s, bytesOf (integerChars i) = b :: s ∧ (b = byte '-' ∨ isDigit b = true) := by
  unfold integerChars
  split
  · exact ⟨byte '-', _, bytesOf_cons_of_lt (by decide) _, .inl rfl⟩
  · obtain ⟨b, ds, hds, hb⟩ := exists_decimal_eq_cons i.natAbs
    exact ⟨b, ds, (bytesOf_toDigits _).trans hds, .inr hb⟩

theorem ne_of_startsNumber {b c : UInt8} (hb : b = byte '-' ∨ isDigit b = true)
    (hminus : c ≠ byte '-') (hdigit : isDigit c = false) : b ≠ c := by
  rintro rfl
  rcases hb with hb | hb
  · exact hminus hb
  · rw [hb] at hdigit
    cases hdigit

theorem isBlank_of_startsNumber {b : UInt8} (hb : b = byte '-' ∨ isDigit b = true) :
    isBlank b = false := by
  have hne : ∀ c : UInt8, c ≠ byte '-' → isDigit c = false → b ≠ c :=
    fun _ => ne_of_startsNumber hb
  simp only [isBlank, Bool.or_eq_false_iff, decide_eq_false_iff_not]
  exact ⟨⟨⟨hne _ (by decide) (by decide), hne _ (by decide) (by decide)⟩,
    hne _ (by decide) (by decide)⟩, hne _ (by decide) (by decide)⟩

section Numbers

variable (short : Fault) {rest : Bytes} (hrest : EndsNumber rest)
include hrest

theorem digits_decimal (n : Nat) : digits short (decimal n ++ rest) = .ok (decimal n, rest) := by
  have hstop : rest.takeWhile isDigit = [] ∧ rest.dropWhile isDigit = rest := by
    cases rest with
    | nil => exact ⟨rfl, rfl⟩
    | cons b rest =>
      have hb := (hrest b rfl).1
      simp [hb]
  have htake : (decimal n ++ rest).takeWhile isDigit = decimal n := by
    rw [List.takeWhile_append_of_pos fun b hb => isDigit_of_mem_decimal hb, hstop.1,
      List.append_nil]
  have hdrop : (decimal n ++ rest).dropWhile isDigit = rest := by
    rw [List.dropWhile_append_of_pos fun b hb => isDigit_of_mem_decimal hb, hstop.2]
  obtain ⟨b, ds, hds, -⟩ := exists_decimal_eq_cons n
  rw [digits, htake, hdrop, hds]

theorem wholeDigits_decimal (n : Nat) :
    wholeDigits short (decimal n ++ rest) = .ok (decimal n, rest) := by
  have hzero : ¬((decimal n).head? = some (byte '0') ∧ (decimal n).length ≠ 1) := by
    rintro ⟨hhead, hlength⟩
    by_cases hn : n = 0
    · subst hn
      exact hlength rfl
    · exact head?_decimal_ne hn hhead
  rw [wholeDigits, digits_decimal short hrest]
  simp only [bind, Except.bind, if_neg hzero]

theorem fractionDigits_of_endsNumber : fractionDigits short rest = .ok ([], rest) := by
  cases rest with
  | nil => rfl
  | cons b rest => exact if_neg (hrest b rfl).2.1

theorem exponentDigits_of_endsNumber : exponentDigits short rest = .ok (none, rest) := by
  cases rest with
  | nil => rfl
  | cons b rest => exact if_neg (not_or.mpr (hrest b rfl).2.2)

theorem numeral_decimal (n : Nat) :
    numeral short (decimal n ++ rest) = .ok (⟨false, decimal n, [], none⟩, rest) := by
  obtain ⟨b, ds, hds, hb⟩ := exists_decimal_eq_cons n
  have hsign : ¬(decimal n ++ rest).head? = some (byte '-') := by
    rw [hds]
    intro h
    rw [Option.some.inj h] at hb
    exact absurd hb (by decide)
  simp only [numeral, if_neg hsign, decide_eq_false hsign, wholeDigits_decimal short hrest,
    bind, Except.bind, fractionDigits_of_endsNumber short hrest,
    exponentDigits_of_endsNumber short hrest]

theorem numeral_minus_decimal (n : Nat) :
    numeral short (byte '-' :: (decimal n ++ rest)) =
      .ok (⟨true, decimal n, [], none⟩, rest) := by
  have hsign : (byte '-' :: (decimal n ++ rest)).head? = some (byte '-') := rfl
  simp only [numeral, if_pos hsign, decide_eq_true hsign, List.drop_one, List.tail_cons,
    wholeDigits_decimal short hrest, bind, Except.bind, fractionDigits_of_endsNumber short hrest,
    exponentDigits_of_endsNumber short hrest]

omit hrest in
/-- A minus sign or a digit starts a number. -/
theorem scalar_of_numeral {b : UInt8} {s : Bytes} (hb : b = byte '-' ∨ isDigit b = true)
    {n : Numeral} {v : Json} (hn : numeral .cutShort (b :: s) = .ok (n, rest))
    (hv : n.toJson? = some v) : scalar (b :: s) = .ok (v, rest) := by
  have hne : ∀ c : UInt8, c ≠ byte '-' → isDigit c = false → b ≠ c :=
    fun _ => ne_of_startsNumber hb
  rw [scalar, if_neg (hne _ (by decide) (by decide)), if_neg (hne _ (by decide) (by decide)),
    if_neg (hne _ (by decide) (by decide)), if_neg (hne _ (by decide) (by decide)), if_pos hb]
  simp only [bind, Except.bind, hn, hv]

/-- **An integer of 64 bits is read back from its text.** -/
theorem scalar_integer {i : Int} (hlow : leastInt64 ≤ i) (hhigh : i ≤ greatestUInt64) :
    scalar (bytesOf (integerChars i) ++ rest) = .ok (.integer i, rest) := by
  by_cases hneg : i < 0
  · have hvalue : (⟨true, decimal i.natAbs, [], none⟩ : Numeral).toJson? = some (.integer i) := by
      have hrange : 0 < (i.natAbs : Int) ∧ leastInt64 ≤ -(i.natAbs : Int) := by omega
      have hinteger :
          (⟨true, decimal i.natAbs, [], none⟩ : Numeral).toInteger? = some (-(i.natAbs : Int)) := by
        simp only [Numeral.toInteger?, numberOfDigits_decimal, if_pos hrange]
        rfl
      rw [Numeral.toJson?, hinteger, show -(i.natAbs : Int) = i by omega]
    rw [integerChars, if_pos hneg, bytesOf_cons_of_lt (by decide), bytesOf_toDigits,
      List.cons_append]
    exact scalar_of_numeral (.inl rfl) (numeral_minus_decimal _ hrest _) hvalue
  · have hvalue : (⟨false, decimal i.natAbs, [], none⟩ : Numeral).toJson? = some (.integer i) := by
      have habs : (i.natAbs : Int) = i := by omega
      have hinteger :
          (⟨false, decimal i.natAbs, [], none⟩ : Numeral).toInteger? = some (i.natAbs : Int) := by
        simp only [Numeral.toInteger?, numberOfDigits_decimal, if_pos (habs ▸ hhigh)]
        rfl
      rw [Numeral.toJson?, hinteger, habs]
    have hnumeral := numeral_decimal .cutShort hrest i.natAbs
    rw [integerChars, if_neg hneg, bytesOf_toDigits]
    obtain ⟨b, ds, hds, hb⟩ := exists_decimal_eq_cons i.natAbs
    rw [hds, List.cons_append] at hnumeral ⊢
    rw [← hds] at hnumeral
    exact scalar_of_numeral (.inr hb) hnumeral hvalue

end Numbers

end StyleCascade.Json
