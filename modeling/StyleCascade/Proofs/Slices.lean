import Mathlib.Data.List.Basic
import StyleCascade.Proofs.JsonTokens
import StyleCascade.Text

/-!
# Slices of a text

A text can be addressed by the bytes of its UTF-8 form.  Between two byte positions there is a part
of the text only if they are in order, not behind its end, and neither of them is inside a character
(`Text.isSome_slice?_iff`).

Bytes below 0x80 are characters of their own.  So a byte of a character is an ASCII blank exactly if
the character is (`Text.isBlankByte_of_mem`), and where the bytes of an ASCII word stand, the word
stands (`Text.exists_of_prefix_drop_bytesOf`).
-/
namespace StyleCascade.Text
open Json (bytesOf byte)

variable {text front part back word : List Char} {place start stop : Nat}

/-! ## Sizes -/

/-- The number of bytes. -/
def size (text : List Char) : Nat :=
  (bytesOf text).length

theorem size_nil : size [] = 0 := rfl

theorem size_append (a b : List Char) : size (a ++ b) = size a + size b := by
  rw [size, Json.bytesOf_append, List.length_append]
  rfl

theorem size_cons (c : Char) (rest : List Char) : size (c :: rest) = c.utf8Size + size rest := by
  rw [size, Json.bytesOf_cons, List.length_append, String.length_utf8EncodeChar]
  rfl

theorem size_pos (h : word ≠ []) : 0 < size word := by
  obtain ⟨c, rest, rfl⟩ := List.exists_cons_of_ne_nil h
  rw [size_cons]
  exact Nat.add_pos_left c.utf8Size_pos _

theorem drop_bytesOf_append (front back : List Char) :
    (bytesOf (front ++ back)).drop (size front) = bytesOf back := by
  rw [Json.bytesOf_append, size, List.drop_left]

/-! ## Cuts and slices -/

/-- A byte position between two characters, or at an end of the text. -/
def IsBoundary (text : List Char) (place : Nat) : Prop :=
  ∃ front back, text = front ++ back ∧ size front = place

/-- Cuts a text at a byte position.  There is no cut inside a character or behind the end. -/
def cut? : List Char → Nat → Option (List Char × List Char)
  | text, 0 => some ([], text)
  | [], _ + 1 => none
  | c :: rest, place + 1 =>
    if c.utf8Size ≤ place + 1 then
      (cut? rest (place + 1 - c.utf8Size)).map fun halves => (c :: halves.1, halves.2)
    else none

/-- What stands between two byte positions. -/
def slice? (text : List Char) (start stop : Nat) : Option (List Char) :=
  if start ≤ stop then do
    let (front, _) ← cut? text stop
    let (_, part) ← cut? front start
    return part
  else none

theorem cut?_zero (text : List Char) : cut? text 0 = some ([], text) := by
  cases text <;> rfl

theorem cut?_cons {c : Char} (h : c.utf8Size ≤ place) (rest : List Char) :
    cut? (c :: rest) place =
      (cut? rest (place - c.utf8Size)).map fun halves => (c :: halves.1, halves.2) := by
  obtain ⟨n, rfl⟩ := Nat.exists_eq_add_of_le' (Nat.lt_of_lt_of_le c.utf8Size_pos h)
  rw [cut?, if_pos h]

theorem cut?_append (front back : List Char) :
    cut? (front ++ back) (size front) = some (front, back) := by
  induction front with
  | nil => exact cut?_zero back
  | cons c front ih =>
    rw [List.cons_append, size_cons, cut?_cons (Nat.le_add_right ..), Nat.add_sub_cancel_left, ih]
    rfl

theorem eq_of_cut? (h : cut? text place = some (front, back)) :
    text = front ++ back ∧ size front = place := by
  induction text generalizing place front with
  | nil =>
    cases place with
    | zero =>
      cases h
      exact ⟨rfl, rfl⟩
    | succ place => cases h
  | cons c rest ih =>
    by_cases hplace : c.utf8Size ≤ place
    · rw [cut?_cons hplace] at h
      obtain ⟨⟨front', back'⟩, hrest, heq⟩ := Option.map_eq_some_iff.mp h
      cases heq
      obtain ⟨rfl, hsize⟩ := ih hrest
      refine ⟨rfl, ?_⟩
      rw [size_cons, hsize]
      omega
    · cases place with
      | zero =>
        rw [cut?_zero] at h
        cases h
        exact ⟨rfl, rfl⟩
      | succ place =>
        rw [cut?, if_neg hplace] at h
        cases h

theorem slice?_append (front part back : List Char) :
    slice? (front ++ (part ++ back)) (size front) (size front + size part) = some part := by
  have hstop := cut?_append (front ++ part) back
  rw [size_append, List.append_assoc] at hstop
  rw [slice?, if_pos (Nat.le_add_right ..), hstop]
  simp [cut?_append]

/-- **A slice is what stands between its ends.** -/
theorem slice?_eq_some_iff : slice? text start stop = some part ↔
    ∃ front back, text = front ++ (part ++ back) ∧ size front = start ∧
      size front + size part = stop := by
  constructor
  · intro h
    rw [slice?] at h
    split at h
    · obtain ⟨⟨upTo, back⟩, hupTo, h⟩ := Option.bind_eq_some_iff.mp h
      obtain ⟨⟨front, part'⟩, hfront, h⟩ := Option.bind_eq_some_iff.mp h
      cases h
      obtain ⟨rfl, rfl⟩ := eq_of_cut? hupTo
      obtain ⟨rfl, rfl⟩ := eq_of_cut? hfront
      exact ⟨front, back, List.append_assoc .., rfl, (size_append ..).symm⟩
    · cases h
  · rintro ⟨front, back, rfl, rfl, rfl⟩
    exact slice?_append front part back

theorem slice?_start (part back : List Char) : slice? (part ++ back) 0 (size part) = some part := by
  have h := slice?_append [] part back
  rwa [List.nil_append, size_nil, Nat.zero_add] at h

theorem slice?_toEnd (front back : List Char) :
    slice? (front ++ back) (size front) (size (front ++ back)) = some back := by
  have h := slice?_append front back []
  rwa [List.append_nil, ← size_append] at h

/-- **There is a slice between two positions** if they are in order and fall between characters of
the text, and only then. -/
theorem isSome_slice?_iff : (slice? text start stop).isSome = true ↔
    start ≤ stop ∧ IsBoundary text start ∧ IsBoundary text stop := by
  rw [Option.isSome_iff_exists]
  constructor
  · rintro ⟨part, h⟩
    obtain ⟨front, back, rfl, rfl, rfl⟩ := slice?_eq_some_iff.mp h
    exact ⟨Nat.le_add_right .., ⟨front, part ++ back, rfl, rfl⟩,
      ⟨front ++ part, back, (List.append_assoc ..).symm, size_append ..⟩⟩
  · rintro ⟨hle, ⟨front, rest, rfl, rfl⟩, ⟨upTo, back, htext, rfl⟩⟩
    rcases List.append_eq_append_iff.mp htext with ⟨part, rfl, rfl⟩ | ⟨part, rfl, rfl⟩
    · exact ⟨part, slice?_eq_some_iff.mpr ⟨front, back, rfl, rfl, (size_append ..).symm⟩⟩
    · cases part with
      | nil => exact ⟨[], slice?_eq_some_iff.mpr ⟨upTo, rest, by simp, by simp, by simp [size_nil]⟩⟩
      | cons c part =>
        -- The ends would not be in order.
        have hpos : 0 < size (c :: part) := size_pos (List.cons_ne_nil c part)
        rw [size_append] at hle
        omega

/-- The second position is inside the first character. -/
example : slice? ['é', '<'] 0 2 = some ['é'] ∧ slice? ['é', '<'] 1 3 = none := by decide

/-! ## ASCII in bytes -/

/-- The bytes of the ASCII blanks. -/
def isBlankByte (b : UInt8) : Bool :=
  b = 0x20 || b = 0x09 || b = 0x0A || b = 0x0C || b = 0x0D

theorem isBlankByte_byte {c : Char} (h : c.toNat < 0x80) :
    isBlankByte (byte c) = isAsciiBlank c := by
  have hascii : ∀ n < 0x80, isBlankByte (byte (Char.ofNat n)) = isAsciiBlank (Char.ofNat n) := by
    decide
  rw [← Char.ofNat_toNat c]
  exact hascii c.toNat h

theorem isAsciiBlank_eq_false {c : Char} (h : 0x80 ≤ c.toNat) : isAsciiBlank c = false := by
  refine Bool.eq_false_iff.mpr fun hblank => ?_
  simp only [isAsciiBlank, Bool.or_eq_true, decide_eq_true_eq] at hblank
  rcases hblank with (((rfl | rfl) | rfl) | rfl) | rfl <;> exact absurd h (by decide)

theorem isBlankByte_eq_false {b : UInt8} (h : 0x80 ≤ b) : isBlankByte b = false := by
  rw [UInt8.le_iff_toNat_le] at h
  refine Bool.eq_false_iff.mpr fun hblank => ?_
  simp only [isBlankByte, Bool.or_eq_true, decide_eq_true_eq] at hblank
  rcases hblank with (((rfl | rfl) | rfl) | rfl) | rfl <;> exact absurd h (by decide)

/-- **A byte of a character is a blank** exactly if the character is an ASCII blank. -/
theorem isBlankByte_of_mem {c : Char} {b : UInt8} (h : b ∈ String.utf8EncodeChar c) :
    isBlankByte b = isAsciiBlank c := by
  by_cases hc : c.toNat < 0x80
  · rw [Json.utf8EncodeChar_of_lt hc, List.mem_singleton] at h
    rw [h, isBlankByte_byte hc]
  · have hlarge : 0x80 ≤ c.toNat := Nat.le_of_not_lt hc
    rw [isBlankByte_eq_false (Json.le_of_mem_utf8EncodeChar hlarge h), isAsciiBlank_eq_false hlarge]

theorem exists_utf8EncodeChar_eq_cons (c : Char) :
    ∃ b bytes, String.utf8EncodeChar c = b :: bytes :=
  List.exists_cons_of_length_pos
    (Nat.lt_of_lt_of_eq c.utf8Size_pos (String.length_utf8EncodeChar c).symm)

/-- The bytes of a character behind its first one are not ASCII. -/
theorem le_of_mem_tail_utf8EncodeChar {c : Char} {b : UInt8} {bytes : List UInt8}
    (h : String.utf8EncodeChar c = b :: bytes) : ∀ b' ∈ bytes, 0x80 ≤ b' := by
  intro b' hb'
  by_cases hc : c.toNat < 0x80
  · rw [Json.utf8EncodeChar_of_lt hc] at h
    obtain ⟨-, rfl⟩ := List.cons_eq_cons.mp h
    exact absurd hb' List.not_mem_nil
  · exact Json.le_of_mem_utf8EncodeChar (Nat.le_of_not_lt hc) (h ▸ List.mem_cons_of_mem b hb')

/-- The byte at a position belongs to the character behind it. -/
theorem map_isBlankByte_size (front back : List Char) :
    ((bytesOf (front ++ back))[size front]?).map isBlankByte = back.head?.map isAsciiBlank := by
  rw [← List.head?_drop, drop_bytesOf_append]
  cases back with
  | nil => rfl
  | cons c back =>
    obtain ⟨b, bytes, hbytes⟩ := exists_utf8EncodeChar_eq_cons c
    rw [Json.bytesOf_cons, hbytes]
    exact congrArg some (isBlankByte_of_mem (hbytes ▸ List.mem_cons_self))

/-- The byte before a position belongs to the character in front of it. -/
theorem map_isBlankByte_size_sub_one (hne : front ≠ []) (back : List Char) :
    ((bytesOf (front ++ back))[size front - 1]?).map isBlankByte =
      front.getLast?.map isAsciiBlank := by
  obtain ⟨front, c, rfl⟩ := (List.eq_nil_or_concat' front).resolve_left hne
  have hlength := String.length_utf8EncodeChar c
  have hpos := c.utf8Size_pos
  have hlast : c.utf8Size - 1 < (String.utf8EncodeChar c).length := by omega
  have hplace : size (front ++ [c]) - 1 = (bytesOf front).length + (c.utf8Size - 1) := by
    rw [size_append, size_cons, size_nil, size]
    omega
  rw [hplace, List.append_assoc, List.singleton_append, Json.bytesOf_append,
    List.getElem?_append_right (Nat.le_add_right ..), Nat.add_sub_cancel_left, Json.bytesOf_cons,
    List.getElem?_append_left hlast, List.getElem?_eq_getElem hlast, List.getLast?_concat]
  exact congrArg some (isBlankByte_of_mem (List.getElem_mem hlast))

theorem ascii_of_all (h : word.all (·.toNat < 0x80) = true) : ∀ c ∈ word, c.toNat < 0x80 := by
  simpa using h

theorem byte_lt {c : Char} (h : c.toNat < 0x80) : byte c < 0x80 := by
  rw [UInt8.lt_iff_toNat_lt]
  simp only [byte, UInt8.toNat_ofNat', UInt8.reduceToNat]
  omega

theorem byte_inj {c d : Char} (hc : c.toNat < 0x80) (hd : d.toNat < 0x80) (h : byte c = byte d) :
    c = d := by
  have hnat := congrArg UInt8.toNat h
  simp only [byte, UInt8.toNat_ofNat'] at hnat
  rw [← Char.ofNat_toNat c, ← Char.ofNat_toNat d, show c.toNat = d.toNat by omega]

theorem not_prefix_of_le {c : Char} {b : UInt8} (hc : c.toNat < 0x80) (hb : 0x80 ≤ b)
    (bs bs' : List UInt8) : ¬byte c :: bs <+: b :: bs' := by
  intro h
  obtain ⟨rfl, -⟩ := List.cons_prefix_cons.mp h
  exact absurd (byte_lt hc) (UInt8.not_lt.mpr hb)

/-- Where the bytes of an ASCII word stand at the start of a text, the word does. -/
theorem prefix_of_prefix_bytesOf (hword : ∀ c ∈ word, c.toNat < 0x80)
    (h : bytesOf word <+: bytesOf text) : word <+: text := by
  induction word generalizing text with
  | nil => exact List.nil_prefix
  | cons c word ih =>
    obtain ⟨hc, hword⟩ := List.forall_mem_cons.mp hword
    rw [Json.bytesOf_cons_of_lt hc] at h
    cases text with
    | nil =>
      have hnil := List.prefix_nil.mp h
      cases hnil
    | cons d text =>
      by_cases hd : d.toNat < 0x80
      · rw [Json.bytesOf_cons_of_lt hd] at h
        obtain ⟨hbyte, hrest⟩ := List.cons_prefix_cons.mp h
        exact List.cons_prefix_cons.mpr ⟨byte_inj hc hd hbyte, ih hword hrest⟩
      · obtain ⟨b, bs, hbytes⟩ := List.exists_cons_of_length_pos
          (Nat.lt_of_lt_of_eq d.utf8Size_pos (String.length_utf8EncodeChar d).symm)
        have hb := Json.le_of_mem_utf8EncodeChar (Nat.le_of_not_lt hd)
          (hbytes ▸ List.mem_cons_self)
        rw [Json.bytesOf_cons, hbytes] at h
        exact absurd h (not_prefix_of_le hc hb _ _)

theorem prefix_bytesOf_iff (hword : ∀ c ∈ word, c.toNat < 0x80) :
    bytesOf word <+: bytesOf text ↔ word <+: text := by
  refine ⟨prefix_of_prefix_bytesOf hword, ?_⟩
  rintro ⟨back, rfl⟩
  rw [Json.bytesOf_append]
  exact List.prefix_append _ _

/-- **Where the bytes of an ASCII word stand, the word stands.**  Its first byte is not inside a
character, for it would be larger there. -/
theorem exists_of_prefix_drop_bytesOf (hne : word ≠ []) (hword : ∀ c ∈ word, c.toNat < 0x80)
    (h : bytesOf word <+: (bytesOf text).drop place) :
    ∃ front back, text = front ++ (word ++ back) ∧ size front = place := by
  induction text generalizing place with
  | nil =>
    have hnil : bytesOf word <+: bytesOf [] := by simpa [bytesOf] using h
    exact absurd (List.prefix_nil.mp (prefix_of_prefix_bytesOf hword hnil)) hne
  | cons d text ih =>
    have hlength := String.length_utf8EncodeChar d
    by_cases hplace : d.utf8Size ≤ place
    · rw [Json.bytesOf_cons, List.drop_append, hlength, List.drop_eq_nil_of_le (by omega),
        List.nil_append] at h
      obtain ⟨front, back, rfl, hsize⟩ := ih h
      refine ⟨d :: front, back, rfl, ?_⟩
      rw [size_cons, hsize]
      omega
    · cases place with
      | zero =>
        obtain ⟨back, hback⟩ := prefix_of_prefix_bytesOf hword h
        exact ⟨[], back, hback.symm, rfl⟩
      | succ place =>
        obtain ⟨c, word, rfl⟩ := List.exists_cons_of_ne_nil hne
        obtain ⟨hc, -⟩ := List.forall_mem_cons.mp hword
        have hd : ¬d.toNat < 0x80 := fun hd => by
          rw [Json.utf8EncodeChar_of_lt hd, List.length_singleton] at hlength
          omega
        obtain ⟨b, bs, hbytes⟩ : ∃ b bs, (String.utf8EncodeChar d).drop (place + 1) = b :: bs :=
          List.exists_cons_of_length_pos (by rw [List.length_drop]; omega)
        have hmem : b ∈ String.utf8EncodeChar d :=
          List.mem_of_mem_drop (hbytes ▸ List.mem_cons_self)
        rw [Json.bytesOf_cons_of_lt hc, Json.bytesOf_cons, List.drop_append, hbytes] at h
        exact absurd h (not_prefix_of_le hc
          (Json.le_of_mem_utf8EncodeChar (Nat.le_of_not_lt hd) hmem) _ _)

/-! ## The first occurrence of a word -/

/-- The byte position at which a word stands first. -/
def offset? (word : List Char) : List Char → Option Nat
  | [] => if word = [] then some 0 else none
  | c :: rest =>
    if word <+: c :: rest then some 0 else (offset? word rest).map (c.utf8Size + ·)

theorem not_infix_of_offset? (h : offset? word text = none) : ¬word <:+: text := by
  induction text with
  | nil =>
    rw [offset?] at h
    split at h
    · cases h
    · next hne => exact fun hin => hne (List.infix_nil.mp hin)
  | cons c rest ih =>
    rw [offset?] at h
    split at h
    · cases h
    · next hstart =>
      intro hin
      rcases List.infix_cons_iff.mp hin with hprefix | hrest
      · exact hstart hprefix
      · exact ih (Option.map_eq_none_iff.mp h) hrest

/-- **The word stands at its offset**, and does not start before. -/
theorem exists_of_offset? (h : offset? word text = some place) :
    ∃ front back, text = front ++ (word ++ back) ∧ size front = place ∧
      ∀ passed c rest, front = passed ++ c :: rest → ¬word <+: c :: (rest ++ (word ++ back)) := by
  have hnone (back : List Char) (passed : List Char) (c : Char) (rest : List Char)
      (heq : [] = passed ++ c :: rest) : ¬word <+: c :: (rest ++ (word ++ back)) := by
    simp at heq
  induction text generalizing place with
  | nil =>
    rw [offset?] at h
    split at h
    · next hword =>
      cases h
      exact ⟨[], [], by rw [hword]; rfl, rfl, hnone []⟩
    · cases h
  | cons c text ih =>
    rw [offset?] at h
    split at h
    · next hstart =>
      cases h
      obtain ⟨back, hback⟩ := hstart
      exact ⟨[], back, hback.symm, rfl, hnone back⟩
    · next hstart =>
      obtain ⟨offset, hoffset, rfl⟩ := Option.map_eq_some_iff.mp h
      obtain ⟨front, back, rfl, rfl, hfirst⟩ := ih hoffset
      refine ⟨c :: front, back, rfl, size_cons c front, ?_⟩
      intro passed d rest heq
      cases passed with
      | nil =>
        obtain ⟨rfl, rfl⟩ := List.cons_eq_cons.mp heq
        exact hstart
      | cons _ passed =>
        obtain ⟨rfl, rfl⟩ := List.cons_eq_cons.mp heq
        exact hfirst passed d rest rfl

end StyleCascade.Text
