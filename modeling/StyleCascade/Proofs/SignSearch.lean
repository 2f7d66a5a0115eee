import StyleCascade.Proofs.KeywordSearch
import StyleCascade.Proofs.MediaConditions

/-!
# Searching signs by positions

The signs of a condition are searched byte by byte, with one or two bytes looked at in each round.
The position is inside a character at times, but no sign is seen there: a byte of such a character
is not ASCII (`signOf?_of_le`).  Where a character starts, a sign is seen in the bytes exactly if it
stands in the text, and the longest one first (`signOf?_eq`).

So what is found (`exists_signs?`) lays the text out as its operands with the signs between them
(`Laid`).  A sign that was found stands where it was found (`Laid.slice?_sign`), and the operands are
the slices between the signs (`Laid.slices_of_one`, `Laid.slices_of_two`).
-/

namespace StyleCascade.Media
open Text
open Json (bytesOf byte)

/-! ## Signs in characters -/

/-- The longest sign that a text starts with. -/
def firstSign? (text : List Char) : Option Sign :=
  if Sign.moreEqual.chars <+: text then some .moreEqual
  else if Sign.lessEqual.chars <+: text then some .lessEqual
  else if Sign.equals.chars <+: text then some .equals
  else if Sign.less.chars <+: text then some .less
  else if Sign.more.chars <+: text then some .more
  else if Sign.colon.chars <+: text then some .colon
  else none

theorem Sign.size_chars_pos (sign : Sign) : 0 < size sign.chars := by
  cases sign <;> decide

/-- A sign that a text starts with is the first that the text is cut at. -/
theorem cutOperators_of_firstSign? {text : List Char} {sign : Sign}
    (h : firstSign? text = some sign) :
    ∃ rest, text = sign.chars ++ rest ∧
      cutOperators text = consOperator sign.comparison (cutOperators rest) := by
  unfold firstSign? at h
  split_ifs at h with hmoreEqual hlessEqual hequals hless hmore hcolon
  · obtain ⟨rest, rfl⟩ := hmoreEqual
    cases h
    exact ⟨rest, rfl, rfl⟩
  · obtain ⟨rest, rfl⟩ := hlessEqual
    cases h
    exact ⟨rest, rfl, rfl⟩
  · obtain ⟨rest, rfl⟩ := hequals
    cases h
    exact ⟨rest, rfl, rfl⟩
  · obtain ⟨rest, rfl⟩ := hless
    cases h
    refine ⟨rest, rfl, cutOperators_sign .less fun hhead => hlessEqual ?_⟩
    obtain ⟨after, rfl⟩ := List.head?_eq_some_iff.mp hhead
    exact ⟨after, rfl⟩
  · obtain ⟨rest, rfl⟩ := hmore
    cases h
    refine ⟨rest, rfl, cutOperators_sign .more fun hhead => hmoreEqual ?_⟩
    obtain ⟨after, rfl⟩ := List.head?_eq_some_iff.mp hhead
    exact ⟨after, rfl⟩
  · obtain ⟨rest, rfl⟩ := hcolon
    cases h
    exact ⟨rest, rfl, rfl⟩

/-- A character that no sign starts with belongs to an operand. -/
theorem cutOperators_of_firstSign?_eq_none {c : Char} {rest : List Char}
    (h : firstSign? (c :: rest) = none) :
    cutOperators (c :: rest) = consOperand c (cutOperators rest) := by
  rw [cutOperators]
  all_goals
    intros
    subst_vars
    simp [firstSign?, Sign.chars] at h
  -- One of the two signs that start like this is there.
  case x_4 | x_5 => split at h <;> cases h

/-! ## Finding the signs -/

/-- The bytes between two positions. -/
def window? (text : List Char) (start stop : Nat) : Option (List UInt8) :=
  if start ≤ stop ∧ stop ≤ size text then
    some (((bytesOf text).drop start).take (stop - start))
  else none

/-- The sign that two bytes are, or the first of them. -/
def signOf? (window : List UInt8) (here : UInt8) : Option Sign :=
  if window = bytesOf Sign.moreEqual.chars then some .moreEqual
  else if window = bytesOf Sign.lessEqual.chars then some .lessEqual
  else if window = bytesOf Sign.equals.chars then some .equals
  else if here = byte '<' then some .less
  else if here = byte '>' then some .more
  else if here = byte ':' then some .colon
  else none

/-- The signs found so far with their positions, and where the next one is searched. -/
structure Finding where
  signs : List (Nat × Sign)
  place : Nat

/-- Looks at one position.  At the last byte the window has no second one. -/
def findingRound (text : List Char) (s : Finding) : Option (Finding ⊕ List (Nat × Sign)) :=
  if s.place < size text then do
    let window ← window? text s.place
      (if s.place + 1 < size text then s.place + 2 else s.place + 1)
    let here ← (bytesOf text)[s.place]?
    match signOf? window here with
    | some sign => return .inl ⟨s.signs ++ [(s.place, sign)], s.place + size sign.chars⟩
    | none => return .inl { s with place := s.place + 1 }
  else return .inr s.signs

/-- The signs of a text with their positions. -/
def signs? (text : List Char) : Option (List (Nat × Sign)) :=
  scan (size text) Finding.place (findingRound text) ⟨[], 0⟩

/-- A sign is seen in bytes where it is in characters. -/
theorem signOf?_eq {text : List Char} {b : UInt8} {bytes : List UInt8}
    (h : bytesOf text = b :: bytes) : signOf? ((b :: bytes).take 2) b = firstSign? text := by
  have hstarts (sign : Sign) : bytesOf sign.chars <+: b :: bytes ↔ sign.chars <+: text := by
    rw [← h]
    exact prefix_bytesOf_iff (by cases sign <;> exact ascii_of_all rfl)
  have htwo (sign : Sign) (hlength : (bytesOf sign.chars).length = 2) :
      (b :: bytes).take 2 = bytesOf sign.chars ↔ sign.chars <+: text := by
    rw [← hstarts, List.prefix_iff_eq_take, hlength, eq_comm]
  have hone (sign : Sign) {c : Char} (hc : bytesOf sign.chars = [byte c]) :
      b = byte c ↔ sign.chars <+: text := by
    rw [← hstarts, hc, List.cons_prefix_cons, eq_comm]
    exact (and_iff_left List.nil_prefix).symm
  simp only [signOf?, firstSign?, htwo .moreEqual rfl, htwo .lessEqual rfl, htwo .equals rfl,
    hone .less rfl, hone .more rfl, hone .colon rfl]

/-- No sign starts inside a character. -/
theorem signOf?_of_le {b : UInt8} (hb : 0x80 ≤ b) (bytes : List UInt8) :
    signOf? ((b :: bytes).take 2) b = none := by
  have hhere {c : Char} (hc : c.toNat < 0x80) : b ≠ byte c := by
    rintro rfl
    exact absurd (byte_lt hc) (UInt8.not_lt.mpr hb)
  have hwindow {c : Char} (hc : c.toNat < 0x80) (rest : List UInt8) :
      (b :: bytes).take 2 ≠ byte c :: rest :=
    fun h => hhere hc (List.cons_eq_cons.mp h).1
  have hmore : (b :: bytes).take 2 ≠ bytesOf Sign.moreEqual.chars := hwindow (by decide) _
  have hless : (b :: bytes).take 2 ≠ bytesOf Sign.lessEqual.chars := hwindow (by decide) _
  have hequals : (b :: bytes).take 2 ≠ bytesOf Sign.equals.chars := hwindow (by decide) _
  rw [signOf?, if_neg hmore, if_neg hless, if_neg hequals, if_neg (hhere (by decide)),
    if_neg (hhere (by decide)), if_neg (hhere (by decide))]

theorem findingRound_of_drop {text : List Char} {b : UInt8} {bytes : List UInt8} {place : Nat}
    (hbytes : (bytesOf text).drop place = b :: bytes) (signs : List (Nat × Sign)) :
    findingRound text ⟨signs, place⟩ =
      some (.inl (match signOf? ((b :: bytes).take 2) b with
        | some sign => ⟨signs ++ [(place, sign)], place + size sign.chars⟩
        | none => ⟨signs, place + 1⟩)) := by
  have hleft : size text - place = bytes.length + 1 := by
    rw [size, ← List.length_drop, hbytes, List.length_cons]
  have hhere : (bytesOf text)[place]? = some b := by
    rw [← List.head?_drop, hbytes]
    rfl
  have hwindow : window? text place (if place + 1 < size text then place + 2 else place + 1) =
      some ((b :: bytes).take 2) := by
    cases bytes with
    | nil =>
      rw [List.length_nil] at hleft
      rw [if_neg (by omega), window?, if_pos (by omega), hbytes, Nat.add_sub_cancel_left]
      rfl
    | cons b' bytes =>
      rw [List.length_cons] at hleft
      rw [if_pos (by omega), window?, if_pos (by omega), hbytes, Nat.add_sub_cancel_left]
  have hlt : place < size text := by omega
  simp only [findingRound, if_pos hlt, hwindow, hhere, bind, Option.bind, pure]
  split <;> rfl

/-! ## Signs and operands -/

/-- A text from a position on, as operands with signs between them, is laid out as `signs` say. -/
inductive Laid : Nat → List Char × List (Comparison × List Char) → List (Nat × Sign) →
    List Char → Prop
  | last (place : Nat) (operand : List Char) : Laid place (operand, []) [] operand
  | sign (operand : List Char) (sign : Sign) {place : Nat} {next rest : List Char}
    {cuts : List (Comparison × List Char)} {signs : List (Nat × Sign)}
    (hrest : Laid (place + size operand + size sign.chars) (next, cuts) signs rest) :
    Laid place (operand, (sign.comparison, next) :: cuts) ((place + size operand, sign) :: signs)
      (operand ++ (sign.chars ++ rest))

namespace Laid

variable {place : Nat} {cut : List Char × List (Comparison × List Char)}
  {signs : List (Nat × Sign)} {rest text : List Char}

theorem consOperand {c : Char} (h : Laid (place + size [c]) cut signs rest) :
    Laid place (consOperand c cut) signs (c :: rest) := by
  cases h with
  | last operand => exact .last place (c :: rest)
  | sign operand sign hrest =>
    have hsize : place + size [c] + size operand = place + size (c :: operand) := by
      rw [size_cons, size_cons, size_nil]
      omega
    rw [hsize] at hrest ⊢
    exact .sign (c :: operand) sign hrest

theorem consOperator {sign : Sign} (h : Laid (place + size sign.chars) cut signs rest) :
    Laid place (consOperator sign.comparison cut) ((place, sign) :: signs) (sign.chars ++ rest) :=
  .sign [] sign h

/-- Where a sign is found, it stands. -/
theorem slice?_sign {back front : List Char} (h : Laid place cut signs back)
    (hplace : place = size front) {found : Nat × Sign} (hfound : found ∈ signs) :
    slice? (front ++ back) found.1 (found.1 + size found.2.chars) = some found.2.chars := by
  induction h generalizing front with
  | last => exact absurd hfound List.not_mem_nil
  | sign operand sign hrest ih =>
    subst hplace
    rcases List.mem_cons.mp hfound with rfl | hfound
    · rw [← size_append, ← List.append_assoc]
      exact slice?_append _ _ _
    · have hfront : size front + size operand + size sign.chars =
          size (front ++ operand ++ sign.chars) := by
        rw [size_append, size_append]
      have hslice := ih hfront hfound
      rwa [List.append_assoc, List.append_assoc] at hslice

/-- The operands of a text with one sign are what stands before and behind it. -/
theorem slices_of_one {place : Nat} {sign : Sign} (h : Laid 0 cut [(place, sign)] text) :
    ∃ left right, cut = (left, [(sign.comparison, right)]) ∧
      slice? text 0 place = some left ∧
      slice? text (place + size sign.chars) (size text) = some right ∧
      text = left ++ (sign.chars ++ right) := by
  cases h with
  | sign left _ hrest =>
    cases hrest with
    | last =>
      refine ⟨left, _, rfl, ?_, ?_, rfl⟩
      · rw [Nat.zero_add]
        exact slice?_start _ _
      · rw [Nat.zero_add, ← size_append, ← List.append_assoc]
        exact slice?_toEnd _ _

theorem slices_of_two {place₁ place₂ : Nat} {sign₁ sign₂ : Sign}
    (h : Laid 0 cut [(place₁, sign₁), (place₂, sign₂)] text) :
    ∃ first name second,
      cut = (first, [(sign₁.comparison, name), (sign₂.comparison, second)]) ∧
      slice? text 0 place₁ = some first ∧
      slice? text (place₁ + size sign₁.chars) place₂ = some name ∧
      slice? text (place₂ + size sign₂.chars) (size text) = some second ∧
      text = first ++ (sign₁.chars ++ (name ++ (sign₂.chars ++ second))) := by
  cases h with
  | sign first _ hrest =>
    cases hrest with
    | sign _ _ hrest =>
      cases hrest with
      | last =>
        refine ⟨first, _, _, rfl, ?_, ?_, ?_, rfl⟩
        · rw [Nat.zero_add]
          exact slice?_start _ _
        · rw [Nat.zero_add, ← size_append, ← List.append_assoc]
          exact slice?_append _ _ _
        · rw [Nat.zero_add, ← size_append, ← size_append, ← size_append, ← List.append_assoc,
            ← List.append_assoc, ← List.append_assoc]
          exact slice?_toEnd _ _

theorem length_signs (h : Laid place cut signs text) : signs.length = cut.2.length := by
  induction h with
  | last => rfl
  | sign operand sign hrest ih => exact congrArg Nat.succ ih

end Laid

/-- What lays out the characters behind the position completes the signs found so far.  The
position may be inside a character, of which the bytes `inside` are left. -/
inductive Finding.Follows (text : List Char) : Finding → Prop
  | intro (signs : List (Nat × Sign)) (place : Nat) (front back : List Char) (inside : List UInt8)
    (htext : text = front ++ back) (hplace : place + inside.length = size front)
    (hbytes : (bytesOf text).drop place = inside ++ bytesOf back)
    (hinside : ∀ b ∈ inside, 0x80 ≤ b)
    (hlaid : ∀ later, Laid (size front) (cutOperators back) later back →
      Laid 0 (cutOperators text) (signs ++ later) text) :
    Follows text ⟨signs, place⟩

section Round

variable {text front back : List Char} {signs : List (Nat × Sign)}

/-- A sign is passed whole. -/
theorem Finding.Follows.sign {sign : Sign} (htext : text = front ++ (sign.chars ++ back))
    (hlaid : ∀ later, Laid (size front) (consOperator sign.comparison (cutOperators back)) later
      (sign.chars ++ back) → Laid 0 (cutOperators text) (signs ++ later) text) :
    Finding.Follows text ⟨signs ++ [(size front, sign)], size front + size sign.chars⟩ := by
  rw [← size_append]
  refine .intro _ _ (front ++ sign.chars) back [] ?_ rfl ?_ (List.forall_mem_nil _) ?_
  · rw [htext, List.append_assoc]
  · rw [htext, ← List.append_assoc]
    exact drop_bytesOf_append _ _
  · intro later hlater
    rw [size_append] at hlater
    rw [List.append_assoc]
    exact hlaid _ hlater.consOperator

/-- Of another character one byte is passed. -/
theorem Finding.Follows.operand {c : Char} {b : UInt8} {inside : List UInt8}
    (hchar : String.utf8EncodeChar c = b :: inside) (htext : text = front ++ c :: back)
    (hlaid : ∀ later, Laid (size front) (consOperand c (cutOperators back)) later (c :: back) →
      Laid 0 (cutOperators text) (signs ++ later) text) :
    Finding.Follows text ⟨signs, size front + 1⟩ := by
  have hsize : size [c] = inside.length + 1 := by
    rw [size_cons, size_nil, ← String.length_utf8EncodeChar, hchar]
    rfl
  refine .intro _ _ (front ++ [c]) back inside ?_ ?_ ?_ (le_of_mem_tail_utf8EncodeChar hchar) ?_
  · rw [htext, List.append_assoc]
    rfl
  · rw [size_append, hsize]
    omega
  · rw [htext, ← List.drop_drop, drop_bytesOf_append, Json.bytesOf_cons, hchar]
    rfl
  · intro later hlater
    rw [size_append] at hlater
    exact hlaid later hlater.consOperand

theorem proceeds_findingRound (text : List Char) (s : Finding) (h : s.Follows text) :
    Proceeds (size text) Finding.place (findingRound text) (Finding.Follows text)
      (Laid 0 (cutOperators text) · text) s := by
  obtain ⟨signs, place, front, back, inside, htext, hplace, hbytes, hinside, hlaid⟩ := h
  have hend : size front + size back = size text := by rw [htext, size_append]
  cases inside with
  | cons b inside =>
    -- The character has been looked at, and no sign starts at a later byte of it.
    obtain ⟨hb, hinside⟩ := List.forall_mem_cons.mp hinside
    have hround := findingRound_of_drop hbytes signs
    simp only [signOf?_of_le hb] at hround
    rw [List.length_cons] at hplace
    have hrest : (bytesOf text).drop (place + 1) = inside ++ bytesOf back := by
      rw [← List.drop_drop, hbytes]
      rfl
    refine .step _ hround (Nat.lt_succ_self place) ?_
      (.intro signs _ front back inside htext (by omega) hrest hinside hlaid)
    show place + 1 ≤ size text
    omega
  | nil =>
    obtain rfl : place = size front := hplace
    cases back with
    | nil =>
      -- At the end nothing is left to be laid out.
      have hlast : findingRound text ⟨signs, size front⟩ = some (.inr signs) := by
        rw [findingRound, if_neg]
        · rfl
        · rw [← hend]
          exact Nat.lt_irrefl _
      have hdone := hlaid [] (.last _ [])
      rw [List.append_nil] at hdone
      exact .finish signs hlast hdone
    | cons c rest =>
      obtain ⟨b, inside, hchar⟩ := exists_utf8EncodeChar_eq_cons c
      have hback : bytesOf (c :: rest) = b :: (inside ++ bytesOf rest) := by
        rw [Json.bytesOf_cons, hchar]
        rfl
      rw [List.nil_append, hback] at hbytes
      have hround := findingRound_of_drop hbytes signs
      rw [signOf?_eq hback] at hround
      cases hsign : firstSign? (c :: rest) with
      | some sign =>
        obtain ⟨behind, hbehind, hcut⟩ := cutOperators_of_firstSign? hsign
        have hpos := sign.size_chars_pos
        rw [hbehind, size_append] at hend
        rw [hcut, hbehind] at hlaid
        rw [hbehind] at htext
        simp only [hsign] at hround
        refine .step _ hround ?_ ?_ (.sign htext hlaid)
        · show size front < size front + size sign.chars
          omega
        · show size front + size sign.chars ≤ size text
          omega
      | none =>
        rw [cutOperators_of_firstSign?_eq_none hsign] at hlaid
        simp only [hsign] at hround
        rw [size_cons] at hend
        refine .step _ hround (Nat.lt_succ_self _) ?_ (.operand hchar htext hlaid)
        have hpos := c.utf8Size_pos
        show size front + 1 ≤ size text
        omega

end Round

/-- **Looking for signs byte by byte never fails**, and finds those that cut the text into its
operands. -/
theorem exists_signs? (text : List Char) :
    ∃ signs, signs? text = some signs ∧ Laid 0 (cutOperators text) signs text :=
  exists_scan (proceeds_findingRound text)
    (.intro [] 0 [] text [] rfl rfl rfl (List.forall_mem_nil _) fun _ h => h)

end StyleCascade.Media
