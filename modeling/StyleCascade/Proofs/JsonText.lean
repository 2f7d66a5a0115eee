import StyleCascade.Proofs.JsonTokens
import StyleCascade.Proofs.LastWrite

/-!
# Values of a JSON text

A value of integers, with one member per name in every object, is read back from its compact
text exactly when it nests no deeper than the reader allows (`Json.reads_value`); one that nests
deeper is refused as malformed, at the first bracket that is one too many
(`Json.refuses_value`).  Both follow the value, with the depth that is left generalised: the
elements of an array are read, or refused, one after the other, by a reader that may go one level
less deep.
-/
namespace StyleCascade.Json

/-- A value whose numbers are integers of 64 bits, with or without a sign, and whose objects
have one member per name. -/
inductive Plain : Json → Prop
  | null : Plain .null
  | bool (value : Bool) : Plain (.bool value)
  | integer {value : Int} (hlow : leastInt64 ≤ value) (hhigh : value ≤ greatestUInt64) :
      Plain (.integer value)
  | string (value : String) : Plain (.string value)
  | array {elements : List Json} (h : ∀ v ∈ elements, Plain v) : Plain (.array elements)
  | object {members : List (String × Json)} (hnames : (members.map Prod.fst).Nodup)
      (h : ∀ m ∈ members, Plain m.2) : Plain (.object members)

/-! ## Depth -/

theorem depth_array (vs : List Json) : depth (.array vs) = depthOfElements vs + 1 := rfl

theorem depth_object (ms : List (String × Json)) : depth (.object ms) = depthOfMembers ms + 1 := rfl

theorem depthOfElements_cons (v : Json) (vs : List Json) :
    depthOfElements (v :: vs) = max v.depth (depthOfElements vs) := rfl

theorem depthOfMembers_cons (m : String × Json) (ms : List (String × Json)) :
    depthOfMembers (m :: ms) = max m.2.depth (depthOfMembers ms) := rfl

theorem depthOfElements_le_iff {vs : List Json} {d : Nat} :
    depthOfElements vs ≤ d ↔ ∀ v ∈ vs, v.depth ≤ d := by
  induction vs with
  | nil => exact iff_of_true (Nat.zero_le d) nofun
  | cons v vs ih => rw [depthOfElements_cons, Nat.max_le, ih, List.forall_mem_cons]

theorem depthOfMembers_le_iff {ms : List (String × Json)} {d : Nat} :
    depthOfMembers ms ≤ d ↔ ∀ m ∈ ms, m.2.depth ≤ d := by
  induction ms with
  | nil => exact iff_of_true (Nat.zero_le d) nofun
  | cons m ms ih => rw [depthOfMembers_cons, Nat.max_le, ih, List.forall_mem_cons]

theorem lt_depthOfElements_iff {vs : List Json} {d : Nat} :
    d < depthOfElements vs ↔ ∃ v ∈ vs, d < v.depth := by
  have h : ¬depthOfElements vs ≤ d ↔ _ := not_congr depthOfElements_le_iff
  simpa using h

theorem lt_depthOfMembers_iff {ms : List (String × Json)} {d : Nat} :
    d < depthOfMembers ms ↔ ∃ m ∈ ms, d < m.2.depth := by
  have h : ¬depthOfMembers ms ≤ d ↔ _ := not_congr depthOfMembers_le_iff
  simpa using h

/-! ## Blanks -/

theorem skipBlanks_cons {b : UInt8} (h : isBlank b = false) (s : Bytes) :
    skipBlanks (b :: s) = b :: s :=
  List.dropWhile_cons_of_neg (by simp [h])

theorem endsNumber_cons {b : UInt8} (s : Bytes)
    (h : isDigit b = false ∧ b ≠ byte '.' ∧ b ≠ byte 'e' ∧ b ≠ byte 'E') : EndsNumber (b :: s) := by
  rintro _ ⟨⟩
  exact h

/-! ## Texts of arrays and objects -/

/-- The elements of an array, and the closing bracket. -/
def elementChars : List Json → List Char
  | [] => [']']
  | v :: vs => compactChars v ++ compactElements vs

/-- The members of an object, and the closing brace. -/
def memberChars : List (String × Json) → List Char
  | [] => ['\x7d']
  | (name, v) :: ms => quoted name ++ ':' :: compactChars v ++ compactMembers ms

theorem compactChars_integer (i : Int) : compactChars (.integer i) = integerChars i := rfl

theorem compactChars_string (s : String) : compactChars (.string s) = quoted s := rfl

theorem compactChars_array (vs : List Json) :
    compactChars (.array vs) = '[' :: elementChars vs := by
  cases vs with
  | nil => rfl
  | cons v vs => rfl

theorem compactChars_object (ms : List (String × Json)) :
    compactChars (.object ms) = '\x7b' :: memberChars ms := by
  cases ms with
  | nil => rfl
  | cons m ms => rfl

/-- What follows the first element is a comma, and the rest as an array has it. -/
theorem compactElements_cons (v : Json) (vs : List Json) :
    compactElements (v :: vs) = ',' :: elementChars (v :: vs) := rfl

theorem compactMembers_cons (m : String × Json) (ms : List (String × Json)) :
    compactMembers (m :: ms) = ',' :: memberChars (m :: ms) := rfl

theorem length_lt_compactElements (vs : List Json) :
    vs.length < (bytesOf (compactElements vs)).length := by
  induction vs with
  | nil => decide
  | cons v vs ih =>
    rw [compactElements_cons, elementChars, bytesOf_cons_of_lt (by decide), bytesOf_append]
    simp only [List.length_cons, List.length_append]
    omega

/-- A list is shorter than its text. -/
theorem length_lt_compactChars_array (vs : List Json) :
    vs.length < (bytesOf (Json.array vs).compactChars).length := by
  rw [compactChars_array, bytesOf_cons_of_lt (by decide), List.length_cons]
  cases vs with
  | nil => exact Nat.succ_pos _
  | cons v vs =>
    have hlength := length_lt_compactElements vs
    rw [elementChars, bytesOf_append, List.length_append, List.length_cons]
    omega

theorem length_lt_compactMembers (ms : List (String × Json)) :
    ms.length < (bytesOf (compactMembers ms)).length := by
  induction ms with
  | nil => decide
  | cons m ms ih =>
    rw [compactMembers_cons, memberChars, bytesOf_cons_of_lt (by decide), bytesOf_append]
    simp only [List.length_cons, List.length_append]
    omega

/-- The text of a value starts with a byte that is neither a blank nor a closing bracket. -/
theorem exists_compactChars_eq_cons {v : Json} (hv : v.Plain) :
    ∃ b s, bytesOf v.compactChars = b :: s ∧ isBlank b = false ∧ b ≠ byte ']' := by
  cases hv with
  | null => exact ⟨byte 'n', _, rfl, by decide, by decide⟩
  | bool value => cases value <;> exact ⟨_, _, rfl, by decide, by decide⟩
  | string value => exact ⟨byte '"', _, bytesOf_quoted value, by decide, by decide⟩
  | array h => exact ⟨byte '[', _, by rw [compactChars_array, bytesOf_cons_of_lt (by decide)],
      by decide, by decide⟩
  | object hnames h => exact ⟨byte '\x7b', _,
      by rw [compactChars_object, bytesOf_cons_of_lt (by decide)], by decide, by decide⟩
  | @integer value hlow hhigh =>
    obtain ⟨b, s, hb, hstart⟩ := exists_integerChars_eq_cons value
    exact ⟨b, s, hb, isBlank_of_startsNumber hstart,
      ne_of_startsNumber hstart (by decide) (by decide)⟩

/-! ## Readers of items -/

/-- The reader gives the value back from its text. -/
def Reads (item : Bytes → Except Fault (Json × Bytes)) (v : Json) : Prop :=
  ∀ rest, EndsNumber rest → item (bytesOf v.compactChars ++ rest) = .ok (v, rest)

/-- The reader refuses the text of the value. -/
def Refuses (item : Bytes → Except Fault (Json × Bytes)) (v : Json) : Prop :=
  ∀ rest, EndsNumber rest → item (bytesOf v.compactChars ++ rest) = .error .malformed

section Brackets

variable {item : Bytes → Except Fault (Json × Bytes)} {v w : Json} {vs : List Json}
  {name : String} {ms : List (String × Json)} {steps : Nat} {rest : Bytes}

theorem endsNumber_compactElements (vs : List Json) (rest : Bytes) :
    EndsNumber (bytesOf (compactElements vs) ++ rest) := by
  cases vs with
  | nil => exact endsNumber_cons _ (by decide)
  | cons v vs =>
    rw [compactElements_cons, bytesOf_cons_of_lt (by decide)]
    exact endsNumber_cons _ (by decide)

theorem endsNumber_compactMembers (ms : List (String × Json)) (rest : Bytes) :
    EndsNumber (bytesOf (compactMembers ms) ++ rest) := by
  cases ms with
  | nil => exact endsNumber_cons _ (by decide)
  | cons m ms =>
    rw [compactMembers_cons, bytesOf_cons_of_lt (by decide)]
    exact endsNumber_cons _ (by decide)

/-! ### Elements -/

theorem elementsFrom_last (hv : Reads item v) :
    elementsFrom item (steps + 1) (bytesOf (elementChars [v]) ++ rest) = .ok ([v], rest) := by
  have hread := hv _ (endsNumber_compactElements [] rest)
  rw [elementChars, bytesOf_append, List.append_assoc, elementsFrom, hread]
  rfl

theorem elementsFrom_cons (hv : Reads item v) (hw : w.Plain) :
    elementsFrom item (steps + 1) (bytesOf (elementChars (v :: w :: vs)) ++ rest) =
      (elementsFrom item steps (bytesOf (elementChars (w :: vs)) ++ rest)).map
        fun r => (v :: r.1, r.2) := by
  have hread := hv _ (endsNumber_compactElements (w :: vs) rest)
  obtain ⟨b, s, hb, hblank, hbracket⟩ := exists_compactChars_eq_cons hw
  rw [elementChars, bytesOf_append, List.append_assoc, elementsFrom, hread]
  rw [compactElements_cons, bytesOf_cons_of_lt (by decide), elementChars,
    bytesOf_append, hb, List.cons_append, List.cons_append, List.cons_append]
  simp only [bind, Except.bind, skipBlanks_cons (b := byte ',') (by decide),
    skipBlanks_cons hblank, List.head?_cons, Option.some.injEq, hbracket, if_false]
  rw [if_neg (by decide), if_pos trivial]
  cases elementsFrom item steps (b :: (s ++ bytesOf (compactElements vs) ++ rest)) <;> rfl

theorem elementsFrom_elementChars (hreads : ∀ u ∈ v :: vs, Reads item u)
    (hplain : ∀ u ∈ v :: vs, u.Plain) (hsteps : vs.length < steps) :
    elementsFrom item steps (bytesOf (elementChars (v :: vs)) ++ rest) = .ok (v :: vs, rest) := by
  induction vs generalizing v steps with
  | nil =>
    obtain ⟨steps, rfl⟩ := Nat.exists_eq_add_of_lt hsteps
    rw [List.length_nil, Nat.zero_add]
    exact elementsFrom_last (hreads v List.mem_cons_self)
  | cons w vs ih =>
    obtain ⟨hv, hreads⟩ := List.forall_mem_cons.mp hreads
    obtain ⟨-, hplain⟩ := List.forall_mem_cons.mp hplain
    obtain ⟨steps, rfl⟩ : ∃ k, steps = k + 1 := ⟨steps - 1, by omega⟩
    rw [elementsFrom_cons hv (hplain w List.mem_cons_self),
      ih hreads hplain (Nat.lt_of_succ_lt_succ hsteps)]
    rfl

theorem elementsFrom_refused (hv : Refuses item v) :
    elementsFrom item (steps + 1) (bytesOf (elementChars (v :: vs)) ++ rest) =
      .error .malformed := by
  have hread := hv _ (endsNumber_compactElements vs rest)
  rw [elementChars, bytesOf_append, List.append_assoc, elementsFrom, hread]
  rfl

/-- One element that is refused is enough. -/
theorem elementsFrom_elementChars_refused (h : ∀ u ∈ v :: vs, Reads item u ∨ Refuses item u)
    (hrefuses : ∃ u ∈ v :: vs, Refuses item u) (hplain : ∀ u ∈ v :: vs, u.Plain)
    (hsteps : vs.length < steps) :
    elementsFrom item steps (bytesOf (elementChars (v :: vs)) ++ rest) = .error .malformed := by
  induction vs generalizing v steps with
  | nil =>
    obtain ⟨steps, rfl⟩ : ∃ k, steps = k + 1 := ⟨steps - 1, by omega⟩
    obtain ⟨u, hu, hrefuses⟩ := hrefuses
    exact elementsFrom_refused (List.mem_singleton.mp hu ▸ hrefuses)
  | cons w vs ih =>
    obtain ⟨steps, rfl⟩ : ∃ k, steps = k + 1 := ⟨steps - 1, by omega⟩
    obtain ⟨hv, h⟩ := List.forall_mem_cons.mp h
    obtain ⟨-, hplain⟩ := List.forall_mem_cons.mp hplain
    rcases hv with hreads | hrefused
    · obtain ⟨u, hu, hrefused⟩ := hrefuses
      rcases List.mem_cons.mp hu with rfl | hu
      · exact elementsFrom_refused hrefused
      · rw [elementsFrom_cons hreads (hplain w List.mem_cons_self),
          ih h ⟨u, hu, hrefused⟩ hplain (Nat.lt_of_succ_lt_succ hsteps)]
        rfl
    · exact elementsFrom_refused hrefused

theorem elements_cons (hv : v.Plain) (vs : List Json) (rest : Bytes) :
    ∃ steps, vs.length < steps ∧
      elements item (bytesOf (elementChars (v :: vs)) ++ rest) =
        elementsFrom item steps (bytesOf (elementChars (v :: vs)) ++ rest) := by
  refine ⟨(bytesOf (elementChars (v :: vs)) ++ rest).length, ?_, ?_⟩
  · have := length_lt_compactElements vs
    rw [elementChars, bytesOf_append]
    simp only [List.length_append]
    omega
  · obtain ⟨b, s, hb, hblank, hbracket⟩ := exists_compactChars_eq_cons hv
    rw [elements, elementChars, bytesOf_append, hb, List.cons_append, List.cons_append,
      skipBlanks_cons hblank]
    exact if_neg hbracket

/-- **The elements of an array are read back if each of them is.** -/
theorem elements_elementChars (hreads : ∀ u ∈ vs, Reads item u) (hplain : ∀ u ∈ vs, u.Plain)
    (rest : Bytes) : elements item (bytesOf (elementChars vs) ++ rest) = .ok (vs, rest) := by
  cases vs with
  | nil => rfl
  | cons v vs =>
    obtain ⟨steps, hsteps, helements⟩ := elements_cons (hplain v List.mem_cons_self) vs rest
    rw [helements]
    exact elementsFrom_elementChars hreads hplain hsteps

theorem elements_elementChars_refused (h : ∀ u ∈ vs, Reads item u ∨ Refuses item u)
    (hrefuses : ∃ u ∈ vs, Refuses item u) (hplain : ∀ u ∈ vs, u.Plain) (rest : Bytes) :
    elements item (bytesOf (elementChars vs) ++ rest) = .error .malformed := by
  cases vs with
  | nil => simp at hrefuses
  | cons v vs =>
    obtain ⟨steps, hsteps, helements⟩ := elements_cons (hplain v List.mem_cons_self) vs rest
    rw [helements]
    exact elementsFrom_elementChars_refused h hrefuses hplain hsteps

/-! ### Members -/

theorem quotedName_quoted (name : String) (rest : Bytes) :
    quotedName text (bytesOf (quoted name) ++ rest) = .ok (name, rest) := by
  rw [bytesOf_quoted, List.cons_append, quotedName, skipBlanks_cons (by decide), List.append_assoc]
  exact text_bytesOf name rest

theorem afterColon_colon (rest : Bytes) : afterColon (byte ':' :: rest) = .ok rest := by
  rw [afterColon, skipBlanks_cons (by decide)]
  exact if_pos rfl

theorem quotedName_memberChars (name : String) (v : Json) (ms : List (String × Json))
    (rest : Bytes) :
    quotedName text (bytesOf (memberChars ((name, v) :: ms)) ++ rest) =
      .ok (name,
        byte ':' :: (bytesOf v.compactChars ++ (bytesOf (compactMembers ms) ++ rest))) := by
  rw [memberChars, bytesOf_append, bytesOf_append, bytesOf_cons_of_lt (by decide),
    List.append_assoc, List.append_assoc, quotedName_quoted, List.cons_append]

theorem membersFrom_last (hv : Reads item v) :
    membersFrom item text (steps + 1) (bytesOf (memberChars [(name, v)]) ++ rest) =
      .ok ([(name, v)], rest) := by
  have hread := hv _ (endsNumber_compactMembers [] rest)
  rw [membersFrom, quotedName_memberChars]
  simp only [bind, Except.bind, afterColon_colon, hread]
  rfl

theorem membersFrom_refused (hv : Refuses item v) :
    membersFrom item text (steps + 1) (bytesOf (memberChars ((name, v) :: ms)) ++ rest) =
      .error .malformed := by
  have hread := hv _ (endsNumber_compactMembers ms rest)
  rw [membersFrom, quotedName_memberChars]
  simp only [bind, Except.bind, afterColon_colon, hread]

theorem membersFrom_cons {m : String × Json} (hv : Reads item v) :
    membersFrom item text (steps + 1) (bytesOf (memberChars ((name, v) :: m :: ms)) ++ rest) =
      (membersFrom item text steps (bytesOf (memberChars (m :: ms)) ++ rest)).map
        fun r => ((name, v) :: r.1, r.2) := by
  have hread := hv _ (endsNumber_compactMembers (m :: ms) rest)
  rw [membersFrom, quotedName_memberChars]
  simp only [bind, Except.bind, afterColon_colon, hread]
  rw [compactMembers_cons, bytesOf_cons_of_lt (by decide), List.cons_append,
    skipBlanks_cons (by decide)]
  simp only [show byte ',' ≠ byte '\x7d' by decide, if_false, if_true]
  cases membersFrom item text steps (bytesOf (memberChars (m :: ms)) ++ rest) <;> rfl

theorem membersFrom_memberChars (hreads : ∀ m ∈ (name, v) :: ms, Reads item m.2)
    (hsteps : ms.length < steps) :
    membersFrom item text steps (bytesOf (memberChars ((name, v) :: ms)) ++ rest) =
      .ok ((name, v) :: ms, rest) := by
  induction ms generalizing name v steps with
  | nil =>
    obtain ⟨steps, rfl⟩ : ∃ k, steps = k + 1 := ⟨steps - 1, by omega⟩
    exact membersFrom_last (hreads _ List.mem_cons_self)
  | cons m ms ih =>
    obtain ⟨steps, rfl⟩ : ∃ k, steps = k + 1 := ⟨steps - 1, by omega⟩
    obtain ⟨hv, hreads⟩ := List.forall_mem_cons.mp hreads
    rw [membersFrom_cons hv, ih hreads (Nat.lt_of_succ_lt_succ hsteps)]
    rfl

/-- One member whose value is refused is enough. -/
theorem membersFrom_memberChars_refused
    (h : ∀ m ∈ (name, v) :: ms, Reads item m.2 ∨ Refuses item m.2)
    (hrefuses : ∃ m ∈ (name, v) :: ms, Refuses item m.2) (hsteps : ms.length < steps) :
    membersFrom item text steps (bytesOf (memberChars ((name, v) :: ms)) ++ rest) =
      .error .malformed := by
  induction ms generalizing name v steps with
  | nil =>
    obtain ⟨steps, rfl⟩ : ∃ k, steps = k + 1 := ⟨steps - 1, by omega⟩
    obtain ⟨m, hm, hrefused⟩ := hrefuses
    obtain rfl := List.mem_singleton.mp hm
    exact membersFrom_refused hrefused
  | cons next ms ih =>
    obtain ⟨steps, rfl⟩ : ∃ k, steps = k + 1 := ⟨steps - 1, by omega⟩
    obtain ⟨hv, h⟩ := List.forall_mem_cons.mp h
    rcases hv with hreads | hrefused
    · obtain ⟨m, hm, hrefused⟩ := hrefuses
      rcases List.mem_cons.mp hm with rfl | hm
      · exact membersFrom_refused hrefused
      · rw [membersFrom_cons hreads, ih h ⟨m, hm, hrefused⟩ (Nat.lt_of_succ_lt_succ hsteps)]
        rfl
    · exact membersFrom_refused hrefused

theorem length_lt_memberChars (m : String × Json) (ms : List (String × Json)) :
    ms.length < (bytesOf (memberChars (m :: ms))).length := by
  have := length_lt_compactMembers ms
  rw [memberChars, bytesOf_append]
  simp only [List.length_append]
  omega

theorem members_cons (item : Bytes → Except Fault (Json × Bytes)) (name : String) (v : Json)
    (ms : List (String × Json)) (rest : Bytes) :
    ∃ steps, ms.length < steps ∧
      members item text (bytesOf (memberChars ((name, v) :: ms)) ++ rest) =
        membersFrom item text steps (bytesOf (memberChars ((name, v) :: ms)) ++ rest) := by
  refine ⟨(bytesOf (memberChars ((name, v) :: ms)) ++ rest).length, ?_, ?_⟩
  · have := length_lt_memberChars (name, v) ms
    rw [List.length_append]
    omega
  · rw [members, memberChars, bytesOf_append, bytesOf_append, bytesOf_quoted]
    simp only [List.cons_append, skipBlanks_cons (b := byte '"') (by decide)]
    exact if_neg (by decide)

/-- **The members of an object are read back if the value of each of them is.** -/
theorem members_memberChars (hreads : ∀ m ∈ ms, Reads item m.2) (rest : Bytes) :
    members item text (bytesOf (memberChars ms) ++ rest) = .ok (ms, rest) := by
  cases ms with
  | nil => rfl
  | cons m ms =>
    obtain ⟨name, v⟩ := m
    obtain ⟨steps, hsteps, hmembers⟩ := members_cons item name v ms rest
    rw [hmembers]
    exact membersFrom_memberChars hreads hsteps

theorem members_memberChars_refused (h : ∀ m ∈ ms, Reads item m.2 ∨ Refuses item m.2)
    (hrefuses : ∃ m ∈ ms, Refuses item m.2) (rest : Bytes) :
    members item text (bytesOf (memberChars ms) ++ rest) = .error .malformed := by
  cases ms with
  | nil => simp at hrefuses
  | cons m ms =>
    obtain ⟨name, v⟩ := m
    obtain ⟨steps, hsteps, hmembers⟩ := members_cons item name v ms rest
    rw [hmembers]
    exact membersFrom_memberChars_refused h hrefuses hsteps

end Brackets

/-! ## Values -/

theorem value_of_scalar {b : UInt8} {s : Bytes} (depth : Nat) (hblank : isBlank b = false)
    (hbracket : b ≠ byte '[') (hbrace : b ≠ byte '\x7b') :
    value depth (b :: s) = scalar (b :: s) := by
  rw [value, skipBlanks_cons hblank]
  simp only [if_neg hbracket, if_neg hbrace]

theorem scalar_quoted (s : String) (rest : Bytes) :
    scalar (bytesOf (quoted s) ++ rest) = .ok (.string s, rest) := by
  have htext := text_bytesOf s rest
  rw [bytesOf_quoted, List.cons_append, List.append_assoc, scalar, if_neg (by decide),
    if_neg (by decide), if_neg (by decide), if_pos rfl]
  simp only [List.singleton_append, htext, bind, Except.bind]

theorem reads_string (depth : Nat) (s : String) : Reads (value depth) (.string s) := by
  intro rest _
  rw [← scalar_quoted s rest, compactChars_string, bytesOf_quoted]
  exact value_of_scalar depth (by decide) (by decide) (by decide)

theorem reads_integer (depth : Nat) {i : Int} (hlow : leastInt64 ≤ i) (hhigh : i ≤ greatestUInt64) :
    Reads (value depth) (.integer i) := by
  intro rest hrest
  have hscalar := scalar_integer hrest hlow hhigh
  obtain ⟨b, s, hb, hstart⟩ := exists_integerChars_eq_cons i
  rw [compactChars_integer]
  rw [hb, List.cons_append] at hscalar ⊢
  rw [value_of_scalar depth (isBlank_of_startsNumber hstart)
    (ne_of_startsNumber hstart (by decide) (by decide))
    (ne_of_startsNumber hstart (by decide) (by decide)), hscalar]

theorem value_array (depth : Nat) (vs : List Json) (rest : Bytes) :
    value (depth + 1) (bytesOf (compactChars (.array vs)) ++ rest) =
      (elements (value depth) (bytesOf (elementChars vs) ++ rest)).map
        fun r => (.array r.1, r.2) := by
  rw [compactChars_array, bytesOf_cons_of_lt (by decide), List.cons_append, value,
    skipBlanks_cons (by decide)]
  simp only [if_true]
  cases elements (value depth) (bytesOf (elementChars vs) ++ rest) <;> rfl

theorem value_object (depth : Nat) (ms : List (String × Json)) (rest : Bytes) :
    value (depth + 1) (bytesOf (compactChars (.object ms)) ++ rest) =
      (members (value depth) text (bytesOf (memberChars ms) ++ rest)).map
        fun r => (ofMembers r.1, r.2) := by
  rw [compactChars_object, bytesOf_cons_of_lt (by decide), List.cons_append, value,
    skipBlanks_cons (by decide)]
  simp only [show byte '\x7b' ≠ byte '[' by decide, if_true, if_false]
  cases members (value depth) text (bytesOf (memberChars ms) ++ rest) <;> rfl

/-- **A value that nests no deeper than allowed is read back.** -/
theorem reads_value {v : Json} (hv : v.Plain) {depth : Nat} (hdepth : v.depth ≤ depth) :
    Reads (value depth) v := by
  induction hv generalizing depth with
  | null => cases depth <;> exact fun _ _ => rfl
  | bool b => cases b <;> cases depth <;> exact fun _ _ => rfl
  | integer hlow hhigh => exact reads_integer depth hlow hhigh
  | string s => exact reads_string depth s
  | @array vs hplain ih =>
    cases depth with
    | zero => simp [depth_array] at hdepth
    | succ depth =>
      rw [depth_array, Nat.add_le_add_iff_right, depthOfElements_le_iff] at hdepth
      intro rest _
      rw [value_array, elements_elementChars (fun v hv => ih v hv (hdepth v hv)) hplain]
      rfl
  | @object ms hnames _ ih =>
    cases depth with
    | zero => simp [depth_object] at hdepth
    | succ depth =>
      rw [depth_object, Nat.add_le_add_iff_right, depthOfMembers_le_iff] at hdepth
      intro rest _
      rw [value_object, members_memberChars fun m hm => ih m hm (hdepth m hm)]
      -- Reading puts members in one by one, so a name that came twice would lose a member.
      show Except.ok (ofMembers ms, rest) = _
      rw [ofMembers, Keyed.upsertAll_nil_of_nodup Prod.fst hnames]

theorem reads_or_refuses {v : Json} (hv : v.Plain) {depth : Nat}
    (hdeep : depth < v.depth → Refuses (value depth) v) :
    Reads (value depth) v ∨ Refuses (value depth) v :=
  (Nat.lt_or_ge depth v.depth).elim (fun h => .inr (hdeep h)) fun h => .inl (reads_value hv h)

theorem refuses_array_zero (vs : List Json) : Refuses (value 0) (.array vs) := by
  intro rest _
  rw [compactChars_array, bytesOf_cons_of_lt (by decide), List.cons_append, value,
    skipBlanks_cons (by decide)]
  rfl

theorem refuses_object_zero (ms : List (String × Json)) : Refuses (value 0) (.object ms) := by
  intro rest _
  rw [compactChars_object, bytesOf_cons_of_lt (by decide), List.cons_append, value,
    skipBlanks_cons (by decide)]
  rfl

/-- **A value that nests deeper than allowed is refused.** -/
theorem refuses_value {v : Json} (hv : v.Plain) {depth : Nat} (hdepth : depth < v.depth) :
    Refuses (value depth) v := by
  induction hv generalizing depth with
  | @array vs hplain ih =>
    cases depth with
    | zero => exact refuses_array_zero vs
    | succ depth =>
      rw [depth_array, Nat.add_lt_add_iff_right, lt_depthOfElements_iff] at hdepth
      obtain ⟨w, hw, hdeep⟩ := hdepth
      intro rest _
      -- The elements before the one that is too deep are read, or refused themselves.
      rw [value_array, elements_elementChars_refused
        (fun u hu => reads_or_refuses (hplain u hu) (ih u hu)) ⟨w, hw, ih w hw hdeep⟩ hplain]
      rfl
  | @object ms _ hplain ih =>
    cases depth with
    | zero => exact refuses_object_zero ms
    | succ depth =>
      rw [depth_object, Nat.add_lt_add_iff_right, lt_depthOfMembers_iff] at hdepth
      obtain ⟨m, hm, hdeep⟩ := hdepth
      intro rest _
      rw [value_object, members_memberChars_refused
        (fun n hn => reads_or_refuses (hplain n hn) (ih n hn)) ⟨m, hm, ih m hm hdeep⟩]
      rfl
  | _ => simp [Json.depth] at hdepth

/-- A whole text of a value that nests no deeper than allowed. -/
theorem ofBytes_compactChars {v : Json} (hv : v.Plain) (hdepth : v.depth ≤ maxDepth) :
    ofBytes (bytesOf v.compactChars) = .ok v := by
  have hread := reads_value hv hdepth [] (fun _ h => by cases h)
  rw [List.append_nil] at hread
  rw [ofBytes, whole, hread]
  rfl

end StyleCascade.Json
