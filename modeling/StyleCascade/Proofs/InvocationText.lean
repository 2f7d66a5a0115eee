import StyleCascade.Channel.Invocation
import StyleCascade.Proofs.JsonText

/-!
# Invocations on the wire

An invocation with plain arguments is read back from its text exactly when none of the
arguments nests more than 125 levels, two less than a JSON text may, since the arguments stand
inside the brackets of the list and of the invocation.  Any other one is refused as malformed
(`Invocation.decode_encode_eq_ok_iff`).
-/
namespace StyleCascade.Channel.Invocation

open Json (Bytes Fault byte bytesOf EndsNumber skipBlanks_cons memberChars compactMembers)

/-! ## The four values -/

/-- What `scalar` makes of a value that is read as a single token. -/
theorem scalar_of_read {α : Type} {pick : Json → Option α} {b : UInt8} {s rest : Bytes} {v : Json}
    {a : α} (hblank : Json.isBlank b = false) (hbracket : b ≠ byte '[') (hbrace : b ≠ byte '\x7b')
    (hread : Json.scalar (b :: s) = .ok (v, rest)) (hpick : pick v = some a) :
    scalar pick (b :: s) = .ok (a, rest) := by
  rw [scalar, skipBlanks_cons hblank]
  simp only [hbracket, hbrace, or_self, if_false, hread, bind, Except.bind, hpick]

theorem flag_bool (value : Bool) (rest : Bytes) :
    flag (bytesOf (Json.bool value).compactChars ++ rest) = .ok (value, rest) := by
  cases value <;> rfl

theorem text_string (s : String) (rest : Bytes) :
    text (bytesOf (Json.string s).compactChars ++ rest) = .ok (s, rest) := by
  have hread := Json.scalar_quoted s rest
  rw [Json.compactChars_string]
  rw [Json.bytesOf_quoted, List.cons_append] at hread ⊢
  exact scalar_of_read (by decide) (by decide) (by decide) hread rfl

theorem time_integer (t : Int64) {rest : Bytes} (hrest : EndsNumber rest) :
    time (bytesOf (Json.integer t.toInt).compactChars ++ rest) = .ok (t, rest) := by
  have hlow : Json.leastInt64 ≤ t.toInt := t.le_toInt
  have hhigh : t.toInt ≤ Json.greatestInt64 := by
    have := t.toInt_lt
    simp only [Json.greatestInt64]
    omega
  have hread := Json.scalar_integer hrest hlow (Int.le_trans hhigh (by decide))
  obtain ⟨b, s, hb, hstart⟩ := Json.exists_integerChars_eq_cons t.toInt
  rw [Json.compactChars_integer]
  rw [hb, List.cons_append] at hread ⊢
  refine scalar_of_read (Json.isBlank_of_startsNumber hstart)
    (Json.ne_of_startsNumber hstart (by decide) (by decide))
    (Json.ne_of_startsNumber hstart (by decide) (by decide)) hread ?_
  rw [Json.asInt64?, if_pos ⟨hlow, hhigh⟩, Option.map_some, Int64.ofInt_toInt]

theorem arguments_array (args : List Json) (rest : Bytes) :
    arguments (bytesOf (Json.array args).compactChars ++ rest) =
      Json.elements (Json.value 125) (bytesOf (Json.elementChars args) ++ rest) := by
  rw [Json.compactChars_array, Json.bytesOf_cons_of_lt (by decide), List.cons_append, arguments,
    skipBlanks_cons (by decide)]
  exact if_pos rfl

theorem arguments_of_depth_le {args : List Json} (hplain : ∀ v ∈ args, v.Plain)
    (hdepth : ∀ v ∈ args, v.depth ≤ 125) (rest : Bytes) :
    arguments (bytesOf (Json.array args).compactChars ++ rest) = .ok (args, rest) := by
  rw [arguments_array]
  exact Json.elements_elementChars (fun v hv => Json.reads_value (hplain v hv) (hdepth v hv))
    hplain rest

theorem arguments_of_lt_depth {args : List Json} (hplain : ∀ v ∈ args, v.Plain)
    (hdepth : ∃ v ∈ args, 125 < v.depth) (rest : Bytes) :
    arguments (bytesOf (Json.array args).compactChars ++ rest) = .error .malformed := by
  obtain ⟨v, hv, hdeep⟩ := hdepth
  rw [arguments_array]
  exact Json.elements_elementChars_refused
    (fun u hu => Json.reads_or_refuses (hplain u hu) (Json.refuses_value (hplain u hu)))
    ⟨v, hv, Json.refuses_value (hplain v hv) hdeep⟩ hplain rest

/-! ## Members -/

namespace Draft

variable {d e : Draft} {name : String} {v : Json} {ms : List (String × Json)} {steps : Nat}
  {rest : Bytes}

theorem readValue_isSync (value : Bool) (rest : Bytes) :
    d.readValue "isSync" (bytesOf (Json.bool value).compactChars ++ rest) =
      .ok ({ d with isSync := some value }, rest) := by
  rw [readValue, flag_bool]
  rfl

theorem readValue_method (value : String) (rest : Bytes) :
    d.readValue "method" (bytesOf (Json.string value).compactChars ++ rest) =
      .ok ({ d with method := some value }, rest) := by
  rw [readValue, text_string]
  rfl

theorem readValue_args {args : List Json} {r : Except Fault (List Json × Bytes)}
    (h : arguments (bytesOf (Json.array args).compactChars ++ rest) = r) :
    d.readValue "args" (bytesOf (Json.array args).compactChars ++ rest) =
      r.map fun (v, s) => ({ d with args := some v }, s) := by
  rw [readValue, h]

theorem readValue_timestamp (t : Int64) (hrest : EndsNumber rest) :
    d.readValue "timestampMillis" (bytesOf (Json.integer t.toInt).compactChars ++ rest) =
      .ok ({ d with timestamp := some t }, rest) := by
  rw [readValue, time_integer t hrest]
  rfl

theorem readMember_memberChars (hname : d.has name = false) :
    d.readMember (bytesOf (memberChars ((name, v) :: ms)) ++ rest) =
      d.readValue name (bytesOf v.compactChars ++ (bytesOf (compactMembers ms) ++ rest)) := by
  rw [readMember, Json.quotedName_memberChars]
  simp only [bind, Except.bind, hname, Bool.false_eq_true, if_false, Json.afterColon_colon]

theorem readMembers_cons {m : String × Json} (hname : d.has name = false)
    (hread : ∀ rest, EndsNumber rest →
      d.readValue name (bytesOf v.compactChars ++ rest) = .ok (e, rest)) :
    d.readMembers (steps + 1) (bytesOf (memberChars ((name, v) :: m :: ms)) ++ rest) =
      e.readMembers steps (bytesOf (memberChars (m :: ms)) ++ rest) := by
  rw [readMembers, readMember_memberChars hname, hread _ (Json.endsNumber_compactMembers _ rest)]
  simp only [bind, Except.bind]
  rw [Json.compactMembers_cons, Json.bytesOf_cons_of_lt (by decide), List.cons_append,
    skipBlanks_cons (by decide)]
  simp only [show byte ',' ≠ byte '\x7d' by decide, if_false, if_true]

theorem readMembers_last (hname : d.has name = false)
    (hread : ∀ rest, EndsNumber rest →
      d.readValue name (bytesOf v.compactChars ++ rest) = .ok (e, rest)) :
    d.readMembers (steps + 1) (bytesOf (memberChars [(name, v)]) ++ rest) = .ok (e, rest) := by
  rw [readMembers, readMember_memberChars hname, hread _ (Json.endsNumber_compactMembers _ rest)]
  rfl

theorem readMembers_error {f : Fault} (hname : d.has name = false)
    (hread : ∀ rest, d.readValue name (bytesOf v.compactChars ++ rest) = .error f) :
    d.readMembers (steps + 1) (bytesOf (memberChars ((name, v) :: ms)) ++ rest) = .error f := by
  rw [readMembers, readMember_memberChars hname, hread]
  rfl

end Draft

/-! ## Whole invocations -/

/-- The members of an invocation. -/
def members (i : Invocation) : List (String × Json) :=
  [("isSync", .bool i.isSync), ("method", .string i.method), ("args", .array i.args),
    ("timestampMillis", .integer i.timestamp.toInt)]

theorem toList_encode (i : Invocation) :
    i.encode.data.toList = byte '\x7b' :: bytesOf (memberChars i.members) := by
  rw [encode, Json.compact, Json.data_toUTF8_ofList, toJson, Json.compactChars_object,
    Json.bytesOf_cons_of_lt (by decide)]
  rfl

/-- An invocation is longer than the list of its arguments. -/
theorem length_args_lt_size_encode (i : Invocation) : i.args.length < i.encode.size := by
  have hsize : i.encode.size = (bytesOf (memberChars i.members)).length + 1 := by
    rw [← ByteArray.size_data, ← Array.length_toList, toList_encode, List.length_cons]
  have hmembers : (bytesOf (Json.array i.args).compactChars).length ≤
      (bytesOf (memberChars i.members)).length := by
    simp only [members, memberChars, compactMembers, List.cons_append, Json.bytesOf_append,
      Json.bytesOf_cons, List.length_append]
    omega
  have hargs := Json.length_lt_compactChars_array i.args
  omega

/-- An invocation is read member by member. -/
theorem decode_encode (i : Invocation) :
    ∃ steps, 3 < steps ∧ decode i.encode =
      (({} : Draft).readMembers steps (bytesOf (memberChars i.members))).bind fun r =>
        match r.1.complete? with
        | some j => if (Json.skipBlanks r.2).isEmpty then .ok j else .error .malformed
        | none => .error .unfit := by
  have hsteps : 3 < (bytesOf (memberChars i.members)).length :=
    Json.length_lt_memberChars ("isSync", .bool i.isSync) i.members.tail
  have hstart : ∃ s, bytesOf (memberChars i.members) = byte '"' :: s := by
    rw [members, memberChars, Json.bytesOf_append, Json.bytesOf_append, Json.bytesOf_quoted,
      List.cons_append, List.cons_append]
    exact ⟨_, rfl⟩
  obtain ⟨s, hs⟩ := hstart
  have hobject : ofObject (bytesOf (memberChars i.members)) =
      (({} : Draft).readMembers (bytesOf (memberChars i.members)).length
        (bytesOf (memberChars i.members))).bind fun r =>
        match r.1.complete? with
        | some j => .ok (j, r.2)
        | none => .error .unfit := by
    rw [ofObject, hs, skipBlanks_cons (by decide)]
    simp only [show byte '"' ≠ byte '\x7d' by decide, if_false]
    rfl
  refine ⟨_, hsteps, ?_⟩
  rw [decode, toList_encode, Json.whole, read, skipBlanks_cons (by decide)]
  simp only [show byte '\x7b' ≠ byte '[' by decide, if_true, if_false]
  rw [hobject]
  cases ({} : Draft).readMembers _ (bytesOf (memberChars i.members)) with
  | error f => rfl
  | ok r =>
    simp only [Except.bind, bind]
    cases r.1.complete? <;> rfl

/-- The two members before the arguments are read whatever the arguments are. -/
theorem readMembers_members (i : Invocation) (k : Nat) :
    ({} : Draft).readMembers (k + 4) (bytesOf (memberChars i.members)) =
      ({ isSync := some i.isSync, method := some i.method } : Draft).readMembers (k + 2)
        (bytesOf (memberChars [("args", .array i.args),
          ("timestampMillis", .integer i.timestamp.toInt)]) ++ []) := by
  rw [← List.append_nil (bytesOf (memberChars i.members)), members,
    Draft.readMembers_cons rfl fun rest _ => Draft.readValue_isSync i.isSync rest,
    Draft.readMembers_cons rfl fun rest _ => Draft.readValue_method i.method rest]

/-- **Arguments that do not nest too deep arrive as they were sent.** -/
theorem decode_encode_of_depth_le {i : Invocation} (hplain : ∀ v ∈ i.args, v.Plain)
    (hdepth : ∀ v ∈ i.args, v.depth ≤ 125) : decode i.encode = .ok i := by
  obtain ⟨steps, hsteps, hdecode⟩ := decode_encode i
  obtain ⟨k, rfl⟩ : ∃ k, steps = k + 4 := ⟨steps - 4, by omega⟩
  have hargs := fun (d : Draft) rest =>
    d.readValue_args (arguments_of_depth_le hplain hdepth rest)
  rw [hdecode, readMembers_members, Draft.readMembers_cons rfl fun rest _ => hargs _ rest,
    Draft.readMembers_last rfl fun rest => Draft.readValue_timestamp i.timestamp]
  rfl

/-- **Arguments that nest too deep are refused.** -/
theorem decode_encode_of_lt_depth {i : Invocation} (hplain : ∀ v ∈ i.args, v.Plain)
    (hdepth : ∃ v ∈ i.args, 125 < v.depth) : decode i.encode = .error .malformed := by
  obtain ⟨steps, hsteps, hdecode⟩ := decode_encode i
  obtain ⟨k, rfl⟩ : ∃ k, steps = k + 4 := ⟨steps - 4, by omega⟩
  have hargs := fun (d : Draft) rest =>
    d.readValue_args (arguments_of_lt_depth hplain hdepth rest)
  rw [hdecode, readMembers_members, Draft.readMembers_error rfl fun rest => hargs _ rest]
  rfl

/-- **The wire is exact up to the limit of nesting.**  An invocation with plain arguments is read
back, with the members of its objects in their order, exactly if none of the arguments nests more
than 125 levels, and is malformed otherwise. -/
theorem decode_encode_eq_ok_iff (i : Invocation) (hplain : ∀ v ∈ i.args, v.Plain) :
    (decode i.encode = .ok i ↔ ∀ v ∈ i.args, v.depth ≤ 125) ∧
      ((∃ v ∈ i.args, 125 < v.depth) → decode i.encode = .error .malformed) := by
  refine ⟨⟨fun hok => ?_, decode_encode_of_depth_le hplain⟩, decode_encode_of_lt_depth hplain⟩
  by_contra hdeep
  have hdeep : ∃ v ∈ i.args, 125 < v.depth := by simpa using hdeep
  rw [decode_encode_of_lt_depth hplain hdeep] at hok
  cases hok

/-- A number inside a given number of brackets. -/
def nested : Nat → Json
  | 0 => .integer Json.leastInt64
  | n + 1 => .array [nested n]

theorem depth_nested (n : Nat) : (nested n).depth = n := by
  induction n with
  | zero => rfl
  | succ n ih =>
    rw [nested, Json.depth_array, Json.depthOfElements_cons, ih]
    exact congrArg Nat.succ (Nat.max_zero n)

theorem plain_nested (n : Nat) : (nested n).Plain := by
  induction n with
  | zero => exact .integer (by decide) (by decide)
  | succ n ih => exact .array (by simpa using ih)

/-- An invocation whose arguments nest a given number of levels, with members that are not in
the order of their names and a text of controls, quotes and other scripts. -/
def nestedSample (n : Nat) : Invocation where
  isSync := true
  method := "fire\u0001\"Event\\é😀"
  args := [nested n, .object [("b", .integer Json.greatestUInt64), ("a", .null)]]
  timestamp := -1

theorem plain_nestedSample (n : Nat) : ∀ v ∈ (nestedSample n).args, v.Plain := by
  intro v hv
  rcases List.mem_cons.mp hv with rfl | hv
  · exact plain_nested n
  · obtain rfl := List.mem_singleton.mp hv
    refine .object (by decide) fun m hm => ?_
    rcases List.mem_cons.mp hm with rfl | hm
    · exact .integer (by decide) (by decide)
    · obtain rfl := List.mem_singleton.mp hm
      exact .null

theorem decode_encode_eq_ok_iff_nestedSample :
    decode (nestedSample 125).encode = .ok (nestedSample 125) ∧
      decode (nestedSample 126).encode = .error .malformed := by
  constructor
  · refine (decode_encode_eq_ok_iff _ (plain_nestedSample 125)).1.mpr fun v hv => ?_
    rcases List.mem_cons.mp hv with rfl | hv
    · exact Nat.le_of_eq (depth_nested 125)
    · obtain rfl := List.mem_singleton.mp hv
      decide
  · exact (decode_encode_eq_ok_iff _ (plain_nestedSample 126)).2
      ⟨nested 126, List.mem_cons_self, by rw [depth_nested]; decide⟩

end StyleCascade.Channel.Invocation
