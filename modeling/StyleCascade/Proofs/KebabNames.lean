import Mathlib.Tactic.MkIffOfInductiveProp
import StyleCascade.Property

/-!
# Names in kebab case

An inspector writes a name in kebab case and reads back what was edited.  Reading undoes writing on
exactly the names with no capital at the start and no dash after it
(`Property.camelChars_kebabChars_eq_self_iff`), and writing undoes reading on exactly the names
without capitals in which every dash after the first character stands right before a small letter
(`Property.kebabChars_camelChars_eq_self_iff`).

A dash at the start is copied both ways.  Of the names that do not start with one, the first are
those in camel case and the second those in kebab case, and writing and reading are inverse to each
other between the two (`Property.kebabChars_inverse_camelChars`).
-/
namespace StyleCascade

/-! ## Capitals and small letters -/

namespace Text

variable {c : Char}

theorem isUpper_iff : c.isUpper = true ↔ 65 ≤ c.toNat ∧ c.toNat ≤ 90 :=
  decide_eq_true_iff

theorem isLower_iff : c.isLower = true ↔ 97 ≤ c.toNat ∧ c.toNat ≤ 122 :=
  (Bool.and_eq_true _ _).to_iff.trans (and_congr decide_eq_true_iff decide_eq_true_iff)

theorem isUpper_eq_false_of_isLower (h : c.isLower = true) : c.isUpper = false := by
  rw [isLower_iff] at h
  rw [← Bool.not_eq_true, isUpper_iff]
  omega

theorem ne_dash_of_isUpper (h : c.isUpper = true) : c ≠ '-' := by
  rintro rfl
  cases h

theorem ne_dash_of_isLower (h : c.isLower = true) : c ≠ '-' := by
  rintro rfl
  cases h

/-- Capitals and small letters come in pairs. -/
theorem letter_pairs : ∀ n < 26,
    (Char.ofNat (65 + n)).toLower = Char.ofNat (97 + n) ∧
    (Char.ofNat (97 + n)).toUpper = Char.ofNat (65 + n) ∧
    (Char.ofNat (65 + n)).isUpper = true ∧ (Char.ofNat (97 + n)).isLower = true := by
  decide

/-- A capital is the capital of its small letter. -/
theorem toUpper_toLower_of_isUpper (h : c.isUpper = true) :
    c.toLower.toUpper = c ∧ c.toLower.isLower = true := by
  obtain ⟨hfirst, hlast⟩ := isUpper_iff.mp h
  obtain ⟨hlower, hupper, -, hsmall⟩ := letter_pairs (c.toNat - 65) (by omega)
  rw [Nat.add_sub_cancel' hfirst, Char.ofNat_toNat] at hlower hupper
  rw [hlower]
  exact ⟨hupper, hsmall⟩

/-- A small letter is the small letter of its capital. -/
theorem toLower_toUpper_of_isLower (h : c.isLower = true) :
    c.toUpper.toLower = c ∧ c.toUpper.isUpper = true := by
  obtain ⟨hfirst, hlast⟩ := isLower_iff.mp h
  obtain ⟨hlower, hupper, hcapital, -⟩ := letter_pairs (c.toNat - 97) (by omega)
  rw [Nat.add_sub_cancel' hfirst, Char.ofNat_toNat] at hlower hupper
  rw [hupper]
  exact ⟨hlower, hcapital⟩

theorem toUpper_eq_self (h : c.isLower = false) : c.toUpper = c := by
  refine dif_neg fun hrange => ?_
  rw [← Bool.not_eq_true] at h
  exact h (isLower_iff.mpr hrange)

/-- Nothing but a dash is capitalised to a dash. -/
theorem toUpper_ne_dash (h : c ≠ '-') : c.toUpper ≠ '-' := by
  cases hc : c.isLower with
  | true => exact ne_dash_of_isUpper (toLower_toUpper_of_isLower hc).2
  | false => rwa [toUpper_eq_self hc]

end Text

namespace Property

open Text

variable {c : Char} {name text : List Char}

/-! ## One character -/

theorem kebabChars_cons_of_isUpper (h : c.isUpper = true) (rest : List Char) :
    kebabChars (c :: rest) = '-' :: c.toLower :: kebabChars rest := by
  simp [kebabChars, h]

theorem kebabChars_cons_of_isUpper_eq_false (h : c.isUpper = false) (rest : List Char) :
    kebabChars (c :: rest) = c :: kebabChars rest := by
  simp [kebabChars, h]

theorem camelTail_cons_of_ne (h : c ≠ '-') (raised : Bool) (rest : List Char) :
    camelTail raised (c :: rest) = (if raised then c.toUpper else c) :: camelTail false rest :=
  if_neg h

/-! ## What is written and what is read -/

/-- A kebab-case name has what is no capital in the name, small letters and dashes. -/
theorem of_mem_kebabChars (h : c ∈ kebabChars name) :
    (c ∈ name ∧ c.isUpper = false) ∨ c.isLower = true ∨ c = '-' := by
  obtain ⟨d, hd, hc⟩ := List.mem_flatMap.mp h
  split at hc
  · rename_i hupper
    rcases List.mem_cons.mp hc with rfl | hc
    · exact Or.inr (Or.inr rfl)
    · obtain rfl := List.mem_singleton.mp hc
      exact Or.inr (Or.inl (toUpper_toLower_of_isUpper hupper).2)
  · rename_i hupper
    obtain rfl := List.mem_singleton.mp hc
    exact Or.inl ⟨hd, Bool.eq_false_iff.mpr hupper⟩

theorem isUpper_eq_false_of_mem_kebabChars (h : c ∈ kebabChars name) : c.isUpper = false := by
  rcases of_mem_kebabChars h with ⟨-, hupper⟩ | hlower | rfl
  · exact hupper
  · exact isUpper_eq_false_of_isLower hlower
  · rfl

/-- Every dash stands right before a small letter. -/
def DashesLead (text : List Char) : Prop :=
  ∀ i, text[i]? = some '-' → text[i + 1]?.any Char.isLower = true

theorem dashesLead_nil : DashesLead [] := by
  rintro i ⟨⟩

theorem dashesLead_cons_iff : DashesLead (c :: text) ↔
    (c = '-' → text.head?.any Char.isLower = true) ∧ DashesLead text := by
  constructor
  · intro h
    refine ⟨?_, fun i hi => h (i + 1) hi⟩
    rintro rfl
    rw [List.head?_eq_getElem?]
    exact h 0 rfl
  · rintro ⟨hfirst, hrest⟩ i hi
    cases i with
    | zero =>
      rw [List.getElem?_cons_succ, ← List.head?_eq_getElem?]
      exact hfirst (Option.some.inj hi)
    | succ i => exact hrest i hi

theorem DashesLead.tail (h : DashesLead text) : DashesLead text.tail := by
  intro i hi
  rw [List.getElem?_tail] at hi ⊢
  exact h (i + 1) hi

instance decidableDashesLead : DecidablePred DashesLead
  | [] => isTrue dashesLead_nil
  | _ :: text =>
    haveI : Decidable (DashesLead text) := decidableDashesLead text
    decidable_of_iff' _ dashesLead_cons_iff

/-- Kebab case writes a dash only before a small letter. -/
theorem dashesLead_kebabChars (h : '-' ∉ name) : DashesLead (kebabChars name) := by
  induction name with
  | nil => exact dashesLead_nil
  | cons c rest ih =>
    have hrest := ih (List.not_mem_of_not_mem_cons h)
    cases hc : c.isUpper with
    | true =>
      have hlower := (toUpper_toLower_of_isUpper hc).2
      rw [kebabChars_cons_of_isUpper hc, dashesLead_cons_iff, dashesLead_cons_iff]
      exact ⟨fun _ => hlower, fun heq => absurd heq (ne_dash_of_isLower hlower), hrest⟩
    | false =>
      rw [kebabChars_cons_of_isUpper_eq_false hc, dashesLead_cons_iff]
      exact ⟨fun heq => absurd heq (List.ne_of_not_mem_cons h).symm, hrest⟩

/-- No dash is kept after the first character. -/
theorem dash_notMem_camelTail (raised : Bool) (text : List Char) :
    '-' ∉ camelTail raised text := by
  induction text generalizing raised with
  | nil => exact List.not_mem_nil
  | cons c rest ih =>
    by_cases hc : c = '-'
    · subst hc
      exact ih true
    · rw [camelTail_cons_of_ne hc, List.mem_cons, not_or]
      refine ⟨?_, ih false⟩
      split
      · exact (toUpper_ne_dash hc).symm
      · exact Ne.symm hc

/-! ## Reading what was written -/

/-- **Kebab case is read back**, in what follows the first character. -/
theorem camelTail_kebabChars (h : '-' ∉ name) : camelTail false (kebabChars name) = name := by
  induction name with
  | nil => rfl
  | cons c rest ih =>
    have hrest := ih (List.not_mem_of_not_mem_cons h)
    cases hc : c.isUpper with
    | true =>
      obtain ⟨hraise, hlower⟩ := toUpper_toLower_of_isUpper hc
      rw [kebabChars_cons_of_isUpper hc]
      calc camelTail false ('-' :: c.toLower :: kebabChars rest)
          = camelTail true (c.toLower :: kebabChars rest) := rfl
        _ = c.toLower.toUpper :: camelTail false (kebabChars rest) :=
            camelTail_cons_of_ne (ne_dash_of_isLower hlower) true _
        _ = c :: rest := by rw [hraise, hrest]
    | false =>
      rw [kebabChars_cons_of_isUpper_eq_false hc,
        camelTail_cons_of_ne (List.ne_of_not_mem_cons h).symm, hrest]
      rfl

theorem camelTail_kebabChars_eq_self_iff :
    camelTail false (kebabChars name) = name ↔ '-' ∉ name :=
  ⟨fun heq => heq ▸ dash_notMem_camelTail false (kebabChars name), camelTail_kebabChars⟩

/-- **Exactly these names are read back from their kebab case.**  A capital at the start leaves its
dash behind, and a dash after the first character is not kept. -/
theorem camelChars_kebabChars_eq_self_iff : camelChars (kebabChars name) = name ↔
    name.head?.any Char.isUpper = false ∧ '-' ∉ name.tail := by
  cases name with
  | nil => exact iff_of_true rfl ⟨rfl, List.not_mem_nil⟩
  | cons c rest =>
    cases hc : c.isUpper with
    | true =>
      rw [kebabChars_cons_of_isUpper hc]
      refine iff_of_false (fun heq => ?_) fun hnames => ?_
      · exact ne_dash_of_isUpper hc (List.cons.inj heq).1.symm
      · exact Bool.false_ne_true (hnames.1.symm.trans hc)
    | false =>
      rw [kebabChars_cons_of_isUpper_eq_false hc, camelChars, List.cons_inj_right,
        camelTail_kebabChars_eq_self_iff]
      simp [hc]

-- The capital is lost, and its dash is kept as a dash at the start.
example : camelChars (kebabChars "Width".toList) = "-width".toList := by decide +kernel

/-! ## Writing what was read -/

/-- **A reading is written back**, in what follows the first character.  A raised reader stands
for a dash that it has passed and still has to write. -/
theorem kebabChars_camelTail (raised : Bool) (hcapital : ∀ c ∈ text, c.isUpper = false)
    (hdashes : DashesLead (if raised then '-' :: text else text)) :
    kebabChars (camelTail raised text) = if raised then '-' :: text else text := by
  induction text generalizing raised with
  | nil =>
    cases raised with
    | false => rfl
    | true =>
      -- Nothing follows the dash.
      cases (dashesLead_cons_iff.mp hdashes).1 rfl
  | cons c rest ih =>
    have hrest : ∀ d ∈ rest, d.isUpper = false := fun d hd =>
      hcapital d (List.mem_cons_of_mem c hd)
    cases raised with
    | false =>
      have hc : c.isUpper = false := hcapital c List.mem_cons_self
      by_cases hdash : c = '-'
      · subst hdash
        exact ih true hrest hdashes
      · rw [camelTail_cons_of_ne hdash]
        refine (kebabChars_cons_of_isUpper_eq_false hc _).trans ?_
        rw [ih false hrest (dashesLead_cons_iff.mp hdashes).2]
        rfl
    | true =>
      obtain ⟨hlead, hmore⟩ := dashesLead_cons_iff.mp hdashes
      have hlower : c.isLower = true := hlead rfl
      obtain ⟨hback, hupper⟩ := toLower_toUpper_of_isLower hlower
      rw [camelTail_cons_of_ne (ne_dash_of_isLower hlower)]
      refine (kebabChars_cons_of_isUpper hupper _).trans ?_
      rw [hback, ih false hrest (dashesLead_cons_iff.mp hmore).2]
      rfl

theorem kebabChars_camelTail_eq_self_iff : kebabChars (camelTail false text) = text ↔
    (∀ c ∈ text, c.isUpper = false) ∧ DashesLead text := by
  constructor
  · intro heq
    have hdashes := dashesLead_kebabChars (dash_notMem_camelTail false text)
    rw [heq] at hdashes
    exact ⟨fun c hc => isUpper_eq_false_of_mem_kebabChars (heq.symm ▸ hc), hdashes⟩
  · rintro ⟨hcapital, hdashes⟩
    exact kebabChars_camelTail false hcapital hdashes

/-- **Exactly these names are written as they were read.**  Kebab case has no capitals, and no
dashes but those before small letters. -/
theorem kebabChars_camelChars_eq_self_iff : kebabChars (camelChars name) = name ↔
    (∀ c ∈ name, c.isUpper = false) ∧ DashesLead name.tail := by
  cases name with
  | nil => exact iff_of_true rfl ⟨by rintro c ⟨⟩, dashesLead_nil⟩
  | cons c rest =>
    cases hc : c.isUpper with
    | true =>
      rw [camelChars, kebabChars_cons_of_isUpper hc]
      refine iff_of_false (fun heq => ?_) fun hnames => ?_
      · exact ne_dash_of_isUpper hc (List.cons.inj heq).1.symm
      · exact Bool.false_ne_true ((hnames.1 c List.mem_cons_self).symm.trans hc)
    | false =>
      rw [camelChars, kebabChars_cons_of_isUpper_eq_false hc, List.cons_inj_right,
        kebabChars_camelTail_eq_self_iff]
      simp [hc]

/-! ## Camel case and kebab case -/

/-- Camel case: no capital at the start, and no dashes. -/
@[mk_iff]
structure CamelCased (name : List Char) : Prop where
  start : name.head?.any Char.isUpper = false
  noDash : '-' ∉ name

/-- Kebab case: no capitals, no dash at the start, and every dash right before a small letter. -/
@[mk_iff]
structure KebabCased (name : List Char) : Prop where
  noCapital : ∀ c ∈ name, c.isUpper = false
  start : name.head? ≠ some '-'
  dashesLead : DashesLead name

instance : DecidablePred CamelCased := fun name =>
  decidable_of_iff' _ (camelCased_iff name)

instance : DecidablePred KebabCased := fun name =>
  haveI : Decidable (∀ c ∈ name, c.isUpper = false) := List.decidableBAll _ name
  decidable_of_iff' _ (kebabCased_iff name)

theorem CamelCased.camelChars_kebabChars (h : CamelCased name) :
    camelChars (kebabChars name) = name :=
  camelChars_kebabChars_eq_self_iff.mpr ⟨h.start, fun hmem => h.noDash (List.mem_of_mem_tail hmem)⟩

theorem CamelCased.kebabCased_kebabChars (h : CamelCased name) : KebabCased (kebabChars name) where
  noCapital _ := isUpper_eq_false_of_mem_kebabChars
  start := by
    cases name with
    | nil => rintro ⟨⟩
    | cons c rest =>
      rw [kebabChars_cons_of_isUpper_eq_false h.start]
      exact fun heq => List.ne_of_not_mem_cons h.noDash (Option.some.inj heq).symm
  dashesLead := dashesLead_kebabChars h.noDash

theorem KebabCased.kebabChars_camelChars (h : KebabCased name) :
    kebabChars (camelChars name) = name :=
  kebabChars_camelChars_eq_self_iff.mpr ⟨h.noCapital, h.dashesLead.tail⟩

theorem KebabCased.camelCased_camelChars (h : KebabCased name) : CamelCased (camelChars name) := by
  cases name with
  | nil => exact ⟨rfl, List.not_mem_nil⟩
  | cons c rest =>
    refine ⟨h.noCapital c List.mem_cons_self, ?_⟩
    rw [camelChars, List.mem_cons, not_or]
    exact ⟨fun heq => h.start (congrArg some heq.symm), dash_notMem_camelTail false rest⟩

/-- **Writing in kebab case and reading it back are inverse to each other** between the names in
camel case and the names in kebab case. -/
theorem kebabChars_inverse_camelChars (name : List Char) :
    (CamelCased name → KebabCased (kebabChars name) ∧ camelChars (kebabChars name) = name) ∧
    (KebabCased name → CamelCased (camelChars name) ∧ kebabChars (camelChars name) = name) :=
  ⟨fun h => ⟨h.kebabCased_kebabChars, h.camelChars_kebabChars⟩,
    fun h => ⟨h.camelCased_camelChars, h.kebabChars_camelChars⟩⟩

/-- Capitals in a row, digits and a letter that has no small form in ASCII come back. -/
theorem kebabChars_inverse_camelChars_mixedName :
    (CamelCased "fillÉ2DURLa".toList ∧
      KebabCased (kebabChars "fillÉ2DURLa".toList) ∧
      camelChars (kebabChars "fillÉ2DURLa".toList) = "fillÉ2DURLa".toList) ∧
    (KebabCased "fillÉ2-d-u-r-la".toList ∧
      CamelCased (camelChars "fillÉ2-d-u-r-la".toList) ∧
      kebabChars (camelChars "fillÉ2-d-u-r-la".toList) = "fillÉ2-d-u-r-la".toList) := by
  have hcamel : CamelCased "fillÉ2DURLa".toList := by decide +kernel
  have hkebab : KebabCased "fillÉ2-d-u-r-la".toList := by decide +kernel
  exact ⟨⟨hcamel, (kebabChars_inverse_camelChars _).1 hcamel⟩,
    ⟨hkebab, (kebabChars_inverse_camelChars _).2 hkebab⟩⟩

end Property
end StyleCascade
