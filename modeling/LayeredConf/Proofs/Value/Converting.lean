import LayeredConf.Proofs.Forest.Growth
import LayeredConf.Proofs.Forest.Run
import LayeredConf.Proofs.Json.Numbers
import LayeredConf.Proofs.Number.Overflow
import LayeredConf.Selection

/-!
# Converting values in place

A value that is of a kind stays when it is converted to the kind, and so does what a conversion
makes, for it is of the kind: but for a decimal beyond all doubles, which reads as an infinity, and
an infinity is no `float`.  Converting it once more gives zero.

    Kind.coerce kind v        what the value becomes
    coerce_coerce_iff         when a second conversion changes nothing
    value_convertAll          a node's value is converted as often as the node is listed
    convertAll_twice_iff      when a second conversion of a selection changes nothing
-/

namespace LayeredConf

/-- The text of the value is a decimal beyond all doubles.  A list in which an item is unset does
not count, since it is not converted. -/
def Value.Overflows (v : Value) : Prop :=
  v.isSettled = true ∧ ∃ d, Decimal.readUnsigned? (Decimal.takeSign v.asText.toList).2 = some d ∧
    overflowBound ≤ d.digits * (10 : Rat) ^ d.exponent

namespace Decimal

/-- What is read is the double nearest to the decimal behind the sign. -/
theorem read?_eq_some_iff {s : List Char} {x : Number} : read? s = some x ↔
    ∃ d, readUnsigned? (takeSign s).2 = some d ∧ d.toNumber (takeSign s).1 = x := by
  unfold read?
  exact Option.map_eq_some_iff

end Decimal

namespace Value

theorem overflows_of_read? {v : Value} (hv : v.isSettled = true) {negative : Bool}
    (h : Decimal.read? v.asText.toList = some (.infinite negative)) : v.Overflows := by
  obtain ⟨d, hd, hnumber⟩ := Decimal.read?_eq_some_iff.mp h
  rcases Decimal.toNumber_cases (Decimal.takeSign v.asText.toList).1 d with hfinite | hinfinite
  · rw [hnumber] at hfinite
    cases hfinite
  · exact ⟨hv, d, hd, (Decimal.toNumber_eq_infinite_iff _ d).mp hinfinite⟩

theorem Overflows.read? {v : Value} (h : v.Overflows) :
    ∃ negative, Decimal.read? v.asText.toList = some (.infinite negative) := by
  obtain ⟨-, d, hd, hbound⟩ := h
  exact ⟨_, Decimal.read?_eq_some_iff.mpr
    ⟨d, hd, (Decimal.toNumber_eq_infinite_iff _ d).mpr hbound⟩⟩

/-- A finite number does not overflow, since its text reads back. -/
theorem not_overflows_number {x : Number} (hx : x.isFinite = true) :
    ¬(Value.number x).Overflows := by
  intro h
  obtain ⟨negative, hread⟩ := h.read?
  have hback : Decimal.read? (Value.number x).asText.toList = some x.unsignZero := by
    rw [asText, Number.text, String.toList_ofList]
    exact Json.decimal_read?_chars hx
  rw [hback] at hread
  have hinfinite := Option.some.inj hread
  unfold Number.unsignZero at hinfinite
  split at hinfinite
  · cases hinfinite
  · rw [hinfinite] at hx
    cases hx

theorem not_overflows_unset : ¬Value.unset.Overflows := by
  rintro ⟨-, d, hd, -⟩
  cases hd

end Value

namespace Kind

/-! ## One value -/

/-- What a value becomes that is converted in place. -/
def coerce (kind : Kind) (v : Value) : Value := (kind.convert v).toOption.getD kind.zero

theorem coerce_of_convert {kind : Kind} {v w : Value} (h : kind.convert v = .ok w) :
    kind.coerce v = w := by
  rw [coerce, h]
  rfl

/-- What is of a kind is neither unset nor a list. -/
theorem isSettled_of_holds {kind : Kind} {v : Value} (h : kind.holds v = true) :
    v.isSettled = true ∧ v.isUnset = false := by
  cases v with
  | unset => cases kind <;> cases h
  | list => cases kind <;> cases h
  | text | number | bool | duration | date => exact ⟨rfl, rfl⟩

theorem coerce_of_holds {kind : Kind} {v : Value} (h : kind.holds v = true) :
    kind.coerce v = v := by
  obtain ⟨hsettled, hset⟩ := isSettled_of_holds h
  refine coerce_of_convert ?_
  unfold convert
  rw [hsettled, hset, h]
  by_cases hstring : kind = .string
  · subst hstring
    cases v with
    | text s => rfl
    | unset | number | bool | duration | date | list => cases h
  · rw [if_neg hstring]
    rfl

theorem holds_zero (kind : Kind) : kind.holds kind.zero = true := by
  cases kind with
  | int => simp [holds, zero, Number.isExactInteger, Number.toInt?, Number.zero, Number.toRat,
      Number.scaled, mantissaBound]
  | string | float | bool | duration | time => rfl

theorem holds_read? {kind : Kind} {text : String} {w : Value} (hkind : kind ≠ .time)
    (h : kind.read? text = some w) :
    kind.holds w = true ∨ kind = .float ∧ ∃ negative, w = .number (.infinite negative) := by
  cases kind with
  | string =>
    cases h
    exact .inl rfl
  | int =>
    obtain ⟨x, hx, rfl⟩ := Option.map_eq_some_iff.mp h
    unfold readInt? at hx
    split at hx
    · dsimp only at hx
      split at hx
      · next hexact =>
        cases hx
        exact .inl hexact
      · cases hx
    · cases hx
  | float =>
    obtain ⟨x, hx, rfl⟩ := Option.map_eq_some_iff.mp h
    obtain ⟨d, -, rfl⟩ := Decimal.read?_eq_some_iff.mp hx
    rcases Decimal.toNumber_cases _ d with hfinite | hinfinite
    · exact .inl hfinite
    · exact .inr ⟨rfl, _, congrArg Value.number hinfinite⟩
  | bool =>
    obtain ⟨b, -, rfl⟩ := Option.map_eq_some_iff.mp h
    exact .inl rfl
  | duration =>
    obtain ⟨d, -, rfl⟩ := Option.map_eq_some_iff.mp h
    exact .inl rfl
  | time => exact absurd rfl hkind

/-- A conversion makes what is of the kind, or what the value's text reads as. -/
theorem coerce_cases (kind : Kind) (v : Value) : kind.holds (kind.coerce v) = true ∨
    v.isSettled = true ∧ kind.read? v.asText = some (kind.coerce v) := by
  unfold coerce convert
  split
  · exact .inl (holds_zero kind)
  · next hsettled =>
    split
    · next hstring => exact .inl (by subst hstring; rfl)
    · split
      · exact .inl (holds_zero kind)
      · split
        · next hholds => exact .inl hholds
        · split
          · next hread => exact .inr ⟨by simpa using hsettled, hread⟩
          · exact .inl (holds_zero kind)

theorem coerce_of_overflows {v : Value} (h : v.Overflows) :
    ∃ negative, Kind.float.coerce v = .number (.infinite negative) := by
  obtain ⟨negative, hread⟩ := h.read?
  have hset : v.isUnset = false := by
    cases v with
    | unset => cases hread
    | text | number | bool | duration | date | list => rfl
  have hholds : Kind.float.holds v = false := by
    cases v with
    | number x => exact Bool.eq_false_iff.mpr fun hx => Value.not_overflows_number hx h
    | unset | text | bool | duration | date | list => rfl
  have hkind : Kind.float.read? v.asText = some (.number (.infinite negative)) :=
    congrArg (Option.map Value.number) hread
  refine ⟨negative, coerce_of_convert ?_⟩
  unfold convert
  rw [h.1, hset, hholds, hkind]
  rfl

/-- What a conversion makes is of the kind, but for an infinity. -/
theorem holds_coerce_iff {kind : Kind} (hkind : kind ≠ .time) (v : Value) :
    kind.holds (kind.coerce v) = true ↔ ¬(kind = .float ∧ v.Overflows) := by
  constructor
  · rintro h ⟨rfl, hv⟩
    obtain ⟨negative, hinfinite⟩ := coerce_of_overflows hv
    rw [hinfinite] at h
    cases h
  · intro hnot
    rcases kind.coerce_cases v with h | ⟨hsettled, hread⟩
    · exact h
    · rcases holds_read? hkind hread with h | ⟨rfl, negative, hinfinite⟩
      · exact h
      · rw [hinfinite] at hread
        obtain ⟨x, hx, heq⟩ := Option.map_eq_some_iff.mp hread
        cases heq
        exact absurd ⟨rfl, Value.overflows_of_read? hsettled hx⟩ hnot

/-- An infinity is no `float`, and its text is no decimal. -/
theorem coerce_infinite (negative : Bool) :
    Kind.float.coerce (.number (.infinite negative)) = Kind.float.zero := by
  cases negative <;> rfl

theorem coerce_coerce_iff {kind : Kind} (hkind : kind ≠ .time) (v : Value) :
    kind.coerce (kind.coerce v) = kind.coerce v ↔ ¬(kind = .float ∧ v.Overflows) := by
  constructor
  · rintro h ⟨rfl, hv⟩
    obtain ⟨negative, hinfinite⟩ := coerce_of_overflows hv
    rw [hinfinite, coerce_infinite] at h
    cases h
  · exact fun hnot => coerce_of_holds ((holds_coerce_iff hkind v).mpr hnot)

/-- Two conversions make what is of the kind. -/
theorem holds_coerce_coerce {kind : Kind} (hkind : kind ≠ .time) (v : Value) :
    kind.holds (kind.coerce (kind.coerce v)) = true := by
  by_cases h : kind = .float ∧ v.Overflows
  · obtain ⟨rfl, hv⟩ := h
    obtain ⟨negative, hinfinite⟩ := coerce_of_overflows hv
    rw [hinfinite, coerce_infinite]
    exact holds_zero _
  · rw [(coerce_coerce_iff hkind v).mpr h]
    exact (holds_coerce_iff hkind v).mpr h

/-- After one conversion as many more may change something, after two or more they do not. -/
theorem iterate_coerce_iff {kind : Kind} (hkind : kind ≠ .time) (v : Value) (n : Nat) :
    kind.coerce^[n] (kind.coerce^[n] v) = kind.coerce^[n] v ↔
      (n = 1 → ¬(kind = .float ∧ v.Overflows)) := by
  match n with
  | 0 => simp
  | 1 => simpa using coerce_coerce_iff hkind v
  | n + 2 =>
    have hholds := holds_coerce_coerce hkind v
    have htwice : kind.coerce^[n + 2] v = kind.coerce (kind.coerce v) := by
      rw [Function.iterate_add_apply]
      exact Function.iterate_fixed (coerce_of_holds hholds) n
    rw [htwice]
    exact iff_of_true (Function.iterate_fixed (coerce_of_holds hholds) _) (by omega)

end Kind

namespace Forest

/-! ## A selection of nodes -/

section

variable (f : Forest) (kind : Kind) (only : List String) (ns : List NodeId)

theorem convertAll_cons (n : NodeId) : f.convertAll kind only (n :: ns) =
    (if only = [] ∨ f.key n ∈ only then f.setValue n (kind.coerce (f.value n))
      else f).convertAll kind only ns := rfl

theorem size_convertAll : (f.convertAll kind only ns).size = f.size := by
  induction ns generalizing f with
  | nil => rfl
  | cons n ns ih =>
    rw [convertAll_cons, ih]
    split
    · exact f.size_setValue n _
    · rfl

theorem key_convertAll (m : NodeId) : (f.convertAll kind only ns).key m = f.key m := by
  induction ns generalizing f with
  | nil => rfl
  | cons n ns ih =>
    rw [convertAll_cons, ih]
    split
    · exact f.key_setValue n m _
    · rfl

/-- A selected node's value is converted as often as the node is listed. -/
theorem value_convertAll {m : NodeId} (hm : m < f.size) :
    (f.convertAll kind only ns).value m =
      if only = [] ∨ f.key m ∈ only then kind.coerce^[ns.count m] (f.value m) else f.value m := by
  induction ns generalizing f with
  | nil => split <;> rfl
  | cons n ns ih =>
    have hm' : m < (f.setValue n (kind.coerce (f.value n))).size := by rwa [size_setValue]
    rw [convertAll_cons]
    by_cases hmn : n = m
    · subst hmn
      rw [List.count_cons_self]
      split
      · next hselected =>
        rw [ih _ hm', key_setValue, if_pos hselected, f.value_setValue _ hm, if_pos rfl,
          Function.iterate_succ_apply]
      · next hselected => rw [ih f hm, if_neg hselected]
    · rw [List.count_cons_of_ne hmn]
      split
      · have hvalue : (f.setValue n (kind.coerce (f.value n))).value m = f.value m := by
          rw [value, setValue, node_modify, if_neg fun h => hmn h.1.symm]
          rfl
        rw [ih _ hm', key_setValue, hvalue]
      · exact ih f hm

end

/-- **A second conversion changes no value but that of a decimal beyond all doubles.**  A node that
is listed twice is converted twice at once. -/
theorem convertAll_twice_iff (f : Forest) (kind : Kind) (hkind : kind ≠ .time)
    (only : List String) (ns : List NodeId) :
    (∀ m, ((f.convertAll kind only ns).convertAll kind only ns).value m =
        (f.convertAll kind only ns).value m) ↔
      ∀ n ∈ ns, only = [] ∨ f.key n ∈ only → ns.count n = 1 →
        ¬(kind = .float ∧ (f.value n).Overflows) := by
  have hnode {m : NodeId} (hm : m < f.size) (hselected : only = [] ∨ f.key m ∈ only) :
      ((f.convertAll kind only ns).convertAll kind only ns).value m =
          (f.convertAll kind only ns).value m ↔
        (ns.count m = 1 → ¬(kind = .float ∧ (f.value m).Overflows)) := by
    have hm' : m < (f.convertAll kind only ns).size := by rwa [size_convertAll]
    rw [value_convertAll _ kind only ns hm', key_convertAll, if_pos hselected,
      value_convertAll f kind only ns hm, if_pos hselected, Kind.iterate_coerce_iff hkind]
  constructor
  · intro h n _ hselected
    by_cases hn : n < f.size
    · exact (hnode hn hselected).mp (h n)
    · rintro - ⟨-, hoverflows⟩
      rw [f.value_of_size_le n (not_lt.mp hn)] at hoverflows
      exact Value.not_overflows_unset hoverflows
  · intro h m
    by_cases hm : m < f.size
    · by_cases hselected : only = [] ∨ f.key m ∈ only
      · refine (hnode hm hselected).mpr fun hcount => ?_
        exact h m (List.count_pos_iff.mp (by omega)) hselected hcount
      · have hm' : m < (f.convertAll kind only ns).size := by rwa [size_convertAll]
        rw [value_convertAll _ kind only ns hm', key_convertAll, if_neg hselected]
    · have hout : (f.convertAll kind only ns).size ≤ m := by
        rw [size_convertAll]
        exact not_lt.mp hm
      have hout' := (size_convertAll (f.convertAll kind only ns) kind only ns).le.trans hout
      rw [value_of_size_le _ m hout, value_of_size_le _ m hout']

/-- A decimal above the greatest double, but nearer to it than half a step. -/
theorem convertAll_twice_edge : ∃ steps f, Run steps f ∧
    f.value 1 = .text "1.7976931348623158e308" ∧
    ∀ m, ((f.convertAll .float ["x"] [1]).convertAll .float ["x"] [1]).value m =
      (f.convertAll .float ["x"] [1]).value m := by
  obtain ⟨steps, f, hrun, hvalue⟩ : ∃ steps f, Run steps f ∧
      f.value 1 = .text "1.7976931348623158e308" :=
    ⟨_, _, .step (.ofArgs [("x", .text "1.7976931348623158e308")]) .start (by decide), rfl⟩
  refine ⟨steps, f, hrun, hvalue, ?_⟩
  refine (convertAll_twice_iff f .float (by decide) ["x"] [1]).mpr fun n hn _ _ => ?_
  obtain rfl := List.mem_singleton.mp hn
  rw [hvalue]
  rintro ⟨-, -, d, hd, hbound⟩
  obtain rfl : d = ⟨17976931348623158, 292⟩ := (Option.some.inj hd).symm
  have hlt : 17976931348623158 * 10 ^ 292 + 2 ^ 970 < 2 ^ 1024 := by decide +kernel
  have hcast : (17976931348623158 : Rat) * 10 ^ 292 + 2 ^ 970 < 2 ^ 1024 := by exact_mod_cast hlt
  exact absurd hbound (not_le.mpr (lt_sub_iff_add_lt.mpr hcast))

/-- A decimal beyond all doubles becomes an infinity, and that becomes zero. -/
theorem convertAll_changes_infinity : ∃ steps f, Run steps f ∧ f.value 1 = .text "1e999" ∧
    (f.convertAll .float [] [1]).value 1 = .number (.infinite false) ∧
    ((f.convertAll .float [] [1]).convertAll .float [] [1]).value 1 = .number (.zero false) :=
  ⟨_, _, .step (.ofArgs [("x", .text "1e999")]) .start (by decide), rfl, rfl, rfl⟩

end Forest

end LayeredConf
