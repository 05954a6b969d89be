import LayeredConf.Load.Entry
import Mathlib.Data.List.Forall2

/-!
# Values of a declared type

A type names a kind, with brackets in front for a list of items of that kind.  A text has one
reading under every type: as the kind reads it, item by item under a list type, or as a failure.
Texts are read like this under all types but those that ask for one of the names that every table
of names answers to.

    TypedReading type raw r     what a text reads as under a type
    readItems_error_iff         of the items of a list, the first that does not read decides
    readTyped_reads_iff         which types texts are read under in this way
-/

namespace LayeredConf.Load

/-! ## Types that name kinds -/

/-- The kind that a type names. -/
def namedKind? (name : String) : Option Kind :=
  match name with
  | "string" => some .string
  | "int" => some .int
  | "float" => some .float
  | "bool" => some .bool
  | "duration" => some .duration
  | "date" => some .time
  | "time" => some .time
  | _ => none

/-- The names that every table of names answers to. -/
def commonNames : List String :=
  ["constructor", "toString", "isPrototypeOf", "__defineGetter__", "__defineSetter__",
    "__lookupGetter__", "__lookupSetter__", "__proto__", "hasOwnProperty", "propertyIsEnumerable",
    "toLocaleString", "valueOf"]

theorem reader?_of_named {name : String} {k : Kind} (h : namedKind? name = some k) :
    reader? name = some (.kind k) := by
  unfold namedKind? at h
  split at h <;> cases h <;> rfl

theorem not_common_of_named {name : String} {k : Kind} (h : namedKind? name = some k) :
    name ∉ commonNames := by
  unfold namedKind? at h
  split at h <;> cases h
  all_goals decide

/-- The types of entries name kinds. -/
theorem exists_named_of_entryType :
    ∀ type ∈ entryTypes, ∃ k, namedKind? (String.ofList type) = some k := by
  simp only [entryTypes, List.forall_mem_map, String.ofList_toList, List.forall_mem_cons]
  exact ⟨⟨_, rfl⟩, ⟨_, rfl⟩, ⟨_, rfl⟩, ⟨_, rfl⟩, ⟨_, rfl⟩, ⟨_, rfl⟩, ⟨_, rfl⟩, by simp⟩

theorem isSome_reader?_of_common : ∀ name ∈ commonNames, (reader? name).isSome := by decide

/-- Besides the types that name kinds, the common names can be read with, and no others. -/
theorem reader?_eq_none_iff {name : String} (h : namedKind? name = none) :
    reader? name = none ↔ name ∉ commonNames := by
  constructor
  · intro hnone hcommon
    have hsome := isSome_reader?_of_common name hcommon
    rw [hnone] at hsome
    cases hsome
  · intro hnot
    unfold reader?
    split
    -- the seven types, the common names, all else
    iterate 7 · cases h
    iterate 12 · exact absurd (by decide) hnot
    rfl

/-- A type declares a list or not, and the kind of its values or items with the name it has for
that kind. -/
inductive Declares : String → Bool → String → Kind → Prop
  | scalar {name : String} {k : Kind} : namedKind? name = some k → Declares name false name k
  | text : Declares "" false "string" .string
  | list {name : String} {k : Kind} : namedKind? name = some k → Declares ("[]" ++ name) true name k
  | texts : Declares "[]" true "string" .string

theorem itemType_of_named {name : String} {k : Kind} (h : namedKind? name = some k) :
    itemType name.toList = (false, name) ∧ itemType ('[' :: ']' :: name.toList) = (true, name) := by
  unfold namedKind? at h
  split at h <;> cases h
  all_goals exact ⟨by decide, by decide⟩

/-- The type is read as the brackets and the name behind them. -/
theorem itemType_cases (type : String) :
    (∃ name, type = "[]" ++ name ∧
      itemType type.toList = (true, if name = "" then "string" else name)) ∨
    itemType type.toList = (false, if type = "" then "string" else type) := by
  have hempty : ∀ s : List Char, (if s = [] then "string" else String.ofList s) =
      if String.ofList s = "" then "string" else String.ofList s := by
    intro s
    simp only [String.ofList_eq_empty_iff]
  rw [← String.ofList_toList (s := type), String.toList_ofList]
  generalize type.toList = s
  unfold itemType
  split
  next isList scalar heq =>
  split at heq
  · cases heq
    refine Or.inl ⟨String.ofList scalar, ?_, by rw [hempty]⟩
    rw [← String.toList_inj]
    simp
  · cases heq
    exact Or.inr (by rw [hempty])

theorem declares_iff {type name : String} {isList : Bool} {k : Kind} :
    Declares type isList name k ↔
      itemType type.toList = (isList, name) ∧ namedKind? name = some k := by
  constructor
  · rintro (hk | _ | hk | _)
    · exact ⟨(itemType_of_named hk).1, hk⟩
    · exact ⟨rfl, rfl⟩
    · refine ⟨?_, hk⟩
      rw [String.toList_append]
      exact (itemType_of_named hk).2
    · exact ⟨rfl, rfl⟩
  · rintro ⟨htype, hk⟩
    rcases itemType_cases type with ⟨written, rfl, hitem⟩ | hitem
    · rw [hitem] at htype
      obtain ⟨rfl, rfl⟩ := Prod.mk.inj htype
      split at hk
      · next hempty =>
        cases hk
        rw [hempty]
        exact .texts
      · next hempty =>
        rw [if_neg hempty]
        exact .list hk
    · rw [hitem] at htype
      obtain ⟨rfl, rfl⟩ := Prod.mk.inj htype
      split at hk
      · next hempty =>
        cases hk
        rw [hempty]
        exact .text
      · next hempty =>
        rw [if_neg hempty]
        exact .scalar hk

theorem not_declares {type : String} (h : namedKind? (itemType type.toList).2 = none)
    (isList : Bool) (name : String) (k : Kind) : ¬Declares type isList name k := by
  intro hdeclares
  obtain ⟨htype, hk⟩ := declares_iff.mp hdeclares
  rw [htype, hk] at h
  cases h

/-! ## Items -/

theorem map_eq_error_iff {α β : Type} {f : α → β} {x : Except Failure α} {e : Failure} :
    x.map f = .error e ↔ x = .error e := by
  cases x <;> simp [Except.map]

/-- The values of a list are those of its items, in order. -/
theorem readItems_ok_iff {name : String} {k : Kind} {raws : List (List Char)} {vs : List Value} :
    readItems name (.kind k) raws = .ok vs ↔
      List.Forall₂ (fun raw v => k.read? (String.ofList raw) = some v) raws vs := by
  induction raws generalizing vs with
  | nil => cases vs <;> simp [readItems]
  | cons raw raws ih =>
    rw [readItems, readScalar]
    cases hraw : k.read? (String.ofList raw) with
    | none => cases vs <;> simp [hraw]
    | some v =>
      cases hraws : readItems name (.kind k) raws with
      | error e => cases vs <;> simp [Except.map, hraw, ← ih, hraws]
      | ok ws => cases vs <;> simp [Except.map, hraw, ← ih, hraws]

/-- The first item that does not read decides. -/
theorem readItems_error_iff {name : String} {k : Kind} {raws : List (List Char)} {e : Failure} :
    readItems name (.kind k) raws = .error e ↔ ∃ before raw after, raws = before ++ raw :: after ∧
      (∀ b ∈ before, (k.read? (String.ofList b)).isSome = true) ∧
      k.read? (String.ofList raw) = none ∧
      e = .unconvertible name (.text (String.ofList raw)) := by
  induction raws with
  | nil => simp [readItems]
  | cons raw raws ih =>
    rw [readItems, readScalar]
    constructor
    · intro h
      cases hraw : k.read? (String.ofList raw) with
      | none =>
        rw [hraw] at h
        cases h
        exact ⟨[], raw, raws, rfl, fun _ hb => absurd hb List.not_mem_nil, hraw, rfl⟩
      | some v =>
        rw [hraw] at h
        obtain ⟨before, item, after, rfl, hbefore, hitem, he⟩ := ih.mp (map_eq_error_iff.mp h)
        refine ⟨raw :: before, item, after, rfl, List.forall_mem_cons.mpr ⟨?_, hbefore⟩, hitem, he⟩
        rw [hraw]
        rfl
    · rintro ⟨before, item, after, hsplit, hbefore, hitem, rfl⟩
      cases before with
      | nil =>
        obtain ⟨rfl, rfl⟩ := List.cons.inj hsplit
        rw [hitem]
      | cons b before =>
        obtain ⟨rfl, rfl⟩ := List.cons.inj hsplit
        obtain ⟨hb, hbefore⟩ := List.forall_mem_cons.mp hbefore
        obtain ⟨v, hv⟩ := Option.isSome_iff_exists.mp hb
        have hraws := ih.mpr ⟨before, item, after, rfl, hbefore, hitem, rfl⟩
        rw [hv]
        dsimp only
        rw [hraws]
        rfl

/-! ## Readings -/

/-- What a text reads as under a type. -/
inductive TypedReading (type raw : String) : Except Failure Value → Prop
  | scalar {name : String} {k : Kind} {v : Value} : Declares type false name k →
      k.read? raw = some v → TypedReading type raw (.ok v)
  | unread {name : String} {k : Kind} : Declares type false name k → k.read? raw = none →
      TypedReading type raw (.error (.unconvertible name (.text raw)))
  | list {name : String} {k : Kind} {vs : List Value} : Declares type true name k →
      List.Forall₂ (fun item v => k.read? (String.ofList item) = some v)
        (Text.split [','] ['\\'] raw.toList) vs →
      TypedReading type raw (.ok (.list vs))
  | unreadItem {name : String} {k : Kind} {before after : List (List Char)} {item : List Char} :
      Declares type true name k →
      Text.split [','] ['\\'] raw.toList = before ++ item :: after →
      (∀ b ∈ before, (k.read? (String.ofList b)).isSome = true) →
      k.read? (String.ofList item) = none →
      TypedReading type raw (.error (.unconvertible name (.text (String.ofList item))))
  | unknown : (∀ isList name k, ¬Declares type isList name k) →
      TypedReading type raw (.error (.unknownType type raw))

/-- A common name, with brackets in front or without. -/
def AsksCommon (type : String) : Prop := ∃ name ∈ commonNames, type = name ∨ type = "[]" ++ name

section
variable {type raw name : String} {isList : Bool} {k : Kind} {r : Except Failure Value}

theorem Declares.unique {isList' : Bool} {name' : String} {k' : Kind}
    (h : Declares type isList name k) (h' : Declares type isList' name' k') :
    isList' = isList ∧ name' = name ∧ k' = k := by
  obtain ⟨htype, hk⟩ := declares_iff.mp h
  obtain ⟨htype', hk'⟩ := declares_iff.mp h'
  rw [htype] at htype'
  cases htype'
  rw [hk] at hk'
  cases hk'
  exact ⟨rfl, rfl, rfl⟩

theorem readTyped_of_declares (h : Declares type isList name k) :
    readTyped type raw =
      if isList then
        (readItems name (.kind k) (Text.split [','] ['\\'] raw.toList)).map .list
      else readScalar name (.kind k) raw.toList := by
  obtain ⟨htype, hk⟩ := declares_iff.mp h
  rw [readTyped, htype]
  dsimp only
  rw [reader?_of_named hk]

/-- Under no type a text is read as it stands. -/
theorem readTyped_untyped (raw : String) : readTyped "" raw = .ok (.text raw) := by
  rw [readTyped_of_declares .text, if_neg Bool.false_ne_true, readScalar, String.ofList_toList]
  rfl

theorem readTyped_eq_iff_of_declares (h : Declares type isList name k) :
    readTyped type raw = r ↔ TypedReading type raw r := by
  rw [readTyped_of_declares h]
  constructor
  · rintro rfl
    cases isList with
    | false =>
      rw [if_neg Bool.false_ne_true, readScalar, String.ofList_toList]
      cases hraw : k.read? raw with
      | none => exact .unread h hraw
      | some v => exact .scalar h hraw
    | true =>
      rw [if_pos rfl]
      cases hitems : readItems name (.kind k) (Text.split [','] ['\\'] raw.toList) with
      | error e =>
        obtain ⟨before, item, after, hsplit, hbefore, hitem, rfl⟩ := readItems_error_iff.mp hitems
        exact .unreadItem h hsplit hbefore hitem
      | ok vs => exact .list h (readItems_ok_iff.mp hitems)
  · intro hreading
    cases hreading with
    | scalar h' hraw =>
      obtain ⟨rfl, rfl, rfl⟩ := h.unique h'
      rw [if_neg Bool.false_ne_true, readScalar, String.ofList_toList, hraw]
    | unread h' hraw =>
      obtain ⟨rfl, rfl, rfl⟩ := h.unique h'
      rw [if_neg Bool.false_ne_true, readScalar, String.ofList_toList, hraw]
    | list h' hitems =>
      obtain ⟨rfl, rfl, rfl⟩ := h.unique h'
      rw [if_pos rfl, readItems_ok_iff.mpr hitems]
      rfl
    | unreadItem h' hsplit hbefore hitem =>
      obtain ⟨rfl, rfl, rfl⟩ := h.unique h'
      rw [if_pos rfl, readItems_error_iff.mpr ⟨_, _, _, hsplit, hbefore, hitem, rfl⟩]
      rfl
    | unknown hnot => exact absurd h (hnot isList name k)

/-- A text is refused under the types that declare no kind. -/
theorem typedReading_iff_of_not_declares (h : ∀ isList name k, ¬Declares type isList name k) :
    TypedReading type raw r ↔ r = .error (.unknownType type raw) := by
  constructor
  · rintro (hd | hd | hd | hd | _)
    · exact absurd hd (h _ _ _)
    · exact absurd hd (h _ _ _)
    · exact absurd hd (h _ _ _)
    · exact absurd hd (h _ _ _)
    · rfl
  · rintro rfl
    exact .unknown h

/-- Every type that an entry can have declares a kind. -/
theorem exists_declares {type : String} (h : type.toList = [] ∨ isEntryType type.toList = true) :
    ∃ isList name k, Declares type isList name k := by
  rcases h with h | h
  · rw [String.toList_eq_nil_iff.mp h]
    exact ⟨_, _, _, .text⟩
  unfold isEntryType at h
  rcases Bool.or_eq_true_iff.mp h with h | h
  · obtain ⟨k, hk⟩ := exists_named_of_entryType _ (of_decide_eq_true h)
    rw [String.ofList_toList] at hk
    exact ⟨_, _, _, .scalar hk⟩
  · split at h
    · next r heq =>
      obtain ⟨k, hk⟩ := exists_named_of_entryType r (of_decide_eq_true h)
      have htype : type = "[]" ++ String.ofList r := by
        rw [← String.toList_inj, heq]
        simp
      rw [htype]
      exact ⟨_, _, _, .list hk⟩
    · cases h

/-- A text fails in one way only, if its type declares a kind. -/
theorem error_of_declares {cause : Failure} (h : Declares type isList name k)
    (hread : readTyped type raw = .error cause) : ∃ type v, cause = .unconvertible type v := by
  cases (readTyped_eq_iff_of_declares h).mp hread with
  | unread => exact ⟨_, _, rfl⟩
  | unreadItem => exact ⟨_, _, rfl⟩
  | unknown hnot => exact absurd h (hnot _ _ _)

end

/-! ## The common names -/

theorem itemType_of_common : ∀ name ∈ commonNames,
    itemType name.toList = (false, name) ∧ itemType ('[' :: ']' :: name.toList) = (true, name) := by
  decide +kernel

theorem asksCommon_iff {type : String} :
    AsksCommon type ↔ (itemType type.toList).2 ∈ commonNames := by
  constructor
  · rintro ⟨name, hname, rfl | rfl⟩
    · rwa [(itemType_of_common _ hname).1]
    · rw [String.toList_append]
      show (itemType ('[' :: ']' :: name.toList)).2 ∈ commonNames
      rwa [(itemType_of_common _ hname).2]
  · intro h
    have hstring : "string" ∉ commonNames := by decide
    rcases itemType_cases type with ⟨name, rfl, hitem⟩ | hitem
    · rw [hitem] at h
      split at h
      · exact absurd h hstring
      · exact ⟨name, h, Or.inr rfl⟩
    · rw [hitem] at h
      split at h
      · exact absurd h hstring
      · exact ⟨type, h, Or.inl rfl⟩

theorem readScalar_ne_unknown {name type raw : String} {reader : Reader} {item : List Char} :
    readScalar name reader item ≠ .error (.unknownType type raw) := by
  unfold readScalar
  cases reader with
  | kind k =>
    dsimp only
    split <;> nofun
  | boxed => nofun
  | always v => nofun
  | never => nofun

theorem readItems_ne_unknown {name type raw : String} {reader : Reader} {items : List (List Char)} :
    readItems name reader items ≠ .error (.unknownType type raw) := by
  induction items with
  | nil => nofun
  | cons item items ih =>
    rw [readItems]
    cases hitem : readScalar name reader item with
    | error e =>
      intro h
      cases h
      exact readScalar_ne_unknown hitem
    | ok v => exact fun h => ih (map_eq_error_iff.mp h)

/-- A text is refused exactly under the types that have no reader. -/
theorem readTyped_eq_unknown_iff {type raw : String} :
    readTyped type raw = .error (.unknownType type raw) ↔
      reader? (itemType type.toList).2 = none := by
  unfold readTyped
  rcases itemType type.toList with ⟨isList, name⟩
  dsimp only
  cases reader? name with
  | none => simp
  | some reader =>
    refine iff_of_false ?_ nofun
    cases isList with
    | false => exact readScalar_ne_unknown
    | true =>
      intro h
      exact readItems_ne_unknown (map_eq_error_iff.mp h)

/-- **Texts are read as their types say.**  A text has one reading under every type: the value that
the kind of the type reads, the list of the values of its items in order, a failure for the text or
the first item that does not read, or a failure that names a type that declares no kind.  It is
read in this way exactly if the type does not ask for a common name. -/
theorem readTyped_reads_iff (type raw : String) :
    (∃! r, TypedReading type raw r) ∧
    (TypedReading type raw (readTyped type raw) ↔ ¬AsksCommon type) ∧
    (Failure.unknownType type raw).message = "bad type: \"" ++ type ++ "\"" := by
  rw [asksCommon_iff]
  cases hk : namedKind? (itemType type.toList).2 with
  | some k =>
    have hdeclares : Declares type _ _ k := declares_iff.mpr ⟨rfl, hk⟩
    refine ⟨⟨_, (readTyped_eq_iff_of_declares hdeclares).mp rfl, fun r hr =>
      ((readTyped_eq_iff_of_declares hdeclares).mpr hr).symm⟩, iff_of_true ?_ ?_, rfl⟩
    · exact (readTyped_eq_iff_of_declares hdeclares).mp rfl
    · exact not_common_of_named hk
  | none =>
    have hrefused : ∀ r, TypedReading type raw r ↔ r = .error (.unknownType type raw) :=
      fun r => typedReading_iff_of_not_declares (not_declares hk)
    refine ⟨⟨_, (hrefused _).mpr rfl, fun r => (hrefused r).mp⟩, ?_, rfl⟩
    rw [hrefused, ← reader?_eq_none_iff hk]
    exact readTyped_eq_unknown_iff

/-- A name that declares no kind gives a value, and another one a failure of its own. -/
theorem readTyped_common :
    (∀ isList name k, ¬Declares "toString" isList name k) ∧
    readTyped "toString" "x" = .ok (.text "[object Undefined]") ∧
    (∀ isList name k, ¬Declares "valueOf" isList name k) ∧
    readTyped "valueOf" "x" = .error (.unusableType "valueOf") :=
  ⟨not_declares (by decide), rfl, not_declares (by decide), rfl⟩

end LayeredConf.Load
