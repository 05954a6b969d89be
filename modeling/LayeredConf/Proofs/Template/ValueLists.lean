import LayeredConf.Proofs.Lookup.Matches
import LayeredConf.Proofs.Template.Reading
import LayeredConf.Template.NodeFunctions

/-!
# Value lists in templates

The values of the leaves at a path are put into a template as their texts, with commas between them.
What is not set has the empty text as a value, but not as a datum, where it shows as `undefined`;
so the text is that of the values exactly if all of them, and all items of lists among them, are
set.

    gaps v                      how many values in `v` are not set
    filled v                    `v` with `undefined` in their place
    render_ofValue              a value shows as the text of the filled value
    Resolves f n path ms        `ms` are the nodes at a path, nearest scope first
    expandOver_getvalues_iff    what a template that asks for the values at a path expands to
-/

namespace LayeredConf

/-! ## Gaps -/

namespace Value

mutual

/-- How many values in it are not set. -/
def gaps : Value → Nat
  | .unset => 1
  | .list items => gapsAll items
  | _ => 0

def gapsAll : List Value → Nat
  | [] => 0
  | v :: vs => gaps v + gapsAll vs

end

mutual

/-- The value with the text `undefined` for what is not set. -/
def filled : Value → Value
  | .unset => .text "undefined"
  | .list items => .list (filledAll items)
  | v => v

def filledAll : List Value → List Value
  | [] => []
  | v :: vs => filled v :: filledAll vs

end

theorem textsOf_eq_map (vs : List Value) : textsOf vs = vs.map asText := by
  induction vs with
  | nil => rfl
  | cons v vs ih => rw [textsOf, List.map_cons, ih]

theorem filledAll_eq_map (vs : List Value) : filledAll vs = vs.map filled := by
  induction vs with
  | nil => rfl
  | cons v vs ih => rw [filledAll, List.map_cons, ih]

theorem gapsAll_eq_zero_iff (vs : List Value) : gapsAll vs = 0 ↔ ∀ v ∈ vs, v.gaps = 0 := by
  induction vs with
  | nil => simp [gapsAll]
  | cons v vs ih => rw [gapsAll, Nat.add_eq_zero_iff, ih, List.forall_mem_cons]

mutual

/-- Each gap is nine characters longer when it is filled. -/
theorem length_filled (v : Value) : v.filled.asText.length = v.asText.length + 9 * v.gaps := by
  cases v with
  | unset => rfl
  | list items => exact length_filledAll items
  | text | number | bool | duration | date => rfl

theorem length_filledAll (vs : List Value) :
    (",".intercalate (textsOf (filledAll vs))).length =
      (",".intercalate (textsOf vs)).length + 9 * gapsAll vs := by
  match vs with
  | [] => rfl
  | [v] =>
    have hv := length_filled v
    simp only [filledAll, textsOf, gapsAll, String.intercalate_singleton]
    omega
  | v :: w :: vs =>
    have hv := length_filled v
    have hvs := length_filledAll (w :: vs)
    simp only [filledAll, textsOf, gapsAll, String.intercalate_cons_cons, String.length_append]
      at hvs ⊢
    omega

end

mutual

theorem filled_eq_self {v : Value} (h : v.gaps = 0) : v.filled = v := by
  cases v with
  | unset => cases h
  | list items => exact congrArg Value.list (filledAll_eq_self h)
  | text | number | bool | duration | date => rfl

theorem filledAll_eq_self {vs : List Value} (h : gapsAll vs = 0) : filledAll vs = vs := by
  match vs with
  | [] => rfl
  | v :: vs =>
    obtain ⟨hv, hvs⟩ := Nat.add_eq_zero_iff.mp h
    rw [filledAll, filled_eq_self hv, filledAll_eq_self hvs]

end

/-- Filling changes the text of every list that has a gap. -/
theorem intercalate_filled_iff (vs : List Value) :
    ",".intercalate (vs.map fun v => v.filled.asText) = ",".intercalate (vs.map asText) ↔
      ∀ v ∈ vs, v.gaps = 0 := by
  have hfilled : textsOf (filledAll vs) = vs.map fun v => v.filled.asText := by
    rw [textsOf_eq_map, filledAll_eq_map, List.map_map]
    rfl
  rw [← hfilled, ← textsOf_eq_map, ← gapsAll_eq_zero_iff]
  constructor
  · intro h
    have hlength := length_filledAll vs
    rw [h] at hlength
    omega
  · intro h
    rw [filledAll_eq_self h]

end Value

namespace Template

open Value

/-! ## Values as data -/

mutual

/-- A value shows as the text of the filled value. -/
theorem render_ofValue (f : Forest) (v : Value) :
    Datum.render f (.ofValue v) = v.filled.asText := by
  cases v with
  | list items =>
    show ",".intercalate _ = ",".intercalate _
    rw [renderItems_ofValues f items]
  | unset | text | number | bool | duration | date => rfl

theorem renderItems_ofValues (f : Forest) (vs : List Value) :
    Datum.renderItems f (Datum.ofValues vs) = textsOf (filledAll vs) := by
  cases vs with
  | nil => rfl
  | cons v vs =>
    show Datum.render f (.ofValue v) :: _ = _
    rw [render_ofValue f v, renderItems_ofValues f vs]
    rfl

end

theorem render_values (f : Forest) (vs : List Value) : Datum.render f (.list (Datum.ofValues vs)) =
    ",".intercalate (vs.map fun v => v.filled.asText) := by
  show ",".intercalate (Datum.renderItems f (Datum.ofValues vs)) = _
  rw [renderItems_ofValues, textsOf_eq_map, filledAll_eq_map, List.map_map]
  rfl

/-! ## Calls with keys -/

/-- A part of a path as a literal. -/
def literal : PathPart → Literal
  | .text s => .text s
  | .number x => .number x
  | .bool b => .bool b

def datum : PathPart → Datum
  | .text s => .text s
  | .number x => .number x
  | .bool b => .bool b

theorem pathPart_datum (f : Forest) (part : PathPart) : pathPart f (datum part) = part := by
  cases part <;> rfl

theorem evalAll_literals (env : Environment) (parts : List PathPart) :
    evalAll env (parts.map fun part => .literal (literal part)) = .ok (parts.map datum) := by
  induction parts with
  | nil => rfl
  | cons part parts ih =>
    have hpart : eval env (.literal (literal part)) = .ok (datum part) := by cases part <;> rfl
    rw [List.map_cons, evalAll, hpart]
    dsimp only
    rw [ih]
    rfl

/-- A template of one expression whose result is not missing. -/
theorem expand_expr {env : Environment} {template : String} {body : List Char} {e : Expr}
    {d : Datum} (hpieces : pieces template.toList = [.expr body])
    (hread : readExpr (Text.trim body) = .ok e) (heval : eval env e = .ok d)
    (hd : d.isMissing = false) : expand env template = .ok (env.render d) := by
  have hpiece : expandPiece env (.expr body) = .ok (env.render d) := by
    unfold expandPiece
    dsimp only
    rw [hread]
    show (do let d ← eval env e; _) = _
    rw [heval]
    show (if d.isMissing = true then _ else _) = _
    rw [hd]
    rfl
  rw [expand, hpieces, expandPieces, hpiece]
  refine congrArg Except.ok (String.toList_inj.mp ?_)
  rw [String.toList_join, List.flatMap_singleton]

/-! ## Lists of values -/

/-- The nodes at a path, in the order of the scopes: the empty path is the node itself, any other
one is matched scope by scope. -/
inductive Resolves (f : Forest) (n : NodeId) : List String → List NodeId → Prop
  | self : Resolves f n [] [n]
  | path {path : List String} {scopes : List (NodeId × List String)} : path ≠ [] →
      f.Scopes n path scopes → Resolves f n path (f.matchesIn scopes)

theorem Resolves.findAll_eq {f : Forest} {n : NodeId} {path : List String} {ms : List NodeId}
    (hend : Ends f.outer? n) (h : Resolves f n path ms) : f.findAll (some n) path 0 = ms := by
  cases h with
  | self => rfl
  | path hpath hscopes => exact Forest.findAll_eq hend hpath hscopes 0

theorem exists_resolves {f : Forest} {n : NodeId} (hend : Ends f.outer? n) (path : List String) :
    ∃ ms, Resolves f n path ms := by
  by_cases hpath : path = []
  · subst hpath
    exact ⟨_, .self⟩
  · obtain ⟨scopes, hscopes⟩ := Forest.exists_scopes hend path
    exact ⟨_, .path hpath hscopes⟩

section

variable (f : Forest) (n : NodeId) (missing : Missing)
variable {more : List (String × Function)} {template : String} {body : List Char}
variable {parts : List PathPart}

/-- The functions of the caller do not hide those of the node under other names. -/
theorem lookup_getvalues (hmore : more.lookup "getvalues" = none) :
    (more ++ functions f n).lookup "getvalues" = some fun args =>
      .ok (.list (Datum.ofValues (f.valuesAt (some n) (args.map (pathPart f))))) := by
  rw [List.lookup_append, hmore]
  rfl

theorem expandOver_getvalues (hmore : more.lookup "getvalues" = none)
    (hpieces : pieces template.toList = [.expr body])
    (hread : readExpr (Text.trim body) =
      .ok (.call "getvalues" (parts.map fun part => .literal (literal part)))) :
    expandOver f n more missing template =
      .ok (",".intercalate ((f.valuesAt (some n) parts).map fun v => v.filled.asText)) := by
  have hparts : (parts.map datum).map (pathPart f) = parts := by
    rw [List.map_map]
    exact (List.map_congr_left fun part _ => pathPart_datum f part).trans (List.map_id _)
  rw [← render_values f, expandOver]
  refine expand_expr (d := .list (Datum.ofValues (f.valuesAt (some n) parts))) hpieces hread ?_ rfl
  rw [eval, lookup_getvalues f n hmore]
  dsimp only
  rw [evalAll_literals]
  dsimp only
  rw [hparts]

end

/-- **A list of values is expanded to their texts, with `undefined` for what is not set.**  So it
shows as the texts of the values, which are empty for what is not set, exactly if nothing in them is
unset. -/
theorem expandOver_getvalues_iff (f : Forest) (n : NodeId) (hend : Ends f.outer? n)
    (more : List (String × Function)) (hmore : more.lookup "getvalues" = none) (missing : Missing)
    (template : String) (body : List Char) (parts : List PathPart)
    (hpieces : pieces template.toList = [.expr body])
    (hread : readExpr (Text.trim body) =
      .ok (.call "getvalues" (parts.map fun part => .literal (literal part)))) :
    ∃ ms, Resolves f n (keyPath parts) ms ∧
      expandOver f n more missing template = .ok (",".intercalate
        (((ms.filter f.isLeaf).map f.value).map fun v => v.filled.asText)) ∧
      (expandOver f n more missing template =
          .ok (",".intercalate (((ms.filter f.isLeaf).map f.value).map asText)) ↔
        ∀ m ∈ ms, f.isLeaf m = true → (f.value m).gaps = 0) := by
  obtain ⟨ms, hms⟩ := exists_resolves hend (keyPath parts)
  have hvalues : f.valuesAt (some n) parts = (ms.filter f.isLeaf).map f.value := by
    rw [Forest.valuesAt, Forest.nodesAt, hms.findAll_eq hend]
  have hexpand := expandOver_getvalues f n missing hmore hpieces hread
  rw [hvalues] at hexpand
  refine ⟨ms, hms, hexpand, ?_⟩
  rw [hexpand, Except.ok.injEq, intercalate_filled_iff]
  simp only [List.forall_mem_map, List.mem_filter, and_imp]

/-- The values of all children of a node. -/
theorem pieces_getvalues :
    pieces "$\x7bgetvalues('h.*')\x7d".toList = [.expr "getvalues('h.*')".toList] ∧
      readExpr (Text.trim "getvalues('h.*')".toList) =
        .ok (.call "getvalues" ([.text "h.*"].map fun part => .literal (literal part))) := by
  have htext : Prints (.literal (.text "h.*")) "'h.*'".toList := .text "h.*" rfl
  have hcall : Prints (.call "getvalues" [.literal (.text "h.*")]) "getvalues('h.*')".toList :=
    @Prints.call "getvalues".toList [] _ _ (by decide) (by decide) (by decide)
      (@PrintsArgs.last _ [] _ [] (by decide) htext (by decide))
  refine ⟨pieces_passed hcall.passes, ?_⟩
  rw [Text.trim_eq_self hcall.trimmed.2]
  exact hcall.readExpr

/-- A text, and a list with a list in it. -/
theorem expandOver_getvalues_nested : ∃ steps f, Forest.Run steps f ∧ Ends f.outer? 0 ∧
    Resolves f 0 ["h", "*"] [2, 3] ∧ f.value 2 = .text "a" ∧
    f.value 3 = .list [.text "b", .list [.bool true, .text ""]] ∧
    expandOver f 0 [] .leave "$\x7bgetvalues('h.*')\x7d" = .ok "a,b,true," := by
  obtain ⟨steps, f, hrun, hend, hresolves, hleaves, ha, hb⟩ : ∃ steps f, Forest.Run steps f ∧
      Ends f.outer? 0 ∧ Resolves f 0 ["h", "*"] [2, 3] ∧ [2, 3].filter f.isLeaf = [2, 3] ∧
      f.value 2 = .text "a" ∧ f.value 3 = .list [.text "b", .list [.bool true, .text ""]] :=
    ⟨_, _, .step (.ofArgs [("h.1", .text "a"),
        ("h.2", .list [.text "b", .list [.bool true, .text ""]])]) .start (by decide),
      .of_none (by decide), .path (by decide) (.last (by decide)), by decide, rfl, rfl⟩
  obtain ⟨ms, hms, -, hiff⟩ := expandOver_getvalues_iff f 0 hend [] rfl .leave _ _ _
    pieces_getvalues.1 pieces_getvalues.2
  obtain rfl : ms = [2, 3] := (hms.findAll_eq hend).symm.trans (hresolves.findAll_eq hend)
  refine ⟨steps, f, hrun, hend, hresolves, ha, hb, ?_⟩
  rw [hiff.mpr (by simp [ha, hb, gaps, gapsAll]), hleaves]
  simp [ha, hb, asText, textsOf, boolText]

/-- A node without a value shows as `undefined`, though its value has the empty text. -/
theorem expandOver_shows_unset : ∃ steps f, Forest.Run steps f ∧ Ends f.outer? 0 ∧
    Resolves f 0 ["h", "*"] [2, 3] ∧
    ",".intercalate ((([2, 3].filter f.isLeaf).map f.value).map asText) = "a," ∧
    expandOver f 0 [] .leave "$\x7bgetvalues('h.*')\x7d" = .ok "a,undefined" := by
  obtain ⟨steps, f, hrun, hend, hresolves, hvalues⟩ : ∃ steps f, Forest.Run steps f ∧
      Ends f.outer? 0 ∧ Resolves f 0 ["h", "*"] [2, 3] ∧
      ([2, 3].filter f.isLeaf).map f.value = [.text "a", .unset] :=
    ⟨_, _, .step (.ofArgs [("h.1", .text "a"), ("h.2", .unset)]) .start (by decide),
      .of_none (by decide), .path (by decide) (.last (by decide)), rfl⟩
  refine ⟨steps, f, hrun, hend, hresolves, by rw [hvalues]; rfl, ?_⟩
  have hat : f.valuesAt (some 0) [.text "h.*"] = [.text "a", .unset] := by
    rw [Forest.valuesAt, Forest.nodesAt, show keyPath [.text "h.*"] = ["h", "*"] by decide,
      hresolves.findAll_eq hend, hvalues]
  rw [expandOver_getvalues f 0 .leave rfl pieces_getvalues.1 pieces_getvalues.2, hat]
  rfl

end Template

end LayeredConf
