import LayeredConf.Switch
import LayeredConf.Proofs.Lookup.Listing
import LayeredConf.Proofs.Switch.Multimaps

/-!
# What switches give

The cases that match are a matter of lookups alone: a case has its default, or what it holds at the
path that its keys read at the evaluated node.  Of the cases that match, those count that come up to
the first without a true `continue`, and what they give is collected group by group and pair by
pair.

    Pays f context case p       the case matches and has this payload
    contributing f context g    the cases of a group that count, with their payloads
    payloads_eq                 the loop over the cases goes through just these
    evalSwitches_eq             what the groups at a path give
-/

namespace LayeredConf.Forest

/-! ## Matching -/

/-- The first node at a path, in the scope of the node or further out. -/
def Finds (f : Forest) (n : NodeId) (path : List String) (m : Option NodeId) : Prop :=
  ∃ scopes, f.Scopes n path scopes ∧ (f.matchesIn scopes).head? = m

/-- What a listed key reads at the evaluated node: with a question mark in front whether there is a
node, else the text of the node's value. -/
inductive Probes (f : Forest) (context : NodeId) : String → String → Prop
  | presence {name : String} {m : Option NodeId} : f.Finds context (dottedKeys name) m →
      Probes f context ("?" ++ name) (if m.isSome then "true" else "false")
  | value {name : String} {m : Option NodeId} : name.toList.head? ≠ some '?' →
      f.Finds context (dottedKeys name) m →
      Probes f context name (m.elim "" fun m => (f.value m).asText)

/-- A case matches and has this payload. -/
inductive Pays (f : Forest) (context case : NodeId) : String → Prop
  | default {m : NodeId} : f.child case "default" = some m → Pays f context case (f.value m).asText
  | keys {list m : NodeId} {texts : List String} : f.child case "default" = none →
      f.child case "keys" = some list →
      List.Forall₂ (f.Probes context) ((f.childIds list).map fun k => (f.value k).asText) texts →
      f.Finds case (texts.flatMap dottedKeys ++ ["value"]) (some m) →
      Pays f context case (f.value m).asText

section

variable {f : Forest} {n context case : NodeId} {path : List String}

theorem finds_iff (hend : Ends f.outer? n) (hpath : path ≠ []) {m : Option NodeId} :
    f.Finds n path m ↔ f.find? (some n) path = m := by
  constructor
  · rintro ⟨scopes, hscopes, hm⟩
    rw [find?_eq hend hpath hscopes, hm]
  · rintro rfl
    obtain ⟨scopes, hscopes⟩ := exists_scopes hend path
    exact ⟨scopes, hscopes, (find?_eq hend hpath hscopes).symm⟩

theorem probe_presence (f : Forest) (context : NodeId) (name : String) :
    f.probe context ("?" ++ name) =
      if (f.find? (some context) (dottedKeys name)).isSome then "true" else "false" := by
  rw [probe, String.toList_append]
  rfl

theorem probe_value {name : String} (h : name.toList.head? ≠ some '?') : f.probe context name =
    (f.find? (some context) (dottedKeys name)).elim "" fun m => (f.value m).asText := by
  unfold probe dottedKeys
  split
  · next rest hname => exact absurd (by rw [hname]; rfl) h
  · cases f.find? (some context) (keysOf name.toList) <;> rfl

theorem probes_iff (hend : Ends f.outer? context) {name text : String} :
    f.Probes context name text ↔ f.probe context name = text := by
  have hfinds : ∀ s m, f.Finds context (dottedKeys s) m ↔
      f.find? (some context) (dottedKeys s) = m :=
    fun s m => finds_iff hend (keysOf_ne_nil s.toList)
  constructor
  · intro h
    cases h with
    | presence hm => rw [probe_presence, (hfinds _ _).mp hm]
    | value hname hm => rw [probe_value hname, (hfinds _ _).mp hm]
  · rintro rfl
    by_cases hname : name.toList.head? = some '?'
    · obtain ⟨rest, hrest⟩ : ∃ rest : List Char, name.toList = '?' :: rest :=
        List.head?_eq_some_iff.mp hname
      obtain rfl : name = "?" ++ String.ofList rest := by
        simp [← String.toList_inj, hrest]
      rw [probe_presence]
      exact .presence ((hfinds _ _).mpr rfl)
    · rw [probe_value hname]
      exact .value hname ((hfinds _ _).mpr rfl)

/-- A case matches just when it is found to pay something. -/
theorem pays_iff (hcontext : Ends f.outer? context) (hcase : Ends f.outer? case) {p : String} :
    f.Pays context case p ↔ f.payload? context case = some p := by
  have hprobes : ∀ list texts,
      List.Forall₂ (f.Probes context) ((f.childIds list).map fun k => (f.value k).asText) texts ↔
        (f.childIds list).map (fun k => f.probe context (f.value k).asText) = texts := by
    intro list texts
    have hsame : f.Probes context = fun name text => f.probe context name = text :=
      funext₂ fun name text => propext (probes_iff hcontext)
    rw [hsame, List.forall₂_map_left_iff, ← List.forall₂_map_left_iff, List.forall₂_eq_eq_eq]
  have hfinds : ∀ (texts : List String) m, f.Finds case (texts.flatMap dottedKeys ++ ["value"]) m ↔
      f.find? (some case) (texts.flatMap dottedKeys ++ ["value"]) = m :=
    fun texts m => finds_iff hcase (List.append_ne_nil_of_right_ne_nil _ (List.cons_ne_nil _ _))
  constructor
  · intro h
    cases h with
    | default hm => rw [payload?, hm]
    | keys hnone hlist htexts hm =>
      rw [payload?, hnone, hlist]
      show (f.find? _ (f.probePath context _)).map _ = _
      rw [probePath, (hprobes _ _).mp htexts, Switch.valueKey, (hfinds _ _).mp hm]
      rfl
  · intro h
    unfold payload? at h
    split at h
    · next m hm =>
      cases h
      exact .default hm
    · next hnone =>
      split at h
      · cases h
      · next list hlist =>
        obtain ⟨m, hm, rfl⟩ := Option.map_eq_some_iff.mp h
        exact .keys hnone hlist ((hprobes _ _).mpr rfl) ((hfinds _ _).mpr hm)

end

/-! ## Cases that count -/

/-- The cases of a group that match, up to and including the first without a true `continue`. -/
def contributing (f : Forest) (context group : NodeId) : List (NodeId × String) :=
  let matching := (f.childIds group).filterMap fun c => (f.payload? context c).map (c, ·)
  matching.take (matching.findIdx (fun e => !f.continues e.1) + 1)

theorem payloads_eq (f : Forest) (context : NodeId) (cases : List NodeId) :
    f.payloads context cases =
      let matching := cases.filterMap fun c => (f.payload? context c).map (c, ·)
      (matching.take (matching.findIdx (fun e => !f.continues e.1) + 1)).map (·.2) := by
  induction cases with
  | nil => rfl
  | cons c cases ih =>
    rw [payloads, List.filterMap_cons]
    cases hc : f.payload? context c with
    | none => exact ih
    | some p =>
      dsimp only [Option.map_some]
      rw [List.findIdx_cons]
      cases hgo : f.continues c with
      | true => simp [ih]
      | false => simp

/-- What a group gives: the pairs of the cases that count.  With `named`, keys carry the group's. -/
def gives (f : Forest) (context : NodeId) (named : Bool) (group : NodeId) :
    List (String × String) :=
  (f.contributing context group).flatMap fun e => (Switch.pairsOf e.2).map fun (k, v) =>
    (if named then if k = "value" then f.key group else f.key group ++ "_" ++ k else k, v)

theorem groupPairs_eq (f : Forest) (context : NodeId) (named : Bool) (group : NodeId) :
    f.groupPairs context named group = f.gives context named group := by
  rw [groupPairs, payloads_eq, List.flatMap_map]
  cases named <;> rfl

/-! ## Groups -/

theorem evalSwitches_eq_ofPairs (f : Forest) (n : NodeId) {parts : List PathPart}
    (h : parts ≠ []) : f.evalSwitches (some n) parts =
      .ofPairs ((f.findAll (some n) (keyPath parts) 0).flatMap
        (f.groupPairs n (endsInWildcard (keyPath parts)))) := if_neg h

/-- Scopes come to an end from a child of what a lookup finds as they do from where it begins. -/
theorem WellFormed.ends_of_mem_matchesIn {f : Forest} (hf : f.WellFormed) {n group case : NodeId}
    {path : List String} {scopes : List (NodeId × List String)} (h : f.Scopes n path scopes)
    (hgroup : group ∈ f.matchesIn scopes) (hcase : case ∈ f.childIds group) :
    Ends f.outer? case := by
  obtain ⟨s, hs, hmatch⟩ := List.mem_flatMap.mp hgroup
  obtain ⟨ks, hks, -⟩ := (mem_matchesBelow_iff hf s.2 s.1 group).mp hmatch
  obtain ⟨l, hl, -⟩ := h.trail.of_mem (List.mem_map_of_mem hs)
  have hparent := hf.parent_of_child (hf.child_of_mem_childIds hcase)
  refine .of_next fun o ho => Ends.of_eq_some ⟨l, hl⟩ ?_
  rw [← ho, hf.outer_of_parent hparent, hf.outer_of_walk hks]

/-- **What a switch gives.**  Where scopes come to an end, the groups at a path are those that a
lookup lists, and for each key the values are those of the pairs with that key, group by group, case
by case and in the order of each payload.  The keys come in the order in which the pairs first bring
them. -/
theorem evalSwitches_eq {f : Forest} (hf : f.WellFormed) {n : NodeId} (hend : Ends f.outer? n)
    {parts : List PathPart} (hparts : parts ≠ []) :
    ∃ scopes, f.Scopes n (keyPath parts) scopes ∧
      f.findAll (some n) (keyPath parts) 0 = f.matchesIn scopes ∧
      (∀ group ∈ f.matchesIn scopes, ∀ case ∈ f.childIds group, ∀ p,
        f.Pays n case p ↔ f.payload? n case = some p) ∧
      let pairs := (f.matchesIn scopes).flatMap
        (f.gives n ((keyPath parts).getLast? = some "*"))
      (∀ k, (f.evalSwitches (some n) parts).values k = (pairs.filter (·.1 = k)).map (·.2)) ∧
      (f.evalSwitches (some n) parts).keys = (pairs.map (·.1)).eraseDups := by
  obtain ⟨scopes, hscopes⟩ := exists_scopes hend (keyPath parts)
  have hall : f.findAll (some n) (keyPath parts) 0 = f.matchesIn scopes :=
    findAll_eq hend (keyPath_ne_nil hparts) hscopes 0
  have heval : f.evalSwitches (some n) parts = .ofPairs ((f.matchesIn scopes).flatMap
      (f.gives n ((keyPath parts).getLast? = some "*"))) := by
    have hgives : f.groupPairs n (endsInWildcard (keyPath parts)) =
        f.gives n ((keyPath parts).getLast? = some "*") :=
      funext fun group => f.groupPairs_eq n _ group
    rw [← hall, ← hgives]
    exact evalSwitches_eq_ofPairs f n hparts
  refine ⟨scopes, hscopes, hall, fun group hgroup case hcase p => ?_, fun k => ?_, ?_⟩
  · exact pays_iff hend (hf.ends_of_mem_matchesIn hscopes hgroup hcase)
  · rw [heval, Multimap.values_ofPairs]
  · rw [heval, Multimap.keys_ofPairs]

/-- A default that goes on, a case that does not match, one that asks whether there is an `x`, which
ends the group, and one more. -/
theorem evalSwitches_eq_named : ∃ steps f, Run steps f ∧ Ends f.outer? 0 ∧
    f.evalSwitches (some 0) [.text "s.*"] = ⟨[("g_max", ["5"]), ("g", ["a", "b"])]⟩ ∧
    ∃ scopes, f.Scopes 0 (keyPath [.text "s.*"]) scopes ∧ f.matchesIn scopes = [2] ∧
      (([2].flatMap (f.gives 0 true)).filter (·.1 = "g")).map (·.2) = ["a", "b"] ∧
      (([2].flatMap (f.gives 0 true)).map (·.1)).eraseDups = ["g_max", "g"] := by
  obtain ⟨steps, f, hrun, hend, heval, hgroups⟩ : ∃ steps f, Run steps f ∧ Ends f.outer? 0 ∧
      f.evalSwitches (some 0) [.text "s.*"] = ⟨[("g_max", ["5"]), ("g", ["a", "b"])]⟩ ∧
      f.findAll (some 0) (keyPath [.text "s.*"]) 0 = [2] :=
    ⟨_, _, .step (.ofArgs [("s.g.1.default", .text "max:5,a"), ("s.g.1.continue", .text "on"),
        ("s.g.2.continue", .text "on"), ("s.g.3.keys.k", .text "?x"),
        ("s.g.3.true.value", .text "b"), ("s.g.4.default", .text "c"), ("x", .unset)])
      .start (by decide), ⟨[0], .last (by decide)⟩, by decide +kernel, by decide +kernel⟩
  obtain ⟨scopes, hscopes, hall, -, hvalues, hkeys⟩ :=
    evalSwitches_eq hrun.wellFormed hend (show [PathPart.text "s.*"] ≠ [] by decide)
  have hgiven := hvalues "g"
  rw [hgroups] at hall
  rw [heval, ← hall] at hgiven hkeys
  exact ⟨steps, f, hrun, hend, heval, scopes, hscopes, hall.symm, hgiven.symm, hkeys.symm⟩

end LayeredConf.Forest
