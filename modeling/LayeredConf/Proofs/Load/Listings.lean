import LayeredConf.Load.Text
import LayeredConf.Proofs.Forest.Run
import LayeredConf.Proofs.Forest.Views
import LayeredConf.Proofs.Load.Entries
import LayeredConf.Proofs.Load.Typed
import LayeredConf.Proofs.Lookup.Absolute
import LayeredConf.Proofs.Text.Blank
import LayeredConf.Proofs.Text.Escaped
import LayeredConf.Tree.Text
import Mathlib.Data.Bool.AllAny

/-!
# Listings load

The long form of a tree has a line for each leaf.  Where keys and values stand in a line as they
are, each line is read as the entry of its leaf, so loading the listing of a scope into a new scope
makes the tree anew.

    Listable t              keys and values of `t` stand in lines as they are
    leafLines_eq            a listing has the lines of the leaves
    readPlain_line          the line of a leaf is read as its entry
    loadText_listing        the new scope has the keys, values and order of the tree
-/

namespace LayeredConf

open LayeredConf.Tree Load

/-! ## What lines can tell -/

namespace Load

/-- A key that is one key of a path to the left of an equals sign. -/
def LineKey (k : String) : Prop :=
  k ≠ "" ∧ ∀ c ∈ k.toList, c ≠ '.' ∧ c ≠ '=' ∧ Text.isBlank c = false

/-- A key that does not end in a colon and a type. -/
def Untyped (k : String) : Prop :=
  ∀ type ∈ entryTypes, ¬(':' :: type) <:+ k.toList ∧ ¬(':' :: '[' :: ']' :: type) <:+ k.toList

/-- A text within one line, with no blanks around it. -/
def LineValue (v : Value) : Prop :=
  ∃ s, v = .text s ∧ Text.Trimmed s.toList ∧ ∀ c ∈ s.toList, Text.isLineEnd c = false

end Load

/-- A tree that its listing tells, but for the flags. -/
structure Tree.Listable (t : Tree) : Prop where
  /-- The top and all nodes with children are unset. -/
  unset : t.value = .unset
  hollow : t.Hollow
  keys : t.KeysBelow LineKey
  /-- No line begins like a comment. -/
  plain : ∀ c ∈ t.children, c.key.toList.head? ≠ some '#'
  leaves : t.LeavesBelow fun k v => Untyped k ∧ LineValue v

namespace Tree

/-! ## The lines of the leaves -/

def lineText (e : List String × Value) : String := dotted e.1 ++ "=" ++ e.2.asText ++ "\n"

mutual

theorem leafLines_eq (t : Tree) (hkeys : t.KeysBelow LineKey) (path : List String) :
    leafLines path t = (t.entries.map (within path)).map lineText := by
  obtain ⟨key, v, flags, _ | ⟨t, ts⟩⟩ := t
  · rw [leafLines, entries, List.map_singleton, List.map_singleton, within, List.append_nil]
    rfl
  · exact childLines_eq (t :: ts) hkeys path

theorem childLines_eq (ts : List Tree) (hkeys : KeysBelowAll LineKey ts) (path : List String) :
    childLines path ts = ((entriesAll ts).map (within path)).map lineText := by
  cases ts with
  | nil => rfl
  | cons t ts =>
    have ht := leafLines_eq t hkeys.2.1 (path ++ [t.key])
    have hne : t.key ≠ "" := hkeys.1.1
    rw [entriesAll, List.map_append, List.map_append, ← map_within_child, ← ht,
      ← childLines_eq ts hkeys.2.2]
    obtain ⟨key, v, flags, children⟩ := t
    rw [Tree.key] at hne
    rw [childLines, if_neg hne, Tree.key]

end

end Tree

namespace Load

/-! ## Reading a line -/

/-- An entry whose line tells it. -/
structure LineEntry (e : List String × Value) : Prop where
  path_ne : e.1 ≠ []
  keys : ∀ k ∈ e.1, LineKey k
  plain : ∀ k ∈ e.1.head?, k.toList.head? ≠ some '#'
  untyped : ∀ k ∈ e.1.getLast?, Untyped k
  value : LineValue e.2

def lineChars (e : List String × Value) : List Char :=
  (dotted e.1).toList ++ '=' :: e.2.asText.toList

theorem exists_head_dotted (k : String) (ks : List String) :
    ∃ rest, (dotted (k :: ks)).toList = k.toList ++ rest := by
  rw [Forest.toList_dotted]
  cases ks with
  | nil => exact ⟨[], by simp⟩
  | cons k' ks =>
    rw [List.map_cons, List.map_cons, List.intercalate_cons_cons, List.append_assoc]
    exact ⟨_, rfl⟩

/-- Before the last key of a path is nothing, or a text that ends in a dot. -/
theorem exists_last_dotted (ks : List String) (k : String) :
    ∃ pre, (dotted (ks ++ [k])).toList = pre ++ k.toList ∧ ∀ c ∈ pre.getLast?, c = '.' := by
  rw [Forest.toList_dotted]
  induction ks with
  | nil => exact ⟨[], by simp, by simp⟩
  | cons k' ks ih =>
    obtain ⟨pre, hpre, hdot⟩ := ih
    have hne : (ks ++ [k]).map String.toList ≠ [] := by simp
    refine ⟨k'.toList ++ (['.'] ++ pre), ?_, ?_⟩
    · rw [List.cons_append, List.map_cons, List.intercalate_cons_of_ne_nil hne, hpre]
      simp
    · intro c hc
      cases pre with
      | nil => simpa [eq_comm] using hc
      | cons d pre => exact hdot c (by simpa [List.getLast?_append] using hc)

theorem Untyped.isEntryType {k : String} (hk : Untyped k) {key type : List Char}
    (h : k.toList = key ++ ':' :: type) : isEntryType type = false := by
  refine Bool.eq_false_iff.mpr fun htype => ?_
  have hsuffix : (':' :: type) <:+ k.toList := ⟨key, h.symm⟩
  unfold Load.isEntryType at htype
  rcases Bool.or_eq_true_iff.mp htype with htype | htype
  · exact (hk type (of_decide_eq_true htype)).1 hsuffix
  · split at htype
    · next r _ => exact (hk r (of_decide_eq_true htype)).2 hsuffix
    · cases htype

/-- No part of a path behind a colon is a type, if none of its last key is. -/
theorem isEntryType_of_dotted {path : List String} (hne : path ≠ [])
    (huntyped : ∀ k ∈ path.getLast?, Untyped k) {key type : List Char}
    (h : (dotted path).toList = key ++ ':' :: type) : isEntryType type = false := by
  obtain ⟨ks, k, rfl⟩ : ∃ ks k, path = ks ++ [k] :=
    ⟨_, _, (List.dropLast_append_getLast hne).symm⟩
  obtain ⟨pre, hpre, hdot⟩ := exists_last_dotted ks k
  have hk := huntyped k (by simp)
  rw [hpre] at h
  rcases List.append_eq_append_iff.mp h with ⟨a, -, hlast⟩ | ⟨a, hpre, hlast⟩
  · exact hk.isEntryType hlast
  · cases a with
    | nil =>
      have hall : k.toList = [] ++ ':' :: type := hlast.symm
      exact hk.isEntryType hall
    | cons c a =>
      -- the dot before the last key lies behind the colon
      obtain ⟨rfl, rfl⟩ := List.cons.inj hlast
      refine Bool.eq_false_iff.mpr fun htype => ?_
      have htypes : ∀ t ∈ entryTypes, '.' ∉ '[' :: ']' :: t := by decide
      have hno_dot := not_mem_of_isEntryType htypes htype
      refine hno_dot ?_
      have hmem : '.' ∈ ':' :: a := by
        have hlast := List.getLast?_cons (a := ':') (l := a)
        have hdot := hdot (a.getLast?.getD ':') (by
          rw [hpre, List.getLast?_append, hlast]
          rfl)
        rw [← hdot]
        exact List.mem_of_getLast? hlast
      exact List.mem_append_left _ ((List.mem_cons.mp hmem).resolve_left (by decide))

theorem keyAndType_of_untyped {s : List Char}
    (h : ∀ key type, s = key ++ ':' :: type → isEntryType type = false) :
    keyAndType s = (s, []) := by
  rcases keyAndType_cases s with ⟨key, type, -, htype, hs, -⟩ | ⟨heq, -⟩
  · rw [h key type hs] at htype
    cases htype
  · exact heq

theorem isBlank_of_isLineEnd {c : Char} (h : Text.isLineEnd c = true) : Text.isBlank c = true := by
  simp only [Text.isLineEnd, Bool.or_eq_true, decide_eq_true_eq] at h
  rcases h with ((rfl | rfl) | rfl) | rfl <;> rfl

section

variable {e : List String × Value} (h : LineEntry e)

include h

theorem chars_dotted : ∀ c ∈ (dotted e.1).toList, c ≠ '=' ∧ Text.isBlank c = false := by
  intro c hc
  rw [Forest.toList_dotted] at hc
  rcases Text.mem_intercalate hc with rfl | ⟨l, hl, hcl⟩
  · decide
  · obtain ⟨k, hk, rfl⟩ := List.mem_map.mp hl
    exact ((h.keys k hk).2 c hcl).2

/-- A line begins with a character of a key. -/
theorem head_dotted :
    ∃ c r, (dotted e.1).toList = c :: r ∧ Text.isBlank c = false ∧ c ≠ '#' := by
  have hchars := chars_dotted h
  obtain ⟨hne, hkeys, hplain, -, -⟩ := h
  obtain ⟨path, v⟩ := e
  obtain ⟨k, ks, rfl⟩ := List.exists_cons_of_ne_nil hne
  obtain ⟨rest, hrest⟩ := exists_head_dotted k ks
  obtain ⟨c, r, hk⟩ := List.exists_cons_of_ne_nil fun hnil =>
    (hkeys k List.mem_cons_self).1 (String.toList_eq_nil_iff.mp hnil)
  have hcons : (dotted (k :: ks)).toList = c :: (r ++ rest) := by
    rw [hrest, hk, List.cons_append]
  refine ⟨c, r ++ rest, hcons, (hchars c (by rw [hcons]; exact List.mem_cons_self)).2, ?_⟩
  rintro rfl
  exact hplain k rfl (by rw [hk]; rfl)

theorem isIgnored_line : isIgnored (lineChars e) = false := by
  obtain ⟨c, r, hcons, hblank, hcomment⟩ := head_dotted h
  rw [isIgnored, lineChars, hcons, List.cons_append, Text.trimLeft,
    List.dropWhile_cons_of_neg (by simp [hblank])]
  split
  · next heq => cases heq
  · next heq => exact absurd (List.cons.inj heq).1 hcomment
  · rfl

theorem readEntry?_line : readEntry? (lineChars e) = some ⟨dotted e.1, "", e.2.asText⟩ := by
  have hchars := chars_dotted h
  obtain ⟨c, r, hcons, -, -⟩ := head_dotted h
  obtain ⟨s, hs, htrimmed, hline⟩ := h.value
  have hpath : Text.trim (dotted e.1).toList = (dotted e.1).toList :=
    Text.trim_eq_self ⟨fun d hd => (hchars d (List.mem_of_head? hd)).2,
      fun d hd => (hchars d (List.mem_of_getLast? hd)).2⟩
  have hfound : ¬((dotted e.1).toList = [] ∨ s.toList.any Text.isLineEnd = true) := by
    have hvalue : s.toList.any Text.isLineEnd = false := by simpa using hline
    rw [hvalue, hcons]
    simp
  unfold readEntry?
  rw [lineChars, Text.cut?_append fun hc => (hchars '=' hc).1 rfl, hs, Value.asText]
  dsimp only
  rw [hpath, Text.trim_eq_self htrimmed, if_neg hfound,
    keyAndType_of_untyped fun key type => isEntryType_of_dotted h.path_ne h.untyped]
  simp only [String.ofList_toList, String.ofList_nil]

theorem readTyped_line : readTyped "" e.2.asText = .ok e.2 := by
  obtain ⟨s, hs, -, -⟩ := h.value
  rw [hs]
  exact readTyped_untyped s

/-- The line of a leaf writes it. -/
theorem loadLine_line (n : NodeId) (strict : Bool) (p : Progress) (number : Nat) :
    ∃ p', loadLine n strict p number (lineChars e) = (p', .ok ()) ∧
      p'.forest = (p.forest.setDotted n (dotted e.1) e.2).1 := by
  have hread : Line.readPlain (lineChars e) = .entry ⟨dotted e.1, "", e.2.asText⟩ := by
    rw [Line.readPlain, isIgnored_line h, readEntry?_line h]
    rfl
  rw [loadLine, hread]
  dsimp only
  rw [Progress.write, readTyped_line h]
  exact ⟨_, rfl, rfl⟩

theorem lineText_lines (rest : List Char) :
    Text.lines ((lineText e).toList ++ rest) = lineChars e :: Text.lines rest := by
  obtain ⟨s, hs, -, hline⟩ := h.value
  have hends : ∀ c ∈ lineChars e, Text.isLineEnd c = false := by
    intro c hc
    rw [lineChars, List.mem_append, List.mem_cons, hs, Value.asText] at hc
    rcases hc with hc | rfl | hc
    · refine Bool.eq_false_iff.mpr fun hend => ?_
      have hblank := (chars_dotted h c hc).2
      rw [isBlank_of_isLineEnd hend] at hblank
      cases hblank
    · rfl
    · exact hline c hc
  have htext : (lineText e).toList ++ rest = lineChars e ++ '\n' :: rest := by
    simp [lineText, lineChars]
  rw [htext, Text.lines_append]
  intro c hc
  constructor <;>
  · rintro rfl
    exact absurd (hends _ hc) (by decide)

end

theorem loadLines_lines (n : NodeId) (strict : Bool) {es : List (List String × Value)}
    (hes : ∀ e ∈ es, LineEntry e) (p : Progress) (number : Nat) :
    ∃ p', loadLines n strict p number (es.map lineChars ++ [[]]) = (p', .ok ()) ∧
      p'.forest = p.forest.writeLeaves n es := by
  induction es generalizing p number with
  | nil => exact ⟨p, rfl, rfl⟩
  | cons e es ih =>
    obtain ⟨he, hes⟩ := List.forall_mem_cons.mp hes
    obtain ⟨p₁, hline, hforest⟩ := loadLine_line he n strict p number
    obtain ⟨p₂, hlines, hwritten⟩ := ih hes p₁ (number + 1)
    refine ⟨p₂, ?_, ?_⟩
    · rw [List.map_cons, List.cons_append, loadLines, hline]
      exact hlines
    · rw [hwritten, hforest]
      rfl

theorem lines_join {es : List (List String × Value)} (hes : ∀ e ∈ es, LineEntry e) :
    Text.lines (String.join (es.map lineText)).toList = es.map lineChars ++ [[]] := by
  induction es with
  | nil => rfl
  | cons e es ih =>
    obtain ⟨he, hes⟩ := List.forall_mem_cons.mp hes
    rw [List.map_cons, String.join_cons, String.toList_append, lineText_lines he, ih hes]
    rfl

end Load

/-! ## Loading a listing -/

namespace Tree

theorem head?_of_mem_entriesAll {ts : List Tree} {e : List String × Value}
    (he : e ∈ entriesAll ts) : ∃ t ∈ ts, e.1.head? = some t.key := by
  induction ts with
  | nil => cases he
  | cons t ts ih =>
    rcases List.mem_append.mp he with he | he
    · obtain ⟨e', -, rfl⟩ := List.mem_map.mp he
      exact ⟨t, List.mem_cons_self, rfl⟩
    · obtain ⟨t', ht', hhead⟩ := ih he
      exact ⟨t', List.mem_cons_of_mem _ ht', hhead⟩

theorem Listable.lineEntry {t : Tree} (h : t.Listable) (hinner : t.children ≠ []) :
    ∀ e ∈ t.entries, LineEntry e := by
  intro e he
  have hkeys := keysBelow_path t h.keys e he
  obtain ⟨k, v, flags, children⟩ := t
  rw [entries_of_ne_nil k v flags (by exact hinner)] at he
  obtain ⟨last, hlast, huntyped, hvalue⟩ := leavesBelowAll_entries children h.leaves e he
  obtain ⟨child, hchild, hhead⟩ := head?_of_mem_entriesAll he
  refine ⟨path_ne_nil_of_mem_entriesAll he, hkeys, ?_, ?_, hvalue⟩
  · intro first hfirst
    obtain rfl := Option.some.inj (hhead.symm.trans hfirst)
    exact h.plain child hchild
  · intro last' hlast'
    obtain rfl := Option.some.inj (hlast.symm.trans hlast')
    exact huntyped

end Tree

namespace Load

/-- **Loading the listing of a scope makes its tree anew.**  The tree of the new scope has the keys,
values and order of the tree that is listed. -/
theorem loadText_listing {f : Forest} (hf : f.WellFormed) {n : NodeId} (hn : f.isScope n = true)
    (h : (f.view n).Listable) :
    ∃ p, loadText f.newRoot.1 f.newRoot.2 false (f.listing n) = (p, .ok ()) ∧
      p.forest.view f.newRoot.2 = .node "" (f.view n).value 0 (bareAll (f.view n).children) := by
  have hd := Forest.view_distinct hf n
  rw [Forest.listing, Forest.path_of_isScope hn]
  generalize f.view n = t at h hd ⊢
  by_cases hinner : t.children = []
  · obtain ⟨k, v, flags, children⟩ := t
    obtain rfl : children = [] := hinner
    obtain rfl : v = .unset := h.unset
    have htext : (listing [] (.node k .unset flags [])).toList = ['=', '\n'] := by
      simp [listing, leafLines, dotted, Value.asText]
    -- the one line has no key, and is skipped
    rw [loadText, htext]
    exact ⟨_, rfl, Forest.view_newRoot hf⟩
  · have hlines : Text.lines (listing [] t).toList = t.entries.map lineChars ++ [[]] := by
      have hleaves := leafLines_eq t h.keys []
      rw [listing, hleaves, show within [] = id from rfl, List.map_id]
      exact lines_join (h.lineEntry hinner)
    obtain ⟨p, hload, hforest⟩ := loadLines_lines f.newRoot.2 false (h.lineEntry hinner)
      { forest := f.newRoot.1 } 1
    refine ⟨p, ?_, ?_⟩
    · rw [loadText, hlines]
      exact hload
    · rw [hforest]
      have hdots : t.KeysBelow ('.' ∉ ·.toList) :=
        h.keys.mono fun k hk hdot => (hk.2 '.' hdot).1 rfl
      exact Forest.view_writeLeaves_newRoot hf hd h.hollow hdots hinner

/-- Keys with a colon, a star and a comment sign, and a value with an equals sign. -/
theorem loadText_listing_signs : ∃ steps f p, Forest.Run steps f ∧
    loadText f.newRoot.1 f.newRoot.2 false (f.listing 0) = (p, .ok ()) ∧
    p.forest.view f.newRoot.2 = .node "" .unset 0
      [.node "a:int" .unset 0 [.node "#b" (.text "1=2") 0 []], .node "*" (.text "") 0 []] := by
  obtain ⟨steps, f, hrun, hscope, hview⟩ : ∃ steps f, Forest.Run steps f ∧ f.isScope 0 = true ∧
      f.view 0 = .node "" .unset 0
        [.node "a:int" .unset 0 [.node "#b" (.text "1=2") 0 []], .node "*" (.text "") 0 []] :=
    ⟨_, _, .step (.ofArgs [("a:int.#b", .text "1=2"), ("*", .text "")]) .start (by decide), rfl,
      rfl⟩
  have hlistable : (f.view 0).Listable := by
    rw [hview]
    have hline (k : String) (hne : k ≠ "") (h : (k.toList.all fun c => decide (c ≠ '.' ∧ c ≠ '=' ∧
        Text.isBlank c = false)) = true) : LineKey k := ⟨hne, List.all_iff_forall_prop.mp h⟩
    have hkeys : LineKey "a:int" ∧ LineKey "#b" ∧ LineKey "*" :=
      ⟨hline _ (by decide) (by decide), hline _ (by decide) (by decide),
        hline _ (by decide) (by decide)⟩
    have huntyped : Untyped "#b" ∧ Untyped "*" := by
      unfold Untyped
      decide
    have hfirst : LineValue (.text "1=2") := ⟨_, rfl, ⟨fun c hc => (by cases hc; rfl),
      fun c hc => (by cases hc; rfl)⟩, List.all_iff_forall_prop.mp (by decide)⟩
    have hsecond : LineValue (.text "") := ⟨_, rfl, ⟨fun c hc => (by cases hc),
      fun c hc => (by cases hc)⟩, List.all_iff_forall_prop.mp (by decide)⟩
    refine ⟨rfl, ?_, ?_, ?_, ?_⟩
    · simp [Hollow, HollowAll]
    · simp [KeysBelow, KeysBelowAll, Tree.key, hkeys]
    · simp [Tree.children, Tree.key]
    · simp [LeavesBelow, LeavesBelowAll, Tree.children, Tree.key, Tree.value, huntyped, hfirst,
        hsecond]
  obtain ⟨p, hload, hp⟩ := loadText_listing hrun.wellFormed hscope hlistable
  rw [hview] at hp
  exact ⟨steps, f, p, hrun, hload, hp⟩

end Load

end LayeredConf
