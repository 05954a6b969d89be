import Mathlib.Logic.Relation

/-!
# Trails

Following a partial function from a point either comes to an end or goes on for ever.
`Trail next a l` says that it ends and that it passes the points of `l`, from `a` on.  Nodes lead to
their parents in this way, scopes to the scopes outside of them, and links to what they point at.

    Trail.unique       a point has one trail
    Trail.nodup        a trail passes no point twice
    Trail.length_le    so it is as long as there are points with a successor, and one more at most
    Ends.redirect      trails still end when one point is led to a trail that does not pass it
-/

namespace LayeredConf

inductive Trail {α : Type} (next : α → Option α) : α → List α → Prop
  | last {a : α} : next a = none → Trail next a [a]
  | step {a b : α} {l : List α} : next a = some b → Trail next b l → Trail next a (a :: l)

/-- Does following the function from here come to an end? -/
def Ends {α : Type} (next : α → Option α) (a : α) : Prop := ∃ l, Trail next a l

section

variable {α : Type} {next next' : α → Option α} {a b c p : α} {l l' : List α}

/-! ## One trail -/

theorem Trail.head_mem (h : Trail next a l) : a ∈ l := by
  cases h <;> simp

theorem Trail.length_pos (h : Trail next a l) : 0 < l.length := List.length_pos_of_mem h.head_mem

theorem Trail.unique (h : Trail next a l) (h' : Trail next a l') : l = l' := by
  induction h generalizing l' with
  | last hn =>
    cases h' with
    | last _ => rfl
    | step hs _ => rw [hn] at hs; cases hs
  | step hs _ ih =>
    cases h' with
    | last hn => rw [hn] at hs; cases hs
    | step hs' ht =>
      rw [hs] at hs'
      cases hs'
      rw [ih ht]

theorem Trail.of_mem (h : Trail next a l) (hb : b ∈ l) :
    ∃ l', Trail next b l' ∧ l' <:+ l := by
  induction h with
  | last hn =>
    rw [List.mem_singleton] at hb
    subst hb
    exact ⟨_, .last hn, List.suffix_rfl⟩
  | step hs ht ih =>
    rcases List.mem_cons.mp hb with rfl | hb
    · exact ⟨_, .step hs ht, List.suffix_rfl⟩
    · obtain ⟨l', hl', hle⟩ := ih hb
      exact ⟨l', hl', hle.trans (List.suffix_cons _ _)⟩

theorem Trail.nodup (h : Trail next a l) : l.Nodup := by
  induction h with
  | last hn => simp
  | step hs ht ih =>
    refine List.nodup_cons.mpr ⟨fun hm => ?_, ih⟩
    -- a point met again would have a trail shorter than its own
    obtain ⟨l', hl', hle⟩ := ht.of_mem hm
    have hlen := hle.length_le
    rw [← (Trail.step hs ht).unique hl', List.length_cons] at hlen
    omega

/-- A point on a trail is where it begins or comes after another one. -/
theorem Trail.exists_before (h : Trail next a l) (hb : b ∈ l) (hne : b ≠ a) :
    ∃ x ∈ l, next x = some b := by
  induction h with
  | last hn => exact absurd (List.mem_singleton.mp hb) hne
  | @step a c l hs ht ih =>
    by_cases hc : b = c
    · exact ⟨a, List.mem_cons_self, by rw [hc, hs]⟩
    · obtain ⟨x, hx, hxb⟩ := ih ((List.mem_cons.mp hb).resolve_left hne) hc
      exact ⟨x, List.mem_cons_of_mem _ hx, hxb⟩

/-- Every point on a trail but its last has a successor. -/
theorem Trail.exists_next (h : Trail next a l) : ∀ x ∈ l.dropLast, ∃ y, next x = some y := by
  induction h with
  | last hn => simp
  | step hs ht ih =>
    intro x hx
    rw [List.dropLast_cons_of_ne_nil (List.ne_nil_of_length_pos ht.length_pos)] at hx
    rcases List.mem_cons.mp hx with rfl | hx
    · exact ⟨_, hs⟩
    · exact ih x hx

/-- A trail on numbers of which only those below `n` have a successor. -/
theorem Trail.length_le {next : Nat → Option Nat} {a n : Nat} {l : List Nat}
    (h : Trail next a l) (hn : ∀ x y, next x = some y → x < n) : l.length ≤ n + 1 := by
  have hsub : l.dropLast ⊆ List.range n := by
    intro x hx
    obtain ⟨y, hy⟩ := h.exists_next x hx
    exact List.mem_range.mpr (hn x y hy)
  have hle := (h.nodup.sublist (List.dropLast_sublist l)).length_le_of_subset hsub
  rw [List.length_dropLast, List.length_range] at hle
  omega

theorem Trail.congr (h : Trail next a l) (heq : ∀ x ∈ l, next' x = next x) : Trail next' a l := by
  induction h with
  | last hn => exact .last (by rw [heq _ (by simp), hn])
  | step hs ht ih =>
    exact .step (by rw [heq _ (by simp), hs]) (ih fun x hx => heq x (by simp [hx]))

/-! ## Where trails end -/

theorem Ends.of_none (h : next a = none) : Ends next a := ⟨[a], .last h⟩

theorem Ends.of_some (h : next a = some b) (hb : Ends next b) : Ends next a := by
  obtain ⟨l, hl⟩ := hb
  exact ⟨a :: l, .step h hl⟩

theorem Ends.of_next (h : ∀ b, next a = some b → Ends next b) : Ends next a := by
  cases hn : next a with
  | none => exact .of_none hn
  | some b => exact .of_some hn (h b hn)

theorem Ends.of_eq_some (h : Ends next a) (hb : next a = some b) : Ends next b := by
  obtain ⟨l, hl⟩ := h
  cases hl with
  | last hn => rw [hn] at hb; cases hb
  | step hs ht =>
    rw [hs] at hb
    cases hb
    exact ⟨_, ht⟩

/-- A trail still ends when its points keep their successors or lead to an end in another way. -/
theorem Trail.ends_of (h : Trail next a l) (heq : ∀ x ∈ l, next' x = next x ∨ Ends next' x) :
    Ends next' a := by
  induction h with
  | last hn =>
    rcases heq _ List.mem_cons_self with h | h
    · exact .of_none (h.trans hn)
    · exact h
  | step hs ht ih =>
    rcases heq _ List.mem_cons_self with h | h
    · exact .of_some (h.trans hs) (ih fun x hx => heq x (List.mem_cons_of_mem _ hx))
    · exact h

/-- A trail that avoids `c` still ends when elsewhere points only lose their successor. -/
theorem Trail.ends_of_avoids (h : Trail next a l) (hc : c ∉ l)
    (heq : ∀ x, x ≠ c → next' x = next x ∨ next' x = none) : Ends next' a := by
  refine h.ends_of fun x hx => (heq x ?_).imp_right .of_none
  rintro rfl
  exact hc hx

/-- One point `c` is led to `p`, whose trail does not pass `c`; other points at most lose their
successor. -/
theorem Ends.redirect (hp : Trail next p l) (hc : c ∉ l)
    (heq : ∀ x, x ≠ c → next' x = next x ∨ next' x = none)
    (hnew : next' c = some p) (h : Ends next a) : Ends next' a := by
  have hend : Ends next' c := .of_some hnew (hp.ends_of_avoids hc heq)
  obtain ⟨l', hl'⟩ := h
  refine hl'.ends_of fun x _ => ?_
  by_cases hx : x = c
  · rw [hx]
    exact Or.inr hend
  · exact (heq x hx).imp_right .of_none

/-- Points that lose their successor, or keep it, still lead to an end. -/
theorem Ends.mono (heq : ∀ x, next' x = next x ∨ next' x = none) (h : Ends next a) :
    Ends next' a := by
  obtain ⟨l, hl⟩ := h
  exact hl.ends_of fun x _ => (heq x).imp_right .of_none

/-! ## What a point leads to -/

/-- `Leads next a b`: following the function from `a` comes to `b`. -/
def Leads {α : Type} (next : α → Option α) : α → α → Prop :=
  Relation.ReflTransGen fun a b => next a = some b

theorem Trail.mem_iff_leads (h : Trail next a l) : b ∈ l ↔ Leads next a b := by
  constructor
  · intro hb
    induction h with
    | last _ =>
      rw [List.mem_singleton] at hb
      rw [hb]
      exact .refl
    | step hs _ ih =>
      rcases List.mem_cons.mp hb with rfl | hb
      · exact .refl
      · exact .head hs (ih hb)
  · intro hb
    induction hb with
    | refl => exact h.head_mem
    | tail _ hs ih =>
      obtain ⟨l', hl', hsuf⟩ := h.of_mem ih
      cases hl' with
      | last hn => rw [hn] at hs; cases hs
      | step hs' ht =>
        rw [hs'] at hs
        cases hs
        exact hsuf.subset (List.mem_cons_of_mem _ ht.head_mem)

/-- A trail does not lead back to where it comes from. -/
theorem Trail.not_mem_of_next (h : Trail next b l) (hs : next a = some b) : a ∉ l :=
  (List.nodup_cons.mp (Trail.step hs h).nodup).1

theorem not_ends_of_eq_some_self (hs : next a = some a) : ¬ Ends next a := by
  rintro ⟨l, hl⟩
  exact hl.not_mem_of_next hs hl.head_mem

theorem Ends.not_leads (h : Ends next b) (hs : next a = some b) : ¬ Leads next b a := by
  obtain ⟨l, hl⟩ := h
  rw [← hl.mem_iff_leads]
  exact hl.not_mem_of_next hs

end

end LayeredConf
