/-!
# Text — characters in a row, and where they are cut

Every reader of this library works on a list of characters, so that a position is a count of characters.  A
separator is looked up from the front (`cutFirst`) or from the back (`cutLast`); the laws below say that a cut
loses nothing and that the separator does not occur on the searched side, and that `join` and splitting undo each
other.
-/

namespace GenericUri

/-- Text as its characters, first to last. -/
abbrev Text := List Char

/-- What is true of listed elements can be found out one by one. -/
theorem forall_mem_of_all {α : Type} {p : α → Prop} [DecidablePred p] {l : List α}
    (h : (l.all fun a => decide (p a)) = true) : ∀ a ∈ l, p a := by
  intro a ha
  exact of_decide_eq_true (List.all_eq_true.1 h a ha)

theorem forall_mem_some {α : Type} {p : α → Prop} {a : α} (h : p a) : ∀ x ∈ some a, p x := by
  intro x hx
  obtain rfl := Option.some.inj hx
  exact h

namespace Text

/-- The text before the first `sep` and the text after it. -/
def cutFirst (sep : Char) : Text → Option (Text × Text)
  | [] => none
  | c :: t => if c = sep then some ([], t) else (cutFirst sep t).map fun (l, r) => (c :: l, r)

/-- The text before the last `sep` and the text after it. -/
def cutLast (sep : Char) (t : Text) : Option (Text × Text) :=
  (cutFirst sep t.reverse).map fun (l, r) => (r.reverse, l.reverse)

/-- The text before the first `sep`, and the text after it if `sep` occurs at all. -/
def cutOff (sep : Char) (t : Text) : Text × Option Text :=
  match cutFirst sep t with
  | some (l, r) => (l, some r)
  | none => (t, none)

/-- The texts in order, `sep` between neighbours. -/
def join (sep : Char) (ts : List Text) : Text := [sep].intercalate ts

/-- ASCII letters in lower case, all else as it is. -/
def asciiLower (t : Text) : Text := t.map Char.toLower

/-- ASCII letters in upper case, all else as it is. -/
def asciiUpper (t : Text) : Text := t.map Char.toUpper

theorem toNat_ofNat {n : Nat} (h : n.isValidChar) : (Char.ofNat n).toNat = n := by
  rw [Char.ofNat, dif_pos h]
  rfl

/-! ### Laws of the cuts -/

theorem cutFirst_eq_none_iff {sep : Char} {t : Text} : cutFirst sep t = none ↔ sep ∉ t := by
  induction t with
  | nil => simp [cutFirst]
  | cons c t ih =>
    by_cases h : c = sep
    · simp [cutFirst, h]
    · simp [cutFirst, h, ih, Ne.symm h]

theorem cutFirst_eq_some_iff {sep : Char} {t l r : Text} :
    cutFirst sep t = some (l, r) ↔ t = l ++ sep :: r ∧ sep ∉ l := by
  induction t generalizing l with
  | nil => simp [cutFirst]
  | cons c t ih =>
    by_cases h : c = sep
    · subst h
      cases l with
      | nil => simp [cutFirst, eq_comm]
      | cons d l => simp +contextual [cutFirst]
    · cases l with
      | nil => simp [cutFirst, h]
      | cons d l =>
        simp only [cutFirst, if_neg h, Option.map_eq_some_iff, Prod.exists, Prod.mk.injEq,
          List.cons.injEq, List.cons_append, List.mem_cons, not_or]
        constructor
        · rintro ⟨l', r', hc, ⟨rfl, rfl⟩, rfl⟩
          obtain ⟨ht, hl⟩ := ih.1 hc
          exact ⟨⟨rfl, ht⟩, Ne.symm h, hl⟩
        · rintro ⟨⟨rfl, ht⟩, -, hl⟩
          exact ⟨l, r, ih.2 ⟨ht, hl⟩, ⟨rfl, rfl⟩, rfl⟩

theorem cutLast_eq_none_iff {sep : Char} {t : Text} : cutLast sep t = none ↔ sep ∉ t := by
  simp [cutLast, cutFirst_eq_none_iff]

theorem cutLast_eq_some_iff {sep : Char} {t l r : Text} :
    cutLast sep t = some (l, r) ↔ t = l ++ sep :: r ∧ sep ∉ r := by
  simp only [cutLast, Option.map_eq_some_iff, Prod.exists, Prod.mk.injEq]
  constructor
  · rintro ⟨a, b, h, rfl, rfl⟩
    obtain ⟨ht, ha⟩ := cutFirst_eq_some_iff.1 h
    refine ⟨?_, by simpa using ha⟩
    rw [← List.reverse_reverse t, ht]
    simp
  · rintro ⟨rfl, hr⟩
    exact ⟨r.reverse, l.reverse, cutFirst_eq_some_iff.2 ⟨by simp, by simpa using hr⟩, by simp⟩

/-- A text is cut at its last separator in one way. -/
theorem cut_unique {sep : Char} {l r l' r' : Text} (h : l ++ sep :: r = l' ++ sep :: r') (hr : sep ∉ r)
    (hr' : sep ∉ r') : l = l' ∧ r = r' := by
  have h1 : cutLast sep (l ++ sep :: r) = some (l, r) := cutLast_eq_some_iff.2 ⟨rfl, hr⟩
  have h2 : cutLast sep (l ++ sep :: r) = some (l', r') := cutLast_eq_some_iff.2 ⟨h, hr'⟩
  simpa using h1.symm.trans h2

@[simp] theorem join_nil (sep : Char) : join sep [] = [] := rfl

@[simp] theorem join_singleton (sep : Char) (t : Text) : join sep [t] = t := List.intercalate_singleton

theorem join_cons_cons (sep : Char) (t u : Text) (ts : List Text) :
    join sep (t :: u :: ts) = t ++ sep :: join sep (u :: ts) := by
  simp [join, List.intercalate_cons_cons]

theorem join_cons_of_ne_nil {sep : Char} {t : Text} {ts : List Text} (h : ts ≠ []) :
    join sep (t :: ts) = t ++ sep :: join sep ts := by
  cases ts with
  | nil => exact absurd rfl h
  | cons u ts => exact join_cons_cons sep t u ts

/-- A separator stands between two texts, and any other character in one. -/
theorem mem_join_iff {sep c : Char} {ts : List Text} :
    c ∈ join sep ts ↔ (c = sep ∧ 1 < ts.length) ∨ ∃ t ∈ ts, c ∈ t := by
  induction ts with
  | nil => simp
  | cons t ts ih =>
    cases ts with
    | nil => simp
    | cons u ts =>
      have hlength : 1 < (t :: u :: ts).length := by simp
      have hmem : (∃ v ∈ t :: u :: ts, c ∈ v) ↔ c ∈ t ∨ ∃ v ∈ u :: ts, c ∈ v := by
        simp only [List.mem_cons, exists_eq_or_imp]
      rw [join_cons_cons, List.mem_append, List.mem_cons, ih, hmem]
      constructor
      · rintro (h | h | h | h)
        · exact .inr (.inl h)
        · exact .inl ⟨h, hlength⟩
        · exact .inl ⟨h.1, hlength⟩
        · exact .inr (.inr h)
      · rintro (h | h | h)
        · exact .inr (.inl h.1)
        · exact .inl h
        · exact .inr (.inr (.inr h))

theorem mem_join {sep c : Char} {ts : List Text} (h : c ∈ join sep ts) : c = sep ∨ ∃ t ∈ ts, c ∈ t :=
  (mem_join_iff.1 h).imp_left And.left

theorem join_splitOn (sep : Char) (t : Text) : join sep (t.splitOn sep) = t :=
  List.intercalate_splitOn sep

theorem splitOn_join {sep : Char} {ts : List Text} (h : ∀ t ∈ ts, sep ∉ t) (hne : ts ≠ []) :
    (join sep ts).splitOn sep = ts :=
  List.splitOn_intercalate sep h hne

theorem cutOff_of_not_mem {sep : Char} {t : Text} (h : sep ∉ t) : cutOff sep t = (t, none) := by
  simp [cutOff, cutFirst_eq_none_iff.2 h]

theorem cutOff_append {sep : Char} {l : Text} (h : sep ∉ l) (r : Text) :
    cutOff sep (l ++ sep :: r) = (l, some r) := by
  simp [cutOff, cutFirst_eq_some_iff.2 ⟨rfl, h⟩]

/-- What stands before a separator is part of the text and has no separator. -/
theorem mem_cutOff {sep c : Char} {t : Text} (h : c ∈ (cutOff sep t).1) : c ∈ t ∧ c ≠ sep := by
  unfold cutOff at h
  split at h
  · next l r hcut =>
    obtain ⟨rfl, hl⟩ := cutFirst_eq_some_iff.1 hcut
    exact ⟨List.mem_append_left _ h, fun hc => hl (hc ▸ h)⟩
  · next hcut => exact ⟨h, fun hc => cutFirst_eq_none_iff.1 hcut (hc ▸ h)⟩

/-- What `cutOff` cuts apart makes the text again. -/
theorem append_of_cutOff (sep : Char) (t : Text) :
    ((cutOff sep t).1 ++ (cutOff sep t).2.elim [] fun r => sep :: r) = t := by
  unfold cutOff
  split
  · next l r h => exact (cutFirst_eq_some_iff.1 h).1.symm
  · exact List.append_nil t

theorem head?_elim {sep : Char} {seps : List Char} (h : sep ∈ seps) (r : Option Text) :
    ∀ c ∈ (r.elim [] fun r => sep :: r).head?, c ∈ seps := by
  cases r with
  | none => exact nofun
  | some r => exact forall_mem_some h

theorem head?_append {seps : List Char} {l r : Text} (hl : ∀ c ∈ l.head?, c ∈ seps) (hr : ∀ c ∈ r.head?, c ∈ seps) :
    ∀ c ∈ (l ++ r).head?, c ∈ seps := by
  cases l with
  | nil => exact hr
  | cons c l => exact hl

theorem cutOff_append_elim {sep : Char} {l : Text} (h : sep ∉ l) (r : Option Text) :
    cutOff sep (l ++ r.elim [] fun r => sep :: r) = (l, r) := by
  cases r with
  | none => rw [Option.elim_none, List.append_nil, cutOff_of_not_mem h]
  | some r => exact cutOff_append h r

theorem cutOff_eq_iff {sep : Char} {t l : Text} {r : Option Text} :
    cutOff sep t = (l, r) ↔ t = (l ++ r.elim [] fun r => sep :: r) ∧ sep ∉ l := by
  constructor
  · intro h
    have happend := append_of_cutOff sep t
    have hmem : ∀ c ∈ (cutOff sep t).1, c ≠ sep := fun c hc => (mem_cutOff hc).2
    rw [h] at happend hmem
    exact ⟨happend.symm, fun hl => hmem sep hl rfl⟩
  · rintro ⟨rfl, hl⟩
    exact cutOff_append_elim hl r

end Text
end GenericUri
