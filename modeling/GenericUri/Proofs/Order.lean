import GenericUri.Proofs.Reachable

/-!
# Order — references as keys

URIs are ordered by their texts alone, and so are relative references; among references a URI comes before a relative
reference, whatever their texts.  The orders are total (`Std.TransOrd`).  Two values that hold different parts but have
one text would be tied without being equal, but no such values can be made: what is well-formed is read back, so its text
tells it from all others of its kind, and from those of the other kind as well (`Reference.WellFormed.text_eq_iff`).
-/

namespace GenericUri

theorem ReadsBack.render_eq_iff {α : Type} [Component α] {a b : α} (ha : ReadsBack a) (hb : ReadsBack b) :
    render a = render b ↔ a = b :=
  ⟨ha.render_injective hb, congrArg render⟩

/-! ### URIs -/

namespace Uri

variable {u v : Uri}

instance : Std.TransOrd Uri := inferInstanceAs (Std.TransCmp (compareOn text))

theorem compare_eq_iff_text : compare u v = .eq ↔ u.text = v.text :=
  Std.LawfulEqOrd.compare_eq_iff_eq (a := u.text) (b := v.text)

/-- Well-formed URIs are tied only if they are equal. -/
theorem WellFormed.compare_eq_iff (hu : u.WellFormed) (hv : v.WellFormed) : compare u v = .eq ↔ u = v :=
  compare_eq_iff_text.trans (hu.readsBack.render_eq_iff hv.readsBack)

end Uri

/-! ### Relative references -/

namespace RelativeRef

variable {r s : RelativeRef}

instance : Std.TransOrd RelativeRef := inferInstanceAs (Std.TransCmp (compareOn text))

theorem compare_eq_iff_text : compare r s = .eq ↔ r.text = s.text :=
  Std.LawfulEqOrd.compare_eq_iff_eq (a := r.text) (b := s.text)

/-- Well-formed relative references are tied only if they are equal. -/
theorem WellFormed.compare_eq_iff (hr : r.WellFormed) (hs : s.WellFormed) : compare r s = .eq ↔ r = s :=
  compare_eq_iff_text.trans (hr.readsBack.render_eq_iff hs.readsBack)

end RelativeRef

/-! ### References -/

namespace Reference

variable {x y : Reference}

instance : Std.TransOrd Reference where
  eq_swap {x y} := by
    cases x <;> cases y
    case uri.uri u v => exact Std.OrientedOrd.eq_swap (a := u) (b := v)
    case relative.relative r s => exact Std.OrientedOrd.eq_swap (a := r) (b := s)
    all_goals rfl
  isLE_trans {x y z} := by
    cases x <;> cases y <;> cases z
    case uri.uri.uri u v w => exact Std.TransOrd.isLE_trans (a := u) (b := v) (c := w)
    case relative.relative.relative r s q => exact Std.TransOrd.isLE_trans (a := r) (b := s) (c := q)
    -- otherwise the conclusion puts a URI first, or a premise puts one last
    all_goals first | exact fun _ _ => rfl | exact nofun

/-- The text of a well-formed reference tells it from all others, also from those of the other kind. -/
theorem WellFormed.text_eq_iff (hx : x.WellFormed) (hy : y.WellFormed) : x.text = y.text ↔ x = y :=
  hx.readsBack.render_eq_iff hy.readsBack

theorem WellFormed.compare_eq_iff (hx : x.WellFormed) (hy : y.WellFormed) : compare x y = .eq ↔ x = y := by
  cases x with
  | uri u =>
    cases y with
    | uri v => exact (Uri.WellFormed.compare_eq_iff hx hy).trans (by rw [uri.injEq])
    | relative s => exact ⟨nofun, nofun⟩
  | relative r =>
    cases y with
    | uri v => exact ⟨nofun, nofun⟩
    | relative s => exact (RelativeRef.WellFormed.compare_eq_iff hx hy).trans (by rw [relative.injEq])

end Reference

/-- Whatever operations made two references, they are equal exactly if their texts are, and exactly if they are tied. -/
theorem compare_eq_iff_of_reachable :
    (∀ x y : Reference, Reachable (.reference x) → Reachable (.reference y) →
      (x = y ↔ x.text = y.text) ∧ (x.text = y.text ↔ compare x y = .eq)) ∧
      (∀ (u : Uri) (r : RelativeRef), Reachable (.uri u) → Reachable (.relativeRef r) → u.text ≠ r.text) ∧
        (∀ u v : Uri, Reachable (.uri u) → Reachable (.uri v) → (compare u v = .eq ↔ u = v)) ∧
          ∀ r s : RelativeRef, Reachable (.relativeRef r) → Reachable (.relativeRef s) → (compare r s = .eq ↔ r = s) := by
  refine ⟨?_, ?_, ?_, ?_⟩
  · intro x y hx hy
    have hwx : x.WellFormed := hx.wellFormed
    have hwy : y.WellFormed := hy.wellFormed
    have htext := hwx.text_eq_iff hwy
    exact ⟨htext.symm, htext.trans (hwx.compare_eq_iff hwy).symm⟩
  · intro u r hu hr htext
    have hwu : (Reference.uri u).WellFormed := hu.wellFormed
    have hwr : (Reference.relative r).WellFormed := hr.wellFormed
    cases (hwu.text_eq_iff hwr).1 htext
  · intro u v hu hv
    have hwu : u.WellFormed := hu.wellFormed
    exact hwu.compare_eq_iff hv.wellFormed
  · intro r s hr hs
    have hwr : r.WellFormed := hr.wellFormed
    exact hwr.compare_eq_iff hs.wellFormed

/-- The mark tells the paths `a:b` and `a:c` from the URIs with these characters. -/
theorem compare_of_marked_paths :
    let u (c : Char) := Uri.ofParts ⟨⟨['a']⟩, none⟩ ⟨.bare (.ofRootless [.ofValue [c]]), none, none⟩
    let r (c : Char) : RelativeRef := ⟨⟨.bare (.ofRootless [.ofValue ['a', ':', c]]), none, none⟩⟩
    let x := Reference.uri (u 'b')
    let y := Reference.relative (r 'b')
    (Reachable (.reference x) ∧ Reachable (.reference y) ∧ ∀ c, Reachable (.uri (u c)) ∧ Reachable (.relativeRef (r c))) ∧
      (x.text = "a:b".toList ∧ y.text = "./a:b".toList ∧ compare x y = .lt) ∧
        ((x = y ↔ x.text = y.text) ∧ (x.text = y.text ↔ compare x y = .eq)) ∧ (u 'b').text ≠ (r 'b').text ∧
          (compare (u 'b') (u 'c') = .eq ↔ u 'b' = u 'c') ∧ (compare (r 'b') (r 'c') = .eq ↔ r 'b' = r 'c') := by
  intro u r x y
  have hsegments : ∀ v : Text, ∀ s ∈ [Segment.ofValue v], Reachable (.segment s) := by
    intro v s hs
    obtain rfl := List.mem_singleton.1 hs
    exact .segmentValue
  have hscheme : Reachable (.scheme ⟨⟨['a']⟩, none⟩) := .schemeParse (t := ['a']) (by decide)
  have hu : ∀ c, Reachable (.uri (u c)) := fun c => .uri hscheme (.bare (.ofRootless (hsegments [c]))) nofun nofun
  have hr : ∀ c, Reachable (.relativeRef (r c)) := fun c =>
    .relativeRef (.bare (.ofRootless (hsegments ['a', ':', c]))) nofun nofun
  have hx : Reachable (.reference x) := .referenceUri (hu 'b')
  have hy : Reachable (.reference y) := .referenceRelative (hr 'b')
  obtain ⟨href, hne, huri, hrel⟩ := compare_eq_iff_of_reachable
  exact ⟨⟨hx, hy, fun c => ⟨hu c, hr c⟩⟩, ⟨by decide, by decide, by decide⟩, href x y hx hy, hne _ _ (hu 'b') (hr 'b'),
    huri _ _ (hu 'b') (hu 'c'), hrel _ _ (hr 'b') (hr 'c')⟩

end GenericUri
