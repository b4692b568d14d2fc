import GenericUri.Proofs.Percent

/-!
# Runs — the escapes that are decoded together

Text decodes if the octets of each maximal run of escapes are UTF-8.  `MaximalRunsUtf8` says this of the text itself,
and `maximalRunsUtf8_iff` that the reader's symbols tell the same runs: symbols are found the same way from both sides
of a run, since no escape can start within another.

A separator is no part of an escape, so the runs of a text are those of the pieces between separators
(`maximalRunsUtf8_append_cons`).
-/

namespace GenericUri.Percent

variable {t u v l r : Text} {ts us vs : List Token} {run bytes : List UInt8} {b : UInt8} {c : Char}

/-! ### Escapes in a text -/

/-- A text of escapes and the octets that they stand for: after each `%` two hex digits. -/
inductive Escapes : Text → List UInt8 → Prop
  | nil : Escapes [] []
  | cons {h l : Char} {a b : Nat} {t : Text} {bytes : List UInt8} (hh : hexValue? h = some a)
      (hl : hexValue? l = some b) (ht : Escapes t bytes) :
      Escapes ('%' :: h :: l :: t) (UInt8.ofNat (16 * a + b) :: bytes)

/-- Whether every run of escapes with no escape right before and none right after it stands for UTF-8. -/
def MaximalRunsUtf8 (t : Text) : Prop :=
  ∀ front run back bytes, t = front ++ run ++ back → Escapes run bytes →
    (¬ ∃ u e b, front = u ++ e ∧ Escapes e [b]) → (¬ ∃ e u b, back = e ++ u ∧ Escapes e [b]) → IsUtf8 bytes

theorem tokens_append_of_escapes (h : Escapes t bytes) (r : Text) : tokens (t ++ r) = bytes.map .octet ++ tokens r := by
  induction h with
  | nil => rfl
  | @cons h l a b t bytes hh hl _ ih =>
    show tokens ('%' :: h :: l :: (t ++ r)) = _
    simp only [tokens, hh, hl, ih]
    rfl

theorem tokens_of_escapes (h : Escapes t bytes) : tokens t = bytes.map .octet := by
  have := tokens_append_of_escapes h []
  rwa [List.append_nil, tokens_nil, List.append_nil] at this

theorem escapes_of_tokens (h : tokens t = bytes.map .octet) : Escapes t bytes := by
  fun_induction tokens t generalizing bytes with
  | case1 =>
    obtain rfl := List.map_eq_nil_iff.1 h.symm
    exact .nil
  | case2 h' l t a b hl hh ih =>
    cases bytes with
    | nil => cases h
    | cons d bytes =>
      obtain ⟨hd, ht⟩ := List.cons.inj h
      obtain rfl := Token.octet.inj hd
      exact .cons hh hl (ih ht)
  | case3 h' l t hno ih => cases bytes <;> cases h
  | case4 c t hno ih =>
    cases bytes with
    | nil => cases h
    | cons d bytes =>
      obtain ⟨hd, -⟩ := List.cons.inj h
      split at hd <;> cases hd

/-! ### Symbols of text in parts -/

/-- A text starts with an escape, or its first symbol is its first character, whatever stands further on. -/
theorem tokens_cons_cases (c : Char) (t : Text) :
    (∃ x y r a b, c = '%' ∧ t = x :: y :: r ∧ hexValue? x = some a ∧ hexValue? y = some b) ∨
      ∀ u v, t = u ++ v → tokens (c :: u) = (if c = '%' then .stray else .raw c) :: tokens u := by
  by_cases hesc : ∃ x y r a b, c = '%' ∧ t = x :: y :: r ∧ hexValue? x = some a ∧ hexValue? y = some b
  · exact .inl hesc
  refine .inr ?_
  rintro u v rfl
  by_cases hc : c = '%'
  · subst hc
    rcases u with _ | ⟨x, _ | ⟨y, u⟩⟩
    · rfl
    · rfl
    · rw [tokens, if_pos rfl]
      split
      · next a b hx hy => exact absurd ⟨x, y, u ++ v, a, b, rfl, rfl, hx, hy⟩ hesc
      · rfl
  · rw [tokens_raw hc, if_neg hc]

theorem tokens_escape_cons {x y : Char} {a b : Nat} (hx : hexValue? x = some a) (hy : hexValue? y = some b) (t : Text) :
    tokens ('%' :: x :: y :: t) = .octet (UInt8.ofNat (16 * a + b)) :: tokens t := by
  simp only [tokens, hx, hy]

/-- What is no hex digit takes no part in an escape before it. -/
theorem tokens_append (hc : hexValue? c = none) (l r : Text) : tokens (l ++ c :: r) = tokens l ++ tokens (c :: r) := by
  induction hn : l.length using Nat.strongRecOn generalizing l with
  | ind n ih =>
    rcases l with _ | ⟨d, l⟩
    · rfl
    subst hn
    rcases tokens_cons_cases d (l ++ c :: r) with ⟨x, y, rest, a, b, rfl, hrest, hx, hy⟩ | hplain
    · -- the two digits stand before `c`, which is none
      rcases l with _ | ⟨x', _ | ⟨y', l⟩⟩
      · simp only [List.nil_append, List.cons.injEq] at hrest
        rw [← hrest.1, hc] at hx
        cases hx
      · simp only [List.cons_append, List.nil_append, List.cons.injEq] at hrest
        rw [← hrest.2.1, hc] at hy
        cases hy
      · simp only [List.cons_append, List.cons.injEq] at hrest
        obtain ⟨rfl, rfl, -⟩ := hrest
        have hl := ih l.length (by simp only [List.length_cons]; omega) l rfl
        show tokens ('%' :: x' :: y' :: (l ++ c :: r)) = _
        rw [tokens_escape_cons hx hy, tokens_escape_cons hx hy, hl]
        rfl
    · have hl := ih l.length (Nat.lt_succ_self _) l rfl
      rw [List.cons_append, hplain _ [] (List.append_nil _).symm, hplain l _ rfl, hl]
      rfl

/-- Where symbols are cut apart, so is the text. -/
theorem eq_append_of_tokens (h : tokens t = us ++ vs) : ∃ u v, t = u ++ v ∧ tokens u = us ∧ tokens v = vs := by
  induction us generalizing t with
  | nil => exact ⟨[], t, rfl, rfl, h⟩
  | cons tk us ih =>
    rcases t with _ | ⟨c, t⟩
    · cases h
    rcases tokens_cons_cases c t with ⟨x, y, r, a, b, rfl, rfl, hx, hy⟩ | hplain
    · rw [tokens_escape_cons hx hy] at h
      obtain ⟨htk, hr⟩ := List.cons.inj h
      obtain ⟨u, v, rfl, hu, hv⟩ := ih hr
      refine ⟨'%' :: x :: y :: u, v, rfl, ?_, hv⟩
      rw [tokens_escape_cons hx hy, hu, htk]
    · rw [hplain t [] (List.append_nil t).symm] at h
      obtain ⟨htk, hr⟩ := List.cons.inj h
      obtain ⟨u, v, rfl, hu, hv⟩ := ih hr
      refine ⟨c :: u, v, rfl, ?_, hv⟩
      rw [hplain u v rfl, hu, htk]

/-! ### Maximal runs -/

/-- No escape ends the symbols. -/
def EndsPlain (ts : List Token) : Prop := ∀ us b, ts ≠ us ++ [.octet b]

theorem EndsPlain.nil : EndsPlain [] := by
  intro us b h
  simp at h

theorem EndsPlain.concat {tk : Token} (h : ∀ b, tk ≠ .octet b) (ts : List Token) : EndsPlain (ts ++ [tk]) := by
  intro us b heq
  obtain ⟨-, htk⟩ := List.append_inj' heq rfl
  exact h b (List.cons.inj htk).1

/-- The runs after symbols that no escape ends are runs by themselves. -/
theorem RunsDecode.of_append (hts : EndsPlain ts) (h : RunsDecode run (ts ++ us)) : ts ≠ [] → RunsDecode [] us := by
  induction ts generalizing run with
  | nil => exact fun hne => absurd rfl hne
  | cons tk ts ih =>
    intro _
    have hrest : EndsPlain ts := by
      rintro vs b rfl
      exact hts (tk :: vs) b rfl
    by_cases hnil : ts = []
    · subst hnil
      cases tk with
      | octet b => exact absurd rfl (hts [] b)
      | raw c => exact h.2
      | stray => exact h.2
    · cases tk with
      | octet b => exact ih hrest h hnil
      | raw c => exact ih hrest h.2 hnil
      | stray => exact ih hrest h.2 hnil

/-- Octets that the next symbol does not continue are UTF-8. -/
theorem RunsDecode.isUtf8_of_head? (hus : ∀ b, us.head? ≠ some (.octet b)) (h : RunsDecode run us) : IsUtf8 run := by
  cases us with
  | nil => exact h
  | cons tk us =>
    cases tk with
    | octet b => exact absurd rfl (hus b)
    | raw c => exact h.1
    | stray => exact h.1

theorem tokens_append_escapes (h : Escapes r bytes) (l : Text) : tokens (l ++ r) = tokens l ++ tokens r := by
  cases h with
  | nil => simp
  | cons hh hl ht => exact tokens_append (by decide) l _

theorem EndsPlain.not_escape_last (h : EndsPlain (tokens t)) : ¬ ∃ u e b, t = u ++ e ∧ Escapes e [b] := by
  rintro ⟨u, e, b, rfl, he⟩
  refine h (tokens u) b ?_
  rw [tokens_append_escapes he, tokens_of_escapes he]
  rfl

/-- Symbols of escapes that no escape precedes or follows come from a maximal run. -/
theorem MaximalRunsUtf8.isUtf8_of_tokens (h : MaximalRunsUtf8 t) (heq : tokens t = us ++ run.map .octet ++ vs)
    (hus : EndsPlain us) (hvs : ∀ b, vs.head? ≠ some (.octet b)) : IsUtf8 run := by
  obtain ⟨uv, w, rfl, huv, rfl⟩ := eq_append_of_tokens heq
  obtain ⟨u, v, rfl, rfl, hv⟩ := eq_append_of_tokens huv
  refine h u v w run rfl (escapes_of_tokens hv) ?_ ?_
  · exact hus.not_escape_last
  · rintro ⟨e, w', b, rfl, he⟩
    refine hvs b ?_
    rw [tokens_append_of_escapes he]
    rfl

/-- The symbols read so far end in the escapes of `run`, and no escape stands before these. -/
theorem MaximalRunsUtf8.runsDecode (h : MaximalRunsUtf8 t) (heq : tokens t = us ++ run.map .octet ++ vs)
    (hus : EndsPlain us) : RunsDecode run vs := by
  induction vs generalizing us run with
  | nil => exact h.isUtf8_of_tokens heq hus nofun
  | cons tk vs ih =>
    have hnext : (∀ b, tk ≠ .octet b) → IsUtf8 run ∧ RunsDecode [] vs := by
      intro htk
      have hrest : tokens t = (us ++ run.map .octet ++ [tk]) ++ [].map .octet ++ vs := by simpa using heq
      refine ⟨h.isUtf8_of_tokens heq hus ?_, ih hrest (EndsPlain.concat htk _)⟩
      intro b hb
      exact htk b (Option.some.inj hb)
    cases tk with
    | octet b =>
      have hlonger : tokens t = us ++ (run ++ [b]).map .octet ++ vs := by simpa using heq
      exact ih hlonger hus
    | raw c => exact hnext nofun
    | stray => exact hnext nofun

theorem RunsDecode.maximalRunsUtf8 (h : RunsDecode [] (tokens t)) : MaximalRunsUtf8 t := by
  rintro front run back bytes rfl hrun hfront hback
  by_cases hnil : bytes = []
  · rw [hnil]
    exact isUtf8_nil
  have htokens : tokens (front ++ run ++ back) = tokens front ++ (bytes.map .octet ++ tokens back) := by
    rw [← tokens_append_of_escapes hrun, List.append_assoc]
    cases hrun with
    | nil => exact absurd rfl hnil
    | cons hh hl ht => exact tokens_append (by decide) front _
  rw [htokens] at h
  have hfirst : EndsPlain (tokens front) := by
    intro us b heq
    obtain ⟨u, e, rfl, -, he⟩ := eq_append_of_tokens heq
    exact hfront ⟨u, e, b, rfl, escapes_of_tokens he⟩
  have hlast : ∀ b, (tokens back).head? ≠ some (.octet b) := by
    intro b hb
    obtain ⟨ts, heq⟩ := List.head?_eq_some_iff.1 hb
    have hsplit : tokens back = [.octet b] ++ ts := heq
    obtain ⟨e, u, rfl, he, -⟩ := eq_append_of_tokens hsplit
    exact hback ⟨e, u, b, rfl, escapes_of_tokens he⟩
  have hrest : RunsDecode [] (bytes.map .octet ++ tokens back) := by
    by_cases hts : tokens front = []
    · rwa [hts] at h
    · exact h.of_append hfirst hts
  rw [runsDecode_octets] at hrest
  exact hrest.isUtf8_of_head? hlast

/-- The symbols tell the maximal runs of a text. -/
theorem maximalRunsUtf8_iff (t : Text) : MaximalRunsUtf8 t ↔ RunsDecode [] (tokens t) := by
  refine ⟨?_, RunsDecode.maximalRunsUtf8⟩
  intro h
  have hall : tokens t = [] ++ [].map .octet ++ tokens t := rfl
  exact h.runsDecode hall .nil

/-! ### Runs and separators -/

theorem runsDecode_append_raw (ts us : List Token) (c : Char) :
    RunsDecode run (ts ++ .raw c :: us) ↔ RunsDecode run ts ∧ RunsDecode [] us := by
  induction ts generalizing run with
  | nil => rfl
  | cons tk ts ih =>
    cases tk with
    | octet b => exact ih
    | raw d =>
      show IsUtf8 run ∧ RunsDecode [] (ts ++ .raw c :: us) ↔ (IsUtf8 run ∧ RunsDecode [] ts) ∧ RunsDecode [] us
      rw [ih, and_assoc]
    | stray =>
      show IsUtf8 run ∧ RunsDecode [] (ts ++ .raw c :: us) ↔ (IsUtf8 run ∧ RunsDecode [] ts) ∧ RunsDecode [] us
      rw [ih, and_assoc]

@[simp] theorem maximalRunsUtf8_nil : MaximalRunsUtf8 [] := (maximalRunsUtf8_iff []).2 isUtf8_nil

/-- No run crosses a separator. -/
theorem maximalRunsUtf8_append_cons (hp : c ≠ '%') (hc : hexValue? c = none) (l r : Text) :
    MaximalRunsUtf8 (l ++ c :: r) ↔ MaximalRunsUtf8 l ∧ MaximalRunsUtf8 r := by
  rw [maximalRunsUtf8_iff, maximalRunsUtf8_iff, maximalRunsUtf8_iff, tokens_append hc, tokens_raw hp,
    runsDecode_append_raw]

theorem maximalRunsUtf8_cons (hp : c ≠ '%') (t : Text) : MaximalRunsUtf8 (c :: t) ↔ MaximalRunsUtf8 t := by
  rw [maximalRunsUtf8_iff, maximalRunsUtf8_iff, tokens_raw hp]
  exact ⟨fun h => h.2, fun h => ⟨isUtf8_nil, h⟩⟩

theorem maximalRunsUtf8_of_not_mem (h : '%' ∉ t) : MaximalRunsUtf8 t := by
  induction t with
  | nil => exact maximalRunsUtf8_nil
  | cons c t ih =>
    rw [List.mem_cons, not_or] at h
    exact (maximalRunsUtf8_cons (Ne.symm h.1) t).2 (ih h.2)

end GenericUri.Percent
