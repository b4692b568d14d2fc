import GenericUri.Proofs.Components
import GenericUri.Proofs.Runs

/-!
# Canonical — texts that are read as one component

A text read as raw characters and escaped octets (`ReadAs`) can be compared with another up to a change of symbols
(`SameUnder`): as it is, which leaves the case of hex digits out of account, or without needless escapes.  The canonical
spelling and the normal one stand for these two equivalences, so two texts are read as the same query or fragment, or as
the same value segment, exactly if they are equivalent (`parse_eq_iff_same`).

What is read stands for what the text decodes to.  For segments this has to get past the escaped spellings of `.` and
`..`: the text of a guarded spelling has that spelling as its normal one (`Segment.normalise_text_guarded`).
-/

namespace GenericUri

namespace Percent

variable {allowed : CharSet} {f : Token → Token} {t u v w s : Text} {ts us : List Token}

/-! ### Texts and their symbols -/

/-- A text read as raw characters and escaped octets. -/
inductive ReadAs : Text → List Token → Prop
  | nil : ReadAs [] []
  | raw {c : Char} {t : Text} {ts : List Token} (hp : c ≠ '%') (h : ReadAs t ts) : ReadAs (c :: t) (.raw c :: ts)
  | octet {e t : Text} {b : UInt8} {ts : List Token} (he : Escapes e [b]) (h : ReadAs t ts) :
      ReadAs (e ++ t) (.octet b :: ts)

/-- Two texts have the same symbols once `f` has changed those of both. -/
def SameUnder (f : Token → Token) (t u : Text) : Prop :=
  ∃ ts us, ReadAs t ts ∧ ReadAs u us ∧ ts.map f = us.map f

theorem ReadAs.tokens_eq (h : ReadAs t ts) : tokens t = ts := by
  induction h with
  | nil => rfl
  | raw hp _ ih => rw [tokens_raw hp, ih]
  | octet he _ ih =>
    rw [tokens_append_of_escapes he, ih]
    rfl

theorem readAs_tokens (h : ∀ tk ∈ tokens t, tk.Proper) : ReadAs t (tokens t) := by
  fun_induction tokens t with
  | case1 => exact .nil
  | case2 x y t a b hy hx ih => exact .octet (.cons hx hy .nil) (ih (List.forall_mem_cons.1 h).2)
  | case3 x y t hno ih => exact (List.forall_mem_cons.1 h).1.elim
  | case4 c t hno ih =>
    obtain ⟨hc, ht⟩ := List.forall_mem_cons.1 h
    by_cases hp : c = '%'
    · rw [if_pos hp] at hc
      exact hc.elim
    · rw [if_neg hp]
      exact .raw hp (ih ht)

/-- Texts that decode have their symbols in one way. -/
theorem sameUnder_iff (ht : ∀ tk ∈ tokens t, tk.Proper) (hu : ∀ tk ∈ tokens u, tk.Proper) :
    SameUnder f t u ↔ (tokens t).map f = (tokens u).map f := by
  constructor
  · rintro ⟨ts, us, hts, hus, h⟩
    rwa [hts.tokens_eq, hus.tokens_eq]
  · exact fun h => ⟨tokens t, tokens u, readAs_tokens ht, readAs_tokens hu, h⟩

/-- Spellings that are made of changed symbols are equal if these are. -/
theorem flatMap_text_inj (hts : ∀ tk ∈ ts, tk.Proper) (hus : ∀ tk ∈ us, tk.Proper) :
    ts.flatMap Token.text = us.flatMap Token.text ↔ ts = us := by
  refine ⟨fun h => ?_, fun h => by rw [h]⟩
  rw [← tokens_flatMap_text hts, h, tokens_flatMap_text hus]

theorem canonicalise_eq_iff_same (hv : canonicalise allowed t = .ok v) (hw : canonicalise allowed u = .ok w) :
    v = w ↔ SameUnder id t u := by
  obtain ⟨⟨_, ht⟩, rfl⟩ := canonicalise_eq_ok_iff.1 hv
  obtain ⟨⟨_, hu⟩, rfl⟩ := canonicalise_eq_ok_iff.1 hw
  have hpt := proper_of_decode ht
  have hpu := proper_of_decode hu
  rw [sameUnder_iff hpt hpu, flatMap_text_inj hpt hpu, List.map_id, List.map_id]

theorem normalise_eq_iff_same (hv : normalise allowed t = .ok v) (hw : normalise allowed u = .ok w) :
    v = w ↔ SameUnder Token.plain t u := by
  obtain ⟨⟨_, ht⟩, rfl⟩ := normalise_eq_ok_iff.1 hv
  obtain ⟨⟨_, hu⟩, rfl⟩ := normalise_eq_ok_iff.1 hw
  have hpt := proper_of_decode ht
  have hpu := proper_of_decode hu
  rw [sameUnder_iff hpt hpu, flatMap_plainText, flatMap_plainText,
    flatMap_text_inj (proper_map_plain hpt) (proper_map_plain hpu)]

/-! ### What a spelling stands for -/

theorem decode_mono {larger : CharSet} (hsub : ∀ c, allowed.contains c = true → larger.contains c = true)
    (h : decode allowed t = .ok s) : decode larger t = .ok s := by
  obtain ⟨hf, hruns, hs⟩ := decode_eq_ok_iff.1 h
  refine decode_eq_ok_iff.2 ⟨fun tk htk => ?_, hruns, hs⟩
  cases tk with
  | raw c => exact hsub c (hf _ htk)
  | octet b => trivial
  | stray => exact hf _ htk

theorem value_of_decode (h : decode allowed t = .ok s) : value t = s := by
  have heverything := decode_mono (fun c _ => CharSet.contains_everything c) h
  rw [value, heverything]

end Percent

/-! ### Segments -/

namespace Segment

variable {a : Segment} {t v w s : Text}

/-- The normal spelling of what a guarded spelling is written as. -/
theorem normalise_text_guarded (h : Percent.normalise .pchar v = .ok v) :
    Percent.normalise .pchar (guarded v).text = .ok v := by
  unfold guarded
  split
  · next hstep => exact normalise_escaped_step hstep
  · exact h

theorem guarded_inj (hv : Percent.normalise .pchar v = .ok v) (hw : Percent.normalise .pchar w = .ok w) :
    guarded v = guarded w ↔ v = w := by
  refine ⟨fun h => ?_, fun h => by rw [h]⟩
  have hnormal := normalise_text_guarded hv
  rw [h, normalise_text_guarded hw] at hnormal
  exact (Except.ok.inj hnormal).symm

/-- A guarded spelling keeps what the spelling stands for. -/
theorem value?_guarded (h : Percent.decode .pchar v = .ok s) : (guarded v).value? = some s := by
  unfold guarded
  split
  · next hstep =>
    have hs : s = v := by
      rcases hstep with rfl | rfl <;> exact (Except.ok.inj h).symm
    rw [value?, Percent.value_of_decode (Percent.decode_encode_nothing .pchar v), hs]
  · rw [value?, Percent.value_of_decode h]

theorem exists_normalise_of_parse (ht : t ∉ [['.'], ['.', '.']]) (h : parse Segment t = .ok a) :
    ∃ v, Percent.normalise .pchar t = .ok v ∧ guarded v = a := by
  rw [List.mem_cons, List.mem_singleton, not_or] at ht
  exact (read_eq_ok_iff_of_ne ht.1 ht.2).1 (parse_eq_ok_iff.1 h)

end Segment

/-- Texts of values are read as the same segment if they are the same without needless escapes, and texts are read as the
same query or fragment if they are the same but for the case of hex digits.  What is read stands for what the text
decodes to. -/
theorem parse_eq_iff_same :
    (∀ (t u : Text) (a b : Segment), t ∉ [['.'], ['.', '.']] → u ∉ [['.'], ['.', '.']] →
        parse Segment t = .ok a → parse Segment u = .ok b →
          (a = b ↔ Percent.SameUnder Percent.Token.plain t u) ∧
            ∃ d, Percent.decode .pchar t = .ok d ∧ a.value? = some d) ∧
      ∀ (kind : TailKind) (t u : Text) (a b : Tail kind),
        parse (Tail kind) t = .ok a → parse (Tail kind) u = .ok b →
          (a = b ↔ Percent.SameUnder id t u) ∧
            ∃ d, Percent.decode .queryOrFragment t = .ok d ∧ a.value = d := by
  constructor
  · intro t u a b ht hu ha hb
    obtain ⟨v, hv, rfl⟩ := Segment.exists_normalise_of_parse ht ha
    obtain ⟨w, hw, rfl⟩ := Segment.exists_normalise_of_parse hu hb
    have hnormal {t v : Text} (h : Percent.normalise .pchar t = .ok v) : Percent.normalise .pchar v = .ok v :=
      Percent.normalise_normalise Segment.pchar_of_unreserved h
    obtain ⟨⟨d, hd⟩, -⟩ := Percent.normalise_eq_ok_iff.1 hv
    refine ⟨?_, d, hd, Segment.value?_guarded ?_⟩
    · rw [Segment.guarded_inj (hnormal hv) (hnormal hw), Percent.normalise_eq_iff_same hv hw]
    · rw [Percent.decode_of_normalise Segment.pchar_of_unreserved hv, hd]
  · intro kind t u a b ha hb
    have hv := Tail.canonicalise_of_read (parse_eq_ok_iff.1 ha)
    have hw := Tail.canonicalise_of_read (parse_eq_ok_iff.1 hb)
    obtain ⟨⟨d, hd⟩, -⟩ := Percent.canonicalise_eq_ok_iff.1 hv
    refine ⟨?_, d, hd, Percent.value_of_decode ((Percent.decode_of_canonicalise hv).trans hd)⟩
    rw [← Percent.canonicalise_eq_iff_same hv hw]
    obtain ⟨v⟩ := a
    obtain ⟨w⟩ := b
    rw [Tail.mk.injEq]

/-- The tilde and the case of hex digits make no difference to a segment, and the tilde makes one to a query.  A segment of
escaped dots is a value. -/
theorem parse_eq_iff_same_tilde :
    let t := "%7e%2541%c3%a9".toList
    let u := "~%2541%C3%A9".toList
    let dots := "%2e.".toList
    (parse Segment t = .ok (.value u) ∧ parse Segment u = .ok (.value u) ∧
      parse Segment dots = .ok (.value "%2E%2E".toList)) ∧
      (parse Query t = .ok ⟨"%7E%2541%C3%A9".toList⟩ ∧ parse Query u = .ok ⟨u⟩) ∧
        Percent.SameUnder Percent.Token.plain t u ∧ ¬ Percent.SameUnder id t u ∧
          ¬ Percent.SameUnder Percent.Token.plain t dots ∧
            (Segment.value "%2E%2E".toList).value? = some "..".toList := by
  intro t u dots
  have ht : parse Segment t = .ok (.value u) := by decide
  have hu : parse Segment u = .ok (.value u) := by decide
  have hdots : parse Segment dots = .ok (.value "%2E%2E".toList) := by decide
  have htq : parse Query t = .ok ⟨"%7E%2541%C3%A9".toList⟩ := by decide
  have huq : parse Query u = .ok ⟨u⟩ := by decide
  refine ⟨⟨ht, hu, hdots⟩, ⟨htq, huq⟩, ?_, ?_, ?_, ?_⟩
  · exact (parse_eq_iff_same.1 t u _ _ (by decide) (by decide) ht hu).1.1 rfl
  · exact mt (parse_eq_iff_same.2 .query t u _ _ htq huq).1.2 (by decide)
  · exact mt (parse_eq_iff_same.1 t dots _ _ (by decide) (by decide) ht hdots).1.2 (by decide)
  · obtain ⟨d, hd, hvalue⟩ := (parse_eq_iff_same.1 dots dots _ _ (by decide) (by decide) hdots hdots).2
    have hdecode : Percent.decode .pchar dots = .ok "..".toList := by decide
    rw [hvalue, Except.ok.inj (hd.symm.trans hdecode)]

end GenericUri
