import GenericUri.Proofs.Grammar
import GenericUri.Proofs.ReadsBack

/-!
# SetExpr — expressions for sets of characters

The sets of the grammar are combined by `single`, `or`, `anyOf` and `excluding`, nested at will.  An expression is such a
combination before it is carried out.  It has a set of characters for its meaning, put together by union and difference
from the rules of the grammar (`Expr.denotation`), and it is carried out on masks (`Expr.eval`).  The two agree
(`Expr.contains_iff_mem_denotation`): each operation on masks does to the members what the operation on sets does, and
so does a combination of them.

A set of the grammar has the characters that its rule derives on their own, without the escapes that the rule may allow.
-/

namespace GenericUri

namespace Grammar

/-! ### The characters of a rule -/

variable {l : Language Char} {p : Char → Prop} {c : Char}

/-- The characters that a rule derives on their own. -/
def chars (l : Language Char) : Set Char := {c | [c] ∈ l}

theorem IsClass.mem_chars (hl : IsClass l p) : c ∈ chars l ↔ p c := by
  refine (hl.mem_iff [c]).trans ?_
  constructor
  · rintro ⟨d, h, hd⟩
    rwa [(List.cons.inj h).1]
  · intro hc
    exact ⟨c, rfl, hc⟩

/-- Escapes are no characters on their own. -/
theorem IsClass.mem_chars_escaped (hl : IsClass l p) : c ∈ chars (l + pctEncoded) ↔ p c := by
  rw [← hl.mem_chars]
  refine or_iff_left ?_
  intro h
  obtain ⟨x, y, a, b, h, -⟩ := mem_pctEncoded.1 h
  cases h

end Grammar

namespace CharSet

open Grammar

/-! ### The sets of the grammar -/

/-- The sets that expressions start from. -/
inductive Named
  | lower | upper | alpha | digit | hexDigit | unreserved | subDelims | pchar | queryOrFragment
  | registeredName | userInfo | schemeTrailing | everything | nothing
  deriving DecidableEq

def Named.set : Named → CharSet
  | lower => CharSet.lower
  | upper => CharSet.upper
  | alpha => CharSet.alpha
  | digit => CharSet.digit
  | hexDigit => CharSet.hexDigit
  | unreserved => CharSet.unreserved
  | subDelims => CharSet.subDelims
  | pchar => CharSet.pchar
  | queryOrFragment => CharSet.queryOrFragment
  | registeredName => CharSet.registeredName
  | userInfo => CharSet.userInfo
  | schemeTrailing => CharSet.schemeTrailing
  | everything => CharSet.everything
  | nothing => CharSet.nothing

/-- What the name stands for in the grammar. -/
def Named.chars : Named → Set Char
  | lower => Grammar.chars (range 'a' 'z')
  | upper => Grammar.chars (range 'A' 'Z')
  | alpha => Grammar.chars Grammar.alpha
  | digit => Grammar.chars Grammar.digit
  | hexDigit => Grammar.chars (Grammar.digit + range 'A' 'F')
  | unreserved => Grammar.chars Grammar.unreserved
  | subDelims => Grammar.chars Grammar.subDelims
  | pchar => Grammar.chars Grammar.pchar
  | queryOrFragment => Grammar.chars (Grammar.pchar + oneOf ['/', '?'])
  | registeredName => Grammar.chars (Grammar.unreserved + pctEncoded + Grammar.subDelims)
  | userInfo => Grammar.chars (Grammar.unreserved + pctEncoded + Grammar.subDelims + char ':')
  | schemeTrailing => Grammar.chars (Grammar.alpha + Grammar.digit + oneOf ['+', '-', '.'])
  | everything => Set.univ
  | nothing => ∅

variable {n : Named} {s : CharSet} {c : Char} {t : Text} {f : Field}

theorem Named.contains_iff_mem_chars : n.set.contains c = true ↔ c ∈ n.chars := by
  cases n with
  | lower => exact (IsClass.charSet (s := .lower) (isClass_span 'a' 'z' (by decide)) rfl).mem_chars.symm
  | upper => exact (IsClass.charSet (s := .upper) (isClass_span 'A' 'Z' (by decide)) rfl).mem_chars.symm
  | alpha => exact isClass_alpha.mem_chars.symm
  | digit => exact isClass_digit.mem_chars.symm
  | hexDigit =>
    have hmask := isClass_digitMask.or (isClass_span 'A' 'F' (by decide))
    exact (IsClass.charSet (s := .hexDigit) hmask rfl).mem_chars.symm
  | unreserved => exact (IsClass.charSet (s := .unreserved) isClass_unreservedMask rfl).mem_chars.symm
  | subDelims =>
    have hmask : IsClass Grammar.subDelims fun c => subDelimMask.getLsbD c.toNat = true :=
      isClass_mask _ (forall_mem_of_all (by decide))
    exact (IsClass.charSet (s := .subDelims) hmask rfl).mem_chars.symm
  -- the rules that allow escapes are read with the escapes as the last alternative
  | pchar =>
    show _ ↔ c ∈ Grammar.chars (Grammar.unreserved + pctEncoded + Grammar.subDelims + oneOf [':', '@'])
    rw [add_right_comm _ pctEncoded, add_right_comm _ pctEncoded]
    exact isClass_pchar.mem_chars_escaped.symm
  | queryOrFragment =>
    show _ ↔ c ∈ Grammar.chars
      (Grammar.unreserved + pctEncoded + Grammar.subDelims + oneOf [':', '@'] + oneOf ['/', '?'])
    rw [add_right_comm _ pctEncoded, add_right_comm _ pctEncoded, add_right_comm _ pctEncoded]
    exact isClass_queryOrFragment.mem_chars_escaped.symm
  | registeredName =>
    show _ ↔ c ∈ Grammar.chars (Grammar.unreserved + pctEncoded + Grammar.subDelims)
    rw [add_right_comm _ pctEncoded]
    exact isClass_registeredName.mem_chars_escaped.symm
  | userInfo =>
    show _ ↔ c ∈ Grammar.chars (Grammar.unreserved + pctEncoded + Grammar.subDelims + char ':')
    rw [add_right_comm _ pctEncoded, add_right_comm _ pctEncoded]
    exact isClass_userInfo.mem_chars_escaped.symm
  | schemeTrailing => exact isClass_schemeTrailing.mem_chars.symm
  | everything => exact iff_of_true (contains_everything c) trivial
  | nothing => exact iff_of_false (Bool.eq_false_iff.1 (contains_nothing c)) (Set.notMem_empty c)

/-- Only one of them has characters beyond ASCII, and it has them all. -/
theorem Named.mem_chars_of_ge (hc : 128 ≤ c.toNat) : c ∈ n.chars ↔ n = .everything := by
  rw [← contains_iff_mem_chars, contains_of_ge hc]
  cases n <;> decide

/-! ### Expressions -/

/-- A combination of sets, before it is carried out. -/
inductive Expr
  | named (n : Named)
  | single (c : Char)
  | or (a b : Expr)
  | anyOf (es : List Expr)
  | excluding (e : Expr) (c : Char)

namespace Expr

variable {e : Expr} {es : List Expr} {ss : List CharSet}

/-- What holds of a list of expressions one by one holds of them combined. -/
@[elab_as_elim, induction_eliminator]
theorem induct {motive : Expr → Prop} (named : ∀ n, motive (.named n)) (single : ∀ c, motive (.single c))
    (or : ∀ a b, motive a → motive b → motive (.or a b)) (anyOf : ∀ es, (∀ e ∈ es, motive e) → motive (.anyOf es))
    (excluding : ∀ e c, motive e → motive (.excluding e c)) (e : Expr) : motive e :=
  @Expr.rec motive (fun es => ∀ e ∈ es, motive e) named single or anyOf excluding
    (List.forall_mem_nil motive) (fun _ _ he hes => List.forall_mem_cons.2 ⟨he, hes⟩) e

mutual
/-- The set that comes of the expression when the operations are carried out, inner ones first. -/
def eval : Expr → Except NotAscii CharSet
  | named n => return n.set
  | single c => CharSet.single c
  | or a b => do
    let s ← eval a
    let r ← eval b
    return s.or r
  | anyOf es => (evalAll es).map CharSet.anyOf
  | excluding e c => do
    let s ← eval e
    s.excluding c

def evalAll : List Expr → Except NotAscii (List CharSet)
  | [] => return []
  | e :: es => do
    let s ← eval e
    let ss ← evalAll es
    return s :: ss
end

mutual
/-- The characters that the expression means. -/
def denotation : Expr → Set Char
  | named n => n.chars
  | single c => {c}
  | or a b => denotation a ∪ denotation b
  | anyOf es => unionAll es
  | excluding e c => denotation e \ {c}

def unionAll : List Expr → Set Char
  | [] => ∅
  | e :: es => denotation e ∪ unionAll es
end

/-- Every single character that the expression mentions is ASCII. -/
inductive Ascii : Expr → Prop
  | named (n : Named) : Ascii (.named n)
  | single {c : Char} (hc : c.toNat < 128) : Ascii (.single c)
  | or {a b : Expr} (ha : Ascii a) (hb : Ascii b) : Ascii (.or a b)
  | anyOf {es : List Expr} (hes : ∀ e ∈ es, Ascii e) : Ascii (.anyOf es)
  | excluding {e : Expr} {c : Char} (he : Ascii e) (hc : c.toNat < 128) : Ascii (.excluding e c)

/-- The set of all characters occurs in the expression. -/
inductive HasEverything : Expr → Prop
  | everything : HasEverything (.named .everything)
  | left {a b : Expr} (h : HasEverything a) : HasEverything (.or a b)
  | right {a b : Expr} (h : HasEverything b) : HasEverything (.or a b)
  | anyOf {e : Expr} {es : List Expr} (he : e ∈ es) (h : HasEverything e) : HasEverything (.anyOf es)
  | excluding {e : Expr} {c : Char} (h : HasEverything e) : HasEverything (.excluding e c)

theorem evalAll_eq_ok_iff : evalAll es = .ok ss ↔ List.Forall₂ (fun e s => e.eval = .ok s) es ss := by
  have hmapM : evalAll es = es.mapM eval := by
    induction es with
    | nil => rfl
    | cons e es ih => rw [evalAll, List.mapM_cons, ih]
  rw [hmapM, mapM_eq_ok_iff]

theorem mem_unionAll_iff : c ∈ unionAll es ↔ ∃ e ∈ es, c ∈ e.denotation := by
  induction es with
  | nil => exact iff_of_false (Set.notMem_empty c) (by simp)
  | cons e es ih => rw [unionAll, Set.mem_union, ih, List.exists_mem_cons_iff]

/-! ### Expressions carried out -/

theorem exists_single_iff : (∃ s, CharSet.single c = .ok s) ↔ c.toNat < 128 := by
  unfold CharSet.single
  split <;> simp [*]

theorem exists_excluding_iff : (∃ r, s.excluding c = .ok r) ↔ c.toNat < 128 := by
  unfold CharSet.excluding
  split <;> simp [*]

/-- The operations can be carried out if their characters are ASCII. -/
theorem exists_eval_iff : (∃ s, e.eval = .ok s) ↔ e.Ascii := by
  induction e with
  | named n => exact iff_of_true ⟨n.set, rfl⟩ (.named n)
  | single c =>
    refine exists_single_iff.trans ⟨.single, fun h => ?_⟩
    cases h with
    | single hc => exact hc
  | or a b iha ihb =>
    simp only [eval, bind_eq_ok_iff, pure_eq_ok_iff]
    constructor
    · rintro ⟨_, s, hs, r, hr, rfl⟩
      exact .or (iha.1 ⟨s, hs⟩) (ihb.1 ⟨r, hr⟩)
    · intro h
      cases h with
      | or ha hb =>
        obtain ⟨s, hs⟩ := iha.2 ha
        obtain ⟨r, hr⟩ := ihb.2 hb
        exact ⟨_, s, hs, r, hr, rfl⟩
  | anyOf es ih =>
    simp only [eval, map_eq_ok_iff, evalAll_eq_ok_iff]
    constructor
    · rintro ⟨_, ss, hss, rfl⟩
      refine .anyOf fun e he => (ih e he).1 ?_
      obtain ⟨s, -, hs⟩ := exists_of_forall₂_left hss he
      exact ⟨s, hs⟩
    · intro h
      cases h with
      | anyOf hes =>
        obtain ⟨ss, hss⟩ := exists_forall₂_iff.2 fun e he => (ih e he).2 (hes e he)
        exact ⟨_, ss, hss, rfl⟩
  | excluding e c ih =>
    simp only [eval, bind_eq_ok_iff]
    constructor
    · rintro ⟨r, s, hs, hr⟩
      exact .excluding (ih.1 ⟨s, hs⟩) (exists_excluding_iff.1 ⟨r, hr⟩)
    · intro h
      cases h with
      | excluding he hc =>
        obtain ⟨s, hs⟩ := ih.2 he
        obtain ⟨r, hr⟩ := exists_excluding_iff.2 hc
        exact ⟨r, s, hs, hr⟩

/-- What comes of an expression has the characters that the expression means. -/
theorem contains_of_eval (h : e.eval = .ok s) : s.contains c = true ↔ c ∈ e.denotation := by
  induction e generalizing s with
  | named n =>
    obtain rfl := Except.ok.inj h
    exact Named.contains_iff_mem_chars
  | single d =>
    rw [contains_of_single h, beq_iff_eq]
    rfl
  | or a b iha ihb =>
    simp only [eval, bind_eq_ok_iff, pure_eq_ok_iff] at h
    obtain ⟨s, hs, r, hr, rfl⟩ := h
    rw [contains_or, Bool.or_eq_true, iha hs, ihb hr]
    rfl
  | anyOf es ih =>
    simp only [eval, map_eq_ok_iff, evalAll_eq_ok_iff] at h
    obtain ⟨ss, hss, rfl⟩ := h
    rw [contains_anyOf, List.any_eq_true]
    refine Iff.trans ?_ mem_unionAll_iff.symm
    constructor
    · rintro ⟨s, hmem, hc⟩
      obtain ⟨e, he, hs⟩ := exists_of_forall₂_right hss hmem
      exact ⟨e, he, (ih e he hs).1 hc⟩
    · rintro ⟨e, he, hc⟩
      obtain ⟨s, hmem, hs⟩ := exists_of_forall₂_left hss he
      exact ⟨s, hmem, (ih e he hs).2 hc⟩
  | excluding e d ih =>
    simp only [eval, bind_eq_ok_iff] at h
    obtain ⟨s, hs, hr⟩ := h
    rw [contains_of_excluding hr, Bool.and_eq_true, ih hs, bne_iff_ne]
    rfl

/-- Characters beyond ASCII come in with the set of all characters, and are not taken out one by one. -/
theorem mem_denotation_of_ge (hc : 128 ≤ c.toNat) (ha : e.Ascii) : c ∈ e.denotation ↔ e.HasEverything := by
  induction ha with
  | named n =>
    refine (Named.mem_chars_of_ge hc).trans ?_
    constructor
    · rintro rfl
      exact .everything
    · intro h
      cases h with
      | everything => rfl
  | @single d hd =>
    refine iff_of_false ?_ fun h => by cases h
    rintro rfl
    omega
  | or _ _ iha ihb =>
    refine (or_congr iha ihb).trans ?_
    constructor
    · rintro (h | h)
      · exact .left h
      · exact .right h
    · intro h
      cases h with
      | left h => exact .inl h
      | right h => exact .inr h
  | anyOf _ ih =>
    refine mem_unionAll_iff.trans ?_
    constructor
    · rintro ⟨e, he, h⟩
      exact .anyOf he ((ih e he).1 h)
    · intro h
      cases h with
      | anyOf he h => exact ⟨_, he, (ih _ he).2 h⟩
  | @excluding e d _ hd ih =>
    have hne : c ≠ d := by
      rintro rfl
      omega
    refine (and_iff_left hne).trans (ih.trans ?_)
    refine ⟨.excluding, fun h => ?_⟩
    cases h with
    | excluding h => exact h

end Expr

/-! ### The first character outside -/

/-- The character at a position of the text, counted from 1, is no member, and all characters ahead of it are. -/
def FirstOutside (s : CharSet) (t : Text) (position : Nat) : Prop :=
  ∃ front c back, t = front ++ c :: back ∧ position = front.length + 1 ∧
    (∀ d ∈ front, s.contains d = true) ∧ s.contains c = false

theorem findIdx?_eq_some_iff_firstOutside {i : Nat} :
    t.findIdx? (fun c => !s.contains c) = some i ↔ s.FirstOutside t (i + 1) := by
  constructor
  · intro h
    obtain ⟨hi, hout, hfront⟩ := List.findIdx?_eq_some_iff_getElem.1 h
    refine ⟨t.take i, t[i], t.drop (i + 1), ?_, ?_, ?_, ?_⟩
    · rw [← List.drop_eq_getElem_cons hi, List.take_append_drop]
    · rw [List.length_take_of_le (Nat.le_of_lt hi)]
    · intro d hd
      obtain ⟨j, hj, rfl⟩ := List.mem_take_iff_getElem.1 hd
      simpa using hfront j (Nat.lt_of_lt_of_le hj (Nat.min_le_left i t.length))
    · simpa using hout
  · rintro ⟨front, c, back, rfl, hi, hfront, hc⟩
    obtain rfl := Nat.succ.inj hi
    have hnone : front.findIdx? (fun c => !s.contains c) = none := by
      simpa [List.findIdx?_eq_none_iff] using hfront
    simp [List.findIdx?_append, hnone, List.findIdx?_cons, hc]

theorem containsAll_iff : s.containsAll t = true ↔ ∀ c ∈ t, s.contains c = true := List.all_eq_true

/-- The error names the first character that is no member, and tells what the members are. -/
theorem verify_eq_error_iff {err : InvalidArgument} :
    s.verify t f = .error err ↔
      ∃ position, s.FirstOutside t position ∧ err = ⟨f, t, .illegalCharacter position s.description⟩ := by
  have hindex : s.verify t f = .error err ↔
      ∃ i, t.findIdx? (fun c => !s.contains c) = some i ∧ err = ⟨f, t, .illegalCharacter (i + 1) s.description⟩ := by
    unfold verify
    cases t.findIdx? (fun c => !s.contains c) <;> simp [eq_comm]
  rw [hindex]
  constructor
  · rintro ⟨i, hi, rfl⟩
    exact ⟨i + 1, findIdx?_eq_some_iff_firstOutside.1 hi, rfl⟩
  · rintro ⟨_, ⟨front, c, back, ht, rfl, hmembers⟩, rfl⟩
    exact ⟨front.length, findIdx?_eq_some_iff_firstOutside.2 ⟨front, c, back, ht, rfl, hmembers⟩, rfl⟩

/-! ### Members and meaning -/

/-- An expression whose single characters are ASCII, however it is nested, can be carried out, and no other can.  The set
that comes of it has the characters that the expression means; beyond ASCII these are all or none, as the set of all
characters occurs in it or not.  A set lets a text pass if all characters of the text are members, and otherwise names
the first one that is not. -/
theorem Expr.contains_iff_mem_denotation :
    (∀ e : Expr, (∃ s, e.eval = .ok s) ↔ e.Ascii) ∧
      (∀ (e : Expr) (s : CharSet), e.eval = .ok s →
        (∀ c, s.contains c = true ↔ c ∈ e.denotation) ∧
          ∀ c : Char, 128 ≤ c.toNat → (s.contains c = true ↔ e.HasEverything)) ∧
        ∀ (s : CharSet) (t : Text) (f : Field),
          (s.verify t f = .ok () ↔ s.containsAll t = true) ∧
            (s.containsAll t = true ↔ ∀ c ∈ t, s.contains c = true) ∧
              ∀ err, s.verify t f = .error err ↔
                ∃ position, s.FirstOutside t position ∧ err = ⟨f, t, .illegalCharacter position s.description⟩ := by
  refine ⟨fun e => exists_eval_iff, ?_, fun s t f => ⟨verify_eq_ok_iff, containsAll_iff, fun _ => verify_eq_error_iff⟩⟩
  intro e s h
  refine ⟨fun c => contains_of_eval h, fun c hc => ?_⟩
  rw [contains_of_eval h]
  exact mem_denotation_of_ge hc (exists_eval_iff.1 ⟨s, h⟩)

/-- What a query may carry apart from `&`, and everything apart from `1`. -/
theorem Expr.contains_iff_mem_denotation_nested :
    let few : Expr := .excluding (.anyOf [.named .pchar, .or (.single '/') (.single '?'), .anyOf []]) '&'
    let most : Expr := .excluding (.or (.named .nothing) (.named .everything)) '1'
    let t := "éa1".toList
    ∃ s r, (few.eval = .ok s ∧ most.eval = .ok r ∧ 128 ≤ 'é'.toNat) ∧
      ('?' ∈ few.denotation ∧ '&' ∉ few.denotation ∧ ¬ few.HasEverything) ∧
        ('1' ∉ most.denotation ∧ 'é' ∈ most.denotation ∧ most.HasEverything) ∧
          (∀ s, (Expr.single 'é').eval ≠ .ok s) ∧
            s.verify t .scheme = .error ⟨.scheme, t, .illegalCharacter 1 s.description⟩ ∧
              r.verify t .scheme = .error ⟨.scheme, t, .illegalCharacter 3 r.description⟩ := by
  intro few most t
  obtain ⟨hmade, hmembers, hverify⟩ := contains_iff_mem_denotation
  obtain ⟨hfew, hnone⟩ := hmembers few _ rfl
  obtain ⟨hmost, hall⟩ := hmembers most _ rfl
  have hbeyond : 128 ≤ 'é'.toNat := by decide
  refine ⟨_, _, ⟨rfl, rfl, hbeyond⟩, ⟨(hfew '?').1 (by decide), mt (hfew '&').2 (by decide), ?_⟩,
    ⟨mt (hmost '1').2 (by decide), (hmost 'é').1 (by decide), (hall 'é' hbeyond).1 (by decide)⟩, ?_, ?_, ?_⟩
  · exact mt (hnone 'é' hbeyond).2 (by decide)
  · intro s hs
    cases (hmade (.single 'é')).1 ⟨s, hs⟩ with
    | single hc => exact absurd hc (by decide)
  · exact ((hverify _ t .scheme).2.2 _).2 ⟨1, ⟨[], 'é', "a1".toList, rfl, rfl, List.forall_mem_nil _, by decide⟩, rfl⟩
  · refine ((hverify _ t .scheme).2.2 _).2 ⟨3, ⟨"éa".toList, '1', [], rfl, rfl, ?_, by decide⟩, rfl⟩
    exact forall_mem_of_all (by decide)

/-- The set of a path segment, put together from others, has the same members and the same words. -/
example : (Expr.anyOf [.named .unreserved, .named .subDelims, .single ':', .single '@']).eval = .ok pchar := by decide

end CharSet
end GenericUri
