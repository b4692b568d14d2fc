import GenericUri.Proofs.Runs
import Mathlib.Computability.Language

/-!
# Grammar — the rules of RFC 3986

The collected grammar of RFC 3986, appendix A, rule by rule: a rule is the language of the texts that it derives.
Literal letters are of either case, as in hex digits and in the `v` of a future address.

The rules for single characters are classes (`IsClass`).  Their alternatives are the parts of the masks of the readers'
sets, so each class is a set.  A rule that repeats a class and `pct-encoded` derives the texts whose symbols fit the
set (`mem_escaped_iff`).
-/

namespace GenericUri.Grammar

open Computability

/-! ### Operators -/

/-- One character. -/
def char (c : Char) : Language Char := {[c]}

/-- One character from `first` to `last`. -/
def range (first last : Char) : Language Char := fun t => ∃ c, t = [c] ∧ first ≤ c ∧ c ≤ last

/-- One of the listed characters. -/
def oneOf (cs : List Char) : Language Char := fun t => ∃ c ∈ cs, t = [c]

/-- `[ l ]`. -/
def opt (l : Language Char) : Language Char := 1 + l

/-- `1*l`. -/
def many1 (l : Language Char) : Language Char := l * l∗

/-- `*n l`: at most `n` times. -/
def atMost (n : ℕ) (l : Language Char) : Language Char := fun t => ∃ k ≤ n, t ∈ l ^ k

/-! ### Characters -/

def alpha : Language Char := range 'A' 'Z' + range 'a' 'z'

def digit : Language Char := range '0' '9'

def hexdig : Language Char := digit + range 'A' 'F' + range 'a' 'f'

def unreserved : Language Char := alpha + digit + oneOf ['-', '.', '_', '~']

def subDelims : Language Char := oneOf ['!', '$', '&', '\'', '(', ')', '*', '+', ',', ';', '=']

def pctEncoded : Language Char := char '%' * hexdig * hexdig

def pchar : Language Char := unreserved + pctEncoded + subDelims + oneOf [':', '@']

/-! ### Addresses -/

def decOctet : Language Char :=
  digit + range '1' '9' * digit + char '1' * digit ^ 2 + char '2' * range '0' '4' * digit +
    char '2' * char '5' * range '0' '5'

def ipv4address : Language Char :=
  decOctet * char '.' * decOctet * char '.' * decOctet * char '.' * decOctet

def h16 : Language Char := fun t => ∃ k, 1 ≤ k ∧ k ≤ 4 ∧ t ∈ hexdig ^ k

def ls32 : Language Char := h16 * char ':' * h16 + ipv4address

/-- `::`. -/
def elision : Language Char := char ':' * char ':'

def ipv6address : Language Char :=
  (h16 * char ':') ^ 6 * ls32 +
  elision * (h16 * char ':') ^ 5 * ls32 +
  opt h16 * elision * (h16 * char ':') ^ 4 * ls32 +
  opt (atMost 1 (h16 * char ':') * h16) * elision * (h16 * char ':') ^ 3 * ls32 +
  opt (atMost 2 (h16 * char ':') * h16) * elision * (h16 * char ':') ^ 2 * ls32 +
  opt (atMost 3 (h16 * char ':') * h16) * elision * (h16 * char ':') * ls32 +
  opt (atMost 4 (h16 * char ':') * h16) * elision * ls32 +
  opt (atMost 5 (h16 * char ':') * h16) * elision * h16 +
  opt (atMost 6 (h16 * char ':') * h16) * elision

def ipvFuture : Language Char :=
  oneOf ['v', 'V'] * many1 hexdig * char '.' * many1 (unreserved + subDelims + char ':')

def ipLiteral : Language Char := char '[' * (ipv6address + ipvFuture) * char ']'

/-! ### Authorities -/

def regName : Language Char := (unreserved + pctEncoded + subDelims)∗

def host : Language Char := ipLiteral + ipv4address + regName

def port : Language Char := digit∗

def userinfo : Language Char := (unreserved + pctEncoded + subDelims + char ':')∗

def authority : Language Char := opt (userinfo * char '@') * host * opt (char ':' * port)

/-! ### Paths -/

def segment : Language Char := pchar∗

def segmentNz : Language Char := many1 pchar

def segmentNzNc : Language Char := many1 (unreserved + pctEncoded + subDelims + char '@')

def pathAbempty : Language Char := (char '/' * segment)∗

def pathAbsolute : Language Char := char '/' * opt (segmentNz * (char '/' * segment)∗)

def pathNoscheme : Language Char := segmentNzNc * (char '/' * segment)∗

def pathRootless : Language Char := segmentNz * (char '/' * segment)∗

def pathEmpty : Language Char := 1

/-! ### References -/

def scheme : Language Char := alpha * (alpha + digit + oneOf ['+', '-', '.'])∗

def query : Language Char := (pchar + oneOf ['/', '?'])∗

def fragment : Language Char := (pchar + oneOf ['/', '?'])∗

def hierPart : Language Char :=
  char '/' * char '/' * authority * pathAbempty + pathAbsolute + pathRootless + pathEmpty

def relativePart : Language Char :=
  char '/' * char '/' * authority * pathAbempty + pathAbsolute + pathNoscheme + pathEmpty

def uri : Language Char :=
  scheme * char ':' * hierPart * opt (char '?' * query) * opt (char '#' * fragment)

def relativeRef : Language Char :=
  relativePart * opt (char '?' * query) * opt (char '#' * fragment)

/-! ### Membership -/

variable {l m : Language Char} {p q : Char → Prop} {c : Char} {t : Text} {allowed : CharSet}

@[simp] theorem mem_char : t ∈ char c ↔ t = [c] := Iff.rfl

theorem mem_char_mul : t ∈ char c * l ↔ ∃ r ∈ l, t = c :: r := by
  rw [Language.mem_mul]
  constructor
  · rintro ⟨a, rfl, r, hr, rfl⟩
    exact ⟨r, hr, rfl⟩
  · rintro ⟨r, hr, rfl⟩
    exact ⟨[c], rfl, r, hr, rfl⟩

theorem mem_mul_char_mul : t ∈ l * (char c * m) ↔ ∃ a ∈ l, ∃ r ∈ m, t = a ++ c :: r := by
  rw [Language.mem_mul]
  constructor
  · rintro ⟨a, ha, x, hx, rfl⟩
    obtain ⟨r, hr, rfl⟩ := mem_char_mul.1 hx
    exact ⟨a, ha, r, hr, rfl⟩
  · rintro ⟨a, ha, r, hr, rfl⟩
    exact ⟨a, ha, c :: r, mem_char_mul.2 ⟨r, hr, rfl⟩, rfl⟩

theorem mem_opt : t ∈ opt l ↔ t = [] ∨ t ∈ l := Iff.rfl

/-- An optional part after its separator. -/
theorem mem_opt_char_mul : t ∈ opt (char c * l) ↔ ∃ o : Option Text, t = (o.elim [] fun r => c :: r) ∧ ∀ r ∈ o, r ∈ l := by
  rw [mem_opt, mem_char_mul]
  constructor
  · rintro (rfl | ⟨r, hr, rfl⟩)
    · exact ⟨none, rfl, nofun⟩
    · exact ⟨some r, rfl, forall_mem_some hr⟩
  · rintro ⟨_ | r, rfl, h⟩
    · exact .inl rfl
    · exact .inr ⟨r, h r rfl, rfl⟩

/-- An optional part before its separator. -/
theorem mem_opt_mul_char :
    t ∈ opt (l * char c) ↔ ∃ o : Option Text, t = (o.elim [] fun r => r ++ [c]) ∧ ∀ r ∈ o, r ∈ l := by
  rw [mem_opt, Language.mem_mul]
  constructor
  · rintro (rfl | ⟨r, hr, x, rfl, rfl⟩)
    · exact ⟨none, rfl, nofun⟩
    · exact ⟨some r, rfl, forall_mem_some hr⟩
  · rintro ⟨_ | r, rfl, h⟩
    · exact .inl rfl
    · exact .inr ⟨r, h r rfl, [c], rfl, rfl⟩

theorem mem_kstar_cons {y : Text} (hy : y ∈ l) (ht : t ∈ l∗) : y ++ t ∈ l∗ := by
  obtain ⟨ys, rfl, hys⟩ := Language.mem_kstar.1 ht
  exact Language.mem_kstar.2 ⟨y :: ys, rfl, List.forall_mem_cons.2 ⟨hy, hys⟩⟩

theorem mem_many1 (hl : [] ∉ l) : t ∈ many1 l ↔ t ≠ [] ∧ t ∈ l∗ := by
  unfold many1
  rw [Language.mem_mul]
  constructor
  · rintro ⟨y, hy, r, hr, rfl⟩
    refine ⟨?_, mem_kstar_cons hy hr⟩
    intro h
    rw [(List.append_eq_nil_iff.1 h).1] at hy
    exact hl hy
  · rintro ⟨hne, ht⟩
    obtain ⟨ys, rfl, hys⟩ := Language.mem_kstar.1 ht
    cases ys with
    | nil => exact absurd rfl hne
    | cons y ys =>
      obtain ⟨hy, hys⟩ := List.forall_mem_cons.1 hys
      exact ⟨y, hy, ys.flatten, Language.join_mem_kstar hys, rfl⟩

/-! ### Classes of characters -/

/-- The language consists of single characters, those of a property. -/
structure IsClass (l : Language Char) (p : Char → Prop) : Prop where
  mem_iff : ∀ t, t ∈ l ↔ ∃ c, t = [c] ∧ p c

theorem isClass_char (c : Char) : IsClass (char c) fun d => d = c := by
  refine ⟨?_⟩
  intro t
  rw [mem_char]
  exact ⟨fun ht => ⟨c, ht, rfl⟩, fun ⟨d, ht, hd⟩ => hd ▸ ht⟩

theorem isClass_range (first last : Char) : IsClass (range first last) fun c => first ≤ c ∧ c ≤ last :=
  ⟨fun _ => Iff.rfl⟩

theorem isClass_oneOf (cs : List Char) : IsClass (oneOf cs) fun c => c ∈ cs := by
  refine ⟨?_⟩
  intro t
  exact ⟨fun ⟨c, hc, ht⟩ => ⟨c, ht, hc⟩, fun ⟨c, ht, hc⟩ => ⟨c, hc, ht⟩⟩

theorem IsClass.add (hl : IsClass l p) (hm : IsClass m q) : IsClass (l + m) fun c => p c ∨ q c := by
  refine ⟨?_⟩
  intro t
  rw [Language.mem_add, hl.mem_iff, hm.mem_iff]
  constructor
  · rintro (⟨c, ht, hc⟩ | ⟨c, ht, hc⟩)
    · exact ⟨c, ht, .inl hc⟩
    · exact ⟨c, ht, .inr hc⟩
  · rintro ⟨c, ht, hc | hc⟩
    · exact .inl ⟨c, ht, hc⟩
    · exact .inr ⟨c, ht, hc⟩

theorem IsClass.congr (hl : IsClass l p) (h : ∀ c, p c ↔ q c) : IsClass l q := by
  refine ⟨?_⟩
  intro t
  rw [hl.mem_iff]
  simp only [h]

theorem IsClass.nil_not_mem (hl : IsClass l p) : [] ∉ l := by
  rw [hl.mem_iff]
  rintro ⟨c, h, -⟩
  cases h

/-- Repeating a class derives the texts of its characters. -/
theorem IsClass.mem_kstar (hl : IsClass l p) : t ∈ l∗ ↔ ∀ c ∈ t, p c := by
  constructor
  · intro ht
    obtain ⟨ys, rfl, hys⟩ := Language.mem_kstar.1 ht
    intro c hc
    obtain ⟨y, hy, hcy⟩ := List.mem_flatten.1 hc
    obtain ⟨d, rfl, hd⟩ := (hl.mem_iff y).1 (hys y hy)
    rw [List.mem_singleton.1 hcy]
    exact hd
  · intro h
    induction t with
    | nil => exact Language.nil_mem_kstar l
    | cons c t ih =>
      obtain ⟨hc, ht⟩ := List.forall_mem_cons.1 h
      exact mem_kstar_cons (y := [c]) ((hl.mem_iff _).2 ⟨c, rfl, hc⟩) (ih ht)

theorem IsClass.mem_pow (hl : IsClass l p) {n : ℕ} : t ∈ l ^ n ↔ t.length = n ∧ ∀ c ∈ t, p c := by
  induction n generalizing t with
  | zero =>
    rw [pow_zero, Language.mem_one]
    constructor
    · rintro rfl
      exact ⟨rfl, nofun⟩
    · rintro ⟨h, -⟩
      exact List.length_eq_zero_iff.1 h
  | succ n ih =>
    rw [pow_succ', Language.mem_mul]
    constructor
    · rintro ⟨y, hy, r, hr, rfl⟩
      obtain ⟨c, rfl, hc⟩ := (hl.mem_iff y).1 hy
      obtain ⟨hlen, hr⟩ := ih.1 hr
      refine ⟨?_, List.forall_mem_cons.2 ⟨hc, hr⟩⟩
      rw [List.cons_append, List.nil_append, List.length_cons, hlen]
    · rintro ⟨hlen, h⟩
      cases t with
      | nil => cases hlen
      | cons c t =>
        obtain ⟨hc, ht⟩ := List.forall_mem_cons.1 h
        exact ⟨[c], (hl.mem_iff _).2 ⟨c, rfl, hc⟩, t, ih.2 ⟨Nat.succ.inj hlen, ht⟩, rfl⟩

/-! ### Classes and the sets of the readers -/

variable {s : CharSet} {a b : BitVec 128}

theorem isClass_mask (cs : List Char) (h : ∀ c ∈ cs, c.toNat < 128) :
    IsClass (oneOf cs) fun c => (CharSet.mask cs).getLsbD c.toNat = true := by
  apply (isClass_oneOf cs).congr
  intro c
  rw [CharSet.getLsbD_mask_toNat]
  exact ⟨fun hc => ⟨hc, h c hc⟩, fun hc => hc.1⟩

theorem isClass_span (first last : Char) (h : last.toNat < 128) :
    IsClass (range first last) fun c => (CharSet.mask (CharSet.span first last)).getLsbD c.toNat = true := by
  apply (isClass_range first last).congr
  intro c
  rw [CharSet.getLsbD_mask_toNat, CharSet.mem_span h]
  exact ⟨fun hc => ⟨hc, Nat.lt_of_le_of_lt hc.2 h⟩, fun hc => hc.1⟩

theorem IsClass.or (hl : IsClass l fun c => a.getLsbD c.toNat = true) (hm : IsClass m fun c => b.getLsbD c.toNat = true) :
    IsClass (l + m) fun c => (a ||| b).getLsbD c.toNat = true := by
  apply (hl.add hm).congr
  intro c
  rw [BitVec.getLsbD_or, Bool.or_eq_true]

/-- A class is a set of the readers if it is the set's mask. -/
theorem IsClass.charSet (hl : IsClass l fun c => s.ascii.getLsbD c.toNat = true) (hs : s.nonAscii = false) :
    IsClass l fun c => s.contains c = true := by
  apply hl.congr
  intro c
  rw [CharSet.contains_eq_getLsbD hs]

theorem isClass_alphaMask : IsClass alpha fun c => CharSet.alpha.ascii.getLsbD c.toNat = true := by
  have h := (isClass_span 'a' 'z' (by decide)).or (isClass_span 'A' 'Z' (by decide))
  rw [add_comm] at h
  exact h

theorem isClass_digitMask : IsClass digit fun c => CharSet.digitMask.getLsbD c.toNat = true :=
  isClass_span '0' '9' (by decide)

theorem isClass_alphanumericMask :
    IsClass (alpha + digit) fun c => (CharSet.alpha.ascii ||| CharSet.digitMask).getLsbD c.toNat = true :=
  isClass_alphaMask.or isClass_digitMask

theorem isClass_unreservedMask : IsClass unreserved fun c => CharSet.unreservedMask.getLsbD c.toNat = true :=
  isClass_alphanumericMask.or (isClass_mask _ (forall_mem_of_all (by decide)))

theorem isClass_registeredNameMask :
    IsClass (unreserved + subDelims) fun c => CharSet.registeredName.ascii.getLsbD c.toNat = true :=
  isClass_unreservedMask.or (isClass_mask _ (forall_mem_of_all (by decide)))

theorem isClass_pcharMask :
    IsClass (unreserved + subDelims + oneOf [':', '@']) fun c => CharSet.pcharMask.getLsbD c.toNat = true :=
  isClass_registeredNameMask.or (isClass_mask _ (forall_mem_of_all (by decide)))

theorem isClass_alpha : IsClass alpha fun c => CharSet.alpha.contains c = true := isClass_alphaMask.charSet rfl

theorem isClass_digit : IsClass digit fun c => CharSet.digit.contains c = true :=
  IsClass.charSet (s := .digit) isClass_digitMask rfl

theorem isClass_registeredName :
    IsClass (unreserved + subDelims) fun c => CharSet.registeredName.contains c = true :=
  isClass_registeredNameMask.charSet rfl

theorem isClass_userInfo :
    IsClass (unreserved + subDelims + char ':') fun c => CharSet.userInfo.contains c = true := by
  have hone : char ':' = oneOf [':'] := by
    ext t
    show t = [':'] ↔ ∃ c ∈ [':'], t = [c]
    simp
  have h := isClass_registeredNameMask.or (isClass_mask [':'] (forall_mem_of_all (by decide)))
  rw [← hone] at h
  exact IsClass.charSet (s := .userInfo) h rfl

theorem isClass_pchar :
    IsClass (unreserved + subDelims + oneOf [':', '@']) fun c => CharSet.pchar.contains c = true :=
  IsClass.charSet (s := .pchar) isClass_pcharMask rfl

theorem isClass_queryOrFragment :
    IsClass (unreserved + subDelims + oneOf [':', '@'] + oneOf ['/', '?'])
      fun c => CharSet.queryOrFragment.contains c = true := by
  have h := isClass_pcharMask.or (isClass_mask ['/', '?'] (forall_mem_of_all (by decide)))
  exact IsClass.charSet (s := .queryOrFragment) h rfl

theorem isClass_schemeTrailing :
    IsClass (alpha + digit + oneOf ['+', '-', '.']) fun c => CharSet.schemeTrailing.contains c = true := by
  have h := isClass_alphanumericMask.or (isClass_mask ['+', '-', '.'] (forall_mem_of_all (by decide)))
  exact IsClass.charSet (s := .schemeTrailing) h rfl

theorem isClass_hexdig : IsClass hexdig fun c => (hexValue? c).isSome = true := by
  apply (((isClass_range '0' '9').add (isClass_range 'A' 'F')).add (isClass_range 'a' 'f')).congr
  intro c
  unfold hexValue?
  split_ifs with h1 h2 h3
  · simp [h1]
  · simp [h2]
  · simp [h3]
  · simp [h1, h2, h3]

/-! ### Escaped text -/

theorem mem_pctEncoded : t ∈ pctEncoded ↔ ∃ x y a b, t = ['%', x, y] ∧ hexValue? x = some a ∧ hexValue? y = some b := by
  unfold pctEncoded
  rw [mul_assoc, mem_char_mul]
  simp only [Language.mem_mul, isClass_hexdig.mem_iff, Option.isSome_iff_exists]
  constructor
  · rintro ⟨r, ⟨_, ⟨x, rfl, a, hx⟩, _, ⟨y, rfl, b, hy⟩, rfl⟩, rfl⟩
    exact ⟨x, y, a, b, rfl, hx, hy⟩
  · rintro ⟨x, y, a, b, rfl, hx, hy⟩
    exact ⟨[x, y], ⟨[x], ⟨x, rfl, a, hx⟩, [y], ⟨y, rfl, b, hy⟩, rfl⟩, rfl⟩

/-- Repeating a class and escapes derives the texts whose symbols fit the set. -/
theorem mem_escaped_iff (hl : IsClass l fun c => allowed.contains c = true) (hp : allowed.contains '%' = false) :
    t ∈ (l + pctEncoded)∗ ↔ ∀ tk ∈ Percent.tokens t, tk.Fits allowed := by
  constructor
  · intro ht
    obtain ⟨ys, rfl, hys⟩ := Language.mem_kstar.1 ht
    clear ht
    induction ys with
    | nil => exact nofun
    | cons y ys ih =>
      obtain ⟨hy, hrest⟩ := List.forall_mem_cons.1 hys
      rw [List.flatten_cons]
      rcases (Language.mem_add _ _ _).1 hy with hy | hy
      · obtain ⟨c, rfl, hc⟩ := (hl.mem_iff y).1 hy
        have hne : c ≠ '%' := by
          rintro rfl
          rw [hp] at hc
          cases hc
        rw [List.cons_append, List.nil_append, Percent.tokens_raw hne]
        exact List.forall_mem_cons.2 ⟨hc, ih hrest⟩
      · obtain ⟨x, y, a, b, rfl, hx, hy⟩ := mem_pctEncoded.1 hy
        show ∀ tk ∈ Percent.tokens ('%' :: x :: y :: ys.flatten), _
        rw [Percent.tokens_escape_cons hx hy]
        exact List.forall_mem_cons.2 ⟨trivial, ih hrest⟩
  · intro h
    fun_induction Percent.tokens t with
    | case1 => exact Language.nil_mem_kstar _
    | case2 x y t a b hy hx ih =>
      obtain ⟨-, ht⟩ := List.forall_mem_cons.1 h
      have hesc : ['%', x, y] ∈ l + pctEncoded := .inr (mem_pctEncoded.2 ⟨x, y, a, b, rfl, hx, hy⟩)
      exact mem_kstar_cons hesc (ih ht)
    | case3 x y t hno ih => exact (List.forall_mem_cons.1 h).1.elim
    | case4 c t hno ih =>
      obtain ⟨hc, ht⟩ := List.forall_mem_cons.1 h
      by_cases hpc : c = '%'
      · rw [if_pos hpc] at hc
        exact hc.elim
      · rw [if_neg hpc] at hc
        have hchar : [c] ∈ l + pctEncoded := .inl ((hl.mem_iff _).2 ⟨c, rfl, hc⟩)
        exact mem_kstar_cons hchar (ih ht)

end GenericUri.Grammar
