import GenericUri.Error

/-!
# CharSet — which characters a component may carry

A set keeps track of the 128 ASCII characters one by one and of all others together, which is all that the grammar of
URIs tells apart.  It also carries the words in which an error describes it; two sets are equal when their members
and their words agree.
-/

namespace GenericUri

structure CharSet where
  /-- Bit `n` says whether the ASCII character `n` is a member. -/
  ascii : BitVec 128
  /-- Whether the characters beyond ASCII are members. -/
  nonAscii : Bool
  description : String
  deriving DecidableEq

namespace CharSet

/-! ### Masks -/

/-- The mask of the listed ASCII characters. -/
def mask (cs : List Char) : BitVec 128 :=
  cs.foldr (fun c m => BitVec.twoPow 128 c.toNat ||| m) 0

/-- The characters from `first` to `last`. -/
def span (first last : Char) : List Char :=
  (List.range' first.toNat (last.toNat + 1 - first.toNat)).map Char.ofNat

def lowerMask : BitVec 128 := mask (span 'a' 'z')

def upperMask : BitVec 128 := mask (span 'A' 'Z')

def digitMask : BitVec 128 := mask (span '0' '9')

def unreservedMask : BitVec 128 := lowerMask ||| upperMask ||| digitMask ||| mask ['-', '.', '_', '~']

def subDelimMask : BitVec 128 := mask ['!', '$', '&', '\'', '(', ')', '*', '+', ',', ';', '=']

def pcharMask : BitVec 128 := unreservedMask ||| subDelimMask ||| mask [':', '@']

/-! ### The sets of the grammar -/

def lower : CharSet := ⟨lowerMask, false, "a-z"⟩

def upper : CharSet := ⟨upperMask, false, "A-Z"⟩

def alpha : CharSet := ⟨lowerMask ||| upperMask, false, "a-z, or A-Z"⟩

def digit : CharSet := ⟨digitMask, false, "0-9"⟩

/-- Hex digits in upper case. -/
def hexDigit : CharSet := ⟨digitMask ||| mask (span 'A' 'F'), false, "0-9, or A-F"⟩

/-- The characters whose escape means the same as themselves. -/
def unreserved : CharSet := ⟨unreservedMask, false, "a-z, A-Z, 0-9, -, ., _, or ~"⟩

def subDelims : CharSet := ⟨subDelimMask, false, "!, $, &, ', (, ), *, +, ,, ;, or ="⟩

/-- What a path segment may carry raw. -/
def pchar : CharSet :=
  ⟨pcharMask, false, "a-z, A-Z, 0-9, -, ., _, or ~, !, $, &, ', (, ), *, +, ,, ;, or =, :, or @"⟩

/-- What a query or a fragment may carry raw. -/
def queryOrFragment : CharSet :=
  ⟨pcharMask ||| mask ['/', '?'], false,
    "a-z, A-Z, 0-9, -, ., _, or ~, !, $, &, ', (, ), *, +, ,, ;, or =, :, or @, /, or ?"⟩

/-- What a registered name may carry raw. -/
def registeredName : CharSet :=
  ⟨unreservedMask ||| subDelimMask, false,
    "a-z, A-Z, 0-9, -, ., _, or ~, or !, $, &, ', (, ), *, +, ,, ;, or ="⟩

/-- What user information may carry raw, and what the address of a future IP literal consists of. -/
def userInfo : CharSet :=
  ⟨unreservedMask ||| subDelimMask ||| mask [':'], false,
    "a-z, A-Z, 0-9, -, ., _, or ~, !, $, &, ', (, ), *, +, ,, ;, or =, or :"⟩

/-- What follows the first letter of a scheme name. -/
def schemeTrailing : CharSet :=
  ⟨lowerMask ||| upperMask ||| digitMask ||| mask ['+', '-', '.'], false, "a-z, A-Z, 0-9, +, -, or ."⟩

def everything : CharSet := ⟨BitVec.allOnes 128, true, "any character"⟩

def nothing : CharSet := ⟨0, false, "no character"⟩

/-! ### Membership -/

def contains (s : CharSet) (c : Char) : Bool :=
  if c.toNat < 128 then s.ascii.getLsbD c.toNat else s.nonAscii

def containsAll (s : CharSet) (t : Text) : Bool := t.all s.contains

/-- The ASCII members in code order. -/
def members (s : CharSet) : Text := ((List.range 128).map Char.ofNat).filter s.contains

/-- Blames the first character of `value` that is no member. -/
def verify (s : CharSet) (value : Text) (field : Field) : Except InvalidArgument Unit :=
  match value.findIdx? fun c => !s.contains c with
  | none => .ok ()
  | some i => .error ⟨field, value, .illegalCharacter (i + 1) s.description⟩

/-! ### Operations -/

/-- The set of one ASCII character. -/
def single (c : Char) : Except NotAscii CharSet :=
  if c.toNat < 128 then .ok ⟨mask [c], false, c.toString⟩ else .error .single

/-- The words for all sets after the first: a comma before each, and "or" before the last. -/
def enumeration : List CharSet → String
  | [] => ""
  | [s] => ", or " ++ s.description
  | s :: rest => ", " ++ s.description ++ enumeration rest

/-- The union, described as "a, b, or c". -/
def anyOf : List CharSet → CharSet
  | [] => nothing
  | s :: rest =>
    ⟨rest.foldl (fun m r => m ||| r.ascii) s.ascii, rest.foldl (fun b r => b || r.nonAscii) s.nonAscii,
      s.description ++ enumeration rest⟩

def or (s r : CharSet) : CharSet := anyOf [s, r]

/-- The set without one ASCII character. -/
def excluding (s : CharSet) (c : Char) : Except NotAscii CharSet :=
  if c.toNat < 128 then
    .ok { s with ascii := s.ascii &&& ~~~mask [c], description := s!"not {c} and {s.description}" }
  else .error .excluded

/-! ### Laws of membership -/

theorem getLsbD_mask (cs : List Char) (n : Nat) :
    (mask cs).getLsbD n = (decide (n < 128) && cs.any fun c => c.toNat == n) := by
  induction cs with
  | nil => simp [mask]
  | cons c cs ih =>
    have h : mask (c :: cs) = BitVec.twoPow 128 c.toNat ||| mask cs := rfl
    rw [h, BitVec.getLsbD_or, ih, BitVec.getLsbD_twoPow]
    by_cases hn : n < 128 <;> by_cases hc : c.toNat = n <;> simp [hn, hc]

/-- A mask has the listed characters, as far as they are ASCII. -/
theorem getLsbD_mask_toNat {cs : List Char} {c : Char} :
    (mask cs).getLsbD c.toNat = true ↔ c ∈ cs ∧ c.toNat < 128 := by
  rw [getLsbD_mask]
  simp [Char.toNat_inj, and_comm]

theorem mem_span {first last c : Char} (h : last.toNat < 128) : c ∈ span first last ↔ first ≤ c ∧ c ≤ last := by
  rw [span, List.mem_map]
  constructor
  · rintro ⟨n, hn, rfl⟩
    have hn := List.mem_range'_1.1 hn
    show first.toNat ≤ (Char.ofNat n).toNat ∧ (Char.ofNat n).toNat ≤ last.toNat
    rw [Text.toNat_ofNat (.inl (by omega))]
    omega
  · rintro ⟨h1, h2⟩
    have h1 : first.toNat ≤ c.toNat := h1
    have h2 : c.toNat ≤ last.toNat := h2
    exact ⟨c.toNat, List.mem_range'_1.2 (by omega), Char.ofNat_toNat c⟩

theorem contains_of_lt {s : CharSet} {c : Char} (h : c.toNat < 128) :
    s.contains c = s.ascii.getLsbD c.toNat := if_pos h

theorem contains_of_ge {s : CharSet} {c : Char} (h : 128 ≤ c.toNat) : s.contains c = s.nonAscii :=
  if_neg (Nat.not_lt.2 h)

theorem contains_eq_getLsbD {s : CharSet} (h : s.nonAscii = false) (c : Char) :
    s.contains c = s.ascii.getLsbD c.toNat := by
  rcases Nat.lt_or_ge c.toNat 128 with hc | hc
  · exact contains_of_lt hc
  · rw [contains_of_ge hc, h, BitVec.getLsbD_of_ge _ _ hc]

@[simp] theorem contains_everything (c : Char) : everything.contains c = true := by
  rcases Nat.lt_or_ge c.toNat 128 with h | h
  · rw [contains_of_lt h, everything, BitVec.getLsbD_allOnes]; simpa using h
  · exact contains_of_ge h

@[simp] theorem contains_nothing (c : Char) : nothing.contains c = false := by
  rcases Nat.lt_or_ge c.toNat 128 with h | h
  · rw [contains_of_lt h]; exact BitVec.getLsbD_zero
  · exact contains_of_ge h

theorem lt_of_contains {s : CharSet} {c : Char} (hs : s.nonAscii = false) (h : s.contains c = true) :
    c.toNat < 128 := by
  rcases Nat.lt_or_ge c.toNat 128 with hc | hc
  · exact hc
  · rw [contains_of_ge hc, hs] at h
    cases h

theorem mem_members {s : CharSet} {c : Char} : c ∈ s.members ↔ c.toNat < 128 ∧ s.contains c = true := by
  rw [members, List.mem_filter, List.mem_map]
  refine and_congr_left fun _ => ?_
  constructor
  · rintro ⟨n, hn, rfl⟩
    have hn := List.mem_range.1 hn
    rwa [Text.toNat_ofNat (.inl (by omega))]
  · intro hc
    exact ⟨c.toNat, List.mem_range.2 hc, Char.ofNat_toNat c⟩

/-- Facts about the members of a set of ASCII characters are found out one by one. -/
theorem forall_of_contains {s : CharSet} {P : Char → Prop} [DecidablePred P] (hs : s.nonAscii = false)
    (h : (s.members.all fun c => decide (P c)) = true) : ∀ c, s.contains c = true → P c := by
  intro c hc
  exact forall_mem_of_all h c (mem_members.2 ⟨lt_of_contains hs hc, hc⟩)

/-- A set whose mask is part of another's is part of it. -/
theorem contains_mono {s r : CharSet} {c : Char} (hs : s.nonAscii = false) (h : s.ascii ||| r.ascii = r.ascii)
    (hc : s.contains c = true) : r.contains c = true := by
  have hlt := lt_of_contains hs hc
  rw [contains_of_lt hlt] at hc ⊢
  rw [← h, BitVec.getLsbD_or, hc, Bool.true_or]

theorem contains_digit {c : Char} (h : c.isDigit) : digit.contains c = true := by
  have hc : '0' ≤ c ∧ c ≤ '9' := by
    unfold Char.isDigit at h
    rw [Bool.and_eq_true, decide_eq_true_eq, decide_eq_true_eq] at h
    exact h
  rw [contains_eq_getLsbD rfl]
  refine getLsbD_mask_toNat.2 ⟨(mem_span (by decide)).2 hc, ?_⟩
  exact Nat.lt_of_le_of_lt hc.2 (by decide)

theorem toNat_beq_toNat (c d : Char) : (c.toNat == d.toNat) = (d == c) := by
  rw [Bool.eq_iff_iff, beq_iff_eq, beq_iff_eq, Char.toNat_inj, eq_comm]

theorem contains_of_single {c d : Char} {s : CharSet} (h : single c = .ok s) :
    s.contains d = (d == c) := by
  unfold single at h
  split at h
  · next hc =>
    obtain rfl := Except.ok.inj h
    rw [← toNat_beq_toNat]
    rcases Nat.lt_or_ge d.toNat 128 with hd | hd
    · rw [contains_of_lt hd, getLsbD_mask]; simp [hd]
    · rw [contains_of_ge hd]
      exact (beq_eq_false_iff_ne.2 (by omega)).symm
  · simp at h

theorem contains_anyOf (ss : List CharSet) (c : Char) :
    (anyOf ss).contains c = ss.any (·.contains c) := by
  have fold (s : CharSet) (rest : List CharSet) (d : String) :
      CharSet.contains ⟨rest.foldl (fun m r => m ||| r.ascii) s.ascii,
        rest.foldl (fun b r => b || r.nonAscii) s.nonAscii, d⟩ c =
      (s.contains c || rest.any (·.contains c)) := by
    induction rest generalizing s with
    | nil => simp [contains]
    | cons r rest ih =>
      have := ih ⟨s.ascii ||| r.ascii, s.nonAscii || r.nonAscii, d⟩
      simp only [List.foldl_cons, List.any_cons]
      rw [this, ← Bool.or_assoc]
      congr 1
      simp only [contains, BitVec.getLsbD_or]
      split <;> rfl
  cases ss with
  | nil => exact contains_nothing c
  | cons s rest => exact fold s rest _

theorem contains_or (s r : CharSet) (c : Char) : (s.or r).contains c = (s.contains c || r.contains c) := by
  simp [or, contains_anyOf]

theorem contains_of_excluding {s r : CharSet} {c d : Char} (h : s.excluding c = .ok r) :
    r.contains d = (s.contains d && d != c) := by
  unfold excluding at h
  split at h
  · next hc =>
    obtain rfl := Except.ok.inj h
    rw [bne, ← toNat_beq_toNat]
    rcases Nat.lt_or_ge d.toNat 128 with hd | hd
    · rw [contains_of_lt hd, contains_of_lt hd, BitVec.getLsbD_and, BitVec.getLsbD_not, getLsbD_mask]
      simp [hd]
    · have hne : c.toNat ≠ d.toNat := by omega
      rw [contains_of_ge hd, contains_of_ge hd, beq_eq_false_iff_ne.2 hne]
      simp
  · simp at h

theorem verify_eq_ok_iff {s : CharSet} {t : Text} {f : Field} :
    s.verify t f = .ok () ↔ s.containsAll t = true := by
  have h : s.containsAll t = true ↔ (t.findIdx? fun c => !s.contains c) = none := by
    simp [containsAll, List.findIdx?_eq_none_iff]
  rw [h, verify]
  split <;> simp_all

end CharSet
end GenericUri
