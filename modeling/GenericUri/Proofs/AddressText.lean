import GenericUri.Proofs.AddressMeaning
import Mathlib.Data.List.Chain

/-!
# AddressText — how addresses of version 6 are written

`Groups.Shortened` relates groups to their text: hex numerals between colons, with `::` in place of the first among the
longest runs of zeros if two zeros stand side by side.  An address of version 4 may follow them, after a colon of its
own unless the run ends the groups.

A numeral is not empty and holds no colon, so no two colons meet but those of the elision.  The text holds `::` once at
most and never `:::`, whether the run touches an end or not (`Host.text_eq_shortened`).
-/

namespace GenericUri

/-! ### Numerals of groups -/

namespace Hexadectet

/-- The text denotes the group, in lower case and without leading zeros. -/
def IsNumeral (t : Text) (g : Hexadectet) : Prop :=
  Denotes t g ∧ (∀ c ∈ t, c.toLower = c) ∧ (t.head? = some '0' → t = ['0'])

theorem toLower_of_mem_hex {n : ℕ} {c : Char} (h : c ∈ hex n) : c.toLower = c := by
  have hdigit : ∀ d < 16, (Nat.digitChar d).toLower = Nat.digitChar d := by decide
  induction n using Nat.base_induction 16 (by decide) with
  | single m hm =>
    rw [hex, Nat.toDigits_of_lt_base hm, List.mem_singleton] at h
    rw [h]
    exact hdigit m hm
  | digit m k hk hm ih =>
    rw [hex, ← Nat.toDigits_append_toDigits (by decide) hm hk, List.mem_append, Nat.toDigits_of_lt_base hk,
      List.mem_singleton] at h
    rcases h with h | rfl
    · exact ih h
    · exact hdigit k hk

theorem isNumeral_text (g : Hexadectet) : IsNumeral g.text g := by
  refine ⟨ofText?_eq_some_iff.1 (ofText?_text g), fun c hc => toLower_of_mem_hex hc, fun h => ?_⟩
  rcases Nat.eq_zero_or_pos g.toNat with h0 | hpos
  · rw [text, h0]
    rfl
  · exact absurd h (head?_toDigits (by decide) (by decide) hpos)

end Hexadectet

/-! ### Colons apart -/

namespace Groups

variable {t l r a b : Text} {ts last : List Text} {gs : List Hexadectet}

/-- No two colons stand side by side. -/
def ColonsApart (t : Text) : Prop := t.IsChain fun c d => c = ':' → d ≠ ':'

theorem ColonsApart.not_append (h : ColonsApart t) : t ≠ l ++ ':' :: ':' :: r := fun ht =>
  List.isChain_iff_forall_rel_of_append_cons_cons.1 h ht rfl rfl

theorem colonsApart_cons (h : ':' ∉ t) (c : Char) : ColonsApart (c :: t) := by
  refine List.isChain_iff_forall_rel_of_append_cons_cons.2 fun c d l r ht _ hd => h ?_
  have hmem : d ∈ (l ++ c :: d :: r).tail := by cases l <;> simp
  rwa [← ht, hd] at hmem

/-- Texts that are not empty and hold no colon. -/
def Pieces (ts : List Text) : Prop := ∀ t ∈ ts, t ≠ [] ∧ ':' ∉ t

theorem Pieces.append {us : List Text} (h : Pieces ts) (h' : Pieces us) : Pieces (ts ++ us) := by
  intro t ht
  exact (List.mem_append.1 ht).elim (h t) (h' t)

theorem pieces_of_denotes (h : List.Forall₂ Hexadectet.Denotes ts gs) : Pieces ts := fun t ht =>
  ⟨(spells_iff_denotes.2 h).ne_nil t ht, (spells_iff_denotes.2 h).colon_not_mem t ht⟩

theorem pieces_of_isNumeral (h : List.Forall₂ Hexadectet.IsNumeral ts gs) : Pieces ts :=
  pieces_of_denotes (h.imp fun _ _ => And.left)

theorem pieces_ipv4 (ip : Ipv4) : Pieces [ip.text] := by
  intro t ht
  obtain rfl := List.mem_singleton.1 ht
  exact ⟨Ipv4.ne_nil_of_ofText? (Ipv4.ofText?_text ip), Ipv4.not_mem_text (by decide) (by decide) ip⟩

/-- Between pieces colons stand alone, also with a colon at both ends. -/
theorem Pieces.colonsApart (h : Pieces ts) : ColonsApart (':' :: closed ts) := by
  induction ts with
  | nil => exact .singleton ':'
  | cons t ts ih =>
    obtain ⟨⟨hne, hcolon⟩, hts⟩ := List.forall_mem_cons.1 h
    have hclosed : ':' :: closed (t :: ts) = (':' :: t) ++ ':' :: closed ts := by simp [closed]
    rw [hclosed, ColonsApart, List.isChain_append]
    refine ⟨colonsApart_cons hcolon ':', ih hts, fun c hc d _ heq => absurd ?_ hcolon⟩
    obtain ⟨x, u, rfl⟩ := List.exists_cons_of_ne_nil hne
    rw [← heq]
    exact List.mem_of_getLast? (by simpa [List.getLast?_cons_cons] using hc)

theorem Pieces.colonsApart_before (h : Pieces ts) : ColonsApart (Text.join ':' ts ++ [':']) := by
  rcases eq_or_ne ts [] with rfl | hne
  · exact .singleton ':'
  · rw [join_append_colon hne]
    exact h.colonsApart.tail

theorem Pieces.colonsApart_after (h : Pieces ts) : ColonsApart (':' :: Text.join ':' ts) := by
  rcases eq_or_ne ts [] with rfl | hne
  · exact .singleton ':'
  · have := h.colonsApart
    rw [← join_append_colon hne, ← List.cons_append] at this
    exact this.left_of_append

/-- Where colons are apart on both sides of an elision, it is the only one. -/
theorem eq_of_append_colons (hl : ColonsApart (l ++ [':'])) (hr : ColonsApart (':' :: r))
    (h : l ++ ':' :: ':' :: r = a ++ ':' :: ':' :: b) : a = l := by
  rcases List.append_eq_append_iff.1 h with ⟨x, rfl, hx⟩ | ⟨x, rfl, hx⟩
  · -- a later elision would stand in what follows the first colon
    cases x with
    | nil => exact List.append_nil l
    | cons c x => exact absurd (List.cons.inj hx).2 hr.not_append
  · cases x with
    | nil => exact (List.append_nil a).symm
    | cons c x =>
      obtain ⟨hc, hx⟩ := List.cons.inj hx
      cases x with
      | nil => exact absurd (by simp [← hc]) (hl.not_append (l := a) (r := []))
      | cons d x =>
        have hd := (List.cons.inj hx).1
        exact absurd (by simp [← hc, ← hd]) (hl.not_append (l := a) (r := x ++ [':']))

/-! ### Groups as they are written -/

/-- The text of the groups followed by `last`: numerals between colons, with an elision in place of the first longest
run of zeros if two zeros stand side by side. -/
inductive Shortened (last : List Text) (gs : List Hexadectet) : Text → Prop
  | full {ts : List Text} (hzeros : ¬ [0, 0] <:+: gs) (hts : List.Forall₂ Hexadectet.IsNumeral ts gs) :
      Shortened last gs (Text.join ':' (ts ++ last))
  | elided {left right : List Hexadectet} {length : ℕ} {ls rs : List Text} (hzeros : [0, 0] <:+: gs)
      (hrun : FirstLongestRun gs left length right) (hls : List.Forall₂ Hexadectet.IsNumeral ls left)
      (hrs : List.Forall₂ Hexadectet.IsNumeral rs right) :
      Shortened last gs (Text.join ':' ls ++ ':' :: ':' :: Text.join ':' (rs ++ last))

theorem isNumeral_text (gs : List Hexadectet) : List.Forall₂ Hexadectet.IsNumeral (gs.map Hexadectet.text) gs := by
  rw [List.forall₂_map_left_iff]
  exact List.forall₂_same.2 fun g _ => g.isNumeral_text

/-- How `elided` writes groups, by the two cases of `Shortened`. -/
theorem elided_shortened (gs : List Hexadectet) :
    (¬ [0, 0] <:+: gs ∧ elided gs = (joined gs, false)) ∨
      ∃ left length right, [0, 0] <:+: gs ∧ FirstLongestRun gs left length right ∧
        elided gs = (joined left ++ ':' :: ':' :: joined right, right.isEmpty) := by
  obtain ⟨left, length, right, hrun, h⟩ := exists_firstLongestRun gs
  by_cases hlt : length < 2
  · rw [if_pos hlt] at h
    exact .inl ⟨fun hzeros => absurd (hrun.two_le_iff.2 hzeros) (Nat.not_le.2 hlt), h⟩
  · rw [if_neg hlt] at h
    exact .inr ⟨left, length, right, hrun.two_le_iff.1 (Nat.not_lt.1 hlt), hrun, h⟩

theorem shortened_text {n : ℕ} (g : Groups n) : Shortened [] g.1 g.text := by
  rcases elided_shortened g.1 with ⟨hzeros, h⟩ | ⟨left, length, right, hzeros, hrun, h⟩
  · have hfull : Shortened [] g.1 _ := .full hzeros (isNumeral_text g.1)
    rw [List.append_nil] at hfull
    rw [text, h]
    exact hfull
  · have helided : Shortened [] g.1 _ := .elided hzeros hrun (isNumeral_text left) (isNumeral_text right)
    rw [List.append_nil] at helided
    rw [text, h]
    exact helided

theorem joined_append_colon (h : gs ≠ []) (u : Text) :
    joined gs ++ ':' :: u = Text.join ':' (gs.map Hexadectet.text ++ [u]) := by
  rw [join_concat, ← join_append_colon (by simpa using h)]
  simp [joined]

theorem shortened_dottedText (g : Groups 6) (ip : Ipv4) : Shortened [ip.text] g.1 (g.dottedText ip) := by
  rcases elided_shortened g.1 with ⟨hzeros, h⟩ | ⟨left, length, right, hzeros, hrun, h⟩
  · have hne : g.1 ≠ [] := List.ne_nil_of_length_pos (by rw [g.2]; decide)
    have hfull : Shortened [ip.text] g.1 _ := .full hzeros (isNumeral_text g.1)
    rw [← joined_append_colon hne] at hfull
    rw [dottedText, h]
    simpa using hfull
  · have helided : Shortened [ip.text] g.1 _ := .elided hzeros hrun (isNumeral_text left) (isNumeral_text right)
    rw [dottedText, h]
    cases right with
    | nil => simpa [joined] using helided
    | cons x right =>
      rw [← joined_append_colon (by simp)] at helided
      simpa [joined] using helided

/-- There is one elision at most. -/
theorem Shortened.eq_of_append_colons {a' b' : Text} (h : Shortened last gs t) (hlast : Pieces last)
    (hab : t = a ++ ':' :: ':' :: b) (hab' : t = a' ++ ':' :: ':' :: b') : a = a' := by
  cases h with
  | full _ hts =>
    have hapart : ColonsApart _ := ((pieces_of_isNumeral hts).append hlast).colonsApart_after.tail
    exact absurd hab hapart.not_append
  | elided _ _ hls hrs =>
    have hl := (pieces_of_isNumeral hls).colonsApart_before
    have hr := ((pieces_of_isNumeral hrs).append hlast).colonsApart_after
    exact (Groups.eq_of_append_colons hl hr hab).trans (Groups.eq_of_append_colons hl hr hab').symm

/-- Three colons in a row would be two elisions. -/
theorem Shortened.not_infix (h : Shortened last gs t) (hlast : Pieces last) : ¬ [':', ':', ':'] <:+: t := by
  rintro ⟨a, b, ht⟩
  have hfirst : t = a ++ ':' :: ':' :: (':' :: b) := by simp [← ht]
  have hsecond : t = (a ++ [':']) ++ ':' :: ':' :: b := by simp [← ht]
  have := congrArg List.length (h.eq_of_append_colons hlast hfirst hsecond)
  simp at this

end Groups

/-! ### Hosts -/

namespace Host

/-- The groups that an address of version 6 is written with, and the texts that follow them. -/
def written? : Host → Option (List Hexadectet × List Text)
  | ipv6 g => some (g.1, [])
  | ipv6Dotted g last => some (g.1, [last.text])
  | _ => none

theorem shortened_of_written? {h : Host} {gs : List Hexadectet} {last : List Text}
    (hw : h.written? = some (gs, last)) :
    Groups.Pieces last ∧ ∃ t, h.text = '[' :: t ++ [']'] ∧ Groups.Shortened last gs t := by
  cases h with
  | ipv6 g =>
    obtain ⟨rfl, rfl⟩ := Prod.mk.inj (Option.some.inj hw)
    exact ⟨nofun, g.text, rfl, Groups.shortened_text g⟩
  | ipv6Dotted g ip =>
    obtain ⟨rfl, rfl⟩ := Prod.mk.inj (Option.some.inj hw)
    exact ⟨Groups.pieces_ipv4 ip, g.dottedText ip, rfl, Groups.shortened_dottedText g ip⟩
  | registeredName => cases hw
  | ipv4 => cases hw
  | ipvFuture => cases hw

/-- An address of version 6 is written in brackets, with its first longest run of zeros elided if it is of two groups or
more.  There is at most one elision, no colon stands beside it, and a single zero between other groups is never part of
it. -/
theorem text_eq_shortened {h : Host} {gs : List Hexadectet} {last : List Text} (hw : h.written? = some (gs, last)) :
    ∃ t, h.text = '[' :: t ++ [']'] ∧ Groups.Shortened last gs t ∧
      (∀ a b a' b', t = a ++ ':' :: ':' :: b → t = a' ++ ':' :: ':' :: b' → a = a') ∧ ¬ [':', ':', ':'] <:+: t ∧
      ∀ left length right, Groups.FirstLongestRun gs left length right → 2 ≤ length →
        ∀ l r x y, gs = l ++ x :: 0 :: y :: r → x ≠ 0 → y ≠ 0 →
          l ++ [x, 0, y] <+: left ∨ x :: 0 :: y :: r <:+ right := by
  obtain ⟨hlast, t, ht, hshort⟩ := shortened_of_written? hw
  refine ⟨t, ht, hshort, ?_, hshort.not_infix hlast, ?_⟩
  · intro a b a' b' hab hab'
    exact hshort.eq_of_append_colons hlast hab hab'
  · intro left length right hrun hle l r x y hgs hx hy
    exact hrun.single_zero hle hgs hx hy

/-- Of two runs as long the first is elided, and the single zero is not. -/
theorem text_eq_shortened_two_runs :
    let h := ipv6 ⟨[1, 0, 0, 2, 0, 3, 0, 0], rfl⟩
    h.written? = some ([1, 0, 0, 2, 0, 3, 0, 0], []) ∧ h.text = "[1::2:0:3:0:0]".toList ∧
      Groups.Shortened [] [1, 0, 0, 2, 0, 3, 0, 0] "1::2:0:3:0:0".toList ∧
      ¬ [':', ':', ':'] <:+: "1::2:0:3:0:0".toList := by
  intro h
  have hw : h.written? = some ([1, 0, 0, 2, 0, 3, 0, 0], []) := rfl
  have htext : h.text = '[' :: "1::2:0:3:0:0".toList ++ [']'] := by decide
  obtain ⟨t, ht, hshort, -, hcolons, -⟩ := text_eq_shortened hw
  obtain rfl : t = "1::2:0:3:0:0".toList :=
    List.append_cancel_right (List.cons.inj (ht.symm.trans htext)).2
  exact ⟨hw, htext, hshort, hcolons⟩

end Host
end GenericUri
