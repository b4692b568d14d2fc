import GenericUri.Proofs.Authority
import GenericUri.Proofs.Symbols
import Mathlib

/-!
# LetterCase — readers that do not tell capitals from small letters

Lower-casing the ASCII letters of a text changes none of its separators, so it is cut where it was cut before
(`Text.cutFirst_asciiLower`, `Text.splitOn_asciiLower`), and none of its escapes, so it decodes to the same text up to the
case of letters (`Percent.decode_asciiLower`).

Each kind of host takes the case away in its own way: a name is lower-cased after it is decoded, a group is a number, and
a future address is spelled in one way.  So the reader of hosts gives what it gives for the lower-cased text
(`Host.ofText?_asciiLower`), and so does the reader of scheme names (`SchemeName.ofText_asciiLower`).
-/

namespace GenericUri

variable {t : Text} {c d : Char}

/-! ### Characters and texts -/

/-- No letter becomes another character, and no other character becomes a letter. -/
theorem toLower_eq_iff (hd : d.isAlpha = false) : c.toLower = d ↔ c = d := by
  by_cases hc : c.isUpper
  · have halpha : c.isAlpha = true := by simp [Char.isAlpha, hc]
    refine iff_of_false ?_ ?_
    · rintro rfl
      rw [Char.isAlpha_toLower_eq_isAlpha, halpha] at hd
      cases hd
    · rintro rfl
      rw [halpha] at hd
      cases hd
  · rw [Char.toLower_eq_of_not_isUpper hc]

/-- A first or last character that is no letter is one in either case. -/
theorem map_toLower_eq_some_iff {o : Option Char} (hd : d.isAlpha = false) : o.map Char.toLower = some d ↔ o = some d := by
  simp only [Option.map_eq_some_iff, toLower_eq_iff hd, exists_eq_right]

theorem CharSet.contains_upper (h : c.isUpper) : CharSet.upper.contains c = true := by
  have hc : 'A' ≤ c ∧ c ≤ 'Z' := by simpa [Char.isUpper, Char.le_def] using h
  rw [CharSet.contains_eq_getLsbD rfl]
  refine CharSet.getLsbD_mask_toNat.2 ⟨(CharSet.mem_span (by decide)).2 hc, ?_⟩
  exact Nat.lt_of_le_of_lt hc.2 (by decide)

/-- What is the same of each capital and its small letter is the same of each character. -/
theorem apply_toLower {α : Type} {f : Char → α} (h : ∀ c ∈ CharSet.upper.members, f c.toLower = f c) (c : Char) :
    f c.toLower = f c := by
  by_cases hc : c.isUpper
  · have hu := CharSet.contains_upper hc
    exact h c (CharSet.mem_members.2 ⟨CharSet.lt_of_contains rfl hu, hu⟩)
  · rw [Char.toLower_eq_of_not_isUpper hc]

namespace Text

variable {sep : Char} {s : Text}

theorem asciiLower_cons (c : Char) (t : Text) : asciiLower (c :: t) = c.toLower :: asciiLower t := rfl

theorem asciiLower_append (s t : Text) : asciiLower (s ++ t) = asciiLower s ++ asciiLower t := List.map_append

theorem asciiLower_eq_nil_iff : asciiLower t = [] ↔ t = [] := List.map_eq_nil_iff

theorem asciiLower_asciiLower (t : Text) : asciiLower (asciiLower t) = asciiLower t := by
  simp [asciiLower]

theorem asciiUpper_asciiLower (t : Text) : asciiUpper (asciiLower t) = asciiUpper t := by
  simp [asciiLower, asciiUpper]

theorem mem_asciiLower_iff (hd : d.isAlpha = false) : d ∈ asciiLower t ↔ d ∈ t := by
  simp only [asciiLower, List.mem_map, toLower_eq_iff hd, exists_eq_right]

/-- Only one text without letters becomes it. -/
theorem asciiLower_eq_iff (hs : ∀ c ∈ s, c.isAlpha = false) : asciiLower t = s ↔ t = s := by
  induction s generalizing t with
  | nil => exact asciiLower_eq_nil_iff
  | cons d s ih =>
    obtain ⟨hd, hs⟩ := List.forall_mem_cons.1 hs
    cases t with
    | nil => exact ⟨nofun, nofun⟩
    | cons c t => rw [asciiLower_cons, List.cons.injEq, List.cons.injEq, toLower_eq_iff hd, ih hs]

theorem cutFirst_asciiLower (hsep : sep.isAlpha = false) (t : Text) :
    cutFirst sep (asciiLower t) = (cutFirst sep t).map (Prod.map asciiLower asciiLower) := by
  induction t with
  | nil => rfl
  | cons c t ih =>
    rw [asciiLower_cons, cutFirst, cutFirst]
    by_cases hc : c = sep
    · rw [if_pos hc, if_pos ((toLower_eq_iff hsep).2 hc)]
      rfl
    · rw [if_neg hc, if_neg (mt (toLower_eq_iff hsep).1 hc), ih, Option.map_map, Option.map_map]
      rfl

theorem cutLast_asciiLower (hsep : sep.isAlpha = false) (t : Text) :
    cutLast sep (asciiLower t) = (cutLast sep t).map (Prod.map asciiLower asciiLower) := by
  have hreverse : (asciiLower t).reverse = asciiLower t.reverse := List.map_reverse.symm
  rw [cutLast, cutLast, hreverse, cutFirst_asciiLower hsep]
  cases cutFirst sep t.reverse with
  | none => rfl
  | some cut => exact congrArg some (Prod.ext List.map_reverse.symm List.map_reverse.symm)

theorem splitOn_asciiLower (hsep : sep.isAlpha = false) (t : Text) :
    (asciiLower t).splitOn sep = (t.splitOn sep).map asciiLower :=
  splitOn_map ((toLower_eq_iff hsep).2 rfl) fun _ _ hne => mt (toLower_eq_iff hsep).1 hne

end Text

/-! ### Sets and escapes -/

/-- Whether a set takes small letters and capitals alike. -/
def CharSet.IgnoresCase (s : CharSet) : Prop := ∀ c : Char, s.contains c.toLower = s.contains c

theorem CharSet.IgnoresCase.containsAll_asciiLower {s : CharSet} (h : s.IgnoresCase) (t : Text) :
    s.containsAll (Text.asciiLower t) = s.containsAll t := by
  rw [containsAll, containsAll, Text.asciiLower, List.all_map]
  exact congrArg t.all (funext h)

theorem hexValue?_toLower (c : Char) : hexValue? c.toLower = hexValue? c :=
  apply_toLower (forall_mem_of_all (by decide)) c

namespace Percent

variable {allowed : CharSet} {position : Nat} {run : List UInt8} {ts : List Token}

/-- A symbol with its letter in lower case; an escape is a number, however it is written. -/
def Token.lower : Token → Token
  | raw c => raw c.toLower
  | tk => tk

theorem tokens_asciiLower (t : Text) : tokens (Text.asciiLower t) = (tokens t).map Token.lower := by
  fun_induction tokens t with
  | case1 => rfl
  | case2 x y t a b hb ha ih =>
    have htail : Text.asciiLower ('%' :: x :: y :: t) = '%' :: x.toLower :: y.toLower :: Text.asciiLower t := rfl
    rw [htail, tokens_escape_cons ((hexValue?_toLower x).trans ha) ((hexValue?_toLower y).trans hb), ih]
    rfl
  | case3 x y t hno ih =>
    show tokens ('%' :: x.toLower :: y.toLower :: Text.asciiLower t) = _
    rw [tokens]
    split
    · next a b ha hb =>
      rw [hexValue?_toLower] at ha hb
      exact (hno a b ha hb).elim
    · rw [List.map_cons, ← ih]
      rfl
  | case4 c t hno ih =>
    by_cases hc : c = '%'
    · -- fewer than two characters follow
      subst hc
      rcases t with _ | ⟨x, _ | ⟨y, t⟩⟩
      · rfl
      · rw [List.map_cons, ← ih]
        rfl
      · exact (hno x y t rfl rfl).elim
    · have hlower : c.toLower ≠ '%' := mt (toLower_eq_iff (by decide)).1 hc
      rw [Text.asciiLower_cons, tokens_raw hlower, List.map_cons, ih, if_neg hc]
      rfl

/-- What is read from a raw character on, if anything is. -/
theorem toOption_decodeTokens_raw (c : Char) (ts : List Token) :
    (decodeTokens allowed position run (.raw c :: ts)).toOption =
      if allowed.contains c then (closeRun position run).toOption.bind fun front =>
        (decodeTokens allowed (position + 1) [] ts).toOption.map fun back => front ++ c :: back
      else none := by
  rw [decodeTokens]
  cases closeRun position run with
  | error e => simp [bind, Except.bind, Except.toOption]
  | ok front =>
    by_cases hc : allowed.contains c = true
    · cases decodeTokens allowed (position + 1) [] ts <;> simp [bind, Except.bind, Except.toOption, hc, pure, Except.pure]
    · simp [bind, Except.bind, Except.toOption, hc, throw, throwThe, MonadExceptOf.throw]

/-- Symbols decode whatever the case of their letters, and to texts that differ in no more. -/
theorem decodeTokens_lower (hs : allowed.IgnoresCase) :
    (decodeTokens allowed position run (ts.map Token.lower)).toOption.map Text.asciiLower =
      (decodeTokens allowed position run ts).toOption.map Text.asciiLower := by
  induction ts generalizing position run with
  | nil => rfl
  | cons tk ts ih =>
    cases tk with
    | stray => rfl
    | octet b => exact ih
    | raw c =>
      have hback : ∀ (front : Text) (c : Char) (back : Option Text),
          (back.map fun back => front ++ c :: back).map Text.asciiLower =
            (back.map Text.asciiLower).map fun back => Text.asciiLower front ++ c.toLower :: back := by
        intro front c back
        cases back with
        | none => rfl
        | some back => exact congrArg some (Text.asciiLower_append front (c :: back))
      rw [List.map_cons, Token.lower, toOption_decodeTokens_raw, toOption_decodeTokens_raw, hs]
      split
      · simp only [Option.map_bind, Function.comp_def, hback, ih, Char.toLower_toLower_eq_toLower]
      · rfl

theorem decode_asciiLower (hs : allowed.IgnoresCase) (t : Text) :
    (decode allowed (Text.asciiLower t)).toOption.map Text.asciiLower =
      (decode allowed t).toOption.map Text.asciiLower := by
  rw [decode, tokens_asciiLower]
  exact decodeTokens_lower hs

end Percent

/-! ### Lower-casing -/

namespace Unicode

theorem isCased_toLower (c : Char) : isCased c.toLower = isCased c :=
  apply_toLower (forall_mem_of_all (by decide +kernel)) c

theorem isCaseIgnorable_toLower (c : Char) : isCaseIgnorable c.toLower = isCaseIgnorable c :=
  apply_toLower (forall_mem_of_all (by decide +kernel)) c

theorem lowerChar_toLower (c : Char) : lowerChar c.toLower = lowerChar c :=
  apply_toLower (forall_mem_of_all (by decide +kernel)) c

theorem meetsCased_asciiLower (t : Text) : meetsCased (Text.asciiLower t) = meetsCased t := by
  have hignorable : isCaseIgnorable ∘ Char.toLower = isCaseIgnorable := funext isCaseIgnorable_toLower
  rw [meetsCased, meetsCased, Text.asciiLower, List.dropWhile_map, hignorable, List.head?_map, Option.any_map]
  congr 1
  exact funext isCased_toLower

theorem lowerAfter_asciiLower (before t : Text) :
    lowerAfter (Text.asciiLower before) (Text.asciiLower t) = lowerAfter before t := by
  induction t generalizing before with
  | nil => rfl
  | cons c t ih =>
    have hsigma : c.toLower = 'Σ' ↔ c = 'Σ' := toLower_eq_iff (by decide)
    have hback := ih (c :: before)
    rw [Text.asciiLower_cons] at hback
    rw [Text.asciiLower_cons, lowerAfter, lowerAfter, hback, lowerChar_toLower, lowerSigma, lowerSigma,
      meetsCased_asciiLower, meetsCased_asciiLower]
    simp only [hsigma]

/-- A text may be lower-cased in its ASCII letters first. -/
theorem lowercase_asciiLower (t : Text) : lowercase (Text.asciiLower t) = lowercase t := lowerAfter_asciiLower [] t

end Unicode

/-! ### Addresses -/

theorem Ipv4.ofText?_asciiLower (t : Text) : ofText? (Text.asciiLower t) = ofText? t := by
  refine Option.ext fun ip => ?_
  have hplain : ∀ c ∈ ip.text, c.isAlpha = false := by
    intro c hc
    rcases mem_of_ofText? (ofText?_text ip) hc with rfl | h
    · decide
    · simp only [Char.isDigit, Char.isAlpha, Char.isUpper, Char.isLower, UInt32.le_iff_toNat_le] at h ⊢
      simp at h ⊢
      omega
  rw [ofText?_eq_some_iff_eq_text, ofText?_eq_some_iff_eq_text, Text.asciiLower_eq_iff hplain]

theorem Hexadectet.ofText?_asciiLower (t : Text) : ofText? (Text.asciiLower t) = ofText? t := by
  have hvalue : hexValue? ∘ Char.toLower = hexValue? := funext hexValue?_toLower
  rw [ofText?, ofText?, Text.asciiLower, List.length_map, List.mapM_map, hvalue]

namespace Groups

theorem listOfText?_asciiLower (t : Text) : listOfText? (Text.asciiLower t) = listOfText? t := by
  have hgroup : Hexadectet.ofText? ∘ Text.asciiLower = Hexadectet.ofText? := funext Hexadectet.ofText?_asciiLower
  rw [listOfText?, listOfText?, Text.splitOn_asciiLower (by decide), List.mapM_map, hgroup]
  exact if_congr Text.asciiLower_eq_nil_iff rfl rfl

theorem cutElision_asciiLower (t : Text) :
    cutElision (Text.asciiLower t) = (cutElision t).map (Prod.map Text.asciiLower Text.asciiLower) := by
  induction t with
  | nil => rfl
  | cons c t ih =>
    by_cases hc : c = ':' ∧ t.head? = some ':'
    · obtain ⟨rfl, ht⟩ := hc
      obtain ⟨t, rfl⟩ := List.head?_eq_some_iff.1 ht
      rfl
    · have hlower : ¬ (c.toLower = ':' ∧ (Text.asciiLower t).head? = some ':') := by
        rwa [Text.asciiLower, List.head?_map, toLower_eq_iff (by decide), map_toLower_eq_some_iff (by decide)]
      rw [Text.asciiLower_cons, cutElision_cons (not_and.1 hlower), cutElision_cons (not_and.1 hc), ih, Option.map_map,
        Option.map_map]
      rfl

theorem ofText?_asciiLower (t : Text) : ofText? (Text.asciiLower t) = ofText? t := by
  rw [ofText?, ofText?, cutElision_asciiLower]
  cases cutElision t with
  | none =>
    show listOfText? (Text.asciiLower t) >>= _ = _
    rw [listOfText?_asciiLower]
  | some cut =>
    obtain ⟨l, r⟩ := cut
    simp only [Option.map_some, Prod.map_apply, cutElision_asciiLower, Option.isSome_map, listOfText?_asciiLower]

theorem ofDottedText?_asciiLower (t : Text) : ofDottedText? (Text.asciiLower t) = ofDottedText? t := by
  have hfront : ∀ front : Text,
      ofText? (Text.asciiLower front ++ [':', '0', ':', '0']) = ofText? (front ++ [':', '0', ':', '0']) := by
    intro front
    rw [← ofText?_asciiLower (front ++ _), Text.asciiLower_append]
    rfl
  rw [ofDottedText?, ofDottedText?, Text.cutLast_asciiLower (by decide)]
  cases Text.cutLast ':' t with
  | none => rfl
  | some cut =>
    obtain ⟨front, last⟩ := cut
    simp [hfront, Ipv4.ofText?_asciiLower]

end Groups

/-! ### Hosts -/

namespace Host

theorem ignoresCase_registeredName : CharSet.registeredName.IgnoresCase :=
  apply_toLower (forall_mem_of_all (by decide))

theorem ignoresCase_userInfo : CharSet.userInfo.IgnoresCase :=
  apply_toLower (forall_mem_of_all (by decide))

theorem ofName_asciiLower (name : Text) : ofName (Text.asciiLower name) = ofName name := by
  rw [ofName, ofName, Ipv4.ofText?_asciiLower, Unicode.lowercase_asciiLower]

theorem ofFuture_asciiLower (version address : Text) :
    (ofFuture (Text.asciiLower version) (Text.asciiLower address)).toOption = (ofFuture version address).toOption := by
  refine toOption_congr fun h => ?_
  rw [ofFuture_eq_ok_iff, ofFuture_eq_ok_iff, Text.asciiUpper_asciiLower, Text.asciiLower_asciiLower,
    ignoresCase_userInfo.containsAll_asciiLower, ne_eq, ne_eq, Text.asciiLower_eq_nil_iff, Text.asciiLower_eq_nil_iff]

theorem startsFuture_asciiLower (t : Text) : startsFuture (Text.asciiLower t) ↔ startsFuture t := by
  have hv (c : Char) : (c.toLower = 'v' ∨ c.toLower = 'V') ↔ (c = 'v' ∨ c = 'V') := by
    have h := apply_toLower (f := fun c => decide (c = 'v' ∨ c = 'V')) (forall_mem_of_all (by decide)) c
    exact decide_eq_decide.1 h
  cases t with
  | nil => rfl
  | cons c t => simpa only [startsFuture, Text.asciiLower_cons, List.head?_cons, Option.some.injEq] using hv c

theorem ofLiteral?_asciiLower (t : Text) : ofLiteral? (Text.asciiLower t) = ofLiteral? t := by
  by_cases ht : startsFuture t
  · obtain ⟨v, hv, rest, rfl⟩ := startsFuture_iff.1 ht
    have hlower : v.toLower = 'v' := by
      rcases hv with rfl | rfl <;> rfl
    rw [Text.asciiLower_cons, ofLiteral?_future hv, ofLiteral?_future (.inl hlower), Text.cutFirst_asciiLower (by decide)]
    cases Text.cutFirst '.' rest with
    | none => rfl
    | some cut => exact ofFuture_asciiLower cut.1 cut.2
  · have hdot : (Text.asciiLower t).contains '.' = t.contains '.' := by
      rw [Bool.eq_iff_iff, List.contains_iff_mem, List.contains_iff_mem, Text.mem_asciiLower_iff (by decide)]
    rw [ofLiteral?_of_not ht, ofLiteral?_of_not (mt (startsFuture_asciiLower t).1 ht), Groups.ofDottedText?_asciiLower,
      Groups.ofText?_asciiLower, hdot]

theorem ofText?_asciiLower (t : Text) : ofText? (Text.asciiLower t) = ofText? t := by
  by_cases ht : t.head? = some '['
  · obtain ⟨rest, rfl⟩ := List.head?_eq_some_iff.1 ht
    have hlast : (Text.asciiLower rest).getLast? = some ']' ↔ rest.getLast? = some ']' := by
      rw [Text.asciiLower, List.getLast?_map, map_toLower_eq_some_iff (by decide)]
    show (if (Text.asciiLower rest).getLast? = some ']' then ofLiteral? (Text.asciiLower rest).dropLast else none) =
      if rest.getLast? = some ']' then ofLiteral? rest.dropLast else none
    have hdrop : (Text.asciiLower rest).dropLast = Text.asciiLower rest.dropLast := List.map_dropLast.symm
    rw [hdrop, ofLiteral?_asciiLower]
    exact if_congr hlast rfl rfl
  · have hhead : (Text.asciiLower t).head? ≠ some '[' := by
      rwa [Text.asciiLower, List.head?_map, ne_eq, map_toLower_eq_some_iff (by decide)]
    have hname : ∀ o : Option Text, o.map ofName = (o.map Text.asciiLower).map ofName := by
      intro o
      rw [Option.map_map]
      congr 1
      exact (funext ofName_asciiLower).symm
    rw [ofText?_of_head?_ne ht, ofText?_of_head?_ne hhead, hname, hname (Percent.decode _ t).toOption,
      Percent.decode_asciiLower ignoresCase_registeredName]

end Host

/-! ### Schemes -/

theorem SchemeName.ofText_asciiLower (t : Text) : (ofText (Text.asciiLower t)).toOption = (ofText t).toOption := by
  have halpha : CharSet.alpha.IgnoresCase := apply_toLower (forall_mem_of_all (by decide))
  have htrailing : CharSet.schemeTrailing.IgnoresCase := apply_toLower (forall_mem_of_all (by decide))
  refine toOption_congr fun n => ?_
  rw [ofText_eq_ok_iff, ofText_eq_ok_iff, Text.asciiLower_asciiLower]
  cases t with
  | nil => simp [Text.asciiLower]
  | cons c t =>
    constructor
    · rintro ⟨_, _, ⟨⟩, hc, hr, hn⟩
      exact ⟨c, t, rfl, (halpha c).symm.trans hc, (htrailing.containsAll_asciiLower t).symm.trans hr, hn⟩
    · rintro ⟨_, _, ⟨⟩, hc, hr, hn⟩
      exact ⟨c.toLower, Text.asciiLower t, rfl, (halpha c).trans hc, (htrailing.containsAll_asciiLower t).trans hr, hn⟩

end GenericUri
