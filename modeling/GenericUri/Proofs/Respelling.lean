import GenericUri.Proofs.Encoding
import GenericUri.Proofs.Symbols

/-!
# Respelling — which escapes an encoding can do without

Text without needless escapes says the same to a reader that takes each raw character as itself.  An encoding need not:
it may not take the character at all, take it for another one, or take it as a delimiter.  `meaning` says what a raw
character is to an encoding, and `decode_plainText_iff` that a payload survives exactly if each character that comes to
stand raw means itself.

`Means` is what symbols mean to an encoding.  To one of texts they are read as such; at a delimiter they are cut first,
and a delimiter that comes to stand raw cuts them once more often (`means_plain_iff`).
-/

namespace GenericUri

/-! ### What symbols mean to an encoding -/

namespace Encoding

open Percent (Token)

variable {n : Nat} {e : Encoding n} {allowed : CharSet} {c : Char} {ts : List Token} {v : Payload n}

/-- What a raw character is to an encoding: a character of the text, or nothing if it delimits or is not taken. -/
def meaning : {n : Nat} → Encoding n → Char → Option Char
  | _, percent allowed, c => if allowed.contains c then some c else none
  | _, substituted plain written inner, c => if c = written then some plain else inner.meaning c
  | _, literal _ inner, c => inner.meaning c
  | _, verbatim, c => some c
  | _, delimited delimiter element, c => if c = delimiter then none else element.meaning c

/-- What symbols mean to an encoding. -/
def Means : {n : Nat} → Encoding n → List Token → Payload n → Prop
  | 0, e, ts, s => Percent.Reads (ts.map (Token.under e.meaning)) s
  | _ + 1, delimited delimiter element, ts, vs => List.Forall₂ element.Means (ts.splitOn (.raw delimiter)) vs
termination_by structural n => n

/-- Pieces are read in order if each piece is read by its symbols. -/
theorem mapM_splitOn_eq_ok_iff {α : Type} {f : Text → Except DecodingError α} {R : List Token → α → Prop}
    {l : List α} (hc : c ≠ '%' ∧ CharSet.hexDigit.contains c = false)
    (h : ∀ us ∈ ts.splitOn (.raw c), ∀ a, f (us.flatMap Token.text) = .ok a ↔ R us a) :
    ((ts.flatMap Token.text).splitOn c).mapM f = .ok l ↔ List.Forall₂ R (ts.splitOn (.raw c)) l := by
  rw [Percent.splitOn_text hc, mapM_eq_ok_iff, List.forall₂_map_left_iff]
  exact forall₂_congr_of_mem h

/-- An encoding reads text by its symbols. -/
theorem decode_eq_ok_iff_means (ho : Over allowed e) (hs : e.Separate) (hp : ∀ tk ∈ ts, tk.Proper) :
    e.decode (ts.flatMap Token.text) = .ok v ↔ e.Means ts v := by
  induction e generalizing ts with
  | percent s =>
    show Percent.decode s _ = _ ↔ Percent.Reads (ts.map (Token.under (percent s).meaning)) v
    rw [Percent.decode_eq_ok_iff, Percent.tokens_flatMap_text hp,
      Percent.reads_under_iff_fits (f := (percent s).meaning) fun c => rfl]
  | substituted p w inner ih =>
    have hw := wraps_substituted p w inner
    show (((ts.flatMap Token.text).splitOn w).mapM inner.decode).map (Text.join p) = _ ↔
      Percent.Reads (ts.map (Token.under (substituted p w inner).meaning)) v
    have hother : ∀ c, c ≠ w → (substituted p w inner).meaning c = inner.meaning c := fun c hc => if_neg hc
    rw [map_eq_ok_iff, Percent.reads_under_iff_splitOn (if_pos rfl) hother]
    refine exists_congr fun ss => and_congr_left fun _ => ?_
    exact mapM_splitOn_eq_ok_iff (hs.plain w List.mem_cons_self)
      fun us hus s => ih (hw.over ho) (hw.separate hs) (forall_mem_of_splitOn hp us hus)
  | literal word inner ih => exact ih ho.of_literal hs.of_literal hp
  | verbatim => cases ho.base
  | delimited d element ih =>
    have hw := wraps_delimited d element
    exact mapM_splitOn_eq_ok_iff (hs.plain d List.mem_cons_self)
      fun us hus v => ih (hw.over ho) (hw.separate hs) (forall_mem_of_splitOn hp us hus)

theorem keeps_delimited {d : Char} {element : Encoding n} {tk : Token} :
    tk.Keeps (delimited d element).meaning ↔ (tk ≠ .raw d → tk.plain ≠ .raw d) ∧ tk.Keeps element.meaning := by
  cases tk with
  | octet b =>
    by_cases hu : CharSet.unreserved.contains (Char.ofNat b.toNat) = true
    · by_cases hd : Char.ofNat b.toNat = d
      · have hm : (delimited d element).meaning d = none := if_pos rfl
        simp [Token.Keeps, hm, Token.plain_octet hu, hd ▸ hu, hd]
      · have hm : (delimited d element).meaning (Char.ofNat b.toNat) = element.meaning (Char.ofNat b.toNat) := if_neg hd
        simp [Token.Keeps, hm, Token.plain_octet hu, hd]
    · simp [Token.Keeps, hu, Token.plain_octet_of_not hu]
  | raw c => exact ⟨fun _ => ⟨id, trivial⟩, fun _ => trivial⟩
  | stray => exact ⟨fun _ => ⟨id, trivial⟩, fun _ => trivial⟩

/-- Symbols mean the same payload without needless escapes if each of these belonged to a character that means itself. -/
theorem means_plain_iff (h : e.Means ts v) : e.Means (ts.map Token.plain) v ↔ ∀ tk ∈ ts, tk.Keeps e.meaning := by
  induction n generalizing ts with
  | zero => exact Percent.reads_plain_iff h
  | succ n ih =>
    cases e with
    | delimited d element =>
    have hkeeps : (∀ tk ∈ ts, tk.Keeps (delimited d element).meaning) ↔
        (∀ tk ∈ ts, tk ≠ .raw d → tk.plain ≠ .raw d) ∧ ∀ tk ∈ ts, tk.Keeps element.meaning := by
      simp only [keeps_delimited, imp_and, forall_and]
    show List.Forall₂ element.Means ((ts.map Token.plain).splitOn (.raw d)) v ↔ _
    rw [hkeeps]
    by_cases hd : ∀ tk ∈ ts, tk ≠ .raw d → tk.plain ≠ .raw d
    · -- the delimiters are where they were
      have hcut : (ts.map Token.plain).splitOn (.raw d) = (ts.splitOn (.raw d)).map (·.map Token.plain) :=
        splitOn_map rfl hd
      rw [and_iff_right hd, hcut, List.forall₂_map_left_iff,
        forall₂_iff_forall_mem (S := fun us w => element.Means (us.map Token.plain) w) h fun us w hus => ih hus,
        forall_mem_splitOn]
      refine forall₂_congr fun tk htk => ⟨fun hk => ?_, fun hk _ => hk⟩
      by_cases htk : tk = .raw d
      · rw [htk]
        trivial
      · exact hk htk
    · -- one more delimiter makes one more piece
      refine ⟨fun h' => absurd ?_ hd, fun hk => absurd hk.1 hd⟩
      have hlength := h'.length_eq.trans (List.Forall₂.length_eq h).symm
      rw [length_splitOn, length_splitOn, Nat.add_right_cancel_iff] at hlength
      exact fun tk htk => mt (eq_of_count_map rfl hlength tk htk)

/-- A raw character alone. -/
theorem means_singleton_iff : e.Means [.raw c] (.leaf [c]) ↔ e.meaning c = some c := by
  induction n with
  | zero =>
    show Percent.Reads [(e.meaning c).elim .stray .raw] [c] ↔ _
    cases e.meaning c with
    | none => exact ⟨fun h => absurd (List.mem_singleton_self _) h.no_stray, nofun⟩
    | some d =>
      constructor
      · intro h
        have hb : Utf8.encodeChar c ++ [] = Utf8.encodeChar d ++ [] := h.bytes
        rw [List.append_nil, List.append_nil] at hb
        rw [Utf8.encodeChar_injective hb]
      · intro h
        obtain rfl := Option.some.inj h
        exact ⟨by simp, ⟨Percent.isUtf8_nil, Percent.isUtf8_nil⟩, rfl⟩
  | succ n ih =>
    cases e with
    | delimited d element =>
    show List.Forall₂ element.Means (List.splitOn (.raw d) [.raw c]) [.leaf [c]] ↔
      (if c = d then none else element.meaning c) = some c
    by_cases hd : c = d
    · have hcut := List.splitOn_append_cons_self (a := Token.raw d) [] []
      rw [if_pos hd, hd, ← List.nil_append [Token.raw d], hcut]
      exact ⟨fun h => absurd h.length_eq (by simp), nofun⟩
    · have hcut : List.splitOn (Token.raw d) [.raw c] = [[.raw c]] :=
        List.splitOn_eq_singleton fun h => hd (Token.raw.inj (List.mem_singleton.1 h)).symm
      rw [if_neg hd, hcut, List.forall₂_cons, ih]
      exact and_iff_left .nil

/-- The character alone is read as the text of that character alone. -/
def ReadsItself (e : Encoding n) (c : Char) : Prop := e.decode [c] = .ok (.leaf [c])

theorem readsItself_iff (ho : Over allowed e) (hs : e.Separate) (hc : c ≠ '%') :
    e.ReadsItself c ↔ e.meaning c = some c := by
  have hp : ∀ tk ∈ [Token.raw c], tk.Proper := List.forall_mem_singleton.2 hc
  rw [← means_singleton_iff]
  exact decode_eq_ok_iff_means ho hs hp

/-- Text without needless escapes is read the same if each of these belonged to a character that means itself. -/
theorem decode_plainText_iff (ho : Over allowed e) (hs : e.Separate) (hp : ∀ tk ∈ ts, tk.Proper)
    (h : e.decode (ts.flatMap Token.text) = .ok v) :
    e.decode (ts.flatMap Token.plainText) = .ok v ↔ ∀ tk ∈ ts, tk.Keeps e.meaning := by
  rw [Percent.flatMap_plainText, decode_eq_ok_iff_means ho hs (Percent.proper_map_plain hp)]
  exact means_plain_iff ((decode_eq_ok_iff_means ho hs hp).1 h)

/-- What an encoding writes is made of symbols, and each run of its escapes is UTF-8. -/
theorem spelled_encode (ho : Over allowed e) (hs : e.Separate) (v : Payload n) : Percent.Spelled (e.encode v) := by
  induction e with
  | percent s => exact Percent.spelled_encode s v
  | substituted p w inner ih =>
    have hw := wraps_substituted p w inner
    exact Percent.spelled_join (hs.plain w List.mem_cons_self).1
      (List.forall_mem_map.2 fun part _ => ih (hw.over ho) (hw.separate hs) part)
  | literal word inner ih =>
    show Percent.Spelled (if v = word then Percent.encode .nothing v else inner.encode v)
    split
    · exact Percent.spelled_encode .nothing v
    · exact ih ho.of_literal hs.of_literal v
  | verbatim => cases ho.base
  | delimited d element ih =>
    have hw := wraps_delimited d element
    exact Percent.spelled_join (hs.plain d List.mem_cons_self).1
      (List.forall_mem_map.2 fun part _ => ih (hw.over ho) (hw.separate hs) part)

/-- Text without needless escapes is read the same if each of these belonged to a character that is read as itself. -/
theorem decode_plainText_iff_readsItself (ho : Over allowed e) (hs : e.Separate) (hp : ∀ tk ∈ ts, tk.Proper)
    (h : e.decode (ts.flatMap Token.text) = .ok v) :
    e.decode (ts.flatMap Token.plainText) = .ok v ↔
      ∀ b, .octet b ∈ ts → CharSet.unreserved.contains (Char.ofNat b.toNat) = true →
        e.ReadsItself (Char.ofNat b.toNat) := by
  rw [decode_plainText_iff ho hs hp h]
  constructor
  · intro hk b hb hu
    exact (readsItself_iff ho hs (Percent.ne_percent_of_unreserved hu)).2 (hk _ hb hu)
  · intro hk tk htk
    cases tk with
    | raw c => trivial
    | octet b => exact fun hu => (readsItself_iff ho hs (Percent.ne_percent_of_unreserved hu)).1 (hk b htk hu)
    | stray => trivial

end Encoding

end GenericUri
