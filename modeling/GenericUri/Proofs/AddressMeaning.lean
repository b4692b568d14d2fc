import GenericUri.Proofs.AddressGrammar
import GenericUri.Proofs.Authority

/-!
# AddressMeaning — the groups that an address of version 6 stands for

`Groups.Written` relates a text to the groups that it stands for: all of them between colons, or those before `::` at
the start and those after it at the end, with zeros in between.  An address of version 4 may follow them, in place of
the last two of eight.

The readers look for `::` and put two zero groups in place of the address of version 4.  They read the texts in that
relation and no others, and the rule for addresses of version 6 derives these texts (`Host.parse_bracketed_iff`).
-/

namespace GenericUri

/-! ### Groups -/

namespace Groups

variable {n : ℕ} {t : Text} {ts last : List Text} {gs : List Hexadectet}

/-- The text is that of `n` groups followed by `last`, with a colon between any two. -/
inductive Written (n : ℕ) (last : List Text) : Text → List Hexadectet → Prop
  | full {ts : List Text} {gs : List Hexadectet} (hts : List.Forall₂ Hexadectet.Denotes ts gs) (hlen : gs.length = n) :
      Written n last (Text.join ':' (ts ++ last)) gs
  /-- The elision stands for at least one group. -/
  | elided {ls rs : List Text} {left right : List Hexadectet} {zeros : ℕ}
      (hls : List.Forall₂ Hexadectet.Denotes ls left) (hrs : List.Forall₂ Hexadectet.Denotes rs right)
      (hpos : 0 < zeros) (hlen : left.length + zeros + right.length = n) :
      Written n last (Text.join ':' ls ++ ':' :: ':' :: Text.join ':' (rs ++ last))
        (left ++ List.replicate zeros 0 ++ right)

theorem spells_iff_denotes : Spells ts gs ↔ List.Forall₂ Hexadectet.Denotes ts gs := by
  simp only [Spells, Hexadectet.ofText?_eq_some_iff]

theorem written_iff (hn : gs.length = n) :
    Written n last t gs ↔ (∃ ts, Spells ts gs ∧ t = Text.join ':' (ts ++ last)) ∨
      ∃ ls rs left right, Spells ls left ∧ Spells rs right ∧
        t = Text.join ':' ls ++ ':' :: ':' :: Text.join ':' (rs ++ last) ∧ left.length + right.length < n ∧
        gs = left ++ List.replicate (n - (left.length + right.length)) 0 ++ right := by
  simp only [spells_iff_denotes]
  constructor
  · intro h
    cases h with
    | full hts _ => exact .inl ⟨_, hts, rfl⟩
    | @elided ls rs left right zeros hls hrs hpos hlen =>
      have hzeros : n - (left.length + right.length) = zeros := by omega
      exact .inr ⟨ls, rs, left, right, hls, hrs, rfl, by omega, by rw [hzeros]⟩
  · rintro (⟨ts, hts, rfl⟩ | ⟨ls, rs, left, right, hls, hrs, rfl, hlt, rfl⟩)
    · exact .full hts hn
    · exact .elided hls hrs (by omega) (by omega)

theorem ofText?_eq_some_iff_written {g : Groups 8} : ofText? t = some g ↔ Written 8 [] t g.1 := by
  simp only [ofText?_eq_some_iff, written_iff g.2, List.append_nil]

theorem ofDottedText?_eq_some_iff_written {g : Groups 6} {ip : Ipv4} :
    ofDottedText? t = some (g, ip) ↔ Written 6 [ip.text] t g.1 := by
  simp only [ofDottedText?_eq_some_iff, written_iff g.2, Ipv4.ofText?_eq_some_iff_eq_text, exists_eq_left, join_concat,
    List.append_assoc, List.cons_append]

end Groups

/-! ### Hosts -/

namespace Host

variable {t : Text} {h : Host}

/-- The text of an address of version 6, without the brackets, and the host that it stands for. -/
inductive Ipv6Literal : Text → Host → Prop
  | groups {t : Text} {g : Groups 8} (ht : Groups.Written 8 [] t g.1) : Ipv6Literal t (ipv6 g)
  | dotted {t : Text} {g : Groups 6} {last : Ipv4} (ht : Groups.Written 6 [last.text] t g.1) :
      Ipv6Literal t (ipv6Dotted g last)

theorem ofLiteral?_eq_some_iff (ht : ¬ startsFuture t) : ofLiteral? t = some h ↔ Ipv6Literal t h := by
  constructor
  · intro hr
    rcases ofLiteral?_cases hr with ⟨v, version, address, hv, rfl, -, -⟩ | ⟨-, g, last, hg, rfl⟩ | ⟨-, -, g, hg, rfl⟩
    · exact absurd (hv.imp (congrArg some) (congrArg some)) ht
    · exact .dotted (Groups.ofDottedText?_eq_some_iff_written.1 hg)
    · exact .groups (Groups.ofText?_eq_some_iff_written.1 hg)
  · intro hw
    cases hw with
    | groups hw => exact ofLiteral?_groups (Groups.ofText?_eq_some_iff_written.2 hw)
    | dotted hw => exact ofLiteral?_dotted (Groups.ofDottedText?_eq_some_iff_written.2 hw)

/-- The rule derives the texts that stand for a host. -/
theorem exists_ipv6Literal_iff : (∃ h, Ipv6Literal t h) ↔ t ∈ Grammar.ipv6address := by
  rw [← Grammar.exists_ipv6_iff]
  simp only [Groups.ofText?_eq_some_iff_written, Groups.ofDottedText?_eq_some_iff_written]
  constructor
  · rintro ⟨h, hw⟩
    cases hw with
    | @groups g hw => exact .inl ⟨g, hw⟩
    | @dotted g last hw => exact .inr ⟨g, last, hw⟩
  · rintro (⟨g, hw⟩ | ⟨g, last, hw⟩)
    · exact ⟨_, .groups hw⟩
    · exact ⟨_, .dotted hw⟩

/-- The form with an address of version 4 is the one with a dot. -/
theorem Ipv6Literal.dotted_iff (hw : Ipv6Literal t h) : (∃ g last, h = ipv6Dotted g last) ↔ '.' ∈ t := by
  cases hw with
  | @groups g hw =>
    refine iff_of_false nofun fun hdot => ?_
    rcases Groups.mem_of_ofText? (Groups.ofText?_eq_some_iff_written.2 hw) hdot with h | h
    · exact absurd h (by decide)
    · exact absurd h (by decide)
  | @dotted g last hw =>
    have hdot := (Groups.mem_of_ofDottedText? (Groups.ofDottedText?_eq_some_iff_written.2 hw)).1
    exact iff_of_true ⟨g, last, rfl⟩ hdot

/-- A text in brackets that does not start like a future address is a host exactly if the rule for addresses of version
6 derives it.  The host is made of the groups that the text stands for, and of an address of version 4 exactly if the
text holds a dot. -/
theorem parse_bracketed_iff (hv : t.head? ≠ some 'v') (hV : t.head? ≠ some 'V') :
    ((∃ h, parse Host ('[' :: t ++ [']']) = .ok h) ↔ t ∈ Grammar.ipv6address) ∧
      ∀ h, (parse Host ('[' :: t ++ [']']) = .ok h ↔ Ipv6Literal t h) ∧
        (parse Host ('[' :: t ++ [']']) = .ok h → ((∃ g last, h = ipv6Dotted g last) ↔ '.' ∈ t)) := by
  have hread : ∀ h, parse Host ('[' :: t ++ [']']) = .ok h ↔ Ipv6Literal t h := by
    intro h
    rw [parse_eq_ok_iff]
    show (ofText? ('[' :: t ++ [']'])).elim (Except.error _) Except.ok = .ok h ↔ _
    rw [elim_eq_ok_iff, ofText?_bracketed]
    exact ofLiteral?_eq_some_iff (not_or.2 ⟨hv, hV⟩)
  refine ⟨?_, fun h => ⟨hread h, fun hp => ((hread h).1 hp).dotted_iff⟩⟩
  simp only [hread]
  exact exists_ipv6Literal_iff

theorem parse_bracketed_iff_elided_dotted :
    let t := "1:a::00C3:192.0.2.1".toList
    let h := ipv6Dotted ⟨[1, 10, 0, 0, 0, 195], rfl⟩ ⟨192, 0, 2, 1⟩
    (t.head? ≠ some 'v' ∧ t.head? ≠ some 'V') ∧
      parse Host ('[' :: t ++ [']']) = .ok h ∧ t ∈ Grammar.ipv6address ∧ Ipv6Literal t h ∧ '.' ∈ t := by
  intro t h
  have hv : t.head? ≠ some 'v' := by decide
  have hV : t.head? ≠ some 'V' := by decide
  have hp : parse Host ('[' :: t ++ [']']) = .ok h := by decide
  obtain ⟨haccepts, hmeans⟩ := parse_bracketed_iff hv hV
  obtain ⟨hliteral, hform⟩ := hmeans h
  exact ⟨⟨hv, hV⟩, hp, haccepts.1 ⟨h, hp⟩, hliteral.1 hp, (hform hp).1 ⟨_, _, rfl⟩⟩

end Host
end GenericUri
