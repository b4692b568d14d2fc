import GenericUri.Proofs.Encoding
import GenericUri.Proofs.Symbols

/-!
# Escaping — where a character still shows raw

`Encoding.escaping` takes a character out of the set at the bottom of the layers.  The character then shows raw only
where a layer writes it as its own separator (`Separates`), and `mem_encode_of_escaping_iff` says that it does show
there: no layer is kept from writing its separator.  A character that is no separator therefore does not show at all.

An encoding that is made to escape one of its separators goes on writing it.  If a list of such lists has the same
delimiter again, its text is cut in the wrong places (`mem_encode_escaping_delimiter`).
-/

namespace GenericUri.Encoding

variable {n : Nat} {e e' : Encoding n} {allowed : CharSet} {c d : Char} {v : Payload n}

/-- Whether some layer writes `c` as its separator: between two elements of a list, or for a character of a text. -/
def Separates (c : Char) : {n : Nat} → Encoding n → Payload n → Prop
  | _, percent _, _ => False
  | _, substituted plain written inner, t =>
    (c = written ∧ plain ∈ t) ∨ ∃ part ∈ t.splitOn plain, inner.Separates c part
  | _, literal word inner, t => t ≠ word ∧ inner.Separates c t
  | _, verbatim, _ => False
  | _, delimited delimiter element, vs => (c = delimiter ∧ 1 < vs.length) ∨ ∃ v ∈ vs, element.Separates c v

theorem Separates.mem_separators (h : e.Separates c v) : c ∈ e.separators := by
  induction e with
  | percent s => exact h.elim
  | substituted p w inner ih =>
    rcases h with ⟨rfl, -⟩ | ⟨part, -, h⟩
    · exact List.mem_cons_self
    · exact List.mem_cons_of_mem w (ih h)
  | literal word inner ih => exact ih h.2
  | verbatim => exact h.elim
  | delimited d element ih =>
    rcases h with ⟨rfl, -⟩ | ⟨v, -, h⟩
    · exact List.mem_cons_self
    · exact List.mem_cons_of_mem d (ih h)

/-- Escaping one more character leaves the separators where they are. -/
theorem separates_of_escaping (h : e.escaping d = .ok e') : e'.Separates c v ↔ e.Separates c v := by
  induction e with
  | percent s =>
    obtain ⟨rest, -, rfl⟩ := map_eq_ok_iff.1 h
    exact Iff.rfl
  | substituted p w inner ih =>
    obtain ⟨inner', hi, rfl⟩ := map_eq_ok_iff.1 h
    exact or_congr_right (exists_congr fun part => and_congr_right fun _ => ih hi)
  | literal word inner ih =>
    obtain ⟨inner', hi, rfl⟩ := map_eq_ok_iff.1 h
    exact and_congr_right fun _ => ih hi
  | verbatim =>
    obtain rfl := Except.ok.inj h
    exact Iff.rfl
  | delimited d element ih =>
    obtain ⟨element', hi, rfl⟩ := map_eq_ok_iff.1 h
    exact or_congr_right (exists_congr fun v => and_congr_right fun _ => ih hi)

/-- Any ASCII character can be escaped in addition. -/
theorem exists_escaping (hc : c.toNat < 128) (e : Encoding n) : ∃ e', e.escaping c = .ok e' := by
  induction e with
  | percent s => exact ⟨_, map_eq_ok_iff.2 ⟨_, if_pos hc, rfl⟩⟩
  | substituted p w inner ih =>
    obtain ⟨inner', hi⟩ := ih
    exact ⟨_, map_eq_ok_iff.2 ⟨inner', hi, rfl⟩⟩
  | literal word inner ih =>
    obtain ⟨inner', hi⟩ := ih
    exact ⟨_, map_eq_ok_iff.2 ⟨inner', hi, rfl⟩⟩
  | verbatim => exact ⟨verbatim, rfl⟩
  | delimited d element ih =>
    obtain ⟨element', hi⟩ := ih
    exact ⟨_, map_eq_ok_iff.2 ⟨element', hi, rfl⟩⟩

/-- A character in the joined texts of parts is the separator of two parts, or it is in the text of one. -/
theorem mem_join_map_iff {α : Type} {f : α → Text} {P : α → Prop} {l : List α} (h : ∀ a ∈ l, (c ∈ f a ↔ P a)) :
    c ∈ Text.join d (l.map f) ↔ (c = d ∧ 1 < l.length) ∨ ∃ a ∈ l, P a := by
  rw [Text.mem_join_iff, List.length_map]
  refine or_congr_right ?_
  constructor
  · rintro ⟨t, ht, hc⟩
    obtain ⟨a, ha, rfl⟩ := List.mem_map.1 ht
    exact ⟨a, ha, (h a ha).1 hc⟩
  · rintro ⟨a, ha, hP⟩
    exact ⟨f a, List.mem_map_of_mem ha, (h a ha).2 hP⟩

/-- A character outside the set shows where a layer writes it, and nowhere else. -/
theorem mem_encode_iff_separates (hb : e.base? = some allowed) (hc : allowed.contains c = false)
    (hx : c ≠ '%' ∧ CharSet.hexDigit.contains c = false) : c ∈ e.encode v ↔ e.Separates c v := by
  induction e with
  | percent s =>
    obtain rfl := Option.some.inj hb
    exact iff_of_false (Percent.not_mem_encode hx hc v) id
  | substituted p w inner ih =>
    -- there are two parts or more if the text holds the character that the layer writes otherwise
    have hcount : 1 < (v.splitOn p).length ↔ p ∈ v := by
      rw [length_splitOn, Nat.lt_add_left_iff_pos, List.count_pos_iff]
    show c ∈ Text.join w ((v.splitOn p).map inner.encode) ↔
      (c = w ∧ p ∈ v) ∨ ∃ part ∈ v.splitOn p, inner.Separates c part
    rw [mem_join_map_iff fun part _ => ih hb, hcount]
  | literal word inner ih =>
    show c ∈ (if v = word then Percent.encode .nothing v else inner.encode v) ↔ v ≠ word ∧ inner.Separates c v
    split
    · next h => exact iff_of_false (Percent.not_mem_encode hx (CharSet.contains_nothing c) v) fun hs => hs.1 h
    · next h => rw [ih hb, and_iff_right h]
  | verbatim => cases hb
  | delimited d element ih => exact mem_join_map_iff fun v _ => ih hb

/-- An encoding can be made to escape any ASCII character.  The character then shows where a layer writes it as its
separator, and nowhere else; so it does not show at all if it is none of the separators. -/
theorem mem_encode_of_escaping_iff (hb : e.Built) (hascii : c.toNat < 128)
    (hx : c ≠ '%' ∧ CharSet.hexDigit.contains c = false) :
    ∃ e', e.escaping c = .ok e' ∧
      ∀ v, (c ∈ e'.encode v ↔ e.Separates c v) ∧ (c ∉ e.separators → c ∉ e'.encode v) := by
  obtain ⟨allowed, ho⟩ := hb.over
  obtain ⟨e', he⟩ := exists_escaping hascii e
  obtain ⟨rest, hr, hc⟩ := ho.escaping he
  refine ⟨e', he, fun v => ?_⟩
  have hiff : c ∈ e'.encode v ↔ e.Separates c v := by
    rw [mem_encode_iff_separates hr.base hc hx, separates_of_escaping he]
  exact ⟨hiff, fun hno hm => hno (hiff.1 hm).mem_separators⟩

/-- A list of words with `+` for the space.  A `+` or a semicolon of a word is escaped, and the `+` of a space is not. -/
theorem mem_encode_of_escaping_plus :
    ∃ (word : Encoding 0) (e : Encoding 1), substituting ' ' '+' (.literal ['.'] (.percent .everything)) = .ok word ∧
      delimitedBy ',' word = .ok e ∧
        (e.Built ∧ '+'.toNat < 128 ∧ '+' ≠ '%' ∧ CharSet.hexDigit.contains '+' = false) ∧
          (∃ e', e.escaping '+' = .ok e' ∧
            '+' ∉ e'.encode ["a+b".toList, ".".toList] ∧ '+' ∈ e'.encode ["c d".toList]) ∧
            ∃ e', e.escaping ';' = .ok e' ∧ ∀ v, ';' ∉ e'.encode v := by
  have hword := @Built.substituting ' ' '+' _ _ (.literal ['.'] (.percent .everything)) rfl
  have hb := @Built.delimitedBy 0 ',' _ _ hword rfl
  refine ⟨_, _, rfl, rfl, ⟨hb, by decide, by decide, by decide⟩, ?_, ?_⟩
  · obtain ⟨e', he, h⟩ := mem_encode_of_escaping_iff (c := '+') hb (by decide) (by decide)
    refine ⟨e', he, ?_, ?_⟩
    · rw [(h _).1]
      rintro (⟨h, -⟩ | ⟨t, ht, ⟨-, h⟩ | ⟨part, -, -, h⟩⟩)
      · exact absurd h (by decide)
      · -- neither word has a space
        exact forall_mem_of_all (p := fun t => ' ' ∉ t) (by decide) t ht h
      · exact h
    · exact (h _).1.2 (.inr ⟨_, List.mem_singleton_self _, .inl ⟨rfl, by decide⟩⟩)
  · obtain ⟨e', he, h⟩ := mem_encode_of_escaping_iff (c := ';') hb (by decide) (by decide)
    exact ⟨e', he, fun v => (h v).2 (by decide)⟩

/-- A list is written with raw commas although its encoding was made to escape them.  So is a list in a list whose
delimiter is the comma too, and it is read back as two. -/
theorem mem_encode_escaping_delimiter :
    let v : Payload 1 := ["a".toList, "b".toList]
    ∃ e e' outer, delimitedBy ',' (.percent .pchar) = .ok e ∧ e.escaping ',' = .ok e' ∧ delimitedBy ',' e = .ok outer ∧
      (e.Built ∧ ','.toNat < 128 ∧ ',' ≠ '%' ∧ CharSet.hexDigit.contains ',' = false) ∧
        (e'.encode v = "a,b".toList ∧ ',' ∈ e'.encode v) ∧
          outer.decode (outer.encode [v]) = .ok [["a".toList], ["b".toList]] := by
  intro v
  have hb := @Built.delimitedBy 0 ',' _ _ (.percent .pchar) rfl
  exact ⟨_, _, _, rfl, rfl, rfl, ⟨hb, by decide, by decide, by decide⟩, ⟨rfl, by decide⟩, rfl⟩

end GenericUri.Encoding
