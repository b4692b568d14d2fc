import GenericUri.Encoding
import GenericUri.Proofs.Percent
import GenericUri.Proofs.ReadsBack

/-!
# Encoding — payloads read back from their text

An encoding is made in layers around a set of characters.  Each layer that gives a character a meaning, its separator,
first takes it out of the set (`Built.over`), so the separator shows raw only where that layer wrote it, and not in what
the layers below write (`Over.mem_encode`).  Where the separators differ from each other and from the characters of
escapes, the text of a payload is therefore cut into the texts of its parts, and `decode_encode` follows by induction
on the layers.
-/

namespace GenericUri

/-! ### Payloads -/

namespace Payload

/-- No list is empty, at any depth. -/
def Full : {n : Nat} → Payload n → Prop
  | 0, _ => True
  | _ + 1, vs => vs ≠ [] ∧ ∀ v ∈ vs, Full v

/-- A text alone, in lists of one element each. -/
def leaf : {n : Nat} → Text → Payload n
  | 0, t => t
  | _ + 1, t => [leaf t]

end Payload

namespace Encoding

variable {n : Nat} {e e' : Encoding n} {allowed : CharSet} {c : Char} {t : Text}

/-! ### How encodings are made -/

/-- The encodings that the operations make. -/
inductive Built : {n : Nat} → Encoding n → Prop
  | percent (allowed : CharSet) : Built (percent allowed)
  | substituting {plain written : Char} {inner e : Encoding 0} (hi : Built inner)
      (h : substituting plain written inner = .ok e) : Built e
  | literal (word : Text) {inner : Encoding 0} (hi : Built inner) : Built (literal word inner)
  | delimitedBy {n : Nat} {delimiter : Char} {element : Encoding n} {e : Encoding (n + 1)} (hi : Built element)
      (h : delimitedBy delimiter element = .ok e) : Built e
  | escaping {n : Nat} {c : Char} {inner e : Encoding n} (hi : Built inner) (h : inner.escaping c = .ok e) : Built e

/-- The characters that mean something to a layer: delimiters, and characters written for others. -/
def separators : {n : Nat} → Encoding n → List Char
  | _, percent _ => []
  | _, substituted _ written inner => written :: inner.separators
  | _, literal _ inner => inner.separators
  | _, verbatim => []
  | _, delimited delimiter element => delimiter :: element.separators

/-- The set that the innermost layer writes over. -/
def base? : {n : Nat} → Encoding n → Option CharSet
  | _, percent allowed => some allowed
  | _, substituted _ _ inner => inner.base?
  | _, literal _ inner => inner.base?
  | _, verbatim => none
  | _, delimited _ element => element.base?

/-- The separators differ from each other, from `%` and from the digits of escapes. -/
structure Separate (e : Encoding n) : Prop where
  nodup : e.separators.Nodup
  plain : ∀ c ∈ e.separators, c ≠ '%' ∧ CharSet.hexDigit.contains c = false

/-- The innermost layer writes over `allowed`, and every separator is taken out of it. -/
structure Over (allowed : CharSet) (e : Encoding n) : Prop where
  base : e.base? = some allowed
  escaped : ∀ c ∈ e.separators, allowed.contains c = false

/-- Escaping one more character leaves the layers as they are. -/
theorem separators_of_escaping (h : e.escaping c = .ok e') : e'.separators = e.separators := by
  induction e with
  | percent s =>
    obtain ⟨rest, -, rfl⟩ := map_eq_ok_iff.1 h
    rfl
  | substituted p w inner ih =>
    obtain ⟨inner', hi, rfl⟩ := map_eq_ok_iff.1 h
    exact congrArg (w :: ·) (ih hi)
  | literal word inner ih =>
    obtain ⟨inner', hi, rfl⟩ := map_eq_ok_iff.1 h
    exact @ih inner' hi
  | verbatim =>
    obtain rfl := Except.ok.inj h
    rfl
  | delimited d element ih =>
    obtain ⟨element', hi, rfl⟩ := map_eq_ok_iff.1 h
    exact congrArg (d :: ·) (ih hi)

/-- It takes the character out of the set, through all the layers. -/
theorem base?_of_escaping (h : e.escaping c = .ok e') (hb : e.base? = some allowed) :
    ∃ rest, e'.base? = some rest ∧ ∀ d, rest.contains d = (allowed.contains d && d != c) := by
  induction e with
  | percent s =>
    obtain ⟨rest, hrest, rfl⟩ := map_eq_ok_iff.1 h
    obtain rfl := Option.some.inj hb
    exact ⟨rest, rfl, fun d => CharSet.contains_of_excluding hrest⟩
  | substituted p w inner ih =>
    obtain ⟨inner', hi, rfl⟩ := map_eq_ok_iff.1 h
    exact @ih inner' hi hb
  | literal word inner ih =>
    obtain ⟨inner', hi, rfl⟩ := map_eq_ok_iff.1 h
    exact @ih inner' hi hb
  | verbatim => cases hb
  | delimited d element ih =>
    obtain ⟨element', hi, rfl⟩ := map_eq_ok_iff.1 h
    exact @ih element' hi hb

theorem Over.escaping (ho : Over allowed e) (h : e.escaping c = .ok e') :
    ∃ rest, Over rest e' ∧ rest.contains c = false := by
  obtain ⟨rest, hb, hc⟩ := base?_of_escaping h ho.base
  refine ⟨rest, ⟨hb, ?_⟩, by simp [hc]⟩
  intro d hd
  rw [separators_of_escaping h] at hd
  rw [hc, ho.escaped d hd, Bool.false_and]

/-- However an encoding is made, its separators are not in its set. -/
theorem Built.over (h : e.Built) : ∃ allowed, Over allowed e := by
  induction h with
  | percent allowed => exact ⟨allowed, rfl, nofun⟩
  | substituting _ h ih =>
    obtain ⟨allowed, ho⟩ := ih
    obtain ⟨inner, hi, rfl⟩ := map_eq_ok_iff.1 h
    obtain ⟨rest, hr, hw⟩ := ho.escaping hi
    exact ⟨rest, hr.base, List.forall_mem_cons.2 ⟨hw, hr.escaped⟩⟩
  | literal word _ ih =>
    obtain ⟨allowed, ho⟩ := ih
    exact ⟨allowed, ho.base, ho.escaped⟩
  | delimitedBy _ h ih =>
    obtain ⟨allowed, ho⟩ := ih
    obtain ⟨element, hi, rfl⟩ := map_eq_ok_iff.1 h
    obtain ⟨rest, hr, hd⟩ := ho.escaping hi
    exact ⟨rest, hr.base, List.forall_mem_cons.2 ⟨hd, hr.escaped⟩⟩
  | escaping _ h ih =>
    obtain ⟨allowed, ho⟩ := ih
    obtain ⟨rest, hr, -⟩ := ho.escaping h
    exact ⟨rest, hr⟩

/-! ### One layer around another -/

/-- `e` is a layer around `inner` that gives a meaning to `c`. -/
structure Wraps {m : Nat} (e : Encoding n) (c : Char) (inner : Encoding m) : Prop where
  separators : e.separators = c :: inner.separators
  base : e.base? = inner.base?

theorem wraps_substituted (plain written : Char) (inner : Encoding 0) :
    Wraps (substituted plain written inner) written inner := ⟨rfl, rfl⟩

theorem wraps_delimited (delimiter : Char) (element : Encoding n) :
    Wraps (delimited delimiter element) delimiter element := ⟨rfl, rfl⟩

section Literal

variable {word : Text} {inner : Encoding 0}

/-- A layer for a literal gives no character a meaning. -/
theorem Over.of_literal (ho : Over allowed (literal word inner)) : Over allowed inner := ⟨ho.base, ho.escaped⟩

theorem Separate.of_literal (hs : (literal word inner).Separate) : inner.Separate := ⟨hs.nodup, hs.plain⟩

end Literal

section Wraps

variable {m : Nat} {inner : Encoding m} (h : Wraps e c inner)
include h

theorem Wraps.over (ho : Over allowed e) : Over allowed inner := by
  refine ⟨h.base.symm.trans ho.base, ?_⟩
  intro d hd
  exact ho.escaped d (h.separators ▸ List.mem_cons_of_mem c hd)

theorem Wraps.separate (hs : e.Separate) : inner.Separate := by
  have hn := hs.nodup
  rw [h.separators, List.nodup_cons] at hn
  refine ⟨hn.2, ?_⟩
  intro d hd
  exact hs.plain d (h.separators ▸ List.mem_cons_of_mem c hd)

end Wraps

/-! ### What the layers write -/

/-- Text of an encoding consists of separators, of characters of the set and of escapes. -/
theorem Over.mem_encode (ho : Over allowed e) {v : Payload n} (h : c ∈ e.encode v) :
    c ∈ e.separators ∨ allowed.contains c = true ∨ c = '%' ∨ CharSet.hexDigit.contains c = true := by
  induction e with
  | percent s =>
    obtain rfl := Option.some.inj ho.base
    exact .inr (Percent.mem_encode h)
  | substituted p w inner ih =>
    rcases Text.mem_join h with rfl | ⟨t, ht, hc⟩
    · exact .inl List.mem_cons_self
    · obtain ⟨part, -, rfl⟩ := List.mem_map.1 ht
      have hi := (wraps_substituted p w inner).over ho
      exact (ih hi hc).imp_left (List.mem_cons_of_mem w)
  | literal word inner ih =>
    change c ∈ if v = word then Percent.encode .nothing v else inner.encode v at h
    split at h
    · rcases Percent.mem_encode h with h | h
      · rw [CharSet.contains_nothing] at h
        cases h
      · exact .inr (.inr h)
    · exact ih ho.of_literal h
  | verbatim => cases ho.base
  | delimited d element ih =>
    rcases Text.mem_join h with rfl | ⟨t, ht, hc⟩
    · exact .inl List.mem_cons_self
    · obtain ⟨v, -, rfl⟩ := List.mem_map.1 ht
      have hi := (wraps_delimited d element).over ho
      exact (ih hi hc).imp_left (List.mem_cons_of_mem d)

/-- The separator of a layer does not show in what the layers below write. -/
theorem Wraps.not_mem_encode {m : Nat} {inner : Encoding m} (h : Wraps e c inner) (ho : Over allowed e)
    (hs : e.Separate) (v : Payload m) : c ∉ inner.encode v := by
  have hc : c ∈ e.separators := h.separators ▸ List.mem_cons_self
  obtain ⟨hp, hx⟩ := hs.plain c hc
  have hn := hs.nodup
  rw [h.separators, List.nodup_cons] at hn
  intro hm
  rcases (h.over ho).mem_encode hm with hm | hm | rfl | hm
  · exact hn.1 hm
  · rw [ho.escaped c hc] at hm
    cases hm
  · exact hp rfl
  · rw [hx] at hm
    cases hm

/-! ### Reading back -/

/-- No separator shows in text that is escaped throughout. -/
theorem Separate.not_mem_encode_nothing (hs : e.Separate) (hc : c ∈ e.separators) (t : Text) :
    c ∉ Percent.encode .nothing t :=
  Percent.not_mem_encode (hs.plain c hc) (CharSet.contains_nothing c) t

/-- Text that is escaped throughout is read as that text alone. -/
theorem decode_encode_nothing (ho : Over allowed e) (hs : e.Separate) (t : Text) :
    e.decode (Percent.encode .nothing t) = .ok (.leaf t) := by
  induction e with
  | percent s => exact Percent.decode_encode_nothing s t
  | substituted p w inner ih =>
    have hw := wraps_substituted p w inner
    show (((Percent.encode .nothing t).splitOn w).mapM inner.decode).map (Text.join p) = _
    rw [List.splitOn_eq_singleton (hs.not_mem_encode_nothing List.mem_cons_self t),
      mapM_eq_ok_iff.2 (.cons (ih (hw.over ho) (hw.separate hs)) .nil)]
    exact congrArg Except.ok (Text.join_singleton p t)
  | literal word inner ih => exact ih ho.of_literal hs.of_literal
  | verbatim => cases ho.base
  | delimited d element ih =>
    have hw := wraps_delimited d element
    show ((Percent.encode .nothing t).splitOn d).mapM element.decode = _
    rw [List.splitOn_eq_singleton (hs.not_mem_encode_nothing List.mem_cons_self t)]
    exact mapM_eq_ok_iff.2 (.cons (ih (hw.over ho) (hw.separate hs)) .nil)

/-- The parts of a text are read back if the separator between them shows in none. -/
theorem mapM_decode_splitOn {m : Nat} {inner : Encoding m} {vs : List (Payload m)} (hne : vs ≠ [])
    (hc : ∀ v ∈ vs, c ∉ inner.encode v) (h : ∀ v ∈ vs, inner.decode (inner.encode v) = .ok v) :
    ((Text.join c (vs.map inner.encode)).splitOn c).mapM inner.decode = .ok vs := by
  rw [Text.splitOn_join (List.forall_mem_map.2 hc) (by simpa using hne)]
  exact mapM_map_eq_ok h

theorem decode_encode_of_over (ho : Over allowed e) (hs : e.Separate) {v : Payload n} (hv : v.Full) :
    e.decode (e.encode v) = .ok v := by
  induction e with
  | percent s => exact Percent.decode_encode s v
  | substituted p w inner ih =>
    have hw := wraps_substituted p w inner
    have hparts : ∀ part ∈ v.splitOn p, inner.decode (inner.encode part) = .ok part :=
      fun part _ => ih (hw.over ho) (hw.separate hs) trivial
    show (((Text.join w ((v.splitOn p).map inner.encode)).splitOn w).mapM inner.decode).map (Text.join p) = _
    rw [mapM_decode_splitOn (List.splitOn_ne_nil p v) (fun part _ => hw.not_mem_encode ho hs part) hparts]
    exact congrArg Except.ok (Text.join_splitOn p v)
  | literal word inner ih =>
    show inner.decode (if v = word then Percent.encode .nothing v else inner.encode v) = _
    split
    · exact decode_encode_nothing ho.of_literal hs.of_literal v
    · exact ih ho.of_literal hs.of_literal hv
  | verbatim => cases ho.base
  | delimited d element ih =>
    have hw := wraps_delimited d element
    obtain ⟨hne, hfull⟩ := hv
    exact mapM_decode_splitOn hne (fun part _ => hw.not_mem_encode ho hs part)
      fun part hp => ih (hw.over ho) (hw.separate hs) (hfull part hp)

/-- Whatever layers an encoding is made of, a payload without empty lists is read back from its text. -/
theorem decode_encode_of_built (hb : e.Built) (hs : e.Separate) {v : Payload n} (hv : v.Full) :
    e.decode (e.encode v) = .ok v := by
  obtain ⟨allowed, ho⟩ := hb.over
  exact decode_encode_of_over ho hs hv

/-- Fields of a form, with spaces as `+` and slashes escaped. -/
theorem decode_encode_form :
    let v : Payload 2 := [["k".toList, "a b+c".toList], [".".toList], ["x&y=z/%".toList, []]]
    ∃ word fields pairs form,
      substituting ' ' '+' (.literal ['.'] (.percent .queryOrFragment)) = .ok word ∧
      delimitedBy '=' word = .ok fields ∧ delimitedBy '&' fields = .ok pairs ∧ pairs.escaping '/' = .ok form ∧
      (form.Built ∧ form.Separate ∧ v.Full) ∧
        form.encode v = "k=a+b%2Bc&%2E&x%26y%3Dz%2F%25=".toList ∧ form.decode (form.encode v) = .ok v := by
  intro v
  have hword := @Built.substituting ' ' '+' _ _ (.literal ['.'] (.percent .queryOrFragment)) rfl
  have hfields := @Built.delimitedBy 0 '=' _ _ hword rfl
  have hpairs := @Built.delimitedBy 1 '&' _ _ hfields rfl
  have hform := @Built.escaping 2 '/' _ _ hpairs rfl
  have hv : v.Full := by simp [v, Payload.Full]
  exact ⟨_, _, _, _, rfl, rfl, rfl, rfl, ⟨hform, ⟨by decide, forall_mem_of_all (by decide)⟩, hv⟩, by decide,
    decode_encode_of_built hform ⟨by decide, forall_mem_of_all (by decide)⟩ hv⟩

end Encoding
end GenericUri
