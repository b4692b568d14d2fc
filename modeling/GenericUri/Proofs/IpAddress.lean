import GenericUri.Proofs.Elision
import GenericUri.Proofs.Numeral
import Mathlib.Data.List.Induction

/-!
# IpAddress — which texts are addresses, and addresses read back

`Groups.ofText?_eq_some_iff` says which texts are eight groups: eight texts of groups between colons, or fewer on both
sides of one `::`, which stands for the zeros that are missing.  An address of version 4 at the end takes the place of
two groups (`Groups.ofDottedText?_eq_some_iff`).

Writing elides a run of zeros that reading puts back (`Groups.ofText?_text`, `Groups.ofDottedText?_dottedText`).
-/

namespace GenericUri

/-! ### Version 4 -/

theorem Octet.isDigit_of_ofText? {t : Text} {o : Octet} (h : ofText? t = some o) : ∀ c ∈ t, c.isDigit := by
  unfold ofText? at h
  split at h
  · next hc => exact List.all_eq_true.1 hc.2.2.1
  · cases h

theorem Octet.ne_nil_of_ofText? {t : Text} {o : Octet} (h : ofText? t = some o) : t ≠ [] := by
  rintro rfl
  cases h

namespace Ipv4

variable {t : Text} {ip : Ipv4}

/-- Four octets between dots. -/
theorem ofText?_eq_some_iff :
    ofText? t = some ip ↔ ∃ ts, List.Forall₂ (fun t o => Octet.ofText? t = some o) ts ip.octets ∧
      t = Text.join '.' ts := by
  have hoct : ∀ os, ofOctets? os = some ip ↔ os = ip.octets := by
    intro os
    constructor
    · intro h
      unfold ofOctets? at h
      split at h
      · cases h
        rfl
      · cases h
    · rintro rfl
      rfl
  simp only [ofText?, Option.bind_eq_bind, Option.bind_eq_some_iff, hoct]
  constructor
  · rintro ⟨os, hos, rfl⟩
    exact ⟨_, mapM_eq_some_iff.1 hos, (Text.join_splitOn '.' t).symm⟩
  · rintro ⟨ts, hts, rfl⟩
    have hdot : ∀ u ∈ ts, '.' ∉ u := by
      intro u hu hd
      obtain ⟨o, -, ho⟩ := exists_of_forall₂_left hts hu
      exact absurd (Octet.isDigit_of_ofText? ho _ hd) (by decide)
    have hne : ts ≠ [] := by
      rintro rfl
      cases hts
    rw [Text.splitOn_join hdot hne]
    exact ⟨_, mapM_eq_some_iff.2 hts, rfl⟩

theorem ofText?_text (ip : Ipv4) : ofText? ip.text = some ip := by
  refine ofText?_eq_some_iff.2 ⟨_, ?_, rfl⟩
  rw [List.forall₂_map_left_iff]
  exact List.forall₂_same.2 fun o _ => Octet.ofText?_text o

/-- An address is read from its text and from no other. -/
theorem ofText?_eq_some_iff_eq_text : ofText? t = some ip ↔ t = ip.text := by
  constructor
  · intro h
    obtain ⟨ts, hts, rfl⟩ := ofText?_eq_some_iff.1 h
    have htexts : List.Forall₂ (· = ·) ts (ip.octets.map Octet.text) := by
      rw [List.forall₂_map_right_iff]
      exact hts.imp fun _ _ => Octet.ofText?_eq_some_iff.1
    rw [List.forall₂_eq_eq_eq] at htexts
    rw [htexts, text]
  · rintro rfl
    exact ofText?_text ip

/-- An address consists of digits and dots. -/
theorem mem_of_ofText? (h : ofText? t = some ip) {c : Char} (hc : c ∈ t) : c = '.' ∨ c.isDigit := by
  obtain ⟨ts, hts, rfl⟩ := ofText?_eq_some_iff.1 h
  rcases Text.mem_join hc with h | ⟨u, hu, h⟩
  · exact .inl h
  · obtain ⟨o, -, ho⟩ := exists_of_forall₂_left hts hu
    exact .inr (Octet.isDigit_of_ofText? ho c h)

theorem ne_nil_of_ofText? (h : ofText? t = some ip) : t ≠ [] := by
  rintro rfl
  cases h

theorem dot_mem_text (ip : Ipv4) : '.' ∈ ip.text := by
  rw [text, octets, List.map_cons, List.map_cons, Text.join_cons_cons]
  exact List.mem_append_right _ List.mem_cons_self

theorem not_mem_text {c : Char} (hc : c ≠ '.') (hd : c.isDigit = false) (ip : Ipv4) : c ∉ ip.text := by
  intro hm
  rcases mem_of_ofText? (ofText?_text ip) hm with h | h
  · exact hc h
  · simp [hd] at h

end Ipv4

/-! ### Groups between colons -/

namespace Groups

variable {t l r : Text} {ts us : List Text} {gs hs : List Hexadectet}

/-- Texts of groups, one for each. -/
def Spells (ts : List Text) (gs : List Hexadectet) : Prop :=
  List.Forall₂ (fun t g => Hexadectet.ofText? t = some g) ts gs

theorem Spells.length_eq (h : Spells ts gs) : ts.length = gs.length := List.Forall₂.length_eq h

theorem Spells.append (h : Spells ts gs) (h' : Spells us hs) : Spells (ts ++ us) (gs ++ hs) :=
  List.rel_append h h'

theorem Spells.of_append (h : Spells (ts ++ us) gs) : ∃ gs1 gs2, gs = gs1 ++ gs2 ∧ Spells ts gs1 ∧ Spells us gs2 := by
  induction ts generalizing gs with
  | nil => exact ⟨[], gs, rfl, .nil, h⟩
  | cons t ts ih =>
    cases h with
    | cons hg h =>
      obtain ⟨gs1, gs2, rfl, h1, h2⟩ := ih h
      exact ⟨_ :: gs1, gs2, rfl, .cons hg h1, h2⟩

theorem spells_text (gs : List Hexadectet) : Spells (gs.map Hexadectet.text) gs := by
  rw [Spells, List.forall₂_map_left_iff]
  exact List.forall₂_same.2 fun g _ => Hexadectet.ofText?_text g

theorem isHex_of_ofText? {g : Hexadectet} (h : Hexadectet.ofText? t = some g) : ∀ c ∈ t, (hexValue? c).isSome := by
  unfold Hexadectet.ofText? at h
  split at h
  · obtain ⟨ds, hds, -⟩ := Option.map_eq_some_iff.1 h
    intro c hc
    obtain ⟨d, -, hd⟩ := exists_of_forall₂_left (mapM_eq_some_iff.1 hds) hc
    simp [hd]
  · cases h

theorem ne_nil_of_ofText? {g : Hexadectet} (h : Hexadectet.ofText? t = some g) : t ≠ [] := by
  rintro rfl
  cases h

theorem not_mem_of_ofText? {g : Hexadectet} {c : Char} (h : Hexadectet.ofText? t = some g) (hc : hexValue? c = none) :
    c ∉ t := by
  intro hm
  have := isHex_of_ofText? h c hm
  simp [hc] at this

theorem Spells.isHex_of_mem (h : Spells ts gs) {c : Char} (hc : ∃ t ∈ ts, c ∈ t) : (hexValue? c).isSome := by
  obtain ⟨u, hu, hc⟩ := hc
  obtain ⟨g, -, hg⟩ := exists_of_forall₂_left h hu
  exact isHex_of_ofText? hg c hc

theorem Spells.colon_not_mem (h : Spells ts gs) : ∀ t ∈ ts, ':' ∉ t := by
  intro t ht
  obtain ⟨g, -, hg⟩ := exists_of_forall₂_left h ht
  exact not_mem_of_ofText? hg (by decide)

theorem Spells.ne_nil (h : Spells ts gs) : ∀ t ∈ ts, t ≠ [] := by
  intro t ht
  obtain ⟨g, -, hg⟩ := exists_of_forall₂_left h ht
  exact ne_nil_of_ofText? hg

theorem listOfText?_eq_some_iff : listOfText? t = some gs ↔ ∃ ts, Spells ts gs ∧ t = Text.join ':' ts := by
  rw [listOfText?]
  split
  · next ht =>
    subst ht
    constructor
    · intro h
      cases h
      exact ⟨[], .nil, rfl⟩
    · rintro ⟨ts, hts, h⟩
      cases hts with
      | nil => rfl
      | cons hg hts =>
        have hne := ne_nil_of_ofText? hg
        cases hts with
        | nil => exact absurd h.symm (by simpa using hne)
        | cons _ _ =>
          rw [Text.join_cons_cons] at h
          simp at h
  · next ht =>
    rw [mapM_eq_some_iff]
    constructor
    · intro h
      exact ⟨_, h, (Text.join_splitOn ':' t).symm⟩
    · rintro ⟨ts, hts, rfl⟩
      have hne : ts ≠ [] := by
        rintro rfl
        exact ht rfl
      rwa [Text.splitOn_join hts.colon_not_mem hne]

/-! ### The elision -/

theorem eq_of_cutElision (h : cutElision t = some (l, r)) : t = l ++ ':' :: ':' :: r := by
  fun_induction cutElision t generalizing l with
  | case1 => cases h
  | case2 t =>
    cases h
    rfl
  | case3 c t hno ih =>
    obtain ⟨⟨l', r'⟩, h, he⟩ := Option.map_eq_some_iff.1 h
    cases he
    rw [ih h]
    rfl

theorem cutElision_cons {c : Char} (h : c = ':' → t.head? ≠ some ':') :
    cutElision (c :: t) = (cutElision t).map fun (l, r) => (c :: l, r) := by
  rw [cutElision.eq_def]
  split
  · next he => cases he
  · next he =>
    cases he
    exact absurd rfl (h rfl)
  · next _ he =>
    cases he
    rfl

theorem cutElision_append_of_not_mem {u : Text} (h : ':' ∉ u) (t : Text) :
    cutElision (u ++ t) = (cutElision t).map fun (l, r) => (u ++ l, r) := by
  induction u with
  | nil => simp
  | cons c u ih =>
    rw [List.mem_cons, not_or] at h
    rw [List.cons_append, cutElision_cons fun hc => absurd hc.symm h.1, ih h.2, Option.map_map]
    rfl

/-- Between texts of groups there is no elision, so the first one comes after them. -/
theorem cutElision_join_append (h : Spells ts gs) (hne : ts ≠ []) (t : Text) :
    cutElision (Text.join ':' ts ++ t) = (cutElision t).map fun (l, r) => (Text.join ':' ts ++ l, r) := by
  induction h with
  | nil => exact absurd rfl hne
  | @cons u g ts gs hg hts ih =>
    have hu : ':' ∉ u := not_mem_of_ofText? hg (by decide)
    cases hts with
    | nil => simpa using cutElision_append_of_not_mem hu t
    | @cons v k ts gs hk hts =>
      have ih' := ih (by simp)
      -- a colon between two groups is followed by a digit
      have hhead : (Text.join ':' (v :: ts) ++ t).head? ≠ some ':' := by
        cases v with
        | nil => exact absurd rfl (ne_nil_of_ofText? hk)
        | cons c v =>
          have hv : ':' ∉ c :: v := not_mem_of_ofText? hk (by decide)
          have hc : c ≠ ':' := fun he => hv (by simp [he])
          cases ts with
          | nil => simpa using hc
          | cons w ts => simpa [Text.join_cons_cons] using hc
      rw [Text.join_cons_cons, List.append_assoc, cutElision_append_of_not_mem hu, List.cons_append,
        cutElision_cons fun _ => hhead, ih', Option.map_map, Option.map_map]
      congr 1
      funext ⟨l, r⟩
      simp

theorem cutElision_join (h : Spells ts gs) : cutElision (Text.join ':' ts) = none := by
  cases ts with
  | nil => rfl
  | cons t ts => simpa [cutElision] using cutElision_join_append h (by simp) []

theorem cutElision_elided (h : Spells ts gs) (t : Text) :
    cutElision (Text.join ':' ts ++ ':' :: ':' :: t) = some (Text.join ':' ts, t) := by
  cases ts with
  | nil => rfl
  | cons u ts => simp [cutElision_join_append h (by simp), cutElision]

/-! ### Eight groups -/

/-- Where the elision stands, the groups are those before it, as many zeros as are missing, and those after it. -/
theorem fill?_eq_some_iff {n : Nat} {left right : List Hexadectet} {g : Groups n} :
    fill? n left right = some g ↔ left.length + right.length < n ∧
      g.1 = left ++ List.replicate (n - (left.length + right.length)) 0 ++ right := by
  rw [fill?]
  split
  · next h =>
    rw [Option.some.injEq]
    exact ⟨fun he => ⟨h, by rw [← he]⟩, fun he => Subtype.ext he.2.symm⟩
  · next h => simp [h]

/-- Eight groups between colons, or fewer on both sides of one elision. -/
theorem ofText?_eq_some_iff {g : Groups 8} :
    ofText? t = some g ↔ (∃ ts, Spells ts g.1 ∧ t = Text.join ':' ts) ∨
      ∃ ls rs left right, Spells ls left ∧ Spells rs right ∧
        t = Text.join ':' ls ++ ':' :: ':' :: Text.join ':' rs ∧ left.length + right.length < 8 ∧
        g.1 = left ++ List.replicate (8 - (left.length + right.length)) 0 ++ right := by
  constructor
  · intro h
    rw [ofText?] at h
    split at h
    · obtain ⟨gs, hgs, he⟩ := Option.bind_eq_some_iff.1 h
      obtain ⟨ts, hts, ht⟩ := listOfText?_eq_some_iff.1 hgs
      unfold ofList? at he
      split at he
      · cases he
        exact .inl ⟨ts, hts, ht⟩
      · cases he
    · next l r hcut =>
      split at h
      · cases h
      · obtain ⟨left, hleft, hrest⟩ := Option.bind_eq_some_iff.1 h
        obtain ⟨right, hright, hfill⟩ := Option.bind_eq_some_iff.1 hrest
        obtain ⟨ls, hls, rfl⟩ := listOfText?_eq_some_iff.1 hleft
        obtain ⟨rs, hrs, rfl⟩ := listOfText?_eq_some_iff.1 hright
        obtain ⟨hlt, hg⟩ := fill?_eq_some_iff.1 hfill
        exact .inr ⟨ls, rs, left, right, hls, hrs, eq_of_cutElision hcut, hlt, hg⟩
  · rintro (⟨ts, hts, rfl⟩ | ⟨ls, rs, left, right, hls, hrs, rfl, hlt, hg⟩)
    · have hlist : listOfText? (Text.join ':' ts) = some g.1 := listOfText?_eq_some_iff.2 ⟨ts, hts, rfl⟩
      rw [ofText?, cutElision_join hts]
      change (listOfText? (Text.join ':' ts) >>= ofList? 8) = _
      rw [hlist]
      exact dif_pos g.2
    · have hleft : listOfText? (Text.join ':' ls) = some left := listOfText?_eq_some_iff.2 ⟨ls, hls, rfl⟩
      have hright : listOfText? (Text.join ':' rs) = some right := listOfText?_eq_some_iff.2 ⟨rs, hrs, rfl⟩
      rw [ofText?, cutElision_elided hls]
      change (if (cutElision (Text.join ':' rs)).isSome then none else _) = _
      rw [cutElision_join hrs, if_neg (by simp), hleft, hright]
      exact fill?_eq_some_iff.2 ⟨hlt, hg⟩

/-- Groups hold no character but hex digits and colons. -/
theorem mem_of_ofText? {g : Groups 8} (h : ofText? t = some g) {c : Char} (hc : c ∈ t) :
    c = ':' ∨ (hexValue? c).isSome := by
  have pieces : ∀ {ts gs}, Spells ts gs → c ∈ Text.join ':' ts → c = ':' ∨ (hexValue? c).isSome := by
    intro ts gs hts hm
    rcases Text.mem_join hm with h | h
    · exact .inl h
    · exact .inr (hts.isHex_of_mem h)
  rcases ofText?_eq_some_iff.1 h with ⟨ts, hts, rfl⟩ | ⟨ls, rs, left, right, hls, hrs, rfl, -, -⟩
  · exact pieces hts hc
  · rw [List.mem_append, List.mem_cons, List.mem_cons] at hc
    rcases hc with hc | hc | hc | hc
    · exact pieces hls hc
    · exact .inl hc
    · exact .inl hc
    · exact pieces hrs hc

/-! ### Eight groups read back -/

/-- How groups are written: between colons, or around an elision of at least two zeros. -/
theorem elided_cases (gs : List Hexadectet) :
    elided gs = (joined gs, false) ∨
      ∃ left right k, gs = left ++ List.replicate (k + 2) 0 ++ right ∧
        elided gs = (joined left ++ ':' :: ':' :: joined right, right.isEmpty) := by
  obtain ⟨left, length, right, hrun, h⟩ := exists_firstLongestRun gs
  by_cases hlt : length < 2
  · rw [if_pos hlt] at h
    exact .inl h
  · rw [if_neg hlt] at h
    have hlength : length - 2 + 2 = length := by omega
    refine .inr ⟨left, right, length - 2, ?_, h⟩
    rw [hlength]
    exact hrun.split

/-- Eight groups are read back from their text. -/
theorem ofText?_text (g : Groups 8) : ofText? g.text = some g := by
  rcases elided_cases g.1 with h | ⟨left, right, k, hg, h⟩
  · rw [text, h]
    exact ofText?_eq_some_iff.2 (.inl ⟨_, spells_text g.1, rfl⟩)
  · have hlen : left.length + (k + 2) + right.length = 8 := by
      rw [← g.2, hg]
      simp [Nat.add_assoc]
    rw [text, h]
    refine ofText?_eq_some_iff.2
      (.inr ⟨_, _, left, right, spells_text left, spells_text right, rfl, by omega, ?_⟩)
    have hk : 8 - (left.length + right.length) = k + 2 := by omega
    rw [hk]
    exact hg

/-! ### Six groups and an address of version 4 -/

/-- The texts of groups, a colon after each. -/
def closed (ts : List Text) : Text := ts.flatMap (· ++ [':'])

@[simp] theorem closed_nil : closed [] = [] := rfl

theorem closed_append (ts us : List Text) : closed (ts ++ us) = closed ts ++ closed us := by
  simp [closed]

theorem join_concat (ts : List Text) (u : Text) : Text.join ':' (ts ++ [u]) = closed ts ++ u := by
  induction ts with
  | nil => simp
  | cons t ts ih =>
    rw [List.cons_append, Text.join_cons_of_ne_nil (by simp), ih]
    simp [closed]

theorem join_append_colon (h : ts ≠ []) : Text.join ':' ts ++ [':'] = closed ts := by
  cases ts using List.reverseRecOn with
  | nil => exact absurd rfl h
  | append_singleton ts u =>
    rw [join_concat, closed_append]
    simp [closed]

/-- What follows the last colon of a text can be told from what comes before. -/
theorem append_inj_of_getLast? {p x x' : Text} (hp : p.getLast? = some ':') (hl : l.getLast? = some ':') (hx : ':' ∉ x)
    (hx' : ':' ∉ x') (h : p ++ x = l ++ x') : p = l ∧ x = x' := by
  obtain ⟨p, rfl⟩ := List.getLast?_eq_some_iff.1 hp
  obtain ⟨l, rfl⟩ := List.getLast?_eq_some_iff.1 hl
  rw [List.append_assoc, List.append_assoc] at h
  obtain ⟨rfl, rfl⟩ := Text.cut_unique h hx hx'
  exact ⟨rfl, rfl⟩

theorem append_pair_inj {p x y x' y' : Text} (hp : p.getLast? = some ':') (hl : l.getLast? = some ':') (hx : ':' ∉ x)
    (hy : ':' ∉ y) (hx' : ':' ∉ x') (hy' : ':' ∉ y') (h : p ++ x ++ ':' :: y = l ++ x' ++ ':' :: y') :
    p = l ∧ x = x' ∧ y = y' := by
  obtain ⟨hfront, rfl⟩ := Text.cut_unique h hy hy'
  obtain ⟨rfl, rfl⟩ := append_inj_of_getLast? hp hl hx hx' hfront
  exact ⟨rfl, rfl, rfl⟩

theorem getLast?_closed (h : ts ≠ []) : (closed ts).getLast? = some ':' := by
  rw [← join_append_colon h]
  simp

theorem getLast?_elided (ls rs : List Text) :
    (Text.join ':' ls ++ ':' :: ':' :: closed rs).getLast? = some ':' := by
  cases rs with
  | nil => simp
  | cons u rs =>
    rw [List.getLast?_append, List.getLast?_cons_cons, List.getLast?_cons, getLast?_closed (by simp)]
    rfl

theorem join_concat_concat (ts : List Text) (x y : Text) :
    Text.join ':' (ts ++ [x, y]) = closed ts ++ x ++ ':' :: y := by
  have h := join_concat (ts ++ [x]) y
  rw [closed_append] at h
  simpa [closed] using h

section Pair

variable {p x y : Text} {e f : Hexadectet} (hp : p.getLast? = some ':') (hx : Hexadectet.ofText? x = some e)
  (hy : Hexadectet.ofText? y = some f)

include hp hx hy

/-- Eight groups of which two at the end are known: six groups come before. -/
theorem eq_append_pair (hts : Spells ts gs) (hlen : gs.length = 8) (ht : p ++ x ++ ':' :: y = Text.join ':' ts) :
    ∃ us, ts = us ++ [x, y] ∧ p = closed us := by
  have hlen : ts.length = 8 := hts.length_eq.trans hlen
  obtain ⟨x', y', hxy⟩ := List.length_eq_two.1 (show (ts.drop 6).length = 2 by simp [hlen])
  have hsplit : ts = ts.take 6 ++ [x', y'] := by rw [← hxy, List.take_append_drop]
  have hpos : ts.take 6 ≠ [] := by
    intro h
    have := congrArg List.length h
    simp [hlen] at this
  have hcolon := hts.colon_not_mem
  rw [hsplit] at ht hcolon
  rw [join_concat_concat] at ht
  obtain ⟨rfl, rfl, rfl⟩ := append_pair_inj hp (getLast?_closed hpos) (not_mem_of_ofText? hx (by decide))
    (not_mem_of_ofText? hy (by decide)) (hcolon x' (by simp)) (hcolon y' (by simp)) ht
  exact ⟨ts.take 6, hsplit, rfl⟩

/-- Groups around an elision of which two at the end are known: both come after it. -/
theorem eq_append_pair_elided (hus : Spells us gs)
    (ht : p ++ x ++ ':' :: y = Text.join ':' ts ++ ':' :: ':' :: Text.join ':' us) :
    ∃ rs, us = rs ++ [x, y] ∧ p = Text.join ':' ts ++ ':' :: ':' :: closed rs := by
  have hcx : ':' ∉ x := not_mem_of_ofText? hx (by decide)
  have hcy : ':' ∉ y := not_mem_of_ofText? hy (by decide)
  have hcolon := hus.colon_not_mem
  rcases List.eq_nil_or_concat' us with rfl | ⟨us, y', rfl⟩
  · -- the text would end in a colon
    have h : p ++ x ++ ':' :: y = (Text.join ':' ts ++ [':']) ++ ':' :: [] := by simpa using ht
    exact absurd (Text.cut_unique h hcy (by simp)).2 (ne_nil_of_ofText? hy)
  rcases List.eq_nil_or_concat' us with rfl | ⟨rs, x', rfl⟩
  · -- one group after the elision would have to be both
    have h : p ++ x ++ ':' :: y = (Text.join ':' ts ++ [':']) ++ ':' :: y' := by simpa using ht
    have hlast := congrArg List.getLast? (Text.cut_unique h hcy (hcolon y' (by simp))).1
    rw [List.getLast?_append_of_ne_nil _ (ne_nil_of_ofText? hx), List.getLast?_concat] at hlast
    exact absurd (List.mem_of_getLast? hlast) hcx
  · have ht' : p ++ x ++ ':' :: y = (Text.join ':' ts ++ ':' :: ':' :: closed rs) ++ x' ++ ':' :: y' := by
      rw [ht, List.append_assoc rs, List.singleton_append, join_concat_concat]
      simp
    obtain ⟨rfl, rfl, rfl⟩ := append_pair_inj hp (getLast?_elided ts rs) hcx hcy (hcolon x' (by simp))
      (hcolon y' (by simp)) ht'
    exact ⟨rs, by simp, rfl⟩

end Pair

/-- The text is that of six groups with a colon after each, or of fewer around one elision. -/
def Precedes (p : Text) (gs : List Hexadectet) : Prop :=
  (∃ ts, Spells ts gs ∧ p = closed ts) ∨
    ∃ ls rs left right, Spells ls left ∧ Spells rs right ∧ p = Text.join ':' ls ++ ':' :: ':' :: closed rs ∧
      left.length + right.length < 6 ∧
      gs = left ++ List.replicate (6 - (left.length + right.length)) 0 ++ right

theorem Precedes.getLast? {p : Text} {g : Groups 6} (h : Precedes p g.1) : p.getLast? = some ':' := by
  rcases h with ⟨ts, hts, rfl⟩ | ⟨ls, rs, left, right, -, -, rfl, -, -⟩
  · refine getLast?_closed ?_
    rintro rfl
    have := hts.length_eq
    simp [g.2] at this
  · exact getLast?_elided ls rs

theorem Spells.pair {x y : Text} {e f : Hexadectet} (h : Spells [x, y] gs) (hx : Hexadectet.ofText? x = some e)
    (hy : Hexadectet.ofText? y = some f) : gs = [e, f] := by
  obtain _ | ⟨hx', _ | ⟨hy', _ | _⟩⟩ := h
  rw [Option.some.inj (hx.symm.trans hx'), Option.some.inj (hy.symm.trans hy')]

/-- A text of eight groups, by what comes before the last two. -/
theorem ofText?_append_pair_iff {p x y : Text} {e f : Hexadectet} (hp : p.getLast? = some ':')
    (hx : Hexadectet.ofText? x = some e) (hy : Hexadectet.ofText? y = some f) {g8 : Groups 8} :
    ofText? (p ++ x ++ ':' :: y) = some g8 ↔ ∃ g : Groups 6, Precedes p g.1 ∧ g8.1 = g.1 ++ [e, f] := by
  have hxy : Spells [x, y] [e, f] := .cons hx (.cons hy .nil)
  rw [ofText?_eq_some_iff]
  constructor
  · rintro (⟨ts, hts, ht⟩ | ⟨ls, us, left, right, hls, hus, ht, hlt, hg8⟩)
    · obtain ⟨us, rfl, rfl⟩ := eq_append_pair hp hx hy hts g8.2 ht
      obtain ⟨gs, ef, hgs, hus, hef⟩ := hts.of_append
      obtain rfl := hef.pair hx hy
      have hlen := g8.2
      rw [hgs, List.length_append] at hlen
      exact ⟨⟨gs, Nat.succ.inj (Nat.succ.inj hlen)⟩, .inl ⟨us, hus, rfl⟩, hgs⟩
    · obtain ⟨rs, rfl, rfl⟩ := eq_append_pair_elided hp hx hy hus ht
      obtain ⟨right, ef, rfl, hrs, hef⟩ := hus.of_append
      obtain rfl := hef.pair hx hy
      have hroom : left.length + right.length < 6 := by
        rw [List.length_append, ← Nat.add_assoc] at hlt
        exact Nat.lt_of_add_lt_add_right hlt
      have hzeros : 8 - (left.length + (right ++ [e, f]).length) = 6 - (left.length + right.length) := by
        rw [List.length_append, ← Nat.add_assoc]
        exact Nat.add_sub_add_right 6 2 _
      rw [hzeros, ← List.append_assoc] at hg8
      refine ⟨⟨left ++ List.replicate (6 - (left.length + right.length)) 0 ++ right, ?_⟩,
        .inr ⟨ls, rs, left, right, hls, hrs, rfl, hroom, rfl⟩, hg8⟩
      simp only [List.length_append, List.length_replicate]
      omega
  · rintro ⟨g, ⟨ts, hts, rfl⟩ | ⟨ls, rs, left, right, hls, hrs, rfl, hlt, hg⟩, hg8⟩
    · refine .inl ⟨ts ++ [x, y], ?_, (join_concat_concat ts x y).symm⟩
      rw [hg8]
      exact hts.append hxy
    · refine .inr ⟨ls, rs ++ [x, y], left, right ++ [e, f], hls, hrs.append hxy, ?_, ?_, ?_⟩
      · rw [join_concat_concat]
        simp
      · rw [List.length_append]
        exact Nat.add_lt_add_right hlt 2
      · rw [hg8, hg, List.length_append]
        simp [← Nat.add_assoc]

theorem Precedes.unique {p : Text} {g g' : Groups 6} (h : Precedes p g.1) (h' : Precedes p g'.1) : g = g' := by
  have hzero : Hexadectet.ofText? ['0'] = some 0 := rfl
  have hread : ∀ {g : Groups 6}, Precedes p g.1 →
      ofText? (p ++ ['0'] ++ ':' :: ['0']) = some ⟨g.1 ++ [0, 0], by simp [g.2]⟩ := fun {g} hg =>
    (ofText?_append_pair_iff h.getLast? hzero hzero).2 ⟨g, hg, rfl⟩
  have hsame := congrArg Subtype.val (Option.some.inj ((hread h).symm.trans (hread h')))
  exact Subtype.ext (List.append_cancel_right hsame)

/-- Six groups and an address of version 4 after them: the two zeros that are read in its place say nothing of them. -/
theorem ofDottedText?_eq_some_iff_precedes {g : Groups 6} {ip : Ipv4} :
    ofDottedText? t = some (g, ip) ↔ ∃ p last, t = p ++ last ∧ Ipv4.ofText? last = some ip ∧ Precedes p g.1 := by
  have hzero : Hexadectet.ofText? ['0'] = some 0 := rfl
  have hfront : ∀ front : Text, front ++ [':', '0', ':', '0'] = (front ++ [':']) ++ ['0'] ++ ':' :: ['0'] := by
    intro front
    simp
  have hpair : ∀ (front : Text) (g8 : Groups 8), ofText? (front ++ [':', '0', ':', '0']) = some g8 ↔
      ∃ g : Groups 6, Precedes (front ++ [':']) g.1 ∧ g8.1 = g.1 ++ [0, 0] := by
    intro front g8
    rw [hfront]
    exact ofText?_append_pair_iff (by simp) hzero hzero
  simp only [ofDottedText?, Option.bind_eq_bind, Option.bind_eq_some_iff, Option.pure_def, Option.some.injEq,
    Prod.mk.injEq, Prod.exists, Text.cutLast_eq_some_iff, hpair]
  constructor
  · rintro ⟨front, last, ⟨rfl, -⟩, ip', hip, g8, ⟨g', hg', hg8⟩, rfl, rfl⟩
    refine ⟨front ++ [':'], last, by simp, hip, ?_⟩
    show Precedes (front ++ [':']) (g8.1.take 6)
    rw [hg8, List.take_left' g'.2]
    exact hg'
  · rintro ⟨p, last, rfl, hip, hg⟩
    obtain ⟨front, rfl⟩ := List.getLast?_eq_some_iff.1 hg.getLast?
    have hcolon : ':' ∉ last := by
      rw [Ipv4.ofText?_eq_some_iff_eq_text.1 hip]
      exact Ipv4.not_mem_text (by decide) (by decide) ip
    refine ⟨front, last, ⟨by simp, hcolon⟩, ip, hip, ⟨g.1 ++ [0, 0], by simp [g.2]⟩, ⟨g, hg, rfl⟩, ?_, rfl⟩
    exact Subtype.ext (List.take_left' g.2)

theorem ofDottedText?_eq_some_iff {g : Groups 6} {ip : Ipv4} :
    ofDottedText? t = some (g, ip) ↔ ∃ last, Ipv4.ofText? last = some ip ∧
      ((∃ ts, Spells ts g.1 ∧ t = closed ts ++ last) ∨
        ∃ ls rs left right, Spells ls left ∧ Spells rs right ∧
          t = Text.join ':' ls ++ ':' :: ':' :: closed rs ++ last ∧ left.length + right.length < 6 ∧
          g.1 = left ++ List.replicate (6 - (left.length + right.length)) 0 ++ right) := by
  rw [ofDottedText?_eq_some_iff_precedes]
  constructor
  · rintro ⟨p, last, rfl, hip, ⟨ts, hts, rfl⟩ | ⟨ls, rs, left, right, hls, hrs, rfl, hlt, hg⟩⟩
    · exact ⟨last, hip, .inl ⟨ts, hts, rfl⟩⟩
    · exact ⟨last, hip, .inr ⟨ls, rs, left, right, hls, hrs, rfl, hlt, hg⟩⟩
  · rintro ⟨last, hip, ⟨ts, hts, rfl⟩ | ⟨ls, rs, left, right, hls, hrs, rfl, hlt, hg⟩⟩
    · exact ⟨_, last, rfl, hip, .inl ⟨ts, hts, rfl⟩⟩
    · exact ⟨_, last, rfl, hip, .inr ⟨ls, rs, left, right, hls, hrs, rfl, hlt, hg⟩⟩

/-- Six groups and an address of version 4 are read back from their text. -/
theorem ofDottedText?_dottedText (g : Groups 6) (ip : Ipv4) : ofDottedText? (g.dottedText ip) = some (g, ip) := by
  refine ofDottedText?_eq_some_iff.2 ⟨ip.text, Ipv4.ofText?_text ip, ?_⟩
  rcases elided_cases g.1 with h | ⟨left, right, k, hg, h⟩
  · refine .inl ⟨_, spells_text g.1, ?_⟩
    have hne : g.1.map Hexadectet.text ≠ [] := by
      intro h
      have := congrArg List.length h
      simp [g.2] at this
    rw [dottedText, h, ← join_append_colon hne]
    rfl
  · have hlen : left.length + (k + 2) + right.length = 6 := by
      rw [← g.2, hg]
      simp [Nat.add_assoc]
    refine .inr ⟨_, _, left, right, spells_text left, spells_text right, ?_, by omega, ?_⟩
    · rw [dottedText, h]
      cases right with
      | nil => simp [joined]
      | cons r right =>
        rw [← join_append_colon (by simp)]
        simp [joined]
    · have hk : 6 - (left.length + right.length) = k + 2 := by omega
      rw [hk]
      exact hg

theorem mem_closed {c : Char} (h : c ∈ closed ts) : c = ':' ∨ ∃ t ∈ ts, c ∈ t := by
  obtain ⟨u, hu, hc⟩ := List.mem_flatMap.1 h
  rcases List.mem_append.1 hc with hc | hc
  · exact .inr ⟨u, hu, hc⟩
  · exact .inl (List.mem_singleton.1 hc)

theorem isSome_hexValue?_of_isDigit {c : Char} (h : c.isDigit) : (hexValue? c).isSome := by
  have h' : '0' ≤ c ∧ c ≤ '9' := by
    have : c.val ≥ 48 ∧ c.val ≤ 57 := by simpa [Char.isDigit] using h
    exact ⟨this.1, this.2⟩
  simp [hexValue?, h']

/-- Groups that end in an address of version 4 hold a dot, and otherwise hex digits and colons. -/
theorem mem_of_ofDottedText? {g : Groups 6} {ip : Ipv4} (h : ofDottedText? t = some (g, ip)) :
    '.' ∈ t ∧ ∀ c ∈ t, c = ':' ∨ c = '.' ∨ (hexValue? c).isSome := by
  obtain ⟨last, hip, h⟩ := ofDottedText?_eq_some_iff.1 h
  have hdot : '.' ∈ last := by
    rw [Ipv4.ofText?_eq_some_iff_eq_text.1 hip]
    exact ip.dot_mem_text
  have hlast : ∀ c ∈ last, c = ':' ∨ c = '.' ∨ (hexValue? c).isSome := by
    intro c hc
    rcases Ipv4.mem_of_ofText? hip hc with h | h
    · exact .inr (.inl h)
    · exact .inr (.inr (isSome_hexValue?_of_isDigit h))
  have hgroups : ∀ {ts gs c}, Spells ts gs → (c = ':' ∨ ∃ t ∈ ts, c ∈ t) →
      c = ':' ∨ c = '.' ∨ (hexValue? c).isSome := by
    rintro ts gs c hts (hc | hc)
    · exact .inl hc
    · exact .inr (.inr (hts.isHex_of_mem hc))
  rcases h with ⟨ts, hts, rfl⟩ | ⟨ls, rs, left, right, hls, hrs, rfl, -, -⟩
  · refine ⟨List.mem_append_right _ hdot, fun c hc => ?_⟩
    rcases List.mem_append.1 hc with hc | hc
    · exact hgroups hts (mem_closed hc)
    · exact hlast c hc
  · refine ⟨List.mem_append_right _ hdot, fun c hc => ?_⟩
    simp only [List.mem_append, List.mem_cons] at hc
    rcases hc with (hc | hc | hc | hc) | hc
    · exact hgroups hls (Text.mem_join hc)
    · exact .inl hc
    · exact .inl hc
    · exact hgroups hrs (mem_closed hc)
    · exact hlast c hc

end Groups
end GenericUri
