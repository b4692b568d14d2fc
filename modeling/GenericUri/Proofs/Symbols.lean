import GenericUri.Proofs.Runs
import Mathlib.Algebra.Order.BigOperators.Group.List
import Mathlib.Algebra.Order.Group.Nat
import Mathlib.Data.List.Forall2

/-!
# Symbols — escaped text whose raw characters have a meaning

An encoding may take a raw character for itself or for another one, or not take it at all.  `Token.under` puts what a
character means in its place, a stray sign for one that means nothing; what is left to do is to read symbols over the
set of all characters (`Reads`).

Writing an unreserved character raw instead of as an escape changes what is read unless the character means itself
(`reads_plain_iff`): the octets of a text are the octets of its symbols, and no symbol loses octets by it, so where a
text stays the same every symbol keeps its octets.

At a raw character, symbols are cut like the text that they spell (`splitOn_text`).
-/

namespace GenericUri

/-! ### Lists in step -/

section Lists

variable {α β : Type} {l : List α} {a : α}

/-- Lists in a row with one sum are the same lists, if none of the one kind is longer than its partner. -/
theorem eq_of_flatMap_eq {f g : α → List β} (hle : ∀ a ∈ l, (f a).length ≤ (g a).length)
    (h : l.flatMap f = l.flatMap g) : ∀ a ∈ l, f a = g a := by
  induction l with
  | nil => nofun
  | cons a l ih =>
    obtain ⟨ha, hl⟩ := List.forall_mem_cons.1 hle
    rw [List.flatMap_cons, List.flatMap_cons] at h
    have hrest : (l.flatMap f).length ≤ (l.flatMap g).length := by
      rw [List.length_flatMap, List.length_flatMap]
      exact List.sum_le_sum hl
    have hall := congrArg List.length h
    rw [List.length_append, List.length_append] at hall
    obtain ⟨hhead, htail⟩ := List.append_inj h (by omega)
    exact List.forall_mem_cons.2 ⟨hhead, ih hl htail⟩

/-- Related lists are related otherwise too, if that is a matter of the first list. -/
theorem forall₂_iff_forall_mem {R S : α → β → Prop} {P : α → Prop} {l : List α} {l' : List β}
    (h : List.Forall₂ R l l') (hS : ∀ a b, R a b → (S a b ↔ P a)) : List.Forall₂ S l l' ↔ ∀ a ∈ l, P a := by
  induction h with
  | nil => simp
  | cons hr _ ih => rw [List.forall₂_cons, List.forall_mem_cons, hS _ _ hr, ih]

theorem forall₂_congr_of_mem {R S : α → β → Prop} {l' : List β} (h : ∀ a ∈ l, ∀ b, R a b ↔ S a b) :
    List.Forall₂ R l l' ↔ List.Forall₂ S l l' := by
  induction l generalizing l' with
  | nil => rw [List.forall₂_nil_left_iff, List.forall₂_nil_left_iff]
  | cons a l ih =>
    obtain ⟨ha, hl⟩ := List.forall_mem_cons.1 h
    cases l' with
    | nil => exact ⟨nofun, nofun⟩
    | cons b l' => rw [List.forall₂_cons, List.forall₂_cons, ha, ih hl]

/-- A map that adds no element makes none of others. -/
theorem eq_of_count_map [DecidableEq α] {f : α → α} (ha : f a = a) (h : (l.map f).count a = l.count a) : ∀ x ∈ l, f x = a → x = a := by
  intro x hx hfx
  by_contra hne
  obtain ⟨u, r, rfl⟩ := List.append_of_mem hx
  have hle (l : List α) : l.count a ≤ (l.map f).count a := by
    have := List.count_le_count_map (l := l) (f := f) (x := a)
    rwa [ha] at this
  have hu := hle u
  have hr := hle r
  rw [List.map_append, List.map_cons, List.count_append, List.count_append, hfx, List.count_cons_self,
    List.count_cons_of_ne hne] at h
  omega

/-! ### Lists cut at a separator -/

/-- A list has no separator, or it has a first one and a rest. -/
@[elab_as_elim]
theorem cut_induction (a : α) {motive : List α → Prop} (l : List α) (last : ∀ u, a ∉ u → motive u)
    (cut : ∀ u r, a ∉ u → motive r → motive (u ++ a :: r)) : motive l := by
  by_cases h : a ∈ l
  · obtain ⟨u, r, rfl, hu⟩ := List.eq_append_cons_of_mem h
    exact cut u r hu (cut_induction a r last cut)
  · exact last l h
termination_by l.length

variable [DecidableEq α] [DecidableEq β]

/-- A list is cut as its image is, if the separator makes the separator and nothing else does. -/
theorem splitOn_flatMap {b : β} {g : α → List β} (ha : g a = [b]) (hg : ∀ x ∈ l, x ≠ a → b ∉ g x) :
    (l.flatMap g).splitOn b = (l.splitOn a).map (·.flatMap g) := by
  have hpiece : ∀ u : List α, a ∉ u → (∀ x ∈ u, x ≠ a → b ∉ g x) → b ∉ u.flatMap g := by
    intro u hu hg hb
    obtain ⟨x, hx, hb⟩ := List.mem_flatMap.1 hb
    exact hg x hx (fun h => hu (h ▸ hx)) hb
  induction l using cut_induction a with
  | last u hu =>
    rw [List.splitOn_eq_singleton (hpiece u hu hg), List.splitOn_eq_singleton hu]
    rfl
  | cut u r hu ih =>
    obtain ⟨hgu, hgr⟩ := List.forall_mem_append.1 hg
    rw [List.flatMap_append, List.flatMap_cons, ha, List.singleton_append,
      List.splitOn_append_cons_self_of_not_mem (hpiece u hu hgu), List.splitOn_append_cons_self_of_not_mem hu,
      ih (List.forall_mem_cons.1 hgr).2]
    rfl

theorem splitOn_map {b : β} {f : α → β} (ha : f a = b) (hf : ∀ x ∈ l, x ≠ a → f x ≠ b) :
    (l.map f).splitOn b = (l.splitOn a).map (·.map f) := by
  simp only [List.map_eq_flatMap (f := f)]
  refine splitOn_flatMap (by rw [ha]) fun x hx hne hb => ?_
  exact hf x hx hne (List.mem_singleton.1 hb).symm

theorem length_splitOn (a : α) (l : List α) : (l.splitOn a).length = l.count a + 1 := by
  induction l using cut_induction a with
  | last u hu => rw [List.splitOn_eq_singleton hu, List.count_eq_zero_of_not_mem hu, List.length_singleton]
  | cut u r hu ih =>
    rw [List.splitOn_append_cons_self_of_not_mem hu, List.length_cons, ih, List.count_append, List.count_cons_self,
      List.count_eq_zero_of_not_mem hu, Nat.zero_add]

/-- The pieces hold what the list holds, but for the separator. -/
theorem forall_mem_splitOn {P : α → Prop} :
    (∀ us ∈ l.splitOn a, ∀ x ∈ us, P x) ↔ ∀ x ∈ l, x ≠ a → P x := by
  have hpiece : ∀ u : List α, a ∉ u → ((∀ x ∈ u, P x) ↔ ∀ x ∈ u, x ≠ a → P x) := by
    intro u hu
    refine forall₂_congr fun x hx => ?_
    have hne : x ≠ a := fun h => hu (h ▸ hx)
    exact ⟨fun hx _ => hx, fun hx => hx hne⟩
  induction l using cut_induction a with
  | last u hu => rw [List.splitOn_eq_singleton hu, List.forall_mem_singleton, hpiece u hu]
  | cut u r hu ih =>
    rw [List.splitOn_append_cons_self_of_not_mem hu, List.forall_mem_cons, List.forall_mem_append, List.forall_mem_cons]
    exact and_congr (hpiece u hu) (ih.trans ⟨fun h => ⟨fun hne => absurd rfl hne, h⟩, And.right⟩)

theorem forall_mem_of_splitOn {P : α → Prop} (h : ∀ x ∈ l, P x) : ∀ us ∈ l.splitOn a, ∀ x ∈ us, P x :=
  forall_mem_splitOn.2 fun x hx _ => h x hx

end Lists

/-! ### Symbols and what they read as -/

namespace Percent

variable {ts us : List Token} {s t : Text} {c : Char}

/-- Text that is made of symbols, with the hex digits of its escapes in upper case and UTF-8 in every run. -/
def Spelled (t : Text) : Prop :=
  ∃ ts : List Token, (∀ tk ∈ ts, tk.Proper) ∧ RunsDecode [] ts ∧ t = ts.flatMap Token.text

theorem Spelled.proper (h : Spelled t) : ∀ tk ∈ tokens t, tk.Proper := by
  obtain ⟨ts, hp, -, rfl⟩ := h
  rwa [tokens_flatMap_text hp]

theorem Spelled.runsDecode (h : Spelled t) : RunsDecode [] (tokens t) := by
  obtain ⟨ts, hp, hr, rfl⟩ := h
  rwa [tokens_flatMap_text hp]

theorem Spelled.text_tokens (h : Spelled t) : t = (tokens t).flatMap Token.text := by
  obtain ⟨ts, hp, -, rfl⟩ := h
  rw [tokens_flatMap_text hp]

theorem spelled_encode (allowed : CharSet) (t : Text) : Spelled (encode allowed t) := by
  have h := decode_encode allowed t
  refine ⟨tokens (encode allowed t), proper_of_decode h, (decode_eq_ok_iff.1 h).2.1, ?_⟩
  exact (canonicalise_eq_ok_iff.1 (canonicalise_encode allowed t)).2

/-- A separator between texts starts no escape, and no run goes on across it. -/
theorem spelled_join {sep : Char} (hsep : sep ≠ '%') {l : List Text} (h : ∀ t ∈ l, Spelled t) :
    Spelled (Text.join sep l) := by
  induction l with
  | nil => exact ⟨[], nofun, isUtf8_nil, rfl⟩
  | cons t l ih =>
    obtain ⟨ht, hl⟩ := List.forall_mem_cons.1 h
    cases l with
    | nil => rwa [Text.join_singleton]
    | cons t' l =>
      obtain ⟨ts, hp, hr, rfl⟩ := ht
      obtain ⟨us, hq, hs, hu⟩ := ih hl
      refine ⟨ts ++ .raw sep :: us, List.forall_mem_append.2 ⟨hp, List.forall_mem_cons.2 ⟨hsep, hq⟩⟩,
        (runsDecode_append_raw ts us sep).2 ⟨hr, hs⟩, ?_⟩
      rw [Text.join_cons_cons, hu, List.flatMap_append, List.flatMap_cons]
      rfl

/-- Such text has its canonical spelling over a set if its raw characters are in the set, and it is that spelling. -/
theorem Spelled.canonicalise_eq_ok_iff {allowed : CharSet} {u : Text} (h : Spelled t) :
    canonicalise allowed t = .ok u ↔ (∀ c, .raw c ∈ tokens t → allowed.contains c = true) ∧ u = t := by
  have hfits : (∀ tk ∈ tokens t, tk.Fits allowed) ↔ ∀ c, .raw c ∈ tokens t → allowed.contains c = true := by
    refine ⟨fun hf c hc => hf _ hc, fun hc tk htk => ?_⟩
    cases tk with
    | raw c => exact hc c htk
    | octet b => trivial
    | stray => exact h.proper _ htk
  rw [Percent.canonicalise_eq_ok_iff, exists_decode_iff, hfits, and_iff_left h.runsDecode, ← h.text_tokens]

/-- Text is cut at a character as its symbols are, if no escape has the character in it. -/
theorem splitOn_text (hc : c ≠ '%' ∧ CharSet.hexDigit.contains c = false) (ts : List Token) :
    (ts.flatMap Token.text).splitOn c = (ts.splitOn (.raw c)).map (·.flatMap Token.text) := by
  refine splitOn_flatMap rfl fun tk _ hne hmem => ?_
  cases tk with
  | raw d => exact hne (by rw [List.mem_singleton.1 hmem])
  | octet b =>
    rcases mem_escape hmem with h | h
    · exact hc.1 h
    · rw [hc.2] at h
      cases h
  | stray => exact hc.1 (List.mem_singleton.1 hmem)

/-- Symbols are read as a text, over the set of all characters. -/
structure Reads (ts : List Token) (s : Text) : Prop where
  no_stray : .stray ∉ ts
  runs : RunsDecode [] ts
  bytes : Utf8.encode s = ts.flatMap Token.bytes

/-- A raw character is read as itself, and the symbols on both sides of it by themselves. -/
theorem reads_append_raw : Reads (ts ++ .raw c :: us) s ↔ ∃ l r, Reads ts l ∧ Reads us r ∧ l ++ c :: r = s := by
  constructor
  · rintro ⟨hs, hr, hb⟩
    rw [List.mem_append, List.mem_cons, not_or, not_or] at hs
    obtain ⟨hts, hus⟩ := (runsDecode_append_raw ts us c).1 hr
    obtain ⟨l, hl⟩ := hts.isUtf8
    obtain ⟨r, hr⟩ := hus.isUtf8
    rw [List.nil_append] at hl hr
    refine ⟨l, r, ⟨hs.1, hts, hl⟩, ⟨hs.2.2, hus, hr⟩, Utf8.encode_injective ?_⟩
    rw [hb, Utf8.encode_append, Utf8.encode_cons, hl, hr, List.flatMap_append, List.flatMap_cons]
    rfl
  · rintro ⟨l, r, hl, hr, rfl⟩
    refine ⟨?_, (runsDecode_append_raw ts us c).2 ⟨hl.runs, hr.runs⟩, ?_⟩
    · rw [List.mem_append, List.mem_cons, not_or, not_or]
      exact ⟨hl.no_stray, nofun, hr.no_stray⟩
    · rw [Utf8.encode_append, Utf8.encode_cons, hl.bytes, hr.bytes, List.flatMap_append, List.flatMap_cons]
      rfl

/-- Needless escapes make no difference. -/
theorem Reads.plain (h : Reads ts s) : Reads (ts.map Token.plain) s := by
  refine ⟨?_, h.runs.plain, ?_⟩
  · intro hm
    obtain ⟨tk, htk, hp⟩ := List.mem_map.1 hm
    rcases tk.plain_cases with hsame | ⟨b, -, -, hraw⟩
    · rw [hsame] at hp
      exact h.no_stray (hp ▸ htk)
    · rw [hraw] at hp
      cases hp
  · rw [h.bytes, flatMap_bytes_plain]

/-! ### Raw characters with a meaning -/

/-- The symbol with a raw character replaced by what it means, or by a stray sign if it means nothing. -/
def Token.under (f : Char → Option Char) : Token → Token
  | raw c => (f c).elim stray raw
  | octet b => octet b
  | stray => stray

/-- A symbol that is needlessly an escape belongs to a character that means itself. -/
def Token.Keeps (f : Char → Option Char) : Token → Prop
  | octet b =>
    let c := Char.ofNat b.toNat
    CharSet.unreserved.contains c = true → f c = some c
  | _ => True

variable {f g : Char → Option Char}

theorem Token.Keeps.under_plain {tk : Token} (h : tk.Keeps f) : tk.plain.under f = (tk.under f).plain := by
  cases tk with
  | octet b =>
    by_cases hu : CharSet.unreserved.contains (Char.ofNat b.toNat) = true
    · show (Token.octet b).plain.under f = (Token.octet b).plain
      rw [plain_octet hu, under, h hu]
      rfl
    · show (Token.octet b).plain.under f = (Token.octet b).plain
      rw [plain_octet_of_not hu]
      rfl
  | raw c =>
    show (f c).elim stray raw = ((f c).elim stray raw).plain
    cases f c <;> rfl
  | stray => rfl

section Fits

variable {allowed : CharSet} (hf : ∀ c, f c = if allowed.contains c = true then some c else none)
include hf

theorem Token.under_of_fits {tk : Token} (h : tk.Fits allowed) : tk.under f = tk := by
  cases tk with
  | raw c =>
    have hc : f c = some c := (hf c).trans (if_pos h)
    rw [under, hc]
    rfl
  | octet b => rfl
  | stray => rfl

theorem Token.under_of_not_fits {tk : Token} (h : ¬ tk.Fits allowed) : tk.under f = stray := by
  cases tk with
  | raw c =>
    have hc : f c = none := (hf c).trans (if_neg h)
    rw [under, hc]
    rfl
  | octet b => exact absurd trivial h
  | stray => rfl

/-- If the characters of a set mean themselves and no others mean anything, symbols are read that fit the set. -/
theorem reads_under_iff_fits :
    Reads (ts.map (Token.under f)) s ↔
      (∀ tk ∈ ts, tk.Fits allowed) ∧ RunsDecode [] ts ∧ Utf8.encode s = ts.flatMap Token.bytes := by
  have hself (h : ∀ tk ∈ ts, tk.Fits allowed) : ts.map (Token.under f) = ts := by
    have := List.map_congr_left fun tk htk => Token.under_of_fits hf (h tk htk)
    rwa [List.map_id'] at this
  constructor
  · intro h
    have hfits : ∀ tk ∈ ts, tk.Fits allowed := by
      intro tk htk
      by_contra hno
      exact h.no_stray (List.mem_map.2 ⟨tk, htk, Token.under_of_not_fits hf hno⟩)
    rw [hself hfits] at h
    exact ⟨hfits, h.runs, h.bytes⟩
  · rintro ⟨hfits, hr, hb⟩
    rw [hself hfits]
    exact ⟨fun hm => hfits _ hm, hr, hb⟩

end Fits

/-- If `w` means `p`, symbols are read as what stands between the signs `w`, with `p` in between. -/
theorem reads_under_iff_splitOn {p w : Char} (hw : g w = some p) (hg : ∀ c, c ≠ w → g c = f c) :
    Reads (ts.map (Token.under g)) s ↔
      ∃ ss, List.Forall₂ (fun us s => Reads (us.map (Token.under f)) s) (ts.splitOn (.raw w)) ss ∧
        Text.join p ss = s := by
  have hpiece (us : List Token) (h : .raw w ∉ us) : us.map (Token.under g) = us.map (Token.under f) := by
    refine List.map_congr_left fun tk htk => ?_
    cases tk with
    | raw c =>
      have hc : c ≠ w := fun hc => h (hc ▸ htk)
      rw [Token.under, Token.under, hg c hc]
    | octet b => rfl
    | stray => rfl
  induction ts using cut_induction (Token.raw w) generalizing s with
  | last us hus =>
    rw [hpiece us hus, List.splitOn_eq_singleton hus]
    constructor
    · exact fun h => ⟨[s], .cons h .nil, Text.join_singleton p s⟩
    · rintro ⟨_, _ | ⟨h, _ | _⟩, rfl⟩
      rwa [Text.join_singleton]
  | cut us rest hus ih =>
    have hcut : (us ++ .raw w :: rest).map (Token.under g) =
        us.map (Token.under f) ++ .raw p :: rest.map (Token.under g) := by
      rw [List.map_append, List.map_cons, hpiece us hus, Token.under, hw]
      rfl
    have hne {R : List Token → Text → Prop} {ss} (hss : List.Forall₂ R (rest.splitOn (.raw w)) ss) : ss ≠ [] := by
      rintro rfl
      exact List.splitOn_ne_nil _ _ (List.forall₂_nil_right_iff.1 hss)
    rw [hcut, reads_append_raw, List.splitOn_append_cons_self_of_not_mem hus]
    constructor
    · rintro ⟨l, r, hl, hr, rfl⟩
      obtain ⟨ss, hss, rfl⟩ := ih.1 hr
      exact ⟨l :: ss, .cons hl hss, Text.join_cons_of_ne_nil (hne hss)⟩
    · rintro ⟨_, _ | ⟨hl, hss⟩, rfl⟩
      exact ⟨_, _, hl, ih.2 ⟨_, hss, rfl⟩, (Text.join_cons_of_ne_nil (hne hss)).symm⟩

theorem Token.keeps_of_bytes {tk : Token} (hs : tk.plain.under f ≠ stray) :
    (tk.under f).bytes.length ≤ (tk.plain.under f).bytes.length ∧
      ((tk.under f).bytes = (tk.plain.under f).bytes → tk.Keeps f) := by
  cases tk with
  | octet b =>
    by_cases hu : CharSet.unreserved.contains (Char.ofNat b.toNat) = true
    · rw [plain_octet hu] at hs ⊢
      cases hd : f (Char.ofNat b.toNat) with
      | none =>
        rw [under, hd] at hs
        exact absurd rfl hs
      | some d =>
        rw [show (raw (Char.ofNat b.toNat)).under f = raw d by rw [under, hd]; rfl]
        refine ⟨List.length_pos_of_ne_nil String.utf8EncodeChar_ne_nil, fun h _ => ?_⟩
        rw [hd, Utf8.encodeChar_injective ((Utf8.encodeChar_ofNat (octet_lt_of_unreserved hu)).trans h)]
    · rw [plain_octet_of_not hu]
      exact ⟨le_rfl, fun _ h => absurd h hu⟩
  | raw c => exact ⟨le_rfl, fun _ => trivial⟩
  | stray => exact absurd rfl hs

/-- Without needless escapes symbols are read the same if each of these belonged to a character that means itself. -/
theorem reads_plain_iff (h : Reads (ts.map (Token.under f)) s) :
    Reads ((ts.map Token.plain).map (Token.under f)) s ↔ ∀ tk ∈ ts, tk.Keeps f := by
  rw [List.map_map]
  constructor
  · intro h'
    have htk : ∀ tk ∈ ts, tk.plain.under f ≠ .stray :=
      fun tk hm hs => h'.no_stray (List.mem_map.2 ⟨tk, hm, hs⟩)
    have hbytes := h.bytes.symm.trans h'.bytes
    rw [List.flatMap_map, List.flatMap_map] at hbytes
    have heq := eq_of_flatMap_eq (fun tk hm => (Token.keeps_of_bytes (htk tk hm)).1) hbytes
    exact fun tk hm => (Token.keeps_of_bytes (htk tk hm)).2 (heq tk hm)
  · intro hk
    have heq : ts.map (Token.under f ∘ Token.plain) = (ts.map (Token.under f)).map Token.plain := by
      rw [List.map_map]
      exact List.map_congr_left fun tk htk => (hk tk htk).under_plain
    rw [heq]
    exact h.plain

end Percent

end GenericUri
