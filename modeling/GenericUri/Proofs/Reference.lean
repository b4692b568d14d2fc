import GenericUri.Proofs.Authority
import GenericUri.Proofs.Path
import GenericUri.Reference
import Mathlib.Data.List.TakeDrop
import Mathlib.Data.List.TakeWhile

/-!
# Reference — references read back

Each reader that cuts a text into pieces is characterised by the pieces themselves (`HierPart.read_eq_ok_iff`,
`Parts.read_eq_ok_iff`, `Uri.read_eq_ok_iff`): a text is read exactly if it is pieces with their separators between
them that are read one by one.  No piece holds the separator that ends it, so it does not matter where a reader cuts
first.  From this a well-formed reference is read back, and whatever is read is well-formed.

Between a URI and a relative reference the first colon decides (`startsLikeScheme_iff`).  A relative reference has none
in its first segment, which is why its path is marked if the segment holds a colon.

Resolving keeps references well-formed.  A path alone leaves the authority of the base as it is
(`HierPart.authority?_resolve`) and is resolved against the path of the base (`HierPart.path_resolve`).
-/

namespace GenericUri

/-! ### Hierarchical parts -/

namespace HierPart

variable {base h : HierPart} {t : Text}

def WellFormed : HierPart → Prop
  | bare p => p.WellFormed
  | under a p => a.WellFormed ∧ ∀ q ∈ p, q.WellFormed

theorem read_of_no_slashes (ht : ¬ ['/', '/'] <+: t) : read t = (Path.read t).map bare := by
  unfold read
  split
  · exact absurd ⟨_, rfl⟩ ht
  · rfl

/-- Two slashes start an authority, which a path may follow; anything else is a path. -/
theorem read_eq_ok_iff :
    read t = .ok h ↔
      (∃ (authority : Text) (path : Option Text) (a : Authority) (p : Option AbsolutePath),
        t = '/' :: '/' :: authority ++ (path.elim [] fun p => '/' :: p) ∧ Authority.read authority = .ok a ∧
          path.mapM AbsolutePath.readAfterSlash = .ok p ∧ h = under a p) ∨
      (¬ ['/', '/'] <+: t ∧ ∃ p, Path.read t = .ok p ∧ h = bare p) := by
  by_cases ht : ['/', '/'] <+: t
  · obtain ⟨rest, rfl⟩ := ht
    show (do
      let a ← Authority.read (Text.cutOff '/' rest).1
      let p ← (Text.cutOff '/' rest).2.mapM AbsolutePath.readAfterSlash
      return under a p) = .ok h ↔ _
    simp only [bind_eq_ok_iff, pure_eq_ok_iff]
    constructor
    · rintro ⟨a, ha, p, hp, rfl⟩
      refine .inl ⟨_, _, a, p, ?_, ha, hp, rfl⟩
      show '/' :: '/' :: rest = '/' :: '/' :: _ ++ _
      rw [List.cons_append, List.cons_append, Text.append_of_cutOff]
    · rintro (⟨authority, path, a, p, hrest, ha, hp, rfl⟩ | ⟨h, -⟩)
      · have hslash : '/' ∉ authority := Authority.not_mem_of_read ha (by simp)
        have hrest : rest = authority ++ path.elim [] fun p => '/' :: p :=
          (List.cons.inj (List.cons.inj hrest).2).2
        rw [hrest, Text.cutOff_append_elim hslash]
        exact ⟨a, ha, p, hp, rfl⟩
      · exact absurd ⟨rest, rfl⟩ h
  · rw [read_of_no_slashes ht, map_eq_ok_iff]
    constructor
    · rintro ⟨p, hp, rfl⟩
      exact .inr ⟨ht, p, hp, rfl⟩
    · rintro (⟨authority, path, a, p, rfl, -⟩ | ⟨-, p, hp, rfl⟩)
      · exact absurd ⟨_, rfl⟩ ht
      · exact ⟨p, hp, rfl⟩

/-- A text is read as a path alone where no authority starts. -/
theorem read_eq_bare_iff {p : Path} : read t = .ok (bare p) ↔ ¬ ['/', '/'] <+: t ∧ Path.read t = .ok p := by
  rw [read_eq_ok_iff]
  constructor
  · rintro (⟨authority, path, a, q, -, -, -, h⟩ | ⟨ht, q, hq, h⟩)
    · cases h
    · cases h
      exact ⟨ht, hq⟩
  · rintro ⟨ht, hp⟩
    exact .inr ⟨ht, p, hp, rfl⟩

theorem not_mem_of_read (hr : read t = .ok h) {c : Char} (hc : c ∈ ['?', '#']) : c ∉ t := by
  rcases read_eq_ok_iff.1 hr with ⟨authority, path, a, p, rfl, ha, hp, -⟩ | ⟨-, p, hp, -⟩
  · have hne : c ≠ '/' := by
      rintro rfl
      exact absurd hc (by decide)
    have hauth : c ∉ authority := Authority.not_mem_of_read ha (List.mem_cons_of_mem _ hc)
    have hpath : c ∉ path.elim [] fun p => '/' :: p :=
      not_mem_elim_of_option_mapM hp hne fun h => AbsolutePath.not_mem_of_readAfterSlash h hc
    simp [hne, hauth, hpath]
  · exact Path.not_mem_of_read hp hc

theorem wellFormed_of_read (hr : read t = .ok h) : h.WellFormed := by
  rcases read_eq_ok_iff.1 hr with ⟨authority, path, a, p, -, ha, hp, rfl⟩ | ⟨-, p, hp, rfl⟩
  · exact ⟨Authority.wellFormed_of_read ha, forall_mem_of_option_mapM hp AbsolutePath.wellFormed_of_readAfterSlash⟩
  · exact Path.wellFormed_of_read hp

/-- A well-formed part is read from its text, after a scheme as well as at the start. -/
theorem WellFormed.read_text (hw : h.WellFormed) {position : Position} (hp : position ≠ .afterAuthority) :
    read (h.text position) = .ok h := by
  cases h with
  | bare p =>
    have hp : p.WellFormed := hw
    obtain ⟨hread, hslash⟩ := hp.read_text (by assumption)
    exact read_eq_ok_iff.2 (.inr ⟨hslash, p, hread, rfl⟩)
  | under a p =>
    obtain ⟨ha, hp⟩ := hw
    refine read_eq_ok_iff.2 (.inl ⟨a.text, p.map (AbsolutePath.body .afterAuthority), a, p, ?_, ha.readsBack, ?_, rfl⟩)
    · cases p <;> rfl
    · exact option_mapM_map_eq_ok fun q hq => (hp q hq).readAfterSlash_body _

/-- Authority and path are well-formed each on its own: that they fit together is in the type. -/
theorem wellFormed_iff : h.WellFormed ↔ (∀ a ∈ h.authority?, a.WellFormed) ∧ h.path.WellFormed := by
  rcases h with p | ⟨a, _ | p⟩ <;> simp [WellFormed, authority?, path, Path.WellFormed]

theorem WellFormed.path (hw : h.WellFormed) : h.path.WellFormed := (wellFormed_iff.1 hw).2

theorem WellFormed.mapAuthority (hw : h.WellFormed) {f : Authority → Authority}
    (hf : ∀ a : Authority, a.WellFormed → (f a).WellFormed) : (h.mapAuthority f).WellFormed := by
  cases h with
  | bare p => exact hw
  | under a p => exact ⟨hf a hw.1, hw.2⟩

theorem WellFormed.withPath (hw : h.WellFormed) {p : AbsolutePath} (hp : p.WellFormed) : (h.withPath p).WellFormed := by
  cases h with
  | bare q => exact hp
  | under a q => exact ⟨hw.1, forall_mem_some hp⟩

/-- A path alone leaves the authority of the base as it is. -/
theorem authority?_resolve (base : HierPart) (p : Path) : (base.resolve (.bare p)).authority? = base.authority? := by
  cases p with
  | empty => rfl
  | absolute q => cases base <;> rfl
  | rootless q =>
    rcases base with (_ | b | b) | ⟨a, b⟩ <;> rfl

/-- The path is resolved against the path of the base, whether the base has an authority or not.  The one exception is a
base with neither authority nor path, against which a rootless path stays rootless. -/
theorem path_resolve {p : Path} (h : ¬ (base = .bare .empty ∧ ∃ r, p = .rootless r)) :
    (base.resolve (.bare p)).path = base.path.resolve p := by
  cases p with
  | empty => rfl
  | absolute q => cases base <;> rfl
  | rootless q =>
    rcases base with (_ | b | b) | ⟨a, _ | b⟩
    · exact absurd ⟨rfl, q, rfl⟩ h
    all_goals rfl

theorem WellFormed.resolve (hb : base.WellFormed) (hw : h.WellFormed) : (base.resolve h).WellFormed := by
  cases h with
  | under a p => exact hw
  | bare p =>
    have hp : p.WellFormed := hw
    by_cases hempty : base = .bare .empty ∧ ∃ r, p = .rootless r
    · obtain ⟨rfl, r, rfl⟩ := hempty
      exact Path.wellFormed_mergeOnto nofun hp
    · rw [wellFormed_iff, authority?_resolve, path_resolve hempty]
      exact ⟨(wellFormed_iff.1 hb).1, hb.path.resolve hp⟩

end HierPart

/-! ### Parts -/

namespace Parts

variable {base p : Parts} {t : Text}

structure WellFormed (p : Parts) : Prop where
  hier : p.hier.WellFormed
  query : ∀ q ∈ p.query, ReadsBack q
  fragment : ∀ f ∈ p.fragment, ReadsBack f

/-- Where no piece holds the separator that ends it, the pieces are read one by one. -/
theorem read_append_eq_ok_iff {hier : Text} {query fragment : Option Text} (hhier : '?' ∉ hier)
    (hhash : '#' ∉ hier ++ query.elim [] fun q => '?' :: q) :
    read (hier ++ (query.elim [] fun q => '?' :: q) ++ fragment.elim [] fun f => '#' :: f) = .ok p ↔
      HierPart.read hier = .ok p.hier ∧ query.mapM Tail.read = .ok p.query ∧
        fragment.mapM Tail.read = .ok p.fragment := by
  simp only [read, bind_eq_ok_iff, pure_eq_ok_iff, Text.cutOff_append_elim hhash, Text.cutOff_append_elim hhier]
  constructor
  · rintro ⟨f, hf, q, hq, h, hh, rfl⟩
    exact ⟨hh, hq, hf⟩
  · rintro ⟨hh, hq, hf⟩
    exact ⟨p.fragment, hf, p.query, hq, p.hier, hh, rfl⟩

/-- Parts are read from the texts of hierarchical part, query and fragment in a row. -/
theorem read_eq_ok_iff :
    read t = .ok p ↔ ∃ (hier : Text) (query fragment : Option Text),
      t = hier ++ (query.elim [] fun q => '?' :: q) ++ (fragment.elim [] fun f => '#' :: f) ∧
        HierPart.read hier = .ok p.hier ∧ query.mapM Tail.read = .ok p.query ∧
          fragment.mapM Tail.read = .ok p.fragment := by
  constructor
  · intro h
    simp only [read, bind_eq_ok_iff, pure_eq_ok_iff] at h
    obtain ⟨f, hf, q, hq, h, hh, rfl⟩ := h
    refine ⟨_, _, _, ?_, hh, hq, hf⟩
    rw [Text.append_of_cutOff, Text.append_of_cutOff]
  · rintro ⟨hier, query, fragment, rfl, hh, hq, hf⟩
    refine (read_append_eq_ok_iff (HierPart.not_mem_of_read hh (by simp)) ?_).2 ⟨hh, hq, hf⟩
    rw [List.mem_append, not_or]
    exact ⟨HierPart.not_mem_of_read hh (by simp), not_mem_elim_of_option_mapM hq (by decide) Tail.not_mem_of_read⟩

theorem wellFormed_of_read (h : read t = .ok p) : p.WellFormed := by
  obtain ⟨hier, query, fragment, -, hh, hq, hf⟩ := read_eq_ok_iff.1 h
  exact ⟨HierPart.wellFormed_of_read hh, forall_mem_of_option_mapM hq Tail.readsBack_of_read,
    forall_mem_of_option_mapM hf Tail.readsBack_of_read⟩

/-- The text of the parts is that of its pieces, each with its separator. -/
theorem text_eq_append (position : Position) (p : Parts) :
    p.text position = p.hier.text position ++ ((p.query.map Tail.text).elim [] fun q => '?' :: q) ++
      (p.fragment.map Tail.text).elim [] fun f => '#' :: f := by
  unfold text
  cases p.query <;> cases p.fragment <;> rfl

theorem WellFormed.read_text (h : p.WellFormed) {position : Position} (hp : position ≠ .afterAuthority) :
    read (p.text position) = .ok p :=
  read_eq_ok_iff.2 ⟨p.hier.text position, p.query.map Tail.text, p.fragment.map Tail.text, text_eq_append position p,
    h.hier.read_text hp, option_mapM_map_eq_ok h.query, option_mapM_map_eq_ok h.fragment⟩

theorem WellFormed.mapAuthority (h : p.WellFormed) {f : Authority → Authority}
    (hf : ∀ a : Authority, a.WellFormed → (f a).WellFormed) : (p.mapAuthority f).WellFormed :=
  ⟨h.hier.mapAuthority hf, h.query, h.fragment⟩

theorem WellFormed.withPath (h : p.WellFormed) {a : AbsolutePath} (ha : a.WellFormed) : (p.withPath a).WellFormed :=
  ⟨h.hier.withPath ha, h.query, h.fragment⟩

theorem WellFormed.resolve (hb : base.WellFormed) (h : p.WellFormed) : (base.resolve p).WellFormed := by
  refine ⟨hb.hier.resolve h.hier, ?_, h.fragment⟩
  intro q hq
  unfold Parts.resolve at hq
  simp only at hq
  split at hq
  · cases hp : p.query with
    | none =>
      rw [hp] at hq
      exact hb.query q hq
    | some r =>
      rw [hp] at hq
      exact h.query q (hp ▸ hq)
  · exact h.query q hq

end Parts

/-! ### URIs -/

namespace Uri

variable {u : Uri} {t : Text}

structure WellFormed (u : Uri) : Prop where
  scheme : SchemeName.ofText u.scheme.text = .ok u.scheme
  parts : u.parts.WellFormed

theorem cutScheme_eq_some_iff {name rest : Text} :
    cutScheme t = some (name, rest) ↔ t = name ++ ':' :: rest ∧ ∀ c ∈ name, c ∉ [':', '/', '?', '#'] := by
  unfold cutScheme
  rw [List.span_eq_takeWhile_dropWhile]
  constructor
  · intro h
    split at h
    · next l r heq =>
      obtain ⟨h1, h2⟩ := Prod.mk.inj heq
      obtain ⟨rfl, rfl⟩ := Prod.mk.inj (Option.some.inj h)
      refine ⟨?_, ?_⟩
      · rw [← h1, ← h2, List.takeWhile_append_dropWhile]
      · intro c hc
        rw [← h1] at hc
        simpa [and_assoc] using List.mem_takeWhile_imp hc
    · cases h
  · rintro ⟨rfl, hname⟩
    have hall : ∀ c ∈ name, (c != ':' && c != '/' && c != '?' && c != '#') = true := by
      intro c hc
      simpa [and_assoc] using hname c hc
    rw [List.takeWhile_append_of_pos hall, List.dropWhile_append_of_pos hall, List.takeWhile_cons_of_neg (by simp),
      List.dropWhile_cons_of_neg (by simp)]
    simp

/-- A name of a scheme ends at the first colon, and what follows is read as parts. -/
theorem read_append_eq_ok_iff {name rest : Text} {n : SchemeName} (hn : SchemeName.ofText name = .ok n) :
    read (name ++ ':' :: rest) = .ok u ↔ n = u.scheme ∧ Parts.read rest = .ok u.parts := by
  have hcut : cutScheme (name ++ ':' :: rest) = some (name, rest) := by
    refine cutScheme_eq_some_iff.2 ⟨rfl, ?_⟩
    intro c hc hsep
    exact SchemeName.not_mem_of_ofText hn hsep hc
  obtain ⟨c, cs, rfl⟩ := List.exists_cons_of_ne_nil (SchemeName.ne_nil_of_ofText hn)
  unfold read
  rw [hcut]
  simp only [bind_eq_ok_iff, pure_eq_ok_iff, mapError_eq_ok_iff, hn, Except.ok.injEq]
  constructor
  · rintro ⟨s, rfl, p, hp, rfl⟩
    exact ⟨rfl, hp⟩
  · rintro ⟨rfl, hp⟩
    exact ⟨u.scheme, rfl, u.parts, hp, rfl⟩

/-- A URI is read from the texts of its scheme and of its parts with a colon between them. -/
theorem read_eq_ok_iff :
    read t = .ok u ↔ ∃ name rest, t = name ++ ':' :: rest ∧ SchemeName.ofText name = .ok u.scheme ∧
      Parts.read rest = .ok u.parts := by
  constructor
  · intro h
    unfold read at h
    split at h
    · cases h
    · cases h
    · next name rest _ hcut =>
      simp only [bind_eq_ok_iff, pure_eq_ok_iff, mapError_eq_ok_iff] at h
      obtain ⟨s, hs, p, hp, rfl⟩ := h
      exact ⟨name, rest, (cutScheme_eq_some_iff.1 hcut).1, hs, hp⟩
  · rintro ⟨name, rest, rfl, hs, hp⟩
    exact (read_append_eq_ok_iff hs).2 ⟨rfl, hp⟩

theorem wellFormed_of_read (h : read t = .ok u) : u.WellFormed := by
  obtain ⟨name, rest, -, hs, hp⟩ := read_eq_ok_iff.1 h
  exact ⟨SchemeName.ofText_text hs, Parts.wellFormed_of_read hp⟩

theorem WellFormed.readsBack (h : u.WellFormed) : ReadsBack u :=
  read_eq_ok_iff.2 ⟨u.scheme.text, u.parts.text .afterScheme, rfl, h.scheme, h.parts.read_text (by decide)⟩

end Uri

/-! ### Relative references -/

namespace RelativeRef

variable {r : RelativeRef} {t : Text}

def WellFormed (r : RelativeRef) : Prop := r.parts.WellFormed

/-- A text starts like a scheme if a colon comes first among the separators. -/
theorem startsLikeScheme_iff :
    startsLikeScheme t = true ↔ ∃ name rest, t = name ++ ':' :: rest ∧ ∀ c ∈ name, c ∉ ['/', '?', '#'] := by
  unfold startsLikeScheme
  rw [List.contains_iff_mem]
  constructor
  · intro h
    obtain ⟨l, r, hlr⟩ := List.append_of_mem h
    refine ⟨l, r ++ t.dropWhile fun c => c != '/' && c != '?' && c != '#', ?_, ?_⟩
    · rw [← List.cons_append, ← List.append_assoc, ← hlr, List.takeWhile_append_dropWhile]
    · intro c hc
      have hm : c ∈ t.takeWhile fun c => c != '/' && c != '?' && c != '#' := by
        rw [hlr]
        exact List.mem_append_left _ hc
      simpa [and_assoc] using List.mem_takeWhile_imp hm
  · rintro ⟨name, rest, rfl, hname⟩
    have hall : ∀ c ∈ name, (c != '/' && c != '?' && c != '#') = true := by
      intro c hc
      simpa [and_assoc] using hname c hc
    rw [List.takeWhile_append_of_pos hall, List.takeWhile_cons_of_pos (by decide)]
    exact List.mem_append_right _ List.mem_cons_self

/-- What stands from a separator on does not count. -/
theorem startsLikeScheme_append {l r : Text} (hr : ∀ c ∈ r.head?, c ∈ ['/', '?', '#']) :
    startsLikeScheme (l ++ r) = startsLikeScheme l := by
  have hr : r.takeWhile (fun c => c != '/' && c != '?' && c != '#') = [] := by
    rcases r with _ | ⟨c, cs⟩
    · rfl
    · have hc := hr c rfl
      simp only [List.mem_cons, List.not_mem_nil, or_false] at hc
      rcases hc with rfl | rfl | rfl <;> rfl
  unfold startsLikeScheme
  rw [List.takeWhile_append, hr, List.append_nil]
  split
  · next h => rw [(List.takeWhile_prefix _).eq_of_length h]
  · rfl

theorem startsLikeScheme_of_not_mem {l : Text} (hl : ':' ∉ l) : startsLikeScheme l = false := by
  rw [← Bool.not_eq_true, startsLikeScheme_iff]
  rintro ⟨name, rest, rfl, -⟩
  exact hl (by simp)

/-- No scheme starts where a separator ends a text without a colon. -/
theorem startsLikeScheme_append_of_not_mem {l r : Text} (hl : ':' ∉ l) (hr : ∀ c ∈ r.head?, c ∈ ['/', '?', '#']) :
    startsLikeScheme (l ++ r) = false :=
  (startsLikeScheme_append hr).trans (startsLikeScheme_of_not_mem hl)

theorem read_eq_ok_iff :
    read t = .ok r ↔ Parts.read t = .ok r.parts ∧ startsLikeScheme t = false := by
  simp only [read, bind_eq_ok_iff]
  constructor
  · rintro ⟨p, hp, h⟩
    cases hs : startsLikeScheme t with
    | true =>
      rw [hs] at h
      cases h
    | false =>
      rw [hs] at h
      obtain rfl := Except.ok.inj h
      exact ⟨hp, rfl⟩
  · rintro ⟨hp, hs⟩
    refine ⟨r.parts, hp, ?_⟩
    rw [hs]
    rfl

theorem wellFormed_of_read (h : read t = .ok r) : r.WellFormed := Parts.wellFormed_of_read (read_eq_ok_iff.1 h).1

/-- What follows the hierarchical part starts with its separator. -/
theorem head?_tails {α β : Type} (q : Option α) (f : Option β) (g : α → Text) (h : β → Text) :
    ∀ c ∈ ((q.elim [] fun q => '?' :: g q) ++ f.elim [] fun f => '#' :: h f).head?, c ∈ ['/', '?', '#'] := by
  cases q with
  | some q => simp
  | none => cases f <;> simp

theorem colon_not_mem_text {s : Segment} (h : s.hasColon = false) : ':' ∉ s.text := by
  cases s with
  | dot => decide
  | dotDot => decide
  | value u => simpa [Segment.hasColon, Segment.text] using h

/-- The text of a relative reference is not taken for a URI. -/
theorem startsLikeScheme_text (r : RelativeRef) : startsLikeScheme r.text = false := by
  obtain ⟨hier, query, fragment⟩ := r
  have htails := head?_tails query fragment Tail.text Tail.text
  show startsLikeScheme (hier.text .atStart ++ _ ++ _) = false
  rw [List.append_assoc]
  rcases hier with (_ | a | p) | ⟨a, p⟩
  · exact startsLikeScheme_append_of_not_mem (l := []) List.not_mem_nil htails
  · exact startsLikeScheme_append_of_not_mem (l := []) List.not_mem_nil (forall_mem_some List.mem_cons_self)
  · show startsLikeScheme (p.text .atStart ++ _) = false
    by_cases hm : p.needsMark .atStart = true
    · rw [RootlessPath.text, if_pos hm]
      exact startsLikeScheme_append_of_not_mem (l := ['.']) (by decide) (forall_mem_some List.mem_cons_self)
    · rw [RootlessPath.text, if_neg hm, List.nil_append]
      rcases hs : p.segments with _ | ⟨s, rest⟩
      · exact startsLikeScheme_append_of_not_mem (l := []) List.not_mem_nil htails
      · have hcolon : ':' ∉ s.text := by
          simp only [RootlessPath.needsMark, hs, List.head?_cons, Option.any_some, Bool.or_eq_true, not_or] at hm
          exact colon_not_mem_text (by simpa using hm.2)
        rw [segmentsText_cons, List.append_assoc]
        refine startsLikeScheme_append_of_not_mem hcolon ?_
        split
        · exact htails
        · exact forall_mem_some List.mem_cons_self
  · exact startsLikeScheme_append_of_not_mem (l := []) List.not_mem_nil (forall_mem_some List.mem_cons_self)

theorem WellFormed.readsBack (h : r.WellFormed) : ReadsBack r :=
  read_eq_ok_iff.2 ⟨Parts.WellFormed.read_text h (by decide), startsLikeScheme_text r⟩

end RelativeRef

/-! ### References -/

namespace Reference

variable {x : Reference} {t : Text}

def WellFormed : Reference → Prop
  | uri u => u.WellFormed
  | relative r => r.WellFormed

theorem hasScheme_iff :
    hasScheme t = true ↔ ∃ name rest n, t = name ++ ':' :: rest ∧ SchemeName.ofText name = .ok n := by
  unfold hasScheme
  constructor
  · intro h
    split at h
    · next name rest hcut =>
      cases hn : SchemeName.ofText name with
      | error e =>
        rw [hn] at h
        cases h
      | ok n => exact ⟨name, rest, n, (Uri.cutScheme_eq_some_iff.1 hcut).1, hn⟩
    · cases h
  · rintro ⟨name, rest, n, rfl, hn⟩
    have hcut : Uri.cutScheme (name ++ ':' :: rest) = some (name, rest) := by
      refine Uri.cutScheme_eq_some_iff.2 ⟨rfl, ?_⟩
      intro c hc hsep
      exact SchemeName.not_mem_of_ofText hn hsep hc
    rw [hcut]
    show (SchemeName.ofText name).isOk = true
    rw [hn]
    rfl

/-- A text with a scheme starts like one. -/
theorem hasScheme_of_startsLikeScheme_eq_false (h : RelativeRef.startsLikeScheme t = false) : hasScheme t = false := by
  rw [← Bool.not_eq_true]
  intro hs
  obtain ⟨name, rest, n, ht, hn⟩ := hasScheme_iff.1 hs
  have hstart : RelativeRef.startsLikeScheme t = true := by
    refine RelativeRef.startsLikeScheme_iff.2 ⟨name, rest, ht, ?_⟩
    intro c hc hsep
    exact SchemeName.not_mem_of_ofText hn (List.mem_cons_of_mem _ hsep) hc
  rw [h] at hstart
  cases hstart

/-- A reference is read as a URI or as a relative reference, and no text can be read as both. -/
theorem read_eq_ok_iff :
    read t = .ok x ↔ (∃ u, Uri.read t = .ok u ∧ x = uri u) ∨ ∃ r, RelativeRef.read t = .ok r ∧ x = relative r := by
  unfold read
  by_cases hs : hasScheme t = true
  · rw [if_pos hs, map_eq_ok_iff]
    constructor
    · rintro ⟨u, hu, rfl⟩
      exact .inl ⟨u, hu, rfl⟩
    · rintro (⟨u, hu, rfl⟩ | ⟨r, hr, -⟩)
      · exact ⟨u, hu, rfl⟩
      · rw [hasScheme_of_startsLikeScheme_eq_false (RelativeRef.read_eq_ok_iff.1 hr).2] at hs
        cases hs
  · rw [if_neg hs, mapError_eq_ok_iff, map_eq_ok_iff]
    constructor
    · rintro ⟨r, hr, rfl⟩
      exact .inr ⟨r, hr, rfl⟩
    · rintro (⟨u, hu, -⟩ | ⟨r, hr, rfl⟩)
      · obtain ⟨name, rest, ht, hn, -⟩ := Uri.read_eq_ok_iff.1 hu
        exact absurd (hasScheme_iff.2 ⟨name, rest, u.scheme, ht, hn⟩) hs
      · exact ⟨r, hr, rfl⟩

theorem wellFormed_of_read (h : read t = .ok x) : x.WellFormed := by
  rcases read_eq_ok_iff.1 h with ⟨u, hu, rfl⟩ | ⟨r, hr, rfl⟩
  · exact Uri.wellFormed_of_read hu
  · exact RelativeRef.wellFormed_of_read hr

theorem WellFormed.readsBack (h : x.WellFormed) : ReadsBack x := by
  cases x with
  | uri u =>
    have hu : u.WellFormed := h
    exact read_eq_ok_iff.2 (.inl ⟨u, hu.readsBack, rfl⟩)
  | relative r =>
    have hr : r.WellFormed := h
    exact read_eq_ok_iff.2 (.inr ⟨r, hr.readsBack, rfl⟩)

end Reference
end GenericUri
