import GenericUri.Proofs.Dispatch

/-!
# FirstFault — which fault is reported

The expression of RFC 3986, appendix B, cuts a text into pieces from left to right (`Pieces.of`).  The readers cut it
from the right and read while they cut: fragment, query, user information, host, port, and then the segments of the
path.  `Pieces.faults` lists what is wrong with the pieces in that order, each as the reader of its kind has it.

`ReportsFirst` says that a reader accepts a text without faults and otherwise reports the first of them.  It holds of
the reader of each component and carries over to readers that read one piece after another, and so to the readers of
URIs and relative references (`parse_error_iff_first_fault`).
-/

namespace GenericUri

/-! ### Readers that report the first fault -/

section ReportsFirst

variable {α β : Type} {x : Except Fault α} {l l' : List Fault}

/-- Nothing is reported if there is no fault, and otherwise the first. -/
def ReportsFirst (x : Except Fault α) (faults : List Fault) : Prop := ∀ f, x = .error f ↔ faults.head? = some f

theorem reportsFirst_ok (a : α) : ReportsFirst (.ok a) [] := fun _ => ⟨nofun, nofun⟩

theorem reportsFirst_error (f : Fault) : ReportsFirst (.error f : Except Fault α) [f] := fun g => by
  rw [List.head?_cons, Except.error.injEq, Option.some.injEq]

theorem ReportsFirst.eq_nil (h : ReportsFirst x l) {a : α} (hx : x = .ok a) : l = [] := by
  cases l with
  | nil => rfl
  | cons f l =>
    have := (h f).2 rfl
    rw [hx] at this
    cases this

theorem ReportsFirst.exists_eq_cons (h : ReportsFirst x l) {f : Fault} (hx : x = .error f) : ∃ l', l = f :: l' := by
  have := (h f).1 hx
  cases l with
  | nil => cases this
  | cons g l =>
    obtain rfl := Option.some.inj this
    exact ⟨l, rfl⟩

/-- Of what is read second nothing is reported before what is read first. -/
theorem ReportsFirst.bind {g : α → Except Fault β} (h : ReportsFirst x l)
    (hg : ∀ a, x = .ok a → ReportsFirst (g a) l') :
    ReportsFirst (x >>= g) (l ++ l') := by
  cases hx : x with
  | error f =>
    obtain ⟨rest, rfl⟩ := h.exists_eq_cons hx
    intro f'
    rw [List.cons_append, List.head?_cons, Option.some.injEq]
    exact Except.error.injEq f f' ▸ Iff.rfl
  | ok a =>
    rw [h.eq_nil hx, List.nil_append]
    exact hg a hx

theorem ReportsFirst.map (h : ReportsFirst x l) (g : α → β) : ReportsFirst (x.map g) l := fun f => by
  rw [map_eq_error_iff]
  exact h f

theorem ReportsFirst.mapM {r : Text → Except Fault α} {faults : Text → List Fault}
    (h : ∀ t, ReportsFirst (r t) (faults t)) (ts : List Text) : ReportsFirst (ts.mapM r) (ts.flatMap faults) := by
  induction ts with
  | nil => exact reportsFirst_ok []
  | cons t ts ih =>
    rw [List.mapM_cons, List.flatMap_cons]
    exact (h t).bind fun a _ => ih.map (a :: ·)

theorem ReportsFirst.option_mapM {r : Text → Except Fault α} {faults : Text → List Fault}
    (h : ∀ t, ReportsFirst (r t) (faults t)) (o : Option Text) : ReportsFirst (o.mapM r) (o.elim [] faults) := by
  cases o with
  | none => exact reportsFirst_ok none
  | some t =>
    rw [Option.mapM_some]
    exact (h t).map some

end ReportsFirst

/-- What the reader of a component finds wrong with a text. -/
def faultsOf (α : Type) [Component α] (t : Text) : List Fault :=
  match parse α t with
  | .ok _ => []
  | .error e => [e.fault]

theorem reportsFirst_faultsOf {α : Type} [Component α] (t : Text) :
    ReportsFirst (Component.read t : Except Fault α) (faultsOf α t) := by
  unfold faultsOf parse
  cases (Component.read t : Except Fault α) with
  | ok a => exact reportsFirst_ok a
  | error f => exact reportsFirst_error f

/-! ### The pieces of a text -/

/-- The text before the first of the separators, and the text from it on. -/
def Text.cutBefore (seps : List Char) (t : Text) : Text × Text := t.span (· ∉ seps)

theorem Text.cutBefore_append {seps : List Char} {l r : Text} (hl : ∀ c ∈ l, c ∉ seps) (hr : ∀ c ∈ r.head?, c ∈ seps) :
    cutBefore seps (l ++ r) = (l, r) := by
  have hall : ∀ c ∈ l, decide (c ∉ seps) = true := fun c hc => decide_eq_true (hl c hc)
  rw [cutBefore, List.span_eq_takeWhile_dropWhile, List.takeWhile_append_of_pos hall, List.dropWhile_append_of_pos hall]
  cases r with
  | nil => simp
  | cons c r =>
    have hc : c ∈ seps := hr c rfl
    simp [hc]

/-- Where there is no separator but one, this is the text before it, and the text from it on. -/
theorem Text.cutBefore_eq_cutOff {sep : Char} {seps : List Char} {t : Text} (hsep : sep ∈ seps)
    (ht : ∀ c ∈ t, c ∈ seps → c = sep) :
    cutBefore seps t = ((cutOff sep t).1, (cutOff sep t).2.elim [] fun r => sep :: r) := by
  conv_lhs => rw [← append_of_cutOff sep t]
  refine cutBefore_append ?_ (head?_elim hsep _)
  intro c hc hmem
  obtain ⟨hct, hne⟩ := mem_cutOff hc
  exact hne (ht c hct hmem)

theorem Text.cutBefore_singleton (sep : Char) (t : Text) :
    cutBefore [sep] t = ((cutOff sep t).1, (cutOff sep t).2.elim [] fun r => sep :: r) :=
  cutBefore_eq_cutOff List.mem_cons_self fun _ _ => List.mem_singleton.1

/-- What is added behind a separator stays behind it. -/
theorem Text.cutBefore_append_right {seps : List Char} {l r : Text} (hr : ∀ c ∈ r.head?, c ∈ seps) :
    cutBefore seps (l ++ r) = ((cutBefore seps l).1, (cutBefore seps l).2 ++ r) := by
  induction l with
  | nil => exact cutBefore_append nofun hr
  | cons c l ih =>
    by_cases hc : c ∈ seps
    · simp [cutBefore, List.span_eq_takeWhile_dropWhile, hc]
    · simpa [cutBefore, List.span_eq_takeWhile_dropWhile, hc] using ih

/-- The text of the scheme and what follows its colon: the first separator of the text is a colon, and not in front. -/
def SchemePiece (t name rest : Text) : Prop :=
  t = name ++ ':' :: rest ∧ name ≠ [] ∧ ∀ c ∈ name, c ∉ [':', '/', '?', '#']

/-- After two slashes an authority reaches to the next slash, `?` or `#`. -/
def authorityPiece : Text → Option Text × Text
  | '/' :: '/' :: t =>
    let (authority, rest) := Text.cutBefore ['/', '?', '#'] t
    (some authority, rest)
  | t => (none, t)

/-- After a `?` a query reaches to the next `#`. -/
def queryPiece : Text → Option Text × Text
  | '?' :: t =>
    let (query, rest) := Text.cutBefore ['#'] t
    (some query, rest)
  | t => (none, t)

def fragmentPiece : Text → Option Text
  | '#' :: t => some t
  | _ => none

/-- The pieces of a text without a scheme. -/
structure Pieces where
  authority : Option Text
  path : Text
  query : Option Text
  fragment : Option Text

/-- The pieces as the expression cuts them, from left to right. -/
def Pieces.of (t : Text) : Pieces :=
  let (authority, rest) := authorityPiece t
  let (path, rest) := Text.cutBefore ['?', '#'] rest
  let (query, rest) := queryPiece rest
  ⟨authority, path, query, fragmentPiece rest⟩

/-- The pieces in a row, each with what it starts with. -/
def Pieces.text (p : Pieces) : Text :=
  (p.authority.elim [] fun a => '/' :: '/' :: a) ++ p.path ++ (p.query.elim [] fun q => '?' :: q) ++
    p.fragment.elim [] fun f => '#' :: f

/-! ### What is wrong with the pieces -/

/-- What follows the host: nothing, or a colon and a port. -/
def portPiece? : Text → Option (Option Text)
  | [] => some none
  | ':' :: port => some (some port)
  | _ => none

/-- Host and port of an authority without user information.  A host in brackets reaches to the first closing one, which
has to be there and to be followed by a port if by anything; any other host reaches to the first colon. -/
def hostAndPort? (t : Text) : Option (Text × Option Text) :=
  if t.head? = some '[' then
    match Text.cutBefore [']'] t with
    | (front, _ :: rest) => (portPiece? rest).map fun port => (front ++ [']'], port)
    | _ => none
  else
    let (host, rest) := Text.cutBefore [':'] t
    (portPiece? rest).map fun port => (host, port)

/-- What is wrong with host and port; where they cannot be told apart, the host is all of the text. -/
def hostFaults (t : Text) : List Fault :=
  match hostAndPort? t with
  | some (host, port) => faultsOf Host host ++ port.elim [] (faultsOf Port)
  | none => [.host t]

/-- What is wrong with user information, which reaches to the last `@`, host and port. -/
def authorityFaults (t : Text) : List Fault :=
  match Text.cutLast '@' t with
  | some (userInfo, rest) => faultsOf UserInfo userInfo ++ hostFaults rest
  | none => hostFaults t

/-- The texts of the segments of a path, from left to right. -/
def segmentPieces : Text → List Text
  | '/' :: t => t.splitOn '/'
  | t => t.splitOn '/'

namespace Pieces

/-- What is wrong with the pieces, in the order in which they are read. -/
def faults (p : Pieces) : List Fault :=
  p.fragment.elim [] (faultsOf Fragment) ++ p.query.elim [] (faultsOf Query) ++
    p.authority.elim [] authorityFaults ++ (segmentPieces p.path).flatMap (faultsOf Segment)

/-- The first segment of a path that does not start with a slash. -/
def firstSegment (p : Pieces) : Text := (Text.cutOff '/' p.path).1

end Pieces

/-! ### Readers of authorities -/

namespace Authority

/-- Where host and port are told apart, they are what `cutPort` cuts. -/
theorem cutPort_eq (t : Text) : cutPort t = (hostAndPort? t).elim (.error (.host t)) .ok := by
  by_cases hb : t.head? = some '['
  · rw [hostAndPort?, if_pos hb, Text.cutBefore_singleton, Text.cutOff]
    obtain ⟨r, rfl⟩ := List.head?_eq_some_iff.1 hb
    unfold cutPort
    cases Text.cutFirst ']' ('[' :: r) with
    | none => rfl
    | some cut =>
      obtain ⟨front, rest⟩ := cut
      rcases rest with - | ⟨c, port⟩
      · rfl
      · by_cases hc : c = ':'
        · subst hc
          rfl
        · simp [portPiece?, hc]
  · rw [cutPort_of_head?_ne hb, hostAndPort?, if_neg hb, Text.cutBefore_singleton]
    cases hc : Text.cutOff ':' t with
    | mk host port => cases port <;> rfl

/-- What is read of an authority after its user information. -/
theorem reportsFirst_host (userInfo : Option UserInfo) (t : Text) :
    ReportsFirst (cutPort t >>= fun (hostText, portText) => do
      let host ← Host.read hostText
      let port ← portText.mapM Port.read
      return (⟨userInfo, host, port⟩ : Authority)) (hostFaults t) := by
  rw [cutPort_eq, hostFaults]
  cases hostAndPort? t with
  | none => exact reportsFirst_error _
  | some cut =>
    obtain ⟨host, port⟩ := cut
    refine (reportsFirst_faultsOf host).bind fun h _ => ?_
    exact (ReportsFirst.option_mapM reportsFirst_faultsOf port).map fun p => (⟨userInfo, h, p⟩ : Authority)

theorem reportsFirst_read (t : Text) : ReportsFirst (read t) (authorityFaults t) := by
  unfold read cutUserInfo authorityFaults
  cases Text.cutLast '@' t with
  | none => exact reportsFirst_host none t
  | some cut =>
    obtain ⟨front, rest⟩ := cut
    refine ((reportsFirst_faultsOf front).map _).bind fun a ha => ?_
    obtain ⟨userInfo, -, rfl⟩ := map_eq_ok_iff.1 ha
    exact reportsFirst_host (some userInfo) rest

end Authority

/-! ### Readers of paths and of what holds them -/

theorem reportsFirst_readSegments (t : Text) :
    ReportsFirst (readSegments t) ((t.splitOn '/').flatMap (faultsOf Segment)) :=
  ReportsFirst.mapM reportsFirst_faultsOf _

theorem AbsolutePath.reportsFirst_readAfterSlash (t : Text) :
    ReportsFirst (readAfterSlash t) ((segmentPieces ('/' :: t)).flatMap (faultsOf Segment)) := by
  rw [readAfterSlash_eq]
  exact (reportsFirst_readSegments t).map ofSegments

theorem Path.reportsFirst_read (t : Text) : ReportsFirst (read t) ((segmentPieces t).flatMap (faultsOf Segment)) := by
  unfold read
  split
  · exact reportsFirst_ok empty
  · next t => exact (AbsolutePath.reportsFirst_readAfterSlash t).map absolute
  · next hslash =>
    have hpieces : segmentPieces t = t.splitOn '/' := by
      unfold segmentPieces
      split
      · exact absurd rfl (hslash _)
      · rfl
    rw [hpieces]
    exact (reportsFirst_readSegments t).map ofRootless

theorem authorityPiece_of_no_slashes {t : Text} (ht : ¬ ['/', '/'] <+: t) : authorityPiece t = (none, t) := by
  unfold authorityPiece
  split
  · exact absurd ⟨_, rfl⟩ ht
  · rfl

/-- After an authority a path is absolute or empty. -/
theorem AbsolutePath.reportsFirst_option (t : Option Text) :
    ReportsFirst (t.mapM readAfterSlash)
      ((segmentPieces (t.elim [] fun t => '/' :: t)).flatMap (faultsOf Segment)) := by
  cases t with
  | none => exact reportsFirst_ok none
  | some t =>
    rw [Option.mapM_some]
    exact (reportsFirst_readAfterSlash t).map some

theorem HierPart.reportsFirst_read {t : Text} (ht : ∀ c ∈ t, c ∉ ['?', '#']) :
    ReportsFirst (read t) ((authorityPiece t).1.elim [] authorityFaults ++
      (segmentPieces (authorityPiece t).2).flatMap (faultsOf Segment)) := by
  by_cases hslash : ['/', '/'] <+: t
  · obtain ⟨rest, rfl⟩ := hslash
    have hcut : Text.cutBefore ['/', '?', '#'] rest =
        ((Text.cutOff '/' rest).1, (Text.cutOff '/' rest).2.elim [] fun r => '/' :: r) := by
      refine Text.cutBefore_eq_cutOff List.mem_cons_self fun c hc hsep => ?_
      rcases List.mem_cons.1 hsep with h | h
      · exact h
      · exact absurd h (ht c (List.mem_append_right _ hc))
    have hpiece : authorityPiece (['/', '/'] ++ rest) =
        (some (Text.cutOff '/' rest).1, (Text.cutOff '/' rest).2.elim [] fun r => '/' :: r) := by
      show (let (authority, rest) := Text.cutBefore ['/', '?', '#'] rest; (some authority, rest)) = _
      rw [hcut]
    rw [hpiece]
    exact (Authority.reportsFirst_read _).bind fun a _ => (AbsolutePath.reportsFirst_option _).map (under a)
  · rw [authorityPiece_of_no_slashes hslash, read_of_no_slashes hslash]
    exact (Path.reportsFirst_read t).map bare

/-! ### The pieces from the right -/

/-- What follows the path leaves the authority alone. -/
theorem authorityPiece_append {l r : Text} (hr : ∀ c ∈ r.head?, c ∈ ['?', '#']) :
    authorityPiece (l ++ r) = ((authorityPiece l).1, (authorityPiece l).2 ++ r) := by
  by_cases hslash : ['/', '/'] <+: l
  · obtain ⟨l, rfl⟩ := hslash
    have hcut : Text.cutBefore ['/', '?', '#'] (l ++ r) = _ :=
      Text.cutBefore_append_right fun c hc => List.mem_cons_of_mem _ (hr c hc)
    show (let (authority, rest) := Text.cutBefore ['/', '?', '#'] (l ++ r); (some authority, rest)) = _
    rw [hcut]
    rfl
  · have hhead : r.head? ≠ some '/' := fun h => absurd (hr _ h) (by decide)
    have hslash' : ¬ ['/', '/'] <+: l ++ r := by
      rintro ⟨s, hs⟩
      rcases l with _ | ⟨c, _ | ⟨d, l⟩⟩
      · exact hhead (List.head?_eq_some_iff.2 ⟨_, hs.symm⟩)
      · exact hhead (List.head?_eq_some_iff.2 ⟨_, (List.cons.inj hs).2.symm⟩)
      · exact hslash (List.prefix_of_prefix_length_le ⟨s, hs⟩ (List.prefix_append _ _) (by simp))
    rw [authorityPiece_of_no_slashes hslash, authorityPiece_of_no_slashes hslash']

theorem append_of_authorityPiece (t : Text) :
    ((authorityPiece t).1.elim [] fun a => '/' :: '/' :: a) ++ (authorityPiece t).2 = t := by
  by_cases hslash : ['/', '/'] <+: t
  · obtain ⟨t, rfl⟩ := hslash
    show '/' :: '/' :: ((Text.cutBefore _ t).1 ++ (Text.cutBefore _ t).2) = '/' :: '/' :: t
    rw [Text.cutBefore, List.span_eq_takeWhile_dropWhile, List.takeWhile_append_dropWhile]
  · rw [authorityPiece_of_no_slashes hslash]
    exact List.nil_append t

/-- Pieces without a separator of those after them are cut apart from the left as from the right. -/
theorem Pieces.of_append {hier : Text} {query fragment : Option Text} (hh : ∀ c ∈ hier, c ∉ ['?', '#'])
    (hq : ∀ q ∈ query, '#' ∉ q) :
    Pieces.of (hier ++ ((query.elim [] fun q => '?' :: q) ++ fragment.elim [] fun f => '#' :: f)) =
      ⟨(authorityPiece hier).1, (authorityPiece hier).2, query, fragment⟩ := by
  have hfragment : ∀ c ∈ (fragment.elim [] fun f => '#' :: f).head?, c ∈ ['#'] :=
    Text.head?_elim List.mem_cons_self fragment
  have hquery : ∀ c ∈ ((query.elim [] fun q => '?' :: q) ++ fragment.elim [] fun f => '#' :: f).head?,
      c ∈ ['?', '#'] := by
    apply Text.head?_append
    · exact Text.head?_elim List.mem_cons_self query
    · exact fun c hc => List.mem_cons_of_mem _ (hfragment c hc)
  have hpiece : queryPiece ((query.elim [] fun q => '?' :: q) ++ fragment.elim [] fun f => '#' :: f) =
      (query, fragment.elim [] fun f => '#' :: f) := by
    cases query with
    | none => cases fragment <;> rfl
    | some q =>
      have hplain : ∀ c ∈ q, c ∉ ['#'] := fun c hc hsep => hq q rfl (List.mem_singleton.1 hsep ▸ hc)
      have hcut := Text.cutBefore_append hplain hfragment
      show (let (query, rest) := Text.cutBefore ['#'] (q ++ _); (some query, rest)) = _
      rw [hcut]
  have hend : fragmentPiece (fragment.elim [] fun f => '#' :: f) = fragment := by cases fragment <;> rfl
  have hplain : ∀ c ∈ (authorityPiece hier).2, c ∉ ['?', '#'] := by
    intro c hc
    refine hh c ?_
    rw [← append_of_authorityPiece hier]
    exact List.mem_append_right _ hc
  have hpath := Text.cutBefore_append hplain hquery
  simp only [Pieces.of, authorityPiece_append hquery, hpath, hpiece, hend]

/-- From the right the fragment is cut off first, and then the query. -/
theorem Pieces.exists_cutOff (t : Text) :
    ∃ rest fragment hier query, Text.cutOff '#' t = (rest, fragment) ∧ Text.cutOff '?' rest = (hier, query) ∧
      (∀ c ∈ hier, c ∉ ['?', '#']) ∧
        Pieces.of t = ⟨(authorityPiece hier).1, (authorityPiece hier).2, query, fragment⟩ := by
  obtain ⟨rest, fragment, hf⟩ : ∃ rest fragment, Text.cutOff '#' t = (rest, fragment) := ⟨_, _, rfl⟩
  obtain ⟨hier, query, hq⟩ : ∃ hier query, Text.cutOff '?' rest = (hier, query) := ⟨_, _, rfl⟩
  refine ⟨rest, fragment, hier, query, hf, hq, ?_⟩
  obtain ⟨rfl, hhash⟩ := Text.cutOff_eq_iff.1 hf
  obtain ⟨rfl, hmark⟩ := Text.cutOff_eq_iff.1 hq
  rw [List.mem_append, not_or] at hhash
  have hhier : ∀ c ∈ hier, c ∉ ['?', '#'] := by
    rintro c hc hsep
    rcases List.mem_pair.1 hsep with rfl | rfl
    · exact hmark hc
    · exact hhash.1 hc
  have hquery : ∀ q ∈ query, '#' ∉ q := by
    rintro q rfl h
    exact hhash.2 (List.mem_cons_of_mem _ h)
  rw [List.append_assoc]
  exact ⟨hhier, of_append hhier hquery⟩

/-- Nothing is lost between the pieces. -/
theorem Pieces.text_of (t : Text) : (of t).text = t := by
  obtain ⟨rest, fragment, hier, query, hf, hq, -, hpieces⟩ := exists_cutOff t
  rw [hpieces, text, append_of_authorityPiece, ← (Text.cutOff_eq_iff.1 hq).1, ← (Text.cutOff_eq_iff.1 hf).1]

theorem Parts.reportsFirst_read (t : Text) : ReportsFirst (read t) (Pieces.of t).faults := by
  obtain ⟨rest, fragment, hier, query, hf, hq, hhier, hpieces⟩ := Pieces.exists_cutOff t
  have hread : read t = do
      let f ← fragment.mapM Tail.read
      let q ← query.mapM Tail.read
      let h ← HierPart.read hier
      return ⟨h, q, f⟩ := by
    simp only [read, hf, hq]
  rw [hpieces, hread, Pieces.faults, List.append_assoc, List.append_assoc]
  refine (ReportsFirst.option_mapM reportsFirst_faultsOf fragment).bind fun f _ => ?_
  refine (ReportsFirst.option_mapM reportsFirst_faultsOf query).bind fun q _ => ?_
  exact (HierPart.reportsFirst_read hhier).map fun h => (⟨h, q, f⟩ : Parts)

/-! ### URIs and relative references -/

theorem SchemeName.reportsFirst_ofText (name : Text) :
    ReportsFirst ((ofText name).mapError Fault.scheme) (faultsOf Scheme name) := fun f => by
  have hread : (Component.read name : Except Fault Scheme) = .error f ↔ (ofText name).mapError Fault.scheme = .error f := by
    show ((ofText name).map _).mapError Fault.scheme = .error f ↔ _
    simp only [mapError_eq_error_iff, map_eq_error_iff]
  exact hread.symm.trans (reportsFirst_faultsOf name f)

namespace Uri

variable {t name rest : Text} {f : Fault}

theorem schemePiece_iff : SchemePiece t name rest ↔ cutScheme t = some (name, rest) ∧ name ≠ [] := by
  rw [cutScheme_eq_some_iff, SchemePiece, and_assoc, and_comm (a := name ≠ [])]

theorem reportsFirst_read (h : SchemePiece t name rest) :
    ReportsFirst (read t) (faultsOf Scheme name ++ (Pieces.of rest).faults) := by
  obtain ⟨hcut, hne⟩ := schemePiece_iff.1 h
  obtain ⟨c, cs, rfl⟩ := List.exists_cons_of_ne_nil hne
  rw [read, hcut]
  refine (SchemeName.reportsFirst_ofText _).bind fun scheme _ => ?_
  exact (Parts.reportsFirst_read rest).map fun parts => (⟨scheme, parts⟩ : Uri)

theorem read_of_not_schemePiece (h : ¬ ∃ name rest, SchemePiece t name rest) : read t = .error .notUri := by
  unfold read
  split
  · rfl
  · rfl
  · next name rest hne hcut =>
    refine absurd ⟨name, rest, schemePiece_iff.2 ⟨hcut, ?_⟩⟩ h
    rintro rfl
    exact hne rfl

theorem read_eq_error_iff :
    read t = .error f ↔ (¬ (∃ name rest, SchemePiece t name rest) ∧ f = .notUri) ∨
      ∃ name rest, SchemePiece t name rest ∧ (faultsOf Scheme name ++ (Pieces.of rest).faults).head? = some f := by
  by_cases hs : ∃ name rest, SchemePiece t name rest
  · constructor
    · obtain ⟨name, rest, hpiece⟩ := hs
      exact fun h => .inr ⟨name, rest, hpiece, (reportsFirst_read hpiece f).1 h⟩
    · rintro (⟨hn, -⟩ | ⟨name, rest, hpiece, h⟩)
      · exact absurd hs hn
      · exact (reportsFirst_read hpiece f).2 h
  · rw [read_of_not_schemePiece hs]
    constructor
    · intro h
      exact .inl ⟨hs, (Except.error.inj h).symm⟩
    · rintro (⟨-, rfl⟩ | ⟨name, rest, hpiece, -⟩)
      · rfl
      · exact absurd ⟨name, rest, hpiece⟩ hs

end Uri

namespace RelativeRef

variable {t : Text} {f : Fault}

theorem startsLikeScheme_iff_pieces :
    startsLikeScheme t = true ↔ (Pieces.of t).authority = none ∧ ':' ∈ (Pieces.of t).firstSegment := by
  obtain ⟨rest, fragment, hier, query, hf, hq, -, hpieces⟩ := Pieces.exists_cutOff t
  rw [startsLikeScheme_iff_firstSegment, firstSegment, hf, hq, hpieces]
  by_cases hslash : ['/', '/'] <+: hier
  · obtain ⟨r, rfl⟩ := hslash
    constructor
    · intro h
      exact absurd h List.not_mem_nil
    · rintro ⟨h, -⟩
      cases h
  · rw [authorityPiece_of_no_slashes hslash]
    exact ⟨fun h => ⟨rfl, h⟩, And.right⟩

theorem read_eq_error_iff :
    read t = .error f ↔ (Pieces.of t).faults.head? = some f ∨
      ((Pieces.of t).faults = [] ∧ (Pieces.of t).authority = none ∧ ':' ∈ (Pieces.of t).firstSegment ∧
        f = .notRelativeRef) := by
  have hparts := Parts.reportsFirst_read t
  cases hp : Parts.read t with
  | error g =>
    obtain ⟨l, hl⟩ := hparts.exists_eq_cons hp
    have hread : read t = .error g := by
      rw [read, hp]
      rfl
    simp [hread, hl]
  | ok p =>
    have hread : read t = if startsLikeScheme t then .error .notRelativeRef else .ok ⟨p⟩ := by
      rw [read, hp]
      cases startsLikeScheme t <;> rfl
    rw [hread, hparts.eq_nil hp, ← and_assoc (a := (Pieces.of t).authority = none), ← startsLikeScheme_iff_pieces]
    cases startsLikeScheme t with
    | true => simp [eq_comm]
    | false => simp

end RelativeRef

/-- A text that is no URI is told so if it does not start like one; otherwise the fault reported is the first of those
that its pieces have, in the order in which they are read: scheme, fragment, query, user information, host, port, and
the segments of the path.  Of a relative reference this holds without the scheme, and only one without any such fault
and without an authority is told that its first segment has a colon.  The error has the whole text as its input. -/
theorem parse_error_iff_first_fault :
    (∀ t e, parse Uri t = .error e ↔ e.input = t ∧
      ((¬ (∃ name rest, SchemePiece t name rest) ∧ e.fault = .notUri) ∨
        ∃ name rest, SchemePiece t name rest ∧
          (faultsOf Scheme name ++ (Pieces.of rest).faults).head? = some e.fault)) ∧
    ∀ t e, parse RelativeRef t = .error e ↔ e.input = t ∧
      ((Pieces.of t).faults.head? = some e.fault ∨
        ((Pieces.of t).faults = [] ∧ (Pieces.of t).authority = none ∧ ':' ∈ (Pieces.of t).firstSegment ∧
          e.fault = .notRelativeRef)) :=
  ⟨fun _ _ => parse_eq_error_iff.trans (and_congr_right fun _ => Uri.read_eq_error_iff),
    fun _ _ => parse_eq_error_iff.trans (and_congr_right fun _ => RelativeRef.read_eq_error_iff)⟩

/-- User information, port and path are each at fault, and the first of them is reported. -/
example : parse Uri "s://%@h:x/%".toList =
    .error ⟨"s://%@h:x/%".toList, .encoding .userInfo (.malformedEscape 1)⟩ := by
  decide

end GenericUri
