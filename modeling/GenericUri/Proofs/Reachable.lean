import GenericUri.Builder
import GenericUri.Proofs.Reference

/-!
# Reachable — what can be made with the operations of the library

`Reachable` has one rule for each operation that makes a value or hands one out, from ports up to references.  An
encoding may write any text at all, so segments and tails are made from any text that `ofEncoded` accepts; octets,
groups and user information need no rule, since each value of these types can be made.

`Value.WellFormed` gathers what holds of values of each kind.  Each operation preserves it, so it holds of whatever is
reachable (`Reachable.wellFormed`), and what is well-formed is read back: hosts and authorities as well as the references
that they are part of.
-/

namespace GenericUri

/-- A value of one of the kinds that references are made of. -/
inductive Value
  | port (p : Port)
  | scheme (s : Scheme)
  | host (h : Host)
  | authority (a : Authority)
  | segment (s : Segment)
  | absolutePath (p : AbsolutePath)
  | rootlessPath (p : RootlessPath)
  | path (p : Path)
  | tail {kind : TailKind} (q : Tail kind)
  | hierPart (h : HierPart)
  | relativeRef (r : RelativeRef)
  | uri (u : Uri)
  | reference (x : Reference)
  | builder {stage : Stage} (b : Builder stage)

/-! ### Operations -/

/-- The values that some sequence of operations makes. -/
inductive Reachable : Value → Prop
  -- ports
  | portNumber {n : UInt16} : Reachable (.port (.ofNumber n))
  | portDigits {t : Text} {p : Port} (h : Port.ofDigits t = .ok p) : Reachable (.port p)
  | portParse {t : Text} {p : Port} (h : parse Port t = .ok p) : Reachable (.port p)
  | defaultPort {s : Scheme} {p : Port} (hs : Reachable (.scheme s)) (hp : s.defaultPort = some p) :
      Reachable (.port p)
  | portOf {a : Authority} {p : Port} (ha : Reachable (.authority a)) (hp : a.port = some p) : Reachable (.port p)
  -- schemes
  | schemeName {t : Text} {port : Option Port} {s : Scheme} (hp : ∀ p ∈ port, Reachable (.port p))
      (h : Scheme.ofName t port = .ok s) : Reachable (.scheme s)
  | http : Reachable (.scheme .http)
  | https : Reachable (.scheme .https)
  | schemeParse {t : Text} {s : Scheme} (h : parse Scheme t = .ok s) : Reachable (.scheme s)
  | schemeOf {u : Uri} (hu : Reachable (.uri u)) : Reachable (.scheme ⟨u.scheme, none⟩)
  -- hosts
  | name {t : Text} : Reachable (.host (.ofName t))
  | localhost : Reachable (.host .localhost)
  | ipv4 {ip : Ipv4} : Reachable (.host (.ipv4 ip))
  | ipv6 {g : Groups 8} : Reachable (.host (.ipv6 g))
  | ipv6Dotted {g : Groups 6} {last : Ipv4} : Reachable (.host (.ipv6Dotted g last))
  | future {version address : Text} {h : Host} (hf : Host.ofFuture version address = .ok h) : Reachable (.host h)
  | hostParse {t : Text} {h : Host} (hh : parse Host t = .ok h) : Reachable (.host h)
  | hostOf {a : Authority} (ha : Reachable (.authority a)) : Reachable (.host a.host)
  -- authorities
  | authority {user : Option UserInfo} {h : Host} {port : Option Port} (hh : Reachable (.host h))
      (hp : ∀ p ∈ port, Reachable (.port p)) : Reachable (.authority ⟨user, h, port⟩)
  | withoutPortIf {a : Authority} {q : Port} (ha : Reachable (.authority a)) (hq : Reachable (.port q)) :
      Reachable (.authority (a.withoutPortIf q))
  | normalise {s : Scheme} {a : Authority} (hs : Reachable (.scheme s)) (ha : Reachable (.authority a)) :
      Reachable (.authority (s.normalise a))
  | authorityParse {t : Text} {a : Authority} (h : parse Authority t = .ok a) : Reachable (.authority a)
  | authorityOf {hier : HierPart} {a : Authority} (hh : Reachable (.hierPart hier)) (ha : hier.authority? = some a) :
      Reachable (.authority a)
  -- segments
  | dot : Reachable (.segment .dot)
  | dotDot : Reachable (.segment .dotDot)
  | emptySegment : Reachable (.segment .empty)
  | segmentValue {t : Text} : Reachable (.segment (.ofValue t))
  | segmentEncoded {t : Text} {segment : Segment} (h : Segment.ofEncoded t = .ok segment) :
      Reachable (.segment segment)
  | segmentParse {t : Text} {segment : Segment} (h : parse Segment t = .ok segment) : Reachable (.segment segment)
  | segmentOf {path : Path} {segment : Segment} (hp : Reachable (.path path)) (h : segment ∈ path.segments) :
      Reachable (.segment segment)
  -- paths
  | absolutePath {segments : List Segment} (h : ∀ s ∈ segments, Reachable (.segment s)) :
      Reachable (.absolutePath (.ofSegments segments))
  | rootlessPath {segments : List Segment} {rootless : RootlessPath} (h : ∀ s ∈ segments, Reachable (.segment s))
      (hr : RootlessPath.ofSegments? segments = some rootless) : Reachable (.rootlessPath rootless)
  | emptyPath : Reachable (.path .empty)
  | pathAbsolute {absolute : AbsolutePath} (h : Reachable (.absolutePath absolute)) :
      Reachable (.path (.absolute absolute))
  | pathRootless {rootless : RootlessPath} (h : Reachable (.rootlessPath rootless)) :
      Reachable (.path (.rootless rootless))
  | ofAbsolute {segments : List Segment} (h : ∀ s ∈ segments, Reachable (.segment s)) :
      Reachable (.path (.ofAbsolute segments))
  | ofRootless {segments : List Segment} (h : ∀ s ∈ segments, Reachable (.segment s)) :
      Reachable (.path (.ofRootless segments))
  | pathParse {t : Text} {path : Path} (h : parse Path t = .ok path) : Reachable (.path path)
  | pathResolve {base : Path} {path : Path} (hb : Reachable (.path base)) (h : Reachable (.path path)) :
      Reachable (.path (base.resolve path))
  | absoluteOf {absolute : AbsolutePath} (h : Reachable (.path (.absolute absolute))) :
      Reachable (.absolutePath absolute)
  | rootlessOf {rootless : RootlessPath} (h : Reachable (.path (.rootless rootless))) :
      Reachable (.rootlessPath rootless)
  | pathOf {hier : HierPart} (h : Reachable (.hierPart hier)) : Reachable (.path hier.path)
  -- queries and fragments
  | tailValue {t : Text} {kind : TailKind} : Reachable (.tail (.ofValue t : Tail kind))
  | tailEncoded {t : Text} {kind : TailKind} {tail : Tail kind} (h : Tail.ofEncoded t = .ok tail) :
      Reachable (.tail tail)
  | tailParse {t : Text} {kind : TailKind} {tail : Tail kind} (h : parse (Tail kind) t = .ok tail) :
      Reachable (.tail tail)
  | queryOfUri {u : Uri} {q : Query} (hu : Reachable (.uri u)) (hq : u.parts.query = some q) : Reachable (.tail q)
  | queryOfRelative {r : RelativeRef} {q : Query} (hr : Reachable (.relativeRef r)) (hq : r.parts.query = some q) :
      Reachable (.tail q)
  | fragmentOfUri {u : Uri} {f : Fragment} (hu : Reachable (.uri u)) (hf : u.parts.fragment = some f) :
      Reachable (.tail f)
  | fragmentOfRelative {r : RelativeRef} {f : Fragment} (hr : Reachable (.relativeRef r))
      (hf : r.parts.fragment = some f) : Reachable (.tail f)
  -- hierarchical parts
  | bare {path : Path} (h : Reachable (.path path)) : Reachable (.hierPart (.bare path))
  | under {a : Authority} {absolute : Option AbsolutePath} (ha : Reachable (.authority a))
      (h : ∀ p ∈ absolute, Reachable (.absolutePath p)) : Reachable (.hierPart (.under a absolute))
  | hierOfUri {u : Uri} (hu : Reachable (.uri u)) : Reachable (.hierPart u.parts.hier)
  | hierOfRelative {r : RelativeRef} (hr : Reachable (.relativeRef r)) : Reachable (.hierPart r.parts.hier)
  -- relative references
  | relativeRef {hier : HierPart} {query : Option Query} {fragment : Option Fragment}
      (hh : Reachable (.hierPart hier)) (hq : ∀ q ∈ query, Reachable (.tail q))
      (hf : ∀ f ∈ fragment, Reachable (.tail f)) : Reachable (.relativeRef ⟨⟨hier, query, fragment⟩⟩)
  | schemeRelativeRef {s : Scheme} {hier : HierPart} {query : Option Query} {fragment : Option Fragment}
      (hs : Reachable (.scheme s)) (hh : Reachable (.hierPart hier)) (hq : ∀ q ∈ query, Reachable (.tail q))
      (hf : ∀ f ∈ fragment, Reachable (.tail f)) : Reachable (.relativeRef (.ofParts s ⟨hier, query, fragment⟩))
  | relativeRefParse {t : Text} {r : RelativeRef} (h : parse RelativeRef t = .ok r) : Reachable (.relativeRef r)
  | schemeParseRelativeRef {s : Scheme} {t : Text} {r : RelativeRef} (hs : Reachable (.scheme s))
      (h : s.parseRelativeRef t = .ok r) : Reachable (.relativeRef r)
  | relativeWithQuery {r : RelativeRef} {query : Option Query} (hr : Reachable (.relativeRef r))
      (hq : ∀ q ∈ query, Reachable (.tail q)) : Reachable (.relativeRef ⟨r.parts.withQuery query⟩)
  | relativeWithFragment {r : RelativeRef} {fragment : Option Fragment} (hr : Reachable (.relativeRef r))
      (hf : ∀ f ∈ fragment, Reachable (.tail f)) : Reachable (.relativeRef ⟨r.parts.withFragment fragment⟩)
  | relativeOf {r : RelativeRef} (h : Reachable (.reference (.relative r))) : Reachable (.relativeRef r)
  -- URIs
  | uri {s : Scheme} {hier : HierPart} {query : Option Query} {fragment : Option Fragment}
      (hs : Reachable (.scheme s)) (hh : Reachable (.hierPart hier)) (hq : ∀ q ∈ query, Reachable (.tail q))
      (hf : ∀ f ∈ fragment, Reachable (.tail f)) : Reachable (.uri (.ofParts s ⟨hier, query, fragment⟩))
  | uriParse {t : Text} {u : Uri} (h : parse Uri t = .ok u) : Reachable (.uri u)
  | schemeParseUri {s : Scheme} {t : Text} {u : Uri} (hs : Reachable (.scheme s)) (h : s.parseUri t = .ok u) :
      Reachable (.uri u)
  | withPath {u : Uri} {absolute : AbsolutePath} (hu : Reachable (.uri u)) (h : Reachable (.absolutePath absolute)) :
      Reachable (.uri { u with parts := u.parts.withPath absolute })
  | withQuery {u : Uri} {query : Option Query} (hu : Reachable (.uri u)) (hq : ∀ q ∈ query, Reachable (.tail q)) :
      Reachable (.uri { u with parts := u.parts.withQuery query })
  | withFragment {u : Uri} {fragment : Option Fragment} (hu : Reachable (.uri u))
      (hf : ∀ f ∈ fragment, Reachable (.tail f)) : Reachable (.uri { u with parts := u.parts.withFragment fragment })
  | resolve {u : Uri} {x : Reference} (hu : Reachable (.uri u)) (hx : Reachable (.reference x)) :
      Reachable (.uri (u.resolve x))
  | uriOf {u : Uri} (h : Reachable (.reference (.uri u))) : Reachable (.uri u)
  -- references
  | referenceUri {u : Uri} (hu : Reachable (.uri u)) : Reachable (.reference (.uri u))
  | referenceRelative {r : RelativeRef} (hr : Reachable (.relativeRef r)) : Reachable (.reference (.relative r))
  | referenceParse {t : Text} {x : Reference} (h : parse Reference t = .ok x) : Reachable (.reference x)
  | schemeParseReference {s : Scheme} {t : Text} {x : Reference} (hs : Reachable (.scheme s))
      (h : s.parseReference t = .ok x) : Reachable (.reference x)
  -- builders
  | builder {s : Scheme} (hs : Reachable (.scheme s)) : Reachable (.builder (.ofScheme s))
  | stepAuthority {b : Builder .scheme} {a : Authority} (hb : Reachable (.builder b))
      (ha : Reachable (.authority a)) : Reachable (.builder (b.step (.authority a)))
  | stepPath {b : Builder .scheme} {path : Path} (hb : Reachable (.builder b)) (h : Reachable (.path path)) :
      Reachable (.builder (b.step (.path path)))
  | stepAbsolutePath {b : Builder .authority} {absolute : AbsolutePath} (hb : Reachable (.builder b))
      (h : Reachable (.absolutePath absolute)) : Reachable (.builder (b.step (.absolutePath absolute)))
  | stepQuery {stage : Stage} {b : Builder stage} {query : Option Query} (hb : Reachable (.builder b))
      (hq : ∀ q ∈ query, Reachable (.tail q)) : Reachable (.builder (b.step (.query query)))
  | stepFragment {stage : Stage} {b : Builder stage} {fragment : Option Fragment} (hb : Reachable (.builder b))
      (hf : ∀ f ∈ fragment, Reachable (.tail f)) : Reachable (.builder (b.step (.fragment fragment)))
  | build {stage : Stage} {b : Builder stage} (hb : Reachable (.builder b)) : Reachable (.uri b.build)

/-! ### What every operation preserves -/

structure Scheme.WellFormed (s : Scheme) : Prop where
  name : SchemeName.ofText s.name.text = .ok s.name
  defaultPort : ∀ p ∈ s.defaultPort, ReadsBack p

theorem Scheme.wellFormed_of_ofName {t : Text} {port : Option Port} {s : Scheme} (hp : ∀ p ∈ port, ReadsBack p)
    (h : Scheme.ofName t port = .ok s) : s.WellFormed := by
  obtain ⟨n, hn, rfl⟩ := map_eq_ok_iff.1 h
  exact ⟨SchemeName.ofText_text hn, hp⟩

theorem Scheme.wellFormed_http : Scheme.http.WellFormed := by
  refine ⟨by decide, forall_mem_some ?_⟩
  exact Port.readsBack_of_canonical (Port.canonical_ofNumber 80)

theorem Scheme.wellFormed_https : Scheme.https.WellFormed := by
  refine ⟨by decide, forall_mem_some ?_⟩
  exact Port.readsBack_of_canonical (Port.canonical_ofNumber 443)

theorem Authority.WellFormed.normalise {a : Authority} (h : a.WellFormed) (s : Scheme) : (s.normalise a).WellFormed := by
  unfold Scheme.normalise
  split
  · exact h.withoutPortIf _
  · exact h

theorem Parts.WellFormed.normaliseParts {p : Parts} (h : p.WellFormed) (s : Scheme) :
    (s.normaliseParts p).WellFormed :=
  h.mapAuthority fun _ ha => ha.normalise s

theorem Parts.WellFormed.withQuery {p : Parts} {query : Option Query} (h : p.WellFormed)
    (hq : ∀ q ∈ query, ReadsBack q) : (p.withQuery query).WellFormed :=
  ⟨h.hier, hq, h.fragment⟩

theorem Parts.WellFormed.withFragment {p : Parts} {fragment : Option Fragment} (h : p.WellFormed)
    (hf : ∀ f ∈ fragment, ReadsBack f) : (p.withFragment fragment).WellFormed :=
  ⟨h.hier, h.query, hf⟩

theorem Scheme.WellFormed.ofParts {s : Scheme} {p : Parts} (hs : s.WellFormed) (h : p.WellFormed) :
    (Uri.ofParts s p).WellFormed :=
  ⟨hs.name, h.normaliseParts s⟩

theorem Uri.WellFormed.withParts {u : Uri} {p : Parts} (h : u.WellFormed) (hp : p.WellFormed) :
    Uri.WellFormed { u with parts := p } :=
  ⟨h.scheme, hp⟩

theorem Uri.WellFormed.adopt {u : Uri} (h : u.WellFormed) (s : Scheme) : (s.adopt u).WellFormed := by
  unfold Scheme.adopt
  split
  · next hname =>
    refine ⟨?_, h.parts.normaliseParts s⟩
    show SchemeName.ofText s.name.text = .ok s.name
    rw [← hname]
    exact h.scheme
  · exact h

theorem Reference.WellFormed.adopt {x : Reference} (h : x.WellFormed) (s : Scheme) :
    (s.adoptReference x).WellFormed := by
  cases x with
  | uri u => exact Uri.WellFormed.adopt h s
  | relative r => exact Parts.WellFormed.normaliseParts h s

theorem Uri.WellFormed.resolve {u : Uri} {x : Reference} (h : u.WellFormed) (hx : x.WellFormed) :
    (u.resolve x).WellFormed := by
  cases x with
  | uri v => exact hx
  | relative r => exact h.withParts (h.parts.resolve hx)

structure Builder.WellFormed {stage : Stage} (b : Builder stage) : Prop where
  scheme : b.scheme.WellFormed
  authority : ∀ a ∈ b.authority, a.WellFormed
  path : b.path.WellFormed
  query : ∀ q ∈ b.query, ReadsBack q
  fragment : ∀ f ∈ b.fragment, ReadsBack f

section Steps

variable {stage : Stage} {b : Builder .scheme} {c : Builder stage}

theorem Builder.WellFormed.withAuthority (h : b.WellFormed) {a : Authority} (ha : a.WellFormed) :
    (b.step (.authority a)).WellFormed :=
  ⟨h.scheme, forall_mem_some ha, h.path, h.query, h.fragment⟩

theorem Builder.WellFormed.withPath (h : b.WellFormed) {p : Path} (hp : p.WellFormed) :
    (b.step (.path p)).WellFormed :=
  ⟨h.scheme, nofun, hp, h.query, h.fragment⟩

theorem Builder.WellFormed.withAbsolutePath {b : Builder .authority} (h : b.WellFormed) {p : AbsolutePath}
    (hp : p.WellFormed) : (b.step (.absolutePath p)).WellFormed :=
  ⟨h.scheme, h.authority, hp, h.query, h.fragment⟩

theorem Builder.WellFormed.withQuery (h : c.WellFormed) {query : Option Query} (hq : ∀ q ∈ query, ReadsBack q) :
    (c.step (.query query)).WellFormed :=
  ⟨h.scheme, h.authority, h.path, hq, h.fragment⟩

theorem Builder.WellFormed.withFragment (h : c.WellFormed) {fragment : Option Fragment}
    (hf : ∀ f ∈ fragment, ReadsBack f) : (c.step (.fragment fragment)).WellFormed :=
  ⟨h.scheme, h.authority, h.path, h.query, hf⟩

theorem Builder.WellFormed.hier (h : c.WellFormed) : c.hier.WellFormed := by
  obtain ⟨scheme, authority, path, query, fragment⟩ := c
  cases authority with
  | none => exact h.path
  | some a =>
    have ha : a.WellFormed := h.authority a rfl
    cases path with
    | absolute p => exact ⟨ha, forall_mem_some h.path⟩
    | empty => exact ⟨ha, nofun⟩
    | rootless p => exact ⟨ha, nofun⟩

theorem Builder.WellFormed.build (h : c.WellFormed) : c.build.WellFormed :=
  h.scheme.ofParts ⟨h.hier, h.query, h.fragment⟩

end Steps

theorem Host.settled_localhost : Host.localhost.Settled := by
  have h := Host.settled_ofName ['l', 'o', 'c', 'a', 'l', 'h', 'o', 's', 't']
  exact h

/-- What holds of values of each kind, whatever operations made them. -/
def Value.WellFormed : Value → Prop
  | port p => ReadsBack p
  | scheme s => s.WellFormed
  | host h => h.Settled
  | authority a => a.WellFormed
  | segment s => ReadsBack s
  | absolutePath p => p.WellFormed
  | rootlessPath p => p.WellFormed
  | path p => p.WellFormed
  | tail q => ReadsBack q
  | hierPart h => h.WellFormed
  | relativeRef r => r.WellFormed
  | uri u => u.WellFormed
  | reference x => x.WellFormed
  | builder b => b.WellFormed

/-- Whatever can be made is well-formed. -/
theorem Reachable.wellFormed {v : Value} (h : Reachable v) : v.WellFormed := by
  induction h with
  | portNumber => exact Port.readsBack_of_canonical (Port.canonical_ofNumber _)
  | portDigits h => exact Port.readsBack_of_ofDigits h
  | portParse h => exact Port.readsBack_of_ofDigits (Port.ofDigits_of_read (parse_eq_ok_iff.1 h))
  | defaultPort _ hp ih => exact Scheme.WellFormed.defaultPort ih _ hp
  | portOf _ hp ih => exact Authority.WellFormed.port ih _ hp
  | schemeName _ h ih => exact Scheme.wellFormed_of_ofName ih h
  | http => exact Scheme.wellFormed_http
  | https => exact Scheme.wellFormed_https
  | schemeParse h =>
    have hname := mapError_eq_ok_iff.1 (parse_eq_ok_iff.1 h)
    exact Scheme.wellFormed_of_ofName (fun p hp => absurd hp (by simp)) hname
  | schemeOf _ ih => exact ⟨Uri.WellFormed.scheme ih, nofun⟩
  | name => exact Host.settled_ofName _
  | localhost => exact Host.settled_localhost
  | ipv4 => trivial
  | ipv6 => trivial
  | ipv6Dotted => trivial
  | future hf => exact Host.settled_of_ofFuture hf
  | hostParse hh => exact Host.settled_of_ofText? (Host.ofText?_of_read (parse_eq_ok_iff.1 hh))
  | hostOf _ ih => exact Authority.WellFormed.host ih
  | authority _ _ ih ihp => exact ⟨ih, ihp⟩
  | withoutPortIf _ _ ih => exact Authority.WellFormed.withoutPortIf ih _
  | normalise _ _ _ ih => exact Authority.WellFormed.normalise ih _
  | authorityParse h => exact Authority.wellFormed_of_read (parse_eq_ok_iff.1 h)
  | @authorityOf hier a _ ha ih =>
    cases hier with
    | bare p => cases ha
    | under b p =>
      obtain rfl := Option.some.inj ha
      exact ih.1
  | dot => rfl
  | dotDot => rfl
  | emptySegment => exact Segment.readsBack_empty
  | segmentValue => exact Segment.readsBack_ofValue _
  | segmentEncoded h => exact Segment.readsBack_of_ofEncoded h
  | segmentParse h => exact Segment.readsBack_of_read (parse_eq_ok_iff.1 h)
  | segmentOf _ h ih => exact Path.WellFormed.allReadBack ih _ h
  | absolutePath _ ih => exact AbsolutePath.wellFormed_ofSegments ih
  | rootlessPath _ hr ih => exact RootlessPath.wellFormed_of_ofSegments? ih hr
  | emptyPath => trivial
  | pathAbsolute _ ih => exact ih
  | pathRootless _ ih => exact ih
  | ofAbsolute _ ih => exact Path.wellFormed_ofAbsolute ih
  | ofRootless _ ih => exact Path.wellFormed_ofRootless ih
  | pathParse h => exact Path.wellFormed_of_read (parse_eq_ok_iff.1 h)
  | pathResolve _ _ ihb ih => exact Path.WellFormed.resolve ihb ih
  | absoluteOf _ ih => exact ih
  | rootlessOf _ ih => exact ih
  | pathOf _ ih => exact HierPart.WellFormed.path ih
  | tailValue => exact Tail.readsBack_ofValue _
  | tailEncoded h => exact Tail.readsBack_of_ofEncoded h
  | tailParse h => exact Tail.readsBack_of_read (parse_eq_ok_iff.1 h)
  | queryOfUri _ hq ih => exact (Uri.WellFormed.parts ih).query _ hq
  | queryOfRelative _ hq ih => exact Parts.WellFormed.query ih _ hq
  | fragmentOfUri _ hf ih => exact (Uri.WellFormed.parts ih).fragment _ hf
  | fragmentOfRelative _ hf ih => exact Parts.WellFormed.fragment ih _ hf
  | bare _ ih => exact ih
  | under _ _ iha ih => exact ⟨iha, ih⟩
  | hierOfUri _ ih => exact (Uri.WellFormed.parts ih).hier
  | hierOfRelative _ ih => exact Parts.WellFormed.hier ih
  | relativeRef _ _ _ ihh ihq ihf => exact ⟨ihh, ihq, ihf⟩
  | @schemeRelativeRef s hier query fragment _ _ _ _ _ ihh ihq ihf =>
    have hp : Parts.WellFormed ⟨hier, query, fragment⟩ := ⟨ihh, ihq, ihf⟩
    exact hp.normaliseParts s
  | relativeRefParse h => exact RelativeRef.wellFormed_of_read (parse_eq_ok_iff.1 h)
  | schemeParseRelativeRef _ h =>
    obtain ⟨r, hr, rfl⟩ := map_eq_ok_iff.1 h
    exact Parts.WellFormed.normaliseParts (RelativeRef.wellFormed_of_read (parse_eq_ok_iff.1 hr)) _
  | relativeWithQuery _ _ ih ihq => exact Parts.WellFormed.withQuery ih ihq
  | relativeWithFragment _ _ ih ihf => exact Parts.WellFormed.withFragment ih ihf
  | relativeOf _ ih => exact ih
  | uri _ _ _ _ ihs ihh ihq ihf => exact Scheme.WellFormed.ofParts ihs ⟨ihh, ihq, ihf⟩
  | uriParse h => exact Uri.wellFormed_of_read (parse_eq_ok_iff.1 h)
  | schemeParseUri _ h =>
    obtain ⟨u, hu, rfl⟩ := map_eq_ok_iff.1 h
    exact Uri.WellFormed.adopt (Uri.wellFormed_of_read (parse_eq_ok_iff.1 hu)) _
  | withPath _ _ ih ihp => exact Uri.WellFormed.withParts ih ((Uri.WellFormed.parts ih).withPath ihp)
  | withQuery _ _ ih ihq => exact Uri.WellFormed.withParts ih ((Uri.WellFormed.parts ih).withQuery ihq)
  | withFragment _ _ ih ihf => exact Uri.WellFormed.withParts ih ((Uri.WellFormed.parts ih).withFragment ihf)
  | resolve _ _ ihu ihx => exact Uri.WellFormed.resolve ihu ihx
  | uriOf _ ih => exact ih
  | referenceUri _ ih => exact ih
  | referenceRelative _ ih => exact ih
  | referenceParse h => exact Reference.wellFormed_of_read (parse_eq_ok_iff.1 h)
  | schemeParseReference _ h =>
    obtain ⟨x, hx, rfl⟩ := map_eq_ok_iff.1 h
    exact Reference.WellFormed.adopt (Reference.wellFormed_of_read (parse_eq_ok_iff.1 hx)) _
  | builder _ ih => exact ⟨ih, nofun, trivial, nofun, nofun⟩
  | stepAuthority _ _ ih iha => exact Builder.WellFormed.withAuthority ih iha
  | stepPath _ _ ih ihp => exact Builder.WellFormed.withPath ih ihp
  | stepAbsolutePath _ _ ih ihp => exact Builder.WellFormed.withAbsolutePath ih ihp
  | stepQuery _ _ ih ihq => exact Builder.WellFormed.withQuery ih ihq
  | stepFragment _ _ ih ihf => exact Builder.WellFormed.withFragment ih ihf
  | build _ ih => exact Builder.WellFormed.build ih

/-- Parts of which each can be made. -/
structure Parts.Made (p : Parts) : Prop where
  hier : Reachable (.hierPart p.hier)
  query : ∀ q ∈ p.query, Reachable (.tail q)
  fragment : ∀ f ∈ p.fragment, Reachable (.tail f)

theorem Parts.Made.wellFormed {p : Parts} (h : p.Made) : p.WellFormed :=
  ⟨h.hier.wellFormed, fun q hq => (h.query q hq).wellFormed, fun f hf => (h.fragment f hf).wellFormed⟩

/-! ### The round trip -/

/-- Whatever operations made a reference, its text is parsed as that reference, with the same parts. -/
theorem parse_text_of_reachable :
    (∀ u : Uri, Reachable (.uri u) → parse Uri u.text = .ok u) ∧
      (∀ r : RelativeRef, Reachable (.relativeRef r) → parse RelativeRef r.text = .ok r) ∧
        ∀ x : Reference, Reachable (.reference x) → parse Reference x.text = .ok x := by
  refine ⟨?_, ?_, ?_⟩
  · intro u h
    have hu : u.WellFormed := h.wellFormed
    exact readsBack_iff_parse.1 hu.readsBack
  · intro r h
    have hr : r.WellFormed := h.wellFormed
    exact readsBack_iff_parse.1 hr.readsBack
  · intro x h
    have hx : x.WellFormed := h.wellFormed
    exact readsBack_iff_parse.1 hx.readsBack

/-- The paths `/` `/b` and `a:b` are marked, and so is the one resolved against the other. -/
theorem parse_text_of_marked_paths :
    let u := Uri.ofParts .http ⟨.bare (.ofAbsolute [.empty, .ofValue ['b']]), none, none⟩
    let r : RelativeRef := ⟨⟨.bare (.ofRootless [.ofValue ['a', ':', 'b']]), none, none⟩⟩
    let x := Reference.uri (u.resolve (.relative r))
    (Reachable (.uri u) ∧ Reachable (.relativeRef r) ∧ Reachable (.reference x)) ∧
      (u.text = "http:/.//b".toList ∧ r.text = "./a:b".toList ∧ x.text = "http:/.//a:b".toList) ∧
        parse Uri u.text = .ok u ∧ parse RelativeRef r.text = .ok r ∧ parse Reference x.text = .ok x := by
  intro u r x
  have hu : Reachable (.uri u) := by
    refine .uri .http (.bare (.ofAbsolute ?_)) nofun nofun
    intro s hs
    rcases List.mem_cons.1 hs with rfl | hs
    · exact .emptySegment
    · obtain rfl := List.mem_singleton.1 hs
      exact .segmentValue
  have hr : Reachable (.relativeRef r) := by
    refine .relativeRef (.bare (.ofRootless ?_)) nofun nofun
    intro s hs
    obtain rfl := List.mem_singleton.1 hs
    exact .segmentValue
  have hx : Reachable (.reference x) := .referenceUri (.resolve hu (.referenceRelative hr))
  exact ⟨⟨hu, hr, hx⟩, ⟨by decide, by decide, by decide⟩, parse_text_of_reachable.1 u hu,
    parse_text_of_reachable.2.1 r hr, parse_text_of_reachable.2.2 x hx⟩

/-- Whatever operations made a host or an authority, its text is parsed as that host or authority, and nothing in the text
of an authority ends it. -/
theorem parse_text_of_reachable_authority :
    (∀ h : Host, Reachable (.host h) → parse Host h.text = .ok h) ∧
      ∀ a : Authority, Reachable (.authority a) →
        parse Authority a.text = .ok a ∧ '/' ∉ a.text ∧ '?' ∉ a.text ∧ '#' ∉ a.text := by
  constructor
  · intro h hh
    have hs : h.Settled := hh.wellFormed
    exact readsBack_iff_parse.1 (Host.readsBack_of_settled hs)
  · intro a ha
    have hw : a.WellFormed := ha.wellFormed
    have hread : ReadsBack a := hw.readsBack
    exact ⟨readsBack_iff_parse.1 hread, Authority.not_mem_of_read hread (by simp),
      Authority.not_mem_of_read hread (by simp), Authority.not_mem_of_read hread (by simp)⟩

/-- A name that holds separators, between empty user information and an empty port, and an address of both versions. -/
theorem parse_text_of_separators :
    let h := Host.ofName "A@[:1".toList
    let a : Authority := ⟨some ⟨[]⟩, h, some ⟨[]⟩⟩
    let g : Host := .ipv6Dotted ⟨[0, 0, 0, 0, 0, 0xffff], rfl⟩ ⟨192, 0, 2, 1⟩
    let b : Authority := ⟨some ⟨"u@/".toList⟩, g, none⟩
    (Reachable (.host h) ∧ Reachable (.authority a) ∧ Reachable (.host g) ∧ Reachable (.authority b)) ∧
      (a.text = "@a%40%5B%3A1:".toList ∧ b.text = "u%40%2F@[::ffff:192.0.2.1]".toList) ∧
        (parse Host h.text = .ok h ∧ parse Authority a.text = .ok a) ∧
          parse Host g.text = .ok g ∧ parse Authority b.text = .ok b ∧ '/' ∉ b.text := by
  intro h a g b
  have hh : Reachable (.host h) := .name
  have ha : Reachable (.authority a) := .authority hh (forall_mem_some (.portDigits (t := []) (by decide)))
  have hg : Reachable (.host g) := .ipv6Dotted
  have hb : Reachable (.authority b) := .authority hg nofun
  exact ⟨⟨hh, ha, hg, hb⟩, ⟨by decide, by decide⟩,
    ⟨parse_text_of_reachable_authority.1 h hh, (parse_text_of_reachable_authority.2 a ha).1⟩,
    parse_text_of_reachable_authority.1 g hg, (parse_text_of_reachable_authority.2 b hb).1,
    (parse_text_of_reachable_authority.2 b hb).2.1⟩

end GenericUri
