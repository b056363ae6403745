import Jos.Net.Httpd

/-! Which bytes of its buffer user/httpd.c reads for a request, and what it frees. -/

set_option autoImplicit false

namespace Jos

namespace Httpd

/-- `strncmp(p, q, n)` with `n` the length of `q`: the bytes of the buffer that it reads, from an
index on, and whether they are the same, unless it reads behind the end of the stack. -/
def strncmp : Nat → Text → Text → List Nat × Option Bool
  | _, _, [] => ([], some true)
  | i, [], _ :: _ => ([i], none)
  | i, b :: p, c :: q =>
    if b ≠ 0 ∧ b = c then (i :: (strncmp (i + 1) p q).1, (strncmp (i + 1) p q).2)
    else ([i], some false)

/-- A loop over the characters of a part of the request: what it reads, what it passes, and the
rest from where it stops. -/
def scan (goes : BitVec 8 → Bool) : Nat → Text → List Nat × Option (Text × Text)
  | i, [] => ([i], none)
  | i, b :: rest =>
    if goes b then
      (i :: (scan goes (i + 1) rest).1, (scan goes (i + 1) rest).2.map fun r => (b :: r.1, r.2))
    else ([i], some ([], b :: rest))

/-- How `http_request_parse` ends: it faults at the end of the stack or at a null pointer from
`malloc`, it returns -E_BAD_REQ, or it has stored the two strings. -/
inductive Parse where
  | faults
  | badReq
  | parsed (url version : Text)
deriving DecidableEq, Repr

/-- `http_request_parse`, with the pointers that `malloc` returns for the url and the version. -/
def parseRequest (buffer : Text) (urlPtr versionPtr : Nat) : List Nat × Parse :=
  match strncmp 0 buffer (text "GET ") with
  | (reads, none) => (reads, .faults)
  | (reads, some false) => (reads, .badReq)
  | (reads, some true) =>
    match scan inUrl 4 (buffer.drop 4) with
    | (reads', none) => (reads ++ reads', .faults)
    | (reads', some (url, request)) =>
      if urlPtr = 0 then (reads ++ reads', .faults)
      else
        match scan inVersion (4 + url.length + 1) (request.drop 1) with
        | (reads'', none) => (reads ++ (reads' ++ reads''), .faults)
        | (reads'', some (version, _)) =>
          if versionPtr = 0 then (reads ++ (reads' ++ reads''), .faults)
          else (reads ++ (reads' ++ reads''), .parsed url version)

/-- `struct http_request` of `handle_client`, beside the socket. -/
structure HttpRequest where
  url : Nat
  version : Nat
deriving DecidableEq, Repr

/-- The bytes of the buffer that a request reads, how it is parsed, and what is freed. -/
structure Handled where
  reads : List Nat
  parse : Parse
  freed : List Nat
deriving DecidableEq, Repr

/-- `handle_client`. `memset(req, 0, sizeof(req))` clears as many bytes as a pointer has, which
is the socket: the pointers of the request are what the stack held. -/
def handleRequest (received stack : Text) (req : HttpRequest) (urlPtr versionPtr : Nat) : Handled :=
  let r := parseRequest (received ++ stack.drop received.length) urlPtr versionPtr
  match r.2 with
  | .faults => ⟨r.1, .faults, []⟩
  | .badReq => ⟨r.1, .badReq, [req.url, req.version]⟩
  | .parsed url version => ⟨r.1, .parsed url version, [urlPtr, versionPtr]⟩

def askedUrl (received : Text) : Text := (received.drop 4).takeWhile (· != space)

def askedVersion (received : Text) : Text :=
  (((received.drop 4).dropWhile (· != space)).drop 1).takeWhile (· != lf)

/-- Only bytes received are read, only null pointers and those of `malloc` are freed, and what
is parsed is what is asked. -/
structure Inside (received : Text) (obtained : List Nat) (handled : Handled) : Prop where
  reads : ∀ i ∈ handled.reads, i < received.length
  freed : ∀ p ∈ handled.freed, p = 0 ∨ p ∈ obtained
  parsed : ∀ url version, handled.parse = .parsed url version →
    url = askedUrl received ∧ version = askedVersion received

/-- The request has an url, a space, a version and a newline, and no null character in them. -/
def Framed (received : Text) : Prop :=
  ∃ url version rest, received = text "GET " ++ (url ++ space :: (version ++ lf :: rest)) ∧
    (∀ b ∈ url, inUrl b = true) ∧ ∀ b ∈ version, inVersion b = true

def Refused (received : Text) : Prop :=
  ¬ text "GET " <+: received ∧ ¬ received <+: text "GET "

section
variable {goes : BitVec 8 → Bool} {i : Nat} {b : BitVec 8} {t rest buffer received : Text}

theorem scan_stops (all : ∀ c ∈ t, goes c = true) (stops : goes b = false) :
    scan goes i (t ++ b :: rest) = (List.range' i (t.length + 1), some (t, b :: rest)) := by
  induction t generalizing i with
  | nil => simp [scan, stops]
  | cons c t ih =>
    have later := @ih (i + 1) fun c inside => all c (List.mem_cons_of_mem _ inside)
    rw [List.cons_append, scan, if_pos (all c List.mem_cons_self), later]
    rfl

theorem scan_ends (all : ∀ c ∈ t, goes c = true) :
    scan goes i t = (List.range' i (t.length + 1), none) := by
  induction t generalizing i with
  | nil => rfl
  | cons c t ih =>
    have later := @ih (i + 1) fun c inside => all c (List.mem_cons_of_mem _ inside)
    rw [scan, if_pos (all c List.mem_cons_self), later]
    rfl

theorem scan_cases (goes : BitVec 8 → Bool) (text : Text) : (∀ c ∈ text, goes c = true) ∨
    ∃ t b rest, text = t ++ b :: rest ∧ (∀ c ∈ t, goes c = true) ∧ goes b = false := by
  induction text with
  | nil => exact .inl nofun
  | cons c text ih =>
    cases first : goes c with
    | false => exact .inr ⟨[], c, text, rfl, nofun, first⟩
    | true =>
      rcases ih with all | ⟨t, b, rest, rfl, all, stops⟩
      · exact .inl (List.forall_mem_cons.mpr ⟨first, all⟩)
      · exact .inr ⟨c :: t, b, rest, rfl, List.forall_mem_cons.mpr ⟨first, all⟩, stops⟩

variable {p q : Text}

theorem strncmp_prefix (clean : (0 : BitVec 8) ∉ q) :
    strncmp i (q ++ rest) q = (List.range' i q.length, some true) := by
  induction q generalizing i with
  | nil => cases rest <;> rfl
  | cons c q ih =>
    rw [List.mem_cons, not_or] at clean
    have later := @ih (i + 1) clean.2
    rw [List.cons_append, strncmp, if_pos ⟨fun zero => clean.1 zero.symm, rfl⟩, later]
    rfl

theorem strncmp_differs {b' : BitVec 8} {rest' : Text} (clean : (0 : BitVec 8) ∉ t)
    (differs : b ≠ b') : strncmp i (t ++ b :: rest) (t ++ b' :: rest') =
      (List.range' i (t.length + 1), some false) := by
  induction t generalizing i with
  | nil =>
    rw [List.nil_append, List.nil_append, strncmp, if_neg fun both => differs both.2]
    rfl
  | cons c t ih =>
    rw [List.mem_cons, not_or] at clean
    have later := @ih (i + 1) clean.2
    rw [List.cons_append, List.cons_append, strncmp, if_pos ⟨fun zero => clean.1 zero.symm, rfl⟩, later]
    rfl

theorem strncmp_short (clean : (0 : BitVec 8) ∉ p) :
    strncmp i p (p ++ b :: rest) = (List.range' i (p.length + 1), none) := by
  induction p generalizing i with
  | nil => rfl
  | cons c p ih =>
    rw [List.mem_cons, not_or] at clean
    have later := @ih (i + 1) clean.2
    rw [List.cons_append, strncmp, if_pos ⟨fun zero => clean.1 zero.symm, rfl⟩, later]
    rfl

theorem prefix_cases (p q : Text) : q <+: p ∨ (∃ b rest, q = p ++ b :: rest) ∨
    ∃ t b b' rest rest', p = t ++ b :: rest ∧ q = t ++ b' :: rest' ∧ b ≠ b' := by
  induction p generalizing q with
  | nil =>
    cases q with
    | nil => exact .inl (List.prefix_refl _)
    | cons c q => exact .inr (.inl ⟨c, q, rfl⟩)
  | cons b p ih =>
    cases q with
    | nil => exact .inl (List.nil_prefix)
    | cons c q =>
      by_cases same : b = c
      · subst same
        rcases ih q with whole | ⟨c, rest, rfl⟩ | ⟨t, c, c', rest, rest', rfl, rfl, differs⟩
        · exact .inl (List.cons_prefix_cons.mpr ⟨rfl, whole⟩)
        · exact .inr (.inl ⟨c, rest, rfl⟩)
        · exact .inr (.inr ⟨b :: t, c, c', rest, rest', rfl, rfl, differs⟩)
      · exact .inr (.inr ⟨[], b, c, p, q, rfl, rfl, same⟩)

theorem clean_get : (0 : BitVec 8) ∉ text "GET " := by decide

theorem refused_iff : Refused received ↔ ∃ t b b' rest rest', received = t ++ b :: rest ∧
    text "GET " = t ++ b' :: rest' ∧ b ≠ b' := by
  constructor
  · intro refused
    rcases prefix_cases received (text "GET ") with whole | ⟨b, rest, short⟩ | differs
    · exact absurd whole refused.1
    · exact absurd ⟨b :: rest, short.symm⟩ refused.2
    · exact differs
  · rintro ⟨t, b, b', rest, rest', rfl, get, differs⟩
    rw [Refused, get]
    refine ⟨fun whole => ?_, fun whole => ?_⟩
    · rw [List.prefix_append_right_inj, List.cons_prefix_cons] at whole
      exact differs whole.1.symm
    · rw [List.prefix_append_right_inj, List.cons_prefix_cons] at whole
      exact differs whole.1

theorem Refused.parse (refused : Refused received) (stale : Text) (urlPtr versionPtr : Nat) :
    ∃ n, n ≤ received.length ∧
      parseRequest (received ++ stale) urlPtr versionPtr = (List.range' 0 n, .badReq) := by
  obtain ⟨t, b, b', rest, rest', rfl, get, differs⟩ := refused_iff.mp refused
  have clean : (0 : BitVec 8) ∉ t := fun inside =>
    clean_get (get ▸ List.mem_append_left _ inside)
  have compared : strncmp 0 (t ++ b :: rest ++ stale) (text "GET ") =
      (List.range' 0 (t.length + 1), some false) := by
    rw [get, List.append_assoc, List.cons_append]
    exact strncmp_differs clean differs
  refine ⟨t.length + 1, by simp, ?_⟩
  rw [parseRequest, compared]

theorem drop_get : (text "GET " ++ rest).drop 4 = rest := List.drop_left' rfl

theorem compared_get : strncmp 0 (text "GET " ++ rest) (text "GET ") =
    (List.range' 0 4, some true) := strncmp_prefix clean_get

theorem parse_stops {url version : Text} {c d : BitVec 8} (inside : ∀ b ∈ url, inUrl b = true)
    (stops : inUrl c = false) (inside' : ∀ b ∈ version, inVersion b = true)
    (stops' : inVersion d = false) (urlPtr versionPtr : Nat) :
    parseRequest (text "GET " ++ (url ++ c :: (version ++ d :: rest))) urlPtr versionPtr =
      if urlPtr = 0 then (List.range' 0 (4 + (url.length + 1)), .faults)
      else (List.range' 0 (4 + (url.length + 1 + (version.length + 1))),
        if versionPtr = 0 then .faults else .parsed url version) := by
  have first : List.range' 0 4 ++ List.range' 4 (url.length + 1) =
      List.range' 0 (4 + (url.length + 1)) := List.range'_append_1
  have second : List.range' 4 (url.length + 1) ++
      List.range' (4 + url.length + 1) (version.length + 1) =
        List.range' 4 (url.length + 1 + (version.length + 1)) := List.range'_append_1
  have both : List.range' 0 4 ++ List.range' 4 (url.length + 1 + (version.length + 1)) =
      List.range' 0 (4 + (url.length + 1 + (version.length + 1))) := List.range'_append_1
  rw [parseRequest, compared_get]
  simp only [drop_get, scan_stops inside stops, List.drop_succ_cons, List.drop_zero,
    scan_stops inside' stops', first, second, both]
  split
  · rfl
  · split <;> rfl

/-- A request reads up to the end of the stack, differs from "GET " somewhere, or has its
loops stopped. -/
theorem parse_cases (buffer : Text) : buffer.length ∈ (parseRequest buffer 1 1).1 ∨
    (∃ t b b' rest rest', buffer = t ++ b :: rest ∧ text "GET " = t ++ b' :: rest' ∧ b ≠ b' ∧
      (parseRequest buffer 1 1).1 = List.range' 0 (t.length + 1)) ∨
    ∃ url c version d rest, buffer = text "GET " ++ (url ++ c :: (version ++ d :: rest)) ∧
      (∀ b ∈ url, inUrl b = true) ∧ inUrl c = false ∧ (∀ b ∈ version, inVersion b = true) ∧
      inVersion d = false := by
  rcases prefix_cases buffer (text "GET ") with ⟨request, rfl⟩ | ⟨b, rest, short⟩ |
    ⟨t, b, b', rest, rest', rfl, get, differs⟩
  · rcases scan_cases inUrl request with all | ⟨url, c, rest, rfl, inside, stops⟩
    · refine .inl ?_
      have size : (text "GET " ++ request).length = 4 + request.length := List.length_append
      rw [parseRequest, compared_get, size]
      simp only [drop_get, scan_ends all]
      exact List.mem_append_right _ (List.mem_range'_1.mpr ⟨by omega, by omega⟩)
    · rcases scan_cases inVersion rest with all | ⟨version, d, rest, rfl, inside', stops'⟩
      · refine .inl ?_
        have size : (text "GET " ++ (url ++ c :: rest)).length =
            4 + url.length + 1 + rest.length := by
          rw [List.length_append, List.length_append, List.length_cons]
          change 4 + (url.length + (rest.length + 1)) = _
          omega
        rw [parseRequest, compared_get, size]
        simp only [drop_get, scan_stops inside stops, List.drop_succ_cons, List.drop_zero,
          scan_ends all, if_neg Nat.one_ne_zero]
        exact List.mem_append_right _ (List.mem_append_right _
          (List.mem_range'_1.mpr ⟨by omega, by omega⟩))
      · exact .inr (.inr ⟨url, c, version, d, rest, rfl, inside, stops, inside', stops'⟩)
  · refine .inl ?_
    have clean : (0 : BitVec 8) ∉ buffer := fun inside =>
      clean_get (short ▸ List.mem_append_left _ inside)
    have compared := @strncmp_short 0 b rest buffer clean
    rw [← short] at compared
    rw [parseRequest, compared]
    exact List.mem_range'_1.mpr ⟨Nat.zero_le _, by omega⟩
  · refine .inr (.inl ⟨t, b, b', rest, rest', rfl, get, differs, ?_⟩)
    have clean : (0 : BitVec 8) ∉ t := fun inside =>
      clean_get (get ▸ List.mem_append_left _ inside)
    have compared := @strncmp_differs 0 b t rest b' rest' clean differs
    rw [← get] at compared
    rw [parseRequest, compared]

/-- The url that a parse leaves, `none` for -E_BAD_REQ; nothing comes of a fault. -/
def Parse.url : Parse → Option (Option Text)
  | .faults => none
  | .badReq => some none
  | .parsed url _ => some (some url)

theorem received_part {stale whole : Text} (same : received ++ stale = whole ++ rest)
    (enough : whole.length ≤ received.length) : ∃ more, received = whole ++ more := by
  obtain ⟨more, eq⟩ := List.prefix_of_prefix_length_le ⟨rest, same.symm⟩ ⟨stale, rfl⟩ enough
  exact ⟨more, eq.symm⟩

theorem takeWhile_stops {url : Text} {c : BitVec 8} (inside : ∀ b ∈ url, goes b = true)
    (stops : goes c = false) : (url ++ c :: rest).takeWhile goes = url := by
  rw [List.takeWhile_append_of_pos inside, List.takeWhile_cons_of_neg (by simp [stops]),
    List.append_nil]

theorem dropWhile_stops {url : Text} {c : BitVec 8} (inside : ∀ b ∈ url, goes b = true)
    (stops : goes c = false) : (url ++ c :: rest).dropWhile goes = c :: rest := by
  rw [List.dropWhile_append_of_pos inside, List.dropWhile_cons_of_neg (by simp [stops])]

/-- What `httpRequestParse` returns, with the reads left out. -/
theorem httpRequestParse_url {buffer : Text} (long : 4 ≤ buffer.length) (sent : Text)
    (urlPtr versionPtr : Nat) :
    (httpRequestParse buffer (urlPtr != 0) (versionPtr != 0)).run.run sent =
      ((parseRequest buffer urlPtr versionPtr).2.url, sent) := by
  rcases prefix_cases buffer (text "GET ") with ⟨request, rfl⟩ | ⟨b, rest, short⟩ |
    ⟨t, b, b', rest, rest', rfl, get, differs⟩
  · have get : (text "GET ").isPrefixOf (text "GET " ++ request) = true :=
      List.isPrefixOf_iff_prefix.mpr (List.prefix_append _ _)
    unfold httpRequestParse
    rw [if_neg (not_not.mpr get), drop_get, parseRequest, compared_get, drop_get]
    rcases scan_cases inUrl request with all | ⟨url, c, rest, rfl, inside, stops⟩
    · simp only [List.dropWhile_eq_nil_iff.mpr all, scan_ends all]
      rfl
    · simp only [dropWhile_stops inside stops, takeWhile_stops inside stops, scan_stops inside stops]
      by_cases noUrl : urlPtr = 0
      · subst noUrl
        rfl
      · have room : (urlPtr != 0) = true := by simpa using noUrl
        simp only [if_neg noUrl, room, not_true_eq_false, if_false, List.drop_succ_cons,
          List.drop_zero]
        rcases scan_cases inVersion rest with all | ⟨version, d, rest, rfl, inside', stops'⟩
        · simp only [List.dropWhile_eq_nil_iff.mpr all, scan_ends all]
          rfl
        · simp only [dropWhile_stops inside' stops', scan_stops inside' stops']
          by_cases noVersion : versionPtr = 0
          · subst noVersion
            rfl
          · have room' : (versionPtr != 0) = true := by simpa using noVersion
            simp only [if_neg noVersion, room', not_true_eq_false, if_false]
            rfl
  · have size : (text "GET ").length = buffer.length + (rest.length + 1) := by
      rw [short, List.length_append, List.length_cons]
    change 4 = _ at size
    omega
  · have clean : (0 : BitVec 8) ∉ t := fun inside =>
      clean_get (get ▸ List.mem_append_left _ inside)
    have compared := @strncmp_differs 0 b t rest b' rest' clean differs
    rw [← get] at compared
    have other : ¬ (text "GET ").isPrefixOf (t ++ b :: rest) = true := by
      rw [List.isPrefixOf_iff_prefix, get, List.prefix_append_right_inj, List.cons_prefix_cons]
      exact fun both => differs both.1.symm
    unfold httpRequestParse
    rw [if_pos other, parseRequest, compared]
    rfl

theorem not_space {b : BitVec 8} (inside : inUrl b = true) : (b != space) = true := by
  unfold inUrl at inside
  exact (Bool.and_eq_true _ _ ▸ inside).2

theorem not_lf {b : BitVec 8} (inside : inVersion b = true) : (b != lf) = true := by
  unfold inVersion at inside
  exact (Bool.and_eq_true _ _ ▸ inside).2

theorem asked_framed {url version : Text} (inside : ∀ b ∈ url, inUrl b = true)
    (inside' : ∀ b ∈ version, inVersion b = true) :
    askedUrl (text "GET " ++ (url ++ space :: (version ++ lf :: rest))) = url ∧
      askedVersion (text "GET " ++ (url ++ space :: (version ++ lf :: rest))) = version := by
  have passed : ∀ b ∈ url, (b != space) = true := fun b here => not_space (inside b here)
  unfold askedUrl askedVersion
  rw [drop_get, takeWhile_stops passed rfl, dropWhile_stops passed rfl, List.drop_succ_cons,
    List.drop_zero, takeWhile_stops (fun b here => not_lf (inside' b here)) rfl]
  exact ⟨rfl, rfl⟩

/-- A character that stops a loop is the delimiter when what was passed is all that is asked. -/
theorem stopped_at {asks : BitVec 8 → Bool} {url : Text} {c : BitVec 8}
    (inside : ∀ b ∈ url, asks b = true) (same : url = (url ++ c :: rest).takeWhile asks) :
    asks c = false := by
  cases here : asks c with
  | false => rfl
  | true =>
    rw [List.takeWhile_append_of_pos inside, List.takeWhile_cons_of_pos here] at same
    exact absurd (List.append_right_eq_self.mp same.symm) (List.cons_ne_nil _ _)

end

section
variable {received stack : Text} {req : HttpRequest}

theorem Framed.inside (framed : Framed received) (urlPtr versionPtr : Nat) :
    Inside received [urlPtr, versionPtr] (handleRequest received stack req urlPtr versionPtr) := by
  obtain ⟨url, version, rest, rfl, inUrl', inVersion'⟩ := framed
  obtain ⟨urlIs, versionIs⟩ := @asked_framed rest url version inUrl' inVersion'
  generalize whole : text "GET " ++ (url ++ space :: (version ++ lf :: rest)) = received at *
  have size : 4 + (url.length + 1 + (version.length + 1)) ≤ received.length := by
    rw [← whole, List.length_append, List.length_append, List.length_cons, List.length_append,
      List.length_cons]
    change _ ≤ 4 + (url.length + (version.length + (rest.length + 1) + 1))
    omega
  unfold handleRequest
  generalize stack.drop received.length = stale
  have parse := @parse_stops (rest ++ stale) url version space lf inUrl' rfl inVersion' rfl urlPtr
    versionPtr
  have buffer : received ++ stale =
      text "GET " ++ (url ++ space :: (version ++ lf :: (rest ++ stale))) := by
    rw [← whole]
    simp only [List.append_assoc, List.cons_append]
  rw [← buffer] at parse
  rw [parse]
  by_cases noUrl : urlPtr = 0
  · simp only [if_pos noUrl]
    refine ⟨fun i inside => ?_, nofun, nofun⟩
    have bound := (List.mem_range'_1.mp inside).2
    omega
  · simp only [if_neg noUrl]
    have reads : ∀ i ∈ List.range' 0 (4 + (url.length + 1 + (version.length + 1))),
        i < received.length := fun i inside => by
      have bound := (List.mem_range'_1.mp inside).2
      omega
    by_cases noVersion : versionPtr = 0
    · simp only [if_pos noVersion]
      exact ⟨reads, nofun, nofun⟩
    · simp only [if_neg noVersion]
      refine ⟨reads, fun p inside => .inr inside, fun url' version' same => ?_⟩
      obtain ⟨rfl, rfl⟩ := Parse.parsed.inj same
      exact ⟨urlIs.symm, versionIs.symm⟩

theorem Refused.inside (refused : Refused received) (noUrl : req.url = 0) (noVersion : req.version = 0)
    (urlPtr versionPtr : Nat) :
    Inside received [urlPtr, versionPtr] (handleRequest received stack req urlPtr versionPtr) := by
  obtain ⟨n, few, parse⟩ := refused.parse (stack.drop received.length) urlPtr versionPtr
  unfold handleRequest
  rw [parse]
  refine ⟨fun i inside => ?_, fun p inside => ?_, nofun⟩
  · have bound := (List.mem_range'_1.mp inside).2
    omega
  · rw [noUrl, noVersion] at inside
    rcases List.mem_cons.mp inside with zero | inside
    · exact .inl zero
    · exact .inl (List.mem_singleton.mp inside)

theorem handled_reads {urlPtr versionPtr : Nat} :
    (handleRequest received stack req urlPtr versionPtr).reads =
      (parseRequest (received ++ stack.drop received.length) urlPtr versionPtr).1 := by
  unfold handleRequest
  simp only
  split <;> rfl

/-- A request is handled inside what is received exactly when it has an url, a space, a version
and a newline, or differs from "GET " while the stack holds null pointers. -/
theorem request_inside_iff (received stack : Text) (req : HttpRequest) :
    (∀ urlPtr versionPtr, Inside received [urlPtr, versionPtr]
      (handleRequest received stack req urlPtr versionPtr)) ↔
        Framed received ∨ Refused received ∧ req.url = 0 ∧ req.version = 0 := by
  constructor
  · intro handled
    have inside := handled 1 1
    have reads : ∀ i ∈ (parseRequest (received ++ stack.drop received.length) 1 1).1,
        i < received.length := fun i here => inside.reads i (handled_reads ▸ here)
    generalize stale : stack.drop received.length = rest' at reads
    rcases parse_cases (received ++ rest') with last | ⟨t, b, b', rest, more, same, get, differs, read⟩ |
      ⟨url, c, version, d, rest, same, inUrl', stops, inVersion', stops'⟩
    · have bound := reads _ last
      rw [List.length_append] at bound
      omega
    · refine .inr ?_
      have bound := reads t.length (read ▸ List.mem_range'_1.mpr ⟨Nat.zero_le _, by omega⟩)
      obtain ⟨rest, rfl⟩ := @received_part rest received rest' (t ++ [b]) (by simpa using same)
        (by rw [List.length_append]; exact bound)
      have refused : Refused (t ++ [b] ++ rest) := refused_iff.mpr
        ⟨t, b, b', rest, more, by simp, get, differs⟩
      obtain ⟨n, -, parse⟩ := refused.parse rest' 0 0
      have freed := (handled 0 0).freed
      unfold handleRequest at freed
      rw [stale, parse] at freed
      exact ⟨refused, by simpa using freed⟩
    · refine .inl ?_
      have parse := @parse_stops rest url version c d inUrl' stops inVersion' stops' 1 1
      rw [← same, if_neg Nat.one_ne_zero, if_neg Nat.one_ne_zero] at parse
      rw [parse] at reads
      have bound := reads (4 + (url.length + 1 + version.length))
        (List.mem_range'_1.mpr ⟨Nat.zero_le _, by omega⟩)
      obtain ⟨rest, rfl⟩ := @received_part rest received rest'
        (text "GET " ++ (url ++ c :: (version ++ [d]))) (by simpa using same) (by
          simp only [List.length_append, List.length_cons, List.length_nil]
          change 4 + _ ≤ _
          omega)
      have parsed := inside.parsed url version (by
        unfold handleRequest
        rw [stale, parse])
      have whole : text "GET " ++ (url ++ c :: (version ++ [d])) ++ rest =
          text "GET " ++ (url ++ c :: (version ++ d :: rest)) := by simp
      have passed : ∀ b ∈ url, (b != space) = true := fun b here => not_space (inUrl' b here)
      rw [whole] at parsed ⊢
      unfold askedUrl askedVersion at parsed
      rw [drop_get] at parsed
      have isSpace := stopped_at passed parsed.1
      rw [dropWhile_stops passed isSpace, List.drop_succ_cons, List.drop_zero] at parsed
      have isLf := stopped_at (fun b here => not_lf (inVersion' b here)) parsed.2
      obtain rfl : c = space := by simpa using isSpace
      obtain rfl : d = lf := by simpa using isLf
      exact ⟨url, version, rest, rfl, inUrl', inVersion'⟩
  · rintro (framed | ⟨refused, noUrl, noVersion⟩)
    · exact framed.inside
    · exact refused.inside noUrl noVersion

/-- "GET /" is read on behind its last byte. -/
theorem get_read_on : ¬ ∀ (received stack : Text) (req : HttpRequest) (urlPtr versionPtr : Nat),
    received.length ≤ 512 → Inside received [urlPtr, versionPtr]
      (handleRequest received stack req urlPtr versionPtr) := by
  intro claim
  have inside := claim (text "GET /") (List.replicate 16 0) ⟨0, 0⟩ 1 1 (by decide)
  exact absurd (inside.reads 5 (by decide)) (by decide)

end

end Httpd

end Jos
