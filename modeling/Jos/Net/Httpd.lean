import Jos.Foundation.Lines
import Jos.Fs.Disk
import Mathlib.Data.List.TakeWhile

/-! What user/httpd.c writes to the socket of a client. The socket takes all it is given. -/

set_option autoImplicit false

namespace Jos

open Foundation

namespace Httpd

abbrev Text := List (BitVec 8)

def text (s : String) : Text := s.toList.map fun c => BitVec.ofNat 8 c.toNat

def cr : BitVec 8 := 13
def lf : BitVec 8 := 10
def space : BitVec 8 := 32

/-- What `open` finds under a name. -/
structure Node where
  isDir : Bool
  data : Text
  legal : data.length ≤ Fs.maxFileSize

/-- A function that writes to the socket: its result, unless it faults or panics, and all
that has been written. -/
abbrev Http := OptionT (StateM Text)

def write (bytes : Text) : Http Unit := modify fun sent => sent ++ bytes

def headers : List (Nat × Text) := [(200, text "HTTP/1.0 200 OK\r\nServer: jhttpd/0.1\r\n")]

def errors : List (Nat × Text) := [(400, text "Bad Request"), (404, text "Not Found")]

def sendHeader (code : Nat) : Http Int :=
  match headers.lookup code with
  | none => return -1
  | some header => do
      write header
      return 0

/-- `E1000_TXD_BUFFER_LENGTH` -/
def bufferLength : Nat := 1518

def sendData (node : Node) : Http Int := do
  let buf := node.data.take bufferLength
  if buf.length = 0 then failure
  write buf
  return buf.length

def digit (d : Nat) : BitVec 8 := BitVec.ofNat 8 (0x30 + d)

/-- `printnum` with base 10 and no padding -/
def printnum (num : Nat) : Text :=
  if 10 ≤ num then printnum (num / 10) ++ [digit (num % 10)] else [digit (num % 10)]

def sendSize (size : Nat) : Http Int := do
  let buf := text "Content-Length: " ++ printnum size ++ text "\r\n"
  if buf.length > 63 then failure
  write buf
  return 0

def mimeType (_file : Text) : Text := text "text/html"

def sendContentType (url : Text) : Http Int := do
  let buf := text "Content-Type: " ++ mimeType url ++ text "\r\n"
  if buf.length > 127 then failure
  write buf
  return 0

def sendHeaderFin : Http Int := do
  write (text "\r\n")
  return 0

def sendError (code : Nat) : Http Int :=
  match errors.lookup code with
  | none => return -1
  | some msg => do
      write (text "HTTP/1.0 " ++ printnum code ++ text " " ++ msg ++
        text ("\r\n" ++ "Server: jhttpd/0.1\r\n" ++ "Connection: close" ++ "Content-type: text/html\r\n" ++
          "\r\n" ++ "<html><body><p>") ++ printnum code ++ text " - " ++ msg ++ text "</p></body></html>\r\n")
      return 0

def inUrl (c : BitVec 8) : Bool := c != 0 && c != space

def inVersion (c : BitVec 8) : Bool := c != 0 && c != lf

/-- `http_request_parse` on what lies on the stack from the buffer on, with what `malloc`
does: the url, or `none` for `-E_BAD_REQ`. The scans fault at the end of the stack. -/
def httpRequestParse (request : Text) (urlRoom versionRoom : Bool) : Http (Option Text) :=
  if ¬ (text "GET ").isPrefixOf request then return none
  else
    let request := request.drop 4
    let url := request.takeWhile inUrl
    match request.dropWhile inUrl with
    | [] => failure
    | _ :: request => do
        if ¬ urlRoom then failure
        match request.dropWhile inVersion with
        | [] => failure
        | _ :: _ =>
          if ¬ versionRoom then failure
          return some url

/-- `send_file`. What `open` does not find has a negative `fd`, on which `fstat` fails. -/
def sendFile (names : Text → Option Node) (url : Text) : Http Unit := do
  let fd := names url
  match fd with
  | none => return ()
  | some stat =>
    if fd.isNone then let _ ← sendError 404
    if stat.isDir then let _ ← sendError 404
    let r ← sendHeader 200
    if r < 0 then return ()
    let r ← sendSize stat.data.length
    if r < 0 then return ()
    let r ← sendContentType url
    if r < 0 then return ()
    let r ← sendHeaderFin
    if r < 0 then return ()
    let _ ← sendData stat
    return ()

/-- `handle_client`, up to the end of the response. The bytes received lie over what the
stack holds. -/
def handleClient (names : Text → Option Node) (stack received : Text)
    (urlRoom versionRoom : Bool) : Http Unit := do
  let buffer := received ++ stack.drop received.length
  match ← httpRequestParse buffer urlRoom versionRoom with
  | none => do
      let _ ← sendError 400
      return ()
  | some url => sendFile names url

def wrote {α : Type} (x : Http α) (sent : Text) : Text := (x.run.run sent).2

/-! The responses. -/

def Clean (line : Text) : Prop := IsLine cr line ∧ lf ∉ line

instance (line : Text) : Decidable (Clean line) := inferInstanceAs (Decidable (_ ∧ _))

/-- An HTTP response: a status line, header lines, an empty line and a body. -/
structure Response where
  status : Text
  headers : List Text
  body : Text
  clean : ∀ line ∈ status :: headers, Clean line

def Response.bytes (r : Response) : Text := framed cr [lf] (r.status :: r.headers) r.body

def statusLine (code : Nat) (msg : Text) : Text :=
  text "HTTP/1.0 " ++ printnum code ++ text " " ++ msg

def contentLength (size : Nat) : Text := text "Content-Length: " ++ printnum size

def errorPage (code : Nat) (msg : Text) : Text :=
  text "<html><body><p>" ++ printnum code ++ text " - " ++ msg ++ text "</p></body></html>\r\n"

/-- The response to a request that is refused, with nothing behind its page. -/
def Response.Refuses (r : Response) (code : Nat) (msg : Text) : Prop :=
  r.status = statusLine code msg ∧ r.body = errorPage code msg

structure Response.Serves (r : Response) (data : Text) : Prop where
  status : r.status = statusLine 200 (text "OK")
  length : r.headers.filter (text "Content-Length: ").isPrefixOf = [contentLength r.body.length]
  body : r.body = data

/-- The url that a request asks for, `none` for one that is malformed. -/
def requestUrl (request : Text) : Option Text :=
  if (text "GET ").isPrefixOf request then some ((request.drop 4).takeWhile inUrl) else none

def Response.Answers (r : Response) (names : Text → Option Node) (received : Text) : Prop :=
  match requestUrl received with
  | none => r.Refuses 400 (text "Bad Request")
  | some url =>
    match names url with
    | none => r.Refuses 404 (text "Not Found")
    | some node => if node.isDir then r.Refuses 404 (text "Not Found") else r.Serves node.data

/-- The bytes sent are one response, the one that the bytes received call for. -/
def Right (names : Text → Option Node) (received sent : Text) : Prop :=
  ∃ r : Response, sent = r.bytes ∧ r.Answers names received

/-- Behind the url and behind the version there is a character that ends them. -/
def Ended (buffer : Text) : Prop :=
  ∃ c rest, (buffer.drop 4).dropWhile inUrl = c :: rest ∧ rest.dropWhile inVersion ≠ []

/-- The url in the buffer and the one received name files with the same bytes, which fit
where `send_data` reads them to, and `malloc` has memory for the url and the version. -/
def SameFile (names : Text → Option Node) (buffer received : Text) (urlRoom versionRoom : Bool) :
    Prop :=
  ∃ url asked node other, requestUrl buffer = some url ∧ requestUrl received = some asked ∧
    names url = some node ∧ names asked = some other ∧ node.isDir = false ∧
    other.isDir = false ∧ node.data = other.data ∧ node.data.length ≤ bufferLength ∧
    Ended buffer ∧ urlRoom = true ∧ versionRoom = true

/-! Numbers. -/

variable {n : Nat} {c : BitVec 8}

def number (t : Text) : Nat := t.foldl (fun value c => 10 * value + (c.toNat - 0x30)) 0

theorem digit_toNat {d : Nat} (small : d < 10) : (digit d).toNat = 0x30 + d := by
  rw [digit, BitVec.toNat_ofNat, Nat.mod_eq_of_lt (by omega)]

theorem number_printnum (n : Nat) : number (printnum n) = n := by
  induction n using Nat.strong_induction_on with
  | h n ih =>
    have last := digit_toNat (Nat.mod_lt n (by decide : 0 < 10))
    rw [printnum]
    split
    · rename_i large
      have before := ih (n / 10) (by omega)
      unfold number at before ⊢
      rw [List.foldl_append, before, List.foldl_cons, List.foldl_nil, last]
      omega
    · unfold number
      rw [List.foldl_cons, List.foldl_nil, last]
      omega

theorem printnum_injective {m : Nat} (same : printnum n = printnum m) : n = m := by
  rw [← number_printnum n, same, number_printnum]

theorem printnum_digits (member : c ∈ printnum n) : ∃ d < 10, c = digit d := by
  induction n using Nat.strong_induction_on with
  | h n ih =>
    rw [printnum] at member
    split at member
    · rename_i large
      rcases List.mem_append.mp member with before | last
      · exact ih (n / 10) (by omega) before
      · exact ⟨n % 10, Nat.mod_lt n (by decide), List.mem_singleton.mp last⟩
    · exact ⟨n % 10, Nat.mod_lt n (by decide), List.mem_singleton.mp member⟩

theorem printnum_length {k : Nat} (small : n < 10 ^ (k + 1)) : (printnum n).length ≤ k + 1 := by
  induction k generalizing n with
  | zero =>
    have few : ¬ 10 ≤ n := by omega
    rw [printnum, if_neg few, List.length_singleton]
  | succ k ih =>
    rw [printnum]
    split
    · rw [List.length_append, List.length_singleton]
      have shorter := @ih (n / 10) (Nat.div_lt_of_lt_mul (by rwa [Nat.pow_succ, Nat.mul_comm] at small))
      omega
    · rw [List.length_singleton]
      omega

theorem not_mem_printnum (outside : c.toNat < 0x30) : c ∉ printnum n := by
  intro member
  obtain ⟨d, small, rfl⟩ := printnum_digits member
  rw [digit_toNat small] at outside
  omega

theorem clean_contentLength (size : Nat) : Clean (contentLength size) := by
  unfold contentLength
  refine ⟨⟨?_, ?_⟩, ?_⟩
  · exact List.append_ne_nil_of_left_ne_nil (by decide) _
  · rw [List.mem_append, not_or]
    exact ⟨by decide, not_mem_printnum (by decide)⟩
  · rw [List.mem_append, not_or]
    exact ⟨by decide, not_mem_printnum (by decide)⟩

theorem Response.bytes_injective {r r' : Response} (same : r.bytes = r'.bytes) : r = r' := by
  obtain ⟨lines, body⟩ := framed_injective (fun line member => (r.clean line member).1)
    (fun line member => (r'.clean line member).1) same
  obtain ⟨status, headers⟩ := List.cons.inj lines
  cases r
  cases r'
  obtain rfl : _ = _ := status
  obtain rfl : _ = _ := headers
  obtain rfl : _ = _ := body
  rfl

theorem right_bytes {names : Text → Option Node} {received : Text} {r : Response} :
    Right names received r.bytes ↔ r.Answers names received := by
  constructor
  · rintro ⟨r', same, answers⟩
    obtain rfl := Response.bytes_injective same
    exact answers
  · exact fun answers => ⟨r, rfl, answers⟩

theorem Response.bytes_ne_nil (r : Response) : r.bytes ≠ [] := by
  unfold bytes framed
  exact List.append_ne_nil_of_right_ne_nil _ (List.cons_ne_nil _ _)

theorem statusLine_code {code code' : Nat} {msg msg' : Text}
    (same : statusLine code msg = statusLine code' msg') : code = code' := by
  unfold statusLine at same
  rw [List.append_assoc, List.append_assoc, List.append_assoc, List.append_assoc] at same
  have split := List.append_cancel_left same
  have blank (n : Nat) : space ∉ printnum n := by
    intro member
    obtain ⟨d, small, eq⟩ := printnum_digits member
    have value := congrArg BitVec.toNat eq
    rw [digit_toNat small] at value
    change 0x20 = _ at value
    omega
  exact printnum_injective (first_mark (blank code) (blank code') split).1

theorem clean_statusLine {code : Nat} {msg : Text} (msg_cr : cr ∉ msg) (msg_lf : lf ∉ msg) :
    Clean (statusLine code msg) := by
  unfold statusLine
  simp only [Clean, IsLine, List.mem_append, not_or, List.append_assoc]
  refine ⟨⟨List.append_ne_nil_of_left_ne_nil (by decide) _, ?_⟩, ?_⟩
  · exact ⟨by decide, not_mem_printnum (by decide), by decide, msg_cr⟩
  · exact ⟨by decide, not_mem_printnum (by decide), by decide, msg_lf⟩

/-! What the functions send. -/

def serverLine : Text := text "Server: jhttpd/0.1"
/-- Two header lines of the source, between which the end of a line is missing. -/
def connectionLine : Text := text "Connection: closeContent-type: text/html"
def typeLine : Text := text "Content-Type: text/html"

/-- The response of `send_error`. -/
def refusal (code : Nat) (msg : Text) (msg_cr : cr ∉ msg) (msg_lf : lf ∉ msg) : Response where
  status := statusLine code msg
  headers := [serverLine, connectionLine]
  body := errorPage code msg
  clean line member := by
    rcases List.mem_cons.mp member with rfl | member
    · exact clean_statusLine msg_cr msg_lf
    · have fixed : ∀ line ∈ [serverLine, connectionLine], Clean line := by decide
      exact fixed line member

def badRequest : Response := refusal 400 (text "Bad Request") (by decide) (by decide)
def notFound : Response := refusal 404 (text "Not Found") (by decide) (by decide)

/-- The response of `send_file` for a file, of which the first bytes are sent. -/
def served (size : Nat) (body : Text) : Response where
  status := statusLine 200 (text "OK")
  headers := [serverLine, contentLength size, typeLine]
  body := body
  clean line member := by
    simp only [List.mem_cons, List.not_mem_nil, or_false] at member
    rcases member with rfl | rfl | rfl | rfl
    · exact clean_statusLine (by decide) (by decide)
    · decide
    · exact clean_contentLength size
    · decide

variable {sent : Text} {code : Nat} {msg : Text}

theorem wrote_sendError (known : errors.lookup code = some msg) (msg_cr : cr ∉ msg)
    (msg_lf : lf ∉ msg) :
    (sendError code).run.run sent = (some 0, sent ++ (refusal code msg msg_cr msg_lf).bytes) := by
  have lines : text ("\r\n" ++ "Server: jhttpd/0.1\r\n" ++ "Connection: close" ++
      "Content-type: text/html\r\n" ++ "\r\n" ++ "<html><body><p>") =
        cr :: lf :: (serverLine ++ cr :: lf :: (connectionLine ++ cr :: lf :: cr :: lf ::
          text "<html><body><p>")) := by decide
  unfold sendError
  rw [known, lines]
  change (some 0, sent ++ _) = _
  simp [refusal, Response.bytes, framed, statusLine, errorPage, List.append_assoc]

theorem wrote_badRequest : (sendError 400).run.run sent = (some 0, sent ++ badRequest.bytes) :=
  wrote_sendError rfl _ _

theorem wrote_notFound : (sendError 404).run.run sent = (some 0, sent ++ notFound.bytes) :=
  wrote_sendError rfl _ _

theorem wrote_bind {α β : Type} {x : Http α} {f : α → Http β} {a : α} {after : Text}
    (ran : x.run.run sent = (some a, after)) : wrote (x >>= f) sent = wrote (f a) after := by
  unfold wrote
  rw [OptionT.run_bind, Option.elimM, StateT.run_bind, ran]
  rfl

theorem wrote_bind_pure {α : Type} {x : Http α} :
    wrote (x >>= fun _ => pure ()) sent = wrote x sent := by
  unfold wrote
  rw [OptionT.run_bind, Option.elimM, StateT.run_bind]
  rcases x.run.run sent with ⟨result, after⟩
  cases result with
  | none => rfl
  | some a => rfl

theorem ran_sendSize {size : Nat} (legal : size ≤ Fs.maxFileSize) :
    (sendSize size).run.run sent = (some 0, sent ++ (contentLength size ++ [cr, lf])) := by
  have digits : (printnum size).length ≤ 7 :=
    printnum_length (Nat.lt_of_le_of_lt legal (by decide))
  have fits : ¬ (text "Content-Length: " ++ printnum size ++ text "\r\n").length > 63 := by
    rw [List.length_append, List.length_append]
    have before : (text "Content-Length: ").length = 16 := by decide
    have behind : (text "\r\n").length = 2 := by decide
    omega
  unfold sendSize
  simp only [if_neg fits]
  rfl

theorem ran_sendContentType {url : Text} :
    (sendContentType url).run.run sent = (some 0, sent ++ (typeLine ++ [cr, lf])) := by
  have line : text "Content-Type: " ++ mimeType url ++ text "\r\n" = typeLine ++ [cr, lf] := by
    unfold mimeType
    decide
  have fits : ¬ (typeLine ++ [cr, lf]).length > 127 := by decide
  unfold sendContentType
  simp only [line, if_neg fits]
  rfl

theorem wrote_sendData {node : Node} :
    wrote (sendData node) sent = sent ++ node.data.take bufferLength := by
  unfold sendData
  by_cases empty : (node.data.take bufferLength).length = 0
  · rw [List.eq_nil_of_length_eq_zero empty, List.append_nil]
    rfl
  · simp only [if_neg empty]
    rfl

/-- From the status line on, `send_file` sends one response. -/
theorem wrote_success {url : Text} {node : Node} :
    wrote (do
      let r ← sendHeader 200
      if r < 0 then return ()
      let r ← sendSize node.data.length
      if r < 0 then return ()
      let r ← sendContentType url
      if r < 0 then return ()
      let r ← sendHeaderFin
      if r < 0 then return ()
      let _ ← sendData node
      return ()) sent =
      sent ++ (served node.data.length (node.data.take bufferLength)).bytes := by
  have header : (sendHeader 200).run.run sent =
      (some 0, sent ++ text "HTTP/1.0 200 OK\r\nServer: jhttpd/0.1\r\n") := rfl
  have lines : text "HTTP/1.0 200 OK\r\nServer: jhttpd/0.1\r\n" =
      statusLine 200 (text "OK") ++ [cr, lf] ++ (serverLine ++ [cr, lf]) := by
    have digits : printnum 200 = text "200" := by
      rw [printnum, if_pos (by decide), printnum, if_pos (by decide), printnum,
        if_neg (by decide)]
      decide
    unfold statusLine
    rw [digits]
    decide
  have fin (sent : Text) : sendHeaderFin.run.run sent = (some 0, sent ++ [cr, lf]) := rfl
  simp only [wrote_bind header, wrote_bind (ran_sendSize node.legal), wrote_bind ran_sendContentType,
    wrote_bind (fin _), Int.lt_irrefl, if_false, wrote_bind_pure, wrote_sendData, lines]
  unfold Response.bytes served
  simp [framed, List.append_assoc]

theorem wrote_sendFile {names : Text → Option Node} {url : Text} {node : Node}
    (found : names url = some node) :
    wrote (sendFile names url) sent = sent ++ (if node.isDir then notFound.bytes else []) ++
      (served node.data.length (node.data.take bufferLength)).bytes := by
  unfold sendFile
  simp only [found, Option.isNone_some, Bool.false_eq_true, if_false]
  cases dir : node.isDir with
  | true =>
    simp only [if_true]
    rw [wrote_bind wrote_notFound]
    exact wrote_success
  | false =>
    simp only [Bool.false_eq_true, if_false, List.append_nil]
    exact wrote_success

variable {names : Text → Option Node} {buffer received url : Text} {urlRoom versionRoom : Bool}

theorem ran_parse_bad (bad : requestUrl buffer = none) :
    (httpRequestParse buffer urlRoom versionRoom).run.run sent = (some none, sent) := by
  unfold requestUrl at bad
  have other : ¬ (text "GET ").isPrefixOf buffer := by
    intro get
    rw [if_pos get] at bad
    exact Option.some_ne_none _ bad
  unfold httpRequestParse
  rw [if_pos other]
  rfl

theorem ran_parse_good (good : requestUrl buffer = some url) (ended : Ended buffer)
    (urlRoom' : urlRoom = true) (versionRoom' : versionRoom = true) :
    (httpRequestParse buffer urlRoom versionRoom).run.run sent = (some (some url), sent) := by
  obtain ⟨get, same⟩ := Option.ite_none_right_eq_some.mp good
  cases same
  obtain ⟨c, rest, here, there⟩ := ended
  obtain ⟨d, rest', there⟩ := List.exists_cons_of_ne_nil there
  subst urlRoom' versionRoom'
  unfold httpRequestParse
  rw [if_neg (not_not.mpr get)]
  simp only [here, there, not_true_eq_false, if_false]
  rfl

theorem ran_parse_stuck (good : requestUrl buffer = some url)
    (stuck : ¬ (Ended buffer ∧ urlRoom = true ∧ versionRoom = true)) :
    (httpRequestParse buffer urlRoom versionRoom).run.run sent = (none, sent) := by
  obtain ⟨get, -⟩ := Option.ite_none_right_eq_some.mp good
  unfold httpRequestParse
  rw [if_neg (not_not.mpr get)]
  cases here : (buffer.drop 4).dropWhile inUrl with
  | nil =>
    simp only [here]
    rfl
  | cons c rest =>
    cases there : rest.dropWhile inVersion with
    | nil =>
      cases urlRoom <;> simp only [here, there] <;> rfl
    | cons d rest' =>
      have ended : Ended buffer := ⟨c, rest, here, there ▸ List.cons_ne_nil _ _⟩
      cases urlRoom with
      | false =>
        simp only [here]
        rfl
      | true =>
        cases versionRoom with
        | false =>
          simp only [here, there]
          rfl
        | true => exact absurd ⟨ended, rfl, rfl⟩ stuck

theorem Response.Refuses.code_eq {r : Response} {code' : Nat} {msg' : Text}
    (refuses : r.Refuses code msg) (status : r.status = statusLine code' msg') : code = code' :=
  statusLine_code (refuses.1.symm.trans status)

/-- A response with the status 200 is none that refuses, and one with another status is
none that serves. -/
theorem Response.Answers.by_code {r : Response} {msg : Text} (answers : r.Answers names received)
    (status : r.status = statusLine code msg) :
    (code = 400 ∧ requestUrl received = none) ∨
      (code = 404 ∧ r.body = errorPage 404 (text "Not Found")) ∨
      (code = 200 ∧ ∃ asked node, requestUrl received = some asked ∧ names asked = some node ∧
        node.isDir = false ∧ r.Serves node.data) := by
  unfold Response.Answers at answers
  cases asks : requestUrl received with
  | none =>
    simp only [asks] at answers
    exact .inl ⟨(answers.code_eq status).symm, rfl⟩
  | some asked =>
    cases found : names asked with
    | none =>
      simp only [asks, found] at answers
      exact .inr (.inl ⟨(answers.code_eq status).symm, answers.2⟩)
    | some node =>
      simp only [asks, found] at answers
      cases dir : node.isDir with
      | true =>
        rw [if_pos dir] at answers
        exact .inr (.inl ⟨(answers.code_eq status).symm, answers.2⟩)
      | false =>
        rw [if_neg (by rw [dir]; exact Bool.false_ne_true)] at answers
        exact .inr (.inr ⟨statusLine_code (status.symm.trans answers.status),
          asked, node, rfl, found, dir, answers⟩)

theorem badRequest_answers : badRequest.Answers names received ↔ requestUrl received = none := by
  constructor
  · intro answers
    rcases answers.by_code rfl with ⟨-, malformed⟩ | ⟨other, -⟩ | ⟨other, -⟩
    · exact malformed
    · exact absurd other (by decide)
    · exact absurd other (by decide)
  · intro malformed
    unfold Response.Answers
    rw [malformed]
    exact ⟨rfl, rfl⟩

theorem served_filter {size : Nat} {body : Text} :
    (served size body).headers.filter (text "Content-Length: ").isPrefixOf =
      [contentLength size] := by
  have server : (text "Content-Length: ").isPrefixOf serverLine = false := by decide
  have type : (text "Content-Length: ").isPrefixOf typeLine = false := by decide
  have length : (text "Content-Length: ").isPrefixOf (contentLength size) = true :=
    List.isPrefixOf_iff_prefix.mpr (List.prefix_append _ _)
  unfold served
  simp only [List.filter_cons, server, type, length, Bool.false_eq_true, if_false, if_true,
    List.filter_nil]

theorem contentLength_injective {size size' : Nat}
    (same : contentLength size = contentLength size') : size = size' :=
  printnum_injective (List.append_cancel_left same)

theorem served_answers {node : Node} :
    (served node.data.length (node.data.take bufferLength)).Answers names received ↔
      node.data.length ≤ bufferLength ∧ ∃ asked other, requestUrl received = some asked ∧
        names asked = some other ∧ other.isDir = false ∧ node.data = other.data := by
  constructor
  · intro answers
    rcases answers.by_code rfl with ⟨other, -⟩ | ⟨other, -⟩ | ⟨-, asked, other, asks, found, file, serves⟩
    · exact absurd other (by decide)
    · exact absurd other (by decide)
    · have length := contentLength_injective
        (List.singleton_inj.mp (served_filter.symm.trans serves.length))
      have whole : node.data.length ≤ bufferLength := by
        rw [length]
        exact List.length_take_le ..
      have body : node.data.take bufferLength = other.data := serves.body
      rw [List.take_of_length_le whole] at body
      exact ⟨whole, asked, other, asks, found, file, body⟩
  · rintro ⟨whole, asked, other, asks, found, file, same⟩
    unfold Response.Answers
    have plain : ¬ other.isDir = true := by
      rw [file]
      exact Bool.false_ne_true
    simp only [asks, found, if_neg plain]
    rw [List.take_of_length_le whole]
    exact ⟨rfl, served_filter, same⟩

/-- What `send_file` sends for a directory is the refusal and more. -/
theorem directory_wrong {size : Nat} {body : Text} :
    ¬ Right names received (notFound.bytes ++ (served size body).bytes) := by
  let both : Response := { notFound with body := notFound.body ++ (served size body).bytes }
  have bytes : notFound.bytes ++ (served size body).bytes = both.bytes := framed_append _
  rw [bytes, right_bytes]
  intro answers
  rcases answers.by_code rfl with ⟨other, -⟩ | ⟨-, page⟩ | ⟨other, -⟩
  · exact absurd other (by decide)
  · exact (served size body).bytes_ne_nil (List.append_right_eq_self.mp page)
  · exact absurd other (by decide)

theorem nothing_wrong : ¬ Right names received [] := by
  rintro ⟨r, same, -⟩
  exact r.bytes_ne_nil same.symm

/-- The bytes sent are the response called for exactly when the request is malformed, in
the buffer and as received, or both urls name files of at most 1518 bytes, the same. -/
theorem response_right_iff (names : Text → Option Node) (stack received : Text)
    (urlRoom versionRoom : Bool) :
    Right names received (wrote (handleClient names stack received urlRoom versionRoom) []) ↔
      (requestUrl (received ++ stack.drop received.length) = none ∧ requestUrl received = none) ∨
        SameFile names (received ++ stack.drop received.length) received urlRoom versionRoom := by
  generalize inBuffer : received ++ stack.drop received.length = buffer
  unfold handleClient
  rw [inBuffer]
  cases reads : requestUrl buffer with
  | none =>
    rw [wrote_bind (ran_parse_bad reads)]
    change Right _ _ (wrote (sendError 400 >>= fun _ => pure ()) []) ↔ _
    have sends : wrote (sendError 400) [] = badRequest.bytes := congrArg Prod.snd wrote_badRequest
    rw [wrote_bind_pure, sends, right_bytes, badRequest_answers]
    constructor
    · exact fun malformed => .inl ⟨rfl, malformed⟩
    · rintro (⟨-, malformed⟩ | ⟨url, asked, node, other, reads', -⟩)
      · exact malformed
      · exact absurd (reads.symm.trans reads') (Option.some_ne_none url).symm
  | some url =>
    by_cases ready : Ended buffer ∧ urlRoom = true ∧ versionRoom = true
    · rw [wrote_bind (ran_parse_good reads ready.1 ready.2.1 ready.2.2)]
      change Right _ _ (wrote (sendFile names url) []) ↔ _
      cases found : names url with
      | none =>
        have silent : wrote (sendFile names url) [] = [] := by
          unfold sendFile
          rw [found]
          rfl
        rw [silent]
        refine iff_of_false nothing_wrong ?_
        rintro (⟨none, -⟩ | ⟨url', asked, node, other, reads', asks, found', -⟩)
        · exact Option.some_ne_none url none
        · obtain rfl := Option.some.inj (reads.symm.trans reads')
          exact Option.some_ne_none node (found'.symm.trans found)
      | some node =>
        rw [wrote_sendFile found, List.nil_append]
        cases dir : node.isDir with
        | true =>
          refine iff_of_false directory_wrong ?_
          rintro (⟨none, -⟩ | ⟨url', asked, node', other, reads', asks, found', -, file, -⟩)
          · exact Option.some_ne_none url none
          · obtain rfl := Option.some.inj (reads.symm.trans reads')
            cases found.symm.trans found'
            exact Bool.false_ne_true (file.symm.trans dir)
        | false =>
          simp only [Bool.false_eq_true, if_false, List.nil_append]
          rw [right_bytes, served_answers]
          constructor
          · rintro ⟨whole, asked, other, asks, there, file, same⟩
            exact .inr ⟨url, asked, node, other, reads, asks, found, there, dir, file, same,
              whole, ready⟩
          · rintro (⟨none, -⟩ | ⟨url', asked, node', other, reads', asks, found', there, -,
              file, same, whole, -⟩)
            · exact absurd none (Option.some_ne_none url)
            · obtain rfl := Option.some.inj (reads.symm.trans reads')
              cases found.symm.trans found'
              exact ⟨whole, asked, other, asks, there, file, same⟩
    · have silent : wrote (httpRequestParse buffer urlRoom versionRoom >>= fun
          | none => do
              let _ ← sendError 400
              return ()
          | some url => sendFile names url) [] = [] := by
        unfold wrote
        rw [OptionT.run_bind, Option.elimM, StateT.run_bind, ran_parse_stuck reads ready]
        rfl
      refine iff_of_false (fun right => nothing_wrong (silent ▸ right)) ?_
      rintro (⟨none, -⟩ | ⟨url', asked, node, other, -, -, -, -, -, -, -, -, ready'⟩)
      · exact Option.some_ne_none url none
      · exact ready ready'

def sampleGet : Text := text "GET /x HTTP/1.0\r\n\r\n"

/-- A request for a file that is not there is not answered. -/
theorem missing_file_unanswered :
    requestUrl sampleGet = some (text "/x") ∧
      wrote (handleClient (fun _ => none) (List.replicate 512 0) sampleGet true true) [] = [] ∧
      ¬ Right (fun _ => none) sampleGet
        (wrote (handleClient (fun _ => none) (List.replicate 512 0) sampleGet true true) []) := by
  have silent : wrote (handleClient (fun _ => none) (List.replicate 512 0) sampleGet true true) [] =
      [] := by decide +kernel
  refine ⟨by decide, silent, ?_⟩
  rw [silent]
  exact nothing_wrong

end Httpd

end Jos
