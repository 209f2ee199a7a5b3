import Mysticeti.Types

/-!
# Submission over HTTP

A connection that begins like an HTTP request is read until a blank line has arrived after at
least one read, or until the client closes. What is there then is taken for the request, with
whatever part of the body came with the blank line. The length that the headers give is not
looked at.
-/

namespace Mysticeti

open List

/-- The library functions on a body: the text under `data` if the body is JSON, and the bytes
that a text of hexadecimal digits stands for. -/
structure HttpCodec where
  jsonData : Bytes → Option (Option String)
  decodeHex : String → Option Bytes

/-- What becomes of a request. A transaction that is passed on is accepted or not. -/
inductive HttpReply where
  | submitted (data : Bytes) (acc : Bool)
  | invalidHex
  | invalidFormat
  | noBody
  | methodNotAllowed
deriving DecidableEq, Repr

namespace Http

def jsonResponse (head : String) (length : Nat) (status message : String) : String :=
  "HTTP/1.1 " ++ head ++ "\r\nContent-Type: application/json\r\nContent-Length: " ++
    toString length ++ "\r\n\r\n\x7b\"status\":\"" ++ status ++ "\",\"message\":\"" ++ message ++
    "\"\x7d"

def response : HttpReply → String
  | .submitted _ true => jsonResponse "200 OK" 42 "success" "submitted"
  | .submitted _ false => jsonResponse "500 Internal Server Error" 37 "error" "failed"
  | .invalidHex => jsonResponse "400 Bad Request" 43 "error" "invalid hex"
  | .invalidFormat => jsonResponse "400 Bad Request" 45 "error" "invalid format"
  | .noBody => jsonResponse "400 Bad Request" 43 "error" "no body"
  | .methodNotAllowed =>
    jsonResponse "405 Method Not Allowed\r\nAllow: POST" 49 "error" "method not allowed"

def headerEnd : Bytes := [13, 10, 13, 10]

/-- The first window of four bytes that is the double line break. -/
def headerEndAt : Bytes → Option Nat
  | [] => none
  | byte :: rest =>
    if (byte :: rest).take 4 = headerEnd then some 0 else (headerEndAt rest).map (· + 1)

def submitLine : Bytes :=
  ['P', 'O', 'S', 'T', ' ', '/', 's', 'u', 'b', 'm', 'i', 't', ' '].map Char.toUInt8

/-- The loop over the reads. An empty read is the end of the stream; where no further read
returns, the handler waits. -/
def readRequest (requestData : Bytes) : List Bytes → Option Bytes
  | [] => none
  | read :: rest =>
    if read = [] then some requestData
    else if (headerEndAt (requestData ++ read)).isSome then some (requestData ++ read)
    else readRequest (requestData ++ read) rest

section Handler

variable (codec : HttpCodec) (accepts : Bytes → Bool)

def submitBody (body : Bytes) : HttpReply :=
  match codec.jsonData body with
  | some (some dataHex) =>
    match codec.decodeHex dataHex with
    | some data => .submitted data (accepts data)
    | none => .invalidHex
  | some none => .invalidFormat
  | none => .submitted body (accepts body)

-- The request line is plain ASCII, so that it begins the text when it begins the bytes.
def respond (requestData : Bytes) : HttpReply :=
  if submitLine <+: requestData then
    match headerEndAt requestData with
    | some pos =>
      if pos + 4 < requestData.length then submitBody codec accepts (requestData.drop (pos + 4))
      else .noBody
    | none => .noBody
  else .methodNotAllowed

def handleHttpRequest (initialBuf : Bytes) (reads : List Bytes) : Option HttpReply :=
  (readRequest initialBuf reads).map (respond codec accepts)

end Handler

structure SubmitRequest where
  headers : Bytes
  body : Bytes
  posts : submitLine <+: headers
  ends : headerEndAt (headers ++ headerEnd) = some headers.length
  nonempty : body ≠ []

namespace SubmitRequest

def headLength (request : SubmitRequest) : Nat := request.headers.length + 4

def bytes (request : SubmitRequest) : Bytes := request.headers ++ headerEnd ++ request.body

end SubmitRequest

/-- How many bytes have arrived after the first read that reaches the given length, or when the
stream ends. -/
def bytesRead (headLength count : Nat) : List Bytes → Option Nat
  | [] => none
  | read :: rest =>
    if read = [] ∨ headLength ≤ count + read.length then some (count + read.length)
    else bytesRead headLength (count + read.length) rest

lemma headerEndAt_le {data : Bytes} {pos : Nat} (got : headerEndAt data = some pos) :
    pos + 4 ≤ data.length := by
  induction data generalizing pos with
  | nil => simp [headerEndAt] at got
  | cons byte rest ih =>
    rw [headerEndAt] at got
    split at got
    case isTrue begins =>
      have four := congrArg List.length begins
      simp only [length_take, headerEnd, length_cons, length_nil] at four ⊢
      cases got
      omega
    case isFalse =>
      obtain ⟨later, inside, rfl⟩ := Option.map_eq_some_iff.mp got
      have := ih inside
      simp only [length_cons]
      omega

/-- What follows does not move the first double line break. -/
lemma headerEndAt_append {data : Bytes} {pos : Nat} (got : headerEndAt data = some pos)
    (more : Bytes) : headerEndAt (data ++ more) = some pos := by
  induction data generalizing pos with
  | nil => simp [headerEndAt] at got
  | cons byte rest ih =>
    have long := headerEndAt_le got
    have window : ((byte :: rest) ++ more).take 4 = (byte :: rest).take 4 :=
      take_append_of_le_length (by omega)
    rw [cons_append] at window
    rw [headerEndAt] at got
    rw [cons_append, headerEndAt, window]
    split at got
    case isTrue begins => rw [if_pos begins, got]
    case isFalse others =>
      obtain ⟨later, inside, rfl⟩ := Option.map_eq_some_iff.mp got
      rw [if_neg others, ih inside, Option.map_some]

namespace SubmitRequest

variable {request : SubmitRequest}

lemma headerEndAt_bytes : headerEndAt request.bytes = some request.headers.length :=
  headerEndAt_append request.ends request.body

/-- The double line break is found in what has arrived exactly when the headers have. -/
lemma headerEndAt_take (count : Nat) : headerEndAt (request.bytes.take count) =
    if request.headLength ≤ count then some request.headers.length else none := by
  split
  case isTrue enough =>
    have head : request.headers ++ headerEnd <+: request.bytes.take count := by
      refine prefix_take_iff.mpr ⟨prefix_append _ _, ?_⟩
      rwa [length_append]
    obtain ⟨more, same⟩ := head
    rw [← same]
    exact headerEndAt_append request.ends more
  case isFalse short =>
    rw [Option.eq_none_iff_forall_ne_some]
    intro pos got
    have whole := headerEndAt_append got (request.bytes.drop count)
    rw [take_append_drop, headerEndAt_bytes] at whole
    have inside := headerEndAt_le got
    rw [length_take, ← Option.some.inj whole] at inside
    exact short (inside.trans (Nat.min_le_left _ _))

end SubmitRequest

lemma readRequest_eq {request : SubmitRequest} {data : Bytes} {reads : List Bytes}
    (sent : data ++ reads.flatten = request.bytes) : readRequest data reads =
      (bytesRead request.headLength data.length reads).map request.bytes.take := by
  induction reads generalizing data with
  | nil => rfl
  | cons read rest ih =>
    rw [flatten_cons, ← append_assoc] at sent
    have arrived : request.bytes.take (data.length + read.length) = data ++ read := by
      rw [← sent, ← length_append, take_left]
    rw [readRequest, bytesRead]
    rcases eq_or_ne read [] with rfl | nonempty
    · rw [if_pos rfl, if_pos (.inl rfl), Option.map_some, arrived, append_nil]
    · rw [if_neg nonempty, ← arrived, SubmitRequest.headerEndAt_take]
      by_cases enough : request.headLength ≤ data.length + read.length
      · rw [if_pos enough, if_pos Option.isSome_some, if_pos (.inr enough), Option.map_some]
      · rw [if_neg enough, if_neg (by simp), if_neg (by simp [nonempty, enough]), arrived, ih sent,
          length_append]

section

variable {codec : HttpCodec} {accepts : Bytes → Bool} {request : SubmitRequest}

/-- Once the headers and a part of the body have arrived, that part is submitted. -/
lemma respond_take {count : Nat} (enough : request.headLength < count) :
    respond codec accepts (request.bytes.take count) =
      submitBody codec accepts (request.body.take (count - request.headLength)) := by
  have head : (request.headers ++ headerEnd).length = request.headLength := length_append
  have posts : submitLine <+: request.bytes.take count := by
    refine prefix_take_iff.mpr ⟨request.posts.trans ?_, ?_⟩
    · rw [SubmitRequest.bytes, append_assoc]
      exact prefix_append _ _
    · have := request.posts.length_le
      rw [SubmitRequest.headLength] at enough
      omega
  have body := length_pos_iff.mpr request.nonempty
  rw [respond, if_pos posts, SubmitRequest.headerEndAt_take, if_pos enough.le]
  change (if request.headLength < _ then _ else _) = _
  rw [if_pos (by
    rw [length_take, SubmitRequest.bytes, length_append, head]
    omega)]
  change submitBody codec accepts (drop request.headLength _) = _
  rw [SubmitRequest.bytes, drop_take, ← head, drop_left]

/-- Before a part of the body has arrived, nothing is submitted. -/
lemma respond_take_of_le {count : Nat} (short : count ≤ request.headLength) (body : Bytes) :
    respond codec accepts (request.bytes.take count) ≠ submitBody codec accepts body := by
  have refused : respond codec accepts (request.bytes.take count) = .noBody ∨
      respond codec accepts (request.bytes.take count) = .methodNotAllowed := by
    rw [respond, SubmitRequest.headerEndAt_take]
    split
    · left
      split
      case h_1 pos got =>
        split at got
        · cases got
          have few := length_take_le count request.bytes
          rw [if_neg (by rw [SubmitRequest.headLength] at short; omega)]
        · cases got
      case h_2 => rfl
    · exact .inr rfl
  intro same
  rw [same, submitBody] at refused
  split at refused
  · split at refused <;> simp at refused
  · simp at refused
  · simp at refused

end

def twoBytes : SubmitRequest where
  headers := submitLine ++ ['H', 'T', 'T', 'P', '/', '1', '.', '1', '\r', '\n', 'C', 'o', 'n', 't',
    'e', 'n', 't', '-', 'L', 'e', 'n', 'g', 't', 'h', ':', ' ', '2'].map Char.toUInt8
  body := [1, 2]
  posts := prefix_append _ _
  ends := by decide +kernel
  nonempty := by simp

/-- No body is JSON. -/
def rawCodec : HttpCodec := ⟨fun _ => none, fun _ => none⟩

end Http

end Mysticeti
