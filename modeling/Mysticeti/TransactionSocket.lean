import Mysticeti.RequestStream

/-!
# Requests on the transaction socket

A client sends frames on one connection: four bytes of length, then as many bytes with a message
of transactions. The server answers each request with a text. It refuses a length above ten
megabytes without reading the bytes that follow, so that they are read as the next frames. It
checks twice whether the node accepts transactions; when the second check fails, it answers and
closes the connection, with whatever the client sent after that.

Decoding and hashing are library code. The answers of the node to the checks and the result of
the submission are given for each request by its number. Responses are written without error;
otherwise the connection is lost for both sides.
-/

namespace Mysticeti

open List

/-- The library functions of the socket server. A message decodes to its transactions, each
encoded again on its own, if that is possible. -/
structure SocketCodec where
  decodeTransactions : Bytes → Except String (List (Option Bytes))
  calculateTransactionHashHex : Bytes → String

structure Acceptance where
  shouldAccept : Bool
  shouldQueue : Bool
  reason : String
deriving DecidableEq, Repr

/-- What the node answers while a request is handled. A submission returns the block as text and
the positions of the transactions in it, or the text of an error. -/
structure RequestAnswers where
  initialCheck : Acceptance
  finalCheck : Acceptance
  submission : Except String (String × List Nat)

inductive RequestEffect where
  | refused
  | queued (txs : List Bytes)
  | submitted (txs : List Bytes)
deriving DecidableEq, Repr

/-- What the server does with a request, what it answers, and whether it then closes the
connection. -/
structure Reply where
  effect : RequestEffect
  response : String
  closes : Bool
deriving DecidableEq, Repr

/-- One round of the loop: a frame is refused for its length, or its message is a request, or
the stream ends within the message. -/
inductive SocketEvent where
  | tooLarge (length : Nat) (response : String)
  | request (message : Bytes) (effect : RequestEffect) (response : String)
  | truncated (length : Nat)
deriving DecidableEq, Repr

namespace TransactionSocket

def maxTxSize : Nat := 10 * 1024 * 1024

def escapeQuotes (text : String) : String :=
  String.ofList (text.toList.flatMap fun char =>
    if char.toNat = 34 then [Char.ofNat 92, char] else [char])

variable (message : String)

def errorResponse : String := "\x7b\"success\":false,\"error\":\"" ++ message ++ "\"\x7d"

def queuedResponse : String :=
  "\x7b\"success\":true,\"queued\":true,\"message\":\"" ++ message ++ "\"\x7d"

def tooLargeResponse (length : Nat) : String :=
  errorResponse ("Transaction too large: " ++ toString length ++ " bytes (max: " ++
    toString maxTxSize ++ ")")

def successResponse (hash blockRef : String) (indices : List Nat) (count : Nat) : String :=
  "\x7b\"success\":true,\"tx_hash\":\"" ++ hash ++ "\",\"block_ref\":\"" ++ blockRef ++
    "\",\"indices\":" ++ toString indices ++ ",\"count\":" ++ toString count ++ "\x7d"

def refuse : Reply := ⟨.refused, errorResponse message, false⟩

section Server

/- The library functions, whether a node is attached, and its answers to each request. -/
variable (codec : SocketCodec) (attached : Bool) (ans : Nat → RequestAnswers)

def submit (ans : RequestAnswers) (txs : List Bytes) : Reply :=
  let initial := ans.initialCheck
  let final := ans.finalCheck
  if attached && initial.shouldQueue then
    ⟨.queued txs, queuedResponse
      ("Transaction queued for next epoch: " ++ escapeQuotes initial.reason), false⟩
  else if attached && !initial.shouldAccept then
    refuse ("Node not ready to accept transactions: " ++ escapeQuotes initial.reason)
  else if attached && final.shouldQueue then
    ⟨.queued txs, queuedResponse
      ("Transaction queued due to barrier race condition: " ++ escapeQuotes final.reason), true⟩
  else if attached && !final.shouldAccept then
    ⟨.refused, errorResponse ("Node not ready: " ++ escapeQuotes final.reason), true⟩
  else
    match ans.submission with
    | .ok (blockRef, indices) =>
      ⟨.submitted txs, successResponse
        ((txs.head?.map codec.calculateTransactionHashHex).getD "unknown") blockRef
        indices txs.length, false⟩
    | .error reason =>
      ⟨.submitted txs,
        errorResponse ("Transaction submission failed: " ++ escapeQuotes reason), false⟩

def respond (ans : RequestAnswers) (message : Bytes) : Reply :=
  match codec.decodeTransactions message with
  | .error reason => refuse ("Invalid Transactions protobuf: " ++ escapeQuotes reason)
  | .ok [] => refuse "Empty Transactions message"
  | .ok txs =>
    match txs.filterMap id with
    | [] => refuse "No valid transactions after encoding"
    | first :: others => submit codec attached ans (first :: others)

def requestEvent (number : Nat) (message : Bytes) : SocketEvent :=
  let reply := respond codec attached (ans number) message
  .request message reply.effect reply.response

/-- The loop, from the request with this number on: what happens, and the bytes that are left
when the server closes the connection. A stream that ends within a length ends the loop. -/
def serve : Nat → Nat → Bytes → List SocketEvent × Bytes
  | 0, _, stream => ([], stream)
  | fuel + 1, number, stream =>
    if stream.length < 4 then ([], [])
    else
      let dataLen := readLength (stream.take 4)
      let rest := stream.drop 4
      if maxTxSize < dataLen then
        let later := serve fuel (number + 1) rest
        (.tooLarge dataLen (tooLargeResponse dataLen) :: later.1, later.2)
      else if rest.length < dataLen then ([.truncated dataLen], [])
      else
        let message := rest.take dataLen
        let event := requestEvent codec attached ans number message
        if (respond codec attached (ans number) message).closes then
          ([event], rest.drop dataLen)
        else
          let later := serve fuel (number + 1) (rest.drop dataLen)
          (event :: later.1, later.2)

/-- Every round takes four bytes at least. -/
def handleConnection (stream : Bytes) : List SocketEvent × Bytes :=
  serve codec attached ans (stream.length + 1) 0 stream

def frameEvent (number : Nat) (message : Bytes) : SocketEvent :=
  if maxTxSize < message.length then
    .tooLarge message.length (tooLargeResponse message.length)
  else requestEvent codec attached ans number message

def frameEvents : Nat → List Bytes → List SocketEvent
  | _, [] => []
  | number, message :: rest =>
    frameEvent codec attached ans number message :: frameEvents (number + 1) rest

end Server

section Framing

variable {codec : SocketCodec} {attached : Bool} {ans : Nat → RequestAnswers}
  {fuel number : Nat} {message rest : Bytes} {frames : List Bytes}

lemma length_frame (message : Bytes) : (frame message).length = 4 + message.length := by
  rw [frame, length_append]
  rfl

/-- A frame whose length is allowed is one request. The rest of the stream is read only when
the connection stays open. -/
lemma serve_frame_of_le (small : message.length ≤ maxTxSize) :
    serve codec attached ans (fuel + 1) number (frame message ++ rest) =
      if (respond codec attached (ans number) message).closes then
        ([requestEvent codec attached ans number message], rest)
      else
        (requestEvent codec attached ans number message ::
            (serve codec attached ans fuel (number + 1) rest).1,
          (serve codec attached ans fuel (number + 1) rest).2) := by
  have fits : message.length < 2 ^ 32 := by
    unfold maxTxSize at small
    omega
  have header : (frame message ++ rest).take 4 = lengthBytes message.length := rfl
  have body : (frame message ++ rest).drop 4 = message ++ rest := rfl
  have long : ¬ (frame message ++ rest).length < 4 := by
    rw [length_append, length_frame]
    omega
  have complete : ¬ (message ++ rest).length < message.length := by
    rw [length_append]
    omega
  rw [serve]
  simp only [long, if_false, header, body, readLength_lengthBytes fits, Nat.not_lt_of_le small,
    complete, take_left, drop_left]

lemma serve_frame_of_lt (large : maxTxSize < message.length) (fits : message.length < 2 ^ 32) :
    serve codec attached ans (fuel + 1) number (frame message ++ rest) =
      (.tooLarge message.length (tooLargeResponse message.length) ::
          (serve codec attached ans fuel (number + 1) (message ++ rest)).1,
        (serve codec attached ans fuel (number + 1) (message ++ rest)).2) := by
  have header : (frame message ++ rest).take 4 = lengthBytes message.length := rfl
  have body : (frame message ++ rest).drop 4 = message ++ rest := rfl
  have long : ¬ (frame message ++ rest).length < 4 := by
    rw [length_append, length_frame]
    omega
  rw [serve]
  simp only [long, if_false, header, body, readLength_lengthBytes fits, large, if_true]

def eventSize : SocketEvent → Nat
  | .tooLarge _ _ => 4
  | .request message _ _ => 4 + message.length
  | .truncated length => 4 + length

lemma length_le_of_serve (stream : Bytes) (enough : stream.length < fuel) :
    stream.length ≤ ((serve codec attached ans fuel number stream).1.map
      eventSize).sum + (serve codec attached ans fuel number stream).2.length + 3 := by
  induction fuel generalizing number stream with
  | zero => omega
  | succ fuel ih =>
    rw [serve]
    by_cases short : stream.length < 4
    · simp only [short, if_true]
      omega
    · simp only [short, if_false]
      have dropped : (stream.drop 4).length = stream.length - 4 := length_drop
      by_cases large : maxTxSize < readLength (stream.take 4)
      · have later := @ih (number + 1) (stream.drop 4) (by omega)
        simp only [large, if_true, map_cons, sum_cons, eventSize]
        omega
      · by_cases cut : (stream.drop 4).length < readLength (stream.take 4)
        · simp only [large, cut, if_true, if_false, map_cons, sum_cons, map_nil, sum_nil, eventSize]
          omega
        · have taken : ((stream.drop 4).take (readLength (stream.take 4))).length =
              readLength (stream.take 4) := by
            rw [length_take]
            omega
          have left : ((stream.drop 4).drop (readLength (stream.take 4))).length =
              stream.length - 4 - readLength (stream.take 4) := by
            rw [length_drop, dropped]
          simp only [large, cut, if_false]
          split
          · simp only [requestEvent, map_cons, sum_cons, map_nil, sum_nil, eventSize, taken, left]
            omega
          · have later := @ih (number + 1)
              ((stream.drop 4).drop (readLength (stream.take 4))) (by omega)
            simp only [requestEvent, map_cons, sum_cons, eventSize, taken]
            omega

lemma sum_size_frameEvents (frames : List Bytes) :
    ((frameEvents codec attached ans number frames).map eventSize).sum ≤
      (frames.flatMap frame).length := by
  induction frames generalizing number with
  | nil => exact Nat.le_refl 0
  | cons message rest ih =>
    have later := @ih (number + 1)
    have own : eventSize (frameEvent codec attached ans number message) ≤
        4 + message.length := by
      unfold frameEvent
      split
      · exact Nat.le_add_right 4 _
      · exact Nat.le_refl _
    rw [frameEvents, map_cons, sum_cons, flatMap_cons, length_append, length_frame]
    omega

/-- No frame is too large, and no frame before the last one makes the server close the
connection. -/
def Undisturbed (codec : SocketCodec) (attached : Bool) (ans : Nat → RequestAnswers)
    (number : Nat) (frames : List Bytes) : Prop :=
  ∀ pos message, frames[pos]? = some message → message.length ≤ maxTxSize ∧
    (pos + 1 < frames.length →
      (respond codec attached (ans (number + pos)) message).closes = false)

lemma undisturbed_cons : Undisturbed codec attached ans number (message :: frames) ↔
    message.length ≤ maxTxSize ∧
      (frames ≠ [] → (respond codec attached (ans number) message).closes = false) ∧
      Undisturbed codec attached ans (number + 1) frames := by
  constructor
  · intro undisturbed
    obtain ⟨small, opens⟩ := undisturbed 0 message rfl
    refine ⟨small, fun more => opens ?_, fun pos other got => ?_⟩
    · have positive := length_pos_iff.mpr more
      rw [length_cons]
      omega
    · obtain ⟨otherSmall, otherOpens⟩ := undisturbed (pos + 1) other got
      refine ⟨otherSmall, fun inside => ?_⟩
      have opened := otherOpens (by rw [length_cons]; omega)
      rwa [Nat.add_comm pos, ← Nat.add_assoc] at opened
  · rintro ⟨small, opens, later⟩ pos other got
    cases pos with
    | zero =>
      obtain rfl := Option.some.inj got
      refine ⟨small, fun inside => opens ?_⟩
      rintro rfl
      exact absurd inside (by simp)
    | succ pos =>
      obtain ⟨otherSmall, otherOpens⟩ := later pos other got
      refine ⟨otherSmall, fun inside => ?_⟩
      rw [Nat.add_comm pos, ← Nat.add_assoc]
      exact otherOpens (by rw [length_cons] at inside; omega)

lemma serve_frames_iff (fits : ∀ message ∈ frames, message.length < 2 ^ 32)
    (enough : (frames.flatMap frame).length < fuel) :
    serve codec attached ans fuel number (frames.flatMap frame) =
        (frameEvents codec attached ans number frames, []) ↔
      Undisturbed codec attached ans number frames := by
  induction frames generalizing fuel number with
  | nil =>
    refine iff_of_true ?_ fun pos message got => ?_
    · cases fuel <;> rfl
    · simp at got
  | cons message rest ih =>
    obtain ⟨fuel, rfl⟩ : ∃ less, fuel = less + 1 := ⟨fuel - 1, by omega⟩
    rw [flatMap_cons, length_append, length_frame] at enough
    have own := fits message mem_cons_self
    have later := @ih fuel (number + 1)
      (fun other has => fits other (mem_cons_of_mem _ has)) (by omega)
    rw [flatMap_cons, undisturbed_cons, frameEvents, frameEvent]
    by_cases large : maxTxSize < message.length
    · -- more bytes are left than the events of the other frames account for
      refine iff_of_false (fun same => ?_) fun undisturbed =>
        absurd undisturbed.1 (Nat.not_le_of_lt large)
      rw [serve_frame_of_lt large own, if_pos large] at same
      have events : (serve codec attached ans fuel (number + 1)
          (message ++ rest.flatMap frame)).1 = frameEvents codec attached ans (number + 1)
            rest := (List.cons.inj (congrArg Prod.fst same)).2
      have unread : (serve codec attached ans fuel (number + 1)
          (message ++ rest.flatMap frame)).2 = [] := congrArg Prod.snd same
      have bound := @length_le_of_serve codec attached ans fuel (number + 1)
        (message ++ rest.flatMap frame) (by rw [length_append]; omega)
      have fewer := @sum_size_frameEvents codec attached ans (number + 1) rest
      rw [events, unread, length_append, length_nil] at bound
      unfold maxTxSize at large
      omega
    · have small : message.length ≤ maxTxSize := Nat.le_of_not_lt large
      rw [serve_frame_of_le small, if_neg large, ← later]
      by_cases closes : (respond codec attached (ans number) message).closes = true
      · rw [if_pos closes]
        cases rest with
        | nil =>
          refine iff_of_true rfl ⟨small, fun more => absurd rfl more, ?_⟩
          cases fuel <;> rfl
        | cons next rest =>
          refine iff_of_false (fun same => ?_) fun undisturbed => ?_
          · have unread := congrArg (fun res => res.2.length) same
            simp [length_frame] at unread
          · have opens := undisturbed.2.1 (by simp)
            rw [closes] at opens
            cases opens
      · rw [if_neg closes]
        have opens := Bool.eq_false_of_not_eq_true closes
        constructor
        · intro same
          obtain ⟨events, unread⟩ := Prod.mk.inj same
          exact ⟨small, fun _ => opens, Prod.ext (List.cons.inj events).2 unread⟩
        · rintro ⟨_, _, same⟩
          rw [same]

end Framing

/-- Each frame is one request with one response, in order and independent of the frames before
it, and the whole stream is read, exactly when no frame is too large and no frame before the
last one makes the server close the connection. -/
theorem each_frame_handled_iff (codec : SocketCodec) (attached : Bool)
    (ans : Nat → RequestAnswers) (frames : List Bytes)
    (fits : ∀ message ∈ frames, message.length < 2 ^ 32) :
    handleConnection codec attached ans (frames.flatMap frame) =
        (frameEvents codec attached ans 0 frames, []) ↔
      Undisturbed codec attached ans 0 frames :=
  serve_frames_iff fits (Nat.lt_succ_self _)

/-- A message that is its own only transaction, and hashes that say nothing, for runs on fixed
inputs. -/
def plainCodec : SocketCodec where
  decodeTransactions message := .ok [some message]
  calculateTransactionHashHex _ := "hash"

def acceptsThen (finalCheck : Acceptance) : RequestAnswers :=
  ⟨⟨true, false, ""⟩, finalCheck, .ok ("block", [0])⟩

/-- The first of two requests races with an epoch change: the second frame is never read. A
frame of ten megabytes and one byte is answered, and then its first bytes are a request. -/
theorem refused_frames_disturb :
    handleConnection plainCodec true (fun _ => acceptsThen ⟨false, true, "barrier"⟩)
        ([[1], [2]].flatMap frame) =
      ([.request [1] (.queued [[1]]) (queuedResponse
        "Transaction queued due to barrier race condition: barrier")], frame [2]) ∧
    ∃ later, (handleConnection plainCodec true (fun _ => acceptsThen ⟨true, false, ""⟩)
        (frame (List.replicate (maxTxSize + 1) 0))).1 =
      .tooLarge (maxTxSize + 1) (tooLargeResponse (maxTxSize + 1)) ::
        .request [] (.submitted [[]]) (successResponse "hash" "block" [0] 1) :: later := by
  refine ⟨by decide +kernel, ?_⟩
  generalize message : replicate (maxTxSize + 1) (0 : UInt8) = zeros
  have length : zeros.length = maxTxSize + 1 := by rw [← message, length_replicate]
  have head : zeros = frame [] ++ replicate (maxTxSize - 3) 0 := by
    have header : frame [] = replicate 4 0 := rfl
    have total : maxTxSize + 1 = 4 + (maxTxSize - 3) := by
      unfold maxTxSize
      omega
    rw [← message, header, replicate_append_replicate, ← total]
  have large : maxTxSize < zeros.length := by omega
  have fits : zeros.length < 2 ^ 32 := by
    rw [length]
    unfold maxTxSize
    omega
  rw [handleConnection, ← append_nil (frame zeros), serve_frame_of_lt large fits, length,
    append_nil, append_nil, length_frame, Nat.add_comm 4, length]
  obtain ⟨later, next⟩ : ∃ later, (serve plainCodec true
      (fun _ => acceptsThen ⟨true, false, ""⟩) (maxTxSize + 1 + 3 + 1) (0 + 1) zeros).1 =
        .request [] (.submitted [[]]) (successResponse "hash" "block" [0] 1) :: later := by
    rw [head, serve_frame_of_le (Nat.zero_le _)]
    exact ⟨_, rfl⟩
  exact ⟨later, congrArg (List.cons _) next⟩

theorem each_frame_handled_iff_two :
    handleConnection plainCodec true (fun _ => acceptsThen ⟨true, false, ""⟩)
        ([[1], [2]].flatMap frame) =
      (frameEvents plainCodec true (fun _ => acceptsThen ⟨true, false, ""⟩) 0 [[1], [2]], []) ↔
    Undisturbed plainCodec true (fun _ => acceptsThen ⟨true, false, ""⟩) 0 [[1], [2]] :=
  each_frame_handled_iff plainCodec true _ [[1], [2]] (by decide)

end TransactionSocket

end Mysticeti
