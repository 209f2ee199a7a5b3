import Mysticeti.Lib.Machine
import Mysticeti.ValidatorCommittee

/-!
# Requests to the executor and their answers

A client keeps one connection for its requests. A request is written with its length before
it, and the answer is read the same way: four bytes of length, then as many bytes. The
connection is locked from the writing of a request to the end of the reading, so that one call
reads at a time. A call that runs out of time, or refuses an answer for its length, leaves the
connection as it is: the next call goes on reading where the last one stopped.

The executor answers the requests of a connection once each and in their order, at any time.
Bytes may be read in portions of any size, which stands for their arrival; a call may give up
between any two of them. Requests are numbered in the order in which they are written, and the
answers are remembered by those numbers.
-/

namespace Mysticeti

open List Option Lib.Machine

inductive ResponsePayload where
  | validatorList (validators : List ValidatorInfo)
  | validatorInfoList (validators : List ValidatorInfo) (epochTimestampMs : BlockTimestampMs)
      (lastExec : Nat)
  | serverStatus (statusMessage : String) (uptimeSeconds : Nat)
  | error (message : String)
  | lastBlockNumberResponse (lastBlockNumber : Nat)
  | getCurrentEpochResponse (epoch : Epoch)
  | getEpochStartTimestampResponse (timestampMs : BlockTimestampMs)
  | advanceEpochResponse (newEpoch : Epoch) (epochStartTimestampMs : BlockTimestampMs)
deriving DecidableEq, Repr

abbrev GoResponse := Option ResponsePayload

structure ResponseCodec where
  decode : Bytes → Option GoResponse

inductive GoRequest where
  | sendRequest (encoded : Bytes)
  | getValidatorsAtBlock (blockNumber : Nat)
  | getLastBlockNumber
deriving DecidableEq, Repr

/-- What a call returns when it returns no error. -/
inductive GoValue where
  | response (response : GoResponse)
  | validators (validators : List ValidatorInfo) (epochTimestampMs : BlockTimestampMs)
  | lastBlockNumber (number : Nat)
deriving DecidableEq, Repr

namespace GoRequest

def refuses : GoRequest → Nat → Bool
  | sendRequest _, _ => false
  | getValidatorsAtBlock _, length => 10000000 < length
  | getLastBlockNumber, length => 10000000 < length

/-- What a call makes of a response. -/
def value : GoRequest → GoResponse → Option GoValue
  | sendRequest _, response => some (.response response)
  | getValidatorsAtBlock _, some (.validatorInfoList validators epochTimestampMs _) =>
    some (.validators validators epochTimestampMs)
  | getLastBlockNumber, some (.lastBlockNumberResponse number) => some (.lastBlockNumber number)
  | _, _ => none

def derive (codec : ResponseCodec) (request : GoRequest) (answer : Bytes) : Option GoValue :=
  (codec.decode answer).bind request.value

end GoRequest

def lengthBytes (length : Nat) : Bytes :=
  [UInt8.ofNat (length / 2 ^ 24), UInt8.ofNat (length / 2 ^ 16), UInt8.ofNat (length / 2 ^ 8),
    UInt8.ofNat length]

def readLength (bytes : Bytes) : Nat := bytes.foldl (fun value byte => 256 * value + byte.toNat) 0

/-- A message with its length before it. -/
def frame (message : Bytes) : Bytes := lengthBytes message.length ++ message

lemma readLength_lengthBytes {length : Nat} (fits : length < 2 ^ 32) :
    readLength (lengthBytes length) = length := by
  simp only [readLength, lengthBytes, foldl_cons, foldl_nil, UInt8.toNat_ofNat']
  omega

inductive ReadPhase where
  | header (got : Bytes)
  | body (length : Nat) (got : Bytes)
deriving DecidableEq, Repr

/-- The bytes that are still to be read in this phase. -/
def ReadPhase.needed : ReadPhase → Nat
  | header got => 4 - got.length
  | body length got => length - got.length

structure RequestCall where
  number : Nat
  request : GoRequest
  phase : ReadPhase
deriving DecidableEq, Repr

/-- After some bytes a call waits for more, or returns a value or an error. -/
inductive ReadResult where
  | waits (call : RequestCall)
  | returns (value : Option GoValue)
deriving DecidableEq, Repr

/-- A call reads bytes, at most those that are needed. -/
def RequestCall.take (codec : ResponseCodec) (call : RequestCall) (bytes : Bytes) : ReadResult :=
  match call.phase with
  | .header got =>
    let read := got ++ bytes
    if read.length < 4 then .waits { call with phase := .header read }
    else if readLength read = 0 then .returns none
    else if call.request.refuses (readLength read) then .returns none
    else .waits { call with phase := .body (readLength read) [] }
  | .body length got =>
    let read := got ++ bytes
    if read.length < length then .waits { call with phase := .body length read }
    else .returns (call.request.derive codec read)

/-- A connection, seen from the client: the requests that are not answered yet, and the bytes
of answers that are not read yet. -/
structure RequestConnection where
  owed : List Nat
  unread : Bytes
  broken : Bool
deriving DecidableEq, Repr

def RequestConnection.new : RequestConnection := ⟨[], [], false⟩

structure RequestClient where
  enabled : Bool
  connection : Option RequestConnection
  /-- The calls between `connect_request` and the writing of their request. -/
  connected : Nat
  underway : Option RequestCall
  requested : List GoRequest
  answered : List (Nat × Bytes)
  returned : List (Nat × GoValue)

/-- A call connects, and finds its connection alive or replaces it if it can; a call writes its
request; the executor answers; a call reads bytes or gives up. -/
inductive RequestAction where
  | connect (alive reconnects : Bool)
  | write (request : GoRequest) (succeeds : Bool)
  | answer (message : Bytes)
  | read (count : Nat)
  | giveUp
deriving DecidableEq, Repr

namespace RequestClient

def new (enabled : Bool) : RequestClient := ⟨enabled, none, 0, none, [], [], []⟩

variable (client : RequestClient) (codec : ResponseCodec)

def connectRequest (alive reconnects : Bool) : Option RequestClient :=
  if client.enabled && client.underway.isNone then
    if client.connection.isSome && alive then
      some { client with connected := client.connected + 1 }
    else if reconnects then
      some { client with connection := some .new, connected := client.connected + 1 }
    else some { client with connection := none }
  else none

def write (request : GoRequest) (succeeds : Bool) : Option RequestClient :=
  if client.underway.isNone ∧ 0 < client.connected then
    match client.connection with
    | none => some { client with connected := client.connected - 1 }
    | some connection =>
      if succeeds && !connection.broken then
        some { client with
          connection := some { connection with
            owed := connection.owed ++ [client.requested.length] }
          connected := client.connected - 1
          underway := some ⟨client.requested.length, request, .header []⟩
          requested := client.requested ++ [request] }
      else
        some { client with
          connection := some { connection with broken := true }
          connected := client.connected - 1 }
  else none

def answer (message : Bytes) : Option RequestClient :=
  match client.connection with
  | none => none
  | some connection =>
    match connection.owed with
    | [] => none
    | number :: rest =>
      if message.length < 2 ^ 32 then
        some { client with
          connection := some { connection with
            owed := rest
            unread := connection.unread ++ frame message }
          answered := client.answered ++ [(number, message)] }
      else none

def read (client : RequestClient) (count : Nat) : Option RequestClient :=
  match client.connection, client.underway with
  | some connection, some call =>
    if 0 < count ∧ count ≤ call.phase.needed ∧ count ≤ connection.unread.length then
      let rest := { connection with unread := connection.unread.drop count }
      match call.take codec (connection.unread.take count) with
      | .waits call => some { client with connection := some rest, underway := some call }
      | .returns value =>
        some { client with
          connection := some rest
          underway := none
          returned := client.returned ++ (value.map fun value => (call.number, value)).toList }
    else none
  | _, _ => none

/-- The call that is underway runs out of time or cannot read. -/
def giveUp : Option RequestClient :=
  if client.underway.isSome then some { client with underway := none } else none

def step (client : RequestClient) : RequestAction → Option RequestClient
  | .connect alive reconnects => client.connectRequest alive reconnects
  | .write request succeeds => client.write request succeeds
  | .answer message => client.answer message
  | .read count => client.read codec count
  | .giveUp => client.giveUp

/-- Every value that was returned is derived from the answer to its request. -/
def Paired (client : RequestClient) : Prop :=
  ∀ entry ∈ client.returned, ∃ request answer, client.requested[entry.1]? = some request ∧
    client.answered.lookup entry.1 = some answer ∧ request.derive codec answer = some entry.2

/-- A request is written only when all earlier requests of the connection are answered and
their answers read to the end. -/
def Drained : RequestAction → Prop
  | .write _ _ => ∀ connection ∈ client.connection, connection.owed = [] ∧ connection.unread = []
  | _ => True

instance (client : RequestClient) (act : RequestAction) : Decidable (client.Drained act) :=
  match act with
  | .write _ _ => inferInstanceAs (Decidable (∀ connection ∈ client.connection,
      connection.owed = [] ∧ connection.unread = []))
  | .connect _ _ => inferInstanceAs (Decidable True)
  | .answer _ => inferInstanceAs (Decidable True)
  | .read _ => inferInstanceAs (Decidable True)
  | .giveUp => inferInstanceAs (Decidable True)

end RequestClient

/-- What was read and what is unread together is this answer, with its length as long as that
is being read. -/
def ReadPhase.Within (answer unread : Bytes) : ReadPhase → Prop
  | .header got => got.length < 4 ∧ got ++ unread = frame answer
  | .body length got => got.length < length ∧ length = answer.length ∧ got ++ unread = answer

/-- The call and its connection are at the answer to its request: it is outstanding and
nothing is unread, or it is being read. -/
def RequestCall.InStep (call : RequestCall) (connection : RequestConnection)
    (answered : List (Nat × Bytes)) : Prop :=
  (connection.owed = [call.number] ∧ connection.unread = [] ∧ call.phase = .header [] ∧
    answered.lookup call.number = none) ∨
  (connection.owed = [] ∧ ∃ answer, answered.lookup call.number = some answer ∧
    answer.length < 2 ^ 32 ∧ call.phase.Within answer connection.unread)

section Reading

variable {codec : ResponseCodec} {call : RequestCall} {answer unread : Bytes} {count : Nat}

/-- A call that is within its answer stays there as long as it waits, and what it returns is
derived from that answer. -/
lemma RequestCall.take_spec (fits : answer.length < 2 ^ 32)
    (within : call.phase.Within answer unread) (needed : count ≤ call.phase.needed) :
    (∀ next, call.take codec (unread.take count) = .waits next →
      next.number = call.number ∧ next.request = call.request ∧
        next.phase.Within answer (unread.drop count)) ∧
    (∀ value, call.take codec (unread.take count) = .returns (some value) →
      call.request.derive codec answer = some value) := by
  unfold take
  cases reading : call.phase with
  | header got =>
    rw [reading] at within needed
    obtain ⟨short, whole⟩ := within
    have split : got ++ unread.take count ++ unread.drop count = frame answer := by
      rw [append_assoc, take_append_drop, whole]
    have atMost : (got ++ unread.take count).length ≤ 4 := by
      simp only [ReadPhase.needed] at needed
      simp only [length_append, length_take]
      omega
    dsimp only
    generalize got ++ unread.take count = read at split atMost ⊢
    by_cases partially : read.length < 4
    · rw [if_pos partially]
      refine ⟨fun next waits => ?_, fun value returns => nomatch returns⟩
      obtain rfl := ReadResult.waits.inj waits
      exact ⟨rfl, rfl, partially, split⟩
    · -- The four bytes are the length of the answer, and the rest is the answer.
      have four : read.length = (lengthBytes answer.length).length := by
        simp only [lengthBytes, length_cons, length_nil]
        omega
      obtain ⟨header, body⟩ := append_inj split four
      rw [if_neg partially, header, readLength_lengthBytes fits]
      by_cases empty : answer.length = 0
      · simp [empty]
      · rw [if_neg empty]
        by_cases refused : call.request.refuses answer.length = true
        · simp [refused]
        · rw [if_neg refused]
          refine ⟨fun next waits => ?_, fun value returns => nomatch returns⟩
          obtain rfl := ReadResult.waits.inj waits
          exact ⟨rfl, rfl, Nat.pos_of_ne_zero empty, rfl, body⟩
  | body length got =>
    rw [reading] at within needed
    obtain ⟨short, rfl, whole⟩ := within
    have split : got ++ unread.take count ++ unread.drop count = answer := by
      rw [append_assoc, take_append_drop, whole]
    have atMost : (got ++ unread.take count).length ≤ answer.length := by
      simp only [ReadPhase.needed] at needed
      simp only [length_append, length_take]
      omega
    dsimp only
    generalize got ++ unread.take count = read at split atMost ⊢
    by_cases partially : read.length < answer.length
    · rw [if_pos partially]
      refine ⟨fun next waits => ?_, fun value returns => nomatch returns⟩
      obtain rfl := ReadResult.waits.inj waits
      exact ⟨rfl, rfl, partially, rfl, split⟩
    · have complete : read = answer := by
        have none : unread.drop count = [] := by
          apply eq_nil_of_length_eq_zero
          have lengths := congrArg List.length split
          rw [length_append] at lengths
          omega
        rw [none, append_nil] at split
        exact split
      rw [if_neg partially, complete]
      exact ⟨fun next waits => (nomatch waits), fun value returns => ReadResult.returns.inj returns⟩

end Reading

namespace RequestClient

/-- What holds in every state of a run that drains its connection before each request. -/
structure Matched (codec : ResponseCodec) (client : RequestClient) : Prop where
  numbered : ∀ number answer, client.answered.lookup number = some answer →
    number < client.requested.length
  outstanding : ∀ connection ∈ client.connection, connection.owed.length ≤ 1 ∧
    ∀ number ∈ connection.owed, number < client.requested.length ∧
      client.answered.lookup number = none
  current : ∀ call ∈ client.underway, client.requested[call.number]? = some call.request ∧
    ∃ connection ∈ client.connection, call.InStep connection client.answered
  paired : Paired codec client

section Steps

variable {codec : ResponseCodec} {client next : RequestClient} {act : RequestAction}

lemma lookup_append_of_some {answered : List (Nat × Bytes)} {number other : Nat}
    {answer message : Bytes} (got : answered.lookup number = some answer) :
    (answered ++ [(other, message)]).lookup number = some answer := by
  rw [lookup_append, got, some_or]

lemma lookup_append_of_ne {answered : List (Nat × Bytes)} {number other : Nat} {message : Bytes}
    (ne : number ≠ other) :
    (answered ++ [(other, message)]).lookup number = answered.lookup number := by
  have apart : (number == other) = false := by simpa using ne
  simp [lookup_append, lookup_cons, apart]

lemma Matched.connectRequest (matched : Matched codec client) {alive reconnects : Bool}
    (connected : client.connectRequest alive reconnects = some next) : Matched codec next := by
  unfold RequestClient.connectRequest at connected
  rw [ite_none_right_eq_some, Bool.and_eq_true, isNone_iff_eq_none] at connected
  obtain ⟨⟨_, idle⟩, connected⟩ := connected
  have none : ∀ call ∈ client.underway, False := by simp [idle]
  split at connected
  · obtain rfl := some.inj connected
    exact ⟨matched.numbered, matched.outstanding, matched.current, matched.paired⟩
  · split at connected
    · obtain rfl := some.inj connected
      refine ⟨matched.numbered, ?_, fun call mem => (none call mem).elim, matched.paired⟩
      rintro connection ⟨rfl⟩
      exact ⟨Nat.zero_le _, fun number mem => nomatch mem⟩
    · obtain rfl := some.inj connected
      exact ⟨matched.numbered, fun connection mem => (nomatch mem),
        fun call mem => (none call mem).elim, matched.paired⟩

lemma Matched.lookup_fresh (matched : Matched codec client) :
    client.answered.lookup client.requested.length = none := by
  cases got : client.answered.lookup client.requested.length with
  | none => rfl
  | some answer => exact absurd (matched.numbered _ answer got) (Nat.lt_irrefl _)

lemma Paired.request (paired : Paired codec client) (request : GoRequest) :
    ∀ entry ∈ client.returned, ∃ prev answer,
      (client.requested ++ [request])[entry.1]? = some prev ∧
      client.answered.lookup entry.1 = some answer ∧
      prev.derive codec answer = some entry.2 := by
  intro entry mem
  obtain ⟨prev, answer, asked, got, derived⟩ := paired entry mem
  exact ⟨prev, answer, getElem?_append_left (List.getElem?_eq_some_iff.mp asked).1 ▸ asked,
    got, derived⟩

variable (matched : Matched codec client)

include matched

lemma Matched.write {request : GoRequest} {succeeds : Bool}
    (drained : client.Drained (.write request succeeds))
    (written : client.write request succeeds = some next) : Matched codec next := by
  unfold RequestClient.write at written
  rw [ite_none_right_eq_some] at written
  obtain ⟨_, written⟩ := written
  split at written
  case h_1 noConnection =>
    obtain rfl := some.inj written
    exact ⟨matched.numbered, matched.outstanding, matched.current, matched.paired⟩
  case h_2 connection got =>
    obtain ⟨noneOwed, noneUnread⟩ := drained connection got
    split at written
    · obtain rfl := some.inj written
      refine ⟨?_, ?_, ?_, Paired.request matched.paired request⟩
      · intro number answer got
        rw [length_append, length_singleton]
        exact Nat.lt_succ_of_lt (matched.numbered number answer got)
      · rintro _ ⟨rfl⟩
        rw [noneOwed]
        refine ⟨Nat.le_refl 1, fun number mem => ?_⟩
        obtain rfl := mem_singleton.mp mem
        rw [length_append, length_singleton]
        exact ⟨Nat.lt_succ_self _, matched.lookup_fresh⟩
      · rintro _ ⟨rfl⟩
        refine ⟨getElem?_concat_length, _, rfl, .inl ?_⟩
        rw [noneOwed]
        exact ⟨rfl, noneUnread, rfl, matched.lookup_fresh⟩
    · obtain rfl := some.inj written
      refine ⟨matched.numbered, ?_, ?_, matched.paired⟩
      · rintro _ ⟨rfl⟩
        exact matched.outstanding connection got
      · intro call mem
        obtain ⟨asked, other, otherFound, inStep⟩ := matched.current call mem
        obtain rfl := some.inj (got.symm.trans otherFound)
        exact ⟨asked, _, rfl, inStep⟩

lemma Matched.answer {message : Bytes} (answered : client.answer message = some next) :
    Matched codec next := by
  unfold RequestClient.answer at answered
  split at answered
  case h_1 => cases answered
  case h_2 connection got =>
    split at answered
    case h_1 => cases answered
    case h_2 number rest owed =>
      rw [ite_none_right_eq_some] at answered
      obtain ⟨fits, answered⟩ := answered
      obtain rfl := some.inj answered
      obtain ⟨one, known⟩ := matched.outstanding connection got
      obtain ⟨asked, unanswered⟩ := known number (by simp [owed])
      obtain rfl : rest = [] := by
        rw [owed, length_cons] at one
        exact eq_nil_of_length_eq_zero (by omega)
      refine ⟨?_, ?_, ?_, ?_⟩
      · intro other answer has
        by_cases same : other = number
        · rw [same]
          exact asked
        · rw [lookup_append_of_ne same] at has
          exact matched.numbered other answer has
      · rintro _ ⟨rfl⟩
        exact ⟨Nat.zero_le _, fun other mem => nomatch mem⟩
      · intro call mem
        obtain ⟨requested, other, otherFound, inStep⟩ := matched.current call mem
        obtain rfl := some.inj (got.symm.trans otherFound)
        refine ⟨requested, _, rfl, .inr ⟨rfl, message, ?_⟩⟩
        obtain ⟨own, empty, start, _⟩ | ⟨none, _⟩ := inStep
        · obtain rfl : number = call.number := by simpa [owed] using own
          refine ⟨?_, fits, ?_⟩
          · rw [lookup_append, unanswered, none_or]
            simp
          · rw [start, empty]
            exact ⟨by simp, rfl⟩
        · rw [owed] at none
          cases none
      · intro entry mem
        obtain ⟨request, answer, requested, has, derived⟩ := matched.paired entry mem
        exact ⟨request, answer, requested, lookup_append_of_some has, derived⟩

lemma Matched.read {count : Nat} (read : client.read codec count = some next) :
    Matched codec next := by
  unfold RequestClient.read at read
  split at read
  case h_2 => cases read
  case h_1 connection call got underway =>
    rw [ite_none_right_eq_some] at read
    obtain ⟨⟨pos, needed, available⟩, read⟩ := read
    obtain ⟨asked, other, otherFound, inStep⟩ := matched.current call underway
    obtain rfl := some.inj (got.symm.trans otherFound)
    obtain ⟨_, empty, _⟩ | ⟨noneOwed, answer, has, fits, within⟩ := inStep
    · rw [empty, length_nil] at available
      omega
    · obtain ⟨waits, returns⟩ := @RequestCall.take_spec codec _ _ _ _ fits within needed
      have stillOutstanding : ∀ post ∈ some { connection with
          unread := connection.unread.drop count }, post.owed.length ≤ 1 ∧
          ∀ number ∈ post.owed, number < client.requested.length ∧
            client.answered.lookup number = none := by
        rintro _ ⟨rfl⟩
        exact matched.outstanding connection got
      split at read
      case h_1 post waited =>
        obtain rfl := some.inj read
        obtain ⟨sameNumber, sameRequest, stillWithin⟩ := waits post waited
        refine ⟨matched.numbered, stillOutstanding, ?_, matched.paired⟩
        rintro _ ⟨rfl⟩
        unfold RequestCall.InStep
        rw [sameNumber, sameRequest]
        exact ⟨asked, _, rfl, .inr ⟨noneOwed, answer, has, fits, stillWithin⟩⟩
      case h_2 value ret =>
        obtain rfl := some.inj read
        refine ⟨matched.numbered, stillOutstanding, fun call mem => (nomatch mem), ?_⟩
        intro entry mem
        obtain pre | added := mem_append.mp mem
        · exact matched.paired entry pre
        · rw [mem_toList, map_eq_some_iff] at added
          obtain ⟨returnedValue, rfl, rfl⟩ := added
          exact ⟨call.request, answer, asked, has, returns returnedValue ret⟩

lemma Matched.step (drained : client.Drained act)
    (taken : client.step codec act = some next) : Matched codec next := by
  cases act with
  | connect alive reconnects => exact matched.connectRequest taken
  | write request succeeds => exact matched.write drained taken
  | answer message => exact matched.answer taken
  | read count => exact matched.read taken
  | giveUp =>
    rw [RequestClient.step, RequestClient.giveUp, ite_none_right_eq_some] at taken
    obtain ⟨_, gaveUp⟩ := taken
    obtain rfl := some.inj gaveUp
    exact ⟨matched.numbered, matched.outstanding, fun call mem => (nomatch mem), matched.paired⟩

end Steps

lemma matched_new (codec : ResponseCodec) (enabled : Bool) : Matched codec (new enabled) where
  numbered _ _ got := nomatch got
  outstanding _ mem := nomatch mem
  current _ mem := nomatch mem
  paired _ mem := nomatch mem

/-- In every run in which a request is written only when all earlier answers of the connection
are read, every value is derived from the answer to its own request. -/
theorem answers_are_paired (codec : ResponseCodec) (enabled : Bool)
    (sched : List RequestAction) (final : RequestClient)
    (drained : Heeds (step codec) Drained (new enabled) sched)
    (ran : run (step codec) (new enabled) sched = some final) : Paired codec final := by
  have matched : Matched codec final :=
    invariant (fun _ _ _ matched drained taken => matched.step drained taken)
      (matched_new codec enabled) drained ran
  exact matched.paired

end RequestClient

def ResponseCodec.blockNumbers : ResponseCodec where
  decode
    | [byte] => some (some (.lastBlockNumberResponse byte.toNat))
    | _ => none

namespace RequestClient

/-- A call for the last block number runs out of time; a second call, on a connection that it
finds alive or else replaces, is made after the first is answered with this block number. -/
def timeoutThenCall (alive : Bool) : List RequestAction :=
  [.connect false true, .write .getLastBlockNumber true, .giveUp, .answer [5],
    .connect alive true, .write .getLastBlockNumber true, .answer [7], .read 3, .read 1, .read 1]

theorem paired_on_new_connection : ∃ final,
    run (step .blockNumbers) (new true) (timeoutThenCall false) = some final ∧
    final.returned = [(1, .lastBlockNumber 7)] ∧ Paired .blockNumbers final := by
  have observed : ∃ final,
      run (step .blockNumbers) (new true) (timeoutThenCall false) = some final ∧
      final.returned = [(1, .lastBlockNumber 7)] :=
    exists_reached (by decide +kernel)
  obtain ⟨final, ran, ret⟩ := observed
  exact ⟨final, ran, ret, answers_are_paired .blockNumbers true _ final
    (heeds_of_checks (fun _ _ => of_decide_eq_true) (by decide +kernel)) ran⟩

/-- The second call returns the answer to the first one. -/
theorem late_answer_is_taken : ∃ final,
    run (step .blockNumbers) (new true) (timeoutThenCall true) = some final ∧
    final.answered = [(0, [5]), (1, [7])] ∧ final.returned = [(1, .lastBlockNumber 5)] :=
  exists_reached (by decide +kernel)

end RequestClient

end Mysticeti
