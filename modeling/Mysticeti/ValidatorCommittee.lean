import Mysticeti.Committee

/-!
# Committees from the validators of the executor

The executor reports validators as records of texts. A node that starts reads them in the
order in which they come and sorts the authorities by their addresses; a node that goes on to
a new epoch sorts the records by the texts of their addresses and reads them afterwards. Both
number the authorities by their place, so that two nodes that came into an epoch in different
ways agree on the numbers only if the two orders agree.

The texts are read by library functions, the parameters `ValidatorCodec`. A key is the bytes
it is read from.
-/

namespace Mysticeti

open List Option Lib.Outcome

structure ValidatorInfo where
  address : String
  stake : String
  authorityKey : String
  protocolKey : String
  networkKey : String
  name : String
deriving DecidableEq, Repr, Inhabited

inductive KeyField where
  | authorityKey
  | protocolKey
  | networkKey
deriving DecidableEq, Repr

namespace KeyField

/-- The bytes of a public key: BLS12-381 for the authority, Ed25519 for the others. -/
def length : KeyField → Nat
  | authorityKey => 96
  | protocolKey => 32
  | networkKey => 32

def text : KeyField → ValidatorInfo → String
  | authorityKey => ValidatorInfo.authorityKey
  | protocolKey => ValidatorInfo.protocolKey
  | networkKey => ValidatorInfo.networkKey

end KeyField

/-- The library functions that read the texts of a validator. Base64 is padded, so that three
bytes take four characters. -/
structure ValidatorCodec where
  stake : String → Option Stake
  nodeNumber : String → Option Nat
  multiaddr : String → Option Multiaddr
  base64 : String → Option Bytes
  base64_length : ∀ text bytes, base64 text = some bytes →
    text.length = 4 * ((bytes.length + 2) / 3)
  hex : String → Option Bytes
  hex_length : ∀ text bytes, hex text = some bytes → text.length = 2 * bytes.length
  isKey : KeyField → Bytes → Bool
  isKey_length : ∀ field bytes, isKey field bytes = true → bytes.length = field.length

inductive ValidatorError where
  | invalidStake (text : String)
  | invalidAddress (text : String)
  | invalidName (text : String)
  | undecodedKey (field : KeyField) (text : String)
  | invalidKey (field : KeyField) (length : Nat)
deriving DecidableEq, Repr

def beginsWith (head text : String) : Bool := head.toList.isPrefixOf text.toList

namespace ValidatorCodec

variable (codec : ValidatorCodec)

def startupKey (field : KeyField) (validator : ValidatorInfo) : Except ValidatorError Bytes := do
  let bytes ← expect (codec.base64 (field.text validator))
    (.undecodedKey field (field.text validator))
  ensure (codec.isKey field bytes) (.invalidKey field bytes.length)
  pure bytes

variable (validator : ValidatorInfo)

def startupAddress : Except ValidatorError Multiaddr :=
  if beginsWith "/ip4/" validator.address then
    expect (codec.multiaddr validator.address) (.invalidAddress validator.address)
  else do
    let number ← expect (codec.nodeNumber validator.name) (.invalidName validator.name)
    let port := 9000 + number
    let text := s!"/ip4/127.0.0.1/tcp/{port}"
    expect (codec.multiaddr text) (.invalidAddress text)

def startupAuthority : Except ValidatorError Authority := do
  let authorityKey ← codec.startupKey .authorityKey validator
  let protocolKey ← codec.startupKey .protocolKey validator
  let networkKey ← codec.startupKey .networkKey validator
  let address ← codec.startupAddress validator
  let stake ← expect (codec.stake validator.stake) (.invalidStake validator.stake)
  pure { stake, address, hostname := validator.name, authorityKey, protocolKey, networkKey }

/-- The authorities of the committee `new_with_registry_and_service` builds: sorted by address
after they are read. A variable of the environment leaves only the validator of node 0. -/
def startupAuthorities (singleNodeDebug : Bool) (validators : List ValidatorInfo) :
    Except ValidatorError (List Authority) := do
  let validatorsToUse := if singleNodeDebug then
    validators.filter fun validator => validator.name == "node-0" else validators
  let auths ← validatorsToUse.mapM codec.startupAuthority
  pure (auths.insertionSort fun left right => left.address ≤ right.address)

def decodeKeyText (text : String) : Option Bytes :=
  if beginsWith "0x" text then codec.hex (String.ofList (text.toList.drop 2))
  else (codec.base64 text).or (codec.hex text)

def listedKey (field : KeyField) (validator : ValidatorInfo) : Except ValidatorError Bytes := do
  let bytes ← expect (codec.decodeKeyText (field.text validator))
    (.undecodedKey field (field.text validator))
  ensure (codec.isKey field bytes) (.invalidKey field bytes.length)
  pure bytes

/-- A validator without a name is called by its place. -/
def listedHostname (place : Nat) (validator : ValidatorInfo) : String :=
  if validator.name = "" then s!"node-{place}" else validator.name

def listedAuthority (place : Nat) (validator : ValidatorInfo) :
    Except ValidatorError Authority := do
  let stake ← expect (codec.stake validator.stake) (.invalidStake validator.stake)
  let address ← expect (codec.multiaddr validator.address) (.invalidAddress validator.address)
  let authorityKey ← codec.listedKey .authorityKey validator
  let protocolKey ← codec.listedKey .protocolKey validator
  let networkKey ← codec.listedKey .networkKey validator
  pure { stake, address, hostname := listedHostname place validator, authorityKey, protocolKey,
         networkKey }

abbrev TextOrder (left right : ValidatorInfo) : Prop := left.address.toList ≤ right.address.toList

/-- The authorities `build_committee_from_validator_list` builds: read after the validators
are sorted by the texts of their addresses. -/
def listedAuthorities (validators : List ValidatorInfo) : Except ValidatorError (List Authority) :=
  (validators.insertionSort TextOrder).zipIdx.mapM fun entry =>
    codec.listedAuthority entry.2 entry.1

def encoding : Multiaddr := (codec.multiaddr validator.address).getD []

section Reading

variable {codec} {field : KeyField} {validator : ValidatorInfo} {place : Nat}
  {started here : Authority}

lemma listedKey_eq_startupKey {first second : Bytes}
    (startup : codec.startupKey field validator = .ok first)
    (transition : codec.listedKey field validator = .ok second) : first = second := by
  simp only [startupKey, expect_bind_eq_ok, ensure_bind_eq_ok, pure_ok, Except.ok.injEq]
    at startup
  simp only [listedKey, expect_bind_eq_ok, ensure_bind_eq_ok, pure_ok, Except.ok.injEq]
    at transition
  obtain ⟨_, decoded, firstKey, rfl⟩ := startup
  obtain ⟨_, decodedAgain, secondKey, rfl⟩ := transition
  unfold decodeKeyText at decodedAgain
  split at decodedAgain
  · have firstLength := codec.base64_length _ _ decoded
    have secondLength := codec.hex_length _ _ decodedAgain
    rw [codec.isKey_length _ _ firstKey, ← String.length_toList] at firstLength
    rw [codec.isKey_length _ _ secondKey, String.length_ofList, length_drop]
      at secondLength
    cases field <;> simp only [KeyField.length] at firstLength secondLength <;> omega
  · rw [decoded, some_or] at decodedAgain
    exact some.inj decodedAgain

lemma startupAuthority_reads (ip4 : beginsWith "/ip4/" validator.address = true)
    (startup : codec.startupAuthority validator = .ok started) :
    started.address = codec.encoding validator ∧ started.hostname = validator.name := by
  simp only [startupAuthority, startupAddress, ip4, if_true, bind_eq_ok, expect_eq_ok, pure_ok,
    Except.ok.injEq] at startup
  obtain ⟨_, _, _, _, _, _, _, got, _, _, rfl⟩ := startup
  exact ⟨by rw [encoding, got, getD_some], rfl⟩

lemma listedAuthority_eq (ip4 : beginsWith "/ip4/" validator.address = true)
    (startup : codec.startupAuthority validator = .ok started)
    (transition : codec.listedAuthority place validator = .ok here) :
    here = { started with hostname := listedHostname place validator } := by
  simp only [startupAuthority, startupAddress, ip4, if_true, bind_eq_ok, expect_eq_ok, pure_ok,
    Except.ok.injEq] at startup
  simp only [listedAuthority, bind_eq_ok, expect_eq_ok, pure_ok, Except.ok.injEq] at transition
  obtain ⟨_, auth, _, protocol, _, network, _, got, _, staked, rfl⟩ := startup
  obtain ⟨_, stakedAgain, _, foundAgain, _, authorityAgain, _, protocolAgain, _, networkAgain,
    rfl⟩ := transition
  obtain rfl := listedKey_eq_startupKey auth authorityAgain
  obtain rfl := listedKey_eq_startupKey protocol protocolAgain
  obtain rfl := listedKey_eq_startupKey network networkAgain
  obtain rfl := some.inj (got.symm.trans foundAgain)
  obtain rfl := some.inj (staked.symm.trans stakedAgain)
  rfl

lemma listedHostname_ne (unnamed : validator.name = "") :
    listedHostname place validator ≠ validator.name := by
  intro same
  rw [listedHostname, if_pos unnamed, unnamed] at same
  have lengths := congrArg String.length same
  simp at lengths

end Reading

section Order

variable {codec} {validators : List ValidatorInfo} {startup transition : List Authority}

instance : Std.Total (fun left right : Authority => left.address ≤ right.address) :=
  ⟨fun left right => List.le_total left.address right.address⟩

instance : IsTrans Authority (fun left right => left.address ≤ right.address) :=
  ⟨fun _ _ _ pre post => List.le_trans pre post⟩

instance : Std.Total TextOrder :=
  ⟨fun left right => le_total left.address.toList right.address.toList⟩

instance : IsTrans ValidatorInfo TextOrder := ⟨fun _ _ _ pre post => le_trans pre post⟩

/-- Validators whose addresses are ordered as their texts are. -/
def OrdersAgree (codec : ValidatorCodec) (validators : List ValidatorInfo) : Prop :=
  ∀ left ∈ validators, ∀ right ∈ validators,
    TextOrder left right → codec.encoding left ≤ codec.encoding right
deriving Decidable

lemma ordersAgree_of_sorted
    (sorted : (validators.insertionSort TextOrder).Pairwise fun left right =>
      codec.encoding left ≤ codec.encoding right) : codec.OrdersAgree validators := by
  have both : (validators.insertionSort TextOrder).Pairwise fun left right =>
      (TextOrder left right → codec.encoding left ≤ codec.encoding right) ∧
      (TextOrder right left → codec.encoding right ≤ codec.encoding left) := by
    refine (sorted.and (pairwise_insertionSort TextOrder validators)).imp ?_
    rintro left right ⟨ordered, textOrdered⟩
    refine ⟨fun _ => ordered, fun reversed => ?_⟩
    have sameText : left.address = right.address :=
      String.toList_injective (le_antisymm textOrdered reversed)
    simp only [encoding, sameText, List.le_refl]
  have symmetric : Std.Symm fun left right : ValidatorInfo =>
      (TextOrder left right → codec.encoding left ≤ codec.encoding right) ∧
      (TextOrder right left → codec.encoding right ≤ codec.encoding left) :=
    ⟨fun _ _ ordered => ordered.symm⟩
  intro left leftMember right rightMember textOrdered
  have permuted := perm_insertionSort TextOrder validators
  by_cases same : left = right
  · rw [same]
    exact List.le_refl _
  · exact (both.forall (permuted.mem_iff.mpr leftMember) (permuted.mem_iff.mpr rightMember)
      same).1 textOrdered

lemma built_eq (ip4 : ∀ validator ∈ validators, beginsWith "/ip4/" validator.address = true)
    (started : codec.startupAuthorities false validators = .ok startup)
    (here : codec.listedAuthorities validators = .ok transition) :
    ∃ reading : ValidatorInfo → Authority,
      (∀ validator ∈ validators, (reading validator).address = codec.encoding validator ∧
        (reading validator).hostname = validator.name) ∧
      startup = (validators.map reading).insertionSort
        (fun left right => left.address ≤ right.address) ∧
      transition = (validators.insertionSort TextOrder).zipIdx.map fun entry =>
        { reading entry.1 with hostname := listedHostname entry.2 entry.1 } := by
  simp only [startupAuthorities, Bool.false_eq_true, if_false, bind_eq_ok, pure_ok,
    Except.ok.injEq] at started
  obtain ⟨_, read, rfl⟩ := started
  obtain ⟨reading, reads, rfl⟩ := mapM_values read
  obtain ⟨listing, lists, rfl⟩ := mapM_values here
  refine ⟨reading, fun validator mem =>
    startupAuthority_reads (ip4 validator mem) (reads validator mem), rfl, ?_⟩
  refine map_congr_left fun entry mem => ?_
  have has : entry.1 ∈ validators :=
    (perm_insertionSort TextOrder validators).mem_iff.mp (fst_mem_of_mem_zipIdx mem)
  exact listedAuthority_eq (ip4 _ has) (reads _ has) (lists entry mem)

/-- Validators read in the order of the texts give what startup builds exactly when each has a
name and the orders agree. -/
lemma all_order_agrees_iff
    (ip4 : ∀ validator ∈ validators, beginsWith "/ip4/" validator.address = true)
    (nodup : (validators.map codec.encoding).Nodup)
    (started : codec.startupAuthorities false validators = .ok startup)
    (here : codec.listedAuthorities validators = .ok transition) :
    startup = transition ↔
      (∀ validator ∈ validators, validator.name ≠ "") ∧ codec.OrdersAgree validators := by
  obtain ⟨reading, reads, rfl, rfl⟩ := built_eq ip4 started here
  have permuted := perm_insertionSort TextOrder validators
  have injective : ∀ left ∈ validators, ∀ right ∈ validators,
      codec.encoding left = codec.encoding right → left = right :=
    inj_on_of_nodup_map nodup
  constructor
  · intro same
    refine ⟨fun validator mem unnamed => ?_, ordersAgree_of_sorted ?_⟩
    · -- An unnamed validator is called by its place in a transition, and not at startup.
      obtain ⟨place, placed⟩ := mem_iff_getElem?.mp (permuted.mem_iff.mpr mem)
      have built : { reading validator with hostname := listedHostname place validator } ∈
          (validators.map reading).insertionSort
            fun left right => left.address ≤ right.address := by
        rw [same]
        exact List.mem_map.mpr ⟨(validator, place), mk_mem_zipIdx_iff_getElem?.mpr placed, rfl⟩
      rw [(perm_insertionSort _ _).mem_iff, List.mem_map] at built
      obtain ⟨other, otherMember, equal⟩ := built
      obtain rfl := injective other otherMember validator mem (by
        rw [← (reads other otherMember).1, ← (reads validator mem).1, equal])
      apply listedHostname_ne unnamed
      rw [← (reads other mem).2, equal]
    · -- The authorities are sorted by address, and so are the validators they are read from.
      have sorted := pairwise_insertionSort
        (fun left right : Authority => left.address ≤ right.address) (validators.map reading)
      rw [same, pairwise_map] at sorted
      rw [← zipIdx_map_fst 0 (validators.insertionSort TextOrder), pairwise_map]
      refine sorted.imp_of_mem fun {left right} leftMember rightMember ordered => ?_
      have has : ∀ entry ∈ (validators.insertionSort TextOrder).zipIdx,
          entry.1 ∈ validators := fun entry mem =>
        permuted.mem_iff.mp (fst_mem_of_mem_zipIdx mem)
      rw [← (reads left.1 (has left leftMember)).1,
        ← (reads right.1 (has right rightMember)).1]
      exact ordered
  · rintro ⟨named, agree⟩
    have sameNames : ((validators.insertionSort TextOrder).zipIdx.map fun entry =>
        { reading entry.1 with hostname := listedHostname entry.2 entry.1 }) =
        (validators.insertionSort TextOrder).map reading := by
      conv_rhs => rw [← zipIdx_map_fst 0 (validators.insertionSort TextOrder), List.map_map]
      refine map_congr_left fun entry mem => ?_
      have has := permuted.mem_iff.mp (fst_mem_of_mem_zipIdx mem)
      rw [listedHostname, if_neg (named entry.1 has), ← (reads entry.1 has).2]
      rfl
    rw [sameNames]
    refine List.Perm.eq_of_pairwise ?_ (pairwise_insertionSort _ _) ?_
      ((perm_insertionSort _ _).trans (permuted.map reading).symm)
    · intro left right leftMember rightMember pre post
      rw [(perm_insertionSort _ _).mem_iff, List.mem_map] at leftMember
      rw [List.mem_map] at rightMember
      obtain ⟨first, firstMember, rfl⟩ := leftMember
      obtain ⟨second, secondMember, rfl⟩ := rightMember
      rw [permuted.mem_iff] at secondMember
      rw [injective first firstMember second secondMember (by
        rw [← (reads first firstMember).1, ← (reads second secondMember).1]
        exact List.le_antisymm pre post)]
    · rw [pairwise_map]
      refine (pairwise_insertionSort TextOrder validators).imp_of_mem
        fun {left right} leftMember rightMember ordered => ?_
      rw [permuted.mem_iff] at leftMember rightMember
      rw [(reads left leftMember).1, (reads right rightMember).1]
      exact agree left leftMember right rightMember ordered

lemma startupAuthorities_of_all (all : ∀ validator ∈ validators, validator.name = "node-0") :
    codec.startupAuthorities true validators = codec.startupAuthorities false validators := by
  have kept : (validators.filter fun validator => validator.name == "node-0") = validators :=
    filter_eq_self.mpr fun validator mem => by simp [all validator mem]
  simp only [startupAuthorities, if_true, kept, Bool.false_eq_true, if_false]

lemma startup_length (started : codec.startupAuthorities true validators = .ok startup) :
    startup.length = (validators.filter fun validator => validator.name == "node-0").length := by
  simp only [startupAuthorities, if_true, bind_eq_ok, pure_ok, Except.ok.injEq] at started
  obtain ⟨read, mapped, rfl⟩ := started
  rw [length_insertionSort, (mapM_eq_ok.mp mapped).length_eq]

lemma listed_length (here : codec.listedAuthorities validators = .ok transition) :
    transition.length = validators.length := by
  rw [← (mapM_eq_ok.mp here).length_eq, length_zipIdx, length_insertionSort]

/-- For validators with readable keys and different addresses, a node that starts and a node
that goes on to the next epoch put the authorities in one order and give them one name each
exactly when every validator has a name and the texts of the addresses are ordered as the
addresses are. -/
theorem startup_order_agrees_iff {singleNodeDebug : Bool}
    (ip4 : ∀ validator ∈ validators, beginsWith "/ip4/" validator.address = true)
    (nodup : (validators.map codec.encoding).Nodup)
    (started : codec.startupAuthorities singleNodeDebug validators = .ok startup)
    (here : codec.listedAuthorities validators = .ok transition) :
    startup = transition ↔
      (singleNodeDebug = true → ∀ validator ∈ validators, validator.name = "node-0") ∧
      (∀ validator ∈ validators, validator.name ≠ "") ∧ codec.OrdersAgree validators := by
  cases singleNodeDebug with
  | false =>
    rw [all_order_agrees_iff ip4 nodup started here]
    simp
  | true =>
    have ofAll : (∀ validator ∈ validators, validator.name = "node-0") →
        (startup = transition ↔
          (∀ validator ∈ validators, validator.name ≠ "") ∧ codec.OrdersAgree validators) :=
      fun all => all_order_agrees_iff ip4 nodup (startupAuthorities_of_all all ▸ started) here
    constructor
    · intro same
      have kept : (validators.filter fun validator => validator.name == "node-0") = validators := by
        apply filter_sublist.eq_of_length
        rw [← startup_length started, same, listed_length here]
      have all : ∀ validator ∈ validators, validator.name = "node-0" := fun validator mem => by
        simpa using filter_eq_self.mp kept validator mem
      exact ⟨fun _ => all, (ofAll all).mp same⟩
    · rintro ⟨all, agree⟩
      exact (ofAll (all rfl)).mpr agree

end Order

def decimal (text : List Char) : Option Nat :=
  if text ≠ [] ∧ text.all Char.isDigit then
    some (text.foldl (fun val digit => 10 * val + (digit.toNat - 48)) 0)
  else none

/-- TCP over IPv4 is encoded as protocol 4 with the four bytes of the host and protocol 6 with
the two bytes of the port. -/
def tcpMultiaddr (text : String) : Option Multiaddr :=
  match text.toList.splitOn '/' with
  | [[], ['i', 'p', '4'], host, ['t', 'c', 'p'], port] => do
    let octets ← (host.splitOn '.').mapM decimal
    let number ← decimal port
    if octets.length = 4 ∧ octets.all (· < 256) ∧ number < 65536 then
      some (4 :: octets.map UInt8.ofNat ++ [6, UInt8.ofNat (number / 256), UInt8.ofNat number])
    else none
  | _ => none

def ofTcp : ValidatorCodec where
  stake text := decimal text.toList
  nodeNumber text := decimal text.toList
  multiaddr := tcpMultiaddr
  base64 text :=
    let byte := UInt8.ofNat (text.toList.headD 'A').toNat
    if text.length = 128 then some (List.replicate 96 byte)
    else if text.length = 44 then some (List.replicate 32 byte) else none
  base64_length text bytes decoded := by
    dsimp only at decoded
    split at decoded
    case isTrue length =>
      obtain rfl := Option.some.inj decoded
      simp [length]
    case isFalse =>
      rw [Option.ite_none_right_eq_some] at decoded
      obtain ⟨length, decoded⟩ := decoded
      obtain rfl := Option.some.inj decoded
      simp [length]
  hex _ := none
  hex_length _ _ decoded := nomatch decoded
  isKey field bytes := bytes.length = field.length
  isKey_length _ _ := of_decide_eq_true

end ValidatorCodec

def ValidatorInfo.onPort (port : Nat) (name : String) (key : Char) : ValidatorInfo where
  address := s!"/ip4/127.0.0.1/tcp/{port}"
  stake := "1"
  authorityKey := String.ofList (List.replicate 128 key)
  protocolKey := String.ofList (List.replicate 44 key)
  networkKey := String.ofList (List.replicate 44 key)
  name := name

namespace ValidatorCodec

def consecutivePorts : List ValidatorInfo := [.onPort 9001 "node-1" 'b', .onPort 9000 "node-0" 'a']

def portsOfTwoLengths : List ValidatorInfo :=
  [.onPort 9000 "node-0" 'a', .onPort 10000 "node-1" 'b']

theorem startup_order_agrees_consecutive_ports :
    ∃ startup transition, ofTcp.startupAuthorities false consecutivePorts = .ok startup ∧
      ofTcp.listedAuthorities consecutivePorts = .ok transition ∧ startup = transition := by
  have startupReturns : (ofTcp.startupAuthorities false consecutivePorts).isOk = true := by
    decide +kernel
  have listReturns : (ofTcp.listedAuthorities consecutivePorts).isOk = true := by decide +kernel
  obtain ⟨startup, started⟩ := exists_of_isOk startupReturns
  obtain ⟨transition, here⟩ := exists_of_isOk listReturns
  exact ⟨startup, transition, started, here,
    (startup_order_agrees_iff (by decide +kernel) (by decide +kernel) started here).mpr
      (by decide +kernel)⟩

/-- Port 10000 comes before port 9000 as a text and after it as a number: the two validators
change their places. -/
theorem port_digits_swap_authorities :
    (∀ validator ∈ portsOfTwoLengths, beginsWith "/ip4/" validator.address = true) ∧
    (portsOfTwoLengths.map ofTcp.encoding).Nodup ∧
    (ofTcp.startupAuthorities false portsOfTwoLengths).toOption.map
      (List.map Authority.hostname) = some ["node-0", "node-1"] ∧
    (ofTcp.listedAuthorities portsOfTwoLengths).toOption.map
      (List.map Authority.hostname) = some ["node-1", "node-0"] := by
  decide +kernel

end ValidatorCodec

end Mysticeti
