import SepKernel.Cap

/-!
# Capabilities inside the kernel

`inc/gen/cap.h`: the functions of `SepKernel.Cap` with the asserts `make_assert` prints into
them. A failing assert prints a line and hangs the hart, so a function with asserts returns
`Except Halt`. The two files do not differ in anything else, which `Gen.capIsChild_eq` and
`Gen.capCanDerive_eq` at the end make a theorem of for the predicates.
-/

namespace SepKernel

/-- Why a hart stops inside the kernel. Nothing catches these: a function that halts has no result
    and leaves no state. -/
inductive Halt where
  /-- A `kassert` found its argument false. -/
  | assertion
  /-- A null pointer was followed or a table was indexed past its end. -/
  | badAccess
  /-- The model gave up on a loop, after `Config.loopFuel` rounds. -/
  | outOfFuel
deriving DecidableEq

/-- Where the value is false the hart stops: `hang` does not return. -/
def kassert (val : Bool) : Except Halt Unit := if val then .ok () else .error .assertion

@[simp] theorem kassert_true : kassert true = .ok () := rfl
@[simp] theorem kassert_false : kassert false = .error .assertion := rfl

namespace Field

variable (f : Field)

/-- `make_getter`: the assert on the type, and the field. -/
def checkedGet (t : CapType) (cap : Cap) : Except Halt Word := do
  kassert (capIsType cap t)
  return f.get cap

/-- `({name} & 0xff..) == {name}`, the assert on a value that is to go into a field. -/
def checkFits (v : Word) : Except Halt Unit := kassert (decide (BitField.Fits f.bits v))

/-- `make_setter`: the asserts on the type and on the value, and then the field, the others kept. -/
def checkedSet (t : CapType) (cap : Cap) (v : Word) : Except Halt Cap := do
  kassert (capIsType cap t)
  f.checkFits v
  return f.set cap v

theorem checkedGet_eq {f : Field} {t : CapType} {cap : Cap} (h : capIsType cap t = true) :
    f.checkedGet t cap = .ok (f.get cap) := by
  rw [checkedGet, h]
  rfl

theorem checkedSet_eq {f : Field} {t : CapType} {cap : Cap} {v : Word}
    (h : capIsType cap t = true) (hv : BitField.Fits f.bits v) :
    f.checkedSet t cap v = .ok (f.set cap v) := by
  rw [checkedSet, h, checkFits, decide_eq_true hv]
  rfl

end Field

namespace Gen

/-- The getters that the kernel calls, each of its type. -/
abbrev capMemoryGetBegin := memoryBegin.checkedGet .memory
abbrev capMemoryGetEnd := memoryEnd.checkedGet .memory
abbrev capMemoryGetRwx := memoryRwx.checkedGet .memory
abbrev capMemoryGetFree := memoryFree.checkedGet .memory
abbrev capMemoryGetPmp := memoryPmp.checkedGet .memory
abbrev capPmpGetAddr := pmpAddr.checkedGet .pmp
abbrev capPmpGetRwx := pmpRwx.checkedGet .pmp
abbrev capTimeGetHartid := timeHartid.checkedGet .time
abbrev capTimeGetBegin := timeBegin.checkedGet .time
abbrev capTimeGetEnd := timeEnd.checkedGet .time
abbrev capTimeGetFree := timeFree.checkedGet .time
abbrev capChannelsGetBegin := channelsBegin.checkedGet .channels
abbrev capChannelsGetEnd := channelsEnd.checkedGet .channels
abbrev capChannelsGetFree := channelsFree.checkedGet .channels
abbrev capReceiverGetChannel := receiverChannel.checkedGet .receiver
abbrev capReceiverGetGrant := receiverGrant.checkedGet .receiver
abbrev capSenderGetChannel := senderChannel.checkedGet .sender
abbrev capSenderGetGrant := senderGrant.checkedGet .sender
abbrev capServerGetChannel := serverChannel.checkedGet .server
abbrev capServerGetGrant := serverGrant.checkedGet .server
abbrev capClientGetChannel := clientChannel.checkedGet .client
abbrev capClientGetGrant := clientGrant.checkedGet .client
abbrev capSupervisorGetBegin := supervisorBegin.checkedGet .supervisor
abbrev capSupervisorGetEnd := supervisorEnd.checkedGet .supervisor
abbrev capSupervisorGetFree := supervisorFree.checkedGet .supervisor

/-- And the setters. -/
abbrev capMemorySetFree := memoryFree.checkedSet .memory
abbrev capMemorySetPmp := memoryPmp.checkedSet .memory
abbrev capTimeSetFree := timeFree.checkedSet .time
abbrev capChannelsSetFree := channelsFree.checkedSet .channels
abbrev capSupervisorSetFree := supervisorFree.checkedSet .supervisor

/-! ## Constructors

The width asserts come first, in the order of `gen/cap.yml`, then the asserts listed there. -/

/-- `rwx == 0x4 || rwx == 0x5 || rwx == 0x6 || rwx == 0x7`. -/
def rwxOk (rwx : Word) : Bool := rwx == 0x4 || rwx == 0x5 || rwx == 0x6 || rwx == 0x7

/-- As printed: first the widths, in the order of the fields, then the asserts of `gen/cap.yml`,
    then the words. -/
def capMkMemory (begin_ end_ rwx free pmp : Word) : Except Halt Cap := do
  memoryBegin.checkFits begin_
  memoryEnd.checkFits end_
  memoryRwx.checkFits rwx
  memoryFree.checkFits free
  memoryPmp.checkFits pmp
  kassert (begin_ == free)
  kassert (begin_ < end_)
  kassert (pmp == 0)
  kassert (rwxOk rwx)
  return SepKernel.capMkMemory begin_ end_ rwx free pmp

/-- The address is not checked to be a block's within the memory that it is derived from;
    `cap_can_derive` does. -/
def capMkPmp (addr rwx : Word) : Except Halt Cap := do
  pmpAddr.checkFits addr
  pmpRwx.checkFits rwx
  kassert (rwxOk rwx)
  return SepKernel.capMkPmp addr rwx

/-- The bounds on the hart and the quanta are the configuration's. -/
def capMkTime (minHartid maxHartid nQuantum : Nat) (hartid begin_ end_ free : Word) :
    Except Halt Cap := do
  timeHartid.checkFits hartid
  timeBegin.checkFits begin_
  timeEnd.checkFits end_
  timeFree.checkFits free
  kassert (minHartid ≤ hartid.toNat)
  kassert (hartid.toNat ≤ maxHartid)
  kassert (begin_ == free)
  kassert (begin_ < end_)
  kassert (end_.toNat ≤ nQuantum)
  return SepKernel.capMkTime hartid begin_ end_ free

/-- Nothing has been derived from a new capability: `free` is `begin`. -/
def capMkChannels (nChannels : Nat) (begin_ end_ free : Word) : Except Halt Cap := do
  channelsBegin.checkFits begin_
  channelsEnd.checkFits end_
  channelsFree.checkFits free
  kassert (begin_ == free)
  kassert (begin_ < end_)
  kassert (end_.toNat ≤ nChannels)
  return SepKernel.capMkChannels begin_ end_ free

/-- The four endpoint constructors differ in nothing but the two fields and the tag. -/
def capMkEndpoint (channelField grantField : Field) (mk : Word → Word → Cap) (nChannels : Nat)
    (channel grant : Word) : Except Halt Cap := do
  channelField.checkFits channel
  grantField.checkFits grant
  kassert (channel.toNat < nChannels)
  return mk channel grant

/-- The four ends of a channel differ only in their type. -/
def capMkReceiver := capMkEndpoint receiverChannel receiverGrant SepKernel.capMkReceiver
def capMkSender := capMkEndpoint senderChannel senderGrant SepKernel.capMkSender
def capMkServer := capMkEndpoint serverChannel serverGrant SepKernel.capMkServer
def capMkClient := capMkEndpoint clientChannel clientGrant SepKernel.capMkClient

/-- The range is one of processes. -/
def capMkSupervisor (nProc : Nat) (begin_ end_ free : Word) : Except Halt Cap := do
  supervisorBegin.checkFits begin_
  supervisorEnd.checkFits end_
  supervisorFree.checkFits free
  kassert (begin_ == free)
  kassert (begin_ < end_)
  kassert (end_.toNat ≤ nProc)
  return SepKernel.capMkSupervisor begin_ end_ free

/-! ## Predicates

Each `if` has just tested both tags, so no getter inside it fails its assert and it makes no
difference that the model evaluates all of a line's getters before its `&&`. -/

/-- The predicate with the kernel's accessors, which assert the type that the case has tested. -/
def capIsChild (p c : Cap) : Except Halt Bool := do
  if capIsType p .memory && capIsType c .memory then
    return (← capMemoryGetBegin p) ≤ (← capMemoryGetBegin c) &&
      (← capMemoryGetEnd c) ≤ (← capMemoryGetFree p) &&
      (← capMemoryGetRwx c) &&& (← capMemoryGetRwx p) == (← capMemoryGetRwx c)
  if capIsType p .memory && capIsType c .pmp then
    return (← capMemoryGetFree p) ≤ pmpNapotBegin (← capPmpGetAddr c) &&
      pmpNapotEnd (← capPmpGetAddr c) ≤ (← capMemoryGetEnd p) && (← capMemoryGetPmp p) == 1 &&
      (← capPmpGetRwx c) &&& (← capMemoryGetRwx p) == (← capPmpGetRwx c)
  if capIsType p .time && capIsType c .time then
    return (← capTimeGetBegin p) ≤ (← capTimeGetBegin c) &&
      (← capTimeGetEnd c) ≤ (← capTimeGetFree p) &&
      (← capTimeGetHartid p) == (← capTimeGetHartid c)
  if capIsType p .channels && capIsType c .channels then
    return (← capChannelsGetBegin p) ≤ (← capChannelsGetBegin c) &&
      (← capChannelsGetEnd c) ≤ (← capChannelsGetFree p)
  if capIsType p .channels && capIsType c .receiver then
    return (← capChannelsGetBegin p) ≤ (← capReceiverGetChannel c) &&
      (← capReceiverGetChannel c) < (← capChannelsGetFree p)
  if capIsType p .channels && capIsType c .sender then
    return (← capChannelsGetBegin p) ≤ (← capSenderGetChannel c) &&
      (← capSenderGetChannel c) < (← capChannelsGetFree p)
  if capIsType p .channels && capIsType c .server then
    return (← capChannelsGetBegin p) ≤ (← capServerGetChannel c) &&
      (← capServerGetChannel c) < (← capChannelsGetFree p)
  if capIsType p .channels && capIsType c .client then
    return (← capChannelsGetBegin p) ≤ (← capClientGetChannel c) &&
      (← capClientGetChannel c) < (← capChannelsGetFree p)
  if capIsType p .receiver && capIsType c .sender then
    return (← capReceiverGetChannel p) == (← capSenderGetChannel c)
  if capIsType p .server && capIsType c .client then
    return (← capServerGetChannel p) == (← capClientGetChannel c)
  if capIsType p .supervisor && capIsType c .supervisor then
    return (← capSupervisorGetBegin p) ≤ (← capSupervisorGetBegin c) &&
      (← capSupervisorGetEnd c) ≤ (← capSupervisorGetFree p)
  return false

/-- The same for derivations. What it compares is only read where the types fit. -/
def capCanDerive (p c : Cap) : Except Halt Bool := do
  if capIsType p .memory && capIsType c .memory then
    return (← capMemoryGetPmp p) == 0 && (← capMemoryGetPmp c) == 0 &&
      (← capMemoryGetFree p) == (← capMemoryGetBegin c) &&
      (← capMemoryGetEnd c) ≤ (← capMemoryGetEnd p) &&
      (← capMemoryGetRwx c) &&& (← capMemoryGetRwx p) == (← capMemoryGetRwx c) &&
      (← capMemoryGetFree c) == (← capMemoryGetBegin c) &&
      (← capMemoryGetBegin c) < (← capMemoryGetEnd c)
  if capIsType p .memory && capIsType c .pmp then
    return (← capMemoryGetFree p) ≤ pmpNapotBegin (← capPmpGetAddr c) &&
      pmpNapotEnd (← capPmpGetAddr c) ≤ (← capMemoryGetEnd p) &&
      (← capPmpGetRwx c) &&& (← capMemoryGetRwx p) == (← capPmpGetRwx c)
  if capIsType p .time && capIsType c .time then
    return (← capTimeGetFree p) == (← capTimeGetBegin c) &&
      (← capTimeGetEnd c) ≤ (← capTimeGetEnd p) &&
      (← capTimeGetHartid p) == (← capTimeGetHartid c) &&
      (← capTimeGetFree c) == (← capTimeGetBegin c) &&
      (← capTimeGetBegin c) < (← capTimeGetEnd c)
  if capIsType p .channels && capIsType c .channels then
    return (← capChannelsGetFree p) == (← capChannelsGetBegin c) &&
      (← capChannelsGetEnd c) ≤ (← capChannelsGetEnd p) &&
      (← capChannelsGetFree c) == (← capChannelsGetBegin c) &&
      (← capChannelsGetBegin c) < (← capChannelsGetEnd c)
  if capIsType p .channels && capIsType c .receiver then
    return (← capChannelsGetFree p) == (← capReceiverGetChannel c) &&
      (← capReceiverGetChannel c) < (← capChannelsGetEnd p) &&
      ((← capReceiverGetGrant c) == 0 || (← capReceiverGetGrant c) == 1)
  if capIsType p .receiver && capIsType c .sender then
    return (← capReceiverGetChannel p) == (← capSenderGetChannel c) &&
      (← capReceiverGetGrant p) == (← capSenderGetGrant c)
  if capIsType p .channels && capIsType c .server then
    return (← capChannelsGetFree p) == (← capServerGetChannel c) &&
      (← capServerGetChannel c) < (← capChannelsGetEnd p) &&
      ((← capServerGetGrant c) == 0 || (← capServerGetGrant c) == 1)
  if capIsType p .server && capIsType c .client then
    return (← capServerGetChannel p) == (← capClientGetChannel c) &&
      (← capServerGetGrant p) == (← capClientGetGrant c)
  if capIsType p .supervisor && capIsType c .supervisor then
    return (← capSupervisorGetFree p) ≤ (← capSupervisorGetBegin c) &&
      (← capSupervisorGetEnd c) ≤ (← capSupervisorGetEnd p) &&
      (← capSupervisorGetFree c) == (← capSupervisorGetBegin c) &&
      (← capSupervisorGetBegin c) < (← capSupervisorGetEnd c)
  return false

/-! ### No assert of the predicates can fail -/

theorem ok_ite {α : Type} {b : Bool} {x y : Except Halt α} {v w : α} (hx : b = true → x = .ok v)
    (hy : y = .ok w) : (if b = true then x else y) = .ok (if b = true then v else w) := by
  cases b with
  | true => exact hx rfl
  | false => exact hy

theorem types_of_and {p c : Cap} {s t : CapType} (h : (capIsType p s && capIsType c t) = true) :
    capIsType p s = true ∧ capIsType c t = true := by simpa using h

theorem capIsChild_eq (p c : Cap) : capIsChild p c = .ok (SepKernel.capIsChild p c) := by
  unfold capIsChild SepKernel.capIsChild
  repeat' refine ok_ite (fun h => ?_) ?_
  -- one goal for each pair of types, and the final `return false`
  all_goals first
    | rfl
    | obtain ⟨hp, hc⟩ := types_of_and h
      simp only [Field.checkedGet_eq hp, Field.checkedGet_eq hc]
      rfl

theorem capCanDerive_eq (p c : Cap) : capCanDerive p c = .ok (SepKernel.capCanDerive p c) := by
  unfold capCanDerive SepKernel.capCanDerive
  repeat' refine ok_ite (fun h => ?_) ?_
  all_goals first
    | rfl
    | obtain ⟨hp, hc⟩ := types_of_and h
      simp only [Field.checkedGet_eq hp, Field.checkedGet_eq hc]
      rfl

end Gen
end SepKernel
