import SepKernel.Lib.BitField

/-!
# Capability words

`api/s3k_cap.h`, which `scripts/cap_gen.py` generates from `gen/cap.yml`: a capability is two
64-bit words, the low byte of the first is its type and every other field is a byte-aligned run
of bits. This file has the version user programs are given, without the asserts;
`SepKernel.GenCap` is the kernel's own copy, with them.
-/

namespace SepKernel

/-- `uint64_t`. -/
abbrev Word := BitVec 64

/-- `struct cap`. -/
structure Cap where
  word0 : Word
  word1 : Word
deriving DecidableEq

/-- `NULL_CAP`: of the empty type. -/
def nullCap : Cap := ⟨0, 0⟩

/-- `enum cap_type`, in the order of `gen/cap.yml`. -/
inductive CapType where
  | empty | memory | pmp | time | channels | receiver | sender | server | client | supervisor
deriving DecidableEq

/-- The value of the enumerator. -/
def CapType.code : CapType → Word
  | .empty => 0
  | .memory => 1
  | .pmp => 2
  | .time => 3
  | .channels => 4
  | .receiver => 5
  | .sender => 6
  | .server => 7
  | .client => 8
  | .supervisor => 9

/-- The tag is the low byte of the first word. No check says that it is the number of a type. -/
def capGetType (cap : Cap) : Word := 0xff &&& cap.word0

/-- Tells one type from the others; the accessors assert it and the predicates branch on it. -/
def capIsType (cap : Cap) (t : CapType) : Bool := capGetType cap == t.code

/-- The lowest page of a NAPOT block: the trailing ones of the address give its size. -/
def pmpNapotBegin (addr : Word) : Word := addr &&& (addr + 1)

/-- Its highest page. The predicates compare it as they do an end of a memory capability, which is
    one behind the last page. -/
def pmpNapotEnd (addr : Word) : Word := addr ||| (addr + 1)

/-! ## Fields

Every accessor the script prints has one shape, so it is written once, over the word, the bit
offset and the size in bytes that the script fills in. -/

/-- A field of `gen/cap.yml` as `binpack` places it. -/
structure Field where
  /-- The field is in `word1` rather than `word0`. -/
  inWord1 : Bool
  offset : Nat
  size : Nat

namespace Field

variable (f : Field)

/-- The script counts the size in bytes. -/
def bits : Nat := 8 * f.size

/-- The word of a capability that holds the field. -/
def word (cap : Cap) : Word := if f.inWord1 then cap.word1 else cap.word0

/-- Overwrites the word that holds the field and leaves the other. -/
def setWord (cap : Cap) (x : Word) : Cap :=
  if f.inWord1 then { cap with word1 := x } else { cap with word0 := x }

/-- A getter: shift, then mask. -/
def get (cap : Cap) : Word := BitField.extract f.offset f.bits (f.word cap)

/-- A setter: the field's bits are cleared and the value is ored in, unmasked. -/
def set (cap : Cap) (v : Word) : Cap :=
  f.setWord cap (BitField.replace f.offset f.bits (f.word cap) v)

/-- The `c.wordN |= f << offset` of a constructor. -/
def put (cap : Cap) (v : Word) : Cap := f.setWord cap (f.word cap ||| (v <<< f.offset))

end Field

/-- Where `binpack` puts each field, by the bins of its type. -/
def memoryBegin : Field := ⟨false, 24, 4⟩
def memoryEnd : Field := ⟨true, 32, 4⟩
def memoryRwx : Field := ⟨false, 16, 1⟩
def memoryFree : Field := ⟨true, 0, 4⟩
def memoryPmp : Field := ⟨false, 8, 1⟩
def pmpAddr : Field := ⟨false, 16, 4⟩
def pmpRwx : Field := ⟨false, 8, 1⟩
def timeHartid : Field := ⟨false, 56, 1⟩
def timeBegin : Field := ⟨false, 40, 2⟩
def timeEnd : Field := ⟨false, 24, 2⟩
def timeFree : Field := ⟨false, 8, 2⟩
def channelsBegin : Field := ⟨false, 40, 2⟩
def channelsEnd : Field := ⟨false, 24, 2⟩
def channelsFree : Field := ⟨false, 8, 2⟩
def receiverChannel : Field := ⟨false, 16, 2⟩
def receiverGrant : Field := ⟨false, 8, 1⟩
def senderChannel : Field := ⟨false, 16, 2⟩
def senderGrant : Field := ⟨false, 8, 1⟩
def serverChannel : Field := ⟨false, 16, 2⟩
def serverGrant : Field := ⟨false, 8, 1⟩
def clientChannel : Field := ⟨false, 16, 2⟩
def clientGrant : Field := ⟨false, 8, 1⟩
def supervisorBegin : Field := ⟨false, 24, 1⟩
def supervisorEnd : Field := ⟨false, 16, 1⟩
def supervisorFree : Field := ⟨false, 8, 1⟩

/-! ### The getters, under the names the script prints -/

/-- The getters, by the names that the script prints. -/
abbrev capMemoryGetBegin := memoryBegin.get
abbrev capMemoryGetEnd := memoryEnd.get
abbrev capMemoryGetRwx := memoryRwx.get
abbrev capMemoryGetFree := memoryFree.get
abbrev capMemoryGetPmp := memoryPmp.get
abbrev capPmpGetAddr := pmpAddr.get
abbrev capPmpGetRwx := pmpRwx.get
abbrev capTimeGetHartid := timeHartid.get
abbrev capTimeGetBegin := timeBegin.get
abbrev capTimeGetEnd := timeEnd.get
abbrev capTimeGetFree := timeFree.get
abbrev capChannelsGetBegin := channelsBegin.get
abbrev capChannelsGetEnd := channelsEnd.get
abbrev capChannelsGetFree := channelsFree.get
abbrev capReceiverGetChannel := receiverChannel.get
abbrev capReceiverGetGrant := receiverGrant.get
abbrev capSenderGetChannel := senderChannel.get
abbrev capSenderGetGrant := senderGrant.get
abbrev capServerGetChannel := serverChannel.get
abbrev capServerGetGrant := serverGrant.get
abbrev capClientGetChannel := clientChannel.get
abbrev capClientGetGrant := clientGrant.get
abbrev capSupervisorGetBegin := supervisorBegin.get
abbrev capSupervisorGetEnd := supervisorEnd.get
abbrev capSupervisorGetFree := supervisorFree.get

/-! ## The constructors -/

/-- The capability of a type with all fields clear, as a constructor starts from. -/
def CapType.blank (t : CapType) : Cap := ⟨t.code, 0⟩

/-- The constructors or the fields in, in the order of the bins. No check says that an argument fits
    its field. -/
def capMkMemory (begin_ end_ rwx free pmp : Word) : Cap :=
  memoryEnd.put (memoryFree.put (memoryBegin.put (memoryRwx.put (memoryPmp.put
    CapType.memory.blank pmp) rwx) begin_) free) end_

def capMkPmp (addr rwx : Word) : Cap := pmpAddr.put (pmpRwx.put CapType.pmp.blank rwx) addr

def capMkTime (hartid begin_ end_ free : Word) : Cap :=
  timeHartid.put (timeBegin.put (timeEnd.put (timeFree.put CapType.time.blank free) end_) begin_)
    hartid

def capMkChannels (begin_ end_ free : Word) : Cap :=
  channelsBegin.put (channelsEnd.put (channelsFree.put CapType.channels.blank free) end_) begin_

def capMkReceiver (channel grant : Word) : Cap :=
  receiverChannel.put (receiverGrant.put CapType.receiver.blank grant) channel

def capMkSender (channel grant : Word) : Cap :=
  senderChannel.put (senderGrant.put CapType.sender.blank grant) channel

def capMkServer (channel grant : Word) : Cap :=
  serverChannel.put (serverGrant.put CapType.server.blank grant) channel

def capMkClient (channel grant : Word) : Cap :=
  clientChannel.put (clientGrant.put CapType.client.blank grant) channel

def capMkSupervisor (begin_ end_ free : Word) : Cap :=
  supervisorBegin.put (supervisorEnd.put (supervisorFree.put CapType.supervisor.blank free) end_)
    begin_

/-! ## The two predicates -/

/-- Whether `c` may stand for a child of `p` to a revocation: within what `p` has handed out, and
    below its `free`. -/
def capIsChild (p c : Cap) : Bool :=
  if capIsType p .memory && capIsType c .memory then
    capMemoryGetBegin p ≤ capMemoryGetBegin c && capMemoryGetEnd c ≤ capMemoryGetFree p &&
      capMemoryGetRwx c &&& capMemoryGetRwx p == capMemoryGetRwx c
  else if capIsType p .memory && capIsType c .pmp then
    capMemoryGetFree p ≤ pmpNapotBegin (capPmpGetAddr c) &&
      pmpNapotEnd (capPmpGetAddr c) ≤ capMemoryGetEnd p && capMemoryGetPmp p == 1 &&
      capPmpGetRwx c &&& capMemoryGetRwx p == capPmpGetRwx c
  else if capIsType p .time && capIsType c .time then
    capTimeGetBegin p ≤ capTimeGetBegin c && capTimeGetEnd c ≤ capTimeGetFree p &&
      capTimeGetHartid p == capTimeGetHartid c
  else if capIsType p .channels && capIsType c .channels then
    capChannelsGetBegin p ≤ capChannelsGetBegin c && capChannelsGetEnd c ≤ capChannelsGetFree p
  else if capIsType p .channels && capIsType c .receiver then
    capChannelsGetBegin p ≤ capReceiverGetChannel c && capReceiverGetChannel c < capChannelsGetFree p
  else if capIsType p .channels && capIsType c .sender then
    capChannelsGetBegin p ≤ capSenderGetChannel c && capSenderGetChannel c < capChannelsGetFree p
  else if capIsType p .channels && capIsType c .server then
    capChannelsGetBegin p ≤ capServerGetChannel c && capServerGetChannel c < capChannelsGetFree p
  else if capIsType p .channels && capIsType c .client then
    capChannelsGetBegin p ≤ capClientGetChannel c && capClientGetChannel c < capChannelsGetFree p
  else if capIsType p .receiver && capIsType c .sender then
    capReceiverGetChannel p == capSenderGetChannel c
  else if capIsType p .server && capIsType c .client then
    capServerGetChannel p == capClientGetChannel c
  else if capIsType p .supervisor && capIsType c .supervisor then
    capSupervisorGetBegin p ≤ capSupervisorGetBegin c &&
      capSupervisorGetEnd c ≤ capSupervisorGetFree p
  else false

/-- Whether a derivation may make `c` from `p`: within what `p` has not handed out yet. -/
def capCanDerive (p c : Cap) : Bool :=
  if capIsType p .memory && capIsType c .memory then
    capMemoryGetPmp p == 0 && capMemoryGetPmp c == 0 &&
      capMemoryGetFree p == capMemoryGetBegin c && capMemoryGetEnd c ≤ capMemoryGetEnd p &&
      capMemoryGetRwx c &&& capMemoryGetRwx p == capMemoryGetRwx c &&
      capMemoryGetFree c == capMemoryGetBegin c && capMemoryGetBegin c < capMemoryGetEnd c
  else if capIsType p .memory && capIsType c .pmp then
    capMemoryGetFree p ≤ pmpNapotBegin (capPmpGetAddr c) &&
      pmpNapotEnd (capPmpGetAddr c) ≤ capMemoryGetEnd p &&
      capPmpGetRwx c &&& capMemoryGetRwx p == capPmpGetRwx c
  else if capIsType p .time && capIsType c .time then
    capTimeGetFree p == capTimeGetBegin c && capTimeGetEnd c ≤ capTimeGetEnd p &&
      capTimeGetHartid p == capTimeGetHartid c && capTimeGetFree c == capTimeGetBegin c &&
      capTimeGetBegin c < capTimeGetEnd c
  else if capIsType p .channels && capIsType c .channels then
    capChannelsGetFree p == capChannelsGetBegin c && capChannelsGetEnd c ≤ capChannelsGetEnd p &&
      capChannelsGetFree c == capChannelsGetBegin c && capChannelsGetBegin c < capChannelsGetEnd c
  else if capIsType p .channels && capIsType c .receiver then
    capChannelsGetFree p == capReceiverGetChannel c &&
      capReceiverGetChannel c < capChannelsGetEnd p &&
      (capReceiverGetGrant c == 0 || capReceiverGetGrant c == 1)
  else if capIsType p .receiver && capIsType c .sender then
    capReceiverGetChannel p == capSenderGetChannel c && capReceiverGetGrant p == capSenderGetGrant c
  else if capIsType p .channels && capIsType c .server then
    capChannelsGetFree p == capServerGetChannel c && capServerGetChannel c < capChannelsGetEnd p &&
      (capServerGetGrant c == 0 || capServerGetGrant c == 1)
  else if capIsType p .server && capIsType c .client then
    capServerGetChannel p == capClientGetChannel c && capServerGetGrant p == capClientGetGrant c
  else if capIsType p .supervisor && capIsType c .supervisor then
    capSupervisorGetFree p ≤ capSupervisorGetBegin c &&
      capSupervisorGetEnd c ≤ capSupervisorGetEnd p &&
      capSupervisorGetFree c == capSupervisorGetBegin c &&
      capSupervisorGetBegin c < capSupervisorGetEnd c
  else false

end SepKernel
