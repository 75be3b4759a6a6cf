import AgxOpen.Types

/-!
# The wire format of the protocol core

The constants of `agx/rtkit.h` and `agx/power.h`, and the messages that
`rtkit.c` builds and decodes.
-/
namespace AgxOpen.Rtkit
open BitFields

def epMgmt : U32 := 0#32
def epCrashlog : U32 := 1#32
def epSyslog : U32 := 2#32
def epDebug : U32 := 3#32
def epIoreport : U32 := 4#32
def epOslog : U32 := 8#32
def epAppStart : U32 := 0x20#32
def epFirmware : U32 := 0x20#32
def epDoorbell : U32 := 0x21#32
def epCount : U32 := 256#32

def mgmtHello : U32 := 1#32
def mgmtHelloReply : U32 := 2#32
def mgmtStartep : U32 := 5#32
def mgmtIopPwr : U32 := 6#32
def mgmtIopPwrAck : U32 := 7#32
def mgmtEpmap : U32 := 8#32
def mgmtEpmapReply : U32 := 8#32
def mgmtApPwr : U32 := 0xb#32
def mgmtApPwrAck : U32 := 0xb#32

def typeShift : ℕ := 52
def typeMask : U64 := 0xff#64
def oslogTypeShift : ℕ := 56

def helloMinverShift : ℕ := 0
def helloMaxverShift : ℕ := 16
def helloVerMask : U64 := 0xffff#64

def epmapLast : U64 := bit64 51
def epmapMore : U64 := bit64 0
def epmapBaseShift : ℕ := 32
def epmapBaseMask : U64 := 0x7#64
def epmapBitmapMask : U64 := 0xffffffff#64

def startepEpShift : ℕ := 32
def startepEpMask : U64 := 0xff#64
def startepFlag : U64 := bit64 1

def pwrStateMask : U64 := 0xffff#64

def protoMin : U32 := 11#32
def protoMax : U32 := 12#32

def bufferRequest : U32 := 1#32
def syslogLog : U32 := 5#32
def syslogInit : U32 := 8#32
def ioreportAckA : U32 := 0x8#32
def ioreportAckB : U32 := 0xc#32
def crashlogCrash : U32 := 1#32

def bufreqSizeShift : ℕ := 44
def bufreqSizeMask : U64 := 0xff#64
def bufreqIovaMask : U64 := 0xfffffffffff#64
def oslogSizeShift : ℕ := 36
def oslogSizeMask : U64 := 0xfffff#64
def oslogIovaMask : U64 := 0xfffffffff#64
def pageShift : ℕ := 12

def bufferCrashlog : U32 := 1#32
def bufferSyslog : U32 := 2#32
def bufferIoreport : U32 := 4#32
def bufferOslog : U32 := 8#32

def pwrOff : U32 := 0x000#32
def pwrSleep : U32 := 0x001#32
def pwrQuiesced : U32 := 0x010#32
def pwrOn : U32 := 0x020#32
def pwrInit : U32 := 0x220#32
def pwrLevelMask : U32 := 0xff#32

/-- `AGX_FIELD_PUT` of a 32-bit value. -/
def put (value : U32) (shift : ℕ) (mask : U64) : U64 := fieldPut (value.setWidth 64) shift mask

/-- `AGX_FIELD_GET` cut to 32 bits. -/
def get (message : U64) (shift : ℕ) (mask : U64) : U32 := (fieldGet message shift mask).setWidth 32

def mgmtMsg (type : U32) (payload : U64) : U64 :=
  payload &&& ~~~(typeMask <<< typeShift) ||| put type typeShift typeMask

def iopPowerMsg (state : U32) : U64 := mgmtMsg mgmtIopPwr (put state 0 pwrStateMask)

def apPowerMsg (state : U32) : U64 := mgmtMsg mgmtApPwr (put state 0 pwrStateMask)

def startepMsg (endpoint : U32) : U64 :=
  mgmtMsg mgmtStartep (put endpoint startepEpShift startepEpMask ||| startepFlag)

def helloReplyMsg (version : U32) : U64 :=
  mgmtMsg mgmtHelloReply
    (put version helloMinverShift helloVerMask ||| put version helloMaxverShift helloVerMask)

def epmapReplyMsg (base : U32) (last : Bool) : U64 :=
  mgmtMsg mgmtEpmapReply
    (put base epmapBaseShift epmapBaseMask ||| if last then epmapLast else epmapMore)

def msgType (message : U64) : U32 := get message typeShift typeMask

def oslogType (message : U64) : U32 := get message oslogTypeShift typeMask

def powerState (message : U64) : U32 := get message 0 pwrStateMask

/-- The level of a power state is on. -/
def levelOn (state : U32) : Bool := state &&& pwrLevelMask == pwrOn

def helloMin (message : U64) : U32 := get message helloMinverShift helloVerMask

def helloMax (message : U64) : U32 := get message helloMaxverShift helloVerMask

def epmapBase (message : U64) : U32 := get message epmapBaseShift epmapBaseMask

def epmapBitmap (message : U64) : U32 := get message 0 epmapBitmapMask

def epmapIsLast (message : U64) : Bool := message &&& epmapLast != 0#64

def startepEndpoint (message : U64) : U32 := get message startepEpShift startepEpMask

/-- Bit `n` of a word of the endpoint map. -/
def bitSet (word : U32) (n : ℕ) : Bool := word >>> n &&& 1#32 != 0#32

/-- The map message announces the endpoint. -/
def covers (message : U64) (endpoint : U32) : Bool :=
  epmapBase message == endpoint / 32#32 &&
    bitSet (epmapBitmap message) (endpoint % 32#32).toNat

theorem getElem_typeMask (i : ℕ) (hi : i < 64) : typeMask[i] = decide (i < 8) :=
  getElem_mask 8 i hi

theorem getLsbD_typeMask (i : ℕ) : typeMask.getLsbD i = decide (i < 8) := by
  rw [show typeMask = mask 64 8 from rfl, getLsbD_mask]
  by_cases h : i < 8
  · simp [h, show i < 64 by omega]
  · simp [h]

/-- A small word has no bits beyond its field. -/
theorem getLsbD_of_small {value : U32} {n i : ℕ} (h : value.toNat < 2^n) (hi : n ≤ i) :
    value.getLsbD i = false := by
  rw [BitVec.getLsbD]
  exact Nat.testBit_lt_two_pow (lt_of_lt_of_le h (Nat.pow_le_pow_right (by omega) hi))

theorem msgType_mgmtMsg {type : U32} (payload : U64) (h : type.toNat < 256) :
    msgType (mgmtMsg type payload) = type := by
  ext i hi
  have hs : 8 ≤ i → type.getLsbD i = false := getLsbD_of_small (n := 8) h
  simp only [msgType, get, fieldGet, mgmtMsg, put, fieldPut, typeShift]
  by_cases h8 : i < 8
  · simp [h8, getElem_typeMask, hi, show i < 64 by omega, show 52+i < 64 by omega,
      show ¬ 52+i < 52 by omega]
  · simp [h8, getLsbD_typeMask, ← BitVec.getLsbD_eq_getElem, hs (by omega)]

theorem startepEndpoint_startepMsg {endpoint : U32} (h : endpoint.toNat < 256) :
    startepEndpoint (startepMsg endpoint) = endpoint := by
  ext i hi
  have hs : 8 ≤ i → endpoint.getLsbD i = false := getLsbD_of_small (n := 8) h
  simp only [startepEndpoint, get, fieldGet, startepMsg, mgmtMsg, put, fieldPut, typeShift,
    startepEpShift, startepFlag, show startepEpMask = typeMask from rfl]
  by_cases h8 : i < 8
  · simp [h8, getElem_typeMask, hi, show i < 64 by omega, show 32+i < 64 by omega,
      show 32+i < 52 by omega, show 32+i ≠ 1 by omega]
  · simp [h8, getLsbD_typeMask, ← BitVec.getLsbD_eq_getElem, hs (by omega)]

@[simp] theorem msgType_iopPowerMsg (state : U32) : msgType (iopPowerMsg state) = mgmtIopPwr :=
  msgType_mgmtMsg _ (by decide)

@[simp] theorem msgType_apPowerMsg (state : U32) : msgType (apPowerMsg state) = mgmtApPwr :=
  msgType_mgmtMsg _ (by decide)

@[simp] theorem msgType_startepMsg (endpoint : U32) : msgType (startepMsg endpoint) = mgmtStartep :=
  msgType_mgmtMsg _ (by decide)

@[simp] theorem msgType_helloReplyMsg (version : U32) :
    msgType (helloReplyMsg version) = mgmtHelloReply :=
  msgType_mgmtMsg _ (by decide)

@[simp] theorem msgType_epmapReplyMsg (base : U32) (last : Bool) :
    msgType (epmapReplyMsg base last) = mgmtEpmapReply :=
  msgType_mgmtMsg _ (by decide)

theorem bitSet_eq (word : U32) (n : ℕ) : bitSet word n = word.getLsbD n := by
  rw [bitSet, show (1#32 : U32) = mask 32 1 from rfl, Bool.eq_iff_iff]
  simp only [bne_iff_ne, ne_eq, and_mask_eq_zero_iff _ (show 1 ≤ 32 by omega),
    BitVec.toNat_ushiftRight, pow_one, BitVec.getLsbD, Nat.testBit]
  rw [Nat.and_comm, Nat.and_one_is_mod]

/-- The low byte of a received endpoint is one of the map. -/
theorem low_byte_lt (endpoint : U32) : ¬ endpoint &&& 0xff#32 ≥ epCount := by
  rw [ge_iff_le, BitVec.not_le, BitVec.lt_def, show (0xff#32 : U32) = mask 32 8 from rfl,
    toNat_and_mask endpoint (by omega)]
  exact Nat.mod_lt _ (by decide)

/-- So are the endpoints of the system. -/
theorem system_lt {endpoint : U32} (hlt : endpoint < epAppStart) : ¬ endpoint ≥ epCount := by
  rw [ge_iff_le, BitVec.not_le]
  exact BitVec.lt_trans hlt (by decide)

/-- The firmware offers versions 11 to 12. -/
def helloMsg : U64 :=
  mgmtMsg mgmtHello (put 11#32 helloMinverShift helloVerMask ||| put 12#32 helloMaxverShift helloVerMask)

/-- The firmware announces endpoints of one word of the map. -/
def epmapMsg (base bitmap : U32) (last : Bool) : U64 :=
  mgmtMsg mgmtEpmap (put base epmapBaseShift epmapBaseMask ||| put bitmap 0 epmapBitmapMask |||
    if last then epmapLast else 0#64)

def iopAckMsg (state : U32) : U64 := mgmtMsg mgmtIopPwrAck (put state 0 pwrStateMask)

def apAckMsg (state : U32) : U64 := mgmtMsg mgmtApPwrAck (put state 0 pwrStateMask)

/-- The request of a system endpoint for a buffer of so many pages. -/
def bufferMsg (pages : U64) : U64 :=
  put bufferRequest typeShift typeMask ||| fieldPut pages bufreqSizeShift bufreqSizeMask

end AgxOpen.Rtkit
