import Firefly.Swd.Channel

/-!
# Firefly.Swd.Port

The transactions of a debug port and the memory transfers made of them (`fd_swd.c`). A function that
returns false throws the error that it stores; what a local variable holds before it is set is an
argument.
-/

namespace Firefly
namespace Swd

def errorUnexpectedAck : UInt64 := 1
def errorTooManyWaitRetries : UInt64 := 2
def errorSticky : UInt64 := 3
def errorParity : UInt64 := 4
def errorInvalid : UInt64 := 6

inductive Port where
  | debug
  | access
  deriving DecidableEq

inductive Direction where
  | write
  | read
  deriving DecidableEq

def ackOk : UInt8 := 0b001
def ackWait : UInt8 := 0b010

def dpAbort : UInt8 := 0x00
def dpCtrl : UInt8 := 0x04
def dpStat : UInt8 := 0x04
def dpSelect : UInt8 := 0x08
def apTar : UInt8 := 0x04
def apDrw : UInt8 := 0x0c

def bit (n : UInt32) : UInt32 := 1 <<< n

def dpAbortOrunerrclr : UInt32 := bit 4
def dpAbortWderrclr : UInt32 := bit 3
def dpAbortStkerrclr : UInt32 := bit 2
def dpAbortStkcmpclr : UInt32 := bit 1
def dpCtrlCsyspwrupreq : UInt32 := bit 30
def dpCtrlCdbgpwrupreq : UInt32 := bit 28
def dpStatWdataerr : UInt32 := bit 7
def dpStatStickyerr : UInt32 := bit 5
def dpStatStickyorun : UInt32 := bit 1
def dpStatOrundetect : UInt32 := bit 0

def flush : Operation Unit := shiftOutBytes [0]

def getParityUint8 (v : UInt8) : UInt8 :=
  ((0x6996 : UInt32) >>> ((v ^^^ (v >>> 4)) &&& 0xf).toUInt32 &&& 1).toUInt8

def getParityUint32 (v : UInt32) : UInt8 :=
  let v := v ^^^ (v >>> 16)
  let v := v ^^^ (v >>> 8)
  getParityUint8 v.toUInt8

def encodeRequest (port : Port) (direction : Direction) (address : UInt8) : UInt8 :=
  let request : UInt8 := 0b10000001
  let request := if port = .access then request ||| 0b00000010 else request
  let request := if direction = .read then request ||| 0b00000100 else request
  let request := request ||| (address <<< 1 &&& 0b00011000)
  if getParityUint8 request ≠ 0 then request ||| 0b00100000 else request

def unpackLittleEndianUint32 (bytes : List UInt8) : UInt32 :=
  (bytes.getD 3 0).toUInt32 <<< 24 ||| (bytes.getD 2 0).toUInt32 <<< 16 |||
    (bytes.getD 1 0).toUInt32 <<< 8 ||| (bytes.getD 0 0).toUInt32

def packLittleEndianUint32 (value : UInt32) : List UInt8 :=
  [value.toUInt8, (value >>> 8).toUInt8, (value >>> 16).toUInt8, (value >>> 24).toUInt8]

/-- The start of a transaction, for the history of the bus. -/
def begin (kind : Kind) (value : UInt32) : Operation Unit :=
  Effect.update fun b => { b with requests := b.requests ++ [⟨kind, b.position, value⟩] }

def request (request : UInt8) : Operation UInt8 := do
  shiftOutBytes [request]
  setDirectionToRead
  let byte ← shiftIn 4
  pure (byte >>> 5)

/-- The four bytes of the word at `value`, and whether the parity bit behind them is theirs. -/
def readUint32 (value : UInt32) : Operation (Bool × UInt32) := do
  let value ← if (← delayNs) = 0 then do
      let bytes ← shiftInBytes (packLittleEndianUint32 value)
      pure (unpackLittleEndianUint32 bytes)
    else do
      let byte0 ← shiftIn 8
      let byte1 ← shiftIn 8
      let byte2 ← shiftIn 8
      let byte3 ← shiftIn 8
      pure (byte3.toUInt32 <<< 24 ||| byte2.toUInt32 <<< 16 ||| byte1.toUInt32 <<< 8 ||| byte0.toUInt32)
  let parity ← shiftIn 1
  pure (parity >>> 7 == getParityUint32 value, value)

def writeUint32 (value : UInt32) : Operation Unit := do
  if (← delayNs) = 0 then
    shiftOutBytes (packLittleEndianUint32 value)
  else
    shiftOut value.toUInt8 8
    shiftOut (value >>> 8).toUInt8 8
    shiftOut (value >>> 16).toUInt8 8
    shiftOut (value >>> 24).toUInt8 8
  shiftOut (getParityUint32 value) 1

def turnToWriteAndSkip : Operation Unit := do
  let _ ← shiftIn 1
  setDirectionToWrite

/-- The loop of `fd_swd_read_port`, with the tries that are left and the last acknowledgement. -/
def readPortLoop (overrunDetectionEnabled : Bool) (requestByte : UInt8) :
    Nat → UInt8 → UInt32 → Operation UInt32
  | 0, ack, _ => throw ⟨errorTooManyWaitRetries, ack.toUInt64⟩
  | tries + 1, _, value => do
    begin (.readPort overrunDetectionEnabled) value
    let ack ← request requestByte
    if overrunDetectionEnabled then
      let (right, value) ← readUint32 value
      if !right then
        readPortLoop overrunDetectionEnabled requestByte tries ack value
      else
        turnToWriteAndSkip
        if ack = ackOk then
          pure value
        else if ack ≠ ackWait then
          throw ⟨errorUnexpectedAck, ack.toUInt64⟩
        else
          readPortLoop overrunDetectionEnabled requestByte tries ack value
    else if ack = ackOk then
      let (right, value) ← readUint32 value
      if !right then
        readPortLoop overrunDetectionEnabled requestByte tries ack value
      else
        turnToWriteAndSkip
        pure value
    else
      turnToWriteAndSkip
      if ack ≠ ackWait then
        throw ⟨errorUnexpectedAck, ack.toUInt64⟩
      else
        readPortLoop overrunDetectionEnabled requestByte tries ack value

def readPort (port : Port) (registerOffset : UInt8) (value : UInt32) : Operation UInt32 := do
  let overrunDetectionEnabled ← Effect.read fun b => b.channel.overrunDetectionEnabled
  let retryCount ← Effect.read fun b => b.channel.ackWaitRetryCount
  readPortLoop overrunDetectionEnabled (encodeRequest port .read registerOffset) retryCount ackOk value

/-- The loop of `fd_swd_write_port`. -/
def writePortLoop (overrunDetectionEnabled : Bool) (requestByte : UInt8) (value : UInt32) :
    Nat → UInt8 → Operation Unit
  | 0, ack => throw ⟨errorTooManyWaitRetries, ack.toUInt64⟩
  | tries + 1, _ => do
    begin .writePort value
    let ack ← request requestByte
    turnToWriteAndSkip
    if overrunDetectionEnabled then
      writeUint32 value
    if ack = ackOk then
      if !overrunDetectionEnabled then
        writeUint32 value
    else if ack ≠ ackWait then
      throw ⟨errorUnexpectedAck, ack.toUInt64⟩
    else
      writePortLoop overrunDetectionEnabled requestByte value tries ack

def writePort (port : Port) (registerOffset : UInt8) (value : UInt32) : Operation Unit := do
  let overrunDetectionEnabled ← Effect.read fun b => b.channel.overrunDetectionEnabled
  let retryCount ← Effect.read fun b => b.channel.ackWaitRetryCount
  writePortLoop overrunDetectionEnabled (encodeRequest port .write registerOffset) value retryCount ackOk

/-- `fd_swd_select_access_port_register`, with the bank select that it sets. -/
def selectAccessPortRegister (accessPortRegister : UInt8) : Operation Unit :=
  Effect.update fun b => { b with channel.debugPortAccess.accessPortBankSelect :=
    (accessPortRegister >>> 4 &&& 0xf).toBitVec.setWidth 4 }

def portSelect : Operation Unit := do
  let value ← Effect.read fun b => b.channel.debugPortAccess.value
  writePort .debug dpSelect value

def selectAndWriteAccessPort (accessPortRegister : UInt8) (value : UInt32) : Operation Unit := do
  selectAccessPortRegister accessPortRegister
  portSelect
  writePort .access accessPortRegister value
  flush

def setOverrunDetection (enabled : Bool) : Operation Unit := do
  let flags := dpAbortOrunerrclr ||| dpAbortWderrclr ||| dpAbortStkerrclr ||| dpAbortStkcmpclr
  writePort .debug dpAbort flags
  let value := dpCtrlCdbgpwrupreq ||| dpCtrlCsyspwrupreq
  let value := if enabled then value ||| dpStatOrundetect else value
  writePort .debug dpCtrl value
  Effect.update fun b => { b with channel.overrunDetectionEnabled := enabled }

def tarIncrementBits : UInt32 := 0x3f

def beforeMemoryTransfer (address length : UInt32) : Operation Unit := do
  if address &&& 0x3 ≠ 0 then
    throw ⟨errorInvalid, address.toUInt64⟩
  else if length = 0 ∨ length &&& 0x3 ≠ 0 then
    throw ⟨errorInvalid, length.toUInt64⟩
  else if address &&& ~~~tarIncrementBits ≠ (address + length - 1) &&& ~~~tarIncrementBits then
    throw ⟨errorInvalid, length.toUInt64⟩
  else
    selectAndWriteAccessPort apTar address
    selectAccessPortRegister apDrw
    portSelect
    setOverrunDetection true

def afterMemoryTransfer (status : UInt32) : Operation Unit := do
  let status ← readPort .debug dpStat status
  setOverrunDetection false
  if status &&& (dpStatWdataerr ||| dpStatStickyerr ||| dpStatStickyorun) ≠ 0 then
    throw ⟨errorSticky, status.toUInt64⟩

/-- The lines that `fd_swd_request_write` and `fd_swd_request_read` have in common with
`fd_swd_request`. -/
def requestWrite (requestByte : UInt8) (value : UInt32) : Operation Unit := do
  begin .requestWrite value
  let ack ← request requestByte
  if ack ≠ ackOk then
    throw ⟨errorUnexpectedAck, ack.toUInt64⟩
  else
    turnToWriteAndSkip
    writeUint32 value

def requestRead (requestByte : UInt8) (value : UInt32) : Operation UInt32 := do
  begin .requestRead value
  let ack ← request requestByte
  if ack ≠ ackOk then
    throw ⟨errorUnexpectedAck, ack.toUInt64⟩
  else
    let (right, value) ← readUint32 value
    if !right then
      throw ⟨errorParity, value.toUInt64⟩
    else
      turnToWriteAndSkip
      pure value

/-- The loop of `fd_swd_write_memory_transfer`, with the words that are left: the length is a positive
multiple of four. -/
def requestWrites (requestByte : UInt8) (data : Nat → UInt8) : Nat → Nat → Operation Unit
  | 0, _ => pure ()
  | words + 1, i => do
    requestWrite requestByte
      (unpackLittleEndianUint32 [data i, data (i + 1), data (i + 2), data (i + 3)])
    requestWrites requestByte data words (i + 4)

def writeMemoryTransfer (address : UInt32) (data : Nat → UInt8) (length status : UInt32) :
    Operation Unit := do
  beforeMemoryTransfer address length
  let requestByte := encodeRequest .access .write apDrw
  let success ← Effect.attempt (requestWrites requestByte data (length.toNat / 4) 0)
  afterMemoryTransfer status
  Effect.ofExcept success

/-- The loop of `fd_swd_read_memory_transfer`: the bytes that it puts into the buffer, when all words
arrive. -/
def requestReads (requestByte : UInt8) : Nat → UInt32 → Operation (List UInt8)
  | 0, _ => pure []
  | words + 1, value => do
    let value ← requestRead requestByte value
    let data ← requestReads requestByte words value
    pure (packLittleEndianUint32 value ++ data)

def readMemoryTransfer (address length value status : UInt32) : Operation (List UInt8) := do
  beforeMemoryTransfer address length
  let requestByte := encodeRequest .access .read apDrw
  let words := length.toNat / 4
  -- one more request than words: a read returns what the one before it asked for
  let success ← Effect.attempt do
    let value ← requestRead requestByte value
    requestReads requestByte words value
  afterMemoryTransfer status
  Effect.ofExcept success

end Swd
end Firefly
