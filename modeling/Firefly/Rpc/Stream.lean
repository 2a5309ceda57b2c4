import Firefly.Lib.Bytes

/-!
# Firefly.Rpc.Stream

`fd_rpc_stream.c`: the stop-and-wait stream between the device and a client. The state is
`fd_rpc_stream_t` with three histories: the packets handed to `send_command` (`out`), the other
callbacks made to the client of the stream (`events`) and the number of failed assertions.

A step is one call of the API. What a handler sends leaves the device after it returned: the
handlers run where the transport runs, and `otUdpSend` queues the packet. The clock is read once a
call. The protobuf coding of the connection configuration and the doubling of the timeout, which is
done in floating point, are parameters.
-/

namespace Firefly
namespace Rpc

open Bytes

def headerTypeCommand : Nat := 0x80000000

def commandConnectRequest : Nat := 0x00000000
def commandConnectResponse : Nat := 0x00000001
def commandDisconnect : Nat := 0x00000002
def commandKeepAlive : Nat := 0x00000004
def commandAck : Nat := 0x00000006
def commandNack : Nat := 0x00000008
def commandAckack : Nat := 0x0000000a

/-- `firefly.stream.v1.ConnectionConfiguration`, times in milliseconds. -/
structure Configuration where
  maximumFlowWindow : Nat
  maximumTransmissionUnit : Nat
  receiveKeepAlive : Nat
  sendKeepAlive : Nat
  sendRetryTimeout : Nat

structure Platform where
  pbDecode : List UInt8 → Configuration
  pbEncode : Configuration → List UInt8
  /-- `timeout *= 2.0f` on a `uint32_t`. -/
  double : Nat → Nat

inductive State where
  | disconnected
  | connected
  deriving DecidableEq

structure Tracker where
  timeout : Nat
  lastActiveTime : Int

namespace Tracker

def reset (t : Tracker) : Tracker := { t with lastActiveTime := 0 }

def update (t : Tracker) (time : Int) : Tracker := { t with lastActiveTime := time }

def isTimeout (t : Tracker) (time : Int) : Bool := time - t.lastActiveTime > t.timeout

end Tracker

/-- `fd_rpc_stream_receive_t` and `fd_rpc_stream_send_t`. -/
structure Direction where
  sequenceNumber : Nat
  keepAlive : Tracker

structure LastSendData where
  time : Int
  command : List UInt8
  length : Nat
  timeout : Nat

def LastSendData.clear : LastSendData := ⟨0, [], 0, 0⟩

/-- The callbacks; `connected` and `disconnected` are made by the Python stream only. -/
inductive Event where
  | receivedConnect
  | receivedDisconnect
  | receivedKeepAlive
  | receivedData (data : List UInt8)
  | receivedAck
  | sentDisconnect
  | connected
  | disconnected
  deriving DecidableEq

/-- The payload of a delivery. -/
def Event.data? : Event → Option (List UInt8)
  | receivedData data => some data
  | _ => none

structure Stream where
  state : State
  receive : Direction
  send : Direction
  sendSemaphore : Nat
  lastSendData : LastSendData
  lastSendDataTimeout : Nat
  sendRetryCount : Nat
  sendKeepAliveCount : Nat
  receiveKeepAliveDisconnectCount : Nat
  out : List (List UInt8)
  events : List Event
  assertCount : Nat

/-- `fd_binary_get_uint32`: the value, 0 at the end of the data, and what is left. -/
def getUint32 (data : List UInt8) : Nat × List UInt8 :=
  if 4 ≤ data.length then (leNat (data.take 4), data.drop 4) else (0, data)

def getUint16 (data : List UInt8) : Nat × List UInt8 :=
  if 2 ≤ data.length then (leNat (data.take 2), data.drop 2) else (0, data)

def getUint8 (data : List UInt8) : Nat × List UInt8 :=
  if 1 ≤ data.length then (leNat (data.take 1), data.drop 1) else (0, data)

def putConnectionConfiguration (e : Platform) (version : Nat) (configuration : Configuration) :
    List UInt8 :=
  if version ≤ 1 then leBytes 1 1 ++ leBytes 2 1024 else e.pbEncode configuration

def getConnectionConfiguration (e : Platform) (version : Nat) (data : List UInt8) : Configuration :=
  if version ≤ 1 then
    let (maximumFlowWindow, data) := getUint8 data
    let (maximumTransmissionUnit, _) := getUint16 data
    ⟨maximumFlowWindow, maximumTransmissionUnit, 5000, 2000, 500⟩
  else e.pbDecode data

namespace Stream

def assert (s : Stream) (c : Bool) : Stream :=
  if c then s else { s with assertCount := s.assertCount + 1 }

/-- A callback to the client of the stream other than `send_command`. -/
def notify (s : Stream) (event : Event) : Stream := { s with events := s.events ++ [event] }

/-- The counting semaphore has a limit of 1. -/
def semGive (s : Stream) : Stream := { s with sendSemaphore := min (s.sendSemaphore + 1) 1 }

def disconnect (s : Stream) : Stream :=
  let s := { s with sendSemaphore := 0 }.semGive
  let s := s.assert (s.sendSemaphore == 1)
  { s with
    receive := ⟨0, s.receive.keepAlive.reset⟩
    send := ⟨0, s.send.keepAlive.reset⟩
    lastSendData := .clear
    state := .disconnected }

def sendCommand (now : Int) (s : Stream) (data : List UInt8) : Stream :=
  let s := s.assert (data.length ≥ 4)
  { s with
    send := { s.send with keepAlive := s.send.keepAlive.update now }
    out := s.out ++ [data] }

def commandHeader (command : Nat) : List UInt8 := leBytes 4 (command + headerTypeCommand)

def sendConnectResponse (e : Platform) (now : Int) (s : Stream) (result version : Nat)
    (configuration : Configuration) : Stream :=
  s.sendCommand now (commandHeader commandConnectResponse ++ leBytes 1 result ++ leBytes 1 version ++
    putConnectionConfiguration e version configuration)

def sendDisconnect (now : Int) (s : Stream) : Stream :=
  ((s.sendCommand now (commandHeader commandDisconnect)).disconnect).notify .sentDisconnect

def sendKeepAlive (now : Int) (s : Stream) : Stream :=
  s.sendCommand now (commandHeader commandKeepAlive)

def sendAck (now : Int) (s : Stream) (sequenceNumber : Nat) : Stream :=
  s.sendCommand now (commandHeader commandAck ++ leBytes 4 sequenceNumber)

def sendNack (now : Int) (s : Stream) : Stream :=
  s.sendCommand now (commandHeader commandNack ++ leBytes 4 s.send.sequenceNumber)

/-- `k_sem_take`, which fails after the timeout. -/
def waitForSendAck (s : Stream) : Bool × Stream :=
  if s.sendSemaphore = 0 then (false, s)
  else (true, { s with sendSemaphore := s.sendSemaphore - 1 })

def sendData (now : Int) (s : Stream) (data : List UInt8) : Stream :=
  let s := s.assert (data.length > 0)
  let s := s.assert (s.lastSendData.time == 0)
  -- the buffer of the command holds the header and 1024 bytes
  let s := s.assert (data.length ≤ 1024)
  let lastSendData : LastSendData := {
    time := now
    command := leBytes 4 s.send.sequenceNumber ++ data
    length := 4 + data.length
    timeout := s.lastSendDataTimeout }
  { s with lastSendData := lastSendData }.sendCommand now (lastSendData.command.take lastSendData.length)

def receiveAck (now : Int) (s : Stream) (data : List UInt8) : Stream :=
  let serialNumber := (getUint32 data).1 &&& 0x7fffffff
  if serialNumber < s.send.sequenceNumber then s
  else if serialNumber = s.send.sequenceNumber then
    let s := { s with send := { s.send with sequenceNumber := (s.send.sequenceNumber + 1) % 2 ^ 32 } }
    let s := s.assert (s.sendSemaphore == 0)
    { s.semGive with lastSendData := .clear }.notify .receivedAck
  else s.disconnect.sendDisconnect now

def receiveNack (now : Int) (s : Stream) : Stream := s.disconnect.sendDisconnect now

def receiveConnectRequest (e : Platform) (now : Int) (s : Stream) (data : List UInt8) : Stream :=
  let (version, data) := getUint8 data
  let configuration := getConnectionConfiguration e version data
  let s := s.disconnect
  let s := { s with
    receive := { s.receive with keepAlive := ⟨configuration.receiveKeepAlive, now⟩ }
    send := { s.send with keepAlive := ⟨configuration.sendKeepAlive, now⟩ }
    lastSendData := .clear
    lastSendDataTimeout := configuration.sendRetryTimeout
    state := .connected }
  (s.sendConnectResponse e now 0 version configuration).notify .receivedConnect

def receiveDisconnectRequest (s : Stream) : Stream := s.disconnect.notify .receivedDisconnect

def receiveData (now : Int) (s : Stream) (sequenceNumber : Nat) (data : List UInt8) : Stream :=
  if sequenceNumber < s.receive.sequenceNumber then s.sendAck now sequenceNumber
  else if sequenceNumber = s.receive.sequenceNumber then
    let s := (s.sendAck now s.receive.sequenceNumber).notify (.receivedData data)
    { s with receive := { s.receive with sequenceNumber := (s.receive.sequenceNumber + 1) % 2 ^ 32 } }
  else s.sendNack now

def receiveCommand (e : Platform) (now : Int) (s : Stream) (command : Nat) (data : List UInt8) :
    Stream :=
  if command = commandConnectRequest then s.receiveConnectRequest e now data
  else if command = commandConnectResponse then s.assert false
  else if command = commandDisconnect then s.receiveDisconnectRequest
  else if command = commandKeepAlive then s.notify .receivedKeepAlive
  else if command = commandAck then s.receiveAck now data
  else if command = commandNack then s.receiveNack now
  else s.assert false

/-- `fd_rpc_stream_receive`. -/
def receivePacket (e : Platform) (now : Int) (s : Stream) (data : List UInt8) : Stream :=
  let s := { s with receive := { s.receive with keepAlive := s.receive.keepAlive.update now } }
  let s := s.assert (data.length ≥ 4)
  let (header, rest) := getUint32 data
  if header &&& headerTypeCommand ≠ 0 then s.receiveCommand e now (header &&& 0x7fffffff) rest
  else if s.state = .connected then s.receiveData now header rest
  else s

def checkSendData (e : Platform) (now : Int) (s : Stream) : Stream :=
  if s.lastSendData.time > 0 ∧ now > s.lastSendData.time + s.lastSendData.timeout then
    let lastSendData := { s.lastSendData with timeout := e.double s.lastSendData.timeout }
    { s with sendRetryCount := s.sendRetryCount + 1, lastSendData := lastSendData }.sendCommand now
      (lastSendData.command.take lastSendData.length)
  else s

def checkSendKeepAlive (now : Int) (s : Stream) : Stream :=
  let s := s.assert (now ≥ s.send.keepAlive.lastActiveTime)
  if s.send.keepAlive.isTimeout now then
    { s with sendKeepAliveCount := s.sendKeepAliveCount + 1 }.sendKeepAlive now
  else s

def checkReceiveKeepAlive (now : Int) (s : Stream) : Stream :=
  let s := s.assert (now ≥ s.receive.keepAlive.lastActiveTime)
  if s.receive.keepAlive.isTimeout now then
    { s with
      receiveKeepAliveDisconnectCount := s.receiveKeepAliveDisconnectCount + 1 }.sendDisconnect now
  else s

def check (e : Platform) (now : Int) (s : Stream) : Stream :=
  if s.state = .disconnected then s
  else ((s.checkSendData e now).checkSendKeepAlive now).checkReceiveKeepAlive now

end Stream

end Rpc
end Firefly
