import Mathlib.Data.List.Infix
import Firefly.Lib.Events
import Firefly.Rpc.Transport

/-!
# Firefly.Rpc.ChannelUsb

`fd_rpc_channel_usb.c`: packets over the serial port of the USB device. Interrupts move bytes between the port and
two rings; a work item takes them from one ring to `fd_rpc_channel_received_data`, and `packet_write` puts packets
into the other. A ring of Zephyr (`ring_buf`) is a queue of bytes with a limit, and a work item that is submitted
runs once more, also when it is running. `step` is one event of a party, with the number of bytes that the port
moves; the loop of the work item, and the put and the enabling of the interrupt in `packet_write`, are steps of
their own.

In every order of events the bytes stay in order and none is lost (`inv_run`), so that the packets that the host
writes are those that the handlers get, and the packets that are written are those that the host reads
(`packets_delivered`).
-/

namespace Firefly
namespace Rpc

open Packet

/-! ## Streams of packets -/

namespace Nanopb

variable {pb : Nanopb} {handler : PacketType → List UInt8 → Bool}

/-- What is handled does not depend on what comes later. -/
theorem calls_prefix {xs ys : List UInt8} (p : Binary) (h : xs <+: ys) :
    (pb.receivedData handler p xs).2.2 <+: (pb.receivedData handler p ys).2.2 := by
  obtain ⟨zs, rfl⟩ := h
  rw [receivedData_append]
  exact List.prefix_append _ _

/-- The bytes of some packets, each in an encoding and with its delimiter. -/
structure Frames (limit : Nat) (packets : List HandlerCall) (encode : HandlerCall → List UInt8) : Prop where
  encodes : ∀ c ∈ packets, Cobs.Encodes (encode c) (bytes c.1 c.2)
  fits : ∀ c ∈ packets, (encode c).length ≤ limit

theorem receivedData_frames (h : pb.Documented) {limit : Nat} (hlimit : limit < 2 ^ 16) {p : Binary}
    (hp : Clean limit p) {packets : List HandlerCall} {encode : HandlerCall → List UInt8}
    (hframes : Frames limit packets encode) :
    (pb.receivedData handler p (packets.flatMap fun c => encode c ++ [delimiter])).2.2 = packets := by
  induction packets generalizing p with
  | nil => rfl
  | cons c packets ih =>
    have hfirst := hframes.encodes c List.mem_cons_self
    have hfit := hframes.fits c List.mem_cons_self
    have hpos : 0 < limit := by
      have hlt := hfirst.length_lt
      omega
    have hone : (pb.receivedData handler p (encode c ++ [delimiter])).2.2 = [c] :=
      receivedData_frame h hp hfirst hfit hlimit
    have hclean : Clean limit (pb.receivedData handler p (encode c ++ [delimiter])).2.1 :=
      hp.receivedData hpos hlimit (Or.inr ⟨encode c, rfl⟩)
    have hrest := ih hclean ⟨fun d hd => hframes.encodes d (List.mem_cons_of_mem c hd),
      fun d hd => hframes.fits d (List.mem_cons_of_mem c hd)⟩
    rw [List.flatMap_cons, receivedData_append, hone, hrest]
    rfl

end Nanopb

namespace Python.Packages

variable {py : Packages}

theorem read_append (buffer xs ys : List UInt8) : py.read buffer (xs ++ ys) =
    ((py.read (py.read buffer xs).1 ys).1, (py.read buffer xs).2 ++ (py.read (py.read buffer xs).1 ys).2) := by
  induction xs generalizing buffer with
  | nil => rfl
  | cons byte xs ih =>
    simp only [List.cons_append, read]
    split
    · exact ih _
    · split
      · exact ih _
      · simp only [ih, List.cons_append]

theorem read_prefix {xs ys : List UInt8} (buffer : List UInt8) (h : xs <+: ys) :
    (py.read buffer xs).2 <+: (py.read buffer ys).2 := by
  obtain ⟨zs, rfl⟩ := h
  rw [read_append]
  exact List.prefix_append _ _

end Python.Packages

/-! ## Channel -/

namespace ChannelUsb

/-- Where `packet_write` is: it has found room for its data, or it is about to enable the interrupt. -/
inductive Writer where
  | idle
  | put (data : List UInt8)
  | enable

/-- The channel and its port. `incoming` are the bytes of the host in the port, `sent` all that it has sent, and
`wire` all that it was given. `accepted` are the packets for which `packet_write` returns `true`, and `calls` the
packets that were handed to the handlers. -/
structure Channel where
  sent : List UInt8
  incoming : List UInt8
  rxRing : List UInt8
  rxQueued : Bool
  rxRunning : Bool
  rxPacket : Binary
  calls : List HandlerCall
  txRing : List UInt8
  txEnabled : Bool
  writer : Writer
  wire : List UInt8
  accepted : List (List UInt8)

/-- `CONFIG_FIREFLY_SUBSYS_RPC_USB_RX_BUFFER_SIZE` and `CONFIG_FIREFLY_SUBSYS_RPC_USB_TX_BUFFER_SIZE`. -/
structure Sizes where
  rx : Nat
  tx : Nat

def initializeWith (rxPacket : Binary) : Channel where
  sent := []
  incoming := []
  rxRing := []
  rxQueued := false
  rxRunning := false
  rxPacket := rxPacket
  calls := []
  txRing := []
  txEnabled := false
  writer := .idle
  wire := []
  accepted := []

/-- The size of `buffer` in `fd_rpc_channel_usb_rx_irq` and of `data` in `fd_rpc_channel_usb_rx_work`. -/
def pieceSize : Nat := 64

/-- `ring_buf_put`: as much of the data as there is room for. -/
def ringPut (size : Nat) (ring data : List UInt8) : List UInt8 := ring ++ data.take (size - ring.length)

inductive Event where
  | host (data : List UInt8)
  | rxIrq (count : Nat)
  | rxWork
  | packetWrite (data : List UInt8)
  | writer
  | txIrq (count : Nat)
  | timer

variable (pb : Nanopb) (handler : PacketType → List UInt8 → Bool) (sizes : Sizes)

/-- `fd_rpc_channel_usb_rx_irq`, when the port has `count` bytes for it. -/
def rxIrq (c : Channel) (count : Nat) : Option Channel :=
  if count ≤ min (sizes.rx - c.rxRing.length) pieceSize ∧ count ≤ c.incoming.length then
    some { c with
      rxRing := ringPut sizes.rx c.rxRing (c.incoming.take count)
      incoming := c.incoming.drop count
      rxQueued := true }
  else none

/-- The start of `fd_rpc_channel_usb_rx_work`, or a pass of its loop. -/
def rxWork (c : Channel) : Option Channel :=
  if c.rxRunning then
    if c.rxRing.length = 0 then some { c with rxRunning := false }
    else
      let r := pb.receivedData handler c.rxPacket (c.rxRing.take pieceSize)
      some { c with rxRing := c.rxRing.drop pieceSize, rxPacket := r.2.1, calls := c.calls ++ r.2.2 }
  else if c.rxQueued then some { c with rxRunning := true, rxQueued := false }
  else none

/-- `fd_rpc_channel_usb_tx_irq`, when the port has room for `count` bytes. -/
def txIrq (c : Channel) (count : Nat) : Option Channel :=
  if c.txEnabled then
    if c.txRing.length = 0 then some { c with txEnabled := false }
    else if count ≤ c.txRing.length then
      some { c with wire := c.wire ++ c.txRing.take count, txRing := c.txRing.drop count }
    else none
  else none

/-- `fd_rpc_channel_usb_packet_write`, up to the answer about the room. -/
def packetWrite (c : Channel) (data : List UInt8) : Option Channel :=
  match c.writer with
  | .idle => some { c with writer := if data.length > sizes.tx - c.txRing.length then .enable else .put data }
  | _ => none

/-- The rest of `fd_rpc_channel_usb_packet_write`. -/
def writerStep (c : Channel) : Option Channel :=
  match c.writer with
  | .idle => none
  | .put data =>
    some { c with txRing := ringPut sizes.tx c.txRing data, accepted := c.accepted ++ [data], writer := .enable }
  | .enable => some { c with txEnabled := true, writer := .idle }

/-- An event, where it can happen. -/
def step (c : Channel) : Event → Option Channel
  | .host data => some { c with sent := c.sent ++ data, incoming := c.incoming ++ data }
  | .rxIrq count => rxIrq sizes c count
  | .rxWork => rxWork pb handler c
  | .packetWrite data => packetWrite sizes c data
  | .writer => writerStep sizes c
  | .txIrq count => txIrq c count
  | .timer => some { c with txEnabled := true }

/-- The port has nothing for the channel, and its work item does not run and is not queued. -/
structure Channel.AtRest (c : Channel) : Prop where
  incoming : c.incoming = []
  rxQueued : c.rxQueued = false
  rxRunning : c.rxRunning = false

/-- What holds in every order of events. The bytes that the host has sent were consumed, are in the ring, or are in
the port; the work item is under way while there is something in the ring; and the bytes of the packets that were
accepted are on the wire or in the ring. -/
structure Inv (start : Binary) (c : Channel) : Prop where
  received : ∃ consumed, consumed ++ c.rxRing ++ c.incoming = c.sent ∧
    (pb.receivedData handler start consumed).2 = (c.rxPacket, c.calls)
  awake : c.rxRing ≠ [] → c.rxQueued = true ∨ c.rxRunning = true
  written : c.wire ++ c.txRing = c.accepted.flatten
  room : ∀ data, c.writer = .put data → data.length ≤ sizes.tx - c.txRing.length

variable {pb handler sizes} {start : Binary} {c c' : Channel}

theorem ringPut_eq {size : Nat} {ring data : List UInt8} (h : data.length ≤ size - ring.length) :
    ringPut size ring data = ring ++ data := by
  rw [ringPut, List.take_of_length_le h]

theorem inv_initializeWith (start : Binary) : Inv pb handler sizes start (initializeWith start) where
  received := ⟨[], rfl, rfl⟩
  awake := fun h => absurd rfl h
  written := rfl
  room := by
    intro data hdata
    cases hdata

theorem Inv.rxIrq (h : Inv pb handler sizes start c) {count : Nat} (hstep : rxIrq sizes c count = some c') :
    Inv pb handler sizes start c' := by
  unfold ChannelUsb.rxIrq at hstep
  split at hstep
  · rename_i hcount
    obtain ⟨hroom, hlength⟩ := hcount
    cases hstep
    obtain ⟨consumed, hsent, hcalls⟩ := h.received
    -- No byte that was read is dropped.
    have hput : ringPut sizes.rx c.rxRing (c.incoming.take count) = c.rxRing ++ c.incoming.take count := by
      apply ringPut_eq
      rw [List.length_take]
      omega
    refine ⟨⟨consumed, ?_, hcalls⟩, fun _ => Or.inl rfl, h.written, h.room⟩
    rw [hput, ← hsent]
    simp only [List.append_assoc, List.take_append_drop]
  · cases hstep

theorem Inv.rxWork (h : Inv pb handler sizes start c) (hstep : rxWork pb handler c = some c') :
    Inv pb handler sizes start c' := by
  obtain ⟨consumed, hsent, hcalls⟩ := h.received
  unfold ChannelUsb.rxWork at hstep
  split at hstep
  · rename_i hrunning
    split at hstep
    · rename_i hempty
      cases hstep
      exact ⟨h.received, fun hring => absurd (List.eq_nil_of_length_eq_zero hempty) hring, h.written, h.room⟩
    · cases hstep
      refine ⟨⟨consumed ++ c.rxRing.take pieceSize, ?_, ?_⟩, fun _ => Or.inr hrunning, h.written, h.room⟩
      · rw [← hsent]
        simp only [List.append_assoc, List.take_append_drop]
      · rw [Nanopb.receivedData_append, hcalls]
  · split at hstep
    · cases hstep
      exact ⟨h.received, fun _ => Or.inr rfl, h.written, h.room⟩
    · cases hstep

theorem Inv.txIrq (h : Inv pb handler sizes start c) {count : Nat} (hstep : txIrq c count = some c') :
    Inv pb handler sizes start c' := by
  unfold ChannelUsb.txIrq at hstep
  split at hstep
  · split at hstep
    · cases hstep
      exact ⟨h.received, h.awake, h.written, h.room⟩
    · split at hstep
      · cases hstep
        refine ⟨h.received, h.awake, ?_, ?_⟩
        · rw [← h.written]
          simp only [List.append_assoc, List.take_append_drop]
        · intro data hdata
          have hroom := h.room data hdata
          simp only [List.length_drop]
          omega
      · cases hstep
  · cases hstep

theorem Inv.packetWrite (h : Inv pb handler sizes start c) {data : List UInt8}
    (hstep : packetWrite sizes c data = some c') : Inv pb handler sizes start c' := by
  unfold ChannelUsb.packetWrite at hstep
  split at hstep
  · cases hstep
    refine ⟨h.received, h.awake, h.written, ?_⟩
    intro other hother
    simp only at hother
    split at hother
    · cases hother
    · rename_i hroom
      cases hother
      exact Nat.le_of_not_lt hroom
  · cases hstep

theorem Inv.writerStep (h : Inv pb handler sizes start c) (hstep : writerStep sizes c = some c') :
    Inv pb handler sizes start c' := by
  unfold ChannelUsb.writerStep at hstep
  split at hstep
  · cases hstep
  · rename_i data hwriter
    cases hstep
    refine ⟨h.received, h.awake, ?_, ?_⟩
    · rw [ringPut_eq (h.room data hwriter), ← List.append_assoc, h.written, List.flatten_concat]
    · intro other hother
      cases hother
  · cases hstep
    refine ⟨h.received, h.awake, h.written, ?_⟩
    intro other hother
    cases hother

theorem Inv.step (h : Inv pb handler sizes start c) (hstep : Events.Step (step pb handler sizes) c c') :
    Inv pb handler sizes start c' := by
  obtain ⟨e, hstep⟩ := hstep
  cases e with
  | host data =>
    cases hstep
    obtain ⟨consumed, hsent, hcalls⟩ := h.received
    refine ⟨⟨consumed, ?_, hcalls⟩, h.awake, h.written, h.room⟩
    rw [← List.append_assoc, hsent]
  | rxIrq count => exact h.rxIrq hstep
  | rxWork => exact h.rxWork hstep
  | packetWrite data => exact h.packetWrite hstep
  | writer => exact h.writerStep hstep
  | txIrq count => exact h.txIrq hstep
  | timer =>
    cases hstep
    exact ⟨h.received, h.awake, h.written, h.room⟩

theorem inv_run (h : Events.Reaches (step pb handler sizes) (initializeWith start) c) :
    Inv pb handler sizes start c :=
  h.invariant (inv_initializeWith start) fun _ _ hinv hstep => hinv.step hstep

/-! ## Packets -/

/-- The host writes each of the packets so that it fits the buffer of the channel. -/
def Fitting (py : Python.Packages) (size : Nat) (packets : List HandlerCall) : Prop :=
  ∀ q ∈ packets, (py.write q.1 q.2).length ≤ size + 1

/-- `data` is what the sender writes for a packet of type and contents `q`. -/
def Sends (pb : Nanopb) (size : Nat) (data : List UInt8) (q : HandlerCall) : Prop :=
  ∃ (buffer : Memory) (packet : Binary), packet.size = size ∧ packet.contents = q.2 ∧
    pb.sendPacket buffer q.1.value packet = some (.written data)

variable {py : Python.Packages} {size : Nat}

theorem calls_written (hpb : pb.Documented) (hpy : py.Documented) (hsize : size ≤ 1024)
    (hstart : Nanopb.Clean size start) {packets : List HandlerCall} (hfit : Fitting py size packets) :
    (pb.receivedData handler start (packets.flatMap fun q => py.write q.1 q.2)).2.2 = packets := by
  have hwrite (q : HandlerCall) : py.write q.1 q.2 = py.cobsEncode (bytes q.1 q.2) ++ [delimiter] :=
    Python.Packages.write_eq hpy q.1 q.2
  simp only [hwrite]
  refine Nanopb.receivedData_frames hpb (by omega) hstart ⟨fun q _ => hpy.cobsEncode _, ?_⟩
  intro q hq
  have hlength := hfit q hq
  rw [hwrite, List.length_append, List.length_singleton] at hlength
  omega

theorem read_accepted (hpb : pb.Documented) (hpy : py.Documented) (hsize : size ≤ 1024)
    {accepted : List (List UInt8)} {packets : List HandlerCall}
    (hsends : List.Forall₂ (Sends pb size) accepted packets) :
    (py.read [] accepted.flatten) = ([], packets.map fun q => .ok (q.1.value, q.2)) := by
  have hbound : size ≤ Cobs.fullLength * (lookahead - 1) := Nat.le_trans hsize (by decide)
  induction hsends with
  | nil => rfl
  | @cons data q accepted packets hsend _ ih =>
    obtain ⟨buffer, packet, hpacket, hcontents, hsent⟩ := hsend
    obtain ⟨hdata, hlt⟩ := Nanopb.sendPacket_eq hpb hcontents (hpacket ▸ hbound) hsent
    have hencodes := Cobs.encodes_encode (bytes q.1 q.2)
    have hshort := hencodes.length_lt
    rw [length_bytes] at hshort
    have hframe := Python.Packages.read_frame hpy (by omega) hencodes
    rw [List.flatten_cons, Python.Packages.read_append, hdata, hframe, ih]
    rfl

/-- Packets pass the channel in both directions, in their order, whole and once, in every order of events. -/
theorem packets_delivered (hpb : pb.Documented) (hpy : py.Documented) (hsize : size ≤ 1024)
    (hstart : Nanopb.Clean size start)
    (hrun : Events.Reaches (step pb handler sizes) (initializeWith start) c) :
    (∀ packets : List HandlerCall, Fitting py size packets →
      c.sent <+: packets.flatMap (fun q => py.write q.1 q.2) →
        c.calls <+: packets ∧
          (c.AtRest → c.sent = packets.flatMap (fun q => py.write q.1 q.2) → c.calls = packets)) ∧
      ∀ packets : List HandlerCall, List.Forall₂ (Sends pb size) c.accepted packets →
        (py.read [] c.wire).2 <+: packets.map (fun q => .ok (q.1.value, q.2)) ∧
          (c.txRing = [] → py.read [] c.wire = ([], packets.map fun q => .ok (q.1.value, q.2))) := by
  have hinv := inv_run hrun
  obtain ⟨consumed, hsent, hcalls⟩ := hinv.received
  constructor
  · intro packets hfit hprefix
    have hall : (pb.receivedData handler start (packets.flatMap fun q => py.write q.1 q.2)).2.2 = packets :=
      calls_written hpb hpy hsize hstart hfit
    have hconsumed : consumed <+: packets.flatMap fun q => py.write q.1 q.2 := by
      refine List.IsPrefix.trans ?_ hprefix
      rw [← hsent, List.append_assoc]
      exact List.prefix_append _ _
    have hmade : (pb.receivedData handler start consumed).2.2 = c.calls := by rw [hcalls]
    constructor
    · rw [← hall, ← hmade]
      exact Nanopb.calls_prefix start hconsumed
    · intro hrest hwhole
      have hring : c.rxRing = [] := by
        by_contra hne
        cases hinv.awake hne with
        | inl hqueued => rw [hrest.rxQueued] at hqueued; cases hqueued
        | inr hrunning => rw [hrest.rxRunning] at hrunning; cases hrunning
      rw [hring, hrest.incoming, List.append_nil, List.append_nil] at hsent
      rw [← hmade, hsent, hwhole, hall]
  · intro packets hsends
    have hall := read_accepted hpb hpy hsize hsends
    constructor
    · have hprefix : (py.read [] c.wire).2 <+: (py.read [] (c.wire ++ c.txRing)).2 :=
        Python.Packages.read_prefix [] (List.prefix_append c.wire c.txRing)
      rw [hinv.written, hall] at hprefix
      exact hprefix
    · intro hempty
      have hwire := hinv.written
      rw [hempty, List.append_nil] at hwire
      rw [hwire, hall]

/-! ## An example -/

/-- A request from the host that arrives in two pieces, and the same packet from the channel. -/
def sampleEvents : List Event :=
  [.host [4, 133, 203, 4], .rxIrq 3, .rxWork, .host [3, 1, 8, 2, 16, 0], .rxWork, .rxIrq 7, .rxWork, .rxWork,
    .rxWork, .rxWork, .packetWrite [4, 133, 203, 4, 3, 1, 8, 2, 16, 0], .writer, .writer, .txIrq 4, .txIrq 6]

theorem packets_delivered_sample :
    ∃ c, Events.Reaches (step Sample.nanopb (fun _ _ => true) ⟨32, 32⟩) (initializeWith Sample.receiver) c ∧
      c.calls = [(.serverRequest, [8, 0, 16])] ∧
      Sample.packages.read [] c.wire = ([], [.ok (PacketType.serverRequest.value, [8, 0, 16])]) := by
  have hend : (Events.run (step Sample.nanopb (fun _ _ => true) ⟨32, 32⟩) (initializeWith Sample.receiver)
      sampleEvents).map (fun c => ((c.sent, c.incoming, c.rxQueued, c.rxRunning), (c.accepted, c.txRing))) =
      some (([4, 133, 203, 4, 3, 1, 8, 2, 16, 0], [], false, false),
        ([[4, 133, 203, 4, 3, 1, 8, 2, 16, 0]], [])) := by decide +kernel
  obtain ⟨c, hc, hfields⟩ := Option.map_eq_some_iff.mp hend
  simp only [Prod.mk.injEq] at hfields
  obtain ⟨⟨hsent, hincoming, hqueued, hrunning⟩, haccepted, htxRing⟩ := hfields
  obtain ⟨hcalls, hread⟩ := packets_delivered Sample.documented_nanopb Sample.documented_packages
    (by decide) ⟨rfl, rfl, rfl, rfl⟩ (Events.reaches_of_run hc)
  have hfit : Fitting Sample.packages 64 [(.serverRequest, [8, 0, 16])] := by
    intro q hq
    rw [List.mem_singleton] at hq
    subst hq
    decide +kernel
  have hwritten : c.sent =
      [((.serverRequest, [8, 0, 16]) : HandlerCall)].flatMap fun q => Sample.packages.write q.1 q.2 := by
    rw [hsent]
    decide +kernel
  have hsends : List.Forall₂ (Sends Sample.nanopb 64) c.accepted [(.serverRequest, [8, 0, 16])] := by
    rw [haccepted]
    refine List.Forall₂.cons ⟨fun _ => 0, Sample.packet, rfl, ?_, ?_⟩ List.Forall₂.nil
    · decide
    · decide +kernel
  have hprefix : c.sent <+: [((.serverRequest, [8, 0, 16]) : HandlerCall)].flatMap fun q =>
      Sample.packages.write q.1 q.2 := by rw [hwritten]
  refine ⟨c, Events.reaches_of_run hc, ?_, (hread _ hsends).2 htxRing⟩
  exact (hcalls _ hfit hprefix).2 ⟨hincoming, hqueued, hrunning⟩ hwritten

end ChannelUsb
end Rpc
end Firefly
