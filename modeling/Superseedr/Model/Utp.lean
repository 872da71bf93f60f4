import Mathlib.Data.List.AList
import Superseedr.Model.Basic

/-! # A uTP connection

Two endpoints exchange numbered packets over a network that loses, repeats, delays and reorders them. Sequence
numbers have 16 bits and are compared by the shorter way around. The sending half of an endpoint cuts what its
application writes into packets and keeps them until they are acknowledged; the receiving half hands payloads
to its reader in order and buffers what comes too early. The congestion window and the timers are left to the
world: a packet may be sent, repeated or acknowledged whenever the code could do so. When the driver of an
endpoint returns, its end of the pipe to the application is dropped, which the reader sees as the end of the
stream. What sequence numbers were used for is kept for the record.
-/

namespace Superseedr

namespace Utp

def maxPacketSize : ℕ := 2560
def minPacketSize : ℕ := 150
def maxInflightPackets : ℕ := 64
def maxOutOfOrderPackets : ℕ := 256
def maxRetransmits : ℕ := 8
def sackExtensionBytes : ℕ := 4
def receiveWindow : ℕ := 256 * 1024

def seqLte (lhs rhs : UInt16) : Bool := lhs = rhs || rhs - lhs < 0x8000

def seqGt (lhs rhs : UInt16) : Bool := lhs ≠ rhs && lhs - rhs < 0x8000

/-- The packets of an established connection between two endpoints that run this code. -/
inductive PacketType where
  | data
  | fin
  | state
deriving DecidableEq, Repr

structure Packet where
  packetType : PacketType
  wndSize : ℕ
  seqNr : UInt16
  ackNr : UInt16
  selectiveAck : Bytes
  payload : Bytes
deriving DecidableEq, Repr

/-- A packet on its way, with its place and the place of its acknowledgement counted from the start. -/
structure Datagram where
  packet : Packet
  index : ℕ
  ackIndex : ℕ
deriving DecidableEq, Repr

/-- What a sequence number was used for. -/
structure Segment where
  isFin : Bool
  payload : Bytes
deriving DecidableEq, Repr

/-- A packet that is not acknowledged yet, with its place counted from the start. -/
structure SentPacket where
  segment : Segment
  seqNr : UInt16
  retransmits : ℕ
  index : ℕ
deriving DecidableEq, Repr

def Segment.packetType (segment : Segment) : PacketType := if segment.isFin then .fin else .data

def setBit (mask : Bytes) (bitIndex : ℕ) : Bytes :=
  mask.modify (bitIndex / 8) fun byte => byte ||| (1 <<< UInt8.ofNat (bitIndex % 8))

/-- `selective_ack_for`: a bit for each buffered packet in reach; nothing if there is none. -/
def selectiveAckFor (ackNr : UInt16) (buffered : List UInt16) : Bytes :=
  let reached := (buffered.map fun seqNr => (seqNr - ackNr).toNat).filter fun offset =>
    2 ≤ offset && offset < 2 + sackExtensionBytes * 8
  if reached = [] then []
  else reached.foldl (fun mask offset => setBit mask (offset - 2)) (List.replicate sackExtensionBytes 0)

def selectiveAckContains (selectiveAck : Bytes) (ackNr seqNr : UInt16) : Bool :=
  let offset := (seqNr - ackNr).toNat
  let bitIndex := offset - 2
  2 ≤ offset && offset < 0x8000 &&
    selectiveAck[bitIndex / 8]?.any fun byte => byte &&& (1 <<< UInt8.ofNat (bitIndex % 8)) ≠ 0

def acknowledgePackets (unackedPackets : List SentPacket) (ackNr : UInt16) (selectiveAck : Bytes)
    (nextSendSeqNr : UInt16) : List SentPacket :=
  if unackedPackets ≠ [] ∧ seqGt ackNr (nextSendSeqNr - 1) then unackedPackets
  else unackedPackets.filter fun sent =>
    !(seqLte sent.seqNr ackNr || selectiveAckContains selectiveAck ackNr sent.seqNr)

/-- `pop_next_payload_chunk`: the next payload of at most a packet's size, and what is left. -/
def popNextPayloadChunk (packetSize maxSize : ℕ) : List Bytes → Option (Bytes × List Bytes)
  | [] => none
  | front :: rest =>
    let size := max minPacketSize (min packetSize maxSize)
    if front.length ≤ size then some (front, rest) else some (front.take size, front.drop size :: rest)

/-- The sending half of an endpoint. For the record it keeps what the application wrote and what each sequence number
was used for. -/
structure Sender where
  written : Bytes
  /-- Written by the application and not yet read by the driver. -/
  unread : Bytes
  /-- The application has closed its sending side. -/
  closed : Bool
  localEof : Bool
  localFinSent : Bool
  pendingPayloads : List Bytes
  unackedPackets : List SentPacket
  nextSendSeqNr : UInt16
  remoteWindowBytes : ℕ
  sent : List Segment

/-- The receiving half of an endpoint. For the record it counts the sequence numbers that were taken in order. -/
structure Receiver where
  lastRemoteSeqNr : UInt16
  outOfOrderPayloads : AList fun _ : UInt16 => Bytes
  remoteFinSeqNr : Option UInt16
  remoteEofDelivered : Bool
  /-- What was handed to the reader. -/
  delivered : Bytes
  /-- How much of it the application has not read yet. -/
  localReceiveBufferedBytes : ℕ
  /-- An acknowledgement is due. -/
  ackPending : Bool
  /-- The reader was told that the stream has ended. -/
  shutdown : Bool
  received : ℕ

namespace Sender

/-- The driver reads from the application; a read of nothing is the end of what it sends. -/
def readLocal (s : Sender) (size : ℕ) : Option Sender :=
  if s.unread = [] then if s.closed then some { s with localEof := true } else none
  else
    let count := max 1 (min size maxPacketSize)
    some { s with
      unread := s.unread.drop count
      pendingPayloads := s.pendingPayloads ++ [s.unread.take count] }

/-- Use the next sequence number for a segment. -/
def send (s : Sender) (segment : Segment) : Sender :=
  { s with
    nextSendSeqNr := s.nextSendSeqNr + 1
    unackedPackets := s.unackedPackets ++ [⟨segment, s.nextSendSeqNr, 0, s.sent.length⟩]
    sent := s.sent ++ [segment] }

def unackedPayloadBytes (s : Sender) : ℕ := (s.unackedPackets.map fun sent => sent.segment.payload.length).sum

/-- `send_window_bytes`, for a congestion window of the world's choice. -/
def sendWindowBytes (s : Sender) (maxWindowBytes : ℕ) : ℕ := min (max maxWindowBytes minPacketSize) s.remoteWindowBytes

/-- One round of `flush_pending_payloads`, with the segment that is sent. -/
def flush (s : Sender) (maxWindowBytes packetSize maxSize : ℕ) : Option (Sender × Segment) :=
  let currentWindow := s.unackedPayloadBytes
  let sendWindow := s.sendWindowBytes maxWindowBytes
  let nextPayloadLen := (s.pendingPayloads.head?.map fun payload => min payload.length packetSize).getD 0
  if s.unackedPackets.length ≥ maxInflightPackets then none
  else if currentWindow ≥ sendWindow ∨ currentWindow + nextPayloadLen > sendWindow then none
  else (popNextPayloadChunk packetSize maxSize s.pendingPayloads).map fun (payload, rest) =>
    ({ s with pendingPayloads := rest }.send ⟨false, payload⟩, ⟨false, payload⟩)

/-- The part of `process_incoming_packet` for the sending half. -/
def acknowledge (s : Sender) (packet : Packet) : Sender :=
  { s with
    remoteWindowBytes := packet.wndSize
    unackedPackets := acknowledgePackets s.unackedPackets packet.ackNr packet.selectiveAck s.nextSendSeqNr }

end Sender

namespace Receiver

variable (r : Receiver)

def expectedSeqNr : UInt16 := r.lastRemoteSeqNr + 1

/-- `record_remote_payload_sequence`. -/
def record (seqNr : UInt16) : Receiver :=
  { r with lastRemoteSeqNr := seqNr, received := r.received + 1 }

/-- `write_all_tracked`. -/
def deliver (payload : Bytes) : Receiver :=
  { r with
    delivered := r.delivered ++ payload
    localReceiveBufferedBytes := r.localReceiveBufferedBytes + payload.length }

def advertisedWindow : ℕ :=
  receiveWindow - ((r.outOfOrderPayloads.entries.map fun entry => entry.2.length).sum + r.localReceiveBufferedBytes)

/-- The loop of `deliver_buffered_payloads`, and whether it came to the end of the stream. -/
def deliverBufferedFrom : ℕ → Receiver → Receiver × Bool
  | 0, r => (r, false)
  | rounds + 1, r =>
    match r.outOfOrderPayloads.lookup r.expectedSeqNr with
    | none => (r, false)
    | some payload =>
      let taken := { r with outOfOrderPayloads := r.outOfOrderPayloads.erase r.expectedSeqNr }
      if r.remoteFinSeqNr = some r.expectedSeqNr then (taken.record r.expectedSeqNr, true)
      else deliverBufferedFrom rounds ((taken.deliver payload).record r.expectedSeqNr)

/-- `deliver_buffered_payloads`. Every round takes a payload out of the buffer, so that there are no more rounds than
payloads. -/
def deliverBufferedPayloads : Receiver × Bool :=
  deliverBufferedFrom r.outOfOrderPayloads.entries.length r

/-- A data packet arrives; the second result tells whether the stream has ended. -/
def processData (seqNr : UInt16) (payload : Bytes) : Receiver × Bool :=
  if seqNr = r.expectedSeqNr then
    let (next, ended) := ((r.deliver payload).record seqNr).deliverBufferedPayloads
    if ended then ({ next with shutdown := true }, true) else (next, false)
  else if seqGt seqNr r.expectedSeqNr && r.outOfOrderPayloads.entries.length < maxOutOfOrderPackets then
    if seqNr ∈ r.outOfOrderPayloads then (r, false)
    else ({ r with outOfOrderPayloads := r.outOfOrderPayloads.insert seqNr payload }, false)
  else (r, false)

/-- The last packet arrives; the second result tells whether the stream has ended. -/
def processFin (seqNr : UInt16) : Receiver × Bool :=
  if seqNr = r.expectedSeqNr then
    ({ r.record seqNr with remoteFinSeqNr := some seqNr, shutdown := true }, true)
  else if seqGt seqNr r.expectedSeqNr && r.outOfOrderPayloads.entries.length < maxOutOfOrderPackets then
    let marked := { r with remoteFinSeqNr := some seqNr }
    if seqNr ∈ r.outOfOrderPayloads then (marked, false)
    else ({ marked with outOfOrderPayloads := r.outOfOrderPayloads.insert seqNr [] }, false)
  else (r, r.remoteFinSeqNr.any fun fin => seqLte fin r.lastRemoteSeqNr)

/-- The part of `process_incoming_packet` for the receiving half. An acknowledgement is due for everything but an
acknowledgement. -/
def process (packet : Packet) : Receiver × Bool :=
  match packet.packetType with
  | .state => (r, false)
  | .data => { r with ackPending := true }.processData packet.seqNr packet.payload
  | .fin => { r with ackPending := true }.processFin packet.seqNr

end Receiver

structure Endpoint where
  sender : Sender
  receiver : Receiver
  /-- The driver has returned, and its end of the pipe to the application is gone. -/
  stopped : Bool

namespace Endpoint

/-- What the reader sees as the end of the stream. -/
def eof (endpoint : Endpoint) : Bool := endpoint.receiver.shutdown || endpoint.stopped

def datagram (endpoint : Endpoint) (segment : Segment) (seqNr : UInt16) (index : ℕ) : Datagram :=
  ⟨⟨segment.packetType, endpoint.receiver.advertisedWindow, seqNr, endpoint.receiver.lastRemoteSeqNr, [],
      segment.payload⟩,
    index, endpoint.receiver.received⟩

/-- `send_state_packet`. -/
def stateDatagram (endpoint : Endpoint) : Datagram :=
  let ackNr := endpoint.receiver.lastRemoteSeqNr
  ⟨⟨.state, endpoint.receiver.advertisedWindow, endpoint.sender.nextSendSeqNr, ackNr,
      selectiveAckFor ackNr endpoint.receiver.outOfOrderPayloads.keys, []⟩,
    endpoint.sender.sent.length, endpoint.receiver.received⟩

/-- `process_incoming_packet`; at the end of the stream the driver stops to read from the application. -/
def process (endpoint : Endpoint) (packet : Packet) : Endpoint :=
  let sender := endpoint.sender.acknowledge packet
  let (receiver, ended) := endpoint.receiver.process packet
  if ended then
    { endpoint with
      sender := { sender with localEof := true }
      receiver := { receiver with remoteEofDelivered := true } }
  else { endpoint with sender, receiver }

end Endpoint

/-- Two endpoints and everything they have sent; nothing that was sent is ever gone for good. -/
structure Connection where
  endpoints : Bool → Endpoint
  network : Bool → List Datagram

namespace Connection

/-- What happens at an endpoint. -/
inductive Event where
  | write (bytes : Bytes)
  | close
  /-- The application reads some of what was handed to it. -/
  | read (count : ℕ)
  | readLocal (size : ℕ)
  | flush (maxWindowBytes packetSize maxSize : ℕ)
  | finish
  | retransmit (seqNr : UInt16)
  | sendState
  /-- A datagram of the other endpoint arrives. -/
  | receive (i : ℕ)
deriving DecidableEq

/-- An endpoint goes on and sends some datagrams. -/
def proceed (c : Connection) (side : Bool) (endpoint : Endpoint) (datagrams : List Datagram) : Connection where
  endpoints := Function.update c.endpoints side endpoint
  network := Function.update c.network side (c.network side ++ datagrams)

/-- What an event leads to, if it is possible. The application may write, read and close at any time; the driver does
nothing any more when it has returned. -/
def next (c : Connection) (side : Bool) : Event → Option Connection
  | .write bytes =>
    let endpoint := c.endpoints side
    let s := endpoint.sender
    if s.closed then none
    else some (c.proceed side
      { endpoint with sender := { s with written := s.written ++ bytes, unread := s.unread ++ bytes } } [])
  | .close =>
    let endpoint := c.endpoints side
    some (c.proceed side { endpoint with sender := { endpoint.sender with closed := true } } [])
  | .read count =>
    let endpoint := c.endpoints side
    let r := endpoint.receiver
    if 0 < count ∧ count ≤ r.localReceiveBufferedBytes then
      some (c.proceed side
        { endpoint with
          receiver := { r with localReceiveBufferedBytes := r.localReceiveBufferedBytes - count } } [])
    else none
  | .readLocal size =>
    let endpoint := c.endpoints side
    if endpoint.stopped ∨ endpoint.sender.localEof ∨ endpoint.receiver.remoteEofDelivered ∨
        endpoint.sender.pendingPayloads.length ≥ maxInflightPackets then none
    else (endpoint.sender.readLocal size).map fun s => c.proceed side { endpoint with sender := s } []
  | .flush maxWindowBytes packetSize maxSize =>
    let endpoint := c.endpoints side
    if endpoint.stopped then none
    else (endpoint.sender.flush maxWindowBytes packetSize maxSize).map fun (s, segment) =>
      c.proceed side { endpoint with sender := s }
        [endpoint.datagram segment endpoint.sender.nextSendSeqNr endpoint.sender.sent.length]
  | .finish =>
    let endpoint := c.endpoints side
    let s := endpoint.sender
    if endpoint.stopped ∨ !s.localEof ∨ s.pendingPayloads ≠ [] ∨ s.unackedPackets ≠ [] then none
    else if s.localFinSent then some (c.proceed side { endpoint with stopped := true } [])
    else some (c.proceed side { endpoint with sender := { s.send ⟨true, []⟩ with localFinSent := true } }
      [endpoint.datagram ⟨true, []⟩ s.nextSendSeqNr s.sent.length])
  | .retransmit seqNr =>
    let endpoint := c.endpoints side
    let s := endpoint.sender
    if endpoint.stopped then none
    else (s.unackedPackets.find? fun sent => sent.seqNr = seqNr).map fun found =>
      if found.retransmits ≥ maxRetransmits then c.proceed side { endpoint with stopped := true } []
      else
        let repeated := s.unackedPackets.map fun sent =>
          if sent = found then { sent with retransmits := sent.retransmits + 1 } else sent
        c.proceed side { endpoint with sender := { s with unackedPackets := repeated } }
          [endpoint.datagram found.segment found.seqNr found.index]
  | .sendState =>
    let endpoint := c.endpoints side
    if endpoint.stopped ∨ !endpoint.receiver.ackPending then none
    else some (c.proceed side
      { endpoint with receiver := { endpoint.receiver with ackPending := false } } [endpoint.stateDatagram])
  | .receive i =>
    let endpoint := c.endpoints side
    if endpoint.stopped then none
    else (c.network !side)[i]?.map fun datagram => c.proceed side (endpoint.process datagram.packet) []

/-- A connection that has just been established, with the first sequence number of each endpoint. -/
def established (first : Bool → UInt16) : Connection where
  endpoints side :=
    { sender := ⟨[], [], false, false, false, [], [], first side, receiveWindow, []⟩
      receiver := ⟨first (!side) - 1, ∅, none, false, [], 0, false, false, 0⟩
      stopped := false }
  network _ := []

end Connection

end Utp

end Superseedr
