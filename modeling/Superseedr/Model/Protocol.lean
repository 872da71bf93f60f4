import Superseedr.ToMathlib.Framing
import Superseedr.Model.Validation

/-! # The peer wire protocol

A message is a 32-bit length, a byte that tells its kind, and its payload; only the handshake at the start
of a connection looks different. The reader keeps what it could not decode yet in a buffer and passes on
every message it finds at the front. It asks for more input while the announced length is not there, and
stops for good at a message it cannot decode.
-/

namespace Superseedr

/-- `u32::to_be_bytes`. -/
def toBeBytes (x : UInt32) : Bytes :=
  [x.toNat / 2 ^ 24, x.toNat / 2 ^ 16, x.toNat / 2 ^ 8, x.toNat].map UInt8.ofNat

/-- `u32::from_be_bytes`. -/
def fromBeBytes (bytes : Bytes) : UInt32 :=
  UInt32.ofNat (bytes.foldl (fun value byte => value * 256 + byte.toNat) 0)

@[simp] theorem length_toBeBytes (x : UInt32) : (toBeBytes x).length = 4 := rfl

@[simp] theorem fromBeBytes_toBeBytes (x : UInt32) : fromBeBytes (toBeBytes x) = x := by
  have small := x.toNat_lt
  rw [← UInt32.toNat_inj]
  simp only [fromBeBytes, toBeBytes, List.map_cons, List.map_nil, List.foldl_cons, List.foldl_nil,
    UInt32.toNat_ofNat', UInt8.toNat_ofNat']
  omega

inductive Message where
  | handshake (infoHash clientId : Bytes)
  | keepAlive
  | choke
  | unchoke
  | interested
  | notInterested
  | havePiece (index : UInt32)
  | bitfield (bitfield : Bytes)
  | request (index begin length : UInt32)
  | piece (index begin : UInt32) (block : Bytes)
  | cancel (index begin length : UInt32)
  | port (port : UInt32)
  | extendedHandshake (metadataSize : Option Int64)
  | extended (extendedId : UInt8) (payload : Bytes)
  | hashRequest (root : Bytes) (base offset length proofLayers : UInt32)
  | hashReject (root : Bytes) (base offset length proofLayers : UInt32)
  | hashPiece (root : Bytes) (base offset : UInt32) (data : Bytes)
deriving DecidableEq, Repr

inductive ClientExtendedId where
  | handshake
  | utPex
  | utMetadata
deriving DecidableEq, Repr

namespace ClientExtendedId

def id : ClientExtendedId → UInt8
  | handshake => 0
  | utPex => 1
  | utMetadata => 2

def asStr : ClientExtendedId → String
  | handshake => "handshake"
  | utPex => "ut_pex"
  | utMetadata => "ut_metadata"

def iter : List ClientExtendedId := [handshake, utPex, utMetadata]

end ClientExtendedId

structure ExtendedHandshakePayload where
  m : List (String × UInt8)
  metadataSize : Option Int64
  ltV2 : Option UInt8

def extendedHandshakePayload (metadataSize : Option Int64) : ExtendedHandshakePayload where
  m := (ClientExtendedId.iter.filter (· ≠ .handshake)).map fun variant => (variant.asStr, variant.id)
  metadataSize
  ltV2 := some 1

inductive MessageGenerationError where
  | payloadTooLarge (what : String)
deriving DecidableEq, Repr

/-- An announced length, the kind of a message and its payload. -/
def frame (messageLen : UInt32) (messageId : UInt8) (payload : Bytes) : Bytes :=
  toBeBytes messageLen ++ messageId :: payload

/-- A frame that announces a length which must fit in 32 bits. -/
def checkedFrame (what : String) (messageId : UInt8) (payload : Bytes) : Except MessageGenerationError Bytes :=
  if 1 + payload.length < 2 ^ 32 then .ok (frame (.ofNat (1 + payload.length)) messageId payload)
  else .error (.payloadTooLarge what)

/-- A frame that announces the low 32 bits of its length. -/
def wrappedFrame (messageId : UInt8) (payload : Bytes) : Bytes :=
  frame (.ofNat (1 + payload.length)) messageId payload

/-- What is sent for a message. `toBytes` is the bencoding of the extended handshake. -/
def generateMessage (toBytes : ExtendedHandshakePayload → Bytes) : Message → Except MessageGenerationError Bytes
  | .handshake infoHash clientId =>
    .ok (19 :: utf8Bytes "BitTorrent protocol" ++ [0, 0, 0, 0, 0, 0x10, 0, 0] ++ infoHash ++ clientId)
  | .keepAlive => .ok [0, 0, 0, 0]
  | .choke => .ok [0, 0, 0, 1, 0]
  | .unchoke => .ok [0, 0, 0, 1, 1]
  | .interested => .ok [0, 0, 0, 1, 2]
  | .notInterested => .ok [0, 0, 0, 1, 3]
  | .havePiece index => .ok (frame 5 4 (toBeBytes index))
  | .bitfield bitfield => checkedFrame "Bitfield" 5 bitfield
  | .request index begin length => .ok (frame 13 6 (toBeBytes index ++ toBeBytes begin ++ toBeBytes length))
  | .piece index begin block => checkedFrame "Piece" 7 (toBeBytes index ++ toBeBytes begin ++ block)
  | .cancel index begin length => .ok (frame 13 8 (toBeBytes index ++ toBeBytes begin ++ toBeBytes length))
  | .port port => .ok (frame 5 9 (toBeBytes port))
  | .extendedHandshake metadataSize =>
    .ok (wrappedFrame 20 (ClientExtendedId.handshake.id :: toBytes (extendedHandshakePayload metadataSize)))
  | .extended extendedId payload => .ok (wrappedFrame 20 (extendedId :: payload))
  -- The announced length of the next two kinds does not depend on the length of the root.
  | .hashRequest root base offset length proofLayers =>
    .ok (frame 49 21 (root ++ toBeBytes base ++ toBeBytes offset ++ toBeBytes length ++ toBeBytes proofLayers))
  | .hashReject root base offset length proofLayers =>
    .ok (frame 49 23 (root ++ toBeBytes base ++ toBeBytes offset ++ toBeBytes length ++ toBeBytes proofLayers))
  | .hashPiece root base offset data =>
    .ok (frame (.ofNat (1 + 32 + 4 + 4 + data.length)) 22 (root ++ toBeBytes base ++ toBeBytes offset ++ data))

/-- Why a message is not found at the front of a buffer. -/
inductive ParseError where
  | unexpectedEof
  | invalidData (message : String)
deriving DecidableEq, Repr

def readBeU32 (slice : Bytes) (offset : ℕ) : Except ParseError UInt32 :=
  if offset + 4 > slice.length then .error (.invalidData "Payload too short")
  else .ok (fromBeBytes ((slice.drop offset).take 4))

def parseNumber (what : String) (make : UInt32 → Message) (payload : Bytes) : Except ParseError Message :=
  if payload.length ≠ 4 then .error (.invalidData ("Invalid payload size for " ++ what))
  else .ok (make (fromBeBytes payload))

def parseBlock (what : String) (make : UInt32 → UInt32 → UInt32 → Message) (payload : Bytes) :
    Except ParseError Message :=
  if payload.length ≠ 12 then .error (.invalidData ("Invalid payload size for " ++ what))
  else .ok (make (fromBeBytes (payload.take 4)) (fromBeBytes ((payload.drop 4).take 4)) (fromBeBytes (payload.drop 8)))

def parseHashRange (what : String) (make : Bytes → UInt32 → UInt32 → UInt32 → UInt32 → Message) (payload : Bytes) :
    Except ParseError Message :=
  if payload.length ≠ 48 then .error (.invalidData ("Invalid " ++ what ++ " length: " ++ toString payload.length))
  else do
    let base ← readBeU32 payload 32
    let offset ← readBeU32 payload 36
    let length ← readBeU32 payload 40
    let proofLayers ← readBeU32 payload 44
    return make (payload.take 32) base offset length proofLayers

/-- Counts that some peers put in front of the hashes are cut off. -/
def trimProof (data : Bytes) : Bytes :=
  if data ≠ [] ∧ data.length % 32 ≠ 0 then
    if data.length % 32 = 4 then data.drop 4
    else if data.length % 32 = 8 then data.drop 8
    else data
  else data

def parseHashPiece (payload : Bytes) : Except ParseError Message :=
  if payload.length < 40 then .error (.invalidData "Invalid HashPiece length")
  else do
    let base ← readBeU32 payload 32
    let offset ← readBeU32 payload 36
    return .hashPiece (payload.take 32) base offset (trimProof (payload.drop 40))

def parsePayload (messageId : UInt8) (payload : Bytes) : Except ParseError Message :=
  match messageId.toNat with
  | 0 => .ok .choke
  | 1 => .ok .unchoke
  | 2 => .ok .interested
  | 3 => .ok .notInterested
  | 4 => parseNumber "Have" .havePiece payload
  | 5 => .ok (.bitfield payload)
  | 6 => parseBlock "Request" .request payload
  | 7 =>
    if payload.length < 8 then .error (.invalidData "Invalid payload size for Piece")
    else .ok (.piece (fromBeBytes (payload.take 4)) (fromBeBytes ((payload.drop 4).take 4)) (payload.drop 8))
  | 8 => parseBlock "Cancel" .cancel payload
  | 9 => parseNumber "Port" .port payload
  | 20 =>
    match payload with
    | [] => .error (.invalidData "Empty payload for Extended message")
    | extendedId :: extendedPayload => .ok (.extended extendedId extendedPayload)
  | 21 => parseHashRange "HashRequest" .hashRequest payload
  | 22 => parseHashPiece payload
  | 23 => parseHashRange "HashReject" .hashReject payload
  | id => .error (.invalidData ("Unknown message ID: " ++ toString id))

/-- The message at the front of a buffer and the number of bytes it takes. -/
def parseMessageFromBytes (buffer : Bytes) : Except ParseError (Message × ℕ) :=
  if buffer.length < 4 then .error .unexpectedEof
  else
    let messageLen := (fromBeBytes (buffer.take 4)).toNat
    if messageLen = 0 then .ok (.keepAlive, 4)
    else if buffer.length - 4 < messageLen then .error .unexpectedEof
    else
      match (buffer.drop 4).take messageLen with
      | [] => .error .unexpectedEof
      | messageId :: payload => (parsePayload messageId payload).map fun message => (message, 4 + messageLen)

/-- A message takes some bytes, and no more than there are. -/
theorem parseMessageFromBytes_progress (buffer : Bytes) (message : Message) (consumed : ℕ)
    (parsed : parseMessageFromBytes buffer = .ok (message, consumed)) : 0 < consumed ∧ consumed ≤ buffer.length := by
  unfold parseMessageFromBytes at parsed
  extract_lets messageLen at parsed
  split at parsed
  · cases parsed
  split at parsed
  · cases parsed
    omega
  split at parsed
  · cases parsed
  split at parsed
  · cases parsed
  rename_i messageId payload _
  cases body : parsePayload messageId payload with
  | error e =>
    rw [body] at parsed
    cases parsed
  | ok message =>
    rw [body] at parsed
    cases parsed
    omega

/-- The decoder of the reader. -/
def messageDecoder : Decoder UInt8 Message ParseError where
  decode := parseMessageFromBytes
  incomplete e := e = .unexpectedEof
  progress := parseMessageFromBytes_progress
  starved := ⟨.unexpectedEof, rfl, rfl⟩

/-- The size of the buffer for one read from the socket. -/
def socketBufLen : ℕ := 16384 + 1024

/-- What successive reads return for bytes that arrive together. -/
def readsOf (fragment : Bytes) : List Bytes :=
  if fragment = [] then [] else fragment.take socketBufLen :: readsOf (fragment.drop socketBufLen)
termination_by fragment.length
decreasing_by
  have := List.length_pos_of_ne_nil ‹_›
  rw [List.length_drop, socketBufLen]
  omega

/-- What the reader does with the results of its reads: the messages it passes on, the bytes it still holds and the
error it stopped with. A read of no bytes is the end of the stream. -/
def readerTask (reads : List Bytes) : Decoder.Receiver UInt8 Message ParseError :=
  (reads.takeWhile (· ≠ [])).foldl messageDecoder.receive ⟨[], [], none⟩

end Superseedr
