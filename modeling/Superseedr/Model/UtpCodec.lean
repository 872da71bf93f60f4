import Superseedr.Model.Protocol

/-! # The bytes of a uTP packet

A packet is a header of 20 bytes, a chain of extensions and a payload. The header tells the kind of the first extension,
and each extension that of the next one. Only selective acknowledgements are understood.
-/

namespace Superseedr.Utp

def utpVersion : UInt8 := 1
def typeSyn : UInt8 := 4
def extNone : UInt8 := 0
def extSelectiveAck : UInt8 := 1

structure UtpPacket where
  packetType : UInt8
  connectionId : UInt16
  timestampMicroseconds : UInt32
  timestampDifferenceMicroseconds : UInt32
  wndSize : UInt32
  seqNr : UInt16
  ackNr : UInt16
  selectiveAck : Bytes
  payload : Bytes

def u16ToBeBytes (x : UInt16) : Bytes := [x.toNat / 256, x.toNat].map UInt8.ofNat

/-- The header of a packet in front of an extension of the given kind. -/
def headerBytes (packet : UtpPacket) (extension : UInt8) : Bytes :=
  (packet.packetType <<< 4 ||| utpVersion) :: extension :: u16ToBeBytes packet.connectionId ++
    toBeBytes packet.timestampMicroseconds ++ toBeBytes packet.timestampDifferenceMicroseconds ++
    toBeBytes packet.wndSize ++ u16ToBeBytes packet.seqNr ++ u16ToBeBytes packet.ackNr

def encodeUtpPacket (packet : UtpPacket) : Bytes :=
  if packet.selectiveAck = [] then headerBytes packet extNone ++ packet.payload
  else headerBytes packet extSelectiveAck ++
    (extNone :: .ofNat packet.selectiveAck.length :: packet.selectiveAck ++ packet.payload)

/-- Where the payload starts, and the last selective acknowledgement. -/
def parseExtensionChain (bytes : Bytes) (extension : UInt8) (offset : ℕ) (selectiveAck : Bytes) :
    Except String (ℕ × Bytes) :=
  if extension = extNone then .ok (offset, selectiveAck)
  else if short : bytes.length < offset + 2 then .error "uTP extension header truncated"
  else
    let extensionLen := bytes[offset + 1].toNat
    if bytes.length < offset + 2 + extensionLen then .error "uTP extension body truncated"
    else parseExtensionChain bytes bytes[offset] (offset + 2 + extensionLen)
      (if extension = extSelectiveAck then (bytes.drop (offset + 2)).take extensionLen else selectiveAck)
termination_by bytes.length - offset

def decodePacket (bytes : Bytes) : Except String UtpPacket :=
  if short : bytes.length < 20 then .error "uTP packet shorter than header"
  else if bytes[0] &&& 0x0F ≠ utpVersion then .error "unsupported uTP packet version"
  else if bytes[0] >>> 4 > typeSyn then .error "unsupported uTP packet type"
  else parseExtensionChain bytes bytes[1] 20 [] >>= fun (payloadOffset, selectiveAck) =>
    .ok
      { packetType := bytes[0] >>> 4
        connectionId := (fromBeBytes ((bytes.drop 2).take 2)).toUInt16
        timestampMicroseconds := fromBeBytes ((bytes.drop 4).take 4)
        timestampDifferenceMicroseconds := fromBeBytes ((bytes.drop 8).take 4)
        wndSize := fromBeBytes ((bytes.drop 12).take 4)
        seqNr := (fromBeBytes ((bytes.drop 16).take 2)).toUInt16
        ackNr := (fromBeBytes ((bytes.drop 18).take 2)).toUInt16
        selectiveAck
        payload := bytes.drop payloadOffset }

end Superseedr.Utp
