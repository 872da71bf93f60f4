import Mathlib.Data.List.TakeWhile
import Superseedr.Model.Protocol

/-! # Messages survive the wire

What is generated for a message is a frame of the reader's decoder: whole it gives the message back, and no
part of it is mistaken for anything. The reader therefore finds exactly the messages that were sent, however
the stream is cut. The extended handshake is received as the extension message that carries it.
-/

namespace Superseedr

open List UInt32

variable {front back before data : Bytes} {message : Message} {n offset : ℕ}

theorem length_frame (messageLen : UInt32) (messageId : UInt8) (payload : Bytes) :
    (frame messageLen messageId payload).length = 4 + (1 + payload.length) := by
  simp only [frame, length_append, length_toBeBytes, length_cons]
  omega

section Frames

variable {messageLen : UInt32} {messageId : UInt8} {payload : Bytes}

variable (announced : messageLen.toNat = 1 + payload.length)
include announced

/-- A whole frame is decoded by its kind, whatever follows. -/
theorem parse_frame (rest : Bytes) : parseMessageFromBytes (frame messageLen messageId payload ++ rest) =
      (parsePayload messageId payload).map fun message => (message, (frame messageLen messageId payload).length) := by
  have front : (frame messageLen messageId payload ++ rest).take 4 = toBeBytes messageLen := by
    rw [frame, append_assoc, take_left' (length_toBeBytes _)]
  have body : ((frame messageLen messageId payload ++ rest).drop 4).take (1 + payload.length) =
      messageId :: payload := by
    rw [frame, append_assoc, drop_left' (length_toBeBytes _), cons_append, Nat.add_comm, take_succ_cons, take_left]
  simp only [parseMessageFromBytes, front, fromBeBytes_toBeBytes, announced, body, length_append, length_frame]
  rw [if_neg (by omega), if_neg (by omega), if_neg (by omega)]

theorem parse_part (cut : frame messageLen messageId payload = front ++ back) (more : back ≠ []) :
    parseMessageFromBytes front = .error .unexpectedEof := by
  have missing := length_pos_of_ne_nil more
  have whole := congrArg length cut
  rw [length_frame, length_append] at whole
  by_cases short : front.length < 4
  · rw [parseMessageFromBytes, if_pos short]
  have head : front.take 4 = toBeBytes messageLen := by
    have same := congrArg (take 4) cut
    rw [frame, take_left' (length_toBeBytes _), take_append_of_le_length (by omega)] at same
    exact same.symm
  simp only [parseMessageFromBytes, head, fromBeBytes_toBeBytes, announced]
  rw [if_neg short, if_neg (by omega), if_pos (by omega)]

theorem isFrame_frame (parsed : parsePayload messageId payload = .ok message) :
    messageDecoder.Frame (frame messageLen messageId payload) message where
  whole rest := by
    change parseMessageFromBytes (frame messageLen messageId payload ++ rest) = _
    rw [parse_frame announced, parsed]
    rfl
  part _ _ cut more := ⟨.unexpectedEof, parse_part announced cut more, rfl⟩

end Frames

theorem isFrame_extended (extendedId : UInt8) {payload : Bytes} (limit : 2 + payload.length < 2 ^ 32) :
    messageDecoder.Frame (wrappedFrame 20 (extendedId :: payload)) (.extended extendedId payload) := by
  have fits : 1 + (extendedId :: payload).length < 2 ^ 32 := by
    rw [length_cons]
    omega
  exact isFrame_frame (toNat_ofNat_of_lt fits) rfl

theorem isFrame_keepAlive : messageDecoder.Frame [0, 0, 0, 0] .keepAlive where
  whole rest := by
    have enough : ¬([0, 0, 0, 0] ++ rest : Bytes).length < 4 := by
      rw [length_append]
      exact Nat.not_lt.mpr (Nat.le_add_right 4 _)
    change parseMessageFromBytes ([0, 0, 0, 0] ++ rest) = _
    rw [parseMessageFromBytes, if_neg enough]
    rfl
  part front back cut more := by
    have missing := length_pos_of_ne_nil more
    have whole := congrArg length cut
    rw [length_append] at whole
    refine ⟨.unexpectedEof, ?_, rfl⟩
    change parseMessageFromBytes front = _
    rw [parseMessageFromBytes, if_pos]
    simp only [length_cons, length_nil] at whole
    omega

section Payloads

theorem take_toBeBytes (x : UInt32) (rest : Bytes) : (toBeBytes x ++ rest).take 4 = toBeBytes x :=
  take_left' (length_toBeBytes x)

theorem drop_toBeBytes (x : UInt32) (rest : Bytes) : (toBeBytes x ++ rest).drop 4 = rest :=
  drop_left' (length_toBeBytes x)

theorem length_append_toBeBytes (here : before.length = n) (x : UInt32) : (before ++ toBeBytes x).length = n + 4 := by
  rw [length_append, here, length_toBeBytes]

theorem readBeU32_append (here : before.length = offset) (x : UInt32) (rest : Bytes) :
    readBeU32 (before ++ (toBeBytes x ++ rest)) offset = .ok x := by
  have enough : ¬offset + 4 > (before ++ (toBeBytes x ++ rest)).length := by
    simp only [length_append, length_toBeBytes, here]
    omega
  rw [readBeU32, if_neg enough, drop_left' here, take_toBeBytes, fromBeBytes_toBeBytes]

theorem parseNumber_toBeBytes (what : String) (make : UInt32 → Message) (x : UInt32) :
    parseNumber what make (toBeBytes x) = .ok (make x) := by
  rw [parseNumber, if_neg (not_not.mpr (length_toBeBytes x)), fromBeBytes_toBeBytes]

theorem parseBlock_toBeBytes (what : String) (make : UInt32 → UInt32 → UInt32 → Message) (x y z : UInt32) :
    parseBlock what make (toBeBytes x ++ toBeBytes y ++ toBeBytes z) = .ok (make x y z) := by
  have size : (toBeBytes x ++ toBeBytes y ++ toBeBytes z).length = 12 := rfl
  have last : (toBeBytes x ++ toBeBytes y ++ toBeBytes z).drop 8 = toBeBytes z := rfl
  rw [parseBlock, if_neg (not_not.mpr size), last, append_assoc, take_toBeBytes, drop_toBeBytes, take_toBeBytes]
  simp only [fromBeBytes_toBeBytes]

theorem parsePayload_piece (index begin : UInt32) (block : Bytes) :
    parsePayload 7 (toBeBytes index ++ toBeBytes begin ++ block) = .ok (.piece index begin block) := by
  have enough : ¬(toBeBytes index ++ toBeBytes begin ++ block).length < 8 := by
    simp only [length_append, length_toBeBytes]
    omega
  have rest : (toBeBytes index ++ toBeBytes begin ++ block).drop 8 = block := rfl
  simp only [parsePayload, UInt8.reduceToNat]
  rw [if_neg enough, rest, append_assoc, take_toBeBytes, drop_toBeBytes, take_toBeBytes]
  simp only [fromBeBytes_toBeBytes]

variable {root : Bytes}

theorem length_hashRange (sized : root.length = 32) (base offset length proofLayers : UInt32) :
    (root ++ toBeBytes base ++ toBeBytes offset ++ toBeBytes length ++ toBeBytes proofLayers).length = 48 := by
  simp only [length_append, length_toBeBytes, sized]

theorem parseHashRange_toBeBytes (what : String) (make : Bytes → UInt32 → UInt32 → UInt32 → UInt32 → Message)
    (sized : root.length = 32) (base offset length proofLayers : UInt32) : parseHashRange what make
        (root ++ toBeBytes base ++ toBeBytes offset ++ toBeBytes length ++ toBeBytes proofLayers) =
      .ok (make root base offset length proofLayers) := by
  rw [parseHashRange, if_neg (not_not.mpr (length_hashRange sized base offset length proofLayers))]
  have first := readBeU32_append sized base (toBeBytes offset ++ toBeBytes length ++ toBeBytes proofLayers)
  have second := readBeU32_append (length_append_toBeBytes sized base) offset
    (toBeBytes length ++ toBeBytes proofLayers)
  have third := readBeU32_append (length_append_toBeBytes (length_append_toBeBytes sized base) offset) length
    (toBeBytes proofLayers)
  have fourth := readBeU32_append
    (length_append_toBeBytes (length_append_toBeBytes (length_append_toBeBytes sized base) offset) length)
    proofLayers []
  simp only [append_assoc, append_nil] at first second third fourth ⊢
  rw [first, second, third, fourth, take_left' sized]
  rfl

/-- Hashes without a count in front of them are left as they are. -/
theorem trimProof_of_dvd (whole : 32 ∣ data.length) : trimProof data = data := by
  rw [trimProof, if_neg]
  exact fun odd => odd.2 (Nat.mod_eq_zero_of_dvd whole)

theorem parseHashPiece_toBeBytes (sized : root.length = 32) (base offset : UInt32) (whole : 32 ∣ data.length) :
    parseHashPiece (root ++ toBeBytes base ++ toBeBytes offset ++ data) = .ok (.hashPiece root base offset data) := by
  have enough : ¬(root ++ toBeBytes base ++ toBeBytes offset ++ data).length < 40 := by
    simp only [length_append, length_toBeBytes, sized]
    omega
  have front : (root ++ toBeBytes base ++ toBeBytes offset).length = 40 := by
    simp only [length_append, length_toBeBytes, sized]
  rw [parseHashPiece, if_neg enough, drop_left' front, trimProof_of_dvd whole]
  have first := readBeU32_append sized base (toBeBytes offset ++ data)
  have second := readBeU32_append (length_append_toBeBytes sized base) offset data
  simp only [append_assoc] at first second ⊢
  rw [first, second, take_left' sized]
  rfl

end Payloads

namespace Message

variable (toBytes : ExtendedHandshakePayload → Bytes)

/-- A message other than the handshake whose roots are hashes, whose proofs are whole hashes, and whose length can be
announced. -/
def Framed : Message → Prop
  | .handshake .. => False
  | .bitfield bits => 1 + bits.length < 2 ^ 32
  | .piece _ _ block => 9 + block.length < 2 ^ 32
  | .extendedHandshake metadataSize => 2 + (toBytes (extendedHandshakePayload metadataSize)).length < 2 ^ 32
  | .extended _ payload => 2 + payload.length < 2 ^ 32
  | .hashRequest root .. | .hashReject root .. => root.length = 32
  | .hashPiece root _ _ data => root.length = 32 ∧ 32 ∣ data.length ∧ 41 + data.length < 2 ^ 32
  | _ => True

/-- What the reader makes of a message: the extended handshake is one of the extension messages. -/
def received : Message → Message
  | .extendedHandshake metadataSize =>
    .extended ClientExtendedId.handshake.id (toBytes (extendedHandshakePayload metadataSize))
  | message => message

theorem isFrame (framed : message.Framed toBytes) :
    ∃ bytes, generateMessage toBytes message = .ok bytes ∧ messageDecoder.Frame bytes (message.received toBytes) := by
  cases message with
  | handshake infoHash clientId => exact framed.elim
  | keepAlive => exact ⟨_, rfl, isFrame_keepAlive⟩
  | choke => exact ⟨frame 1 0 [], rfl, isFrame_frame rfl rfl⟩
  | unchoke => exact ⟨frame 1 1 [], rfl, isFrame_frame rfl rfl⟩
  | interested => exact ⟨frame 1 2 [], rfl, isFrame_frame rfl rfl⟩
  | notInterested => exact ⟨frame 1 3 [], rfl, isFrame_frame rfl rfl⟩
  | havePiece index => exact ⟨_, rfl, isFrame_frame rfl (parseNumber_toBeBytes "Have" .havePiece index)⟩
  | port port => exact ⟨_, rfl, isFrame_frame rfl (parseNumber_toBeBytes "Port" .port port)⟩
  | bitfield bits => exact ⟨_, if_pos framed, isFrame_frame (toNat_ofNat_of_lt framed) rfl⟩
  | request index begin length =>
    exact ⟨_, rfl, isFrame_frame rfl (parseBlock_toBeBytes "Request" .request index begin length)⟩
  | cancel index begin length =>
    exact ⟨_, rfl, isFrame_frame rfl (parseBlock_toBeBytes "Cancel" .cancel index begin length)⟩
  | piece index begin block =>
    have fits : 1 + (toBeBytes index ++ toBeBytes begin ++ block).length < 2 ^ 32 := by
      have limit : 9 + block.length < 2 ^ 32 := framed
      simp only [length_append, length_toBeBytes]
      omega
    exact ⟨_, if_pos fits, isFrame_frame (toNat_ofNat_of_lt fits) (parsePayload_piece index begin block)⟩
  | extendedHandshake metadataSize =>
    exact ⟨_, rfl, isFrame_extended ClientExtendedId.handshake.id framed⟩
  | extended extendedId payload => exact ⟨_, rfl, isFrame_extended extendedId framed⟩
  | hashRequest root base offset length proofLayers =>
    refine ⟨_, rfl, isFrame_frame ?_
      (parseHashRange_toBeBytes "HashRequest" .hashRequest framed base offset length proofLayers)⟩
    rw [length_hashRange framed]
    rfl
  | hashReject root base offset length proofLayers =>
    refine ⟨_, rfl, isFrame_frame ?_
      (parseHashRange_toBeBytes "HashReject" .hashReject framed base offset length proofLayers)⟩
    rw [length_hashRange framed]
    rfl
  | hashPiece root base offset data =>
    obtain ⟨sized, whole, limit⟩ := framed
    refine ⟨_, rfl, isFrame_frame ?_ (parseHashPiece_toBeBytes sized base offset whole)⟩
    rw [toNat_ofNat', Nat.mod_eq_of_lt (by omega), length_append, length_append_toBeBytes
      (length_append_toBeBytes sized base) offset]
    omega

theorem isFrame_mapM {messages : List Message} (framed : ∀ message ∈ messages, message.Framed toBytes) :
    ∃ frames, messages.mapM (generateMessage toBytes) = .ok frames ∧
      List.Forall₂ messageDecoder.Frame frames (messages.map (received toBytes)) := by
  induction messages with
  | nil => exact ⟨[], rfl, .nil⟩
  | cons message messages ih =>
    obtain ⟨bytes, generated, isFrame⟩ := isFrame toBytes (framed message (.head _))
    obtain ⟨frames, others, areFrames⟩ := ih fun later member => framed later (.tail _ member)
    refine ⟨bytes :: frames, ?_, .cons isFrame areFrames⟩
    rw [mapM_cons, generated, others]
    rfl

end Message

/-- Reading in parts loses nothing and does not look like the end of the stream. -/
theorem readsOf_spec (fragment : Bytes) : (readsOf fragment).flatten = fragment ∧ [] ∉ readsOf fragment := by
  fun_induction readsOf fragment with
  | case1 => exact ⟨rfl, not_mem_nil⟩
  | case2 fragment some ih =>
    refine ⟨by rw [flatten_cons, ih.1, take_append_drop], ?_⟩
    rw [mem_cons, not_or]
    refine ⟨fun nothing => ?_, ih.2⟩
    have size := congrArg length nothing
    have positive := length_pos_of_ne_nil some
    rw [length_take, socketBufLen, length_nil] at size
    omega

theorem flatten_reads (fragments : List Bytes) : (fragments.flatMap readsOf).flatten = fragments.flatten := by
  induction fragments with
  | nil => rfl
  | cons fragment rest ih => rw [flatMap_cons, flatten_append, ih, (readsOf_spec fragment).1, flatten_cons]

theorem readerTask_of_reads (fragments : List Bytes) :
    readerTask (fragments.flatMap readsOf) =
      (fragments.flatMap readsOf).foldl messageDecoder.receive ⟨[], [], none⟩ := by
  rw [readerTask, takeWhile_eq_self_iff.mpr]
  intro read member
  obtain ⟨fragment, -, member⟩ := mem_flatMap.mp member
  exact decide_eq_true fun nothing => (readsOf_spec fragment).2 (nothing ▸ member)

/-- A sequence of messages is received as it was sent, however what is generated for it is cut into fragments, and
nothing is left over. -/
theorem wire_round_trip (toBytes : ExtendedHandshakePayload → Bytes) (messages : List Message)
    (framed : ∀ message ∈ messages, message.Framed toBytes) :
    ∃ frames, messages.mapM (generateMessage toBytes) = .ok frames ∧
      ∀ fragments : List Bytes, fragments.flatten = frames.flatten →
        readerTask (fragments.flatMap readsOf) = ⟨[], messages.map (Message.received toBytes), none⟩ := by
  obtain ⟨frames, generated, areFrames⟩ := Message.isFrame_mapM toBytes framed
  refine ⟨frames, generated, fun fragments same => ?_⟩
  rw [readerTask_of_reads]
  exact Decoder.receive_all areFrames ((flatten_reads fragments).trans same)

/-- A keep-alive, a request and the extended handshake are received in this order. -/
theorem wire_round_trip_mixed : ∃ frames, [Message.keepAlive, .request 1 0 16384,
      .extendedHandshake (some 31235)].mapM (generateMessage fun _ => utf8Bytes "de") = .ok frames ∧
      ∀ fragments : List Bytes, fragments.flatten = frames.flatten →
        readerTask (fragments.flatMap readsOf) =
          ⟨[], [.keepAlive, .request 1 0 16384, .extended 0 (utf8Bytes "de")], none⟩ := by
  refine wire_round_trip _ [.keepAlive, .request 1 0 16384, .extendedHandshake (some 31235)] fun message member => ?_
  simp only [mem_cons, not_mem_nil, or_false] at member
  rcases member with rfl | rfl | rfl
  · trivial
  · trivial
  · show 2 + (utf8Bytes "de").length < 2 ^ 32
    decide +kernel

end Superseedr
