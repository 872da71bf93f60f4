import Superseedr.Model.UtpCodec

/-! # uTP packets survive their encoding

Whatever extensions are put into the chain of an encoded packet, decoding finds its header, its selective
acknowledgement and its payload, as long as it does not know the extensions.
-/

namespace Superseedr.Utp

open List

variable {payload bytes selectiveAck found : Bytes} {offset stop : ℕ} {extension packetType : UInt8}
  {packet : Utp.UtpPacket}

theorem fromBeBytes_u16ToBeBytes (x : UInt16) : (fromBeBytes (u16ToBeBytes x)).toUInt16 = x := by
  have small := x.toNat_lt
  rw [← UInt16.toNat_inj]
  simp only [fromBeBytes, u16ToBeBytes, map_cons, map_nil, foldl_cons, foldl_nil, UInt32.toNat_toUInt16,
    UInt32.toNat_ofNat', UInt8.toNat_ofNat']
  omega

/-- An extension with its kind. -/
abbrev Extension := UInt8 × Bytes

/-- An extension that a chain can hold. -/
def Extension.Framed (extension : Extension) : Prop := extension.1 ≠ extNone ∧ extension.2.length ≤ 255

/-- The kind that stands in front of a chain. -/
def kindOf (chain : List Extension) : UInt8 := (chain.head?.map Prod.fst).getD extNone

def chainBytes : List Extension → Bytes
  | [] => []
  | (_, body) :: rest => kindOf rest :: .ofNat body.length :: body ++ chainBytes rest

def lastAck (chain : List Extension) (selectiveAck : Bytes) : Bytes :=
  chain.foldl (fun ack extension => if extension.1 = extSelectiveAck then extension.2 else ack) selectiveAck

def ownChain (packet : UtpPacket) : List Extension :=
  if packet.selectiveAck = [] then [] else [(extSelectiveAck, packet.selectiveAck)]

def encodeWith (packet : UtpPacket) (chain : List Extension) : Bytes :=
  headerBytes packet (kindOf chain) ++ (chainBytes chain ++ packet.payload)

theorem encodeWith_ownChain (packet : UtpPacket) : encodeWith packet (ownChain packet) = encodeUtpPacket packet := by
  unfold ownChain encodeUtpPacket
  split_ifs
  · rfl
  · rw [encodeWith, chainBytes, chainBytes, append_nil]
    rfl

variable {chain : List Utp.Extension}

theorem parseExtensionChain_chainBytes (chained : bytes.drop offset = chainBytes chain ++ payload)
    (framed : ∀ extension ∈ chain, extension.Framed) :
    parseExtensionChain bytes (kindOf chain) offset selectiveAck =
      .ok (offset + (chainBytes chain).length, lastAck chain selectiveAck) := by
  induction chain generalizing offset selectiveAck with
  | nil =>
    rw [parseExtensionChain]
    rfl
  | cons extension rest ih =>
    obtain ⟨kind, body⟩ := extension
    obtain ⟨⟨some, small⟩, others⟩ := forall_mem_cons.mp framed
    have length := congrArg List.length chained
    simp only [chainBytes, length_drop, length_append, length_cons] at length
    rw [drop_eq_getElem_cons (show offset < bytes.length by omega),
      drop_eq_getElem_cons (show offset + 1 < bytes.length by omega)] at chained
    simp only [chainBytes, cons_append, cons.injEq, append_assoc] at chained
    obtain ⟨isNext, isLength, behind⟩ := chained
    have extensionLen : bytes[offset + 1].toNat = body.length := by
      rw [isLength, UInt8.toNat_ofNat_of_lt' (Nat.lt_succ_of_le small)]
    have later : bytes.drop (offset + 2 + body.length) = chainBytes rest ++ payload := by
      rw [← drop_drop, behind, drop_left]
    have isKind : kindOf ((kind, body) :: rest) = kind := rfl
    rw [parseExtensionChain, isKind, if_neg some, dif_neg (by omega)]
    simp only [extensionLen, isNext]
    rw [if_neg (by omega), ih later others, behind, take_left]
    simp only [chainBytes, lastAck, foldl_cons, length_append, length_cons]
    congr 2
    omega

theorem parseExtensionChain_within (run : parseExtensionChain bytes extension offset selectiveAck = .ok (stop, found))
    (inside : offset ≤ bytes.length) : stop ≤ bytes.length := by
  fun_induction parseExtensionChain with
  | case1 =>
    cases run
    exact inside
  | case2 | case3 => cases run
  | case4 _ _ _ _ _ _ _ ih => exact ih run (by omega)

theorem first_byte (typed : packetType ≤ typeSyn) : (packetType <<< 4 ||| utpVersion) &&& 0x0F = utpVersion ∧
    (packetType <<< 4 ||| utpVersion) >>> 4 = packetType := by
  obtain ⟨n, small, rfl⟩ : ∃ n < 5, UInt8.ofNat n = packetType :=
    ⟨packetType.toNat, Nat.lt_succ_of_le (UInt8.le_iff_toNat_le.mp typed), UInt8.ofNat_toNat⟩
  clear typed
  decide +revert

theorem decodePacket_encodeWith (typed : packet.packetType ≤ typeSyn) (framed : ∀ extension ∈ chain, extension.Framed) :
    decodePacket (encodeWith packet chain) = .ok { packet with selectiveAck := lastAck chain [] } := by
  have parsed := @parseExtensionChain_chainBytes packet.payload (encodeWith packet chain) [] 20 chain rfl framed
  obtain ⟨version, kind⟩ := first_byte typed
  have long : ¬(encodeWith packet chain).length < 20 := by
    rw [encodeWith, length_append]
    exact Nat.not_lt.mpr (Nat.le_add_right 20 _)
  have payload : (encodeWith packet chain).drop (20 + (chainBytes chain).length) = packet.payload := by
    rw [← drop_drop]
    exact drop_left
  rw [decodePacket, dif_neg long]
  refine (if_neg (not_not.mpr version)).trans ((if_neg ?_).trans ((congrArg (· >>= _) parsed).trans ?_))
  · exact UInt8.not_lt.mpr (kind.trans_le typed)
  · refine congrArg Except.ok ?_
    rw [UtpPacket.mk.injEq]
    exact ⟨kind, fromBeBytes_u16ToBeBytes _, fromBeBytes_toBeBytes _, fromBeBytes_toBeBytes _, fromBeBytes_toBeBytes _,
      fromBeBytes_u16ToBeBytes _, fromBeBytes_u16ToBeBytes _, rfl, payload⟩

/-- A packet survives its encoding, also with extensions inserted that are not understood, and whatever is decoded, the
payload begins inside the bytes. -/
theorem utp_packet_round_trip (packet : UtpPacket) (typed : packet.packetType ≤ typeSyn)
    (short : packet.selectiveAck.length ≤ 255) :
    decodePacket (encodeUtpPacket packet) = .ok packet ∧ encodeWith packet (ownChain packet) = encodeUtpPacket packet ∧
      (∀ chain : List Extension, (∀ extension ∈ chain, extension.Framed) →
        chain.filter (·.1 = extSelectiveAck) = ownChain packet → decodePacket (encodeWith packet chain) = .ok packet) ∧
      ∀ bytes extension stop ack, 20 ≤ bytes.length → parseExtensionChain bytes extension 20 [] = .ok (stop, ack) →
        stop ≤ bytes.length := by
  obtain ⟨framed, own, ack⟩ : (∀ extension ∈ ownChain packet, extension.Framed) ∧
      (ownChain packet).filter (·.1 = extSelectiveAck) = ownChain packet ∧
      (ownChain packet).foldl (fun _ extension => extension.2) [] = packet.selectiveAck := by
    unfold ownChain
    split_ifs with nothing
    · exact ⟨nofun, rfl, nothing.symm⟩
    · exact ⟨forall_mem_singleton.mpr ⟨UInt8.zero_ne_one.symm, short⟩, rfl, rfl⟩
  have decodes (chain : List Extension) (framed : ∀ extension ∈ chain, extension.Framed)
      (inserted : chain.filter (·.1 = extSelectiveAck) = ownChain packet) :
      decodePacket (encodeWith packet chain) = .ok packet := by
    rw [← inserted, foldl_filter] at ack
    simp only [decide_eq_true_eq] at ack
    rw [decodePacket_encodeWith typed framed, lastAck, ack]
  refine ⟨?_, encodeWith_ownChain packet, decodes, ?_⟩
  · rw [← encodeWith_ownChain]
    exact decodes (ownChain packet) framed own
  · exact fun bytes extension stop ack long run => parseExtensionChain_within run long

/-- A packet with different values in its fields. -/
def synPacket : UtpPacket := ⟨typeSyn, 1, 2, 3, 4, 5, 6, [7], [8]⟩

theorem utp_packet_round_trip_skipping : decodePacket (encodeWith synPacket [(2, [9]), (1, [7])]) = .ok synPacket := by
  refine (utp_packet_round_trip synPacket (by decide) (by decide)).2.2.1 _ ?_ rfl
  simp [Extension.Framed, extNone]

end Superseedr.Utp
